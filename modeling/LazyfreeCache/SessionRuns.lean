import LazyfreeCache.Sessions

/-!
What the cache shows to a client that keeps to its locks. The invariant says,
key by key and lock by lock, that a page that can be read shows the last value
of the store. A read that its unlock validates has therefore read the last
value, although other keys were written, dropped and evicted in between.
-/
namespace LazyfreeCache.SessionRuns

open ProgramLogic EventReplay State LazyfreeOps FallthroughOps Refinement Reads Allocation
open Writes Frames Accounting Client Upgrade Commits Slots LossyStore Sessions

/-- The page of the key, if it can be read, shows the value. -/
def KeyShows (s : Core) (x : Option PageBytes) (k : Key) : Prop :=
  ∀ d, s.cache.Mapped k d → Alive s d → ∃ y, x = some y ∧ Shows y (logical s d)

/-- What a lock that is held says about the value of its key. -/
structure LockShows (s : Core) (x : Option PageBytes) (L : RLock) : Prop where
  /-- The key has no page but that of the lock. -/
  only : ∀ d, L.head = .page d → ∀ e, s.cache.hmapGet L.key = some e → e = d
  shows : ∀ d, L.head = .page d → s.cache.label d = L.key → Alive s d →
    ∃ y, x = some y ∧ Shows y (logical s d) ∧ L.tail = logical s d (pageSize - 1)
  missed : L.head = .emptyPage → ∀ d, s.cache.Mapped L.key d → ¬ Alive s d

/-- The page of a write session shows what the session wrote. -/
structure Open (s : Core) (w : WLock) (x : PageBytes) : Prop where
  only : ∀ e, s.cache.hmapGet w.key = some e → e = w.slot
  /-- The kernel cannot take a page that was written to. -/
  stays : (s.mem w.slot).lazyfree = false ∨ x = unwritten
  shows : Shows x (s.mem w.slot).byte

/-- The simulation relation. -/
structure Matches (σ : Session) : Prop where
  key : ∀ l k, σ.holding.key l = some k → (σ.process.locks l).key = k
  once : ∀ l l' k, σ.holding.key l = some k → σ.holding.key l' = some k → l = l'
  idle : σ.holding.writing = none →
    σ.process.sys.cache.wlock = none ∧ σ.store.session = none
  writing : ∀ l, σ.holding.writing = some l → ∃ w x, σ.process.sys.cache.wlock = some w ∧
    σ.holding.key l = some w.key ∧ σ.store.session = some (w.key, x) ∧
    Open σ.process.sys.toCore w x
  values : ∀ k ≠ 0, (∀ w, σ.process.sys.cache.wlock = some w → w.key ≠ k) →
    KeyShows σ.process.sys.toCore (σ.store.latest k) k
  locks : ∀ l, σ.holding.Has l → LockShows σ.process.sys.toCore
    (σ.store.latest (σ.process.locks l).key) (σ.process.locks l)

variable {env : Env} {ft : FtCache} {σ τ : Session} {s t : Sys} {k key : Key} {l : ℕ}
  {x : Option PageBytes}

/-! ### Frames -/

theorem KeyShows.spares {s t : Core} (h : KeyShows s x k) (hspares : Spares k s t) :
    KeyShows t x k := by
  rintro d ⟨hmap, hlabel⟩ halive
  obtain ⟨hlabel', hkept⟩ := hspares.label d hlabel
  obtain ⟨halive', hsame⟩ := hkept halive
  obtain ⟨y, hy, hshows⟩ := h d ⟨hspares.map d hmap, hlabel'⟩ halive'
  exact ⟨y, hy, fun i v hv => (hsame.logical i).trans (hshows i v hv)⟩

theorem LockShows.spares {s t : Core} {L : RLock} (h : LockShows s x L)
    (hspares : Spares L.key s t) : LockShows t x L := by
  refine ⟨fun d hd e he => h.only d hd e (hspares.map e he), fun d hd hlabel halive => ?_,
    fun hhead d hmapped halive => ?_⟩
  · obtain ⟨hlabel', hkept⟩ := hspares.label d hlabel
    obtain ⟨halive', hsame⟩ := hkept halive
    obtain ⟨y, hy, hshows, htail⟩ := h.shows d hd hlabel' halive'
    exact ⟨y, hy, fun i v hv => (hsame.logical i).trans (hshows i v hv),
      htail.trans (hsame.logical _).symm⟩
  · obtain ⟨hlabel', hkept⟩ := hspares.label d hmapped.2
    exact h.missed hhead d ⟨hspares.map d hmapped.1, hlabel'⟩ (hkept halive).1

theorem lockShows_of_emptyPage {s : Core} {L : RLock} (hhead : L.head = .emptyPage)
    (hmissed : ∀ d, s.cache.Mapped L.key d → ¬ Alive s d) : LockShows s x L where
  only d hd := by cases hhead.symm.trans hd
  shows d hd := by cases hhead.symm.trans hd
  missed _ := hmissed

/-- A read lock sees the value of its key. -/
theorem lockShows_of_readLocked {L : RLock} (h : ReadLocked env s key L t)
    (hvalue : KeyShows s.toCore x key) : LockShows t.toCore x L := by
  cases h with
  | miss hkey hhead hmissing =>
    subst hkey
    exact lockShows_of_emptyPage hhead fun d hmapped => absurd hmapped (hmissing d)
  | gone p hkey hhead hmapped hdead =>
    subst hkey
    refine lockShows_of_emptyPage hhead fun d hd => ?_
    rw [cache_after] at hd
    obtain rfl := hd.unique hmapped
    exact hdead
  | hit p hkey hhead hmapped halive htail =>
    subst hkey
    refine ⟨fun d hd e he => ?_, fun d hd hlabel halive' => ?_, fun hempty => ?_⟩
    · obtain rfl : p = d := Head.page.inj (hhead.symm.trans hd)
      rw [cache_after] at he
      exact Option.some.inj (he.symm.trans hmapped.1)
    · obtain rfl : p = d := Head.page.inj (hhead.symm.trans hd)
      obtain ⟨y, hy, hshows⟩ := hvalue p hmapped (alive_of_alive_after halive')
      exact ⟨y, hy, fun i v hv => (logical_after halive' i).trans (hshows i v hv), htail⟩
    · cases hhead.symm.trans hempty

theorem Matches.nonzero (h : Regular σ.process) (hm : Matches σ) {k : Key}
    (hk : σ.holding.key l = some k) : k ≠ 0 := by
  rw [← hm.key l k hk]
  exact h.nonzero l

/-- The write lock is on the key of the lock that was handed to it. -/
theorem Matches.wlock_key (hm : Matches σ) (hl : σ.holding.key l = some key)
    (hwriting : ∀ l', σ.holding.writing = some l' → l' = l) {w : WLock}
    (hw : σ.process.sys.cache.wlock = some w) : w.key = key := by
  cases hwr : σ.holding.writing with
  | none => cases (hm.idle hwr).1.symm.trans hw
  | some l' =>
    obtain rfl := hwriting l' hwr
    obtain ⟨w', x, hw', hkey, -⟩ := hm.writing l' hwr
    cases hw.symm.trans hw'
    exact Option.some.inj (hkey.symm.trans hl)

/-- Keys and locks that a call on another key spares. -/
theorem Matches.others (h : Regular σ.process) (hm : Matches σ) (hl : σ.holding.key l = some key)
    (hwriting : ∀ l', σ.holding.writing = some l' → l' = l)
    (hspares : ∀ k ≠ 0, key ≠ k → Spares k σ.process.sys.toCore t.toCore)
    {latest : Key → Option PageBytes} (hlatest : ∀ k, key ≠ k → latest k = σ.store.latest k) :
    (∀ k ≠ 0, key ≠ k → KeyShows t.toCore (latest k) k) ∧
      ∀ l', l' ≠ l → σ.holding.key l' ≠ none →
        LockShows t.toCore (latest (σ.process.locks l').key) (σ.process.locks l') := by
  refine ⟨fun k hk hne => ?_, fun l' hl' hheld => ?_⟩
  · rw [hlatest k hne]
    refine (hm.values k hk fun w hw => ?_).spares (hspares k hk hne)
    rw [hm.wlock_key hl hwriting hw]
    exact hne
  · obtain ⟨k, hk⟩ := Option.ne_none_iff_exists'.mp hheld
    have hkey := hm.key l' k hk
    have hne : key ≠ (σ.process.locks l').key := by
      rintro rfl
      exact hl' (hm.once l' l k hk (hkey ▸ hl))
    rw [hlatest _ hne]
    exact (hm.locks l' ⟨hheld, fun hw => hl' (hwriting l' hw)⟩).spares
      (hspares _ (h.nonzero l') hne)

/-! ### What the calls change -/

theorem Open.after {w : WLock} {x : PageBytes} (h : Open s.toCore w x) (env : Env) (n : ℕ) :
    Open (after env n s).toCore w x := by
  refine ⟨fun e he => ?_, ?_, ?_⟩
  · rw [cache_after] at he
    exact h.only e he
  · rcases h.stays with hstored | hx
    · exact .inl (by rw [mem_after_stored env n hstored, hstored])
    · exact .inr hx
  · rcases h.stays with hstored | rfl
    · rw [mem_after_stored env n hstored]
      exact h.shows
    · intro i v hv
      cases hv

/-- Accesses change nothing that is held. -/
theorem Matches.after (hm : Matches σ) (env : Env) (n : ℕ) :
    Matches ⟨⟨after env n σ.process.sys, σ.process.locks⟩, σ.store, σ.holding⟩ := by
  refine ⟨hm.key, hm.once, fun hwr => ?_, fun l hwr => ?_, fun k hk hw => ?_, fun l hl => ?_⟩
  · rw [cache_after]
    exact hm.idle hwr
  · obtain ⟨w, x, hw, hkey, hsession, hopen⟩ := hm.writing l hwr
    exact ⟨w, x, by rw [cache_after, hw], hkey, hsession, hopen.after env n⟩
  · rw [cache_after] at hw
    exact (hm.values k hk hw).spares (spares_after k env n _)
  · exact (hm.locks l hl).spares (spares_after _ env n _)

theorem Matches.key_update (hm : Matches σ) (hl : σ.holding.key l = some key) {L : RLock}
    (hkey : L.key = key) (l' : ℕ) (k : Key) (hk : σ.holding.key l' = some k) :
    (Function.update σ.process.locks l L l').key = k := by
  by_cases hll : l' = l
  · subst hll
    rw [Function.update_self, hkey]
    exact Option.some.inj (hl.symm.trans hk)
  · rw [Function.update_of_ne hll]
    exact hm.key l' k hk

/-- A lock that is held gets a new page. -/
theorem Matches.setLock (hm : Matches σ) (hl : σ.holding.key l = some key) {L : RLock}
    (hkey : L.key = key) (hshows : LockShows σ.process.sys.toCore (σ.store.latest key) L) :
    Matches ⟨⟨σ.process.sys, Function.update σ.process.locks l L⟩, σ.store, σ.holding⟩ := by
  refine ⟨hm.key_update hl hkey, hm.once, hm.idle, hm.writing, hm.values, fun l' hl' => ?_⟩
  change LockShows σ.process.sys.toCore
    (σ.store.latest (Function.update σ.process.locks l L l').key)
    (Function.update σ.process.locks l L l')
  by_cases hll : l' = l
  · rw [hll, Function.update_self, hkey]
    exact hshows
  · rw [Function.update_of_ne hll]
    exact hm.locks l' hl'

/-- A lock is released and its key settled. -/
theorem Matches.release (h : Regular σ.process) (hm : Matches σ)
    (hl : σ.holding.key l = some key) (hwriting : ∀ l', σ.holding.writing = some l' → l' = l)
    (hw : t.cache.wlock = none)
    (hspares : ∀ k ≠ 0, key ≠ k → Spares k σ.process.sys.toCore t.toCore)
    {store : Store Key PageBytes} (hsession : store.session = none)
    (hlatest : ∀ k, key ≠ k → store.latest k = σ.store.latest k)
    (hvalue : KeyShows t.toCore (store.latest key) key) :
    Matches ⟨⟨t, σ.process.locks⟩, store, ⟨Function.update σ.holding.key l none, none⟩⟩ := by
  obtain ⟨hvalues, hlocks⟩ := hm.others h hl hwriting hspares hlatest
  have hheld : ∀ l' k, Function.update σ.holding.key l none l' = some k →
      l' ≠ l ∧ σ.holding.key l' = some k := by
    intro l' k hk
    by_cases hll : l' = l
    · rw [hll, Function.update_self] at hk
      cases hk
    · rw [Function.update_of_ne hll] at hk
      exact ⟨hll, hk⟩
  refine ⟨fun l' k hk => hm.key l' k (hheld l' k hk).2,
    fun l₁ l₂ k h₁ h₂ => hm.once l₁ l₂ k (hheld l₁ k h₁).2 (hheld l₂ k h₂).2,
    fun _ => ⟨hw, hsession⟩, fun l' hl' => (by cases hl'), fun k hk _ => ?_, fun l' hl' => ?_⟩
  · by_cases hkk : key = k
    · subst hkk
      exact hvalue
    · exact hvalues k hk hkk
  · obtain ⟨k, hk⟩ := Option.ne_none_iff_exists'.mp hl'.1
    obtain ⟨hne, hk'⟩ := hheld l' k hk
    exact hlocks l' hne (by rw [hk']; exact Option.some_ne_none k)

/-- A lock is handed to a write lock. -/
theorem Matches.open (h : Regular σ.process) (hm : Matches σ)
    (hl : σ.holding.key l = some key) (hidle : σ.holding.writing = none) {L : RLock}
    (hkey : L.key = key) {w : WLock} (hw : t.cache.wlock = some w) (hwkey : w.key = key)
    (hspares : ∀ k ≠ 0, key ≠ k → Spares k σ.process.sys.toCore t.toCore) {y : PageBytes}
    (hopen : Open t.toCore w y) :
    Matches ⟨⟨t, Function.update σ.process.locks l L⟩, ⟨σ.store.latest, some (key, y)⟩,
      ⟨σ.holding.key, some l⟩⟩ := by
  obtain ⟨hvalues, hlocks⟩ := hm.others h hl (fun l' hl' => by cases hidle.symm.trans hl') hspares
    fun k _ => Eq.refl (σ.store.latest k)
  refine ⟨hm.key_update hl hkey, hm.once, fun hwr => (by cases hwr), fun l' hl' => ?_,
    fun k hk hne => ?_, fun l' hl' => ?_⟩
  · cases hl'
    exact ⟨w, y, hw, by rw [hwkey]; exact hl, by rw [hwkey], hopen⟩
  · exact hvalues k hk fun hkk => hne w hw (hwkey.trans hkk)
  · have hll : l' ≠ l := fun hll => hl'.2 (by rw [hll])
    change LockShows t.toCore (σ.store.latest (Function.update σ.process.locks l L l').key)
      (Function.update σ.process.locks l L l')
    rw [Function.update_of_ne hll]
    exact hlocks l' hll hl'.1

/-- A store is one more byte that the page shows, and the page stays from then on. -/
theorem Open.store {w : WLock} {y : PageBytes} (h : Open s.toCore w y) (env : Env)
    (offset : Fin pageSize) (v : UInt8) :
    Open (storing env s w.slot offset v).toCore w (Function.update y offset (some v)) := by
  have hmem : (storing env s w.slot offset v).mem w.slot =
      ((s.kernel env).mem w.slot).store offset v := mem_storing env s w.slot offset v
  refine ⟨h.only, .inl (by rw [hmem]; rfl), fun i b hb => ?_⟩
  rw [hmem]
  change Function.update ((s.kernel env).mem w.slot).byte offset v i = b
  by_cases hi : i = offset
  · rw [hi, Function.update_self] at hb ⊢
    exact Option.some.inj hb
  · rw [Function.update_of_ne hi] at hb
    rw [Function.update_of_ne (fun heq => hi (Fin.ext heq))]
    rcases h.stays with hstored | rfl
    · rw [mem_kernel_of_stored hstored]
      exact h.shows i b hb
    · cases hb

/-- The page of the open session changes. -/
theorem Matches.edit (h : Regular σ.process) (hm : Matches σ) {w : WLock}
    (hwr : σ.holding.writing = some l) (hkey : σ.holding.key l = some w.key)
    (hcache : t.cache.wlock = some w)
    (hspares : ∀ k ≠ 0, w.key ≠ k → Spares k σ.process.sys.toCore t.toCore) {y : PageBytes}
    (hopen : Open t.toCore w y) :
    Matches ⟨⟨t, σ.process.locks⟩, ⟨σ.store.latest, some (w.key, y)⟩, σ.holding⟩ := by
  obtain ⟨hvalues, hlocks⟩ := hm.others h hkey
    (fun l' hl' => Option.some.inj (hl'.symm.trans hwr)) hspares
    fun k _ => Eq.refl (σ.store.latest k)
  refine ⟨hm.key, hm.once, fun hnone => (by cases hnone.symm.trans hwr), fun l' hl' => ?_,
    fun k hk hne => hvalues k hk (hne w hcache), fun l' hl' => ?_⟩
  · obtain rfl : l = l' := Option.some.inj (hwr.symm.trans hl')
    exact ⟨w, y, hcache, hkey, rfl, hopen⟩
  · exact hlocks l' (fun hll => hl'.2 (hll ▸ hwr)) hl'.1

/-! ### Calls -/

/-- The key that a call may write or drop. -/
def touches (h : Holding) : Call → Option Key
  | .readUnlock l _ => h.key l
  | .writeLock l => h.key l
  | .store _ _ => h.writing.bind h.key
  | .writeUnlock _ => h.writing.bind h.key
  | _ => none

/-- What every allowed call does: it follows the store, and spares the keys it does not touch. -/
def Follows (σ : Session) (call : Call) (q : Process) : Prop :=
  Matches (σ.next call q) ∧
    ∀ k ≠ 0, touches σ.holding call ≠ some k → Spares k σ.process.sys.toCore q.sys.toCore

theorem follows_rlock (hm : Matches σ) (hallows : σ.holding.Allows (.rlock l key)) :
    Follows σ (.rlock l key)
      ⟨σ.process.sys, Function.update σ.process.locks l (.fresh key)⟩ := by
  obtain ⟨-, hfree, hnew⟩ := hallows
  have hother : ∀ l', σ.holding.key l' ≠ none → l' ≠ l := fun l' hl' hll => hl' (hll ▸ hfree)
  refine ⟨⟨fun l' k hk => ?_, fun l₁ l₂ k h₁ h₂ => ?_, hm.idle, fun l' hl' => ?_, hm.values,
    fun l' hl' => ?_⟩, fun k _ _ => spares_refl k _⟩
  · change Function.update σ.holding.key l (some key) l' = some k at hk
    change (Function.update σ.process.locks l (.fresh key) l').key = k
    by_cases hll : l' = l
    · rw [hll, Function.update_self] at hk ⊢
      exact Option.some.inj hk
    · rw [Function.update_of_ne hll] at hk ⊢
      exact hm.key l' k hk
  · change Function.update σ.holding.key l (some key) l₁ = some k at h₁
    change Function.update σ.holding.key l (some key) l₂ = some k at h₂
    rw [Function.update_apply] at h₁ h₂
    split at h₁ <;> split at h₂ <;> rename_i hl₁ hl₂
    · rw [hl₁, hl₂]
    · exact absurd (h₂.trans h₁.symm) (hnew l₂)
    · exact absurd (h₁.trans h₂.symm) (hnew l₁)
    · exact hm.once l₁ l₂ k h₁ h₂
  · obtain ⟨w, x, hw, hkey, hrest⟩ := hm.writing l' hl'
    refine ⟨w, x, hw, ?_, hrest⟩
    change Function.update σ.holding.key l (some key) l' = some w.key
    rw [Function.update_of_ne (hother l' (by rw [hkey]; exact Option.some_ne_none _))]
    exact hkey
  · change LockShows σ.process.sys.toCore
      (σ.store.latest (Function.update σ.process.locks l (.fresh key) l').key)
      (Function.update σ.process.locks l (.fresh key) l')
    obtain ⟨hheld, hwr⟩ := hl'
    change Function.update σ.holding.key l (some key) l' ≠ none at hheld
    by_cases hll : l' = l
    · rw [hll, Function.update_self]
      exact ⟨fun d hd => (by cases hd), fun d hd => (by cases hd), fun hd => by cases hd⟩
    · rw [Function.update_of_ne hll] at hheld ⊢
      exact hm.locks l' ⟨hheld, hwr⟩

/-- Without a write lock no lock was handed to one. -/
theorem Matches.not_writing (hm : Matches σ) (hw : σ.process.sys.cache.wlock = none) :
    σ.holding.writing = none := by
  cases hwr : σ.holding.writing with
  | none => rfl
  | some l =>
    obtain ⟨w, x, hw', -⟩ := hm.writing l hwr
    cases hw.symm.trans hw'

theorem follows_readLock (env : Env) (ft : FtCache) (h : Regular σ.process) (hm : Matches σ)
    (hhas : σ.holding.Has l) :
    wp (exec env ft (.readLock l)) (fun _ q => Follows σ (.readLock l) q) (fun _ => True)
      σ.process := by
  obtain ⟨key, hl⟩ := Option.ne_none_iff_exists'.mp hhas.1
  have hkey := hm.key l key hl
  simp only [exec, wp_bind, wp_get, wp_onSys]
  refine wp_of_unlocked (E := fun _ => True) trivial fun hw => wp_readLock hw fun L t hL => ?_
  rw [hkey] at hL
  have hshows := lockShows_of_readLocked hL (hm.values key (hm.nonzero h hl)
    fun w hw' => by cases hw.symm.trans hw')
  have hLkey : L.key = key := by cases hL <;> assumption
  obtain ⟨n, rfl⟩ : ∃ n, t = after env n σ.process.sys := by
    cases hL with
    | miss => exact ⟨0, rfl⟩
    | gone => exact ⟨1, rfl⟩
    | hit => exact ⟨2, rfl⟩
  exact ⟨(hm.after env n).setLock hl hLkey hshows, fun k _ _ => spares_after k env n _⟩

theorem follows_read (env : Env) (ft : FtCache) (hm : Matches σ) (offset size : UInt64) :
    wp (exec env ft (.read l offset size)) (fun _ q => Follows σ (.read l offset size) q)
      (fun _ => True) σ.process := by
  simp only [exec, wp_bind, wp_get, wp_onSys]
  refine wp_mono (wp_read env _ _ _ offset.toNat_lt σ.process.sys) ?_ fun _ _ => trivial
  rintro _ t ⟨n, rfl⟩
  exact ⟨hm.after env n, fun k _ _ => spares_after k env n _⟩

theorem follows_store (env : Env) (ft : FtCache) (h : Regular σ.process) (hm : Matches σ)
    (offset : Fin pageSize) (v : UInt8) :
    wp (exec env ft (.store offset v)) (fun _ q => Follows σ (.store offset v) q)
      (fun _ => True) σ.process := by
  simp only [exec, wp_onSys]
  unfold storeLocked
  rw [wp_bind, wp_get]
  split
  · rename_i hw
    have hsame : σ.next (.store offset v) σ.process = σ := by
      change (⟨σ.process, σ.store.step (.edit _), σ.holding⟩ : Session) = σ
      rw [Store.step_edit_none _ (hm.idle (hm.not_writing hw)).2]
    refine ⟨?_, fun k _ _ => spares_refl k _⟩
    change Matches (σ.next (.store offset v) σ.process)
    rwa [hsame]
  · rename_i w hw
    cases hwr : σ.holding.writing with
    | none => cases (hm.idle hwr).1.symm.trans hw
    | some l =>
      obtain ⟨w', x, hw', hkey, hsession, hopen⟩ := hm.writing l hwr
      obtain rfl : w = w' := Option.some.inj (hw.symm.trans hw')
      have hlabel : σ.process.sys.cache.label w.slot = w.key := (h.exact.wlock w hw).2
      have hspares : ∀ k ≠ 0, w.key ≠ k →
          Spares k σ.process.sys.toCore (storing env σ.process.sys w.slot offset v).toCore :=
        fun k _ hk => spares_storing env offset v (by rw [hlabel]; exact hk)
      refine ⟨?_, fun k hzero hk => hspares k hzero fun hkk => hk ?_⟩
      · change Matches ⟨⟨storing env σ.process.sys w.slot offset v, σ.process.locks⟩,
          σ.store.step (.edit fun x => Function.update x offset (some v)), σ.holding⟩
        rw [Store.step_edit _ hsession]
        exact hm.edit (t := storing env σ.process.sys w.slot offset v) h hwr hkey hw hspares
          (hopen.store env offset v)
      · change σ.holding.writing.bind σ.holding.key = some k
        rw [hwr, ← hkk]
        exact hkey

/-- The lock is released and its key keeps its value, or is discarded. -/
theorem follows_released (h : Regular σ.process) (hm : Matches σ)
    (hl : σ.holding.key l = some key) (hw : t.cache.wlock = none)
    (hidle : σ.holding.writing = none) {drop : Bool}
    (hspares : ∀ k ≠ 0, key ≠ k → Spares k σ.process.sys.toCore t.toCore)
    (hvalue : KeyShows t.toCore (if drop then none else σ.store.latest key) key) :
    Follows σ (.readUnlock l drop) ⟨t, σ.process.locks⟩ := by
  have hkey := hm.key l key hl
  refine ⟨?_, fun k hk htouch => hspares k hk fun hkk => htouch (hkk ▸ hl)⟩
  have hwriting : ∀ l', σ.holding.writing = some l' → l' = l := fun l' hl' => by
    cases hidle.symm.trans hl'
  have hnext : σ.holding.next (.readUnlock l drop) =
      ⟨Function.update σ.holding.key l none, none⟩ := by
    rw [← hidle]
    rfl
  cases drop with
  | false =>
    change Matches ⟨⟨t, σ.process.locks⟩, σ.store, σ.holding.next (.readUnlock l false)⟩
    rw [hnext]
    exact hm.release h hl hwriting hw hspares (hm.idle hidle).2 (fun _ _ => rfl) hvalue
  | true =>
    change Matches ⟨⟨t, σ.process.locks⟩,
      ⟨Function.update σ.store.latest (σ.process.locks l).key none, σ.store.session⟩,
      σ.holding.next (.readUnlock l true)⟩
    rw [hnext, hkey]
    refine hm.release h hl hwriting hw hspares (hm.idle hidle).2
      (fun k hne => Function.update_of_ne (Ne.symm hne) _ _) ?_
    change KeyShows t.toCore (Function.update σ.store.latest key none key) key
    rw [Function.update_self]
    exact hvalue

theorem keyShows_of_missing {s : Core} (x : Option PageBytes)
    (h : ∀ d, s.cache.Mapped k d → ¬ Alive s d) : KeyShows s x k :=
  fun d hd halive => absurd halive (h d hd)

theorem follows_readUnlock (env : Env) (ft : FtCache) (h : Regular σ.process) (hm : Matches σ)
    (hhas : σ.holding.Has l) (drop : Bool) :
    wp (exec env ft (.readUnlock l drop)) (fun _ q => Follows σ (.readUnlock l drop) q)
      (fun _ => True) σ.process := by
  obtain ⟨key, hl⟩ := Option.ne_none_iff_exists'.mp hhas.1
  have hkey := hm.key l key hl
  have hzero := hm.nonzero h hl
  have hshows := hm.locks l hhas
  rw [hkey] at hshows
  simp only [exec, wp_bind, wp_get, wp_onSys]
  by_cases hw : σ.process.sys.cache.wlock = none
  · have hidle := hm.not_writing hw
    have hvalue : KeyShows σ.process.sys.toCore (σ.store.latest key) key :=
      hm.values key hzero fun w hw' => by cases hw.symm.trans hw'
    cases hhead : (σ.process.locks l).head with
    | null =>
      unfold lazyfreeReadUnlock
      simp [hhead]
    | emptyPage =>
      have hfollows : Follows σ (.readUnlock l drop) σ.process := by
        refine follows_released h hm hl hw hidle (fun k _ _ => spares_refl k _) ?_
        cases drop with
        | false => exact hvalue
        | true => exact keyShows_of_missing none (hkey ▸ hshows.missed hhead)
      unfold lazyfreeReadUnlock
      simp only [wp_bind, wp_get, wp_require, hhead, hw]
      exact ⟨fun _ => ⟨fun _ => hfollows, fun _ => trivial⟩, fun _ => trivial⟩
    | page d =>
      have hafter : (after env 1 σ.process.sys).cache.wlock = none := by rw [cache_after, hw]
      refine wp_readUnlock hhead hw (index_lt h.sound.accounted (h.sound.locks l d hhead))
        (fun _ => trivial) (fun _ hlabel => ?_) (fun _ _ hdrop => ?_) (fun _ hlabel hdrop _ => ?_)
        (fun _ _ _ _ => trivial)
      · -- the slot was given away, so the key has no page
        refine follows_released h hm hl hafter hidle (fun k _ _ => spares_after k env 1 _) ?_
        refine keyShows_of_missing _ fun e he => absurd ?_ hlabel
        rw [cache_after] at he
        rw [hkey, ← hshows.only d hhead e (hkey ▸ he.1)]
        exact he.2
      · subst hdrop
        exact follows_released h hm hl hafter hidle (fun k _ _ => spares_after k env 1 _)
          (hvalue.spares (spares_after key env 1 _))
      · subst hdrop
        refine follows_released h hm hl rfl hidle (fun k hk hne => ?_) ?_
        · refine (spares_after k env 1 _).trans (spares_perform hk ?_)
          change (after env 1 σ.process.sys).cache.label d ≠ k
          rw [cache_after, hlabel, hkey]
          exact hne
        · refine keyShows_of_missing none fun e he => absurd he.1 ?_
          change ((after env 1 σ.process.sys).cache.drop d).hmapGet key ≠ some e
          rw [Cache.hmapGet_drop, cache_after, if_pos ⟨hzero, by rw [hlabel, hkey]⟩]
          exact (Option.some_ne_none e).symm
  · unfold lazyfreeReadUnlock
    simp [hw]

/-- A fresh slot that was found for the key. -/
theorem follows_created (h : Regular σ.process) (hm : Matches σ) (hl : σ.holding.key l = some key)
    (hidle : σ.holding.writing = none) {u : Sys} {j : ℕ} {d : EntryDescriptor} {L : RLock}
    (hkey : L.key = key) (hhead : ∀ p, L.head ≠ .page p)
    (hspares : ∀ k ≠ 0, Spares k σ.process.sys.toCore u.toCore) :
    Follows σ (.writeLock l) ⟨perform (searched env u j) (.allocated d key),
      Function.update σ.process.locks l L⟩ := by
  have hspares' : ∀ k ≠ 0, key ≠ k → Spares k σ.process.sys.toCore
      (perform (searched env u j) (.allocated d key)).toCore :=
    fun k hk hne => (hspares k hk).trans (spares_allocated hk env u j d hne)
  refine ⟨?_, fun k hk htouch => hspares' k hk fun hkk => htouch (hkk ▸ hl)⟩
  have haction : action σ.process (.writeLock l) ⟨perform (searched env u j) (.allocated d key),
      Function.update σ.process.locks l L⟩ = .create key unwritten := by
    unfold action
    simp only [Function.update_self]
    cases hL : L.head with
    | page p => exact absurd hL (hhead p)
    | _ => rw [hm.key l key hl]
  change Matches ⟨_, σ.store.step (action σ.process (.writeLock l) _), ⟨σ.holding.key, some l⟩⟩
  rw [haction]
  refine hm.open h hl hidle hkey (w := ⟨d, key⟩) rfl rfl hspares' ⟨fun e he => ?_, .inr rfl, ?_⟩
  · change ((searched env u j).cache.allocate d key).hmapGet key = some e at he
    rw [Cache.hmapGet_allocate, if_pos rfl] at he
    exact (Option.some.inj he).symm
  · intro i v hv
    cases hv

/-- The page of the lock, with its last value. -/
theorem follows_reopened (h : Regular σ.process) (hm : Matches σ) (hhas : σ.holding.Has l)
    (hl : σ.holding.key l = some key) (hidle : σ.holding.writing = none) {p : EntryDescriptor}
    (hhead : (σ.process.locks l).head = .page p) (hlabel : σ.process.sys.cache.label p = key)
    (halive : Alive (pinned env σ.process.sys p).toCore p) :
    Follows σ (.writeLock l) ⟨upgradedTo env σ.process.sys p key,
      Function.update σ.process.locks l (σ.process.locks l)⟩ := by
  have hkey := hm.key l key hl
  have hshows := hm.locks l hhas
  rw [hkey] at hshows
  have hindex : p.index < 2 ^ 16 := (h.sound.accounted.handed_lt p
    (h.sound.locks l p hhead)).trans_le h.exact.pages
  have hspares : ∀ k ≠ 0, key ≠ k →
      Spares k σ.process.sys.toCore (upgradedTo env σ.process.sys p key).toCore :=
    fun k hk hne => spares_upgradedTo hk env hindex hlabel hne halive
  refine ⟨?_, fun k hk htouch => hspares k hk fun hkk => htouch (hkk ▸ hl)⟩
  obtain ⟨y, hy, hbytes, -⟩ := hshows.shows p hhead (hlabel.trans hkey.symm) (mem_pinned halive).1
  obtain ⟨hstored, hpage⟩ := mem_upgradedTo key halive hindex
  have haction : action σ.process (.writeLock l) ⟨upgradedTo env σ.process.sys p key,
      Function.update σ.process.locks l (σ.process.locks l)⟩ = .reopen key := by
    unfold action
    simp only [Function.update_self, hhead, hkey]
  change Matches ⟨_, σ.store.step (action σ.process (.writeLock l) _), ⟨σ.holding.key, some l⟩⟩
  rw [haction, Store.step_reopen hy]
  refine hm.open h hl hidle hkey (w := upgradeLock p key) (by rw [cache_upgradedTo]; rfl) rfl
    hspares ⟨fun e he => ?_, .inl ?_, fun i v hv => ?_⟩
  · rw [cache_upgradedTo, Cache.hmapGet_upgrade] at he
    rw [upgradeLock_slot key hindex]
    exact hshows.only p hhead e (hkey ▸ he)
  · rw [upgradeLock_slot key hindex]
    exact hstored
  · rw [upgradeLock_slot key hindex, hpage i]
    exact hbytes i v hv

theorem follows_writeLock (env : Env) (ft : FtCache) (h : Regular σ.process) (hm : Matches σ)
    (hhas : σ.holding.Has l) :
    wp (exec env ft (.writeLock l)) (fun _ q => Follows σ (.writeLock l) q) (fun _ => True)
      σ.process := by
  obtain ⟨key, hl⟩ := Option.ne_none_iff_exists'.mp hhas.1
  rw [← hm.key l key hl] at hl
  simp only [exec, wp_bind, wp_get, wp_onSys]
  refine wp_of_unlocked (E := fun _ => True) trivial fun hw => ?_
  refine wp_mono (lazyfreeWriteLock_spec env _ σ.process.sys hw fun p hp =>
    index_lt h.sound.accounted (h.sound.locks l p hp)) ?_ fun _ _ => trivial
  rintro ⟨d, L⟩ t ht
  have hidle := hm.not_writing hw
  have hnulled : ∀ p, (σ.process.locks l).nulled.head ≠ .page p := fun p hp => by cases hp
  cases ht with
  | fresh j d hhead hfinds =>
    refine follows_created h hm hl hidle rfl (fun p hp => ?_) fun k _ => spares_refl k _
    rcases hhead with hhead | hhead <;> cases hhead.symm.trans hp
  | moved p j d hhead hlabel hfinds =>
    exact follows_created h hm hl hidle rfl hnulled fun k _ => spares_refl k _
  | torn p j d hhead hlabel hdead hfinds =>
    exact follows_created h hm hl hidle rfl hnulled fun k _ => spares_unpinned k env _ hdead
  | upgraded p hhead hlabel halive =>
    exact follows_reopened h hm hhas hl hidle hhead hlabel halive

theorem follows_writeUnlock (env : Env) (ft : FtCache) (h : Regular σ.process) (hm : Matches σ)
    (drop : Bool) :
    wp (exec env ft (.writeUnlock drop)) (fun _ q => Follows σ (.writeUnlock drop) q)
      (fun _ => True) σ.process := by
  simp only [exec, wp_onSys]
  cases hwr : σ.holding.writing with
  | none =>
    unfold lazyfreeWriteUnlock
    simp [(hm.idle hwr).1]
  | some l =>
    obtain ⟨w, x, hw, hl, hsession, hopen⟩ := hm.writing l hwr
    obtain ⟨hzero, hlabel⟩ := h.exact.wlock w hw
    have hwriting : ∀ l', σ.holding.writing = some l' → l' = l := fun l' hl' =>
      Option.some.inj (hl'.symm.trans hwr)
    have hnext : σ.holding.next (.writeUnlock drop) =
        ⟨Function.update σ.holding.key l none, none⟩ := by
      unfold Holding.next
      rw [hwr]
    have htouch : touches σ.holding (.writeUnlock drop) = some w.key := by
      change σ.holding.writing.bind σ.holding.key = some w.key
      rw [hwr]
      exact hl
    cases drop with
    | false =>
      rw [wp_of_ok (lazyfreeWriteUnlock_commit env hw)]
      have hspares : ∀ k ≠ 0, w.key ≠ k →
          Spares k σ.process.sys.toCore (sealed env σ.process.sys w).toCore :=
        fun k hk hne => spares_sealed hk env (by rw [hlabel]; exact hne)
      refine ⟨?_, fun k hk hne => hspares k hk fun hkk => hne (hkk ▸ htouch)⟩
      change Matches ⟨⟨sealed env σ.process.sys w, σ.process.locks⟩, σ.store.step .commit,
        σ.holding.next (.writeUnlock false)⟩
      rw [hnext, Store.step_commit hsession]
      refine hm.release h hl hwriting (by rw [cache_sealed]; rfl) hspares rfl
        (fun k hne => Function.update_of_ne (Ne.symm hne) _ _) fun d hd _ => ?_
      refine ⟨x, Function.update_self .., ?_⟩
      rw [cache_sealed] at hd
      rw [hopen.only d hd.1]
      rcases hopen.stays with hstored | rfl
      · intro i v hv
        rw [logical_sealed hstored]
        exact hopen.shows i v hv
      · intro i v hv
        cases hv
    | true =>
      have hrun := lazyfreeWriteUnlock_drop env hw
      split at hrun
      · rw [wp_of_ok hrun]
        have hspares : ∀ k ≠ 0, w.key ≠ k → Spares k σ.process.sys.toCore
            (perform σ.process.sys (.dropped w.slot (σ.process.sys.cache.label w.slot))).toCore :=
          fun k hk hne => spares_perform hk fun heq => hne (hlabel.symm.trans heq)
        refine ⟨?_, fun k hk hne => hspares k hk fun hkk => hne (hkk ▸ htouch)⟩
        change Matches ⟨⟨perform σ.process.sys (.dropped w.slot _), σ.process.locks⟩,
          σ.store.step .abandon, σ.holding.next (.writeUnlock true)⟩
        rw [hnext, Store.step_abandon hsession]
        refine hm.release h hl hwriting rfl hspares rfl
          (fun k hne => Function.update_of_ne (Ne.symm hne) _ _) ?_
        refine keyShows_of_missing _ fun e he => absurd he.1 ?_
        change (σ.process.sys.cache.drop w.slot).hmapGet w.key ≠ some e
        rw [Cache.hmapGet_drop, if_pos ⟨hzero, hlabel.symm⟩]
        exact (Option.some_ne_none e).symm
      · rw [wp_of_error hrun]
        trivial

/-- The step lemma. -/
theorem follows_exec {call : Call} {q : Process} (h : Regular σ.process) (hm : Matches σ)
    (hallows : σ.holding.Allows call) (hrun : exec env ft call σ.process = .ok ((), q)) :
    Follows σ call q := by
  cases call with
  | rlock l key =>
    cases hrun
    exact follows_rlock hm hallows
  | readLock l => exact (wp_of_ok hrun).mp (follows_readLock env ft h hm hallows)
  | read l offset size => exact (wp_of_ok hrun).mp (follows_read env ft hm offset size)
  | readUnlock l drop => exact (wp_of_ok hrun).mp (follows_readUnlock env ft h hm hallows drop)
  | writeLock l => exact (wp_of_ok hrun).mp (follows_writeLock env ft h hm hallows)
  | store offset v => exact (wp_of_ok hrun).mp (follows_store env ft h hm offset v)
  | writeUnlock drop => exact (wp_of_ok hrun).mp (follows_writeUnlock env ft h hm drop)
  | ftGet key => exact hallows.elim
  | ftDrop key => exact hallows.elim

theorem regular_exec {call : Call} {q : Process} (h : Regular σ.process)
    (hallows : σ.holding.Allows call) (hrun : exec env ft call σ.process = .ok ((), q)) :
    Regular q := by
  refine regular_of_exec h ?_ hrun
  cases call with
  | rlock l key => exact hallows.1
  | ftGet key => exact hallows.elim
  | ftDrop key => exact hallows.elim
  | _ => trivial

/-! ### Runs -/

/-- A client that has just created its cache. -/
def begin (s : Sys) (locks : ℕ → RLock) : Session := ⟨⟨s, locks⟩, Store.empty, Holding.nothing⟩

theorem matches_begin {l a : ℕ} (h : Created l a s) (locks : ℕ → RLock) :
    Matches (begin s locks) := by
  refine ⟨fun l k hk => (by cases hk), fun l l' k hk => (by cases hk), fun _ => ⟨h.wlock, rfl⟩,
    fun l hl => (by cases hl), fun k hk _ d hd _ => ?_, fun l hl => absurd rfl hl.1⟩
  cases (h.map k).symm.trans hd.1

/-- The run lemma. -/
theorem runs_matches {calls : List Call} (hruns : Runs env ft σ calls τ) (h : Regular σ.process)
    (hm : Matches σ) : Regular τ.process ∧ Matches τ := by
  induction hruns with
  | nil => exact ⟨h, hm⟩
  | cons hallows hrun hruns ih =>
    exact ih (regular_exec h hallows hrun) (follows_exec h hm hallows hrun).1

/-- Calls that are allowed one after the other and that return make a run. -/
theorem exists_runs {calls : List Call} {q : Process}
    (hallows : Along Holding.next Holding.Allows σ.holding calls)
    (hrun : run env ft calls σ.process = .ok ((), q)) :
    ∃ τ, Runs env ft σ calls τ ∧ τ.process = q ∧
      τ.holding = replay Holding.next σ.holding calls := by
  induction calls generalizing σ with
  | nil =>
    cases hrun
    exact ⟨σ, .nil σ, rfl, rfl⟩
  | cons call calls ih =>
    obtain ⟨p, hcall, hrest⟩ := (runAll_cons_ok _).mp hrun
    obtain ⟨τ, hruns, hprocess, hholding⟩ := ih (σ := σ.next call p) hallows.2 hrest
    exact ⟨τ, .cons hallows.1 hcall hruns, hprocess, hholding⟩

/-- A run in which no session on the key ends, and the key is not discarded. -/
inductive Unsettled (env : Env) (ft : FtCache) (k : Key) : Session → List Call → Session → Prop
  | nil (σ : Session) : Unsettled env ft k σ [] σ
  | cons {σ τ : Session} {call : Call} {calls : List Call} {q : Process}
      (hsettles : ¬ σ.store.Settles k (action σ.process call q))
      (hallows : σ.holding.Allows call) (hrun : exec env ft call σ.process = .ok ((), q))
      (hruns : Unsettled env ft k (σ.next call q) calls τ) : Unsettled env ft k σ (call :: calls) τ

/-- Only `lazyfree_write_unlock` without drop commits. -/
theorem call_of_commit {p q : Process} {call : Call} (h : action p call q = .commit) :
    call = .writeUnlock false := by
  cases call with
  | writeUnlock drop =>
    cases drop with
    | false => rfl
    | true => cases h
  | readUnlock l drop => cases drop <;> cases h
  | writeLock l =>
    unfold action at h
    dsimp only at h
    split at h <;> cases h
  | _ => cases h

/-- The last value of a key was there from the start, or it was committed in a session. -/
theorem runs_latest {calls : List Call} (hruns : Runs env ft σ calls τ) {y : PageBytes}
    (hy : τ.store.latest k = some y) :
    (σ.store.latest k = some y ∧ Unsettled env ft k σ calls τ) ∨
      ∃ left right μ q, calls = left ++ .writeUnlock false :: right ∧ Runs env ft σ left μ ∧
        μ.store.session = some (k, y) ∧
        exec env ft (.writeUnlock false) μ.process = .ok ((), q) ∧
        Unsettled env ft k (μ.next (.writeUnlock false) q) right τ := by
  induction hruns with
  | nil σ => exact .inl ⟨hy, .nil σ⟩
  | @cons σ τ call calls q hallows hrun hruns ih =>
    rcases ih hy with ⟨hlatest, hunsettled⟩ |
      ⟨left, right, μ, q', rfl, hleft, hsession, hcommit, hright⟩
    · by_cases hsettles : σ.store.Settles k (action σ.process call q)
      · obtain ⟨haction, hsession⟩ := Store.settles_value hsettles hlatest
        obtain rfl := call_of_commit haction
        exact .inr ⟨[], calls, σ, q, rfl, .nil σ, hsession, hrun, hunsettled⟩
      · have hbefore : σ.store.latest k = some y := (Store.latest_step hsettles).symm.trans hlatest
        exact .inl ⟨hbefore, .cons hsettles hallows hrun hunsettled⟩
    · exact .inr ⟨call :: left, right, μ, q', rfl, .cons hallows hrun hleft, hsession, hcommit,
        hright⟩

/-! ### A lock that is held -/

/-- The lock that a call takes, uses up or sets up. -/
def lockOf : Call → Option ℕ
  | .rlock l _ => some l
  | .readLock l => some l
  | .readUnlock l _ => some l
  | .writeLock l => some l
  | _ => none

theorem locks_exec {call : Call} {p q : Process} (hlock : lockOf call ≠ some l)
    (hrun : exec env ft call p = .ok ((), q)) : q.locks l = p.locks l := by
  have hframe : wp (exec env ft call) (fun _ q => q.locks l = p.locks l) (fun _ => True) p := by
    have hany : ∀ {α : Type} (m : M α) (P : α → Sys → Prop), (∀ a t, P a t) →
        wp m P (fun _ => True) p.sys := by
      intro α m P hP
      unfold wp
      split
      · exact hP _ _
      · trivial
    have hset : ∀ {l'} (L : RLock), lockOf call = some l' →
        Function.update p.locks l' L l = p.locks l := fun L hl' =>
      Function.update_of_ne (fun heq : l = _ => hlock (by rw [heq]; exact hl')) _ _
    cases call with
    | rlock l' key => exact hset _ rfl
    | readLock l' =>
      simp only [exec, wp_bind, wp_get, wp_onSys]
      exact hany _ _ fun L t => hset L rfl
    | writeLock l' =>
      simp only [exec, wp_bind, wp_get, wp_onSys]
      exact hany _ _ fun r t => hset r.2 rfl
    | _ =>
      simp only [exec, wp_bind, wp_get, wp_onSys]
      exact hany _ _ fun _ _ => by trivial
  exact (wp_of_ok hrun).mp hframe

/-- What a client that uses other locks leaves of a lock and its key. -/
structure Leaves (k : Key) (l : ℕ) (σ τ : Session) : Prop where
  has : τ.holding.Has l
  key : τ.holding.key l = some k
  lock : τ.process.locks l = σ.process.locks l
  latest : τ.store.latest k = σ.store.latest k
  spares : Spares k σ.process.sys.toCore τ.process.sys.toCore

theorem Leaves.trans {υ : Session} (h : Leaves k l σ τ) (h' : Leaves k l τ υ) : Leaves k l σ υ :=
  ⟨h'.has, h'.key, h'.lock.trans h.lock, h'.latest.trans h.latest, h.spares.trans h'.spares⟩

/-- A call that uses another lock leaves the lock held. -/
theorem has_next {h : Holding} {call : Call} (hallows : h.Allows call) (hhas : h.Has l)
    (hlock : lockOf call ≠ some l) : (h.next call).key l = h.key l ∧ (h.next call).Has l := by
  have hkey : (h.next call).key l = h.key l := by
    have hupdate : ∀ l' k, l' ≠ l → Function.update h.key l' k l = h.key l := fun l' k hne =>
      Function.update_of_ne (Ne.symm hne) _ _
    cases call with
    | rlock l' key => exact hupdate l' _ fun heq => hlock (congrArg some heq)
    | readUnlock l' drop => exact hupdate l' _ fun heq => hlock (congrArg some heq)
    | writeUnlock drop =>
      unfold Holding.next
      dsimp only
      split
      · rename_i l' hwr
        exact hupdate l' _ fun heq => hhas.2 (heq ▸ hwr)
      · rfl
    | _ => rfl
  refine ⟨hkey, by rw [hkey]; exact hhas.1, ?_⟩
  cases call with
  | writeLock l' => exact hlock
  | writeUnlock drop =>
    unfold Holding.next
    dsimp only
    split
    · exact (Option.some_ne_none l).symm
    · exact hhas.2
  | _ => exact hhas.2

/-- The key that an action settles is one that the call touches. -/
theorem touches_of_settles {call : Call} {q : Process} (hm : Matches σ)
    (hallows : σ.holding.Allows call) (h : σ.store.Settles k (action σ.process call q)) :
    touches σ.holding call = some k := by
  have hsession : ∀ y, σ.store.session = some (k, y) →
      σ.holding.writing.bind σ.holding.key = some k := by
    intro y hy
    cases hwr : σ.holding.writing with
    | none => cases (hm.idle hwr).2.symm.trans hy
    | some l =>
      obtain ⟨w, x, -, hkey, hsession, -⟩ := hm.writing l hwr
      cases hsession.symm.trans hy
      exact hkey
  cases call with
  | readUnlock l drop =>
    cases drop with
    | false => exact h.elim
    | true =>
      obtain ⟨key, hl⟩ := Option.ne_none_iff_exists'.mp hallows.1
      have hk : (σ.process.locks l).key = k := h
      rw [hm.key l key hl] at hk
      exact hk ▸ hl
  | writeLock l =>
    unfold action at h
    dsimp only at h
    split at h <;> exact h.elim
  | writeUnlock drop =>
    cases drop with
    | false =>
      obtain ⟨y, hy⟩ := h
      exact hsession y hy
    | true =>
      obtain ⟨y, hy⟩ := h
      exact hsession y hy
  | _ => exact h.elim

theorem leaves_exec {call : Call} {q : Process} (h : Regular σ.process) (hm : Matches σ)
    (hallows : σ.holding.Allows call) (hrun : exec env ft call σ.process = .ok ((), q))
    (hhas : σ.holding.Has l) (hl : σ.holding.key l = some k) (hlock : lockOf call ≠ some l) :
    Leaves k l σ (σ.next call q) := by
  -- another lock has another key
  have hother : ∀ l', σ.holding.key l' = some k → l' = l := fun l' hk => hm.once l' l k hk hl
  have htouch : touches σ.holding call ≠ some k := by
    have hwriting : σ.holding.writing.bind σ.holding.key ≠ some k := by
      intro hk
      obtain ⟨l', hl', hk'⟩ := Option.bind_eq_some_iff.mp hk
      exact hhas.2 (hother l' hk' ▸ hl')
    cases call with
    | readUnlock l' drop => exact fun hk => hlock (congrArg some (hother l' hk))
    | writeLock l' => exact fun hk => hlock (congrArg some (hother l' hk))
    | store offset v => exact hwriting
    | writeUnlock drop => exact hwriting
    | _ => exact (Option.some_ne_none k).symm
  obtain ⟨hkey, hhas'⟩ := has_next hallows hhas hlock
  exact ⟨hhas', hkey.trans hl, locks_exec hlock hrun,
    Store.latest_step fun hsettles => htouch (touches_of_settles hm hallows hsettles),
    (follows_exec h hm hallows hrun).2 k (hm.nonzero h hl) htouch⟩

theorem runs_leaves {calls : List Call} (hruns : Runs env ft σ calls τ) (h : Regular σ.process)
    (hm : Matches σ) (hhas : σ.holding.Has l) (hl : σ.holding.key l = some k)
    (hlock : ∀ call ∈ calls, lockOf call ≠ some l) : Leaves k l σ τ := by
  induction hruns with
  | nil σ => exact ⟨hhas, hl, rfl, rfl, spares_refl k _⟩
  | cons hallows hrun hruns ih =>
    have hleaves := leaves_exec h hm hallows hrun hhas hl (hlock _ List.mem_cons_self)
    exact hleaves.trans (ih (regular_exec h hallows hrun) (follows_exec h hm hallows hrun).1
      hleaves.has hleaves.key fun c hc => hlock c (List.mem_cons_of_mem _ hc))

/-! ### What a client finds -/

theorem regular_after {p : Process} (h : Regular p) (env : Env) (n : ℕ) :
    Regular ⟨after env n p.sys, p.locks⟩ := by
  have hsteps : Steps Nonzero p.sys (after env n p.sys) := steps_after env n p.sys
  have hsound : Sound ⟨after env n p.sys, p.locks⟩ :=
    ⟨hsteps.accounted h.sound.accounted, fun l d hd => hsteps.handedOut (h.sound.locks l d hd)⟩
  exact ⟨hsound, (Slots.Steps.exact hsteps h.exact).1, h.nonzero⟩

/-- A read unlock that returns true found the page alive and still its key's. -/
theorem page_of_unlocked {L : RLock} {drop : Bool}
    (hindex : ∀ d, L.head = .page d → d.index < 2 ^ 32)
    (hunlock : lazyfreeReadUnlock env L drop s = .ok (true, t)) :
    ∃ d, L.head = .page d ∧ s.cache.label d = L.key ∧ Alive s.toCore d := by
  have hfound : wp (lazyfreeReadUnlock env L drop) (fun b _ => b = true →
      ∃ d, L.head = .page d ∧ s.cache.label d = L.key ∧ Alive s.toCore d) (fun _ => True) s := by
    by_cases hw : s.cache.wlock = none
    · cases hhead : L.head with
      | null =>
        unfold lazyfreeReadUnlock
        simp [hhead]
      | emptyPage =>
        unfold lazyfreeReadUnlock
        simp [hhead]
      | page d =>
        exact wp_readUnlock hhead hw (hindex d hhead) (fun _ => trivial) (fun _ _ h => by cases h)
          (fun halive hlabel _ _ => ⟨d, rfl, hlabel, alive_of_alive_after halive⟩)
          (fun halive hlabel _ _ _ => ⟨d, rfl, hlabel, alive_of_alive_after halive⟩)
          (fun _ _ _ _ => trivial)
    · unfold lazyfreeReadUnlock
      simp [hw]
  exact (wp_of_ok hunlock).mp hfound rfl

/-- A read through a lock that is later unlocked with the answer true has read the last value of
its key, which is still the last one, whatever was done under other keys in between. -/
theorem validated_read {boot : Boot} {capacity c a d : ℕ} {s₀ : Sys}
    (hnew : lazyfreeCacheNewEx boot capacity c a d = .ok s₀)
    (hpages : s₀.cache.pagesPerChunk ≤ 65536) (locks : ℕ → RLock)
    (hlocks : ∀ i, (locks i).head = .null ∧ (locks i).key ≠ 0) (env : Env) (ft : FtCache)
    {before later : List Call} (hbefore : Runs env ft (begin s₀ locks) before σ)
    (hhas : σ.holding.Has l) {dest v : Buffer} {offset size : ℕ}
    (hwindow : offset + size ≤ pageSize) {b : Bool}
    (hread : lazyfreeRead env (σ.process.locks l) dest offset size σ.process.sys =
      .ok ((b, v), s))
    (hlater : Runs env ft ⟨⟨s, σ.process.locks⟩, σ.store, σ.holding⟩ later τ)
    (hother : ∀ call ∈ later, lockOf call ≠ some l) {drop : Bool}
    (hunlock : lazyfreeReadUnlock env (τ.process.locks l) drop τ.process.sys = .ok (true, t)) :
    b = true ∧ ∃ x, σ.store.latest (σ.process.locks l).key = some x ∧
      τ.store.latest (σ.process.locks l).key = some x ∧
      ∀ i byte, x i = some byte → offset ≤ i → i < offset + size → v (i - offset) = byte := by
  have hcreated := (created_of_new hnew).1
  obtain ⟨hσ, hm⟩ := runs_matches hbefore (regular_of_created hcreated hpages hlocks)
    (matches_begin hcreated locks)
  obtain ⟨key, hl⟩ := Option.ne_none_iff_exists'.mp hhas.1
  have hkey := hm.key l key hl
  have hoff : offset < 2 ^ 64 := by
    have hpage := pageSize_eq
    omega
  obtain ⟨m, rfl⟩ := (wp_of_ok hread).mp (wp_read env _ dest size hoff σ.process.sys)
  have hσ' := regular_after hσ env m
  have hm' := hm.after env m
  have hleaves := runs_leaves hlater hσ' hm' hhas hl hother
  have hτ := (runs_matches hlater hσ' hm').1
  obtain ⟨p, hhead, hlabel, halive⟩ := page_of_unlocked
    (fun p hp => index_lt hτ.sound.accounted (hτ.sound.locks l p hp)) hunlock
  rw [hleaves.lock] at hhead hlabel
  -- the page was alive and its key's all the way back to the read
  obtain ⟨hlabel', hkept⟩ := hleaves.spares.label p (hlabel.trans hkey)
  have hread' : Alive (after env m σ.process.sys).toCore p := (hkept halive).1
  rw [cache_after] at hlabel'
  obtain ⟨y, hy, hshows, htail⟩ := (hm.locks l hhas).shows p hhead (hlabel'.trans hkey.symm)
    (alive_of_alive_after hread')
  have hlatest : τ.store.latest (σ.process.locks l).key = some y := by
    rw [← hy, hkey]
    exact hleaves.latest
  rw [lazyfreeRead_page env hhead dest size hoff] at hread
  split at hread
  · have hresult := Except.ok.inj hread
    have hafter : after env (copied offset size + 2) σ.process.sys = after env m σ.process.sys :=
      congrArg Prod.snd hresult
    have hb : decide (Alive (after env (copied offset size + 2) σ.process.sys).toCore p) = b :=
      congrArg (fun r => r.1.1) hresult
    have hv : readResult env σ.process.sys (σ.process.locks l) p dest offset size = v :=
      congrArg (fun r => r.1.2) hresult
    rw [← hafter] at hread'
    refine ⟨by rw [← hb, decide_eq_true hread'], y, hy, hlatest, fun i byte hi hlow hhigh => ?_⟩
    have hcopied : copied offset size = size := by
      unfold copied
      omega
    rw [← hv, readResult_window (by omega) hwindow hread' (by omega) htail (by omega),
      Nat.add_sub_cancel' hlow]
    exact hshows i byte hi
  · rename_i hdead
    have hafter : after env 1 σ.process.sys = after env m σ.process.sys :=
      congrArg Prod.snd (Except.ok.inj hread)
    rw [← hafter] at hread'
    exact absurd hread' hdead

/-- Key 1 is written and locked again for reading. -/
def firstCalls : List Call := [.rlock 0 1, .readLock 0, .writeLock 0, .store ⟨0, by decide⟩ 7,
  .writeUnlock false, .rlock 1 1, .readLock 1]

/-- Key 5 is written. -/
def laterCalls : List Call := [.rlock 2 5, .readLock 2, .writeLock 2, .writeUnlock false]

def firstProcess : Process :=
  (outcome (run calm byteCache firstCalls) ⟨smallCache, fun _ => .fresh 1⟩ (by decide +kernel)).2

def firstRead : (Bool × Buffer) × Sys :=
  outcome (lazyfreeRead calm (firstProcess.locks 1) blank 0 8) firstProcess.sys (by decide +kernel)

def laterProcess : Process :=
  (outcome (run calm byteCache laterCalls) ⟨firstRead.2, firstProcess.locks⟩
    (by decide +kernel)).2

theorem firstCalls_run :
    ∃ σ, Runs calm byteCache (begin smallCache fun _ => .fresh 1) firstCalls σ ∧
      σ.process = firstProcess ∧ σ.holding = replay Holding.next Holding.nothing firstCalls := by
  have hrun : run calm byteCache firstCalls ⟨smallCache, fun _ => .fresh 1⟩ =
      .ok ((), firstProcess) := run_eq_unit _ _ _
  refine exists_runs ?_ hrun
  simp [firstCalls, begin, Along, Holding.Allows, Holding.next, Holding.Has, Holding.nothing]

theorem laterCalls_run (store : Store Key PageBytes) :
    ∃ τ, Runs calm byteCache ⟨⟨firstRead.2, firstProcess.locks⟩, store,
      replay Holding.next Holding.nothing firstCalls⟩ laterCalls τ ∧ τ.process = laterProcess := by
  have hallows : Along Holding.next Holding.Allows
      (replay Holding.next Holding.nothing firstCalls) laterCalls := by
    simp [firstCalls, laterCalls, Along, replay, Holding.Allows, Holding.next, Holding.Has,
      Holding.nothing, Function.update_apply]
  have hrun : run calm byteCache laterCalls ⟨firstRead.2, firstProcess.locks⟩ =
      .ok ((), laterProcess) := run_eq_unit _ _ _
  obtain ⟨τ, hruns, hprocess, -⟩ := exists_runs (σ := ⟨_, store, _⟩) hallows hrun
  exact ⟨τ, hruns, hprocess⟩

theorem laterProcess_unlocked :
    ∃ t, lazyfreeReadUnlock calm (laterProcess.locks 1) false laterProcess.sys = .ok (true, t) := by
  have hrun := run_eq (lazyfreeReadUnlock calm (laterProcess.locks 1) false) laterProcess.sys
    (by decide +kernel)
  have htrue : (outcome (lazyfreeReadUnlock calm (laterProcess.locks 1) false) laterProcess.sys
      (by decide +kernel)).1 = true := by decide +kernel
  rw [htrue] at hrun
  exact ⟨_, hrun⟩

theorem validated_read_other_key : ∃ σ τ t x,
    Runs calm byteCache (begin smallCache fun _ => .fresh 1) firstCalls σ ∧
    Runs calm byteCache ⟨⟨firstRead.2, firstProcess.locks⟩, σ.store, σ.holding⟩ laterCalls τ ∧
    lazyfreeReadUnlock calm (τ.process.locks 1) false τ.process.sys = .ok (true, t) ∧
    firstRead.1.1 = true ∧ τ.store.latest (firstProcess.locks 1).key = some x ∧
    ∀ i byte, x i = some byte → 0 ≤ i.val → i.val < 0 + 8 →
      firstRead.1.2 (i.val - 0) = byte := by
  obtain ⟨σ, hσ, hprocess, hholding⟩ := firstCalls_run
  obtain ⟨τ, hτ, hlater⟩ := laterCalls_run σ.store
  obtain ⟨t, hunlock⟩ := laterProcess_unlocked
  have hread : lazyfreeRead calm (firstProcess.locks 1) blank 0 8 firstProcess.sys =
      .ok ((firstRead.1.1, firstRead.1.2), firstRead.2) := run_eq _ _ _
  have hhas : σ.holding.Has 1 := by
    rw [hholding]
    simp [firstCalls, replay, Holding.next, Holding.Has, Holding.nothing]
  rw [← hlater] at hunlock
  rw [← hholding] at hτ
  rw [← hprocess] at hread hτ ⊢
  obtain ⟨hb, x, -, hx, hbytes⟩ := validated_read smallCache_new (by decide +kernel) _
    (fun _ => ⟨rfl, by decide⟩) calm byteCache hσ hhas (by decide +kernel : 0 + 8 ≤ pageSize) hread
    hτ (by decide) hunlock
  exact ⟨σ, τ, t, x, hσ, hτ, hunlock, hb, hx, hbytes⟩

/-- What the cache shows to the client between two calls. -/
structure Honest (σ : Session) : Prop where
  /-- A page that a read lock could hit shows the last value of its key. -/
  found : σ.process.sys.cache.wlock = none →
    ∀ k ≠ 0, KeyShows σ.process.sys.toCore (σ.store.latest k) k
  /-- The page of the write lock shows the value that its session started from, as edited. -/
  opened : ∀ w, σ.process.sys.cache.wlock = some w →
    ∃ y, σ.store.session = some (w.key, y) ∧ Shows y (σ.process.sys.mem w.slot).byte

theorem Matches.honest (hm : Matches σ) : Honest σ := by
  refine ⟨fun hw k hk => hm.values k hk fun w hw' => (by cases hw.symm.trans hw'), fun w hw => ?_⟩
  cases hwr : σ.holding.writing with
  | none => cases (hm.idle hwr).1.symm.trans hw
  | some l =>
    obtain ⟨w', y, hw', -, hsession, hopen⟩ := hm.writing l hwr
    obtain rfl : w = w' := Option.some.inj (hw.symm.trans hw')
    exact ⟨y, hsession, hopen.shows⟩

/-- The cache is a lossy store: in every state of every run of a client that keeps to its locks,
what can be found under a key is the value that the last session on it committed. -/
theorem refines_lossyStore {boot : Boot} {capacity c a d : ℕ} {s₀ : Sys}
    (hnew : lazyfreeCacheNewEx boot capacity c a d = .ok s₀)
    (hpages : s₀.cache.pagesPerChunk ≤ 65536) (locks : ℕ → RLock)
    (hlocks : ∀ i, (locks i).head = .null ∧ (locks i).key ≠ 0) (env : Env) (ft : FtCache)
    {calls : List Call} (hruns : Runs env ft (begin s₀ locks) calls τ) :
    Honest τ ∧ ∀ k y, τ.store.latest k = some y →
      ∃ left right μ q, calls = left ++ .writeUnlock false :: right ∧
        Runs env ft (begin s₀ locks) left μ ∧ μ.store.session = some (k, y) ∧
        exec env ft (.writeUnlock false) μ.process = .ok ((), q) ∧
        Unsettled env ft k (μ.next (.writeUnlock false) q) right τ := by
  have hcreated := (created_of_new hnew).1
  obtain ⟨-, hm⟩ := runs_matches hruns (regular_of_created hcreated hpages hlocks)
    (matches_begin hcreated locks)
  refine ⟨hm.honest, fun k y hy => ?_⟩
  rcases runs_latest hruns hy with ⟨hempty, -⟩ | hcommitted
  · cases hempty
  · exact hcommitted

theorem refines_lossyStore_first : ∃ σ,
    Runs calm byteCache (begin smallCache fun _ => .fresh 1) firstCalls σ ∧ Honest σ := by
  obtain ⟨σ, hσ, -⟩ := firstCalls_run
  exact ⟨σ, hσ, (refines_lossyStore smallCache_new (by decide +kernel) _
    (fun _ => ⟨rfl, by decide⟩) calm byteCache hσ).1⟩

end LazyfreeCache.SessionRuns
