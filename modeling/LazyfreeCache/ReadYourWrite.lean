import LazyfreeCache.Upgrade
import LazyfreeCache.FirstChunk
import LazyfreeCache.LostPuts

/-!
Read your write. A client that has just taken a read lock turns it into a write
lock, stores a whole page and commits it; the next read lock on the key must
read that page back, and no other key may notice. The upgrade path locks the
slot of the lock's 16-bit index, so it agrees with the pointer for the first
65536 slots of a chunk only; the allocation path needs that no other key can
still be read from the new slot or is named in the `keys[]` of the chunk that
is evicted to make room, and that the table takes the new entry.
-/
namespace LazyfreeCache.ReadYourWrite

open ProgramLogic EventReplay State LazyfreeOps FallthroughOps Refinement Reads Allocation
open Writes Fallthrough Frames FallthroughEvents Accounting Client FtRuns Upgrade FirstChunk
open Hashmap HmapAccess HmapRuns TableCache LostPuts

/-- Pin, check and restore found the page of the lock alive. -/
def Upgrades (env : Env) (L : RLock) (s : Sys) (p : EntryDescriptor) : Prop :=
  L.head = .page p ∧ Alive (pinned env s p).toCore p

/-- What other keys may notice of the steps from `s` to `t`: outside an evicted
chunk nothing becomes readable or changes, and a page that the kernel did not
want in between stays readable. -/
def Unnoticed (env : Env) (key : Key) (s t : Sys) : Prop :=
  ∀ k, k ≠ key → ∀ d, .evicted d.chunk ∉ newEvents s t →
    (Readable t.toCore k d → Readable s.toCore k d ∧ SameContent s.toCore t.toCore d) ∧
    (Readable s.toCore k d → (∀ τ, s.clock ≤ τ → τ < t.clock → d ∉ env.reclaim τ) →
      Readable t.toCore k d)

/-- The write lock is the lock's own page while that is valid, with its content,
and a new slot otherwise. -/
def RightPage (env : Env) (L : RLock) (s : Sys) (d : EntryDescriptor) (t : Sys) : Prop :=
  (∀ p, Upgrades env L s p → d = p ∧ ∀ i < pageSize, (t.mem p).byte i = logical s.toCore p i) ∧
  ((∀ p, ¬ Upgrades env L s p) → .allocated d L.key ∈ newEvents s t)

/-- Storing the page `X` and committing it. -/
def storeCommit (env : Env) (d : EntryDescriptor) (X : Buffer) : M Unit := do
  memcpyToPage env d 0 X pageSize 0
  lazyfreeWriteUnlock env false

/-- Locking through `L`, storing the page `X` and committing it does what a
caller expects, and the table leads the key to the page that was written. -/
def ReadsBack (padding : ℕ → UInt32) (env : Env) (L : RLock) (X : Buffer)
    (r : Sys × HmapTable) : Prop :=
  ∃ d L' u t, onTable padding (lazyfreeWriteLock env L) r = .ok ((d, L'), u) ∧
    RightPage env L r.1 d u.1 ∧ onTable padding (storeCommit env d X) u = .ok ((), t) ∧
    t.2.hmapGet L.key = some d ∧
    (∀ lock dest, lock.key = L.key → ∃ L₂ v v' w,
      onTable padding (lazyfreeReadLock env lock) t = .ok (L₂, v) ∧
      onTable padding (lazyfreeRead env L₂ dest 0 pageSize) v = .ok ((true, v'), w) ∧
      ∀ i < pageSize, v' i = X i) ∧
    Unnoticed env L.key r.1 t.1

/-- The accesses of locking, storing and committing when a slot is allocated. -/
def allocAccesses (L : RLock) : ℕ :=
  (match L.head with | .page _ => 4 | _ => 0) + pageSize + 3

/-- No other key loses a page to an allocation: the chunk that would be evicted
names no key that is read from elsewhere, and the new slot is no page of
another key. -/
def AllocatesSafely (env : Env) (L : RLock) (s : Sys) : Prop :=
  ∀ k, k ≠ L.key → ∀ d, Readable s.toCore k d →
    (∀ τ, s.clock ≤ τ → τ < s.clock + allocAccesses L → d ∉ env.reclaim τ) →
    (s.cache.totalFreePages = 0 → d.chunk ≠ pick env s) →
    (s.cache.totalFreePages = 0 → k ≠ 0 →
      ∀ i < s.cache.len (pick env s), s.cache.label ⟨i, pick env s⟩ ≠ k) ∧
    ∀ j, ¬ Finds env s j d

/-- When the code keeps the promise: an upgraded page has an index of 16 bits, and
an allocation takes a page of a chunk that has pages without hurting others. -/
def WriteSafe (env : Env) (L : RLock) (s : Sys) : Prop :=
  (∀ p, Upgrades env L s p → p.index < 2 ^ 16) ∧
  ((∀ p, ¬ Upgrades env L s p) → 1 ≤ s.cache.pagesPerChunk ∧ AllocatesSafely env L s)

/-- The table once an allocation has removed the keys of the chunk that it evicts, if it does. -/
def openedTable (env : Env) (r : Sys × HmapTable) : HmapTable :=
  if r.1.cache.totalFreePages = 0 then
    r.2.hmapRemoveKeys (r.1.cache.chunks (pick env r.1)).keys (r.1.cache.chunks (pick env r.1)).len
  else r.2

/-- If a slot has to be allocated for the lock, `hmap_put` enters it into the table. -/
def EntryStored (env : Env) (L : RLock) (r : Sys × HmapTable) : Prop :=
  (∀ p, ¬ Upgrades env L r.1 p) → ∀ j d, Finds env r.1 j d → ∀ bytes,
    ((openedTable env r).hmapPut L.key d bytes).hmapGet L.key = some d

variable {env : Env} {L : RLock} {X : Buffer} {s t u x : Sys} {d p : EntryDescriptor}
  {es : List Event} {padding : ℕ → UInt32} {r : Sys × HmapTable}

/-- Steps that act for one key, drop nothing and give out slots of that key only go
unnoticed, if the entries of the others are kept. -/
theorem unnoticed_of_acts {key : Key} (h : Acts env key s t es)
    (hdrop : ∀ d k, .dropped d k ∉ es)
    (halloc : ∀ d k, .allocated d k ∈ es → t.cache.label d = key)
    (hkeep : ∀ k, k ≠ key → ∀ d, Readable s.toCore k d → .evicted d.chunk ∉ es →
      (∀ τ, s.clock ≤ τ → τ < t.clock → d ∉ env.reclaim τ) →
      Along Core.apply (KeepsEntry k) s.toCore es ∧ ∀ k', .allocated d k' ∉ es) :
    Unnoticed env key s t := by
  have hkeeps : ∀ d, .evicted d.chunk ∉ es → (∀ k, .allocated d k ∉ es) →
      ∀ e ∈ es, KeepsLabel d e := by
    intro d hevict halloc e he
    cases e with
    | evicted c =>
      rintro rfl
      exact hevict he
    | allocated p k =>
      rintro rfl
      exact halloc k he
    | dropped p k => exact absurd he (hdrop p k)
    | _ => trivial
  have hreplay := h.performs.1
  intro k hk d hevict
  rw [newEvents_eq h.performs] at hevict
  constructor
  · rintro ⟨⟨hmap, hlabel⟩, halive⟩
    have hkl := hkeeps d hevict fun k' hk' => hk (hlabel.symm.trans (halloc d k' hk'))
    have hlabel' : s.cache.label d = k := by
      rw [← label_replay hkl, ← hreplay]
      exact hlabel
    have hspares := spares_of_acts h.along hkl (by rw [hlabel']; exact hk)
    rw [hreplay] at halive ⊢
    obtain ⟨halive', hsame⟩ := sameContent_of_alive hspares halive
    exact ⟨⟨⟨hmapGet_before h.along hk (by rw [← hreplay]; exact hmap), hlabel'⟩, halive'⟩, hsame⟩
  · rintro ⟨⟨hmap, hlabel⟩, halive⟩ hleft
    obtain ⟨hentry, hfresh⟩ := hkeep k hk d ⟨⟨hmap, hlabel⟩, halive⟩ hevict hleft
    have hspares : ∀ e ∈ es, Spares d e := by
      intro e he
      rcases spares_of_acts h.along (hkeeps d hevict hfresh) (by rw [hlabel]; exact hk) e he with
        rfl | hspares
      · obtain ⟨τ, hle, hlt, hmem⟩ := h.wanted d he
        exact absurd hmem (hleft τ hle hlt)
      · exact hspares
    obtain ⟨hlabel', hsame⟩ := spares_replay (s := s.toCore) hspares
    rw [← hreplay] at hlabel' hsame
    refine ⟨⟨?_, hlabel'.trans hlabel⟩, hsame.alive.mpr halive⟩
    rw [hreplay, keeps_replay hentry]
    exact hmap

/-! ### The upgrade path -/

/-- The machine after the page `X` was stored to `d` and committed. -/
def storedPage (env : Env) (d : EntryDescriptor) (key : Key) (X : Buffer) (s : Sys) : Sys :=
  sealed env (copying env d 0 X pageSize 0 s) ⟨d, key⟩

theorem still_append {fs : List Event} (hes : ∀ e ∈ es, Still e) (hfs : ∀ e ∈ fs, Still e) :
    ∀ e ∈ es ++ fs, Still e := fun e he => (List.mem_append.mp he).elim (hes e) (hfs e)

theorem acts_storedPage (env : Env) (X : Buffer) {key : Key} (hlabel : s.cache.label d = key)
    (hw : s.cache.wlock = some ⟨d, key⟩) :
    ∃ es, Acts env key s (storedPage env d key X s) es ∧ ∀ e ∈ es, Still e := by
  obtain ⟨cs, hcs, hquiet⟩ := acts_copying env 0 X pageSize 0 hlabel hw
  have hlabel' : (copying env d 0 X pageSize 0 s).cache.label d = key := by
    rw [cache_copying]
    exact hlabel
  obtain ⟨ss, bit, hss, hquiet'⟩ := acts_sealed env hlabel' (by rw [cache_copying]; exact hw)
  refine ⟨_, hcs.trans hss, still_append (still_of_quiet hquiet)
    (still_append (still_of_quiet hquiet') fun e he => ?_)⟩
  rw [List.mem_singleton.mp he]
  trivial

theorem acts_upgradedTo (env : Env) {key : Key} (hw : s.cache.wlock = none)
    (hlabel : s.cache.label p = key) (hhanded : s.HandedOut p) (hindex : p.index < 2 ^ 16) :
    ∃ es, Acts env key s (upgradedTo env s p key) es ∧ ∀ e ∈ es, Still e := by
  obtain ⟨qs, hqs, hquiet⟩ : ∃ es, Acts env key s (restored env s p) es ∧ ∀ e ∈ es, Quiet e :=
    acts_unpin env _ hlabel hw
  have hlock : Acts env key (restored env s p)
      (perform (restored env s p) (.upgraded p (upgradeLock p key)))
      [.upgraded p (upgradeLock p key)] := by
    refine acts_event env ⟨?_, hqs.performs.handedOut hhanded, ?_, rfl⟩ rfl (by simp)
    · rw [cache_restored, hw]
    · rw [cache_restored]
      exact hlabel
  have hslot : (upgradeLock p key).slot = p := upgradeLock_slot _ hindex
  have hopen : ∃ es, Acts env key (perform (restored env s p) (.upgraded p (upgradeLock p key)))
      (upgradedTo env s p key) es ∧ ∀ e ∈ es, Quiet e := by
    have hlabel' : (perform (restored env s p) (.upgraded p (upgradeLock p key))).cache.label p =
        key := by
      change (restored env s p).cache.label p = key
      rw [cache_restored]
      exact hlabel
    unfold upgradedTo tailOpened
    rw [hslot]
    split
    · exact ⟨[], acts_refl env key _, by simp⟩
    · refine Acts.quiet_trans (acts_after_quiet env key 1 _) (acts_storing env ?_ (.inl ⟨key, ?_⟩))
      · rw [cache_after]
        exact hlabel'
      · rw [cache_after]
        exact congrArg (fun d => some (WLock.mk d key)) hslot
  obtain ⟨rs, hrs, hquiet'⟩ := hopen
  refine ⟨_, (hqs.trans hlock).trans hrs, still_append (still_append (still_of_quiet hquiet)
    fun e he => ?_) (still_of_quiet hquiet')⟩
  rw [List.mem_singleton.mp he]
  trivial

/-! ### Storing and committing -/

theorem copyCommit_eq (env : Env) (X : Buffer) {key : Key} (hw : s.cache.wlock = some ⟨d, key⟩)
    (n : ℕ) :
    (do memcpyToPage env d 0 X n 0; lazyfreeWriteUnlock env false) s =
      .ok ((), sealed env (copying env d 0 X n 0 s) ⟨d, key⟩) := by
  have hw' : (copying env d 0 X n 0 s).cache.wlock = some ⟨d, key⟩ := by
    rw [cache_copying, hw]
  simp only [bind, StateT.bind, Except.bind, memcpyToPage_eq, lazyfreeWriteUnlock_commit env hw']

theorem storeCommit_eq (env : Env) (X : Buffer) {key : Key}
    (hw : s.cache.wlock = some ⟨d, key⟩) :
    storeCommit env d X s = .ok ((), storedPage env d key X s) := by
  unfold storeCommit storedPage
  exact copyCommit_eq env X hw pageSize

/-- A page stored whole and committed is read back, whatever the kernel wants. -/
theorem reads_back_copied (env : Env) (X : Buffer) {lock : RLock}
    (hmapped : s.cache.Mapped lock.key d) {n : ℕ} (hn : n = pageSize) (dest : Buffer) :
    ∃ L₂ v v' w,
      lazyfreeReadLock env lock (sealed env (copying env d 0 X n 0 s) ⟨d, lock.key⟩) =
        .ok (L₂, v) ∧
      lazyfreeRead env L₂ dest 0 pageSize v = .ok ((true, v'), w) ∧ ∀ i < pageSize, v' i = X i := by
  have hpage := pageSize_eq
  obtain ⟨hstored, hbytes⟩ := mem_copying env d 0 X (show 0 < n by omega) 0 s
  have hwlock : (sealed env (copying env d 0 X n 0 s) ⟨d, lock.key⟩).cache.wlock = none := by
    rw [cache_sealed, Cache.wlock_commit]
  have hcache : (sealed env (copying env d 0 X n 0 s) ⟨d, lock.key⟩).cache.Mapped
      lock.key d := by
    rw [cache_sealed, cache_copying]
    exact ⟨hmapped.1, (Cache.label_commit _ _ _ _).trans hmapped.2⟩
  have hmem := stored_sealed env (copying env d 0 X n 0 s) ⟨d, lock.key⟩
  obtain ⟨L₂, v, v', w, hlock, -, hread, hv⟩ := reads_back env hwlock hcache hmem
    (alive_sealed env _ _) dest
  refine ⟨L₂, v, v', w, hlock, hread, fun i hi => ?_⟩
  rw [hv i hi, logical_sealed hstored]
  have hX := hbytes i (Nat.zero_le i) (by omega)
  rwa [Nat.zero_add] at hX

theorem reads_back_stored (env : Env) (X : Buffer) {lock : RLock}
    (hmapped : s.cache.Mapped lock.key d) (dest : Buffer) :
    ∃ L₂ v v' w, lazyfreeReadLock env lock (storedPage env d lock.key X s) = .ok (L₂, v) ∧
      lazyfreeRead env L₂ dest 0 pageSize v = .ok ((true, v'), w) ∧ ∀ i < pageSize, v' i = X i := by
  unfold storedPage
  exact reads_back_copied env X hmapped rfl dest

/-! ### The allocation path -/

/-- A cache of entries that fill their pages. -/
def fullPage (X : Buffer) : FtCache := ⟨fun _ => X, pageSize, Nat.le_refl _⟩

theorem entry_fullPage (key : Key) : entry (fullPage X) key X = X := by
  funext i
  unfold entry fullPage
  split <;> rfl

theorem filled_fullPage {key : Key} {j : ℕ} :
    filled env (fullPage X) key X u j d =
      storedPage env d key X (perform (searched env u j) (.allocated d key)) := by
  unfold filled storedPage
  rw [entry_fullPage, show (fullPage X).entrySize = pageSize from rfl, Nat.sub_self]

/-- Where an allocation through the lock starts: the pin may have been undone. -/
inductive Starts (env : Env) (L : RLock) (s : Sys) : Sys → Prop
  | atOnce (h : L.head = .null ∨ L.head = .emptyPage) : Starts env L s s
  | unpinned (p : EntryDescriptor) (hhead : L.head = .page p) : Starts env L s (unpinned env s p)

theorem Starts.cache (h : Starts env L s u) : u.cache = s.cache := by
  cases h with
  | atOnce h => rfl
  | unpinned p hhead => exact cache_pinned env s p

theorem Starts.draws (h : Starts env L s u) : u.draws = s.draws := by
  cases h with
  | atOnce h => rfl
  | unpinned p hhead => rfl

theorem Starts.clock (h : Starts env L s u) :
    u.clock + pageSize + 3 = s.clock + allocAccesses L := by
  unfold allocAccesses
  cases h with
  | atOnce h =>
    rcases h with h | h <;> rw [h] <;> dsimp only <;> omega
  | unpinned p hhead =>
    rw [hhead]
    change s.clock + 4 + pageSize + 3 = s.clock + (4 + pageSize + 3)
    omega

theorem Starts.acts (h : Starts env L s u) (hw : s.cache.wlock = none)
    (hlabel : ∀ p, L.head = .page p → s.cache.label p = L.key) :
    ∃ es, Acts env L.key s u es ∧ ∀ e ∈ es, Quiet e := by
  cases h with
  | atOnce h => exact ⟨[], acts_refl env L.key s, by simp⟩
  | unpinned p hhead => exact acts_unpin env 0 (hlabel p hhead) hw

theorem Starts.finds_iff (h : Starts env L s u) {j : ℕ} :
    Finds env u j d ↔ Finds env s j d := finds_congr h.cache h.draws

theorem Starts.openEvents (h : Starts env L s u) :
    openEvents env u = if s.cache.totalFreePages = 0 then [.evicted (pick env s)] else [] := by
  unfold Allocation.openEvents pick
  rw [h.cache, h.draws]

def advises (env : Env) (u : Sys) (j : ℕ) : List Event :=
  (List.range j).map fun i => .advised (searched env u i).cache.currentChunkIdx

/-- The events of allocating from `u`, storing and committing. -/
structure Allocates (env : Env) (L : RLock) (X : Buffer) (s u : Sys) (j : ℕ)
    (d : EntryDescriptor) (qs qs' : List Event) (bit : Bool) : Prop where
  starts : Performs s u qs
  acts : Acts env L.key s (filled env (fullPage X) L.key X u j d)
    (qs ++ (openEvents env u ++ (advises env u j ++
      .allocated d L.key :: (qs' ++ [.committed ⟨d, L.key⟩ bit]))))
  quiet : ∀ e ∈ qs, Quiet e
  quiet' : ∀ e ∈ qs', Quiet e

theorem allocates (h : Starts env L s u) (hw : s.cache.wlock = none)
    (hlabel : ∀ p, L.head = .page p → s.cache.label p = L.key) {j : ℕ}
    (hfinds : Finds env u j d) (X : Buffer) :
    ∃ qs qs' bit, Allocates env L X s u j d qs qs' bit := by
  obtain ⟨qs, hqs, hquiet⟩ := h.acts hw hlabel
  obtain ⟨qs', bit, hqs', hquiet'⟩ := acts_filled L.key (fullPage X) X
    (by rw [h.cache, hw]) hfinds
  have hall := hqs.trans hqs'
  unfold searchEvents at hall
  rw [List.append_assoc] at hall
  exact ⟨qs, qs', bit, hqs.performs, hall, hquiet, hquiet'⟩

theorem keepsEntry_of_still {k : Key} {s : Core} (h : ∀ e ∈ es, Still e) :
    Along Core.apply (KeepsEntry k) s es := by
  refine along_of_forall es fun e he t => ?_
  have hstill := h e he
  cases e <;> trivial

theorem still_advises (env : Env) (u : Sys) (j : ℕ) : ∀ e ∈ advises env u j, Still e := by
  intro e he
  obtain ⟨i, -, rfl⟩ := List.mem_map.mp he
  trivial

section Allocated
variable {j : ℕ} {qs qs' : List Event} {bit : Bool}

theorem Allocates.mem_iff (h : Allocates env L X s u j d qs qs' bit) {e : Event}
    (hcalls : ¬ Still e) :
    e ∈ qs ++ (openEvents env u ++ (advises env u j ++
        .allocated d L.key :: (qs' ++ [.committed ⟨d, L.key⟩ bit]))) ↔
      e ∈ openEvents env u ∨ e = .allocated d L.key := by
  have hqs : e ∉ qs := fun he => hcalls (still_of_quiet h.quiet e he)
  have hqs' : e ∉ qs' := fun he => hcalls (still_of_quiet h.quiet' e he)
  have hcommit : e ≠ .committed ⟨d, L.key⟩ bit := fun he => hcalls (by rw [he]; trivial)
  have hadvise : e ∉ advises env u j := fun he => hcalls (still_advises env u j e he)
  simp [hqs, hqs', hcommit, hadvise]

/-- Allocating, storing and committing goes unnoticed if it is safe. -/
theorem unnoticed_allocated (hu : Starts env L s u)
    (h : Allocates env L X s u j d qs qs' bit) (hfinds : Finds env u j d)
    (hsafe : AllocatesSafely env L s) :
    Unnoticed env L.key s (filled env (fullPage X) L.key X u j d) := by
  have hopen := hu.openEvents
  have hclock : (filled env (fullPage X) L.key X u j d).clock = s.clock + allocAccesses L := by
    rw [clock_filled, ← hu.clock]
    rfl
  refine unnoticed_of_acts h.acts ?_ ?_ ?_
  · intro p k hp
    rw [h.mem_iff id, hopen] at hp
    split at hp <;> simp at hp
  · intro p k hp
    rw [h.mem_iff id, hopen] at hp
    have hpd : p = d := by
      split at hp <;> simp at hp <;> exact hp.1
    rw [hpd]
    exact mapped_filled.2
  · intro k hk p hread hevict hleft
    rw [hclock] at hleft
    have hpick : s.cache.totalFreePages = 0 → p.chunk ≠ pick env s := by
      intro htotal hp
      rw [h.mem_iff id, hopen, if_pos htotal, hp] at hevict
      exact hevict (.inl (List.mem_singleton.mpr rfl))
    obtain ⟨hlabels, hother⟩ := hsafe k hk p hread hleft hpick
    have hpd : p ≠ d := fun hp => hother j (hp ▸ hu.finds_iff.mp hfinds)
    constructor
    · rw [along_append, along_append, along_append]
      refine ⟨keepsEntry_of_still (still_of_quiet h.quiet), ?_,
        keepsEntry_of_still (still_advises env u j), Ne.symm hk, ?_⟩
      · rw [← h.starts.1, hopen]
        split
        · rename_i htotal
          refine ⟨?_, trivial⟩
          by_cases hk0 : k = 0
          · exact .inl hk0
          · right
            rw [hu.cache]
            exact hlabels htotal hk0
        · trivial
      · rw [along_append]
        exact ⟨keepsEntry_of_still (still_of_quiet h.quiet'), trivial, trivial⟩
    · intro k' hk'
      rw [h.mem_iff id, hopen] at hk'
      split at hk' <;> simp at hk' <;> exact hpd hk'.1

end Allocated

/-! ### When the promise is kept -/

/-- What holds right after `lazyfree_read_lock` returned the lock. -/
structure JustLocked (L : RLock) (s : Sys) : Prop where
  accounted : Accounted s.toCore
  wlock : s.cache.wlock = none
  head : L.head ≠ .null
  mapped : ∀ p, L.head = .page p → s.cache.Mapped L.key p

theorem JustLocked.label (h : JustLocked L s) : ∀ p, L.head = .page p → s.cache.label p = L.key :=
  fun p hp => (h.mapped p hp).2

theorem JustLocked.handedOut (h : JustLocked L s) (hhead : L.head = .page p) : s.HandedOut p :=
  h.accounted.map_handed L.key p (h.mapped p hhead).1

theorem JustLocked.index_lt (h : JustLocked L s) : ∀ p, L.head = .page p → p.index < 2 ^ 32 :=
  fun _ hp => Client.index_lt h.accounted (h.handedOut hp)

theorem JustLocked.after {L : RLock} (h : JustLocked L s) (env : Env) (n : ℕ) :
    JustLocked L (after env n s) where
  accounted := (steps_after env n s : Steps anyKey _ _).accounted h.accounted
  wlock := by rw [cache_after, h.wlock]
  head := h.head
  mapped p hp := by
    rw [cache_after]
    exact h.mapped p hp

theorem Starts.accounted (hu : Starts env L s u) (h : JustLocked L s) : Accounted u.toCore := by
  obtain ⟨es, hes, -⟩ := hu.acts h.wlock h.label
  exact accounted_performs h.accounted hes.performs

theorem writeLock_returns (env : Env) (h : JustLocked L s) (hpages : 1 ≤ s.cache.pagesPerChunk) :
    ∃ r t, lazyfreeWriteLock env L s = .ok (r, t) ∧ WriteLocked env s L r.1 r.2 t := by
  have hstuck : ∀ u, Starts env L s u → ¬ Stuck env u := fun u hu =>
    not_stuck (hu.accounted h) (by rw [hu.cache]; exact hpages)
  refine returns_of_wp (wp_mono (lazyfreeWriteLock_spec env L s h.wlock h.index_lt)
    (fun _ _ h => h) ?_)
  rintro e ⟨-, hs | ⟨p, hhead, -, -, hs⟩⟩
  · exact not_stuck h.accounted hpages hs
  · exact hstuck _ (.unpinned p hhead) hs

/-- A lock that does not upgrade allocates. -/
theorem starts_of_writeLocked (h : JustLocked L s) {L' : RLock} (ht : WriteLocked env s L d L' t)
    (hup : ∀ p, ¬ Upgrades env L s p) :
    ∃ u j, Starts env L s u ∧ Finds env u j d ∧
      t = perform (searched env u j) (.allocated d L.key) := by
  cases ht with
  | fresh j d hhead hfinds => exact ⟨s, j, .atOnce hhead, hfinds, rfl⟩
  | moved p j d hhead hlabel hfinds => exact absurd (h.label p hhead) hlabel
  | torn p j d hhead hlabel hdead hfinds => exact ⟨_, j, .unpinned p hhead, hfinds, rfl⟩
  | upgraded p hhead hlabel halive => exact absurd ⟨hhead, halive⟩ (hup p)

theorem slot_of_writeLocked {L' : RLock} (h : JustLocked L s) (ht : WriteLocked env s L d L' t)
    (hup : Upgrades env L s p) :
    d = (upgradeLock p L.key).slot ∧ t = upgradedTo env s p L.key := by
  obtain ⟨hhead, halive⟩ := hup
  cases ht with
  | fresh j d hhead' hfinds =>
    rcases hhead' with hhead' | hhead' <;> cases hhead.symm.trans hhead'
  | moved q j d hhead' hlabel hfinds =>
    cases hhead.symm.trans hhead'
    exact absurd (h.label p hhead) hlabel
  | torn q j d hhead' hlabel hdead hfinds =>
    cases hhead.symm.trans hhead'
    exact absurd halive hdead
  | upgraded q hhead' hlabel halive' =>
    cases hhead.symm.trans hhead'
    exact ⟨rfl, rfl⟩

theorem upgrades_unique {q : EntryDescriptor} (hp : Upgrades env L s p)
    (hq : Upgrades env L s q) : p = q := by
  cases hp.1.symm.trans hq.1
  rfl

/-- What locking through `L`, storing and committing does on the machine, where it is right. -/
structure Writes (env : Env) (L : RLock) (X : Buffer) (s : Sys) (d : EntryDescriptor) (x : Sys) :
    Prop where
  locked : ∃ L', lazyfreeWriteLock env L s = .ok ((d, L'), x)
  right : RightPage env L s d x
  wlock : x.cache.wlock = some ⟨d, L.key⟩
  label : x.cache.label d = L.key
  unnoticed : Unnoticed env L.key s (storedPage env d L.key X x)

theorem writes_upgraded (h : JustLocked L s) (hup : Upgrades env L s p)
    (hindex : p.index < 2 ^ 16) : Writes env L X s p (upgradedTo env s p L.key) := by
  have hhanded := h.handedOut hup.1
  have hpages : 1 ≤ s.cache.pagesPerChunk := by
    have hlt := h.accounted.handed_lt p hhanded
    omega
  obtain ⟨⟨d, L'⟩, t, hrun, ht⟩ := writeLock_returns env h hpages
  obtain ⟨hd, rfl⟩ := slot_of_writeLocked h ht hup
  obtain rfl : d = p := hd.trans (upgradeLock_slot _ hindex)
  obtain ⟨es, hes, hstill⟩ := acts_upgradedTo env h.wlock (h.label d hup.1) hhanded hindex
  have hcache := cache_upgradedTo env s d L.key
  have hwlock : (upgradedTo env s d L.key).cache.wlock = some ⟨d, L.key⟩ := by
    rw [hcache, Cache.wlock_upgrade]
    exact congrArg (fun d => some (WLock.mk d L.key)) (upgradeLock_slot L.key hindex)
  have hlabel : (upgradedTo env s d L.key).cache.label d = L.key := by
    rw [hcache]
    exact h.label d hup.1
  obtain ⟨fs, hfs, hstill'⟩ := acts_storedPage env X hlabel hwlock
  have hall := still_append hstill hstill'
  refine ⟨⟨L', hrun⟩, ⟨?_, fun hno => absurd hup (hno d)⟩, hwlock, hlabel, ?_⟩
  · intro q hq
    obtain rfl := upgrades_unique hup hq
    exact ⟨rfl, fun i _ => (mem_upgradedTo _ hup.2 hindex).2 i⟩
  · exact unnoticed_of_acts (hes.trans hfs) (fun p k hp => hall _ hp)
      (fun p k hp => (hall _ hp).elim)
      fun k hk p hread hevict hleft => ⟨keepsEntry_of_still hall, fun k' hk' => hall _ hk'⟩

theorem performs_allocated (hu : Starts env L s u) (h : JustLocked L s) {j : ℕ}
    (hfinds : Finds env u j d) :
    ∃ es, Performs s (perform (searched env u j) (.allocated d L.key))
      (es ++ [.allocated d L.key]) ∧ ∀ e ∈ es, PutsNothing e := by
  obtain ⟨qs, hqs, hquiet⟩ := hu.acts h.wlock h.label
  refine ⟨qs ++ searchEvents env u j, ?_, fun e he => ?_⟩
  · rw [List.append_assoc]
    exact hqs.performs.trans (hfinds.performs (by rw [hu.cache, h.wlock]) L.key)
  · rcases List.mem_append.mp he with he | he
    · exact putsNothing_of_still (still_of_quiet hquiet e he)
    · rcases mem_searchEvents he with ⟨c, rfl⟩ | ⟨c, rfl⟩ <;> simp [PutsNothing]

theorem allocated_mem_newEvents (hu : Starts env L s u) (h : JustLocked L s) {j : ℕ}
    (hfinds : Finds env u j d) :
    .allocated d L.key ∈ newEvents s (perform (searched env u j) (.allocated d L.key)) := by
  obtain ⟨es, hes, -⟩ := performs_allocated hu h hfinds
  rw [newEvents_eq hes]
  simp

theorem writes_allocated (hu : Starts env L s u) (h : JustLocked L s) {j : ℕ}
    (hfinds : Finds env u j d) {L' : RLock}
    (hrun : lazyfreeWriteLock env L s =
      .ok ((d, L'), perform (searched env u j) (.allocated d L.key)))
    (hup : ∀ p, ¬ Upgrades env L s p) (hsafe : AllocatesSafely env L s) :
    Writes env L X s d (perform (searched env u j) (.allocated d L.key)) := by
  obtain ⟨qs, qs', bit, hall⟩ := allocates hu h.wlock h.label hfinds X
  refine ⟨⟨L', hrun⟩, ⟨fun p hp => absurd hp (hup p), fun _ => allocated_mem_newEvents hu h hfinds⟩,
    rfl, ?_, ?_⟩
  · change ((searched env u j).cache.allocate d L.key).label d = L.key
    rw [Cache.label_allocate, if_pos rfl]
  · rw [← filled_fullPage]
    exact unnoticed_allocated hu hall hfinds hsafe

/-- An allocation that went unnoticed was safe. -/
theorem safe_of_unnoticed (h : JustLocked L s) {j : ℕ} (hu : Starts env L s u)
    (hfinds : Finds env u j d)
    (hunnoticed : Unnoticed env L.key s (filled env (fullPage X) L.key X u j d)) :
    AllocatesSafely env L s := by
  obtain ⟨qs, qs', bit, hall⟩ := allocates hu h.wlock h.label hfinds X
  have hopen := hu.openEvents
  intro k hk p hread hleft hpick
  have hevict : .evicted p.chunk ∉
      newEvents s (filled env (fullPage X) L.key X u j d) := by
    rw [newEvents_eq hall.acts.performs, hall.mem_iff id, hopen]
    split
    · rename_i htotal
      simp [hpick htotal]
    · simp
  have hclock : (filled env (fullPage X) L.key X u j d).clock = s.clock + allocAccesses L := by
    rw [clock_filled, ← hu.clock]
    rfl
  have hafter := (hunnoticed k hk p hevict).2 hread (by rw [hclock]; exact hleft)
  constructor
  · intro htotal hk0 i hi hlabel
    have hperf := hall.acts.performs.1
    have halong := hall.acts.along
    rw [hopen, if_pos htotal, along_append, along_append] at halong
    have hmap := hafter.1.1
    rw [hperf, hopen, if_pos htotal, replay_append, replay_append] at hmap
    have hgone := hmapGet_before halong.2.2 hk hmap
    rw [← hall.starts.1] at hgone
    change (u.cache.evict (pick env s)).hmapGet k = some p at hgone
    rw [hu.cache, Cache.hmapGet_evict, if_pos ⟨hk0, i, hi, hlabel⟩] at hgone
    cases hgone
  · intro i hi
    have hpd : p = d := hi.unique (hu.finds_iff.mp hfinds)
    exact hk (hafter.1.2.symm.trans (hpd ▸ mapped_filled.2))

theorem index_lt_of_finds (hs : Accounted s.toCore) (hw : s.cache.wlock = none) {j : ℕ}
    (hfinds : Finds env s j d) : d.index < s.cache.pagesPerChunk := by
  have hperf := performs_searched hw hfinds.before
  have hlt := ready_index_lt (accounted_performs hs hperf) hfinds.ready
  rwa [pagesPerChunk_searched] at hlt

theorem JustLocked.found_lt (h : JustLocked L s) {j : ℕ} (hfinds : Finds env s j d) :
    d.index < 2 ^ 32 := by
  have hlt := index_lt_of_finds h.accounted h.wlock hfinds
  have hpages := h.accounted.pages
  omega

/-! ### On the table -/

theorem settle_after (padding : ℕ → UInt32) (hr : Coupled (both r)) (env : Env) (n : ℕ) :
    settle padding r (after env n r.1) = (after env n r.1, r.2) := by
  obtain ⟨es, hes, hquiet⟩ := acts_after_quiet env 0 n r.1
  exact settle_of_still padding hr hes.performs (still_of_quiet hquiet)

theorem readLocked_after {key : Key} (h : ReadLocked env s key L t) : ∃ n, t = after env n s := by
  cases h with
  | miss => exact ⟨0, rfl⟩
  | gone => exact ⟨1, rfl⟩
  | hit => exact ⟨2, rfl⟩

theorem label_settle (padding : ℕ → UInt32) (r : Sys × HmapTable) (x : Sys) :
    (settle padding r x).1.cache.label d = x.cache.label d := rfl

theorem wlock_settle (padding : ℕ → UInt32) (r : Sys × HmapTable) (x : Sys) :
    (settle padding r x).1.cache.wlock = x.cache.wlock := rfl

/-- Storing and committing makes no call on the table. -/
theorem storeCommit_onTable (padding : ℕ → UInt32) (env : Env) (hr : Coupled (both r)) {key : Key}
    (X : Buffer) (hlabel : r.1.cache.label d = key) (hw : r.1.cache.wlock = some ⟨d, key⟩)
    (ht : storedPage env d key X r.1 = t) :
    onTable padding (storeCommit env d X) r = .ok ((), (t, r.2)) ∧ Coupled (both (t, r.2)) := by
  obtain ⟨es, hes, hstill⟩ := acts_storedPage env X hlabel hw
  rw [ht] at hes
  have hsettle := settle_of_still padding hr hes.performs hstill
  refine ⟨onTable_ok.mpr ⟨t, ?_, hsettle.symm⟩, hsettle ▸ coupled_settle hr hes.performs⟩
  rw [storeCommit_eq env X hw, ht]

/-- Reading makes no call on the table. -/
theorem readLock_onTable (padding : ℕ → UInt32) (hr : Coupled (both r)) {lock : RLock}
    (hlock : lazyfreeReadLock env lock r.1 = .ok (L, t)) :
    onTable padding (lazyfreeReadLock env lock) r = .ok (L, (t, r.2)) := by
  obtain ⟨n, rfl⟩ := readLocked_after (readLocked_of_ok hlock)
  exact onTable_ok.mpr ⟨_, hlock, (settle_after padding hr env n).symm⟩

theorem performs_of_writeLocked (h : JustLocked L s) {L' : RLock}
    (ht : WriteLocked env s L d L' t) : ∃ es, Performs s t es := by
  obtain ⟨⟨es, hes, -⟩, -⟩ := writeLocked_steps (K := anyKey) ht h.wlock trivial
    fun p hp => h.handedOut hp
  exact ⟨es, hes⟩

theorem writeLocked_of_ok (h : JustLocked L s) {L' : RLock}
    (hrun : lazyfreeWriteLock env L s = .ok ((d, L'), x)) : WriteLocked env s L d L' x :=
  (wp_of_ok hrun).mp (lazyfreeWriteLock_spec env L s h.wlock h.index_lt)

/-- Allocating for the lock makes the removes of the evicted chunk and one put. -/
theorem settle_allocated (padding : ℕ → UInt32) (hu : Starts env L r.1 u) (h : JustLocked L r.1)
    {j : ℕ} (hfinds : Finds env u j d) :
    ∃ bytes, (settle padding r (perform (searched env u j) (.allocated d L.key))).2 =
      (openedTable env r).hmapPut L.key d bytes := by
  obtain ⟨qs, hqs, hquiet⟩ := hu.acts h.wlock h.label
  have hperf := hqs.performs.trans (hfinds.performs (by rw [hu.cache, h.wlock]) L.key)
  have htable : (replay (applyBoth padding) (both r) qs).2 = r.2 :=
    snd_replay_still (still_of_quiet hquiet) (both r)
  have hcache : (replay (applyBoth padding) (both r) qs).1.cache = r.1.cache := by
    rw [fst_replay, ← hu.cache]
    exact (congrArg Core.cache hqs.performs.1).symm
  have hopened : (replay (applyBoth padding) (replay (applyBoth padding) (both r) qs)
      (openEvents env u)).2 = openedTable env r := by
    rw [hu.openEvents]
    unfold openedTable
    split
    · change HmapTable.hmapRemoveKeys _ (Cache.chunks _ _).keys (Cache.chunks _ _).len = _
      rw [hcache, htable]
    · exact htable
  have hsearched : (replay (applyBoth padding) (both r) (qs ++ searchEvents env u j)).2 =
      openedTable env r := by
    unfold searchEvents
    rw [replay_append, replay_append, ← hopened]
    exact snd_replay_still (still_advises env u j) _
  rw [← List.append_assoc] at hperf
  rw [← hsearched]
  exact snd_settle_put (x := perform (searched env u j) (.allocated d L.key)) padding hperf

theorem intact_openedTable (env : Env) (hr : Coupled (both r)) : Intact (openedTable env r) := by
  unfold openedTable
  split
  · exact hr.simulates.intact.removeKeys _ _
  · exact hr.simulates.intact

/-- The table leads the key to the allocated slot if the put enters it, and only then. -/
theorem leads_iff (padding : ℕ → UInt32) (hr : Coupled (both r)) (hu : Starts env L r.1 u)
    (h : JustLocked L r.1) {j : ℕ} (hfinds : Finds env u j d) :
    (settle padding r (perform (searched env u j) (.allocated d L.key))).2.hmapGet L.key = some d ↔
      ∀ bytes, ((openedTable env r).hmapPut L.key d bytes).hmapGet L.key = some d := by
  have hindex := h.found_lt (hu.finds_iff.mp hfinds)
  obtain ⟨bytes, hbytes⟩ := settle_allocated padding hu h hfinds
  rw [hbytes]
  refine ⟨fun hleads bytes' => ?_, fun hleads => hleads bytes⟩
  rw [← hleads]
  exact hmapGet_hmapPut_padding (intact_openedTable env hr) hindex bytes' bytes L.key

theorem readsBack_of_writes (hr : Coupled (both r)) (h : JustLocked L r.1)
    (hwrites : Writes env L X r.1 d x) (hsame : (settle padding r x).1 = x)
    (hleads : (settle padding r x).2.hmapGet L.key = some d) : ReadsBack padding env L X r := by
  obtain ⟨L', hlock⟩ := hwrites.locked
  obtain ⟨es, hes⟩ := performs_of_writeLocked h (writeLocked_of_ok h hlock)
  have hcoupled : Coupled (both (settle padding r x)) := coupled_settle hr hes
  generalize hq : settle padding r x = q at hsame hleads hcoupled
  subst hsame
  have hunnoticed := hwrites.unnoticed
  generalize ht : storedPage env d L.key X q.1 = t at hunnoticed
  obtain ⟨hstore, hcoupled'⟩ :=
    storeCommit_onTable padding env hcoupled X hwrites.label hwrites.wlock ht
  have hmapped : q.1.cache.Mapped L.key d :=
    ⟨(hcoupled.simulates.get L.key).symm.trans hleads, hwrites.label⟩
  refine ⟨d, L', q, (t, q.2), onTable_ok.mpr ⟨q.1, hlock, hq.symm⟩, hwrites.right, hstore, hleads,
    ?_, hunnoticed⟩
  intro lock dest hkey
  rw [← hkey] at hmapped ht
  obtain ⟨L₂, v, v', w, hread, hbytes, hv⟩ := reads_back_stored env X hmapped dest
  rw [ht] at hread
  exact ⟨L₂, (v, q.2), v', _, readLock_onTable padding hcoupled' hread,
    onTable_ok.mpr ⟨w, hbytes, rfl⟩, hv⟩

/-- A promise that is kept by allocating was safe, and the slot got into the table. -/
theorem safe_of_readsBack (hr : Coupled (both r)) (h : JustLocked L r.1)
    (hback : ReadsBack padding env L X r) (hup : ∀ p, ¬ Upgrades env L r.1 p) :
    (1 ≤ r.1.cache.pagesPerChunk ∧ AllocatesSafely env L r.1) ∧ EntryStored env L r := by
  obtain ⟨d, L', u, t, hlock, -, hstore, hleads, -, hunnoticed⟩ := hback
  obtain ⟨x, hx, rfl⟩ := onTable_ok.mp hlock
  obtain ⟨v, j, hv, hfinds, hxv⟩ := starts_of_writeLocked h (writeLocked_of_ok h hx) hup
  obtain ⟨es, hes, hnothing⟩ := performs_allocated hv h hfinds
  rw [← hxv] at hes
  have hlabel : x.cache.label d = L.key := by
    rw [hxv]
    change ((searched env v j).cache.allocate d L.key).label d = L.key
    rw [Cache.label_allocate, if_pos rfl]
  have hwlock : x.cache.wlock = some ⟨d, L.key⟩ := by
    rw [hxv]
    rfl
  have hcoupled : Coupled (both (settle padding r x)) := coupled_settle hr hes
  have hlabel' := (label_settle padding r x).trans hlabel
  have hwlock' := (wlock_settle padding r x).trans hwlock
  have hsame : (settle padding r x).2.hmapGet L.key = some d → (settle padding r x).1 = x :=
    settle_of_leads hr hes hnothing
  have hentry := leads_iff padding hr hv h hfinds
  rw [← hxv] at hentry
  generalize settle padding r x = q at hcoupled hlabel' hwlock' hsame hentry hlock hstore
  obtain ⟨hstored, -⟩ := storeCommit_onTable padding env hcoupled X hlabel' hwlock' rfl
  obtain rfl := (Prod.mk.inj (Except.ok.inj (hstored.symm.trans hstore))).2
  have hfinds' := hv.finds_iff.mp hfinds
  have hlt := index_lt_of_finds h.accounted h.wlock hfinds'
  refine ⟨⟨by omega, safe_of_unnoticed (X := X) h hv hfinds ?_⟩, ?_⟩
  · rw [filled_fullPage, ← hxv, ← hsame hleads]
    exact hunnoticed
  · intro _ i p hi
    obtain rfl := hi.unique hfinds'
    exact hentry.mp hleads

/-- The code keeps the promise exactly when the lock is safe to write through and a slot that is
allocated gets into the table. -/
theorem readsBack_iff_writeSafe (hr : Coupled (both r)) (h : JustLocked L r.1) :
    ReadsBack padding env L X r ↔ WriteSafe env L r.1 ∧ EntryStored env L r := by
  constructor
  · intro hback
    refine ⟨⟨?_, fun hup => (safe_of_readsBack hr h hback hup).1⟩, ?_⟩
    · intro p hup
      obtain ⟨d, L', u, t, hlock, hright, -⟩ := hback
      obtain ⟨x, hx, rfl⟩ := onTable_ok.mp hlock
      obtain ⟨hd, -⟩ := slot_of_writeLocked h (writeLocked_of_ok h hx) hup
      have hindex : p.index % 2 ^ 16 = p.index :=
        congrArg EntryDescriptor.index (hd.symm.trans (hright.1 p hup).1)
      exact hindex ▸ Nat.mod_lt p.index (by decide)
    · intro hup
      exact (safe_of_readsBack hr h hback hup).2 hup
  · rintro ⟨⟨hindex, hsafe⟩, hentry⟩
    by_cases hup : ∃ p, Upgrades env L r.1 p
    · obtain ⟨p, hup⟩ := hup
      obtain ⟨es, hes, hstill⟩ := acts_upgradedTo env h.wlock (h.label p hup.1) (h.handedOut hup.1)
        (hindex p hup)
      have hsettle : settle padding r (upgradedTo env r.1 p L.key) =
          (upgradedTo env r.1 p L.key, r.2) :=
        settle_of_still (x := upgradedTo env r.1 p L.key) padding hr hes.performs hstill
      refine readsBack_of_writes hr h (writes_upgraded h hup (hindex p hup)) ?_ ?_
      · rw [hsettle]
      · rw [hsettle]
        exact (hr.simulates.get L.key).trans (h.mapped p hup.1).1
    · have hno : ∀ p, ¬ Upgrades env L r.1 p := fun p hp => hup ⟨p, hp⟩
      obtain ⟨⟨d, L'⟩, x, hrun, hlocked⟩ := writeLock_returns env h (hsafe hno).1
      obtain ⟨u, j, hu, hfinds, rfl⟩ := starts_of_writeLocked h hlocked hno
      obtain ⟨es, hes, hnothing⟩ := performs_allocated hu h hfinds
      have hleads := (leads_iff padding hr hu h hfinds).mpr
        (hentry hno j d (hu.finds_iff.mp hfinds))
      exact readsBack_of_writes hr h (writes_allocated hu h hfinds hrun hno (hsafe hno).2)
        (settle_of_leads hr hes hnothing hleads) hleads

/-- A put for which `hashmap_put` returns 0 enters the slot. -/
theorem entryStored_of_put (hr : Coupled (both r)) (h : JustLocked L r.1)
    (hput : L.key ≠ 0 → ∀ value, (hashmapPut (openedTable env r).map L.key value).1 = 0) :
    EntryStored env L r := by
  intro _ j d hfinds bytes
  have hindex := h.found_lt hfinds
  exact hmapGet_hmapPut_self (intact_openedTable env hr) hindex fun hkey => hput hkey _

/-- Keys that do not crowd find room in the table whatever was evicted. -/
theorem hashmapPut_openedTable {K : Finset Key} (hK : Uncrowded exactKeyHasher K)
    (hcard : K.card < 2 ^ 31) (hzero : 0 ∉ K) (hr : Coupled (both r))
    (hinside : KeysInside (OrZero K) r.1.toCore) {key : Key} (hkey : key ∈ K) (value : UInt64) :
    (hashmapPut (openedTable env r).map key value).1 = 0 := by
  refine hashmapPut_of_found hK hcard hzero (intact_openedTable env hr) (fun k hk hfound => ?_)
    hkey value
  obtain ⟨d, hd⟩ := Option.ne_none_iff_exists'.mp hfound
  have hbefore : r.2.hmapGet k = some d := by
    unfold openedTable at hd
    split at hd
    · exact hmapGet_of_removeKeys hr.simulates.intact _ _ hd
    · exact hd
  have hmap := (hr.simulates.get k).symm.trans hbefore
  exact (hinside.map k (Option.ne_none_iff_exists'.mpr ⟨d, hmap⟩)).resolve_left hk

theorem justLocked_of_ok {lock : RLock} (hs : Accounted s.toCore)
    (hrun : lazyfreeReadLock env lock s = .ok (L, t)) : JustLocked L t := by
  have hlocked := readLocked_of_ok hrun
  have hw := wlock_of_readLock hrun
  refine ⟨(readLocked_steps hlocked : Steps anyKey s t).accounted hs, ?_, ?_, ?_⟩
  · cases hlocked <;> simp [hw]
  · cases hlocked <;> simp [*]
  · intro p hp
    cases hlocked with
    | miss hkey hhead => cases hhead.symm.trans hp
    | gone d hkey hhead => cases hhead.symm.trans hp
    | hit d hkey hhead hmapped =>
      cases hhead.symm.trans hp
      rw [cache_after, hkey]
      exact hmapped

/-- After a read lock on the real table, nothing has happened to the table. -/
theorem locked_onTable {lock : RLock} {q : Sys × HmapTable} (hq : Coupled (both q))
    (hlock : onTable padding (lazyfreeReadLock env lock) q = .ok (L, r)) :
    Coupled (both r) ∧ JustLocked L r.1 ∧ L.key = lock.key ∧ ∃ n, r = (after env n q.1, q.2) := by
  obtain ⟨x, hx, rfl⟩ := onTable_ok.mp hlock
  have hlocked := readLocked_of_ok hx
  have hkey : L.key = lock.key := by
    cases hlocked with
    | miss hkey => exact hkey
    | gone d hkey => exact hkey
    | hit d hkey => exact hkey
  obtain ⟨n, rfl⟩ := readLocked_after hlocked
  have hsettle := settle_after padding hq env n
  obtain ⟨es, hes, -⟩ := acts_after_quiet env 0 n q.1
  have hcoupled : Coupled (both (settle padding q (after env n q.1))) :=
    coupled_settle hq hes.performs
  rw [hsettle] at hcoupled ⊢
  exact ⟨hcoupled, justLocked_of_ok hq.accounted hx, hkey, n, rfl⟩

/-- Read your write, in any state a process can reach on the real table: locking for writing
through a fresh read lock, storing a page and committing it does what the caller expects exactly
when the lock is safe to write through and a slot that is allocated gets into the table, as it does
for keys that do not crowd. -/
theorem readsBack_iff {boot : Boot} {capacity l a d : ℕ} {r₀ : Sys × HmapTable}
    (hnew : tableCacheNewEx boot capacity l a d = some r₀) {ft : FtCache} {calls : List Call}
    {p : Process × HmapTable} (hrun : tableRun padding (exec env ft) calls
      (startTable r₀ fun _ => .fresh 0) = .ok ((), p))
    {lock : RLock} (hlock : onTable padding (lazyfreeReadLock env lock) (p.1.sys, p.2) = .ok (L, r))
    (X : Buffer) :
    (ReadsBack padding env L X r ↔ WriteSafe env L r.1 ∧ EntryStored env L r) ∧
      ((L.key ≠ 0 → ∀ value, (hashmapPut (openedTable env r).map L.key value).1 = 0) →
        EntryStored env L r) ∧
      ∀ K : Finset Key, Uncrowded exactKeyHasher K → K.card < 2 ^ 31 → 0 ∉ K →
        (∀ call ∈ calls, call.OnKeys (OrZero K)) → OrZero K lock.key →
        EntryStored env L r := by
  have hs := (created_of_new (tableCacheNewEx_some.mp hnew).1).1
  have hstart : Coupled (both (startTable r₀ fun _ => .fresh 0)) := coupled_new hnew
  obtain ⟨-, hcoupled, -⟩ := tableRun_coupled (faithful_exec env ft)
    (hs.sound_locks fun _ => rfl) hstart hrun
  have hq : Coupled (both ((p.1.sys, p.2) : Sys × HmapTable)) := hcoupled
  obtain ⟨hr, h, hkey, n, hr'⟩ := locked_onTable hq hlock
  refine ⟨readsBack_iff_writeSafe hr h, entryStored_of_put hr h, ?_⟩
  intro K hK hcard hzero hcalls hlockKey
  obtain ⟨-, hinside⟩ := putsStored_of_tableRun hK hcard hzero hnew (fun _ => ⟨rfl, .inl rfl⟩)
    hcalls hrun
  have hinside' : KeysInside (OrZero K) r.1.toCore := by
    rw [hr']
    exact steps_keysInside (.inl rfl) (steps_after env n p.1.sys) hinside
  refine entryStored_of_put hr h fun hne => ?_
  exact hashmapPut_openedTable hK hcard hzero hr hinside'
    ((hkey ▸ hlockKey : OrZero K L.key).resolve_left hne)

/-- Key 1 has a page; its lock is upgraded and a page of zeros is stored through it. -/
theorem readsBack_first_page : ∃ p L r,
    tableRun (fun _ => 0) (exec calm byteCache) [.ftGet 1]
      (startTable smallTable fun _ => .fresh 0) = .ok ((), p) ∧
    onTable (fun _ => 0) (lazyfreeReadLock calm (.fresh 1)) (p.1.sys, p.2) = .ok (L, r) ∧
    ReadsBack (fun _ => 0) calm L blank r := by
  obtain ⟨p, L, s, hideal, hread, hhead, halive⟩ : ∃ p L s,
      run calm byteCache [.ftGet 1] ⟨smallCache, fun _ => .fresh 0⟩ = .ok ((), p) ∧
      lazyfreeReadLock calm (.fresh 1) p.sys = .ok (L, s) ∧ L.head = .page ⟨0, 0⟩ ∧
      Alive (pinned calm s ⟨0, 0⟩).toCore ⟨0, 0⟩ :=
    ⟨_, _, _, run_eq_unit _ _ (by decide +kernel), run_eq _ _ (by decide +kernel),
      by decide +kernel, by decide +kernel⟩
  have hK : Uncrowded exactKeyHasher ({1} : Finset Key) := by decide +kernel
  have hcalls : ∀ call ∈ [Call.ftGet 1], call.OnKeys (OrZero {1}) := by simp [Call.OnKeys, OrZero]
  obtain ⟨⟨t, hrun⟩, -⟩ := tableRun_of_uncrowded (fun _ => 0) hK (by decide) (by decide)
    smallTable_new (fun _ => ⟨rfl, .inl rfl⟩) hcalls hideal
  have hsound : Sound (startTable smallTable fun _ => .fresh 0).1 :=
    (created_of_new smallCache_new).1.sound_locks fun _ => rfl
  obtain ⟨-, hcoupled, -⟩ :=
    tableRun_coupled (faithful_exec calm byteCache) hsound (coupled_new smallTable_new) hrun
  have hlock := readLock_onTable (r := (p.sys, t)) (fun _ => 0) hcoupled hread
  obtain ⟨hiff, -, hentry⟩ := readsBack_iff smallTable_new hrun hlock blank
  refine ⟨_, _, _, hrun, hlock, hiff.mpr ⟨⟨?_, fun hno => absurd ⟨hhead, halive⟩ (hno ⟨0, 0⟩)⟩,
    hentry {1} hK (by decide) (by decide) hcalls (by simp [OrZero, RLock.fresh])⟩⟩
  rintro q ⟨hq, -⟩
  cases hhead.symm.trans hq
  decide

/-- A page that cannot be reclaimed survives its upgrade. -/
theorem upgrades_of_stored (hhead : L.head = .page p) (hstored : (s.mem p).lazyfree = false)
    (halive : Alive s.toCore p) : Upgrades env L s p := by
  have hpage := pageSize_eq
  have hone : (after env 1 s).mem p = s.mem p := mem_kernel_of_stored hstored
  have hpin : (storing env (after env 1 s) p 0 1).mem p = (s.mem p).store 0 1 := by
    rw [mem_storing, mem_kernel_of_stored (by rw [hone]; exact hstored), hone]
  refine ⟨hhead, ?_⟩
  unfold pinned Alive
  rw [after_one, mem_kernel_of_stored (by rw [hpin]; rfl), hpin, tail_store_of_ne _ _ (by omega)]
  exact halive

/-- A lock on a page beyond the first 65536 cannot be upgraded as promised. -/
theorem not_writeSafe_of_index {key : Key} (hs : Idle s) (hlast : LastPage key d s)
    (hindex : 2 ^ 16 ≤ d.index) (env : Env) :
    ∃ L t, lazyfreeReadLock env (.fresh key) s = .ok (L, t) ∧ ¬ WriteSafe env L t := by
  have halive : ∀ n, Alive (after env n s).toCore d := fun n =>
    alive_after_stored env n hlast.stored hlast.alive
  have hwp : wp (lazyfreeReadLock env (.fresh key)) (ReadLocked env s key) (fun _ => False) s :=
    wp_readLock hs.wlock fun _ _ h => h
  obtain ⟨L, t, hlock, hL⟩ := returns_of_wp hwp
  refine ⟨L, t, hlock, ?_⟩
  rintro ⟨hsmall, -⟩
  cases hL with
  | miss hkey hhead hmissing => exact hmissing _ hlast.mapped
  | gone e hkey hhead hmapped hdead =>
    obtain rfl := hmapped.unique hlast.mapped
    exact hdead (halive 1)
  | hit e hkey hhead hmapped _ htail =>
    obtain rfl := hmapped.unique hlast.mapped
    have hstored : ((after env 2 s).mem e).lazyfree = false := by
      rw [mem_after_stored env 2 hlast.stored]
      exact hlast.stored
    have hlt := hsmall e (upgrades_of_stored hhead hstored (halive 2))
    omega

/-- With 65537 pages in a chunk, 65537 writes for key 1 leave it page 65536, whose index does not
fit into the lock: the upgrade locks page 0. -/
theorem upgrade_takes_another_slot : ∃ r₀ p L r,
    tableCacheNewEx zeroBoot (numberOfChunks * (65537 * pageSize)) 32 0 0 = some r₀ ∧
    tableRun (fun _ => 0) (exec calm byteCache) (rewrites 1 (65536 + 1))
      (startTable r₀ fun _ => .fresh 0) = .ok ((), p) ∧
    onTable (fun _ => 0) (lazyfreeReadLock calm (.fresh 1)) (p.1.sys, p.2) = .ok (L, r) ∧
    ¬ ReadsBack (fun _ => 0) calm L blank r := by
  obtain ⟨s₀, hnew⟩ : ∃ s₀,
      lazyfreeCacheNewEx zeroBoot (numberOfChunks * (65537 * pageSize)) 32 0 0 = .ok s₀ := by
    unfold lazyfreeCacheNewEx
    rw [if_neg (by decide), if_neg (by decide)]
    exact ⟨_, rfl⟩
  obtain ⟨hcreated, hpages⟩ := created_of_new hnew
  rw [Nat.mul_div_cancel_left _ (by decide), Nat.mul_div_cancel _ (by decide)] at hpages
  have htable : tableCacheNewEx zeroBoot (numberOfChunks * (65537 * pageSize)) 32 0 0 =
      some (s₀, .new s₀.cache.pagesPerChunk) :=
    tableCacheNewEx_some.mpr ⟨hnew, by dsimp only; rw [hpages]; decide, rfl⟩
  have hlocks : ∀ i, ((fun _ => RLock.fresh 0 : ℕ → RLock) i).head = .null ∧
      OrZero {1} ((fun _ => RLock.fresh 0 : ℕ → RLock) i).key := fun _ => ⟨rfl, .inl rfl⟩
  obtain ⟨p, hideal, hfilling, -, hlast⟩ := filling_run calm byteCache 1
    (filling_of_created hcreated) (by omega : 65536 < s₀.cache.pagesPerChunk) fun _ => .fresh 0
  obtain ⟨⟨t, hrun⟩, -⟩ := tableRun_of_uncrowded (fun _ => 0) (K := {1}) (by decide +kernel)
    (by decide) (by decide) htable hlocks (onKeys_rewrites _ (.inr (by simp)) _) hideal
  have hstart : Coupled (both (startTable (s₀, .new s₀.cache.pagesPerChunk) fun _ => .fresh 0)) :=
    coupled_new htable
  obtain ⟨-, hcoupled, -⟩ := tableRun_coupled (faithful_exec calm byteCache)
    (hcreated.sound_locks fun _ => rfl) hstart hrun
  obtain ⟨L, s, hread, hnot⟩ := not_writeSafe_of_index hfilling.idle hlast (by decide) calm
  have hlock := readLock_onTable (r := (p.sys, t)) (fun _ => 0) hcoupled hread
  obtain ⟨hr, hjust, -⟩ := locked_onTable (q := (p.sys, t)) hcoupled hlock
  exact ⟨_, _, L, _, htable, hrun, hlock, fun hback =>
    hnot ((readsBack_iff_writeSafe hr hjust).mp hback).1⟩

end LazyfreeCache.ReadYourWrite
