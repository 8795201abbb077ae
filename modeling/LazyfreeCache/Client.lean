import LazyfreeCache.Accounting

/-!
Runs of a process that uses the cache. A client keeps any number of read locks
under names of its choice, writes to the page of the write lock it holds, and
may mix the lazyfree calls with the fallthrough ones. Whatever it does, a run
that did not stop is a replay of allowed events, and the free-page accounting
holds at its end.
-/
namespace LazyfreeCache.Client

open ProgramLogic EventReplay State LazyfreeOps FallthroughOps Refinement Reads Allocation
open Writes Fallthrough FallthroughEvents Accounting

/-- The process: the machine and the read locks of the client. -/
structure Process where
  sys : Sys
  locks : ℕ → RLock

inductive Call
  /-- The client sets up lock `l` with a key and `head = NULL`. -/
  | rlock (l : ℕ) (key : Key)
  | readLock (l : ℕ)
  | read (l : ℕ) (offset size : UInt64)
  | readUnlock (l : ℕ) (drop : Bool)
  | writeLock (l : ℕ)
  /-- The client stores a byte to the page it holds the write lock on. -/
  | store (offset : Fin pageSize) (v : UInt8)
  | writeUnlock (drop : Bool)
  | ftGet (key : Key)
  | ftDrop (key : Key)

def onSys {α : Type} (m : M α) : Prog Process Fault α := fun p =>
  match m p.sys with
  | .ok (a, t) => .ok (a, { p with sys := t })
  | .error e => .error e

def setLock (l : ℕ) (lock : RLock) : Prog Process Fault Unit :=
  modify fun p => { p with locks := Function.update p.locks l lock }

/-- Stores go to the page that `lazyfree_write_lock` returned. -/
def storeLocked (env : Env) (offset : ℕ) (v : UInt8) : M Unit := do
  match (← get).cache.wlock with
  | none => pure ()
  | some w => storeByte env w.slot offset v

def exec (env : Env) (ft : FtCache) : Call → Prog Process Fault Unit
  | .rlock l key => setLock l (.fresh key)
  | .readLock l => do
    let lock ← onSys (lazyfreeReadLock env ((← get).locks l))
    setLock l lock
  | .read l offset size => do
    let _ ← onSys (lazyfreeRead env ((← get).locks l) (fun _ => 0) offset.toNat size.toNat)
  | .readUnlock l drop => do
    let _ ← onSys (lazyfreeReadUnlock env ((← get).locks l) drop)
  | .writeLock l => do
    let (_, lock) ← onSys (lazyfreeWriteLock env ((← get).locks l))
    setLock l lock
  | .store offset v => onSys (storeLocked env offset v)
  | .writeUnlock drop => onSys (lazyfreeWriteUnlock env drop)
  | .ftGet key => do
    let _ ← onSys (ftCacheGet env ft key fun _ => 0)
  | .ftDrop key => do
    let _ ← onSys (ftCacheDrop env key)

def run (env : Env) (ft : FtCache) (calls : List Call) : Prog Process Fault Unit :=
  runAll (exec env ft) calls

/-- A process that has just created its cache. -/
def start (s : Sys) : Process := ⟨s, fun _ => .fresh 0⟩

/-- What every reachable state of a process satisfies. -/
structure Sound (p : Process) : Prop where
  accounted : Accounted p.sys.toCore
  locks : ∀ l d, (p.locks l).head = .page d → p.sys.HandedOut d

/-! ### Every call is a replay of allowed events -/

/-- The slots that the event gives a key, or takes one from, carry keys in `K`. -/
def OnKeys (K : Key → Prop) : Event → Prop
  | .allocated _ key => K key
  | .upgraded _ w => K w.key
  | .dropped _ key => K key
  | _ => True

/-- Some allowed events, on keys in `K`, lead from one state to the other. -/
def Steps (K : Key → Prop) (s t : Sys) : Prop :=
  ∃ es, Performs s t es ∧ (∀ e ∈ es, OnKeys K e) ∧ Searches es

/-- A slot with a key in `K` is dropped although its chunk has `len` free pages already. -/
def Overflows (K : Key → Prop) (s : Sys) : Prop :=
  ∃ d, s.HandedOut d ∧ K (s.cache.label d) ∧ s.cache.len d.chunk ≤ (s.cache.free d.chunk).length

/-- How a call may stop the process. -/
def Stops (K : Key → Prop) (s : Sys) (e : Fault) : Prop := e = .freePagesOverflow → Overflows K s

variable {K : Key → Prop}

theorem stops_of_ne {s : Sys} {e : Fault} (h : e ≠ .freePagesOverflow) : Stops K s e :=
  fun he => absurd he h

theorem steps_refl (s : Sys) : Steps K s s := ⟨[], performs_refl s, by simp, trivial⟩

theorem Steps.trans {s t u : Sys} (h : Steps K s t) (h' : Steps K t u) : Steps K s u := by
  obtain ⟨es, hes, hkeys, hsearch⟩ := h
  obtain ⟨fs, hfs, hkeys', hsearch'⟩ := h'
  exact ⟨es ++ fs, hes.trans hfs,
    fun e he => (List.mem_append.mp he).elim (hkeys e) (hkeys' e), hsearch.append hsearch'⟩

theorem Steps.accounted {s t : Sys} (h : Steps K s t) (hs : Accounted s.toCore) :
    Accounted t.toCore := by
  obtain ⟨es, hes, -⟩ := h
  exact accounted_performs hs hes

theorem Steps.handedOut {s t : Sys} (h : Steps K s t) {d : EntryDescriptor} (hd : s.HandedOut d) :
    t.HandedOut d := by
  obtain ⟨es, hes, -⟩ := h
  exact hes.handedOut hd

theorem steps_after (env : Env) (n : ℕ) (s : Sys) : Steps K s (after env n s) := by
  obtain ⟨ds, h⟩ := performs_after env n s
  refine ⟨_, h, fun e he => ?_, searches_of_forall fun e he => ?_⟩
  all_goals
    obtain ⟨d, -, rfl⟩ := List.mem_map.mp he
  · trivial
  · exact fun h => h

theorem steps_event {s : Sys} {e : Event} (h : s.toCore.Enabled e) (hkey : OnKeys K e)
    (hopens : ¬ Opens e) : Steps K s (perform s e) :=
  ⟨_, performs_perform h, fun f hf => by rwa [List.mem_singleton.mp hf], fun h => absurd h hopens,
    trivial⟩

theorem steps_storing {env : Env} {s : Sys} {d : EntryDescriptor} {offset : ℕ} {v : UInt8}
    (h : (∃ key, s.cache.wlock = some ⟨d, key⟩) ∨ (s.cache.wlock = none ∧ offset = 0)) :
    Steps K s (storing env s d offset v) :=
  (steps_after env 1 s).trans (steps_event h trivial fun h => h)

/-- What acts for a key in `K` is on keys in `K`. -/
theorem onKeys_of_acts {env : Env} {key : Key} {s t : Sys} {es : List Event} (hkey : K key)
    (h : Acts env key s t es) : ∀ e ∈ es, OnKeys K e := by
  have halong := h.along
  clear h
  generalize s.toCore = s at halong
  induction es generalizing s with
  | nil => simp
  | cons e es ih =>
    intro f hf
    rcases List.mem_cons.mp hf with rfl | hf
    · cases f with
      | allocated d k => exact halong.1 ▸ hkey
      | upgraded d w =>
        have hw : w.key = key := halong.1
        exact (hw ▸ hkey : K w.key)
      | dropped d k => exact halong.1 ▸ hkey
      | _ => trivial
    · exact ih _ halong.2 f hf

theorem steps_of_acts {env : Env} {key : Key} {s t : Sys} {es : List Event} (hkey : K key)
    (h : Acts env key s t es) (hsearch : Searches es) : Steps K s t :=
  ⟨es, h.performs, onKeys_of_acts hkey h, hsearch⟩

theorem index_lt {s : Core} (h : Accounted s) {d : EntryDescriptor} (hd : s.HandedOut d) :
    d.index < 2 ^ 32 := by
  have hlt := h.handed_lt d hd
  have hpages := h.pages
  omega

theorem readLocked_steps {env : Env} {s t : Sys} {key : Key} {L : RLock}
    (h : ReadLocked env s key L t) : Steps K s t := by
  cases h with
  | miss => exact steps_refl s
  | gone => exact steps_after env 1 s
  | hit => exact steps_after env 2 s

theorem tailOpened_steps {env : Env} {s : Sys} {w : WLock} (hw : s.cache.wlock = some w) :
    Steps K s (tailOpened env s w.slot) := by
  unfold tailOpened
  split
  · exact steps_refl s
  · exact (steps_after env 1 s).trans
      (steps_storing (.inl ⟨w.key, by rw [cache_after, hw]⟩))

theorem pinned_steps (env : Env) {s : Sys} (d : EntryDescriptor) (hw : s.cache.wlock = none) :
    Steps K s (pinned env s d) := by
  refine Steps.trans ?_ (steps_after env 1 _)
  exact (steps_after env 1 s).trans (steps_storing (.inr ⟨by rw [cache_after, hw], rfl⟩))

theorem unpinned_steps (env : Env) {s : Sys} (d : EntryDescriptor) (hw : s.cache.wlock = none) :
    Steps K s (unpinned env s d) :=
  (pinned_steps env d hw).trans (steps_storing (.inr ⟨by rw [cache_pinned, hw], rfl⟩))

theorem finds_steps {env : Env} {s : Sys} {j : ℕ} {d : EntryDescriptor} {key : Key}
    (h : Finds env s j d) (hw : s.cache.wlock = none) (hkey : K key) :
    Steps K s (perform (searched env s j) (.allocated d key)) :=
  steps_of_acts hkey ((acts_searched hw h.before).trans
    (acts_event env ⟨(wlock_searched env s j).trans hw, h.ready⟩ rfl (by simp)))
    (searches_found env s j d key trivial)

theorem writeLocked_steps {env : Env} {s t : Sys} {L L' : RLock} {d : EntryDescriptor}
    (h : WriteLocked env s L d L' t) (hw : s.cache.wlock = none) (hkey : K L.key)
    (hlock : ∀ p, L.head = .page p → s.HandedOut p) :
    Steps K s t ∧ L'.key = L.key ∧ ∀ p, L'.head = .page p → s.HandedOut p := by
  cases h with
  | fresh j d hhead hfinds => exact ⟨finds_steps hfinds hw hkey, rfl, hlock⟩
  | moved p j d hhead hlabel hfinds =>
    exact ⟨finds_steps hfinds hw hkey, rfl, fun q hq => by cases hq⟩
  | torn p j d hhead hlabel hdead hfinds =>
    have hwu : (unpinned env s p).cache.wlock = none := by
      change (pinned env s p).cache.wlock = none
      rw [cache_pinned, hw]
    exact ⟨(unpinned_steps env p hw).trans (finds_steps hfinds hwu hkey), rfl,
      fun q hq => by cases hq⟩
  | upgraded p hhead hlabel halive =>
    have hrestored : Steps K s (restored env s p) :=
      (pinned_steps env p hw).trans (steps_storing (.inr ⟨by rw [cache_pinned, hw], rfl⟩))
    have hcache : (restored env s p).cache = s.cache := cache_pinned env s p
    have hup : Steps K (restored env s p)
        (perform (restored env s p) (.upgraded p (upgradeLock p L.key))) := by
      refine steps_event ⟨?_, hrestored.handedOut (hlock p hhead), ?_, rfl⟩ hkey
        fun h => h
      · rw [hcache, hw]
      · rw [hcache]
        exact hlabel
    exact ⟨(hrestored.trans hup).trans (tailOpened_steps rfl), rfl, hlock⟩

/-! ### Calls -/

theorem wp_onSys {α : Type} {m : M α} {Q : α → Process → Prop} {E : Fault → Prop}
    {p : Process} :
    wp (onSys m) Q E p ↔ wp m (fun a t => Q a { p with sys := t }) E p.sys := by
  unfold wp onSys
  cases m p.sys <;> rfl

theorem onSys_ok {α : Type} {m : M α} {p : Process} {a : α} {t : Sys} (h : m p.sys = .ok (a, t)) :
    onSys m p = .ok (a, { p with sys := t }) := by
  unfold onSys
  rw [h]

/-- A call that begins with `assert(wlock_chunk == -1)`. -/
theorem wp_of_unlocked {α : Type} {f : Unit → M α} {Q : α → Sys → Prop} {E : Fault → Prop}
    {s : Sys} (hassert : E .assertFailed) (h : s.cache.wlock = none →
      wp (get >>= fun s : Sys => require (s.cache.wlock = none) .assertFailed >>= f) Q E s) :
    wp (get >>= fun s : Sys => require (s.cache.wlock = none) .assertFailed >>= f) Q E s := by
  by_cases hw : s.cache.wlock = none
  · exact h hw
  · simp only [wp_bind, wp_get, wp_require]
    exact ⟨fun hw' => absurd hw' hw, fun _ => hassert⟩

theorem readLock_sound (env : Env) (lock : RLock) {s : Sys} (hs : Accounted s.toCore) :
    wp (lazyfreeReadLock env lock) (fun L t => Steps K s t ∧ L.key = lock.key ∧
      ∀ d, L.head = .page d → s.HandedOut d) (Stops K s) s := by
  refine wp_of_unlocked (stops_of_ne (by decide)) fun hw => wp_readLock hw fun L t hL =>
    ⟨readLocked_steps hL, ?_, ?_⟩
  · cases hL <;> assumption
  · intro d hd
    cases hL with
    | miss hkey hhead => cases hhead.symm.trans hd
    | gone _ hkey hhead => cases hhead.symm.trans hd
    | hit e hkey hhead hmapped =>
      cases hhead.symm.trans hd
      exact hs.map_handed _ _ hmapped.1

theorem read_sound (env : Env) (L : RLock) (dest : Buffer) {offset size : ℕ} (s : Sys)
    (hoff : offset < 2 ^ 64) :
    wp (lazyfreeRead env L dest offset size) (fun _ t => Steps K s t) (Stops K s) s := by
  refine wp_mono (wp_read env L dest size hoff s) ?_ ?_
  · rintro _ t ⟨n, rfl⟩
    exact steps_after env n s
  · rintro e rfl
    exact stops_of_ne (by decide)

theorem readUnlock_sound (env : Env) (L : RLock) (drop : Bool) {s : Sys}
    (hs : Accounted s.toCore) (hkey : K L.key) (hlock : ∀ d, L.head = .page d → s.HandedOut d) :
    wp (lazyfreeReadUnlock env L drop) (fun _ t => Steps K s t) (Stops K s) s := by
  have hassert : Stops K s .assertFailed := stops_of_ne (by decide)
  by_cases hw : s.cache.wlock = none
  · cases hhead : L.head with
    | null =>
      unfold lazyfreeReadUnlock
      simpa [hhead] using hassert
    | emptyPage =>
      unfold lazyfreeReadUnlock
      simp only [wp_bind, wp_get, wp_require, hhead, hw]
      exact ⟨fun _ => ⟨fun _ => steps_refl s, fun _ => hassert⟩, fun _ => hassert⟩
    | page d =>
      refine wp_readUnlock hhead hw (index_lt hs (hlock d hhead))
        (fun _ => stops_of_ne (by decide)) (fun _ _ => steps_after env 1 s)
        (fun _ _ _ => steps_after env 1 s) ?_
        (fun _ hlabel _ hover _ => ⟨d, hlock d hhead, hlabel ▸ hkey, hover⟩)
      intro halive hlabel _ hfree
      have hafter : Steps K s (after env 1 s) := steps_after env 1 s
      refine hafter.trans (steps_event ⟨?_, ?_, .inl ⟨?_, hafter.handedOut (hlock d hhead)⟩⟩ hkey
        fun h => h)
      all_goals rw [cache_after]
      · exact hlabel
      · exact hfree
      · exact hw
  · unfold lazyfreeReadUnlock
    simp [hw, hassert]

theorem writeLock_sound (env : Env) (L : RLock) {s : Sys} (hs : Accounted s.toCore)
    (hkey : K L.key) (hlock : ∀ d, L.head = .page d → s.HandedOut d) :
    wp (lazyfreeWriteLock env L) (fun r t => Steps K s t ∧ r.2.key = L.key ∧
      ∀ d, r.2.head = .page d → s.HandedOut d) (Stops K s) s := by
  refine wp_of_unlocked (stops_of_ne (by decide)) fun hw => ?_
  refine wp_mono (lazyfreeWriteLock_spec env L s hw fun p hp => index_lt hs (hlock p hp)) ?_ ?_
  · rintro ⟨d, L'⟩ t h
    exact writeLocked_steps h hw hkey hlock
  · rintro e ⟨rfl, -⟩
    exact stops_of_ne (by decide)

theorem writeUnlock_sound (env : Env) (drop : Bool) {s : Sys} (hs : Accounted s.toCore)
    (hlabel : ∀ w, s.cache.wlock = some w → K (s.cache.label w.slot)) :
    wp (lazyfreeWriteUnlock env drop) (fun _ t => Steps K s t) (Stops K s) s := by
  cases hw : s.cache.wlock with
  | none =>
    unfold lazyfreeWriteUnlock
    simpa [hw] using stops_of_ne (by decide)
  | some w =>
    cases drop with
    | false =>
      rw [wp_of_ok (lazyfreeWriteUnlock_commit env hw)]
      have hafter : Steps K s (after env 2 s) := steps_after env 2 s
      have hw2 : (after env 2 s).cache.wlock = some w := by rw [cache_after, hw]
      exact (hafter.trans (steps_storing (.inl ⟨w.key, hw2⟩))).trans
        (steps_event hw2 trivial fun h => h)
    | true =>
      have hrun := lazyfreeWriteUnlock_drop env hw
      split at hrun
      · rename_i hfree
        rw [wp_of_ok hrun]
        exact steps_event ⟨rfl, hfree, .inr ⟨w.key, hw⟩⟩ (hlabel w hw) fun h => h
      · rename_i hfree
        rw [wp_of_error hrun]
        exact fun _ => ⟨w.slot, hs.wlock_handed w hw, hlabel w hw, Nat.not_lt.mp hfree⟩

theorem storeLocked_sound (env : Env) (offset : ℕ) (v : UInt8) (s : Sys) :
    wp (storeLocked env offset v) (fun _ t => Steps K s t) (Stops K s) s := by
  unfold storeLocked
  rw [wp_bind, wp_get]
  split
  · exact steps_refl s
  · rename_i w hw
    exact steps_storing (.inl ⟨w.key, hw⟩)

theorem ftGet_sound (env : Env) (ft : FtCache) {key : Key} (value : Buffer) {s : Sys}
    (hs : Accounted s.toCore) (hkey : K key) :
    wp (ftCacheGet env ft key value) (fun _ t => Steps K s t) (Stops K s) s := by
  by_cases hw : s.cache.wlock = none
  · refine wp_mono (ftCacheGet_spec env ft key value s hw fun d hd =>
      index_lt hs (hs.map_handed key d hd)) ?_ ?_
    · intro v t h
      obtain ⟨es, hes, hget⟩ := ftGot_events h hw
      exact steps_of_acts hkey hes hget.searches
    · rintro e h rfl
      cases h with
      | torn d e hmapped halive hdead he => rcases he with he | he <;> cases he
  · unfold ftCacheGet lazyfreeReadLock
    simpa [hw] using stops_of_ne (by decide)

theorem ftDrop_sound (env : Env) {key : Key} {s : Sys} (hs : Accounted s.toCore) (hkey : K key) :
    wp (ftCacheDrop env key) (fun _ t => Steps K s t) (Stops K s) s := by
  by_cases hw : s.cache.wlock = none
  · refine wp_mono (ftCacheDrop_spec env key s hw fun d hd =>
      index_lt hs (hs.map_handed key d hd)) ?_ ?_
    · intro b t h
      obtain ⟨es, hes, qs, hqs, hcases⟩ :=
        ftDropped_events h hw fun d hd => hs.map_handed key d hd.1
      refine steps_of_acts hkey hes ?_
      rcases hcases with ⟨-, rfl⟩ | ⟨d, -, -, rfl⟩
      · exact searches_reclaimed hqs
      · exact (searches_reclaimed hqs).append ⟨fun h => h.elim, trivial⟩
    · rintro e h rfl
      cases h with
      | overflow d hmapped halive hover =>
        exact ⟨d, hs.map_handed key d hmapped.1, by rw [hmapped.2]; exact hkey, hover⟩
  · unfold ftCacheDrop lazyfreeReadLock
    simpa [hw] using stops_of_ne (by decide)

/-- The keys of the call are in `K`. -/
def Call.OnKeys (K : Key → Prop) : Call → Prop
  | .rlock _ key => K key
  | .ftGet key => K key
  | .ftDrop key => K key
  | _ => True

/-- The process holds keys in `K` only. -/
structure HoldsKeys (K : Key → Prop) (p : Process) : Prop where
  locks : ∀ l, K (p.locks l).key
  wlock : ∀ w, p.sys.cache.wlock = some w → K (p.sys.cache.label w.slot)

/-- The step lemma of a process. -/
theorem exec_sound (env : Env) (ft : FtCache) {call : Call} {p : Process} (hp : Sound p)
    (hcall : call.OnKeys K) (hkeys : HoldsKeys K p) :
    wp (exec env ft call) (fun _ q => Sound q ∧ Steps K p.sys q.sys ∧ ∀ l, K (q.locks l).key)
      (Stops K p.sys) p := by
  have hkeep : ∀ t, Steps K p.sys t → Sound { p with sys := t } ∧ Steps K p.sys t ∧
      ∀ l, K (p.locks l).key := fun t ht =>
    ⟨⟨ht.accounted hp.accounted, fun l d hd => ht.handedOut (hp.locks l d hd)⟩, ht, hkeys.locks⟩
  have hset : ∀ t l L, Steps K p.sys t → K L.key → (∀ d, L.head = .page d → p.sys.HandedOut d) →
      Sound { sys := t, locks := Function.update p.locks l L } ∧ Steps K p.sys t ∧
        ∀ l', K (Function.update p.locks l L l').key := by
    intro t l L ht hkey hL
    refine ⟨⟨ht.accounted hp.accounted, ?_⟩, ht, ?_⟩
    · intro l' d hd
      simp only [Function.update_apply] at hd
      split at hd
      · exact ht.handedOut (hL d hd)
      · exact ht.handedOut (hp.locks l' d hd)
    · intro l'
      rw [Function.update_apply]
      split
      · exact hkey
      · exact hkeys.locks l'
  cases call with
  | rlock l key => exact hset p.sys l (.fresh key) (steps_refl _) hcall fun d hd => by cases hd
  | readLock l =>
    simp only [exec, wp_bind, wp_get, wp_onSys]
    exact wp_mono (readLock_sound env (p.locks l) hp.accounted)
      (fun L t h => hset t l L h.1 (h.2.1 ▸ hkeys.locks l) h.2.2) (fun _ h => h)
  | read l offset size =>
    simp only [exec, wp_bind, wp_get, wp_onSys]
    exact wp_mono (read_sound env (p.locks l) _ p.sys offset.toNat_lt)
      (fun _ t h => hkeep t h) (fun _ h => h)
  | readUnlock l drop =>
    simp only [exec, wp_bind, wp_get, wp_onSys]
    exact wp_mono (readUnlock_sound env (p.locks l) drop hp.accounted (hkeys.locks l) (hp.locks l))
      (fun _ t h => hkeep t h) (fun _ h => h)
  | writeLock l =>
    simp only [exec, wp_bind, wp_get, wp_onSys]
    exact wp_mono (writeLock_sound env (p.locks l) hp.accounted (hkeys.locks l) (hp.locks l))
      (fun r t h => hset t l r.2 h.1 (h.2.1 ▸ hkeys.locks l) h.2.2) (fun _ h => h)
  | store offset v =>
    simp only [exec, wp_onSys]
    exact wp_mono (storeLocked_sound env offset v p.sys) (fun _ t h => hkeep t h) (fun _ h => h)
  | writeUnlock drop =>
    simp only [exec, wp_onSys]
    exact wp_mono (writeUnlock_sound env drop hp.accounted hkeys.wlock)
      (fun _ t h => hkeep t h) (fun _ h => h)
  | ftGet key =>
    simp only [exec, wp_bind, wp_onSys]
    exact wp_mono (ftGet_sound env ft _ hp.accounted hcall) (fun _ t h => hkeep t h) (fun _ h => h)
  | ftDrop key =>
    simp only [exec, wp_bind, wp_onSys]
    exact wp_mono (ftDrop_sound env hp.accounted hcall) (fun _ t h => hkeep t h) (fun _ h => h)

/-- Any key at all. -/
def anyKey : Key → Prop := fun _ => True

theorem exec_anyKey (env : Env) (ft : FtCache) (call : Call) {p : Process} (hp : Sound p) :
    wp (exec env ft call) (fun _ q => Sound q ∧ Steps anyKey p.sys q.sys) (fun _ => True) p := by
  refine wp_mono (exec_sound env ft hp ?_ ⟨fun _ => trivial, fun _ _ => trivial⟩)
    (fun _ _ h => ⟨h.1, h.2.1⟩) (fun _ _ => trivial)
  cases call <;> trivial

/-- The run lemma: every finished run is a replay of allowed events. -/
theorem run_sound {env : Env} {ft : FtCache} {calls : List Call} {p q : Process} (hp : Sound p)
    (hrun : run env ft calls p = .ok ((), q)) : Sound q ∧ Steps anyKey p.sys q.sys := by
  refine runAll_induct (R := fun p q => Sound p → Sound q ∧ Steps anyKey p.sys q.sys)
    (fun p hp => ⟨hp, steps_refl _⟩) ?_ ?_ hrun hp
  · intro s t u hst htu hs
    obtain ⟨ht, hsteps⟩ := hst hs
    obtain ⟨hu, hsteps'⟩ := htu ht
    exact ⟨hu, hsteps.trans hsteps'⟩
  · intro call _ s t h hs
    exact (wp_of_ok h).mp (exec_anyKey env ft call hs)

/-- A process that takes a read lock stays sound, and what it does next is a replay from there. -/
theorem since_readLock {env : Env} {ft : FtCache} {p q : Process} {lock L : RLock} {s : Sys}
    {l : ℕ} {later : List Call} (hp : Sound p)
    (hlock : lazyfreeReadLock env lock p.sys = .ok (L, s))
    (hlater : run env ft later ⟨s, Function.update p.locks l L⟩ = .ok ((), q)) :
    Sound q ∧ Steps anyKey p.sys s ∧ Steps anyKey s q.sys ∧
      ∀ d, L.head = .page d → p.sys.HandedOut d := by
  obtain ⟨hsteps, -, hhanded⟩ :=
    (wp_of_ok hlock).mp (readLock_sound (K := anyKey) env lock hp.accounted)
  have hs : Sound ⟨s, Function.update p.locks l L⟩ := by
    refine ⟨hsteps.accounted hp.accounted, fun l' d hd => ?_⟩
    simp only [Function.update_apply] at hd
    split at hd
    · exact hsteps.handedOut (hhanded d hd)
    · exact hsteps.handedOut (hp.locks l' d hd)
  obtain ⟨hq, hsteps'⟩ := run_sound hs hlater
  exact ⟨hq, hsteps, hsteps', hhanded⟩

/-! ### The start -/

/-- Memory and files that were never written. -/
def zeroBoot : Boot := ⟨fun _ _ => 0, fun _ _ => 0, fun _ _ => 0⟩

/-- A kernel that takes nothing. -/
def calm : Env := ⟨fun _ => [], fun _ => 0⟩

/-- A kernel that wants one page, before one access only. -/
def takesAt (d : EntryDescriptor) (τ : ℕ) : Env :=
  ⟨fun τ' => if τ' = τ then [d] else [], fun _ => 0⟩

def blank : Buffer := fun _ => 0

/-- A cache of one-byte entries, each the low byte of its key. -/
def byteCache : FtCache := ⟨fun key _ => key.toUInt8, 1, by decide⟩

/-- The cache of a creation that succeeds. -/
def created (r : Except Fault Sys) (h : r.isOk = true) : Sys :=
  match r, h with
  | .ok s, _ => s

/-- 32 lazyfree chunks of one page each. -/
def smallCache : Sys := created (lazyfreeCacheNewEx zeroBoot 131072 32 0 0) (by decide +kernel)

theorem smallCache_new : lazyfreeCacheNewEx zeroBoot 131072 32 0 0 = .ok smallCache := rfl

/-- A cache as `lazyfree_cache_new_ex` returns it. -/
structure Created (l a : ℕ) (s : Sys) : Prop where
  pages : s.cache.pagesPerChunk ≤ 2 ^ 31
  impl : ∀ c, (s.cache.mmapImpl c, s.cache.madvImpl c) = chunkImpl l a c
  current : s.cache.currentChunkIdx = 0
  free : ∀ c, s.cache.free c = []
  len : ∀ c, s.cache.len c = 0
  map : ∀ k, s.cache.hmapGet k = none
  total : s.cache.totalFreePages = numberOfChunks * s.cache.pagesPerChunk
  wlock : s.cache.wlock = none
  trace : s.trace = []
  stored : ∀ d, (s.mem d).lazyfree = false

theorem created_of_new {boot : Boot} {capacity l a d : ℕ} {s : Sys}
    (h : lazyfreeCacheNewEx boot capacity l a d = .ok s) :
    Created l a s ∧ s.cache.pagesPerChunk = capacity / numberOfChunks / pageSize := by
  unfold lazyfreeCacheNewEx at h
  simp only at h
  split at h
  · cases h
  · split at h
    · cases h
    · rename_i hcount hsize
      cases h
      refine ⟨⟨?_, fun _ => rfl, rfl, fun _ => rfl, fun _ => rfl, ?_, rfl, rfl, rfl, ?_⟩, rfl⟩
      · exact Nat.not_lt.mp fun hlt => hsize (.inr hlt)
      · intro k
        unfold Cache.hmapGet
        split <;> rfl
      · intro d
        dsimp only
        split <;> rfl

theorem Created.accounted {l a : ℕ} {s : Sys} (h : Created l a s) : Accounted s.toCore := by
  have hnone : ∀ d, ¬ s.HandedOut d := by
    rintro d ⟨key, hkey⟩
    rw [h.trace] at hkey
    cases hkey
  exact {
    pages := h.pages
    free_le := fun c => by rw [h.free]; exact Nat.zero_le _
    len_le := fun c => by rw [h.len]; exact Nat.zero_le _
    total := by
      have hspare : ∀ c, spare s.cache c = s.cache.pagesPerChunk := fun c => by
        unfold spare
        rw [h.len, h.free]
        rfl
      simp [h.total, hspare]
    free_handed := fun c i hi => by rw [h.free] at hi; cases hi
    len_handed := fun c i hi => by rw [h.len] at hi; cases hi
    map_handed := fun k d hd => by rw [h.map] at hd; cases hd
    wlock_handed := fun w hw => by rw [h.wlock] at hw; cases hw
    handed_lt := fun d hd => absurd hd (hnone d)
    handed_down := fun c i j hj => absurd hj (hnone _) }

/-- Read locks that hit no page may hold any keys. -/
theorem Created.sound_locks {l a : ℕ} {s : Sys} (h : Created l a s) {locks : ℕ → RLock}
    (hlocks : ∀ i, (locks i).head = .null) : Sound ⟨s, locks⟩ :=
  ⟨h.accounted, fun i d hd => by cases (hlocks i).symm.trans hd⟩

theorem Created.sound {l a : ℕ} {s : Sys} (h : Created l a s) : Sound (start s) :=
  h.sound_locks fun _ => rfl

theorem Created.trace_eq {l a : ℕ} {s t : Sys} {es : List Event} (h : Created l a s)
    (htrace : t.trace = s.trace ++ es) : t.trace = es := by
  rw [htrace, h.trace, List.nil_append]

/-- In a run from the start the trace is the list of events that explains it. -/
theorem run_replay {env : Env} {ft : FtCache} {calls : List Call} {l a : ℕ} {s : Sys}
    {locks : ℕ → RLock} {p : Process} (hs : Created l a s)
    (hlocks : ∀ i, (locks i).head = .null) (hrun : run env ft calls ⟨s, locks⟩ = .ok ((), p)) :
    Performs s p.sys p.sys.trace ∧ Searches p.sys.trace := by
  obtain ⟨-, es, hes, -, hsearch⟩ := run_sound (hs.sound_locks hlocks) hrun
  rw [hs.trace_eq hes.trace]
  exact ⟨hes, hsearch⟩

end LazyfreeCache.Client
