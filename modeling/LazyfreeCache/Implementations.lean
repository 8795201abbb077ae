import LazyfreeCache.HitLaw
import LazyfreeCache.ServedBytes

/-!
The fallthrough cache over any `struct lazyfree_impl`. Its functions call the
implementation through pointers; over the lazyfree functions they are those of
`FallthroughOps`. Over the stub, which stores nothing, every get refills. A run
that returns serves the same bytes over both, and the lazyfree cache makes some
of the refills that the stub makes, in the same order.
-/
namespace LazyfreeCache.Implementations

open ReferenceSet ProgramLogic EventReplay State LazyfreeOps FallthroughOps Refinement Allocation
open Accounting Client Fallthrough FallthroughEvents FtRuns HitLaw ServedBytes

/-- The functions of `struct lazyfree_impl`, with the accesses of a caller through `lock.head` and
through the page of a write lock. -/
structure Impl (σ Lock Page : Type) where
  rlock : Key → Lock
  headNonnull : Lock → Bool
  tail : Lock → UInt8
  load : Lock → ℕ → Prog σ Fault UInt8
  store : Page → ℕ → UInt8 → Prog σ Fault Unit
  readLock : Lock → Prog σ Fault Lock
  readUnlock : Lock → Bool → Prog σ Fault Bool
  writeLock : Lock → Prog σ Fault (Page × Lock)
  writeUnlock : Bool → Prog σ Fault Unit
  /-- Notes a call of `refill_cb`. -/
  refills : Key → Prog σ Fault Unit

section Fallthrough
variable {σ Lock Page : Type} (impl : Impl σ Lock Page) (ft : FtCache)

/-- `LAZYFREE_LOCK_CHECK` -/
def lockCheck (lock : Lock) : Prog σ Fault Bool := do
  let tail ← impl.load lock (pageSize - 1)
  return decide (0 < tail)

/-- The copy loop of `lazyfree_read`. -/
def readLoop (lock : Lock) (offset size : ℕ) : ℕ → ℕ → Buffer → Prog σ Fault Buffer
  | 0, _, dest => return dest
  | rounds + 1, i, dest =>
    if i < size ∧ u64 (offset + i) < pageSize then do
      let b ← impl.load lock (u64 (offset + i))
      readLoop lock offset size rounds (i + 1) (Function.update dest i b)
    else return dest

/-- `lazyfree_read` -/
def read (lock : Lock) (dest : Buffer) (offset size : ℕ) : Prog σ Fault (Bool × Buffer) := do
  if (← lockCheck impl lock) = false then
    return (false, dest)
  else
    let dest ← readLoop impl lock offset size pageSize 0 dest
    let dest := if u64 (offset + size) = pageSize
      then Function.update dest (u64 (size + (2 ^ 64 - 1))) (impl.tail lock) else dest
    return (← lockCheck impl lock, dest)

def memcpyToPage (page : Page) (offset : ℕ) (value : Buffer) : ℕ → ℕ → Prog σ Fault Unit
  | 0, _ => pure ()
  | n + 1, i => do
    impl.store page (offset + i) (value i)
    memcpyToPage page offset value n (i + 1)

def refill (key : Key) (value : Buffer) : Prog σ Fault Buffer := do
  impl.refills key
  return fun i => if i < ft.entrySize then ft.refillCb key i else value i

def ftCacheGet (key : Key) (value : Buffer) : Prog σ Fault Buffer := do
  let lock ← impl.readLock (impl.rlock key)
  require (impl.headNonnull lock = true) .assertFailed
  if (← lockCheck impl lock) = true then
    let (_, value) ← read impl lock value (pageSize - ft.entrySize) ft.entrySize
    require ((← lockCheck impl lock) = true) .fallthroughLockCheckFailed
    let _ ← impl.readUnlock lock false
    return value
  else
    let value ← refill impl ft key value
    let (page, _) ← impl.writeLock lock
    memcpyToPage impl page (pageSize - ft.entrySize) value ft.entrySize 0
    impl.writeUnlock false
    return value

def ftCacheDrop (key : Key) : Prog σ Fault Bool := do
  let lock ← impl.readLock (impl.rlock key)
  if (← lockCheck impl lock) = true then
    let _ ← impl.readUnlock lock true
    return true
  else
    return false

/-- What a call gives back to its caller. -/
inductive Answer
  | got (value : Buffer)
  | dropped (found : Bool)

def answer : FtCall → Prog σ Fault Answer
  | .get key value => do return .got (← ftCacheGet impl ft key value)
  | .drop key => do return .dropped (← ftCacheDrop impl key)

def answers : List FtCall → Prog σ Fault (List Answer)
  | [] => return []
  | call :: calls => do
    let first ← answer impl ft call
    let rest ← answers calls
    return first :: rest

end Fallthrough

/-! ### The lazyfree functions -/

/-- `lock.head[offset]` -/
def headByte (env : Env) (lock : RLock) (offset : ℕ) : M UInt8 :=
  match lock.head with
  | .null => throw .nullHead
  | .emptyPage => pure 0
  | .page d => readByte env d offset

/-- `lazyfree_impl` -/
def lazyfreeImpl (env : Env) : Impl Sys RLock EntryDescriptor where
  rlock := .fresh
  headNonnull lock := lock.head != .null
  tail := RLock.tail
  load := headByte env
  store := storeByte env
  readLock := lazyfreeReadLock env
  readUnlock := lazyfreeReadUnlock env
  writeLock := lazyfreeWriteLock env
  writeUnlock := lazyfreeWriteUnlock env
  refills key := emit (.refill key)

variable {env : Env} {ft : FtCache}

theorem lockCheck_lazyfreeImpl (lock : RLock) :
    lockCheck (lazyfreeImpl env) lock = LazyfreeOps.lockCheck env lock := by
  unfold lockCheck LazyfreeOps.lockCheck
  dsimp only [lazyfreeImpl]
  unfold headByte
  cases lock.head <;> rfl

theorem readLoop_lazyfreeImpl (lock : RLock) (offset size rounds i : ℕ) (dest : Buffer) :
    readLoop (lazyfreeImpl env) lock offset size rounds i dest =
      lazyfreeReadLoop env lock offset size rounds i dest := by
  induction rounds generalizing i dest with
  | zero => rfl
  | succ rounds ih =>
    unfold readLoop lazyfreeReadLoop
    simp only [ih]
    dsimp only [lazyfreeImpl]
    unfold headByte
    cases lock.head <;> rfl

theorem read_lazyfreeImpl (lock : RLock) (dest : Buffer) (offset size : ℕ) :
    read (lazyfreeImpl env) lock dest offset size = lazyfreeRead env lock dest offset size := by
  unfold read lazyfreeRead
  simp only [lockCheck_lazyfreeImpl, readLoop_lazyfreeImpl]
  rfl

theorem memcpyToPage_lazyfreeImpl (page : EntryDescriptor) (offset : ℕ) (value : Buffer)
    (n i : ℕ) : memcpyToPage (lazyfreeImpl env) page offset value n i =
      FallthroughOps.memcpyToPage env page offset value n i := by
  induction n generalizing i with
  | zero => rfl
  | succ n ih =>
    unfold memcpyToPage FallthroughOps.memcpyToPage
    simp only [ih]
    rfl

theorem require_headNonnull (lock : RLock) :
    (require ((lazyfreeImpl env).headNonnull lock = true) .assertFailed : M Unit) =
      require (lock.head ≠ .null) .assertFailed := by
  unfold require
  exact if_congr bne_iff_ne rfl rfl

theorem ftCacheGet_lazyfreeImpl (key : Key) (value : Buffer) :
    ftCacheGet (lazyfreeImpl env) ft key value = FallthroughOps.ftCacheGet env ft key value := by
  unfold ftCacheGet FallthroughOps.ftCacheGet
  simp only [lockCheck_lazyfreeImpl, read_lazyfreeImpl, memcpyToPage_lazyfreeImpl,
    require_headNonnull]
  rfl

theorem ftCacheDrop_lazyfreeImpl (key : Key) :
    ftCacheDrop (lazyfreeImpl env) key = FallthroughOps.ftCacheDrop env key := by
  unfold ftCacheDrop FallthroughOps.ftCacheDrop
  simp only [lockCheck_lazyfreeImpl]
  rfl

/-! ### The stub -/

/-- `EMPTY_PAGE` of `stub_cache.c`, and the calls of `refill_cb` so far. -/
structure StubCache where
  emptyPage : ℕ → UInt8
  refills : List Key

/-- A lock of the stub. `head` is `EMPTY_PAGE` or still as the caller set it up. -/
structure StubLock where
  key : Key
  locked : Bool
  tail : UInt8

def StubCache.setByte (cache : StubCache) (offset : ℕ) (v : UInt8) : StubCache :=
  { cache with emptyPage := Function.update cache.emptyPage offset v }

def stubCacheReadLock (lock : StubLock) : Prog StubCache Fault StubLock := do
  modify (·.setByte (pageSize - 1) 0)
  return { lock with locked := true, tail := 0 }

def stubCacheReadUnlock (_ : StubLock) (_ : Bool) : Prog StubCache Fault Bool := return true

def stubCacheWriteLock (lock : StubLock) : Prog StubCache Fault (Unit × StubLock) :=
  return ((), lock)

def stubCacheWriteUnlock (_ : Bool) : Prog StubCache Fault Unit := return ()

/-- `lazyfree_stub_impl` -/
def lazyfreeStubImpl : Impl StubCache StubLock Unit where
  rlock key := ⟨key, false, 0⟩
  headNonnull := StubLock.locked
  tail := StubLock.tail
  load lock offset := do
    require (lock.locked = true) .nullHead
    return (← get).emptyPage offset
  store _ offset v := modify (·.setByte offset v)
  readLock := stubCacheReadLock
  readUnlock := stubCacheReadUnlock
  writeLock := stubCacheWriteLock
  writeUnlock := stubCacheWriteUnlock
  refills key := modify fun cache => { cache with refills := cache.refills ++ [key] }

variable {st : StubCache}

/-- The lock that `stub_cache_read_lock` gives. -/
def stubLock (key : Key) : StubLock := ⟨key, true, 0⟩

theorem readLock_stub (key : Key) :
    lazyfreeStubImpl.readLock (lazyfreeStubImpl.rlock key) st =
      .ok (stubLock key, st.setByte (pageSize - 1) 0) := rfl

theorem lockCheck_stub (key : Key) :
    lockCheck lazyfreeStubImpl (stubLock key) (st.setByte (pageSize - 1) 0) =
      .ok (false, st.setByte (pageSize - 1) 0) := by
  have htail : (st.setByte (pageSize - 1) 0).emptyPage (pageSize - 1) = 0 := by
    change Function.update st.emptyPage (pageSize - 1) 0 (pageSize - 1) = 0
    rw [Function.update_self]
  change Except.ok (decide (0 < (st.setByte (pageSize - 1) 0).emptyPage (pageSize - 1)), _) = _
  rw [htail]
  rfl

theorem refill_stub (ft : FtCache) (key : Key) (value : Buffer) :
    refill lazyfreeStubImpl ft key value st =
      .ok (entry ft key value, { st with refills := st.refills ++ [key] }) := rfl

theorem writeLock_stub (key : Key) :
    lazyfreeStubImpl.writeLock (stubLock key) st = .ok (((), stubLock key), st) := rfl

theorem memcpyToPage_stub (offset : ℕ) (value : Buffer) (n i : ℕ) :
    wp (memcpyToPage lazyfreeStubImpl () offset value n i) (fun _ t => t.refills = st.refills)
      (fun _ => False) st := by
  induction n generalizing i st with
  | zero => rfl
  | succ n ih =>
    unfold memcpyToPage
    rw [wp_bind]
    exact ih (i + 1)

/-- A get over the stub refills. -/
theorem ftCacheGet_stub (ft : FtCache) (key : Key) (value : Buffer) :
    wp (ftCacheGet lazyfreeStubImpl ft key value)
      (fun v t => v = entry ft key value ∧ t.refills = st.refills ++ [key]) (fun _ => False)
      st := by
  unfold ftCacheGet
  rw [wp_bind, wp_of_ok (readLock_stub key), wp_bind, wp_require]
  refine ⟨fun _ => ?_, fun h => absurd rfl h⟩
  rw [wp_bind, wp_of_ok (lockCheck_stub key), if_neg Bool.false_ne_true, wp_bind,
    wp_of_ok (refill_stub ft key value), wp_bind, wp_of_ok (writeLock_stub key)]
  dsimp only
  rw [wp_bind]
  exact wp_mono (memcpyToPage_stub _ _ _ _) (fun _ _ h => ⟨rfl, h⟩) fun _ h => h

/-- Nothing can be dropped from the stub. -/
theorem ftCacheDrop_stub (key : Key) :
    wp (ftCacheDrop lazyfreeStubImpl key) (fun b t => b = false ∧ t.refills = st.refills)
      (fun _ => False) st := by
  unfold ftCacheDrop
  rw [wp_bind, wp_of_ok (readLock_stub key), wp_bind, wp_of_ok (lockCheck_stub key),
    if_neg Bool.false_ne_true]
  exact ⟨rfl, rfl⟩

/-! ### Both serve the same bytes -/

/-- The key that the call may refill. -/
def refillable : FtCall → Option Key
  | .get key _ => some key
  | .drop _ => none

/-- The call gave back what `refill_cb` gives. -/
def Serves (ft : FtCache) : FtCall → Answer → Prop
  | .get key _, .got v => ∀ i < ft.entrySize, v i = ft.refillCb key i
  | .drop _, .dropped _ => True
  | _, _ => False

/-- Both callers got the same bytes. Over the stub a drop finds nothing. -/
def SameBytes (ft : FtCache) : Answer → Answer → Prop
  | .got v, .got v' => ∀ i < ft.entrySize, v i = v' i
  | .dropped _, .dropped found => found = false
  | _, _ => False

variable {s t : Sys} {a : Answer} {call : FtCall}

theorem refilledKey_reclaimed {es : List Event} (h : ∀ e ∈ es, ∃ p, e = Event.reclaimed p) :
    es.filterMap refilledKey = [] := by
  rw [List.filterMap_eq_nil_iff]
  intro e he
  obtain ⟨p, rfl⟩ := h e he
  rfl

/-- A get refills at most once, and for its key. -/
theorem refilledKey_get {key : Key} {es : List Event} (h : GetEvents env key s es) :
    (es.filterMap refilledKey).Sublist [key] := by
  have hvisible : (visible es).filterMap refilledKey = es.filterMap refilledKey :=
    congrArg Outcome.refilled (seen_visible es none)
  rw [← hvisible]
  cases h with
  | hit d es hmapped halive hes =>
    rw [visible_hidden (hidden_reclaimed hes)]
    exact List.nil_sublist _
  | miss n u j d bit qs qs' qs'' hmissing hafter hu hfinds hperf hqs hqs' hqs'' =>
    rw [visible_miss env u j d bit hqs hqs' hqs'']
    unfold openEvents
    split <;> exact List.Sublist.refl _

/-- The step lemma over the lazyfree cache. -/
theorem answer_lazyfreeImpl (hs : Idle s) (hfaith : Faithful ft s) (hkey : call.key ≠ 0)
    (hrun : answer (lazyfreeImpl env) ft call s = .ok (a, t)) :
    Idle t ∧ Faithful ft t ∧ Serves ft call a ∧
      ∃ es, t.trace = s.trace ++ es ∧
        (es.filterMap refilledKey).Sublist (refillable call).toList := by
  cases call with
  | get key value =>
    dsimp only [answer] at hrun
    rw [ftCacheGet_lazyfreeImpl] at hrun
    obtain ⟨v, u, hget, hu⟩ := bind_ok.mp hrun
    cases hu
    have hgot := ftGot_of_ok hs hget
    obtain ⟨es, hes, hevents⟩ := ftGot_events hgot hs.wlock
    exact ⟨idle_ftGot hs hgot, faithful_ftGot hs hfaith hgot, hfaith.serves hkey hgot,
      es, hes.performs.trace, refilledKey_get hevents⟩
  | drop key =>
    dsimp only [answer] at hrun
    rw [ftCacheDrop_lazyfreeImpl] at hrun
    obtain ⟨b, u, hdrop, hu⟩ := bind_ok.mp hrun
    cases hu
    have hdropped := ftDropped_of_ok hs hdrop
    obtain ⟨es, hes, qs, hqs, hkind⟩ := ftDropped_events hdropped hs.wlock hs.handedOut
    refine ⟨idle_ftDropped hs hdropped, faithful_ftDropped hs hfaith hdropped, trivial, es,
      hes.performs.trace, ?_⟩
    rcases hkind with ⟨-, rfl⟩ | ⟨d, -, -, rfl⟩
    · rw [refilledKey_reclaimed hqs]
      exact List.nil_sublist _
    · rw [List.filterMap_append, refilledKey_reclaimed hqs]
      exact List.nil_sublist _

/-- The step lemma over the stub. -/
theorem answer_stub (ft : FtCache) (call : FtCall) (st : StubCache) :
    wp (answer lazyfreeStubImpl ft call) (fun b t => (∀ a, Serves ft call a → SameBytes ft a b) ∧
      t.refills = st.refills ++ (refillable call).toList) (fun _ => False) st := by
  cases call with
  | get key value =>
    dsimp only [answer]
    rw [wp_bind]
    refine wp_mono (ftCacheGet_stub ft key value) ?_ fun _ h => h
    rintro v t ⟨rfl, hrefills⟩
    refine ⟨fun a ha => ?_, hrefills⟩
    cases a with
    | got v' => exact fun i hi => (ha i hi).trans (if_pos hi).symm
    | dropped found => exact ha.elim
  | drop key =>
    dsimp only [answer]
    rw [wp_bind]
    refine wp_mono (ftCacheDrop_stub key) ?_ fun _ h => h
    rintro found t ⟨rfl, hrefills⟩
    refine ⟨fun a ha => ?_, by rw [hrefills]; exact (List.append_nil _).symm⟩
    cases a with
    | got v => exact ha.elim
    | dropped found => rfl

/-- The run lemma. -/
theorem answers_agree {calls : List FtCall} (hkeys : ∀ call ∈ calls, call.key ≠ 0) (hs : Idle s)
    (hfaith : Faithful ft s) {as : List Answer}
    (hrun : answers (lazyfreeImpl env) ft calls s = .ok (as, t)) (st : StubCache) :
    ∃ bs st', answers lazyfreeStubImpl ft calls st = .ok (bs, st') ∧
      List.Forall₂ (SameBytes ft) as bs ∧
      st'.refills = st.refills ++ calls.filterMap refillable ∧
      ∃ es, t.trace = s.trace ++ es ∧
        (es.filterMap refilledKey).Sublist (calls.filterMap refillable) := by
  induction calls generalizing s as st with
  | nil =>
    cases hrun
    exact ⟨[], st, rfl, .nil, (List.append_nil _).symm, [], (List.append_nil _).symm,
      List.Sublist.refl _⟩
  | cons call calls ih =>
    obtain ⟨a, u, hfirst, hrest⟩ := bind_ok.mp hrun
    obtain ⟨as', v, hrest', hv⟩ := bind_ok.mp hrest
    cases hv
    obtain ⟨hu, hfaith', hserves, es, hes, hsub⟩ :=
      answer_lazyfreeImpl hs hfaith (hkeys call List.mem_cons_self) hfirst
    obtain ⟨b, st₁, hstub, hsame, hrefills⟩ := returns_of_wp (answer_stub ft call st)
    obtain ⟨bs, st₂, hstubs, hsame', hrefills', fs, hfs, hsub'⟩ :=
      ih (fun c hc => hkeys c (List.mem_cons_of_mem call hc)) hu hfaith' hrest' st₁
    have hcalls : (call :: calls).filterMap refillable =
        (refillable call).toList ++ calls.filterMap refillable := by
      cases call <;> rfl
    refine ⟨b :: bs, st₂, bind_ok.mpr ⟨b, st₁, hstub, bind_ok.mpr ⟨bs, st₂, hstubs, rfl⟩⟩,
      .cons (hsame a hserves) hsame', ?_, es ++ fs, ?_, ?_⟩
    · rw [hrefills', hrefills, hcalls, List.append_assoc]
    · rw [hfs, hes, List.append_assoc]
    · rw [List.filterMap_append, hcalls]
      exact hsub.append hsub'

/-- A run of calls over a lazyfree cache that returns could have been made over the stub: that run
returns too, every get serves the same bytes, and the refills of the lazyfree cache are some of its
refills, in the same order. -/
theorem answers_as_stub {boot : Boot} {capacity l a d : ℕ} {s₀ : Sys}
    (hnew : lazyfreeCacheNewEx boot capacity l a d = .ok s₀) (env : Env) (ft : FtCache)
    {calls : List FtCall} (hkeys : ∀ call ∈ calls, call.key ≠ 0) {as : List Answer} {s : Sys}
    (hrun : answers (lazyfreeImpl env) ft calls s₀ = .ok (as, s)) (emptyPage : ℕ → UInt8) :
    ∃ bs st, answers lazyfreeStubImpl ft calls ⟨emptyPage, []⟩ = .ok (bs, st) ∧
      List.Forall₂ (SameBytes ft) as bs ∧ st.refills = calls.filterMap refillable ∧
      (s.trace.filterMap refilledKey).Sublist st.refills := by
  have hcreated := (created_of_new hnew).1
  obtain ⟨bs, st, hstub, hsame, hrefills, es, hes, hsub⟩ :=
    answers_agree hkeys (idle_of_created hcreated) (faithful_of_created hcreated) hrun
      ⟨emptyPage, []⟩
  rw [hcreated.trace_eq hes]
  exact ⟨bs, st, hstub, hsame, hrefills, hrefills ▸ hsub⟩

/-- The lazyfree cache refills key 5 once and the stub twice. -/
theorem answers_as_stub_twice : ∃ as s bs st,
    answers (lazyfreeImpl calm) byteCache [.get 5 blank, .get 5 blank] smallCache = .ok (as, s) ∧
    answers lazyfreeStubImpl byteCache [.get 5 blank, .get 5 blank] ⟨blank, []⟩ = .ok (bs, st) ∧
    List.Forall₂ (SameBytes byteCache) as bs ∧ s.trace.filterMap refilledKey = [5] ∧
    st.refills = [5, 5] := by
  obtain ⟨as, s, hrun, honce⟩ : ∃ as s, answers (lazyfreeImpl calm) byteCache
      [.get 5 blank, .get 5 blank] smallCache = .ok (as, s) ∧
      s.trace.filterMap refilledKey = [5] :=
    ⟨_, _, run_eq _ _ (by decide +kernel), by decide +kernel⟩
  obtain ⟨bs, st, hstub, hsame, hrefills, -⟩ :=
    answers_as_stub smallCache_new calm byteCache (by decide) hrun blank
  exact ⟨as, s, bs, st, hrun, hstub, hsame, honce, hrefills⟩

end LazyfreeCache.Implementations
