import LazyfreeCache.Reads

/-!
What allocation does, as lists of events. The bookkeeping functions are equal
to one event each; `alloc_new_page` is at most one eviction followed by advised
chunks, and fails only when it finds each of the 32 chunks full.
-/
namespace LazyfreeCache.Allocation

open Bitset ProgramLogic EventReplay State LazyfreeOps FallthroughOps Refinement Reads

/-- The machine after one event that takes no access of its own. -/
def perform (s : Sys) (e : Event) : Sys := { s with toCore := s.toCore.apply e }

theorem performs_perform {s : Sys} {e : Event} (h : s.toCore.Enabled e) :
    Performs s (perform s e) [e] := performs_event rfl h

/-- The chunk that `drop_next_chunk` would choose now. -/
def pick (env : Env) (s : Sys) : ChunkIdx := Fin.ofNat numberOfChunks (env.random s.draws).toNat

/-! ### Bookkeeping -/

theorem drop_eq (cache : Cache) (d : EntryDescriptor) (hw : cache.wlock = none) :
    (((cache.pushFree d).addFree 1).hmapRemove (cache.label d)).setLabel d 0 = cache.drop d := by
  unfold Cache.drop Cache.setLabel Cache.hmapRemove Cache.addFree Cache.pushFree Cache.setChunk
  by_cases hkey : cache.label d = 0 <;> simp [hkey, hw]

theorem cacheDrop_eq (d : EntryDescriptor) (s : Sys) (hw : s.cache.wlock = none) :
    cacheDrop d s =
      if (s.cache.free d.chunk).length < s.cache.len d.chunk then
        .ok ((), perform s (.dropped d (s.cache.label d)))
      else .error .freePagesOverflow := by
  have hlabel : ((s.cache.pushFree d).addFree 1).label d = s.cache.label d := by
    simp [Cache.label, Cache.pushFree, Cache.addFree, Cache.setChunk]
  have hcount : ((s.cache.pushFree d).chunks d.chunk).freePagesCount ≤
      ((s.cache.pushFree d).chunks d.chunk).len ↔
        (s.cache.free d.chunk).length < s.cache.len d.chunk := by
    simp only [Cache.pushFree, Cache.setChunk, Chunk.freePagesCount, Cache.free, Cache.len,
      Function.update_self, List.length_cons]
    exact Nat.succ_le_iff
  have hrun : cacheDrop d s = (require (((s.cache.pushFree d).chunks d.chunk).freePagesCount ≤
      ((s.cache.pushFree d).chunks d.chunk).len) .freePagesOverflow >>= fun _ => do
        modify fun s : Sys => { s with
          cache := (((s.cache).addFree 1).hmapRemove (((s.cache).addFree 1).label d)).setLabel d 0
          trace := s.trace ++ [Event.dropped d (((s.cache).addFree 1).label d)]} )
        { s with cache := s.cache.pushFree d } := rfl
  rw [hrun]
  unfold require
  by_cases hlt : (s.cache.free d.chunk).length < s.cache.len d.chunk
  · rw [if_pos hlt, if_pos (hcount.mpr hlt)]
    change Except.ok ((), { s with
      cache := (((s.cache.pushFree d).addFree 1).hmapRemove
        (((s.cache.pushFree d).addFree 1).label d)).setLabel d 0
      trace := s.trace ++ [Event.dropped d (((s.cache.pushFree d).addFree 1).label d)] }) = _
    rw [hlabel, drop_eq s.cache d hw]
    rfl
  · rw [if_neg hlt, if_neg (fun h => hlt (hcount.mp h))]
    rfl

/-- `drop_next_chunk` as the bookkeeping calls it makes. -/
theorem evict_eq (cache : Cache) (c : ChunkIdx) :
    (let chunk := cache.chunks c
     let cleared := clearKeys (hmapRemoveKeys (cache.setCurrent c) chunk.keys chunk.len) c
     let counted := cleared.addFree
      (u32 ((cleared.chunks c).len + (2 ^ 32 - (cleared.chunks c).freePagesCount)))
     counted.setChunk c { counted.chunks c with len := 0, freePages := [] }) =
      cache.evict c := by
  simp [Cache.hmapRemoveKeys_eq, Cache.evict, Cache.setCurrent, clearKeys, Cache.setChunk,
    Cache.addFree, Chunk.freePagesCount]

theorem dropNextChunk_eq (env : Env) (s : Sys) :
    dropNextChunk env s =
      .ok ((), { perform s (.evicted (pick env s)) with draws := s.draws + 1 }) := by
  have hrun : dropNextChunk env s = .ok ((), {
      cache :=
        let c := pick env s
        let chunk := s.cache.chunks c
        let cleared := clearKeys (hmapRemoveKeys (s.cache.setCurrent c) chunk.keys chunk.len) c
        let counted := cleared.addFree
          (u32 ((cleared.chunks c).len + (2 ^ 32 - (cleared.chunks c).freePagesCount)))
        counted.setChunk c { counted.chunks c with len := 0, freePages := [] }
      mem := fun d =>
        let c := pick env s
        let chunk := s.cache.chunks c
        let cleared := clearKeys (hmapRemoveKeys (s.cache.setCurrent c) chunk.keys chunk.len) c
        if d.chunk = c then dontneed (cleared.chunks c).mmapImpl (s.mem d) else s.mem d
      trace := s.trace ++ [.evicted (pick env s)]
      clock := s.clock
      draws := s.draws + 1 }) := rfl
  rw [hrun, evict_eq]
  simp [perform, Core.apply, Core.memStep, Cache.step, clearKeys, Cache.hmapRemoveKeys_eq,
    Cache.mmapImpl, Cache.setChunk, Cache.setCurrent]

/-! ### Allocation -/

/-- `alloc_current_chunk` takes slot `d`. -/
def takeSlot (cache : Cache) (d : EntryDescriptor) : Cache :=
  let chunk := cache.chunks d.chunk
  (cache.setChunk d.chunk { chunk with
    freePages := chunk.freePages.tail
    len := if chunk.freePages = [] then u32 (chunk.len + 1) else chunk.len }).takeFree

theorem allocCurrentChunk_ready {s : Sys} {d : EntryDescriptor} (h : s.cache.Ready d) :
    allocCurrentChunk s = .ok (some d, { s with cache := takeSlot s.cache d }) := by
  obtain ⟨idx, c⟩ := d
  obtain ⟨rfl, ⟨rest, hfree⟩ | ⟨hfree, hlen, hidx⟩⟩ := h
  · have hfree' : (s.cache.chunks s.cache.currentChunkIdx).freePages = idx :: rest := hfree
    unfold allocCurrentChunk takeSlot
    simp only [bind, StateT.bind, Except.bind, get, getThe, MonadStateOf.get, StateT.get, pure,
      Except.pure, hfree']
    rfl
  · have hfree' : (s.cache.chunks s.cache.currentChunkIdx).freePages = [] := hfree
    have hlen' : (s.cache.chunks s.cache.currentChunkIdx).len < s.cache.pagesPerChunk := hlen
    have hidx' : idx = (s.cache.chunks s.cache.currentChunkIdx).len := hidx
    subst hidx'
    unfold allocCurrentChunk takeSlot
    simp only [bind, StateT.bind, Except.bind, get, getThe, MonadStateOf.get, StateT.get, pure,
      Except.pure, hfree', if_pos hlen']
    rfl

theorem allocCurrentChunk_exhausted {s : Sys} (h : s.cache.Exhausted s.cache.currentChunkIdx) :
    allocCurrentChunk s = .ok (none, s) := by
  have hfree : (s.cache.chunks s.cache.currentChunkIdx).freePages = [] := h.1
  have hlen : ¬ (s.cache.chunks s.cache.currentChunkIdx).len < s.cache.pagesPerChunk :=
    Nat.not_lt.mpr h.2
  unfold allocCurrentChunk
  simp only [bind, StateT.bind, Except.bind, get, getThe, MonadStateOf.get, StateT.get, pure,
    Except.pure, hfree, if_neg hlen]
  rfl

theorem exhausted_or_ready (cache : Cache) :
    cache.Exhausted cache.currentChunkIdx ∨ ∃ d, cache.Ready d := by
  cases hfree : cache.free cache.currentChunkIdx with
  | nil =>
    by_cases hlen : cache.len cache.currentChunkIdx < cache.pagesPerChunk
    · refine .inr ⟨⟨cache.len cache.currentChunkIdx, cache.currentChunkIdx⟩, rfl, ?_⟩
      exact .inr ⟨hfree, hlen, rfl⟩
    · exact .inl ⟨hfree, Nat.not_lt.mp hlen⟩
  | cons idx rest => exact .inr ⟨⟨idx, cache.currentChunkIdx⟩, rfl, .inl ⟨rest, hfree⟩⟩

theorem ready_of_allocCurrentChunk {s t : Sys} {d : EntryDescriptor}
    (h : allocCurrentChunk s = .ok (some d, t)) : s.cache.Ready d := by
  rcases exhausted_or_ready s.cache with hfull | ⟨e, he⟩
  · cases (allocCurrentChunk_exhausted hfull).symm.trans h
  · cases (allocCurrentChunk_ready he).symm.trans h
    exact he

theorem takeSlot_allocate (cache : Cache) (d : EntryDescriptor) (key : Key) :
    (((takeSlot cache d).setWlock (some ⟨d, key⟩)).hmapPut key d).setLabel d key =
      cache.allocate d key := by
  unfold Cache.allocate takeSlot Cache.setLabel Cache.hmapPut Cache.takeFree Cache.addFree
    Cache.setWlock Cache.setChunk
  by_cases hkey : key = 0 <;> simp [hkey]

/-- The machine after `advance_chunk` was called `j` times. -/
def advanced (j : ℕ) (s : Sys) : Sys :=
  (fun s : Sys => perform s (.advised s.cache.currentChunkIdx))^[j] s

theorem advanced_succ (j : ℕ) (s : Sys) :
    advanced (j + 1) s = advanced j (perform s (.advised s.cache.currentChunkIdx)) := rfl

theorem cache_advanced (j : ℕ) (s : Sys) :
    (advanced j s).cache =
      { s.cache with currentChunkIdx := s.cache.currentChunkIdx + Fin.ofNat numberOfChunks j } := by
  induction j generalizing s with
  | zero => simp [advanced]
  | succ j ih =>
    rw [advanced_succ, ih]
    have hcur : s.cache.currentChunkIdx + 1 + Fin.ofNat numberOfChunks j =
        s.cache.currentChunkIdx + Fin.ofNat numberOfChunks (j + 1) := by
      apply Fin.ext
      change ((s.cache.currentChunkIdx.val + 1) % 32 + j % 32) % 32 =
        (s.cache.currentChunkIdx.val + (j + 1) % 32) % 32
      omega
    rw [← hcur]
    rfl

theorem allocLoop_spec (n : ℕ) (s : Sys) :
    (∃ j < n, ∃ d, (∀ i < j, (advanced i s).cache.Exhausted (advanced i s).cache.currentChunkIdx) ∧
      (advanced j s).cache.Ready d ∧
      allocLoop n s = .ok (d, { advanced j s with cache := takeSlot (advanced j s).cache d })) ∨
    ((∀ i < n, (advanced i s).cache.Exhausted (advanced i s).cache.currentChunkIdx) ∧
      allocLoop n s = .error .noFreePage) := by
  induction n generalizing s with
  | zero => exact .inr ⟨by omega, rfl⟩
  | succ n ih =>
    unfold allocLoop
    simp only [bind, StateT.bind, Except.bind]
    rcases exhausted_or_ready s.cache with hex | ⟨d, hd⟩
    · rw [allocCurrentChunk_exhausted hex]
      rcases ih (perform s (.advised s.cache.currentChunkIdx)) with
        ⟨j, hj, d, hbefore, hready, hrun⟩ | ⟨hall, hrun⟩
      · refine .inl ⟨j + 1, by omega, d, ?_, hready, hrun⟩
        intro i hi
        cases i with
        | zero => exact hex
        | succ i => exact hbefore i (by omega)
      · refine .inr ⟨?_, hrun⟩
        intro i hi
        cases i with
        | zero => exact hex
        | succ i => exact hall i (by omega)
    · rw [allocCurrentChunk_ready hd]
      exact .inl ⟨0, by omega, d, by omega, hd, rfl⟩

/-- The machine after the eviction that `alloc_new_page` may start with. -/
def opened (env : Env) (s : Sys) : Sys :=
  if s.cache.totalFreePages = 0 then
    { perform s (.evicted (pick env s)) with draws := s.draws + 1 }
  else s

def openEvents (env : Env) (s : Sys) : List Event :=
  if s.cache.totalFreePages = 0 then [.evicted (pick env s)] else []

/-- The machine when `alloc_new_page` has left `j` chunks behind. -/
def searched (env : Env) (s : Sys) (j : ℕ) : Sys := advanced j (opened env s)

def searchEvents (env : Env) (s : Sys) (j : ℕ) : List Event :=
  openEvents env s ++ (List.range j).map fun i => .advised (searched env s i).cache.currentChunkIdx

theorem mem_searchEvents {env : Env} {s : Sys} {j : ℕ} {e : Event}
    (h : e ∈ searchEvents env s j) : (∃ c, e = .evicted c) ∨ ∃ c, e = .advised c := by
  rcases List.mem_append.mp h with h | h
  · unfold openEvents at h
    split at h
    · exact .inl ⟨_, List.mem_singleton.mp h⟩
    · cases h
  · obtain ⟨i, -, rfl⟩ := List.mem_map.mp h
    exact .inr ⟨_, rfl⟩

/-- `drop_next_chunk` and `advance_chunk` only run on the way to an allocation. -/
def Opens : Event → Prop
  | .evicted _ => True
  | .advised _ => True
  | _ => False

def Allocates : Event → Prop
  | .advised _ => True
  | .allocated _ _ => True
  | _ => False

/-- Every eviction and every advised chunk is followed at once by the next step of its search. -/
def Searches : List Event → Prop
  | [] => True
  | e :: es => (Opens e → ∃ f rest, es = f :: rest ∧ Allocates f) ∧ Searches es

theorem Searches.append {es fs : List Event} (hes : Searches es) (hfs : Searches fs) :
    Searches (es ++ fs) := by
  induction es with
  | nil => exact hfs
  | cons e es ih =>
    refine ⟨fun hopens => ?_, ih hes.2⟩
    obtain ⟨f, rest, rfl, hf⟩ := hes.1 hopens
    exact ⟨f, rest ++ fs, rfl, hf⟩

theorem searches_of_forall {es : List Event} (h : ∀ e ∈ es, ¬ Opens e) : Searches es := by
  induction es with
  | nil => trivial
  | cons e es ih =>
    exact ⟨fun hopens => absurd hopens (h e List.mem_cons_self),
      ih fun f hf => h f (List.mem_cons_of_mem e hf)⟩

theorem searches_advised {es : List Event} (cs : List ChunkIdx) (d : EntryDescriptor) (key : Key)
    (hes : Searches es) : Searches (cs.map .advised ++ .allocated d key :: es) := by
  induction cs with
  | nil => exact ⟨fun h => h.elim, hes⟩
  | cons c cs ih =>
    refine ⟨fun _ => ?_, ih⟩
    cases cs with
    | nil => exact ⟨_, _, rfl, trivial⟩
    | cons c' cs => exact ⟨_, _, rfl, trivial⟩

theorem searches_found (env : Env) (s : Sys) (j : ℕ) (d : EntryDescriptor) (key : Key)
    {es : List Event} (hes : Searches es) :
    Searches (searchEvents env s j ++ .allocated d key :: es) := by
  have hloop := searches_advised
    ((List.range j).map fun i => (searched env s i).cache.currentChunkIdx) d key hes
  rw [List.map_map] at hloop
  unfold searchEvents openEvents
  split
  · refine ⟨fun _ => ?_, hloop⟩
    cases j with
    | zero => exact ⟨_, _, rfl, trivial⟩
    | succ j =>
      rw [List.range_succ_eq_map]
      exact ⟨.advised _, _, rfl, trivial⟩
  · exact hloop

def Full (s : Sys) : Prop := s.cache.Exhausted s.cache.currentChunkIdx

/-- `alloc_new_page` finds slot `d` after leaving `j` full chunks behind. -/
structure Finds (env : Env) (s : Sys) (j : ℕ) (d : EntryDescriptor) : Prop where
  lt : j < numberOfChunks
  before : ∀ i < j, Full (searched env s i)
  ready : (searched env s j).cache.Ready d

/-- `alloc_new_page` would fail: it finds each of the 32 chunks full. -/
def Stuck (env : Env) (s : Sys) : Prop := ∀ i < numberOfChunks, Full (searched env s i)

theorem not_full_of_ready {s : Sys} {d : EntryDescriptor} (h : s.cache.Ready d) : ¬ Full s := by
  rintro ⟨hfree, hlen⟩
  obtain ⟨hchunk, ⟨rest, hrest⟩ | ⟨-, hblank, -⟩⟩ := h
  · rw [hchunk, hfree] at hrest
    cases hrest
  · rw [hchunk] at hblank
    omega

theorem ready_unique {cache : Cache} {d e : EntryDescriptor} (hd : cache.Ready d)
    (he : cache.Ready e) : d = e := by
  obtain ⟨hchunk, hd⟩ := hd
  obtain ⟨hchunk', he⟩ := he
  refine Cache.ext_index (hchunk.trans hchunk'.symm) ?_
  rw [hchunk] at hd
  rw [hchunk'] at he
  rcases hd with ⟨rest, hrest⟩ | ⟨hnil, -, hindex⟩ <;>
    rcases he with ⟨rest', hrest'⟩ | ⟨hnil', -, hindex'⟩
  · exact (List.cons.inj (hrest.symm.trans hrest')).1
  · cases hrest.symm.trans hnil'
  · cases hnil.symm.trans hrest'
  · rw [hindex, hindex']

/-- Allocation has one answer. -/
theorem Finds.unique {env : Env} {s : Sys} {j k : ℕ} {d e : EntryDescriptor}
    (hd : Finds env s j d) (he : Finds env s k e) : d = e := by
  rcases Nat.lt_trichotomy j k with hlt | rfl | hlt
  · exact absurd (he.before j hlt) (not_full_of_ready hd.ready)
  · exact ready_unique hd.ready he.ready
  · exact absurd (hd.before k hlt) (not_full_of_ready he.ready)

theorem allocNewPage_spec (env : Env) (s : Sys) :
    (∃ j d, Finds env s j d ∧ allocNewPage env s =
      .ok (d, { searched env s j with cache := takeSlot (searched env s j).cache d })) ∨
    (Stuck env s ∧ allocNewPage env s = .error .noFreePage) := by
  have hrun : allocNewPage env s = allocLoop numberOfChunks (opened env s) := by
    unfold allocNewPage opened
    simp only [bind, StateT.bind, Except.bind, get, getThe, MonadStateOf.get, StateT.get, pure,
      Except.pure]
    split
    · simp only [StateT.bind, bind, Except.bind, dropNextChunk_eq]
    · rfl
  rw [hrun]
  rcases allocLoop_spec numberOfChunks (opened env s) with
    ⟨j, hj, d, hbefore, hready, hloop⟩ | ⟨hall, hloop⟩
  · exact .inl ⟨j, d, ⟨hj, hbefore, hready⟩, hloop⟩
  · exact .inr ⟨hall, hloop⟩

theorem lazyfreeWriteAlloc_spec (env : Env) (key : Key) (s : Sys) (hw : s.cache.wlock = none) :
    (∃ j d, Finds env s j d ∧ lazyfreeWriteAlloc env key s =
      .ok (d, perform (searched env s j) (.allocated d key))) ∨
    (Stuck env s ∧ lazyfreeWriteAlloc env key s = .error .noFreePage) := by
  have hassert : lazyfreeWriteAlloc env key s =
      (require (s.cache.wlock = none) .assertFailed >>= fun _ => do
        let desc ← allocNewPage env
        modifyCache (·.setWlock (some ⟨desc, key⟩))
        modifyCache (·.hmapPut key desc)
        modifyCache (·.setLabel desc key)
        emit (.allocated desc key)
        return desc) s := rfl
  rw [hassert, require_bind hw]
  simp only [bind, StateT.bind, Except.bind]
  rcases allocNewPage_spec env s with ⟨j, d, hfinds, hrun⟩ | ⟨hall, hrun⟩
  · refine .inl ⟨j, d, hfinds, ?_⟩
    rw [hrun]
    change Except.ok (d, { searched env s j with
      cache := (((takeSlot (searched env s j).cache d).setWlock (some ⟨d, key⟩)).hmapPut
        key d).setLabel d key
      trace := (searched env s j).trace ++ [Event.allocated d key] }) = _
    rw [takeSlot_allocate]
    rfl
  · refine .inr ⟨hall, ?_⟩
    rw [hrun]

/-- What allocation does to the cache depends on the cache and the next draw only. -/
theorem cache_searched_congr (env : Env) {s u : Sys} (hcache : u.cache = s.cache)
    (hdraws : u.draws = s.draws) (j : ℕ) :
    (searched env u j).cache = (searched env s j).cache := by
  have hpick : pick env u = pick env s := by
    unfold pick
    rw [hdraws]
  have hopen : (opened env u).cache = (opened env s).cache := by
    unfold opened
    rw [hcache, hpick]
    split
    · change u.cache.evict (pick env s) = s.cache.evict (pick env s)
      rw [hcache]
    · exact hcache
  unfold searched
  rw [cache_advanced, cache_advanced, hopen]

theorem finds_congr {env : Env} {s u : Sys} (hcache : u.cache = s.cache)
    (hdraws : u.draws = s.draws) {j : ℕ} {d : EntryDescriptor} :
    Finds env u j d ↔ Finds env s j d := by
  have h := cache_searched_congr env hcache hdraws
  constructor
  · intro hfinds
    exact ⟨hfinds.lt, fun i hi => by unfold Full; rw [← h]; exact hfinds.before i hi,
      by rw [← h]; exact hfinds.ready⟩
  · intro hfinds
    exact ⟨hfinds.lt, fun i hi => by unfold Full; rw [h]; exact hfinds.before i hi,
      by rw [h]; exact hfinds.ready⟩

theorem pagesPerChunk_searched (env : Env) (s : Sys) (j : ℕ) :
    (searched env s j).cache.pagesPerChunk = s.cache.pagesPerChunk := by
  unfold searched
  rw [cache_advanced]
  unfold opened
  split
  · exact Cache.pagesPerChunk_evict s.cache (pick env s)
  · rfl

theorem wlock_opened (env : Env) (s : Sys) : (opened env s).cache.wlock = s.cache.wlock := by
  unfold opened
  split
  · exact Cache.wlock_evict s.cache (pick env s)
  · rfl

theorem wlock_searched (env : Env) (s : Sys) (j : ℕ) :
    (searched env s j).cache.wlock = s.cache.wlock := by
  unfold searched
  rw [cache_advanced, ← wlock_opened env s]

theorem clock_searched (env : Env) (s : Sys) (j : ℕ) : (searched env s j).clock = s.clock := by
  have hopen : (opened env s).clock = s.clock := by
    unfold opened
    split <;> rfl
  unfold searched
  rw [← hopen]
  generalize opened env s = t
  induction j generalizing t with
  | zero => rfl
  | succ j ih => exact ih (perform t (.advised t.cache.currentChunkIdx))

theorem advanced_succ' (j : ℕ) (s : Sys) :
    advanced (j + 1) s =
      perform (advanced j s) (.advised (advanced j s).cache.currentChunkIdx) :=
  Function.iterate_succ_apply' _ _ _

theorem performs_opened (env : Env) {s : Sys} (hw : s.cache.wlock = none) :
    Performs s (opened env s) (openEvents env s) := by
  unfold opened openEvents
  split
  · rename_i htotal
    exact performs_event rfl ⟨hw, htotal⟩
  · exact performs_refl s

theorem performs_searched {env : Env} {s : Sys} (hw : s.cache.wlock = none) {j : ℕ}
    (hfull : ∀ i < j, Full (searched env s i)) :
    Performs s (searched env s j) (searchEvents env s j) := by
  unfold searchEvents
  refine (performs_opened env hw).trans ?_
  induction j with
  | zero => exact performs_refl _
  | succ j ih =>
    rw [List.range_succ, List.map_append]
    refine (ih fun i hi => hfull i (by omega)).trans ?_
    have hnext : searched env s (j + 1) =
        perform (searched env s j) (.advised (searched env s j).cache.currentChunkIdx) :=
      advanced_succ' j _
    rw [hnext]
    exact performs_perform ⟨(wlock_searched env s j).trans hw, rfl, hfull j (by omega)⟩

theorem Finds.performs {env : Env} {s : Sys} {j : ℕ} {d : EntryDescriptor}
    (h : Finds env s j d) (hw : s.cache.wlock = none) (key : Key) :
    Performs s (perform (searched env s j) (.allocated d key))
      (searchEvents env s j ++ [.allocated d key]) :=
  (performs_searched hw h.before).trans
    (performs_perform ⟨(wlock_searched env s j).trans hw, h.ready⟩)

end LazyfreeCache.Allocation
