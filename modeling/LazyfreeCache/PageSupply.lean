import LazyfreeCache.FtRuns

/-!
The supply of pages. In every state of every run `total_free_pages` is what the
chunks can still give out. Hence `alloc_new_page`, called in any such state and
at any current chunk, tries 32 chunks at most and returns a slot, and where it
has to evict a chunk first, that chunk gives the slot at once.
-/
namespace LazyfreeCache.PageSupply

open ProgramLogic EventReplay State LazyfreeOps FallthroughOps Refinement Reads Allocation
open Writes Fallthrough Accounting Client FtRuns

/-- The counter is the number of pages that are free or blank. -/
structure Balanced (s : Core) : Prop where
  free_le : ∀ c, (s.cache.chunks c).freePagesCount ≤ (s.cache.chunks c).len
  len_le : ∀ c, (s.cache.chunks c).len ≤ s.cache.pagesPerChunk
  total : s.cache.totalFreePages =
    ∑ c, (s.cache.pagesPerChunk - (s.cache.chunks c).len + (s.cache.chunks c).freePagesCount)

/-- `alloc_new_page` returns a slot after `j` full chunks, with `j < 32`. If it evicts a chunk
first, it tries no other. -/
structure Supplied (env : Env) (s : Sys) : Prop where
  allocates : ∃ j d t, Finds env s j d ∧ allocNewPage env s = .ok (d, t) ∧
    d.index < s.cache.pagesPerChunk
  evicts : s.cache.totalFreePages = 0 →
    (opened env s).cache.totalFreePages = s.cache.pagesPerChunk ∧ Finds env s 0 ⟨0, pick env s⟩

theorem Accounted.balanced {s : Core} (h : Accounted s) : Balanced s :=
  ⟨h.free_le, h.len_le, h.total⟩

/-- With the counter at 0 every chunk is full, and the evicted one is all that is free then. -/
theorem spare_opened {env : Env} {s : Sys} (h : Accounted s.toCore)
    (hzero : s.cache.totalFreePages = 0) (c : ChunkIdx) :
    spare (opened env s).cache c = if c = pick env s then s.cache.pagesPerChunk else 0 := by
  have hspare : spare s.cache c = 0 := by
    have hsum := h.total
    rw [hzero] at hsum
    exact Finset.sum_eq_zero_iff.mp hsum.symm c (Finset.mem_univ c)
  unfold opened
  rw [if_pos hzero]
  change spare (s.cache.evict (pick env s)) c = _
  rw [spare_evict, hspare]

theorem supplied {env : Env} {s : Sys} (h : Accounted s.toCore)
    (hpages : 1 ≤ s.cache.pagesPerChunk) : Supplied env s := by
  constructor
  · rcases allocNewPage_spec env s with ⟨j, d, hfinds, hrun⟩ | ⟨hstuck, -⟩
    · have hlt := ready_index_lt (accounted_advanced (accounted_opened env h) j) hfinds.ready
      have hsame : (advanced j (opened env s)).cache.pagesPerChunk = s.cache.pagesPerChunk :=
        pagesPerChunk_searched env s j
      exact ⟨j, d, _, hfinds, hrun, hsame ▸ hlt⟩
    · exact absurd hstuck (not_stuck h hpages)
  · intro hzero
    refine ⟨?_, by decide, fun i hi => absurd hi (Nat.not_lt_zero i), ?_⟩
    · rw [(accounted_opened env h).total, Finset.sum_congr rfl fun c _ => spare_opened h hzero c]
      simp
    · have hopen : (opened env s).cache = s.cache.evict (pick env s) := by
        unfold opened
        rw [if_pos hzero]
        rfl
      change (opened env s).cache.Ready ⟨0, pick env s⟩
      rw [hopen]
      refine ⟨rfl, .inr ⟨by simp, ?_, by simp⟩⟩
      simp only [Cache.len_evict, Cache.pagesPerChunk_evict, if_true]
      exact hpages

/-! ### No call ends in `Failed to find free page` -/

/-- `m` never reaches that exit. -/
def Avoids {α : Type} (m : M α) : Prop := ∀ s, wp m (fun _ _ => True) (· ≠ .noFreePage) s

theorem Avoids.bind {α β : Type} {m : M β} {f : β → M α} (hm : Avoids m)
    (hf : ∀ b, Avoids (f b)) : Avoids (m >>= f) := by
  intro s
  rw [wp_bind]
  exact wp_mono (hm s) (fun b t _ => hf b t) fun _ h => h

theorem avoids_pure {α : Type} (a : α) : Avoids (pure a : M α) := fun _ => trivial

theorem avoids_lockCheck (env : Env) (L : RLock) : Avoids (lockCheck env L) := by
  intro s
  unfold lockCheck readByte
  split <;> simp

theorem avoids_cacheDrop (d : EntryDescriptor) : Avoids (cacheDrop d) := by
  intro s
  unfold cacheDrop emit modifyCache
  simp

theorem avoids_readLock (env : Env) (L : RLock) : Avoids (lazyfreeReadLock env L) := by
  intro s
  unfold lazyfreeReadLock readByte
  simp only [wp_bind, wp_get, wp_require]
  split <;> simp

theorem avoids_readUnlock (env : Env) (L : RLock) (drop : Bool) :
    Avoids (lazyfreeReadUnlock env L drop) := by
  intro s
  unfold lazyfreeReadUnlock
  simp only [wp_bind, wp_get, wp_require, wp_ite]
  refine ⟨fun _ => ⟨fun _ => ⟨fun _ => trivial, fun _ => ?_⟩, by simp⟩, by simp⟩
  split
  · simp
  · rename_i c hchunk
    rw [wp_bind]
    refine wp_mono (avoids_lockCheck env L s) (fun b t _ => ?_) fun _ h => h
    simp only [wp_bind, wp_get, wp_require, wp_ite]
    refine ⟨fun _ => ⟨fun _ => trivial, fun _ => ⟨fun _ => trivial, fun _ => ?_⟩⟩, by simp⟩
    exact wp_mono (avoids_cacheDrop _ t) (fun _ _ _ => trivial) fun _ h => h

theorem avoids_read (env : Env) (L : RLock) (dest : Buffer) {offset : ℕ} (size : ℕ)
    (hoff : offset < 2 ^ 64) : Avoids (lazyfreeRead env L dest offset size) := by
  intro s
  refine wp_mono (wp_read env L dest size hoff s) (fun _ _ _ => trivial) ?_
  rintro e rfl
  decide

theorem avoids_writeUnlock (env : Env) (drop : Bool) : Avoids (lazyfreeWriteUnlock env drop) := by
  intro s
  unfold lazyfreeWriteUnlock bitFromEntryTail readByte storeByte emit modifyCache
  rw [wp_bind, wp_get]
  split
  · simp
  · cases drop with
    | false => simp
    | true =>
      simp only [wp_bind, wp_modify, if_true]
      exact avoids_cacheDrop _ _

theorem avoids_storeLocked (env : Env) (offset : ℕ) (v : UInt8) :
    Avoids (storeLocked env offset v) := by
  intro s
  unfold storeLocked storeByte emit
  rw [wp_bind, wp_get]
  split <;> simp

theorem avoids_ftDrop (env : Env) (key : Key) : Avoids (ftCacheDrop env key) := by
  refine (avoids_readLock env _).bind fun L => (avoids_lockCheck env L).bind fun b => ?_
  split
  · exact (avoids_readUnlock env L true).bind fun _ => avoids_pure true
  · exact avoids_pure false

theorem writeLock_supplied (env : Env) (L : RLock) {s : Sys} (h : Accounted s.toCore)
    (hpages : 1 ≤ s.cache.pagesPerChunk) (hlock : ∀ d, L.head = .page d → s.HandedOut d) :
    wp (lazyfreeWriteLock env L) (fun _ _ => True) (· ≠ .noFreePage) s := by
  refine wp_of_unlocked (E := (· ≠ .noFreePage)) (by decide) fun hw => ?_
  refine wp_mono (lazyfreeWriteLock_spec env L s hw fun p hp => index_lt h (hlock p hp))
    (fun _ _ _ => trivial) ?_
  rintro e ⟨-, hstuck | ⟨p, hhead, -, -, hstuck⟩⟩
  · exact absurd hstuck (not_stuck h hpages)
  · have hcache : (unpinned env s p).cache = s.cache := cache_pinned env s p
    have hup := (unpinned_steps (K := anyKey) env p hw).accounted h
    exact absurd hstuck (not_stuck hup (by rw [hcache]; exact hpages))

theorem ftGet_supplied (env : Env) (ft : FtCache) (key : Key) (value : Buffer) {s : Sys}
    (h : Accounted s.toCore) (hpages : 1 ≤ s.cache.pagesPerChunk) :
    wp (ftCacheGet env ft key value) (fun _ _ => True) (· ≠ .noFreePage) s := by
  by_cases hw : s.cache.wlock = none
  · have hidle : Idle s := ⟨h, hw⟩
    refine wp_mono (ftCacheGet_spec env ft key value s hw (hidle.index_lt key))
      (fun _ _ _ => trivial) ?_
    intro e he
    cases he with
    | torn d e hmapped halive hdead he => rcases he with rfl | rfl <;> decide
    | stuck n u hmissing hu hstuck => exact absurd hstuck (not_stuck_cleared hidle hpages hu)
  · unfold ftCacheGet lazyfreeReadLock
    simp [hw]

/-- No call on a sound process stops it for lack of pages. -/
theorem exec_supplied (env : Env) (ft : FtCache) (call : Call) {p : Process} (hp : Sound p)
    (hpages : 1 ≤ p.sys.cache.pagesPerChunk) :
    wp (exec env ft call) (fun _ _ => True) (· ≠ .noFreePage) p := by
  cases call with
  | rlock l key => trivial
  | readLock l =>
    simp only [exec, wp_bind, wp_get, wp_onSys]
    exact wp_mono (avoids_readLock env _ p.sys) (fun _ _ _ => trivial) fun _ h => h
  | read l offset size =>
    simp only [exec, wp_bind, wp_get, wp_onSys]
    exact wp_mono (avoids_read env _ _ _ offset.toNat_lt p.sys) (fun _ _ _ => trivial) fun _ h => h
  | readUnlock l drop =>
    simp only [exec, wp_bind, wp_get, wp_onSys]
    exact wp_mono (avoids_readUnlock env _ drop p.sys) (fun _ _ _ => trivial) fun _ h => h
  | writeLock l =>
    simp only [exec, wp_bind, wp_get, wp_onSys]
    exact wp_mono (writeLock_supplied env _ hp.accounted hpages (hp.locks l))
      (fun _ _ _ => trivial) fun _ h => h
  | store offset v =>
    simp only [exec, wp_onSys]
    exact avoids_storeLocked env offset v p.sys
  | writeUnlock drop =>
    simp only [exec, wp_onSys]
    exact avoids_writeUnlock env drop p.sys
  | ftGet key =>
    simp only [exec, wp_bind, wp_onSys]
    exact wp_mono (ftGet_supplied env ft key _ hp.accounted hpages) (fun _ _ _ => trivial)
      fun _ h => h
  | ftDrop key =>
    simp only [exec, wp_bind, wp_onSys]
    exact wp_mono (avoids_ftDrop env key p.sys) (fun _ _ _ => trivial) fun _ h => h

/-! ### Runs -/

/-- In state `s`, whatever the current chunk is, the counter is right and allocation succeeds. -/
def NeverShort (s : Core) : Prop :=
  Balanced s ∧ ∀ (env : Env) (clock draws : ℕ) (c : ChunkIdx),
    Supplied env ⟨{ s with cache := s.cache.setCurrent c }, clock, draws⟩

theorem neverShort {s : Core} (h : Accounted s) (hpages : 1 ≤ s.cache.pagesPerChunk) :
    NeverShort s := by
  refine ⟨Accounted.balanced h, fun env clock draws c => supplied ?_ hpages⟩
  exact accounted_frame h rfl (fun _ => rfl) (fun _ => rfl) rfl (fun _ => rfl) (fun _ => Iff.rfl)
    h.wlock_handed

theorem neverShort_step (s : Core) (e : Event) (h : Accounted s ∧ 1 ≤ s.cache.pagesPerChunk)
    (he : s.Enabled e) : Accounted (s.apply e) ∧ 1 ≤ (s.apply e).cache.pagesPerChunk := by
  refine ⟨accounted_step s e h.1 he, ?_⟩
  rw [show (s.apply e).cache.pagesPerChunk = s.cache.pagesPerChunk by
    cases e <;> simp [Cache.step]]
  exact h.2

/-- The accounting of free pages is exact in every state of every run, so allocation never
fails. -/
theorem neverShort_run {boot : Boot} {capacity l a d : ℕ} {s₀ : Sys}
    (hnew : lazyfreeCacheNewEx boot capacity l a d = .ok s₀)
    (hpages : 1 ≤ s₀.cache.pagesPerChunk) (env : Env) (ft : FtCache) (calls : List Call) :
    (∀ p, run env ft calls (start s₀) = .ok ((), p) → NeverShort p.sys.toCore ∧
      Along Core.apply (fun s _ => NeverShort s) s₀.toCore p.sys.trace) ∧
    run env ft calls (start s₀) ≠ .error .noFreePage := by
  have hcreated := (created_of_new hnew).1
  constructor
  · intro p hrun
    have hperf := (run_replay hcreated (fun _ => rfl) hrun).1
    constructor
    · refine neverShort (accounted_performs hcreated.accounted hperf) ?_
      rw [pagesPerChunk_performs hperf]
      exact hpages
    · exact along_of_invariant (fun s => Accounted s ∧ 1 ≤ s.cache.pagesPerChunk) neverShort_step
        (fun _ _ h _ => neverShort h.1 h.2) _ ⟨hcreated.accounted, hpages⟩ hperf.2
  · have hrun : wp (run env ft calls)
        (fun _ p => Sound p ∧ 1 ≤ p.sys.cache.pagesPerChunk) (· ≠ .noFreePage) (start s₀) := by
      refine wp_runAll ?_ ⟨hcreated.sound, hpages⟩
      rintro call - p ⟨hp, hpages⟩
      refine wp_iff.mpr ⟨fun _ q hq => ?_, (wp_iff.mp (exec_supplied env ft call hp hpages)).2⟩
      obtain ⟨hsound, es, hes, -⟩ := (wp_of_ok hq).mp (exec_anyKey env ft call hp)
      exact ⟨hsound, (pagesPerChunk_performs hes).symm ▸ hpages⟩
    exact fun h => (wp_iff.mp hrun).2 _ h rfl

/-- 33 keys in 32 one-page chunks, so that the last one evicts. -/
theorem neverShort_run_full : ∃ p, run calm byteCache ((List.range 33).map fun i =>
    .ftGet (UInt64.ofNat i)) (start smallCache) = .ok ((), p) ∧ NeverShort p.sys.toCore := by
  have hrun := run_eq_unit (start smallCache) (run calm byteCache ((List.range 33).map fun i =>
    .ftGet (UInt64.ofNat i))) (by decide +kernel)
  exact ⟨_, hrun, ((neverShort_run smallCache_new (by decide +kernel) calm byteCache _).1
    _ hrun).1⟩

end LazyfreeCache.PageSupply
