import LazyfreeCache.Client

/-!
What happens to a chunk when `current_chunk_idx` moves on. `advance_chunk` calls
`madv_impl` before it moves, `drop_next_chunk` does not: it runs when no page is
free, and the chunk that gave out the last page is then left as it is unless the
random choice falls on it.
-/
namespace LazyfreeCache.LeftBehind

open ProgramLogic EventReplay State LazyfreeOps FallthroughOps Refinement Allocation Accounting
open Client

/-- A slot of chunk `c` was handed out, and since then the chunk was neither thrown away with
`MADV_DONTNEED` nor given to its `madv_impl`. -/
def Pending (c : ChunkIdx) (es : List Event) : Prop :=
  ∃ left d key right, es = left ++ .allocated d key :: right ∧ d.chunk = c ∧
    .evicted c ∉ right ∧ .advised c ∉ right

/-- Every chunk but the current one is reclaimable. -/
def LeftReclaimable (s : Core) : Prop := ∀ c ≠ s.cache.currentChunkIdx, ¬ Pending c s.trace

variable {s : Core} {es : List Event} {e : Event} {c : ChunkIdx}

theorem not_pending_nil : ¬ Pending c [] := by
  rintro ⟨left, d, key, right, hnil, -⟩
  cases left <;> cases hnil

theorem pending_snoc : Pending c (es ++ [e]) ↔ (∃ d key, e = .allocated d key ∧ d.chunk = c) ∨
    (Pending c es ∧ e ≠ .evicted c ∧ e ≠ .advised c) := by
  constructor
  · rintro ⟨left, d, key, right, hsplit, hd, hevict, hadvise⟩
    rcases List.eq_nil_or_concat' right with rfl | ⟨right, f, rfl⟩
    · obtain ⟨-, hlast⟩ := List.append_inj' hsplit rfl
      exact .inl ⟨d, key, (List.cons.inj hlast).1, hd⟩
    · rw [← List.cons_append, ← List.append_assoc] at hsplit
      obtain ⟨hinit, hlast⟩ := List.append_inj' hsplit rfl
      obtain ⟨rfl, -⟩ := List.cons.inj hlast
      simp only [List.mem_append, List.mem_singleton, not_or] at hevict hadvise
      exact .inr ⟨⟨left, d, key, right, hinit, hd, hevict.1, hadvise.1⟩,
        Ne.symm hevict.2, Ne.symm hadvise.2⟩
  · rintro (⟨d, key, rfl, hd⟩ | ⟨⟨left, d, key, right, rfl, hd, hevict, hadvise⟩, hne, hne'⟩)
    · exact ⟨es, d, key, [], rfl, hd, List.not_mem_nil, List.not_mem_nil⟩
    · refine ⟨left, d, key, right ++ [e], by simp, hd, ?_, ?_⟩
      · simp [hevict, Ne.symm hne]
      · simp [hadvise, Ne.symm hne']

/-! ### Free pages -/

theorem total_ne_zero (h : Accounted s) (hspare : 0 < spare s.cache c) :
    s.cache.totalFreePages ≠ 0 := by
  have hle := Finset.single_le_sum (f := spare s.cache) (fun _ _ => Nat.zero_le _)
    (Finset.mem_univ c)
  rw [h.total]
  omega

theorem spare_of_ready {d : EntryDescriptor} (hready : s.cache.Ready d) :
    0 < spare s.cache d.chunk := by
  unfold spare
  obtain ⟨-, ⟨rest, hrest⟩ | ⟨-, hblank, -⟩⟩ := hready
  · rw [hrest, List.length_cons]
    omega
  · omega

/-- A search that goes on ends at a page, so the counter was not zero. -/
theorem free_of_searches (hs : Accounted s) (henabled : Along Core.apply Core.Enabled s es)
    (hsearch : Searches es) (hhead : ∃ f rest, es = f :: rest ∧ Allocates f) :
    s.cache.totalFreePages ≠ 0 := by
  induction es generalizing s with
  | nil =>
    obtain ⟨f, rest, hnil, -⟩ := hhead
    cases hnil
  | cons e es ih =>
    obtain ⟨f, rest, hcons, halloc⟩ := hhead
    obtain ⟨rfl, -⟩ := List.cons.inj hcons
    cases e with
    | advised c =>
      have hnext : (s.apply (.advised c)).cache.totalFreePages ≠ 0 :=
        ih (accounted_step s _ hs henabled.1) henabled.2 hsearch.2 (hsearch.1 trivial)
      exact hnext
    | allocated d key => exact total_ne_zero hs (spare_of_ready henabled.1.2)
    | _ => exact halloc.elim

/-- Pages are free after every eviction and every step to the next chunk. -/
def Allotted (s : Core) (e : Event) : Prop := Opens e → (s.apply e).cache.totalFreePages ≠ 0

theorem along_allotted (hs : Accounted s) (henabled : Along Core.apply Core.Enabled s es)
    (hsearch : Searches es) : Along Core.apply Allotted s es := by
  induction es generalizing s with
  | nil => trivial
  | cons e es ih =>
    have hnext := accounted_step s e hs henabled.1
    exact ⟨fun hopens => free_of_searches hnext henabled.2 hsearch.2 (hsearch.1 hopens),
      ih hnext henabled.2 hsearch.2⟩

theorem pages_of_total (h : Accounted s) (htotal : s.cache.totalFreePages ≠ 0) :
    s.cache.pagesPerChunk ≠ 0 := by
  intro hzero
  refine htotal ?_
  rw [h.total]
  refine Finset.sum_eq_zero fun c _ => ?_
  have hle := spare_le h c
  omega

/-- When no page is free the current chunk gave out the last one and was not advised since. -/
structure Tidy (s : Core) : Prop where
  accounted : Accounted s
  full : s.cache.totalFreePages = 0 → s.cache.pagesPerChunk ≠ 0 →
    Pending s.cache.currentChunkIdx s.trace

theorem tidy_step (s : Core) (e : Event) (h : Tidy s) (he : s.Enabled e ∧ Allotted s e) :
    Tidy (s.apply e) := by
  have haccounted := accounted_step s e h.accounted he.1
  refine ⟨haccounted, fun htotal hpages => ?_⟩
  have hkeep : (s.apply e).cache.totalFreePages = s.cache.totalFreePages →
      (s.apply e).cache.pagesPerChunk = s.cache.pagesPerChunk →
      (s.apply e).cache.currentChunkIdx = s.cache.currentChunkIdx →
      (∀ c, e ≠ .evicted c ∧ e ≠ .advised c) →
      Pending (s.apply e).cache.currentChunkIdx (s.apply e).trace := by
    intro htotal' hpages' hcurrent hne
    rw [hcurrent]
    exact pending_snoc.mpr (.inr ⟨h.full (htotal' ▸ htotal) (hpages' ▸ hpages), hne _⟩)
  cases e with
  | evicted c => exact absurd htotal (he.2 trivial)
  | advised c => exact absurd htotal (he.2 trivial)
  | allocated d key =>
    refine pending_snoc.mpr (.inl ⟨d, key, rfl, ?_⟩)
    exact he.1.2.1.trans (Cache.currentChunkIdx_allocate s.cache d key).symm
  | dropped d key =>
    refine absurd htotal (total_ne_zero haccounted (c := d.chunk) ?_)
    simp [spare, Cache.step]
  | committed w bit => exact hkeep rfl rfl rfl (by simp)
  | _ => exact hkeep rfl rfl rfl (by simp)

/-! ### Runs -/

/-- An eviction chooses the chunk that is current already. -/
def EvictsCurrent (s : Core) (e : Event) : Prop :=
  ∀ c, e = .evicted c → c = s.cache.currentChunkIdx

instance (s : Core) (e : Event) : Decidable (EvictsCurrent s e) :=
  inferInstanceAs (Decidable (∀ c, e = .evicted c → c = s.cache.currentChunkIdx))

theorem leftReclaimable_step (s : Core) (e : Event) (h : LeftReclaimable s)
    (he : s.Enabled e ∧ EvictsCurrent s e) : LeftReclaimable (s.apply e) := by
  intro c hc hpending
  rcases pending_snoc.mp hpending with ⟨d, key, rfl, rfl⟩ | ⟨hpending, hevict, hadvise⟩
  · refine hc (he.1.2.1.trans ?_)
    exact (Cache.currentChunkIdx_allocate s.cache d key).symm
  · refine h c (fun hcurrent => ?_) hpending
    -- only an eviction or an advice of the current chunk moves away from it
    cases e with
    | evicted c' => exact hc (hcurrent.trans (he.2 c' rfl).symm)
    | advised c' => exact hadvise (by rw [he.1.2.1, hcurrent])
    | allocated d key => exact hc (hcurrent.trans (Cache.currentChunkIdx_allocate _ _ _).symm)
    | dropped d key => exact hc (hcurrent.trans (Cache.currentChunkIdx_drop _ _).symm)
    | _ => exact hc hcurrent

theorem evictsCurrent_of_left (htidy : Tidy s) (henabled : s.Enabled e) (hallotted : Allotted s e)
    (h : LeftReclaimable (s.apply e)) : EvictsCurrent s e := by
  rintro c rfl
  by_contra hne
  refine h s.cache.currentChunkIdx (Ne.symm hne) (pending_snoc.mpr (.inr ⟨?_, ?_, by simp⟩))
  · have hpages := pages_of_total (accounted_step s _ htidy.accounted henabled) (hallotted trivial)
    refine htidy.full henabled.2 ?_
    rw [show (s.apply (.evicted c)).cache.pagesPerChunk = s.cache.pagesPerChunk from
      Cache.pagesPerChunk_evict s.cache c] at hpages
    exact hpages
  · simpa using hne

/-- Every chunk left behind is reclaimable in each state of a run, exactly when every eviction of
the run chooses the chunk that is current already. -/
theorem leftReclaimable_iff {boot : Boot} {capacity l a d : ℕ} {s₀ : Sys} {env : Env}
    {ft : FtCache} {calls : List Call} {p : Process}
    (hnew : lazyfreeCacheNewEx boot capacity l a d = .ok s₀)
    (hrun : run env ft calls (start s₀) = .ok ((), p)) :
    (∀ left right, p.sys.trace = left ++ right →
        LeftReclaimable (replay Core.apply s₀.toCore left)) ↔
      Along Core.apply EvictsCurrent s₀.toCore p.sys.trace := by
  have hcreated := (created_of_new hnew).1
  obtain ⟨hperf, hsearch⟩ := run_replay hcreated (fun _ => rfl) hrun
  have hboth := (along_and _).mpr
    ⟨hperf.2, along_allotted hcreated.accounted hperf.2 hsearch⟩
  have htidy : Tidy s₀.toCore := by
    refine ⟨hcreated.accounted, fun htotal hpages => absurd htotal ?_⟩
    rw [hcreated.total]
    simpa using hpages
  constructor
  · intro hleft
    refine (along_iff_split _).mpr fun left e right hsplit => ?_
    rw [hsplit, along_append] at hboth
    refine evictsCurrent_of_left (replay_invariant Tidy tidy_step left htidy hboth.1)
      hboth.2.1.1 hboth.2.1.2 ?_
    have h := hleft (left ++ [e]) right (by rw [hsplit]; simp)
    rwa [replay_append] at h
  · intro hcurrent left right hsplit
    have hall := (along_and _).mpr ⟨hperf.2, hcurrent⟩
    rw [hsplit, along_append] at hall
    refine replay_invariant LeftReclaimable leftReclaimable_step left (fun c _ => ?_) hall.1
    rw [hcreated.trace]
    exact not_pending_nil

/-- Gets of 33 keys, one more than there are pages. -/
def gets : List Call := (List.range 33).map fun i => .ftGet (.ofNat (i + 1))

/-- A calm kernel, and a random choice that is always chunk `c`. -/
def always (c : ChunkIdx) : Env := ⟨fun _ => [], fun _ => .ofNat c⟩

/-- The last of 33 gets evicts the current chunk. -/
theorem leftReclaimable_last_chunk :
    ∃ p, run (always 31) byteCache gets (start smallCache) = .ok ((), p) ∧
      Event.evicted 31 ∈ p.sys.trace ∧ LeftReclaimable p.sys.toCore := by
  obtain ⟨p, hrun, hevict, hcurrent⟩ : ∃ p,
      run (always 31) byteCache gets (start smallCache) = .ok ((), p) ∧
      Event.evicted 31 ∈ p.sys.trace ∧
      Along Core.apply EvictsCurrent smallCache.toCore p.sys.trace :=
    ⟨_, run_eq_unit _ _ (by decide +kernel), by decide +kernel, by decide +kernel⟩
  refine ⟨p, hrun, hevict, ?_⟩
  have hleft := (leftReclaimable_iff smallCache_new hrun).mpr hcurrent p.sys.trace [] (by simp)
  have hreplay := (run_replay (created_of_new smallCache_new).1 (fun _ => rfl) hrun).1.1
  rw [hreplay]
  exact hleft

/-- The last of 33 gets evicts chunk 0 and leaves chunk 31 full and without advice. -/
theorem full_chunk_left_behind :
    ∃ p, run (always 0) byteCache gets (start smallCache) = .ok ((), p) ∧
      ¬ LeftReclaimable p.sys.toCore := by
  obtain ⟨p, hrun, hcurrent, hmem, hevict, hadvise⟩ : ∃ p,
      run (always 0) byteCache gets (start smallCache) = .ok ((), p) ∧
      p.sys.cache.currentChunkIdx = 0 ∧ Event.allocated ⟨0, 31⟩ 32 ∈ p.sys.trace ∧
      Event.evicted 31 ∉ p.sys.trace ∧ Event.advised 31 ∉ p.sys.trace :=
    ⟨_, run_eq_unit _ _ (by decide +kernel), by decide +kernel, by decide +kernel,
      by decide +kernel, by decide +kernel⟩
  refine ⟨p, hrun, fun h => ?_⟩
  obtain ⟨left, right, hsplit⟩ := List.append_of_mem hmem
  rw [hsplit, List.mem_append, List.mem_cons, not_or, not_or] at hevict hadvise
  refine h 31 (by rw [hcurrent]; decide) ⟨left, ⟨0, 31⟩, 32, right, hsplit, rfl, ?_, ?_⟩
  · exact hevict.2.2
  · exact hadvise.2.2

end LazyfreeCache.LeftBehind
