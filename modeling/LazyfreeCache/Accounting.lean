import LazyfreeCache.FallthroughEvents
import Mathlib.Algebra.BigOperators.Group.Finset.Basic
import Mathlib.Algebra.Order.BigOperators.Group.Finset
import Mathlib.Algebra.BigOperators.Fin

/-!
The free-page accounting of the cache, which holds in every state that any run
reaches, whatever keys and locks it uses. The counter is the sum of what the 32
chunks can still give out, and every slot the cache knows of was handed out
before. Hence allocation finds a page whenever chunks have pages at all.
-/
namespace LazyfreeCache.Accounting

open EventReplay State Refinement Allocation

/-- What chunk `c` can still give out. -/
def spare (cache : Cache) (c : ChunkIdx) : ℕ :=
  cache.pagesPerChunk - cache.len c + (cache.free c).length

structure Accounted (s : Core) : Prop where
  pages : s.cache.pagesPerChunk ≤ 2 ^ 31
  free_le : ∀ c, (s.cache.free c).length ≤ s.cache.len c
  len_le : ∀ c, s.cache.len c ≤ s.cache.pagesPerChunk
  total : s.cache.totalFreePages = ∑ c, spare s.cache c
  free_handed : ∀ c, ∀ i ∈ s.cache.free c, s.HandedOut ⟨i, c⟩
  len_handed : ∀ c, ∀ i < s.cache.len c, s.HandedOut ⟨i, c⟩
  map_handed : ∀ k d, s.cache.hmapGet k = some d → s.HandedOut d
  wlock_handed : ∀ w, s.cache.wlock = some w → s.HandedOut w.slot
  handed_lt : ∀ d, s.HandedOut d → d.index < s.cache.pagesPerChunk
  handed_down : ∀ c i j, s.HandedOut ⟨j, c⟩ → i ≤ j → s.HandedOut ⟨i, c⟩

theorem sum_change {f g : ChunkIdx → ℕ} (c : ChunkIdx) (h : ∀ x, x ≠ c → g x = f x) :
    ∑ x, g x + f c = ∑ x, f x + g c := by
  have hf := Finset.add_sum_erase Finset.univ f (Finset.mem_univ c)
  have hg := Finset.add_sum_erase Finset.univ g (Finset.mem_univ c)
  have heq : ∑ x ∈ Finset.univ.erase c, g x = ∑ x ∈ Finset.univ.erase c, f x :=
    Finset.sum_congr rfl fun x hx => h x (Finset.ne_of_mem_erase hx)
  omega

theorem handedOut_apply (s : Core) (e : Event) (d : EntryDescriptor) :
    (s.apply e).HandedOut d ↔ s.HandedOut d ∨ ∃ key, e = .allocated d key := by
  unfold Core.HandedOut
  simp only [Core.trace_apply, List.mem_append, List.mem_singleton, exists_or, eq_comm]

theorem spare_le {s : Core} (h : Accounted s) (c : ChunkIdx) :
    spare s.cache c ≤ s.cache.pagesPerChunk := by
  have hfree := h.free_le c
  have hlen := h.len_le c
  unfold spare
  omega

/-- The slots in use and the free ones make up the 32 chunks. -/
theorem Accounted.used_add_total {s : Core} (h : Accounted s) :
    ∑ c, (s.cache.len c - (s.cache.free c).length) + s.cache.totalFreePages =
      numberOfChunks * s.cache.pagesPerChunk := by
  have hchunk : ∀ c, s.cache.len c - (s.cache.free c).length + spare s.cache c =
      s.cache.pagesPerChunk := by
    intro c
    have hlen := h.len_le c
    have hfree := h.free_le c
    unfold spare
    omega
  rw [h.total, ← Finset.sum_add_distrib, Finset.sum_congr rfl fun c _ => hchunk c]
  simp

theorem total_le {s : Core} (h : Accounted s) : s.cache.totalFreePages ≤ 32 * 2 ^ 31 := by
  rw [h.total]
  calc ∑ c, spare s.cache c
      ≤ ∑ _c : ChunkIdx, 2 ^ 31 :=
        Finset.sum_le_sum fun c _ => (spare_le h c).trans h.pages
    _ = 32 * 2 ^ 31 := by simp [numberOfChunks]

/-- An event that leaves chunks, map and counter alone keeps the accounting. -/
theorem accounted_frame {s t : Core} (h : Accounted s)
    (hpages : t.cache.pagesPerChunk = s.cache.pagesPerChunk)
    (hlen : ∀ c, t.cache.len c = s.cache.len c) (hfree : ∀ c, t.cache.free c = s.cache.free c)
    (htotal : t.cache.totalFreePages = s.cache.totalFreePages)
    (hmap : ∀ k, t.cache.hmapGet k = s.cache.hmapGet k)
    (hhanded : ∀ d, t.HandedOut d ↔ s.HandedOut d)
    (hwlock : ∀ w, t.cache.wlock = some w → s.HandedOut w.slot) : Accounted t where
  pages := hpages ▸ h.pages
  free_le c := by rw [hfree, hlen]; exact h.free_le c
  len_le c := by rw [hlen, hpages]; exact h.len_le c
  total := by
    rw [htotal, h.total]
    refine Finset.sum_congr rfl fun c _ => ?_
    unfold spare
    rw [hpages, hlen, hfree]
  free_handed c i hi := by
    rw [hfree] at hi
    exact (hhanded _).mpr (h.free_handed c i hi)
  len_handed c i hi := by
    rw [hlen] at hi
    exact (hhanded _).mpr (h.len_handed c i hi)
  map_handed k d hd := by
    rw [hmap] at hd
    exact (hhanded _).mpr (h.map_handed k d hd)
  wlock_handed w hw := (hhanded _).mpr (hwlock w hw)
  handed_lt d hd := by
    rw [hpages]
    exact h.handed_lt d ((hhanded _).mp hd)
  handed_down c i j hj hij := (hhanded _).mpr (h.handed_down c i j ((hhanded _).mp hj) hij)

theorem spare_evict (cache : Cache) (c x : ChunkIdx) :
    spare (cache.evict c) x = if x = c then cache.pagesPerChunk else spare cache x := by
  unfold spare
  by_cases hx : x = c <;> simp [hx]

theorem accounted_evicted {s : Core} (h : Accounted s) (c : ChunkIdx) :
    Accounted (s.apply (.evicted c)) := by
  have hhanded : ∀ d, (s.apply (.evicted c)).HandedOut d ↔ s.HandedOut d := by
    intro d
    rw [handedOut_apply]
    simp
  have hlen : ∀ x, (s.cache.evict c).len x ≤ s.cache.len x := by
    intro x
    rw [Cache.len_evict]
    split <;> omega
  have hfree : ∀ x, ∀ i ∈ (s.cache.evict c).free x, i ∈ s.cache.free x := by
    intro x i hi
    rw [Cache.free_evict] at hi
    split at hi
    · cases hi
    · exact hi
  exact {
    pages := by simpa [Cache.step] using h.pages
    free_le := by
      intro x
      simp only [Core.cache_apply, Cache.step, Cache.free_evict, Cache.len_evict]
      split
      · exact Nat.le_refl 0
      · exact h.free_le x
    len_le := by
      intro x
      simpa [Cache.step] using (hlen x).trans (h.len_le x)
    total := by
      have hsum := sum_change c (f := spare s.cache) (g := spare (s.cache.evict c))
        fun x hx => by rw [spare_evict, if_neg hx]
      rw [spare_evict, if_pos rfl, ← h.total] at hsum
      have hspare : spare s.cache c =
        s.cache.pagesPerChunk - s.cache.len c + (s.cache.free c).length := rfl
      have hbound := total_le h
      have hpages := h.pages
      have hle := h.free_le c
      have hle' := h.len_le c
      simp only [Core.cache_apply, Cache.step, Cache.totalFreePages_evict]
      unfold u64 u32
      omega
    free_handed := fun x i hi => (hhanded _).mpr (h.free_handed x i (hfree x i hi))
    len_handed := fun x i hi => (hhanded _).mpr (h.len_handed x i (hi.trans_le (hlen x)))
    map_handed := by
      intro k d hd
      simp only [Core.cache_apply, Cache.step, Cache.hmapGet_evict] at hd
      split at hd
      · cases hd
      · exact (hhanded d).mpr (h.map_handed k d hd)
    wlock_handed := by
      intro w hw
      simp only [Core.cache_apply, Cache.step, Cache.wlock_evict] at hw
      exact (hhanded _).mpr (h.wlock_handed w hw)
    handed_lt := by
      intro d hd
      simpa [Cache.step] using h.handed_lt d ((hhanded d).mp hd)
    handed_down := fun x i j hj hij =>
      (hhanded _).mpr (h.handed_down x i j ((hhanded _).mp hj) hij) }

theorem ready_index_lt {s : Core} (h : Accounted s) {d : EntryDescriptor}
    (hready : s.cache.Ready d) : d.index < s.cache.pagesPerChunk := by
  obtain ⟨-, ⟨rest, hrest⟩ | ⟨-, hlen, hindex⟩⟩ := hready
  · exact h.handed_lt d (h.free_handed d.chunk d.index (by rw [hrest]; exact List.mem_cons_self))
  · omega

theorem accounted_allocated {s : Core} (h : Accounted s) {d : EntryDescriptor} (key : Key)
    (hready : s.cache.Ready d) : Accounted (s.apply (.allocated d key)) := by
  have hhanded : ∀ p, (s.apply (.allocated d key)).HandedOut p ↔ s.HandedOut p ∨ p = d := by
    intro p
    rw [handedOut_apply]
    simp [eq_comm]
  have hfree : ∀ x, ∀ i ∈ (s.cache.allocate d key).free x, i ∈ s.cache.free x := by
    intro x i hi
    rw [Cache.free_allocate] at hi
    split at hi
    · exact List.mem_of_mem_tail hi
    · exact hi
  have hpages := h.pages
  have hlt := ready_index_lt h hready
  -- the new slot is the top of the stack or the first blank page
  have hcase : (s.cache.free d.chunk ≠ [] ∧
        (s.cache.free d.chunk).tail.length + 1 = (s.cache.free d.chunk).length ∧
        s.HandedOut d) ∨
      (s.cache.free d.chunk = [] ∧ s.cache.len d.chunk < s.cache.pagesPerChunk ∧
        d.index = s.cache.len d.chunk) := by
    obtain ⟨-, ⟨rest, hrest⟩ | hblank⟩ := hready
    · refine .inl ⟨by simp [hrest], by simp [hrest], ?_⟩
      exact h.free_handed d.chunk d.index (by rw [hrest]; exact List.mem_cons_self)
    · exact .inr hblank
  have hlen : ∀ x, (s.cache.allocate d key).len x = s.cache.len x ∨
      (x = d.chunk ∧ s.cache.free d.chunk = [] ∧ d.index = s.cache.len x ∧
        s.cache.len x < s.cache.pagesPerChunk ∧
        (s.cache.allocate d key).len x = s.cache.len x + 1) := by
    intro x
    rw [Cache.len_allocate]
    split
    · rename_i hx
      obtain ⟨rfl, hnil⟩ := hx
      rcases hcase with ⟨hne, -⟩ | ⟨-, hblank, hindex⟩
      · exact absurd hnil hne
      · exact .inr ⟨rfl, hnil, hindex, hblank, by unfold u32; omega⟩
    · exact .inl rfl
  exact {
    pages := by simpa [Cache.step] using h.pages
    free_le := by
      intro x
      have hle := h.free_le x
      simp only [Core.cache_apply, Cache.step]
      rcases hlen x with hkeep | ⟨rfl, hnil, -⟩
      · rw [hkeep, Cache.free_allocate]
        split
        · rw [List.length_tail]
          omega
        · exact hle
      · rw [Cache.free_allocate, if_pos rfl, hnil]
        exact Nat.zero_le _
    len_le := by
      intro x
      have hle := h.len_le x
      simp only [Core.cache_apply, Cache.step, Cache.pagesPerChunk_allocate]
      rcases hlen x with hkeep | ⟨rfl, -, -, hblank, hnext⟩ <;> omega
    total := by
      have hsum := sum_change d.chunk (f := spare s.cache) (g := spare (s.cache.allocate d key))
        fun x hx => by simp [spare, hx]
      have hspare : spare (s.cache.allocate d key) d.chunk + 1 = spare s.cache d.chunk := by
        have hle := h.len_le d.chunk
        unfold spare
        rw [Cache.free_allocate, if_pos rfl, Cache.pagesPerChunk_allocate, Cache.len_allocate]
        rcases hcase with ⟨hne, htail, -⟩ | ⟨hnil, hblank, -⟩
        · rw [if_neg (fun hx => hne hx.2)]
          omega
        · rw [if_pos ⟨rfl, hnil⟩, hnil]
          unfold u32
          simp only [List.tail_nil, List.length_nil]
          omega
      rw [← h.total] at hsum
      have hbound := total_le h
      have hpos : spare s.cache d.chunk ≤ s.cache.totalFreePages := by
        rw [h.total]
        exact Finset.single_le_sum (f := spare s.cache) (fun _ _ => Nat.zero_le _)
          (Finset.mem_univ _)
      simp only [Core.cache_apply, Cache.step, Cache.totalFreePages_allocate]
      unfold u64
      omega
    free_handed := fun x i hi => (hhanded _).mpr (.inl (h.free_handed x i (hfree x i hi)))
    len_handed := by
      intro x i hi
      rw [hhanded]
      simp only [Core.cache_apply, Cache.step] at hi
      rcases hlen x with hkeep | ⟨rfl, -, hindex, -, hnext⟩
      · exact .inl (h.len_handed x i (by omega))
      · by_cases hid : i = d.index
        · exact .inr (Cache.ext_index rfl hid)
        · exact .inl (h.len_handed d.chunk i (by omega))
    map_handed := by
      intro k p hp
      rw [hhanded]
      simp only [Core.cache_apply, Cache.step, Cache.hmapGet_allocate] at hp
      split at hp
      · exact .inr (Option.some.inj hp).symm
      · exact .inl (h.map_handed k p hp)
    wlock_handed := by
      intro w hw
      cases hw
      exact (hhanded d).mpr (.inr rfl)
    handed_lt := by
      intro p hp
      simp only [Core.cache_apply, Cache.step, Cache.pagesPerChunk_allocate]
      rcases (hhanded p).mp hp with hp | rfl
      · exact h.handed_lt p hp
      · exact hlt
    handed_down := by
      intro x i j hj hij
      rw [hhanded]
      rcases (hhanded _).mp hj with hj | hjd
      · exact .inl (h.handed_down x i j hj hij)
      · subst hjd
        rcases hcase with ⟨-, -, hd⟩ | ⟨-, -, hindex⟩
        · exact .inl (h.handed_down x i j hd hij)
        · by_cases hid : i = j
          · exact .inr (Cache.ext_index rfl hid)
          · exact .inl (h.len_handed x i (by simp only at hindex; omega)) }

theorem accounted_dropped {s : Core} (h : Accounted s) {d : EntryDescriptor} (key : Key)
    (hfree : (s.cache.free d.chunk).length < s.cache.len d.chunk) (hhanded : s.HandedOut d) :
    Accounted (s.apply (.dropped d key)) := by
  have hhanded' : ∀ p, (s.apply (.dropped d key)).HandedOut p ↔ s.HandedOut p := by
    intro p
    rw [handedOut_apply]
    simp
  exact {
    pages := by simpa [Cache.step] using h.pages
    free_le := by
      intro x
      simp only [Core.cache_apply, Cache.step, Cache.free_drop, Cache.len_drop]
      split
      · rename_i hx
        rw [List.length_cons, hx]
        exact hfree
      · exact h.free_le x
    len_le := by
      intro x
      simpa [Cache.step] using h.len_le x
    total := by
      have hsum := sum_change d.chunk (f := spare s.cache) (g := spare (s.cache.drop d))
        fun x hx => by simp [spare, hx]
      have hspare : spare (s.cache.drop d) d.chunk = spare s.cache d.chunk + 1 := by
        simp [spare, Nat.add_assoc]
      rw [hspare, ← h.total] at hsum
      have hbound := total_le h
      simp only [Core.cache_apply, Cache.step, Cache.totalFreePages_drop]
      unfold u64
      omega
    free_handed := by
      intro x i hi
      simp only [Core.cache_apply, Cache.step, Cache.free_drop] at hi
      rw [hhanded']
      split at hi
      · rename_i hx
        subst hx
        rcases List.mem_cons.mp hi with rfl | hi
        · exact hhanded
        · exact h.free_handed d.chunk i hi
      · exact h.free_handed x i hi
    len_handed := by
      intro x i hi
      simp only [Core.cache_apply, Cache.step, Cache.len_drop] at hi
      exact (hhanded' _).mpr (h.len_handed x i hi)
    map_handed := by
      intro k p hp
      simp only [Core.cache_apply, Cache.step, Cache.hmapGet_drop] at hp
      split at hp
      · cases hp
      · exact (hhanded' p).mpr (h.map_handed k p hp)
    wlock_handed := by
      intro w hw
      cases hw
    handed_lt := by
      intro p hp
      simpa [Cache.step] using h.handed_lt p ((hhanded' p).mp hp)
    handed_down := fun x i j hj hij =>
      (hhanded' _).mpr (h.handed_down x i j ((hhanded' _).mp hj) hij) }

theorem accounted_step (s : Core) (e : Event) (h : Accounted s) (he : s.Enabled e) :
    Accounted (s.apply e) := by
  have hframe : (∀ d key, e ≠ .allocated d key) →
      ∀ d, (s.apply e).HandedOut d ↔ s.HandedOut d := by
    intro hne d
    rw [handedOut_apply]
    exact or_iff_left fun ⟨key, hkey⟩ => hne d key hkey
  cases e with
  | evicted c => exact accounted_evicted h c
  | allocated d key => exact accounted_allocated h key he.2
  | dropped d key =>
    refine accounted_dropped h key he.2.1 ?_
    rcases he.2.2 with ⟨-, hd⟩ | ⟨k, hw⟩
    · exact hd
    · exact h.wlock_handed _ hw
  | upgraded d w =>
    refine accounted_frame h rfl (fun _ => rfl) (fun _ => rfl) rfl (fun _ => rfl)
      (hframe (by simp)) ?_
    rintro w' hw'
    cases hw'
    rw [he.2.2.2]
    exact h.handed_down d.chunk _ d.index he.2.1 (Nat.mod_le _ _)
  | committed w bit =>
    refine accounted_frame h rfl (fun c => ?_) (fun c => ?_) rfl (fun _ => rfl)
      (hframe (by simp)) (by simp [Cache.step])
    · simp [Cache.step]
    · simp [Cache.step]
  | refill key =>
    exact accounted_frame h rfl (fun _ => rfl) (fun _ => rfl) rfl (fun _ => rfl)
      (hframe (by simp)) h.wlock_handed
  | reclaimed d =>
    exact accounted_frame h rfl (fun _ => rfl) (fun _ => rfl) rfl (fun _ => rfl)
      (hframe (by simp)) h.wlock_handed
  | stored d offset v =>
    exact accounted_frame h rfl (fun _ => rfl) (fun _ => rfl) rfl (fun _ => rfl)
      (hframe (by simp)) h.wlock_handed
  | advised c =>
    exact accounted_frame h rfl (fun _ => rfl) (fun _ => rfl) rfl (fun _ => rfl)
      (hframe (by simp)) h.wlock_handed

theorem accounted_replay {s : Core} {es : List Event} (h : Accounted s)
    (henabled : Along Core.apply Core.Enabled s es) : Accounted (replay Core.apply s es) :=
  replay_invariant Accounted accounted_step es h henabled

theorem accounted_performs {s t : Sys} {es : List Event} (h : Accounted s.toCore)
    (hperf : Performs s t es) : Accounted t.toCore := by
  rw [hperf.1]
  exact accounted_replay h hperf.2

theorem pagesPerChunk_performs {s t : Sys} {es : List Event} (h : Performs s t es) :
    t.cache.pagesPerChunk = s.cache.pagesPerChunk := by
  rw [show t.cache.pagesPerChunk = t.toCore.cache.pagesPerChunk from rfl, h.1]
  refine replay_frame (fun s : Core => s.cache.pagesPerChunk) (fun _ => True) ?_ es (by simp)
  intro s e _
  cases e <;> simp [Cache.step]

theorem cacheCapacity_performs {s t : Sys} {es : List Event} (h : Performs s t es) :
    t.cache.cacheCapacity = s.cache.cacheCapacity := by
  rw [show t.cache.cacheCapacity = t.toCore.cache.cacheCapacity from rfl, h.1]
  refine replay_frame (fun s : Core => s.cache.cacheCapacity) (fun _ => True) ?_ es (by simp)
  intro s e _
  cases e with
  | evicted c => exact Cache.cacheCapacity_evict s.cache c
  | allocated d key => exact Cache.cacheCapacity_allocate s.cache d key
  | dropped d key => exact Cache.cacheCapacity_drop s.cache d
  | _ => rfl

theorem accounted_opened (env : Env) {s : Sys} (h : Accounted s.toCore) :
    Accounted (opened env s).toCore := by
  unfold opened
  split
  · exact accounted_evicted h (pick env s)
  · exact h

theorem accounted_advanced {s : Sys} (h : Accounted s.toCore) (j : ℕ) :
    Accounted (advanced j s).toCore := by
  induction j generalizing s with
  | zero => exact h
  | succ j ih =>
    rw [advanced_succ]
    refine ih (accounted_frame h rfl (fun _ => rfl) (fun _ => rfl) rfl (fun _ => rfl) ?_
      h.wlock_handed)
    intro d
    exact (handedOut_apply s.toCore _ d).trans (by simp)

/-- Allocation always finds a page when chunks have pages at all. -/
theorem not_stuck {env : Env} {s : Sys} (h : Accounted s.toCore)
    (hpages : 1 ≤ s.cache.pagesPerChunk) : ¬ Stuck env s := by
  intro hstuck
  have hopen : Accounted (opened env s).toCore := accounted_opened env h
  have hall : ∀ c, (opened env s).cache.Exhausted c := by
    intro c
    have hc := hstuck (c - (opened env s).cache.currentChunkIdx).val (Fin.isLt _)
    unfold Full searched at hc
    rw [cache_advanced] at hc
    have hcur : (opened env s).cache.currentChunkIdx + Fin.ofNat numberOfChunks
        (c - (opened env s).cache.currentChunkIdx).val = c := by
      have hc : c.val < 32 := c.isLt
      rw [Fin.ofNat_val_eq_self]
      apply Fin.ext
      generalize (opened env s).cache.currentChunkIdx = cur
      have hcur : cur.val < 32 := cur.isLt
      change (cur.val + (32 - cur.val + c.val) % 32) % 32 = c.val
      omega
    rw [hcur] at hc
    exact hc
  have hzero : (opened env s).cache.totalFreePages = 0 := by
    rw [hopen.total]
    refine Finset.sum_eq_zero fun c _ => ?_
    obtain ⟨hfree, hlen⟩ := hall c
    unfold spare
    rw [hfree, List.length_nil]
    omega
  unfold opened at hzero hall hopen
  split at hzero
  · rename_i htotal
    rw [if_pos htotal] at hall
    have hlen := (hall (pick env s)).2
    change (s.cache.evict (pick env s)).pagesPerChunk ≤ (s.cache.evict (pick env s)).len _ at hlen
    rw [Cache.pagesPerChunk_evict, Cache.len_evict, if_pos rfl] at hlen
    omega
  · rename_i htotal
    exact htotal hzero

end LazyfreeCache.Accounting
