import LazyfreeCache.ServedBytes

/-!
Kernel reclaim during a fallthrough call. Before the first lock check a page
that goes away is a miss; after it every check that fails ends the process. So
a call returns unless the kernel takes the page of its key between the first
lock check and the last.
-/
namespace LazyfreeCache.Reclaim

open ProgramLogic EventReplay State LazyfreeOps FallthroughOps Refinement Reads Allocation
open Writes Fallthrough Frames FallthroughEvents Accounting Client Slots FtRuns ServedBytes

/-- The kernel leaves the page of the key alone at the first three accesses of a call and takes
it at one of the next, up to access `n`. -/
def TakenMidway (env : Env) (key : Key) (n : ℕ) (s : Sys) : Prop :=
  ∃ d, s.cache.Mapped key d ∧ Alive s.toCore d ∧ (s.mem d).lazyfree = true ∧
    (∀ i < 3, d ∉ env.reclaim (s.clock + i)) ∧ ∃ i < n, d ∈ env.reclaim (s.clock + i)

variable {env : Env} {ft : FtCache} {key : Key} {value : Buffer} {s t : Sys} {n : ℕ}

theorem takenMidway_iff : TakenMidway env key n s ↔
    ∃ d, s.cache.Mapped key d ∧ Alive (after env 3 s).toCore d ∧
      ¬ Alive (after env n s).toCore d := by
  constructor
  · rintro ⟨d, hmapped, halive, hlazy, hleft, htaken⟩
    refine ⟨d, hmapped, ?_, ?_⟩
    · unfold Alive
      rw [mem_after, if_neg]
      · exact halive
      · rintro ⟨i, hi, hmem⟩
        exact hleft i hi hmem
    · unfold Alive
      rw [mem_after, if_pos htaken]
      unfold Page.reclaim
      rw [if_pos hlazy]
      exact fun h => h rfl
  · rintro ⟨d, hmapped, halive, hdead⟩
    have hbefore := alive_of_alive_after halive
    have htaken : ∃ i < n, d ∈ env.reclaim (s.clock + i) := by
      by_contra hno
      refine hdead ?_
      unfold Alive
      rw [mem_after, if_neg hno]
      exact hbefore
    have hlazy : (s.mem d).lazyfree = true := by
      by_contra hlazy
      exact hdead (alive_after_stored env n (by simpa using hlazy) hbefore)
    refine ⟨d, hmapped, hbefore, hlazy, ?_, htaken⟩
    intro i hi hmem
    unfold Alive at halive
    rw [mem_after, if_pos ⟨i, hi, hmem⟩] at halive
    unfold Page.reclaim at halive
    rw [if_pos hlazy] at halive
    exact halive rfl

/-- A get returns exactly when the page is not taken between its first and last check. -/
theorem ftCacheGet_returns_iff (hs : Idle s) (hpages : 1 ≤ s.cache.pagesPerChunk) :
    (∃ v t, ftCacheGet env ft key value s = .ok (v, t)) ↔
      ¬ TakenMidway env key (ft.entrySize + 7) s := by
  rw [takenMidway_iff]
  constructor
  · rintro ⟨v, t, hrun⟩ ⟨d, hmapped, halive, hdead⟩
    cases ftGot_of_ok hs hrun with
    | hit e v hmapped' halive' =>
      obtain rfl := hmapped.unique hmapped'
      exact hdead halive'
    | miss m u j e hm hmissing => exact hmissing d hmapped (alive_after_of_le halive hm)
  · intro hno
    have hreturns : wp (ftCacheGet env ft key value) (FtGot env ft key value s)
        (fun _ => False) s :=
      wp_mono (ftCacheGet_torn hs hpages) (fun _ _ h => h) fun _ h => hno h
    obtain ⟨v, t, hrun, -⟩ := returns_of_wp hreturns
    exact ⟨v, t, hrun⟩

/-- A drop returns exactly when the page is not taken between its two checks. -/
theorem ftCacheDrop_returns_iff (hs : Idle s) (hwell : WellFormed s.toCore) (hkey : key ≠ 0) :
    (∃ b t, ftCacheDrop env key s = .ok (b, t)) ↔ ¬ TakenMidway env key 4 s := by
  rw [takenMidway_iff]
  constructor
  · rintro ⟨b, t, hrun⟩ ⟨d, hmapped, halive, hdead⟩
    cases ftDropped_of_ok hs hrun with
    | hit e hmapped' halive' =>
      obtain rfl := hmapped.unique hmapped'
      exact hdead halive'
    | miss m hm hmissing => exact hmissing d hmapped (alive_after_of_le halive hm)
  · intro hno
    have hreturns : wp (ftCacheDrop env key) (FtDropped env key s) (fun _ => False) s := by
      refine wp_mono (ftCacheDrop_spec env key s hs.wlock (hs.index_lt key)) (fun _ _ h => h) ?_
      intro e h
      cases h with
      | torn d hmapped halive hdead => exact hno ⟨d, hmapped, halive, hdead⟩
      | overflow d hmapped halive hfree =>
        have hlt := hwell.free_length_lt (hs.handedOut d hmapped) (by rw [hmapped.2]; exact hkey)
        omega
    obtain ⟨b, t, hrun, -⟩ := returns_of_wp hreturns
    exact ⟨b, t, hrun⟩

theorem pagesPerChunk_ftRun {calls : List FtCall} (hs : Idle s)
    (hrun : ftRun env ft calls s = .ok ((), t)) :
    t.cache.pagesPerChunk = s.cache.pagesPerChunk := by
  refine (ftRun_invariant (fun u => u.cache.pagesPerChunk = s.cache.pagesPerChunk) ?_ hs rfl
    hrun).2
  intro u call _ v hu hinv h
  obtain ⟨es, hes⟩ := ftStep_acts hu h
  exact (pagesPerChunk_performs hes.performs).trans hinv

/-- Kernel reclaim is only a miss, for a get that then serves the refill and for a drop, exactly
when the page of the key is not taken between the first and the last lock check. -/
theorem reclaim_is_miss_iff {boot : Boot} {capacity l a d : ℕ} {s₀ : Sys}
    (hnew : lazyfreeCacheNewEx boot capacity l a d = .ok s₀)
    (hpages : 1 ≤ s₀.cache.pagesPerChunk) {calls : List FtCall}
    (hkeys : ∀ call ∈ calls, call.key ≠ 0) (hrun : ftRun env ft calls s₀ = .ok ((), s))
    (hkey : key ≠ 0) (value : Buffer) :
    ((∃ v t, ftCacheGet env ft key value s = .ok (v, t) ∧
        ∀ i < ft.entrySize, v i = ft.refillCb key i) ↔
      ¬ TakenMidway env key (ft.entrySize + 7) s) ∧
    ((∃ b t, ftCacheDrop env key s = .ok (b, t)) ↔ ¬ TakenMidway env key 4 s) := by
  have hcreated := (created_of_new hnew).1
  obtain ⟨hs, hfaith⟩ := faithful_ftRun hcreated hrun
  have hidle := idle_of_created hcreated
  have hwell := wellFormed_ftRun hkeys hidle (wellFormed_of_created hcreated) hrun
  have hpages' : 1 ≤ s.cache.pagesPerChunk := by
    rw [pagesPerChunk_ftRun hidle hrun]
    exact hpages
  refine ⟨?_, ftCacheDrop_returns_iff hs hwell hkey⟩
  rw [← ftCacheGet_returns_iff hs hpages']
  constructor
  · rintro ⟨v, t, hget, -⟩
    exact ⟨v, t, hget⟩
  · rintro ⟨v, t, hget⟩
    exact ⟨v, t, hget, hfaith.serves hkey (ftGot_of_ok hs hget)⟩

/-- The page of key 1 is taken while the lock is read: a get refills it, a drop returns. -/
theorem reclaim_is_miss_early :
    ∃ s, ftRun (takesAt ⟨0, 0⟩ 9) byteCache [.get 1 blank, .get 2 blank] smallCache =
        .ok ((), s) ∧
      (∃ v t, ftCacheGet (takesAt ⟨0, 0⟩ 9) byteCache 1 blank s = .ok (v, t) ∧
        ∀ i < 1, v i = byteCache.refillCb 1 i) ∧
      ∃ b t, ftCacheDrop (takesAt ⟨0, 0⟩ 9) 1 s = .ok (b, t) := by
  have hrun := run_eq_unit smallCache
    (ftRun (takesAt ⟨0, 0⟩ 9) byteCache [.get 1 blank, .get 2 blank]) (by decide +kernel)
  have hnot : ∀ n, ¬ TakenMidway (takesAt ⟨0, 0⟩ 9) 1 n
      (outcome (ftRun (takesAt ⟨0, 0⟩ 9) byteCache [.get 1 blank, .get 2 blank]) smallCache
        (by decide +kernel)).2 := by
    rintro n ⟨d, -, -, -, hleft, i, -, hmem⟩
    rw [show (outcome (ftRun (takesAt ⟨0, 0⟩ 9) byteCache [.get 1 blank, .get 2 blank]) smallCache
      (by decide +kernel)).2.clock = 8 by decide +kernel] at hleft hmem
    by_cases hi : 8 + i = 9
    · exact hleft i (by omega) hmem
    · simp [takesAt, hi] at hmem
  have hmiss := reclaim_is_miss_iff smallCache_new (by decide) (by decide) hrun
    (by decide : (1 : Key) ≠ 0) blank
  exact ⟨_, hrun, hmiss.1.mpr (hnot _), hmiss.2.mpr (hnot _)⟩

/-- The same page is taken after the first lock check: both calls end the process. -/
theorem reclaim_ends_process :
    ∃ s, ftRun (takesAt ⟨0, 0⟩ 11) byteCache [.get 1 blank, .get 2 blank] smallCache =
        .ok ((), s) ∧
      ftCacheGet (takesAt ⟨0, 0⟩ 11) byteCache 1 blank s = .error .fallthroughLockCheckFailed ∧
      ftCacheDrop (takesAt ⟨0, 0⟩ 11) 1 s = .error .lockCheckFailed :=
  ⟨_, run_eq_unit smallCache
      (ftRun (takesAt ⟨0, 0⟩ 11) byteCache [.get 1 blank, .get 2 blank]) (by decide +kernel),
    run_eq_error _ _ (by decide +kernel), run_eq_error _ _ (by decide +kernel)⟩

end LazyfreeCache.Reclaim
