import LazyfreeCache.ServedBytes
import LazyfreeCache.Slots

/-!
What happens to a key after its page was freed. While no write lock for the key
was released without drop, the map does not lead to a slot of the key, so reads
give the empty page. This needs that `cache_drop` never meets a slot with the
key 0: `hmap_remove` ignores that key, and the slot may even be free already.
-/
namespace LazyfreeCache.Resurrection

open ProgramLogic EventReplay State LazyfreeOps FallthroughOps Refinement Reads Allocation
open Writes Fallthrough Frames FallthroughEvents Accounting Client Slots FtRuns

/-- The step does not free the page of key 0, which `hmap_remove` would leave in
`key0`. An eviction of it matters to key 0 only. -/
def KeepsKeyZero (k : Key) (s : Core) : Event → Prop
  | .dropped _ key => key ≠ 0
  | .evicted c => k = 0 → ∀ d, s.cache.Mapped 0 d → d.chunk ≠ c
  | _ => True

/-- The page of key `k` is freed by `cache_drop` or by `drop_next_chunk`. -/
def Frees (k : Key) (s : Core) (e : Event) : Prop :=
  (∃ d, e = .dropped d k) ∨ ∃ d, s.cache.Mapped k d ∧ e = .evicted d.chunk

/-- Key `k` has no slot, except one that is still being written. -/
def Away (k : Key) (s : Core) : Prop :=
  ∀ d, s.cache.Mapped k d → s.cache.wlock = some ⟨d, k⟩

theorem KeepsKeyZero.dropsKey {k : Key} {s : Core} {e : Event} (h : KeepsKeyZero k s e) :
    DropsKey e := by
  cases e <;> first | exact h | trivial

/-- Only an allocation for `k` maps it, and only a commit ends the write to it. -/
theorem away_step {k : Key} (hk : k ≠ 0) (s : Core) (e : Event) (h : Away k s)
    (henabled : s.Enabled e) (hcommit : ∀ d bit, e ≠ .committed ⟨d, k⟩ bit) :
    Away k (s.apply e) := by
  intro d hmapped
  have hmissing : s.cache.wlock = none → ¬ s.cache.Mapped k d := fun hw hd => by
    cases hw.symm.trans (h d hd)
  obtain ⟨hmap, hlabel⟩ := hmapped
  cases e with
  | refill key => exact h d ⟨hmap, hlabel⟩
  | reclaimed p => exact h d ⟨hmap, hlabel⟩
  | stored p offset v => exact h d ⟨hmap, hlabel⟩
  | advised c => exact h d ⟨hmap, hlabel⟩
  | evicted c =>
    simp only [Core.cache_apply, Cache.step, Cache.hmapGet_evict, Cache.label_evict] at hmap hlabel
    split at hmap
    · cases hmap
    · split at hlabel
      · exact absurd hlabel.symm hk
      · exact absurd ⟨hmap, hlabel⟩ (hmissing henabled.1)
  | allocated p key =>
    simp only [Core.cache_apply, Cache.step, Cache.hmapGet_allocate, Cache.label_allocate]
      at hmap hlabel
    split at hmap
    · rename_i hkey
      rw [hkey, ← Option.some.inj hmap]
      rfl
    · rename_i hkey
      split at hlabel
      · exact absurd hlabel.symm hkey
      · exact absurd ⟨hmap, hlabel⟩ (hmissing henabled.1)
  | upgraded p w => exact absurd ⟨hmap, hlabel⟩ (hmissing henabled.1)
  | committed w bit =>
    simp only [Core.cache_apply, Cache.step, Cache.hmapGet_commit, Cache.label_commit]
      at hmap hlabel
    have hw : some w = some ⟨d, k⟩ := henabled.symm.trans (h d ⟨hmap, hlabel⟩)
    exact absurd (by rw [Option.some.inj hw]) (hcommit d bit)
  | dropped p key =>
    simp only [Core.cache_apply, Cache.step, Cache.hmapGet_drop, Cache.label_drop] at hmap hlabel
    split at hmap
    · cases hmap
    · split at hlabel
      · exact absurd hlabel.symm hk
      · rename_i hpd
        rcases henabled.2.2 with ⟨hw, -⟩ | ⟨k', hw⟩
        · exact absurd ⟨hmap, hlabel⟩ (hmissing hw)
        · have hslot := Option.some.inj (hw.symm.trans (h d ⟨hmap, hlabel⟩))
          exact absurd (congrArg WLock.slot hslot).symm hpd

/-- Freeing the page unmaps the key, unless the key is 0. -/
theorem away_of_frees {k : Key} {s : Core} {e : Event} (h : WellFormed s)
    (henabled : s.Enabled e) (hkeep : KeepsKeyZero k s e) (hfrees : Frees k s e) :
    k ≠ 0 ∧ Away k (s.apply e) := by
  rcases hfrees with ⟨d, rfl⟩ | ⟨d, hmapped, rfl⟩
  · refine ⟨hkeep, ?_⟩
    rintro p ⟨hmap, -⟩
    have hd : s.cache.label d = k := henabled.1
    simp only [Core.cache_apply, Cache.step, Cache.hmapGet_drop] at hmap
    rw [if_pos ⟨hkeep, hd.symm⟩] at hmap
    cases hmap
  · have hk : k ≠ 0 := by
      rintro rfl
      exact hkeep rfl d hmapped rfl
    refine ⟨hk, ?_⟩
    rintro p ⟨hmap, -⟩
    have hlt := h.map_lt hk hmapped.1
    simp only [Core.cache_apply, Cache.step, Cache.hmapGet_evict] at hmap
    rw [if_pos ⟨hk, d.index, hlt, hmapped.2⟩] at hmap
    cases hmap

/-- The cache answers as if `k` was never stored. -/
def Forgotten (env : Env) (ft : FtCache) (k : Key) (s : Sys) : Prop :=
  (∀ lock, lock.key = k → ∃ L t, lazyfreeReadLock env lock s = .ok (L, t) ∧ L.head = .emptyPage) ∧
  (∃ t, ftCacheDrop env k s = .ok (false, t)) ∧
  ∀ value, ∃ v t es, ftCacheGet env ft k value s = .ok (v, t) ∧ t.trace = s.trace ++ es ∧
    Event.refill k ∈ es ∧ ∀ i < ft.entrySize, v i = ft.refillCb k i

variable {env : Env} {ft : FtCache} {k : Key} {s : Sys}

/-- An unmapped key is answered from nowhere. -/
theorem forgotten_of_unmapped (hs : Idle s) (hpages : 1 ≤ s.cache.pagesPerChunk)
    (hmissing : ∀ d, ¬ s.cache.Mapped k d) : Forgotten env ft k s := by
  refine ⟨?_, ?_, ?_⟩
  · rintro lock rfl
    refine returns_of_wp (wp_readLock hs.wlock ?_)
    intro L t hL
    cases hL with
    | miss hkey hhead => exact hhead
    | gone d hkey hhead => exact hhead
    | hit d hkey hhead hmapped => exact absurd hmapped (hmissing d)
  · have hwp : wp (ftCacheDrop env k) (fun b _ => b = false) (fun _ => False) s := by
      refine wp_mono (ftCacheDrop_spec env k s hs.wlock (hs.index_lt k)) ?_ ?_
      · intro b t h
        cases h with
        | miss => rfl
        | hit d hmapped => exact absurd hmapped (hmissing d)
      · intro e h
        cases h with
        | torn d hmapped => exact absurd hmapped (hmissing d)
        | overflow d hmapped => exact absurd hmapped (hmissing d)
    obtain ⟨b, t, hrun, rfl⟩ := returns_of_wp hwp
    exact ⟨t, hrun⟩
  · intro value
    have hwp : wp (ftCacheGet env ft k value) (FtGot env ft k value s) (fun _ => False) s :=
      wp_mono (ftCacheGet_torn hs hpages) (fun _ _ h => h)
        (fun _ ⟨d, hmapped, _⟩ => hmissing d hmapped)
    obtain ⟨v, t, hrun, hgot⟩ := returns_of_wp hwp
    obtain ⟨es, hes, hevents⟩ := ftGot_events hgot hs.wlock
    refine ⟨v, t, es, hrun, hes.performs.trace, ?_, ?_⟩
    · cases hevents with
      | hit d es hmapped => exact absurd hmapped (hmissing d)
      | miss => simp
    · cases hgot with
      | hit d v hmapped => exact absurd hmapped (hmissing d)
      | miss => exact fun i hi => if_pos hi

/-- After its page was freed a key stays forgotten until it is committed again. -/
theorem forgotten_until_committed {boot : Boot} {capacity l a d : ℕ} {s₀ : Sys}
    (hnew : lazyfreeCacheNewEx boot capacity l a d = .ok s₀) {calls : List Call} {p : Process}
    (hrun : run env ft calls (start s₀) = .ok ((), p))
    (hkeep : Along Core.apply (KeepsKeyZero k) s₀.toCore p.sys.trace)
    {before later : List Event} {e : Event} (htrace : p.sys.trace = before ++ e :: later)
    (hfrees : Frees k (replay Core.apply s₀.toCore before) e)
    (hcommit : ∀ d bit, Event.committed ⟨d, k⟩ bit ∉ later)
    (hw : p.sys.cache.wlock = none) : Forgotten env ft k p.sys := by
  have hcreated := (created_of_new hnew).1
  obtain ⟨hsound, -⟩ := run_sound hcreated.sound hrun
  obtain ⟨⟨hreplay, henabled⟩, -⟩ := run_replay hcreated (fun _ => rfl) hrun
  rw [htrace] at hreplay henabled hkeep
  rw [along_append, along_cons] at henabled hkeep
  obtain ⟨henBefore, hen, henLater⟩ := henabled
  obtain ⟨hkeepBefore, hkeepNow, -⟩ := hkeep
  have hwell : WellFormed (replay Core.apply s₀.toCore before) :=
    replay_invariant WellFormed (fun t e ht he => wellFormed_step t e ht he.1 he.2.dropsKey) before
      (wellFormed_of_created hcreated) ((along_and before).mpr ⟨henBefore, hkeepBefore⟩)
  obtain ⟨hk, haway⟩ := away_of_frees hwell hen hkeepNow hfrees
  have hlater : Away k p.sys.toCore := by
    rw [hreplay, replay_append]
    refine replay_invariant (Away k) (fun t e ht he => away_step hk t e ht he.1 he.2) later haway
      ((along_and later).mpr ⟨henLater, along_of_forall later ?_⟩)
    intro e he _ d bit heq
    exact hcommit d bit (heq ▸ he)
  have hhanded : ∃ d, (replay Core.apply s₀.toCore before).HandedOut d := by
    rcases hfrees with ⟨d, rfl⟩ | ⟨d, hmapped, rfl⟩
    · rcases hen.2.2 with ⟨-, hd⟩ | ⟨_, hd⟩
      · exact ⟨d, hd⟩
      · exact ⟨d, hwell.accounted.wlock_handed _ hd⟩
    · exact ⟨d, hwell.accounted.map_handed k d hmapped.1⟩
  obtain ⟨d, hd⟩ := hhanded
  have hlt := hsound.accounted.handed_lt d (by
    rw [hreplay, replay_append]
    exact hd.replay _)
  refine forgotten_of_unmapped ⟨hsound.accounted, hw⟩ (Nat.one_le_of_lt hlt) ?_
  intro d hmapped
  cases hw.symm.trans (hlater d hmapped)

/-- Key 1 is filled and dropped, and its slot goes to key 2. -/
theorem forgotten_after_drop :
    ∃ p, run calm byteCache [.ftGet 1, .ftDrop 1, .ftGet 2] (start smallCache) = .ok ((), p) ∧
      Forgotten calm byteCache 1 p.sys := by
  have hrun := run_eq_unit (start smallCache)
    (run calm byteCache [.ftGet 1, .ftDrop 1, .ftGet 2]) (by decide +kernel)
  have htrace : (outcome (run calm byteCache [.ftGet 1, .ftDrop 1, .ftGet 2]) (start smallCache)
      (by decide +kernel)).2.sys.trace =
      [.refill 1, .allocated ⟨0, 0⟩ 1, .stored ⟨0, 0⟩ 4095 1, .stored ⟨0, 0⟩ 4095 1,
        .committed ⟨⟨0, 0⟩, 1⟩ true] ++ .dropped ⟨0, 0⟩ 1 ::
      [.refill 2, .allocated ⟨0, 0⟩ 2, .stored ⟨0, 0⟩ 4095 2, .stored ⟨0, 0⟩ 4095 3,
        .committed ⟨⟨0, 0⟩, 2⟩ false] := by decide +kernel
  refine ⟨_, hrun, forgotten_until_committed smallCache_new hrun ?_ htrace (.inl ⟨_, rfl⟩) ?_ ?_⟩
  · rw [htrace]
    exact along_of_forall _ (by simp [KeepsKeyZero])
  · simp
  · decide +kernel

/-- Key 0 comes back: after its page was dropped a read lock still finds it. -/
theorem key_zero_comes_back :
    ∃ p before, run calm byteCache [.ftGet 0, .ftDrop 0] (start smallCache) = .ok ((), p) ∧
      p.sys.trace = before ++ [.dropped ⟨0, 0⟩ 0] ∧ p.sys.cache.wlock = none ∧
      ¬ Forgotten calm byteCache 0 p.sys := by
  have hrun := run_eq_unit (start smallCache) (run calm byteCache [.ftGet 0, .ftDrop 0])
    (by decide +kernel)
  have hlock := run_eq (lazyfreeReadLock calm (.fresh 0)) (outcome
    (run calm byteCache [.ftGet 0, .ftDrop 0]) (start smallCache) (by decide +kernel)).2.sys
    (by decide +kernel)
  refine ⟨_, [.refill 0, .allocated ⟨0, 0⟩ 0, .stored ⟨0, 0⟩ 4095 0, .stored ⟨0, 0⟩ 4095 1,
    .committed ⟨⟨0, 0⟩, 0⟩ false], hrun, by decide +kernel, by decide +kernel, ?_⟩
  rintro ⟨hread, -⟩
  obtain ⟨L, t, hL, hhead⟩ := hread (.fresh 0) rfl
  have heq := hlock.symm.trans hL
  injection heq with heq
  have hpage : (outcome (lazyfreeReadLock calm (.fresh 0)) (outcome
    (run calm byteCache [.ftGet 0, .ftDrop 0]) (start smallCache) (by decide +kernel)).2.sys
    (by decide +kernel)).1.head = .page ⟨0, 0⟩ := by decide +kernel
  rw [congrArg Prod.fst heq, hhead] at hpage
  cases hpage

end LazyfreeCache.Resurrection
