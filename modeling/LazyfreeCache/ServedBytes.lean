import LazyfreeCache.FtRuns

/-!
The bytes that `ft_cache_get` serves. The invariant ties a key's page to its
refill: whenever a nonzero key can be read from a page, the window of its entry
holds what `refill_cb` gives. Events of other keys keep it, and the miss path
establishes it for its own key.
-/
namespace LazyfreeCache.ServedBytes

open ProgramLogic EventReplay State LazyfreeOps FallthroughOps Refinement Reads Allocation
open Writes Fallthrough Frames FallthroughEvents Accounting Client FtRuns

/-- Readable pages of nonzero keys hold what `refill_cb` gives. -/
def Faithful (ft : FtCache) (s : Sys) : Prop :=
  ∀ k, k ≠ 0 → ∀ d, Readable s.toCore k d → ∀ i < ft.entrySize,
    logical s.toCore d (pageSize - ft.entrySize + i) = ft.refillCb k i

variable {env : Env} {ft : FtCache} {key : Key} {value : Buffer} {s t u : Sys}
  {es : List Event} {d : EntryDescriptor}

/-- Events foreign to a key leave its bytes alone. -/
theorem served_of_foreign {k : Key} (hs : Faithful ft s) (hk : k ≠ 0) (hperf : Performs s t es)
    (hforeign : Along Core.apply (Foreign k) s.toCore es) (hread : Readable t.toCore k d) :
    ∀ i < ft.entrySize,
      logical t.toCore d (pageSize - ft.entrySize + i) = ft.refillCb k i := by
  rw [hperf.1] at hread ⊢
  obtain ⟨hbefore, hsame⟩ := readable_before_replay hk hforeign hread
  intro i hi
  rw [hsame.logical]
  exact hs k hk d hbefore i hi

theorem along_foreign {k : Key} (h : Along Core.apply (ActsFor key) s.toCore es)
    (hne : key ≠ k) : Along Core.apply (Foreign k) s.toCore es :=
  along_mono es h fun _ _ he => he.foreign hne

theorem foreign_reclaimed {k : Key} {s : Core} (hes : ∀ e ∈ es, ∃ p, e = Event.reclaimed p) :
    Along Core.apply (Foreign k) s es := by
  induction es generalizing s with
  | nil => trivial
  | cons e es ih =>
    obtain ⟨p, rfl⟩ := hes e List.mem_cons_self
    exact ⟨trivial, ih fun e he => hes e (List.mem_cons_of_mem _ he)⟩

theorem faithful_ftGot {v : Buffer} (hs : Idle s) (hfaith : Faithful ft s)
    (h : FtGot env ft key value s v t) : Faithful ft t := by
  intro k hk d hread
  cases h with
  | hit d' v hmapped halive hv =>
    obtain ⟨es, hes, hkind⟩ := acts_after env key (ft.entrySize + 7) s
    exact served_of_foreign hfaith hk hes.performs (foreign_reclaimed hkind) hread
  | miss n u j d' hn hmissing hu hfinds =>
    by_cases hkey : key = k
    · subst hkey
      obtain rfl := mapped_filled.unique hread.1
      exact fun i hi => logical_filled hi
    · obtain ⟨es, hes, -⟩ := ftGot_events (.miss n u j d' hn hmissing hu hfinds) hs.wlock
      exact served_of_foreign hfaith hk hes.performs (along_foreign hes.along hkey) hread

theorem faithful_ftDropped {b : Bool} (hs : Idle s) (hfaith : Faithful ft s)
    (h : FtDropped env key s b t) : Faithful ft t := by
  intro k hk d hread
  cases h with
  | miss n hn hmissing =>
    obtain ⟨es, hes, hkind⟩ := acts_after env key n s
    exact served_of_foreign hfaith hk hes.performs (foreign_reclaimed hkind) hread
  | hit d' hmapped halive hfree =>
    by_cases hkey : key = k
    · subst hkey
      have hmap := hread.1.1
      simp only [perform, Core.cache_apply, Cache.step, Cache.hmapGet_drop, cache_after,
        hmapped.2, hk, ne_eq, not_false_eq_true, and_self, if_true] at hmap
      cases hmap
    · obtain ⟨es, hes, -⟩ := ftDropped_events (.hit d' hmapped halive hfree) hs.wlock hs.handedOut
      exact served_of_foreign hfaith hk hes.performs (along_foreign hes.along hkey) hread

theorem faithful_ftStep {call : FtCall} (hs : Idle s) (hfaith : Faithful ft s)
    (h : FtStep env ft s call t) : Faithful ft t := by
  cases h with
  | get key value v t h => exact faithful_ftGot hs hfaith h
  | drop key b t h => exact faithful_ftDropped hs hfaith h

theorem faithful_of_created {l a : ℕ} (h : Created l a s) : Faithful ft s := by
  rintro k hk d ⟨⟨hmap, -⟩, -⟩
  rw [h.map] at hmap
  cases hmap

/-- The run lemma: in a run from the start the invariant holds. -/
theorem faithful_ftRun {l a : ℕ} (h : Created l a s) {calls : List FtCall}
    (hrun : ftRun env ft calls s = .ok ((), t)) : Idle t ∧ Faithful ft t :=
  ftRun_invariant (Faithful ft) (fun _ _ _ _ hs hinv h => faithful_ftStep hs hinv h)
    (idle_of_created h) (faithful_of_created h) hrun

theorem Faithful.serves (hfaith : Faithful ft s) (hkey : key ≠ 0) {v : Buffer}
    (h : FtGot env ft key value s v t) : ∀ i < ft.entrySize, v i = ft.refillCb key i := by
  cases h with
  | hit d v hmapped halive hv =>
    intro i hi
    rw [hv i hi]
    have hread : Readable s.toCore key d := ⟨hmapped, alive_of_alive_after halive⟩
    exact hfaith key hkey d hread i hi
  | miss n u j d => exact fun i hi => if_pos hi

/-- Every get of a nonzero key that returns serves what `refill_cb` gives. -/
theorem ftCacheGet_serves_refill {boot : Boot} {capacity l a d : ℕ} {s₀ : Sys}
    (hnew : lazyfreeCacheNewEx boot capacity l a d = .ok s₀) {calls : List FtCall}
    (hrun : ftRun env ft calls s₀ = .ok ((), s)) (hkey : key ≠ 0) {v : Buffer}
    (hget : ftCacheGet env ft key value s = .ok (v, t)) :
    ∀ i < ft.entrySize, v i = ft.refillCb key i := by
  obtain ⟨hs, hfaith⟩ := faithful_ftRun (created_of_new hnew).1 hrun
  exact hfaith.serves hkey (ftGot_of_ok hs hget)

/-- Key 5 is filled into a page of its own and served from there. -/
theorem ftCacheGet_serves_refill_hit :
    ∃ s v t, ftRun calm byteCache [.get 5 blank] smallCache = .ok ((), s) ∧
      ftCacheGet calm byteCache 5 blank s = .ok (v, t) ∧ v 0 = 5 := by
  have hrun := run_eq_unit smallCache (ftRun calm byteCache [.get 5 blank])
    (by decide +kernel)
  have hget := run_eq (ftCacheGet calm byteCache 5 blank)
    (outcome (ftRun calm byteCache [.get 5 blank]) smallCache (by decide +kernel)).2
    (by decide +kernel)
  exact ⟨_, _, _, hrun, hget,
    ftCacheGet_serves_refill smallCache_new hrun (by decide) hget 0 (by decide)⟩

end LazyfreeCache.ServedBytes
