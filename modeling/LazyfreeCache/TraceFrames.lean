import LazyfreeCache.Writes

/-!
What the steps of the code leave out of the trace. The accesses of a call log
reclaims and stores only, the search for a page evictions and advised chunks
only, so most calls can be seen to log no event of some kind without listing
what they log.
-/
namespace LazyfreeCache.TraceFrames

open ProgramLogic EventReplay State LazyfreeOps Refinement Reads Allocation Writes

/-- No event of kind `P` was logged between `s` and `t`. -/
def Lacks (P : Event → Prop) (s t : Sys) : Prop :=
  ∃ es, t.trace = s.trace ++ es ∧ ∀ e ∈ es, ¬ P e

variable {P : Event → Prop} {env : Env} {s t u : Sys} {d : EntryDescriptor}

theorem lacks_refl (P : Event → Prop) (s : Sys) : Lacks P s s := ⟨[], by simp, by simp⟩

theorem Lacks.trans (h : Lacks P s t) (h' : Lacks P t u) : Lacks P s u := by
  obtain ⟨es, hes, hnone⟩ := h
  obtain ⟨fs, hfs, hnone'⟩ := h'
  refine ⟨es ++ fs, by rw [hfs, hes, List.append_assoc], fun e he => ?_⟩
  exact (List.mem_append.mp he).elim (hnone e) (hnone' e)

theorem Lacks.not_mem {e : Event} (h : Lacks P s t) (he : P e) : e ∉ newEvents s t := by
  obtain ⟨es, hes, hnone⟩ := h
  unfold newEvents
  rw [hes, List.drop_left]
  exact fun hmem => hnone e hmem he

theorem Lacks.mem_perform (h : Lacks P s t) (e : Event) : e ∈ newEvents s (perform t e) := by
  obtain ⟨es, hes, -⟩ := h
  have htrace : (perform t e).trace = s.trace ++ (es ++ [e]) := by
    rw [← List.append_assoc, ← hes]
    rfl
  unfold newEvents
  rw [htrace, List.drop_left]
  simp

theorem lacks_perform (s : Sys) {e : Event} (h : ¬ P e) : Lacks P s (perform s e) :=
  ⟨[e], rfl, fun f hf => by rwa [List.mem_singleton.mp hf]⟩

/-- No access logs an event of kind `P`. -/
structure Unaccessed (P : Event → Prop) : Prop where
  reclaimed : ∀ d, ¬ P (.reclaimed d)
  stored : ∀ d offset v, ¬ P (.stored d offset v)

/-- No search for a page logs an event of kind `P`. -/
structure Unsearched (P : Event → Prop) : Prop where
  evicted : ∀ c, ¬ P (.evicted c)
  advised : ∀ c, ¬ P (.advised c)

section Accesses
variable (hP : Unaccessed P)
include hP

theorem lacks_after (env : Env) (n : ℕ) (s : Sys) : Lacks P s (after env n s) := by
  obtain ⟨ds, hds⟩ := performs_after env n s
  refine ⟨_, hds.trace, fun e he => ?_⟩
  obtain ⟨d, -, rfl⟩ := List.mem_map.mp he
  exact hP.reclaimed d

theorem lacks_storing (env : Env) (s : Sys) (d : EntryDescriptor) (offset : ℕ) (v : UInt8) :
    Lacks P s (storing env s d offset v) :=
  (lacks_after hP env 1 s).trans (lacks_perform _ (hP.stored d offset v))

theorem lacks_pinned (env : Env) (s : Sys) (d : EntryDescriptor) : Lacks P s (pinned env s d) :=
  ((lacks_after hP env 1 s).trans (lacks_storing hP env _ d 0 1)).trans (lacks_after hP env 1 _)

theorem lacks_unpinned (env : Env) (s : Sys) (d : EntryDescriptor) :
    Lacks P s (unpinned env s d) :=
  (lacks_pinned hP env s d).trans (lacks_storing hP env _ d 0 0)

theorem lacks_restored (env : Env) (s : Sys) (d : EntryDescriptor) :
    Lacks P s (restored env s d) :=
  (lacks_pinned hP env s d).trans (lacks_storing hP env _ d 0 _)

theorem lacks_tailOpened (env : Env) (s : Sys) (d : EntryDescriptor) :
    Lacks P s (tailOpened env s d) := by
  unfold tailOpened
  split
  · exact lacks_refl P s
  · exact (lacks_after hP env 1 s).trans (lacks_storing hP env _ _ _ _)

theorem lacks_upgradedTo (hup : ∀ d w, ¬ P (.upgraded d w)) (env : Env) (s : Sys)
    (d : EntryDescriptor) (key : Key) : Lacks P s (upgradedTo env s d key) :=
  ((lacks_restored hP env s d).trans (lacks_perform _ (hup d _))).trans
    (lacks_tailOpened hP env _ _)

theorem lacks_sealed (hcommit : ∀ w bit, ¬ P (.committed w bit)) (env : Env) (s : Sys)
    (w : WLock) : Lacks P s (sealed env s w) :=
  ((lacks_after hP env 2 s).trans (lacks_storing hP env _ _ _ _)).trans
    (lacks_perform _ (hcommit w _))

theorem lacks_copying (env : Env) (offset : ℕ) (value : Buffer) (n i : ℕ) (s : Sys) :
    Lacks P s (copying env d offset value n i s) := by
  induction n generalizing i s with
  | zero => exact lacks_refl P s
  | succ n ih => exact (lacks_storing hP env s _ _ _).trans (ih (i + 1) _)

end Accesses

theorem lacks_searched (hP : Unsearched P) (env : Env) (s : Sys) (j : ℕ) :
    Lacks P s (searched env s j) := by
  induction j with
  | zero =>
    change Lacks P s (opened env s)
    unfold opened
    split
    · exact lacks_perform s (hP.evicted _)
    · exact lacks_refl P s
  | succ j ih =>
    have hnext : searched env s (j + 1) =
        perform (searched env s j) (.advised (searched env s j).cache.currentChunkIdx) :=
      advanced_succ' j _
    rw [hnext]
    exact ih.trans (lacks_perform _ (hP.advised _))

end LazyfreeCache.TraceFrames
