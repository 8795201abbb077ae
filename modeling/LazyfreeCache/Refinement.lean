import LazyfreeCache.Events
import LazyfreeCache.FallthroughOps

/-!
Every function of the code acts as the list of events it logs: the state it
leaves is the replay of its events, and each event was allowed when it
happened. The lists are given function by function, so that later arguments
about runs never unfold the code.
-/
namespace LazyfreeCache.Refinement

open Bitset ProgramLogic EventReplay State LazyfreeOps FallthroughOps

/-- From `s` the machine reached `t` by the events `es`. -/
def Performs (s t : Sys) (es : List Event) : Prop :=
  t.toCore = replay Core.apply s.toCore es ∧ Along Core.apply Core.Enabled s.toCore es

theorem performs_refl (s : Sys) : Performs s s [] := ⟨rfl, trivial⟩

theorem Performs.trans {s t u : Sys} {es fs : List Event} (h : Performs s t es)
    (h' : Performs t u fs) : Performs s u (es ++ fs) := by
  refine ⟨?_, ?_⟩
  · rw [h'.1, h.1, replay_append]
  · rw [along_append, ← h.1]
    exact ⟨h.2, h'.2⟩

theorem performs_event {s t : Sys} {e : Event} (ht : t.toCore = s.toCore.apply e)
    (he : s.toCore.Enabled e) : Performs s t [e] := ⟨ht, he, trivial⟩

theorem Performs.trace {s t : Sys} {es : List Event} (h : Performs s t es) :
    t.trace = s.trace ++ es := by
  rw [show t.trace = t.toCore.trace from rfl, h.1, Core.trace_replay]

theorem Performs.handedOut {s t : Sys} {es : List Event} {d : EntryDescriptor}
    (h : Performs s t es) (hd : s.HandedOut d) : t.HandedOut d := by
  have := hd.replay es
  rwa [← h.1] at this

/-- The events between two states. -/
def newEvents (s t : Sys) : List Event := t.trace.drop s.trace.length

theorem newEvents_eq {s t : Sys} {es : List Event} (h : Performs s t es) : newEvents s t = es := by
  unfold newEvents
  rw [h.trace, List.drop_left]

/-! ### The kernel -/

theorem Page.reclaim_reclaim (p : Page) : p.reclaim.reclaim = p.reclaim := by
  unfold Page.reclaim
  split <;> simp_all

theorem mem_replay_reclaimed (s : Core) (ds : List EntryDescriptor) (d : EntryDescriptor) :
    (replay Core.apply s (ds.map .reclaimed)).mem d =
      if d ∈ ds then (s.mem d).reclaim else s.mem d := by
  induction ds generalizing s with
  | nil => simp
  | cons e ds ih =>
    rw [List.map_cons, replay_cons, ih]
    simp only [Core.mem_apply, Core.memStep, Function.update_apply, List.mem_cons]
    by_cases hde : d = e
    · subst hde
      simp [Page.reclaim_reclaim]
    · simp [hde]

theorem cache_replay_reclaimed (s : Core) (ds : List EntryDescriptor) :
    (replay Core.apply s (ds.map .reclaimed)).cache = s.cache := by
  refine replay_frame Core.cache (fun e => ∃ d, e = .reclaimed d) ?_ _ ?_
  · rintro t e ⟨d, rfl⟩
    rfl
  · intro e he
    obtain ⟨d, -, rfl⟩ := List.mem_map.mp he
    exact ⟨d, rfl⟩

/-- The pages the kernel takes at the next access. -/
def taken (env : Env) (s : Sys) : List EntryDescriptor :=
  (env.reclaim s.clock).filter fun d => (s.mem d).lazyfree

theorem lazyfree_reclaim (p : Page) : p.reclaim.lazyfree = p.lazyfree := by
  unfold Page.reclaim
  split <;> simp_all

theorem enabled_reclaimed (s : Core) (ds : List EntryDescriptor)
    (h : ∀ d ∈ ds, (s.mem d).lazyfree = true) :
    Along Core.apply Core.Enabled s (ds.map .reclaimed) := by
  induction ds generalizing s with
  | nil => trivial
  | cons d ds ih =>
    refine ⟨h d List.mem_cons_self, ih _ ?_⟩
    intro e he
    have hlazy := h e (List.mem_cons_of_mem d he)
    simp only [Core.mem_apply, Core.memStep, Function.update_apply]
    split
    · rename_i heq
      rw [lazyfree_reclaim, ← heq, hlazy]
    · exact hlazy

theorem performs_kernel (env : Env) (s : Sys) :
    Performs s (s.kernel env) ((taken env s).map .reclaimed) := by
  constructor
  · have hmem : (s.kernel env).mem =
        (replay Core.apply s.toCore ((taken env s).map .reclaimed)).mem := by
      funext d
      rw [mem_replay_reclaimed]
      unfold Sys.kernel taken Page.reclaim
      by_cases hd : d ∈ env.reclaim s.clock <;> by_cases hl : (s.mem d).lazyfree = true <;>
        simp [hd, hl]
    have hcache : (s.kernel env).cache =
        (replay Core.apply s.toCore ((taken env s).map .reclaimed)).cache := by
      rw [cache_replay_reclaimed]
      rfl
    have htrace : (s.kernel env).trace =
        (replay Core.apply s.toCore ((taken env s).map .reclaimed)).trace := by
      rw [Core.trace_replay]
      rfl
    rw [show (s.kernel env).toCore =
      ⟨(s.kernel env).cache, (s.kernel env).mem, (s.kernel env).trace⟩ from rfl,
      hmem, hcache, htrace]
  · apply enabled_reclaimed
    intro d hd
    simpa using (List.mem_filter.mp hd).2

/-- The machine after `n` accesses that store nothing. -/
def after (env : Env) (n : ℕ) (s : Sys) : Sys := (Sys.kernel env)^[n] s

@[simp] theorem after_zero (env : Env) (s : Sys) : after env 0 s = s := rfl

theorem after_one (env : Env) (s : Sys) : after env 1 s = s.kernel env := rfl

theorem after_succ (env : Env) (n : ℕ) (s : Sys) :
    after env (n + 1) s = after env n (s.kernel env) := rfl

theorem after_succ' (env : Env) (n : ℕ) (s : Sys) :
    after env (n + 1) s = (after env n s).kernel env :=
  Function.iterate_succ_apply' _ _ _

theorem after_after (env : Env) (m n : ℕ) (s : Sys) :
    after env m (after env n s) = after env (m + n) s :=
  (Function.iterate_add_apply _ m n s).symm

@[simp] theorem cache_after (env : Env) (n : ℕ) (s : Sys) : (after env n s).cache = s.cache := by
  induction n generalizing s with
  | zero => rfl
  | succ n ih => rw [after_succ, ih]; rfl

@[simp] theorem draws_after (env : Env) (n : ℕ) (s : Sys) : (after env n s).draws = s.draws := by
  induction n generalizing s with
  | zero => rfl
  | succ n ih => rw [after_succ, ih]; rfl

@[simp] theorem clock_after (env : Env) (n : ℕ) (s : Sys) :
    (after env n s).clock = s.clock + n := by
  induction n generalizing s with
  | zero => rfl
  | succ n ih => rw [after_succ, ih]; change s.clock + 1 + n = _; omega

/-- A page survives exactly the accesses before which the kernel left it alone. -/
theorem mem_after (env : Env) (n : ℕ) (s : Sys) (d : EntryDescriptor) :
    (after env n s).mem d =
      if ∃ j < n, d ∈ env.reclaim (s.clock + j) then (s.mem d).reclaim else s.mem d := by
  induction n with
  | zero => simp
  | succ n ih =>
    rw [after_succ']
    change (if d ∈ env.reclaim (after env n s).clock then ((after env n s).mem d).reclaim
      else (after env n s).mem d) = _
    rw [clock_after, ih]
    by_cases hbefore : ∃ j < n, d ∈ env.reclaim (s.clock + j)
    · have hnow : ∃ j < n + 1, d ∈ env.reclaim (s.clock + j) := by
        obtain ⟨j, hj, hd⟩ := hbefore
        exact ⟨j, by omega, hd⟩
      rw [if_pos hbefore, if_pos hnow, Page.reclaim_reclaim]
      split <;> rfl
    · rw [if_neg hbefore]
      by_cases hd : d ∈ env.reclaim (s.clock + n)
      · rw [if_pos hd, if_pos ⟨n, by omega, hd⟩]
      · have hnow : ¬ ∃ j < n + 1, d ∈ env.reclaim (s.clock + j) := by
          rintro ⟨j, hj, hmem⟩
          rcases Nat.lt_succ_iff_lt_or_eq.mp hj with hlt | rfl
          · exact hbefore ⟨j, hlt, hmem⟩
          · exact hd hmem
        rw [if_neg hd, if_neg hnow]

theorem performs_after (env : Env) (n : ℕ) (s : Sys) :
    ∃ ds : List EntryDescriptor, Performs s (after env n s) (ds.map .reclaimed) := by
  induction n generalizing s with
  | zero => exact ⟨[], performs_refl s⟩
  | succ n ih =>
    obtain ⟨ds, h⟩ := ih (s.kernel env)
    exact ⟨taken env s ++ ds, by
      rw [List.map_append]
      exact (performs_kernel env s).trans h⟩

end LazyfreeCache.Refinement
