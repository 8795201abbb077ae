import LazyfreeCache.ProgramLogic

/-!
Two programs that do the same from every state of an invariant which they keep.
The rules follow the shape of a program, so that a program with a parameter can
be compared with itself at another value of the parameter, access by access.
-/
namespace LazyfreeCache.Lockstep

open ProgramLogic

variable {σ ε α β ι : Type} {Inv : σ → Prop}

/-- Both programs do the same, and keep the invariant. -/
def Same (Inv : σ → Prop) (m m' : Prog σ ε α) : Prop :=
  ∀ s, Inv s → m s = m' s ∧ wp m (fun _ t => Inv t) (fun _ => True) s

theorem same_of_keeps {m : Prog σ ε α}
    (h : ∀ s, Inv s → wp m (fun _ t => Inv t) (fun _ => True) s) : Same Inv m m :=
  fun s hs => ⟨rfl, h s hs⟩

theorem same_pure (a : α) : Same Inv (pure a : Prog σ ε α) (pure a) := same_of_keeps fun _ hs => hs

theorem same_throw (e : ε) : Same Inv (throw e : Prog σ ε α) (throw e) :=
  same_of_keeps fun _ _ => trivial

theorem same_get : Same Inv (get : Prog σ ε σ) get := same_of_keeps fun _ hs => hs

theorem same_modify {f : σ → σ} (h : ∀ s, Inv s → Inv (f s)) :
    Same Inv (modify f : Prog σ ε PUnit) (modify f) := same_of_keeps h

theorem same_require (p : Prop) [Decidable p] (e : ε) :
    Same Inv (require p e : Prog σ ε Unit) (require p e) := by
  refine same_of_keeps fun s hs => ?_
  rw [wp_require]
  exact ⟨fun _ => hs, fun _ => trivial⟩

theorem same_bind {m m' : Prog σ ε β} {f f' : β → Prog σ ε α} (h : Same Inv m m')
    (hf : ∀ b, Same Inv (f b) (f' b)) : Same Inv (m >>= f) (m' >>= f') := by
  intro s hs
  obtain ⟨hm, hinv⟩ := h s hs
  cases hrun : m s with
  | error e =>
    rw [wp_bind, wp_of_error hrun, bind_of_error hrun, bind_of_error (hm.symm.trans hrun)]
    exact ⟨rfl, trivial⟩
  | ok r =>
    obtain ⟨b, t⟩ := r
    rw [wp_of_ok hrun] at hinv
    rw [wp_bind, wp_of_ok hrun, bind_of_ok hrun, bind_of_ok (hm.symm.trans hrun)]
    exact hf b t hinv

/-- What is read off the state comes from a state of the invariant. -/
theorem same_get_bind {f f' : σ → Prog σ ε α} (hf : ∀ s, Inv s → Same Inv (f s) (f' s)) :
    Same Inv (get >>= f) (get >>= f') := fun s hs => hf s hs s hs

theorem same_ite {p : Prop} [Decidable p] {m m' n n' : Prog σ ε α} (hm : Same Inv m m')
    (hn : Same Inv n n') : Same Inv (if p then m else n) (if p then m' else n') := by
  split
  · exact hm
  · exact hn

theorem same_runAll {exec exec' : ι → Prog σ ε Unit} (h : ∀ i, Same Inv (exec i) (exec' i)) :
    ∀ is, Same Inv (runAll exec is) (runAll exec' is)
  | [] => same_pure ()
  | i :: is => same_bind (h i) fun _ => same_runAll h is

end LazyfreeCache.Lockstep
