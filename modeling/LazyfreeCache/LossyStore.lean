import Mathlib.Logic.Function.Basic

/-!
A store that may forget but does not lie, as its callers see it. A value is
written in a session on one key, which starts from the last value of the key
or from a blank one, and it counts once the session is committed. Whatever a
lookup finds has to be the last committed value; a lookup may always fail.
-/
namespace LazyfreeCache.LossyStore

/-- The values last committed, and the session that is open. -/
structure Store (κ ν : Type*) where
  latest : κ → Option ν
  session : Option (κ × ν)

inductive Action (κ ν : Type*)
  | idle
  /-- A session on the key that starts from its last value. -/
  | reopen (k : κ)
  /-- A session on the key that starts from `x`. -/
  | create (k : κ) (x : ν)
  | edit (f : ν → ν)
  | commit
  | abandon
  | discard (k : κ)

namespace Store

variable {κ ν : Type*} [DecidableEq κ]

def empty : Store κ ν := ⟨fun _ => none, none⟩

def step (s : Store κ ν) : Action κ ν → Store κ ν
  | .idle => s
  | .reopen k => { s with session := (s.latest k).map fun x => (k, x) }
  | .create k x => { s with session := some (k, x) }
  | .edit f => { s with session := s.session.map fun kx => (kx.1, f kx.2) }
  | .commit =>
    match s.session with
    | some (k, x) => ⟨Function.update s.latest k (some x), none⟩
    | none => s
  | .abandon =>
    match s.session with
    | some (k, _) => ⟨Function.update s.latest k none, none⟩
    | none => s
  | .discard k => { s with latest := Function.update s.latest k none }

/-- The action ends a session on the key or discards it. -/
def Settles (k : κ) (s : Store κ ν) : Action κ ν → Prop
  | .commit => ∃ x, s.session = some (k, x)
  | .abandon => ∃ x, s.session = some (k, x)
  | .discard k' => k' = k
  | _ => False

variable {s : Store κ ν} {k : κ} {x : ν} {a : Action κ ν}

/-- What does not settle the key leaves its last value. -/
theorem latest_step (h : ¬ s.Settles k a) : (s.step a).latest k = s.latest k := by
  cases a with
  | commit =>
    unfold step
    dsimp only
    split
    · rename_i k' x hsession
      have hne : k ≠ k' := by
        rintro rfl
        exact h ⟨x, hsession⟩
      exact Function.update_of_ne hne _ _
    · rfl
  | abandon =>
    unfold step
    dsimp only
    split
    · rename_i k' x hsession
      have hne : k ≠ k' := by
        rintro rfl
        exact h ⟨x, hsession⟩
      exact Function.update_of_ne hne _ _
    · rfl
  | discard k' => exact Function.update_of_ne (Ne.symm h) _ _
  | _ => rfl

theorem step_reopen (h : s.latest k = some x) : s.step (.reopen k) = ⟨s.latest, some (k, x)⟩ := by
  change (⟨s.latest, (s.latest k).map fun x => (k, x)⟩ : Store κ ν) = _
  rw [h]
  rfl

theorem step_edit (f : ν → ν) (h : s.session = some (k, x)) :
    s.step (.edit f) = ⟨s.latest, some (k, f x)⟩ := by
  change (⟨s.latest, s.session.map fun kx => (kx.1, f kx.2)⟩ : Store κ ν) = _
  rw [h]
  rfl

theorem step_edit_none (f : ν → ν) (h : s.session = none) : s.step (.edit f) = s := by
  obtain ⟨latest, session⟩ := s
  cases h
  rfl

theorem step_commit (h : s.session = some (k, x)) :
    s.step .commit = ⟨Function.update s.latest k (some x), none⟩ := by
  unfold step
  rw [h]

theorem step_abandon (h : s.session = some (k, x)) :
    s.step .abandon = ⟨Function.update s.latest k none, none⟩ := by
  unfold step
  rw [h]

/-- Only a commit of a session on the key settles it with a value. -/
theorem settles_value (h : s.Settles k a) (hx : (s.step a).latest k = some x) :
    a = .commit ∧ s.session = some (k, x) := by
  cases a with
  | commit =>
    obtain ⟨y, hsession⟩ := h
    rw [step_commit hsession] at hx
    cases (Function.update_self k (some y) s.latest).symm.trans hx
    exact ⟨rfl, hsession⟩
  | abandon =>
    obtain ⟨y, hsession⟩ := h
    rw [step_abandon hsession] at hx
    cases (Function.update_self k none s.latest).symm.trans hx
  | discard k' =>
    have hk : k' = k := h
    subst hk
    change Function.update s.latest k' none k' = some x at hx
    cases (Function.update_self k' none s.latest).symm.trans hx
  | _ => exact h.elim

end Store
end LazyfreeCache.LossyStore
