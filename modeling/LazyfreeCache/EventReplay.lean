import Mathlib.Data.List.Basic

/-!
Systems that are explained by the list of events they performed. An event has
an effect on the state and a condition under which it may happen; replaying a
list of events gives the state reached, and a property that every allowed
event preserves holds after every allowed list. `Along` also carries extra
conditions on single steps, so that results about restricted runs are the
same kind of statement as results about all runs.
-/
namespace LazyfreeCache.EventReplay

variable {σ ε : Type*}

/-- The state after the events, in the order of the list. -/
def replay (apply : σ → ε → σ) (s : σ) (es : List ε) : σ := es.foldl apply s

/-- `P` holds of every event of the list together with the state before it. -/
def Along (apply : σ → ε → σ) (P : σ → ε → Prop) (s : σ) : List ε → Prop
  | [] => True
  | e :: es => P s e ∧ Along apply P (apply s e) es

variable {apply : σ → ε → σ} {P P' : σ → ε → Prop} {s : σ}

@[simp] theorem replay_nil : replay apply s [] = s := rfl

@[simp] theorem replay_cons (e : ε) (es : List ε) :
    replay apply s (e :: es) = replay apply (apply s e) es := rfl

@[simp] theorem replay_append (es fs : List ε) :
    replay apply s (es ++ fs) = replay apply (replay apply s es) fs :=
  List.foldl_append

@[simp] theorem along_nil : Along apply P s [] := trivial

@[simp] theorem along_cons (e : ε) (es : List ε) :
    Along apply P s (e :: es) ↔ P s e ∧ Along apply P (apply s e) es := Iff.rfl

@[simp] theorem along_append (es fs : List ε) :
    Along apply P s (es ++ fs) ↔
      Along apply P s es ∧ Along apply P (replay apply s es) fs := by
  induction es generalizing s with
  | nil => simp
  | cons e es ih => simp [ih, and_assoc]

theorem along_mono (es : List ε) (h : Along apply P s es)
    (hP : ∀ t e, P t e → P' t e) : Along apply P' s es := by
  induction es generalizing s with
  | nil => trivial
  | cons e es ih => exact ⟨hP s e h.1, ih h.2⟩

theorem along_of_forall (es : List ε) (h : ∀ e ∈ es, ∀ t, P t e) : Along apply P s es := by
  induction es generalizing s with
  | nil => trivial
  | cons e es ih =>
    exact ⟨h e List.mem_cons_self s, ih fun f hf => h f (List.mem_cons_of_mem e hf)⟩

theorem along_and (es : List ε) :
    Along apply (fun t e => P t e ∧ P' t e) s es ↔
      Along apply P s es ∧ Along apply P' s es := by
  induction es generalizing s with
  | nil => simp
  | cons e es ih =>
    simp only [along_cons, ih]
    tauto

instance decidableAlong (apply : σ → ε → σ) (P : σ → ε → Prop) [∀ s e, Decidable (P s e)] :
    ∀ (es : List ε) (s : σ), Decidable (Along apply P s es)
  | [], _ => isTrue trivial
  | e :: es, s =>
    have := decidableAlong apply P es (apply s e)
    inferInstanceAs (Decidable (P s e ∧ Along apply P (apply s e) es))

/-- `Along` says `P` at every position of the list. -/
theorem along_iff_split (es : List ε) :
    Along apply P s es ↔
      ∀ left e right, es = left ++ e :: right → P (replay apply s left) e := by
  induction es generalizing s with
  | nil => simp
  | cons e es ih =>
    rw [along_cons, ih]
    constructor
    · rintro ⟨he, hes⟩ left f right heq
      cases left with
      | nil =>
        obtain ⟨rfl, rfl⟩ := List.cons.inj heq
        exact he
      | cons g left =>
        obtain ⟨rfl, hrest⟩ := List.cons.inj heq
        exact hes left f right hrest
    · intro h
      refine ⟨h [] e es rfl, ?_⟩
      intro left f right heq
      exact h (e :: left) f right (by rw [heq]; rfl)

/-- The invariant rule: what each step keeps, the whole list keeps. -/
theorem replay_invariant (Inv : σ → Prop)
    (hstep : ∀ t e, Inv t → P t e → Inv (apply t e))
    (es : List ε) (hs : Inv s) (h : Along apply P s es) : Inv (replay apply s es) := by
  induction es generalizing s with
  | nil => exact hs
  | cons e es ih => exact ih (hstep s e hs h.1) h.2

/-- An invariant may be used at every step of the list it is kept along. -/
theorem along_of_invariant (Inv : σ → Prop)
    (hstep : ∀ t e, Inv t → P t e → Inv (apply t e))
    (hP : ∀ t e, Inv t → P t e → P' t e)
    (es : List ε) (hs : Inv s) (h : Along apply P s es) : Along apply P' s es := by
  induction es generalizing s with
  | nil => trivial
  | cons e es ih => exact ⟨hP s e hs h.1, ih (hstep s e hs h.1) h.2⟩

/-- A quantity that no event of the list changes is the same at the end. -/
theorem replay_frame {γ : Type*} (view : σ → γ) (quiet : ε → Prop)
    (hstep : ∀ t e, quiet e → view (apply t e) = view t)
    (es : List ε) (h : ∀ e ∈ es, quiet e) : view (replay apply s es) = view s := by
  induction es generalizing s with
  | nil => rfl
  | cons e es ih =>
    rw [replay_cons, ih (fun f hf => h f (List.mem_cons_of_mem e hf))]
    exact hstep s e (h e List.mem_cons_self)

end LazyfreeCache.EventReplay
