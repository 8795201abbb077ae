import Mathlib.Logic.Basic

/-!
Weakest preconditions for deterministic programs with a state and faults.
A program either returns a value with a new state or stops with a fault, and
`wp` speaks about both outcomes at once: the postcondition `Q` judges a
return and `E` judges a fault. Choosing `E` gives partial correctness
(every fault allowed), total correctness (none) or freedom from one fault.
-/
namespace LazyfreeCache.ProgramLogic

abbrev Prog (σ ε α : Type) := StateT σ (Except ε) α

variable {σ ε α β : Type}

def wp (m : Prog σ ε α) (Q : α → σ → Prop) (E : ε → Prop) (s : σ) : Prop :=
  match m s with
  | .ok (a, t) => Q a t
  | .error e => E e

/-- Stop with the fault `e` unless the condition holds. -/
def require (p : Prop) [Decidable p] (e : ε) : Prog σ ε Unit :=
  if p then pure () else throw e

section Rules
variable {Q Q' : α → σ → Prop} {E E' : ε → Prop} {s t : σ}

@[simp] theorem wp_pure (a : α) : wp (pure a : Prog σ ε α) Q E s ↔ Q a s := Iff.rfl

@[simp] theorem wp_bind (m : Prog σ ε β) (f : β → Prog σ ε α) :
    wp (m >>= f) Q E s ↔ wp m (fun b t => wp (f b) Q E t) E s := by
  simp only [wp, bind, StateT.bind, Except.bind]
  cases m s <;> rfl

@[simp] theorem wp_map (m : Prog σ ε β) (f : β → α) :
    wp (f <$> m) Q E s ↔ wp m (fun b t => Q (f b) t) E s := by
  simp only [wp, Functor.map, StateT.map, bind, Except.bind, pure, Except.pure]
  cases m s <;> rfl

@[simp] theorem wp_get {Q : σ → σ → Prop} : wp (get : Prog σ ε σ) Q E s ↔ Q s s := Iff.rfl

@[simp] theorem wp_modify {Q : PUnit → σ → Prop} (f : σ → σ) :
    wp (modify f : Prog σ ε PUnit) Q E s ↔ Q ⟨⟩ (f s) := Iff.rfl

@[simp] theorem wp_throw (e : ε) : wp (throw e : Prog σ ε α) Q E s ↔ E e := Iff.rfl

@[simp] theorem wp_require {Q : Unit → σ → Prop} (p : Prop) [Decidable p] (e : ε) :
    wp (require p e) Q E s ↔ (p → Q () s) ∧ (¬ p → E e) := by
  unfold require
  by_cases hp : p <;> simp [hp]

@[simp] theorem wp_ite (p : Prop) [Decidable p] (m n : Prog σ ε α) :
    wp (if p then m else n) Q E s ↔ (p → wp m Q E s) ∧ (¬ p → wp n Q E s) := by
  by_cases hp : p <;> simp [hp]

/-- The rule of consequence, for both outcomes. -/
theorem wp_mono {m : Prog σ ε α} (h : wp m Q E s)
    (hQ : ∀ a t, Q a t → Q' a t) (hE : ∀ e, E e → E' e) : wp m Q' E' s := by
  unfold wp at h ⊢
  cases hm : m s with
  | ok r =>
    rw [hm] at h
    exact hQ r.1 r.2 h
  | error e =>
    rw [hm] at h
    exact hE e h

theorem wp_of_ok {m : Prog σ ε α} {a : α} (hm : m s = .ok (a, t)) :
    wp m Q E s ↔ Q a t := by
  unfold wp
  rw [hm]

theorem wp_of_error {m : Prog σ ε α} {e : ε} (hm : m s = .error e) :
    wp m Q E s ↔ E e := by
  unfold wp
  rw [hm]

theorem wp_iff {m : Prog σ ε α} :
    wp m Q E s ↔ (∀ a t, m s = .ok (a, t) → Q a t) ∧ ∀ e, m s = .error e → E e := by
  cases hm : m s with
  | ok r =>
    rw [wp_of_ok hm]
    constructor
    · intro hQ
      refine ⟨fun a t h => ?_, fun e h => by cases h⟩
      cases h
      exact hQ
    · exact fun h => h.1 r.1 r.2 rfl
  | error e => simp [wp_of_error hm]

theorem bind_ok {m : Prog σ ε β} {f : β → Prog σ ε α} {a : α} :
    (m >>= f) s = .ok (a, t) ↔ ∃ b u, m s = .ok (b, u) ∧ f b u = .ok (a, t) := by
  simp only [bind, StateT.bind, Except.bind]
  cases hm : m s with
  | error e => simp
  | ok r =>
    constructor
    · exact fun h => ⟨r.1, r.2, rfl, h⟩
    · rintro ⟨b, u, hu, h⟩
      cases hu
      exact h

theorem bind_of_ok {m : Prog σ ε β} {f : β → Prog σ ε α} {b : β} (hm : m s = .ok (b, t)) :
    (m >>= f) s = f b t := by
  simp only [bind, StateT.bind, Except.bind, hm]

theorem bind_of_error {m : Prog σ ε β} {f : β → Prog σ ε α} {e : ε} (hm : m s = .error e) :
    (m >>= f) s = .error e := by
  simp only [bind, StateT.bind, Except.bind, hm]

theorem require_bind {p : Prop} [Decidable p] (hp : p) (e : ε) (f : Unit → Prog σ ε α) :
    (require p e >>= f) = f () := by
  unfold require
  rw [if_pos hp]
  rfl

/-- A program that cannot fault returns. -/
theorem returns_of_wp {m : Prog σ ε α} (h : wp m Q (fun _ => False) s) :
    ∃ a t, m s = .ok (a, t) ∧ Q a t := by
  cases hm : m s with
  | ok r => exact ⟨r.1, r.2, rfl, (wp_of_ok hm).mp h⟩
  | error e => exact ((wp_of_error hm).mp h).elim

end Rules

section Results
variable (m : Prog σ ε α) (s : σ)

/-- The value and the state of a program that is known to return. -/
def outcome (h : (m s).isOk = true) : α × σ :=
  match m s, h with
  | .ok r, _ => r

theorem run_eq (h : (m s).isOk = true) :
    m s = .ok ((outcome m s h).1, (outcome m s h).2) := by
  unfold outcome
  split
  rename_i hr _
  exact hr

theorem run_eq_unit (m : Prog σ ε Unit) (h : (m s).isOk = true) :
    m s = .ok ((), (outcome m s h).2) := run_eq m s h

/-- How the program stops, if it does. -/
def fault : Option ε :=
  match m s with
  | .ok _ => none
  | .error e => some e

theorem run_eq_error {e : ε} (h : fault m s = some e) : m s = .error e := by
  unfold fault at h
  split at h
  · cases h
  · rename_i e' he
    rw [he, Option.some.inj h]

end Results

section Runs
variable {ι : Type} (exec : ι → Prog σ ε Unit) {s t : σ}

/-- One program after the other, up to the first fault. -/
def runAll : List ι → Prog σ ε Unit
  | [] => pure ()
  | i :: is => do
    exec i
    runAll is

theorem runAll_cons_ok {i : ι} {is : List ι} :
    runAll exec (i :: is) s = .ok ((), t) ↔
      ∃ u, exec i s = .ok ((), u) ∧ runAll exec is u = .ok ((), t) := by
  change (exec i >>= fun _ => runAll exec is) s = .ok ((), t) ↔ _
  rw [bind_ok]
  exact ⟨fun ⟨_, u, hu, ht⟩ => ⟨u, hu, ht⟩, fun ⟨u, hu, ht⟩ => ⟨(), u, hu, ht⟩⟩

theorem runAll_append_ok {is js : List ι} :
    runAll exec (is ++ js) s = .ok ((), t) ↔
      ∃ u, runAll exec is s = .ok ((), u) ∧ runAll exec js u = .ok ((), t) := by
  induction is generalizing s with
  | nil =>
    constructor
    · exact fun h => ⟨s, rfl, h⟩
    · rintro ⟨u, hu, ht⟩
      cases hu
      exact ht
  | cons i is ih =>
    rw [List.cons_append, runAll_cons_ok]
    simp only [ih, runAll_cons_ok]
    constructor
    · rintro ⟨v, hv, u, hu, ht⟩
      exact ⟨u, ⟨v, hv, hu⟩, ht⟩
    · rintro ⟨u, ⟨v, hv, hu⟩, ht⟩
      exact ⟨v, hv, u, hu, ht⟩

/-- A run stops in a program of its own, and those before it return. -/
theorem runAll_error {is : List ι} {e : ε} :
    runAll exec is s = .error e ↔ ∃ left i right t, is = left ++ i :: right ∧
      runAll exec left s = .ok ((), t) ∧ exec i t = .error e := by
  induction is generalizing s with
  | nil =>
    constructor
    · intro h
      cases h
    · rintro ⟨left, i, right, t, h, -⟩
      cases left <;> cases h
  | cons j is ih =>
    have hcons : runAll exec (j :: is) s = (exec j >>= fun _ => runAll exec is) s := rfl
    constructor
    · intro h
      cases hj : exec j s with
      | error e' =>
        rw [hcons, bind_of_error hj] at h
        exact ⟨[], j, is, s, rfl, rfl, hj.trans h⟩
      | ok r =>
        obtain ⟨⟨⟩, u⟩ := r
        rw [hcons, bind_of_ok hj] at h
        obtain ⟨left, i, right, t, rfl, hleft, hi⟩ := ih.mp h
        exact ⟨j :: left, i, right, t, rfl, (runAll_cons_ok exec).mpr ⟨u, hj, hleft⟩, hi⟩
    · rintro ⟨left, i, right, t, h, hleft, hi⟩
      rw [hcons]
      cases left with
      | nil =>
        cases h
        cases hleft
        exact bind_of_error hi
      | cons j' left =>
        cases h
        obtain ⟨u, hj, hrest⟩ := (runAll_cons_ok exec).mp hleft
        rw [bind_of_ok hj]
        exact ih.mpr ⟨left, i, right, t, rfl, hrest, hi⟩

variable {exec}

/-- A relation that every program of the run keeps holds between the run's ends. -/
theorem runAll_induct {R : σ → σ → Prop} (hrefl : ∀ s, R s s)
    (htrans : ∀ s t u, R s t → R t u → R s u)
    {is : List ι} (hstep : ∀ i ∈ is, ∀ s t, exec i s = .ok ((), t) → R s t)
    (h : runAll exec is s = .ok ((), t)) : R s t := by
  induction is generalizing s with
  | nil =>
    cases h
    exact hrefl t
  | cons i is ih =>
    obtain ⟨u, hu, ht⟩ := (runAll_cons_ok exec).mp h
    exact htrans s u t (hstep i List.mem_cons_self s u hu)
      (ih (fun j hj => hstep j (List.mem_cons_of_mem i hj)) ht)

/-- The invariant rule for runs, with the faults they may end in. -/
theorem wp_runAll {Inv : σ → Prop} {E : ε → Prop} {is : List ι}
    (hstep : ∀ i ∈ is, ∀ s, Inv s → wp (exec i) (fun _ t => Inv t) E s) (hs : Inv s) :
    wp (runAll exec is) (fun _ t => Inv t) E s := by
  induction is generalizing s with
  | nil => exact hs
  | cons i is ih =>
    unfold runAll
    rw [wp_bind]
    exact wp_mono (hstep i List.mem_cons_self s hs)
      (fun _ t ht => ih (fun j hj => hstep j (List.mem_cons_of_mem i hj)) ht) (fun _ h => h)

/-- The invariant rule for a loop over the numbers below `n`. -/
theorem wp_runAll_range {exec : Nat → Prog σ ε Unit} {Inv : Nat → σ → Prop} {E : ε → Prop} {n : Nat}
    (hstep : ∀ i < n, ∀ s, Inv i s → wp (exec i) (fun _ t => Inv (i + 1) t) E s) (hs : Inv 0 s) :
    wp (runAll exec (List.range n)) (fun _ t => Inv n t) E s := by
  have hrest : ∀ m i, i + m = n → ∀ s, Inv i s →
      wp (runAll exec (List.range' i m)) (fun _ t => Inv n t) E s := by
    intro m
    induction m with
    | zero =>
      rintro i rfl s hs
      exact hs
    | succ m ih =>
      intro i hi s hs
      unfold runAll
      rw [List.range'_succ]
      dsimp only
      rw [wp_bind]
      exact wp_mono (hstep i (by omega) s hs) (fun _ t ht => ih (i + 1) (by omega) t ht)
        fun _ h => h
  rw [List.range_eq_range']
  exact hrest n 0 (Nat.zero_add n) s hs

end Runs
end LazyfreeCache.ProgramLogic
