import Mathlib.Data.Set.Card

/-!
A store of bounded capacity as its callers see it: a set of resident keys, each
in one region. A get of a key that is not resident refills it, and when the
store is full one whole region is emptied first. Which region is emptied and
which one takes the key is left open. A working set that fits is refilled once
for each key.
-/
namespace LazyfreeCache.ReferenceSet

variable {κ γ : Type*}

/-- The resident keys, each with its region. -/
abbrev Residents (κ γ : Type*) := κ → Option γ

namespace Residents

def empty : Residents κ γ := fun _ => none

def keys (r : Residents κ γ) : Set κ := {k | r k ≠ none}

def put [DecidableEq κ] (r : Residents κ γ) (k : κ) (x : γ) : Residents κ γ :=
  Function.update r k (some x)

def remove [DecidableEq κ] (r : Residents κ γ) (k : κ) : Residents κ γ :=
  Function.update r k none

/-- Empty region `x`. -/
def clear [DecidableEq γ] (r : Residents κ γ) (x : γ) : Residents κ γ := fun k =>
  if r k = some x then none else r k

theorem mem_keys {r : Residents κ γ} {k : κ} : k ∈ r.keys ↔ r k ≠ none := Iff.rfl

theorem keys_empty : (empty : Residents κ γ).keys = ∅ := by
  simp [keys, empty]

theorem keys_remove [DecidableEq κ] (r : Residents κ γ) (k : κ) :
    (r.remove k).keys = r.keys \ {k} := by
  ext k'
  by_cases hk : k' = k <;> simp [keys, remove, hk]

theorem keys_put [DecidableEq κ] (r : Residents κ γ) (k : κ) (x : γ) :
    (r.put k x).keys = insert k r.keys := by
  ext k'
  by_cases hk : k' = k <;> simp [keys, put, hk]

end Residents

inductive Request (κ : Type*)
  | get (k : κ)
  | drop (k : κ)
  deriving DecidableEq

def Request.key : Request κ → κ
  | .get k => k
  | .drop k => k

/-- What a request did: the keys it refilled, the regions it emptied and, for a drop, whether
it found the key. -/
structure Outcome (κ γ : Type*) where
  refilled : List κ
  emptied : List γ
  found : Option Bool
  deriving DecidableEq

/-- The get found its key. -/
def Outcome.hit : Outcome κ γ := ⟨[], [], none⟩

/-- The get refilled its key and emptied no region. -/
def Outcome.fill (k : κ) : Outcome κ γ := ⟨[k], [], none⟩

section Steps
variable [DecidableEq κ] [DecidableEq γ]

inductive Step (capacity : ℕ) (r : Residents κ γ) :
    Request κ → Outcome κ γ → Residents κ γ → Prop
  | hit (k : κ) (h : k ∈ r.keys) : Step capacity r (.get k) .hit r
  | fill (k : κ) (x : γ) (h : k ∉ r.keys) (hfree : r.keys.ncard < capacity) :
      Step capacity r (.get k) (.fill k) (r.put k x)
  | replace (k : κ) (x y : γ) (h : k ∉ r.keys) (hfull : r.keys.ncard = capacity) :
      Step capacity r (.get k) ⟨[k], [x], none⟩ ((r.clear x).put k y)
  | found (k : κ) (h : k ∈ r.keys) : Step capacity r (.drop k) ⟨[], [], some true⟩ (r.remove k)
  | missing (k : κ) (h : k ∉ r.keys) : Step capacity r (.drop k) ⟨[], [], some false⟩ r

/-- A request, what it did and the residents that it left. -/
structure Entry (κ γ : Type*) where
  request : Request κ
  outcome : Outcome κ γ
  residents : Residents κ γ

/-- The entries of the log are steps, one after the other. -/
inductive Runs (capacity : ℕ) : Residents κ γ → List (Entry κ γ) → Prop
  | nil (r : Residents κ γ) : Runs capacity r []
  | cons {r : Residents κ γ} {p : Entry κ γ} {log : List (Entry κ γ)}
      (hstep : Step capacity r p.request p.outcome p.residents)
      (hruns : Runs capacity p.residents log) : Runs capacity r (p :: log)

variable {capacity : ℕ} {r t : Residents κ γ} {k : κ} {o : Outcome κ γ} {p : Entry κ γ}
  {log : List (Entry κ γ)} {K : Finset κ}

/-- A get leaves its key resident. -/
theorem Step.get_resident (hstep : Step capacity r (.get k) o t) : k ∈ t.keys := by
  cases hstep with
  | hit k h => exact h
  | fill k x h hfree =>
    rw [Residents.keys_put]
    exact Set.mem_insert k _
  | replace k x y h hfull =>
    rw [Residents.keys_put]
    exact Set.mem_insert k _

/-- Gets of keys from a working set that fits empty no region. -/
theorem Step.of_workingSet (hstep : Step capacity r (.get k) o t) (hK : K.card ≤ capacity)
    (hk : k ∈ K) (hr : r.keys ⊆ K) :
    t.keys = insert k r.keys ∧ (k ∈ r.keys → o = .hit) ∧ (k ∉ r.keys → o = .fill k) := by
  cases hstep with
  | hit k h => exact ⟨(Set.insert_eq_of_mem h).symm, fun _ => rfl, fun hne => absurd h hne⟩
  | fill k x h hfree => exact ⟨Residents.keys_put r k x, fun hmem => absurd hmem h, fun _ => rfl⟩
  | replace k x y h hfull =>
    have hlt : r.keys.ncard < (K : Set κ).ncard :=
      Set.ncard_lt_ncard ⟨hr, fun hsub => h (hsub hk)⟩ K.finite_toSet
    rw [Set.ncard_coe_finset] at hlt
    omega

/-- Requests for a working set that fits lose no key but by a drop. -/
theorem Step.keeps {q : Request κ} (hstep : Step capacity r q o t) (hK : K.card ≤ capacity)
    (hq : q.key ∈ K) (hr : r.keys ⊆ K) :
    o.emptied = [] ∧ t.keys ⊆ K ∧ (∀ k ∈ r.keys, q ≠ .drop k → k ∈ t.keys) ∧
      ∀ k, q = .get k → k ∈ t.keys := by
  cases q with
  | get k =>
    obtain ⟨hkeys, hhit, hfill⟩ := hstep.of_workingSet hK hq hr
    rw [hkeys]
    refine ⟨?_, Set.insert_subset hq hr, fun k' hk' _ => Set.mem_insert_of_mem k hk', ?_⟩
    · by_cases hk : k ∈ r.keys
      · rw [hhit hk]
        rfl
      · rw [hfill hk]
        rfl
    · rintro k' hget
      cases hget
      exact Set.mem_insert k r.keys
  | drop k =>
    cases hstep with
    | found k h =>
      rw [Residents.keys_remove]
      refine ⟨rfl, Set.sdiff_subset.trans hr, fun k' hk' hne => ⟨hk', fun heq => ?_⟩, by simp⟩
      exact hne (by rw [heq])
    | missing k h => exact ⟨rfl, hr, fun k' hk' _ => hk', by simp⟩

/-- A working set that fits is refilled once for each key, at its first get. -/
theorem Runs.of_workingSet (hruns : Runs capacity r log) (hK : K.card ≤ capacity)
    (hgets : ∀ p ∈ log, ∃ k ∈ K, p.request = .get k) (hr : r.keys ⊆ K)
    {left right : List (Entry κ γ)} (hsplit : log = left ++ p :: right) (hp : p.request = .get k) :
    (k ∈ r.keys ∨ .get k ∈ left.map Entry.request → p.outcome = .hit) ∧
      (¬ (k ∈ r.keys ∨ .get k ∈ left.map Entry.request) → p.outcome = .fill k) := by
  induction hruns generalizing left with
  | nil r => cases left <;> cases hsplit
  | cons hstep hruns ih =>
    rename_i q log
    obtain ⟨k', hk', hget⟩ := hgets q List.mem_cons_self
    rw [hget] at hstep
    obtain ⟨hkeys, hhit, hfill⟩ := hstep.of_workingSet hK hk' hr
    cases left with
    | nil =>
      obtain ⟨rfl, -⟩ := List.cons.inj hsplit
      obtain rfl : k' = k := Request.get.inj (hget.symm.trans hp)
      exact ⟨fun h => hhit (h.resolve_right (by simp)), fun h => hfill fun hmem => h (.inl hmem)⟩
    | cons p' left =>
      obtain ⟨rfl, htail⟩ := List.cons.inj hsplit
      have hsub : ∀ k ∈ insert k' _, k ∈ (K : Set κ) := Set.insert_subset hk' hr
      have hrest := ih (fun p hp => hgets p (List.mem_cons_of_mem _ hp)) (by rw [hkeys]; exact hsub)
        htail
      rw [hkeys, Set.mem_insert_iff, or_comm (a := k = k'), or_assoc] at hrest
      rw [List.map_cons, List.mem_cons, hget, Request.get.injEq]
      exact hrest

end Steps
end LazyfreeCache.ReferenceSet
