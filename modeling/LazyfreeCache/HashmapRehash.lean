import LazyfreeCache.HashmapContents
import Mathlib.Order.Interval.Finset.Nat

/-!
Rehashing in `hashmap.h`. The elements of a table move, in the order of their
slots, into one of twice the size. There the homes are apart by twice as much,
and every element finds a free slot near its own. So the puts that a rehash
makes never grow the new table, and a rehash below 2^31 slots never fails.
-/
namespace LazyfreeCache.Hashmap

open ReferenceSet

variable {κ β : Type} {m newM : HashmapS κ β} {data : ℕ → Option (HashmapElement κ β)} {key : κ}
  {value : β} {i n index L : ℕ}

/-! ### A slot for the key -/

section Helper
variable [DecidableEq κ]

theorem hashHelperLoop_eq_some {curr : ℕ} {firstFree : Option ℕ}
    (h : hashHelperLoop m key curr n i firstFree = some index) :
    (∃ e, m.data index = some e ∧ e.key = key) ∨
      ((∀ j e, i ≤ j → j < i + n → m.data (curr + j) = some e → e.key ≠ key) ∧
        (firstFree = some index ∨
          (m.data index = none ∧ curr + i ≤ index ∧ index < curr + i + n))) := by
  induction n generalizing i firstFree with
  | zero => exact .inr ⟨fun j e hij hj => by omega, .inl h⟩
  | succ n ih =>
    cases hdata : m.data (curr + i) with
    | none =>
      simp only [hashHelperLoop, hdata] at h
      rcases ih h with hfound | ⟨hmissing, hfree⟩
      · exact .inl hfound
      · refine .inr ⟨fun j e hij hj he => ?_, ?_⟩
        · by_cases hji : j = i
          · rw [hji, hdata] at he
            cases he
          · exact hmissing j e (by omega) (by omega) he
        · rcases hfree with hfirst | ⟨hnone, hlow, hhigh⟩
          · cases firstFree with
            | none =>
              obtain rfl : curr + i = index := Option.some.inj hfirst
              exact .inr ⟨hdata, by omega, by omega⟩
            | some f =>
              simp only [Option.some.injEq] at hfirst
              split at hfirst
              · exact .inl (by rw [hfirst])
              · cases hfirst
                exact .inr ⟨hdata, by omega, by omega⟩
          · exact .inr ⟨hnone, by omega, by omega⟩
    | some e =>
      simp only [hashHelperLoop, hdata] at h
      split at h
      · rename_i hkey
        cases h
        exact .inl ⟨e, hdata, hkey⟩
      · rename_i hkey
        rcases ih h with hfound | ⟨hmissing, hfree⟩
        · exact .inl hfound
        · refine .inr ⟨fun j e' hij hj he => ?_, ?_⟩
          · by_cases hji : j = i
            · rw [hji, hdata] at he
              cases he
              exact hkey
            · exact hmissing j e' (by omega) (by omega) he
          · rcases hfree with hfirst | ⟨hnone, hlow, hhigh⟩
            · exact .inl hfirst
            · exact .inr ⟨hnone, by omega, by omega⟩

theorem hashHelperLoop_eq_none {curr : ℕ} {firstFree : Option ℕ} :
    hashHelperLoop m key curr n i firstFree = none ↔ firstFree = none ∧
      ∀ j, i ≤ j → j < i + n → ∃ e, m.data (curr + j) = some e ∧ e.key ≠ key := by
  induction n generalizing i firstFree with
  | zero => exact ⟨fun h => ⟨h, fun j hij hj => by omega⟩, fun h => h.1⟩
  | succ n ih =>
    have hfirst : ∀ {P : ℕ → Prop}, (∀ j, i ≤ j → j < i + (n + 1) → P j) ↔
        P i ∧ ∀ j, i + 1 ≤ j → j < i + 1 + n → P j := by
      intro P
      refine ⟨fun h => ⟨h i (by omega) (by omega), fun j hij hj => h j (by omega) (by omega)⟩, ?_⟩
      rintro ⟨hi, hrest⟩ j hij hj
      by_cases hji : j = i
      · exact hji ▸ hi
      · exact hrest j (by omega) (by omega)
    rw [hfirst]
    cases hdata : m.data (curr + i) with
    | none => simp [hashHelperLoop, hdata, ih]
    | some e => by_cases hkey : e.key = key <;> simp [hashHelperLoop, hdata, hkey, ih]

/-- Once a free slot was seen, no other is given. -/
theorem hashHelperLoop_seen {curr f : ℕ} (hf : f < curr + i)
    (h : hashHelperLoop m key curr n i (some f) = some index) (hnone : m.data index = none) :
    index = f := by
  induction n generalizing i with
  | zero =>
    cases h
    rfl
  | succ n ih =>
    cases hdata : m.data (curr + i) with
    | none =>
      simp only [hashHelperLoop, hdata, if_pos hf] at h
      exact ih (by omega) h
    | some e =>
      simp only [hashHelperLoop, hdata] at h
      split at h
      · cases h
        cases hnone.symm.trans hdata
      · exact ih (by omega) h

/-- The free slot that is given is the first one. -/
theorem hashHelperLoop_first {curr : ℕ}
    (h : hashHelperLoop m key curr n i none = some index) (hnone : m.data index = none) :
    ∀ j, curr + i ≤ j → j < index → m.data j ≠ none := by
  induction n generalizing i with
  | zero => cases h
  | succ n ih =>
    intro j hij hj
    cases hdata : m.data (curr + i) with
    | none =>
      simp only [hashHelperLoop, hdata] at h
      have hseen := hashHelperLoop_seen (by omega) h hnone
      omega
    | some e =>
      simp only [hashHelperLoop, hdata] at h
      split at h
      · cases h
        cases hnone.symm.trans hdata
      · by_cases hji : j = curr + i
        · rw [hji, hdata]
          exact Option.some_ne_none e
        · exact ih h j (by omega) hj

theorem hashHelper_first (hslot : hashHelper m key = some index) (hnone : m.data index = none) :
    ∀ j, hashHelperInt m key ≤ j → j < index → m.data j ≠ none := by
  unfold hashHelper at hslot
  split at hslot
  · cases hslot
  · exact hashHelperLoop_first hslot hnone

/-- No slot: the table is full, or all slots near the key's home hold other keys. -/
theorem hashHelper_eq_none : hashHelper m key = none ↔ m.size = hashmapCapacity m ∨
    ∀ j < linearProbeLength, ∃ e, m.data (hashHelperInt m key + j) = some e ∧ e.key ≠ key := by
  unfold hashHelper hashmapNumEntries
  split
  · rename_i hfull
    exact iff_of_true rfl (.inl hfull)
  · rename_i hfull
    rw [hashHelperLoop_eq_none]
    simp [hfull]

variable [Zero κ]

/-- The slot that is found is near the home, and is the slot of the key or, where the key has
none, free. -/
theorem hashHelper_eq_some (h : Proper m) (hslot : hashHelper m key = some index) :
    m.size < hashmapCapacity m ∧ hashHelperInt m key ≤ index ∧
      index < hashHelperInt m key + linearProbeLength ∧
      (∀ e, m.data index = some e → e.key = key) ∧
      ∀ j e, m.data j = some e → e.key = key → j = index := by
  unfold hashHelper hashmapNumEntries at hslot
  split at hslot
  · cases hslot
  · rename_i hfull
    refine ⟨lt_of_le_of_ne h.size_le hfull, ?_⟩
    rcases hashHelperLoop_eq_some hslot with ⟨e, he, rfl⟩ | ⟨hmissing, hfree⟩
    · refine ⟨h.above index e he, h.below index e he, fun f hf => ?_, fun j f hj hkey => ?_⟩
      · rw [he] at hf
        cases hf
        rfl
      · exact h.distinct j index f e hj he hkey
    · rcases hfree with hnone | ⟨hnone, hlow, hhigh⟩
      · cases hnone
      · refine ⟨by omega, by omega, fun e he => ?_, fun j e hj hkey => ?_⟩
        · rw [hnone] at he
          cases he
        · subst hkey
          have habove := h.above j e hj
          have hbelow := h.below j e hj
          refine absurd rfl (hmissing (j - hashHelperInt m e.key) e (Nat.zero_le _) (by omega) ?_)
          rw [Nat.add_sub_cancel' habove]
          exact hj

theorem proper_setElement (h : Proper m) (hkey : key ≠ 0) (hslot : hashHelper m key = some index)
    (value : β) : Proper (m.setElement index key value) := by
  obtain ⟨hlt, hlow, hhigh, hi, hother⟩ := hashHelper_eq_some h hslot
  have hdata : ∀ {j e}, (m.setElement index key value).data j = some e →
      (j = index ∧ e.key = key) ∨ m.data j = some e := by
    intro j e hj
    change Function.update m.data index (some ⟨key, value⟩) j = some e at hj
    rw [Function.update_apply] at hj
    split at hj
    · rename_i hji
      cases hj
      exact .inl ⟨hji, rfl⟩
    · exact .inr hj
  have hmem : index < hashmapCapacity m + linearProbeLength := by
    have hhome := hashHelperInt_lt m key (by have := h.log2_le; omega)
    omega
  have hsize : (m.setElement index key value).size =
      (inUse (m.setElement index key value).data (hashmapCapacity m + linearProbeLength)).card := by
    change (if (m.data index).isSome then m.size else m.size + 1) =
      (inUse (Function.update m.data index (some ⟨key, value⟩)) _).card
    rw [inUse_update hmem]
    split
    · rename_i hsome
      rw [Finset.insert_eq_of_mem (mem_inUse.mpr ⟨hmem, hsome⟩), h.size_eq]
    · rename_i hnone
      rw [Finset.card_insert_of_notMem fun hin => hnone (mem_inUse.mp hin).2, h.size_eq]
  refine ⟨h.log2_pos, h.log2_le, fun j e hj => ?_, fun j e hj => ?_, fun j e hj => ?_,
    distinct_update h.distinct hother, hsize, ?_⟩
  · rcases hdata hj with ⟨-, hk⟩ | hj
    · exact hk ▸ hkey
    · exact h.nonnull j e hj
  · rcases hdata hj with ⟨rfl, hk⟩ | hj
    · change hashHelperInt m e.key ≤ j
      rw [hk]
      exact hlow
    · exact h.above j e hj
  · rcases hdata hj with ⟨rfl, hk⟩ | hj
    · change j < hashHelperInt m e.key + linearProbeLength
      rw [hk]
      exact hhigh
    · exact h.below j e hj
  · change (if (m.data index).isSome then m.size else m.size + 1) ≤ hashmapCapacity m
    split <;> omega

theorem contents_setElement (h : Proper m) (hslot : hashHelper m key = some index) (value : β) :
    contents (m.setElement index key value).data = (contents m.data).put key value := by
  obtain ⟨-, -, -, hi, hother⟩ := hashHelper_eq_some h hslot
  exact contents_update h.distinct hi hother

end Helper

/-! ### New tables -/

/-- The capacities that are rounded up are below 2^31. -/
theorem log2_lt_of_and_ne_zero {c : ℕ} (h : c ≤ 2 ^ 31) (hpos : c ≠ 0)
    (hand : c &&& (c - 1) ≠ 0) : Nat.log2 c < 31 := by
  rw [Nat.log2_lt hpos]
  refine lt_of_le_of_ne h fun heq => hand ?_
  rw [heq]
  decide

theorem log2_createEx (hasher : UInt32 → κ → UInt32) {initialCapacity : ℕ}
    (h : initialCapacity ≤ 2 ^ 31) :
    (hashmapCreateEx hasher initialCapacity : HashmapS κ β).log2Capacity =
      if 2 > initialCapacity then 1
      else if initialCapacity &&& (initialCapacity - 1) ≠ 0 then Nat.log2 initialCapacity + 1
      else Nat.log2 initialCapacity := by
  unfold hashmapCreateEx hashmapClz
  split
  · simp [*]
  · have hpos : initialCapacity ≠ 0 := by omega
    have hlog : Nat.log2 initialCapacity < 32 := (Nat.log2_lt hpos).mpr (by omega)
    split
    · rename_i hand
      have hless := log2_lt_of_and_ne_zero h hpos hand
      simp only [Nat.one_shiftLeft, Nat.log2_two_pow]
      omega
    · dsimp only
      omega

/-- A new table has a capacity of at least two and at most 2^31. -/
theorem log2_createEx_bounds (hasher : UInt32 → κ → UInt32) {initialCapacity : ℕ}
    (h : initialCapacity ≤ 2 ^ 31) :
    1 ≤ (hashmapCreateEx hasher initialCapacity : HashmapS κ β).log2Capacity ∧
      (hashmapCreateEx hasher initialCapacity : HashmapS κ β).log2Capacity ≤ 31 := by
  rw [log2_createEx hasher h]
  split
  · omega
  · have hpos : initialCapacity ≠ 0 := by omega
    have hlow : 1 ≤ Nat.log2 initialCapacity := (Nat.le_log2 hpos).mpr (by omega)
    have hlog : Nat.log2 initialCapacity < 32 := (Nat.log2_lt hpos).mpr (by omega)
    split
    · rename_i hand
      have hless := log2_lt_of_and_ne_zero h hpos hand
      omega
    · omega

theorem log2_createEx_two_pow (hasher : UInt32 → κ → UInt32) (hL : 1 ≤ L) (hL' : L ≤ 31) :
    (hashmapCreateEx hasher (2 ^ L) : HashmapS κ β).log2Capacity = L := by
  have htwo : ¬ 2 > 2 ^ L := by
    have hpow := Nat.pow_le_pow_right (show 0 < 2 by omega) hL
    omega
  have hand : 2 ^ L &&& (2 ^ L - 1) = 0 := by
    rw [Nat.and_two_pow_sub_one_eq_mod, Nat.mod_self]
  rw [log2_createEx hasher (Nat.pow_le_pow_right (by omega) hL'), if_neg htwo,
    if_neg (by simp [hand]), Nat.log2_two_pow]

theorem contents_empty : contents (fun _ => none : ℕ → Option (HashmapElement κ β)) =
    Residents.empty := by
  funext key
  exact contents_eq_none.mpr fun i e hi => by cases hi

theorem proper_createEx [Zero κ] (hasher : UInt32 → κ → UInt32) {initialCapacity : ℕ}
    (h : initialCapacity ≤ 2 ^ 31) :
    Proper (hashmapCreateEx hasher initialCapacity : HashmapS κ β) := by
  obtain ⟨hlow, hhigh⟩ := log2_createEx_bounds (β := β) hasher h
  have hinUse : ∀ n, inUse (fun _ => none : ℕ → Option (HashmapElement κ β)) n = ∅ := by
    intro n
    unfold inUse
    simp
  refine ⟨hlow, hhigh, fun i e hi => ?_, fun i e hi => ?_, fun i e hi => ?_,
    fun i j e f hi => ?_, ?_, Nat.zero_le _⟩
  · cases hi
  · cases hi
  · cases hi
  · cases hi
  · change 0 = (inUse (fun _ => none) _).card
    rw [hinUse, Finset.card_empty]

/-! ### Moving the elements -/

/-- The first `n` slots. -/
def firstSlots (data : ℕ → Option (HashmapElement κ β)) (n : ℕ) :
    ℕ → Option (HashmapElement κ β) :=
  fun i => if i < n then data i else none

theorem firstSlots_zero (data : ℕ → Option (HashmapElement κ β)) :
    firstSlots data 0 = fun _ => none := rfl

theorem firstSlots_succ (data : ℕ → Option (HashmapElement κ β)) (i : ℕ) :
    firstSlots data (i + 1) = Function.update (firstSlots data i) i (data i) := by
  funext j
  unfold firstSlots
  rw [Function.update_apply]
  by_cases hji : j = i
  · simp [hji]
  · rw [if_neg hji]
    by_cases hlt : j < i
    · rw [if_pos hlt, if_pos (by omega)]
    · rw [if_neg hlt, if_neg (by omega)]

theorem firstSlots_eq_some {e : HashmapElement κ β} {j : ℕ} :
    firstSlots data i j = some e ↔ j < i ∧ data j = some e := by
  unfold firstSlots
  split
  · rename_i hlt
    exact (and_iff_right hlt).symm
  · rename_i hlt
    exact iff_of_false (by simp) fun h => hlt h.1

theorem distinct_firstSlots (h : Distinct data) (i : ℕ) : Distinct (firstSlots data i) := by
  intro j j' e f hj hj' hkey
  exact h j j' e f (firstSlots_eq_some.mp hj).2 (firstSlots_eq_some.mp hj').2 hkey

/-- The element in the next slot is new to the slots before. -/
theorem Distinct.next (h : Distinct data) {e : HashmapElement κ β} (hi : data i = some e) :
    ∀ j f, firstSlots data i j = some f → f.key ≠ e.key := by
  intro j f hj hkey
  obtain ⟨hlt, hj⟩ := firstSlots_eq_some.mp hj
  have heq := h j i f e hj hi hkey
  omega

theorem contents_firstSlots_succ [DecidableEq κ] (h : Distinct data) {e : HashmapElement κ β}
    (hi : data i = some e) :
    contents (firstSlots data (i + 1)) = (contents (firstSlots data i)).put e.key e.data := by
  rw [firstSlots_succ, hi]
  refine contents_update (distinct_firstSlots h i) (fun f hf => ?_) fun j f hj hkey => ?_
  · exact absurd (firstSlots_eq_some.mp hf).1 (lt_irrefl i)
  · exact absurd hkey (h.next hi j f hj)

/-! ### Tables without gaps -/

/-- No slot between the home of an element and its own is free. -/
def Gapless (m : HashmapS κ β) : Prop :=
  ∀ i e, m.data i = some e → ∀ j, hashHelperInt m e.key ≤ j → j < i → m.data j ≠ none

theorem Gapless.setElement [DecidableEq κ] (h : Gapless m) (hslot : hashHelper m key = some index)
    (hnone : m.data index = none) (value : β) : Gapless (m.setElement index key value) := by
  have hkeeps : ∀ j, m.data j ≠ none → (m.setElement index key value).data j ≠ none := by
    intro j hj
    have hne : j ≠ index := fun hji => hj (hji ▸ hnone)
    change Function.update m.data index _ j ≠ none
    rwa [Function.update_of_ne hne]
  intro i e hi j hhome hj
  change Function.update m.data index (some ⟨key, value⟩) i = some e at hi
  rw [Function.update_apply] at hi
  split at hi
  · rename_i hindex
    cases hi
    exact hkeeps j (hashHelper_first hslot hnone j hhome (hindex ▸ hj))
  · exact hkeeps j (h i e hi j hhome hj)

/-- Where a run of slots in use starts. -/
theorem exists_run_start {a : ℕ} (hfull : ∀ j, a ≤ j → j < a + n → data j ≠ none) :
    ∃ b ≤ a, (∀ j, b ≤ j → j < a + n → data j ≠ none) ∧ (b = 0 ∨ data (b - 1) = none) := by
  induction a generalizing n with
  | zero => exact ⟨0, le_rfl, hfull, .inl rfl⟩
  | succ a ih =>
    by_cases hnone : data a = none
    · exact ⟨a + 1, le_rfl, hfull, .inr hnone⟩
    · obtain ⟨b, hb, hrun, hstart⟩ := ih (n := n + 1) fun j haj hj => by
        by_cases hja : j = a
        · exact hja ▸ hnone
        · exact hfull j (by omega) (by omega)
      exact ⟨b, by omega, fun j hbj hj => hrun j hbj (by omega), hstart⟩

/-- The keys of a run have their homes in it. -/
theorem Gapless.home_ge (h : Gapless m) {b : ℕ} (hstart : b = 0 ∨ m.data (b - 1) = none)
    {e : HashmapElement κ β} (hi : m.data i = some e) (hbi : b ≤ i) :
    b ≤ hashHelperInt m e.key := by
  by_contra hlt
  rcases hstart with rfl | hfree
  · exact hlt (Nat.zero_le _)
  · exact h i e hi (b - 1) (by omega) (by omega) hfree

/-- In a table of twice the size the homes are twice as far. -/
theorem hashHelperInt_double (hhasher : newM.hasher = m.hasher)
    (hlog2 : newM.log2Capacity = m.log2Capacity + 1) (hle : m.log2Capacity ≤ 31) (key : κ) :
    hashHelperInt newM key / 2 = hashHelperInt m key := by
  unfold hashHelperInt
  rw [hhasher, hlog2, show 32 - m.log2Capacity = 32 - (m.log2Capacity + 1) + 1 by omega,
    Nat.shiftRight_succ]

/-! ### The iteration -/

/-- `put` stores into the slot that `hashmap_hash_helper` finds. -/
def Stores [DecidableEq κ] [Zero κ] (put : HashmapS κ β → κ → β → ℕ × HashmapS κ β) : Prop :=
  ∀ m key value index, m.log2Capacity ≤ 31 → key ≠ 0 → hashHelper m key = some index →
    put m key value = (0, m.setElement index key value)

theorem card_inUse_lt {e : HashmapElement κ β} (hi : data i = some e) (hin : i < n) :
    (inUse data i).card < (inUse data n).card := by
  refine Finset.card_lt_card ((Finset.ssubset_iff_of_subset fun j hj => ?_).mpr ⟨i, ?_, ?_⟩)
  · rw [mem_inUse] at hj ⊢
    exact ⟨hj.1.trans hin, hj.2⟩
  · rw [mem_inUse, hi]
    exact ⟨hin, rfl⟩
  · rw [mem_inUse]
    exact fun h => lt_irrefl i h.1

/-- A table of 2^31 slots does not grow. -/
theorem rehashHelper_full {put : HashmapS κ β → κ → β → ℕ × HashmapS κ β}
    (hlog2 : m.log2Capacity = 31) : rehashHelper put m = (1, m) := by
  unfold rehashHelper hashmapCapacity
  rw [hlog2]
  rfl

theorem double_capacity (hlog2 : m.log2Capacity < 31) :
    hashmapCapacity m * 2 % 2 ^ 32 = 2 ^ (m.log2Capacity + 1) := by
  unfold hashmapCapacity
  rw [← Nat.pow_succ]
  exact Nat.mod_eq_of_lt (Nat.pow_lt_pow_right (by omega) (by omega))

section Moves
variable [Zero κ] {m₀ : HashmapS κ β} {e : HashmapElement κ β}
  {put put' : HashmapS κ β → κ → β → ℕ × HashmapS κ β}

/-- The elements of the first `i` slots of `m₀` were moved to `newM` and `m` has the others. -/
structure Moving (m₀ newM m : HashmapS κ β) (i : ℕ) : Prop where
  rest : ∀ j, i ≤ j → m.data j = m₀.data j
  proper : Proper newM
  hasher : newM.hasher = m₀.hasher
  log2 : newM.log2Capacity = m₀.log2Capacity + 1
  moved : contents newM.data = contents (firstSlots m₀.data i)
  size_le : newM.size ≤ (inUse m₀.data i).card
  gapless : Gapless newM

theorem moving_start (hlog2 : m.log2Capacity < 31) :
    Moving m (hashmapCreateEx m.hasher (2 ^ (m.log2Capacity + 1))) m 0 where
  rest _ _ := rfl
  proper := proper_createEx m.hasher (Nat.pow_le_pow_right (by omega) (by omega))
  hasher := rfl
  log2 := log2_createEx_two_pow m.hasher (by omega) (by omega)
  moved := by rw [firstSlots_zero]; rfl
  size_le := Nat.zero_le _
  gapless i e hi := by cases hi

theorem firstSlots_all (h : Proper m) :
    firstSlots m.data (hashmapCapacity m + linearProbeLength) = m.data := by
  funext i
  cases hi : m.data i with
  | none =>
    unfold firstSlots
    rw [hi, ite_self]
  | some e => exact firstSlots_eq_some.mpr ⟨h.lt hi, hi⟩

theorem Moving.skip (h : Moving m₀ newM m i) (hnone : m₀.data i = none) :
    Moving m₀ newM m (i + 1) := by
  have hfirst : firstSlots m₀.data (i + 1) = firstSlots m₀.data i := by
    rw [firstSlots_succ, hnone, Function.update_eq_self_iff]
    unfold firstSlots
    rw [if_neg (lt_irrefl i)]
  have huse : inUse m₀.data i ⊆ inUse m₀.data (i + 1) := fun j hj => by
    rw [mem_inUse] at hj ⊢
    exact ⟨by omega, hj.2⟩
  exact { h with
    rest := fun j hj => h.rest j (by omega)
    moved := by rw [hfirst, h.moved]
    size_le := h.size_le.trans (Finset.card_le_card huse) }

/-- What was moved came from an earlier slot, at or after half the new home. -/
theorem Moving.source (h : Moving m₀ newM m i) (hm₀ : Proper m₀) {j : ℕ}
    (hj : newM.data j = some e) :
    ∃ k < i, m₀.data k = some e ∧ hashHelperInt newM e.key / 2 ≤ k := by
  have hheld : contents newM.data e.key = some e.data :=
    (contents_eq_some h.proper.distinct).mpr ⟨j, hj⟩
  rw [h.moved, contents_eq_some (distinct_firstSlots hm₀.distinct i)] at hheld
  obtain ⟨k, hk⟩ := hheld
  obtain ⟨hlt, hk⟩ := firstSlots_eq_some.mp hk
  refine ⟨k, hlt, hk, ?_⟩
  rw [hashHelperInt_double h.hasher h.log2 hm₀.log2_le]
  exact hm₀.above k e hk

variable [DecidableEq κ]

/-- The next element finds a slot. If its eight were in use, so were all from some slot on that
follows a free one. The homes of the keys in these are at least that far, so the keys came from
old slots that are too few for them. -/
theorem Moving.finds (h : Moving m₀ newM m i) (hm₀ : Proper m₀) (hi : m₀.data i = some e) :
    ∃ index, hashHelper newM e.key = some index := by
  refine Option.ne_none_iff_exists'.mp fun hslot => ?_
  have hin := hm₀.lt hi
  rcases hashHelper_eq_none.mp hslot with hsize | hfull
  · have huse := card_inUse_lt hi hin
    have hle := h.size_le
    have hold := hm₀.size_le
    rw [hm₀.size_eq] at hold
    have hdouble : hashmapCapacity newM = hashmapCapacity m₀ * 2 := by
      unfold hashmapCapacity
      rw [h.log2, Nat.pow_succ]
    omega
  · have hbusy : ∀ j, hashHelperInt newM e.key ≤ j → j < hashHelperInt newM e.key + 8 →
        newM.data j ≠ none := by
      intro j hlow hhigh
      obtain ⟨f, hf, -⟩ := hfull (j - hashHelperInt newM e.key) (by
        rw [linearProbeLength_eq]
        omega)
      rw [Nat.add_sub_cancel' hlow] at hf
      rw [hf]
      exact Option.some_ne_none f
    obtain ⟨b, hb, hrun, hstart⟩ := exists_run_start hbusy
    have hsource : ∀ j, ∃ k, j ∈ Finset.Ico b (hashHelperInt newM e.key + 8) →
        k ∈ Finset.Ico (b / 2) i ∧ m₀.data k = newM.data j := by
      intro j
      by_cases hj : j ∈ Finset.Ico b (hashHelperInt newM e.key + 8)
      · obtain ⟨hlow, hhigh⟩ := Finset.mem_Ico.mp hj
        obtain ⟨f, hf⟩ := Option.ne_none_iff_exists'.mp (hrun j hlow hhigh)
        obtain ⟨k, hk, hdata, hhalf⟩ := h.source hm₀ hf
        have hhome := h.gapless.home_ge hstart hf hlow
        exact ⟨k, fun _ => ⟨Finset.mem_Ico.mpr ⟨by omega, hk⟩, hdata.trans hf.symm⟩⟩
      · exact ⟨0, fun hmem => absurd hmem hj⟩
    choose source hmem hdata using hsource
    have hcard := Finset.card_le_card_of_injOn source (fun j hj => hmem j hj) ?_
    · rw [Nat.card_Ico, Nat.card_Ico] at hcard
      have hhalf := hashHelperInt_double h.hasher h.log2 hm₀.log2_le e.key
      have hbelow := hm₀.below i e hi
      rw [linearProbeLength_eq] at hbelow
      omega
    · intro j hj j' hj' heq
      obtain ⟨hlow, hhigh⟩ := Finset.mem_Ico.mp hj
      obtain ⟨f, hf⟩ := Option.ne_none_iff_exists'.mp (hrun j hlow hhigh)
      have hf' : newM.data j' = some f := by
        rw [← hdata j' hj', ← heq, hdata j hj, hf]
      exact h.proper.distinct j j' f f hf hf' rfl

theorem Moving.move (h : Moving m₀ newM m i) (hm₀ : Proper m₀) (hi : m₀.data i = some e)
    (hslot : hashHelper newM e.key = some index) :
    Moving m₀ (newM.setElement index e.key e.data) (m.blank i) (i + 1) := by
  have hnew : contents newM.data e.key = none := by
    rw [h.moved, contents_eq_none]
    exact hm₀.distinct.next hi
  have hnone : newM.data index = none := by
    cases hdata : newM.data index with
    | none => rfl
    | some f =>
      have hkey := (hashHelper_eq_some h.proper hslot).2.2.2.1 f hdata
      exact absurd hkey (contents_eq_none.mp hnew index f hdata)
  exact {
    rest := fun j hj => by
      change Function.update m.data i none j = _
      rw [Function.update_of_ne (by omega), h.rest j (by omega)]
    proper := proper_setElement h.proper (hm₀.nonnull i e hi) hslot e.data
    hasher := h.hasher
    log2 := h.log2
    moved := by
      rw [contents_setElement h.proper hslot, h.moved, contents_firstSlots_succ hm₀.distinct hi]
    size_le := by
      have hless := card_inUse_lt hi (show i < i + 1 by omega)
      have hle := h.size_le
      change (if (newM.data index).isSome then newM.size else newM.size + 1) ≤ _
      split <;> omega
    gapless := h.gapless.setElement hslot hnone e.data }

theorem rehashIterator_stored (hput : Stores put) (h : Proper newM) (hkey : e.key ≠ 0)
    (hslot : hashHelper newM e.key = some index) :
    rehashIterator put newM e = (-1, newM.setElement index e.key e.data) := by
  unfold rehashIterator
  rw [hput newM e.key e.data index h.log2_le hkey hslot]
  rfl

/-- The iteration moves all elements. -/
theorem Moving.iterate (hput : Stores put) (hm₀ : Proper m₀) (h : Moving m₀ newM m i) (n : ℕ) :
    ∃ newM' m', iteratePairsLoop (rehashIterator put) n i newM m = (0, newM', m') ∧
      Moving m₀ newM' m' (i + n) := by
  induction n generalizing i newM m with
  | zero => exact ⟨newM, m, rfl, h⟩
  | succ n ih =>
    rw [show i + (n + 1) = i + 1 + n by omega]
    cases hdata : m₀.data i with
    | none =>
      simp only [iteratePairsLoop, h.rest i le_rfl, hdata]
      exact ih (h.skip hdata)
    | some e =>
      obtain ⟨index, hslot⟩ := h.finds hm₀ hdata
      simp only [iteratePairsLoop, h.rest i le_rfl, hdata,
        rehashIterator_stored hput h.proper (hm₀.nonnull i e hdata) hslot]
      exact ih (h.move hm₀ hdata hslot)

theorem Moving.iterate_congr (hput : Stores put) (hput' : Stores put') (hm₀ : Proper m₀)
    (h : Moving m₀ newM m i) (n : ℕ) :
    iteratePairsLoop (rehashIterator put) n i newM m =
      iteratePairsLoop (rehashIterator put') n i newM m := by
  induction n generalizing i newM m with
  | zero => rfl
  | succ n ih =>
    cases hdata : m₀.data i with
    | none =>
      simp only [iteratePairsLoop, h.rest i le_rfl, hdata]
      exact ih (h.skip hdata)
    | some e =>
      obtain ⟨index, hslot⟩ := h.finds hm₀ hdata
      have hkey := hm₀.nonnull i e hdata
      simp only [iteratePairsLoop, h.rest i le_rfl, hdata,
        rehashIterator_stored hput h.proper hkey hslot,
        rehashIterator_stored hput' h.proper hkey hslot]
      exact ih (h.move hm₀ hdata hslot)

/-- A table of fewer than 2^31 slots moves into one of twice the size. -/
theorem rehashHelper_spec (h : Proper m) (hlog2 : m.log2Capacity < 31) (hput : Stores put) :
    ∃ newM, rehashHelper put m = (0, newM) ∧ Proper newM ∧ newM.hasher = m.hasher ∧
      newM.log2Capacity = m.log2Capacity + 1 ∧ contents newM.data = contents m.data := by
  have hpos : 2 ^ (m.log2Capacity + 1) ≠ 0 := (Nat.two_pow_pos _).ne'
  unfold rehashHelper hashmapIteratePairs
  simp only [double_capacity hlog2, hpos, if_false]
  obtain ⟨newM, m', hrun, hmoving⟩ :=
    (moving_start hlog2).iterate hput h (hashmapCapacity m + linearProbeLength)
  rw [hrun]
  refine ⟨newM, rfl, hmoving.proper, hmoving.hasher, hmoving.log2, ?_⟩
  rw [hmoving.moved, Nat.zero_add, firstSlots_all h]

/-- The puts of a rehash never grow the new table, so it does not matter how they would. -/
theorem rehashHelper_congr (h : Proper m) (hlog2 : m.log2Capacity < 31) (hput : Stores put)
    (hput' : Stores put') : rehashHelper put m = rehashHelper put' m := by
  unfold rehashHelper hashmapIteratePairs
  dsimp only
  rw [double_capacity hlog2, (moving_start hlog2).iterate_congr hput hput' h]

end Moves

end LazyfreeCache.Hashmap
