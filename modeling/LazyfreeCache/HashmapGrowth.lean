import LazyfreeCache.HashmapRehash

/-!
Puts into a table of `hashmap.h`. A put stores its element in a free slot near
the key's home, or moves the table into one of twice the size first, as often
as it takes. A put that returns 0 adds its element and changes nothing else,
and one that returns 1 changes nothing.
-/
namespace LazyfreeCache.Hashmap

open ReferenceSet

variable {κ β : Type} [DecidableEq κ] [Zero κ] {m : HashmapS κ β} {key : κ} {value : β}

/-- What a put may do, for whatever it returns. -/
structure PutDone (m : HashmapS κ β) (key : κ) (value : β) (r : ℕ × HashmapS κ β) : Prop where
  proper : Proper r.2
  hasher : r.2.hasher = m.hasher
  stored : r.1 = 0 → contents r.2.data = (contents m.data).put key value
  refused : r.1 ≠ 0 → r.1 = 1 ∧ contents r.2.data = contents m.data ∧
    r.2.log2Capacity = 31 ∧ hashHelper r.2 key = none

theorem stores_fuel (fuel : ℕ) : Stores (hashmapPutFuel (fuel + 1) : HashmapS κ β → _) := by
  intro m key value index _ hkey hslot
  unfold hashmapPutFuel
  rw [if_neg hkey, hslot]

/-- Puts with enough fuel for the tables that can come. -/
theorem hashmapPutFuel_done {fuel : ℕ} (h : Proper m) (hfuel : 32 ≤ m.log2Capacity + fuel)
    (hkey : key ≠ 0) (value : β) : PutDone m key value (hashmapPutFuel fuel m key value) := by
  have hle := h.log2_le
  induction fuel generalizing m with
  | zero => omega
  | succ fuel ih =>
    cases hslot : hashHelper m key with
    | some index =>
      rw [stores_fuel fuel m key value index hle hkey hslot]
      exact ⟨proper_setElement h hkey hslot value, rfl, fun _ => contents_setElement h hslot value,
        fun hne => absurd rfl hne⟩
    | none =>
      unfold hashmapPutFuel
      rw [if_neg hkey, hslot]
      dsimp only
      by_cases hlog2 : m.log2Capacity = 31
      · rw [rehashHelper_full hlog2]
        exact ⟨h, rfl, fun hne => absurd hne one_ne_zero, fun _ => ⟨rfl, rfl, hlog2, hslot⟩⟩
      · cases fuel with
        | zero => omega
        | succ fuel =>
          obtain ⟨newM, hrun, hnew, hhasher, hgrown, hsame⟩ :=
            rehashHelper_spec h (by omega) (stores_fuel fuel)
          rw [hrun]
          have hdone := ih hnew (by omega) hnew.log2_le
          refine ⟨hdone.proper, hdone.hasher.trans hhasher, fun hcode => ?_, fun hcode => ?_⟩
          · rw [← hsame]
            exact hdone.stored hcode
          · rw [← hsame]
            exact hdone.refused hcode

theorem hashmapPut_done (h : Proper m) (hkey : key ≠ 0) (value : β) :
    PutDone m key value (hashmapPut m key value) :=
  hashmapPutFuel_done h (by have := h.log2_le; omega) hkey value

/-- What `hashmap_put` returns does not depend on the value. -/
theorem hashmapPutFuel_code (fuel : ℕ) (m : HashmapS κ β) (key : κ) (value value' : β) :
    (hashmapPutFuel fuel m key value).1 = (hashmapPutFuel fuel m key value').1 := by
  induction fuel generalizing m with
  | zero => rfl
  | succ fuel ih =>
    unfold hashmapPutFuel
    split
    · rfl
    · split
      · rfl
      · split
        split
        · rfl
        · exact ih _

theorem hashmapPut_code (m : HashmapS κ β) (key : κ) (value value' : β) :
    (hashmapPut m key value).1 = (hashmapPut m key value').1 :=
  hashmapPutFuel_code _ m key value value'

/-! ### The recursion ends -/

/-- More fuel than the tables can use makes no difference. -/
theorem hashmapPutFuel_eq {fuel fuel' : ℕ} (h : Proper m) (hfuel : 32 ≤ m.log2Capacity + fuel)
    (hfuel' : 32 ≤ m.log2Capacity + fuel') (key : κ) (value : β) :
    hashmapPutFuel fuel m key value = hashmapPutFuel fuel' m key value := by
  have hle := h.log2_le
  induction fuel generalizing fuel' m key value with
  | zero => omega
  | succ fuel ih =>
    cases fuel' with
    | zero => omega
    | succ fuel' =>
      unfold hashmapPutFuel
      split
      · rfl
      · cases hslot : hashHelper m key with
        | some index => rfl
        | none =>
          dsimp only
          by_cases hlog2 : m.log2Capacity = 31
          · rw [rehashHelper_full hlog2, rehashHelper_full hlog2]
            rfl
          · cases fuel with
            | zero => omega
            | succ fuel =>
              cases fuel' with
              | zero => omega
              | succ fuel' =>
                have hrehash := rehashHelper_congr h (by omega) (stores_fuel fuel)
                  (stores_fuel fuel')
                obtain ⟨newM, hrun, hnew, -, hgrown, -⟩ :=
                  rehashHelper_spec h (by omega) (stores_fuel fuel)
                rw [← hrehash, hrun]
                exact ih hnew (by omega) (by omega) key value hnew.log2_le

theorem stores_hashmapPut : Stores (hashmapPut : HashmapS κ β → _) := by
  intro m key value index hle hkey hslot
  unfold hashmapPut
  rw [show 32 - m.log2Capacity = 31 - m.log2Capacity + 1 by omega]
  exact stores_fuel _ m key value index hle hkey hslot

/-- The recursion of `hashmap_put` through the tables that it grows, without fuel. -/
theorem hashmapPut_rec (h : Proper m) (key : κ) (value : β) :
    hashmapPut m key value =
      if key = 0 then (1, m)
      else match hashHelper m key with
        | some index => (0, m.setElement index key value)
        | none =>
          match rehashHelper hashmapPut m with
          | (flag, m) => if flag ≠ 0 then (1, m) else hashmapPut m key value := by
  have hle := h.log2_le
  have hput : hashmapPut m key value = hashmapPutFuel (31 - m.log2Capacity + 1) m key value :=
    hashmapPutFuel_eq h (by omega) (by omega) key value
  rw [hput]
  unfold hashmapPutFuel
  split
  · rfl
  · rename_i hkey
    cases hslot : hashHelper m key with
    | some index => rfl
    | none =>
      dsimp only
      by_cases hlog2 : m.log2Capacity = 31
      · rw [rehashHelper_full hlog2, rehashHelper_full hlog2]
        rfl
      · have hfuel : Stores (hashmapPutFuel (31 - m.log2Capacity) : HashmapS κ β → _) := by
          rw [show 31 - m.log2Capacity = 30 - m.log2Capacity + 1 by omega]
          exact stores_fuel _
        obtain ⟨newM, hrun, hnew, -, hgrown, -⟩ := rehashHelper_spec h (by omega) hfuel
        rw [← rehashHelper_congr h (by omega) hfuel stores_hashmapPut, hrun]
        dsimp only
        exact hashmapPutFuel_eq hnew (by omega) (by omega) key value

/-- A table for two keys with two keys in it. -/
def fullTable : HashmapS UInt32 ℕ :=
  (hashmapPut (hashmapPut (hashmapCreateEx (fun seed key => seed + key) 2) 1 10).2 2 20).2

theorem proper_fullTable : Proper fullTable := by
  have hempty : Proper (hashmapCreateEx (fun seed key => seed + key) 2 : HashmapS UInt32 ℕ) :=
    proper_createEx _ (by decide)
  have hone := (hashmapPut_done hempty (by decide : (1 : UInt32) ≠ 0) 10).proper
  exact (hashmapPut_done hone (by decide) 20).proper

theorem hashmapPut_rec_full :
    hashmapPut fullTable 3 30 = match rehashHelper hashmapPut fullTable with
      | (flag, m) => if flag ≠ 0 then (1, m) else hashmapPut m 3 30 := by
  have hslot : hashHelper fullTable 3 = none := by decide +kernel
  rw [hashmapPut_rec proper_fullTable, if_neg (by decide), hslot]

/-- A rehash never fails and never grows the new table on the way: below 2^31 slots every element
finds a free slot among the eight after its new home. -/
theorem rehash_doubles (h : Proper m) (hlog2 : m.log2Capacity < 31) :
    ∃ newM, rehashHelper hashmapPut m = (0, newM) ∧ Proper newM ∧ newM.hasher = m.hasher ∧
      hashmapCapacity newM = 2 * hashmapCapacity m ∧ contents newM.data = contents m.data := by
  obtain ⟨newM, hrun, hnew, hhasher, hgrown, hsame⟩ := rehashHelper_spec h hlog2 stores_hashmapPut
  refine ⟨newM, hrun, hnew, hhasher, ?_, hsame⟩
  unfold hashmapCapacity
  rw [hgrown, Nat.pow_succ, Nat.mul_comm]

theorem rehash_doubles_full : ∃ newM, rehashHelper hashmapPut fullTable = (0, newM) ∧
    hashmapCapacity newM = 4 ∧ contents newM.data = contents fullTable.data := by
  obtain ⟨newM, hrun, -, -, hcapacity, hsame⟩ :=
    rehash_doubles proper_fullTable (by decide +kernel)
  exact ⟨newM, hrun, hcapacity.trans (by decide +kernel), hsame⟩

end LazyfreeCache.Hashmap
