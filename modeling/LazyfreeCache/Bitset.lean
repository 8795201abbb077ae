import Mathlib.Tactic.IntervalCases
import Mathlib.Data.Nat.Bitwise

/-!
The bit array of `bitset.h`: bits are packed eight to a byte and the bytes are
whatever `malloc` returned until they are written. Writing a bit leaves every
other bit alone, also the seven that share its byte.
-/
namespace LazyfreeCache.Bitset

/-- `bitset_t`, a block of bytes. -/
abbrev Bits := ℕ → UInt8

/-- `1 << (idx % 8)` -/
def bitMask (idx : ℕ) : UInt8 := 1 <<< UInt8.ofNat (idx % 8)

/-- The bytes that `bitset_new` allocates. -/
def bitsetNew (size : ℕ) : ℕ := (if size % 8 ≠ 0 then size + 8 else size) / 8

def bitsetPut (bitset : Bits) (idx : ℕ) (val : Bool) : Bits :=
  Function.update bitset (idx / 8)
    (if val then bitset (idx / 8) ||| bitMask idx
      else bitset (idx / 8) &&& ~~~ bitMask idx)

def bitsetGet (bitset : Bits) (idx : ℕ) : Bool :=
  bitset (idx / 8) &&& bitMask idx != 0

private theorem toNat_bitMask (idx : ℕ) : (bitMask idx).toNat = 2 ^ (idx % 8) := by
  have h : idx % 8 < 8 := Nat.mod_lt _ (by omega)
  unfold bitMask
  generalize idx % 8 = r at h
  interval_cases r <;> rfl

theorem and_bitMask_ne_zero (x : UInt8) (idx : ℕ) :
    x &&& bitMask idx ≠ 0 ↔ x.toNat.testBit (idx % 8) = true := by
  rw [ne_eq, ← UInt8.toNat_inj, UInt8.toNat_and, toNat_bitMask, Nat.and_two_pow]
  cases x.toNat.testBit (idx % 8) <;> simp

private theorem testBit_or_bitMask (x : UInt8) (i j : ℕ) :
    (x ||| bitMask i).toNat.testBit (j % 8) =
      (x.toNat.testBit (j % 8) || decide (i % 8 = j % 8)) := by
  rw [UInt8.toNat_or, Nat.testBit_or, toNat_bitMask, Nat.testBit_two_pow]

private theorem testBit_and_not_bitMask (x : UInt8) (i j : ℕ) :
    (x &&& ~~~ bitMask i).toNat.testBit (j % 8) =
      (x.toNat.testBit (j % 8) && decide (i % 8 ≠ j % 8)) := by
  have hi : i % 8 < 8 := Nat.mod_lt _ (by omega)
  have hj : j % 8 < 8 := Nat.mod_lt _ (by omega)
  rw [UInt8.toNat_and, Nat.testBit_and]
  congr 1
  unfold bitMask
  generalize i % 8 = r at hi
  generalize j % 8 = q at hj
  interval_cases r <;> interval_cases q <;> rfl

theorem bitsetGet_eq_testBit (bitset : Bits) (idx : ℕ) :
    bitsetGet bitset idx = (bitset (idx / 8)).toNat.testBit (idx % 8) := by
  unfold bitsetGet
  rw [Bool.eq_iff_iff, bne_iff_ne, and_bitMask_ne_zero]

/-- A written bit reads back, and every other bit reads as before. -/
@[simp] theorem bitsetGet_bitsetPut (bitset : Bits) (i j : ℕ) (val : Bool) :
    bitsetGet (bitsetPut bitset i val) j = if j = i then val else bitsetGet bitset j := by
  rw [bitsetGet_eq_testBit, bitsetGet_eq_testBit]
  unfold bitsetPut
  by_cases hbyte : j / 8 = i / 8
  · rw [hbyte, Function.update_self]
    by_cases hij : j = i
    · subst hij
      cases val with
      | false => simpa using testBit_and_not_bitMask (bitset (j / 8)) j j
      | true => simpa using testBit_or_bitMask (bitset (j / 8)) j j
    · have hbit : i % 8 ≠ j % 8 := by omega
      cases val with
      | false => simpa [hij, hbit] using testBit_and_not_bitMask (bitset (i / 8)) i j
      | true => simpa [hij, hbit] using testBit_or_bitMask (bitset (i / 8)) i j
  · have hij : j ≠ i := fun h => hbyte (by rw [h])
    rw [Function.update_of_ne hbyte, if_neg hij]

/-- Writing the bit that is there changes no byte. -/
theorem bitsetPut_bitsetGet (bitset : Bits) (idx : ℕ) :
    bitsetPut bitset idx (bitsetGet bitset idx) = bitset := by
  have hbits : ∀ j, bitsetGet (bitsetPut bitset idx (bitsetGet bitset idx)) j =
      bitsetGet bitset j := by
    intro j
    rw [bitsetGet_bitsetPut]
    split
    · rename_i hj
      rw [hj]
    · rfl
  funext b
  rw [← UInt8.toNat_inj]
  refine Nat.eq_of_testBit_eq fun r => ?_
  by_cases hr : r < 8
  · have hbit := hbits (8 * b + r)
    rw [bitsetGet_eq_testBit _ (8 * b + r), bitsetGet_eq_testBit _ (8 * b + r),
      show (8 * b + r) / 8 = b by omega, show (8 * b + r) % 8 = r by omega] at hbit
    exact hbit
  · have hpow : 2 ^ 8 ≤ 2 ^ r := Nat.pow_le_pow_right (by omega) (by omega)
    have hhigh : ∀ x : UInt8, x.toNat.testBit r = false := fun x =>
      Nat.testBit_lt_two_pow (x.toNat_lt.trans_le hpow)
    rw [hhigh, hhigh]

/-- The byte of every bit of the array was allocated. -/
theorem byte_lt_bitsetNew {idx size : ℕ} (h : idx < size) : idx / 8 < bitsetNew size := by
  unfold bitsetNew
  split <;> omega

/-! ### The last bit of a byte -/

private theorem uint8_forall {P : UInt8 → Prop} (h : ∀ b : BitVec 8, P ⟨b⟩) (x : UInt8) : P x :=
  h x.toBitVec

theorem or_one_ne_zero (x : UInt8) : x ||| 1 ≠ 0 := by
  revert x
  exact uint8_forall (by decide +kernel)

theorem or_one_of_odd (x : UInt8) : x &&& 1 ≠ 0 → x ||| 1 = x := by
  revert x
  exact uint8_forall (by decide +kernel)

theorem or_one_and_not_one (x : UInt8) : x &&& 1 = 0 → (x ||| 1) &&& ~~~ 1 = x := by
  revert x
  exact uint8_forall (by decide +kernel)

theorem and_not_one_of_even (x : UInt8) : x &&& 1 = 0 → x &&& ~~~ 1 = x := by
  revert x
  exact uint8_forall (by decide +kernel)

theorem or_one_odd (x : UInt8) : (x ||| 1) &&& 1 = 1 := by
  revert x
  exact uint8_forall (by decide +kernel)

end LazyfreeCache.Bitset
