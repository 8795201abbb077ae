import Mathlib.Data.Nat.ModEq
import Mathlib.Data.Nat.Prime.Basic
import Mathlib.Data.Set.Card
import Mathlib.Logic.Function.Iterate

/-!
Mixing functions on machine words. A word can be recovered from its exclusive
or with itself shifted right, and from its product with an odd word, so a chain
of such steps is a permutation. Read modulo a divisor of the number of words,
a permutation takes every value equally often.
-/
namespace LazyfreeCache.Mixing

variable {w : ℕ} {α β : Type*}

/-- The bits come back from the top: bit `i` is masked by bit `i + k` only. -/
theorem xorShiftRight_injective {k : ℕ} (hk : 0 < k) :
    Function.Injective fun x : BitVec w => x ^^^ (x >>> k) := by
  intro x y h
  have hbit : ∀ i, (x.getLsbD i ^^ x.getLsbD (k + i)) = (y.getLsbD i ^^ y.getLsbD (k + i)) := by
    intro i
    simpa using congrArg (fun z : BitVec w => z.getLsbD i) h
  have hfrom : ∀ n i, w ≤ i + n → x.getLsbD i = y.getLsbD i := by
    intro n
    induction n with
    | zero =>
      intro i hi
      rw [BitVec.getLsbD_of_ge x i hi, BitVec.getLsbD_of_ge y i hi]
    | succ n ih =>
      intro i hi
      have hmask := hbit i
      rw [ih (k + i) (by omega)] at hmask
      exact Bool.xor_left_inj.mp hmask
  exact BitVec.eq_of_getLsbD_eq fun i hi => hfrom w i (by omega)

theorem mul_odd_injective {c : BitVec w} (hc : c.toNat % 2 = 1) :
    Function.Injective fun x : BitVec w => x * c := by
  intro x y h
  have hmod : x.toNat * c.toNat ≡ y.toNat * c.toNat [MOD 2 ^ w] := by
    have htoNat := congrArg BitVec.toNat h
    rwa [BitVec.toNat_mul, BitVec.toNat_mul] at htoNat
  have hcoprime : Nat.Coprime (2 ^ w) c.toNat :=
    Nat.Coprime.pow_left w (Nat.coprime_two_left.mpr (Nat.odd_iff.mpr hc))
  exact BitVec.eq_of_toNat_eq (Nat.ModEq.eq_of_lt_of_lt
    (Nat.ModEq.cancel_right_of_coprime hcoprime hmod) x.isLt y.isLt)

/-! ### Counting -/

/-- The function takes every value `n` times. -/
def Balanced (g : α → β) (n : ℕ) : Prop := ∀ b, {a | g a = b}.ncard = n

theorem balanced_id : Balanced (id : α → α) 1 := fun b => Set.ncard_singleton b

theorem Balanced.comp [Finite α] {g : α → β} {n : ℕ} (hg : Balanced g n) {f : α → α}
    (hf : Function.Injective f) : Balanced (fun a => g (f a)) n := by
  intro b
  have hsurj := Finite.surjective_of_injective hf
  have himage : {a | g a = b} = f '' {a | g (f a) = b} := by
    ext a
    constructor
    · intro ha
      obtain ⟨a', rfl⟩ := hsurj a
      exact ⟨a', ha, rfl⟩
    · rintro ⟨a', ha', rfl⟩
      exact ha'
  rw [← hg b, himage, Set.ncard_image_of_injective _ hf]

theorem Balanced.ncard_preimage [Finite α] {g : α → β} {n : ℕ} (hg : Balanced g n) {S : Set β}
    (hS : S.Finite) : {a | g a ∈ S}.ncard = n * S.ncard := by
  induction S, hS using Set.Finite.induction_on with
  | empty => simp
  | @insert b S hb hS ih =>
    have hsplit : {a | g a ∈ insert b S} = {a | g a = b} ∪ {a | g a ∈ S} := rfl
    have hdisjoint : Disjoint {a | g a = b} {a | g a ∈ S} := by
      rw [Set.disjoint_left]
      intro a ha hmem
      exact hb (ha ▸ hmem)
    rw [hsplit, Set.ncard_union_eq hdisjoint, hg b, ih, Set.ncard_insert_of_notMem hb hS,
      Nat.mul_succ, Nat.add_comm]

/-- Every remainder occurs equally often among the words. -/
theorem ncard_mod_eq {n m : ℕ} (hnm : n * m = 2 ^ w) (r : Fin n) :
    {x : BitVec w | x.toNat % n = r.val}.ncard = m := by
  have hlt : ∀ i < m, r.val + n * i < 2 ^ w := by
    intro i hi
    have hle : n * (i + 1) ≤ n * m := Nat.mul_le_mul_left n hi
    rw [Nat.mul_succ] at hle
    have hr := r.isLt
    omega
  have hword : ∀ i < m, (BitVec.ofNat w (r.val + n * i)).toNat = r.val + n * i := fun i hi => by
    rw [BitVec.toNat_ofNat, Nat.mod_eq_of_lt (hlt i hi)]
  have himage : {x : BitVec w | x.toNat % n = r.val} =
      (fun i => BitVec.ofNat w (r.val + n * i)) '' (Finset.range m : Set ℕ) := by
    ext x
    constructor
    · intro hx
      have hx' : x.toNat % n = r.val := hx
      refine ⟨x.toNat / n, ?_, ?_⟩
      · rw [Finset.coe_range, Set.mem_Iio]
        exact Nat.div_lt_of_lt_mul (hnm ▸ x.isLt)
      · dsimp only
        rw [← hx', Nat.mod_add_div, BitVec.ofNat_toNat, BitVec.setWidth_eq]
    · rintro ⟨i, hi, rfl⟩
      change (BitVec.ofNat w (r.val + n * i)).toNat % n = r.val
      rw [hword i (Finset.mem_range.mp hi), Nat.add_mul_mod_self_left, Nat.mod_eq_of_lt r.isLt]
  have hinj : Set.InjOn (fun i => BitVec.ofNat w (r.val + n * i)) (Finset.range m : Set ℕ) := by
    intro i hi j hj hij
    have htoNat := congrArg BitVec.toNat hij
    dsimp only at htoNat
    rw [hword i (Finset.mem_range.mp hi), hword j (Finset.mem_range.mp hj)] at htoNat
    exact Nat.eq_of_mul_eq_mul_left r.pos (Nat.add_left_cancel htoNat)
  rw [himage, hinj.ncard_image, Set.ncard_coe_finset, Finset.card_range]

/-! ### 64-bit words -/

theorem toBitVec_bijective : Function.Bijective UInt64.toBitVec :=
  ⟨fun _ _ h => UInt64.toBitVec_inj.mp h, fun x => ⟨⟨x⟩, rfl⟩⟩

instance finite_uint64 : Finite UInt64 :=
  Finite.of_injective UInt64.toFin fun _ _ h => UInt64.toFin_inj.mp h

theorem uint64_xorShiftRight_injective {k : UInt64} (hk : 0 < k.toNat) (hlt : k.toNat < 64) :
    Function.Injective fun z : UInt64 => z ^^^ (z >>> k) := by
  intro x y h
  have hshift : ∀ z : UInt64,
      (z ^^^ (z >>> k)).toBitVec = z.toBitVec ^^^ (z.toBitVec >>> k.toNat) := by
    intro z
    rw [UInt64.toBitVec_xor, UInt64.toBitVec_shiftRight, BitVec.ushiftRight_eq', BitVec.toNat_umod]
    change z.toBitVec ^^^ z.toBitVec >>> (k.toNat % 64) = _
    rw [Nat.mod_eq_of_lt hlt]
  have hwords := congrArg UInt64.toBitVec h
  dsimp only at hwords
  rw [hshift, hshift] at hwords
  exact UInt64.toBitVec_inj.mp (xorShiftRight_injective hk hwords)

theorem uint64_mul_odd_injective {c : UInt64} (hc : c.toNat % 2 = 1) :
    Function.Injective fun z : UInt64 => z * c := by
  intro x y h
  have hwords := congrArg UInt64.toBitVec h
  dsimp only at hwords
  rw [UInt64.toBitVec_mul, UInt64.toBitVec_mul] at hwords
  exact UInt64.toBitVec_inj.mp (mul_odd_injective hc hwords)

/-- The low bits of a word take every value equally often. -/
theorem ncard_uint64_mod_eq {n m : ℕ} (hnm : n * m = 2 ^ 64) (r : Fin n) :
    {x : UInt64 | x.toNat % n = r.val}.ncard = m := by
  have himage : {x : BitVec 64 | x.toNat % n = r.val} =
      UInt64.toBitVec '' {x : UInt64 | x.toNat % n = r.val} := by
    ext x
    constructor
    · exact fun hx => ⟨⟨x⟩, hx, rfl⟩
    · rintro ⟨x, hx, rfl⟩
      exact hx
  rw [← ncard_mod_eq hnm r, himage, Set.ncard_image_of_injective _ toBitVec_bijective.1]

/-! ### 32-bit words -/

instance finite_uint32 : Finite UInt32 :=
  Finite.of_injective UInt32.toFin fun _ _ h => UInt32.toFin_inj.mp h

theorem uint32_mul_odd_injective {c : UInt32} (hc : c.toNat % 2 = 1) :
    Function.Injective fun z : UInt32 => z * c := by
  intro x y h
  have hwords := congrArg UInt32.toBitVec h
  dsimp only at hwords
  rw [UInt32.toBitVec_mul, UInt32.toBitVec_mul] at hwords
  exact UInt32.toBitVec_inj.mp (mul_odd_injective hc hwords)

/-- The high bits of a word take every value equally often. -/
theorem ncard_uint32_div_eq {n m i : ℕ} (hnm : n * m = 2 ^ 32) (hi : i < n) :
    {x : UInt32 | x.toNat / m = i}.ncard = m := by
  have hlt : ∀ j < m, m * i + j < 2 ^ 32 := by
    intro j hj
    have hle : m * (i + 1) ≤ m * n := Nat.mul_le_mul_left m hi
    rw [Nat.mul_succ, Nat.mul_comm m n, hnm] at hle
    omega
  have hword : ∀ j < m, (UInt32.ofNat (m * i + j)).toNat = m * i + j := fun j hj => by
    rw [UInt32.toNat_ofNat', Nat.mod_eq_of_lt (hlt j hj)]
  have himage : {x : UInt32 | x.toNat / m = i} =
      (fun j => UInt32.ofNat (m * i + j)) '' (Finset.range m : Set ℕ) := by
    have hpos : 0 < m := Nat.pos_of_mul_pos_left (hnm ▸ Nat.two_pow_pos 32)
    ext x
    constructor
    · intro hx
      have hx' : x.toNat / m = i := hx
      refine ⟨x.toNat % m, ?_, ?_⟩
      · rw [Finset.coe_range, Set.mem_Iio]
        exact Nat.mod_lt _ hpos
      · dsimp only
        rw [← hx', Nat.div_add_mod, UInt32.ofNat_toNat]
    · rintro ⟨j, hj, rfl⟩
      have hj' := Finset.mem_range.mp hj
      change (UInt32.ofNat (m * i + j)).toNat / m = i
      rw [hword j hj', Nat.mul_add_div hpos, Nat.div_eq_of_lt hj', Nat.add_zero]
  have hinj : Set.InjOn (fun j => UInt32.ofNat (m * i + j)) (Finset.range m : Set ℕ) := by
    intro j hj k hk hjk
    have htoNat := congrArg UInt32.toNat hjk
    dsimp only at htoNat
    rw [hword j (Finset.mem_range.mp hj), hword k (Finset.mem_range.mp hk)] at htoNat
    exact Nat.add_left_cancel htoNat
  rw [himage, hinj.ncard_image, Set.ncard_coe_finset, Finset.card_range]

end LazyfreeCache.Mixing
