import LazyfreeCache.Hashmap

/-!
What a table of `hashmap.h` holds. In a proper table every element sits within
eight slots of its home, no key sits twice, and the size counts the slots in
use. Then a probe of eight slots finds a key wherever it is, and the slots that
are looked at lie within the table.
-/
namespace LazyfreeCache.Hashmap

open ReferenceSet

variable {κ β : Type}

theorem linearProbeLength_eq : linearProbeLength = 8 := rfl

/-- The element `⟨key, value⟩` sits in some slot. -/
def Holds (data : ℕ → Option (HashmapElement κ β)) (key : κ) (value : β) : Prop :=
  ∃ i, data i = some ⟨key, value⟩

/-- The partial map that the slots hold. -/
noncomputable def contents (data : ℕ → Option (HashmapElement κ β)) : Residents κ β := by
  classical
  exact fun key => if h : ∃ value, Holds data key value then some h.choose else none

/-- The slots in use of the first `n`. -/
def inUse (data : ℕ → Option (HashmapElement κ β)) (n : ℕ) : Finset ℕ :=
  (Finset.range n).filter fun i => (data i).isSome

/-- No key sits in two slots. -/
def Distinct (data : ℕ → Option (HashmapElement κ β)) : Prop :=
  ∀ i j e f, data i = some e → data j = some f → e.key = f.key → i = j

structure Proper [Zero κ] (m : HashmapS κ β) : Prop where
  log2_pos : 1 ≤ m.log2Capacity
  log2_le : m.log2Capacity ≤ 31
  nonnull : ∀ i e, m.data i = some e → e.key ≠ 0
  above : ∀ i e, m.data i = some e → hashHelperInt m e.key ≤ i
  below : ∀ i e, m.data i = some e → i < hashHelperInt m e.key + linearProbeLength
  distinct : Distinct m.data
  size_eq : m.size = (inUse m.data (hashmapCapacity m + linearProbeLength)).card
  size_le : m.size ≤ hashmapCapacity m

variable {m : HashmapS κ β} {data : ℕ → Option (HashmapElement κ β)} {key : κ} {value : β}
  {i j n : ℕ}

/-! ### The partial map -/

theorem Distinct.holds_unique (h : Distinct data) {value' : β} (hv : Holds data key value)
    (hv' : Holds data key value') : value = value' := by
  obtain ⟨i, hi⟩ := hv
  obtain ⟨j, hj⟩ := hv'
  obtain rfl := h i j _ _ hi hj rfl
  rw [hi] at hj
  cases hj
  rfl

theorem contents_eq_some (h : Distinct data) :
    contents data key = some value ↔ Holds data key value := by
  unfold contents
  split
  · rename_i hex
    rw [Option.some.injEq]
    refine ⟨fun hv => hv ▸ hex.choose_spec, fun hv => h.holds_unique hex.choose_spec hv⟩
  · rename_i hex
    exact iff_of_false (by simp) fun hv => hex ⟨value, hv⟩

theorem contents_eq_none : contents data key = none ↔ ∀ i e, data i = some e → e.key ≠ key := by
  unfold contents
  split
  · rename_i hex
    refine iff_of_false (by simp) fun hall => ?_
    obtain ⟨value, i, hi⟩ := hex
    exact hall i _ hi rfl
  · rename_i hex
    refine iff_of_true rfl fun i e hi hkey => hex ⟨e.data, i, ?_⟩
    rw [hi, ← hkey]

theorem contents_ext (h : Distinct data) {r : Residents κ β}
    (hr : ∀ key value, r key = some value ↔ Holds data key value) :
    contents data = r := by
  funext key
  apply Option.ext
  intro value
  rw [contents_eq_some h, hr]

theorem holds_update [DecidableEq κ] (hi : ∀ e, data i = some e → e.key = key)
    (hother : ∀ j e, data j = some e → e.key = key → j = i) (key' : κ) (value' : β) :
    Holds (Function.update data i (some ⟨key, value⟩)) key' value' ↔
      if key' = key then value' = value else Holds data key' value' := by
  constructor
  · rintro ⟨j, hj⟩
    by_cases hji : j = i
    · subst hji
      rw [Function.update_self] at hj
      cases hj
      rw [if_pos rfl]
    · rw [Function.update_of_ne hji] at hj
      rw [if_neg fun hkey => hji (hother j _ hj hkey)]
      exact ⟨j, hj⟩
  · split
    · rename_i hkey
      rintro rfl
      exact ⟨i, by rw [Function.update_self, hkey]⟩
    · rename_i hkey
      rintro ⟨j, hj⟩
      refine ⟨j, ?_⟩
      rw [Function.update_of_ne, hj]
      rintro rfl
      exact hkey (hi _ hj)

theorem holds_blank (h : Distinct data) {e : HashmapElement κ β} (hi : data i = some e) (key' : κ)
    (value' : β) : Holds (Function.update data i none) key' value' ↔
      key' ≠ e.key ∧ Holds data key' value' := by
  constructor
  · rintro ⟨j, hj⟩
    by_cases hji : j = i
    · subst hji
      rw [Function.update_self] at hj
      cases hj
    · rw [Function.update_of_ne hji] at hj
      exact ⟨fun hkey => hji (h j i _ _ hj hi hkey), j, hj⟩
  · rintro ⟨hkey, j, hj⟩
    refine ⟨j, ?_⟩
    rw [Function.update_of_ne, hj]
    rintro rfl
    rw [hi] at hj
    cases hj
    exact hkey rfl

theorem distinct_update (h : Distinct data)
    (hother : ∀ j e, data j = some e → e.key = key → j = i) :
    Distinct (Function.update data i (some ⟨key, value⟩)) := by
  intro j j' e f hj hj' hkey
  rw [Function.update_apply] at hj hj'
  split at hj <;> split at hj'
  · omega
  · rename_i hji _
    cases hj
    exact hji.trans (hother j' f hj' hkey.symm).symm
  · rename_i _ hji
    cases hj'
    exact (hother j e hj hkey).trans hji.symm
  · exact h j j' e f hj hj' hkey

theorem contents_update [DecidableEq κ] (h : Distinct data)
    (hi : ∀ e, data i = some e → e.key = key)
    (hother : ∀ j e, data j = some e → e.key = key → j = i) :
    contents (Function.update data i (some ⟨key, value⟩)) = (contents data).put key value := by
  refine contents_ext (distinct_update h hother) fun key' value' => ?_
  rw [holds_update hi hother, Residents.put, Function.update_apply]
  split
  · rw [Option.some.injEq, eq_comm]
  · exact contents_eq_some h

theorem distinct_blank (h : Distinct data) : Distinct (Function.update data i none) := by
  intro j j' e f hj hj' hkey
  rw [Function.update_apply] at hj hj'
  split at hj
  · cases hj
  · split at hj'
    · cases hj'
    · exact h j j' e f hj hj' hkey

/-! ### The slots in use -/

theorem mem_inUse : i ∈ inUse data n ↔ i < n ∧ (data i).isSome := by
  unfold inUse
  rw [Finset.mem_filter, Finset.mem_range]

theorem inUse_update (hi : i < n) (e : HashmapElement κ β) :
    inUse (Function.update data i (some e)) n = insert i (inUse data n) := by
  ext j
  rw [Finset.mem_insert, mem_inUse, mem_inUse, Function.update_apply]
  by_cases hji : j = i
  · simp [hji, hi]
  · simp [hji]

theorem inUse_blank : inUse (Function.update data i none) n = (inUse data n).erase i := by
  ext j
  rw [Finset.mem_erase, mem_inUse, mem_inUse, Function.update_apply]
  by_cases hji : j = i <;> simp [hji]

/-! ### Probes -/

section Loops
variable [DecidableEq κ]

theorem probeLoop_eq_some {curr index : ℕ} (h : probeLoop m key curr n i = some index) :
    ∃ e, m.data index = some e ∧ e.key = key := by
  induction n generalizing i with
  | zero => cases h
  | succ n ih =>
    unfold probeLoop at h
    split at h
    · rename_i e he
      split at h
      · rename_i hkey
        cases h
        exact ⟨e, he, hkey⟩
      · exact ih h
    · exact ih h

theorem probeLoop_eq_none {curr : ℕ} (h : probeLoop m key curr n i = none) {e : HashmapElement κ β}
    {j : ℕ} (hij : i ≤ j) (hj : j < i + n) (he : m.data (curr + j) = some e) : e.key ≠ key := by
  induction n generalizing i with
  | zero => omega
  | succ n ih =>
    unfold probeLoop at h
    by_cases heq : j = i
    · subst heq
      rw [he] at h
      dsimp only at h
      split at h
      · cases h
      · assumption
    · split at h
      · split at h
        · cases h
        · exact ih h (by omega) (by omega)
      · exact ih h (by omega) (by omega)

theorem probe_of_missing (hmissing : contents m.data key = none) (n i curr : ℕ) :
    probeLoop m key curr n i = none := by
  cases hprobe : probeLoop m key curr n i with
  | none => rfl
  | some index =>
    obtain ⟨e, he, hkey⟩ := probeLoop_eq_some hprobe
    exact absurd hkey (contents_eq_none.mp hmissing index e he)

end Loops

/-- The home of a key lies within the table without its last slots. -/
theorem hashHelperInt_lt (m : HashmapS κ β) (key : κ) (h : m.log2Capacity ≤ 32) :
    hashHelperInt m key < hashmapCapacity m := by
  unfold hashHelperInt hashmapCapacity
  rw [Nat.shiftRight_eq_div_pow]
  refine Nat.div_lt_of_lt_mul ?_
  rw [← Nat.pow_add, Nat.sub_add_cancel h]
  exact UInt32.toNat_lt _

section Probes
variable [Zero κ]

theorem Proper.lt (h : Proper m) {e : HashmapElement κ β} (hi : m.data i = some e) :
    i < hashmapCapacity m + linearProbeLength := by
  have hhome := hashHelperInt_lt m e.key (by have := h.log2_le; omega)
  have hbelow := h.below i e hi
  omega

theorem Proper.capacity_le (h : Proper m) : hashmapCapacity m ≤ 2 ^ 31 :=
  Nat.pow_le_pow_right (by omega) h.log2_le

/-- Every slot that is looked at lies within the table and needs no wrap-around. -/
theorem Proper.probe_lt (h : Proper m) (key : κ) (hi : i < linearProbeLength) :
    hashHelperInt m key + i < hashmapCapacity m + linearProbeLength ∧
      hashHelperInt m key + i < 2 ^ 32 := by
  have hhome := hashHelperInt_lt m key (by have := h.log2_le; omega)
  have hcap := h.capacity_le
  rw [linearProbeLength_eq] at hi ⊢
  omega

theorem proper_blank (h : Proper m) {e : HashmapElement κ β} (hi : m.data i = some e) :
    Proper (m.blank i) := by
  have hdata : ∀ {j f}, (m.blank i).data j = some f → m.data j = some f := by
    intro j f hj
    change Function.update m.data i none j = some f at hj
    rw [Function.update_apply] at hj
    split at hj
    · cases hj
    · exact hj
  have hmem : i ∈ inUse m.data (hashmapCapacity m + linearProbeLength) :=
    mem_inUse.mpr ⟨h.lt hi, by rw [hi]; rfl⟩
  have hsize : (m.blank i).size =
      (inUse (m.blank i).data (hashmapCapacity m + linearProbeLength)).card := by
    change m.size - 1 = (inUse (Function.update m.data i none) _).card
    rw [inUse_blank, Finset.card_erase_of_mem hmem, h.size_eq]
  exact {
    log2_pos := h.log2_pos
    log2_le := h.log2_le
    nonnull := fun j f hj => h.nonnull j f (hdata hj)
    above := fun j f hj => h.above j f (hdata hj)
    below := fun j f hj => h.below j f (hdata hj)
    distinct := distinct_blank h.distinct
    size_eq := hsize
    size_le := (Nat.sub_le _ _).trans h.size_le }

variable [DecidableEq κ]

/-- A probe from the home finds the slot of the key. -/
theorem probe_of_holds (h : Proper m) (hi : m.data i = some ⟨key, value⟩) :
    probeLoop m key (hashHelperInt m key) linearProbeLength 0 = some i := by
  have habove : hashHelperInt m key ≤ i := h.above i ⟨key, value⟩ hi
  have hbelow : i < hashHelperInt m key + linearProbeLength := h.below i ⟨key, value⟩ hi
  cases hprobe : probeLoop m key (hashHelperInt m key) linearProbeLength 0 with
  | none =>
    have hslot : m.data (hashHelperInt m key + (i - hashHelperInt m key)) = some ⟨key, value⟩ := by
      rw [Nat.add_sub_cancel' habove, hi]
    have hnear : i - hashHelperInt m key < 0 + linearProbeLength := by omega
    exact absurd rfl (probeLoop_eq_none hprobe (Nat.zero_le _) hnear hslot)
  | some index =>
    obtain ⟨e, he, hkey⟩ := probeLoop_eq_some hprobe
    rw [h.distinct index i e _ he hi hkey]

/-- A get answers what the table holds for the key. -/
theorem hashmapGet_eq [Zero β] (h : Proper m) (hkey : key ≠ 0) :
    hashmapGet m key = (contents m.data key).getD 0 := by
  unfold hashmapGet
  rw [if_neg hkey]
  cases hcontents : contents m.data key with
  | none =>
    rw [probe_of_missing hcontents]
    rfl
  | some value =>
    obtain ⟨i, hi⟩ := (contents_eq_some h.distinct).mp hcontents
    rw [probe_of_holds h hi]
    simp only [hi]
    rfl

/-! ### Removal -/

theorem contents_blank (h : Proper m) {e : HashmapElement κ β} (hi : m.data i = some e) :
    contents (m.blank i).data = (contents m.data).remove e.key := by
  refine contents_ext (proper_blank h hi).distinct fun key value => ?_
  change _ ↔ Holds (Function.update m.data i none) key value
  rw [holds_blank h.distinct hi, Residents.remove, Function.update_apply]
  split
  · rename_i hkey
    exact iff_of_false (by simp) fun hne => hne.1 hkey
  · rename_i hkey
    rw [contents_eq_some h.distinct]
    exact (and_iff_right hkey).symm

theorem hashmapRemove_hasher (m : HashmapS κ β) (key : κ) :
    (hashmapRemove m key).2.hasher = m.hasher := by
  unfold hashmapRemove
  split
  · rfl
  · split <;> rfl

/-- A remove takes the key out and tells whether it was there. -/
theorem hashmapRemove_spec (h : Proper m) (hkey : key ≠ 0) :
    Proper (hashmapRemove m key).2 ∧
      contents (hashmapRemove m key).2.data = (contents m.data).remove key ∧
      ((hashmapRemove m key).1 = 0 ↔ contents m.data key ≠ none) := by
  unfold hashmapRemove
  rw [if_neg hkey]
  cases hcontents : contents m.data key with
  | none =>
    rw [probe_of_missing hcontents]
    refine ⟨h, ?_, by simp⟩
    exact (Function.update_eq_self_iff.mpr hcontents.symm).symm
  | some value =>
    obtain ⟨i, hi⟩ := (contents_eq_some h.distinct).mp hcontents
    rw [probe_of_holds h hi]
    exact ⟨proper_blank h hi, contents_blank h hi, by simp⟩

end Probes

end LazyfreeCache.Hashmap
