import LazyfreeCache.HashmapGrowth
import Mathlib.Data.Set.Card

/-!
Whole lives of a table of `hashmap.h`. It is the partial map of the operations
that it did not refuse. A put is refused only if eight keys of the table crowd
near its own in a table of 2^31 slots, so none is if the keys do not crowd, and
it is refused if eight other keys with the same hash are in the table.
-/
namespace LazyfreeCache.Hashmap

open ReferenceSet

variable {κ β : Type}

inductive HashmapOp (κ β : Type)
  | put (key : κ) (value : β)
  | remove (key : κ)
  deriving DecidableEq

def HashmapOp.key : HashmapOp κ β → κ
  | .put key _ => key
  | .remove key => key

section Runs
variable [DecidableEq κ]

/-- The operations one after the other; `none` if a put returns 1. -/
def runOps [Zero κ] : HashmapS κ β → List (HashmapOp κ β) → Option (HashmapS κ β)
  | m, [] => some m
  | m, .put key value :: ops =>
    match hashmapPut m key value with
    | (flag, m) => if flag ≠ 0 then none else runOps m ops
  | m, .remove key :: ops => runOps (hashmapRemove m key).2 ops

/-- The operation on a partial map. -/
def Residents.apply (r : Residents κ β) : HashmapOp κ β → Residents κ β
  | .put key value => r.put key value
  | .remove key => r.remove key

variable [Zero κ] {m : HashmapS κ β} {key : κ} {value : β} {ops : List (HashmapOp κ β)}

theorem runOps_put {m' : HashmapS κ β} :
    runOps m (.put key value :: ops) = some m' ↔
      (hashmapPut m key value).1 = 0 ∧ runOps (hashmapPut m key value).2 ops = some m' := by
  by_cases hcode : (hashmapPut m key value).1 = 0 <;> simp [runOps, hcode]

/-- The run lemma. -/
theorem runOps_contents {m' : HashmapS κ β} (h : Proper m) (hkeys : ∀ op ∈ ops, op.key ≠ 0)
    (hrun : runOps m ops = some m') :
    Proper m' ∧ contents m'.data = ops.foldl Residents.apply (contents m.data) := by
  induction ops generalizing m with
  | nil =>
    cases hrun
    exact ⟨h, rfl⟩
  | cons op ops ih =>
    have hkey : op.key ≠ 0 := hkeys op List.mem_cons_self
    have hrest : ∀ op ∈ ops, op.key ≠ 0 := fun op hop => hkeys op (List.mem_cons_of_mem _ hop)
    rw [List.foldl_cons]
    cases op with
    | put key value =>
      obtain ⟨hcode, hrun⟩ := runOps_put.mp hrun
      have hdone := hashmapPut_done h hkey value
      obtain ⟨hproper, hcontents⟩ := ih hdone.proper hrest hrun
      exact ⟨hproper, by rw [hcontents, hdone.stored hcode]; rfl⟩
    | remove key =>
      obtain ⟨hproper, hremoved, -⟩ := hashmapRemove_spec h hkey
      obtain ⟨hproper', hcontents⟩ := ih hproper hrest hrun
      exact ⟨hproper', by rw [hcontents, hremoved]; rfl⟩

omit [DecidableEq κ] in
/-- The size counts the keys. -/
theorem hashmapNumEntries_eq (h : Proper m) :
    hashmapNumEntries m = (contents m.data).keys.ncard := by
  classical
  have hkeys : (contents m.data).keys =
      ((inUse m.data (hashmapCapacity m + linearProbeLength)).image
        fun i => (m.data i).elim 0 (·.key) : Finset κ) := by
    ext key
    rw [Finset.mem_coe, Finset.mem_image, Residents.mem_keys, ne_eq, contents_eq_none]
    constructor
    · intro hex
      push Not at hex
      obtain ⟨i, e, hi, rfl⟩ := hex
      exact ⟨i, mem_inUse.mpr ⟨h.lt hi, by rw [hi]; rfl⟩, by rw [hi]; rfl⟩
    · rintro ⟨i, hi, hkey⟩ hall
      obtain ⟨e, he⟩ := Option.isSome_iff_exists.mp (mem_inUse.mp hi).2
      rw [he] at hkey
      exact hall i e he hkey
  rw [hkeys, Set.ncard_coe_finset, Finset.card_image_of_injOn, ← h.size_eq]
  · rfl
  · intro i hi j hj hkey
    obtain ⟨e, he⟩ := Option.isSome_iff_exists.mp (mem_inUse.mp hi).2
    obtain ⟨f, hf⟩ := Option.isSome_iff_exists.mp (mem_inUse.mp hj).2
    simp only [he, hf] at hkey
    exact h.distinct i j e f he hf hkey

/-- The table answers as the partial map `r`. -/
structure Refines [Zero β] (m : HashmapS κ β) (r : Residents κ β) : Prop where
  get : ∀ key ≠ 0, hashmapGet m key = (r key).getD 0
  remove : ∀ key ≠ 0, ((hashmapRemove m key).1 = 0 ↔ r key ≠ none)
  numEntries : hashmapNumEntries m = r.keys.ncard
  /-- Every probe stays within the slots that were allocated. -/
  inside : ∀ key, ∀ i < linearProbeLength,
    hashHelperInt m key + i < hashmapCapacity m + linearProbeLength

theorem Proper.refines [Zero β] (h : Proper m) : Refines m (contents m.data) where
  get _ hkey := hashmapGet_eq h hkey
  remove _ hkey := (hashmapRemove_spec h hkey).2.2
  numEntries := hashmapNumEntries_eq h
  inside key _ hi := (h.probe_lt key hi).1

theorem refines_of_created [Zero β] {hasher : UInt32 → κ → UInt32} {initialCapacity : ℕ}
    (hcapacity : initialCapacity ≤ 2 ^ 31) (hkeys : ∀ op ∈ ops, op.key ≠ 0)
    (hrun : runOps (hashmapCreateEx hasher initialCapacity) ops = some m) :
    Refines m (ops.foldl Residents.apply Residents.empty) := by
  obtain ⟨h, hcontents⟩ := runOps_contents (proper_createEx hasher hcapacity) hkeys hrun
  have hempty : contents (hashmapCreateEx hasher initialCapacity : HashmapS κ β).data =
      Residents.empty := contents_empty
  rw [← hempty, ← hcontents]
  exact h.refines

/-! ### Puts that succeed -/

/-- The home of the key in a table of 2^31 slots. -/
def farHome (hasher : UInt32 → κ → UInt32) (key : κ) : ℕ :=
  (hasher 0xFFFFFFFF key * 2654435769).toNat >>> 1

/-- In a table of 2^31 slots at most seven other keys of `K` have their homes close to the home
of a key. -/
def Uncrowded (hasher : UInt32 → κ → UInt32) (K : Finset κ) : Prop :=
  ∀ k ∈ K, (K.filter fun k' => k' ≠ k ∧ farHome hasher k' < farHome hasher k + linearProbeLength ∧
    farHome hasher k < farHome hasher k' + linearProbeLength).card < linearProbeLength

instance (hasher : UInt32 → κ → UInt32) (K : Finset κ) : Decidable (Uncrowded hasher K) :=
  Finset.decidableDforallFinset

omit [DecidableEq κ] in
/-- Eight slots without the key hold eight other keys with homes close by. -/
theorem keys_of_full_window (h : Proper m) (hfull : ∀ j < linearProbeLength,
    ∃ e, m.data (hashHelperInt m key + j) = some e ∧ e.key ≠ key) :
    ∃ S : Finset κ, S.card = linearProbeLength ∧ ∀ k ∈ S, k ≠ key ∧ contents m.data k ≠ none ∧
      hashHelperInt m k < hashHelperInt m key + linearProbeLength ∧
      hashHelperInt m key < hashHelperInt m k + linearProbeLength := by
  classical
  choose e hdata hne using hfull
  refine ⟨Finset.univ.image fun j : Fin linearProbeLength => (e j j.isLt).key, ?_, ?_⟩
  · rw [Finset.card_image_of_injective, Finset.card_univ, Fintype.card_fin]
    intro i j hkey
    have hslot := h.distinct _ _ _ _ (hdata i i.isLt) (hdata j j.isLt) hkey
    exact Fin.ext (Nat.add_left_cancel hslot)
  · intro k hk
    obtain ⟨j, -, rfl⟩ := Finset.mem_image.mp hk
    have habove := h.above _ _ (hdata j j.isLt)
    have hbelow := h.below _ _ (hdata j j.isLt)
    have hj := j.isLt
    refine ⟨hne j j.isLt, fun hnone => ?_, by omega, by omega⟩
    exact contents_eq_none.mp hnone _ _ (hdata j j.isLt) rfl

variable {hasher : UInt32 → κ → UInt32} {K : Finset κ}

omit [DecidableEq κ] [Zero κ] in
theorem hashHelperInt_eq_farHome (hhasher : m.hasher = hasher) (hlog2 : m.log2Capacity = 31)
    (key : κ) : hashHelperInt m key = farHome hasher key := by
  unfold hashHelperInt farHome
  rw [hhasher, hlog2]

/-- Eight keys of `r` have their homes close to the home of the key in a table of 2^31 slots. -/
def CrowdedOut (hasher : UInt32 → κ → UInt32) (r : Residents κ β) (key : κ) : Prop :=
  ∃ S : Finset κ, S.card = linearProbeLength ∧ ∀ k ∈ S, k ≠ key ∧ r k ≠ none ∧
    farHome hasher k < farHome hasher key + linearProbeLength ∧
    farHome hasher key < farHome hasher k + linearProbeLength

/-- A put is refused only by a full table or a crowd. -/
theorem crowded_of_refused (h : Proper m) (hkey : key ≠ 0)
    (hcode : (hashmapPut m key value).1 ≠ 0) :
    (contents m.data).keys.ncard = 2 ^ 31 ∨ CrowdedOut m.hasher (contents m.data) key := by
  have hdone := hashmapPut_done h hkey value
  obtain ⟨-, hsame, hlog2, hslot⟩ := hdone.refused hcode
  rw [← hsame]
  rcases hashHelper_eq_none.mp hslot with hfull | hfull
  · left
    rw [← hashmapNumEntries_eq hdone.proper]
    unfold hashmapCapacity at hfull
    rw [← hlog2]
    exact hfull
  · right
    obtain ⟨S, hS, hnear⟩ := keys_of_full_window hdone.proper hfull
    refine ⟨S, hS, fun k hk => ?_⟩
    have hk' := hnear k hk
    rwa [hashHelperInt_eq_farHome hdone.hasher hlog2,
      hashHelperInt_eq_farHome hdone.hasher hlog2] at hk'

theorem hashmapPut_of_uncrowded (hK : Uncrowded hasher K) (hcard : K.card < 2 ^ 31)
    (hzero : 0 ∉ K) (h : Proper m) (hhasher : m.hasher = hasher)
    (hkeys : (contents m.data).keys ⊆ K) (hkey : key ∈ K) (value : β) :
    (hashmapPut m key value).1 = 0 := by
  by_contra hcode
  rcases crowded_of_refused h (fun heq => hzero (heq ▸ hkey)) hcode with hfull | ⟨S, hS, hnear⟩
  · have hle := Set.ncard_le_ncard hkeys K.finite_toSet
    rw [hfull, Set.ncard_coe_finset] at hle
    omega
  · refine absurd (hS.ge.trans (Finset.card_le_card fun k hk => ?_)) (not_le.mpr (hK key hkey))
    obtain ⟨hne, hheld, hclose⟩ := hnear k hk
    rw [hhasher] at hclose
    exact Finset.mem_filter.mpr ⟨hkeys hheld, hne, hclose⟩

theorem runOps_of_uncrowded (hK : Uncrowded hasher K) (hcard : K.card < 2 ^ 31) (hzero : 0 ∉ K)
    (h : Proper m) (hhasher : m.hasher = hasher) (hkeys : (contents m.data).keys ⊆ K)
    (hops : ∀ op ∈ ops, op.key ∈ K) : ∃ m', runOps m ops = some m' := by
  induction ops generalizing m with
  | nil => exact ⟨m, rfl⟩
  | cons op ops ih =>
    have hkey : op.key ∈ K := hops op List.mem_cons_self
    have hne : op.key ≠ 0 := fun heq => hzero (heq ▸ hkey)
    have hrest : ∀ op ∈ ops, op.key ∈ K := fun op hop => hops op (List.mem_cons_of_mem _ hop)
    cases op with
    | put key value =>
      have hcode : (hashmapPut m key value).1 = 0 :=
        hashmapPut_of_uncrowded hK hcard hzero h hhasher hkeys hkey value
      have hdone := hashmapPut_done h hne value
      obtain ⟨m', hrun⟩ := ih hdone.proper (hdone.hasher.trans hhasher) (by
        rw [hdone.stored hcode, Residents.keys_put]
        exact Set.insert_subset hkey hkeys) hrest
      exact ⟨m', runOps_put.mpr ⟨hcode, hrun⟩⟩
    | remove key =>
      have hne' : key ≠ 0 := hne
      obtain ⟨hproper, hremoved, -⟩ := hashmapRemove_spec h hne'
      exact ih hproper ((hashmapRemove_hasher m key).trans hhasher) (by
        rw [hremoved, Residents.keys_remove]
        exact Set.sdiff_subset.trans hkeys) hrest

/-- On keys that do not crowd no put ever fails, so the table is the partial map of what was
done, for any run. -/
theorem hashmap_refines_uncrowded [Zero β] (hK : Uncrowded hasher K) (hcard : K.card < 2 ^ 31)
    (hzero : 0 ∉ K) {initialCapacity : ℕ} (hcapacity : initialCapacity ≤ 2 ^ 31)
    (hops : ∀ op ∈ ops, op.key ∈ K) :
    ∃ m, runOps (hashmapCreateEx hasher initialCapacity) ops = some m ∧
      Refines m (ops.foldl Residents.apply (Residents.empty : Residents κ β)) := by
  have hempty : contents (hashmapCreateEx hasher initialCapacity : HashmapS κ β).data =
      Residents.empty := contents_empty
  obtain ⟨m, hrun⟩ := runOps_of_uncrowded (β := β) hK hcard hzero
    (proper_createEx hasher hcapacity) rfl (by simp [hempty, Residents.keys_empty]) hops
  exact ⟨m, hrun, refines_of_created hcapacity
    (fun op hop heq => hzero (heq ▸ hops op hop)) hrun⟩

/-- Three keys in a table that starts with room for two. -/
theorem hashmap_refines_uncrowded_three :
    ∃ m : HashmapS UInt32 ℕ, runOps (hashmapCreateEx (fun seed key => seed + key) 2)
        [.put 1 10, .put 2 20, .put 3 30, .remove 2] = some m ∧
      Refines m ([.put 1 10, .put 2 20, .put 3 30, .remove 2].foldl Residents.apply
        Residents.empty) :=
  hashmap_refines_uncrowded (K := {1, 2, 3}) (by decide +kernel) (by decide) (by decide)
    (by decide) (by decide)

/-! ### Puts that are refused -/

omit [DecidableEq κ] in
/-- Keys of a table with one hash all lie in the eight slots from their home on. -/
theorem card_le_of_sameHash (h : Proper m) (hash : UInt32) {S : Finset κ}
    (hS : ∀ k ∈ S, m.hasher 0xFFFFFFFF k = hash ∧ contents m.data k ≠ none) :
    S.card ≤ linearProbeLength := by
  have hsits : ∀ k ∈ S, ∃ i, ∃ e, m.data i = some e ∧ e.key = k := by
    intro k hk
    obtain ⟨value, hvalue⟩ := Option.ne_none_iff_exists'.mp (hS k hk).2
    obtain ⟨i, hi⟩ := (contents_eq_some h.distinct).mp hvalue
    exact ⟨i, _, hi, rfl⟩
  choose! slot hsits using hsits
  obtain ⟨home, hhome⟩ : ∃ home, ∀ k ∈ S, hashHelperInt m k = home := by
    refine ⟨(hash * 2654435769).toNat >>> (32 - m.log2Capacity), fun k hk => ?_⟩
    unfold hashHelperInt
    rw [(hS k hk).1]
  calc S.card ≤ (Finset.Ico home (home + linearProbeLength)).card := by
        refine Finset.card_le_card_of_injOn slot (fun k hk => ?_) (fun k hk k' hk' heq => ?_)
        · obtain ⟨e, he, hkey⟩ := hsits k hk
          have habove := h.above _ _ he
          have hbelow := h.below _ _ he
          rw [hkey, hhome k hk] at habove hbelow
          exact Finset.mem_coe.mpr (Finset.mem_Ico.mpr ⟨habove, hbelow⟩)
        · obtain ⟨e, he, rfl⟩ := hsits k hk
          obtain ⟨e', he', rfl⟩ := hsits k' hk'
          rw [heq, he'] at he
          cases he
          rfl
    _ = linearProbeLength := by
        rw [Nat.card_Ico]
        omega

/-- Eight other keys of the table have the hash of the key. -/
def Collides (m : HashmapS κ β) (key : κ) : Prop :=
  ∃ S : Finset κ, linearProbeLength ≤ S.card ∧ ∀ k ∈ S, k ≠ key ∧
    m.hasher 0xFFFFFFFF k = m.hasher 0xFFFFFFFF key ∧ contents m.data k ≠ none

theorem Collides.missing (h : Proper m) (hcollides : Collides m key) :
    contents m.data key = none := by
  obtain ⟨S, hS, hcollide⟩ := hcollides
  by_contra hheld
  have hother : key ∉ S := fun hk => (hcollide key hk).1 rfl
  have hcard : (insert key S).card ≤ linearProbeLength := by
    refine card_le_of_sameHash h (m.hasher 0xFFFFFFFF key) fun k hk => ?_
    rcases Finset.mem_insert.mp hk with heq | hk
    · rw [heq]
      exact ⟨rfl, hheld⟩
    · exact (hcollide k hk).2
  rw [Finset.card_insert_of_notMem hother] at hcard
  omega

/-- A put returns 1 when eight other keys of the table have the same hash: growing does not part
them. The table keeps what it has, in 2^31 slots. -/
theorem hashmapPut_fails (h : Proper m) (hcollides : Collides m key) (hkey : key ≠ 0) (value : β) :
    (hashmapPut m key value).1 = 1 ∧
      contents (hashmapPut m key value).2.data = contents m.data ∧
      hashmapCapacity (hashmapPut m key value).2 = 2 ^ 31 := by
  have hdone := hashmapPut_done h hkey value
  have hcode : (hashmapPut m key value).1 ≠ 0 := by
    intro hcode
    have hstored := hdone.stored hcode
    have hcollides' : Collides (hashmapPut m key value).2 key := by
      obtain ⟨S, hS, hcollide⟩ := hcollides
      refine ⟨S, hS, fun k hk => ?_⟩
      obtain ⟨hother, hhash, hheld⟩ := hcollide k hk
      rw [hdone.hasher, hstored, Residents.put, Function.update_of_ne hother]
      exact ⟨hother, hhash, hheld⟩
    have hmissing := hcollides'.missing hdone.proper
    rw [hstored, Residents.put, Function.update_self] at hmissing
    cases hmissing
  obtain ⟨hone, hsame, hlog2, -⟩ := hdone.refused hcode
  refine ⟨hone, hsame, ?_⟩
  unfold hashmapCapacity
  rw [hlog2]

/-- The table after the operation, whatever it returned. -/
def attempt (m : HashmapS κ β) : HashmapOp κ β → HashmapS κ β
  | .put key value => (hashmapPut m key value).2
  | .remove key => (hashmapRemove m key).2

/-- `hashmap_put` does not return 0. -/
def refused (m : HashmapS κ β) : HashmapOp κ β → Bool
  | .put key value => (hashmapPut m key value).1 != 0
  | .remove _ => false

/-- The operations that the table does not refuse. -/
def accepted : HashmapS κ β → List (HashmapOp κ β) → List (HashmapOp κ β)
  | _, [] => []
  | m, op :: ops =>
    if refused m op then accepted (attempt m op) ops else op :: accepted (attempt m op) ops

theorem accepted_sublist (m : HashmapS κ β) (ops : List (HashmapOp κ β)) :
    (accepted m ops).Sublist ops := by
  induction ops generalizing m with
  | nil => exact List.Sublist.refl _
  | cons op ops ih =>
    unfold accepted
    split
    · exact (ih _).cons op
    · exact (ih _).cons_cons op

/-- The step lemma. -/
theorem attempt_spec (h : Proper m) {op : HashmapOp κ β} (hkey : op.key ≠ 0) :
    Proper (attempt m op) ∧ (attempt m op).hasher = m.hasher ∧
      contents (attempt m op).data =
        if refused m op then contents m.data else Residents.apply (contents m.data) op := by
  cases op with
  | put key value =>
    have hdone : PutDone m key value (hashmapPut m key value) := hashmapPut_done h hkey value
    refine ⟨hdone.proper, hdone.hasher, ?_⟩
    by_cases hcode : (hashmapPut m key value).1 = 0
    · rw [if_neg (by simp [refused, hcode])]
      exact hdone.stored hcode
    · rw [if_pos (by simp [refused, hcode])]
      exact (hdone.refused hcode).2.1
  | remove key =>
    obtain ⟨hproper, hremoved, -⟩ := hashmapRemove_spec h hkey
    exact ⟨hproper, hashmapRemove_hasher m key, hremoved⟩

/-- The run lemma. -/
theorem attempts_spec (h : Proper m) (hkeys : ∀ op ∈ ops, op.key ≠ 0) :
    Proper (ops.foldl attempt m) ∧ (ops.foldl attempt m).hasher = m.hasher ∧
      contents (ops.foldl attempt m).data =
        (accepted m ops).foldl Residents.apply (contents m.data) := by
  induction ops generalizing m with
  | nil => exact ⟨h, rfl, rfl⟩
  | cons op ops ih =>
    obtain ⟨hproper, hhasher, hcontents⟩ := attempt_spec h (hkeys op List.mem_cons_self)
    obtain ⟨hproper', hhasher', hcontents'⟩ :=
      ih hproper fun op hop => hkeys op (List.mem_cons_of_mem _ hop)
    refine ⟨hproper', hhasher'.trans hhasher, ?_⟩
    rw [List.foldl_cons, hcontents', hcontents, accepted]
    split <;> rfl

/-- A table of any life is the partial map of the operations that it did not refuse, and what it
refuses is a put into 2^31 slots of which all are taken or eight crowd near the key's home. -/
theorem hashmap_refines_accepted [Zero β] (hasher : UInt32 → κ → UInt32) {initialCapacity : ℕ}
    (hcapacity : initialCapacity ≤ 2 ^ 31) (hkeys : ∀ op ∈ ops, op.key ≠ 0) :
    Refines (ops.foldl attempt (hashmapCreateEx hasher initialCapacity))
        ((accepted (hashmapCreateEx hasher initialCapacity) ops).foldl Residents.apply
          Residents.empty) ∧
      (accepted (hashmapCreateEx hasher initialCapacity) ops).Sublist ops ∧
      ∀ left op right, ops = left ++ op :: right →
        refused (left.foldl attempt (hashmapCreateEx hasher initialCapacity)) op = true →
        ∃ r : Residents κ β, r = (accepted (hashmapCreateEx hasher initialCapacity) left).foldl
            Residents.apply Residents.empty ∧
          (r.keys.ncard = 2 ^ 31 ∨ CrowdedOut hasher r op.key) := by
  have hcreated : Proper (hashmapCreateEx hasher initialCapacity : HashmapS κ β) :=
    proper_createEx hasher hcapacity
  have hempty : contents (hashmapCreateEx hasher initialCapacity : HashmapS κ β).data =
      Residents.empty := contents_empty
  obtain ⟨hproper, -, hcontents⟩ := attempts_spec hcreated hkeys
  rw [← hempty, ← hcontents]
  refine ⟨hproper.refines, accepted_sublist _ ops, ?_⟩
  rintro left op right rfl hrefused
  have hleft : ∀ op ∈ left, op.key ≠ 0 := fun op hop => hkeys op (List.mem_append_left _ hop)
  obtain ⟨hbefore, hhasher, hcontents⟩ := attempts_spec hcreated hleft
  refine ⟨_, hcontents, ?_⟩
  have hkey : op.key ≠ 0 := hkeys op (List.mem_append_right _ List.mem_cons_self)
  cases op with
  | put key value =>
    have hcrowded := crowded_of_refused hbefore hkey (bne_iff_ne.mp hrefused)
    rw [hhasher] at hcrowded
    exact hcrowded
  | remove key => cases hrefused

/-- Three keys in a table that starts with room for two. -/
theorem hashmap_refines_accepted_three :
    Refines ([.put 1 10, .put 2 20, .put 3 30, .remove 2].foldl attempt
        (hashmapCreateEx (fun seed key => seed + key) 2 : HashmapS UInt32 ℕ))
      ([.put 1 10, .put 2 20, .put 3 30, .remove 2].foldl Residents.apply Residents.empty) := by
  have haccepted : accepted (hashmapCreateEx (fun seed key => seed + key) 2 : HashmapS UInt32 ℕ)
      [.put 1 10, .put 2 20, .put 3 30, .remove 2] =
        [.put 1 10, .put 2 20, .put 3 30, .remove 2] := by decide +kernel
  rw [← haccepted]
  exact (hashmap_refines_accepted _ (by decide) (by decide)).1

end Runs

end LazyfreeCache.Hashmap
