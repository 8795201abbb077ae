import LazyfreeCache.HashmapRuns
import LazyfreeCache.Slots

/-!
The map of the cache as `lazyfree_cache.c` keeps it: descriptors packed into
the pointers of the vendored hash map through the union `hmap_access`, and key
0 beside it. The model of the cache has a partial map instead. Here the table
goes through the same puts and removes as the cache, event by event, and both
answer every lookup of every run alike as long as no put into the table fails.
-/
namespace LazyfreeCache.HmapAccess

open ReferenceSet Hashmap ProgramLogic EventReplay State LazyfreeOps FallthroughOps Refinement
open Accounting Client Slots

def hashU64ToU32 (key : UInt64) : UInt32 :=
  let key := key ^^^ (key >>> 33)
  let key := key * 0xff51afd7ed558ccd
  let key := key ^^^ (key >>> 33)
  let key := key * 0xc4ceb9fe1a85ec53
  let key := key ^^^ (key >>> 33)
  key.toUInt32

def exactKeyHasher (seed : UInt32) (key : Key) : UInt32 := seed + hashU64ToU32 key + 1

/-! ### The union -/

/-- `hmap_access.value` once `hmap_access.desc = desc`: index and chunk, then three bytes of
padding. -/
def ofDesc (desc : EntryDescriptor) (padding : UInt32) : UInt64 :=
  .ofNat (desc.index % 2 ^ 32 + desc.chunk * 2 ^ 32 + padding.toNat % 2 ^ 24 * 2 ^ 40)

/-- `hmap_access.entry.set = true` -/
def setEntry (value : UInt64) : UInt64 :=
  .ofNat (value.toNat % 2 ^ 40 + 2 ^ 40 + value.toNat / 2 ^ 48 * 2 ^ 48)

/-- `hmap_access.entry.set` -/
def isSet (value : UInt64) : Bool := value.toNat / 2 ^ 40 % 2 ^ 8 != 0

/-- `hmap_access.desc` -/
def toDesc (value : UInt64) : EntryDescriptor :=
  ⟨value.toNat % 2 ^ 32, Fin.ofNat numberOfChunks (value.toNat / 2 ^ 32 % 2 ^ 8)⟩

/-- The pointer that `hmap_put` stores. -/
def entryOf (desc : EntryDescriptor) (padding : UInt32) : UInt64 := setEntry (ofDesc desc padding)

theorem toNat_ofDesc (desc : EntryDescriptor) (padding : UInt32) :
    (ofDesc desc padding).toNat =
      desc.index % 2 ^ 32 + desc.chunk * 2 ^ 32 + padding.toNat % 2 ^ 24 * 2 ^ 40 := by
  have hchunk := desc.chunk.isLt
  unfold ofDesc
  rw [UInt64.toNat_ofNat', Nat.mod_eq_of_lt]
  unfold numberOfChunks at hchunk
  omega

theorem toNat_entryOf (desc : EntryDescriptor) (padding : UInt32) :
    (entryOf desc padding).toNat = desc.index % 2 ^ 32 + desc.chunk * 2 ^ 32 + 2 ^ 40 +
      padding.toNat % 2 ^ 24 / 2 ^ 8 * 2 ^ 48 := by
  have hchunk := desc.chunk.isLt
  unfold numberOfChunks at hchunk
  unfold entryOf setEntry
  rw [UInt64.toNat_ofNat', toNat_ofDesc, Nat.mod_eq_of_lt] <;> omega

theorem isSet_entryOf (desc : EntryDescriptor) (padding : UInt32) :
    isSet (entryOf desc padding) = true := by
  have hchunk := desc.chunk.isLt
  unfold numberOfChunks at hchunk
  unfold isSet
  rw [toNat_entryOf, bne_iff_ne]
  omega

/-- What is packed is read back, whatever the padding. -/
theorem toDesc_entryOf {desc : EntryDescriptor} (padding : UInt32) (h : desc.index < 2 ^ 32) :
    toDesc (entryOf desc padding) = desc := by
  have hchunk := desc.chunk.isLt
  unfold numberOfChunks at hchunk
  refine Cache.ext_index (Fin.ext ?_) ?_
  · unfold toDesc
    rw [Fin.val_ofNat, toNat_entryOf]
    unfold numberOfChunks
    omega
  · change (entryOf desc padding).toNat % 2 ^ 32 = desc.index
    rw [toNat_entryOf]
    omega

/-! ### The table -/

/-- `map` and `key0` of `struct lazyfree_cache`. -/
structure HmapTable where
  map : HashmapS Key UInt64
  key0 : Option EntryDescriptor

namespace HmapTable

/-- The `hashmap_create_ex` of `lazyfree_cache_new_ex`. -/
def new (pagesPerChunk : ℕ) : HmapTable :=
  ⟨hashmapCreateEx exactKeyHasher (u32 (numberOfChunks * pagesPerChunk)), none⟩

def hmapGet (t : HmapTable) (key : Key) : Option EntryDescriptor :=
  if key = 0 then t.key0
  else
    let value := hashmapGet t.map key
    if isSet value then some (toDesc value) else none

/-- What `hashmap_put` returns is not looked at. -/
def hmapPut (t : HmapTable) (key : Key) (desc : EntryDescriptor) (padding : UInt32) : HmapTable :=
  if key = 0 then { t with key0 := some desc }
  else { t with map := (hashmapPut t.map key (entryOf desc padding)).2 }

def hmapRemove (t : HmapTable) (key : Key) : HmapTable :=
  { t with map := (hashmapRemove t.map key).2 }

/-- The loop of `drop_next_chunk`. -/
def hmapRemoveKeys (t : HmapTable) (keys : ℕ → Key) (len : ℕ) : HmapTable :=
  (List.range len).foldl (fun t i => t.hmapRemove (keys i)) t

/-- The calls that an event makes on the table. -/
def step (padding : UInt32) (t : HmapTable) (cache : Cache) : Event → HmapTable
  | .evicted c => t.hmapRemoveKeys (cache.chunks c).keys (cache.chunks c).len
  | .allocated d key => t.hmapPut key d padding
  | .dropped d _ => t.hmapRemove (cache.label d)
  | _ => t

end HmapTable

/-- The table answers as the partial map `r`. -/
structure Simulates (t : HmapTable) (r : Residents Key EntryDescriptor) : Prop where
  proper : Proper t.map
  hasher : t.map.hasher = exactKeyHasher
  key0 : t.key0 = r 0
  map : ∀ k ≠ 0, (contents t.map.data k).map toDesc = r k
  set : ∀ k value, contents t.map.data k = some value → isSet value = true

variable {t : HmapTable} {r : Residents Key EntryDescriptor} {key : Key} {desc : EntryDescriptor}
  {padding : UInt32}

theorem simulates_new {pagesPerChunk : ℕ} (h : u32 (numberOfChunks * pagesPerChunk) ≤ 2 ^ 31) :
    Simulates (.new pagesPerChunk) Residents.empty := by
  have hempty : contents (HmapTable.new pagesPerChunk).map.data = Residents.empty := contents_empty
  refine ⟨proper_createEx _ h, rfl, rfl, fun k _ => ?_, fun k value hk => ?_⟩
  · rw [hempty]
    rfl
  · rw [hempty] at hk
    cases hk

theorem Simulates.get (h : Simulates t r) (k : Key) : t.hmapGet k = r k := by
  unfold HmapTable.hmapGet
  split
  · rename_i hk
    rw [hk, h.key0]
  · rename_i hk
    rw [hashmapGet_eq h.proper hk, ← h.map k hk]
    cases hvalue : contents t.map.data k with
    | none => rfl
    | some value => exact if_pos (h.set k value hvalue)

/-- The table counts the nonzero keys. -/
theorem Simulates.numEntries (h : Simulates t r) :
    hashmapNumEntries t.map = {k | k ≠ 0 ∧ r k ≠ none}.ncard := by
  rw [hashmapNumEntries_eq h.proper]
  congr 1
  ext k
  rw [Residents.mem_keys]
  by_cases hk : k = 0
  · subst hk
    refine iff_of_false (fun hne => hne (contents_eq_none.mpr ?_)) fun hne => hne.1 rfl
    exact h.proper.nonnull
  · have hnone : r k = none ↔ contents t.map.data k = none := by
      rw [← h.map k hk, Option.map_eq_none_iff]
    exact (not_congr hnone.symm).trans (and_iff_right hk).symm

theorem Simulates.put (h : Simulates t r) (hindex : desc.index < 2 ^ 32)
    (hput : key ≠ 0 → (hashmapPut t.map key (entryOf desc padding)).1 = 0) :
    Simulates (t.hmapPut key desc padding) (r.put key desc) := by
  unfold HmapTable.hmapPut Residents.put
  split
  · rename_i hkey
    subst hkey
    refine ⟨h.proper, h.hasher, ?_, fun k hk => ?_, h.set⟩
    · rw [Function.update_self]
    · rw [Function.update_of_ne hk]
      exact h.map k hk
  · rename_i hkey
    have hdone := hashmapPut_done h.proper hkey (entryOf desc padding)
    have hstored := hdone.stored (hput hkey)
    refine ⟨hdone.proper, hdone.hasher.trans h.hasher, ?_, fun k hk => ?_, fun k value hk => ?_⟩
    · rw [Function.update_of_ne (Ne.symm hkey)]
      exact h.key0
    · rw [hstored]
      unfold Residents.put
      by_cases hkk : k = key
      · rw [hkk, Function.update_self, Function.update_self, Option.map_some,
          toDesc_entryOf padding hindex]
      · rw [Function.update_of_ne hkk, Function.update_of_ne hkk]
        exact h.map k hk
    · rw [hstored] at hk
      unfold Residents.put at hk
      by_cases hkk : k = key
      · rw [hkk, Function.update_self] at hk
        cases hk
        exact isSet_entryOf desc padding
      · rw [Function.update_of_ne hkk] at hk
        exact h.set k value hk

theorem Simulates.remove (h : Simulates t r) (key : Key) :
    Simulates (t.hmapRemove key) (if key = 0 then r else r.remove key) := by
  unfold HmapTable.hmapRemove
  split
  · rename_i hkey
    have hsame : (hashmapRemove t.map key).2 = t.map := by
      unfold hashmapRemove
      rw [if_pos hkey]
    rw [hsame]
    exact h
  · rename_i hkey
    obtain ⟨hproper, hcontents, -⟩ := hashmapRemove_spec h.proper hkey
    refine ⟨hproper, (hashmapRemove_hasher t.map key).trans h.hasher, ?_, fun k hk => ?_,
      fun k value hk => ?_⟩
    · unfold Residents.remove
      rw [Function.update_of_ne (Ne.symm hkey)]
      exact h.key0
    · rw [hcontents]
      unfold Residents.remove
      by_cases hkk : k = key
      · rw [hkk, Function.update_self, Function.update_self]
        rfl
      · rw [Function.update_of_ne hkk, Function.update_of_ne hkk]
        exact h.map k hk
    · rw [hcontents] at hk
      unfold Residents.remove at hk
      by_cases hkk : k = key
      · rw [hkk, Function.update_self] at hk
        cases hk
      · rw [Function.update_of_ne hkk] at hk
        exact h.set k value hk

/-- The partial map of the cache sees a remove and a put alike. -/
theorem hmapGet_hmapRemove (cache : Cache) (key : Key) : (cache.hmapRemove key).hmapGet =
    if key = 0 then cache.hmapGet else Residents.remove cache.hmapGet key := by
  funext k
  unfold Cache.hmapRemove
  split
  · rfl
  · rename_i hkey
    unfold Cache.hmapGet Residents.remove
    by_cases hk : k = 0
    · subst hk
      rw [Function.update_of_ne (Ne.symm hkey)]
      rfl
    · rw [if_neg hk]
      simp only [Function.update_apply, if_neg hk]

theorem hmapGet_hmapPut (cache : Cache) (key : Key) (d : EntryDescriptor) :
    (cache.hmapPut key d).hmapGet = Residents.put cache.hmapGet key d := by
  funext k
  unfold Cache.hmapPut Cache.hmapGet Residents.put
  by_cases hk : k = 0 <;> by_cases hkey : key = 0 <;> simp_all [Function.update_apply]
  intro hkk
  exact absurd hkk.symm hkey

theorem Simulates.hmapRemoveKeys {cache : Cache} (h : Simulates t cache.hmapGet)
    (keys : ℕ → Key) (len : ℕ) : Simulates (t.hmapRemoveKeys keys len)
      (LazyfreeOps.hmapRemoveKeys cache keys len).hmapGet := by
  induction len with
  | zero => exact h
  | succ n ih =>
    unfold HmapTable.hmapRemoveKeys LazyfreeOps.hmapRemoveKeys at ih ⊢
    rw [List.range_succ, List.foldl_append, List.foldl_append]
    simp only [List.foldl_cons, List.foldl_nil]
    rw [hmapGet_hmapRemove]
    exact ih.remove (keys n)

/-! ### Tables that lost entries -/

/-- A table as `hashmap_create_ex` makes it and `hmap_put` and `hmap_remove` leave it. -/
structure Intact (t : HmapTable) : Prop where
  proper : Proper t.map
  hasher : t.map.hasher = exactKeyHasher
  set : ∀ k value, contents t.map.data k = some value → isSet value = true

/-- The table is the map of its own answers. -/
theorem Intact.simulates (h : Intact t) : Simulates t t.hmapGet := by
  refine ⟨h.proper, h.hasher, rfl, fun k hk => ?_, h.set⟩
  unfold HmapTable.hmapGet
  rw [if_neg hk, hashmapGet_eq h.proper hk]
  cases hvalue : contents t.map.data k with
  | none => rfl
  | some value => exact (if_pos (h.set k value hvalue)).symm

theorem Simulates.intact (h : Simulates t r) : Intact t :=
  ⟨h.proper, h.hasher, h.set⟩

theorem Intact.put (h : Intact t) (key : Key) (desc : EntryDescriptor) (padding : UInt32) :
    Intact (t.hmapPut key desc padding) := by
  unfold HmapTable.hmapPut
  split
  · exact ⟨h.proper, h.hasher, h.set⟩
  · rename_i hkey
    have hdone := hashmapPut_done h.proper hkey (entryOf desc padding)
    refine ⟨hdone.proper, hdone.hasher.trans h.hasher, fun k value hk => ?_⟩
    by_cases hcode : (hashmapPut t.map key (entryOf desc padding)).1 = 0
    · rw [hdone.stored hcode] at hk
      unfold Residents.put at hk
      rw [Function.update_apply] at hk
      split at hk
      · cases hk
        exact isSet_entryOf desc padding
      · exact h.set k value hk
    · rw [(hdone.refused hcode).2.1] at hk
      exact h.set k value hk

theorem Intact.remove (h : Intact t) (key : Key) : Intact (t.hmapRemove key) :=
  (h.simulates.remove key).intact

theorem Intact.removeKeys (h : Intact t) (keys : ℕ → Key) (len : ℕ) :
    Intact (t.hmapRemoveKeys keys len) := by
  unfold HmapTable.hmapRemoveKeys
  induction len with
  | zero => exact h
  | succ n ih =>
    rw [List.range_succ, List.foldl_append]
    exact ih.remove (keys n)

/-- A put that is refused is not seen by any lookup. -/
theorem hmapGet_hmapPut_refused (h : Proper t.map) (hkey : key ≠ 0)
    (hrefused : (hashmapPut t.map key (entryOf desc padding)).1 ≠ 0) (k : Key) :
    (t.hmapPut key desc padding).hmapGet k = t.hmapGet k := by
  have hdone := hashmapPut_done h hkey (entryOf desc padding)
  unfold HmapTable.hmapPut HmapTable.hmapGet
  rw [if_neg hkey]
  by_cases hk : k = 0
  · rw [if_pos hk, if_pos hk]
  · rw [if_neg hk, if_neg hk]
    dsimp only
    rw [hashmapGet_eq hdone.proper hk, hashmapGet_eq h hk, (hdone.refused hrefused).2.1]

/-- A put leads its key to the descriptor or nowhere new, and nothing else changes. -/
theorem hmapGet_of_put (h : Intact t) {k : Key} {e : EntryDescriptor} (hindex : desc.index < 2 ^ 32)
    (hk : (t.hmapPut key desc padding).hmapGet k = some e) :
    (k = key ∧ e = desc) ∨ t.hmapGet k = some e := by
  by_cases hlost : key ≠ 0 ∧ (hashmapPut t.map key (entryOf desc padding)).1 ≠ 0
  · rw [hmapGet_hmapPut_refused h.proper hlost.1 hlost.2] at hk
    exact .inr hk
  · have hput := h.simulates.put hindex fun hkey =>
      not_not.mp (not_and.mp hlost hkey)
    rw [hput.get k] at hk
    unfold Residents.put at hk
    rw [Function.update_apply] at hk
    split at hk
    · rename_i hkk
      exact .inl ⟨hkk, (Option.some.inj hk).symm⟩
    · exact .inr hk

/-- A put, refused or not, changes what is found for its own key only. -/
theorem hmapGet_hmapPut_of_ne (h : Intact t) (hindex : desc.index < 2 ^ 32) {k : Key}
    (hk : k ≠ key) : (t.hmapPut key desc padding).hmapGet k = t.hmapGet k := by
  by_cases hlost : key ≠ 0 ∧ (hashmapPut t.map key (entryOf desc padding)).1 ≠ 0
  · exact hmapGet_hmapPut_refused h.proper hlost.1 hlost.2 k
  · have hput := h.simulates.put hindex fun hkey => not_not.mp (not_and.mp hlost hkey)
    rw [hput.get k]
    unfold Residents.put
    exact Function.update_of_ne hk _ _

/-- A put that is not refused leads its key to the descriptor. -/
theorem hmapGet_hmapPut_self (h : Intact t) (hindex : desc.index < 2 ^ 32)
    (hput : key ≠ 0 → (hashmapPut t.map key (entryOf desc padding)).1 = 0) :
    (t.hmapPut key desc padding).hmapGet key = some desc := by
  rw [(h.simulates.put hindex hput).get key]
  exact Function.update_self _ _ _

/-- What a put is found to have done does not depend on the padding of the entry. -/
theorem hmapGet_hmapPut_padding (h : Intact t) (hindex : desc.index < 2 ^ 32)
    (padding padding' : UInt32) (k : Key) :
    (t.hmapPut key desc padding).hmapGet k = (t.hmapPut key desc padding').hmapGet k := by
  have hcode := hashmapPut_code t.map key (entryOf desc padding) (entryOf desc padding')
  by_cases hlost : key ≠ 0 ∧ (hashmapPut t.map key (entryOf desc padding)).1 ≠ 0
  · rw [hmapGet_hmapPut_refused h.proper hlost.1 hlost.2,
      hmapGet_hmapPut_refused h.proper hlost.1 (hcode ▸ hlost.2)]
  · have hput : key ≠ 0 → (hashmapPut t.map key (entryOf desc padding)).1 = 0 := fun hkey =>
      not_not.mp (not_and.mp hlost hkey)
    rw [(h.simulates.put hindex hput).get k,
      (h.simulates.put hindex fun hkey => hcode ▸ hput hkey).get k]

theorem hmapGet_of_remove (h : Intact t) {k : Key} {e : EntryDescriptor}
    (hk : (t.hmapRemove key).hmapGet k = some e) :
    t.hmapGet k = some e := by
  rw [(h.simulates.remove key).get k] at hk
  split at hk
  · exact hk
  · unfold Residents.remove at hk
    rw [Function.update_apply] at hk
    split at hk
    · cases hk
    · exact hk

theorem hmapGet_of_removeKeys (h : Intact t) (keys : ℕ → Key) (len : ℕ) {k : Key}
    {e : EntryDescriptor} (hk : (t.hmapRemoveKeys keys len).hmapGet k = some e) :
    t.hmapGet k = some e := by
  induction len with
  | zero => exact hk
  | succ n ih =>
    have hstep : t.hmapRemoveKeys keys (n + 1) = (t.hmapRemoveKeys keys n).hmapRemove (keys n) := by
      unfold HmapTable.hmapRemoveKeys
      rw [List.range_succ, List.foldl_append]
      rfl
    rw [hstep] at hk
    exact ih (hmapGet_of_remove (h.removeKeys keys n) hk)

end LazyfreeCache.HmapAccess
