import LazyfreeCache.ReferenceSet
import Mathlib.Logic.Function.Basic
import Mathlib.Data.Finset.Card
import Mathlib.Data.Nat.Log
import Mathlib.Data.UInt

/-!
The vendored hash map of `hashmap.h`: open addressing in a table of a power of
two of slots and a few more, with probes of eight slots from the key's home on.
A put that finds no slot moves everything into a table twice the size, in which
the puts may grow again. Memory is never short; the key length is that of a
pointer and the comparer is equality.
-/
namespace LazyfreeCache.Hashmap

/-- `HASHMAP_LINEAR_PROBE_LENGTH` -/
def linearProbeLength : ℕ := 8

/-- `struct hashmap_element_s` that is in use. -/
structure HashmapElement (κ β : Type) where
  key : κ
  data : β
  deriving DecidableEq

/-- `struct hashmap_s` -/
structure HashmapS (κ β : Type) where
  log2Capacity : ℕ
  size : ℕ
  hasher : UInt32 → κ → UInt32
  data : ℕ → Option (HashmapElement κ β)

variable {κ β : Type}

def hashmapNumEntries (m : HashmapS κ β) : ℕ := m.size

/-- `1u << log2_capacity` -/
def hashmapCapacity (m : HashmapS κ β) : ℕ := 2 ^ m.log2Capacity

/-- `__builtin_clz` of a nonzero 32-bit number. -/
def hashmapClz (x : ℕ) : ℕ := 31 - Nat.log2 x

/-- `hashmap_create_ex`. The shift is defined for capacities up to 2^31. -/
def hashmapCreateEx (hasher : UInt32 → κ → UInt32) (initialCapacity : ℕ) : HashmapS κ β :=
  let capacity :=
    if 2 > initialCapacity then 2
    else if initialCapacity &&& (initialCapacity - 1) ≠ 0 then
      1 <<< (32 - hashmapClz initialCapacity)
    else initialCapacity
  ⟨31 - hashmapClz capacity, 0, hasher, fun _ => none⟩

/-- `hashmap_hash_helper_int_helper` -/
def hashHelperInt (m : HashmapS κ β) (key : κ) : ℕ :=
  (m.hasher 0xFFFFFFFF key * 2654435769).toNat >>> (32 - m.log2Capacity)

/-- `m->data[index]` gets key and data. -/
def HashmapS.setElement (m : HashmapS κ β) (index : ℕ) (key : κ) (value : β) : HashmapS κ β :=
  { m with
    size := if (m.data index).isSome then m.size else m.size + 1
    data := Function.update m.data index (some ⟨key, value⟩) }

/-- `memset(&m->data[index], 0, ...)` and `m->size--`. -/
def HashmapS.blank (m : HashmapS κ β) (index : ℕ) : HashmapS κ β :=
  { m with size := m.size - 1, data := Function.update m.data index none }

section Operations
variable [DecidableEq κ]

/-- The probes of `hashmap_hash_helper`: `n` more, the next at distance `i`; `first_free` is
`none` for `~0u`. -/
def hashHelperLoop (m : HashmapS κ β) (key : κ) (curr : ℕ) : ℕ → ℕ → Option ℕ → Option ℕ
  | 0, _, firstFree => firstFree
  | n + 1, i, firstFree =>
    let index := curr + i
    match m.data index with
    | none =>
      let first := match firstFree with
        | some f => if f < index then f else index
        | none => index
      hashHelperLoop m key curr n (i + 1) (some first)
    | some e => if e.key = key then some index else hashHelperLoop m key curr n (i + 1) firstFree

/-- `hashmap_hash_helper` -/
def hashHelper (m : HashmapS κ β) (key : κ) : Option ℕ :=
  if hashmapNumEntries m = hashmapCapacity m then none
  else hashHelperLoop m key (hashHelperInt m key) linearProbeLength 0 none

/-- The loop of `hashmap_get` and of `hashmap_remove`: the slot that holds the key. -/
def probeLoop (m : HashmapS κ β) (key : κ) (curr : ℕ) : ℕ → ℕ → Option ℕ
  | 0, _ => none
  | n + 1, i =>
    match m.data (curr + i) with
    | some e => if e.key = key then some (curr + i) else probeLoop m key curr n (i + 1)
    | none => probeLoop m key curr n (i + 1)

variable [Zero κ]

/-- `NULL` is 0, as a key and as the answer for a missing one. -/
def hashmapGet [Zero β] (m : HashmapS κ β) (key : κ) : β :=
  if key = 0 then 0
  else match probeLoop m key (hashHelperInt m key) linearProbeLength 0 with
    | some index => match m.data index with
      | some e => e.data
      | none => 0
    | none => 0

def hashmapRemove (m : HashmapS κ β) (key : κ) : ℕ × HashmapS κ β :=
  if key = 0 then (1, m)
  else match probeLoop m key (hashHelperInt m key) linearProbeLength 0 with
    | some index => (0, m.blank index)
    | none => (1, m)

end Operations

section Iteration
variable {σ : Type} (f : σ → HashmapElement κ β → ℤ × σ)

/-- `n` more rounds of `hashmap_iterate_pairs`, the next at slot `i`. -/
def iteratePairsLoop : ℕ → ℕ → σ → HashmapS κ β → ℕ × σ × HashmapS κ β
  | 0, _, context, m => (0, context, m)
  | n + 1, i, context, m =>
    match m.data i with
    | none => iteratePairsLoop n (i + 1) context m
    | some e =>
      match f context e with
      | (r, context) =>
        if r = -1 then iteratePairsLoop n (i + 1) context (m.blank i)
        else if r = 0 then iteratePairsLoop n (i + 1) context m
        else (1, context, m)

def hashmapIteratePairs (context : σ) (m : HashmapS κ β) : ℕ × σ × HashmapS κ β :=
  iteratePairsLoop f (hashmapCapacity m + linearProbeLength) 0 context m

end Iteration

section Growth

/-- `hashmap_rehash_iterator`, with the `hashmap_put` it calls. -/
def rehashIterator (put : HashmapS κ β → κ → β → ℕ × HashmapS κ β) (newHash : HashmapS κ β)
    (e : HashmapElement κ β) : ℤ × HashmapS κ β :=
  match put newHash e.key e.data with
  | (temp, newHash) => if 0 < temp then (1, newHash) else (-1, newHash)

/-- `hashmap_rehash_helper` -/
def rehashHelper (put : HashmapS κ β → κ → β → ℕ × HashmapS κ β) (m : HashmapS κ β) :
    ℕ × HashmapS κ β :=
  let initialCapacity := hashmapCapacity m * 2 % 2 ^ 32
  if initialCapacity = 0 then (1, m)
  else
    match hashmapIteratePairs (rehashIterator put) (hashmapCreateEx m.hasher initialCapacity) m with
    | (flag, newM, m) => if flag ≠ 0 then (flag, m) else (0, newM)

variable [DecidableEq κ] [Zero κ]

/-- `hashmap_put` that may grow the table up to `fuel - 1` times, one within the other. -/
def hashmapPutFuel : ℕ → HashmapS κ β → κ → β → ℕ × HashmapS κ β
  | 0, m, _, _ => (1, m)
  | fuel + 1, m, key, value =>
    if key = 0 then (1, m)
    else match hashHelper m key with
      | some index => (0, m.setElement index key value)
      | none =>
        match rehashHelper (hashmapPutFuel fuel) m with
        | (flag, m) => if flag ≠ 0 then (1, m) else hashmapPutFuel fuel m key value

/-- `hashmap_put`. A table has at most 2^31 slots, so 32 less its `log2_capacity` is enough. -/
def hashmapPut (m : HashmapS κ β) (key : κ) (value : β) : ℕ × HashmapS κ β :=
  hashmapPutFuel (32 - m.log2Capacity) m key value

end Growth

end LazyfreeCache.Hashmap
