import LazyfreeCache.HitLaw
import LazyfreeCache.RandomSeeds
import Mathlib.Algebra.BigOperators.Intervals
import Mathlib.Data.Rat.Defs

/-!
The test programs of `test.c`, with the key sets of `testlib.h` and the refills
of `refill.c`, over the cache with its real table. An assertion that fails and
an `exit(1)` of a test are one fault of their own. Hit rates are exact
quotients. Prints and clocks are left out.
-/
namespace LazyfreeCache.TestlibOps

open ProgramLogic State LazyfreeOps FallthroughOps Refinement HitLaw HmapAccess TableCache

/-- How a test can stop: in the cache, or in a check of its own. -/
inductive TestFault
  | cache (e : Fault)
  | failed
  deriving DecidableEq

/-- The process of a test: its cache with the table, `__global_seed` of `test.c` and
`refill_ctx`. -/
structure TestProcess where
  cache : Sys × HmapTable
  globalSeed : UInt64
  refillSeed : UInt64
  refillCount : ℕ

abbrev T := Prog TestProcess TestFault

/-- A call of the cache; `refill_cb` counts its calls. -/
def onCache {α : Type} (padding : ℕ → UInt32) (m : M α) : T α := fun p =>
  match onTable padding m p.cache with
  | .ok (a, r) =>
    .ok (a, { p with
      cache := r
      refillCount := p.refillCount + ((newEvents p.cache.1 r.1).filterMap refilledKey).length })
  | .error e => .error (.cache e)

/-- `assert`, or `exit(1)` if the opposite holds. -/
def check (P : TestProcess → Prop) [DecidablePred P] : T Unit := do
  let p ← get
  require (P p) .failed

/-- `random_next` on `__global_seed` of `test.c`. -/
def drawNext : T UInt64 := fun p =>
  .ok ((RandomSeeds.randomNext p.globalSeed).2,
    { p with globalSeed := (RandomSeeds.randomNext p.globalSeed).1 })

/-! ### `refill.c` -/

def refillExpected (seed key : UInt64) : UInt64 := seed + key

/-- `refill_cb` stores a `uint64_t`, its lowest byte first. -/
def refillCb (seed : UInt64) (key : Key) : Buffer := fun i =>
  UInt8.ofNat ((seed + key).toNat / 256 ^ i)

/-- The `uint64_t` in a buffer. -/
def valueOf (value : Buffer) : UInt64 :=
  .ofNat (∑ i ∈ Finset.range 8, (value i).toNat * 256 ^ i)

theorem valueOf_refillCb {seed key : UInt64} {value : Buffer}
    (h : ∀ i < 8, value i = refillCb seed key i) : valueOf value = refillExpected seed key := by
  have hbyte : ∀ i < 8, (value i).toNat = (seed + key).toNat / 256 ^ i % 256 := by
    intro i hi
    rw [h i hi, refillCb, UInt8.toNat_ofNat']
  have hlt := (seed + key).toNat_lt
  unfold valueOf
  rw [← UInt64.toNat_inj, UInt64.toNat_ofNat']
  simp only [Finset.sum_range_succ, Finset.sum_range_zero, hbyte, Nat.reducePow, Nat.reduceLT]
  change _ = (seed + key).toNat
  omega

/-! ### `testlib.h` -/

/-- `struct testlib_keyset` -/
structure TestlibKeyset where
  seed : UInt64
  cnt : ℕ
  permutation : ℕ → ℕ
  pos : ℕ

def testlibSetStandardOrder (keyset : TestlibKeyset) : TestlibKeyset :=
  { keyset with permutation := fun i => if i < keyset.cnt then i else keyset.permutation i }

/-- The two entries of `permutation` change places. -/
def TestlibKeyset.swap (keyset : TestlibKeyset) (i j : ℕ) : TestlibKeyset :=
  let tmp := keyset.permutation i
  { keyset with permutation :=
      Function.update (Function.update keyset.permutation i (keyset.permutation j)) j tmp }

/-- `n` more rounds of `testlib_set_random_order`, the next for place `i`. -/
def randomOrderLoop : ℕ → ℕ → TestlibKeyset → T TestlibKeyset
  | 0, _, keyset => return keyset
  | n + 1, i, keyset => do
    let r ← drawNext
    randomOrderLoop n (i + 1) (keyset.swap i (r.toNat % keyset.cnt))

def testlibSetRandomOrder (keyset : TestlibKeyset) : T TestlibKeyset :=
  randomOrderLoop keyset.cnt 0 keyset

def testlibInitKeyset (cnt : ℕ) : T TestlibKeyset := do
  let seed := (← drawNext) + 999
  return testlibSetStandardOrder ⟨seed, cnt, fun _ => 0, 0⟩

section Programs
variable (padding : ℕ → UInt32) (env : Env) (ft : FtCache) (stack : Buffer)

/-- The key that the keyset asks for at place `i`. -/
def TestlibKeyset.keyAt (keyset : TestlibKeyset) (i : ℕ) : Key :=
  keyset.seed + UInt64.ofNat (keyset.permutation i)

/-- `testlib_get_one`. The buffer of the value is what the stack held there. -/
def testlibGetOne (keyset : TestlibKeyset) : T TestlibKeyset := do
  let key := keyset.keyAt keyset.pos
  let value ← onCache padding (ftCacheGet env ft key stack)
  check fun p => valueOf value = refillExpected p.refillSeed key
  let keyset := { keyset with pos := keyset.pos + 1 }
  if keyset.pos = keyset.cnt then
    testlibSetRandomOrder { keyset with pos := 0 }
  else
    return keyset

def getLoop : ℕ → TestlibKeyset → T TestlibKeyset
  | 0, keyset => return keyset
  | n + 1, keyset => do
    let keyset ← testlibGetOne padding env ft stack keyset
    getLoop n keyset

def testlibGetAll (keyset : TestlibKeyset) : T (ℚ × TestlibKeyset) := do
  modify fun p => { p with refillCount := 0 }
  let keyset ← getLoop padding env ft stack keyset.cnt keyset
  let keyset := testlibSetStandardOrder keyset
  let p ← get
  return ((keyset.cnt - p.refillCount) / keyset.cnt, keyset)

/-- `n` more drops of `testlib_drop_all`, the next of key `i`. -/
def dropLoop (keyset : TestlibKeyset) : ℕ → ℕ → ℕ → T ℕ
  | 0, _, hits => return hits
  | n + 1, i, hits => do
    let found ← onCache padding (ftCacheDrop env (keyset.seed + UInt64.ofNat i))
    dropLoop keyset n (i + 1) (hits + found.toNat)

def testlibDropAll (keyset : TestlibKeyset) : T ℚ := do
  let hits ← dropLoop padding env keyset keyset.cnt 0 0
  return hits / keyset.cnt

/-- `testlib_measure_set`, for its hit rate. -/
def testlibMeasureSet (keyset : TestlibKeyset) : T (ℚ × TestlibKeyset) := do
  let keyset ← testlibSetRandomOrder keyset
  testlibGetAll padding env ft stack keyset

/-! ### `test.c` -/

/-- `SMOKE_TEST_CNT` -/
def smokeTestCnt : ℕ := 10

/-- `keys[i]` -/
def smokeKey (i : ℕ) : Key := UInt64.ofNat (i + 1234)

/-- The body of the first loop of `run_smoke_test`. -/
def smokeRefill (i : ℕ) : T Unit := do
  let _ ← onCache padding (ftCacheGet env ft (smokeKey i) stack)
  check fun p => p.refillCount = i + 1

/-- The body of the second loop. -/
def smokeFind (i : ℕ) : T Unit := do
  let value ← onCache padding (ftCacheGet env ft (smokeKey i) stack)
  check fun p => valueOf value = refillExpected p.refillSeed (smokeKey i)
  check fun p => p.refillCount = 10

/-- The body of the third loop. -/
def smokeDrop (i : ℕ) : T Unit := do
  let ok ← onCache padding (ftCacheDrop env (smokeKey i))
  require (ok = true) .failed

def runSmokeTest : T Unit := do
  modify fun p => { p with refillCount := 0 }
  runAll (smokeRefill padding env ft stack) (List.range smokeTestCnt)
  runAll (smokeFind padding env ft stack) (List.range smokeTestCnt)
  runAll (smokeDrop padding env) (List.range smokeTestCnt)
  check fun p => p.refillCount = 10

def checkHitrate (size : ℕ) : T ℚ := do
  let keyset ← testlibInitKeyset (size / pageSize)
  let (hitrate1, keyset) ← testlibGetAll padding env ft stack keyset
  require (¬ 0 < hitrate1) .failed
  let (hitrate2, keyset) ← testlibGetAll padding env ft stack keyset
  require (¬ hitrate2 < hitrate1) .failed
  let _ ← testlibDropAll padding env keyset
  return hitrate2

def getSetSize (memorySize : ℕ) : ℕ := (memorySize / pageSize - 128) * pageSize

/-- `ft_cache_init` with `refill_cb`, for entries of a `uint64_t`. -/
def initCache (boot : Boot) (impl : LazyfreeImpl) (numEntries : ℕ) : T FtCache := fun p =>
  match ftCacheInit boot impl (refillCb p.refillSeed) numEntries 8 with
  | .ok (ft, s) => .ok (ft, { p with cache := (s, .new s.cache.pagesPerChunk) })
  | .error e => .error (.cache e)

/-- `suite_anon` and `suite_disk` up to their last check. -/
def suiteHitrate (boot : Boot) (impl : LazyfreeImpl) (memorySize : ℕ) : T ℚ := do
  let setSize := getSetSize memorySize
  let ft ← initCache boot impl (setSize / pageSize)
  runSmokeTest padding env ft stack
  checkHitrate padding env ft stack setSize

def suiteAnon (boot : Boot) (memorySize : ℕ) : T Unit := do
  let hitrate ← suiteHitrate padding env stack boot lazyfreeAnonImpl memorySize
  require (¬ hitrate < 1) .failed

def suiteDisk (boot : Boot) (memorySize : ℕ) : T Unit := do
  let hitrate ← suiteHitrate padding env stack boot lazyfreeDiskImpl memorySize
  require (hitrate = 1) .failed

end Programs

end LazyfreeCache.TestlibOps
