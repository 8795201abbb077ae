import LazyfreeCache.Capacity
import LazyfreeCache.ServedBytes
import LazyfreeCache.TestlibOps
import Mathlib.Logic.Equiv.Basic

/-!
What the tests of `test.c` measure. Over anon and disk chunks, as long as the
keys fit and do not crowd in the table, the hit rate of a pass over a key set is
the share of its keys that were resident, in whatever order they are drawn. So
the suites pass: the smoke test and the hit rates hold for every kernel.
-/
namespace LazyfreeCache.TestSuites

open ProgramLogic State LazyfreeOps FallthroughOps Refinement Fallthrough ReferenceSet
open EventReplay Hashmap Client FtRuns ServedBytes SlotLeaks HmapAccess HmapRuns LostPuts
open HitLaw Capacity TestlibOps
open TableCache hiding Faithful

variable {padding : ℕ → UInt32} {env : Env} {ft : FtCache} {stack : Buffer} {pages : ℕ}
  {U R : Finset Key} {key : Key} {r : Sys × HmapTable} {p : TestProcess}
  {keyset : TestlibKeyset}

/-! ### Calls of the cache -/

/-- Keys whose puts into the table return 0. -/
structure Roomy (U : Finset Key) : Prop where
  uncrowded : Uncrowded exactKeyHasher U
  card : U.card < 2 ^ 31
  nonzero : 0 ∉ U

theorem Roomy.ne_zero (hU : Roomy U) (hkey : key ∈ U) : key ≠ 0 :=
  fun heq => hU.nonzero (heq ▸ hkey)

/-- Between two calls on keys in `U`: the keys of `R` are resident. -/
structure Serving (ft : FtCache) (pages : ℕ) (U R : Finset Key) (r : Sys × HmapTable) :
    Prop where
  steady : Steady r.1
  faithful : Faithful ft r.1
  pages : r.1.cache.pagesPerChunk = pages
  keys : (residents r.1.toCore).keys = R
  coupled : Coupled (both r)
  inside : KeysInside (OrZero U) r.1.toCore

theorem Serving.mem_iff (h : Serving ft pages U R r) {k : Key} :
    k ∈ R ↔ r.2.hmapGet k ≠ none := by
  have hget : r.2.hmapGet k = r.1.cache.hmapGet k := h.coupled.simulates.get k
  rw [← Finset.mem_coe, ← h.keys, mem_residents, hget, Option.ne_none_iff_exists']

/-- A call on one of the keys leaves the table with all its puts. -/
theorem Serving.settle (hU : Roomy U) (padding : ℕ → UInt32) (h : Serving ft pages U R r)
    {call : FtCall} {q : Request Key} {found : Option Bool} {t : Sys}
    (hstep : FtStep env ft r.1 call t) (hkey : call.key ∈ U) (hanswer : Answers r.1 q found t) :
    ∃ table, TableCache.settle padding r t = (t, table) ∧
      ∀ R' : Finset Key, (residents t.toCore).keys = R' → Serving ft pages U R' (t, table) := by
  obtain ⟨es, hes⟩ := ftStep_acts h.steady.idle hstep
  have hkeys : ∀ e ∈ es, OnKeys (OrZero U) e := onKeys_of_acts (.inr hkey) hes
  have hputs : PutsStored padding r t := putsStored_of_uncrowded hU.uncrowded hU.card hU.nonzero
    h.coupled h.inside hes.performs hkeys
  obtain ⟨hsettle, -, hcoupled⟩ :=
    settle_of_stored h.coupled hes.performs ((putsStored_iff hes.performs).mp hputs)
  have hinside : KeysInside (OrZero U) t.toCore := by
    rw [hes.performs.1]
    exact replay_invariant (P := fun _ e => OnKeys (OrZero U) e) _ (keysInside_step (.inl rfl)) es
      h.inside (along_of_forall es fun e he _ => hkeys e he)
  exact ⟨_, hsettle, fun R' hR => ⟨hanswer.steady, faithful_ftStep h.steady.idle h.faithful hstep,
    hanswer.pages.trans h.pages, hR, hsettle ▸ hcoupled, hinside⟩⟩

/-- Nothing was drawn. -/
def SameSeeds (p q : TestProcess) : Prop :=
  q.globalSeed = p.globalSeed ∧ q.refillSeed = p.refillSeed

theorem wp_onCache {α : Type} {m : M α} {Q : α → TestProcess → Prop} {E : TestFault → Prop}
    {a : α} {t : Sys} (h : m p.cache.1 = .ok (a, t))
    (hr : TableCache.settle padding p.cache t = r) : wp (onCache padding m) Q E p ↔ Q a { p with
      cache := r
      refillCount := p.refillCount +
        ((newEvents p.cache.1 r.1).filterMap refilledKey).length } := by
  refine wp_of_ok ?_
  unfold onCache
  rw [onTable_ok.mpr ⟨t, h, hr.symm⟩]

theorem wp_check {P : TestProcess → Prop} [DecidablePred P] {Q : Unit → TestProcess → Prop}
    {E : TestFault → Prop} (h : P p) : wp (check P) Q E p ↔ Q () p := by
  unfold check
  rw [wp_bind, wp_get, wp_require]
  exact ⟨fun hq => hq.1 h, fun hq => ⟨fun _ => hq, fun hn => absurd h hn⟩⟩

theorem wp_drawNext {Q : UInt64 → TestProcess → Prop} {E : TestFault → Prop} :
    wp drawNext Q E p ↔ Q (RandomSeeds.randomNext p.globalSeed).2
      { p with globalSeed := (RandomSeeds.randomNext p.globalSeed).1 } := Iff.rfl

/-- A get refills its key if it is not resident. -/
theorem get_serving (hU : Roomy U) (hpages : 1 ≤ pages) (h : Serving ft pages U R p.cache)
    (hfits : (insert key R).card ≤ numberOfChunks * pages) (hkey : key ∈ U) :
    wp (onCache padding (ftCacheGet env ft key stack)) (fun v q =>
      (∀ i < ft.entrySize, v i = ft.refillCb key i) ∧ Serving ft pages U (insert key R) q.cache ∧
        SameSeeds p q ∧ q.refillCount + R.card = p.refillCount + (insert key R).card)
      (fun _ => False) p := by
  have hzero := hU.ne_zero hkey
  have hlaw : wp (ftCacheGet env ft key stack) (fun _ t => Answers p.cache.1 (.get key) none t)
      (fun _ => False) p.cache.1 := get_law h.steady hzero (h.pages ▸ hpages)
  obtain ⟨v, t, hrun, hanswer⟩ := returns_of_wp hlaw
  have hgot := ftGot_of_ok h.steady.idle hrun
  obtain ⟨table, hsettle, hserving⟩ :=
    h.settle hU padding (.get key stack v t hgot) hkey hanswer
  have hstep := hanswer.step
  rw [h.pages] at hstep
  obtain ⟨hkeys, hhit, hfill⟩ := hstep.of_workingSet hfits (Finset.mem_insert_self key R)
    (by rw [h.keys]; exact Finset.coe_subset.mpr (Finset.subset_insert key R))
  rw [h.keys, Finset.mem_coe] at hhit hfill
  rw [wp_onCache hrun hsettle]
  refine ⟨h.faithful.serves hzero hgot, hserving _ ?_, ⟨rfl, rfl⟩, ?_⟩
  · rw [hkeys, h.keys, Finset.coe_insert]
  · by_cases hmem : key ∈ R
    · have hnone : (newEvents p.cache.1 t).filterMap refilledKey = [] :=
        congrArg Outcome.refilled (hhit hmem)
      rw [Finset.insert_eq_of_mem hmem, hnone]
      rfl
    · have hone : (newEvents p.cache.1 t).filterMap refilledKey = [key] :=
        congrArg Outcome.refilled (hfill hmem)
      rw [Finset.card_insert_of_notMem hmem, hone]
      change p.refillCount + 1 + R.card = _
      omega

/-- A drop finds its key if it is resident. -/
theorem drop_serving (hU : Roomy U) (h : Serving ft pages U R p.cache) (hkey : key ∈ U) :
    wp (onCache padding (ftCacheDrop env key)) (fun b q =>
      b = decide (key ∈ R) ∧ Serving ft pages U (R.erase key) q.cache ∧ SameSeeds p q ∧
        q.refillCount = p.refillCount) (fun _ => False) p := by
  have hzero := hU.ne_zero hkey
  have hlaw : wp (ftCacheDrop env key) (fun b t => Answers p.cache.1 (.drop key) (some b) t)
      (fun _ => False) p.cache.1 := drop_law ft h.steady hzero
  obtain ⟨b, t, hrun, hanswer⟩ := returns_of_wp hlaw
  have hdropped := ftDropped_of_ok h.steady.idle hrun
  obtain ⟨table, hsettle, hserving⟩ := h.settle hU padding (.drop key b t hdropped) hkey hanswer
  obtain ⟨hrefilled, hb, hkeys⟩ : (newEvents p.cache.1 t).filterMap refilledKey = [] ∧
      b = decide (key ∈ R) ∧ (residents t.toCore).keys = R.erase key := by
    have hstep := hanswer.step
    generalize ho : seen (newEvents p.cache.1 t) (some b) = o at hstep
    have hrefilled : (newEvents p.cache.1 t).filterMap refilledKey = o.refilled :=
      congrArg Outcome.refilled ho
    have hfound : some b = o.found := congrArg Outcome.found ho
    generalize residents t.toCore = r at hstep ⊢
    cases hstep with
    | found k hmem =>
      rw [h.keys, Finset.mem_coe] at hmem
      refine ⟨hrefilled, ?_, ?_⟩
      · rw [Option.some.inj hfound, decide_eq_true hmem]
      · rw [Residents.keys_remove, h.keys, Finset.coe_erase]
    | missing k hmem =>
      rw [h.keys, Finset.mem_coe] at hmem
      refine ⟨hrefilled, ?_, ?_⟩
      · rw [Option.some.inj hfound, decide_eq_false hmem]
      · rw [h.keys, Finset.erase_eq_of_notMem hmem]
  rw [wp_onCache hrun hsettle]
  refine ⟨hb, hserving _ hkeys, ⟨rfl, rfl⟩, ?_⟩
  rw [hrefilled]
  rfl

/-! ### Key sets -/

/-- `n` keys in a row. -/
def keyRange (seed : UInt64) (n : ℕ) : Finset Key :=
  (Finset.range n).image fun i => seed + UInt64.ofNat i

/-- The keys of a key set. -/
def keysOf (keyset : TestlibKeyset) : Finset Key := keyRange keyset.seed keyset.cnt

/-- The keys that are asked for at the first `i` places. -/
def firstKeys (keyset : TestlibKeyset) (i : ℕ) : Finset Key :=
  (Finset.range i).image keyset.keyAt

/-- Each of the `cnt` keys has one place. -/
structure Shuffled (keyset : TestlibKeyset) : Prop where
  lt : ∀ i < keyset.cnt, keyset.permutation i < keyset.cnt
  injective : ∀ i < keyset.cnt, ∀ j < keyset.cnt,
    keyset.permutation i = keyset.permutation j → i = j

/-- The two key sets have the same keys. -/
structure SameKeys (keyset keyset' : TestlibKeyset) : Prop where
  seed : keyset'.seed = keyset.seed
  cnt : keyset'.cnt = keyset.cnt

theorem SameKeys.keysOf_eq {keyset' : TestlibKeyset} (h : SameKeys keyset keyset') :
    keysOf keyset' = keysOf keyset := by
  unfold keysOf
  rw [h.seed, h.cnt]

theorem permutation_swap (keyset : TestlibKeyset) (i j x : ℕ) :
    (keyset.swap i j).permutation x = keyset.permutation (Equiv.swap i j x) := by
  unfold TestlibKeyset.swap
  dsimp only
  rw [Equiv.swap_apply_def]
  by_cases hj : x = j
  · subst hj
    rw [Function.update_self, if_pos rfl]
    split
    · rename_i hi
      rw [hi]
    · rfl
  · rw [Function.update_of_ne hj, if_neg hj]
    by_cases hi : x = i
    · rw [hi, Function.update_self, if_pos rfl]
    · rw [Function.update_of_ne hi, if_neg hi]

theorem Shuffled.swap (h : Shuffled keyset) {i j : ℕ} (hi : i < keyset.cnt)
    (hj : j < keyset.cnt) : Shuffled (keyset.swap i j) := by
  have hlt : ∀ x < keyset.cnt, Equiv.swap i j x < keyset.cnt := by
    intro x hx
    rw [Equiv.swap_apply_def]
    split
    · exact hj
    · split
      · exact hi
      · exact hx
  constructor
  · intro x hx
    rw [permutation_swap]
    exact h.lt _ (hlt x hx)
  · intro x hx y hy hxy
    rw [permutation_swap, permutation_swap] at hxy
    exact (Equiv.swap i j).injective (h.injective _ (hlt x hx) _ (hlt y hy) hxy)

theorem shuffled_standardOrder (keyset : TestlibKeyset) :
    Shuffled (testlibSetStandardOrder keyset) := by
  have hplace : ∀ i < keyset.cnt, (testlibSetStandardOrder keyset).permutation i = i :=
    fun i hi => if_pos hi
  constructor
  · intro i hi
    rw [hplace i hi]
    exact hi
  · intro i hi j hj hij
    rwa [hplace i hi, hplace j hj] at hij

/-- All places together ask for all keys. -/
theorem firstKeys_cnt (h : Shuffled keyset) : firstKeys keyset keyset.cnt = keysOf keyset := by
  have hplaces : (Finset.range keyset.cnt).image keyset.permutation = Finset.range keyset.cnt := by
    refine Finset.eq_of_subset_of_card_le (fun x hx => ?_) ?_
    · obtain ⟨i, hi, rfl⟩ := Finset.mem_image.mp hx
      exact Finset.mem_range.mpr (h.lt i (Finset.mem_range.mp hi))
    · rw [Finset.card_image_of_injOn]
      exact fun i hi j hj => h.injective i (Finset.mem_range.mp hi) j (Finset.mem_range.mp hj)
  unfold keysOf keyRange
  rw [← hplaces, Finset.image_image]
  rfl

theorem firstKeys_succ (keyset : TestlibKeyset) (i : ℕ) :
    firstKeys keyset (i + 1) = insert (keyset.keyAt i) (firstKeys keyset i) := by
  unfold firstKeys
  rw [Finset.range_add_one, Finset.image_insert]

theorem firstKeys_subset (h : Shuffled keyset) {i : ℕ} (hi : i ≤ keyset.cnt) :
    firstKeys keyset i ⊆ keysOf keyset := by
  rw [← firstKeys_cnt h]
  exact Finset.image_subset_image (Finset.range_subset_range.mpr hi)

theorem key_injective {seed : UInt64} {i j : ℕ} (hi : i < 2 ^ 64) (hj : j < 2 ^ 64)
    (h : seed + UInt64.ofNat i = seed + UInt64.ofNat j) : i = j := by
  have hnat := congrArg UInt64.toNat ((UInt64.add_right_inj _).mp h)
  rw [UInt64.toNat_ofNat', UInt64.toNat_ofNat'] at hnat
  omega

theorem card_keysOf (h : keyset.cnt ≤ 2 ^ 64) : (keysOf keyset).card = keyset.cnt := by
  unfold keysOf keyRange
  rw [Finset.card_image_of_injOn, Finset.card_range]
  intro i hi j hj hij
  have hi' := Finset.mem_range.mp hi
  have hj' := Finset.mem_range.mp hj
  exact key_injective (by omega) (by omega) hij

theorem keyRange_succ (seed : UInt64) (i : ℕ) :
    keyRange seed (i + 1) = insert (seed + UInt64.ofNat i) (keyRange seed i) := by
  unfold keyRange
  rw [Finset.range_add_one, Finset.image_insert]

theorem key_notMem_keyRange {seed : UInt64} {i : ℕ} (hi : i < 2 ^ 64) :
    seed + UInt64.ofNat i ∉ keyRange seed i := by
  intro hmem
  obtain ⟨j, hj, hij⟩ := Finset.mem_image.mp hmem
  have hlt := Finset.mem_range.mp hj
  have heq := key_injective (by omega) hi hij
  omega

/-- The key set after a shuffle. -/
structure Reordered (keyset keyset' : TestlibKeyset) : Prop where
  shuffled : Shuffled keyset'
  same : SameKeys keyset keyset'
  pos : keyset'.pos = keyset.pos

theorem randomOrderLoop_spec (keyset : TestlibKeyset) {n i : ℕ} (h : Shuffled keyset)
    (hsum : i + n = keyset.cnt) (p : TestProcess) :
    wp (randomOrderLoop n i keyset) (fun keyset' q =>
      Reordered keyset keyset' ∧ q = { p with globalSeed := q.globalSeed }) (fun _ => False) p := by
  induction n generalizing i keyset p with
  | zero => exact ⟨⟨h, ⟨rfl, rfl⟩, rfl⟩, rfl⟩
  | succ n ih =>
    unfold randomOrderLoop
    rw [wp_bind, wp_drawNext]
    have hswap := h.swap (by omega : i < keyset.cnt)
      (Nat.mod_lt (RandomSeeds.randomNext p.globalSeed).2.toNat (by omega : 0 < keyset.cnt))
    refine wp_mono (ih _ hswap (by change i + 1 + n = keyset.cnt; omega) _) ?_ fun _ h => h
    rintro keyset' q ⟨hkeyset, hq⟩
    refine ⟨⟨hkeyset.shuffled, ⟨hkeyset.same.seed, hkeyset.same.cnt⟩, hkeyset.pos⟩, ?_⟩
    rw [hq]

theorem setRandomOrder_spec (h : Shuffled keyset) (p : TestProcess) :
    wp (testlibSetRandomOrder keyset) (fun keyset' q =>
      Reordered keyset keyset' ∧ q = { p with globalSeed := q.globalSeed }) (fun _ => False) p :=
  randomOrderLoop_spec keyset h (Nat.zero_add _) p

/-! ### Passes over a key set -/

/-- The cache was made with `refill_cb`. -/
structure Refills (ft : FtCache) (p : TestProcess) : Prop where
  refillCb : ft.refillCb = refillCb p.refillSeed
  entrySize : ft.entrySize = 8

theorem Refills.of_same {q : TestProcess} (h : Refills ft p) (hseed : q.refillSeed = p.refillSeed) :
    Refills ft q := ⟨by rw [hseed]; exact h.refillCb, h.entrySize⟩

/-- A get returns what `refill_cb` stores for the key. -/
theorem get_value (hU : Roomy U) (hpages : 1 ≤ pages) (h : Serving ft pages U R p.cache)
    (hrefills : Refills ft p) (hfits : (insert key R).card ≤ numberOfChunks * pages)
    (hkey : key ∈ U) :
    wp (onCache padding (ftCacheGet env ft key stack)) (fun v q =>
      valueOf v = refillExpected q.refillSeed key ∧ Serving ft pages U (insert key R) q.cache ∧
        Refills ft q ∧ SameSeeds p q ∧
        q.refillCount + R.card = p.refillCount + (insert key R).card) (fun _ => False) p := by
  refine wp_mono (get_serving hU hpages h hfits hkey) ?_ fun _ h => h
  rintro v q ⟨hserved, hserving, hseeds, hcount⟩
  have hrefills' := hrefills.of_same hseeds.2
  rw [hrefills'.refillCb, hrefills'.entrySize] at hserved
  exact ⟨valueOf_refillCb hserved, hserving, hrefills', hseeds, hcount⟩

/-- After the first `i` gets of a pass, with `refill_ctx.count` at the keys that were missing. -/
structure Passing (ft : FtCache) (pages : ℕ) (U R : Finset Key) (keyset : TestlibKeyset) (i : ℕ)
    (p : TestProcess) : Prop where
  serving : Serving ft pages U (R ∪ firstKeys keyset i) p.cache
  count : p.refillCount + R.card = (R ∪ firstKeys keyset i).card
  refills : Refills ft p

/-- A pass that starts with the keys of `R` in the cache has room for all its keys. -/
structure Fits (pages : ℕ) (U R : Finset Key) (keyset : TestlibKeyset) : Prop where
  pos : 1 ≤ pages
  card : (R ∪ keysOf keyset).card ≤ numberOfChunks * pages
  inside : keysOf keyset ⊆ U

/-- One get of a pass. -/
theorem get_passing (hU : Roomy U) (hfits : Fits pages U R keyset)
    (hshuffled : Shuffled keyset) {i : ℕ} (hi : i < keyset.cnt)
    (h : Passing ft pages U R keyset i p) :
    wp (onCache padding (ftCacheGet env ft (keyset.keyAt i) stack)) (fun v q =>
      valueOf v = refillExpected q.refillSeed (keyset.keyAt i) ∧
        Passing ft pages U R keyset (i + 1) q) (fun _ => False) p := by
  have hmem : keyset.keyAt i ∈ keysOf keyset := by
    refine firstKeys_subset hshuffled hi ?_
    rw [firstKeys_succ]
    exact Finset.mem_insert_self _ _
  have hinsert : insert (keyset.keyAt i) (R ∪ firstKeys keyset i) =
      R ∪ firstKeys keyset (i + 1) := by
    rw [firstKeys_succ, Finset.union_insert]
  have hsub : R ∪ firstKeys keyset (i + 1) ⊆ R ∪ keysOf keyset :=
    Finset.union_subset_union_right (firstKeys_subset hshuffled hi)
  have hroom : (insert (keyset.keyAt i) (R ∪ firstKeys keyset i)).card ≤
      numberOfChunks * pages := by
    rw [hinsert]
    exact (Finset.card_le_card hsub).trans hfits.card
  refine wp_mono (get_value hU hfits.pos h.serving h.refills hroom (hfits.inside hmem)) ?_
    fun _ h => h
  rintro v q ⟨hvalue, hserving, hrefills, -, hcount⟩
  have hbefore := h.count
  rw [hinsert] at hserving hcount
  exact ⟨hvalue, hserving, by omega, hrefills⟩

/-- `testlib_get_one` goes on to the next key, and after the last one it shuffles. -/
theorem getOne_spec (hU : Roomy U) (hfits : Fits pages U R keyset) (hshuffled : Shuffled keyset)
    (hlt : keyset.pos < keyset.cnt) (h : Passing ft pages U R keyset keyset.pos p) :
    wp (testlibGetOne padding env ft stack keyset) (fun keyset' q =>
      Passing ft pages U R keyset (keyset.pos + 1) q ∧
        if keyset.pos + 1 = keyset.cnt then Reordered { keyset with pos := 0 } keyset'
        else keyset' = { keyset with pos := keyset.pos + 1 }) (fun _ => False) p := by
  unfold testlibGetOne
  dsimp only
  rw [wp_bind]
  refine wp_mono (get_passing hU hfits hshuffled hlt h) ?_ fun _ h => h
  rintro v q ⟨hvalue, hpassing⟩
  rw [wp_bind, wp_check hvalue]
  by_cases hlast : keyset.pos + 1 = keyset.cnt
  · rw [if_pos hlast]
    have hrewound : Shuffled { keyset with pos := 0 } := ⟨hshuffled.lt, hshuffled.injective⟩
    refine wp_mono (setRandomOrder_spec hrewound q) ?_ fun _ h => h
    rintro keyset' t ⟨hkeyset, ht⟩
    rw [if_pos hlast, ht]
    exact ⟨⟨hpassing.serving, hpassing.count, hpassing.refills.of_same rfl⟩, hkeyset⟩
  · rw [if_neg hlast, wp_pure, if_neg hlast]
    exact ⟨hpassing, rfl⟩

/-- `n` more gets of a pass and the last one. -/
theorem getLoop_spec (hU : Roomy U) (hfits : Fits pages U R keyset)
    (hshuffled : Shuffled keyset) {n : ℕ} (hsum : keyset.pos + n + 1 = keyset.cnt)
    (h : Passing ft pages U R keyset keyset.pos p) :
    wp (getLoop padding env ft stack (n + 1) keyset) (fun keyset' q =>
      Reordered { keyset with pos := 0 } keyset' ∧ Passing ft pages U R keyset keyset.cnt q)
      (fun _ => False) p := by
  induction n generalizing keyset p with
  | zero =>
    unfold getLoop
    rw [wp_bind]
    refine wp_mono (getOne_spec hU hfits hshuffled (by omega) h) ?_ fun _ h => h
    rintro keyset' q ⟨hpassing, hkeyset⟩
    have hlast : keyset.pos + 1 = keyset.cnt := hsum
    rw [if_pos hlast] at hkeyset
    rw [hlast] at hpassing
    exact ⟨hkeyset, hpassing⟩
  | succ n ih =>
    unfold getLoop
    rw [wp_bind]
    refine wp_mono (getOne_spec hU hfits hshuffled (by omega) h) ?_ fun _ h => h
    rintro keyset' q ⟨hpassing, hkeyset⟩
    rw [if_neg (by omega)] at hkeyset
    subst hkeyset
    -- the place in the order is no part of what a pass has reached
    refine wp_mono (ih ⟨hfits.pos, hfits.card, hfits.inside⟩
      ⟨hshuffled.lt, hshuffled.injective⟩ (by dsimp only; omega)
      ⟨hpassing.serving, hpassing.count, hpassing.refills⟩) ?_ fun _ h => h
    rintro keyset' t ⟨hkeyset, hpass⟩
    exact ⟨⟨hkeyset.shuffled, ⟨hkeyset.same.seed, hkeyset.same.cnt⟩, hkeyset.pos⟩,
      ⟨hpass.serving, hpass.count, hpass.refills⟩⟩

/-- The share of the keys of a key set that are in `R`. -/
def share (R : Finset Key) (keyset : TestlibKeyset) : ℚ := (R ∩ keysOf keyset).card / keyset.cnt

theorem share_empty (keyset : TestlibKeyset) : share ∅ keyset = 0 := by
  unfold share
  rw [Finset.empty_inter, Finset.card_empty, Nat.cast_zero, zero_div]

theorem share_of_subset (h : keysOf keyset ⊆ R) (hcnt : 0 < keyset.cnt)
    (hbound : keyset.cnt ≤ 2 ^ 64) : share R keyset = 1 := by
  unfold share
  rw [Finset.inter_eq_right.mpr h, card_keysOf hbound]
  exact div_self (Nat.cast_ne_zero.mpr (by omega))

/-- A pass over a key set, in whatever order it has. -/
theorem getAll_spec (padding : ℕ → UInt32) (env : Env) (stack : Buffer) (hU : Roomy U)
    (hfits : Fits pages U R keyset) (hshuffled : Shuffled keyset) (hcnt : 0 < keyset.cnt)
    (hbound : keyset.cnt ≤ 2 ^ 64) (hpos : keyset.pos = 0) (h : Serving ft pages U R p.cache)
    (hrefills : Refills ft p) :
    wp (testlibGetAll padding env ft stack keyset) (fun r q =>
      r.1 = share R keyset ∧ Reordered keyset r.2 ∧ Serving ft pages U (R ∪ keysOf keyset) q.cache ∧
        Refills ft q) (fun _ => False) p := by
  obtain ⟨n, hn⟩ : ∃ n, keyset.cnt = n + 1 := ⟨keyset.cnt - 1, by omega⟩
  have hempty : R ∪ firstKeys keyset 0 = R := Finset.union_empty R
  have hstart : Passing ft pages U R keyset 0 { p with refillCount := 0 } := by
    refine ⟨?_, ?_, hrefills.of_same rfl⟩
    · rw [hempty]
      exact h
    · rw [hempty]
      exact Nat.zero_add _
  unfold testlibGetAll
  rw [wp_bind, wp_modify, wp_bind, hn]
  refine wp_mono (getLoop_spec hU hfits hshuffled (by omega) (by rw [hpos]; exact hstart)) ?_
    fun _ h => h
  rintro keyset' q ⟨hkeyset, hpass⟩
  rw [wp_bind, wp_get, wp_pure]
  have hserving := hpass.serving
  have hcount := hpass.count
  rw [firstKeys_cnt hshuffled] at hserving hcount
  have hcnt' : keyset'.cnt = keyset.cnt := hkeyset.same.cnt
  refine ⟨?_, ⟨shuffled_standardOrder keyset', ⟨hkeyset.same.seed, hcnt'⟩,
    hkeyset.pos.trans hpos.symm⟩, hserving, hpass.refills⟩
  have hsplit := Finset.card_union_add_card_inter R (keysOf keyset)
  rw [card_keysOf hbound] at hsplit
  have hhits : (keyset.cnt : ℚ) = q.refillCount + (R ∩ keysOf keyset).card := by
    have hnat : keyset.cnt = q.refillCount + (R ∩ keysOf keyset).card := by omega
    exact_mod_cast hnat
  change ((keyset'.cnt : ℚ) - q.refillCount) / keyset'.cnt = share R keyset
  rw [hcnt', share]
  congr 1
  rw [hhits, add_sub_cancel_left]

/-- The pass of `testlib_measure_set`, for any draws. -/
theorem measureSet_spec (padding : ℕ → UInt32) (env : Env) (stack : Buffer) (hU : Roomy U)
    (hfits : Fits pages U R keyset) (hshuffled : Shuffled keyset) (hcnt : 0 < keyset.cnt)
    (hbound : keyset.cnt ≤ 2 ^ 64) (hpos : keyset.pos = 0) (h : Serving ft pages U R p.cache)
    (hrefills : Refills ft p) :
    wp (testlibMeasureSet padding env ft stack keyset) (fun r q =>
      r.1 = share R keyset ∧ Reordered keyset r.2 ∧ Serving ft pages U (R ∪ keysOf keyset) q.cache ∧
        Refills ft q) (fun _ => False) p := by
  unfold testlibMeasureSet
  rw [wp_bind]
  refine wp_mono (setRandomOrder_spec hshuffled p) ?_ fun _ h => h
  rintro keyset' q ⟨hkeyset, hq⟩
  have hkeys := hkeyset.same.keysOf_eq
  have hserving : Serving ft pages U R q.cache := by
    rw [hq]
    exact h
  have hpass := getAll_spec padding env stack hU
    ⟨hfits.pos, by rw [hkeys]; exact hfits.card, by rw [hkeys]; exact hfits.inside⟩
    hkeyset.shuffled (by rw [hkeyset.same.cnt]; exact hcnt) (by rw [hkeyset.same.cnt]; exact hbound)
    (hkeyset.pos.trans hpos) hserving (hrefills.of_same (by rw [hq]))
  refine wp_mono hpass ?_ fun _ h => h
  rintro r t ⟨hrate, hreordered, hserving', hrefills'⟩
  rw [hkeys] at hserving'
  refine ⟨?_, ⟨hreordered.shuffled, ⟨hreordered.same.seed.trans hkeyset.same.seed,
    hreordered.same.cnt.trans hkeyset.same.cnt⟩, hreordered.pos.trans hkeyset.pos⟩, hserving',
    hrefills'⟩
  rw [hrate, share, share, hkeys, hkeyset.same.cnt]

theorem dropLoop_spec (hU : Roomy U) (hinside : keysOf keyset ⊆ U)
    (hbound : keyset.cnt ≤ 2 ^ 64) {n i hits : ℕ} (hsum : i + n = keyset.cnt)
    (h : Serving ft pages U (R \ keyRange keyset.seed i) p.cache) (hrefills : Refills ft p) :
    wp (dropLoop padding env keyset n i hits) (fun hits' q =>
      hits' + (R ∩ keyRange keyset.seed i).card = hits + (R ∩ keysOf keyset).card ∧
        Serving ft pages U (R \ keysOf keyset) q.cache ∧ Refills ft q) (fun _ => False) p := by
  induction n generalizing i hits p with
  | zero =>
    obtain rfl : i = keyset.cnt := hsum
    exact ⟨rfl, h, hrefills⟩
  | succ n ih =>
    have hout : keyset.seed + UInt64.ofNat i ∉ keyRange keyset.seed i :=
      key_notMem_keyRange (by omega)
    have hkey : keyset.seed + UInt64.ofNat i ∈ U :=
      hinside (Finset.mem_image_of_mem _ (Finset.mem_range.mpr (by omega)))
    unfold dropLoop
    rw [wp_bind]
    refine wp_mono (drop_serving hU h hkey) ?_ fun _ h => h
    rintro found q ⟨hfound, hserving, hseeds, -⟩
    have hrest : (R \ keyRange keyset.seed i).erase (keyset.seed + UInt64.ofNat i) =
        R \ keyRange keyset.seed (i + 1) := by
      rw [keyRange_succ, Finset.sdiff_insert]
    have hhits : (R ∩ keyRange keyset.seed (i + 1)).card =
        (R ∩ keyRange keyset.seed i).card + found.toNat := by
      rw [hfound, keyRange_succ]
      by_cases hmem : keyset.seed + UInt64.ofNat i ∈ R
      · rw [Finset.inter_insert_of_mem hmem, Finset.card_insert_of_notMem
          fun hin => hout (Finset.mem_inter.mp hin).2,
          decide_eq_true (Finset.mem_sdiff.mpr ⟨hmem, hout⟩)]
        rfl
      · rw [Finset.inter_insert_of_notMem hmem,
          decide_eq_false fun hin => hmem (Finset.mem_sdiff.mp hin).1]
        rfl
    rw [hrest] at hserving
    refine wp_mono (ih (by omega) hserving (hrefills.of_same hseeds.2)) ?_ fun _ h => h
    rintro hits' t ⟨hsum', hserving', hrefills'⟩
    exact ⟨by omega, hserving', hrefills'⟩

/-- What `testlib_drop_all` returns and leaves. -/
theorem dropAll_spec (padding : ℕ → UInt32) (env : Env) (hU : Roomy U)
    (hinside : keysOf keyset ⊆ U) (hbound : keyset.cnt ≤ 2 ^ 64)
    (h : Serving ft pages U R p.cache) (hrefills : Refills ft p) :
    wp (testlibDropAll padding env keyset) (fun r q =>
      r = share R keyset ∧ Serving ft pages U (R \ keysOf keyset) q.cache ∧ Refills ft q)
      (fun _ => False) p := by
  have hnone : keyRange keyset.seed 0 = ∅ := rfl
  unfold testlibDropAll
  rw [wp_bind]
  refine wp_mono (dropLoop_spec hU hinside hbound (Nat.zero_add _)
    (by rw [hnone, Finset.sdiff_empty]; exact h) hrefills) ?_ fun _ h => h
  rintro hits q ⟨hsum, hserving, hrefills'⟩
  rw [hnone, Finset.inter_empty, Finset.card_empty, Nat.add_zero, Nat.zero_add] at hsum
  rw [wp_pure, hsum]
  exact ⟨rfl, hserving, hrefills'⟩

/-! ### Hit rates after any run -/

theorem serving_of_created (ft : FtCache) {a : ℕ} (hs : Created 0 a r.1) (hr : Coupled (both r))
    (U : Finset Key) : Serving ft r.1.cache.pagesPerChunk U ∅ r where
  steady := steady_of_created hs
  faithful := faithful_of_created hs
  pages := rfl
  keys := by rw [residents_created hs, Residents.keys_empty, Finset.coe_empty]
  coupled := hr
  inside := keysInside_created hs

theorem serving_run (hU : Roomy U) (padding : ℕ → UInt32) (env : Env) (hpages : 1 ≤ pages)
    {calls : List FtCall} (hcalls : ∀ call ∈ calls, call.key ∈ U) (h : Serving ft pages U R r) :
    ∃ r' R', tableRun padding (ftExec env ft) calls r = .ok ((), r') ∧
      Serving ft pages U R' r' := by
  induction calls generalizing r R with
  | nil => exact ⟨r, R, rfl, h⟩
  | cons call calls ih =>
    have hkey := hcalls call List.mem_cons_self
    obtain ⟨found, t, -, hexec, hanswer⟩ :=
      ftExec_law env ft (h.pages ▸ hpages) h.steady (hU.ne_zero hkey)
    obtain ⟨table, hsettle, hserving⟩ :=
      h.settle hU padding (ftStep_of_ok h.steady.idle hexec) hkey hanswer
    have hkeys : (residents t.toCore).keys = mappedKeys t.cache := Set.ext fun _ => mem_residents
    rw [hanswer.steady.packed.owned.mappedKeys_eq] at hkeys
    obtain ⟨r', R', hrun, hR⟩ := ih (fun c hc => hcalls c (List.mem_cons_of_mem call hc))
      (hserving _ hkeys)
    exact ⟨r', R', (runAll_cons_ok _).mpr ⟨_, onTable_ok.mpr ⟨t, hexec, hsettle.symm⟩, hrun⟩, hR⟩

/-- After any run over anon or disk chunks, and for a key set in any order that fits beside the
keys that are there, `testlib_measure_set` returns the share of its keys that are there, for any
draws, and `testlib_drop_all` finds all of its keys then and takes away no others. -/
theorem measured_hitrate {boot : Boot} {capacity a d : ℕ} {r₀ : Sys × HmapTable}
    (hnew : tableCacheNewEx boot capacity 0 a d = some r₀)
    (hpages : 1 ≤ r₀.1.cache.pagesPerChunk) (hU : Roomy U) (padding : ℕ → UInt32) (env : Env)
    (ft : FtCache) (stack : Buffer) {seed : UInt64} (hrefill : ft.refillCb = refillCb seed)
    (hsize : ft.entrySize = 8) (calls : List FtCall) (hcalls : ∀ call ∈ calls, call.key ∈ U) :
    ∃ r, ∃ R : Finset Key, tableRun padding (ftExec env ft) calls r₀ = .ok ((), r) ∧
      (∀ k, k ∈ R ↔ r.2.hmapGet k ≠ none) ∧
      ∀ keyset globalSeed count, Shuffled keyset → 0 < keyset.cnt → keyset.cnt ≤ 2 ^ 64 →
        keyset.pos = 0 → Fits r₀.1.cache.pagesPerChunk U R keyset → ∃ keyset' q q',
          testlibMeasureSet padding env ft stack keyset ⟨r, globalSeed, seed, count⟩ =
              .ok ((share R keyset, keyset'), q) ∧
            testlibDropAll padding env keyset' q = .ok (1, q') ∧
            ∀ k, k ∈ R \ keysOf keyset ↔ q'.cache.2.hmapGet k ≠ none := by
  have hcreated := (created_of_new (tableCacheNewEx_some.mp hnew).1).1
  obtain ⟨r, R, hrun, hserving⟩ := serving_run hU padding env hpages hcalls
    (serving_of_created ft hcreated (coupled_new hnew) U)
  refine ⟨r, R, hrun, fun k => hserving.mem_iff, ?_⟩
  intro keyset globalSeed count hshuffled hcnt hbound hpos hfits
  obtain ⟨⟨rate, keyset'⟩, q, hmeasure, hrate, hkeyset, hq, hrefills⟩ := returns_of_wp
    (measureSet_spec (p := ⟨r, globalSeed, seed, count⟩) padding env stack hU hfits hshuffled hcnt
      hbound hpos hserving ⟨hrefill, hsize⟩)
  dsimp only at hrate hkeyset
  subst hrate
  have hkeys := hkeyset.same.keysOf_eq
  have hcnt' := hkeyset.same.cnt
  obtain ⟨rate, q', hdrop, hall, hq', -⟩ := returns_of_wp
    (dropAll_spec padding env hU (by rw [hkeys]; exact hfits.inside) (by omega) hq hrefills)
  have hone : share (R ∪ keysOf keyset) keyset' = 1 := by
    refine share_of_subset ?_ (by omega) (by omega)
    rw [hkeys]
    exact Finset.subset_union_right
  rw [hone] at hall
  subst hall
  refine ⟨keyset', q, q', hmeasure, hdrop, fun k => ?_⟩
  rw [← hq'.mem_iff, hkeys, Finset.union_sdiff_right]

/-- Key 7 is there, and key 8 is new. -/
theorem measured_hitrate_half : ∃ r keyset keyset' q q',
    tableRun (fun _ => 0) (ftExec calm ⟨refillCb 5, 8, by decide⟩) [.get 7 blank] anonTable =
        .ok ((), r) ∧
      testlibMeasureSet (fun _ => 0) calm ⟨refillCb 5, 8, by decide⟩ blank keyset ⟨r, 2, 5, 0⟩ =
        .ok ((1 / 2, keyset'), q) ∧
      testlibDropAll (fun _ => 0) calm keyset' q = .ok (1, q') := by
  obtain ⟨ft, hft⟩ : ∃ ft : FtCache, ft = ⟨refillCb 5, 8, by decide⟩ := ⟨_, rfl⟩
  have hU : Roomy {7, 8} := ⟨by decide +kernel, by decide, by decide⟩
  have hcalls : ∀ call ∈ [FtCall.get 7 blank], call.key ∈ ({7, 8} : Finset Key) := by
    simp [FtCall.key]
  obtain ⟨r, R, hrun, hR, hmeasured⟩ := measured_hitrate anonTable_new (by decide +kernel) hU
    (fun _ => 0) calm ft blank (by rw [hft]) (by rw [hft]) _ hcalls
  -- of the 32 pages 31 are free
  obtain ⟨hmem, hfree⟩ : r.2.hmapGet 7 ≠ none ∧ r.1.cache.totalFreePages = 31 := by
    rw [hft] at hrun
    cases hrun
    exact ⟨by decide +kernel, by decide +kernel⟩
  have hserving : ∃ R', Serving ft 1 {7, 8} R' r := by
    obtain ⟨r', R', hrun', hR'⟩ := serving_run hU (fun _ => 0) calm (le_refl 1) hcalls
      (serving_of_created ft (created_of_new anonCache_new).1 (coupled_new anonTable_new) {7, 8})
    cases hrun.symm.trans hrun'
    exact ⟨R', hR'⟩
  obtain ⟨R', hR'⟩ := hserving
  obtain rfl : R = R' := Finset.ext fun k => (hR k).trans hR'.mem_iff.symm
  have hone : R = {7} := by
    have hcount := hR'.steady.packed.ncard_residents
    rw [hR'.keys, Set.ncard_coe_finset, hfree, hR'.pages] at hcount
    have hcard : R.card = 1 := by
      unfold numberOfChunks at hcount
      omega
    obtain ⟨k, rfl⟩ := Finset.card_eq_one.mp hcard
    rw [Finset.mem_singleton.mp ((hR 7).mpr hmem)]
  subst hone
  obtain ⟨keyset', q, q', hmeasure, hdrop, -⟩ := hmeasured
    (testlibSetStandardOrder ⟨7, 2, fun _ => 0, 0⟩) 2 0 (shuffled_standardOrder _) (by decide)
    (by decide) rfl ⟨by decide +kernel, by decide +kernel, by decide +kernel⟩
  have hshare : share {7} (testlibSetStandardOrder ⟨7, 2, fun _ => 0, 0⟩) = 1 / 2 := by
    decide +kernel
  rw [hshare] at hmeasure
  exact ⟨r, _, keyset', q, q', hft ▸ hrun, hft ▸ hmeasure, hdrop⟩

/-! ### The suites -/

/-- The first `n` keys of the smoke test. -/
def smokeKeys (n : ℕ) : Finset Key := (Finset.range n).image smokeKey

theorem toNat_smokeKey {i : ℕ} (hi : i < smokeTestCnt) : (smokeKey i).toNat = i + 1234 := by
  unfold smokeTestCnt at hi
  unfold smokeKey
  rw [UInt64.toNat_ofNat']
  omega

theorem smokeKey_ne_zero {i : ℕ} (hi : i < smokeTestCnt) : smokeKey i ≠ 0 := by
  intro h
  have hnat := toNat_smokeKey hi
  rw [h] at hnat
  cases hnat

theorem smokeKeys_succ (n : ℕ) : smokeKeys (n + 1) = insert (smokeKey n) (smokeKeys n) := by
  unfold smokeKeys
  rw [Finset.range_add_one, Finset.image_insert]

theorem smokeKey_notMem {i : ℕ} (hi : i < smokeTestCnt) : smokeKey i ∉ smokeKeys i := by
  intro hmem
  obtain ⟨j, hj, hij⟩ := Finset.mem_image.mp hmem
  have hlt := Finset.mem_range.mp hj
  have hnat := congrArg UInt64.toNat hij
  rw [toNat_smokeKey hi, toNat_smokeKey (hlt.trans hi)] at hnat
  omega

theorem card_smokeKeys {n : ℕ} (hn : n ≤ smokeTestCnt) : (smokeKeys n).card = n := by
  induction n with
  | zero => rfl
  | succ n ih =>
    rw [smokeKeys_succ, Finset.card_insert_of_notMem (smokeKey_notMem hn), ih (by omega)]

/-- Between two calls of the smoke test. -/
structure Smoking (ft : FtCache) (pages : ℕ) (U R : Finset Key) (count : ℕ)
    (p q : TestProcess) : Prop where
  serving : Serving ft pages U R q.cache
  refills : Refills ft q
  count : q.refillCount = count
  same : SameSeeds p q

variable {count : ℕ} {q : TestProcess}

theorem get_smoking (hU : Roomy U) (hpages : 1 ≤ pages) (h : Smoking ft pages U R count p q)
    (hR : (insert key R).card ≤ smokeTestCnt) (hkey : key ∈ U) :
    wp (onCache padding (ftCacheGet env ft key stack)) (fun v t =>
      valueOf v = refillExpected t.refillSeed key ∧
        Smoking ft pages U (insert key R) (count + (insert key R).card - R.card) p t)
      (fun _ => False) q := by
  have hroom : (insert key R).card ≤ numberOfChunks * pages := by
    unfold smokeTestCnt at hR
    unfold numberOfChunks
    omega
  refine wp_mono (get_value hU hpages h.serving h.refills hroom hkey) ?_ fun _ h => h
  rintro v t ⟨hvalue, hserving, hrefills, hseeds, hcount⟩
  have hbefore := h.count
  exact ⟨hvalue, hserving, hrefills, by omega, hseeds.1.trans h.same.1,
    hseeds.2.trans h.same.2⟩

theorem smokeKey_mem {i : ℕ} (hi : i < smokeTestCnt) : smokeKey i ∈ smokeKeys smokeTestCnt :=
  Finset.mem_image_of_mem _ (Finset.mem_range.mpr hi)

section Smoke
variable (hU : Roomy U) (hinside : smokeKeys smokeTestCnt ⊆ U)
include hU hinside

theorem smokeRefill_spec (hpages : 1 ≤ pages) {i : ℕ} (hi : i < smokeTestCnt)
    (h : Smoking ft pages U (smokeKeys i) i p q) :
    wp (smokeRefill padding env ft stack i)
      (fun _ t => Smoking ft pages U (smokeKeys (i + 1)) (i + 1) p t) (fun _ => False) q := by
  have hcard := card_smokeKeys (n := i + 1) hi
  have hcard' := card_smokeKeys (n := i) hi.le
  rw [smokeKeys_succ] at hcard
  unfold smokeRefill
  rw [wp_bind]
  refine wp_mono (get_smoking hU hpages h (by omega) (hinside (smokeKey_mem hi))) ?_
    fun _ h => h
  rintro v t ⟨-, ht⟩
  rw [hcard, hcard', Nat.add_comm i (i + 1), Nat.add_sub_cancel, ← smokeKeys_succ] at ht
  rw [wp_check ht.count]
  exact ht

theorem smokeFind_spec (hpages : 1 ≤ pages) {i : ℕ} (hi : i < smokeTestCnt)
    (h : Smoking ft pages U (smokeKeys smokeTestCnt) 10 p q) :
    wp (smokeFind padding env ft stack i)
      (fun _ t => Smoking ft pages U (smokeKeys smokeTestCnt) 10 p t) (fun _ => False) q := by
  have hinsert : insert (smokeKey i) (smokeKeys smokeTestCnt) = smokeKeys smokeTestCnt :=
    Finset.insert_eq_of_mem (smokeKey_mem hi)
  unfold smokeFind
  rw [wp_bind]
  refine wp_mono (get_smoking hU hpages h ?_ (hinside (smokeKey_mem hi))) ?_ fun _ h => h
  · rw [hinsert, card_smokeKeys (Nat.le_refl _)]
  · rintro v t ⟨hvalue, ht⟩
    rw [hinsert, Nat.add_sub_cancel] at ht
    rw [wp_bind, wp_check hvalue, wp_check ht.count]
    exact ht

theorem smokeDrop_spec {i : ℕ} (hi : i < smokeTestCnt)
    (h : Smoking ft pages U (smokeKeys smokeTestCnt \ smokeKeys i) 10 p q) :
    wp (smokeDrop padding env i)
      (fun _ t => Smoking ft pages U (smokeKeys smokeTestCnt \ smokeKeys (i + 1)) 10 p t)
      (fun _ => False) q := by
  have hmem : smokeKey i ∈ smokeKeys smokeTestCnt \ smokeKeys i :=
    Finset.mem_sdiff.mpr ⟨smokeKey_mem hi, smokeKey_notMem hi⟩
  unfold smokeDrop
  rw [wp_bind]
  refine wp_mono (drop_serving hU h.serving (hinside (smokeKey_mem hi))) ?_ fun _ h => h
  rintro ok t ⟨hok, hserving, hseeds, hcount⟩
  rw [wp_require, hok, decide_eq_true hmem]
  refine ⟨fun _ => ?_, fun hne => absurd rfl hne⟩
  rw [smokeKeys_succ i, Finset.sdiff_insert]
  exact ⟨hserving, h.refills.of_same hseeds.2, hcount.trans h.count, hseeds.1.trans h.same.1,
    hseeds.2.trans h.same.2⟩

/-- The smoke test passes on an empty cache and leaves it empty. -/
theorem runSmokeTest_spec (hpages : 1 ≤ pages) (h : Serving ft pages U ∅ p.cache)
    (hrefills : Refills ft p) :
    wp (runSmokeTest padding env ft stack) (fun _ q => Smoking ft pages U ∅ 10 p q)
      (fun _ => False) p := by
  have hstart : Smoking ft pages U (smokeKeys 0) 0 p { p with refillCount := 0 } :=
    ⟨h, hrefills.of_same rfl, rfl, rfl, rfl⟩
  unfold runSmokeTest
  rw [wp_bind, wp_modify, wp_bind]
  refine wp_mono (wp_runAll_range
    (fun i hi q hq => smokeRefill_spec hU hinside hpages hi hq) hstart) ?_ fun _ h => h
  intro _ q hrefilled
  rw [wp_bind]
  refine wp_mono (wp_runAll_range
    (fun i hi q hq => smokeFind_spec hU hinside hpages hi hq) hrefilled) ?_ fun _ h => h
  intro _ q hfound
  rw [wp_bind]
  refine wp_mono (wp_runAll_range (fun i hi q hq => smokeDrop_spec hU hinside hi hq) hfound) ?_
    fun _ h => h
  intro _ q hdropped
  rw [wp_check hdropped.count]
  rw [Finset.sdiff_self] at hdropped
  exact hdropped

end Smoke

/-- The key set that `testlib_init_keyset` draws for `n` keys. -/
def drawnKeys (p : TestProcess) (n : ℕ) : Finset Key :=
  keyRange ((RandomSeeds.randomNext p.globalSeed).2 + 999) n

/-- Over an empty cache with room for all keys the first pass finds none of them and the second
one finds all. -/
theorem checkHitrate_spec (hU : Roomy U) {size : ℕ} (hcnt : 0 < size / pageSize)
    (hfits : size / pageSize ≤ numberOfChunks * pages) (hbound : size / pageSize ≤ 2 ^ 64)
    (hinside : drawnKeys p (size / pageSize) ⊆ U) (h : Serving ft pages U ∅ p.cache)
    (hrefills : Refills ft p) :
    wp (checkHitrate padding env ft stack size) (fun r _ => r = 1) (fun _ => False) p := by
  have hpages : 1 ≤ pages := by
    rcases Nat.eq_zero_or_pos pages with rfl | hpages
    · omega
    · exact hpages
  obtain ⟨keyset, hkeyset, hseed, hsize, hpos⟩ : ∃ keyset : TestlibKeyset,
      keyset = testlibSetStandardOrder ⟨(RandomSeeds.randomNext p.globalSeed).2 + 999,
        size / pageSize, fun _ => 0, 0⟩ ∧
      keyset.seed = (RandomSeeds.randomNext p.globalSeed).2 + 999 ∧
      keyset.cnt = size / pageSize ∧ keyset.pos = 0 := ⟨_, rfl, rfl, rfl, rfl⟩
  have hkeys : keysOf keyset = drawnKeys p (size / pageSize) := by
    rw [keysOf, hseed, hsize]
    rfl
  have hcard : (keysOf keyset).card = keyset.cnt := card_keysOf (by omega)
  have hempty : Fits pages U ∅ keyset :=
    ⟨hpages, by rw [Finset.empty_union]; omega, by rw [hkeys]; exact hinside⟩
  unfold checkHitrate testlibInitKeyset
  rw [wp_bind, wp_bind, wp_drawNext, wp_pure, ← hkeyset, wp_bind]
  refine wp_mono (getAll_spec padding env stack hU hempty (hkeyset ▸ shuffled_standardOrder _)
    (by omega) (by omega) hpos h (hrefills.of_same rfl)) ?_ fun _ h => h
  rintro ⟨hitrate1, first⟩ q ⟨hrate, hfirst, hserving, hrefills'⟩
  dsimp only at hrate hfirst ⊢
  rw [Finset.empty_union, ← hfirst.same.keysOf_eq] at hserving
  rw [hrate, share_empty, wp_bind, wp_require]
  refine ⟨fun _ => ?_, fun hne => absurd (lt_irrefl _) hne⟩
  -- the second pass
  have hfull : Fits pages U (keysOf first) first :=
    ⟨hpages, by rw [Finset.union_self, hfirst.same.keysOf_eq]; omega,
      by rw [hfirst.same.keysOf_eq]; exact hempty.inside⟩
  have hcnt' := hfirst.same.cnt
  rw [wp_bind]
  refine wp_mono (getAll_spec padding env stack hU hfull hfirst.shuffled (by omega) (by omega)
    (hfirst.pos.trans hpos) hserving hrefills') ?_ fun _ h => h
  rintro ⟨hitrate2, second⟩ t ⟨hrate', hsecond, hserving', hrefills''⟩
  dsimp only at hrate' hsecond ⊢
  have hone' : hitrate2 = 1 := by
    rw [hrate']
    exact share_of_subset (Finset.Subset.refl _) (by omega) (by omega)
  rw [hone', wp_bind, wp_require]
  refine ⟨fun _ => ?_, fun hne => absurd (not_lt.mpr zero_le_one) hne⟩
  have hcnt'' := hsecond.same.cnt
  rw [wp_bind]
  refine wp_mono (dropAll_spec padding env hU (by rw [hsecond.same.keysOf_eq]; exact hfull.inside)
    (by omega) hserving' hrefills'') ?_ fun _ h => h
  exact fun _ _ _ => rfl

theorem initCache_spec {impl : LazyfreeImpl}
    (himpl : impl = lazyfreeAnonImpl ∨ impl = lazyfreeDiskImpl) {n : ℕ} (hpos : 32 ≤ n)
    (hbound : n ≤ 2 ^ 31) (boot : Boot) (U : Finset Key) (p : TestProcess) :
    ∃ ft q, initCache boot impl n p = .ok (ft, q) ∧ Serving ft (n / 32) U ∅ q.cache ∧
      Refills ft q ∧ q.globalSeed = p.globalSeed := by
  have hsize : u64 (n * pageSize) = n * 4096 := by
    unfold u64 pageSize
    omega
  have hcount : ¬ impl.lazyfreeChunks + impl.anonChunks + impl.diskChunks ≠ numberOfChunks := by
    rcases himpl with rfl | rfl <;> decide
  have hmapped : ¬ (n * 4096 / numberOfChunks = 0 ∨
      2 ^ 31 < n * 4096 / numberOfChunks / pageSize) := by
    unfold pageSize numberOfChunks
    omega
  obtain ⟨s, hnew⟩ : ∃ s, lazyfreeCacheNewEx boot (n * 4096) impl.lazyfreeChunks impl.anonChunks
      impl.diskChunks = .ok s := ⟨_, (if_neg hcount).trans (if_neg hmapped)⟩
  obtain ⟨a, hcreated⟩ : ∃ a, Created 0 a s := by
    rcases himpl with rfl | rfl
    all_goals exact ⟨_, (created_of_new hnew).1⟩
  have hpages : s.cache.pagesPerChunk = n / 32 := by
    rw [(created_of_new hnew).2]
    unfold pageSize numberOfChunks
    omega
  have hcapacity : u32 (numberOfChunks * s.cache.pagesPerChunk) ≤ 2 ^ 31 := by
    rw [hpages]
    unfold u32 numberOfChunks
    omega
  have hcoupled : Coupled (both (s, HmapTable.new s.cache.pagesPerChunk)) :=
    coupled_created hcreated hcapacity
  have hinit : ftCacheInit boot impl (refillCb p.refillSeed) n 8 =
      .ok (⟨refillCb p.refillSeed, 8, by decide⟩, s) := by
    unfold ftCacheInit
    rw [dif_pos (by decide), hsize, hnew]
    rfl
  refine ⟨⟨refillCb p.refillSeed, 8, by decide⟩,
    { p with cache := (s, .new s.cache.pagesPerChunk) }, ?_, ?_, ⟨rfl, rfl⟩, rfl⟩
  · unfold initCache
    rw [hinit]
  · rw [← hpages]
    exact serving_of_created _ hcreated hcoupled U

theorem suiteHitrate_spec (hU : Roomy U) {impl : LazyfreeImpl}
    (himpl : impl = lazyfreeAnonImpl ∨ impl = lazyfreeDiskImpl) {memorySize : ℕ}
    (hdvd : 32 ∣ memorySize / pageSize) (hpos : 160 ≤ memorySize / pageSize)
    (hbound : memorySize / pageSize ≤ 2 ^ 31) (boot : Boot)
    (hsmoke : smokeKeys smokeTestCnt ⊆ U)
    (hdrawn : drawnKeys p (memorySize / pageSize - 128) ⊆ U) :
    wp (suiteHitrate padding env stack boot impl memorySize) (fun r _ => r = 1)
      (fun _ => False) p := by
  have hentries : getSetSize memorySize / pageSize = memorySize / pageSize - 128 := by
    unfold getSetSize
    exact Nat.mul_div_cancel _ (by decide)
  obtain ⟨n, hn⟩ : ∃ n, n = memorySize / pageSize - 128 := ⟨_, rfl⟩
  obtain ⟨ft, q, hinit, hserving, hrefills, hseed⟩ := initCache_spec (n := n) himpl (by omega)
    (by omega) boot U p
  unfold suiteHitrate
  dsimp only
  rw [hentries, ← hn, wp_bind, wp_of_ok hinit, wp_bind]
  refine wp_mono (runSmokeTest_spec hU hsmoke (by omega) hserving hrefills) ?_ fun _ h => h
  intro _ t ht
  refine checkHitrate_spec hU ?_ ?_ ?_ ?_ ht.serving ht.refills
  all_goals rw [hentries, ← hn]
  · omega
  · unfold numberOfChunks
    omega
  · omega
  · unfold drawnKeys
    rw [ht.same.1, hseed, hn]
    exact hdrawn

/-- The anon and the disk suite of the tests pass: whatever the kernel and the seeds are, no check
of theirs fails and no call stops the process, as long as the keys that are drawn leave out 0 and do
not crowd in the table. -/
theorem suites_pass {memorySize : ℕ} (hdvd : 32 ∣ memorySize / pageSize)
    (hpos : 160 ≤ memorySize / pageSize) (hbound : memorySize / pageSize ≤ 2 ^ 31)
    (padding : ℕ → UInt32) (boot : Boot) (env : Env) (stack : Buffer) (p : TestProcess)
    (hzero : 0 ∉ drawnKeys p (memorySize / pageSize - 128))
    (huncrowded : Uncrowded exactKeyHasher
      (smokeKeys smokeTestCnt ∪ drawnKeys p (memorySize / pageSize - 128))) :
    (∃ q, suiteAnon padding env stack boot memorySize p = .ok ((), q)) ∧
      ∃ q, suiteDisk padding env stack boot memorySize p = .ok ((), q) := by
  obtain ⟨n, hn⟩ : ∃ n, n = memorySize / pageSize - 128 := ⟨_, rfl⟩
  rw [← hn] at hzero huncrowded
  have hU : Roomy (smokeKeys smokeTestCnt ∪ drawnKeys p n) := by
    refine ⟨huncrowded, ?_, fun hmem => ?_⟩
    · have hle := Finset.card_union_le (smokeKeys smokeTestCnt) (drawnKeys p n)
      have hsmoke := card_smokeKeys (Nat.le_refl smokeTestCnt)
      have hdrawn : (drawnKeys p n).card ≤ (Finset.range n).card := Finset.card_image_le
      have hten : smokeTestCnt = 10 := rfl
      rw [Finset.card_range] at hdrawn
      omega
    · rcases Finset.mem_union.mp hmem with hmem | hmem
      · obtain ⟨i, hi, heq⟩ := Finset.mem_image.mp hmem
        exact smokeKey_ne_zero (Finset.mem_range.mp hi) heq
      · exact hzero hmem
  have hrate : ∀ impl, impl = lazyfreeAnonImpl ∨ impl = lazyfreeDiskImpl →
      wp (suiteHitrate padding env stack boot impl memorySize) (fun r _ => r = 1)
        (fun _ => False) p := fun impl himpl =>
    suiteHitrate_spec hU himpl hdvd hpos hbound boot Finset.subset_union_left
      (hn ▸ Finset.subset_union_right)
  have hanon : wp (suiteAnon padding env stack boot memorySize) (fun _ _ => True)
      (fun _ => False) p := by
    unfold suiteAnon
    rw [wp_bind]
    refine wp_mono (hrate _ (.inl rfl)) ?_ fun _ h => h
    rintro r q rfl
    exact (wp_require _ _).mpr ⟨fun _ => trivial, fun hne => absurd (lt_irrefl 1) hne⟩
  have hdisk : wp (suiteDisk padding env stack boot memorySize) (fun _ _ => True)
      (fun _ => False) p := by
    unfold suiteDisk
    rw [wp_bind]
    refine wp_mono (hrate _ (.inr rfl)) ?_ fun _ h => h
    rintro r q rfl
    exact (wp_require _ _).mpr ⟨fun _ => trivial, fun hne => absurd rfl hne⟩
  obtain ⟨⟨⟩, q, hrun, -⟩ := returns_of_wp hanon
  obtain ⟨⟨⟩, q', hrun', -⟩ := returns_of_wp hdisk
  exact ⟨⟨q, hrun⟩, q', hrun'⟩

/-- 160 pages of memory, with the seeds 2 and 5. -/
theorem suites_pass_small :
    (∃ q, suiteAnon (fun _ => 0) calm blank zeroBoot 655360 ⟨anonTable, 2, 5, 0⟩ = .ok ((), q)) ∧
      ∃ q, suiteDisk (fun _ => 0) calm blank zeroBoot 655360 ⟨anonTable, 2, 5, 0⟩ = .ok ((), q) :=
  suites_pass (by decide) (by decide) (by decide) _ _ _ _ _ (by decide +kernel)
    (by decide +kernel)

end LazyfreeCache.TestSuites
