import LazyfreeCache.HitLaw
import Mathlib.Data.Finset.Prod

/-!
Requested, usable and reported capacity. `ft_cache_init` asks for as many bytes
as entries times pages, the cache cuts them into 32 chunks of whole pages, and
the statistics divide the bytes by the page size. The three agree exactly if the
number of entries is a multiple of 32; otherwise pages that are reported are
never there.
-/
namespace LazyfreeCache.Capacity

open ProgramLogic EventReplay State LazyfreeOps FallthroughOps Refinement Reads
open Fallthrough Frames FallthroughEvents Accounting Client Slots FtRuns SlotLeaks ReferenceSet
open HitLaw Hashmap HmapAccess HmapRuns TableCache

/-- Calls on the keys of `K` return and evict no chunk, and from its get to its next drop every key
can be read where the table says. -/
def HoldsEntries (ft : FtCache) (r₀ : Sys × HmapTable) (K : Finset Key) : Prop :=
  ∀ padding env calls, (∀ call ∈ calls, call.key ∈ K) →
    ∃ r, tableRun padding (ftExec env ft) calls r₀ = .ok ((), r) ∧
      (∀ c, .evicted c ∉ r.1.trace) ∧
      ∀ left k v right, calls = left ++ .get k v :: right → .drop k ∉ right →
        ∃ d, r.2.hmapGet k = some d ∧ Readable r.1.toCore k d

/-- The slots that are allocated. -/
def slotsAllocated (cache : Cache) : ℕ := ∑ c, (cache.len c - (cache.chunks c).freePagesCount)

/-- In every reachable state the statistics report the allocated slots as the pages that are not
free. -/
def ReportsUsage (ft : FtCache) (r₀ : Sys × HmapTable) : Prop :=
  ∀ padding env calls p,
    tableRun padding (exec env ft) calls (startTable r₀ fun _ => .fresh 0) = .ok ((), p) →
    ∃ stats, lazyfreeFetchStats p.1.sys = .ok (stats, p.1.sys) ∧
      stats.totalPages = stats.freePages + slotsAllocated p.1.sys.cache ∧
      (stats.freePages = 0 ↔ slotsAllocated p.1.sys.cache = stats.totalPages)

variable {env : Env} {ft : FtCache} {s t : Sys} {n : ℕ} {K : Finset Key}
  {r : Sys × HmapTable} {padding : ℕ → UInt32}

theorem cacheCapacity_of_new {boot : Boot} {capacity l a d : ℕ}
    (h : lazyfreeCacheNewEx boot capacity l a d = .ok s) : s.cache.cacheCapacity = capacity := by
  unfold lazyfreeCacheNewEx at h
  simp only at h
  split at h
  · cases h
  · split at h
    · cases h
    · cases h
      rfl

/-- A cache as `ft_cache_init` returns it for `n` entries over anon chunks. -/
structure Inited (n : ℕ) (s : Sys) : Prop where
  created : Created 0 numberOfChunks s
  pages : s.cache.pagesPerChunk = n / 32
  capacity : s.cache.cacheCapacity = n * pageSize

theorem inited_of_init {boot : Boot} {refillCb : Key → Buffer} {entrySize : ℕ}
    (hbytes : n * pageSize < 2 ^ 64)
    (hinit : ftCacheInit boot lazyfreeAnonImpl refillCb n entrySize = .ok (ft, s)) :
    Inited n s := by
  have hnew : lazyfreeCacheNewEx boot (n * pageSize) 0 numberOfChunks 0 = .ok s := by
    have hcapacity : u64 (n * pageSize) = n * pageSize := Nat.mod_eq_of_lt hbytes
    unfold ftCacheInit lazyfreeAnonImpl at hinit
    split at hinit
    · rw [hcapacity] at hinit
      cases hnew : lazyfreeCacheNewEx boot (n * pageSize) 0 numberOfChunks 0 with
      | error e =>
        rw [hnew] at hinit
        cases hinit
      | ok s' =>
        rw [hnew] at hinit
        cases hinit
        rfl
    · cases hinit
  obtain ⟨hcreated, hpages⟩ := created_of_new hnew
  refine ⟨hcreated, ?_, cacheCapacity_of_new hnew⟩
  rw [hpages]
  unfold pageSize numberOfChunks
  omega

/-! ### The reported capacity -/

/-- The pages that are not there are reported as neither free nor in use. -/
theorem stats_of_run (hs : Inited n r.1) (hr : Coupled (both r)) {calls : List Call}
    {p : Process × HmapTable}
    (hrun : tableRun padding (exec env ft) calls (startTable r fun _ => .fresh 0) = .ok ((), p)) :
    ∃ stats, lazyfreeFetchStats p.1.sys = .ok (stats, p.1.sys) ∧ stats.totalPages = n ∧
      slotsAllocated p.1.sys.cache + stats.freePages = 32 * (n / 32) := by
  have hpage := pageSize_eq
  have hfaithful := (faithful_exec env ft).frame
    (fun s => (s.cache.cacheCapacity, s.cache.pagesPerChunk)) (fun _ _ => rfl)
    (fun _ _ _ h => Prod.ext (cacheCapacity_performs h) (pagesPerChunk_performs h))
    (n * pageSize, n / 32)
  obtain ⟨⟨-, hsizes⟩, hcoupled, -⟩ := tableRun_coupled hfaithful
    ⟨hs.created.sound, Prod.ext hs.capacity hs.pages⟩ hr hrun
  obtain ⟨hcapacity, hpages⟩ := Prod.mk.inj hsizes
  refine ⟨⟨p.1.sys.cache.cacheCapacity / pageSize, p.1.sys.cache.totalFreePages⟩, rfl, ?_, ?_⟩
  · dsimp only
    rw [show p.1.sys.cache.cacheCapacity = n * pageSize from hcapacity]
    exact Nat.mul_div_cancel n (by omega)
  · have hused : (∑ c, (p.1.sys.cache.len c - (p.1.sys.cache.chunks c).freePagesCount)) +
        p.1.sys.cache.totalFreePages = 32 * p.1.sys.cache.pagesPerChunk :=
      hcoupled.accounted.used_add_total
    rw [show p.1.sys.cache.pagesPerChunk = n / 32 from hpages] at hused
    exact hused

theorem reportsUsage_iff (hs : Inited n r.1) (hr : Coupled (both r)) :
    ReportsUsage ft r ↔ 32 ∣ n := by
  constructor
  · intro h
    have hstart : tableRun (fun _ => 0) (exec calm ft) [] (startTable r fun _ => .fresh 0) =
        .ok ((), startTable r fun _ => .fresh 0) := rfl
    obtain ⟨stats, hstats, htotal, -⟩ := h _ calm [] _ hstart
    obtain ⟨stats', hstats', hn, hsum⟩ := stats_of_run hs hr hstart
    cases hstats.symm.trans hstats'
    omega
  · intro hn padding env calls p hrun
    obtain ⟨stats, hstats, htotal, hsum⟩ := stats_of_run hs hr hrun
    exact ⟨stats, hstats, by omega, by omega⟩

/-! ### The usable capacity -/

/-- Between two calls on the keys of a working set. -/
structure Within (K : Finset Key) (pages : ℕ) (s : Sys) : Prop where
  steady : Steady s
  pages : s.cache.pagesPerChunk = pages
  keys : (residents s.toCore).keys ⊆ K
  kept : ∀ c, .evicted c ∉ s.trace

section WorkingSet
variable {pages : ℕ} (hpages : 1 ≤ pages) (hK : K.card ≤ numberOfChunks * pages) (hzero : 0 ∉ K)
include hpages hK hzero

/-- A call on a working set that fits. -/
theorem within_call (env : Env) (ft : FtCache) {call : FtCall} (hs : Within K pages s)
    (hcall : call.key ∈ K) :
    ∃ t, ftExec env ft call s = .ok ((), t) ∧ Within K pages t ∧
      (∀ k ∈ (residents s.toCore).keys, call ≠ .drop k → k ∈ (residents t.toCore).keys) ∧
      ∀ k v, call = .get k v → k ∈ (residents t.toCore).keys := by
  have hkey : call.key ≠ 0 := fun h => hzero (h ▸ hcall)
  obtain ⟨found, t, -, hrun, hanswer⟩ :=
    ftExec_law env ft (hs.pages ▸ hpages) hs.steady hkey
  have hrequest : (request call).key = call.key := by cases call <;> rfl
  obtain ⟨hemptied, hkeys, hstays, hgets⟩ := hanswer.step.keeps (by rw [hs.pages]; exact hK)
    (hrequest ▸ hcall) hs.keys
  refine ⟨t, hrun, ⟨hanswer.steady, hanswer.pages.trans hs.pages, hkeys, fun c hc => ?_⟩,
    fun k hk hne => hstays k hk fun hdrop => hne ?_, fun k v hget => hgets k (by rw [hget]; rfl)⟩
  · have hone : ftRun env ft [call] s = .ok ((), t) := (runAll_cons_ok _).mpr ⟨t, hrun, rfl⟩
    obtain ⟨es, hes⟩ := performs_ftRun hs.steady.idle hone
    rw [hes.trace, List.mem_append] at hc
    refine hc.elim (hs.kept c) fun hmem => ?_
    have hnil : (newEvents s t).filterMap emptiedChunk = [] := hemptied
    have hnone := List.filterMap_eq_nil_iff.mp hnil (.evicted c) (newEvents_eq hes ▸ hmem)
    cases hnone
  · cases call with
    | get key value => cases hdrop
    | drop key =>
      cases hdrop
      rfl

theorem within_run (env : Env) (ft : FtCache) {calls : List FtCall} (hs : Within K pages s)
    (hcalls : ∀ call ∈ calls, call.key ∈ K) :
    ∃ t, ftRun env ft calls s = .ok ((), t) ∧ Within K pages t ∧
      (∀ k ∈ (residents s.toCore).keys, .drop k ∉ calls → k ∈ (residents t.toCore).keys) ∧
      ∀ left k v right, calls = left ++ .get k v :: right → .drop k ∉ right →
        k ∈ (residents t.toCore).keys := by
  induction calls generalizing s with
  | nil =>
    refine ⟨s, rfl, hs, fun k hk _ => hk, fun left k v right h => ?_⟩
    cases left <;> cases h
  | cons call calls ih =>
    obtain ⟨u, hrun, hu, hstays, hgets⟩ := within_call hpages hK hzero env ft hs
      (hcalls call List.mem_cons_self)
    obtain ⟨t, hrun', ht, hstays', hgets'⟩ := ih hu
      fun c hc => hcalls c (List.mem_cons_of_mem call hc)
    refine ⟨t, (runAll_cons_ok _).mpr ⟨u, hrun, hrun'⟩, ht, fun k hk hdrop => ?_, ?_⟩
    · rw [List.mem_cons, not_or] at hdrop
      exact hstays' k (hstays k hk (Ne.symm hdrop.1)) hdrop.2
    · intro left k v right hsplit hdrop
      cases left with
      | nil =>
        obtain ⟨rfl, rfl⟩ := List.cons.inj hsplit
        exact hstays' k (hgets k v rfl) hdrop
      | cons c left =>
        obtain ⟨-, hrest⟩ := List.cons.inj hsplit
        exact hgets' left k v right hrest hdrop

end WorkingSet

theorem readable_of_resident (hs : Steady s) {k : Key} (hk : k ∈ (residents s.toCore).keys) :
    ∃ d, Readable s.toCore k d := by
  obtain ⟨d, hd⟩ := mem_residents.mp hk
  exact ⟨d, ⟨hd, hs.packed.owned.label hd⟩, hs.alive k d hd⟩

theorem within_of_inited (hs : Inited n s) : Within K (n / 32) s where
  steady := steady_of_created hs.created
  pages := hs.pages
  keys k hk := by
    obtain ⟨d, hd⟩ := mem_residents.mp hk
    cases (hs.created.map k).symm.trans hd
  kept c hc := by
    rw [hs.created.trace] at hc
    cases hc

/-- The condition on the table: every put of the calls on `K` returns 0. -/
def PutsReturnZero (ft : FtCache) (r₀ : Sys × HmapTable) (K : Finset Key) : Prop :=
  ∀ padding env calls, (∀ call ∈ calls, call.key ∈ K) → EveryPutStored padding env ft calls r₀

theorem holdsEntries_of_puts (hs : Inited n r.1) (hr : Coupled (both r)) (hpages : 1 ≤ n / 32)
    (hcard : K.card ≤ numberOfChunks * (n / 32)) (hzero : 0 ∉ K) (hputs : PutsReturnZero ft r K) :
    HoldsEntries ft r K := by
  intro padding env calls hcalls
  obtain ⟨t, hideal, ht, -, hgets⟩ := within_run hpages hcard hzero env ft (within_of_inited hs)
    hcalls
  have hidle := idle_of_created hs.created
  obtain ⟨table, hrun⟩ :=
    tableRun_of_everyPutStored hidle hr (hputs padding env calls hcalls) hideal
  obtain ⟨-, hcoupled, -⟩ := tableRun_coupled (faithful_ftExec env ft) hidle hr hrun
  refine ⟨(t, table), hrun, ht.kept, fun left k v right hsplit hdrop => ?_⟩
  obtain ⟨d, hd⟩ := readable_of_resident ht.steady (hgets left k v right hsplit hdrop)
  exact ⟨d, (hcoupled.simulates.get k).trans hd.1.1, hd⟩

theorem puts_of_holdsEntries (hs : Inited n r.1) (hr : Coupled (both r)) (hpages : 1 ≤ n / 32)
    (hzero : 0 ∉ K) (h : HoldsEntries ft r K) : PutsReturnZero ft r K := by
  intro padding env calls hcalls
  have hkeys : ∀ call ∈ calls, call.key ≠ 0 := fun call hcall heq => hzero (heq ▸ hcalls call hcall)
  by_contra hputs
  obtain ⟨left, key, value, right, u, v, rfl, hu, hv, hlost⟩ :=
    exists_get_lost hs.created hr (hs.pages ▸ hpages) hkeys hputs
  obtain ⟨w, hw, -, hheld⟩ := h padding env (left ++ [.get key value]) fun call hcall =>
    hcalls call (by
      rcases List.mem_append.mp hcall with hcall | hcall
      · exact List.mem_append_left _ hcall
      · rw [List.mem_singleton.mp hcall]
        simp)
  have hrun : tableRun padding (ftExec env ft) (left ++ [.get key value]) r = .ok ((), v) :=
    (runAll_append_ok _).mpr ⟨u, hu, hv⟩
  obtain rfl := (Prod.mk.inj (Except.ok.inj (hw.symm.trans hrun))).2
  obtain ⟨d, hd, -⟩ := hheld left key value [] rfl List.not_mem_nil
  cases hlost.symm.trans hd

/-! ### Too many keys -/

/-- Keys that can be read at once have different slots. -/
theorem card_le_of_readable (hwell : WellFormed s.toCore)
    (hK : ∀ k ∈ K, k ≠ 0 ∧ ∃ d, Readable s.toCore k d) :
    K.card ≤ numberOfChunks * s.cache.pagesPerChunk := by
  classical
  have hslot : ∀ k : Key, ∃ d, k ∈ K → s.cache.Mapped k d := fun k => by
    by_cases hk : k ∈ K
    · obtain ⟨-, d, hd⟩ := hK k hk
      exact ⟨d, fun _ => hd.1⟩
    · exact ⟨⟨0, 0⟩, fun h => absurd h hk⟩
  choose slot hslot using hslot
  have hcard := Finset.card_le_card_of_injOn (s := K)
    (t := (Finset.univ : Finset ChunkIdx) ×ˢ Finset.range s.cache.pagesPerChunk)
    (fun k => ((slot k).chunk, (slot k).index)) ?_ ?_
  · simpa using hcard
  · intro k hk
    have hlt := hwell.map_lt (hK k hk).1 (hslot k hk).1
    have hlen := hwell.accounted.len_le (slot k).chunk
    simp only [Finset.coe_product, Set.mem_prod, Finset.mem_coe, Finset.mem_univ, Finset.mem_range,
      true_and]
    omega
  · intro k hk k' hk' heq
    have hd : slot k = slot k' := Cache.ext_index (Prod.mk.inj heq).1 (Prod.mk.inj heq).2
    exact (hslot k hk).2.symm.trans ((congrArg s.cache.label hd).trans (hslot k' hk').2)

/-- Keys that are all held have slots of their own. -/
theorem card_le_of_holdsEntries (hs : Inited n r.1) (hr : Coupled (both r)) (hpages : 1 ≤ n / 32)
    (hzero : 0 ∉ K) (h : HoldsEntries ft r K) : K.card ≤ 32 * (n / 32) := by
  have hkey : ∀ k ∈ K, k ≠ 0 := by
    rintro k hk rfl
    exact hzero hk
  have hcalls : ∀ call ∈ K.toList.map (FtCall.get · blank), call.key ∈ K := by
    intro call hcall
    obtain ⟨k, hk, rfl⟩ := List.mem_map.mp hcall
    exact Finset.mem_toList.mp hk
  obtain ⟨t, hrun, -, hreadable⟩ := h (fun _ => 0) calm _ hcalls
  have hidle := idle_of_created hs.created
  have hputs := puts_of_holdsEntries hs hr hpages hzero h (fun _ => 0) calm _ hcalls _ [] t
    (List.append_nil _).symm hrun
  obtain ⟨hideal, -⟩ := run_of_tableRun (faithful_ftExec calm ft) hidle hr hrun hputs
  have hwell := wellFormed_ftRun (fun call hcall => hkey _ (hcalls call hcall)) hidle
    (wellFormed_of_created hs.created) hideal
  have hcard := card_le_of_readable (K := K) hwell fun k hk => by
    obtain ⟨left, right, hsplit⟩ := List.append_of_mem
      (List.mem_map_of_mem (f := (FtCall.get · blank)) (Finset.mem_toList.mpr hk))
    obtain ⟨d, -, hd⟩ := hreadable left k blank right hsplit fun hdrop => by
      have hmem : FtCall.drop k ∈ K.toList.map (FtCall.get · blank) := by
        rw [hsplit]
        exact List.mem_append_right _ (List.mem_cons_of_mem _ hdrop)
      obtain ⟨k', -, hk'⟩ := List.mem_map.mp hmem
      cases hk'
    exact ⟨hkey k hk, d, hd⟩
  obtain ⟨es, hes⟩ := performs_ftRun hidle hideal
  rw [pagesPerChunk_performs hes, hs.pages] at hcard
  exact hcard

/-- A cache that `ft_cache_init` made for `n` entries over anon chunks holds any `n` keys and
reports what it uses exactly if `n` is a multiple of 32 and every put of these keys into the table
returns 0, as for keys that do not crowd. -/
theorem capacity_iff {boot : Boot} {refillCb : Key → Buffer} {entrySize : ℕ} (hpos : 1 ≤ n)
    (hbytes : n * pageSize < 2 ^ 64)
    (hinit : ftTableInit boot lazyfreeAnonImpl refillCb n entrySize = some (ft, r))
    (hcard : K.card = n) (hzero : 0 ∉ K) :
    (HoldsEntries ft r K ∧ ReportsUsage ft r ↔ 32 ∣ n ∧ PutsReturnZero ft r K) ∧
      (Uncrowded exactKeyHasher K → n < 2 ^ 31 → 32 ∣ n →
        HoldsEntries ft r K ∧ ReportsUsage ft r) := by
  obtain ⟨hideal, hnew⟩ := ftTableInit_some hinit
  have hs := inited_of_init hbytes hideal
  have hr : Coupled (both r) := coupled_new hnew
  rw [reportsUsage_iff hs hr]
  have hholds : 32 ∣ n → PutsReturnZero ft r K → HoldsEntries ft r K := fun hn =>
    holdsEntries_of_puts hs hr (by omega) (by rw [hcard]; unfold numberOfChunks; omega) hzero
  refine ⟨⟨fun ⟨hholds, hn⟩ => ⟨hn, puts_of_holdsEntries hs hr (by omega) hzero hholds⟩,
    fun ⟨hn, hputs⟩ => ⟨hholds hn hputs, hn⟩⟩, ?_⟩
  intro hK hsmall hn
  refine ⟨hholds hn fun padding env calls hcalls => ?_, hn⟩
  exact everyPutStored_of_uncrowded hnew (by rw [hs.pages]; omega) hK (by omega) hzero hcalls

/-- The keys from 1 to `n`. -/
def firstKeys (n : ℕ) : Finset Key := ((List.range n).map fun i => UInt64.ofNat (i + 1)).toFinset

/-- 64 entries, in 32 chunks of two pages. -/
theorem capacity_of_64 :
    ∃ ft r, ftTableInit zeroBoot lazyfreeAnonImpl byteCache.refillCb 64 1 = some (ft, r) ∧
      HoldsEntries ft r (firstKeys 64) ∧ ReportsUsage ft r := by
  obtain ⟨ft, r, hinit⟩ : ∃ ft r,
      ftTableInit zeroBoot lazyfreeAnonImpl byteCache.refillCb 64 1 = some (ft, r) := ⟨_, _, rfl⟩
  exact ⟨ft, r, hinit, (capacity_iff (by decide) (by decide) hinit (by decide +kernel)
    (by decide +kernel)).2 (by decide +kernel) (by decide) (by decide)⟩

/-- Any `n` nonzero keys are held at once. -/
def HoldsAny (ft : FtCache) (r₀ : Sys × HmapTable) (n : ℕ) : Prop :=
  ∀ K : Finset Key, K.card = n → 0 ∉ K → HoldsEntries ft r₀ K

/-- Keys with nine of one hash among them. -/
def crowdedKeys : Finset Key := insert ninth sameHash.toFinset ∪ firstKeys 23

/-- One entry gets 32 chunks without pages, and the first get stops the process; 33 entries get 32
pages; and of 32 keys, for which there are pages, the table loses the ninth of one hash. -/
theorem capacity_short :
    (∃ ft r, ftTableInit zeroBoot lazyfreeAnonImpl byteCache.refillCb 1 1 = some (ft, r) ∧
      ¬ HoldsAny ft r 1 ∧ ¬ ReportsUsage ft r ∧
      tableRun (fun _ => 0) (ftExec calm ft) [.get 1 blank] r = .error .noFreePage) ∧
    (∃ ft r, ftTableInit zeroBoot lazyfreeAnonImpl byteCache.refillCb 33 1 = some (ft, r) ∧
      ¬ HoldsAny ft r 33 ∧ ¬ ReportsUsage ft r) ∧
    ∃ ft r, ftTableInit zeroBoot lazyfreeAnonImpl byteCache.refillCb 32 1 = some (ft, r) ∧
      ¬ HoldsAny ft r 32 := by
  have hinited : ∀ {n ft r}, n * pageSize < 2 ^ 64 →
      ftTableInit zeroBoot lazyfreeAnonImpl byteCache.refillCb n 1 = some (ft, r) →
      Inited n r.1 ∧ Coupled (both r) := fun hbytes hinit =>
    ⟨inited_of_init hbytes (ftTableInit_some hinit).1, coupled_new (ftTableInit_some hinit).2⟩
  obtain ⟨ft, r, hinit, hstops⟩ : ∃ ft r,
      ftTableInit zeroBoot lazyfreeAnonImpl byteCache.refillCb 1 1 = some (ft, r) ∧
      tableRun (fun _ => 0) (ftExec calm ft) [.get 1 blank] r = .error .noFreePage :=
    ⟨_, _, rfl, (runAll_error _).mpr ⟨[], .get 1 blank, [], _, rfl, rfl,
      onTable_error.mpr (run_eq_error _ _ (by decide +kernel))⟩⟩
  refine ⟨⟨ft, r, hinit, ?_, ?_, hstops⟩, ⟨_, _, rfl, ?_⟩, _, _, rfl, ?_⟩
  · intro h
    obtain ⟨w, hw, -⟩ := h {1} rfl (by decide) (fun _ => 0) calm [.get 1 blank]
      (by simp [FtCall.key])
    cases hstops.symm.trans hw
  · obtain ⟨hs, hr⟩ := hinited (by decide) hinit
    exact fun h => absurd ((reportsUsage_iff hs hr).mp h) (by decide)
  · obtain ⟨hs, hr⟩ := hinited (n := 33) (by decide) rfl
    refine ⟨fun h => ?_, fun h => absurd ((reportsUsage_iff hs hr).mp h) (by decide)⟩
    have hcard := card_le_of_holdsEntries hs hr (by decide) (by decide +kernel)
      (h (firstKeys 33) (by decide +kernel) (by decide +kernel))
    exact absurd hcard (by decide +kernel)
  · intro h
    obtain ⟨u, v, hu, hv, hlost⟩ := ninth_lost
    obtain ⟨w, hw, -, hheld⟩ := h crowdedKeys (by decide +kernel) (by decide +kernel) (fun _ => 0)
      calm (eightGets ++ [.get ninth blank]) (by decide +kernel)
    have hrun : tableRun (fun _ => 0) (ftExec calm byteCache) (eightGets ++ [.get ninth blank])
        anonTable = .ok ((), v) := (runAll_append_ok _).mpr ⟨u, hu, hv⟩
    obtain rfl := (Prod.mk.inj (Except.ok.inj (hw.symm.trans hrun))).2
    obtain ⟨d, hd, -⟩ := hheld eightGets ninth blank [] rfl List.not_mem_nil
    cases hlost.symm.trans hd

end LazyfreeCache.Capacity
