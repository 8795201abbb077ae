import LazyfreeCache.HmapRuns
import LazyfreeCache.FtRuns

/-!
The cache on its real table. `hmap_put` does not look at what `hashmap_put`
returns, so an entry can be lost, and whoever looks the key up later must not
find it. Every function of the cache makes its lookups before its removes and
puts. So a call is run on a map that answers as the table does, and then its
removes and puts are made on the table. As long as `hashmap_put` returns 0 the
runs are those of the cache over a partial map.
-/
namespace LazyfreeCache.TableCache

open ReferenceSet Hashmap ProgramLogic EventReplay State LazyfreeOps FallthroughOps Refinement
open Accounting Client FtRuns HmapAccess HmapRuns

/-- States with the machine inside: the machine itself, and a process that uses it. -/
class HasSys (σ : Type) where
  sys : σ → Sys
  withSys : σ → Sys → σ
  sys_withSys : ∀ x s, sys (withSys x s) = s
  withSys_sys : ∀ x, withSys x (sys x) = x

open HasSys

instance : HasSys Sys where
  sys s := s
  withSys _ s := s
  sys_withSys _ _ := rfl
  withSys_sys _ := rfl

instance : HasSys Process where
  sys p := p.sys
  withSys p s := { p with sys := s }
  sys_withSys _ _ := rfl
  withSys_sys _ := rfl

/-- The cache with the answers of the table. The entry of key 0 in `map` is never looked at. -/
def answered (table : HmapTable) (cache : Cache) : Cache :=
  { cache with
    map := fun key => if key = 0 then cache.map key else table.hmapGet key
    key0 := table.key0 }

variable {σ α ι : Type} [HasSys σ]

/-- The state whose cache answers as the table. -/
def reanswer (table : HmapTable) (x : σ) : σ :=
  withSys x { sys x with cache := answered table (sys x).cache }

/-- The cache of the state, and the table. -/
def both (r : σ × HmapTable) : Core × HmapTable := ((sys r.1).toCore, r.2)

/-- A call led from `r` to `x`: its removes and puts are made on the table, in their order, and
from then on the cache answers as the table. -/
def settle (padding : ℕ → UInt32) (r : σ × HmapTable) (x : σ) : σ × HmapTable :=
  let table := (replay (applyBoth padding) (both r) (newEvents (sys r.1) (sys x))).2
  (reanswer table x, table)

/-- One call on the real table. -/
def onTable (padding : ℕ → UInt32) (m : Prog σ Fault α) : Prog (σ × HmapTable) Fault α := fun r =>
  match m r.1 with
  | .ok (a, x) => .ok (a, settle padding r x)
  | .error e => .error e

/-- One call after the other on the real table. -/
def tableRun (padding : ℕ → UInt32) (step : ι → Prog σ Fault Unit) (is : List ι) :
    Prog (σ × HmapTable) Fault Unit :=
  runAll (fun i => onTable padding (step i)) is

/-- `lazyfree_cache_new_ex` with its table. For more than 2^31 slots `hashmap_create_ex` shifts
`1u` by 32 bits, and what comes then is undefined. -/
def tableCacheNewEx (boot : Boot) (capacity l a d : ℕ) : Option (Sys × HmapTable) :=
  match lazyfreeCacheNewEx boot capacity l a d with
  | .ok s =>
    if u32 (numberOfChunks * s.cache.pagesPerChunk) ≤ 2 ^ 31 then
      some (s, .new s.cache.pagesPerChunk)
    else none
  | .error _ => none

/-- `ft_cache_init` with the table of the cache. -/
def ftTableInit (boot : Boot) (impl : LazyfreeImpl) (refillCb : Key → Buffer)
    (numEntries entrySize : ℕ) : Option (FtCache × Sys × HmapTable) :=
  if fits : entrySize ≤ pageSize then do
    let r ← tableCacheNewEx boot (u64 (numEntries * pageSize)) impl.lazyfreeChunks
      impl.anonChunks impl.diskChunks
    return (⟨refillCb, entrySize, fits⟩, r)
  else none

variable {padding : ℕ → UInt32} {table : HmapTable} {cache : Cache} {r r' : σ × HmapTable} {x : σ}

theorem onTable_ok {m : Prog σ Fault α} {a : α} : onTable padding m r = .ok (a, r') ↔
    ∃ x, m r.1 = .ok (a, x) ∧ r' = settle padding r x := by
  unfold onTable
  cases m r.1 with
  | ok b =>
    obtain ⟨b, y⟩ := b
    constructor
    · intro h
      cases h
      exact ⟨y, rfl, rfl⟩
    · rintro ⟨x, hx, rfl⟩
      cases hx
      rfl
  | error f => simp

theorem onTable_error {m : Prog σ Fault α} {f : Fault} :
    onTable padding m r = .error f ↔ m r.1 = .error f := by
  unfold onTable
  cases m r.1 <;> simp

theorem tableCacheNewEx_some {boot : Boot} {capacity l a d : ℕ} {r : Sys × HmapTable} :
    tableCacheNewEx boot capacity l a d = some r ↔
      lazyfreeCacheNewEx boot capacity l a d = .ok r.1 ∧
        u32 (numberOfChunks * r.1.cache.pagesPerChunk) ≤ 2 ^ 31 ∧ both r = fresh r.1 := by
  obtain ⟨s, t⟩ := r
  unfold tableCacheNewEx both fresh
  cases lazyfreeCacheNewEx boot capacity l a d with
  | error f => simp
  | ok u =>
    dsimp only
    split
    · rename_i hcapacity
      constructor
      · intro h
        cases h
        exact ⟨rfl, hcapacity, rfl⟩
      · rintro ⟨h, -, ht⟩
        cases h
        exact congrArg (fun p : Core × HmapTable => some (s, p.2)) ht.symm
    · rename_i hcapacity
      refine iff_of_false (by simp) ?_
      rintro ⟨h, hle, -⟩
      cases h
      exact hcapacity hle

theorem ftTableInit_some {boot : Boot} {impl : LazyfreeImpl} {refillCb : Key → Buffer}
    {n entrySize : ℕ} {ft : FtCache} {r : Sys × HmapTable}
    (h : ftTableInit boot impl refillCb n entrySize = some (ft, r)) :
    ftCacheInit boot impl refillCb n entrySize = .ok (ft, r.1) ∧
      tableCacheNewEx boot (u64 (n * pageSize)) impl.lazyfreeChunks impl.anonChunks
        impl.diskChunks = some r := by
  unfold ftTableInit at h
  split at h
  · rename_i hfits
    obtain ⟨r', hnew, hr⟩ := Option.bind_eq_some_iff.mp h
    cases hr
    refine ⟨?_, hnew⟩
    unfold ftCacheInit
    rw [dif_pos hfits, (tableCacheNewEx_some.mp hnew).1]
    rfl
  · cases h

/-! ### What the cache is told -/

@[simp] theorem hmapGet_answered (table : HmapTable) (cache : Cache) (k : Key) :
    (answered table cache).hmapGet k = table.hmapGet k := by
  unfold Cache.hmapGet answered
  by_cases hk : k = 0
  · rw [if_pos hk, hk]
    exact (if_pos rfl).symm
  · simp only [if_neg hk]

theorem answered_of_agree (h : ∀ k, table.hmapGet k = cache.hmapGet k) :
    answered table cache = cache := by
  have hmap : (fun k => if k = 0 then cache.map k else table.hmapGet k) = cache.map := by
    funext k
    split
    · rfl
    · rename_i hk
      rw [h k]
      exact if_neg hk
  have hkey0 : table.key0 = cache.key0 := h 0
  unfold answered
  rw [hmap, hkey0]

theorem sys_reanswer (table : HmapTable) (x : σ) :
    sys (reanswer table x) = { sys x with cache := answered table (sys x).cache } :=
  sys_withSys x _

theorem reanswer_of_agree (h : ∀ k, table.hmapGet k = (sys x).cache.hmapGet k) :
    reanswer table x = x := by
  unfold reanswer
  rw [answered_of_agree h]
  exact withSys_sys x

/-! ### Tables that lost entries -/

theorem intact_step (st : Core × HmapTable) (e : Event) (h : Intact st.2) :
    Intact (applyBoth padding st e).2 := by
  cases e with
  | evicted c => exact h.removeKeys _ _
  | allocated d key => exact h.put key d _
  | dropped d key => exact h.remove _
  | _ => exact h

/-- What holds of a cache and its table whatever was lost: every answer of the table is a slot
that was handed out. -/
structure Sane (st : Core × HmapTable) : Prop where
  accounted : Accounted st.1
  intact : Intact st.2
  handed : ∀ k d, st.2.hmapGet k = some d → st.1.HandedOut d

theorem sane_of_coupled {st : Core × HmapTable} (h : Coupled st) : Sane st := by
  refine ⟨h.accounted, h.simulates.intact, fun k d hd => ?_⟩
  rw [h.simulates.get k] at hd
  exact h.accounted.map_handed k d hd

theorem sane_step (st : Core × HmapTable) (e : Event) (h : Sane st) (he : st.1.Enabled e) :
    Sane (applyBoth padding st e) := by
  refine ⟨accounted_step st.1 e h.accounted he, intact_step st e h.intact, fun k d hd => ?_⟩
  cases e with
  | evicted c => exact (h.handed k d (hmapGet_of_removeKeys h.intact _ _ hd)).apply _
  | allocated p key =>
    have hlt := ready_index_lt h.accounted he.2
    have hpages := h.accounted.pages
    rcases hmapGet_of_put h.intact (by omega) hd with ⟨-, rfl⟩ | hd
    · exact (handedOut_apply st.1 _ d).mpr (.inr ⟨key, rfl⟩)
    · exact (h.handed k d hd).apply _
  | dropped p key => exact (h.handed k d (hmapGet_of_remove h.intact hd)).apply _
  | _ => exact (h.handed k d hd).apply _

/-! ### One call -/

theorem accounted_answered {s : Core} (h : Accounted s)
    (hhanded : ∀ k d, table.hmapGet k = some d → s.HandedOut d) :
    Accounted { s with cache := answered table s.cache } :=
  { h with map_handed := fun k d hd => hhanded k d (by rwa [hmapGet_answered] at hd) }

/-- What `settle` leaves is a cache that answers as its table, whatever puts were refused. -/
theorem coupled_settle {es : List Event} (h : Coupled (both r))
    (hperf : Performs (sys r.1) (sys x) es) :
    Coupled (both (settle padding r x)) := by
  have hallowed : Along (applyBoth padding) (fun st e => st.1.Enabled e) (both r) es :=
    (along_fst es (both r)).mpr hperf.2
  have hsane := replay_invariant Sane sane_step es (sane_of_coupled h) hallowed
  have hcore : (replay (applyBoth padding) (both r) es).1 = (sys x).toCore := by
    rw [fst_replay]
    exact hperf.1.symm
  unfold settle both
  rw [sys_reanswer, newEvents_eq hperf]
  refine ⟨accounted_answered (hcore ▸ hsane.accounted)
    fun k d hd => hcore ▸ hsane.handed k d hd, ?_⟩
  dsimp only
  rw [show (answered _ (sys x).cache).hmapGet = HmapTable.hmapGet _ from
    funext (hmapGet_answered _ _)]
  exact hsane.intact.simulates

/-- If its puts return 0, a call on the real table is the call over the partial map. -/
theorem settle_of_stored {es : List Event} (h : Coupled (both r))
    (hperf : Performs (sys r.1) (sys x) es)
    (hstored : Along (applyBoth padding) (Stored padding) (both r) es) :
    settle padding r x = (x, (replay (applyBoth padding) (both r) es).2) ∧
      both (settle padding r x) = replay (applyBoth padding) (both r) es ∧
      Coupled (both (settle padding r x)) := by
  have hallowed : Along (applyBoth padding) (fun st e => st.1.Enabled e) (both r) es :=
    (along_fst es (both r)).mpr hperf.2
  have hcoupled := replay_invariant Coupled coupled_step es h
    ((along_and es).mpr ⟨hallowed, hstored⟩)
  have hcore : (replay (applyBoth padding) (both r) es).1 = (sys x).toCore := by
    rw [fst_replay]
    exact hperf.1.symm
  have hsettle : settle padding r x = (x, (replay (applyBoth padding) (both r) es).2) := by
    unfold settle
    rw [newEvents_eq hperf]
    refine Prod.ext (reanswer_of_agree fun k => ?_) rfl
    rw [hcoupled.simulates.get k, hcore]
  have hboth : both (settle padding r x) = replay (applyBoth padding) (both r) es := by
    rw [hsettle]
    exact Prod.ext hcore.symm rfl
  exact ⟨hsettle, hboth, hboth ▸ hcoupled⟩

/-! ### Runs -/

/-- The programs use the cache through its functions: from states with `Inv`, which has nothing to
do with the map, each of them that returns has performed allowed events. -/
structure Faithful (Inv : σ → Prop) (step : ι → Prog σ Fault Unit) : Prop where
  reanswer : ∀ x table, Inv x → Accounted (sys (reanswer table x)).toCore → Inv (reanswer table x)
  performs : ∀ i x y, Inv x → step i x = .ok ((), y) →
    Inv y ∧ ∃ es, Performs (sys x) (sys y) es

variable {Inv : σ → Prop} {step : ι → Prog σ Fault Unit} {is : List ι}

theorem Faithful.onTable (h : Faithful Inv step) {i : ι} (hinv : Inv r.1) (hr : Coupled (both r))
    (hrun : onTable padding (step i) r = .ok ((), r')) :
    ∃ x es, step i r.1 = .ok ((), x) ∧ r' = settle padding r x ∧ Performs (sys r.1) (sys x) es ∧
      Inv r'.1 ∧ Coupled (both r') := by
  obtain ⟨x, hx, rfl⟩ := onTable_ok.mp hrun
  obtain ⟨hinv', es, hes⟩ := h.performs i r.1 x hinv hx
  have hcoupled : Coupled (both (settle padding r x)) := coupled_settle hr hes
  exact ⟨x, es, hx, rfl, hes, h.reanswer x _ hinv' hcoupled.accounted, hcoupled⟩

theorem trace_settle (r : σ × HmapTable) (x : σ) :
    (sys (settle padding r x).1).trace = (sys x).trace := by
  unfold settle
  rw [sys_reanswer]

theorem runAll_performs (h : Faithful Inv step) {x y : σ} (hinv : Inv x)
    (hrun : runAll step is x = .ok ((), y)) : Inv y ∧ ∃ es, Performs (sys x) (sys y) es := by
  refine runAll_induct (R := fun x y => Inv x → Inv y ∧ ∃ es, Performs (sys x) (sys y) es) ?_ ?_ ?_
    hrun hinv
  · exact fun x hx => ⟨hx, [], performs_refl _⟩
  · intro x y z hxy hyz hx
    obtain ⟨hy, es, hes⟩ := hxy hx
    obtain ⟨hz, fs, hfs⟩ := hyz hy
    exact ⟨hz, es ++ fs, hes.trans hfs⟩
  · exact fun i _ x y hi hx => h.performs i x y hx hi

theorem newEvents_of_trace {s t : Sys} {es : List Event} (h : t.trace = s.trace ++ es) :
    newEvents s t = es := by
  unfold newEvents
  rw [h, List.drop_left]

/-- After any run on the real table, with whatever puts refused, the cache answers as the table,
and the free pages are accounted for. -/
theorem tableRun_coupled (h : Faithful Inv step) (hinv : Inv r.1) (hr : Coupled (both r))
    (hrun : tableRun padding step is r = .ok ((), r')) :
    Inv r'.1 ∧ Coupled (both r') ∧ ∃ es, (sys r'.1).trace = (sys r.1).trace ++ es := by
  refine runAll_induct (R := fun r r' => Inv r.1 ∧ Coupled (both r) → Inv r'.1 ∧ Coupled (both r') ∧
    ∃ es, (sys r'.1).trace = (sys r.1).trace ++ es) ?_ ?_ ?_ hrun ⟨hinv, hr⟩
  · exact fun r hr => ⟨hr.1, hr.2, [], (List.append_nil _).symm⟩
  · intro s t u hst htu hs
    obtain ⟨ht, ht', es, hes⟩ := hst hs
    obtain ⟨hu, hu', fs, hfs⟩ := htu ⟨ht, ht'⟩
    exact ⟨hu, hu', es ++ fs, by rw [hfs, hes, List.append_assoc]⟩
  · rintro i - s t hi ⟨hs, hs'⟩
    obtain ⟨x, es, -, rfl, hes, ht, ht'⟩ := h.onTable hs hs' hi
    exact ⟨ht, ht', es, (trace_settle s x).trans hes.trace⟩

/-- Every put from `r` to `x` returned 0. -/
def PutsStored (padding : ℕ → UInt32) (r : σ × HmapTable) (x : σ) : Prop :=
  Along (applyBoth padding) (Stored padding) (both r) (newEvents (sys r.1) (sys x))

theorem putsStored_iff {es : List Event} (h : Performs (sys r.1) (sys x) es) :
    PutsStored padding r x ↔ Along (applyBoth padding) (Stored padding) (both r) es := by
  unfold PutsStored
  rw [newEvents_eq h]

theorem putsStored_refl (r : σ × HmapTable) : PutsStored padding r r.1 := by
  unfold PutsStored newEvents
  rw [List.drop_length]
  trivial

/-- From a state without events on. -/
theorem putsStored_of_nil (h : (sys r.1).trace = []) : PutsStored padding r x ↔
    Along (applyBoth padding) (Stored padding) (both r) (sys x).trace := by
  unfold PutsStored newEvents
  rw [h, List.length_nil, List.drop_zero]

theorem putsStored_congr {y : σ} (htrace : (sys x).trace = (sys y).trace) :
    PutsStored padding r x ↔ PutsStored padding r y := by
  unfold PutsStored newEvents
  rw [htrace]

/-- A run on the real table whose puts return 0 is the run over the partial map. -/
theorem run_of_tableRun (h : Faithful Inv step) (hinv : Inv r.1) (hr : Coupled (both r))
    (hrun : tableRun padding step is r = .ok ((), r')) (hputs : PutsStored padding r r'.1) :
    runAll step is r.1 = .ok ((), r'.1) ∧
      both r' = replay (applyBoth padding) (both r) (newEvents (sys r.1) (sys r'.1)) := by
  induction is generalizing r with
  | nil =>
    cases hrun
    unfold newEvents
    rw [List.drop_length]
    exact ⟨rfl, rfl⟩
  | cons i is ih =>
    obtain ⟨u, hu, hrest⟩ := (runAll_cons_ok _).mp hrun
    obtain ⟨x, es, hx, rfl, hes, hinv', hr'⟩ := h.onTable hinv hr hu
    obtain ⟨-, -, fs, hfs⟩ := tableRun_coupled h hinv' hr' hrest
    have hevents : newEvents (sys r.1) (sys r'.1) = es ++ fs := newEvents_of_trace (by
      rw [hfs, trace_settle, hes.trace, List.append_assoc])
    unfold PutsStored at hputs
    rw [hevents, along_append] at hputs
    obtain ⟨hsettle, hboth, -⟩ := settle_of_stored hr hes hputs.1
    have hlater : newEvents (sys (settle padding r x).1) (sys r'.1) = fs := newEvents_of_trace hfs
    obtain ⟨hrun', hend⟩ := ih hinv' hr' hrest (by
      unfold PutsStored
      rw [hlater, hboth]
      exact hputs.2)
    refine ⟨(runAll_cons_ok _).mpr ⟨x, hx, ?_⟩, ?_⟩
    · rwa [hsettle] at hrun'
    · rw [hend, hlater, hboth, hevents, replay_append]

/-- The puts of a run are those of its first part and then those of its second. -/
theorem putsStored_append (h : Faithful Inv step) (hinv : Inv r.1) (hr : Coupled (both r))
    (hrun : tableRun padding step is r = .ok ((), r')) {gs : List Event}
    (hgs : (sys x).trace = (sys r'.1).trace ++ gs) :
    PutsStored padding r x ↔ PutsStored padding r r'.1 ∧ PutsStored padding r' x := by
  obtain ⟨-, -, fs, hfs⟩ := tableRun_coupled h hinv hr hrun
  have hevents : newEvents (sys r.1) (sys x) = fs ++ gs := newEvents_of_trace (by
    rw [hgs, hfs, List.append_assoc])
  have hsplit : PutsStored padding r x ↔ PutsStored padding r r'.1 ∧
      Along (applyBoth padding) (Stored padding) (replay (applyBoth padding) (both r) fs) gs := by
    unfold PutsStored
    rw [hevents, newEvents_of_trace hfs, along_append]
  rw [hsplit]
  refine and_congr_right fun hputs => ?_
  obtain ⟨-, hboth⟩ := run_of_tableRun h hinv hr hrun hputs
  unfold PutsStored
  rw [hboth, newEvents_of_trace hfs, newEvents_of_trace hgs]

/-- The parts of a run whose puts return 0 are runs over the partial map. -/
theorem tableRun_append_stored (h : Faithful Inv step) (is : List ι) {js : List ι}
    (hinv : Inv r.1) (hr : Coupled (both r))
    (hrun : tableRun padding step (is ++ js) r = .ok ((), r')) (hputs : PutsStored padding r r'.1) :
    ∃ u, tableRun padding step is r = .ok ((), u) ∧ tableRun padding step js u = .ok ((), r') ∧
      PutsStored padding r u.1 ∧ PutsStored padding u r'.1 ∧ runAll step is r.1 = .ok ((), u.1) ∧
      Inv u.1 ∧ Coupled (both u) := by
  obtain ⟨u, hu, hrest⟩ := (runAll_append_ok _).mp hrun
  obtain ⟨hinv', hr', -⟩ := tableRun_coupled h hinv hr hu
  obtain ⟨-, -, gs, hgs⟩ := tableRun_coupled h hinv' hr' hrest
  obtain ⟨hbefore, hafter⟩ := (putsStored_append h hinv hr hu hgs).mp hputs
  exact ⟨u, hu, hrest, hbefore, hafter, (run_of_tableRun h hinv hr hu hbefore).1, hinv', hr'⟩

/-- Where every put returns 0, the table answers as the map before and after every event. -/
theorem along_coupled {es : List Event} (hr : Coupled (both r))
    (hes : Performs (sys r.1) (sys x) es) (hputs : PutsStored padding r x) :
    Along (applyBoth padding) (fun st e => Coupled st ∧ Coupled (applyBoth padding st e)) (both r)
      es := by
  have hboth := (along_and es).mpr
    ⟨(along_fst es (both r)).mpr hes.2, (putsStored_iff hes).mp hputs⟩
  exact along_of_invariant Coupled coupled_step (fun st e h he => ⟨h, coupled_step st e h he⟩) es hr
    hboth

/-- The other way round: where the puts of a run over the partial map return 0, the run is one on
the real table. -/
theorem tableRun_of_run (h : Faithful Inv step) (hinv : Inv r.1) (hr : Coupled (both r))
    (hrun : runAll step is r.1 = .ok ((), x)) (hputs : PutsStored padding r x) :
    tableRun padding step is r = .ok ((), x,
      (replay (applyBoth padding) (both r) (newEvents (sys r.1) (sys x))).2) := by
  induction is generalizing r with
  | nil =>
    cases hrun
    unfold newEvents
    rw [List.drop_length]
    rfl
  | cons i is ih =>
    obtain ⟨y, hy, hrest⟩ := (runAll_cons_ok _).mp hrun
    obtain ⟨hinv', es, hes⟩ := h.performs i r.1 y hinv hy
    obtain ⟨-, fs, hfs⟩ := runAll_performs h hinv' hrest
    have hevents : newEvents (sys r.1) (sys x) = es ++ fs := newEvents_of_trace (by
      rw [hfs.trace, hes.trace, List.append_assoc])
    unfold PutsStored at hputs
    rw [hevents, along_append] at hputs
    obtain ⟨hsettle, hboth, hr'⟩ := settle_of_stored hr hes hputs.1
    have hlater : newEvents (sys (settle padding r y).1) (sys x) = fs := by
      rw [hsettle]
      exact newEvents_eq hfs
    have hrest' := @ih (settle padding r y) (by rw [hsettle]; exact hinv') hr'
      (by rw [hsettle]; exact hrest) (by
        unfold PutsStored
        rw [hlater, hboth]
        exact hputs.2)
    refine (runAll_cons_ok _).mpr ⟨settle padding r y, onTable_ok.mpr ⟨y, hy, rfl⟩, ?_⟩
    rw [hlater, hboth, ← replay_append, ← hevents] at hrest'
    exact hrest'

/-- In a run on the real table whose puts do not all return 0, the first put that is refused is
made by a call before which the run is one over the partial map. -/
theorem exists_first_refused (h : Faithful Inv step) (hinv : Inv r.1) (hr : Coupled (both r))
    (hrun : tableRun padding step is r = .ok ((), r')) (hputs : ¬ PutsStored padding r r'.1) :
    ∃ left i right u x, is = left ++ i :: right ∧ tableRun padding step left r = .ok ((), u) ∧
      PutsStored padding r u.1 ∧ step i u.1 = .ok ((), x) ∧ ¬ PutsStored padding u x ∧
      tableRun padding step right (settle padding u x) = .ok ((), r') := by
  induction is generalizing r with
  | nil =>
    cases hrun
    exact absurd (putsStored_refl r') hputs
  | cons i is ih =>
    obtain ⟨u, hu, hrest⟩ := (runAll_cons_ok _).mp hrun
    obtain ⟨x, es, hx, rfl, hes, hinv', hr'⟩ := h.onTable hinv hr hu
    by_cases hfirst : PutsStored padding r x
    · have hone : tableRun padding step [i] r = .ok ((), settle padding r x) :=
        (runAll_cons_ok _).mpr ⟨_, hu, rfl⟩
      have hjoin : ∀ y gs, (sys y).trace = (sys (settle padding r x).1).trace ++ gs →
          (PutsStored padding r y ↔ PutsStored padding (settle padding r x) y) := fun y gs hgs =>
        (putsStored_append h hinv hr hone hgs).trans
          (and_iff_right ((putsStored_congr (trace_settle r x)).mpr hfirst))
      obtain ⟨-, -, fs, hfs⟩ := tableRun_coupled h hinv' hr' hrest
      obtain ⟨left, j, right, v, y, rfl, hleft, hv, hy, hnot, hright⟩ := ih hinv' hr' hrest
        ((hjoin r'.1 fs hfs).not.mp hputs)
      obtain ⟨-, -, gs, hgs⟩ := tableRun_coupled h hinv' hr' hleft
      exact ⟨i :: left, j, right, v, y, rfl, (runAll_cons_ok _).mpr ⟨_, hu, hleft⟩,
        (hjoin v.1 gs hgs).mpr hv, hy, hnot, hright⟩
    · exact ⟨[], i, is, r, x, rfl, rfl, putsStored_refl r, hx, hfirst, hrest⟩

/-- What neither the answers of the table nor the events touch stays as it is. -/
theorem Faithful.frame {β : Type} (h : Faithful Inv step) (f : Sys → β)
    (hanswer : ∀ s table, f { s with cache := answered table s.cache } = f s)
    (hperf : ∀ s t es, Performs s t es → f t = f s) (b : β) :
    Faithful (fun x => Inv x ∧ f (sys x) = b) step := by
  refine ⟨fun x table hx haccounted => ⟨h.reanswer x table hx.1 haccounted, ?_⟩, ?_⟩
  · rw [sys_reanswer, hanswer]
    exact hx.2
  · rintro i x y ⟨hinv, hx⟩ hrun
    obtain ⟨hinv', es, hes⟩ := h.performs i x y hinv hrun
    exact ⟨⟨hinv', (hperf _ _ es hes).trans hx⟩, es, hes⟩

/-! ### Processes and fallthrough runs -/

theorem faithful_exec (env : Env) (ft : FtCache) : Faithful Sound (exec env ft) := by
  refine ⟨fun p table hp haccounted => ⟨haccounted, fun l d hd => hp.locks l d hd⟩, ?_⟩
  intro call p q hp hcall
  obtain ⟨hq, es, hes, -⟩ := (wp_of_ok hcall).mp (exec_anyKey env ft call hp)
  exact ⟨hq, es, hes⟩

theorem faithful_ftExec (env : Env) (ft : FtCache) : Faithful Idle (ftExec env ft) := by
  refine ⟨fun s table hs haccounted => ⟨haccounted, hs.wlock⟩, ?_⟩
  intro call s t hs hcall
  have hstep := ftStep_of_ok hs hcall
  obtain ⟨es, hes⟩ := ftStep_acts hs hstep
  exact ⟨idle_ftStep hs hstep, es, hes.performs⟩

theorem coupled_new {boot : Boot} {capacity l a d : ℕ} {r : Sys × HmapTable}
    (hnew : tableCacheNewEx boot capacity l a d = some r) : Coupled (both r) := by
  obtain ⟨hcreated, hcapacity, hfresh⟩ := tableCacheNewEx_some.mp hnew
  rw [hfresh]
  exact coupled_created (created_of_new hcreated).1 hcapacity

/-- If the keys do not crowd, every put returns 0. -/
theorem putsStored_of_uncrowded {K : Finset Key} (hK : Uncrowded exactKeyHasher K)
    (hcard : K.card < 2 ^ 31) (hzero : 0 ∉ K) (hr : Coupled (both r))
    (hinside : KeysInside (OrZero K) (both r).1) {es : List Event}
    (hes : Performs (sys r.1) (sys x) es) (hkeys : ∀ e ∈ es, OnKeys (OrZero K) e) :
    PutsStored padding r x :=
  (putsStored_iff hes).mpr (along_stored_of_uncrowded hK hcard hzero hr hinside hes.2 hkeys)

/-- A process that has just created its cache, with read locks of its choice. -/
def startTable (r : Sys × HmapTable) (locks : ℕ → RLock) : Process × HmapTable :=
  (⟨r.1, locks⟩, r.2)

section Created
variable {boot : Boot} {capacity l a m : ℕ} {r₀ : Sys × HmapTable} {locks : ℕ → RLock} {env : Env}
  {ft : FtCache} {calls : List Call} {K : Finset Key}

theorem putsStored_new (hnew : tableCacheNewEx boot capacity l a m = some r₀) (p : Process) :
    PutsStored padding (startTable r₀ locks) p ↔
      Along (applyBoth padding) (Stored padding) (fresh r₀.1) p.sys.trace := by
  obtain ⟨hcreated, -, hfresh⟩ := tableCacheNewEx_some.mp hnew
  rw [← hfresh]
  exact putsStored_of_nil (r := startTable r₀ locks) (created_of_new hcreated).1.trace

/-- A run of a new cache on its real table whose puts return 0 is the run over the partial map, and
the table answers as the map in every state. -/
theorem run_of_tableRun_new (hnew : tableCacheNewEx boot capacity l a m = some r₀)
    (hlocks : ∀ i, (locks i).head = .null) {p : Process × HmapTable}
    (hrun : tableRun padding (exec env ft) calls (startTable r₀ locks) = .ok ((), p))
    (hputs : Along (applyBoth padding) (Stored padding) (fresh r₀.1) p.1.sys.trace) :
    run env ft calls ⟨r₀.1, locks⟩ = .ok ((), p.1) ∧ Agree (p.1.sys.toCore, p.2) ∧
      Along (applyBoth padding) (fun st _ => Agree st) (fresh r₀.1) p.1.sys.trace := by
  obtain ⟨hcreated, hcapacity, -⟩ := tableCacheNewEx_some.mp hnew
  have hs := (created_of_new hcreated).1
  have hstart : Coupled (both (startTable r₀ locks)) := coupled_new hnew
  obtain ⟨hideal, -⟩ := run_of_tableRun (faithful_exec env ft) (hs.sound_locks hlocks) hstart hrun
    ((putsStored_new hnew p.1).mpr hputs)
  obtain ⟨-, hcoupled, -⟩ := tableRun_coupled (faithful_exec env ft) (hs.sound_locks hlocks) hstart
    hrun
  exact ⟨hideal, hcoupled.agree, (table_agrees hs hcapacity hlocks hideal hputs).2⟩

/-- On keys that do not crowd the runs over the partial map are those on the real table. -/
theorem tableRun_of_uncrowded (padding : ℕ → UInt32) (hK : Uncrowded exactKeyHasher K)
    (hcard : K.card < 2 ^ 31) (hzero : 0 ∉ K)
    (hnew : tableCacheNewEx boot capacity l a m = some r₀)
    (hlocks : ∀ i, (locks i).head = .null ∧ OrZero K (locks i).key)
    (hcalls : ∀ call ∈ calls, call.OnKeys (OrZero K)) {p : Process}
    (hrun : run env ft calls ⟨r₀.1, locks⟩ = .ok ((), p)) :
    (∃ t, tableRun padding (exec env ft) calls (startTable r₀ locks) = .ok ((), p, t)) ∧
      Along (applyBoth padding) (Stored padding) (fresh r₀.1) p.sys.trace := by
  obtain ⟨hcreated, hcapacity, -⟩ := tableCacheNewEx_some.mp hnew
  have hs := (created_of_new hcreated).1
  have hputs : Along (applyBoth padding) (Stored padding) (fresh r₀.1) p.sys.trace :=
    puts_of_uncrowded hK hcard hzero hs hcapacity hlocks hcalls hrun
  have hsound : Sound ⟨r₀.1, locks⟩ := hs.sound_locks fun i => (hlocks i).1
  have hstart : Coupled (both (startTable r₀ locks)) := coupled_new hnew
  exact ⟨⟨_, tableRun_of_run (faithful_exec env ft) hsound hstart hrun
    ((putsStored_new hnew p).mpr hputs)⟩, hputs⟩

/-- On keys that do not crowd no put of a run on the real table is refused, and no other keys get
into the table. -/
theorem putsStored_of_tableRun (hK : Uncrowded exactKeyHasher K) (hcard : K.card < 2 ^ 31)
    (hzero : 0 ∉ K) (hnew : tableCacheNewEx boot capacity l a m = some r₀)
    (hlocks : ∀ i, (locks i).head = .null ∧ OrZero K (locks i).key)
    (hcalls : ∀ call ∈ calls, call.OnKeys (OrZero K)) {p : Process × HmapTable}
    (hrun : tableRun padding (exec env ft) calls (startTable r₀ locks) = .ok ((), p)) :
    PutsStored padding (startTable r₀ locks) p.1 ∧ KeysInside (OrZero K) p.1.sys.toCore := by
  obtain ⟨hcreated, hcapacity, -⟩ := tableCacheNewEx_some.mp hnew
  have hs := (created_of_new hcreated).1
  have hfaithful := faithful_exec env ft
  have hsound : Sound (startTable r₀ locks).1 := hs.sound_locks fun i => (hlocks i).1
  have hstart : Coupled (both (startTable r₀ locks)) := coupled_new hnew
  have hideal : ∀ calls p, (∀ call ∈ calls, call.OnKeys (OrZero K)) →
      run env ft calls ⟨r₀.1, locks⟩ = .ok ((), p) → PutsStored padding (startTable r₀ locks) p :=
    fun calls p hcalls hrun => (putsStored_new hnew _).mpr
      (puts_of_uncrowded hK hcard hzero hs hcapacity hlocks hcalls hrun)
  have hputs : PutsStored padding (startTable r₀ locks) p.1 := by
    by_contra hputs
    obtain ⟨left, call, right, u, x, rfl, hu, hstored, hx, hnot, -⟩ :=
      exists_first_refused hfaithful hsound hstart hrun hputs
    obtain ⟨hrun', -⟩ := run_of_tableRun hfaithful hsound hstart hu hstored
    obtain ⟨hu', -⟩ := tableRun_coupled hfaithful hsound hstart hu
    obtain ⟨-, gs, hgs⟩ := hfaithful.performs call u.1 x hu' hx
    have hall : PutsStored padding (startTable r₀ locks) x := by
      refine hideal (left ++ [call]) x (fun c hc => hcalls c ?_)
        ((runAll_append_ok _).mpr ⟨u.1, hrun', (runAll_cons_ok _).mpr ⟨x, hx, rfl⟩⟩)
      rcases List.mem_append.mp hc with hc | hc
      · exact List.mem_append_left _ hc
      · rw [List.mem_singleton.mp hc]
        simp
    exact hnot ((putsStored_append hfaithful hsound hstart hu hgs.trace).mp hall).2
  obtain ⟨hrun', -⟩ := run_of_tableRun hfaithful hsound hstart hrun hputs
  have hevents := run_onKeys (K := OrZero K) (.inl rfl) hs hlocks hcalls hrun'
  obtain ⟨hperforms, -⟩ := run_replay hs (fun i => (hlocks i).1) hrun'
  refine ⟨hputs, ?_⟩
  rw [hperforms.1]
  exact replay_invariant (P := fun _ e => OnKeys (OrZero K) e) _ (keysInside_step (.inl rfl)) _
    (keysInside_created hs) (along_of_forall _ fun e he _ => hevents e he)

end Created

/-- `smallCache` with its table. -/
def smallTable : Sys × HmapTable := (smallCache, .new 1)

theorem smallTable_new : tableCacheNewEx zeroBoot 131072 32 0 0 = some smallTable :=
  tableCacheNewEx_some.mpr ⟨smallCache_new, by decide +kernel, rfl⟩

end LazyfreeCache.TableCache
