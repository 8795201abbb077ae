import LazyfreeCache.HmapAccess

/-!
Runs of the cache beside its real table. Every event makes the same calls on
the table as on the partial map of the model, and as long as the puts into the
table succeed, which they do for keys that do not crowd, the table answers
every lookup as the map does. A put whose key collides with eight others is
lost without a word.
-/
namespace LazyfreeCache.HmapRuns

open ReferenceSet Hashmap ProgramLogic EventReplay State LazyfreeOps FallthroughOps Refinement
open Accounting Client HmapAccess

/-- An event with both maps. The bytes `padding n` lie beside the descriptor that is put by the
event after `n` others. -/
def applyBoth (padding : ℕ → UInt32) (st : Core × HmapTable) (e : Event) : Core × HmapTable :=
  (st.1.apply e, st.2.step (padding st.1.trace.length) st.1.cache e)

/-- A fresh cache and its fresh table. -/
def fresh (s : Sys) : Core × HmapTable := (s.toCore, .new s.cache.pagesPerChunk)

/-- The cache and its table after the events. -/
def runBoth (padding : ℕ → UInt32) (s : Sys) (es : List Event) : Core × HmapTable :=
  replay (applyBoth padding) (fresh s) es

/-- If the event puts a key into the hash map, `hashmap_put` returns 0. -/
def Stored (padding : ℕ → UInt32) (st : Core × HmapTable) (e : Event) : Prop :=
  ∀ d key, e = .allocated d key → key ≠ 0 →
    (hashmapPut st.2.map key (entryOf d (padding st.1.trace.length))).1 = 0

/-- Both maps answer alike, and the size of the table is the number of nonzero keys. -/
structure Agree (st : Core × HmapTable) : Prop where
  get : ∀ key, st.2.hmapGet key = st.1.cache.hmapGet key
  numEntries : hashmapNumEntries st.2.map =
    {key | key ≠ 0 ∧ st.1.cache.hmapGet key ≠ none}.ncard

/-- The invariant of the two maps. -/
structure Coupled (st : Core × HmapTable) : Prop where
  accounted : Accounted st.1
  simulates : Simulates st.2 st.1.cache.hmapGet

theorem Coupled.agree {st : Core × HmapTable} (h : Coupled st) : Agree st :=
  ⟨h.simulates.get, h.simulates.numEntries⟩

variable {padding : ℕ → UInt32} {st : Core × HmapTable}

theorem simulates_step (h : Coupled st) {e : Event} (henabled : st.1.Enabled e)
    (hstored : Stored padding st e) :
    Simulates (st.2.step (padding st.1.trace.length) st.1.cache e)
      (st.1.cache.step e).hmapGet := by
  cases e with
  | evicted c =>
    exact h.simulates.hmapRemoveKeys (st.1.cache.chunks c).keys (st.1.cache.chunks c).len
  | allocated d key =>
    have hindex : d.index < 2 ^ 32 := by
      have hlt := ready_index_lt h.accounted henabled.2
      have hpages := h.accounted.pages
      omega
    change Simulates _ (st.1.cache.hmapPut key d).hmapGet
    rw [hmapGet_hmapPut]
    exact h.simulates.put hindex (hstored d key rfl)
  | dropped d key =>
    change Simulates _ (st.1.cache.hmapRemove (st.1.cache.label d)).hmapGet
    rw [hmapGet_hmapRemove]
    exact h.simulates.remove (st.1.cache.label d)
  | _ => exact h.simulates

/-- The step lemma. -/
theorem coupled_step (st : Core × HmapTable) (e : Event) (h : Coupled st)
    (he : st.1.Enabled e ∧ Stored padding st e) : Coupled (applyBoth padding st e) :=
  ⟨accounted_step st.1 e h.accounted he.1, simulates_step h he.1 he.2⟩

theorem fst_replay (es : List Event) (st : Core × HmapTable) :
    (replay (applyBoth padding) st es).1 = replay Core.apply st.1 es := by
  induction es generalizing st with
  | nil => rfl
  | cons e es ih => exact ih _

/-- What holds along the events holds along them with both maps. -/
theorem along_fst {P : Core → Event → Prop} (es : List Event) (st : Core × HmapTable) :
    Along (applyBoth padding) (fun st e => P st.1 e) st es ↔ Along Core.apply P st.1 es := by
  induction es generalizing st with
  | nil => rfl
  | cons e es ih => exact and_congr_right fun _ => ih _

theorem coupled_created {l a : ℕ} {s : Sys} (h : Created l a s)
    (hcapacity : u32 (numberOfChunks * s.cache.pagesPerChunk) ≤ 2 ^ 31) :
    Coupled (fresh s) := by
  refine ⟨h.accounted, ?_⟩
  unfold fresh
  have hempty : s.cache.hmapGet = Residents.empty := funext h.map
  rw [hempty]
  exact simulates_new hcapacity

/-! ### Runs whose puts succeed -/

theorem coupled_of_run {env : Env} {ft : FtCache} {calls : List Call} {l a : ℕ} {s : Sys}
    {locks : ℕ → RLock} {p : Process} (hs : Created l a s)
    (hcapacity : u32 (numberOfChunks * s.cache.pagesPerChunk) ≤ 2 ^ 31)
    (hlocks : ∀ i, (locks i).head = .null) (hrun : run env ft calls ⟨s, locks⟩ = .ok ((), p))
    (hputs : Along (applyBoth padding) (Stored padding) (fresh s) p.sys.trace) :
    Coupled (runBoth padding s p.sys.trace) ∧
      Along (applyBoth padding) (fun st _ => Coupled st) (fresh s) p.sys.trace := by
  obtain ⟨hperforms, -⟩ := run_replay hs hlocks hrun
  have hallowed : Along (applyBoth padding) (fun st e => st.1.Enabled e) (fresh s) p.sys.trace :=
    (along_fst p.sys.trace (fresh s)).mpr hperforms.2
  have hboth := (along_and p.sys.trace).mpr ⟨hallowed, hputs⟩
  have hstart := coupled_created hs hcapacity
  exact ⟨replay_invariant Coupled coupled_step _ hstart hboth,
    along_of_invariant Coupled coupled_step (fun _ _ h _ => h) _ hstart hboth⟩

theorem fst_runBoth {env : Env} {ft : FtCache} {calls : List Call} {l a : ℕ} {s : Sys}
    {locks : ℕ → RLock} {p : Process} (hs : Created l a s) (hlocks : ∀ i, (locks i).head = .null)
    (hrun : run env ft calls ⟨s, locks⟩ = .ok ((), p)) :
    (runBoth padding s p.sys.trace).1 = p.sys.toCore := by
  obtain ⟨hperforms, -⟩ := run_replay hs hlocks hrun
  unfold runBoth
  rw [fst_replay]
  exact hperforms.1.symm

/-- In every state of a run the table answers every lookup as the map, if every put into it
returned 0. -/
theorem table_agrees {env : Env} {ft : FtCache} {calls : List Call} {l a : ℕ} {s : Sys}
    {locks : ℕ → RLock} {p : Process} (hs : Created l a s)
    (hcapacity : u32 (numberOfChunks * s.cache.pagesPerChunk) ≤ 2 ^ 31)
    (hlocks : ∀ i, (locks i).head = .null) (hrun : run env ft calls ⟨s, locks⟩ = .ok ((), p))
    (hputs : Along (applyBoth padding) (Stored padding) (fresh s) p.sys.trace) :
    Agree (p.sys.toCore, (runBoth padding s p.sys.trace).2) ∧
      Along (applyBoth padding) (fun st _ => Agree st) (fresh s) p.sys.trace := by
  obtain ⟨hend, halong⟩ := coupled_of_run hs hcapacity hlocks hrun hputs
  have hpair : (p.sys.toCore, (runBoth padding s p.sys.trace).2) = runBoth padding s p.sys.trace :=
    Prod.ext (fst_runBoth hs hlocks hrun).symm rfl
  rw [hpair]
  exact ⟨hend.agree, along_mono p.sys.trace halong fun _ _ h => h.agree⟩

/-! ### Runs on keys that do not crowd -/

/-- Handed-out slots and the map have keys in `K` only. -/
structure KeysInside (K : Key → Prop) (s : Core) : Prop where
  label : ∀ d, s.HandedOut d → K (s.cache.label d)
  map : ∀ k, s.cache.hmapGet k ≠ none → K k

variable {K : Key → Prop}

theorem keysInside_step (hzero : K 0) (s : Core) (e : Event) (h : KeysInside K s)
    (he : OnKeys K e) : KeysInside K (s.apply e) := by
  have hhanded : ∀ d, (∀ key, e ≠ .allocated d key) → (s.apply e).HandedOut d → s.HandedOut d := by
    intro d hne hd
    rcases (handedOut_apply s e d).mp hd with hd | ⟨key, hkey⟩
    · exact hd
    · exact absurd hkey (hne key)
  cases e with
  | evicted c =>
    refine ⟨fun d hd => ?_, fun k hk => ?_⟩
    · simp only [Core.cache_apply, Cache.step, Cache.label_evict]
      split
      · exact hzero
      · exact h.label d (hhanded d (by simp) hd)
    · simp only [Core.cache_apply, Cache.step, Cache.hmapGet_evict] at hk
      split at hk
      · exact absurd rfl hk
      · exact h.map k hk
  | allocated d' key =>
    refine ⟨fun d hd => ?_, fun k hk => ?_⟩
    · simp only [Core.cache_apply, Cache.step, Cache.label_allocate]
      split
      · exact he
      · rename_i hne
        refine h.label d (hhanded d (fun key' heq => hne ?_) hd)
        cases heq
        rfl
    · simp only [Core.cache_apply, Cache.step, Cache.hmapGet_allocate] at hk
      split at hk
      · rename_i hkey
        exact hkey ▸ he
      · exact h.map k hk
  | dropped d' key =>
    refine ⟨fun d hd => ?_, fun k hk => ?_⟩
    · simp only [Core.cache_apply, Cache.step, Cache.label_drop]
      split
      · exact hzero
      · exact h.label d (hhanded d (by simp) hd)
    · simp only [Core.cache_apply, Cache.step, Cache.hmapGet_drop] at hk
      split at hk
      · exact absurd rfl hk
      · exact h.map k hk
  | committed w bit =>
    refine ⟨fun d hd => ?_, h.map⟩
    simp only [Core.cache_apply, Cache.step, Cache.label_commit]
    exact h.label d (hhanded d (by simp) hd)
  | _ => exact ⟨fun d hd => h.label d (hhanded d (by simp) hd), h.map⟩

theorem keysInside_created {l a : ℕ} {s : Sys} (hs : Created l a s) : KeysInside K s.toCore := by
  refine ⟨?_, fun k hk => absurd (hs.map k) hk⟩
  rintro d ⟨key, hkey⟩
  rw [hs.trace] at hkey
  cases hkey

theorem steps_keysInside (hzero : K 0) {s t : Sys} (h : Steps K s t) (hs : KeysInside K s.toCore) :
    KeysInside K t.toCore := by
  obtain ⟨es, hes, hkeys, -⟩ := h
  rw [hes.1]
  exact replay_invariant (P := fun _ e => OnKeys K e) _ (keysInside_step hzero) es hs
    (along_of_forall es fun e he _ => hkeys e he)

/-- A run whose calls and locks are on keys in `K` hands out slots for such keys only. -/
theorem run_onKeys (hzero : K 0) {env : Env} {ft : FtCache} {calls : List Call} {l a : ℕ} {s : Sys}
    {locks : ℕ → RLock} {p : Process} (hs : Created l a s)
    (hlocks : ∀ i, (locks i).head = .null ∧ K (locks i).key)
    (hcalls : ∀ call ∈ calls, call.OnKeys K)
    (hrun : run env ft calls ⟨s, locks⟩ = .ok ((), p)) : ∀ e ∈ p.sys.trace, OnKeys K e := by
  have hwp : wp (run env ft calls) (fun _ p => Sound p ∧ Steps K s p.sys ∧ ∀ i, K (p.locks i).key)
      (fun _ => True) ⟨s, locks⟩ := by
    refine wp_runAll ?_ ⟨hs.sound_locks fun i => (hlocks i).1, steps_refl s, fun i => (hlocks i).2⟩
    rintro call hcall p ⟨hsound, hsteps, hkeys⟩
    have hinside := steps_keysInside hzero hsteps (keysInside_created hs)
    refine wp_mono (exec_sound env ft hsound (hcalls call hcall) ⟨hkeys, fun w hw => ?_⟩)
      (fun _ q h => ⟨h.1, hsteps.trans h.2.1, h.2.2⟩) fun _ _ => trivial
    exact hinside.label w.slot (hsound.accounted.wlock_handed w hw)
  obtain ⟨-, ⟨es, hes, hkeys, -⟩, -⟩ := (wp_of_ok hrun).mp hwp
  rw [hs.trace_eq hes.trace]
  exact hkeys

/-- Key 0 and the keys of `K`. -/
def OrZero (K : Finset Key) : Key → Prop := fun k => k = 0 ∨ k ∈ K

/-- A table that finds keys of `K` only takes each of them, if they do not crowd. -/
theorem hashmapPut_of_found {K : Finset Key} (hK : Uncrowded exactKeyHasher K)
    (hcard : K.card < 2 ^ 31) (hzero : 0 ∉ K) {t : HmapTable} (h : Intact t)
    (hfound : ∀ k ≠ 0, t.hmapGet k ≠ none → k ∈ K) {key : Key} (hkey : key ∈ K) (value : UInt64) :
    (hashmapPut t.map key value).1 = 0 := by
  refine hashmapPut_of_uncrowded hK hcard hzero h.proper h.hasher (fun k hk => ?_) hkey value
  have hne : k ≠ 0 := by
    rintro rfl
    exact hk (contents_eq_none.mpr h.proper.nonnull)
  refine hfound k hne ?_
  rw [← h.simulates.map k hne, ne_eq, Option.map_eq_none_iff]
  exact hk

theorem stored_of_uncrowded {K : Finset Key} (hK : Uncrowded exactKeyHasher K)
    (hcard : K.card < 2 ^ 31) (hzero : 0 ∉ K) (h : Coupled st)
    (hinside : KeysInside (OrZero K) st.1) {e : Event} (he : OnKeys (OrZero K) e) :
    Stored padding st e := by
  rintro d key rfl hkey
  refine hashmapPut_of_found hK hcard hzero h.simulates.intact (fun k hk hfound => ?_)
    (he.resolve_left hkey) _
  rw [h.simulates.get k] at hfound
  exact (hinside.map k hfound).resolve_left hk

/-- Allowed events on keys that do not crowd put no key in vain. -/
theorem along_stored_of_uncrowded {K : Finset Key} (hK : Uncrowded exactKeyHasher K)
    (hcard : K.card < 2 ^ 31) (hzero : 0 ∉ K) (h : Coupled st)
    (hinside : KeysInside (OrZero K) st.1) {es : List Event}
    (hallowed : Along Core.apply Core.Enabled st.1 es) (hkeys : ∀ e ∈ es, OnKeys (OrZero K) e) :
    Along (applyBoth padding) (Stored padding) st es := by
  have hboth : Along (applyBoth padding)
      (fun st e => st.1.Enabled e ∧ OnKeys (OrZero K) e) st es :=
    (along_fst es st).mpr ((along_and es).mpr
      ⟨hallowed, along_of_forall es fun e he _ => hkeys e he⟩)
  refine along_of_invariant (fun st => Coupled st ∧ KeysInside (OrZero K) st.1) ?_ ?_
    es ⟨h, hinside⟩ hboth
  · rintro st e ⟨hcoupled, hinside⟩ ⟨henabled, hkeys⟩
    have hstored : Stored padding st e :=
      stored_of_uncrowded hK hcard hzero hcoupled hinside hkeys
    exact ⟨coupled_step st e hcoupled ⟨henabled, hstored⟩,
      keysInside_step (.inl rfl) st.1 e hinside hkeys⟩
  · rintro st e ⟨hcoupled, hinside⟩ ⟨-, hkeys⟩
    exact stored_of_uncrowded hK hcard hzero hcoupled hinside hkeys

theorem puts_of_uncrowded {K : Finset Key} (hK : Uncrowded exactKeyHasher K)
    (hcard : K.card < 2 ^ 31) (hzero : 0 ∉ K) {env : Env} {ft : FtCache} {calls : List Call}
    {l a : ℕ} {s : Sys} {locks : ℕ → RLock} {p : Process} (hs : Created l a s)
    (hcapacity : u32 (numberOfChunks * s.cache.pagesPerChunk) ≤ 2 ^ 31)
    (hlocks : ∀ i, (locks i).head = .null ∧ OrZero K (locks i).key)
    (hcalls : ∀ call ∈ calls, call.OnKeys (OrZero K))
    (hrun : run env ft calls ⟨s, locks⟩ = .ok ((), p)) :
    Along (applyBoth padding) (Stored padding) (fresh s) p.sys.trace := by
  obtain ⟨hperforms, -⟩ := run_replay hs (fun i => (hlocks i).1) hrun
  have hevents := run_onKeys (K := OrZero K) (.inl rfl) hs hlocks hcalls hrun
  exact along_stored_of_uncrowded hK hcard hzero (coupled_created hs hcapacity)
    (keysInside_created hs) hperforms.2 hevents

/-- If the keys of the calls do not crowd near each other in the largest table, every put of
every run succeeds, and in every state the table answers every lookup as the map. -/
theorem table_agrees_uncrowded {boot : Boot} {capacity l a d : ℕ} {s₀ : Sys}
    (hnew : lazyfreeCacheNewEx boot capacity l a d = .ok s₀)
    (hcapacity : u32 (numberOfChunks * s₀.cache.pagesPerChunk) ≤ 2 ^ 31) {K : Finset Key}
    (hK : Uncrowded exactKeyHasher K) (hcard : K.card < 2 ^ 31) (hzero : 0 ∉ K)
    (locks : ℕ → RLock) (hlocks : ∀ i, (locks i).head = .null ∧ OrZero K (locks i).key)
    (env : Env) (ft : FtCache) (calls : List Call) (hcalls : ∀ call ∈ calls, call.OnKeys (OrZero K))
    (padding : ℕ → UInt32) {p : Process} (hrun : run env ft calls ⟨s₀, locks⟩ = .ok ((), p)) :
    Along (applyBoth padding) (Stored padding) (fresh s₀) p.sys.trace ∧
      Agree (p.sys.toCore, (runBoth padding s₀ p.sys.trace).2) ∧
      Along (applyBoth padding) (fun st _ => Agree st) (fresh s₀) p.sys.trace := by
  have hs := (created_of_new hnew).1
  have hputs : Along (applyBoth padding) (Stored padding) (fresh s₀) p.sys.trace :=
    puts_of_uncrowded hK hcard hzero hs hcapacity hlocks hcalls hrun
  exact ⟨hputs, table_agrees hs hcapacity (fun i => (hlocks i).1) hrun hputs⟩

/-- Two keys that are written, one that is dropped, and key 0. -/
theorem table_agrees_uncrowded_two : ∃ p, run calm byteCache [.ftGet 1, .ftGet 2, .ftDrop 1,
      .ftGet 0] ⟨smallCache, fun _ => .fresh 0⟩ = .ok ((), p) ∧
    Agree (p.sys.toCore, (runBoth (fun n => .ofNat n) smallCache p.sys.trace).2) := by
  have hrun := run_eq_unit ⟨smallCache, fun _ => .fresh 0⟩
    (run calm byteCache [.ftGet 1, .ftGet 2, .ftDrop 1, .ftGet 0]) (by decide +kernel)
  refine ⟨_, hrun, (table_agrees_uncrowded smallCache_new (by decide +kernel) (K := {1, 2})
    (by decide +kernel) (by decide) (by decide) _ (fun _ => ⟨rfl, .inl rfl⟩) calm byteCache _ ?_ _
    hrun).2.1⟩
  simp [Call.OnKeys, OrZero]

/-! ### Puts that are lost -/

theorem lost_of_coupled (h : Coupled st) {key : Key} (hkey : key ≠ 0) {S : Finset Key}
    (hS : 8 ≤ S.card) (hcollide : ∀ k ∈ S, k ≠ 0 ∧ k ≠ key ∧ hashU64ToU32 k = hashU64ToU32 key ∧
      st.1.cache.hmapGet k ≠ none) (desc : EntryDescriptor) (bytes : UInt32) :
    st.2.hmapGet key = none ∧
      (∀ k, (st.2.hmapPut key desc bytes).hmapGet k = st.2.hmapGet k) ∧
      hashmapCapacity (st.2.hmapPut key desc bytes).map = 2 ^ 31 := by
  have hsim := h.simulates
  have hcollides : Collides st.2.map key := by
    refine ⟨S, hS, fun k hk => ?_⟩
    obtain ⟨hne, hother, hhash, hheld⟩ := hcollide k hk
    refine ⟨hother, ?_, fun hnone => hheld ?_⟩
    · rw [hsim.hasher]
      unfold exactKeyHasher
      rw [hhash]
    · rw [← hsim.map k hne, hnone]
      rfl
  obtain ⟨hcode, -, hgrown⟩ := hashmapPut_fails hsim.proper hcollides hkey (entryOf desc bytes)
  refine ⟨?_, hmapGet_hmapPut_refused hsim.proper hkey (by rw [hcode]; decide), ?_⟩
  · rw [hsim.get key, ← hsim.map key hkey, hcollides.missing hsim.proper]
    rfl
  · unfold HmapTable.hmapPut
    rw [if_neg hkey]
    exact hgrown

/-- After a run whose puts succeeded, `hmap_put` of a key that has the hash of eight keys of the
cache grows the table to 2^31 slots and does nothing that `hmap_get` could see:
`lazyfree_write_alloc` hands out a page that no read lock will find. -/
theorem hmapPut_lost {boot : Boot} {capacity l a d : ℕ} {s₀ : Sys}
    (hnew : lazyfreeCacheNewEx boot capacity l a d = .ok s₀)
    (hcapacity : u32 (numberOfChunks * s₀.cache.pagesPerChunk) ≤ 2 ^ 31) (locks : ℕ → RLock)
    (hlocks : ∀ i, (locks i).head = .null) (env : Env) (ft : FtCache) (calls : List Call)
    (padding : ℕ → UInt32) {p : Process} (hrun : run env ft calls ⟨s₀, locks⟩ = .ok ((), p))
    (hputs : Along (applyBoth padding) (Stored padding) (fresh s₀) p.sys.trace)
    {key : Key} (hkey : key ≠ 0) {S : Finset Key} (hS : 8 ≤ S.card)
    (hcollide : ∀ k ∈ S, k ≠ 0 ∧ k ≠ key ∧ hashU64ToU32 k = hashU64ToU32 key ∧
      p.sys.cache.hmapGet k ≠ none) (desc : EntryDescriptor) (bytes : UInt32) :
    (runBoth padding s₀ p.sys.trace).2.hmapGet key = none ∧
      (∀ k, ((runBoth padding s₀ p.sys.trace).2.hmapPut key desc bytes).hmapGet k =
        (runBoth padding s₀ p.sys.trace).2.hmapGet k) ∧
      hashmapCapacity ((runBoth padding s₀ p.sys.trace).2.hmapPut key desc bytes).map = 2 ^ 31 := by
  have hs := (created_of_new hnew).1
  obtain ⟨hend, -⟩ := coupled_of_run hs hcapacity hlocks hrun hputs
  have hcore : (runBoth padding s₀ p.sys.trace).1 = p.sys.toCore := fst_runBoth hs hlocks hrun
  refine lost_of_coupled hend hkey hS (fun k hk => ?_) desc bytes
  rw [hcore]
  exact hcollide k hk

/-- Eight keys whose hash is 0. -/
def sameHash : List Key := [13827725261121958607, 5084100363169000855, 1522089794859467606,
  8919964745513405230, 17318638868101480644, 4588898613797184664, 9278785989216642742,
  16591693511821215323]

/-- A ninth key whose hash is 0. -/
def ninth : Key := 4062975913998105905

theorem sameHash_collides : ∀ k ∈ sameHash.toFinset,
    k ≠ 0 ∧ k ≠ ninth ∧ hashU64ToU32 k = hashU64ToU32 ninth := by
  have hall : sameHash.Forall fun k =>
      k ≠ 0 ∧ k ≠ ninth ∧ hashU64ToU32 k = hashU64ToU32 ninth := by decide +kernel
  exact fun k hk => List.forall_iff_forall_mem.mp hall k (List.mem_toFinset.mp hk)

theorem hmapPut_lost_ninth : ∃ p,
    run calm byteCache (sameHash.map .ftGet) ⟨smallCache, fun _ => .fresh 0⟩ = .ok ((), p) ∧
    ∀ k, ((runBoth (fun _ => 0) smallCache p.sys.trace).2.hmapPut ninth ⟨0, 8⟩ 0).hmapGet k =
      (runBoth (fun _ => 0) smallCache p.sys.trace).2.hmapGet k := by
  obtain ⟨p, hrun, hheld⟩ : ∃ p,
      run calm byteCache (sameHash.map .ftGet) ⟨smallCache, fun _ => .fresh 0⟩ = .ok ((), p) ∧
      sameHash.Forall fun k => p.sys.cache.hmapGet k ≠ none :=
    ⟨_, run_eq_unit _ _ (by decide +kernel), by decide +kernel⟩
  have hputs : Along (applyBoth fun _ => 0) (Stored fun _ => 0) (fresh smallCache) p.sys.trace :=
    puts_of_uncrowded (K := sameHash.toFinset) (by decide +kernel) (by decide) (by decide)
      (created_of_new smallCache_new).1 (by decide +kernel) (fun _ => ⟨rfl, .inl rfl⟩)
      (by simp [Call.OnKeys, OrZero, sameHash]) hrun
  refine ⟨p, hrun, (hmapPut_lost smallCache_new (by decide +kernel) _ (fun _ => rfl) calm byteCache
    _ _ hrun hputs (by decide) (S := sameHash.toFinset) (by decide) ?_ _ _).2.1⟩
  intro k hk
  obtain ⟨hzero, hother, hsame⟩ := sameHash_collides k hk
  exact ⟨hzero, hother, hsame, List.forall_iff_forall_mem.mp hheld k (List.mem_toFinset.mp hk)⟩

end LazyfreeCache.HmapRuns
