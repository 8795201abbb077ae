import LazyfreeCache.Capacity
import LazyfreeCache.LostPuts
import LazyfreeCache.Mixing

/-!
The hash of the keys. `hash_u64_to_u32` takes every value for as many keys, so
the home slots of the table are spread evenly whatever its size, and every key
shares its hash with more than four billion others. Eight of these are enough
to keep a key out of the table of any cache.
-/
namespace LazyfreeCache.HashCollisions

open Mixing ReferenceSet Hashmap ProgramLogic EventReplay State LazyfreeOps FallthroughOps
open Refinement Reads Allocation Fallthrough FallthroughEvents Accounting Client FtRuns
open SlotLeaks HitLaw HmapAccess HmapRuns TableCache LostPuts
open Capacity

theorem hashU64ToU32_balanced : Balanced hashU64ToU32 (2 ^ 32) := by
  have hlow : Balanced UInt64.toUInt32 (2 ^ 32) := by
    intro b
    rw [← ncard_uint64_mod_eq (n := 2 ^ 32) (m := 2 ^ 32) (by decide) ⟨b.toNat, b.toNat_lt⟩]
    congr 1
    ext x
    rw [Set.mem_ofPred_eq, Set.mem_ofPred_eq, ← UInt32.toNat_inj, UInt64.toNat_toUInt32]
  have hshift := uint64_xorShiftRight_injective (k := 33) (by decide) (by decide)
  have hmul₁ := uint64_mul_odd_injective (c := 0xff51afd7ed558ccd) (by decide)
  have hmul₂ := uint64_mul_odd_injective (c := 0xc4ceb9fe1a85ec53) (by decide)
  exact hlow.comp (hshift.comp (hmul₂.comp (hshift.comp (hmul₁.comp hshift))))

/-! ### Home slots -/

/-- The hash that `hashmap_hash_helper_int_helper` shifts. -/
def scrambled (hash : UInt32) : UInt32 := (0xFFFFFFFF + hash + 1) * 2654435769

theorem scrambled_injective : Function.Injective scrambled := by
  intro x y h
  have hsum := uint32_mul_odd_injective (c := 2654435769) (by decide) h
  exact (UInt32.add_right_inj _).mp ((UInt32.add_left_inj _).mp hsum)

theorem home_balanced {m : HashmapS Key UInt64} (hhasher : m.hasher = exactKeyHasher)
    (hlog2 : m.log2Capacity ≤ 31) {slot : ℕ} (hslot : slot < hashmapCapacity m) :
    {key | hashHelperInt m key = slot}.ncard * hashmapCapacity m = 2 ^ 64 := by
  have hpow : 2 ^ m.log2Capacity * 2 ^ (32 - m.log2Capacity) = 2 ^ 32 := by
    rw [← pow_add, Nat.add_sub_cancel' (by omega)]
  have hhome : {key | hashHelperInt m key = slot} = {key | hashU64ToU32 key ∈
      {hash | scrambled hash ∈ {x : UInt32 | x.toNat / 2 ^ (32 - m.log2Capacity) = slot}}} := by
    ext key
    change hashHelperInt m key = slot ↔ (scrambled (hashU64ToU32 key)).toNat / _ = slot
    unfold hashHelperInt
    rw [hhasher, Nat.shiftRight_eq_div_pow]
    rfl
  have hscrambled := balanced_id.comp scrambled_injective
  have hwords := hscrambled.ncard_preimage
    (Set.toFinite {x : UInt32 | x.toNat / 2 ^ (32 - m.log2Capacity) = slot})
  rw [ncard_uint32_div_eq hpow hslot, one_mul] at hwords
  rw [hhome, hashU64ToU32_balanced.ncard_preimage (Set.toFinite _)]
  change 2 ^ 32 * {hash | id (scrambled hash) ∈ _}.ncard * 2 ^ m.log2Capacity = _
  rw [hwords, mul_assoc, mul_comm (2 ^ (32 - m.log2Capacity)), hpow]
  exact (pow_add 2 32 32).symm

variable {padding : ℕ → UInt32} {t : HmapTable} {key : Key}

theorem intact_replay {s : Sys} (hcapacity : u32 (numberOfChunks * s.cache.pagesPerChunk) ≤ 2 ^ 31)
    (es : List Event) : Intact (runBoth padding s es).2 := by
  refine replay_invariant (P := fun _ _ => True) (fun st => Intact st.2)
    (fun st e h _ => intact_step st e h) es ?_ (along_of_forall es fun _ _ _ => trivial)
  exact (simulates_new hcapacity).intact

/-- However often the table of a cache has grown, and whatever puts were lost, every slot is home
to as many of the keys. -/
theorem homes_even {s : Sys} (hcapacity : u32 (numberOfChunks * s.cache.pagesPerChunk) ≤ 2 ^ 31)
    (padding : ℕ → UInt32) (es : List Event) {slot : ℕ}
    (hslot : slot < hashmapCapacity (runBoth padding s es).2.map) :
    {key | hashHelperInt (runBoth padding s es).2.map key = slot}.ncard *
      hashmapCapacity (runBoth padding s es).2.map = 2 ^ 64 := by
  have h : Intact (runBoth padding s es).2 := intact_replay hcapacity es
  exact home_balanced h.hasher h.proper.log2_le hslot

/-- A table of 32 slots with a key in it. -/
theorem homes_even_small :
    {key | hashHelperInt (runBoth (fun _ => 0) smallCache [.allocated ⟨0, 8⟩ 1]).2.map key =
      0}.ncard * hashmapCapacity (runBoth (fun _ => 0) smallCache [.allocated ⟨0, 8⟩ 1]).2.map =
        2 ^ 64 :=
  homes_even (by decide +kernel) _ _ (Nat.two_pow_pos _)

/-! ### Keys that are lost -/

theorem exists_colliding (key : Key) : ∃ S : Finset Key, S.card = 8 ∧
    ∀ k ∈ S, k ≠ 0 ∧ k ≠ key ∧ hashU64ToU32 k = hashU64ToU32 key := by
  have hfinite : {k | hashU64ToU32 k = hashU64ToU32 key}.Finite := Set.toFinite _
  have hcard : hfinite.toFinset.card = 2 ^ 32 := by
    rw [← Set.ncard_eq_toFinset_card _ hfinite]
    exact hashU64ToU32_balanced (hashU64ToU32 key)
  have hrest : 8 ≤ ((hfinite.toFinset.erase 0).erase key).card := by
    have hzero := Finset.pred_card_le_card_erase (s := hfinite.toFinset) (a := 0)
    have hkey := Finset.pred_card_le_card_erase (s := hfinite.toFinset.erase 0) (a := key)
    omega
  obtain ⟨S, hsub, hS⟩ := Finset.exists_subset_card_eq hrest
  refine ⟨S, hS, fun k hk => ?_⟩
  have hmem := Finset.mem_erase.mp (hsub hk)
  have hmem' := Finset.mem_erase.mp hmem.2
  exact ⟨hmem'.1, hmem.1, hfinite.mem_toFinset.mp hmem'.2⟩

/-- Eight keys do not crowd. -/
theorem uncrowded_of_card_le {K : Finset Key} (hK : K.card ≤ 8) :
    Uncrowded exactKeyHasher K := by
  intro k hk
  refine lt_of_lt_of_le (Finset.card_lt_card ?_) hK
  exact Finset.filter_ssubset.mpr ⟨k, hk, fun h => h.1 rfl⟩

/-- The gets of a process that keeps no locks. -/
theorem run_of_ftRun {env : Env} {ft : FtCache} {keys : List Key} {s u : Sys} {locks : ℕ → RLock}
    (hrun : ftRun env ft (keys.map (FtCall.get · blank)) s = .ok ((), u)) :
    run env ft (keys.map .ftGet) ⟨s, locks⟩ = .ok ((), ⟨u, locks⟩) := by
  induction keys generalizing s with
  | nil =>
    cases hrun
    rfl
  | cons key keys ih =>
    obtain ⟨v, hget, hrest⟩ := (runAll_cons_ok _).mp hrun
    obtain ⟨value, v', hvalue, hv'⟩ := bind_ok.mp hget
    cases hv'
    refine (runAll_cons_ok _).mpr ⟨⟨v, locks⟩, bind_ok.mpr ⟨value, _, ?_, rfl⟩, ih hrest⟩
    unfold onSys
    dsimp only
    rw [show (fun _ => 0) = blank from rfl, hvalue]

section Gets
variable {env : Env} {ft : FtCache} {n pages : ℕ} {S : Finset Key} {s t : Sys}

/-- Gets of keys that fit leave exactly these in the cache. -/
theorem gets_fill (env : Env) (ft : FtCache) (hinited : Inited n s) (hpages : 1 ≤ n / 32)
    (hfits : S.card ≤ numberOfChunks * (n / 32)) (hzero : 0 ∉ S) {keys : List Key}
    (hkeys : ∀ k, k ∈ keys ↔ k ∈ S) :
    ∃ t, ftRun env ft (keys.map (FtCall.get · blank)) s = .ok ((), t) ∧ Within S (n / 32) t ∧
      ∀ k, t.cache.hmapGet k ≠ none ↔ k ∈ S := by
  have hcalls : ∀ call ∈ keys.map (FtCall.get · blank), call.key ∈ S := by
    intro call hcall
    obtain ⟨k, hk, rfl⟩ := List.mem_map.mp hcall
    exact (hkeys k).mp hk
  obtain ⟨t, hrun, ht, -, hgets⟩ := within_run hpages hfits hzero env ft
    (within_of_inited hinited) hcalls
  have hresident : ∀ k, t.cache.hmapGet k ≠ none ↔ k ∈ (residents t.toCore).keys := by
    intro k
    rw [mem_residents, Option.ne_none_iff_exists']
  refine ⟨t, hrun, ht, fun k => ?_⟩
  rw [hresident k]
  refine ⟨fun hk => ht.keys hk, fun hk => ?_⟩
  obtain ⟨left, right, hsplit⟩ := List.append_of_mem
    (List.mem_map_of_mem (f := (FtCall.get · blank)) ((hkeys k).mpr hk))
  refine hgets left k blank right hsplit fun hdrop => ?_
  have hmem : FtCall.drop k ∈ keys.map (FtCall.get · blank) := by
    rw [hsplit]
    exact List.mem_append_right _ (List.mem_cons_of_mem _ hdrop)
  obtain ⟨k', -, hk'⟩ := List.mem_map.mp hmem
  cases hk'

/-- After gets of up to eight keys the table agrees with the map. -/
theorem coupled_gets (padding : ℕ → UInt32) (hinited : Inited n s)
    (hcapacity : u32 (numberOfChunks * s.cache.pagesPerChunk) ≤ 2 ^ 31) (hS : S.card ≤ 8)
    (hzero : 0 ∉ S) {keys : List Key} (hkeys : ∀ k ∈ keys, k ∈ S)
    (hrun : ftRun env ft (keys.map (FtCall.get · blank)) s = .ok ((), t)) :
    Coupled (runBoth padding s t.trace) ∧ (runBoth padding s t.trace).1 = t.toCore := by
  have hprocess : run env ft (keys.map .ftGet) (start s) = .ok ((), ⟨t, fun _ => .fresh 0⟩) :=
    run_of_ftRun hrun
  have hstored : Along (applyBoth padding) (Stored padding) (fresh s) t.trace := by
    refine puts_of_uncrowded (uncrowded_of_card_le hS) (by omega) hzero hinited.created
      hcapacity (fun _ => ⟨rfl, .inl rfl⟩) (fun call hcall => ?_) hprocess
    obtain ⟨k, hk, rfl⟩ := List.mem_map.mp hcall
    exact .inr (hkeys k hk)
  exact ⟨(coupled_of_run hinited.created hcapacity (fun _ => rfl) hprocess hstored).1,
    fst_runBoth hinited.created (fun _ => rfl) hprocess⟩

/-- A get of one key more makes one call on the table. -/
theorem get_puts (env : Env) (ft : FtCache) (padding : ℕ → UInt32) (ht : Within S pages t)
    (hpages : 1 ≤ pages) (hfits : S.card + 1 ≤ numberOfChunks * pages) (hzero : 0 ∉ S)
    (hkey : key ≠ 0) (hmissing : t.cache.hmapGet key = none) :
    ∃ u es, ftRun env ft [.get key blank] t = .ok ((), u) ∧ Performs t u es ∧
      u.cache.hmapGet key ≠ none ∧ ∀ st : Core × HmapTable, ∃ d bytes,
        (replay (applyBoth padding) st es).2 = st.2.hmapPut key d bytes := by
  classical
  have hwithin : Within (insert key S) pages t :=
    ⟨ht.steady, ht.pages, fun k hk => Finset.mem_insert_of_mem (ht.keys hk), ht.kept⟩
  have hcard := Finset.card_insert_le key S
  have hcall : (FtCall.get key blank).key ∈ insert key S := Finset.mem_insert_self key S
  obtain ⟨u, hrun, hu, -, hgot⟩ := within_call hpages (hcard.trans hfits)
    (by simp [hzero, Ne.symm hkey]) env ft hwithin hcall
  obtain ⟨d, hd⟩ := mem_residents.mp (hgot key blank rfl)
  cases ftStep_of_ok ht.steady.idle hrun with
  | get key value v u h =>
    obtain ⟨es, hes, hevents⟩ := ftGot_events h ht.steady.idle.wlock
    refine ⟨u, es, (runAll_cons_ok _).mpr ⟨u, hrun, rfl⟩, hes.performs, ?_, fun st => ?_⟩
    · rw [show u.cache.hmapGet key = some d from hd]
      exact Option.some_ne_none d
    · refine snd_replay_get hevents hmissing (fun c hc => hu.kept c ?_) st
      rw [hes.performs.trace]
      exact List.mem_append_right _ hc

end Gets

/-- Every key can be kept out of the table of any anon cache: after gets of eight other keys a get
of it writes a page, and the table does not find it and has grown to 2^31 slots. -/
theorem every_key_lost {boot : Boot} {refillCb : Key → Buffer} {n entrySize : ℕ} {ft : FtCache}
    {s₀ : Sys} (hpos : 32 ≤ n) (hbytes : n * pageSize < 2 ^ 64)
    (hinit : ftCacheInit boot lazyfreeAnonImpl refillCb n entrySize = .ok (ft, s₀))
    (hcapacity : u32 (numberOfChunks * s₀.cache.pagesPerChunk) ≤ 2 ^ 31) (env : Env)
    (padding : ℕ → UInt32) {key : Key} (hkey : key ≠ 0) :
    ∃ S : Finset Key, S.card = 8 ∧ key ∉ S ∧ ∀ keys : List Key, (∀ k, k ∈ keys ↔ k ∈ S) →
      ∃ p q, run env ft (keys.map .ftGet) (start s₀) = .ok ((), p) ∧
        (∀ k ∈ S, (runBoth padding s₀ p.sys.trace).2.hmapGet k ≠ none) ∧
        run env ft [.ftGet key] p = .ok ((), q) ∧ q.sys.cache.hmapGet key ≠ none ∧
        (runBoth padding s₀ q.sys.trace).2.hmapGet key = none ∧
        (∀ k, (runBoth padding s₀ q.sys.trace).2.hmapGet k =
          (runBoth padding s₀ p.sys.trace).2.hmapGet k) ∧
        hashmapCapacity (runBoth padding s₀ q.sys.trace).2.map = 2 ^ 31 := by
  obtain ⟨S, hS, hcollide⟩ := exists_colliding key
  have hzero : 0 ∉ S := fun h => (hcollide 0 h).1 rfl
  have hother : key ∉ S := fun h => (hcollide key h).2.1 rfl
  refine ⟨S, hS, hother, fun keys hkeys => ?_⟩
  have hinited := inited_of_init hbytes hinit
  have hpages : 1 ≤ n / 32 := by omega
  have hroom : S.card + 1 ≤ numberOfChunks * (n / 32) := by
    rw [hS]
    unfold numberOfChunks
    omega
  obtain ⟨t, hrun, ht, hheld⟩ := gets_fill env ft hinited hpages (by omega) hzero hkeys
  have hmissing : t.cache.hmapGet key = none := not_not.mp fun h => hother ((hheld key).mp h)
  obtain ⟨u, es, hrun', hes, hmapped, hputs⟩ := get_puts env ft padding ht hpages hroom hzero
    hkey hmissing
  obtain ⟨hcoupled, hcore⟩ := coupled_gets padding hinited hcapacity hS.le hzero
    (fun k hk => (hkeys k).mp hk) hrun
  have hprocess : run env ft (keys.map .ftGet) (start s₀) = .ok ((), ⟨t, fun _ => .fresh 0⟩) :=
    run_of_ftRun hrun
  have hprocess' : run env ft ([key].map .ftGet) ⟨t, fun _ => .fresh 0⟩ =
      .ok ((), ⟨u, fun _ => .fresh 0⟩) := run_of_ftRun hrun'
  refine ⟨_, _, hprocess, fun k hk => ?_, hprocess', hmapped, ?_⟩
  · rw [hcoupled.simulates.get k, hcore]
    exact (hheld k).mpr hk
  · obtain ⟨d, bytes, hput⟩ := hputs (runBoth padding s₀ t.trace)
    have hreplay : (runBoth padding s₀ u.trace).2 =
        (runBoth padding s₀ t.trace).2.hmapPut key d bytes := by
      rw [← hput, hes.trace]
      unfold runBoth
      rw [replay_append]
    have hcollide' : ∀ k ∈ S, k ≠ 0 ∧ k ≠ key ∧ hashU64ToU32 k = hashU64ToU32 key ∧
        (runBoth padding s₀ t.trace).1.cache.hmapGet k ≠ none := by
      intro k hk
      obtain ⟨hne, hdiffers, hhash⟩ := hcollide k hk
      refine ⟨hne, hdiffers, hhash, ?_⟩
      rw [hcore]
      exact (hheld k).mpr hk
    obtain ⟨hnone, hsame, hgrown⟩ := lost_of_coupled hcoupled hkey hS.ge hcollide' d bytes
    rw [hreplay]
    exact ⟨(hsame key).trans hnone, hsame, hgrown⟩

/-- Key 1 and a cache for 64 entries. -/
theorem every_key_lost_one : ∃ ft s₀,
    ftCacheInit zeroBoot lazyfreeAnonImpl byteCache.refillCb 64 1 = .ok (ft, s₀) ∧
    ∃ S : Finset Key, S.card = 8 ∧ 1 ∉ S ∧ ∃ p q,
      run calm ft (S.toList.map .ftGet) (start s₀) = .ok ((), p) ∧
      run calm ft [.ftGet 1] p = .ok ((), q) ∧
      (runBoth (fun _ => 0) s₀ q.sys.trace).2.hmapGet 1 = none := by
  obtain ⟨ft, s₀, hinit⟩ : ∃ ft s₀,
      ftCacheInit zeroBoot lazyfreeAnonImpl byteCache.refillCb 64 1 = .ok (ft, s₀) := ⟨_, _, rfl⟩
  have hcapacity : u32 (numberOfChunks * s₀.cache.pagesPerChunk) ≤ 2 ^ 31 := by
    rw [(inited_of_init (by decide) hinit).pages]
    decide
  obtain ⟨S, hS, hother, hlost⟩ := every_key_lost (by decide) (by decide) hinit hcapacity calm
    (fun _ => 0) (by decide : (1 : Key) ≠ 0)
  obtain ⟨p, q, hrun, -, hrun', -, hnone, -⟩ := hlost S.toList fun k => Finset.mem_toList
  exact ⟨ft, s₀, hinit, S, hS, hother, p, q, hrun, hrun', hnone⟩

end LazyfreeCache.HashCollisions
