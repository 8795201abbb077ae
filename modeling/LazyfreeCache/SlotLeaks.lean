import LazyfreeCache.TableCache
import LazyfreeCache.TraceFrames
import Mathlib.Data.Finset.Sigma
import Mathlib.Data.Set.Card
import Mathlib.Algebra.BigOperators.Group.Finset.Sigma

/-!
Whose the slots in use are. While a slot is only handed out for a key without a
map entry, every slot that is not free belongs to the key in its `keys[]` entry
and the map leads there. The entry of a key whose page the kernel took is still
there when the key is written again, so that write leaves the old slot behind:
neither free nor mapped, until its whole chunk is evicted.
-/
namespace LazyfreeCache.SlotLeaks

open ProgramLogic EventReplay State LazyfreeOps FallthroughOps Refinement Reads Allocation Writes
open TraceFrames Accounting Client Slots HmapAccess HmapRuns TableCache

/-- Every slot in use is mapped by the key in its `keys[]` entry. -/
structure Owned (s : Core) : Prop where
  wellFormed : WellFormed s
  key0 : s.cache.hmapGet 0 = none
  used : ∀ c, ∀ i < s.cache.len c, i ∉ s.cache.free c →
    s.cache.hmapGet (s.cache.label ⟨i, c⟩) = some ⟨i, c⟩

/-- A slot is handed out for a key without a map entry, and dropped only with a key. -/
def KeepsOwners (s : Core) : Event → Prop
  | .allocated _ key => s.cache.hmapGet key = none
  | .dropped _ key => key ≠ 0
  | _ => True

variable {env : Env} {ft : FtCache} {key : Key} {s : Core} {e : Event}

namespace Owned

theorem nonzero (h : Owned s) {k : Key} {d : EntryDescriptor}
    (hd : s.cache.hmapGet k = some d) : k ≠ 0 := by
  rintro rfl
  cases h.key0.symm.trans hd

theorem label (h : Owned s) {k : Key} {d : EntryDescriptor} (hd : s.cache.hmapGet k = some d) :
    s.cache.label d = k := h.wellFormed.map_label k (h.nonzero hd) d hd

theorem lt_len (h : Owned s) {k : Key} {d : EntryDescriptor} (hd : s.cache.hmapGet k = some d) :
    d.index < s.cache.len d.chunk := h.wellFormed.map_lt (h.nonzero hd) hd

/-- A nonzero key in `keys[]` is mapped to its slot. -/
theorem mapped (h : Owned s) {i : ℕ} {c : ChunkIdx} (hi : i < s.cache.len c)
    (hlabel : s.cache.label ⟨i, c⟩ ≠ 0) :
    s.cache.hmapGet (s.cache.label ⟨i, c⟩) = some ⟨i, c⟩ :=
  h.used c i hi fun hfree => hlabel (h.wellFormed.free_label c i hfree)

/-- The keys that an eviction of chunk `c` takes out are those that live there. -/
theorem named_iff (h : Owned s) {k : Key} {c : ChunkIdx} :
    (k ≠ 0 ∧ ∃ i < s.cache.len c, s.cache.label ⟨i, c⟩ = k) ↔
      ∃ d, s.cache.hmapGet k = some d ∧ d.chunk = c := by
  constructor
  · rintro ⟨hk, i, hi, rfl⟩
    exact ⟨⟨i, c⟩, h.mapped hi hk, rfl⟩
  · rintro ⟨d, hd, rfl⟩
    exact ⟨h.nonzero hd, d.index, h.lt_len hd, h.label hd⟩

end Owned

/-! ### What an event keeps -/

theorem used_evicted (h : Owned s) (c x : ChunkIdx) {i : ℕ} (hi : i < (s.cache.evict c).len x)
    (hfree : i ∉ (s.cache.evict c).free x) :
    (s.cache.evict c).hmapGet ((s.cache.evict c).label ⟨i, x⟩) = some ⟨i, x⟩ := by
  rw [Cache.len_evict] at hi
  rw [Cache.free_evict] at hfree
  split at hi
  · omega
  · rename_i hx
    rw [if_neg hx] at hfree
    have hmap := h.used x i hi hfree
    rw [Cache.label_evict, if_neg fun hc => hx hc.1, Cache.hmapGet_evict, if_neg, hmap]
    rw [h.named_iff]
    rintro ⟨d, hd, hc⟩
    cases hmap.symm.trans hd
    exact hx hc

theorem used_allocated (h : Owned s) {d : EntryDescriptor} (hready : s.cache.Ready d)
    (hfresh : s.cache.hmapGet key = none) (x : ChunkIdx) {i : ℕ}
    (hi : i < (s.cache.allocate d key).len x) (hfree : i ∉ (s.cache.allocate d key).free x) :
    (s.cache.allocate d key).hmapGet ((s.cache.allocate d key).label ⟨i, x⟩) = some ⟨i, x⟩ := by
  rw [Cache.label_allocate]
  by_cases hd : (⟨i, x⟩ : EntryDescriptor) = d
  · rw [if_pos hd, Cache.hmapGet_allocate, if_pos rfl, hd]
  · rw [if_neg hd]
    -- another slot was in use before
    have hold : i < s.cache.len x ∧ i ∉ s.cache.free x := by
      rw [Cache.free_allocate] at hfree
      rw [Cache.len_allocate] at hi
      obtain ⟨-, ⟨rest, hrest⟩ | ⟨hnil, hblank, hindex⟩⟩ := hready
      · rw [if_neg (by simp [hrest])] at hi
        refine ⟨hi, ?_⟩
        split at hfree
        · rename_i hx
          subst hx
          rw [hrest] at hfree ⊢
          rw [List.mem_cons, not_or]
          exact ⟨fun hid => hd (Cache.ext_index rfl hid), hfree⟩
        · exact hfree
      · by_cases hx : x = d.chunk
        · subst hx
          rw [if_pos ⟨rfl, hnil⟩] at hi
          have hne : i ≠ d.index := fun hid => hd (Cache.ext_index rfl hid)
          have hpages := h.wellFormed.accounted.pages
          unfold u32 at hi
          exact ⟨by omega, by simp [hnil]⟩
        · rw [if_neg fun hc => hx hc.1] at hi
          rw [if_neg hx] at hfree
          exact ⟨hi, hfree⟩
    have hmap := h.used x i hold.1 hold.2
    rw [Cache.hmapGet_allocate, if_neg, hmap]
    intro hkey
    rw [hkey, hfresh] at hmap
    cases hmap

theorem used_dropped (h : Owned s) {d : EntryDescriptor} (hkey : s.cache.label d ≠ 0)
    (hlt : d.index < s.cache.len d.chunk) (x : ChunkIdx) {i : ℕ}
    (hi : i < (s.cache.drop d).len x) (hfree : i ∉ (s.cache.drop d).free x) :
    (s.cache.drop d).hmapGet ((s.cache.drop d).label ⟨i, x⟩) = some ⟨i, x⟩ := by
  rw [Cache.len_drop] at hi
  rw [Cache.free_drop] at hfree
  have hd : (⟨i, x⟩ : EntryDescriptor) ≠ d := by
    rintro rfl
    simp at hfree
  have hmap : s.cache.hmapGet (s.cache.label ⟨i, x⟩) = some ⟨i, x⟩ := by
    refine h.used x i hi fun hmem => hfree ?_
    split
    · exact List.mem_cons_of_mem _ hmem
    · exact hmem
  rw [Cache.label_drop, if_neg hd, Cache.hmapGet_drop, if_neg, hmap]
  rintro ⟨-, hlabel⟩
  rw [hlabel] at hmap
  exact hd (Option.some.inj (hmap.symm.trans (h.mapped hlt hkey)))

theorem owned_step (h : Owned s) (henabled : s.Enabled e) (hzero : ¬ ZeroSlot e)
    (hkeeps : KeepsOwners s e) : Owned (s.apply e) := by
  have hdrops : DropsKey e := by cases e <;> first | exact hkeeps | trivial
  refine ⟨wellFormed_step s e h.wellFormed henabled hdrops, key0_step h.key0 hzero, ?_⟩
  cases e with
  | evicted c => exact fun x i hi hfree => used_evicted h c x hi hfree
  | allocated d k => exact fun x i hi hfree => used_allocated h henabled.2 hkeeps x hi hfree
  | dropped d k =>
    have hlabel : s.cache.label d ≠ 0 := by
      rw [henabled.1]
      exact hdrops
    have hhanded : s.HandedOut d := by
      rcases henabled.2.2 with ⟨-, hd⟩ | ⟨k', hw⟩
      · exact hd
      · exact h.wellFormed.accounted.wlock_handed _ hw
    exact fun x i hi hfree =>
      used_dropped h hlabel (h.wellFormed.used d hhanded hlabel) x hi hfree
  | committed w bit =>
    simp only [Core.cache_apply, Cache.step, Cache.len_commit, Cache.free_commit,
      Cache.label_commit, Cache.hmapGet_commit]
    exact h.used
  | _ => exact h.used

theorem owned_of_created {l a : ℕ} {s : Sys} (h : Created l a s) : Owned s.toCore where
  wellFormed := wellFormed_of_created h
  key0 := h.map 0
  used c i hi := by rw [h.len] at hi; omega

/-! ### Counting -/

/-- The slots that are not free. -/
def slotsInUse (cache : Cache) : Finset (Σ _ : ChunkIdx, ℕ) :=
  Finset.univ.sigma fun c => Finset.range (cache.len c) \ (cache.free c).toFinset

theorem mem_slotsInUse {cache : Cache} {c : ChunkIdx} {i : ℕ} :
    (⟨c, i⟩ : Σ _ : ChunkIdx, ℕ) ∈ slotsInUse cache ↔ i < cache.len c ∧ i ∉ cache.free c := by
  simp [slotsInUse]

/-- The keys with a map entry. -/
def mappedKeys (cache : Cache) : Set Key := {k | ∃ d, cache.hmapGet k = some d}

theorem Owned.mappedKeys_eq (h : Owned s) : mappedKeys s.cache =
    ((slotsInUse s.cache).image fun p => s.cache.label ⟨p.2, p.1⟩ : Finset Key) := by
  ext k
  rw [Finset.mem_coe, Finset.mem_image]
  constructor
  · rintro ⟨d, hd⟩
    refine ⟨⟨d.chunk, d.index⟩, mem_slotsInUse.mpr ⟨h.lt_len hd, fun hfree => ?_⟩, h.label hd⟩
    exact h.nonzero hd ((h.label hd).symm.trans (h.wellFormed.free_label d.chunk d.index hfree))
  · rintro ⟨⟨c, i⟩, hslot, rfl⟩
    obtain ⟨hi, hfree⟩ := mem_slotsInUse.mp hslot
    exact ⟨⟨i, c⟩, h.used c i hi hfree⟩

/-- Two slots in use carry different keys. -/
theorem Owned.slot_inj (h : Owned s) {c c' : ChunkIdx} {i i' : ℕ} (hi : i < s.cache.len c)
    (hfree : i ∉ s.cache.free c) (hi' : i' < s.cache.len c') (hfree' : i' ∉ s.cache.free c')
    (hlabel : s.cache.label ⟨i, c⟩ = s.cache.label ⟨i', c'⟩) : i = i' ∧ c = c' := by
  have hmap := h.used c i hi hfree
  rw [hlabel, h.used c' i' hi' hfree'] at hmap
  cases hmap
  exact ⟨rfl, rfl⟩

theorem Owned.label_injOn (h : Owned s) :
    Set.InjOn (fun p : Σ _ : ChunkIdx, ℕ => s.cache.label ⟨p.2, p.1⟩) (slotsInUse s.cache) := by
  rintro ⟨c, i⟩ hp ⟨c', i'⟩ hp' hlabel
  obtain ⟨hi, hfree⟩ := mem_slotsInUse.mp hp
  obtain ⟨hi', hfree'⟩ := mem_slotsInUse.mp hp'
  obtain ⟨rfl, rfl⟩ := h.slot_inj hi hfree hi' hfree' hlabel
  rfl

theorem WellFormed.card_slotsInUse (h : WellFormed s) :
    (slotsInUse s.cache).card = ∑ c, (s.cache.len c - (s.cache.free c).length) := by
  rw [slotsInUse, Finset.card_sigma]
  refine Finset.sum_congr rfl fun c _ => ?_
  have hsub : (s.cache.free c).toFinset ⊆ Finset.range (s.cache.len c) := by
    intro i hi
    exact Finset.mem_range.mpr (h.free_lt c i (List.mem_toFinset.mp hi))
  rw [Finset.card_sdiff_of_subset hsub, Finset.card_range,
    List.toFinset_card_of_nodup (h.free_nodup c)]

theorem Owned.ncard_mappedKeys (h : Owned s) :
    (mappedKeys s.cache).ncard = ∑ c, (s.cache.len c - (s.cache.free c).length) := by
  rw [h.mappedKeys_eq, Set.ncard_coe_finset, Finset.card_image_of_injOn h.label_injOn,
    WellFormed.card_slotsInUse h.wellFormed]

/-! ### Runs on nonzero keys -/

/-- No slot leaks: every slot that is not free is owned by a key, each key owns one slot at most,
and there are as many slots in use as mapped keys. -/
structure NoLeak (s : Core) : Prop where
  owned : ∀ c, ∀ i < s.cache.len c, i ∉ s.cache.free c →
    s.cache.label ⟨i, c⟩ ≠ 0 ∧ s.cache.hmapGet (s.cache.label ⟨i, c⟩) = some ⟨i, c⟩
  single : ∀ c c' i i', i < s.cache.len c → i ∉ s.cache.free c → i' < s.cache.len c' →
    i' ∉ s.cache.free c' → s.cache.label ⟨i, c⟩ = s.cache.label ⟨i', c'⟩ → i = i' ∧ c = c'
  count : ∑ c, (s.cache.len c - (s.cache.free c).length) = (mappedKeys s.cache).ncard

theorem Owned.noLeak (h : Owned s) : NoLeak s where
  owned c i hi hfree := ⟨h.nonzero (h.used c i hi hfree), h.used c i hi hfree⟩
  single _ _ _ _ := h.slot_inj
  count := h.ncard_mappedKeys.symm

theorem unaccessed_zeroSlot : Unaccessed ZeroSlot where
  reclaimed _ h := by
    obtain ⟨_, h⟩ := h
    cases h
  stored _ _ _ h := by
    obtain ⟨_, h⟩ := h
    cases h

/-- A call on nonzero keys hands out no slot for key 0. -/
def Nonzeroed (p q : Process) : Prop :=
  (∀ l, (q.locks l).key ≠ 0) ∧ Lacks ZeroSlot p.sys q.sys

/-- While a write lock is held, only calls that allocate nothing return. -/
theorem exec_locked (env : Env) (ft : FtCache) {call : Call} {p : Process} {w : WLock}
    (hw : p.sys.cache.wlock = some w) (hlocks : ∀ l, (p.locks l).key ≠ 0)
    (hcall : call.OnKeys Nonzero) :
    wp (exec env ft call) (fun _ q => Nonzeroed p q) (fun _ => True) p := by
  have hnone : p.sys.cache.wlock ≠ none := by simp [hw]
  have hkeep : ∀ t, Lacks ZeroSlot p.sys t → Nonzeroed p { p with sys := t } :=
    fun t ht => ⟨hlocks, ht⟩
  have hafter := fun n => lacks_after unaccessed_zeroSlot env n p.sys
  cases call with
  | rlock l key =>
    refine ⟨fun l' => ?_, lacks_refl _ _⟩
    simp only [Function.update_apply]
    split
    · exact hcall
    · exact hlocks l'
  | readLock l =>
    simp only [exec, wp_bind, wp_get, wp_onSys]
    exact wp_of_unlocked trivial fun h => absurd h hnone
  | read l offset size =>
    simp only [exec, wp_bind, wp_get, wp_onSys]
    refine wp_mono (wp_read env (p.locks l) _ size.toNat offset.toNat_lt p.sys) ?_
      fun _ _ => trivial
    rintro _ t ⟨n, rfl⟩
    exact hkeep _ (hafter n)
  | readUnlock l drop =>
    simp only [exec, wp_bind, wp_get, wp_onSys]
    unfold lazyfreeReadUnlock
    simp [hnone]
  | writeLock l =>
    simp only [exec, wp_bind, wp_get, wp_onSys]
    exact wp_of_unlocked trivial fun h => absurd h hnone
  | store offset v =>
    simp only [exec, wp_onSys, storeLocked, wp_bind, wp_get, hw]
    exact hkeep _ (lacks_storing unaccessed_zeroSlot env p.sys w.slot offset v)
  | writeUnlock drop =>
    simp only [exec, wp_onSys]
    cases drop with
    | false =>
      rw [wp_of_ok (lazyfreeWriteUnlock_commit env hw)]
      exact hkeep _ (lacks_sealed unaccessed_zeroSlot (by simp [ZeroSlot]) env p.sys w)
    | true =>
      have hrun := lazyfreeWriteUnlock_drop env hw
      split at hrun
      · rw [wp_of_ok hrun]
        exact hkeep _ (lacks_perform _ (by simp [ZeroSlot]))
      · rw [wp_of_error hrun]
        trivial
  | ftGet key =>
    simp only [exec, wp_bind, wp_onSys]
    unfold ftCacheGet
    rw [wp_bind]
    exact wp_of_unlocked trivial fun h => absurd h hnone
  | ftDrop key =>
    simp only [exec, wp_bind, wp_onSys]
    unfold ftCacheDrop
    rw [wp_bind]
    exact wp_of_unlocked trivial fun h => absurd h hnone

theorem Steps.lacks_zeroSlot {s t : Sys} (h : Steps Nonzero s t) : Lacks ZeroSlot s t := by
  obtain ⟨es, hes, hkeys, -⟩ := h
  exact ⟨es, hes.trace, fun e he => not_zeroSlot (hkeys e he)⟩

theorem exec_nonzeroed (env : Env) (ft : FtCache) {call : Call} {p : Process} (hp : Sound p)
    (hlocks : ∀ l, (p.locks l).key ≠ 0) (hcall : call.OnKeys Nonzero) :
    wp (exec env ft call) (fun _ q => Nonzeroed p q) (fun _ => True) p := by
  cases hw : p.sys.cache.wlock with
  | none =>
    refine wp_mono (exec_sound (K := Nonzero) env ft hp hcall ⟨hlocks, fun w hw' => ?_⟩) ?_
      fun _ _ => trivial
    · cases hw.symm.trans hw'
    · rintro _ q ⟨-, hsteps, hkeys⟩
      exact ⟨hkeys, Steps.lacks_zeroSlot hsteps⟩
  | some w => exact exec_locked env ft hw hlocks hcall

theorem run_nonzeroed {env : Env} {ft : FtCache} {calls : List Call} {p q : Process}
    (hp : Sound p) (hlocks : ∀ l, (p.locks l).key ≠ 0) (hkeys : ∀ call ∈ calls, call.OnKeys Nonzero)
    (hrun : run env ft calls p = .ok ((), q)) : Nonzeroed p q := by
  refine (runAll_induct (R := fun p q => Sound p → (∀ l, (p.locks l).key ≠ 0) →
    Sound q ∧ Nonzeroed p q) ?_ ?_ ?_ hrun hp hlocks).2
  · exact fun p hp hlocks => ⟨hp, hlocks, lacks_refl _ _⟩
  · intro s t u hst htu hs hlocks
    obtain ⟨ht, hlocks', hlacks⟩ := hst hs hlocks
    obtain ⟨hu, hlocks'', hlacks'⟩ := htu ht hlocks'
    exact ⟨hu, hlocks'', hlacks.trans hlacks'⟩
  · intro call hcall s t h hs hlocks
    exact ⟨((wp_of_ok h).mp (exec_anyKey env ft call hs)).1,
      (wp_of_ok h).mp (exec_nonzeroed env ft hs hlocks (hkeys call hcall))⟩

theorem noLeak_of_keepsOwners {l a : ℕ} {s₀ : Sys} (hcreated : Created l a s₀)
    {locks : ℕ → RLock} (hlocks : ∀ i, (locks i).head = .null ∧ (locks i).key ≠ 0) {env : Env}
    {ft : FtCache} {calls : List Call} (hkeys : ∀ call ∈ calls, call.OnKeys Nonzero) {p : Process}
    (hrun : run env ft calls ⟨s₀, locks⟩ = .ok ((), p))
    (hkeeps : Along Core.apply KeepsOwners s₀.toCore p.sys.trace) :
    NoLeak p.sys.toCore ∧ Along Core.apply (fun s _ => NoLeak s) s₀.toCore p.sys.trace := by
  obtain ⟨⟨hreplay, henabled⟩, -⟩ := run_replay hcreated (fun i => (hlocks i).1) hrun
  obtain ⟨-, es, hes, hzero⟩ := run_nonzeroed (hcreated.sound_locks fun i => (hlocks i).1)
    (fun i => (hlocks i).2) hkeys hrun
  have hnonzero : Along Core.apply (fun _ e => ¬ ZeroSlot e) s₀.toCore p.sys.trace :=
    along_of_forall _ fun e he _ => hzero e (hcreated.trace_eq hes ▸ he)
  have hall := (along_and p.sys.trace).mpr
    ⟨hkeeps, (along_and p.sys.trace).mpr ⟨henabled, hnonzero⟩⟩
  have hstep : ∀ s e, Owned s → KeepsOwners s e ∧ s.Enabled e ∧ ¬ ZeroSlot e →
      Owned (s.apply e) := fun s e h he => owned_step h he.2.1 he.2.2 he.1
  refine ⟨?_, along_of_invariant Owned hstep (fun _ _ h _ => h.noLeak) _
    (owned_of_created hcreated) hall⟩
  rw [hreplay]
  exact (replay_invariant Owned hstep _ (owned_of_created hcreated) hall).noLeak

instance (s : Core) : DecidablePred (KeepsOwners s)
  | .refill _ => inferInstanceAs (Decidable True)
  | .reclaimed _ => inferInstanceAs (Decidable True)
  | .stored _ _ _ => inferInstanceAs (Decidable True)
  | .evicted _ => inferInstanceAs (Decidable True)
  | .advised _ => inferInstanceAs (Decidable True)
  | .allocated _ key => inferInstanceAs (Decidable (s.cache.hmapGet key = none))
  | .upgraded _ _ => inferInstanceAs (Decidable True)
  | .committed _ _ => inferInstanceAs (Decidable True)
  | .dropped _ key => inferInstanceAs (Decidable (key ≠ 0))

/-- In a run on nonzero keys in which slots are handed out for keys without a map entry only and no
put into the table is refused, no slot leaks, in any state: the table leads from the key in the
`keys[]` entry of every slot in use to that slot. -/
theorem noLeak_run {boot : Boot} {capacity l a d : ℕ} {r₀ : Sys × HmapTable}
    (hnew : tableCacheNewEx boot capacity l a d = some r₀) (locks : ℕ → RLock)
    (hlocks : ∀ i, (locks i).head = .null ∧ (locks i).key ≠ 0) {env : Env} {ft : FtCache}
    {calls : List Call} (hkeys : ∀ call ∈ calls, call.OnKeys Nonzero) {padding : ℕ → UInt32}
    {p : Process × HmapTable}
    (hrun : tableRun padding (exec env ft) calls (startTable r₀ locks) = .ok ((), p))
    (hkeeps : Along (applyBoth padding) (fun st e => KeepsOwners st.1 e ∧ Stored padding st e)
      (fresh r₀.1) p.1.sys.trace) :
    (NoLeak p.1.sys.toCore ∧ Agree (p.1.sys.toCore, p.2)) ∧
      Along (applyBoth padding) (fun st _ => NoLeak st.1 ∧ Agree st) (fresh r₀.1)
        p.1.sys.trace := by
  obtain ⟨howners, hputs⟩ := (along_and p.1.sys.trace).mp hkeeps
  obtain ⟨hideal, hagree, hagrees⟩ :=
    run_of_tableRun_new hnew (fun i => (hlocks i).1) hrun hputs
  obtain ⟨hend, halong⟩ := noLeak_of_keepsOwners
    (created_of_new (tableCacheNewEx_some.mp hnew).1).1 hlocks hkeys hideal
    ((along_fst p.1.sys.trace (fresh r₀.1)).mp howners)
  exact ⟨⟨hend, hagree⟩, (along_and p.1.sys.trace).mpr
    ⟨(along_fst p.1.sys.trace (fresh r₀.1)).mpr halong, hagrees⟩⟩

/-- Key 1 is written, dropped and written again. -/
theorem noLeak_run_rewritten : ∃ p, tableRun (fun _ => 0) (exec calm byteCache)
      [.ftGet 1, .ftDrop 1, .ftGet 1, .ftGet 2] (startTable smallTable fun _ => .fresh 1) =
        .ok ((), p) ∧
    (NoLeak p.1.sys.toCore ∧ Agree (p.1.sys.toCore, p.2)) := by
  obtain ⟨q, hideal, hkeeps⟩ : ∃ q, run calm byteCache [.ftGet 1, .ftDrop 1, .ftGet 1, .ftGet 2]
      ⟨smallCache, fun _ => .fresh 1⟩ = .ok ((), q) ∧
        Along Core.apply KeepsOwners smallCache.toCore q.sys.trace :=
    ⟨_, run_eq_unit _ _ (by decide +kernel), by decide +kernel⟩
  obtain ⟨⟨t, hrun⟩, hputs⟩ := tableRun_of_uncrowded (K := {1, 2}) (fun _ => 0)
    (by decide +kernel) (by decide) (by decide) smallTable_new
    (fun _ => ⟨rfl, .inr (by simp [RLock.fresh])⟩) (by simp [Call.OnKeys, OrZero]) hideal
  refine ⟨(q, t), hrun, (noLeak_run smallTable_new _ (fun _ => ⟨rfl, ?_⟩) ?_ hrun
    ((along_and _).mpr ⟨(along_fst _ _).mpr hkeeps, hputs⟩)).1⟩
  · simp [RLock.fresh]
  · simp [Call.OnKeys, Nonzero]

/-- Chunk 0 is advised when key 2 is written, and the kernel takes the page of key 1 when that is
read again: the page that key 1 is given then leaves the old one in use. -/
theorem refill_leaks : ∃ p, tableRun (fun _ => 0) (exec (takesAt ⟨0, 0⟩ 8) byteCache)
      [.ftGet 1, .ftGet 2, .ftGet 1] (startTable smallTable fun _ => .fresh 1) = .ok ((), p) ∧
    p.1.sys.cache.wlock = none ∧ Agree (p.1.sys.toCore, p.2) ∧ ¬ NoLeak p.1.sys.toCore := by
  obtain ⟨q, hideal, hw, hlen, hfree, hlabel, hmap⟩ :
      ∃ q, run (takesAt ⟨0, 0⟩ 8) byteCache [.ftGet 1, .ftGet 2, .ftGet 1]
        ⟨smallCache, fun _ => .fresh 1⟩ = .ok ((), q) ∧ q.sys.cache.wlock = none ∧
          q.sys.cache.len 0 = 1 ∧
          q.sys.cache.free 0 = [] ∧ q.sys.cache.label ⟨0, 0⟩ = 1 ∧
          q.sys.cache.hmapGet 1 = some ⟨0, 2⟩ :=
    ⟨_, run_eq_unit _ _ (by decide +kernel), by decide +kernel, by decide +kernel,
      by decide +kernel, by decide +kernel, by decide +kernel⟩
  obtain ⟨⟨t, hrun⟩, hputs⟩ := tableRun_of_uncrowded (K := {1, 2}) (fun _ => 0)
    (by decide +kernel) (by decide) (by decide) smallTable_new
    (fun _ => ⟨rfl, .inr (by simp [RLock.fresh])⟩) (by simp [Call.OnKeys, OrZero]) hideal
  refine ⟨(q, t), hrun, hw, (run_of_tableRun_new smallTable_new (fun _ => rfl) hrun hputs).2.1,
    fun h : NoLeak q.sys.toCore => ?_⟩
  have howned := (h.owned 0 0 (by omega) (by simp [hfree])).2
  rw [hlabel, hmap] at howned
  cases howned

end LazyfreeCache.SlotLeaks
