import LazyfreeCache.EntryLoss
import LazyfreeCache.SlotLeaks
import LazyfreeCache.ReferenceSet

/-!
A fallthrough cache whose pages the kernel never takes. Every slot in use is
mapped by the key in its `keys[]` entry, so the resident keys are counted by the
slots that are not free, and the cache answers every request as a store of
`32 * pages_per_chunk` keys does.
-/
namespace LazyfreeCache.HitLaw

open ProgramLogic EventReplay State LazyfreeOps FallthroughOps Refinement Reads Allocation
open Writes Fallthrough Frames FallthroughEvents Accounting Client Slots FtRuns EntryLoss
open SlotLeaks ReferenceSet Hashmap HmapAccess HmapRuns TableCache LostPuts

/-- Every slot in use is mapped, and no page can be taken by the kernel. -/
structure Packed (s : Core) : Prop where
  wellFormed : WellFormed s
  key0 : s.cache.hmapGet 0 = none
  used : ∀ c, ∀ i < s.cache.len c, i ∉ s.cache.free c →
    s.cache.hmapGet (s.cache.label ⟨i, c⟩) = some ⟨i, c⟩
  impl : ∀ c, s.cache.madvImpl c = .nop
  kept : ∀ d, (s.mem d).lazyfree = false

/-- A key is given a slot only when it has none. -/
def Fresh (s : Core) : Event → Prop
  | .allocated _ key => s.cache.hmapGet key = none
  | _ => True

variable {env : Env} {ft : FtCache} {key : Key} {value : Buffer} {s : Core} {e : Event}
  {es : List Event}

theorem Packed.owned (h : Packed s) : Owned s := ⟨h.wellFormed, h.key0, h.used⟩

theorem Packed.namesInside (h : Packed s) : NamesInside s.cache.hmapGet s.cache e := by
  cases e with
  | evicted c =>
    intro i hi hne d hd
    cases (h.owned.mapped hi hne).symm.trans hd
    rfl
  | _ => trivial

/-! ### What an event keeps -/

theorem madvImpl_apply (s : Core) (e : Event) (c : ChunkIdx) :
    (s.apply e).cache.madvImpl c = s.cache.madvImpl c := by
  cases e <;> simp [Cache.step]

theorem kept_step (himpl : ∀ c, s.cache.madvImpl c = .nop)
    (hkept : ∀ d, (s.mem d).lazyfree = false) (henabled : s.Enabled e) (d : EntryDescriptor) :
    ((s.apply e).mem d).lazyfree = false := by
  cases e with
  | reclaimed p => cases (hkept p).symm.trans henabled
  | stored p offset v =>
    simp only [Core.mem_apply, Core.memStep, Function.update_apply]
    split
    · rfl
    · exact hkept d
  | evicted c =>
    simp only [Core.mem_apply, Core.memStep]
    split
    · cases s.cache.mmapImpl c with
      | anon => rfl
      | file => exact hkept d
    · exact hkept d
  | advised c =>
    simp only [Core.mem_apply, Core.memStep, himpl, madvised, ite_self]
    exact hkept d
  | _ => exact hkept d

theorem packed_step (h : Packed s) (henabled : s.Enabled e) (hkeys : OnKeys Nonzero e)
    (hfresh : Fresh s e) : Packed (s.apply e) := by
  have hkeeps : KeepsOwners s e := by
    cases e with
    | allocated d k => exact hfresh
    | dropped d k => exact hkeys
    | _ => trivial
  have howned := owned_step h.owned henabled (not_zeroSlot hkeys) hkeeps
  exact ⟨howned.wellFormed, howned.key0, howned.used,
    fun c => (madvImpl_apply s e c).trans (h.impl c), kept_step h.impl h.kept henabled⟩

/-! ### The resident keys -/

/-- The keys with a map entry, each in the chunk of its slot. -/
def residents (s : Core) : Residents Key ChunkIdx := fun k => (s.cache.hmapGet k).map (·.chunk)

theorem mem_residents {k : Key} : k ∈ (residents s).keys ↔ ∃ d, s.cache.hmapGet k = some d := by
  rw [Residents.mem_keys, residents]
  cases s.cache.hmapGet k <;> simp

/-- The resident keys and the free pages make up the 32 chunks. -/
theorem Packed.ncard_residents (h : Packed s) :
    (residents s).keys.ncard + s.cache.totalFreePages =
      numberOfChunks * s.cache.pagesPerChunk := by
  have hkeys : (residents s).keys = mappedKeys s.cache := Set.ext fun _ => mem_residents
  rw [hkeys, h.owned.ncard_mappedKeys, h.wellFormed.accounted.used_add_total]

/-- What an event does to the resident keys. -/
def effect (r : Residents Key ChunkIdx) : Event → Residents Key ChunkIdx
  | .evicted c => r.clear c
  | .allocated d key => r.put key d.chunk
  | .dropped _ key => r.remove key
  | _ => r

theorem residents_apply (h : Packed s) (henabled : s.Enabled e) (hkeys : OnKeys Nonzero e) :
    residents (s.apply e) = effect (residents s) e := by
  funext k
  cases e with
  | evicted c =>
    have hin : residents s k = some c ↔ ∃ d, s.cache.hmapGet k = some d ∧ d.chunk = c := by
      simp [residents]
    change ((s.cache.evict c).hmapGet k).map (·.chunk) =
      if residents s k = some c then none else residents s k
    rw [Cache.hmapGet_evict]
    by_cases hc : ∃ d, s.cache.hmapGet k = some d ∧ d.chunk = c
    · rw [if_pos (h.owned.named_iff.mpr hc), if_pos (hin.mpr hc)]
      rfl
    · rw [if_neg fun hn => hc (h.owned.named_iff.mp hn), if_neg fun hn => hc (hin.mp hn)]
      rfl
  | allocated d key =>
    simp only [residents, effect, Residents.put, Core.cache_apply, Cache.step,
      Cache.hmapGet_allocate, Function.update_apply]
    split <;> rfl
  | dropped d key =>
    have hlabel : s.cache.label d = key := henabled.1
    simp only [residents, effect, Residents.remove, Core.cache_apply, Cache.step,
      Cache.hmapGet_drop, Function.update_apply, hlabel]
    by_cases hk : k = key
    · rw [if_pos ⟨hk ▸ hkeys, hk⟩, if_pos hk]
      rfl
    · rw [if_neg fun hand => hk hand.2, if_neg hk]
  | _ => rfl

/-! ### What a call keeps -/

/-- Every key but one that is being worked on has a live page. -/
def AliveBut (key : Key) (s : Core) : Prop :=
  ∀ k ≠ key, ∀ p, s.cache.hmapGet k = some p → Alive s p

theorem aliveBut_step (h : Packed s) (halive : AliveBut key s)
    (he : FtEvent key s e) : AliveBut key (s.apply e) := by
  intro k hne p hp
  have hacts : Along Core.apply (ActsFor key) s [e] := ⟨he.acts, trivial⟩
  have hbefore : s.cache.hmapGet k = some p := hmapGet_before hacts hne hp
  have hread : Readable s k p := ⟨⟨hbefore, h.owned.label hbefore⟩, halive k hne p hbefore⟩
  refine (readable_step (h.owned.nonzero hbefore) h.wellFormed hread he (Ne.symm hne) h.namesInside
    ?_ ?_).2
  · rintro rfl
    cases (h.kept p).symm.trans he.enabled
  · rintro rfl
    simp only [Core.cache_apply, Cache.step, Cache.hmapGet_evict] at hp
    rw [if_pos (h.owned.named_iff.mpr ⟨p, hbefore, rfl⟩)] at hp
    cases hp

theorem onKeys_of_ftEvent (h : FtEvent key s e) (hkey : key ≠ 0) : OnKeys Nonzero e := by
  have hacts := h.acts
  cases e with
  | allocated d k => exact (hacts ▸ hkey : k ≠ 0)
  | upgraded d w => exact ((show w.key = key from hacts) ▸ hkey : w.key ≠ 0)
  | dropped d k => exact (hacts ▸ hkey : k ≠ 0)
  | _ => trivial

/-- The events of a call on a key that is given a slot only when it has none. -/
theorem packed_replay (hkey : key ≠ 0) (h : Packed s) (halive : AliveBut key s)
    (hes : Along Core.apply (FtEvent key) s es) (hfresh : Along Core.apply Fresh s es) :
    Packed (replay Core.apply s es) ∧ AliveBut key (replay Core.apply s es) ∧
      residents (replay Core.apply s es) = replay effect (residents s) es := by
  induction es generalizing s with
  | nil => exact ⟨h, halive, rfl⟩
  | cons e es ih =>
    have hkeys := onKeys_of_ftEvent hes.1 hkey
    have hrest := ih (packed_step h hes.1.enabled hkeys hfresh.1) (aliveBut_step h halive hes.1)
      hes.2 hfresh.2
    rw [residents_apply h hes.1.enabled hkeys] at hrest
    exact hrest

theorem unmapped_replay (h : s.cache.hmapGet key = none)
    (hes : ∀ e ∈ es, ∀ d k, e ≠ .allocated d k) :
    (replay Core.apply s es).cache.hmapGet key = none := by
  induction es generalizing s with
  | nil => exact h
  | cons e es ih =>
    refine ih ?_ fun f hf => hes f (List.mem_cons_of_mem e hf)
    have he := hes e List.mem_cons_self
    cases e with
    | evicted c => simp [Cache.step, Cache.hmapGet_evict, h]
    | allocated d k => exact absurd rfl (he d k)
    | dropped d k => simp [Cache.step, h]
    | _ => exact h

theorem fresh_of_forall (hes : ∀ e ∈ es, ∀ d k, e ≠ .allocated d k) :
    Along Core.apply Fresh s es := by
  refine along_of_forall es fun e he _ => ?_
  cases e with
  | allocated d k => exact absurd rfl (hes _ he d k)
  | _ => trivial

/-! ### What a caller sees of the events -/

def refilledKey : Event → Option Key
  | .refill key => some key
  | _ => none

def emptiedChunk : Event → Option ChunkIdx
  | .evicted c => some c
  | _ => none

/-- The refills and evictions in a list of events, and the answer of the call. -/
def seen (es : List Event) (found : Option Bool) : Outcome Key ChunkIdx :=
  ⟨es.filterMap refilledKey, es.filterMap emptiedChunk, found⟩

/-- The caller and the reference set see nothing of the event. -/
def Hidden : Event → Prop
  | .refill _ => False
  | .evicted _ => False
  | .allocated _ _ => False
  | .dropped _ _ => False
  | _ => True

instance : DecidablePred Hidden := fun e => by
  cases e <;> first | exact isTrue trivial | exact isFalse fun h => h

def visible (es : List Event) : List Event := es.filter fun e => ¬ Hidden e

theorem seen_visible (es : List Event) (found : Option Bool) :
    seen (visible es) found = seen es found := by
  unfold seen visible
  rw [List.filterMap_filter, List.filterMap_filter]
  congr 1
  all_goals
    refine List.filterMap_congr fun e _ => ?_
    cases e <;> rfl

theorem replay_visible (r : Residents Key ChunkIdx) (es : List Event) :
    replay effect r (visible es) = replay effect r es := by
  induction es generalizing r with
  | nil => rfl
  | cons e es ih =>
    cases e <;> exact ih _

theorem visible_append (es fs : List Event) : visible (es ++ fs) = visible es ++ visible fs :=
  List.filter_append es fs

theorem visible_cons (he : ¬ Hidden e) : visible (e :: es) = e :: visible es :=
  List.filter_cons_of_pos (by simpa using he)

theorem visible_hidden (h : ∀ e ∈ es, Hidden e) : visible es = [] :=
  List.filter_eq_nil_iff.mpr fun e he => by simpa using h e he

theorem hidden_reclaimed (h : ∀ e ∈ es, ∃ p, e = Event.reclaimed p) : ∀ e ∈ es, Hidden e := by
  intro e he
  obtain ⟨p, rfl⟩ := h e he
  trivial

theorem hidden_quiet (h : ∀ e ∈ es, Quiet e) : ∀ e ∈ es, Hidden e := by
  intro e he
  have hq := h e he
  cases e <;> trivial

theorem visible_searchEvents (env : Env) (u : Sys) (j : ℕ) :
    visible (searchEvents env u j) = openEvents env u := by
  have hloop : visible ((List.range j).map fun i =>
      .advised (searched env u i).cache.currentChunkIdx) = [] := by
    refine visible_hidden fun e he => ?_
    obtain ⟨i, -, rfl⟩ := List.mem_map.mp he
    trivial
  rw [searchEvents, visible_append, hloop, List.append_nil]
  unfold openEvents
  split <;> rfl

/-- What is seen of a miss. -/
theorem visible_miss (env : Env) (u : Sys) (j : ℕ) (d : EntryDescriptor) (bit : Bool)
    {qs qs' qs'' : List Event} (hqs : ∀ e ∈ qs, ∃ p, e = Event.reclaimed p)
    (hqs' : ∀ e ∈ qs', Quiet e) (hqs'' : ∀ e ∈ qs'', Quiet e) :
    visible (qs ++ .refill key :: qs' ++
        (searchEvents env u j ++ .allocated d key :: (qs'' ++ [.committed ⟨d, key⟩ bit]))) =
      .refill key :: (openEvents env u ++ [.allocated d key]) := by
  rw [visible_append, visible_append, visible_append, visible_cons (e := .refill key) fun h => h,
    visible_cons (e := .allocated d key) fun h => h, visible_append, visible_searchEvents,
    visible_hidden (hidden_reclaimed hqs), visible_hidden (hidden_quiet hqs'),
    visible_hidden (hidden_quiet hqs'')]
  rfl

/-! ### Calls -/

/-- Between two calls: every key has a live page. -/
structure Steady (s : Sys) : Prop where
  idle : Idle s
  packed : Packed s.toCore
  alive : ∀ k d, s.cache.hmapGet k = some d → Alive s.toCore d

theorem Steady.mem_after {s : Sys} (h : Steady s) (env : Env) (n : ℕ) (d : EntryDescriptor) :
    (after env n s).mem d = s.mem d := by
  rw [Refinement.mem_after]
  unfold Page.reclaim
  rw [h.packed.kept d]
  simp

theorem Steady.alive_after {s : Sys} (h : Steady s) (env : Env) (n : ℕ) {k : Key}
    {d : EntryDescriptor} (hd : s.cache.hmapGet k = some d) :
    Alive (after env n s).toCore d := by
  unfold Alive
  rw [h.mem_after env n d]
  exact h.alive k d hd

theorem Steady.unmapped {s : Sys} (h : Steady s) {n : ℕ} (hmissing : Missing env s key n) :
    s.cache.hmapGet key = none := by
  cases hd : s.cache.hmapGet key with
  | none => rfl
  | some d => exact absurd (h.alive_after env n hd) (hmissing d ⟨hd, h.packed.owned.label hd⟩)

/-- The events of a call that returned, and what they leave. -/
theorem Steady.performs {s t : Sys} (hs : Steady s) (ft : FtCache) (call : FtCall)
    (hkey : call.key ≠ 0) (hstep : FtStep env ft s call t) (hes : Performs s t es)
    (hfresh : Along Core.apply Fresh s.toCore es) :
    Packed t.toCore ∧ AliveBut call.key t.toCore ∧
      residents t.toCore = replay effect (residents s.toCore) (visible es) ∧
      ∀ found, seen (newEvents s t) found = seen (visible es) found := by
  obtain ⟨fs, hfs, halong⟩ := ftStep_events hs.idle hstep
  obtain rfl : fs = es := (newEvents_eq hfs).symm.trans (newEvents_eq hes)
  obtain ⟨hpacked, halive, hres⟩ := packed_replay hkey hs.packed
    (fun k _ p hp => hs.alive k p hp) halong hfresh
  rw [← hes.1] at hpacked halive hres
  rw [replay_visible, newEvents_eq hes]
  exact ⟨hpacked, halive, hres, fun found => (seen_visible fs found).symm⟩

theorem fresh_getEvents {s : Sys} (hs : Steady s) (h : GetEvents env key s es) :
    Along Core.apply Fresh s.toCore es := by
  cases h with
  | hit d es hmapped halive hes =>
    refine fresh_of_forall fun e he d k => ?_
    obtain ⟨p, rfl⟩ := hes e he
    simp
  | miss n u j d bit qs qs' qs'' hmissing hafter hu hfinds hperf hqs hqs' hqs'' =>
    have hquiet : ∀ {es : List Event}, (∀ e ∈ es, Quiet e) → ∀ e ∈ es, ∀ d k,
        e ≠ .allocated d k := by
      rintro es hes e he d k rfl
      exact hes _ he
    -- no slot is given out before the search has ended
    have hbefore : ∀ e ∈ qs ++ .refill key :: qs' ++ searchEvents env u j, ∀ d k,
        e ≠ .allocated d k := by
      intro e he d k
      simp only [List.mem_append, List.mem_cons] at he
      rcases he with (he | rfl | he) | he
      · obtain ⟨p, rfl⟩ := hqs e he
        simp
      · simp
      · exact hquiet hqs' e he d k
      · rcases mem_searchEvents he with ⟨c, rfl⟩ | ⟨c, rfl⟩ <;> simp
    have hafter : ∀ e ∈ qs'' ++ [.committed ⟨d, key⟩ bit], ∀ d k, e ≠ .allocated d k := by
      intro e he d k
      rcases List.mem_append.mp he with he | he
      · exact hquiet hqs'' e he d k
      · rw [List.mem_singleton.mp he]
        simp
    rw [← List.append_assoc, along_append]
    exact ⟨fresh_of_forall hbefore, unmapped_replay (hs.unmapped hmissing) hbefore,
      fresh_of_forall hafter⟩

/-- A call answered as the reference set may. -/
structure Answers (s : Sys) (q : Request Key) (found : Option Bool) (t : Sys) : Prop where
  steady : Steady t
  pages : t.cache.pagesPerChunk = s.cache.pagesPerChunk
  step : Step (numberOfChunks * s.cache.pagesPerChunk) (residents s.toCore) q
    (seen (newEvents s t) found) (residents t.toCore)

theorem get_law {s : Sys} (hs : Steady s) (hkey : key ≠ 0) (hpages : 1 ≤ s.cache.pagesPerChunk) :
    wp (ftCacheGet env ft key value) (fun _ t => Answers s (.get key) none t)
      (fun _ => False) s := by
  refine wp_mono (ftCacheGet_torn hs.idle hpages) ?_ ?_
  · intro v t hgot
    obtain ⟨es, hes, hget⟩ := ftGot_events hgot hs.idle.wlock
    obtain ⟨hpacked, halive, hres, hseen⟩ := hs.performs ft (.get key value) hkey
      (.get key value v t hgot) hes.performs (fresh_getEvents hs hget)
    have hkeyAlive : ∀ d, t.cache.hmapGet key = some d → Alive t.toCore d := by
      intro d hd
      exact (readable_of_ftGot hgot ⟨hd, hpacked.owned.label hd⟩).2
    have hcount := hs.packed.ncard_residents
    refine ⟨⟨idle_ftGot hs.idle hgot, hpacked, fun k d hd => ?_⟩,
      pagesPerChunk_performs hes.performs, ?_⟩
    · by_cases hk : k = key
      · exact hkeyAlive d (hk ▸ hd)
      · exact halive k hk d hd
    rw [hres, hseen]
    cases hget with
    | hit d es hmapped _ hreclaimed =>
      rw [visible_hidden (hidden_reclaimed hreclaimed)]
      exact .hit key (mem_residents.mpr ⟨d, hmapped.1⟩)
    | miss n u j d bit qs qs' qs'' hmissing hafter hu hfinds hperf hqs hqs' hqs'' =>
      have hout : key ∉ (residents s.toCore).keys := by
        rw [mem_residents, hs.unmapped hmissing]
        simp
      rw [visible_miss env u j d bit hqs hqs' hqs'', openEvents, hu]
      split
      · rename_i htotal
        exact .replace key (pick env u) d.chunk hout (by omega)
      · rename_i htotal
        exact .fill key d.chunk hout (by omega)
  · rintro e ⟨d, hmapped, -, hdead⟩
    exact hdead (hs.alive_after env _ hmapped.1)

theorem drop_law (ft : FtCache) {s : Sys} (hs : Steady s) (hkey : key ≠ 0) :
    wp (ftCacheDrop env key) (fun b t => Answers s (.drop key) (some b) t)
      (fun _ => False) s := by
  refine wp_mono (ftCacheDrop_spec env key s hs.idle.wlock (hs.idle.index_lt key)) ?_ ?_
  · intro b t hdropped
    obtain ⟨es, hes, qs, hqs, hcases⟩ := ftDropped_events hdropped hs.idle.wlock hs.idle.handedOut
    have hfresh : Along Core.apply Fresh s.toCore es := by
      refine fresh_of_forall fun e he d k => ?_
      rcases hcases with ⟨-, rfl⟩ | ⟨p, -, -, rfl⟩
      · obtain ⟨p, rfl⟩ := hqs e he
        simp
      · rcases List.mem_append.mp he with he | he
        · obtain ⟨p, rfl⟩ := hqs e he
          simp
        · rw [List.mem_singleton.mp he]
          simp
    obtain ⟨hpacked, halive, hres, hseen⟩ := hs.performs ft (.drop key) hkey
      (.drop key b t hdropped) hes.performs hfresh
    have hstep : Step (numberOfChunks * s.cache.pagesPerChunk) (residents s.toCore) (.drop key)
        (seen (newEvents s t) (some b)) (residents t.toCore) ∧ residents t.toCore key = none := by
      rw [hres, hseen]
      rcases hcases with ⟨rfl, rfl⟩ | ⟨p, hmapped, rfl, rfl⟩
      · have hnone : residents s.toCore key = none := by
          cases hdropped with
          | miss n hn hmissing => rw [residents, hs.unmapped hmissing, Option.map_none]
        rw [visible_hidden (hidden_reclaimed hqs)]
        exact ⟨.missing key fun hmem => hmem hnone, hnone⟩
      · rw [visible_append, visible_hidden (hidden_reclaimed hqs)]
        exact ⟨.found key (mem_residents.mpr ⟨p, hmapped.1⟩), Function.update_self _ _ _⟩
    refine ⟨⟨idle_ftDropped hs.idle hdropped, hpacked, fun k d hd => ?_⟩,
      pagesPerChunk_performs hes.performs, hstep.1⟩
    refine halive k ?_ d hd
    rintro rfl
    exact mem_residents.mpr ⟨d, hd⟩ hstep.2
  · intro e hstops
    cases hstops with
    | torn d hmapped _ hdead => exact hdead (hs.alive_after env 4 hmapped.1)
    | overflow d hmapped _ hover =>
      have hlt := hs.packed.wellFormed.free_length_lt (hs.idle.handedOut d hmapped)
        (by rw [hmapped.2]; exact hkey)
      omega

/-! ### Runs -/

def request : FtCall → Request Key
  | .get key _ => .get key
  | .drop key => .drop key

/-- What the call returns to the caller, as far as the reference set says it. -/
def answer (env : Env) (ft : FtCache) : FtCall → M (Option Bool)
  | .get key value => do
    let _ ← ftCacheGet env ft key value
    return none
  | .drop key => do
    let found ← ftCacheDrop env key
    return some found

theorem answer_law {s : Sys} {call : FtCall} (hs : Steady s) (hkey : call.key ≠ 0)
    (hpages : 1 ≤ s.cache.pagesPerChunk) :
    wp (answer env ft call) (fun found t => Answers s (request call) found t)
      (fun _ => False) s := by
  cases call with
  | get key value =>
    unfold answer
    rw [wp_bind]
    exact get_law hs hkey hpages
  | drop key =>
    unfold answer
    rw [wp_bind]
    exact drop_law ft hs hkey

/-- A call whose answer is not looked at. -/
theorem ftExec_of_answer {s t : Sys} {call : FtCall} {found : Option Bool}
    (h : answer env ft call s = .ok (found, t)) : ftExec env ft call s = .ok ((), t) := by
  cases call with
  | get key value =>
    obtain ⟨v, u, hget, hu⟩ := bind_ok.mp h
    cases hu
    exact bind_ok.mpr ⟨v, t, hget, rfl⟩
  | drop key =>
    obtain ⟨b, u, hdrop, hu⟩ := bind_ok.mp h
    cases hu
    exact bind_ok.mpr ⟨b, t, hdrop, rfl⟩

theorem ftExec_law (env : Env) (ft : FtCache) {s : Sys} (hpages : 1 ≤ s.cache.pagesPerChunk)
    {call : FtCall} (hs : Steady s) (hkey : call.key ≠ 0) :
    ∃ found t, answer env ft call s = .ok (found, t) ∧ ftExec env ft call s = .ok ((), t) ∧
      Answers s (request call) found t := by
  have hlaw : wp (answer env ft call) (fun found t => Answers s (request call) found t)
      (fun _ => False) s := answer_law hs hkey hpages
  obtain ⟨found, t, hrun, hanswers⟩ := returns_of_wp hlaw
  exact ⟨found, t, hrun, ftExec_of_answer hrun, hanswers⟩

/-- Over the partial map every run returns. -/
theorem steady_run (env : Env) (ft : FtCache) {s : Sys} (hs : Steady s)
    (hpages : 1 ≤ s.cache.pagesPerChunk) {calls : List FtCall}
    (hkeys : ∀ call ∈ calls, call.key ≠ 0) :
    ∃ t, ftRun env ft calls s = .ok ((), t) ∧ Steady t := by
  induction calls generalizing s with
  | nil => exact ⟨s, rfl, hs⟩
  | cons call calls ih =>
    obtain ⟨found, u, -, hu, hanswers⟩ :=
      ftExec_law env ft hpages hs (hkeys call List.mem_cons_self)
    obtain ⟨t, ht, hsteady⟩ := ih hanswers.steady (by rw [hanswers.pages]; exact hpages)
      fun c hc => hkeys c (List.mem_cons_of_mem call hc)
    exact ⟨t, (runAll_cons_ok _).mpr ⟨u, hu, ht⟩, hsteady⟩

/-! ### On the real table -/

variable {padding : ℕ → UInt32} {r r' : Sys × HmapTable} {calls : List FtCall}
  {log : List (Entry Key ChunkIdx)}

/-- The calls on the real table, one after the other, with what was seen of each and the keys that
the table then holds. -/
def observed (padding : ℕ → UInt32) (env : Env) (ft : FtCache) :
    List FtCall → Prog (Sys × HmapTable) Fault (List (Entry Key ChunkIdx))
  | [] => return []
  | call :: calls => do
    let r ← get
    let found ← onTable padding (answer env ft call)
    let u ← get
    let log ← observed padding env ft calls
    return ⟨request call, seen (newEvents r.1 u.1) found, residents u.1.toCore⟩ :: log

/-- What is seen of the calls is a run of the reference set of `32 * pages_per_chunk` keys, and a
working set that fits is refilled once for each key and hits from then on. -/
def Refines (padding : ℕ → UInt32) (env : Env) (ft : FtCache) (calls : List FtCall)
    (r₀ : Sys × HmapTable) : Prop :=
  ∃ log r, observed padding env ft calls r₀ = .ok (log, r) ∧
    log.map Entry.request = calls.map request ∧
    Runs (numberOfChunks * r₀.1.cache.pagesPerChunk) .empty log ∧
    ∀ K : Finset Key, K.card ≤ numberOfChunks * r₀.1.cache.pagesPerChunk →
      (∀ call ∈ calls, ∃ k ∈ K, ∃ v, call = .get k v) →
      ∀ left p right k, log = left ++ p :: right → p.request = .get k →
        (.get k ∈ left.map Entry.request → p.outcome = .hit) ∧
        (.get k ∉ left.map Entry.request → p.outcome = .fill k)

/-- In every part of the run that returns, the puts into the table return 0. -/
def EveryPutStored (padding : ℕ → UInt32) (env : Env) (ft : FtCache) (calls : List FtCall)
    (r₀ : Sys × HmapTable) : Prop :=
  ∀ left right r, calls = left ++ right → tableRun padding (ftExec env ft) left r₀ = .ok ((), r) →
    PutsStored padding r₀ r.1

theorem EveryPutStored.tail {call : FtCall} (h : EveryPutStored padding env ft (call :: calls) r)
    (hs : Idle r.1) (hr : Coupled (both r))
    (hrun : tableRun padding (ftExec env ft) [call] r = .ok ((), r')) :
    EveryPutStored padding env ft calls r' := by
  have hfaithful := faithful_ftExec env ft
  rintro left right u rfl hu
  obtain ⟨hs', hr', -⟩ := tableRun_coupled hfaithful hs hr hrun
  obtain ⟨-, -, gs, hgs⟩ := tableRun_coupled hfaithful hs' hr' hu
  exact ((putsStored_append hfaithful hs hr hrun hgs).mp
    (h (call :: left) right u rfl ((runAll_append_ok _).mpr ⟨r', hrun, hu⟩))).2

/-- As long as no put is refused the calls are answered as by the reference set. -/
theorem observed_law (env : Env) (ft : FtCache) {pages : ℕ} (hpages : 1 ≤ pages)
    (hkeys : ∀ call ∈ calls, call.key ≠ 0) (hs : Steady r.1) (hr : Coupled (both r))
    (hr' : r.1.cache.pagesPerChunk = pages) (hputs : EveryPutStored padding env ft calls r) :
    ∃ log u, observed padding env ft calls r = .ok (log, u) ∧
      log.map Entry.request = calls.map request ∧
      Runs (numberOfChunks * pages) (residents r.1.toCore) log := by
  induction calls generalizing r with
  | nil => exact ⟨[], r, rfl, rfl, .nil _⟩
  | cons call calls ih =>
    obtain ⟨found, t, hanswer, hexec, hanswers⟩ :=
      ftExec_law env ft (hr' ▸ hpages) hs (hkeys call List.mem_cons_self)
    obtain ⟨-, es, hes⟩ := (faithful_ftExec env ft).performs call r.1 t hs.idle hexec
    have hone : tableRun padding (ftExec env ft) [call] r = .ok ((), settle padding r t) :=
      (runAll_cons_ok _).mpr ⟨_, onTable_ok.mpr ⟨t, hexec, rfl⟩, rfl⟩
    have hstored : PutsStored padding r t :=
      (putsStored_congr (trace_settle r t)).mp (hputs [call] calls _ rfl hone)
    have hrest := hputs.tail hs.idle hr hone
    obtain ⟨hsettle, -, hcoupled⟩ := settle_of_stored hr hes ((putsStored_iff hes).mp hstored)
    have hsame : (settle padding r t).1 = t := congrArg Prod.fst hsettle
    obtain ⟨log, u, hlog, hmap, hruns⟩ := ih (fun c hc => hkeys c (List.mem_cons_of_mem call hc))
      (by rw [hsame]; exact hanswers.steady) hcoupled
      (by rw [hsame]; exact hanswers.pages.trans hr') hrest
    have hstep := hanswers.step
    rw [hr'] at hstep
    rw [hsame] at hruns
    refine ⟨_, u, bind_ok.mpr ⟨r, r, rfl, bind_ok.mpr ⟨found, _, onTable_ok.mpr ⟨t, hanswer, rfl⟩,
      bind_ok.mpr ⟨_, _, rfl, bind_ok.mpr ⟨log, u, hlog, rfl⟩⟩⟩⟩, ?_, .cons ?_ ?_⟩
    · rw [List.map_cons, List.map_cons, hmap]
    · change Step _ _ (request call) (seen (newEvents r.1 (settle padding r t).1) found)
        (residents (settle padding r t).1.toCore)
      rw [hsame]
      exact hstep
    · change Runs _ (residents (settle padding r t).1.toCore) log
      rw [hsame]
      exact hruns

/-- Every call of a log that the reference set explains is one of its steps. -/
theorem observed_split {capacity : ℕ} {left right : List FtCall} {call : FtCall}
    {u : Sys × HmapTable} (hrun : observed padding env ft (left ++ call :: right) r = .ok (log, u))
    (hlog : Runs capacity (residents r.1.toCore) log) :
    ∃ v w outcome, tableRun padding (ftExec env ft) left r = .ok ((), v) ∧
      tableRun padding (ftExec env ft) [call] v = .ok ((), w) ∧
      Step capacity (residents v.1.toCore) (request call) outcome (residents w.1.toCore) := by
  induction left generalizing r log with
  | nil =>
    obtain ⟨_, _, hr, hrest⟩ := bind_ok.mp hrun
    cases hr
    obtain ⟨found, w, hw, hrest⟩ := bind_ok.mp hrest
    obtain ⟨_, _, hw', hrest⟩ := bind_ok.mp hrest
    cases hw'
    obtain ⟨log', u', hlog', hend⟩ := bind_ok.mp hrest
    cases hend
    cases hlog with
    | cons hstep hruns =>
      obtain ⟨t, ht, rfl⟩ := onTable_ok.mp hw
      exact ⟨r, _, _, rfl, (runAll_cons_ok _).mpr
        ⟨_, onTable_ok.mpr ⟨t, ftExec_of_answer ht, rfl⟩, rfl⟩, hstep⟩
  | cons c left ih =>
    obtain ⟨_, _, hr, hrest⟩ := bind_ok.mp hrun
    cases hr
    obtain ⟨found, v, hv, hrest⟩ := bind_ok.mp hrest
    obtain ⟨_, _, hv', hrest⟩ := bind_ok.mp hrest
    cases hv'
    obtain ⟨log', u', hlog', hend⟩ := bind_ok.mp hrest
    cases hend
    cases hlog with
    | cons hstep hruns =>
      obtain ⟨t, ht, rfl⟩ := onTable_ok.mp hv
      obtain ⟨w, x, outcome, hw, hx, hstep'⟩ := ih hlog' hruns
      exact ⟨w, x, outcome, (runAll_cons_ok _).mpr
        ⟨_, onTable_ok.mpr ⟨t, ftExec_of_answer ht, rfl⟩, hw⟩, hx, hstep'⟩

theorem steady_of_created {a : ℕ} {s : Sys} (h : Created 0 a s) : Steady s where
  idle := idle_of_created h
  packed := {
    wellFormed := wellFormed_of_created h
    key0 := h.map 0
    used := fun c i hi => by rw [h.len] at hi; omega
    impl := fun c => by
      have himpl := congrArg Prod.snd (h.impl c)
      simp only [chunkImpl, Nat.not_lt_zero, if_false] at himpl
      rw [himpl]
      split <;> rfl
    kept := h.stored }
  alive k d hd := by rw [h.map] at hd; cases hd

theorem residents_created {l a : ℕ} {s : Sys} (h : Created l a s) :
    residents s.toCore = .empty := by
  funext k
  rw [residents, show s.toCore.cache.hmapGet k = none from h.map k]
  rfl

theorem refines_of_everyPutStored {a : ℕ} (hcreated : Created 0 a r.1) (hr : Coupled (both r))
    (hpages : 1 ≤ r.1.cache.pagesPerChunk) (hkeys : ∀ call ∈ calls, call.key ≠ 0)
    (hputs : EveryPutStored padding env ft calls r) : Refines padding env ft calls r := by
  obtain ⟨log, u, hrun, hlog, hruns⟩ := observed_law env ft hpages hkeys
    (steady_of_created hcreated) hr rfl hputs
  rw [residents_created hcreated] at hruns
  refine ⟨log, u, hrun, hlog, hruns, fun K hK hgets left p right k hsplit hp => ?_⟩
  have hset := hruns.of_workingSet hK ?_ (by rw [Residents.keys_empty]; exact Set.empty_subset _)
    hsplit hp
  · rw [Residents.keys_empty] at hset
    exact ⟨fun h => hset.1 (.inr h), fun h => hset.2 (by simpa using h)⟩
  · rintro p hp
    have hmem : p.request ∈ calls.map request := hlog ▸ List.mem_map_of_mem hp
    obtain ⟨call, hcall, hreq⟩ := List.mem_map.mp hmem
    obtain ⟨k', hk', v, rfl⟩ := hgets call hcall
    exact ⟨k', hk', hreq.symm⟩

/-- After a get whose put is refused the table does not find its key. -/
theorem exists_get_lost {a : ℕ} (hcreated : Created 0 a r.1) (hr : Coupled (both r))
    (hpages : 1 ≤ r.1.cache.pagesPerChunk) (hkeys : ∀ call ∈ calls, call.key ≠ 0)
    (h : ¬ EveryPutStored padding env ft calls r) :
    ∃ left key value right u v, calls = left ++ .get key value :: right ∧
      tableRun padding (ftExec env ft) left r = .ok ((), u) ∧
      tableRun padding (ftExec env ft) [.get key value] u = .ok ((), v) ∧
      v.2.hmapGet key = none := by
  have hfaithful := faithful_ftExec env ft
  have hsteady := steady_of_created hcreated
  have hsplit : ∃ left right r', calls = left ++ right ∧
      tableRun padding (ftExec env ft) left r = .ok ((), r') ∧ ¬ PutsStored padding r r'.1 := by
    by_contra hnone
    refine h fun left right r' hcalls hrun => ?_
    by_contra hputs
    exact hnone ⟨left, right, r', hcalls, hrun, hputs⟩
  obtain ⟨left, right, r', rfl, hrun, hputs⟩ := hsplit
  obtain ⟨left, key, value, later, u, v, d, rfl, hu, hstored, hv, -, hd, -, hless⟩ :=
    exists_get_refused hsteady.idle hsteady.packed.wellFormed hr
      (fun call hcall => hkeys call (List.mem_append_left _ hcall)) hrun hputs
  rw [List.append_assoc, List.cons_append] at hkeys ⊢
  refine ⟨left, key, value, _, u, v, rfl, hu, hv, Option.eq_none_iff_forall_ne_some.mpr ?_⟩
  intro p hp
  -- before the get the key had an entry
  obtain ⟨hidle, hcoupled, -⟩ := tableRun_coupled hfaithful hsteady.idle hr hu
  have hmapped : u.1.cache.hmapGet key = some p :=
    (hcoupled.simulates.get key).symm.trans (hless key p hp)
  -- and yet the get gave it a page
  obtain ⟨hideal, -⟩ := run_of_tableRun hfaithful hsteady.idle hr hu hstored
  obtain ⟨t, ht, hsteady'⟩ := steady_run env ft hsteady hpages
    (fun call hcall => hkeys call (List.mem_append_left _ hcall))
  obtain rfl := (Prod.mk.inj (Except.ok.inj (ht.symm.trans hideal))).2
  obtain ⟨v', hget, hend⟩ := (runAll_cons_ok _).mp hv
  cases hend
  obtain ⟨x, hx, hx'⟩ := onTable_ok.mp hget
  have hevents : newEvents u.1 v.1 = newEvents u.1 x := by
    unfold newEvents
    rw [hx']
    exact congrArg (List.drop _) (trace_settle u x)
  rw [hevents] at hd
  cases ftStep_of_ok hidle hx with
  | get key value y x hgot =>
    obtain ⟨es, hes, hkind⟩ := ftGot_events hgot hidle.wlock
    rw [newEvents_eq hes.performs] at hd
    cases hkind with
    | hit q es hq halive hreclaimed =>
      obtain ⟨q', hq'⟩ := hreclaimed _ hd
      cases hq'
    | miss n y j q bit qs qs' qs'' hmissing =>
      cases (hsteady'.unmapped hmissing).symm.trans hmapped

/-- A get whose put is refused leaves its key out, and the reference set never does. -/
theorem everyPutStored_of_refines {a : ℕ} (hcreated : Created 0 a r.1) (hr : Coupled (both r))
    (hpages : 1 ≤ r.1.cache.pagesPerChunk) (hkeys : ∀ call ∈ calls, call.key ≠ 0)
    (h : Refines padding env ft calls r) : EveryPutStored padding env ft calls r := by
  have hfaithful := faithful_ftExec env ft
  have hidle := idle_of_created hcreated
  obtain ⟨log, w, hlog, -, hruns, -⟩ := h
  rw [← residents_created hcreated] at hruns
  by_contra hputs
  obtain ⟨left, key, value, right, u, v, rfl, hu, hv, hlost⟩ :=
    exists_get_lost hcreated hr hpages hkeys hputs
  obtain ⟨u', v', outcome, hu', hv', hstep⟩ := observed_split hlog hruns
  obtain rfl := (Prod.mk.inj (Except.ok.inj (hu'.symm.trans hu))).2
  obtain rfl := (Prod.mk.inj (Except.ok.inj (hv'.symm.trans hv))).2
  obtain ⟨hidle', hcoupled, -⟩ := tableRun_coupled hfaithful hidle hr hu
  obtain ⟨-, hcoupled', -⟩ := tableRun_coupled hfaithful hidle' hcoupled hv
  obtain ⟨p, hp⟩ := mem_residents.mp hstep.get_resident
  cases hlost.symm.trans ((hcoupled'.simulates.get key).trans hp)

/-- As long as no put is refused a run over the partial map is one on the real table. -/
theorem tableRun_of_everyPutStored {s : Sys} (hs : Idle r.1) (hr : Coupled (both r))
    (hputs : EveryPutStored padding env ft calls r) (hrun : ftRun env ft calls r.1 = .ok ((), s)) :
    ∃ t, tableRun padding (ftExec env ft) calls r = .ok ((), s, t) := by
  induction calls generalizing r with
  | nil =>
    cases hrun
    exact ⟨r.2, rfl⟩
  | cons call calls ih =>
    obtain ⟨x, hx, hrest⟩ := (runAll_cons_ok _).mp hrun
    obtain ⟨hx', es, hes⟩ := (faithful_ftExec env ft).performs call r.1 x hs hx
    have hone : tableRun padding (ftExec env ft) [call] r = .ok ((), settle padding r x) :=
      (runAll_cons_ok _).mpr ⟨_, onTable_ok.mpr ⟨x, hx, rfl⟩, rfl⟩
    have hstored : PutsStored padding r x :=
      (putsStored_congr (trace_settle r x)).mp (hputs [call] calls _ rfl hone)
    obtain ⟨hsettle, -, hcoupled⟩ := settle_of_stored hr hes ((putsStored_iff hes).mp hstored)
    have hsame : (settle padding r x).1 = x := congrArg Prod.fst hsettle
    obtain ⟨t, ht⟩ := ih (by rw [hsame]; exact hx') hcoupled (hputs.tail hs hr hone)
      (by rw [hsame]; exact hrest)
    exact ⟨t, (runAll_cons_ok _).mpr ⟨_, onTable_ok.mpr ⟨x, hx, rfl⟩, ht⟩⟩

/-- If the keys do not crowd in the table, no put is refused. -/
theorem everyPutStored_of_uncrowded {boot : Boot} {capacity a m : ℕ}
    (hnew : tableCacheNewEx boot capacity 0 a m = some r) (hpages : 1 ≤ r.1.cache.pagesPerChunk)
    {K : Finset Key} (hK : Uncrowded exactKeyHasher K) (hcard : K.card < 2 ^ 31) (hzero : 0 ∉ K)
    (hkeys : ∀ call ∈ calls, call.key ∈ K) : EveryPutStored padding env ft calls r := by
  have hcreated := (created_of_new (tableCacheNewEx_some.mp hnew).1).1
  rintro left right r' rfl hrun
  have hleft : ∀ call ∈ left, call.key ∈ K := fun call hcall =>
    hkeys call (List.mem_append_left _ hcall)
  obtain ⟨s, hs, -⟩ := steady_run env ft (steady_of_created hcreated) hpages
    (fun call hcall h => hzero (h ▸ hleft call hcall))
  obtain ⟨hputs, t, ht⟩ := tableRun_of_ftRun padding hK hcard hzero hnew hleft hs
  obtain rfl := (Prod.mk.inj (Except.ok.inj (ht.symm.trans hrun))).2
  exact hputs

/-- Over anon and disk chunks the runs on nonzero keys are those of the reference set of
`32 * pages_per_chunk` keys exactly if no put into the table is refused, as for keys that do not
crowd. -/
theorem refines_referenceSet {boot : Boot} {capacity a m : ℕ} {r₀ : Sys × HmapTable}
    (hnew : tableCacheNewEx boot capacity 0 a m = some r₀)
    (hpages : 1 ≤ r₀.1.cache.pagesPerChunk) (padding : ℕ → UInt32) (env : Env) (ft : FtCache)
    (calls : List FtCall) (hkeys : ∀ call ∈ calls, call.key ≠ 0) :
    (Refines padding env ft calls r₀ ↔ EveryPutStored padding env ft calls r₀) ∧
      ∀ K : Finset Key, Uncrowded exactKeyHasher K → K.card < 2 ^ 31 → 0 ∉ K →
        (∀ call ∈ calls, call.key ∈ K) → Refines padding env ft calls r₀ := by
  have hcreated := (created_of_new (tableCacheNewEx_some.mp hnew).1).1
  have hcoupled := coupled_new hnew
  refine ⟨⟨everyPutStored_of_refines hcreated hcoupled hpages hkeys,
    refines_of_everyPutStored hcreated hcoupled hpages hkeys⟩, ?_⟩
  intro K hK hcard hzero hin
  exact refines_of_everyPutStored hcreated hcoupled hpages hkeys
    (everyPutStored_of_uncrowded hnew hpages hK hcard hzero hin)

/-- 32 anon chunks of one page each. -/
def anonCache : Sys := created (lazyfreeCacheNewEx zeroBoot 131072 0 32 0) (by decide +kernel)

theorem anonCache_new : lazyfreeCacheNewEx zeroBoot 131072 0 32 0 = .ok anonCache := rfl

/-- `anonCache` with its table. -/
def anonTable : Sys × HmapTable := (anonCache, .new 1)

theorem anonTable_new : tableCacheNewEx zeroBoot 131072 0 32 0 = some anonTable :=
  tableCacheNewEx_some.mpr ⟨anonCache_new, by decide +kernel, rfl⟩

/-- Key 33 evicts chunk 0 with key 1 in it, and key 1 then chunk 0 again, from which it is
dropped. -/
theorem refines_referenceSet_evicted : ∃ r,
    tableRun (fun _ => 0) (ftExec calm byteCache) (oneTooMany ++ [.get 1 blank, .drop 1])
      anonTable = .ok ((), r) ∧ .evicted 0 ∈ r.1.trace ∧ .dropped ⟨0, 0⟩ 1 ∈ r.1.trace ∧
    Refines (fun _ => 0) calm byteCache (oneTooMany ++ [.get 1 blank, .drop 1]) anonTable := by
  obtain ⟨s, hideal, hevicted, hdropped⟩ : ∃ s,
      ftRun calm byteCache (oneTooMany ++ [.get 1 blank, .drop 1]) anonCache = .ok ((), s) ∧
        .evicted 0 ∈ s.trace ∧ .dropped ⟨0, 0⟩ 1 ∈ s.trace :=
    ⟨_, run_eq_unit _ _ (by decide +kernel), by decide +kernel, by decide +kernel⟩
  have hK : Uncrowded exactKeyHasher (oneTooMany.map FtCall.key).toFinset := by decide +kernel
  have hcard : (oneTooMany.map FtCall.key).toFinset.card < 2 ^ 31 := by decide +kernel
  have hzero : 0 ∉ (oneTooMany.map FtCall.key).toFinset := by decide +kernel
  obtain ⟨-, t, hrun⟩ := tableRun_of_ftRun (fun _ => 0) hK hcard hzero anonTable_new
    (by decide +kernel) hideal
  exact ⟨(s, t), hrun, hevicted, hdropped, (refines_referenceSet anonTable_new (by decide +kernel) _
    calm byteCache _ (by decide)).2 _ hK hcard hzero (by decide +kernel)⟩

/-- Gets of eight keys whose hash is 0. -/
def eightGets : List FtCall := sameHash.map (FtCall.get · blank)

/-- After gets of eight keys of one hash a get of a ninth does not put it into the table. -/
theorem ninth_lost : ∃ u v,
    tableRun (fun _ => 0) (ftExec calm byteCache) eightGets anonTable = .ok ((), u) ∧
    tableRun (fun _ => 0) (ftExec calm byteCache) [.get ninth blank] u = .ok ((), v) ∧
    v.2.hmapGet ninth = none := by
  obtain ⟨s, hs, hheld, hmissing, x, hx, hkept⟩ : ∃ s,
      ftRun calm byteCache eightGets anonCache = .ok ((), s) ∧
      (sameHash.Forall fun k => s.cache.hmapGet k ≠ none) ∧ s.cache.hmapGet ninth = none ∧
      ∃ x, ftExec calm byteCache (.get ninth blank) s = .ok ((), x) ∧
        ∀ c, .evicted c ∉ newEvents s x :=
    ⟨_, run_eq_unit _ _ (by decide +kernel), by decide +kernel, by decide +kernel, _,
      run_eq_unit _ _ (by decide +kernel), by decide +kernel⟩
  obtain ⟨-, t, ht⟩ := tableRun_of_ftRun (fun _ => 0) (K := sameHash.toFinset)
    (by decide +kernel) (by decide) (by decide) anonTable_new (by decide) hs
  have hfaithful := faithful_ftExec calm byteCache
  have hcreated := (created_of_new anonCache_new).1
  obtain ⟨hidle, hcoupled, -⟩ :=
    tableRun_coupled hfaithful (idle_of_created hcreated) (coupled_new anonTable_new) ht
  have hone : tableRun (fun _ => 0) (ftExec calm byteCache) [.get ninth blank] (s, t) =
      .ok ((), settle (fun _ => 0) (s, t) x) :=
    (runAll_cons_ok _).mpr ⟨_, onTable_ok.mpr ⟨x, hx, rfl⟩, rfl⟩
  have hlost : (settle (fun _ => 0) (s, t) x).2.hmapGet ninth = none := by
    cases ftStep_of_ok hidle hx with
    | get key value y x hgot =>
      obtain ⟨es, hes, hget⟩ := ftGot_events hgot hidle.wlock
      have hevents := newEvents_eq hes.performs
      rw [hevents] at hkept
      obtain ⟨d, bytes, hput⟩ := snd_replay_get hget hmissing hkept (both (s, t))
      have hcollide : ∀ k ∈ sameHash.toFinset, k ≠ 0 ∧ k ≠ ninth ∧
          hashU64ToU32 k = hashU64ToU32 ninth ∧ s.cache.hmapGet k ≠ none := by
        intro k hk
        obtain ⟨hzero, hother, hsame⟩ := sameHash_collides k hk
        exact ⟨hzero, hother, hsame,
          List.forall_iff_forall_mem.mp hheld k (List.mem_toFinset.mp hk)⟩
      obtain ⟨hbefore, hafter, -⟩ := lost_of_coupled hcoupled (by decide) (S := sameHash.toFinset)
        (by decide) hcollide d bytes
      change (replay (applyBoth _) (both (s, t)) (newEvents s x)).2.hmapGet ninth = none
      rw [hevents, hput, hafter]
      exact hbefore
  exact ⟨_, _, ht, hone, hlost⟩

/-- The put of the ninth key is refused, and the reference set does not explain the run. -/
theorem ninth_refused : ∃ u v,
    tableRun (fun _ => 0) (ftExec calm byteCache) eightGets anonTable = .ok ((), u) ∧
    tableRun (fun _ => 0) (ftExec calm byteCache) [.get ninth blank] u = .ok ((), v) ∧
    v.2.hmapGet ninth = none ∧
    ¬ Refines (fun _ => 0) calm byteCache (eightGets ++ [.get ninth blank]) anonTable := by
  obtain ⟨u, v, hu, hv, hlost⟩ := ninth_lost
  refine ⟨u, v, hu, hv, hlost, ?_⟩
  rintro ⟨log, w, hlog, -, hruns, -⟩
  have hfaithful := faithful_ftExec calm byteCache
  have hcreated := (created_of_new anonCache_new).1
  rw [← residents_created hcreated] at hruns
  obtain ⟨u', v', outcome, hu', hv', hstep⟩ := observed_split hlog hruns
  obtain rfl := (Prod.mk.inj (Except.ok.inj (hu'.symm.trans hu))).2
  obtain rfl := (Prod.mk.inj (Except.ok.inj (hv'.symm.trans hv))).2
  obtain ⟨hidle, hcoupled, -⟩ :=
    tableRun_coupled hfaithful (idle_of_created hcreated) (coupled_new anonTable_new) hu
  obtain ⟨-, hcoupled', -⟩ := tableRun_coupled hfaithful hidle hcoupled hv
  obtain ⟨p, hp⟩ := mem_residents.mp hstep.get_resident
  cases hlost.symm.trans ((hcoupled'.simulates.get ninth).trans hp)

end LazyfreeCache.HitLaw
