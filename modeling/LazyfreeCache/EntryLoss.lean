import LazyfreeCache.LostPuts

/-!
Why a key is refilled. Between two gets of a key with a page, calls for other
keys lose the page only when they evict its chunk or the kernel takes it, unless
an evicted chunk still names the key in an old `keys[]` entry: `drop_next_chunk`
removes every key its chunk names, wherever the key lives by then.
-/
namespace LazyfreeCache.EntryLoss

open ProgramLogic EventReplay State LazyfreeOps FallthroughOps Refinement Reads Allocation
open Writes Fallthrough Frames FallthroughEvents Accounting Client Slots FtRuns HmapAccess HmapRuns
open TableCache LostPuts

/-- Eviction and drop remove no map entry that leads outside the chunk or the page. Before the event
the entries are those of `get` and after it those of `get'`. -/
def KeepsOutside (get get' : Key → Option EntryDescriptor) : Event → Prop
  | .evicted c => ∀ k d, get k = some d → d.chunk ≠ c → get' k = some d
  | .dropped p _ => ∀ k d, get k = some d → d ≠ p → get' k = some d
  | _ => True

/-- An evicted chunk names no key that lives in another chunk. -/
def NamesInside (get : Key → Option EntryDescriptor) (cache : Cache) : Event → Prop
  | .evicted c => ∀ i < cache.len c, cache.label ⟨i, c⟩ ≠ 0 →
    ∀ d ∈ get (cache.label ⟨i, c⟩), d.chunk = c
  | _ => True

instance (get : Key → Option EntryDescriptor) (cache : Cache) :
    DecidablePred (NamesInside get cache)
  | .refill _ => inferInstanceAs (Decidable True)
  | .reclaimed _ => inferInstanceAs (Decidable True)
  | .stored _ _ _ => inferInstanceAs (Decidable True)
  | .evicted c => inferInstanceAs (Decidable (∀ i < cache.len c, cache.label ⟨i, c⟩ ≠ 0 →
      ∀ d ∈ get (cache.label ⟨i, c⟩), d.chunk = c))
  | .advised _ => inferInstanceAs (Decidable True)
  | .allocated _ _ => inferInstanceAs (Decidable True)
  | .upgraded _ _ => inferInstanceAs (Decidable True)
  | .committed _ _ => inferInstanceAs (Decidable True)
  | .dropped _ _ => inferInstanceAs (Decidable True)

/-- The get that led from `s` to `t` stored its key in slot `p`, or found it there. -/
def InSlot (key : Key) (s t : Sys) (p : EntryDescriptor) : Prop :=
  .allocated p key ∈ newEvents s t ∨ (s.cache.Mapped key p ∧ .refill key ∉ newEvents s t)

/-- Entries are lost only for cause in the run of the calls from `r₀` to `r` on the real table. -/
structure LostForCause (padding : ℕ → UInt32) (env : Env) (ft : FtCache) (calls : List FtCall)
    (r₀ r : Sys × HmapTable) : Prop where
  outside : Along (applyBoth padding) (fun st e => KeepsOutside st.2.hmapGet
    (applyBoth padding st e).2.hmapGet e) (both r₀) r.1.trace
  /-- A get leaves its key mapped to the slot in which it stored or found it. -/
  held : ∀ before key value later, calls = before ++ .get key value :: later → ∀ s t,
    tableRun padding (ftExec env ft) before r₀ = .ok ((), s) →
    tableRun padding (ftExec env ft) [.get key value] s = .ok ((), t) →
    ∀ p, InSlot key s.1 t.1 p → t.1.cache.Mapped key p
  /-- Between two gets of a key that is not looked up in between: a refill needs a drop of the
  key, the eviction of its chunk, or a reclaim of its page. -/
  next : ∀ before key value mid value' later, calls =
      before ++ .get key value :: (mid ++ .get key value' :: later) →
    (∀ v, .get key v ∉ mid) → ∀ s t u w,
    tableRun padding (ftExec env ft) before r₀ = .ok ((), s) →
    tableRun padding (ftExec env ft) [.get key value] s = .ok ((), t) →
    tableRun padding (ftExec env ft) mid t = .ok ((), u) →
    tableRun padding (ftExec env ft) [.get key value'] u = .ok ((), w) →
    ∀ p, InSlot key s.1 t.1 p → ∀ left right, newEvents t.1 w.1 = left ++ .refill key :: right →
      .drop key ∈ mid ∨ .evicted p.chunk ∈ left ∨ .reclaimed p ∈ left

/-- An event of a fallthrough call on the key. -/
structure FtEvent (key : Key) (s : Core) (e : Event) : Prop where
  enabled : s.Enabled e
  acts : ActsFor key s e
  drops : ∀ d k, e = .dropped d k → s.cache.Mapped k d
  refills : ∀ k, e = .refill k → k = key

variable {env : Env} {ft : FtCache} {key : Key} {value : Buffer} {s t u : Sys} {es : List Event}
  {p d : EntryDescriptor}

theorem getEvents_kind (h : GetEvents env key s es) :
    ∀ e ∈ es, (∀ d k, e ≠ .dropped d k) ∧ ∀ k, e = .refill k → k = key := by
  have hquiet : ∀ e, Quiet e → (∀ d k, e ≠ .dropped d k) ∧ ∀ k, e = .refill k → k = key := by
    intro e he
    cases e <;> first | exact he.elim | simp
  cases h with
  | hit d es hmapped halive hes =>
    intro e he
    obtain ⟨q, rfl⟩ := hes e he
    simp
  | miss n u j d bit qs qs' qs'' hmissing hafter hu hfinds hperf hqs hqs' hqs'' =>
    intro e he
    simp only [List.mem_append, List.mem_cons] at he
    rcases he with (he | rfl | he) | he | rfl | he | rfl | he
    · obtain ⟨q, rfl⟩ := hqs e he
      simp
    · simp
    · exact hquiet e (hqs' e he)
    · rcases mem_searchEvents he with ⟨c, rfl⟩ | ⟨c, rfl⟩ <;> simp
    · simp
    · exact hquiet e (hqs'' e he)
    · simp
    · cases he

theorem ftStep_events {call : FtCall} (hs : Idle s) (h : FtStep env ft s call t) :
    ∃ es, Performs s t es ∧ Along Core.apply (FtEvent call.key) s.toCore es := by
  have hall : ∀ {es}, Acts env call.key s t es →
      Along Core.apply (fun s e => (∀ d k, e = .dropped d k → s.cache.Mapped k d) ∧
        ∀ k, e = .refill k → k = call.key) s.toCore es →
      Along Core.apply (FtEvent call.key) s.toCore es := by
    intro es hes hkind
    have hboth := (along_and es).mpr ⟨(along_and es).mpr ⟨hes.performs.2, hes.along⟩, hkind⟩
    exact along_mono es hboth fun _ _ h => ⟨h.1.1, h.1.2, h.2.1, h.2.2⟩
  cases h with
  | get key value v t h =>
    obtain ⟨es, hes, hget⟩ := ftGot_events h hs.wlock
    refine ⟨es, hes.performs, hall hes (along_of_forall es fun e he s => ?_)⟩
    obtain ⟨hdrop, hrefill⟩ := getEvents_kind hget e he
    exact ⟨fun d k hd => absurd hd (hdrop d k), hrefill⟩
  | drop key b t h =>
    obtain ⟨es, hes, qs, hqs, hcases⟩ := ftDropped_events h hs.wlock hs.handedOut
    have hreclaimed : ∀ s : Core, Along Core.apply (fun s e =>
        (∀ d k, e = .dropped d k → s.cache.Mapped k d) ∧ ∀ k, e = .refill k → k = key) s qs := by
      refine fun s => along_of_forall qs fun e he _ => ?_
      obtain ⟨q, rfl⟩ := hqs e he
      simp
    refine ⟨es, hes.performs, hall hes ?_⟩
    rcases hcases with ⟨-, rfl⟩ | ⟨d, hmapped, -, rfl⟩
    · exact hreclaimed s.toCore
    · rw [along_append]
      refine ⟨hreclaimed s.toCore, ⟨?_, by simp⟩, trivial⟩
      rintro d' k heq
      cases heq
      have hcache : (replay Core.apply s.toCore qs).cache = s.cache := by
        refine cache_replay_quiet s.toCore fun e he => ?_
        obtain ⟨q, rfl⟩ := hqs e he
        trivial
      rw [hcache]
      exact hmapped

/-! ### Between two gets -/

/-- An event of a call for another key leaves a readable page readable, unless it reclaims the
page or evicts its chunk, when evicted chunks name no keys from elsewhere. -/
theorem readable_step {k : Key} (hk : k ≠ 0) {s : Core} (hwell : WellFormed s)
    (hread : Readable s k p) {e : Event} (he : FtEvent key s e) (hkey : key ≠ k)
    (hnames : NamesInside s.cache.hmapGet s.cache e) (hreclaim : e ≠ .reclaimed p)
    (hevict : e ≠ .evicted p.chunk) : Readable (s.apply e) k p := by
  obtain ⟨⟨hmap, hlabel⟩, halive⟩ := hread
  have hacts := he.acts
  have hspares : Spares p e := by
    cases e with
    | reclaimed q => exact fun hq => hreclaim (by rw [hq])
    | stored q offset v => exact fun hq => hkey ((hq ▸ hacts).symm.trans hlabel)
    | evicted c => exact fun hc => hevict (by rw [hc])
    | allocated q k' => exact fun hq => hwell.ready_unmapped he.enabled.2 hk (hq ▸ hmap)
    | committed w bit =>
      have hw : s.cache.label w.slot = key := hacts
      exact fun hq => hkey (hw.symm.trans ((congrArg s.cache.label hq).trans hlabel))
    | dropped q k' =>
      have hq : s.cache.label q = key := he.enabled.1.trans hacts
      exact fun hqp => hkey (hq.symm.trans (hqp ▸ hlabel))
    | _ => trivial
  have hkeeps : KeepsEntry k s e := by
    cases e with
    | evicted c =>
      refine .inr fun i hi hname => hevict ?_
      rw [hnames i hi (by rw [hname]; exact hk) p (by rw [hname]; exact hmap)]
    | allocated q k' => exact fun hq => hkey (hacts.symm.trans hq)
    | dropped q k' => exact .inr fun hq => hkey (hacts.symm.trans (he.enabled.1.symm.trans hq))
    | _ => trivial
  refine ⟨⟨?_, ?_⟩, (sameContent_of_spares hspares).alive.mpr halive⟩
  · rw [hmapGet_of_keeps hkeeps]
    exact hmap
  · rw [label_of_spares hspares]
    exact hlabel

/-- An event of a call for some nonzero key other than `k`. -/
def Other (k : Key) (s : Core) (e : Event) : Prop := ∃ key, key ≠ 0 ∧ key ≠ k ∧ FtEvent key s e

theorem FtEvent.dropsKey {s : Core} {e : Event} (h : FtEvent key s e) (hkey : key ≠ 0) :
    DropsKey e := by
  have hacts := h.acts
  cases e with
  | dropped d k => exact hacts ▸ hkey
  | _ => trivial

theorem readable_replay {k : Key} (hk : k ≠ 0) {s : Core} (hwell : WellFormed s)
    (hread : Readable s k p) (hothers : Along Core.apply (Other k) s es)
    (hnames : Along Core.apply (fun s => NamesInside s.cache.hmapGet s.cache) s es)
    (hreclaim : .reclaimed p ∉ es) (hevict : .evicted p.chunk ∉ es) :
    Readable (replay Core.apply s es) k p := by
  induction es generalizing s with
  | nil => exact hread
  | cons e es ih =>
    obtain ⟨key, hzero, hkey, he⟩ := hothers.1
    rw [List.mem_cons, not_or] at hreclaim hevict
    exact ih (wellFormed_step s e hwell he.enabled (he.dropsKey hzero))
      (readable_step hk hwell hread he hkey hnames.1 (Ne.symm hreclaim.1) (Ne.symm hevict.1))
      hothers.2 hnames.2 hreclaim.2 hevict.2

theorem along_other {k : Key} {calls : List FtCall} (hkeys : ∀ call ∈ calls, call.key ≠ 0)
    (hothers : ∀ call ∈ calls, call.key ≠ k) (hs : Idle s)
    (hrun : ftRun env ft calls s = .ok ((), t)) :
    ∃ es, Performs s t es ∧ Along Core.apply (Other k) s.toCore es := by
  refine ftRun_along (fun s call hcall t hs h => ?_) hs hrun
  obtain ⟨es, hes, halong⟩ := ftStep_events hs h
  exact ⟨es, hes, along_mono es halong fun _ _ he =>
    ⟨call.key, hkeys call hcall, hothers call hcall, he⟩⟩

/-- What comes before the first `x` of a list is part of every prefix that ends at an `x`. -/
theorem mem_left_of_split {α : Type} {x : α} {first rest left right : List α}
    (h : first ++ x :: rest = left ++ x :: right) (hx : x ∉ first) : ∀ y ∈ first, y ∈ left := by
  rcases List.append_eq_append_iff.mp h with ⟨mid, hleft, -⟩ | ⟨mid, hfirst, hmid⟩
  · rw [hleft]
    exact fun y hy => List.mem_append_left _ hy
  · cases mid with
    | nil =>
      rw [hfirst, List.append_nil]
      exact fun y hy => hy
    | cons z mid =>
      obtain ⟨rfl, -⟩ := List.cons.inj hmid
      exact absurd (by rw [hfirst]; simp) hx

/-- A page that stays readable up to a get of its key is found by it. -/
theorem lost_of_refill {k : Key} (hk : k ≠ 0) (hwell : WellFormed s.toCore)
    (hread : Readable s.toCore k p) {fs : List Event} (hes : Performs s t es)
    (hothers : Along Core.apply (Other k) s.toCore es)
    (hnames : Along Core.apply (fun s => NamesInside s.cache.hmapGet s.cache) s.toCore es)
    (hfs : Performs t u fs) (hget : GetEvents env k t fs) {left right : List Event}
    (hsplit : newEvents s u = left ++ .refill k :: right) :
    .evicted p.chunk ∈ left ∨ .reclaimed p ∈ left := by
  have hnone : .refill k ∉ es := by
    intro hmem
    obtain ⟨before, later, hsplit'⟩ := List.append_of_mem hmem
    obtain ⟨key, -, hkey, he⟩ := (along_iff_split es).mp hothers before _ later hsplit'
    exact hkey (he.refills k rfl).symm
  rw [newEvents_eq (hes.trans hfs)] at hsplit
  by_contra hno
  rw [not_or] at hno
  cases hget with
  | hit d fs hmapped halive hkind =>
    have hmem : .refill k ∈ es ++ fs := by
      rw [hsplit]
      simp
    rcases List.mem_append.mp hmem with hmem | hmem
    · exact hnone hmem
    · obtain ⟨q, hq⟩ := hkind _ hmem
      cases hq
  | miss n v j d bit qs qs' qs'' hmissing hafter hv hfinds hperf hqs hqs' hqs'' =>
    have hnone' : .refill k ∉ es ++ qs := by
      intro hmem
      rcases List.mem_append.mp hmem with hmem | hmem
      · exact hnone hmem
      · obtain ⟨q, hq⟩ := hqs _ hmem
        cases hq
    simp only [List.append_assoc, List.cons_append] at hsplit
    rw [← List.append_assoc] at hsplit
    have hleft := mem_left_of_split hsplit hnone'
    have hread' : Readable t.toCore k p := by
      rw [hes.1]
      exact readable_replay hk hwell hread hothers hnames
        (fun h => hno.2 (hleft _ (List.mem_append_left _ h)))
        (fun h => hno.1 (hleft _ (List.mem_append_left _ h)))
    have hspares : ∀ e ∈ qs, Spares p e := by
      intro e he
      obtain ⟨q, rfl⟩ := hqs e he
      exact fun hq => hno.2 (hleft _ (List.mem_append_right _ (hq ▸ he)))
    refine hmissing p hread'.1 ?_
    rw [hafter.1]
    exact (spares_replay hspares).2.alive.mpr hread'.2

/-! ### Runs -/

/-- After a get its key can be read from the slot the map names. -/
theorem readable_of_ftGot {v : Buffer} (h : FtGot env ft key value s v t)
    (hp : t.cache.Mapped key p) : Readable t.toCore key p := by
  refine ⟨hp, ?_⟩
  cases h with
  | hit d v hmapped halive hv =>
    rw [cache_after] at hp
    exact hmapped.unique hp ▸ halive
  | miss n u j d => exact mapped_filled.unique hp ▸ alive_filled

theorem ftGot_of_run (hs : Idle s)
    (hrun : ftRun env ft [.get key value] s = .ok ((), t)) : ∃ v, FtGot env ft key value s v t := by
  obtain ⟨u, hget, hu⟩ := (runAll_cons_ok (ftExec env ft)).mp hrun
  cases hu
  cases ftStep_of_ok hs hget with
  | get key value v t h => exact ⟨v, h⟩

/-- The events of a run on nonzero keys, each of a call for some key. -/
theorem along_ftEvents {calls : List FtCall} (hkeys : ∀ call ∈ calls, call.key ≠ 0) (hs : Idle s)
    (hrun : ftRun env ft calls s = .ok ((), t)) : ∃ es, Performs s t es ∧
      Along Core.apply (fun s e => ∃ key, key ≠ 0 ∧ FtEvent key s e) s.toCore es := by
  refine ftRun_along (fun s call hcall t hs h => ?_) hs hrun
  obtain ⟨es, hes, halong⟩ := ftStep_events hs h
  exact ⟨es, hes, along_mono es halong fun _ _ he => ⟨call.key, hkeys call hcall, he⟩⟩

theorem keepsOutside_of_names {s : Core} {e : Event} (he : FtEvent key s e)
    (hnames : NamesInside s.cache.hmapGet s.cache e) :
    KeepsOutside s.cache.hmapGet (s.apply e).cache.hmapGet e := by
  cases e with
  | evicted c =>
    intro k d hd hout
    change (s.cache.evict c).hmapGet k = some d
    rw [Cache.hmapGet_evict, if_neg, hd]
    rintro ⟨hk, i, hi, hname⟩
    exact hout (hnames i hi (by rw [hname]; exact hk) d (by rw [hname]; exact hd))
  | dropped p k' =>
    intro k d hd hout
    change (s.cache.drop p).hmapGet k = some d
    rw [Cache.hmapGet_drop, if_neg, hd]
    rintro ⟨hk, hlabel⟩
    have hp := he.drops p k' rfl
    rw [hlabel, hp.2, hp.1] at hd
    exact hout (Option.some.inj hd).symm
  | _ => trivial

theorem names_of_keepsOutside {s : Core} {e : Event}
    (h : KeepsOutside s.cache.hmapGet (s.apply e).cache.hmapGet e) :
    NamesInside s.cache.hmapGet s.cache e := by
  cases e with
  | evicted c =>
    intro i hi hne d hd
    by_contra hout
    have hkept : (s.cache.evict c).hmapGet (s.cache.label ⟨i, c⟩) = some d := h _ d hd hout
    rw [Cache.hmapGet_evict, if_pos ⟨hne, i, hi, rfl⟩] at hkept
    cases hkept
  | _ => trivial

/-- The slot in which a get stored or found its key is where the map then leads. -/
theorem mapped_of_inSlot (hperf : Performs s t es) (hget : GetEvents env key s es)
    (h : InSlot key s t p) : t.cache.Mapped key p := by
  unfold InSlot at h
  rw [newEvents_eq hperf] at h
  have hcache : t.cache = (replay Core.apply s.toCore es).cache := congrArg Core.cache hperf.1
  cases hget with
  | hit d es hmapped halive hes =>
    have hquiet : ∀ e ∈ es, Quiet e := by
      intro e he
      obtain ⟨q, rfl⟩ := hes e he
      trivial
    rw [hcache, cache_replay_quiet s.toCore hquiet]
    rcases h with hmem | ⟨hmapped', -⟩
    · obtain ⟨q, hq⟩ := hes _ hmem
      cases hq
    · exact hmapped'
  | miss n u j d bit qs qs' qs'' hmissing hafter hu hfinds hperf' hqs hqs' hqs'' =>
    rcases h with hmem | ⟨-, hnone⟩
    · obtain rfl : p = d := by
        simp only [List.mem_append, List.mem_cons] at hmem
        rcases hmem with (hmem | hmem | hmem) | hmem | hmem | hmem | hmem | hmem
        · obtain ⟨q, hq⟩ := hqs _ hmem
          cases hq
        · cases hmem
        · exact (hqs' _ hmem).elim
        · rcases mem_searchEvents hmem with ⟨c, hc⟩ | ⟨c, hc⟩
          · cases hc
          · cases hc
        · exact (Event.allocated.inj hmem).1
        · exact (hqs'' _ hmem).elim
        · cases hmem
        · cases hmem
      rw [hcache, ← List.append_assoc, replay_append, replay_cons, replay_append]
      refine ⟨?_, ?_⟩
      · change ((replay Core.apply _ qs'').cache.commit ⟨p, key⟩ bit).hmapGet key = some p
        rw [Cache.hmapGet_commit, cache_replay_quiet _ hqs'']
        exact (Cache.hmapGet_allocate _ _ _ _).trans (if_pos rfl)
      · change ((replay Core.apply _ qs'').cache.commit ⟨p, key⟩ bit).label p = key
        rw [Cache.label_commit, cache_replay_quiet _ hqs'']
        exact (Cache.label_allocate _ _ _ _).trans (if_pos rfl)
    · exact absurd (by simp) hnone

/-- A get, calls for other keys and a get again. -/
theorem refilled_for_cause {k : Key} (hk : k ≠ 0) {value' : Buffer} {mid : List FtCall} {w : Sys}
    (hs : Idle s) (hwell : WellFormed t.toCore)
    (hget : ftRun env ft [.get k value] s = .ok ((), t))
    (hkeys : ∀ call ∈ mid, call.key ≠ 0) (hothers : ∀ call ∈ mid, call.key ≠ k)
    (hmid : ftRun env ft mid t = .ok ((), u))
    (hget' : ftRun env ft [.get k value'] u = .ok ((), w))
    (hnames : Along Core.apply (fun s => NamesInside s.cache.hmapGet s.cache) t.toCore
      (newEvents t w)) (hp : t.cache.Mapped k p)
    {left right : List Event} (hsplit : newEvents t w = left ++ .refill k :: right) :
    .evicted p.chunk ∈ left ∨ .reclaimed p ∈ left := by
  have ht := idle_ftRun hs hget
  have hu := idle_ftRun ht hmid
  obtain ⟨v, hgot⟩ := ftGot_of_run hs hget
  obtain ⟨v', hgot'⟩ := ftGot_of_run hu hget'
  obtain ⟨es, hes, hother⟩ := along_other hkeys hothers ht hmid
  obtain ⟨fs, hfs, hevents⟩ := ftGot_events hgot' hu.wlock
  rw [newEvents_eq (hes.trans hfs.performs), along_append] at hnames
  exact lost_of_refill hk hwell (readable_of_ftGot hgot hp) hes hother hnames.1 hfs.performs
    hevents hsplit

/-- Where the table agrees with the map before and after an event, so do the two conditions. -/
theorem keepsOutside_congr {st : Core × HmapTable} {e : Event} (h : Coupled st)
    (h' : Coupled (applyBoth padding st e)) :
    KeepsOutside st.2.hmapGet (applyBoth padding st e).2.hmapGet e ↔
      KeepsOutside st.1.cache.hmapGet (st.1.apply e).cache.hmapGet e := by
  rw [funext h.simulates.get, funext h'.simulates.get]
  rfl

/-- Where the table agrees with the map all along, so do the two conditions on evictions. -/
theorem along_names_iff {r : Sys × HmapTable} {x : Sys} (hr : Coupled (both r))
    (hes : Performs r.1 x es) (hputs : PutsStored padding r x) :
    Along (applyBoth padding) (fun st e => NamesInside st.2.hmapGet st.1.cache e) (both r) es ↔
      Along Core.apply (fun s => NamesInside s.cache.hmapGet s.cache) r.1.toCore es := by
  have halong := along_coupled hr hes hputs
  constructor
  · intro h
    refine (along_fst es (both r)).mp (along_mono es ((along_and es).mpr ⟨h, halong⟩) ?_)
    rintro st e ⟨hname, hst, -⟩
    rwa [← funext hst.simulates.get]
  · intro h
    refine along_mono es ((along_and es).mpr ⟨(along_fst es (both r)).mpr h, halong⟩) ?_
    rintro st e ⟨hname, hst, -⟩
    rwa [funext hst.simulates.get]

/-- In a run whose puts return 0 a refill between two gets has a cause, if evicted chunks name no
keys from elsewhere. -/
theorem refilled_for_cause_run {l a : ℕ} {r₀ s t u w r : Sys × HmapTable} (hs : Created l a r₀.1)
    (hcoupled : Coupled (both r₀)) {before mid later : List FtCall} {k : Key} {value' : Buffer}
    (hkeys : ∀ call ∈ before ++ .get k value :: (mid ++ .get k value' :: later), call.key ≠ 0)
    (hrun : tableRun padding (ftExec env ft)
      (before ++ .get k value :: (mid ++ .get k value' :: later)) r₀ = .ok ((), r))
    (hputs : PutsStored padding r₀ r.1)
    (hnames : Along Core.apply (fun s => NamesInside s.cache.hmapGet s.cache) r₀.1.toCore r.1.trace)
    (hbefore : tableRun padding (ftExec env ft) before r₀ = .ok ((), s))
    (hget : tableRun padding (ftExec env ft) [.get k value] s = .ok ((), t))
    (hmid : tableRun padding (ftExec env ft) mid t = .ok ((), u))
    (hget' : tableRun padding (ftExec env ft) [.get k value'] u = .ok ((), w))
    (hothers : ∀ call ∈ mid, call.key ≠ k) (hp : t.1.cache.Mapped k p) {left right : List Event}
    (hsplit : newEvents t.1 w.1 = left ++ .refill k :: right) :
    .evicted p.chunk ∈ left ∨ .reclaimed p ∈ left := by
  have hfaithful := faithful_ftExec env ft
  have hidle := idle_of_created hs
  -- each part of the run is one over the partial map
  obtain ⟨s', hs', hrun, -, hputs, hideal, hidle₁, hcoupled₁⟩ :=
    tableRun_append_stored hfaithful before hidle hcoupled hrun hputs
  obtain rfl := (Prod.mk.inj (Except.ok.inj (hs'.symm.trans hbefore))).2
  obtain ⟨t', ht', hrun, -, hputs, hideal₁, hidle₂, hcoupled₂⟩ :=
    tableRun_append_stored hfaithful [.get k value] hidle₁ hcoupled₁ hrun hputs
  obtain rfl := (Prod.mk.inj (Except.ok.inj (ht'.symm.trans hget))).2
  obtain ⟨u', hu', hrun, -, hputs, hideal₂, hidle₃, hcoupled₃⟩ :=
    tableRun_append_stored hfaithful mid hidle₂ hcoupled₂ hrun hputs
  obtain rfl := (Prod.mk.inj (Except.ok.inj (hu'.symm.trans hmid))).2
  obtain ⟨w', hw', hrun, -, hputs, hideal₃, hidle₄, hcoupled₄⟩ :=
    tableRun_append_stored hfaithful [.get k value'] hidle₃ hcoupled₃ hrun hputs
  obtain rfl := (Prod.mk.inj (Except.ok.inj (hw'.symm.trans hget'))).2
  obtain ⟨hideal₄, -⟩ := run_of_tableRun hfaithful hidle₄ hcoupled₄ hrun hputs
  -- so the names are those between the two gets
  have hbegin : ftRun env ft (before ++ [.get k value]) r₀.1 = .ok ((), t'.1) :=
    ftRun_append.mpr ⟨s'.1, hideal, hideal₁⟩
  have hbetween : ftRun env ft (mid ++ [.get k value']) t'.1 = .ok ((), w'.1) :=
    ftRun_append.mpr ⟨u'.1, hideal₂, hideal₃⟩
  obtain ⟨es, hes⟩ := performs_ftRun hidle hbegin
  obtain ⟨fs, hfs⟩ := performs_ftRun hidle₂ hbetween
  obtain ⟨gs, hgs⟩ := performs_ftRun hidle₄ hideal₄
  rw [hs.trace_eq ((hes.trans hfs).trans hgs).trace, along_append, along_append, ← hes.1,
    ← newEvents_eq hfs] at hnames
  have hwell : WellFormed t'.1.toCore := by
    refine wellFormed_ftRun (fun call hcall => hkeys call ?_) hidle (wellFormed_of_created hs)
      hbegin
    rcases List.mem_append.mp hcall with hcall | hcall
    · exact List.mem_append_left _ hcall
    · rw [List.mem_singleton.mp hcall]
      simp
  exact refilled_for_cause (hkeys (.get k value) (by simp)) hidle₁ hwell hideal₁
    (fun call hcall => hkeys call (by simp [hcall])) hothers hideal₂ hideal₃ hnames.1.2 hp hsplit

/-- Entries are lost only for cause exactly in the runs in which every evicted chunk names no key
that lives in another chunk, and every put into the table returns 0. -/
theorem lostForCause_iff {boot : Boot} {capacity l a m : ℕ} {r₀ r : Sys × HmapTable}
    (hnew : tableCacheNewEx boot capacity l a m = some r₀) {calls : List FtCall}
    (hkeys : ∀ call ∈ calls, call.key ≠ 0) {padding : ℕ → UInt32}
    (hrun : tableRun padding (ftExec env ft) calls r₀ = .ok ((), r)) :
    LostForCause padding env ft calls r₀ r ↔ Along (applyBoth padding)
      (fun st e => NamesInside st.2.hmapGet st.1.cache e ∧ Stored padding st e) (both r₀)
        r.1.trace := by
  have hcreated := (created_of_new (tableCacheNewEx_some.mp hnew).1).1
  have hcoupled := coupled_new hnew
  have hidle := idle_of_created hcreated
  have hfaithful := faithful_ftExec env ft
  have htrace : PutsStored padding r₀ r.1 ↔
      Along (applyBoth padding) (Stored padding) (both r₀) r.1.trace :=
    putsStored_of_nil hcreated.trace
  constructor
  · intro h
    have hputs : PutsStored padding r₀ r.1 := by
      by_contra hputs
      obtain ⟨left, key, value, right, u, v, d, rfl, hu, hstored, hv, -, hd, hne, -⟩ :=
        exists_get_refused hidle (wellFormed_of_created hcreated) hcoupled hkeys hrun hputs
      have hmapped := h.held left key value right rfl u v hu hv d (.inl hd)
      obtain ⟨hu', hcoupled', -⟩ := tableRun_coupled hfaithful hidle hcoupled hu
      obtain ⟨-, hcoupled'', -⟩ := tableRun_coupled hfaithful hu' hcoupled' hv
      exact hne ((hcoupled''.simulates.get key).trans hmapped.1)
    obtain ⟨hideal, -⟩ := run_of_tableRun hfaithful hidle hcoupled hrun hputs
    obtain ⟨es, hes⟩ := performs_ftRun hidle hideal
    have halong := along_coupled hcoupled hes hputs
    have hall := (along_and r.1.trace).mpr ⟨h.outside, (along_and r.1.trace).mpr
      ⟨hcreated.trace_eq hes.trace ▸ halong, htrace.mp hputs⟩⟩
    refine along_mono r.1.trace hall ?_
    rintro st e ⟨hkeeps, ⟨hst, hst'⟩, hstored⟩
    refine ⟨?_, hstored⟩
    rw [funext hst.simulates.get]
    exact names_of_keepsOutside ((keepsOutside_congr hst hst').mp hkeeps)
  intro hboth
  obtain ⟨hnames, hputs⟩ := (along_and r.1.trace).mp hboth
  have hputs := htrace.mpr hputs
  obtain ⟨hideal, -⟩ := run_of_tableRun hfaithful hidle hcoupled hrun hputs
  obtain ⟨es, hes, hevents⟩ := along_ftEvents hkeys hidle hideal
  obtain rfl := hcreated.trace_eq hes.trace
  have halong := along_coupled hcoupled hes hputs
  have hnames' := (along_names_iff hcoupled hes hputs).mp hnames
  have hheld : ∀ before k value later, calls = before ++ .get k value :: later → ∀ s t,
      tableRun padding (ftExec env ft) before r₀ = .ok ((), s) →
      tableRun padding (ftExec env ft) [.get k value] s = .ok ((), t) →
      ∀ p, InSlot k s.1 t.1 p → t.1.cache.Mapped k p := by
    rintro before k value later rfl s t hs ht p hp
    obtain ⟨s', hs', hrun, -, hputs, -, hidle₁, hcoupled₁⟩ :=
      tableRun_append_stored hfaithful before hidle hcoupled hrun hputs
    obtain rfl := (Prod.mk.inj (Except.ok.inj (hs'.symm.trans hs))).2
    obtain ⟨t', ht', -, -, -, hget, -⟩ :=
      tableRun_append_stored hfaithful [.get k value] hidle₁ hcoupled₁ hrun hputs
    obtain rfl := (Prod.mk.inj (Except.ok.inj (ht'.symm.trans ht))).2
    obtain ⟨v, hgot⟩ := ftGot_of_run hidle₁ hget
    obtain ⟨fs, hfs, hget'⟩ := ftGot_events hgot hidle₁.wlock
    exact mapped_of_inSlot hfs.performs hget' hp
  refine ⟨?_, hheld, ?_⟩
  · have hall := (along_and r.1.trace).mpr ⟨(along_fst _ (both r₀)).mpr
      ((along_and _).mpr ⟨hevents, hnames'⟩), halong⟩
    refine along_mono _ hall ?_
    rintro st e ⟨⟨⟨_, _, he⟩, hname⟩, hst, hst'⟩
    exact (keepsOutside_congr hst hst').mpr (keepsOutside_of_names he hname)
  · rintro before k value mid value' later rfl hmid s t u w hs ht hu hw p hp left right hsplit
    by_cases hdrop : .drop k ∈ mid
    · exact .inl hdrop
    right
    have hothers : ∀ call ∈ mid, call.key ≠ k := by
      rintro (⟨k', v⟩ | k') hcall rfl
      · exact hmid v hcall
      · exact hdrop hcall
    exact refilled_for_cause_run hcreated hcoupled hkeys hrun hputs hnames' hs ht hu hw hothers
      (hheld before k value _ rfl s t hs ht p hp) hsplit

/-- Gets of the keys 1 to 33. -/
def oneTooMany : List FtCall := (List.range 33).map fun i => .get (.ofNat (i + 1)) blank

/-- Key 33 evicts chunk 0 with key 1 in it, and key 1 then chunk 0 again. -/
theorem lostForCause_evicted : ∃ r,
    tableRun (fun _ => 0) (ftExec calm byteCache) (oneTooMany ++ [.get 1 blank]) smallTable =
      .ok ((), r) ∧ .evicted 0 ∈ r.1.trace ∧
    LostForCause (fun _ => 0) calm byteCache (oneTooMany ++ [.get 1 blank]) smallTable r := by
  obtain ⟨s, hideal, hevicts, hnames⟩ : ∃ s,
      ftRun calm byteCache (oneTooMany ++ [.get 1 blank]) smallCache = .ok ((), s) ∧
      .evicted 0 ∈ s.trace ∧
      Along Core.apply (fun s => NamesInside s.cache.hmapGet s.cache) smallCache.toCore s.trace :=
    ⟨_, run_eq_unit _ _ (by decide +kernel), by decide +kernel, by decide +kernel⟩
  obtain ⟨hputs, t, hrun⟩ := tableRun_of_ftRun (fun _ => 0)
    (K := (oneTooMany.map FtCall.key).toFinset) (by decide +kernel) (by decide +kernel)
    (by decide +kernel) smallTable_new (by decide +kernel) hideal
  have hcreated := (created_of_new smallCache_new).1
  obtain ⟨es, hes⟩ := performs_ftRun (idle_of_created hcreated) hideal
  obtain rfl := hcreated.trace_eq hes.trace
  refine ⟨(s, t), hrun, hevicts, (lostForCause_iff smallTable_new (by decide) hrun).mpr
    ((along_and _).mpr ⟨?_, ?_⟩)⟩
  · exact (along_names_iff (coupled_new smallTable_new) hes hputs).mpr hnames
  · exact (putsStored_of_nil (r := smallTable) hcreated.trace).mp hputs

/-- Gets of the keys 3 to 32. -/
def fillers : List FtCall := (List.range 30).map fun i => .get (.ofNat (i + 3)) blank

/-- Gets of key 1 around those of the others. -/
def staleCalls : List FtCall :=
  [.get 1 blank, .get 2 blank] ++ .get 1 blank :: (fillers ++ .get 1 blank :: [])

/-- The first page of key 1 is reclaimed and the key filled again in chunk 2. When key 32 evicts
chunk 0 the old `keys[]` entry there takes key 1 out of the map. -/
theorem stale_key_evicted : ∃ r,
    tableRun (fun _ => 0) (ftExec (takesAt ⟨0, 0⟩ 8) byteCache) staleCalls smallTable =
      .ok ((), r) ∧
    ¬ LostForCause (fun _ => 0) (takesAt ⟨0, 0⟩ 8) byteCache staleCalls smallTable r := by
  obtain ⟨s, t, u, w, hs, ht, hu, hw, hmap, hstored, hrefill, hevict, hreclaim⟩ : ∃ s t u w,
      ftRun (takesAt ⟨0, 0⟩ 8) byteCache [.get 1 blank, .get 2 blank] smallCache = .ok ((), s) ∧
      ftRun (takesAt ⟨0, 0⟩ 8) byteCache [.get 1 blank] s = .ok ((), t) ∧
      ftRun (takesAt ⟨0, 0⟩ 8) byteCache fillers t = .ok ((), u) ∧
      ftRun (takesAt ⟨0, 0⟩ 8) byteCache [.get 1 blank] u = .ok ((), w) ∧
      t.cache.hmapGet 1 = some ⟨0, 2⟩ ∧ .allocated ⟨0, 2⟩ 1 ∈ newEvents s t ∧
      .refill 1 ∈ newEvents t w ∧ .evicted 2 ∉ newEvents t w ∧
      .reclaimed ⟨0, 2⟩ ∉ newEvents t w :=
    ⟨_, _, _, _, run_eq_unit _ _ (by decide +kernel), run_eq_unit _ _ (by decide +kernel),
      run_eq_unit _ _ (by decide +kernel), run_eq_unit _ _ (by decide +kernel), by decide +kernel,
      by decide +kernel, by decide +kernel, by decide +kernel, by decide +kernel⟩
  have hrest : ftRun (takesAt ⟨0, 0⟩ 8) byteCache
      ([.get 1 blank] ++ (fillers ++ [.get 1 blank])) s = .ok ((), w) :=
    ftRun_append.mpr ⟨t, ht, ftRun_append.mpr ⟨u, hu, hw⟩⟩
  have hideal : ftRun (takesAt ⟨0, 0⟩ 8) byteCache staleCalls smallCache = .ok ((), w) :=
    ftRun_append.mpr ⟨s, hs, hrest⟩
  obtain ⟨hputs, tw, hrun⟩ := tableRun_of_ftRun (fun _ => 0)
    (K := (staleCalls.map FtCall.key).toFinset) (by decide +kernel) (by decide +kernel)
    (by decide +kernel) smallTable_new (by decide +kernel) hideal
  have hfaithful := faithful_ftExec (takesAt ⟨0, 0⟩ 8) byteCache
  have hidle := idle_of_created (created_of_new smallCache_new).1
  have hcoupled := coupled_new smallTable_new
  obtain ⟨rs, hs', hrun₁, -, hputs₁, hs'', hidle₁, hcoupled₁⟩ :=
    tableRun_append_stored hfaithful [.get 1 blank, .get 2 blank] hidle hcoupled hrun hputs
  obtain rfl := (Prod.mk.inj (Except.ok.inj (hs''.symm.trans hs))).2
  obtain ⟨rt, ht', hrun₂, -, hputs₂, ht'', hidle₂, hcoupled₂⟩ :=
    tableRun_append_stored hfaithful [.get 1 blank] hidle₁ hcoupled₁ hrun₁ hputs₁
  obtain rfl := (Prod.mk.inj (Except.ok.inj (ht''.symm.trans ht))).2
  obtain ⟨ru, hu', hrun₃, -, hputs₃, hu'', hidle₃, hcoupled₃⟩ :=
    tableRun_append_stored hfaithful fillers hidle₂ hcoupled₂ hrun₂ hputs₂
  obtain rfl := (Prod.mk.inj (Except.ok.inj (hu''.symm.trans hu))).2
  have hother : ∀ call ∈ fillers, call.key ≠ 1 := by decide
  refine ⟨(w, tw), hrun, fun h => ?_⟩
  obtain ⟨left, right, hsplit⟩ := List.append_of_mem hrefill
  rcases h.next [.get 1 blank, .get 2 blank] 1 blank fillers blank [] rfl
    (fun v hmem => hother _ hmem rfl) rs rt ru (w, tw) hs' ht' hu' hrun₃ ⟨0, 2⟩ (.inl hstored)
    left right hsplit with hdrop | hleft | hleft
  · exact hother _ hdrop rfl
  · exact hevict (by rw [hsplit]; exact List.mem_append_left _ hleft)
  · exact hreclaim (by rw [hsplit]; exact List.mem_append_left _ hleft)

end LazyfreeCache.EntryLoss
