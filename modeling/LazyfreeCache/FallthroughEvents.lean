import LazyfreeCache.Frames

/-!
The events of the fallthrough calls. A hit leaves only kernel reclaims behind;
a miss is one refill, at most one eviction, advised chunks, one allocation for
the key, stores to the new page and its commit, in this order.
-/
namespace LazyfreeCache.FallthroughEvents

open EventReplay State LazyfreeOps FallthroughOps Refinement Reads Allocation Writes
open Fallthrough Frames

/-- The events lead from `s` to `t` and act for the key, and the kernel reclaims
only pages it wanted at one of the accesses in between. -/
structure Acts (env : Env) (key : Key) (s t : Sys) (es : List Event) : Prop where
  performs : Performs s t es
  along : Along Core.apply (ActsFor key) s.toCore es
  clock : s.clock ≤ t.clock
  wanted : ∀ d, .reclaimed d ∈ es → ∃ τ, s.clock ≤ τ ∧ τ < t.clock ∧ d ∈ env.reclaim τ

variable {key : Key} {env : Env} {s t u : Sys} {es fs : List Event} {d : EntryDescriptor}

theorem Acts.trans (h : Acts env key s t es) (h' : Acts env key t u fs) :
    Acts env key s u (es ++ fs) := by
  have hst := h.clock
  have htu := h'.clock
  refine ⟨h.performs.trans h'.performs, ?_, hst.trans htu, ?_⟩
  · rw [along_append, ← h.performs.1]
    exact ⟨h.along, h'.along⟩
  · intro d hd
    rcases List.mem_append.mp hd with hd | hd
    · obtain ⟨τ, hle, hlt, hmem⟩ := h.wanted d hd
      exact ⟨τ, hle, by omega, hmem⟩
    · obtain ⟨τ, hle, hlt, hmem⟩ := h'.wanted d hd
      exact ⟨τ, by omega, hlt, hmem⟩

theorem acts_refl (env : Env) (key : Key) (s : Sys) : Acts env key s s [] :=
  ⟨performs_refl s, trivial, Nat.le_refl _, by simp⟩

/-- The event changes pages at most. -/
def Quiet : Event → Prop
  | .reclaimed _ => True
  | .stored _ _ _ => True
  | _ => False

theorem cache_replay_quiet (s : Core) (hquiet : ∀ e ∈ es, Quiet e) :
    (replay Core.apply s es).cache = s.cache := by
  refine replay_frame Core.cache Quiet ?_ es hquiet
  intro s e he
  cases e <;> first | rfl | exact he.elim

theorem cache_of_quiet (hperf : Performs s t es) (hquiet : ∀ e ∈ es, Quiet e) :
    t.cache = s.cache := by
  rw [show t.cache = t.toCore.cache from rfl, hperf.1]
  exact cache_replay_quiet s.toCore hquiet

theorem acts_event (env : Env) {e : Event} (henabled : s.toCore.Enabled e)
    (hacts : ActsFor key s.toCore e) (hkind : ∀ d, e ≠ .reclaimed d) :
    Acts env key s (perform s e) [e] :=
  ⟨performs_perform henabled, ⟨hacts, trivial⟩, Nat.le_refl _,
    fun d hd => absurd (List.mem_singleton.mp hd).symm (hkind d)⟩

theorem along_reclaimed {s : Core} (ds : List EntryDescriptor) :
    Along Core.apply (ActsFor key) s (ds.map .reclaimed) := by
  induction ds generalizing s with
  | nil => trivial
  | cons d ds ih => exact ⟨trivial, ih⟩

theorem quiet_reclaimed (ds : List EntryDescriptor) :
    ∀ e ∈ ds.map Event.reclaimed, Quiet e := by
  intro e he
  obtain ⟨d, -, rfl⟩ := List.mem_map.mp he
  trivial

theorem acts_kernel (env : Env) (key : Key) (s : Sys) :
    Acts env key s (s.kernel env) ((taken env s).map .reclaimed) := by
  refine ⟨performs_kernel env s, along_reclaimed _, Nat.le_succ _, ?_⟩
  intro d hd
  obtain ⟨p, hp, heq⟩ := List.mem_map.mp hd
  cases heq
  exact ⟨s.clock, Nat.le_refl _, Nat.lt_succ_self _, List.mem_of_mem_filter hp⟩

theorem acts_after (env : Env) (key : Key) (n : ℕ) (s : Sys) :
    ∃ es, Acts env key s (after env n s) es ∧ ∀ e ∈ es, ∃ p, e = .reclaimed p := by
  induction n generalizing s with
  | zero => exact ⟨[], acts_refl env key s, by simp⟩
  | succ n ih =>
    obtain ⟨es, hes, hkind⟩ := ih (s.kernel env)
    refine ⟨_, (acts_kernel env key s).trans hes, ?_⟩
    intro e he
    rcases List.mem_append.mp he with he | he
    · obtain ⟨p, -, rfl⟩ := List.mem_map.mp he
      exact ⟨p, rfl⟩
    · exact hkind e he

theorem acts_storing (env : Env) {offset : ℕ} {v : UInt8} (hlabel : s.cache.label d = key)
    (h : (∃ k, s.cache.wlock = some ⟨d, k⟩) ∨ (s.cache.wlock = none ∧ offset = 0)) :
    ∃ es, Acts env key s (storing env s d offset v) es ∧ ∀ e ∈ es, Quiet e := by
  refine ⟨_, (acts_kernel env key s).trans (acts_event env ?_ hlabel (by simp)), ?_⟩
  · exact h
  · intro e he
    rcases List.mem_append.mp he with he | he
    · exact quiet_reclaimed _ e he
    · rw [List.mem_singleton.mp he]
      trivial

theorem quiet_append (hes : ∀ e ∈ es, Quiet e) (hfs : ∀ e ∈ fs, Quiet e) :
    ∀ e ∈ es ++ fs, Quiet e := by
  intro e he
  exact (List.mem_append.mp he).elim (hes e) (hfs e)

theorem Acts.quiet_trans (h : ∃ es, Acts env key s t es ∧ ∀ e ∈ es, Quiet e)
    (h' : ∃ es, Acts env key t u es ∧ ∀ e ∈ es, Quiet e) :
    ∃ es, Acts env key s u es ∧ ∀ e ∈ es, Quiet e := by
  obtain ⟨es, hes, hq⟩ := h
  obtain ⟨fs, hfs, hq'⟩ := h'
  exact ⟨es ++ fs, hes.trans hfs, quiet_append hq hq'⟩

theorem acts_after_quiet (env : Env) (key : Key) (n : ℕ) (s : Sys) :
    ∃ es, Acts env key s (after env n s) es ∧ ∀ e ∈ es, Quiet e := by
  obtain ⟨es, hes, hkind⟩ := acts_after env key n s
  refine ⟨es, hes, fun e he => ?_⟩
  obtain ⟨p, rfl⟩ := hkind e he
  trivial

theorem acts_pinned (env : Env) (hlabel : s.cache.label d = key) (hw : s.cache.wlock = none) :
    ∃ es, Acts env key s (pinned env s d) es ∧ ∀ e ∈ es, Quiet e := by
  have hstore : ∃ es, Acts env key (after env 1 s) (storing env (after env 1 s) d 0 1) es ∧
      ∀ e ∈ es, Quiet e := by
    refine acts_storing env ?_ (.inr ⟨?_, rfl⟩)
    · rw [cache_after, hlabel]
    · rw [cache_after, hw]
  exact Acts.quiet_trans (acts_after_quiet env key 1 s)
    (Acts.quiet_trans hstore (acts_after_quiet env key 1 _))

/-- The pin is taken off again, by one store. -/
theorem acts_unpin (env : Env) (v : UInt8) (hlabel : s.cache.label d = key)
    (hw : s.cache.wlock = none) :
    ∃ es, Acts env key s (storing env (pinned env s d) d 0 v) es ∧ ∀ e ∈ es, Quiet e := by
  refine Acts.quiet_trans (acts_pinned env hlabel hw) (acts_storing env ?_ (.inr ⟨?_, rfl⟩))
  · rw [cache_pinned, hlabel]
  · rw [cache_pinned, hw]

theorem cleared_acts (h : Cleared env s key u) (hw : s.cache.wlock = none) :
    ∃ es, Acts env key s u es ∧ ∀ e ∈ es, Quiet e := by
  cases h with
  | untouched => exact ⟨[], acts_refl env key s, by simp⟩
  | unpinned p hmapped hdead => exact acts_unpin env 0 hmapped.2 hw

theorem acts_copying (env : Env) (offset : ℕ) (value : Buffer) (n i : ℕ)
    (hlabel : s.cache.label d = key) (hw : s.cache.wlock = some ⟨d, key⟩) :
    ∃ es, Acts env key s (copying env d offset value n i s) es ∧ ∀ e ∈ es, Quiet e := by
  induction n generalizing i s with
  | zero => exact ⟨[], acts_refl env key s, by simp⟩
  | succ n ih =>
    exact Acts.quiet_trans (acts_storing env hlabel (.inl ⟨key, hw⟩)) (ih (i + 1) hlabel hw)

theorem acts_sealed (env : Env) (hlabel : s.cache.label d = key)
    (hw : s.cache.wlock = some ⟨d, key⟩) :
    ∃ es bit, Acts env key s (sealed env s ⟨d, key⟩) (es ++ [.committed ⟨d, key⟩ bit]) ∧
      ∀ e ∈ es, Quiet e := by
  have hw2 : (after env 2 s).cache.wlock = some ⟨d, key⟩ := by rw [cache_after, hw]
  have hlabel2 : (after env 2 s).cache.label d = key := by rw [cache_after, hlabel]
  obtain ⟨es, hes, hquiet⟩ := Acts.quiet_trans (acts_after_quiet env key 2 s)
    (acts_storing env hlabel2 (.inl ⟨key, hw2⟩))
  exact ⟨es, _, hes.trans (acts_event env hw2 hlabel2 (by simp)), hquiet⟩

theorem acts_searched {j : ℕ} (hw : s.cache.wlock = none)
    (hfull : ∀ i < j, Full (searched env s i)) :
    Acts env key s (searched env s j) (searchEvents env s j) := by
  refine ⟨performs_searched hw hfull, along_of_forall _ ?_, ?_, ?_⟩
  · intro e he t
    rcases mem_searchEvents he with ⟨c, rfl⟩ | ⟨c, rfl⟩ <;> trivial
  · rw [clock_searched]
  · intro d hd
    rcases mem_searchEvents hd with ⟨c, hc⟩ | ⟨c, hc⟩ <;> cases hc

/-- The events of an allocation for the key and of filling the new page. -/
theorem acts_filled (key : Key) (ft : FtCache) (value : Buffer) {j : ℕ} (hw : u.cache.wlock = none)
    (hfinds : Finds env u j d) :
    ∃ es bit, Acts env key u (filled env ft key value u j d)
        (searchEvents env u j ++ .allocated d key :: (es ++ [.committed ⟨d, key⟩ bit])) ∧
      ∀ e ∈ es, Quiet e := by
  have hlabel : (perform (searched env u j) (.allocated d key)).cache.label d = key := by
    change ((searched env u j).cache.allocate d key).label d = key
    rw [Cache.label_allocate, if_pos rfl]
  have hsearch : Acts env key u (searched env u j) (searchEvents env u j) :=
    acts_searched hw hfinds.before
  have halloc : Acts env key (searched env u j) _ [.allocated d key] :=
    acts_event env ⟨(wlock_searched env u j).trans hw, hfinds.ready⟩ rfl (by simp)
  obtain ⟨es, hes, hquiet⟩ := acts_copying env (pageSize - ft.entrySize) (entry ft key value)
    ft.entrySize 0 hlabel rfl
  have hlabel' : (copying env d (pageSize - ft.entrySize) (entry ft key value) ft.entrySize 0
      (perform (searched env u j) (.allocated d key))).cache.label d = key := by
    rw [cache_copying]
    exact hlabel
  obtain ⟨fs, bit, hfs, hquiet'⟩ := acts_sealed env hlabel' (by rw [cache_copying]; rfl)
  refine ⟨es ++ fs, bit, ?_, quiet_append hquiet hquiet'⟩
  have hall := ((hsearch.trans halloc).trans hes).trans hfs
  unfold filled
  simpa using hall

theorem clock_copying (env : Env) (page : EntryDescriptor) (offset : ℕ) (value : Buffer)
    (n i : ℕ) (s : Sys) : (copying env page offset value n i s).clock = s.clock + n := by
  induction n generalizing i s with
  | zero => rfl
  | succ n ih =>
    unfold copying
    rw [ih]
    change s.clock + 1 + n = _
    omega

theorem clock_sealed (env : Env) (s : Sys) (w : WLock) :
    (sealed env s w).clock = s.clock + 3 := by
  change (after env 2 s).clock + 1 = _
  rw [clock_after]

theorem clock_filled (env : Env) (ft : FtCache) (key : Key) (value : Buffer) (u : Sys) (j : ℕ)
    (d : EntryDescriptor) :
    (filled env ft key value u j d).clock = u.clock + ft.entrySize + 3 := by
  unfold filled
  rw [clock_sealed, clock_copying]
  change (searched env u j).clock + _ + _ = _
  rw [clock_searched]

/-- The way to the allocation of a miss. -/
theorem acts_cleared {n : ℕ} (hu : Cleared env (refilled (after env n s) key) key u)
    (hw : s.cache.wlock = none) : ∃ es, Acts env key s u es ∧ u.cache = s.cache := by
  have hwn : (after env n s).cache.wlock = none := by rw [cache_after, hw]
  obtain ⟨qs, hqs, -⟩ := acts_after env key n s
  have hrefill : Acts env key (after env n s) (refilled (after env n s) key) [.refill key] :=
    acts_event env hwn trivial (by simp)
  obtain ⟨qs', hqs', hquiet⟩ := cleared_acts hu hwn
  refine ⟨_, (hqs.trans hrefill).trans hqs', ?_⟩
  rw [cache_of_quiet hqs'.performs hquiet]
  exact cache_after env n s

/-- The events of one `ft_cache_get`. -/
inductive GetEvents (env : Env) (key : Key) (s : Sys) : List Event → Prop
  | hit (d : EntryDescriptor) (es : List Event) (hmapped : s.cache.Mapped key d)
      (halive : Alive s.toCore d) (hes : ∀ e ∈ es, ∃ p, e = .reclaimed p) :
      GetEvents env key s es
  | miss (n : ℕ) (u : Sys) (j : ℕ) (d : EntryDescriptor) (bit : Bool) (qs qs' qs'' : List Event)
      (hmissing : Missing env s key n) (hafter : Performs s (after env n s) qs)
      (hu : u.cache = s.cache) (hfinds : Finds env u j d)
      (hperf : Performs s u (qs ++ .refill key :: qs'))
      (hqs : ∀ e ∈ qs, ∃ p, e = .reclaimed p) (hqs' : ∀ e ∈ qs', Quiet e)
      (hqs'' : ∀ e ∈ qs'', Quiet e) :
      GetEvents env key s (qs ++ .refill key :: qs' ++
        (searchEvents env u j ++ .allocated d key :: (qs'' ++ [.committed ⟨d, key⟩ bit])))

theorem ftGot_events {ft : FtCache} {value v : Buffer} (h : FtGot env ft key value s v t)
    (hw : s.cache.wlock = none) : ∃ es, Acts env key s t es ∧ GetEvents env key s es := by
  cases h with
  | hit d v hmapped halive hv =>
    obtain ⟨es, hes, hkind⟩ := acts_after env key (ft.entrySize + 7) s
    exact ⟨es, hes, .hit d es hmapped (alive_of_alive_after halive) hkind⟩
  | miss n u j d hn hmissing hu hfinds =>
    have hwn : (after env n s).cache.wlock = none := by rw [cache_after, hw]
    obtain ⟨qs, hqs, hkind⟩ := acts_after env key n s
    have hrefill : Acts env key (after env n s) (refilled (after env n s) key) [.refill key] :=
      acts_event env hwn trivial (by simp)
    obtain ⟨qs', hqs', hquiet'⟩ := cleared_acts hu hwn
    have hcache : u.cache = s.cache := by
      rw [cache_of_quiet hqs'.performs hquiet']
      change (after env n s).cache = _
      rw [cache_after]
    obtain ⟨qs'', bit, hqs'', hquiet''⟩ := acts_filled key ft value
      (by rw [hcache, hw]) hfinds
    have hpre : Acts env key s u (qs ++ .refill key :: qs') := by
      simpa using (hqs.trans hrefill).trans hqs'
    exact ⟨_, hpre.trans hqs'', .miss n u j d bit qs qs' qs'' hmissing hqs.performs hcache hfinds
      hpre.performs hkind hquiet' hquiet''⟩

theorem searches_quiet (hquiet : ∀ e ∈ es, Quiet e) : Searches es :=
  searches_of_forall fun e he hopens => by
    have hq := hquiet e he
    cases e <;> first | exact hq.elim | exact hopens.elim

theorem searches_reclaimed (hes : ∀ e ∈ es, ∃ p, e = .reclaimed p) : Searches es :=
  searches_quiet fun e he => by
    obtain ⟨p, rfl⟩ := hes e he
    trivial

theorem GetEvents.searches (h : GetEvents env key s es) : Searches es := by
  cases h with
  | hit d es hmapped halive hes => exact searches_reclaimed hes
  | miss n u j d bit qs qs' qs'' hmissing hafter hu hfinds hperf hqs hqs' hqs'' =>
    have hrefill : Searches (.refill key :: qs') := ⟨fun h => h.elim, searches_quiet hqs'⟩
    have hcommit : Searches (qs'' ++ [.committed ⟨d, key⟩ bit]) :=
      (searches_quiet hqs'').append ⟨fun h => h.elim, trivial⟩
    exact ((searches_reclaimed hqs).append hrefill).append (searches_found env u j d key hcommit)

/-- The events of one `ft_cache_drop`. -/
theorem ftDropped_events {b : Bool} (h : FtDropped env key s b t) (hw : s.cache.wlock = none)
    (hhanded : ∀ d, s.cache.Mapped key d → s.HandedOut d) :
    ∃ es, Acts env key s t es ∧ (∃ qs, (∀ e ∈ qs, ∃ p, e = Event.reclaimed p) ∧
      ((b = false ∧ es = qs) ∨
        ∃ d, s.cache.Mapped key d ∧ b = true ∧ es = qs ++ [.dropped d key])) := by
  cases h with
  | miss n hn hmissing =>
    obtain ⟨es, hes, hkind⟩ := acts_after env key n s
    exact ⟨es, hes, es, hkind, .inl ⟨rfl, rfl⟩⟩
  | hit d hmapped halive hfree =>
    obtain ⟨es, hes, hkind⟩ := acts_after env key 4 s
    have hdrop : Acts env key (after env 4 s) (perform (after env 4 s) (.dropped d key))
        [.dropped d key] := by
      refine acts_event env ⟨?_, ?_, .inl ⟨?_, ?_⟩⟩ rfl (by simp)
      · rw [cache_after]
        exact hmapped.2
      · rw [cache_after]
        exact hfree
      · rw [cache_after, hw]
      · exact hes.performs.handedOut (hhanded d hmapped)
    exact ⟨_, hes.trans hdrop, es, hkind, .inr ⟨d, hmapped, rfl, rfl⟩⟩

end LazyfreeCache.FallthroughEvents
