import LazyfreeCache.TableCache

/-!
Fallthrough runs on the real table. A get makes one put at most, and the table
is not touched after it. So at the first put that is refused the get has stored
its page and returns, and the table does not lead to that page.
-/
namespace LazyfreeCache.LostPuts

open ReferenceSet Hashmap ProgramLogic EventReplay State LazyfreeOps FallthroughOps Refinement
open Reads Allocation Fallthrough FallthroughEvents Accounting Client Slots FtRuns HmapAccess
open HmapRuns TableCache HasSys

variable {padding : ℕ → UInt32} {env : Env} {ft : FtCache} {key : Key} {st : Core × HmapTable}
  {es : List Event} {r r' : Sys × HmapTable} {calls : List FtCall}

/-- The event puts nothing into the table. -/
def PutsNothing (e : Event) : Prop := ∀ d k, e ≠ .allocated d k

/-- The event makes no call on the table. -/
def Still : Event → Prop
  | .evicted _ | .allocated _ _ | .dropped _ _ => False
  | _ => True

theorem putsNothing_of_still {e : Event} (h : Still e) : PutsNothing e := by
  rintro d k rfl
  exact h

theorem still_of_quiet (h : ∀ e ∈ es, Quiet e) : ∀ e ∈ es, Still e := by
  intro e he
  have hquiet := h e he
  cases e <;> trivial

theorem still_of_reclaimed (h : ∀ e ∈ es, ∃ p, e = .reclaimed p) : ∀ e ∈ es, Still e := by
  intro e he
  obtain ⟨p, rfl⟩ := h e he
  trivial

theorem snd_replay_still (hstill : ∀ e ∈ es, Still e) (st : Core × HmapTable) :
    (replay (applyBoth padding) st es).2 = st.2 := by
  refine replay_frame Prod.snd Still ?_ es hstill
  intro st e he
  cases e <;> first | rfl | exact he.elim

theorem along_stored_of_putsNothing (h : ∀ e ∈ es, PutsNothing e) :
    Along (applyBoth padding) (Stored padding) st es :=
  along_of_forall es fun e he _ d k hek _ => absurd hek (h e he d k)

/-! ### Calls that put one key at most -/

section Settle
variable {σ : Type} [HasSys σ] {q : σ × HmapTable} {x : σ}

/-- A call that makes no call on the table leaves it as it is. -/
theorem settle_of_still (padding : ℕ → UInt32) (hq : Coupled (both q))
    (hperf : Performs (sys q.1) (sys x) es) (hstill : ∀ e ∈ es, Still e) :
    settle padding q x = (x, q.2) := by
  obtain ⟨hsettle, -⟩ := settle_of_stored hq hperf
    (along_stored_of_putsNothing fun e he => putsNothing_of_still (hstill e he))
  rw [hsettle, snd_replay_still hstill]
  rfl

/-- A call whose last event hands out a page ends with a put on the table. -/
theorem snd_settle_put (padding : ℕ → UInt32) {d : EntryDescriptor}
    (hperf : Performs (sys q.1) (sys x) (es ++ [.allocated d key])) :
    ∃ bytes, (settle padding q x).2 =
      (replay (applyBoth padding) (both q) es).2.hmapPut key d bytes := by
  unfold settle
  rw [newEvents_eq hperf, replay_append]
  exact ⟨_, rfl⟩

/-- A call whose last event hands out a page is the call over the partial map, if the table leads
to that page in the end. -/
theorem settle_of_leads {d : EntryDescriptor} (hq : Coupled (both q))
    (hperf : Performs (sys q.1) (sys x) (es ++ [.allocated d key]))
    (hes : ∀ e ∈ es, PutsNothing e) (hleads : (settle padding q x).2.hmapGet key = some d) :
    (settle padding q x).1 = x := by
  have hallowed := hperf.2
  rw [along_append] at hallowed
  have hcoupled : Coupled (replay (applyBoth padding) (both q) es) :=
    replay_invariant Coupled coupled_step es hq ((along_and es).mpr
      ⟨(along_fst es (both q)).mpr hallowed.1, along_stored_of_putsNothing hes⟩)
  obtain ⟨bytes, htable⟩ := snd_settle_put padding hperf
  have hcache : (sys x).cache =
      (replay (applyBoth padding) (both q) es).1.cache.allocate d key := by
    have hcore := hperf.1
    rw [replay_append] at hcore
    rw [fst_replay]
    exact congrArg Core.cache hcore
  have hready : (replay (applyBoth padding) (both q) es).1.Enabled (.allocated d key) := by
    rw [fst_replay]
    exact hallowed.2.1
  refine reanswer_of_agree fun k => ?_
  change (settle padding q x).2.hmapGet k = _
  rw [hcache, Cache.hmapGet_allocate]
  split
  · rename_i hk
    rw [hk]
    exact hleads
  · rename_i hk
    have hlt := ready_index_lt hcoupled.accounted hready.2
    have hpages := hcoupled.accounted.pages
    rw [htable, hmapGet_hmapPut_of_ne hcoupled.simulates.intact (by omega) hk]
    exact hcoupled.simulates.get k

end Settle

/-- Without a put the table finds nothing new. -/
theorem hmapGet_of_putsNothing (h : Intact st.2) (hes : ∀ e ∈ es, PutsNothing e) {k : Key}
    {d : EntryDescriptor} (hd : (replay (applyBoth padding) st es).2.hmapGet k = some d) :
    st.2.hmapGet k = some d := by
  refine (replay_invariant (P := fun _ e => PutsNothing e)
    (fun st' : Core × HmapTable => Intact st'.2 ∧
      ∀ k d, st'.2.hmapGet k = some d → st.2.hmapGet k = some d) ?_ es ⟨h, fun _ _ h => h⟩
    (along_of_forall es fun e he _ => hes e he)).2 k d hd
  rintro st' e ⟨hintact, hless⟩ he
  refine ⟨intact_step st' e hintact, fun k d hd => hless k d ?_⟩
  cases e with
  | evicted c => exact hmapGet_of_removeKeys hintact _ _ hd
  | allocated d k => exact absurd rfl (he d k)
  | dropped d k => exact hmapGet_of_remove hintact hd
  | _ => exact hd

/-- The one put of a get, if it makes one. -/
theorem getEvents_put {s : Sys} (h : GetEvents env key s es) : (∀ e ∈ es, PutsNothing e) ∨
    ∃ before d after, es = before ++ .allocated d key :: after ∧
      (∀ e ∈ before, PutsNothing e ∧ DropsKey e) ∧ ∀ e ∈ after, Still e := by
  cases h with
  | hit d es hmapped halive hes =>
    exact .inl fun e he => putsNothing_of_still (still_of_reclaimed hes e he)
  | miss n u j d bit qs qs' qs'' hmissing hafter hu hfinds hperf hqs hqs' hqs'' =>
    refine .inr ⟨_, d, _, (List.append_assoc _ _ _).symm, fun e he => ?_, fun e he => ?_⟩
    · rcases List.mem_append.mp he with he | hsearch
      · rcases List.mem_append.mp he with he | he
        · obtain ⟨p, rfl⟩ := hqs e he
          exact ⟨by simp [PutsNothing], trivial⟩
        · rcases List.mem_cons.mp he with rfl | he
          · exact ⟨by simp [PutsNothing], trivial⟩
          · have hquiet := hqs' e he
            cases e <;> first | exact hquiet.elim | exact ⟨by simp [PutsNothing], trivial⟩
      · rcases mem_searchEvents hsearch with ⟨c, rfl⟩ | ⟨c, rfl⟩ <;>
          exact ⟨by simp [PutsNothing], trivial⟩
    · rcases List.mem_append.mp he with he | he
      · exact still_of_quiet hqs'' e he
      · rw [List.mem_singleton.mp he]
        trivial

/-- A get of a missing key makes one call on the table, if it evicts no chunk. -/
theorem snd_replay_get {env : Env} {s : Sys} {es : List Event} (h : GetEvents env key s es)
    (hmissing : s.cache.hmapGet key = none) (hkept : ∀ c, .evicted c ∉ es)
    (st : Core × HmapTable) :
    ∃ d bytes, (replay (applyBoth padding) st es).2 = st.2.hmapPut key d bytes := by
  cases h with
  | hit d es hmapped halive hes =>
    cases hmissing.symm.trans hmapped.1
  | miss n u j d bit qs qs' qs'' hm hafter hu hfinds hperf hqs hqs' hqs'' =>
    have hbefore : ∀ e ∈ qs ++ .refill key :: qs' ++ searchEvents env u j, Still e := by
      intro e he
      rcases List.mem_append.mp he with he' | hsearch
      · rcases List.mem_append.mp he' with he' | he'
        · obtain ⟨p, rfl⟩ := hqs e he'
          trivial
        · rcases List.mem_cons.mp he' with rfl | he'
          · trivial
          · exact still_of_quiet hqs' e he'
      · rcases mem_searchEvents hsearch with ⟨c, rfl⟩ | ⟨c, rfl⟩
        · exact absurd (List.mem_append_right _ (List.mem_append_left _ hsearch)) (hkept c)
        · trivial
    have hafter : ∀ e ∈ qs'' ++ [Event.committed ⟨d, key⟩ bit], Still e := by
      intro e he
      rcases List.mem_append.mp he with he | he
      · exact still_of_quiet hqs'' e he
      · rw [List.mem_singleton.mp he]
        trivial
    rw [← List.append_assoc, replay_append, replay_cons, snd_replay_still hafter,
      ← snd_replay_still hbefore st]
    exact ⟨d, _, rfl⟩

/-- A get whose put is refused stores a page to which the table does not lead, and the table finds
nothing that it did not find before. -/
theorem get_refused {s : Sys} (hst : Coupled st) (hwell : WellFormed st.1) (hkey : key ≠ 0)
    (hget : GetEvents env key s es) (hallowed : Along Core.apply Core.Enabled st.1 es)
    (hputs : ¬ Along (applyBoth padding) (Stored padding) st es) :
    ∃ d, .allocated d key ∈ es ∧ (replay (applyBoth padding) st es).2.hmapGet key ≠ some d ∧
      ∀ k p, (replay (applyBoth padding) st es).2.hmapGet k = some p →
        st.2.hmapGet k = some p := by
  rcases getEvents_put hget with hnothing | ⟨before, d, after, rfl, hbefore, hafter⟩
  · exact absurd (along_stored_of_putsNothing hnothing) hputs
  rw [along_append] at hallowed
  have hboth : Along (applyBoth padding) (fun st e => st.1.Enabled e ∧ Stored padding st e) st
      before := (along_and before).mpr ⟨(along_fst before st).mpr hallowed.1,
        along_stored_of_putsNothing fun e he => (hbefore e he).1⟩
  have hcoupled := replay_invariant Coupled coupled_step before hst hboth
  have hwell' : WellFormed (replay (applyBoth padding) st before).1 := by
    rw [fst_replay]
    exact replay_invariant WellFormed (fun s e hs he => wellFormed_step s e hs he.1 he.2) before
      hwell ((along_and before).mpr ⟨hallowed.1, along_of_forall before fun e he _ =>
        (hbefore e he).2⟩)
  -- the put is the one of the page that is handed out
  have hrefused : (hashmapPut (replay (applyBoth padding) st before).2.map key (entryOf d
      (padding (replay (applyBoth padding) st before).1.trace.length))).1 ≠ 0 := by
    intro hcode
    refine hputs ((along_append _ _).mpr ⟨((along_and before).mp hboth).2, ?_,
      along_stored_of_putsNothing fun e he => putsNothing_of_still (hafter e he)⟩)
    intro d' k' heq _
    cases heq
    exact hcode
  have hsame : ∀ k, (replay (applyBoth padding) st (before ++ .allocated d key :: after)).2.hmapGet
      k = (replay (applyBoth padding) st before).2.hmapGet k := by
    intro k
    rw [replay_append, replay_cons, snd_replay_still hafter]
    exact hmapGet_hmapPut_refused hcoupled.simulates.proper hkey hrefused k
  refine ⟨d, by simp, ?_, fun k p hp => ?_⟩
  · rw [hsame, hcoupled.simulates.get key]
    have hready : (replay (applyBoth padding) st before).1.Enabled (.allocated d key) := by
      rw [fst_replay]
      exact hallowed.2.1
    exact hwell'.ready_unmapped hready.2 hkey
  · rw [hsame] at hp
    exact hmapGet_of_putsNothing hst.simulates.intact (fun e he => (hbefore e he).1) hp

theorem putsNothing_ftDropped {s t : Sys} {b : Bool} (hs : Idle s) (h : FtDropped env key s b t) :
    ∃ es, Performs s t es ∧ ∀ e ∈ es, PutsNothing e := by
  obtain ⟨es, hes, qs, hqs, hcases⟩ := ftDropped_events h hs.wlock hs.handedOut
  have hnothing : ∀ e ∈ qs, PutsNothing e := fun e he =>
    putsNothing_of_still (still_of_reclaimed hqs e he)
  refine ⟨es, hes.performs, ?_⟩
  rcases hcases with ⟨-, rfl⟩ | ⟨d, -, -, rfl⟩
  · exact hnothing
  · intro e he
    rcases List.mem_append.mp he with he | he
    · exact hnothing e he
    · rw [List.mem_singleton.mp he]
      simp [PutsNothing]

/-- If the puts of a fallthrough run on nonzero keys do not all return 0, then before some get the
run is one over the partial map, and that get stores a page that the table does not lead to. -/
theorem exists_get_refused (hidle : Idle r.1) (hwell : WellFormed r.1.toCore)
    (hr : Coupled (both r)) (hkeys : ∀ call ∈ calls, call.key ≠ 0)
    (hrun : tableRun padding (ftExec env ft) calls r = .ok ((), r'))
    (hputs : ¬ PutsStored padding r r'.1) :
    ∃ left key value right u v d, calls = left ++ .get key value :: right ∧
      tableRun padding (ftExec env ft) left r = .ok ((), u) ∧ PutsStored padding r u.1 ∧
      tableRun padding (ftExec env ft) [.get key value] u = .ok ((), v) ∧
      tableRun padding (ftExec env ft) right v = .ok ((), r') ∧
      .allocated d key ∈ newEvents u.1 v.1 ∧ v.2.hmapGet key ≠ some d ∧
      ∀ k p, v.2.hmapGet k = some p → u.2.hmapGet k = some p := by
  have hfaithful := faithful_ftExec env ft
  obtain ⟨left, call, right, u, x, rfl, hleft, hstored, hx, hnot, hright⟩ :=
    exists_first_refused hfaithful hidle hr hrun hputs
  obtain ⟨hu, hcoupled, -⟩ := tableRun_coupled hfaithful hidle hr hleft
  obtain ⟨hideal, -⟩ := run_of_tableRun hfaithful hidle hr hleft hstored
  have hwell' := wellFormed_ftRun (fun call hcall => hkeys call (List.mem_append_left _ hcall))
    hidle hwell hideal
  have hone : tableRun padding (ftExec env ft) [call] u = .ok ((), settle padding u x) :=
    (runAll_cons_ok _).mpr ⟨_, onTable_ok.mpr ⟨x, hx, rfl⟩, rfl⟩
  cases ftStep_of_ok hu hx with
  | get key value w x h =>
    obtain ⟨es, hes, hget⟩ := ftGot_events h hu.wlock
    have hevents : newEvents u.1 x = es := newEvents_eq hes.performs
    obtain ⟨d, hd, hne, hless⟩ := get_refused hcoupled hwell'
      (hkeys (.get key value) (by simp)) hget hes.performs.2
      ((putsStored_iff hes.performs).not.mp hnot)
    have hsettle : (settle padding u x).2 = (replay (applyBoth padding) (both u) es).2 := by
      rw [← hevents]
      rfl
    rw [← hsettle] at hne hless
    refine ⟨left, key, value, right, u, settle padding u x, d, rfl, hleft, hstored, hone, hright,
      ?_, hne, hless⟩
    rw [show newEvents u.1 (settle padding u x).1 = es from hevents]
    exact hd
  | drop key b x h =>
    obtain ⟨es, hes, hnothing⟩ := putsNothing_ftDropped hu h
    exact absurd ((putsStored_iff hes).mpr (along_stored_of_putsNothing hnothing)) hnot

/-! ### Keys that do not crowd -/

theorem performs_onKeys {K : Key → Prop} {s t : Sys} (hkeys : ∀ call ∈ calls, K call.key)
    (hs : Idle s) (hrun : ftRun env ft calls s = .ok ((), t)) :
    ∃ es, Performs s t es ∧ ∀ e ∈ es, OnKeys K e := by
  refine (ftRun_invariant (fun t => ∃ es, Performs s t es ∧ ∀ e ∈ es, OnKeys K e) ?_ hs
    ⟨[], performs_refl s, by simp⟩ hrun).2
  rintro u call hcall v hu ⟨es, hes, hes'⟩ h
  obtain ⟨fs, hfs⟩ := ftStep_acts hu h
  exact ⟨es ++ fs, hes.trans hfs.performs, fun e he => (List.mem_append.mp he).elim (hes' e)
    (onKeys_of_acts (hkeys call hcall) hfs e)⟩

/-- A fallthrough run on keys that do not crowd is one on the real table, and all its puts return
0. -/
theorem tableRun_of_ftRun (padding : ℕ → UInt32) {K : Finset Key} (hK : Uncrowded exactKeyHasher K)
    (hcard : K.card < 2 ^ 31) (hzero : 0 ∉ K) {boot : Boot} {capacity l a m : ℕ}
    (hnew : tableCacheNewEx boot capacity l a m = some r) (hkeys : ∀ call ∈ calls, call.key ∈ K)
    {s : Sys} (hrun : ftRun env ft calls r.1 = .ok ((), s)) :
    PutsStored padding r s ∧
      ∃ t, tableRun padding (ftExec env ft) calls r = .ok ((), s, t) := by
  obtain ⟨hcreated, -⟩ := tableCacheNewEx_some.mp hnew
  have hs := (created_of_new hcreated).1
  have hcoupled : Coupled (both r) := coupled_new hnew
  obtain ⟨es, hes, hes'⟩ := performs_onKeys (K := OrZero K) (fun call hcall => .inr
    (hkeys call hcall)) (idle_of_created hs) hrun
  have hputs : PutsStored padding r s :=
    putsStored_of_uncrowded hK hcard hzero hcoupled (keysInside_created hs) hes hes'
  exact ⟨hputs, _, tableRun_of_run (faithful_ftExec env ft) (idle_of_created hs) hcoupled hrun
    hputs⟩

end LazyfreeCache.LostPuts
