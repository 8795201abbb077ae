import LazyfreeCache.Slots

/-!
Runs of `ft_cache_get` and `ft_cache_drop`. Between two calls no write lock is
held, so every call that returns does so in one of the ways `Fallthrough`
lists, and an invariant of these steps holds at the end of every run.
-/
namespace LazyfreeCache.FtRuns

open ProgramLogic EventReplay State LazyfreeOps FallthroughOps Refinement Reads Allocation
open Writes Fallthrough Frames FallthroughEvents Accounting Client Slots

inductive FtCall
  | get (key : Key) (value : Buffer)
  | drop (key : Key)

def FtCall.key : FtCall → Key
  | .get key _ => key
  | .drop key => key

def ftExec (env : Env) (ft : FtCache) : FtCall → M Unit
  | .get key value => do
    let _ ← ftCacheGet env ft key value
  | .drop key => do
    let _ ← ftCacheDrop env key

def ftRun (env : Env) (ft : FtCache) (calls : List FtCall) : M Unit :=
  runAll (ftExec env ft) calls

/-- Between two calls: no write lock is held and the accounting is right. -/
structure Idle (s : Sys) : Prop where
  accounted : Accounted s.toCore
  wlock : s.cache.wlock = none

theorem Idle.index_lt {s : Sys} (h : Idle s) (key : Key) :
    ∀ d, s.cache.hmapGet key = some d → d.index < 2 ^ 32 := fun d hd =>
  Client.index_lt h.accounted (h.accounted.map_handed key d hd)

theorem Idle.handedOut {s : Sys} (h : Idle s) {key : Key} :
    ∀ d, s.cache.Mapped key d → s.HandedOut d := fun d hd => h.accounted.map_handed key d hd.1

section Calls
variable {env : Env} {ft : FtCache} {key : Key} {value : Buffer} {s : Sys}

theorem wlock_ftGot {v : Buffer} {t : Sys} (h : FtGot env ft key value s v t)
    (hw : s.cache.wlock = none) : t.cache.wlock = none := by
  cases h with
  | hit => rw [cache_after, hw]
  | miss n u j d => exact congrArg Cache.wlock (cache_sealed env _ _)

theorem wlock_ftDropped {b : Bool} {t : Sys} (h : FtDropped env key s b t)
    (hw : s.cache.wlock = none) : t.cache.wlock = none := by
  cases h with
  | miss n => rw [cache_after, hw]
  | hit d => rfl

theorem idle_ftGot {v : Buffer} {t : Sys} (hs : Idle s) (h : FtGot env ft key value s v t) :
    Idle t := by
  obtain ⟨es, hes, -⟩ := ftGot_events h hs.wlock
  exact ⟨accounted_performs hs.accounted hes.performs, wlock_ftGot h hs.wlock⟩

theorem idle_ftDropped {b : Bool} {t : Sys} (hs : Idle s) (h : FtDropped env key s b t) :
    Idle t := by
  obtain ⟨es, hes, -⟩ := ftDropped_events h hs.wlock hs.handedOut
  exact ⟨accounted_performs hs.accounted hes.performs, wlock_ftDropped h hs.wlock⟩

theorem ftGot_of_ok (hs : Idle s) {v : Buffer} {t : Sys}
    (hrun : ftCacheGet env ft key value s = .ok (v, t)) : FtGot env ft key value s v t :=
  (wp_of_ok hrun).mp (ftCacheGet_spec env ft key value s hs.wlock (hs.index_lt key))

theorem ftDropped_of_ok (hs : Idle s) {b : Bool} {t : Sys}
    (hrun : ftCacheDrop env key s = .ok (b, t)) : FtDropped env key s b t :=
  (wp_of_ok hrun).mp (ftCacheDrop_spec env key s hs.wlock (hs.index_lt key))

end Calls

/-- The miss path finds a page when chunks have pages at all. -/
theorem not_stuck_cleared {env : Env} {key : Key} {n : ℕ} {s u : Sys} (hs : Idle s)
    (hpages : 1 ≤ s.cache.pagesPerChunk)
    (hu : Cleared env (refilled (after env n s) key) key u) : ¬ Stuck env u := by
  obtain ⟨es, hes, hcache⟩ := acts_cleared hu hs.wlock
  exact not_stuck (accounted_performs hs.accounted hes.performs) (by rw [hcache]; exact hpages)

/-- A get stops only because a page went away under its lock. -/
theorem ftCacheGet_torn {env : Env} {ft : FtCache} {key : Key} {value : Buffer} {s : Sys}
    (hs : Idle s) (hpages : 1 ≤ s.cache.pagesPerChunk) :
    wp (ftCacheGet env ft key value) (FtGot env ft key value s) (fun _ => ∃ d,
      s.cache.Mapped key d ∧ Alive (after env 3 s).toCore d ∧
        ¬ Alive (after env (ft.entrySize + 7) s).toCore d) s := by
  refine wp_mono (ftCacheGet_spec env ft key value s hs.wlock (hs.index_lt key))
    (fun _ _ h => h) ?_
  intro e h
  cases h with
  | torn d e hmapped halive hdead => exact ⟨d, hmapped, halive, hdead⟩
  | stuck n u hmissing hu hstuck => exact absurd hstuck (not_stuck_cleared hs hpages hu)

/-- One call of a fallthrough run, by its result. -/
inductive FtStep (env : Env) (ft : FtCache) (s : Sys) : FtCall → Sys → Prop
  | get (key : Key) (value v : Buffer) (t : Sys) (h : FtGot env ft key value s v t) :
      FtStep env ft s (.get key value) t
  | drop (key : Key) (b : Bool) (t : Sys) (h : FtDropped env key s b t) :
      FtStep env ft s (.drop key) t

theorem ftStep_of_ok {env : Env} {ft : FtCache} {call : FtCall} {s t : Sys} (hs : Idle s)
    (hrun : ftExec env ft call s = .ok ((), t)) : FtStep env ft s call t := by
  cases call with
  | get key value =>
    obtain ⟨v, u, hget, hu⟩ := bind_ok.mp hrun
    cases hu
    exact .get key value v t (ftGot_of_ok hs hget)
  | drop key =>
    obtain ⟨b, u, hdrop, hu⟩ := bind_ok.mp hrun
    cases hu
    exact .drop key b t (ftDropped_of_ok hs hdrop)

theorem idle_ftStep {env : Env} {ft : FtCache} {call : FtCall} {s t : Sys} (hs : Idle s)
    (h : FtStep env ft s call t) : Idle t := by
  cases h with
  | get key value v t h => exact idle_ftGot hs h
  | drop key b t h => exact idle_ftDropped hs h

/-- The invariant rule for fallthrough runs. -/
theorem ftRun_invariant {env : Env} {ft : FtCache} (Inv : Sys → Prop) {calls : List FtCall}
    (hstep : ∀ s, ∀ call ∈ calls, ∀ t, Idle s → Inv s → FtStep env ft s call t → Inv t)
    {s t : Sys} (hs : Idle s) (hinv : Inv s)
    (hrun : ftRun env ft calls s = .ok ((), t)) : Idle t ∧ Inv t := by
  refine runAll_induct (R := fun s t => Idle s ∧ Inv s → Idle t ∧ Inv t) (fun _ h => h)
    (fun _ _ _ h h' hs => h' (h hs)) ?_ hrun ⟨hs, hinv⟩
  rintro call hmem s t hcall ⟨hs, hinv⟩
  have h := ftStep_of_ok hs hcall
  exact ⟨idle_ftStep hs h, hstep s call hmem t hs hinv h⟩

theorem idle_ftRun {env : Env} {ft : FtCache} {calls : List FtCall} {s t : Sys} (hs : Idle s)
    (hrun : ftRun env ft calls s = .ok ((), t)) : Idle t :=
  (ftRun_invariant (fun _ => True) (fun _ _ _ _ _ _ _ => trivial) hs trivial hrun).1

theorem ftRun_append {env : Env} {ft : FtCache} {calls later : List FtCall} {s u : Sys} :
    ftRun env ft (calls ++ later) s = .ok ((), u) ↔
      ∃ t, ftRun env ft calls s = .ok ((), t) ∧ ftRun env ft later t = .ok ((), u) :=
  runAll_append_ok (ftExec env ft)

/-- What holds along the events of every call holds along those of a run. -/
theorem ftRun_along {env : Env} {ft : FtCache} {P : Core → Event → Prop} {calls : List FtCall}
    (hstep : ∀ s, ∀ call ∈ calls, ∀ t, Idle s → FtStep env ft s call t →
      ∃ es, Performs s t es ∧ Along Core.apply P s.toCore es)
    {s t : Sys} (hs : Idle s) (hrun : ftRun env ft calls s = .ok ((), t)) :
    ∃ es, Performs s t es ∧ Along Core.apply P s.toCore es := by
  refine (ftRun_invariant (fun t => ∃ es, Performs s t es ∧ Along Core.apply P s.toCore es) ?_ hs
    ⟨[], performs_refl s, trivial⟩ hrun).2
  rintro u call hcall v hu ⟨es, hes, halong⟩ h
  obtain ⟨fs, hfs, halong'⟩ := hstep u call hcall v hu h
  refine ⟨es ++ fs, hes.trans hfs, ?_⟩
  rw [along_append, ← hes.1]
  exact ⟨halong, halong'⟩

/-- A call acts for its key. -/
theorem ftStep_acts {env : Env} {ft : FtCache} {call : FtCall} {s t : Sys} (hs : Idle s)
    (h : FtStep env ft s call t) : ∃ es, Acts env call.key s t es := by
  cases h with
  | get key value v t h =>
    obtain ⟨es, hes, -⟩ := ftGot_events h hs.wlock
    exact ⟨es, hes⟩
  | drop key b t h =>
    obtain ⟨es, hes, -⟩ := ftDropped_events h hs.wlock hs.handedOut
    exact ⟨es, hes⟩

theorem performs_ftRun {env : Env} {ft : FtCache} {calls : List FtCall} {s t : Sys} (hs : Idle s)
    (hrun : ftRun env ft calls s = .ok ((), t)) : ∃ es, Performs s t es := by
  obtain ⟨es, hes, -⟩ := ftRun_along (P := fun _ _ => True) (fun u call _ v hu h => by
    obtain ⟨es, hes⟩ := ftStep_acts hu h
    exact ⟨es, hes.performs, along_of_forall es fun _ _ _ => trivial⟩) hs hrun
  exact ⟨es, hes⟩

theorem wellFormed_acts {env : Env} {key : Key} {s t : Sys} {es : List Event} (hkey : key ≠ 0)
    (hs : WellFormed s.toCore) (h : Acts env key s t es) : WellFormed t.toCore := by
  rw [h.performs.1]
  refine replay_invariant WellFormed (fun s e hs he => wellFormed_step s e hs he.1 ?_) es hs
    ((along_and es).mpr ⟨h.performs.2, h.along⟩)
  cases e with
  | dropped d k =>
    have hk : k = key := he.2
    exact hk ▸ hkey
  | _ => trivial

/-- Runs on nonzero keys keep the slots well formed. -/
theorem wellFormed_ftRun {env : Env} {ft : FtCache} {calls : List FtCall} {s t : Sys}
    (hkeys : ∀ call ∈ calls, call.key ≠ 0) (hs : Idle s) (hwell : WellFormed s.toCore)
    (hrun : ftRun env ft calls s = .ok ((), t)) : WellFormed t.toCore := by
  refine (ftRun_invariant (fun s => WellFormed s.toCore) ?_ hs hwell hrun).2
  intro s call hcall t hs hinv h
  obtain ⟨es, hes⟩ := ftStep_acts hs h
  exact wellFormed_acts (hkeys call hcall) hinv hes

theorem idle_of_created {l a : ℕ} {s : Sys} (h : Created l a s) : Idle s :=
  ⟨h.accounted, h.wlock⟩

end LazyfreeCache.FtRuns
