import LazyfreeCache.Upgrade
import LazyfreeCache.TraceFrames

/-!
A page holds what its last commit left there. Between two calls a slot that is
not locked for writing keeps its content as long as its page is alive: only a
write lock on the slot itself leads to stores that stay. So a process that
reads from a page reads what was last committed to it.
-/
namespace LazyfreeCache.Commits

open ProgramLogic EventReplay State LazyfreeOps FallthroughOps Refinement Reads Allocation
open Writes TraceFrames Fallthrough Frames FallthroughEvents Accounting Client FtRuns Upgrade

/-- A page that is alive in `t` was so in `s`, with the same content. -/
def Kept (d : EntryDescriptor) (s t : Core) : Prop := Alive t d → Alive s d ∧ SameContent s t d

theorem kept_refl (d : EntryDescriptor) (s : Core) : Kept d s s := fun h => ⟨h, rfl, rfl⟩

theorem Kept.trans {d : EntryDescriptor} {s t u : Core} (h : Kept d s t) (h' : Kept d t u) :
    Kept d s u := by
  intro halive
  obtain ⟨ht, hsame'⟩ := h' halive
  obtain ⟨hs, hsame⟩ := h ht
  exact ⟨hs, hsame.trans hsame'⟩

theorem kept_of_dead {d : EntryDescriptor} {s t : Core} (h : ¬ Alive t d) : Kept d s t :=
  fun halive => absurd halive h

theorem kept_of_sameContent {d : EntryDescriptor} {s t : Core} (h : SameContent s t d) :
    Kept d s t := fun halive => ⟨h.alive.mp halive, h⟩

/-- Only stores and commits change what a page that stays alive shows. -/
theorem kept_apply {d : EntryDescriptor} (s : Core) {e : Event}
    (hstore : ∀ offset v, e ≠ .stored d offset v)
    (hcommit : ∀ w bit, e = .committed w bit → w.slot ≠ d) : Kept d s (s.apply e) := by
  intro halive
  have hbit : (s.apply e).cache.bit d = s.cache.bit d := by
    cases e with
    | evicted c => exact Cache.bit_evict _ _ _
    | allocated p key => exact Cache.bit_allocate _ _ _ _
    | dropped p key => exact Cache.bit_drop _ _ _
    | committed w bit =>
      exact (Cache.bit_commit _ _ _ _).trans (if_neg (Ne.symm (hcommit w bit rfl)))
    | _ => rfl
  have hsame : SameContent s (s.apply e) d := ⟨byte_apply hstore halive, hbit⟩
  exact ⟨hsame.alive.mp halive, hsame⟩

theorem kept_perform {d : EntryDescriptor} (s : Sys) {e : Event}
    (hstore : ∀ offset v, e ≠ .stored d offset v)
    (hcommit : ∀ w bit, e = .committed w bit → w.slot ≠ d) :
    Kept d s.toCore (perform s e).toCore := kept_apply s.toCore hstore hcommit

variable {env : Env} {s t u : Sys} {d p : EntryDescriptor} {key : Key}

theorem kept_after (env : Env) (n : ℕ) (s : Sys) (d : EntryDescriptor) :
    Kept d s.toCore (after env n s).toCore := by
  intro halive
  have hmem := mem_eq_of_alive_after halive
  refine ⟨alive_of_alive_after halive, by rw [hmem], ?_⟩
  rw [cache_after]

theorem kept_storing (env : Env) (s : Sys) (offset : ℕ) (v : UInt8) (h : p ≠ d) :
    Kept d s.toCore (storing env s p offset v).toCore :=
  (kept_after env 1 s d).trans (kept_perform (s.kernel env)
    (fun _ _ he => h (Event.stored.inj he).1) (fun _ _ he => by cases he))

theorem kept_searched (env : Env) (s : Sys) (j : ℕ) (d : EntryDescriptor) :
    Kept d s.toCore (searched env s j).toCore := by
  induction j with
  | zero =>
    change Kept d s.toCore (opened env s).toCore
    unfold opened
    split
    · exact kept_perform s (by simp) (by simp)
    · exact kept_refl d s.toCore
  | succ j ih =>
    have hnext : searched env s (j + 1) =
        perform (searched env s j) (.advised (searched env s j).cache.currentChunkIdx) :=
      advanced_succ' j _
    rw [hnext]
    exact ih.trans (kept_perform _ (by simp) (by simp))

theorem kept_allocated (env : Env) (s : Sys) (j : ℕ) (p : EntryDescriptor) (key : Key)
    (d : EntryDescriptor) :
    Kept d s.toCore (perform (searched env s j) (.allocated p key)).toCore :=
  (kept_searched env s j d).trans (kept_perform _ (by simp) (by simp))

/-- A pin of the slot's own page is undone, or its page was dead when it was pinned. -/
theorem kept_unpinned (env : Env) (s : Sys) (hdead : ¬ Alive (pinned env s p).toCore p) :
    Kept d s.toCore (unpinned env s p).toCore := by
  by_cases hp : p = d
  · subst hp
    refine kept_of_dead fun h => hdead (alive_of_alive_after ((alive_storing ?_).mp h))
    decide
  · exact (((kept_after env 1 s d).trans (kept_storing env _ 0 1 hp)).trans
      (kept_after env 1 _ d)).trans (kept_storing env _ 0 0 hp)

theorem kept_restored (env : Env) (s : Sys) (halive : Alive (pinned env s p).toCore p) :
    Kept d s.toCore (restored env s p).toCore := by
  by_cases hp : p = d
  · subst hp
    exact kept_of_sameContent ⟨by rw [mem_restored halive], by rw [cache_restored]⟩
  · exact (((kept_after env 1 s d).trans (kept_storing env _ 0 1 hp)).trans
      (kept_after env 1 _ d)).trans (kept_storing env _ 0 _ hp)

theorem kept_tailOpened (env : Env) (s : Sys) (h : p ≠ d) :
    Kept d s.toCore (tailOpened env s p).toCore := by
  unfold tailOpened
  split
  · exact kept_refl d s.toCore
  · exact (kept_after env 1 s d).trans (kept_storing env _ _ _ h)

theorem kept_copying (env : Env) (offset : ℕ) (value : Buffer) (n i : ℕ) (s : Sys) (h : p ≠ d) :
    Kept d s.toCore (copying env p offset value n i s).toCore := by
  induction n generalizing i s with
  | zero => exact kept_refl d s.toCore
  | succ n ih => exact (kept_storing env s _ _ h).trans (ih (i + 1) _)

theorem kept_sealed (env : Env) (s : Sys) {w : WLock} (h : w.slot ≠ d) :
    Kept d s.toCore (sealed env s w).toCore :=
  ((kept_after env 2 s d).trans (kept_storing env _ _ _ h)).trans
    (kept_perform _ (by simp) (by rintro w' bit hw; cases hw; exact h))

/-! ### Commits -/

def IsCommit (e : Event) : Prop := ∃ w bit, e = .committed w bit

/-- At most the last event from `s` to `t` is a commit. -/
def CommitsLast (s t : Sys) : Prop :=
  ∃ es, t.trace = s.trace ++ es ∧ ∀ es₁ w bit es₂, es = es₁ ++ .committed w bit :: es₂ → es₂ = []

theorem unaccessed_isCommit : Unaccessed IsCommit := ⟨by simp [IsCommit], by simp [IsCommit]⟩

theorem unsearched_isCommit : Unsearched IsCommit := ⟨by simp [IsCommit], by simp [IsCommit]⟩

theorem commitsLast_of_lacks (h : Lacks IsCommit s t) : CommitsLast s t := by
  obtain ⟨es, hes, hnone⟩ := h
  refine ⟨es, hes, ?_⟩
  rintro es₁ w bit es₂ rfl
  exact absurd ⟨w, bit, rfl⟩ (hnone (.committed w bit) (by simp))

theorem commitsLast_perform (h : Lacks IsCommit s t) (e : Event) : CommitsLast s (perform t e) := by
  obtain ⟨es, hes, hnone⟩ := h
  refine ⟨es ++ [e], ?_, ?_⟩
  · change t.trace ++ [e] = _
    rw [hes, List.append_assoc]
  · intro es₁ w bit es₂ heq
    rcases List.eq_nil_or_concat es₂ with hnil | ⟨fs, f, rfl⟩
    · exact hnil
    · rw [List.concat_eq_append, ← List.cons_append, ← List.append_assoc] at heq
      have hes := List.append_inj_left' heq rfl
      exact absurd ⟨w, bit, rfl⟩ (hnone (.committed w bit) (by rw [hes]; simp))

theorem lacks_allocated (env : Env) (s : Sys) (j : ℕ) (d : EntryDescriptor) (key : Key) :
    Lacks IsCommit s (perform (searched env s j) (.allocated d key)) :=
  (lacks_searched unsearched_isCommit env s j).trans (lacks_perform _ (by simp [IsCommit]))

theorem commitsLast_sealed {w : WLock} (h : Lacks IsCommit s t) :
    CommitsLast s (sealed env t w) :=
  commitsLast_perform ((h.trans (lacks_after unaccessed_isCommit env 2 t)).trans
    (lacks_storing unaccessed_isCommit env _ _ _ _)) _

theorem trace_sealed (env : Env) (s : Sys) (w : WLock) : ∃ es, (∀ e ∈ es, ¬ IsCommit e) ∧
    (sealed env s w).trace = s.trace ++ (es ++ [.committed w (tailBit env s w.slot)]) := by
  obtain ⟨es, hes, hnone⟩ := (lacks_after unaccessed_isCommit env 2 s).trans
    (lacks_storing unaccessed_isCommit env _ w.slot (pageSize - 1)
      (((after env 2 s).mem w.slot).tail ||| 1))
  refine ⟨es, hnone, ?_⟩
  rw [← List.append_assoc, ← hes]
  rfl

/-- The page that is committed is alive. -/
theorem alive_of_sealed {w w' : WLock} {bit : Bool} (h : Lacks IsCommit s t)
    (hmem : .committed w' bit ∈ newEvents s (sealed env t w)) :
    Alive (sealed env t w).toCore w'.slot := by
  obtain ⟨ds, hds, hnone⟩ := h
  obtain ⟨es, hnone', hes⟩ := trace_sealed env t w
  unfold newEvents at hmem
  rw [hes, hds, List.append_assoc, List.drop_left] at hmem
  rcases List.mem_append.mp hmem with hmem | hmem
  · exact absurd ⟨w', bit, rfl⟩ (hnone _ hmem)
  rcases List.mem_append.mp hmem with hmem | hmem
  · exact absurd ⟨w', bit, rfl⟩ (hnone' _ hmem)
  · cases List.mem_singleton.mp hmem
    exact alive_sealed env t w

/-! ### Calls -/

/-- Slot `d` is locked for writing. -/
def WriteHeld (d : EntryDescriptor) (s : Core) : Prop := ∃ w, s.cache.wlock = some w ∧ w.slot = d

theorem not_writeHeld (h : s.cache.wlock = none) : ¬ WriteHeld d s.toCore := by
  rintro ⟨w, hw, -⟩
  cases h.symm.trans hw

/-- What every call does to content: it commits a slot with its last event if at all, and then
leaves it alive, and keeps each slot that it did not commit and that is not locked before or
after. -/
structure Preserves (s t : Sys) : Prop where
  commitsLast : CommitsLast s t
  alive : ∀ w bit, .committed w bit ∈ newEvents s t → Alive t.toCore w.slot
  kept : ∀ d, ¬ WriteHeld d s.toCore → ¬ WriteHeld d t.toCore →
    (∀ w bit, w.slot = d → .committed w bit ∉ newEvents s t) → Kept d s.toCore t.toCore

theorem preserves_of_lacks (h : Lacks IsCommit s t)
    (hkept : ∀ d, ¬ WriteHeld d s.toCore → ¬ WriteHeld d t.toCore → Kept d s.toCore t.toCore) :
    Preserves s t :=
  ⟨commitsLast_of_lacks h, fun w bit hmem => absurd hmem (h.not_mem ⟨w, bit, rfl⟩),
    fun d hs ht _ => hkept d hs ht⟩

theorem preserves_after (env : Env) (n : ℕ) (s : Sys) : Preserves s (after env n s) :=
  preserves_of_lacks (lacks_after unaccessed_isCommit env n s) fun d _ _ => kept_after env n s d

theorem preserves_dropped (env : Env) (n : ℕ) (s : Sys) (p : EntryDescriptor) (key : Key) :
    Preserves s (perform (after env n s) (.dropped p key)) :=
  preserves_of_lacks
    ((lacks_after unaccessed_isCommit env n s).trans (lacks_perform _ (by simp [IsCommit])))
    fun d _ _ => (kept_after env n s d).trans (kept_perform _ (by simp) (by simp))

theorem preserves_readUnlock (env : Env) (L : RLock) (drop : Bool) (h : Accounted s.toCore)
    (hlock : ∀ d, L.head = .page d → s.HandedOut d) :
    wp (lazyfreeReadUnlock env L drop) (fun _ t => Preserves s t) (fun _ => True) s := by
  by_cases hw : s.cache.wlock = none
  · cases hhead : L.head with
    | null =>
      unfold lazyfreeReadUnlock
      simp [hhead]
    | emptyPage =>
      unfold lazyfreeReadUnlock
      simp only [wp_bind, wp_get, wp_require, hhead, hw]
      exact ⟨fun _ => ⟨fun _ => preserves_after env 0 s, fun _ => trivial⟩, fun _ => trivial⟩
    | page q =>
      exact wp_readUnlock hhead hw (index_lt h (hlock q hhead)) (fun _ => trivial)
        (fun _ _ => preserves_after env 1 s) (fun _ _ _ => preserves_after env 1 s)
        (fun _ _ _ _ => preserves_dropped env 1 s q L.key) (fun _ _ _ _ => trivial)
  · unfold lazyfreeReadUnlock
    simp [hw]

theorem preserves_writeLocked {L L' : RLock} {r : EntryDescriptor}
    (h : WriteLocked env s L r L' t) : Preserves s t := by
  cases h with
  | fresh j r hhead hfinds =>
    exact preserves_of_lacks (lacks_allocated env s j r L.key)
      fun d _ _ => kept_allocated env s j r L.key d
  | moved p j r hhead hlabel hfinds =>
    exact preserves_of_lacks (lacks_allocated env s j r L.key)
      fun d _ _ => kept_allocated env s j r L.key d
  | torn p j r hhead hlabel hdead hfinds =>
    exact preserves_of_lacks
      ((lacks_unpinned unaccessed_isCommit env s p).trans (lacks_allocated env _ j r L.key))
      fun d _ _ => (kept_unpinned env s hdead).trans (kept_allocated env _ j r L.key d)
  | upgraded p hhead hlabel halive =>
    refine preserves_of_lacks (((lacks_restored unaccessed_isCommit env s p).trans
      (lacks_perform _ (by simp [IsCommit]))).trans (lacks_tailOpened unaccessed_isCommit env _ _))
      fun d _ hfree => ?_
    have hslot : (upgradeLock p L.key).slot ≠ d := fun hd =>
      hfree ⟨upgradeLock p L.key, by rw [cache_upgradedTo]; rfl, hd⟩
    exact ((kept_restored env s halive).trans (kept_perform _ (by simp) (by simp))).trans
      (kept_tailOpened env _ hslot)

theorem preserves_storeLocked (env : Env) (offset : ℕ) (v : UInt8) (s : Sys) :
    wp (storeLocked env offset v) (fun _ t => Preserves s t) (fun _ => True) s := by
  unfold storeLocked
  rw [wp_bind, wp_get]
  split
  · exact preserves_after env 0 s
  · rename_i w hw
    exact preserves_of_lacks (lacks_storing unaccessed_isCommit env s w.slot offset v)
      fun d hfree _ => kept_storing env s offset v fun hd => hfree ⟨w, hw, hd⟩

theorem preserves_writeUnlock (env : Env) (drop : Bool) (s : Sys) :
    wp (lazyfreeWriteUnlock env drop) (fun _ t => Preserves s t) (fun _ => True) s := by
  cases hw : s.cache.wlock with
  | none =>
    unfold lazyfreeWriteUnlock
    simp [hw]
  | some w =>
    cases drop with
    | false =>
      rw [wp_of_ok (lazyfreeWriteUnlock_commit env hw)]
      have hlacks := lacks_refl IsCommit s
      exact ⟨commitsLast_sealed hlacks, fun _ _ hmem => alive_of_sealed hlacks hmem,
        fun d hfree _ _ => kept_sealed env s fun hd => hfree ⟨w, hw, hd⟩⟩
    | true =>
      have hrun := lazyfreeWriteUnlock_drop env hw
      split at hrun
      · rw [wp_of_ok hrun]
        exact preserves_dropped env 0 s w.slot _
      · rw [wp_of_error hrun]
        trivial

theorem preserves_ftGot {ft : FtCache} {value v : Buffer} (h : FtGot env ft key value s v t)
    (hw : s.cache.wlock = none) : Preserves s t := by
  cases h with
  | hit p v hmapped halive hv => exact preserves_after env _ s
  | miss n u j p hn hmissing hu hfinds =>
    have hrefill : Lacks IsCommit s (refilled (after env n s) key) ∧
        ∀ d, Kept d s.toCore (refilled (after env n s) key).toCore :=
      ⟨(lacks_after unaccessed_isCommit env n s).trans (lacks_perform _ (by simp [IsCommit])),
        fun d => (kept_after env n s d).trans (kept_perform _ (by simp) (by simp))⟩
    have hclear : Lacks IsCommit (refilled (after env n s) key) u ∧
        ∀ d, Kept d (refilled (after env n s) key).toCore u.toCore := by
      cases hu with
      | untouched => exact ⟨lacks_refl IsCommit _, fun d => kept_refl d _⟩
      | unpinned q hmapped hdead =>
        exact ⟨lacks_unpinned unaccessed_isCommit env _ q, fun d =>
          kept_unpinned env _ (dead_pinned hdead)⟩
    have hlacks := ((hrefill.1.trans hclear.1).trans (lacks_allocated env u j p key)).trans
      (lacks_copying unaccessed_isCommit env (d := p) (pageSize - ft.entrySize) (entry ft key value)
        ft.entrySize 0 _)
    refine ⟨commitsLast_sealed hlacks, fun _ _ hmem => alive_of_sealed hlacks hmem, ?_⟩
    intro d _ _ hcommit
    obtain ⟨es, hes, hcache⟩ := acts_cleared hu hw
    obtain ⟨fs, bit, hfs, -⟩ := acts_filled key ft value (by rw [hcache, hw]) hfinds
    have hp : p ≠ d := by
      intro hp
      refine hcommit ⟨p, key⟩ bit hp ?_
      rw [newEvents_eq (hes.performs.trans hfs.performs)]
      simp
    exact ((hrefill.2 d).trans (hclear.2 d)).trans (((kept_allocated env u j p key d).trans
      (kept_copying env _ _ _ _ _ hp)).trans (kept_sealed env _ hp))

theorem preserves_ftDropped {b : Bool} (h : FtDropped env key s b t) : Preserves s t := by
  cases h with
  | miss n hn hmissing => exact preserves_after env n s
  | hit p hmapped halive hfree => exact preserves_dropped env 4 s p key

/-- The step lemma of a process. -/
theorem exec_preserves (env : Env) (ft : FtCache) (call : Call) {p : Process} (hp : Sound p) :
    wp (exec env ft call) (fun _ q => Preserves p.sys q.sys) (fun _ => True) p := by
  cases call with
  | rlock l key => exact preserves_after env 0 p.sys
  | readLock l =>
    simp only [exec, wp_bind, wp_get, wp_onSys]
    refine wp_of_unlocked (E := fun _ => True) trivial fun hw => wp_readLock hw fun L t hL => ?_
    cases hL with
    | miss => exact preserves_after env 0 p.sys
    | gone => exact preserves_after env 1 p.sys
    | hit => exact preserves_after env 2 p.sys
  | read l offset size =>
    simp only [exec, wp_bind, wp_get, wp_onSys]
    refine wp_mono (wp_read env _ _ _ offset.toNat_lt p.sys) ?_ fun _ _ => trivial
    rintro _ t ⟨n, rfl⟩
    exact preserves_after env n p.sys
  | readUnlock l drop =>
    simp only [exec, wp_bind, wp_get, wp_onSys]
    exact wp_mono (preserves_readUnlock env _ drop hp.accounted (hp.locks l)) (fun _ t h => h)
      fun _ _ => trivial
  | writeLock l =>
    simp only [exec, wp_bind, wp_get, wp_onSys]
    refine wp_of_unlocked (E := fun _ => True) trivial fun hw => ?_
    exact wp_mono (lazyfreeWriteLock_spec env _ p.sys hw fun q hq =>
      index_lt hp.accounted (hp.locks l q hq)) (fun r t h => preserves_writeLocked h)
      fun _ _ => trivial
  | store offset v =>
    simp only [exec, wp_onSys]
    exact preserves_storeLocked env offset v p.sys
  | writeUnlock drop =>
    simp only [exec, wp_onSys]
    exact preserves_writeUnlock env drop p.sys
  | ftGet key =>
    simp only [exec, wp_bind, wp_onSys]
    by_cases hw : p.sys.cache.wlock = none
    · have hidle : Idle p.sys := ⟨hp.accounted, hw⟩
      exact wp_mono (ftCacheGet_spec env ft key _ p.sys hw (hidle.index_lt key))
        (fun v t h => preserves_ftGot h hw) fun _ _ => trivial
    · unfold ftCacheGet lazyfreeReadLock
      simp [hw]
  | ftDrop key =>
    simp only [exec, wp_bind, wp_onSys]
    by_cases hw : p.sys.cache.wlock = none
    · have hidle : Idle p.sys := ⟨hp.accounted, hw⟩
      exact wp_mono (ftCacheDrop_spec env key p.sys hw (hidle.index_lt key))
        (fun b t h => preserves_ftDropped h) fun _ _ => trivial
    · unfold ftCacheDrop lazyfreeReadLock
      simp [hw]

/-! ### The last commit of a slot -/

/-- The event ends the write to slot `d`, or takes the slot from its key. -/
def Ends (d : EntryDescriptor) : Event → Prop
  | .committed w _ => w.slot = d
  | .dropped p _ => p = d
  | _ => False

/-- Between `s₀` and `s` slot `d` was last committed with the content `X`, and not dropped since. -/
def LastCommit (s₀ s : Core) (d : EntryDescriptor) (X : Buffer) : Prop :=
  ∃ es w bit fs, s.trace = s₀.trace ++ (es ++ .committed w bit :: fs) ∧ w.slot = d ∧
    (∀ e ∈ fs, ¬ Ends d e) ∧ X = logical (replay Core.apply s₀ (es ++ [.committed w bit])) d

theorem writeHeld_step {s : Core} {e : Event} (h : WriteHeld d s) (henabled : s.Enabled e)
    (hends : ¬ Ends d e) : WriteHeld d (s.apply e) := by
  obtain ⟨w, hw, rfl⟩ := h
  cases e with
  | evicted c => cases henabled.1.symm.trans hw
  | advised c => cases henabled.1.symm.trans hw
  | allocated p key => cases henabled.1.symm.trans hw
  | upgraded p w' => cases henabled.1.symm.trans hw
  | committed w' bit =>
    cases henabled.symm.trans hw
    exact absurd rfl hends
  | dropped p key =>
    rcases henabled.2.2 with ⟨hnone, -⟩ | ⟨k, hk⟩
    · cases hnone.symm.trans hw
    · cases hk.symm.trans hw
      exact absurd rfl hends
  | _ => exact ⟨w, hw, rfl⟩

theorem writeHeld_replay {s : Core} {es : List Event} (h : WriteHeld d s)
    (henabled : Along Core.apply Core.Enabled s es) (hends : ∀ e ∈ es, ¬ Ends d e) :
    WriteHeld d (replay Core.apply s es) := by
  induction es generalizing s with
  | nil => exact h
  | cons e es ih =>
    exact ih (writeHeld_step h henabled.1 (hends e List.mem_cons_self)) henabled.2
      fun f hf => hends f (List.mem_cons_of_mem e hf)

theorem LastCommit.apply {s₀ s : Core} {e : Event} {X : Buffer} (h : LastCommit s₀ s d X)
    (hends : ¬ Ends d e) : LastCommit s₀ (s.apply e) d X := by
  obtain ⟨es, w, bit, fs, htrace, hslot, hfs, hX⟩ := h
  refine ⟨es, w, bit, fs ++ [e], by rw [Core.trace_apply, htrace]; simp, hslot, ?_, hX⟩
  intro f hf
  rcases List.mem_append.mp hf with hf | hf
  · exact hfs f hf
  · rw [List.mem_singleton.mp hf]
    exact hends

/-- Every slot with a key is locked for writing or was committed. -/
structure Written (s₀ s : Core) : Prop where
  since : s₀.trace <+: s.trace
  written : ∀ d, s.HandedOut d → s.cache.label d ≠ 0 → WriteHeld d s ∨ ∃ X, LastCommit s₀ s d X

theorem written_step {s₀ : Core} (s : Core) (e : Event) (h : Written s₀ s)
    (henabled : s.Enabled e) : Written s₀ (s.apply e) := by
  obtain ⟨es, hes⟩ := h.since
  refine ⟨⟨es ++ [e], by rw [← List.append_assoc, hes]; rfl⟩, fun d hd hlabel => ?_⟩
  -- what keeps the slot and its key keeps the reason
  have hkeep : ¬ Ends d e → s.HandedOut d → s.cache.label d ≠ 0 →
      WriteHeld d (s.apply e) ∨ ∃ X, LastCommit s₀ (s.apply e) d X := by
    intro hends hd hlabel
    rcases h.written d hd hlabel with hheld | ⟨X, hX⟩
    · exact .inl (writeHeld_step hheld henabled hends)
    · exact .inr ⟨X, hX.apply hends⟩
  have hhanded : (∀ key, e ≠ .allocated d key) → s.HandedOut d := fun hne =>
    ((handedOut_apply s e d).mp hd).resolve_right fun ⟨key, hkey⟩ => hne key hkey
  cases e with
  | allocated p key =>
    by_cases hp : p = d
    · exact .inl ⟨⟨p, key⟩, rfl, hp⟩
    · refine hkeep id (hhanded fun k hk => hp (Event.allocated.inj hk).1) ?_
      rwa [Core.cache_apply, Cache.step, Cache.label_allocate, if_neg (Ne.symm hp)] at hlabel
  | committed w bit =>
    by_cases hw : w.slot = d
    · exact .inr ⟨_, es, w, bit, [], by rw [Core.trace_apply, ← hes, List.append_assoc], hw,
        by simp, rfl⟩
    · refine hkeep hw (hhanded (by simp)) ?_
      rwa [Core.cache_apply, Cache.step, Cache.label_commit] at hlabel
  | dropped p key =>
    rw [Core.cache_apply, Cache.step, Cache.label_drop] at hlabel
    split at hlabel
    · exact absurd rfl hlabel
    · rename_i hp
      exact hkeep (Ne.symm hp) (hhanded (by simp)) hlabel
  | evicted c =>
    rw [Core.cache_apply, Cache.step, Cache.label_evict] at hlabel
    split at hlabel
    · exact absurd rfl hlabel
    · exact hkeep id (hhanded (by simp)) hlabel
  | _ => exact hkeep id (hhanded (by simp)) hlabel

/-- The invariant of a run: every commit left its page alive, and pages that can be read show
their last commit. -/
structure ShowsCommits (s₀ : Sys) (p : Process) : Prop where
  sound : Sound p
  steps : Steps anyKey s₀ p.sys
  alive : ∀ es w bit fs, p.sys.trace = s₀.trace ++ (es ++ .committed w bit :: fs) →
    Alive (replay Core.apply s₀.toCore (es ++ [.committed w bit])) w.slot
  shows : ∀ d X, LastCommit s₀.toCore p.sys.toCore d X → ¬ WriteHeld d p.sys.toCore →
    Alive p.sys.toCore d → logical p.sys.toCore d = X

/-- An element of two lists in a row lies in the first or in the second. -/
theorem split_cases {α : Type} {ds gs es fs : List α} {c : α} (h : ds ++ gs = es ++ c :: fs) :
    (∃ as, es = ds ++ as ∧ gs = as ++ c :: fs) ∨ ∃ as, ds = es ++ c :: as ∧ fs = as ++ gs := by
  rcases List.append_eq_append_iff.mp h with ⟨as, hes, hgs⟩ | ⟨as, hds, hfs⟩
  · exact .inl ⟨as, hes, hgs⟩
  · cases as with
    | nil => exact .inl ⟨[], by simp [hds], hfs.symm⟩
    | cons c' as =>
      obtain ⟨rfl, rfl⟩ := List.cons.inj hfs
      exact .inr ⟨as, hds, rfl⟩

theorem showsCommits_step {s₀ : Sys} {p q : Process} (h : ShowsCommits s₀ p) (hq : Sound q)
    (hsteps : Steps anyKey p.sys q.sys) (hpreserves : Preserves p.sys q.sys) :
    ShowsCommits s₀ q := by
  have hsteps' := h.steps.trans hsteps
  obtain ⟨ds, hds, -⟩ := h.steps
  obtain ⟨gs, hgs, -⟩ := hsteps
  have hlast : ∀ es₁ w bit es₂, gs = es₁ ++ .committed w bit :: es₂ → es₂ = [] := by
    obtain ⟨gs', hgs', hlast⟩ := hpreserves.commitsLast
    obtain rfl : gs = gs' := List.append_cancel_left (hgs.trace.symm.trans hgs')
    exact hlast
  -- a commit is the last event of this call, or was made before it
  have hcommits : ∀ es w bit fs, q.sys.trace = s₀.trace ++ (es ++ .committed w bit :: fs) →
      (fs = [] ∧ .committed w bit ∈ gs ∧
        q.sys.toCore = replay Core.apply s₀.toCore (es ++ [.committed w bit])) ∨
      ∃ as, ds = es ++ .committed w bit :: as ∧ fs = as ++ gs := by
    intro es w bit fs htrace
    have happend : s₀.trace ++ (ds ++ gs) = s₀.trace ++ (es ++ .committed w bit :: fs) := by
      rw [← List.append_assoc, ← hds.trace, ← hgs.trace]
      exact htrace
    rcases split_cases (List.append_cancel_left happend) with ⟨as, rfl, hgs'⟩ | hbefore
    · obtain rfl := hlast _ _ _ _ hgs'
      refine .inl ⟨rfl, by simp [hgs'], ?_⟩
      rw [List.append_assoc, ← hgs', replay_append, ← hds.1, ← hgs.1]
    · exact .inr hbefore
  refine ⟨hq, hsteps', ?_, ?_⟩
  · intro es w bit fs htrace
    rcases hcommits es w bit fs htrace with ⟨-, hmem, hcore⟩ | ⟨as, rfl, -⟩
    · rw [← hcore]
      exact hpreserves.alive w bit (by rwa [newEvents_eq hgs])
    · exact h.alive es w bit as hds.trace
  rintro d X ⟨es, w, bit, fs, htrace, rfl, hfs, rfl⟩ hfree halive
  rcases hcommits es w bit fs htrace with ⟨-, -, hcore⟩ | ⟨as, rfl, rfl⟩
  · rw [hcore]
  · have hends : ∀ e ∈ gs, ¬ Ends w.slot e := fun e he => hfs e (List.mem_append_right as he)
    have hfree' : ¬ WriteHeld w.slot p.sys.toCore := by
      intro hheld
      have hreplay := writeHeld_replay hheld hgs.2 hends
      rw [← hgs.1] at hreplay
      exact hfree hreplay
    obtain ⟨halive', hsame⟩ := hpreserves.kept w.slot hfree' hfree (fun w' bit' hw' hmem => by
      rw [newEvents_eq hgs] at hmem
      exact hends _ hmem hw') halive
    have hbefore : logical p.sys.toCore w.slot = _ := h.shows w.slot _
      ⟨es, w, bit, as, hds.trace, rfl, fun e he => hfs e (List.mem_append_left gs he), rfl⟩
      hfree' halive'
    funext offset
    rw [hsame.logical, hbefore]

/-- In every state of every run a page that can be read shows its last commit. -/
theorem showsCommits_run {env : Env} {ft : FtCache} {calls : List Call} {l a : ℕ} {s₀ : Sys}
    {p : Process} (h : Created l a s₀) (hrun : run env ft calls (start s₀) = .ok ((), p)) :
    ShowsCommits s₀ p := by
  have hstart : ShowsCommits s₀ (start s₀) := by
    have hnone : ∀ es w bit fs, s₀.trace ≠ s₀.trace ++ (es ++ .committed w bit :: fs) := by simp
    refine ⟨h.sound, steps_refl s₀, fun es w bit fs htrace => absurd htrace (hnone es w bit fs), ?_⟩
    rintro d X ⟨es, w, bit, fs, htrace, -⟩
    exact absurd htrace (hnone es w bit fs)
  refine runAll_induct (R := fun p q => ShowsCommits s₀ p → ShowsCommits s₀ q) (fun _ h => h)
    (fun _ _ _ h h' hp => h' (h hp)) ?_ hrun hstart
  intro call _ p q hcall hp
  obtain ⟨hq, hsteps⟩ := (wp_of_ok hcall).mp (exec_anyKey env ft call hp.sound)
  exact showsCommits_step hp hq hsteps ((wp_of_ok hcall).mp (exec_preserves env ft call hp.sound))

/-! ### Slots that nothing took -/

/-- The kernel takes the page of slot `d`, or its chunk is evicted. -/
def Takes (d : EntryDescriptor) : Event → Prop
  | .reclaimed p => p = d
  | .evicted c => c = d.chunk
  | _ => False

/-- Slot `d` was committed between `s₀` and `s`, and since its last commit nothing took it. -/
def Untaken (s₀ s : Core) (d : EntryDescriptor) : Prop :=
  ∃ es w bit fs, s.trace = s₀.trace ++ (es ++ .committed w bit :: fs) ∧ w.slot = d ∧
    ∀ e ∈ fs, ¬ Ends d e ∧ ¬ Takes d e

/-- Only stores under a write lock on the slot reach the last byte of its page. -/
theorem alive_step {s : Core} {e : Event} (h : Alive s d) (henabled : s.Enabled e)
    (hfree : ¬ WriteHeld d s) (htakes : ¬ Takes d e) : Alive (s.apply e) d := by
  have htail : ((s.memStep e) d).tail = (s.mem d).tail := by
    cases e with
    | reclaimed p => exact congrArg Page.tail (Function.update_of_ne (Ne.symm htakes) _ _)
    | stored p offset v =>
      by_cases hp : p = d
      · subst hp
        rcases henabled with ⟨k, hk⟩ | ⟨-, rfl⟩
        · exact absurd ⟨⟨p, k⟩, hk, rfl⟩ hfree
        · refine (congrArg Page.tail (Function.update_self _ _ _)).trans ?_
          exact tail_store_of_ne _ _ (by decide)
      · exact congrArg Page.tail (Function.update_of_ne (Ne.symm hp) _ _)
    | evicted c => exact congrArg Page.tail (if_neg (Ne.symm htakes))
    | advised c =>
      simp only [Core.memStep]
      split
      · cases s.cache.madvImpl c <;> rfl
      · rfl
    | _ => rfl
  unfold Alive
  rw [Core.mem_apply, htail]
  exact h

theorem alive_replay {s : Core} {es : List Event} (h : Alive s d)
    (henabled : Along Core.apply Core.Enabled s es)
    (hes : ∀ e ∈ es, ¬ Ends d e ∧ ¬ Takes d e) (hfree : ¬ WriteHeld d (replay Core.apply s es)) :
    Alive (replay Core.apply s es) d := by
  induction es generalizing s with
  | nil => exact h
  | cons e es ih =>
    have hfree' : ¬ WriteHeld d s := fun hheld =>
      hfree (writeHeld_replay hheld henabled fun f hf => (hes f hf).1)
    exact ih (alive_step h henabled.1 hfree' (hes e List.mem_cons_self).2) henabled.2
      (fun f hf => hes f (List.mem_cons_of_mem e hf)) hfree

/-- A page that nothing took since its last commit is there. -/
theorem ShowsCommits.alive_of_untaken {s₀ : Sys} {p : Process} (h : ShowsCommits s₀ p)
    (hfree : ¬ WriteHeld d p.sys.toCore) (huntaken : Untaken s₀.toCore p.sys.toCore d) :
    Alive p.sys.toCore d := by
  obtain ⟨es, w, bit, fs, htrace, rfl, hfs⟩ := huntaken
  obtain ⟨ds, hds, -⟩ := h.steps
  obtain rfl : ds = es ++ [.committed w bit] ++ fs := by
    rw [List.append_assoc]
    exact List.append_cancel_left (hds.trace.symm.trans htrace)
  have henabled := hds.2
  have hcore := hds.1
  rw [along_append] at henabled
  rw [replay_append] at hcore
  rw [hcore] at hfree ⊢
  exact alive_replay (h.alive es w bit fs htrace) henabled.2 hfs hfree

/-- What `lazyfree_write_unlock` commits is what was stored to the page. -/
theorem lastCommit_writeUnlock {s₀ : Sys} {p : Process} (h : ShowsCommits s₀ p) (env : Env)
    {w : WLock} (hw : p.sys.cache.wlock = some w)
    (hstored : (p.sys.mem w.slot).lazyfree = false) :
    ∃ t, lazyfreeWriteUnlock env false p.sys = .ok ((), t) ∧ ShowsCommits s₀ ⟨t, p.locks⟩ ∧
      LastCommit s₀.toCore t.toCore w.slot (p.sys.mem w.slot).byte := by
  have hrun := lazyfreeWriteUnlock_commit env hw
  have hsteps : Steps anyKey p.sys (sealed env p.sys w) := (wp_of_ok hrun).mp
    (writeUnlock_sound env false h.sound.accounted fun _ _ => trivial)
  have hsound : Sound ⟨sealed env p.sys w, p.locks⟩ :=
    ⟨hsteps.accounted h.sound.accounted, fun l d hd => hsteps.handedOut (h.sound.locks l d hd)⟩
  have hshows : ShowsCommits s₀ ⟨sealed env p.sys w, p.locks⟩ := showsCommits_step h hsound hsteps
    ((wp_of_ok hrun).mp (preserves_writeUnlock env false p.sys))
  obtain ⟨es, -, hes⟩ := trace_sealed env p.sys w
  obtain ⟨ds, hds, -⟩ := hshows.steps
  obtain ⟨fs, hfs⟩ : ∃ fs, p.sys.trace = s₀.trace ++ fs := by
    obtain ⟨fs, hfs, -⟩ := h.steps
    exact ⟨fs, hfs.trace⟩
  have htrace : (sealed env p.sys w).trace =
      s₀.trace ++ (fs ++ es ++ [.committed w (tailBit env p.sys w.slot)]) := by
    rw [hes, hfs]
    simp
  obtain rfl := List.append_cancel_left (hds.trace.symm.trans htrace)
  refine ⟨_, hrun, hshows, fs ++ es, w, _, [], htrace, rfl, by simp, ?_⟩
  rw [← hds.1]
  funext offset
  exact (logical_sealed hstored offset).symm

theorem written_run {env : Env} {ft : FtCache} {calls : List Call} {l a : ℕ} {s₀ : Sys}
    {p : Process} (h : Created l a s₀) (hrun : run env ft calls (start s₀) = .ok ((), p)) :
    Written s₀.toCore p.sys.toCore := by
  obtain ⟨-, es, hes, -⟩ := run_sound h.sound hrun
  have hstart : Written s₀.toCore s₀.toCore := by
    refine ⟨List.prefix_rfl, fun d hd => ?_⟩
    obtain ⟨key, hkey⟩ := hd
    rw [h.trace] at hkey
    cases hkey
  rw [hes.1]
  exact replay_invariant (Written s₀.toCore) written_step es hstart hes.2

/-- Between two calls the page of a nonzero key has a last commit. -/
theorem lastCommit_of_mapped {env : Env} {ft : FtCache} {calls : List Call} {l a : ℕ} {s₀ : Sys}
    {p : Process} {k : Key} (h : Created l a s₀)
    (hrun : run env ft calls (start s₀) = .ok ((), p)) (hw : p.sys.cache.wlock = none)
    (hk : k ≠ 0) (hmapped : p.sys.cache.Mapped k d) :
    ∃ X, LastCommit s₀.toCore p.sys.toCore d X := by
  have hhanded := (run_sound h.sound hrun).1.accounted.map_handed k d hmapped.1
  refine ((written_run h hrun).written d hhanded (by rw [hmapped.2]; exact hk)).resolve_left ?_
  exact not_writeHeld hw

end LazyfreeCache.Commits
