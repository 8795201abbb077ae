import LazyfreeCache.Client

/-!
What `lazyfree_read_unlock` answers. It looks at the tail of the page and at the
key of the slot, once each. A page that went away stops the process instead of
giving a `false`, and a slot that came back to the same key passes for the old
one; in every other case the answer tells whether the slot was left alone.
-/
namespace LazyfreeCache.ReadUnlock

open ProgramLogic EventReplay State LazyfreeOps FallthroughOps Refinement Reads Allocation
open Writes Fallthrough Frames FallthroughEvents Accounting Client

/-- The event ends or interrupts what slot `d` holds. -/
def Touches (d : EntryDescriptor) : Event → Prop
  | .reclaimed p => p = d
  | .stored p _ _ => p = d
  | .evicted c => c = d.chunk
  | .allocated p _ => p = d
  | .upgraded _ w => w.slot = d
  | .committed w _ => w.slot = d
  | .dropped p _ => p = d
  | _ => False

instance (d : EntryDescriptor) : DecidablePred (Touches d)
  | .reclaimed p => inferInstanceAs (Decidable (p = d))
  | .stored p _ _ => inferInstanceAs (Decidable (p = d))
  | .evicted c => inferInstanceAs (Decidable (c = d.chunk))
  | .allocated p _ => inferInstanceAs (Decidable (p = d))
  | .upgraded _ w => inferInstanceAs (Decidable (w.slot = d))
  | .committed w _ => inferInstanceAs (Decidable (w.slot = d))
  | .dropped p _ => inferInstanceAs (Decidable (p = d))
  | .refill _ => inferInstanceAs (Decidable False)
  | .advised _ => inferInstanceAs (Decidable False)

theorem spares_of_not_touches {d : EntryDescriptor} {e : Event} (h : ¬ Touches d e) :
    Spares d e := by
  cases e <;> first | exact h | trivial

/-- The lock has a slot, and nothing touched it. -/
def Undisturbed (L : RLock) (es : List Event) : Prop :=
  ∃ d, L.head = .page d ∧ ∀ e ∈ es, ¬ Touches d e

/-- The unlock at `t` of a lock taken at `s` returns, and with the right answer. -/
def AnswersRight (env : Env) (L : RLock) (s t : Sys) : Prop :=
  ∃ b u, lazyfreeReadUnlock env L false t = .ok (b, u) ∧
    (b = true ↔ Undisturbed L (newEvents s u))

variable {env : Env} {L : RLock} {s t : Sys} {d : EntryDescriptor} {es : List Event}

theorem readUnlock_emptyPage (env : Env) (hhead : L.head = .emptyPage)
    (hw : s.cache.wlock = none) : lazyfreeReadUnlock env L false s = .ok (false, s) := by
  have hwp : wp (lazyfreeReadUnlock env L false) (fun b t => b = false ∧ t = s)
      (fun _ => False) s := by
    unfold lazyfreeReadUnlock
    simp [hhead, hw]
  obtain ⟨b, t, hrun, rfl, rfl⟩ := returns_of_wp hwp
  exact hrun

/-- A slot that nothing touched since it was read-locked still answers for the key. -/
theorem alive_of_undisturbed {key : Key} (hperf : Performs s t es)
    (hmapped : s.cache.label d = key) (halive : Alive s.toCore d)
    (h : ∀ e ∈ es, ¬ Touches d e) : Alive t.toCore d ∧ t.cache.label d = key := by
  obtain ⟨hlabel, hsame⟩ := spares_replay (s := s.toCore) fun e he => spares_of_not_touches (h e he)
  rw [← hperf.1] at hlabel hsame
  exact ⟨hsame.alive.mpr halive, hlabel.trans hmapped⟩

/-- The unlock of a page answers right exactly when the page is alive at its check and a slot
that carries the key was left alone. -/
theorem answersRight_page_iff (hhead : L.head = .page d) (hindex : d.index < 2 ^ 32)
    (hw : t.cache.wlock = none) (hlabel : s.cache.label d = L.key) (halive : Alive s.toCore d)
    (hperf : Performs s t es) :
    AnswersRight env L s t ↔
      Alive (after env 1 t).toCore d ∧
        (t.cache.label d = L.key → ∀ e ∈ newEvents s (after env 1 t), ¬ Touches d e) := by
  obtain ⟨ds, hds⟩ := performs_after env 1 t
  have hevents := newEvents_eq (hperf.trans hds)
  have hundisturbed : ∀ es, Undisturbed L es ↔ ∀ e ∈ es, ¬ Touches d e := by
    intro es
    constructor
    · rintro ⟨p, hp, h⟩
      cases hhead.symm.trans hp
      exact h
    · exact fun h => ⟨d, hhead, h⟩
  have hkeeps := alive_of_undisturbed (hperf.trans hds) hlabel halive
  rw [cache_after] at hkeeps
  have hunlock : wp (lazyfreeReadUnlock env L false)
      (fun b u => Alive (after env 1 t).toCore d ∧ u = after env 1 t ∧
        (b = true ↔ t.cache.label d = L.key))
      (fun _ => ¬ Alive (after env 1 t).toCore d) t := by
    refine wp_readUnlock hhead hw hindex (fun h => h) ?_ ?_ (fun _ _ h => by cases h)
      (fun _ _ h => by cases h)
    · exact fun halive hne => ⟨halive, rfl, by simp [hne]⟩
    · exact fun halive heq _ => ⟨halive, rfl, by simp [heq]⟩
  constructor
  · rintro ⟨b, u, hrun, hanswer⟩
    obtain ⟨halive', rfl, hb⟩ := (wp_of_ok hrun).mp hunlock
    exact ⟨halive', fun heq => (hundisturbed _).mp (hanswer.mp (hb.mpr heq))⟩
  · rintro ⟨halive', hleft⟩
    obtain ⟨b, u, hrun, -, rfl, hb⟩ := returns_of_wp
      (wp_mono hunlock (fun _ _ h => h) fun _ h => h halive')
    refine ⟨b, _, hrun, hb.trans ⟨fun heq => (hundisturbed _).mpr (hleft heq), fun h => ?_⟩⟩
    rw [hundisturbed, hevents] at h
    exact (hkeeps h).2

/-- For every lock and whatever happened since it was taken: the unlock answers right exactly
when the page is alive at its check and a slot that carries the key was left alone. -/
theorem answersRight_iff {boot : Boot} {capacity n a m : ℕ} {s₀ : Sys}
    (hnew : lazyfreeCacheNewEx boot capacity n a m = .ok s₀) {ft : FtCache}
    {calls later : List Call} {p q : Process} (hrun : run env ft calls (start s₀) = .ok ((), p))
    {lock : RLock} (hlock : lazyfreeReadLock env lock p.sys = .ok (L, s)) {l : ℕ}
    (hlater : run env ft later ⟨s, Function.update p.locks l L⟩ = .ok ((), q))
    (hw : q.sys.cache.wlock = none) :
    AnswersRight env L p.sys q.sys ↔ ∀ d, L.head = .page d →
      Alive (after env 1 q.sys).toCore d ∧ (q.sys.cache.label d = L.key →
        ∀ e ∈ newEvents p.sys (after env 1 q.sys), ¬ Touches d e) := by
  have hp := (run_sound (created_of_new hnew).1.sound hrun).1
  obtain ⟨-, hsteps, hsteps', hhanded⟩ := since_readLock hp hlock hlater
  obtain ⟨es, hes, -⟩ := hsteps.trans hsteps'
  have hempty : L.head = .emptyPage → (AnswersRight env L p.sys q.sys ↔
      ∀ d, L.head = .page d → Alive (after env 1 q.sys).toCore d ∧ (q.sys.cache.label d = L.key →
        ∀ e ∈ newEvents p.sys (after env 1 q.sys), ¬ Touches d e)) := by
    intro hhead
    refine iff_of_true ⟨false, _, readUnlock_emptyPage env hhead hw, ?_⟩ ?_
    · refine iff_of_false (by simp) ?_
      rintro ⟨d, hd, -⟩
      cases hhead.symm.trans hd
    · intro d hd
      cases hhead.symm.trans hd
  cases readLocked_of_ok hlock with
  | miss hkey hhead => exact hempty hhead
  | gone d hkey hhead => exact hempty hhead
  | hit d hkey hhead hmapped halive htail =>
    rw [answersRight_page_iff hhead (index_lt hp.accounted (hhanded d hhead)) hw
      (hmapped.2.trans hkey.symm) (alive_of_alive_after halive) hes]
    constructor
    · intro h e he
      cases hhead.symm.trans he
      exact h
    · exact fun h => h d hhead

/-- The slot of key 1 is left alone while key 2 is filled. -/
theorem answersRight_untouched :
    ∃ p L s q, run calm byteCache [.ftGet 1] (start smallCache) = .ok ((), p) ∧
      lazyfreeReadLock calm (.fresh 1) p.sys = .ok (L, s) ∧
      run calm byteCache [.ftGet 2] ⟨s, Function.update p.locks 0 L⟩ = .ok ((), q) ∧
      AnswersRight calm L p.sys q.sys := by
  have hrun := run_eq_unit (start smallCache) (run calm byteCache [.ftGet 1]) (by decide +kernel)
  have hlock := run_eq (lazyfreeReadLock calm (.fresh 1))
    (outcome (run calm byteCache [.ftGet 1]) (start smallCache) (by decide +kernel)).2.sys
    (by decide +kernel)
  refine ⟨_, _, _, _, hrun, hlock, run_eq_unit _ _ (by decide +kernel), ?_⟩
  refine (answersRight_iff smallCache_new hrun hlock (run_eq_unit _ _ (by decide +kernel))
    (by decide +kernel)).mpr ?_
  intro d hd
  have hfirst : (outcome (lazyfreeReadLock calm (.fresh 1))
    (outcome (run calm byteCache [.ftGet 1]) (start smallCache) (by decide +kernel)).2.sys
    (by decide +kernel)).1.head = .page ⟨0, 0⟩ := by decide +kernel
  cases hfirst.symm.trans hd
  exact ⟨by decide +kernel, fun _ => by decide +kernel⟩

/-- A lock on key 1, the first key filled, gets a wrong answer after the later calls. -/
def AnsweredWrong (env : Env) (later : List Call) : Prop :=
  ∃ p L s q, run env byteCache [.ftGet 1] (start smallCache) = .ok ((), p) ∧
    lazyfreeReadLock env (.fresh 1) p.sys = .ok (L, s) ∧
    run env byteCache later ⟨s, Function.update p.locks 0 L⟩ = .ok ((), q) ∧
    q.sys.cache.wlock = none ∧ ¬ AnswersRight env L p.sys q.sys

/-- When the kernel takes the page under the lock the unlock ends the process, and when key 1 is
dropped and filled into the same slot again the old lock passes for valid. -/
theorem unlock_answers_wrong :
    AnsweredWrong (takesAt ⟨0, 0⟩ 10) [.ftGet 2] ∧ AnsweredWrong calm [.ftDrop 1, .ftGet 1] := by
  constructor
  · refine ⟨_, _, _, _, run_eq_unit _ _ (by decide +kernel), run_eq _ _ (by decide +kernel),
      run_eq_unit _ _ (by decide +kernel), by decide +kernel, ?_⟩
    rintro ⟨b, u, hrun, -⟩
    rw [run_eq_error (e := .lockCheckFailed) (lazyfreeReadUnlock (takesAt ⟨0, 0⟩ 10) _ false) _
      (by decide +kernel)] at hrun
    cases hrun
  · refine ⟨_, _, _, _, run_eq_unit _ _ (by decide +kernel), run_eq _ _ (by decide +kernel),
      run_eq_unit _ _ (by decide +kernel), by decide +kernel, ?_⟩
    rintro ⟨b, u, hrun, hb⟩
    rw [run_eq (lazyfreeReadUnlock calm _ false) _ (by decide +kernel)] at hrun
    obtain ⟨rfl, rfl⟩ := Prod.mk.inj (Except.ok.inj hrun)
    obtain ⟨d, hd, hleft⟩ := hb.mp (by decide +kernel)
    obtain rfl : d = ⟨0, 0⟩ := Head.page.inj (hd.symm.trans (by decide +kernel))
    exact absurd hleft (by decide +kernel)

end LazyfreeCache.ReadUnlock
