import LazyfreeCache.Upgrade
import LazyfreeCache.TraceFrames

/-!
The lock check as a test for a fresh page. `lazyfree_write_lock` leaves the
head of the lock as it was, or at `NULL`, and an upgrade puts the last byte of
the content back under the check. So the check tells an existing page from a
new one only for a lock on the empty page, or on a page within reach of the
16-bit index that is still there and does not end in a zero byte.
-/
namespace LazyfreeCache.Freshness

open ProgramLogic EventReplay State LazyfreeOps FallthroughOps Refinement Reads Allocation
open Writes TraceFrames Accounting Client Upgrade

variable {env : Env} {s t : Sys} {L L' : RLock} {d r : EntryDescriptor}

/-- `lazyfree_write_lock` returned the page the lock was on, with its content. -/
structure Existing (L : RLock) (s : Sys) (r : EntryDescriptor) (t : Sys) : Prop where
  own : L.head = .page r
  kept : ∀ key, .allocated r key ∉ newEvents s t
  content : ∀ i < pageSize, (t.mem r).byte i = logical s.toCore r i

/-- The lock check can be evaluated on the lock `L'` that `lazyfree_write_lock` left, and tells
whether the page `r` was there or is new. -/
def CheckTells (env : Env) (L : RLock) (s : Sys) (r : EntryDescriptor) (L' : RLock) (t : Sys) :
    Prop :=
  ∃ b u, lockCheck env L' t = .ok (b, u) ∧ (b = true ↔ Existing L s r t) ∧
    (b = false ↔ .allocated r L.key ∈ newEvents s t)

/-- The lock is on the empty page, or on a page of its key that survives the first two accesses
of the call, has a 16-bit index and does not end in a zero byte. -/
def Telling (env : Env) (L : RLock) (s : Sys) : Prop :=
  L.head = .emptyPage ∨ ∃ d, L.head = .page d ∧ s.cache.label d = L.key ∧
    Alive (after env 2 s).toCore d ∧ d.index < 2 ^ 16 ∧ logical s.toCore d (pageSize - 1) ≠ 0

theorem not_checkTells_null (hhead : L'.head = .null) : ¬ CheckTells env L s r L' t := by
  rintro ⟨b, u, hcheck, -⟩
  unfold lockCheck at hcheck
  rw [hhead] at hcheck
  cases hcheck

theorem unaccessed_allocated (r : EntryDescriptor) :
    Unaccessed fun e => ∃ key, e = .allocated r key :=
  ⟨fun _ h => by simp at h, fun _ _ _ h => by simp at h⟩

theorem not_allocated_upgraded (env : Env) (s : Sys) (d r : EntryDescriptor) (key key' : Key) :
    .allocated r key' ∉ newEvents s (upgradedTo env s d key) :=
  (lacks_upgradedTo (unaccessed_allocated r) (fun _ _ h => by simp at h) env s d key).not_mem
    ⟨key', rfl⟩

/-- An upgraded page is tested by its own last byte. -/
theorem lockCheck_upgraded (hhead : L.head = .page d) (halive : Alive (pinned env s d).toCore d)
    (hindex : d.index < 2 ^ 16) (key : Key) :
    ∃ u, lockCheck env L (upgradedTo env s d key) =
      .ok (decide (logical s.toCore d (pageSize - 1) ≠ 0), u) := by
  obtain ⟨hstored, hbytes⟩ := mem_upgradedTo key halive hindex
  have htail : Alive (after env 1 (upgradedTo env s d key)).toCore d ↔
      logical s.toCore d (pageSize - 1) ≠ 0 := by
    unfold Alive
    rw [mem_after_stored env 1 hstored, Page.tail, hbytes]
  have hcheck := lockCheck_page env (upgradedTo env s d key) hhead
  simp only [htail] at hcheck
  exact ⟨_, hcheck⟩

theorem existing_upgraded (hhead : L.head = .page d) (halive : Alive (pinned env s d).toCore d)
    (hindex : d.index < 2 ^ 16) (key : Key) : Existing L s d (upgradedTo env s d key) :=
  ⟨hhead, fun key' => not_allocated_upgraded env s d d key key',
    fun i _ => (mem_upgradedTo key halive hindex).2 i⟩

/-- After an upgrade the check is right about the lock's page if that does not end in zero, and
wrong about any other page. -/
theorem checkTells_upgraded (hhead : L.head = .page d)
    (halive : Alive (pinned env s d).toCore d) :
    CheckTells env L s (upgradeLock d L.key).slot L (upgradedTo env s d L.key) ↔
      d.index < 2 ^ 16 ∧ logical s.toCore d (pageSize - 1) ≠ 0 := by
  by_cases hindex : d.index < 2 ^ 16
  · rw [upgradeLock_slot _ hindex]
    have hexisting := existing_upgraded hhead halive hindex L.key
    obtain ⟨u, hcheck⟩ := lockCheck_upgraded hhead halive hindex L.key
    constructor
    · rintro ⟨b, u', hcheck', htrue, -⟩
      cases hcheck.symm.trans hcheck'
      exact ⟨hindex, of_decide_eq_true (htrue.mpr hexisting)⟩
    · rintro ⟨-, hlast⟩
      refine ⟨true, u, by rw [hcheck, decide_eq_true hlast], by simpa using hexisting, ?_⟩
      simpa using not_allocated_upgraded env s d d L.key L.key
  · refine ⟨?_, fun h => absurd h.1 hindex⟩
    rintro ⟨b, u, hcheck, htrue, hfalse⟩
    have hother : L.head ≠ .page (upgradeLock d L.key).slot := by
      rw [hhead]
      intro hd
      have hidx := congrArg EntryDescriptor.index (Head.page.inj hd)
      have hlt : (upgradeLock d L.key).slot.index < 2 ^ 16 := Nat.mod_lt _ (by decide)
      omega
    cases b with
    | true => exact absurd (htrue.mp rfl).own hother
    | false => exact absurd (hfalse.mp rfl) (not_allocated_upgraded env s d _ L.key L.key)

theorem wlock_of_writeLock (hrun : lazyfreeWriteLock env L s = .ok ((r, L'), t)) :
    s.cache.wlock = none := by
  have hstops : wp (lazyfreeWriteLock env L) (fun _ _ => s.cache.wlock = none)
      (fun _ => True) s := by
    refine wp_of_unlocked trivial fun hw => ?_
    exact wp_iff.mpr ⟨fun _ _ _ => hw, fun _ _ => trivial⟩
  exact (wp_of_ok hrun).mp hstops

/-- One case for each way `lazyfree_write_lock` returns. -/
theorem checkTells_of_writeLocked (h : WriteLocked env s L r L' t) :
    CheckTells env L s r L' t ↔ Telling env L s := by
  cases h with
  | fresh j d hhead hfinds =>
    rcases hhead with hhead | hhead
    · refine ⟨fun h => absurd h (not_checkTells_null hhead), ?_⟩
      rintro (hempty | ⟨d, hd, -⟩)
      · cases hhead.symm.trans hempty
      · cases hhead.symm.trans hd
    · refine ⟨fun _ => .inl hhead, fun _ => ?_⟩
      have hnew : .allocated r L.key ∈
          newEvents s (perform (searched env s j) (.allocated r L.key)) :=
        (lacks_searched (P := fun _ => False) ⟨fun _ => id, fun _ => id⟩ env s j).mem_perform _
      refine ⟨false, _, lockCheck_emptyPage env _ hhead, ?_, by simpa using hnew⟩
      simp only [Bool.false_eq_true, false_iff]
      exact fun h => absurd hnew (h.kept _)
  | moved d j r hhead hlabel hfinds =>
    refine ⟨fun h => absurd h (not_checkTells_null rfl), ?_⟩
    rintro (hempty | ⟨e, he, hlabel', -⟩)
    · cases hhead.symm.trans hempty
    · cases hhead.symm.trans he
      exact absurd hlabel' hlabel
  | torn d j r hhead hlabel hdead hfinds =>
    refine ⟨fun h => absurd h (not_checkTells_null rfl), ?_⟩
    rintro (hempty | ⟨e, he, -, halive, -⟩)
    · cases hhead.symm.trans hempty
    · cases hhead.symm.trans he
      exact absurd (alive_pinned_iff.mpr halive) hdead
  | upgraded d hhead hlabel halive =>
    refine (checkTells_upgraded hhead halive).trans ⟨?_, ?_⟩
    · rintro ⟨hindex, hlast⟩
      exact .inr ⟨d, hhead, hlabel, alive_pinned_iff.mp halive, hindex, hlast⟩
    · rintro (hempty | ⟨e, he, -, -, htells⟩)
      · cases hhead.symm.trans hempty
      · cases hhead.symm.trans he
        exact htells

theorem writeLocked_of_run {boot : Boot} {capacity l a m : ℕ} {s₀ : Sys}
    (hnew : lazyfreeCacheNewEx boot capacity l a m = .ok s₀) {ft : FtCache} {calls : List Call}
    {p : Process} (hrun : run env ft calls (start s₀) = .ok ((), p)) {i : ℕ}
    (hlock : lazyfreeWriteLock env (p.locks i) p.sys = .ok ((r, L'), t)) :
    WriteLocked env p.sys (p.locks i) r L' t := by
  have hsound := (run_sound (created_of_new hnew).1.sound hrun).1
  exact (wp_of_ok hlock).mp (lazyfreeWriteLock_spec env _ _ (wlock_of_writeLock hlock)
    fun d hd => index_lt hsound.accounted (hsound.locks i d hd))

/-- In every reachable state and for every lock of the process, the documented test for a fresh
page is right exactly if the lock is telling. -/
theorem checkTells_iff {boot : Boot} {capacity l a m : ℕ} {s₀ : Sys}
    (hnew : lazyfreeCacheNewEx boot capacity l a m = .ok s₀) {ft : FtCache} {calls : List Call}
    {p : Process} (hrun : run env ft calls (start s₀) = .ok ((), p)) {i : ℕ}
    (hlock : lazyfreeWriteLock env (p.locks i) p.sys = .ok ((r, L'), t)) :
    CheckTells env (p.locks i) p.sys r L' t ↔ Telling env (p.locks i) p.sys :=
  checkTells_of_writeLocked (writeLocked_of_run hnew hrun hlock)

/-- A lock on the page of key 1, which ends in a byte 1, is telling. -/
theorem checkTells_page :
    ∃ p r L' t, run calm byteCache [.ftGet 1, .rlock 0 1, .readLock 0] (start smallCache) =
        .ok ((), p) ∧ lazyfreeWriteLock calm (p.locks 0) p.sys = .ok ((r, L'), t) ∧
      CheckTells calm (p.locks 0) p.sys r L' t := by
  obtain ⟨p, hrun, hhead, hkey, hlabel, halive, hlast, ⟨r, L'⟩, t, hlock⟩ :
      ∃ p, run calm byteCache [.ftGet 1, .rlock 0 1, .readLock 0] (start smallCache) =
        .ok ((), p) ∧ (p.locks 0).head = .page ⟨0, 0⟩ ∧ (p.locks 0).key = 1 ∧
          p.sys.cache.label ⟨0, 0⟩ = 1 ∧ Alive (after calm 2 p.sys).toCore ⟨0, 0⟩ ∧
          logical p.sys.toCore ⟨0, 0⟩ (pageSize - 1) ≠ 0 ∧
          ∃ r t, lazyfreeWriteLock calm (p.locks 0) p.sys = .ok (r, t) :=
    ⟨_, run_eq_unit _ _ (by decide +kernel), by decide +kernel, by decide +kernel,
      by decide +kernel, by decide +kernel, by decide +kernel, _, _,
      run_eq _ _ (by decide +kernel)⟩
  exact ⟨p, r, L', t, hrun, hlock, (checkTells_iff smallCache_new hrun hlock).mpr
    (.inr ⟨⟨0, 0⟩, hhead, hlabel.trans hkey.symm, halive, by decide, hlast⟩)⟩

/-- After the calls, the test is wrong about what a write lock through lock 0 returned. -/
def Misjudged (calls : List Call) : Prop :=
  ∃ p r L' t, run calm byteCache calls (start smallCache) = .ok ((), p) ∧
    lazyfreeWriteLock calm (p.locks 0) p.sys = .ok ((r, L'), t) ∧
    ¬ CheckTells calm (p.locks 0) p.sys r L' t

theorem misjudged_of_not_telling {calls : List Call} {p : Process} {r : EntryDescriptor × RLock}
    (hrun : run calm byteCache calls (start smallCache) = .ok ((), p))
    (hlock : lazyfreeWriteLock calm (p.locks 0) p.sys = .ok (r, t))
    (hnot : ¬ Telling calm (p.locks 0) p.sys) : Misjudged calls :=
  ⟨p, r.1, r.2, t, hrun, hlock, fun h =>
    hnot ((checkTells_of_writeLocked (writeLocked_of_run smallCache_new hrun hlock)).mp h)⟩

/-- The test stops the process after a write lock through a lock with head `NULL`, and says that
an upgraded page which ends in a zero byte is new. -/
theorem check_misjudges :
    Misjudged [.rlock 0 1] ∧ Misjudged [.ftGet 256, .rlock 0 256, .readLock 0] := by
  constructor
  · obtain ⟨p, hrun, hhead, r, t, hlock⟩ :
        ∃ p, run calm byteCache [.rlock 0 1] (start smallCache) = .ok ((), p) ∧
          (p.locks 0).head = .null ∧
          ∃ r t, lazyfreeWriteLock calm (p.locks 0) p.sys = .ok (r, t) :=
      ⟨_, run_eq_unit _ _ (by decide +kernel), by decide +kernel, _, _,
        run_eq _ _ (by decide +kernel)⟩
    refine misjudged_of_not_telling hrun hlock ?_
    rintro (hempty | ⟨d, hd, -⟩)
    · cases hhead.symm.trans hempty
    · cases hhead.symm.trans hd
  · obtain ⟨p, hrun, hhead, hlast, r, t, hlock⟩ :
        ∃ p, run calm byteCache [.ftGet 256, .rlock 0 256, .readLock 0] (start smallCache) =
          .ok ((), p) ∧ (p.locks 0).head = .page ⟨0, 0⟩ ∧
          logical p.sys.toCore ⟨0, 0⟩ (pageSize - 1) = 0 ∧
          ∃ r t, lazyfreeWriteLock calm (p.locks 0) p.sys = .ok (r, t) :=
      ⟨_, run_eq_unit _ _ (by decide +kernel), by decide +kernel, by decide +kernel, _, _,
        run_eq _ _ (by decide +kernel)⟩
    refine misjudged_of_not_telling hrun hlock ?_
    rintro (hempty | ⟨d, hd, -, -, -, htells⟩)
    · cases hhead.symm.trans hempty
    · cases hhead.symm.trans hd
      exact htells hlast

end LazyfreeCache.Freshness
