import LazyfreeCache.Commits
import LazyfreeCache.ReadYourWrite

/-!
An upgrade against the kernel. The page of a read lock may be reclaimed before
any access of `lazyfree_write_lock`. The pin at byte 0 cancels the reclaim or
comes too late, and the check that follows tells which: either the lock's page
comes back as it was committed and stays, or it is left zero and a new slot is
returned.
-/
namespace LazyfreeCache.UpgradeSafety

open ProgramLogic EventReplay State LazyfreeOps FallthroughOps Refinement Reads Allocation
open Writes TraceFrames Frames FallthroughEvents Accounting Client Upgrade ReadYourWrite Commits

variable {env : Env} {s t : Sys} {d r : EntryDescriptor} {key : Key}

/-- The kernel did not take page `d` between `s` and `t`. -/
abbrev Untaken (d : EntryDescriptor) (s t : Sys) : Prop := Lacks (· = .reclaimed d) s t

/-- A page that is alive, or was stored to since `MADV_FREE`, was not taken. -/
theorem untaken_kernel (env : Env) (s : Sys)
    (h : (s.mem d).lazyfree = true → Alive (s.kernel env).toCore d) :
    Untaken d s (s.kernel env) := by
  refine ⟨_, rfl, fun e he hd => ?_⟩
  obtain ⟨p, hp, rfl⟩ := List.mem_map.mp he
  obtain ⟨htaken, hlazy⟩ := List.mem_filter.mp hp
  obtain rfl := Event.reclaimed.inj hd
  have halive := h (by simpa using hlazy)
  unfold Alive Sys.kernel at halive
  simp [htaken, Page.reclaim, Page.tail, show (s.mem p).lazyfree = true by simpa using hlazy]
    at halive

theorem untaken_after (env : Env) (n : ℕ) (s : Sys)
    (h : (s.mem d).lazyfree = true → Alive (after env n s).toCore d) :
    Untaken d s (after env n s) := by
  induction n with
  | zero => exact lacks_refl _ s
  | succ n ih =>
    rw [after_succ'] at h ⊢
    refine (ih fun hlazy => ?_).trans (untaken_kernel env _ fun hlazy => h ?_)
    · exact alive_of_alive_after (n := 1) (h hlazy)
    · by_contra hstored
      have hfalse : (s.mem d).lazyfree = false := by simpa using hstored
      rw [mem_after_stored env n hfalse, hfalse] at hlazy
      cases hlazy

theorem untaken_stored (env : Env) (n : ℕ) (h : (s.mem d).lazyfree = false) :
    Untaken d s (after env n s) :=
  untaken_after env n s fun hlazy => by
    rw [h] at hlazy
    cases hlazy

theorem untaken_storing (env : Env) (offset : ℕ) (v : UInt8)
    (h : (s.mem d).lazyfree = false) : Untaken d s (storing env s d offset v) :=
  (untaken_stored env 1 h).trans (lacks_perform _ (by simp))

/-- A page that survives until it is pinned is not taken during the upgrade. -/
theorem untaken_upgradedTo (halive : Alive (pinned env s d).toCore d) (hindex : d.index < 2 ^ 16)
    (key : Key) : Untaken d s (upgradedTo env s d key) := by
  have hfirst := alive_pinned_iff.mp halive
  have hpin : ((pinned env s d).mem d).lazyfree = false := by
    rw [mem_pinned_eq]
    rfl
  have hlocked : ((perform (restored env s d) (.upgraded d (upgradeLock d key))).mem d).lazyfree =
      false := by
    change ((restored env s d).mem d).lazyfree = false
    rw [mem_restored halive]
  have hstored : ((perform (after env 2 s) (.stored d 0 1)).mem d).lazyfree = false := by
    change ((storing env (after env 1 s) d 0 1).mem d).lazyfree = false
    rw [mem_storing]
    rfl
  have hpinned : Untaken d s (pinned env s d) :=
    ((untaken_after env 2 s fun _ => hfirst).trans (lacks_perform _ (by simp))).trans
      (untaken_stored env 1 hstored)
  have hopen : Untaken d (perform (restored env s d) (.upgraded d (upgradeLock d key)))
      (upgradedTo env s d key) := by
    unfold upgradedTo tailOpened
    rw [upgradeLock_slot _ hindex]
    split
    · exact lacks_refl _ _
    · refine (untaken_stored env 1 hlocked).trans (untaken_storing env _ _ ?_)
      rw [mem_after_stored env 1 hlocked]
      exact hlocked
  exact ((hpinned.trans (untaken_storing env _ _ hpin)).trans
    (lacks_perform _ (by simp))).trans hopen

/-! ### The page that is left behind -/

/-- Every byte of the page is zero. -/
def Zeroed (d : EntryDescriptor) (s : Core) : Prop := ∀ offset, (s.mem d).byte offset = 0

/-- A page that did not survive until it was pinned is zero once the pin is undone. -/
theorem zeroed_unpinned (halive : Alive s.toCore d) {n : ℕ}
    (hdead : ¬ Alive (pinned env (after env n s) d).toCore d) :
    Zeroed d (unpinned env (after env n s) d).toCore := by
  rw [alive_pinned_iff, after_after] at hdead
  have htaken : ((after env (2 + n) s).mem d).byte = fun _ => 0 := by
    unfold Alive at halive hdead
    rw [mem_after] at hdead ⊢
    split at hdead
    · rename_i hwanted
      rw [if_pos hwanted]
      unfold Page.reclaim at hdead ⊢
      split at hdead
      · rename_i hlazy
        rw [if_pos hlazy]
      · exact absurd halive hdead
    · exact absurd halive hdead
  intro offset
  have hmem : (unpinned env (after env n s) d).mem d =
      (((after env (2 + n) s).mem d).store 0 1).store 0 0 := by
    unfold unpinned
    rw [mem_storing, mem_kernel_of_stored (by rw [mem_pinned_eq]; rfl), mem_pinned_eq, after_after]
  rw [hmem]
  unfold Page.store
  rw [htaken]
  simp [Function.update_apply]

theorem zeroed_searched (env : Env) (j : ℕ) (h : Zeroed d s.toCore) :
    Zeroed d (searched env s j).toCore := by
  induction j with
  | zero =>
    change Zeroed d (opened env s).toCore
    unfold opened
    split
    · intro offset
      change (if d.chunk = pick env s then dontneed (s.cache.mmapImpl (pick env s)) (s.mem d)
        else s.mem d).byte offset = 0
      split
      · cases s.cache.mmapImpl (pick env s) with
        | anon => rfl
        | file => exact h offset
      · exact h offset
    · exact h
  | succ j ih =>
    have hnext : searched env s (j + 1) =
        perform (searched env s j) (.advised (searched env s j).cache.currentChunkIdx) :=
      advanced_succ' j _
    rw [hnext]
    intro offset
    rw [← ih offset]
    simp only [perform, Core.mem_apply, Core.memStep]
    split
    · rw [byte_madvised]
    · rfl

/-! ### Both ways to return -/

/-- The upgrade returned the lock's own page `d` with the content `X` and the page stays. -/
structure KeepsPage (d : EntryDescriptor) (key : Key) (X : Buffer) (s t : Sys)
    (r : EntryDescriptor) : Prop where
  own : r = d
  wlock : t.cache.wlock = some ⟨d, key⟩
  content : ∀ i < pageSize, (t.mem d).byte i = X i
  byte0 : (t.mem d).byte 0 = (s.mem d).byte 0
  stays : (t.mem d).lazyfree = false
  untaken : .reclaimed d ∉ newEvents s t

/-- The upgrade returned a new slot for the key and left the page `d` zero. -/
structure ReplacesPage (d : EntryDescriptor) (key : Key) (s t : Sys) (r : EntryDescriptor) :
    Prop where
  allocated : .allocated r key ∈ newEvents s t
  wlock : t.cache.wlock = some ⟨r, key⟩
  mapped : t.cache.hmapGet key = some r
  label : t.cache.label r = key
  zeroed : Zeroed d t.toCore

/-- An upgrade through a fresh lock on page `d`, wherever the kernel comes between its accesses. -/
theorem writeLock_of_alive {L : RLock} {n : ℕ} (halive : Alive s.toCore d)
    (h : JustLocked L (after env n s)) (hhead : L.head = .page d) (hindex : d.index < 2 ^ 16) :
    ∃ r L' t, lazyfreeWriteLock env L (after env n s) = .ok ((r, L'), t) ∧
      (KeepsPage d L.key (logical s.toCore d) s t r ∨ ReplacesPage d L.key s t r) := by
  have hpages : 1 ≤ (after env n s).cache.pagesPerChunk := by
    have hlt := h.accounted.handed_lt d (h.handedOut hhead)
    omega
  obtain ⟨⟨r, L'⟩, t, hrun, ht⟩ := writeLock_returns env h hpages
  refine ⟨r, L', t, hrun, ?_⟩
  cases ht with
  | fresh j r hhead' hfinds => rcases hhead' with hhead' | hhead' <;> cases hhead.symm.trans hhead'
  | moved p j r hhead' hlabel hfinds => exact absurd (h.label p hhead') hlabel
  | torn p j r hhead' hlabel hdead hfinds =>
    cases hhead.symm.trans hhead'
    right
    have hcache : (perform (searched env (unpinned env (after env n s) d) j)
        (.allocated r L.key)).cache =
      (searched env (unpinned env (after env n s) d) j).cache.allocate r L.key := rfl
    refine ⟨?_, rfl, ?_, ?_, zeroed_searched env j (zeroed_unpinned halive hdead)⟩
    · refine (List.drop_sublist_drop_left _ ?_).subset
        (allocated_mem_newEvents (.unpinned d hhead) h hfinds)
      obtain ⟨ds, hds⟩ := performs_after env n s
      rw [hds.trace]
      simp
    · rw [hcache, Cache.hmapGet_allocate, if_pos rfl]
    · rw [hcache, Cache.label_allocate, if_pos rfl]
  | upgraded p hhead' hlabel hpin =>
    cases hhead.symm.trans hhead'
    left
    have hsurvived : Alive (after env n s).toCore d := (mem_pinned hpin).1
    obtain ⟨hstays, hbytes⟩ := mem_upgradedTo L'.key hpin hindex
    have hcontent : ∀ offset, ((upgradedTo env (after env n s) d L'.key).mem d).byte offset =
        logical s.toCore d offset := by
      intro offset
      rw [hbytes, logical_after hsurvived]
    refine ⟨upgradeLock_slot L'.key hindex, ?_, fun i _ => hcontent i, ?_, hstays, ?_⟩
    · rw [cache_upgradedTo]
      exact congrArg (fun d => some (WLock.mk d L'.key)) (upgradeLock_slot L'.key hindex)
    · rw [hcontent 0]
      exact if_neg (by decide)
    · exact ((untaken_after env n s fun _ => hsurvived).trans
        (untaken_upgradedTo hpin hindex L'.key)).not_mem rfl

/-- Lock upgrade is safe against reclaim at every access: a read lock on a page of a nonzero key,
upgraded before any other call, gives the page as it was last committed, never taken and there to
stay, or a new slot, with the old page left zero. -/
theorem upgrade_safe {boot : Boot} {capacity l a m : ℕ} {s₀ : Sys}
    (hnew : lazyfreeCacheNewEx boot capacity l a m = .ok s₀) {ft : FtCache} {calls : List Call}
    {p : Process} (hrun : run env ft calls (start s₀) = .ok ((), p)) {lock L : RLock}
    (hkey : lock.key ≠ 0) (hlock : lazyfreeReadLock env lock p.sys = .ok (L, s))
    (hhead : L.head = .page d) (hindex : d.index < 65536) (n : ℕ) :
    ∃ X, LastCommit s₀.toCore p.sys.toCore d X ∧
      ∃ r L' t, lazyfreeWriteLock env L (after env n s) = .ok ((r, L'), t) ∧
        (KeepsPage d lock.key X p.sys t r ∨ ReplacesPage d lock.key p.sys t r) := by
  have hcreated := (created_of_new hnew).1
  have hw := wlock_of_readLock hlock
  have hshows := showsCommits_run hcreated hrun
  have hjust := justLocked_of_ok hshows.sound.accounted hlock
  have hfree : ¬ WriteHeld d p.sys.toCore := not_writeHeld hw
  cases readLocked_of_ok hlock with
  | miss hkey' hhead' => cases hhead.symm.trans hhead'
  | gone e hkey' hhead' => cases hhead.symm.trans hhead'
  | hit e hkey' hhead' hmapped halive htail =>
    cases hhead.symm.trans hhead'
    obtain ⟨X, hX⟩ := lastCommit_of_mapped hcreated hrun hw hkey hmapped
    have halive' := alive_of_alive_after halive
    refine ⟨X, hX, ?_⟩
    have hlater := hjust.after env n
    rw [after_after] at hlater ⊢
    obtain ⟨r, L', t, hwrite, hcases⟩ := writeLock_of_alive halive' hlater hhead hindex
    rw [hshows.shows d X hX hfree halive', hkey'] at hcases
    exact ⟨r, L', t, hwrite, hcases⟩

/-- Key 1 was advised with its chunk; the kernel takes its page between the load of byte 0 and
the pin. -/
theorem upgrade_safe_taken :
    ∃ p L s, run (takesAt ⟨0, 0⟩ 11) byteCache [.ftGet 1, .ftGet 2] (start smallCache) =
        .ok ((), p) ∧ lazyfreeReadLock (takesAt ⟨0, 0⟩ 11) (.fresh 1) p.sys = .ok (L, s) ∧
      ∃ X, LastCommit smallCache.toCore p.sys.toCore ⟨0, 0⟩ X ∧ ∃ r L' t,
        lazyfreeWriteLock (takesAt ⟨0, 0⟩ 11) L s = .ok ((r, L'), t) ∧
        (KeepsPage ⟨0, 0⟩ 1 X p.sys t r ∨ ReplacesPage ⟨0, 0⟩ 1 p.sys t r) := by
  obtain ⟨p, hrun, L, s, hlock, hhead⟩ :
      ∃ p, run (takesAt ⟨0, 0⟩ 11) byteCache [.ftGet 1, .ftGet 2] (start smallCache) =
        .ok ((), p) ∧ ∃ L s, lazyfreeReadLock (takesAt ⟨0, 0⟩ 11) (.fresh 1) p.sys = .ok (L, s) ∧
          L.head = .page ⟨0, 0⟩ :=
    ⟨_, run_eq_unit _ _ (by decide +kernel), _, _, run_eq _ _ (by decide +kernel),
      by decide +kernel⟩
  exact ⟨p, L, s, hrun, hlock,
    upgrade_safe smallCache_new hrun (by decide) hlock hhead (by decide) 0⟩

end LazyfreeCache.UpgradeSafety
