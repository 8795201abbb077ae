import LazyfreeCache.FtRuns

/-!
The page of an upgraded lock. When the tail is still set after byte 0 was
pinned, the kernel took nothing before the pin and can take nothing after it:
the page comes back with its logical content and stays until it is advised
again. A committed page is read back through a new lock byte for byte.
-/
namespace LazyfreeCache.Upgrade

open ProgramLogic EventReplay State LazyfreeOps FallthroughOps Refinement Reads Allocation
open Writes Fallthrough Frames FallthroughEvents Accounting Client

variable {env : Env} {s : Sys} {p : EntryDescriptor} {key : Key}

/-- The pin is stored to what the kernel left of the page at the first two accesses. -/
theorem mem_pinned_eq (env : Env) (s : Sys) (p : EntryDescriptor) :
    (pinned env s p).mem p = ((after env 2 s).mem p).store 0 1 := by
  have hstore : (storing env (after env 1 s) p 0 1).mem p =
      ((after env 2 s).mem p).store 0 1 := mem_storing env (after env 1 s) p 0 1
  unfold pinned
  rw [after_one, mem_kernel_of_stored (by rw [hstore]; rfl), hstore]

/-- The check of an upgrade tells whether the page survived until it was pinned. -/
theorem alive_pinned_iff : Alive (pinned env s p).toCore p ↔ Alive (after env 2 s).toCore p := by
  unfold Alive
  rw [mem_pinned_eq, tail_store_of_ne _ _ (by decide)]

theorem mem_pinned (h : Alive (pinned env s p).toCore p) :
    Alive s.toCore p ∧ (pinned env s p).mem p = (s.mem p).store 0 1 ∧
      (after env 1 s).mem p = s.mem p := by
  have halive := alive_pinned_iff.mp h
  refine ⟨alive_of_alive_after halive, ?_, mem_after_eq_of_alive halive (by omega)⟩
  rw [mem_pinned_eq, mem_eq_of_alive_after halive]

theorem mem_restored (h : Alive (pinned env s p).toCore p) :
    (restored env s p).mem p = ⟨(s.mem p).byte, false⟩ := by
  obtain ⟨-, hpinned, hfirst⟩ := mem_pinned h
  unfold restored
  rw [mem_storing, mem_kernel_of_stored (by rw [hpinned]; rfl), hpinned, hfirst]
  simp [Page.store]

theorem cache_restored (env : Env) (s : Sys) (p : EntryDescriptor) :
    (restored env s p).cache = s.cache := cache_pinned env s p

theorem upgradeLock_slot (key : Key) (hindex : p.index < 2 ^ 16) : (upgradeLock p key).slot = p :=
  Cache.ext_index rfl (Nat.mod_eq_of_lt hindex)

theorem cache_tailOpened (env : Env) (s : Sys) (p : EntryDescriptor) :
    (tailOpened env s p).cache = s.cache := by
  unfold tailOpened
  split
  · rfl
  · rw [cache_storing, cache_after]

/-- `bit_to_tail` turns a stored page into its logical content. -/
theorem mem_tailOpened (env : Env) (h : (s.mem p).lazyfree = false) :
    ((tailOpened env s p).mem p).lazyfree = false ∧
      ∀ offset, ((tailOpened env s p).mem p).byte offset = logical s.toCore p offset := by
  have hmem : (after env 1 s).mem p = s.mem p := mem_kernel_of_stored h
  have hbitget : s.cache.bit p = Bitset.bitsetGet (s.cache.chunks p.chunk).bit0 p.index := rfl
  unfold tailOpened logical bitToTail
  rw [← hbitget]
  by_cases hbit : s.cache.bit p = true
  · rw [if_pos hbit]
    refine ⟨h, fun offset => ?_⟩
    split
    · rename_i hoff
      rw [hoff]
      rfl
    · rfl
  · rw [if_neg hbit, mem_storing, mem_kernel_of_stored (by rw [hmem]; exact h), hmem]
    refine ⟨rfl, fun offset => ?_⟩
    split
    · rename_i hoff
      rw [hoff]
      exact tail_store _ _
    · rename_i hoff
      exact Function.update_of_ne hoff _ _

theorem cache_upgradedTo (env : Env) (s : Sys) (p : EntryDescriptor) (key : Key) :
    (upgradedTo env s p key).cache = s.cache.upgrade (upgradeLock p key) := by
  unfold upgradedTo
  rw [cache_tailOpened]
  change (restored env s p).cache.upgrade _ = _
  rw [cache_restored]

/-- The page of a lock that survived its upgrade shows its logical content. -/
theorem mem_upgradedTo (key : Key) (h : Alive (pinned env s p).toCore p)
    (hindex : p.index < 2 ^ 16) :
    ((upgradedTo env s p key).mem p).lazyfree = false ∧
      ∀ offset, ((upgradedTo env s p key).mem p).byte offset = logical s.toCore p offset := by
  have hmem : (perform (restored env s p) (.upgraded p (upgradeLock p key))).mem p =
      ⟨(s.mem p).byte, false⟩ := mem_restored h
  have hopen := mem_tailOpened env (show ((perform (restored env s p)
    (.upgraded p (upgradeLock p key))).mem p).lazyfree = false by rw [hmem])
  unfold upgradedTo
  rw [upgradeLock_slot _ hindex]
  refine ⟨hopen.1, fun offset => ?_⟩
  rw [hopen.2 offset]
  unfold logical Page.tail
  rw [hmem]
  change (if _ then bitToTail ((restored env s p).cache.chunks p.chunk) _ _ else _) = _
  rw [cache_restored]

/-- A page that cannot be reclaimed is read back whole through a new lock. -/
theorem reads_back (env : Env) {lock : RLock} (hw : s.cache.wlock = none)
    (hmapped : s.cache.Mapped lock.key p) (hstored : (s.mem p).lazyfree = false)
    (halive : Alive s.toCore p) (dest : Buffer) :
    ∃ L t v u, lazyfreeReadLock env lock s = .ok (L, t) ∧ L.head = .page p ∧
      lazyfreeRead env L dest 0 pageSize t = .ok ((true, v), u) ∧
      ∀ i < pageSize, v i = logical s.toCore p i := by
  have hpage := pageSize_eq
  have hafter : ∀ n, Alive (after env n s).toCore p := fun n =>
    alive_after_stored env n hstored halive
  obtain ⟨L, t, hrun, hL⟩ := returns_of_wp
    (wp_readLock (Q := ReadLocked env s lock.key) hw fun _ _ h => h)
  cases hL with
  | miss hkey hhead hmissing => exact absurd hmapped (hmissing p)
  | gone d hkey hhead hd hdead =>
    obtain rfl := hmapped.unique hd
    exact absurd (hafter 1) hdead
  | hit d hkey hhead hd halive' htail =>
    obtain rfl := hmapped.unique hd
    have hread := lazyfreeRead_page env hhead dest pageSize (show 0 < 2 ^ 64 by omega)
      (after env 2 s)
    rw [after_after, if_pos (hafter _), after_after] at hread
    rw [decide_eq_true (hafter _)] at hread
    refine ⟨L, _, _, _, hrun, hhead, hread, fun i hi => ?_⟩
    have hlive : Alive (after env (pageSize + 1) (after env 2 s)).toCore p := by
      rw [after_after]
      exact hafter _
    rw [readResult_window (by omega) (by omega) hlive (Nat.le_refl _) htail hi,
      logical_after (hafter 2), Nat.zero_add]

end LazyfreeCache.Upgrade
