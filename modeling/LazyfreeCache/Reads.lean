import LazyfreeCache.Refinement

/-!
What the reading functions return. They store nothing, so the machine they
leave is the one after some number of accesses, and the number is exact. A page
whose tail is still set at the end was intact all along, hence a read that ends
with a true lock check has seen one content only.
-/
namespace LazyfreeCache.Reads

open Bitset ProgramLogic EventReplay State LazyfreeOps FallthroughOps Refinement

/-- The page has not been reset: its tail byte is set. -/
def Alive (s : Core) (d : EntryDescriptor) : Prop := (s.mem d).tail ≠ 0

instance (s : Core) (d : EntryDescriptor) : Decidable (Alive s d) := by
  unfold Alive
  infer_instance

/-- The page as its owner wrote it: the last bit comes from the side bits. -/
def logical (s : Core) (d : EntryDescriptor) (offset : ℕ) : UInt8 :=
  if offset = pageSize - 1 then
    bitToTail (s.cache.chunks d.chunk) d.index (s.mem d).tail
  else (s.mem d).byte offset

theorem pos_iff_alive (s : Core) (d : EntryDescriptor) :
    0 < (s.mem d).tail ↔ Alive s d := by
  unfold Alive
  rw [UInt8.pos_iff_ne_zero]

theorem not_alive_reclaim {p : Page} (h : p.reclaim.tail ≠ 0) : p.reclaim = p := by
  unfold Page.reclaim at h ⊢
  split
  · rename_i hl
    simp [hl, Page.tail] at h
  · rfl

/-- Being alive later means the page is untouched since. -/
theorem mem_eq_of_alive_after {env : Env} {n : ℕ} {s : Sys} {d : EntryDescriptor}
    (h : Alive (after env n s).toCore d) : (after env n s).mem d = s.mem d := by
  unfold Alive at h
  rw [mem_after] at h ⊢
  split
  · rename_i hr
    rw [if_pos hr] at h
    exact not_alive_reclaim h
  · rfl

theorem alive_of_alive_after {env : Env} {n : ℕ} {s : Sys} {d : EntryDescriptor}
    (h : Alive (after env n s).toCore d) : Alive s.toCore d := by
  unfold Alive
  rw [← mem_eq_of_alive_after h]
  exact h

theorem alive_after_of_le {env : Env} {m n : ℕ} {s : Sys} {d : EntryDescriptor}
    (h : Alive (after env n s).toCore d) (hmn : m ≤ n) :
    Alive (after env m s).toCore d := by
  obtain ⟨k, rfl⟩ := Nat.exists_eq_add_of_le hmn
  rw [Nat.add_comm, ← after_after] at h
  exact alive_of_alive_after h

theorem mem_after_eq_of_alive {env : Env} {m n : ℕ} {s : Sys} {d : EntryDescriptor}
    (h : Alive (after env n s).toCore d) (hmn : m ≤ n) :
    (after env m s).mem d = s.mem d :=
  mem_eq_of_alive_after (alive_after_of_le h hmn)

theorem logical_after {env : Env} {n : ℕ} {s : Sys} {d : EntryDescriptor}
    (h : Alive (after env n s).toCore d) (offset : ℕ) :
    logical (after env n s).toCore d offset = logical s.toCore d offset := by
  unfold logical
  rw [cache_after, mem_eq_of_alive_after h]

theorem lockCheck_page (env : Env) {lock : RLock} {d : EntryDescriptor} (s : Sys)
    (h : lock.head = .page d) :
    lockCheck env lock s =
      .ok (decide (Alive (after env 1 s).toCore d), after env 1 s) := by
  have hrun : lockCheck env lock s =
      .ok (decide (0 < ((after env 1 s).mem d).tail), after env 1 s) := by
    unfold lockCheck
    rw [h]
    rfl
  rw [hrun]
  simp only [pos_iff_alive]

theorem lockCheck_emptyPage (env : Env) {lock : RLock} (s : Sys)
    (h : lock.head = .emptyPage) : lockCheck env lock s = .ok (false, s) := by
  unfold lockCheck
  rw [h]
  rfl

/-- The result of `lazyfree_read_lock` when no write lock is held. -/
inductive ReadLocked (env : Env) (s : Sys) (key : Key) : RLock → Sys → Prop
  /-- The key is not in the map, or its slot holds another key. -/
  | miss (L : RLock) (hkey : L.key = key) (hhead : L.head = .emptyPage)
      (hmissing : ∀ d, ¬ s.cache.Mapped key d) : ReadLocked env s key L s
  /-- The kernel took the page. -/
  | gone (L : RLock) (d : EntryDescriptor) (hkey : L.key = key) (hhead : L.head = .emptyPage)
      (hmapped : s.cache.Mapped key d) (hdead : ¬ Alive (after env 1 s).toCore d) :
      ReadLocked env s key L (after env 1 s)
  | hit (L : RLock) (d : EntryDescriptor) (hkey : L.key = key) (hhead : L.head = .page d)
      (hmapped : s.cache.Mapped key d) (halive : Alive (after env 1 s).toCore d)
      (htail : L.tail = logical (after env 2 s).toCore d (pageSize - 1)) :
      ReadLocked env s key L (after env 2 s)

theorem wp_readLock {Q : RLock → Sys → Prop} {E : Fault → Prop} {env : Env} {lock : RLock}
    {s : Sys} (hw : s.cache.wlock = none) (h : ∀ L t, ReadLocked env s lock.key L t → Q L t) :
    wp (lazyfreeReadLock env lock) Q E s := by
  refine wp_mono (Q := ReadLocked env s lock.key) (E := fun _ => False) ?_ h
    (fun e he => he.elim)
  unfold lazyfreeReadLock
  simp only [wp_bind, wp_get, wp_require, hw, not_true_eq_false, false_implies, and_true,
    true_implies]
  cases hmap : s.cache.hmapGet lock.key with
  | none => exact .miss _ rfl rfl fun d hd => by cases hmap.symm.trans hd.1
  | some d =>
    by_cases hlabel : s.cache.label d = lock.key
    · simp only [hlabel, ne_eq, not_true_eq_false, if_false, wp_bind, wp_ite]
      change ((((after env 1 s).mem d).tail = 0 → _) ∧ _)
      constructor
      · intro htail
        exact .gone _ d rfl rfl ⟨hmap, hlabel⟩ (by simpa [Alive] using htail)
      · intro htail
        exact .hit _ d rfl rfl ⟨hmap, hlabel⟩ htail (by
          change bitToTail _ _ ((after env 2 s).mem d).tail = _
          simp [logical])
    · simp only [ne_eq, hlabel, not_false_eq_true, if_true]
      refine .miss _ rfl rfl fun e he => ?_
      obtain rfl : d = e := Option.some.inj (hmap.symm.trans he.1)
      exact hlabel he.2

theorem wlock_of_readLock {env : Env} {lock L : RLock} {s t : Sys}
    (hrun : lazyfreeReadLock env lock s = .ok (L, t)) :
    s.cache.wlock = none := by
  by_contra hw
  have hstops : wp (lazyfreeReadLock env lock) (fun _ _ => False) (fun _ => True) s := by
    unfold lazyfreeReadLock
    simp [hw]
  exact (wp_of_ok hrun).mp hstops

theorem readLocked_of_ok {env : Env} {lock L : RLock} {s t : Sys}
    (hrun : lazyfreeReadLock env lock s = .ok (L, t)) :
    ReadLocked env s lock.key L t :=
  (wp_of_ok hrun).mp (wp_readLock (E := fun _ => False) (wlock_of_readLock hrun) fun _ _ h => h)

/-! ### The copy loop -/

/-- The rounds the loop makes: up to the window's or the page's end. -/
def copied (offset size : ℕ) : ℕ := min size (pageSize - offset)

theorem loop_condition_iff {offset size i : ℕ} (hoff : offset < 2 ^ 64)
    (hi : i ≤ copied offset size) :
    (i < size ∧ u64 (offset + i) < pageSize) ↔ i < copied offset size := by
  have hpage := pageSize_eq
  unfold copied at *
  unfold u64
  by_cases hlt : offset < pageSize
  · rw [Nat.mod_eq_of_lt (by omega)]
    omega
  · have hi0 : i = 0 := by omega
    subst hi0
    rw [Nat.add_zero, Nat.mod_eq_of_lt hoff]
    omega

/-- The bytes the loop leaves: round `j` reads byte `offset + j` at its own time. -/
def copyFrom (env : Env) (s : Sys) (d : EntryDescriptor) (offset size i : ℕ)
    (dest : Buffer) : Buffer := fun j =>
  if i ≤ j ∧ j < copied offset size then
    ((after env (j - i + 1) s).mem d).byte (offset + j)
  else dest j

theorem lazyfreeReadLoop_eq (env : Env) {lock : RLock} {d : EntryDescriptor}
    (hhead : lock.head = .page d) {offset size : ℕ} (hoff : offset < 2 ^ 64)
    (rounds i : ℕ) (dest : Buffer) (s : Sys) (hi : i ≤ copied offset size)
    (hrounds : copied offset size ≤ i + rounds) :
    lazyfreeReadLoop env lock offset size rounds i dest s =
      .ok (copyFrom env s d offset size i dest, after env (copied offset size - i) s) := by
  induction rounds generalizing i dest s with
  | zero =>
    have hdone : copied offset size = i := by omega
    have hdest : copyFrom env s d offset size i dest = dest := by
      funext j
      unfold copyFrom
      rw [if_neg (by omega)]
    rw [hdest, hdone, Nat.sub_self]
    rfl
  | succ rounds ih =>
    unfold lazyfreeReadLoop
    by_cases hmore : i < copied offset size
    · rw [if_pos ((loop_condition_iff hoff hi).mpr hmore), hhead]
      change lazyfreeReadLoop env lock offset size rounds (i + 1)
        (Function.update dest i (((after env 1 s).mem d).byte (u64 (offset + i))))
        (after env 1 s) = _
      rw [ih (i + 1) _ _ hmore (by omega), after_after]
      have haddr : u64 (offset + i) = offset + i := by
        have hpage := pageSize_eq
        unfold copied at hmore
        exact Nat.mod_eq_of_lt (by omega)
      have hlen : copied offset size - (i + 1) + 1 = copied offset size - i := by omega
      have hdest : copyFrom env (after env 1 s) d offset size (i + 1)
          (Function.update dest i (((after env 1 s).mem d).byte (u64 (offset + i)))) =
            copyFrom env s d offset size i dest := by
        funext j
        unfold copyFrom
        rw [after_after, haddr]
        by_cases hj : j = i
        · subst hj
          rw [if_neg (by omega), if_pos ⟨le_refl j, hmore⟩, Function.update_self, Nat.sub_self]
        · rw [Function.update_of_ne hj]
          by_cases hjlt : i ≤ j ∧ j < copied offset size
          · rw [if_pos hjlt, if_pos (by omega), show j - (i + 1) + 1 + 1 = j - i + 1 by omega]
          · rw [if_neg hjlt, if_neg (by omega)]
      rw [hdest, hlen]
    · have hdone : copied offset size = i := by omega
      have hdest : copyFrom env s d offset size i dest = dest := by
        funext j
        unfold copyFrom
        rw [if_neg (by omega)]
      rw [if_neg (fun h => hmore ((loop_condition_iff hoff hi).mp h)), hdest, hdone,
        Nat.sub_self]
      rfl

/-- The buffer after `lazyfree_read` went past its first check. -/
def readResult (env : Env) (s : Sys) (lock : RLock) (d : EntryDescriptor) (dest : Buffer)
    (offset size : ℕ) : Buffer :=
  let dest := copyFrom env (after env 1 s) d offset size 0 dest
  if u64 (offset + size) = pageSize
  then Function.update dest (u64 (size + (2 ^ 64 - 1))) lock.tail else dest

theorem lazyfreeRead_page (env : Env) {lock : RLock} {d : EntryDescriptor}
    (hhead : lock.head = .page d) (dest : Buffer) {offset : ℕ} (size : ℕ)
    (hoff : offset < 2 ^ 64) (s : Sys) :
    lazyfreeRead env lock dest offset size s =
      if Alive (after env 1 s).toCore d then
        .ok ((decide (Alive (after env (copied offset size + 2) s).toCore d),
          readResult env s lock d dest offset size), after env (copied offset size + 2) s)
      else .ok ((false, dest), after env 1 s) := by
  have hrounds : copied offset size ≤ 0 + pageSize := by
    unfold copied
    omega
  have hloop := lazyfreeReadLoop_eq env hhead hoff pageSize 0 dest (after env 1 s)
    (Nat.zero_le _) hrounds
  unfold lazyfreeRead
  simp only [bind, StateT.bind, Except.bind, lockCheck_page env s hhead]
  by_cases halive : Alive (after env 1 s).toCore d
  · simp only [halive, decide_true, Bool.true_eq_false, if_false, if_true]
    simp only [StateT.bind, bind, Except.bind, hloop, lockCheck_page env _ hhead, after_after]
    rw [show 1 + (copied offset size - 0 + 1) = copied offset size + 2 by omega]
    rfl
  · simp only [halive, decide_false, if_true, if_false]
    rfl

theorem lazyfreeRead_emptyPage (env : Env) {lock : RLock} (hhead : lock.head = .emptyPage)
    (dest : Buffer) (offset size : ℕ) (s : Sys) :
    lazyfreeRead env lock dest offset size s = .ok ((false, dest), s) := by
  unfold lazyfreeRead
  simp only [bind, StateT.bind, Except.bind, lockCheck_emptyPage env s hhead]
  rfl

/-- A read only accesses pages; a lock without a target stops the process. -/
theorem wp_read (env : Env) (lock : RLock) (dest : Buffer) {offset : ℕ} (size : ℕ)
    (hoff : offset < 2 ^ 64) (s : Sys) :
    wp (lazyfreeRead env lock dest offset size) (fun _ t => ∃ n, t = after env n s)
      (· = .nullHead) s := by
  cases hhead : lock.head with
  | null =>
    unfold lazyfreeRead lockCheck
    rw [hhead]
    rfl
  | emptyPage =>
    rw [wp_of_ok (lazyfreeRead_emptyPage env hhead dest offset size s)]
    exact ⟨0, rfl⟩
  | page d =>
    have hrun := lazyfreeRead_page env hhead dest size hoff s
    split at hrun
    · rw [wp_of_ok hrun]
      exact ⟨_, rfl⟩
    · rw [wp_of_ok hrun]
      exact ⟨1, rfl⟩

/-- A copy out of a page that survives to the end is a copy of one content. -/
theorem copyFrom_of_alive {env : Env} {s : Sys} {d : EntryDescriptor} {offset size n : ℕ}
    {dest : Buffer} (h : Alive (after env n s).toCore d) (hn : copied offset size ≤ n)
    {j : ℕ} (hj : j < copied offset size) :
    copyFrom env s d offset size 0 dest j = (s.mem d).byte (offset + j) := by
  unfold copyFrom
  rw [if_pos ⟨Nat.zero_le j, hj⟩, mem_after_eq_of_alive h (by omega)]

/-- A window of a page that survives is read as its logical content, the last byte of the page
from the lock. -/
theorem readResult_window {env : Env} {s : Sys} {lock : RLock} {d : EntryDescriptor}
    {dest : Buffer} {offset size n : ℕ} (hsize : 1 ≤ size) (hwindow : offset + size ≤ pageSize)
    (h : Alive (after env n s).toCore d) (hn : size + 1 ≤ n)
    (htail : lock.tail = logical s.toCore d (pageSize - 1)) {i : ℕ} (hi : i < size) :
    readResult env s lock d dest offset size i = logical s.toCore d (offset + i) := by
  have hpage := pageSize_eq
  have hcopied : copied offset size = size := by unfold copied; omega
  have hlast : u64 (size + (2 ^ 64 - 1)) = size - 1 := by unfold u64; omega
  have hend : u64 (offset + size) = pageSize ↔ offset + size = pageSize := by
    unfold u64
    omega
  have hcopy : copyFrom env (after env 1 s) d offset size 0 dest i =
      (s.mem d).byte (offset + i) := by
    have halive : Alive (after env (n - 1) (after env 1 s)).toCore d := by
      rw [after_after, show n - 1 + 1 = n by omega]
      exact h
    rw [copyFrom_of_alive halive (by omega) (by omega), mem_after_eq_of_alive h (by omega)]
  unfold readResult
  simp only [hend, hlast]
  by_cases hfull : offset + size = pageSize
  · rw [if_pos hfull]
    by_cases hi' : i = size - 1
    · subst hi'
      rw [Function.update_self, htail, show offset + (size - 1) = pageSize - 1 by omega]
    · rw [Function.update_of_ne hi', hcopy]
      exact (if_neg (by omega)).symm
  · rw [if_neg hfull, hcopy]
    exact (if_neg (by omega)).symm

end LazyfreeCache.Reads
