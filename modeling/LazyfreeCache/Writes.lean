import LazyfreeCache.Allocation

/-!
What taking and releasing the write lock does, and copying into a page. An
upgrade pins byte 0, checks the tail and puts byte 0 back; it either keeps the
page or allocates a new slot. Releasing seals the page: its last bit moves to
the side bits and the tail is made odd.
-/
namespace LazyfreeCache.Writes
open Bitset ProgramLogic EventReplay State LazyfreeOps FallthroughOps Refinement Reads Allocation

/-- The machine after one store to a page. -/
def storing (env : Env) (s : Sys) (d : EntryDescriptor) (offset : ℕ) (v : UInt8) : Sys :=
  perform (s.kernel env) (.stored d offset v)

theorem tail_store (p : Page) (v : UInt8) : (p.store (pageSize - 1) v).tail = v := by
  unfold Page.tail Page.store
  dsimp only
  rw [Function.update_self]

theorem tail_store_of_ne (p : Page) {offset : ℕ} (v : UInt8) (h : offset ≠ pageSize - 1) :
    (p.store offset v).tail = p.tail := by
  unfold Page.tail Page.store
  dsimp only
  rw [Function.update_of_ne (Ne.symm h)]

theorem mem_kernel_of_stored {env : Env} {s : Sys} {d : EntryDescriptor}
    (h : (s.mem d).lazyfree = false) : (s.kernel env).mem d = s.mem d := by
  change (if d ∈ env.reclaim s.clock then (s.mem d).reclaim else s.mem d) = _
  unfold Page.reclaim
  simp [h]

theorem mem_after_stored (env : Env) (n : ℕ) {s : Sys} {d : EntryDescriptor}
    (h : (s.mem d).lazyfree = false) : (after env n s).mem d = s.mem d := by
  rw [mem_after]
  unfold Page.reclaim
  simp [h]

theorem alive_after_stored (env : Env) (n : ℕ) {s : Sys} {d : EntryDescriptor}
    (h : (s.mem d).lazyfree = false) (halive : Alive s.toCore d) :
    Alive (after env n s).toCore d := by
  unfold Alive
  rw [mem_after_stored env n h]
  exact halive

theorem mem_storing (env : Env) (s : Sys) (d : EntryDescriptor) (offset : ℕ) (v : UInt8) :
    (storing env s d offset v).mem d = ((s.kernel env).mem d).store offset v :=
  Function.update_self _ _ _

section Accesses
variable {Q : UInt8 → Sys → Prop} {Q' : Unit → Sys → Prop} {E : Fault → Prop} {s : Sys}

theorem wp_readByte (env : Env) (d : EntryDescriptor) (offset : ℕ) :
    wp (readByte env d offset) Q E s ↔
      Q (((after env 1 s).mem d).byte offset) (after env 1 s) := Iff.rfl

theorem wp_storeByte (env : Env) (d : EntryDescriptor) (offset : ℕ) (v : UInt8) :
    wp (storeByte env d offset v) Q' E s ↔ Q' () (storing env s d offset v) := Iff.rfl

theorem wp_lockCheck {Q : Bool → Sys → Prop} (env : Env) {L : RLock} {d : EntryDescriptor}
    (hhead : L.head = .page d) :
    wp (lockCheck env L) Q E s ↔
      Q (decide (Alive (after env 1 s).toCore d)) (after env 1 s) :=
  wp_of_ok (lockCheck_page env s hhead)

end Accesses

/-! ### Taking the write lock -/

/-- The machine at the lock check of an upgrade: byte 0 was read, then pinned. -/
def pinned (env : Env) (s : Sys) (d : EntryDescriptor) : Sys :=
  after env 1 (storing env (after env 1 s) d 0 1)

/-- The check failed and the pin is undone. -/
def unpinned (env : Env) (s : Sys) (d : EntryDescriptor) : Sys :=
  storing env (pinned env s d) d 0 0

/-- The check succeeded and byte 0 is back. -/
def restored (env : Env) (s : Sys) (d : EntryDescriptor) : Sys :=
  storing env (pinned env s d) d 0 (((after env 1 s).mem d).byte 0)

/-- `bit_to_tail` on the page of slot `d`. -/
def tailOpened (env : Env) (s : Sys) (d : EntryDescriptor) : Sys :=
  if s.cache.bit d then s
  else storing env (after env 1 s) d (pageSize - 1) (((after env 1 s).mem d).tail &&& ~~~ 1)

theorem bitToEntryTail_eq (env : Env) (d : EntryDescriptor) (s : Sys) :
    bitToEntryTail env d s = .ok ((), tailOpened env s d) := by
  unfold tailOpened Cache.bit
  unfold bitToEntryTail
  simp only [bind, StateT.bind, Except.bind, get, getThe, MonadStateOf.get, StateT.get, pure,
    Except.pure]
  split <;> rfl

/-- The write lock an upgrade of page `d` takes: its index is the 16-bit one. -/
def upgradeLock (d : EntryDescriptor) (key : Key) : WLock := ⟨⟨d.index % 2 ^ 16, d.chunk⟩, key⟩

def upgradedTo (env : Env) (s : Sys) (d : EntryDescriptor) (key : Key) : Sys :=
  tailOpened env (perform (restored env s d) (.upgraded d (upgradeLock d key)))
    (upgradeLock d key).slot

/-- The five ways `lazyfree_write_lock` returns when no write lock is held. -/
inductive WriteLocked (env : Env) (s : Sys) (L : RLock) : EntryDescriptor → RLock → Sys → Prop
  | fresh (j : ℕ) (d : EntryDescriptor) (hhead : L.head = .null ∨ L.head = .emptyPage)
      (hfinds : Finds env s j d) :
      WriteLocked env s L d L (perform (searched env s j) (.allocated d L.key))
  /-- The slot holds another key by now. -/
  | moved (p : EntryDescriptor) (j : ℕ) (d : EntryDescriptor) (hhead : L.head = .page p)
      (hlabel : s.cache.label p ≠ L.key) (hfinds : Finds env s j d) :
      WriteLocked env s L d L.nulled (perform (searched env s j) (.allocated d L.key))
  /-- The page was reset before it could be pinned. -/
  | torn (p : EntryDescriptor) (j : ℕ) (d : EntryDescriptor) (hhead : L.head = .page p)
      (hlabel : s.cache.label p = L.key) (hdead : ¬ Alive (pinned env s p).toCore p)
      (hfinds : Finds env (unpinned env s p) j d) :
      WriteLocked env s L d L.nulled
        (perform (searched env (unpinned env s p) j) (.allocated d L.key))
  | upgraded (p : EntryDescriptor) (hhead : L.head = .page p)
      (hlabel : s.cache.label p = L.key) (halive : Alive (pinned env s p).toCore p) :
      WriteLocked env s L (upgradeLock p L.key).slot L (upgradedTo env s p L.key)

theorem writeAlloc_wp {env : Env} {key : Key} {s : Sys} {Q : EntryDescriptor → Sys → Prop}
    {E : Fault → Prop} (hw : s.cache.wlock = none)
    (hok : ∀ j d, Finds env s j d → Q d (perform (searched env s j) (.allocated d key)))
    (herror : Stuck env s → E .noFreePage) : wp (lazyfreeWriteAlloc env key) Q E s := by
  rcases lazyfreeWriteAlloc_spec env key s hw with ⟨j, d, hfinds, hrun⟩ | ⟨hstuck, hrun⟩
  · exact (wp_of_ok hrun).mpr (hok j d hfinds)
  · exact (wp_of_error hrun).mpr (herror hstuck)

theorem rlockCheckKey_eq {cache : Cache} {L : RLock} {p : EntryDescriptor}
    (hhead : L.head = .page p) (hindex : p.index < 2 ^ 32) :
    rlockCheckKey cache p.chunk L = decide (cache.label p = L.key) := by
  have hp : rlockToIndex L = p.index := by
    unfold rlockToIndex
    rw [hhead]
    exact Nat.mod_eq_of_lt hindex
  unfold rlockCheckKey
  rw [hp]
  rfl

@[simp] theorem cache_storing (env : Env) (s : Sys) (d : EntryDescriptor) (offset : ℕ) (v : UInt8) :
    (storing env s d offset v).cache = s.cache := rfl

theorem cache_pinned (env : Env) (s : Sys) (d : EntryDescriptor) :
    (pinned env s d).cache = s.cache := by
  unfold pinned
  rw [cache_after, cache_storing, cache_after]

/-- A lock on a page of its key that survives until it is pinned is upgraded. -/
theorem lazyfreeWriteLock_upgrade (env : Env) {L : RLock} {s : Sys} {p : EntryDescriptor}
    (hhead : L.head = .page p) (hw : s.cache.wlock = none) (hindex : p.index < 2 ^ 32)
    (hlabel : s.cache.label p = L.key) (halive : Alive (pinned env s p).toCore p) :
    lazyfreeWriteLock env L s =
      .ok (((upgradeLock p L.key).slot, L), upgradedTo env s p L.key) := by
  obtain ⟨hchunk, hidx⟩ := L.coherent p hhead
  have hwp : wp (lazyfreeWriteLock env L) (fun r t => r = ((upgradeLock p L.key).slot, L) ∧
      t = upgradedTo env s p L.key) (fun _ => False) s := by
    unfold lazyfreeWriteLock
    simp only [wp_bind, wp_get, wp_require, hw, not_true_eq_false, false_implies, and_true,
      true_implies]
    split
    · rename_i hnull
      cases hhead.symm.trans hnull
    · rename_i hempty
      cases hhead.symm.trans hempty
    · rename_i q hq
      obtain rfl : p = q := Head.page.inj (hhead.symm.trans hq)
      rw [hchunk, hidx]
      simp only [wp_bind, wp_get, rlockCheckKey_eq hhead hindex, decide_eq_false_iff_not]
      rw [if_neg (not_not_intro hlabel)]
      simp only [wp_bind, wp_readByte, wp_storeByte, wp_lockCheck env hhead]
      change wp (if decide (Alive (pinned env s p).toCore p) = false then _ else _) _ _
        (pinned env s p)
      rw [if_neg (by simpa using halive)]
      simp only [wp_bind, wp_storeByte]
      change wp (bitToEntryTail env _) _ _
        (perform (restored env s p) (.upgraded p (upgradeLock p L.key)))
      rw [wp_of_ok (bitToEntryTail_eq env _ _)]
      exact ⟨rfl, rfl⟩
  obtain ⟨r, t, hrun, rfl, rfl⟩ := returns_of_wp hwp
  exact hrun

/-- A write lock that returns was taken in one of the ways of `WriteLocked`, and it stops only
where the search finds no page. -/
theorem lazyfreeWriteLock_spec (env : Env) (L : RLock) (s : Sys) (hw : s.cache.wlock = none)
    (hindex : ∀ p, L.head = .page p → p.index < 2 ^ 32) :
    wp (lazyfreeWriteLock env L) (fun r t => WriteLocked env s L r.1 r.2 t)
      (fun e => e = .noFreePage ∧ (Stuck env s ∨ ∃ p, L.head = .page p ∧
        s.cache.label p = L.key ∧ ¬ Alive (pinned env s p).toCore p ∧
        Stuck env (unpinned env s p))) s := by
  by_cases hup : ∃ p, L.head = .page p ∧ s.cache.label p = L.key ∧
      Alive (pinned env s p).toCore p
  · obtain ⟨p, hhead, hlabel, halive⟩ := hup
    rw [wp_of_ok (lazyfreeWriteLock_upgrade env hhead hw (hindex p hhead) hlabel halive)]
    exact .upgraded p hhead hlabel halive
  unfold lazyfreeWriteLock
  simp only [wp_bind, wp_get, wp_require, hw, not_true_eq_false, false_implies, and_true,
    true_implies]
  split
  · rename_i hhead
    simp only [wp_bind, wp_pure]
    exact writeAlloc_wp hw (fun j d h => .fresh j d (.inl hhead) h) fun h => ⟨rfl, .inl h⟩
  · rename_i hhead
    simp only [wp_bind, wp_pure]
    exact writeAlloc_wp hw (fun j d h => .fresh j d (.inr hhead) h) fun h => ⟨rfl, .inl h⟩
  · rename_i p hhead
    obtain ⟨hchunk, hidx⟩ := L.coherent p hhead
    rw [hchunk, hidx]
    simp only [wp_bind, wp_get, rlockCheckKey_eq hhead (hindex p hhead), decide_eq_false_iff_not]
    by_cases hlabel : s.cache.label p = L.key
    · have hdead : ¬ Alive (pinned env s p).toCore p := fun h => hup ⟨p, hhead, hlabel, h⟩
      rw [if_neg (not_not_intro hlabel)]
      simp only [wp_bind, wp_readByte, wp_storeByte, wp_lockCheck env hhead]
      change wp (if decide (Alive (pinned env s p).toCore p) = false then _ else _) _ _
        (pinned env s p)
      rw [if_pos (by simpa using hdead)]
      simp only [wp_bind, wp_storeByte, wp_pure]
      exact writeAlloc_wp (by exact hw) (fun j d h => .torn p j d hhead hlabel hdead h)
        fun h => ⟨rfl, .inr ⟨p, hhead, hlabel, hdead, h⟩⟩
    · rw [if_pos hlabel]
      simp only [wp_bind, wp_pure]
      exact writeAlloc_wp hw (fun j d h => .moved p j d hhead hlabel h) fun h => ⟨rfl, .inl h⟩

/-! ### Releasing the write lock -/

/-- The bit that `bit_from_tail` puts aside. -/
def tailBit (env : Env) (s : Sys) (d : EntryDescriptor) : Bool :=
  ((after env 1 s).mem d).tail &&& 1 != 0

/-- The machine after `lazyfree_write_unlock` without drop. -/
def sealed (env : Env) (s : Sys) (w : WLock) : Sys :=
  perform (storing env (after env 2 s) w.slot (pageSize - 1)
    (((after env 2 s).mem w.slot).tail ||| 1)) (.committed w (tailBit env s w.slot))

theorem lazyfreeWriteUnlock_commit (env : Env) {s : Sys} {w : WLock}
    (hw : s.cache.wlock = some w) :
    lazyfreeWriteUnlock env false s = .ok ((), sealed env s w) := by
  unfold lazyfreeWriteUnlock
  simp only [bind, StateT.bind, Except.bind, get, getThe, MonadStateOf.get, StateT.get, pure,
    Except.pure, hw]
  rfl

theorem lazyfreeWriteUnlock_drop (env : Env) {s : Sys} {w : WLock}
    (hw : s.cache.wlock = some w) :
    lazyfreeWriteUnlock env true s =
      if (s.cache.free w.slot.chunk).length < s.cache.len w.slot.chunk then
        .ok ((), perform s (.dropped w.slot (s.cache.label w.slot)))
      else .error .freePagesOverflow := by
  have hrun : lazyfreeWriteUnlock env true s =
      cacheDrop w.slot { s with cache := s.cache.setWlock none } := by
    unfold lazyfreeWriteUnlock
    simp only [bind, StateT.bind, Except.bind, get, getThe, MonadStateOf.get, StateT.get, pure,
      Except.pure, hw]
    rfl
  have hdrop : (s.cache.setWlock none).drop w.slot = s.cache.drop w.slot := by
    unfold Cache.drop Cache.setWlock Cache.hmapRemove Cache.label
    split <;> rfl
  rw [hrun, cacheDrop_eq _ _ rfl]
  change (if _ < _ then Except.ok ((), { s with
    cache := (s.cache.setWlock none).drop w.slot
    trace := s.trace ++ [Event.dropped w.slot (s.cache.label w.slot)] }) else _) = _
  rw [hdrop]
  rfl

@[simp] theorem cache_sealed (env : Env) (s : Sys) (w : WLock) :
    (sealed env s w).cache = s.cache.commit w (tailBit env s w.slot) := by
  change (after env 2 s).cache.commit w _ = _
  rw [cache_after]

/-- Releasing a page that was stored to keeps its content and marks it alive. -/
theorem mem_sealed {env : Env} {s : Sys} {w : WLock} (h : (s.mem w.slot).lazyfree = false) :
    (sealed env s w).mem w.slot =
      (s.mem w.slot).store (pageSize - 1) ((s.mem w.slot).tail ||| 1) := by
  have h2 : (after env 2 s).mem w.slot = s.mem w.slot := by
    rw [after_succ, after_one, mem_kernel_of_stored, mem_kernel_of_stored h]
    rw [mem_kernel_of_stored h, h]
  change (storing env (after env 2 s) w.slot (pageSize - 1) _).mem w.slot = _
  rw [mem_storing, mem_kernel_of_stored (by rw [h2, h]), h2]

theorem stored_sealed (env : Env) (s : Sys) (w : WLock) :
    ((sealed env s w).mem w.slot).lazyfree = false := by
  change ((storing env (after env 2 s) w.slot (pageSize - 1) _).mem w.slot).lazyfree = false
  rw [mem_storing]
  rfl

theorem alive_sealed (env : Env) (s : Sys) (w : WLock) :
    Alive (sealed env s w).toCore w.slot := by
  change ((storing env (after env 2 s) w.slot (pageSize - 1)
    (((after env 2 s).mem w.slot).tail ||| 1)).mem w.slot).tail ≠ 0
  rw [mem_storing, tail_store]
  exact or_one_ne_zero _

theorem logical_sealed {env : Env} {s : Sys} {w : WLock} (h : (s.mem w.slot).lazyfree = false)
    (offset : ℕ) : logical (sealed env s w).toCore w.slot offset = (s.mem w.slot).byte offset := by
  have h1 : (after env 1 s).mem w.slot = s.mem w.slot := mem_kernel_of_stored h
  have hbit : bitsetGet ((sealed env s w).cache.chunks w.slot.chunk).bit0 w.slot.index =
      ((s.mem w.slot).tail &&& 1 != 0) := by
    have hcommit := Cache.bit_commit s.cache w.slot w (tailBit env s w.slot)
    rw [if_pos rfl, tailBit, h1] at hcommit
    rw [cache_sealed, tailBit, h1]
    exact hcommit
  unfold logical
  rw [mem_sealed h]
  by_cases hoff : offset = pageSize - 1
  · subst hoff
    rw [if_pos rfl, tail_store]
    unfold bitToTail
    rw [hbit]
    by_cases hodd : (s.mem w.slot).tail &&& 1 = 0
    · rw [if_neg (by simp [hodd]), or_one_and_not_one _ hodd]
      rfl
    · rw [if_pos (by simp [hodd]), or_one_of_odd _ hodd]
      rfl
  · rw [if_neg hoff]
    exact Function.update_of_ne hoff _ _

/-! ### Releasing a read lock -/

theorem wp_readUnlock {Q : Bool → Sys → Prop} {E : Fault → Prop} {env : Env} {L : RLock}
    {d : EntryDescriptor} {s : Sys} {drop : Bool} (hhead : L.head = .page d)
    (hw : s.cache.wlock = none) (hindex : d.index < 2 ^ 32)
    (hdead : ¬ Alive (after env 1 s).toCore d → E .lockCheckFailed)
    (hmoved : Alive (after env 1 s).toCore d → s.cache.label d ≠ L.key → Q false (after env 1 s))
    (hkeep : Alive (after env 1 s).toCore d → s.cache.label d = L.key → drop = false →
      Q true (after env 1 s))
    (hdrop : Alive (after env 1 s).toCore d → s.cache.label d = L.key → drop = true →
      (s.cache.free d.chunk).length < s.cache.len d.chunk →
      Q true (perform (after env 1 s) (.dropped d L.key)))
    (hover : Alive (after env 1 s).toCore d → s.cache.label d = L.key → drop = true →
      s.cache.len d.chunk ≤ (s.cache.free d.chunk).length → E .freePagesOverflow) :
    wp (lazyfreeReadUnlock env L drop) Q E s := by
  obtain ⟨hchunk, -⟩ := L.coherent d hhead
  unfold lazyfreeReadUnlock
  simp only [wp_bind, wp_get, wp_require, hw, hhead, reduceCtorEq, ne_eq, not_false_eq_true,
    not_true_eq_false, true_implies, false_implies, and_true, if_false, hchunk,
    wp_lockCheck env hhead, decide_eq_true_eq]
  refine ⟨fun halive => ?_, hdead⟩
  rw [cache_after, rlockCheckKey_eq hhead hindex]
  by_cases hlabel : s.cache.label d = L.key
  · have hslot : (⟨rlockToIndex L, d.chunk⟩ : EntryDescriptor) = d := by
      unfold rlockToIndex
      rw [hhead]
      exact Cache.ext_index rfl (Nat.mod_eq_of_lt hindex)
    simp only [hlabel, decide_true, Bool.true_eq_false, if_false]
    by_cases hd : drop = false
    · rw [if_pos hd]
      exact hkeep halive hlabel hd
    · have hd' : drop = true := by simpa using hd
      rw [if_neg hd, hslot, wp_bind]
      by_cases hfree : (s.cache.free d.chunk).length < s.cache.len d.chunk
      · rw [wp_of_ok (a := ()) (t := perform (after env 1 s) (.dropped d L.key))]
        · exact hdrop halive hlabel hd' hfree
        · rw [cacheDrop_eq _ _ (by rw [cache_after, hw]), cache_after, if_pos hfree, hlabel]
      · rw [wp_of_error (e := .freePagesOverflow)]
        · exact hover halive hlabel hd' (Nat.not_lt.mp hfree)
        · rw [cacheDrop_eq _ _ (by rw [cache_after, hw]), cache_after, if_neg hfree]
  · simp only [hlabel, decide_false, if_true]
    exact hmoved halive hlabel

/-! ### Filling a page -/

/-- The machine after `memcpy` stored bytes `i` to `i + n - 1`. -/
def copying (env : Env) (page : EntryDescriptor) (offset : ℕ) (value : Buffer) :
    ℕ → ℕ → Sys → Sys
  | 0, _, s => s
  | n + 1, i, s =>
    copying env page offset value n (i + 1) (storing env s page (offset + i) (value i))

theorem memcpyToPage_eq (env : Env) (page : EntryDescriptor) (offset : ℕ) (value : Buffer)
    (n i : ℕ) (s : Sys) :
    memcpyToPage env page offset value n i s = .ok ((), copying env page offset value n i s) := by
  induction n generalizing i s with
  | zero => rfl
  | succ n ih => exact ih (i + 1) (storing env s page (offset + i) (value i))

section Copying
variable {env : Env} {page : EntryDescriptor} {offset : ℕ} {value : Buffer}

@[simp] theorem cache_copying (n i : ℕ) (s : Sys) :
    (copying env page offset value n i s).cache = s.cache := by
  induction n generalizing i s with
  | zero => rfl
  | succ n ih => exact ih (i + 1) _

/-- A page that was stored to since `MADV_FREE` stays, so the copy lands in it. -/
theorem mem_copying_of_stored (n i : ℕ) (s : Sys) (h : (s.mem page).lazyfree = false) :
    (copying env page offset value n i s).mem page =
      ⟨fun o => if offset + i ≤ o ∧ o < offset + i + n then value (o - offset)
        else (s.mem page).byte o, false⟩ := by
  induction n generalizing i s with
  | zero =>
    have hpage : s.mem page = ⟨(s.mem page).byte, (s.mem page).lazyfree⟩ := rfl
    rw [h] at hpage
    unfold copying
    rw [hpage]
    congr 1
    funext o
    rw [if_neg (by omega)]
  | succ n ih =>
    unfold copying
    rw [ih (i + 1) _ (by rw [mem_storing]; rfl), mem_storing, mem_kernel_of_stored h]
    congr 1
    funext o
    unfold Page.store
    dsimp only
    by_cases ho : o = offset + i
    · subst ho
      rw [if_neg (by omega), if_pos (by omega), Function.update_self, Nat.add_sub_cancel_left]
    · rw [Function.update_of_ne ho]
      by_cases hin : offset + i ≤ o ∧ o < offset + i + (n + 1)
      · rw [if_pos hin, if_pos (by omega)]
      · rw [if_neg hin, if_neg (by omega)]

/-- Whatever the kernel took before the first store, the copy is in the page. -/
theorem mem_copying (env : Env) (page : EntryDescriptor) (offset : ℕ) (value : Buffer) {n : ℕ}
    (hn : 0 < n) (i : ℕ) (s : Sys) :
    ((copying env page offset value n i s).mem page).lazyfree = false ∧
      ∀ j, i ≤ j → j < i + n →
        ((copying env page offset value n i s).mem page).byte (offset + j) = value j := by
  obtain ⟨n, rfl⟩ := Nat.exists_eq_succ_of_ne_zero (Nat.pos_iff_ne_zero.mp hn)
  unfold copying
  rw [mem_copying_of_stored n (i + 1) _ (by rw [mem_storing]; rfl)]
  refine ⟨rfl, ?_⟩
  intro j hij hjn
  dsimp only
  by_cases hj : j = i
  · subst hj
    rw [if_neg (by omega), mem_storing]
    exact Function.update_self _ _ _
  · rw [if_pos (by omega), Nat.add_sub_cancel_left]

end Copying

end LazyfreeCache.Writes
