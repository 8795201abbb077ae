import LazyfreeCache.Upgrade

/-!
The tail bit. A page is kept in two encodings: open, with its own last byte, and
committed, with an odd last byte and the lost bit in the shared bit array.
Opening and committing the page, and whatever is done to other pages meanwhile,
keep its content.
-/
namespace LazyfreeCache.TailBits

open Bitset ProgramLogic State LazyfreeOps FallthroughOps Refinement Reads Writes Client Upgrade

/-- What is done to pages under write locks: the caller stores a whole page, `bit_from_tail`
commits it and `bit_to_tail` opens it again. -/
inductive PageOp
  | fill (d : EntryDescriptor) (X : Buffer)
  | commit (d : EntryDescriptor)
  | openTail (d : EntryDescriptor)

def PageOp.slot : PageOp → EntryDescriptor
  | .fill d _ => d
  | .commit d => d
  | .openTail d => d

def execOp (env : Env) : PageOp → M Unit
  | .fill d X => memcpyToPage env d 0 X pageSize 0
  | .commit d => do
    let _ ← bitFromEntryTail env d
  | .openTail d => bitToEntryTail env d

/-- Slot `d` is not filled, committed only when open and not open at the end. -/
def paired (d : EntryDescriptor) : Bool → List PageOp → Bool
  | opened, [] => !opened
  | opened, op :: ops =>
    if op.slot = d then
      match op with
      | .fill _ _ => false
      | .commit _ => opened && paired d false ops
      | .openTail _ => paired d true ops
    else paired d opened ops

variable {env : Env} {s t : Sys} {d p : EntryDescriptor} {X : Buffer} {opened : Bool}

/-! ### The side bits -/

theorem bit_putBit (cache : Cache) (d p : EntryDescriptor) (bit : Bool) :
    (cache.putBit d bit).bit p = if p = d then bit else cache.bit p := by
  unfold Cache.bit Cache.putBit Cache.setChunk
  by_cases hc : p.chunk = d.chunk
  · simp only [hc, Function.update_self, bitsetGet_bitsetPut]
    by_cases hi : p.index = d.index
    · rw [if_pos hi, if_pos (Cache.ext_index hc hi)]
    · rw [if_neg hi, if_neg fun h => hi (by rw [h])]
  · rw [if_neg fun h => hc (by rw [h])]
    simp [hc]

theorem putBit_bit (cache : Cache) (d : EntryDescriptor) :
    cache.putBit d (cache.bit d) = cache := by
  unfold Cache.putBit Cache.setChunk Cache.bit
  dsimp only
  rw [bitsetPut_bitsetGet, Function.update_eq_self]

/-! ### Committing -/

/-- The machine after `bit_from_tail` on the page of slot `d`. -/
def closing (env : Env) (s : Sys) (d : EntryDescriptor) : Sys :=
  storing env { after env 2 s with cache := s.cache.putBit d (tailBit env s d) } d (pageSize - 1)
    (((after env 2 s).mem d).tail ||| 1)

theorem bitFromEntryTail_eq (env : Env) (d : EntryDescriptor) (s : Sys) :
    bitFromEntryTail env d s = .ok (tailBit env s d, closing env s d) := by
  unfold bitFromEntryTail
  simp only [bind, StateT.bind, Except.bind, pure]
  rfl

theorem cache_closing (env : Env) (s : Sys) (d : EntryDescriptor) :
    (closing env s d).cache = s.cache.putBit d (tailBit env s d) := rfl

/-- Another page that was stored to is out of reach. -/
theorem mem_storing_of_ne (env : Env) (offset : ℕ) (v : UInt8) (hne : p ≠ d)
    (h : (s.mem p).lazyfree = false) : (storing env s d offset v).mem p = s.mem p := by
  have hstore : (storing env s d offset v).mem p = (s.kernel env).mem p :=
    Function.update_of_ne hne _ _
  rw [hstore, mem_kernel_of_stored h]

theorem mem_closing (h : (s.mem d).lazyfree = false) :
    (closing env s d).mem d = (s.mem d).store (pageSize - 1) ((s.mem d).tail ||| 1) := by
  have h2 := mem_after_stored env 2 h
  unfold closing
  rw [mem_storing, mem_kernel_of_stored (by rw [h2]; exact h), h2]

theorem mem_closing_of_ne (env : Env) (hne : p ≠ d) (h : (s.mem p).lazyfree = false) :
    (closing env s d).mem p = s.mem p := by
  have h2 := mem_after_stored env 2 h
  unfold closing
  rw [mem_storing_of_ne env _ _ hne (by rw [h2]; exact h)]
  exact h2

theorem mem_tailOpened_of_ne (env : Env) (hne : p ≠ d) (h : (s.mem p).lazyfree = false) :
    (tailOpened env s d).mem p = s.mem p := by
  have h1 := mem_after_stored env 1 h
  unfold tailOpened
  split
  · rfl
  · rw [mem_storing_of_ne env _ _ hne (by rw [h1]; exact h), h1]

theorem mem_copying_of_ne (env : Env) (offset : ℕ) (value : Buffer) (n i : ℕ) (hne : p ≠ d)
    (h : (s.mem p).lazyfree = false) :
    (copying env d offset value n i s).mem p = s.mem p := by
  induction n generalizing i s with
  | zero => rfl
  | succ n ih =>
    have hstep := mem_storing_of_ne env (offset + i) (value i) hne h
    unfold copying
    rw [ih (i + 1) (by rw [hstep]; exact h), hstep]

/-! ### The two encodings -/

/-- Slot `d` holds the content `X`, with its tail open or committed, and cannot be reclaimed. -/
structure Tracks (X : Buffer) (d : EntryDescriptor) (opened : Bool) (s : Sys) : Prop where
  stored : (s.mem d).lazyfree = false
  bit : s.cache.bit d = (X (pageSize - 1) &&& 1 != 0)
  bytes : ∀ i < pageSize - 1, (s.mem d).byte i = X i
  tail : (s.mem d).tail = if opened then X (pageSize - 1) else X (pageSize - 1) ||| 1

theorem Tracks.frame (h : Tracks X d opened s) (hmem : t.mem d = s.mem d)
    (hbit : t.cache.bit d = s.cache.bit d) : Tracks X d opened t where
  stored := by rw [hmem]; exact h.stored
  bit := hbit.trans h.bit
  bytes := by rw [hmem]; exact h.bytes
  tail := by rw [hmem]; exact h.tail

theorem Tracks.shows (h : Tracks X d true s) : ∀ i < pageSize, (s.mem d).byte i = X i := by
  intro i hi
  by_cases hlast : i = pageSize - 1
  · rw [hlast]
    exact h.tail
  · exact h.bytes i (by omega)

/-- In both encodings `bit_to_tail` gives the content's own last byte. -/
theorem Tracks.logical (h : Tracks X d opened s) :
    ∀ i < pageSize, logical s.toCore d i = X i := by
  intro i hi
  unfold Reads.logical
  by_cases hlast : i = pageSize - 1
  · have hbit : bitsetGet (s.cache.chunks d.chunk).bit0 d.index = (X (pageSize - 1) &&& 1 != 0) :=
      h.bit
    rw [if_pos hlast, hlast]
    unfold bitToTail
    rw [hbit, h.tail]
    by_cases heven : X (pageSize - 1) &&& 1 = 0
    · rw [if_neg (by simp [heven])]
      cases opened with
      | true => exact and_not_one_of_even _ heven
      | false => exact or_one_and_not_one _ heven
    · rw [if_pos (by simpa using heven)]
      cases opened with
      | true => rfl
      | false => exact or_one_of_odd _ heven
  · rw [if_neg hlast]
    exact h.bytes i (by omega)

/-- Committing a page that shows `X`. -/
theorem tracks_closing (env : Env) (hstored : (s.mem d).lazyfree = false)
    (hshows : ∀ i < pageSize, (s.mem d).byte i = X i) : Tracks X d false (closing env s d) := by
  have hpage := pageSize_eq
  have htail : (s.mem d).tail = X (pageSize - 1) := hshows _ (by omega)
  have hbit : tailBit env s d = (X (pageSize - 1) &&& 1 != 0) := by
    unfold tailBit
    rw [mem_after_stored env 1 hstored, htail]
  refine ⟨by rw [mem_closing hstored]; rfl, ?_, fun i hi => ?_, ?_⟩
  · rw [cache_closing, bit_putBit, if_pos rfl, hbit]
  · rw [mem_closing hstored, ← hshows i (by omega)]
    exact Function.update_of_ne (by omega) _ _
  · rw [mem_closing hstored, tail_store, htail]
    rfl

theorem tracks_tailOpened (env : Env) (h : Tracks X d opened s) :
    Tracks X d true (tailOpened env s d) := by
  have hpage := pageSize_eq
  obtain ⟨hstored, hbytes⟩ := mem_tailOpened env h.stored
  refine ⟨hstored, ?_, fun i hi => ?_, ?_⟩
  · rw [cache_tailOpened]
    exact h.bit
  · rw [hbytes, h.logical i (by omega)]
  · exact (hbytes (pageSize - 1)).trans (h.logical _ (by omega))

/-! ### Any sequence -/

/-- What is done to another slot is not noticed, whichever bits share its byte. -/
theorem tracks_other (env : Env) {op : PageOp} (hne : d ≠ op.slot) (h : Tracks X d opened s) :
    ∃ t, execOp env op s = .ok ((), t) ∧ Tracks X d opened t := by
  cases op with
  | fill p Y =>
    refine ⟨_, memcpyToPage_eq env p 0 Y pageSize 0 s, h.frame ?_ ?_⟩
    · exact mem_copying_of_ne env 0 Y pageSize 0 hne h.stored
    · rw [cache_copying]
  | commit p =>
    refine ⟨closing env s p, ?_, h.frame (mem_closing_of_ne env hne h.stored) ?_⟩
    · exact bind_ok.mpr ⟨_, _, bitFromEntryTail_eq env p s, rfl⟩
    · exact (bit_putBit _ _ _ _).trans (if_neg hne)
  | openTail p =>
    refine ⟨_, bitToEntryTail_eq env p s, h.frame (mem_tailOpened_of_ne env hne h.stored) ?_⟩
    rw [cache_tailOpened]

theorem tracks_step (env : Env) {op : PageOp} {ops : List PageOp} (h : Tracks X d opened s)
    (hops : paired d opened (op :: ops) = true) :
    ∃ t opened', execOp env op s = .ok ((), t) ∧ Tracks X d opened' t ∧
      paired d opened' ops = true := by
  by_cases hne : d = op.slot
  · subst hne
    cases op with
    | fill p Y =>
      simp [paired] at hops
    | commit p =>
      rw [paired, if_pos rfl, Bool.and_eq_true] at hops
      obtain ⟨rfl, hops⟩ := hops
      exact ⟨_, false, bind_ok.mpr ⟨_, _, bitFromEntryTail_eq env p s, rfl⟩,
        tracks_closing env h.stored h.shows, hops⟩
    | openTail p =>
      rw [paired, if_pos rfl] at hops
      exact ⟨_, true, bitToEntryTail_eq env p s, tracks_tailOpened env h, hops⟩
  · obtain ⟨t, hrun, ht⟩ := tracks_other env hne h
    refine ⟨t, opened, hrun, ht, ?_⟩
    have hrest : paired d opened (op :: ops) = paired d opened ops := if_neg (Ne.symm hne)
    exact hrest ▸ hops

theorem tracks_run (env : Env) {ops : List PageOp} (h : Tracks X d opened s)
    (hops : paired d opened ops = true) :
    ∃ t, runAll (execOp env) ops s = .ok ((), t) ∧ Tracks X d false t := by
  induction ops generalizing s opened with
  | nil =>
    obtain rfl : opened = false := by simpa [paired] using hops
    exact ⟨s, rfl, h⟩
  | cons op ops ih =>
    obtain ⟨u, opened', hrun, hu, hops'⟩ := tracks_step env h hops
    obtain ⟨t, hrun', ht⟩ := ih hu hops'
    exact ⟨t, (runAll_cons_ok _).mpr ⟨u, hrun, hrun'⟩, ht⟩

/-- The content `X` of slot `d` went through the tail bit and comes back from it. -/
structure RoundTrips (env : Env) (X : Buffer) (d : EntryDescriptor) (t : Sys) : Prop where
  bytes : ∀ i < pageSize - 1, (t.mem d).byte i = X i
  odd : (t.mem d).tail &&& 1 = 1
  /-- A read lock carries the content's last byte. -/
  reads : ∀ lock, t.cache.wlock = none → t.cache.Mapped lock.key d →
    ∃ L u, lazyfreeReadLock env lock t = .ok (L, u) ∧ L.head = .page d ∧
      L.tail = X (pageSize - 1)
  /-- Opening the page shows the content, and committing it again changes nothing. -/
  opens : ∃ u b v, bitToEntryTail env d t = .ok ((), u) ∧
    (∀ i < pageSize, (u.mem d).byte i = X i) ∧ bitFromEntryTail env d u = .ok (b, v) ∧
    v.mem d = t.mem d ∧ v.cache = t.cache
  /-- So does an upgrade through a lock on the page, with the release that follows. -/
  upgrades : ∀ L, L.head = .page d → t.cache.label d = L.key → t.cache.wlock = none →
    d.index < 2 ^ 16 → ∃ u v, lazyfreeWriteLock env L t = .ok ((d, L), u) ∧
      (∀ i < pageSize, (u.mem d).byte i = X i) ∧ lazyfreeWriteUnlock env false u = .ok ((), v) ∧
      v.mem d = t.mem d ∧ v.cache.bit d = t.cache.bit d
  /-- The bit lies within the bytes allocated for it. -/
  allocated : d.index < t.cache.pagesPerChunk → d.index / 8 < bitsetNew t.cache.pagesPerChunk

theorem Tracks.alive (h : Tracks X d false s) : Alive s.toCore d := by
  unfold Alive
  rw [h.tail]
  exact or_one_ne_zero _

theorem reads_committed (env : Env) (h : Tracks X d false t) {lock : RLock}
    (hw : t.cache.wlock = none) (hmapped : t.cache.Mapped lock.key d) :
    ∃ L u, lazyfreeReadLock env lock t = .ok (L, u) ∧ L.head = .page d ∧
      L.tail = X (pageSize - 1) := by
  have hpage := pageSize_eq
  have halive : ∀ n, Alive (after env n t).toCore d := fun n =>
    alive_after_stored env n h.stored h.alive
  obtain ⟨L, u, hrun, hL⟩ := returns_of_wp
    (wp_readLock (Q := ReadLocked env t lock.key) hw fun _ _ h => h)
  cases hL with
  | miss hkey hhead hmissing => exact absurd hmapped (hmissing d)
  | gone p hkey hhead hp hdead =>
    obtain rfl := hmapped.unique hp
    exact absurd (halive 1) hdead
  | hit p hkey hhead hp _ htail =>
    obtain rfl := hmapped.unique hp
    refine ⟨L, _, hrun, hhead, ?_⟩
    rw [htail, logical_after (halive 2), h.logical _ (by omega)]

/-- A page is its bytes and the kernel's mark. -/
theorem page_ext {p q : Page} (hbyte : ∀ i, p.byte i = q.byte i) (hmark : p.lazyfree = q.lazyfree) :
    p = q := by
  cases p
  cases q
  cases hmark
  exact congrArg (Page.mk · _) (funext hbyte)

/-- Setting the last bit of the open page gives the committed one. -/
theorem store_reclosed (h : Tracks X d false t) (hopen : Tracks X d true s)
    (hbytes : ∀ i, (s.mem d).byte i = logical t.toCore d i) :
    (s.mem d).store (pageSize - 1) ((s.mem d).tail ||| 1) = t.mem d := by
  refine page_ext (fun i => ?_) h.stored.symm
  by_cases hlast : i = pageSize - 1
  · rw [hlast]
    refine (tail_store _ _).trans ?_
    rw [hopen.tail]
    exact h.tail.symm
  · refine (Function.update_of_ne hlast _ _).trans ?_
    rw [hbytes]
    exact if_neg hlast

theorem tailBit_opened (env : Env) (h : Tracks X d true s) :
    tailBit env s d = (X (pageSize - 1) &&& 1 != 0) := by
  unfold tailBit
  rw [mem_after_stored env 1 h.stored, h.tail]
  rfl

/-- Opening and committing again restores the page and the bit array. -/
theorem opens_committed (env : Env) (h : Tracks X d false t) :
    ∃ u b v, bitToEntryTail env d t = .ok ((), u) ∧ (∀ i < pageSize, (u.mem d).byte i = X i) ∧
      bitFromEntryTail env d u = .ok (b, v) ∧ v.mem d = t.mem d ∧ v.cache = t.cache := by
  have hopen := tracks_tailOpened env h
  refine ⟨_, _, _, bitToEntryTail_eq env d t, hopen.shows, bitFromEntryTail_eq env d _, ?_, ?_⟩
  · rw [mem_closing hopen.stored]
    exact store_reclosed h hopen (mem_tailOpened env h.stored).2
  · rw [cache_closing, tailBit_opened env hopen, ← h.bit, cache_tailOpened, putBit_bit]

/-- An upgrade shows the content and a release without a store brings back the page. -/
theorem upgrades_committed (env : Env) (h : Tracks X d false t) {L : RLock}
    (hhead : L.head = .page d) (hlabel : t.cache.label d = L.key) (hw : t.cache.wlock = none)
    (hindex : d.index < 2 ^ 16) :
    ∃ u v, lazyfreeWriteLock env L t = .ok ((d, L), u) ∧ (∀ i < pageSize, (u.mem d).byte i = X i) ∧
      lazyfreeWriteUnlock env false u = .ok ((), v) ∧ v.mem d = t.mem d ∧
      v.cache.bit d = t.cache.bit d := by
  have hpin : Alive (pinned env t d).toCore d := by
    rw [alive_pinned_iff]
    exact alive_after_stored env 2 h.stored h.alive
  have hslot := upgradeLock_slot L.key hindex
  have hrun := lazyfreeWriteLock_upgrade env hhead hw (by omega) hlabel hpin
  rw [hslot] at hrun
  obtain ⟨hstored, hbytes⟩ := mem_upgradedTo L.key hpin hindex
  have hlocked : (upgradedTo env t d L.key).cache.wlock = some (upgradeLock d L.key) := by
    rw [cache_upgradedTo]
    rfl
  have hopen : Tracks X d true (upgradedTo env t d L.key) := by
    refine ⟨hstored, ?_, fun i hi => ?_, ?_⟩
    · rw [cache_upgradedTo]
      exact h.bit
    · rw [hbytes, h.logical i (by omega)]
    · exact (hbytes _).trans (h.logical _ (by decide))
  refine ⟨_, _, hrun, hopen.shows, lazyfreeWriteUnlock_commit env hlocked, ?_, ?_⟩
  · have hmem : (sealed env (upgradedTo env t d L.key) (upgradeLock d L.key)).mem
        (upgradeLock d L.key).slot = _ := mem_sealed (by rw [hslot]; exact hstored)
    rw [hslot] at hmem
    rw [hmem]
    exact store_reclosed h hopen hbytes
  · rw [cache_sealed, Cache.bit_commit, hslot, if_pos rfl, tailBit_opened env hopen, h.bit]

/-- The tail-bit encoding round-trips: from any state, once the page of slot `d` was filled with
any content and committed, it keeps that content through any sequence of fills, commits and
openings of other slots and of openings and commits of its own. -/
theorem tail_round_trip (env : Env) (s : Sys) (d : EntryDescriptor) (X : Buffer)
    (ops : List PageOp) (hops : paired d false ops = true) :
    ∃ t, runAll (execOp env) (.fill d X :: .commit d :: ops) s = .ok ((), t) ∧
      RoundTrips env X d t := by
  have hpage := pageSize_eq
  obtain ⟨hstored, hbytes⟩ := mem_copying env d 0 X (show 0 < pageSize by omega) 0 s
  have hshows : ∀ i < pageSize, ((copying env d 0 X pageSize 0 s).mem d).byte i = X i := by
    intro i hi
    have hbyte := hbytes i (Nat.zero_le i) (by omega)
    rwa [Nat.zero_add] at hbyte
  obtain ⟨t, hrun, ht⟩ := tracks_run env (tracks_closing env hstored hshows) hops
  refine ⟨t, (runAll_cons_ok _).mpr ⟨_, memcpyToPage_eq env d 0 X pageSize 0 s,
    (runAll_cons_ok _).mpr ⟨_, bind_ok.mpr ⟨_, _, bitFromEntryTail_eq env d _, rfl⟩, hrun⟩⟩,
    ht.bytes, ?_, fun lock => reads_committed env ht, opens_committed env ht,
    fun L => upgrades_committed env ht, byte_lt_bitsetNew⟩
  rw [ht.tail]
  exact or_one_odd _

/-- The seven slots around slot 3 use the same byte of the bit array. -/
theorem tail_round_trip_neighbours :
    ∃ t, runAll (execOp calm) [.fill ⟨3, 0⟩ (fun _ => 6), .commit ⟨3, 0⟩, .fill ⟨2, 0⟩ (fun _ => 7),
        .commit ⟨2, 0⟩, .openTail ⟨3, 0⟩, .openTail ⟨4, 0⟩, .commit ⟨3, 0⟩, .commit ⟨4, 0⟩]
        smallCache = .ok ((), t) ∧ RoundTrips calm (fun _ => 6) ⟨3, 0⟩ t :=
  tail_round_trip calm smallCache ⟨3, 0⟩ (fun _ => 6) [.fill ⟨2, 0⟩ fun _ => 7, .commit ⟨2, 0⟩,
    .openTail ⟨3, 0⟩, .openTail ⟨4, 0⟩, .commit ⟨3, 0⟩, .commit ⟨4, 0⟩] (by decide)

end LazyfreeCache.TailBits
