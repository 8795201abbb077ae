import LazyfreeCache.Commits
import LazyfreeCache.ReadUnlock

/-!
What `lazyfree_read` reads. For a window of at least one byte within the page it
is never torn: a true result means that every byte, the last one included, is
as it was last committed, whenever the kernel took the page. Outside of such
windows the loop, the override of the last byte and the result go by different
tests, and the promise is broken.
-/
namespace LazyfreeCache.ReadWindow

open ProgramLogic EventReplay State LazyfreeOps FallthroughOps Refinement Reads Allocation
open Writes Frames Client ReadUnlock Commits

variable {env : Env} {s t : Sys} {d : EntryDescriptor}

/-- A page that the kernel left alone is still there. -/
theorem alive_after_of_untaken {n : ℕ} (halive : Alive s.toCore d)
    (htaken : .reclaimed d ∉ newEvents s (after env n s)) : Alive (after env n s).toCore d := by
  obtain ⟨ds, hds⟩ := performs_after env n s
  rw [newEvents_eq hds] at htaken
  have hd : d ∉ ds := fun hmem => htaken (List.mem_map_of_mem hmem)
  unfold Alive
  rw [show (after env n s).mem d = (after env n s).toCore.mem d from rfl, hds.1,
    mem_replay_reclaimed, if_neg hd]
  exact halive

/-- What nothing took since its last commit was there before the last accesses too. -/
theorem untaken_of_after {s₀ : Core} {n : ℕ} {X : Buffer} (hX : LastCommit s₀ s.toCore d X)
    (h : Untaken s₀ (after env n s).toCore d) :
    Untaken s₀ s.toCore d ∧ .reclaimed d ∉ newEvents s (after env n s) := by
  obtain ⟨as, w', bit', bs, htrace', -⟩ := hX
  obtain ⟨es, w, bit, fs, htrace, rfl, hfs⟩ := h
  obtain ⟨ds, hds⟩ := performs_after env n s
  have hsplit : (as ++ .committed w' bit' :: bs) ++ ds.map Event.reclaimed =
      es ++ .committed w bit :: fs := by
    have htraces : s₀.trace ++ ((as ++ .committed w' bit' :: bs) ++ ds.map Event.reclaimed) =
        s₀.trace ++ (es ++ .committed w bit :: fs) := by
      rw [← htrace, ← List.append_assoc, ← htrace']
      exact hds.trace.symm
    exact List.append_cancel_left htraces
  rw [newEvents_eq hds]
  rcases split_cases hsplit with ⟨cs, -, hcs⟩ | ⟨cs, hcs, rfl⟩
  · -- no access is a commit
    have hmem : .committed w bit ∈ ds.map Event.reclaimed := by
      rw [hcs]
      simp
    obtain ⟨q, -, hq⟩ := List.mem_map.mp hmem
    cases hq
  · refine ⟨⟨es, w, bit, cs, htrace'.trans (by rw [hcs]), rfl, fun e he =>
      hfs e (List.mem_append_left _ he)⟩, fun hmem => ?_⟩
    exact (hfs _ (List.mem_append_right cs hmem)).2 rfl

/-- A read lock and a read through it, from a state in which pages show their last commits. -/
theorem read_window (env : Env) {s₀ : Sys} {p : Process} (hshows : ShowsCommits s₀ p)
    (hw : p.sys.cache.wlock = none) {lock : RLock} (hmapped : p.sys.cache.Mapped lock.key d)
    {X : Buffer} (hX : LastCommit s₀.toCore p.sys.toCore d X) (dest : Buffer) {offset size : ℕ}
    (hsize : 1 ≤ size) (hwindow : offset + size ≤ pageSize) :
    ∃ L s b v n, lazyfreeReadLock env lock p.sys = .ok (L, s) ∧
      lazyfreeRead env L dest offset size s = .ok ((b, v), after env n p.sys) ∧
      (b = true → ∀ i < size, v i = X (offset + i)) ∧
      (Alive p.sys.toCore d → .reclaimed d ∉ newEvents p.sys (after env n p.sys) → b = true) := by
  have hpage := pageSize_eq
  have hfree : ¬ WriteHeld d p.sys.toCore := not_writeHeld hw
  obtain ⟨L, s, hlock, hL⟩ := returns_of_wp
    (wp_readLock (Q := ReadLocked env p.sys lock.key) hw fun _ _ h => h)
  cases hL with
  | miss hkey hhead hmissing => exact absurd hmapped (hmissing d)
  | gone e hkey hhead he hdead =>
    obtain rfl := hmapped.unique he
    refine ⟨L, _, false, dest, _, hlock, lazyfreeRead_emptyPage env hhead dest offset size _,
      by simp, fun halive htaken => ?_⟩
    exact absurd (alive_after_of_untaken halive htaken) hdead
  | hit e hkey hhead he halive htail =>
    obtain rfl := hmapped.unique he
    have hread := lazyfreeRead_page env hhead dest size (by omega : offset < 2 ^ 64)
      (after env 2 p.sys)
    split at hread
    · rw [after_after] at hread
      refine ⟨L, _, _, _, _, hlock, hread, fun hb i hi => ?_, fun halive' htaken => ?_⟩
      · have hend := of_decide_eq_true hb
        have hcopied : copied offset size = size := by unfold copied; omega
        have hend' : Alive (after env (copied offset size + 2) (after env 2 p.sys)).toCore d := by
          rw [after_after]
          exact hend
        rw [readResult_window hsize hwindow hend' (by omega) htail hi,
          logical_after (alive_after_of_le hend (by omega)),
          hshows.shows d X hX hfree (alive_of_alive_after hend)]
      · exact decide_eq_true (alive_after_of_untaken halive' htaken)
    · rename_i hdead
      rw [after_after] at hread hdead
      refine ⟨L, _, false, dest, _, hlock, hread, by simp, fun halive' htaken => ?_⟩
      exact absurd (alive_after_of_untaken halive' htaken) hdead

/-- A caller that has stored to the page of a key and unlocks it reads back its own bytes, or
finds the page taken. -/
theorem stored_bytes_read {s₀ : Sys} {p : Process} (hshows : ShowsCommits s₀ p) {w : WLock}
    (hw : p.sys.cache.wlock = some w) (hstored : (p.sys.mem w.slot).lazyfree = false)
    {lock : RLock} (hmapped : p.sys.cache.Mapped lock.key w.slot) (dest : Buffer)
    {offset size : ℕ} (hsize : 1 ≤ size) (hwindow : offset + size ≤ pageSize) :
    ∃ t L s b v u, lazyfreeWriteUnlock env false p.sys = .ok ((), t) ∧
      lazyfreeReadLock env lock t = .ok (L, s) ∧
      lazyfreeRead env L dest offset size s = .ok ((b, v), u) ∧
      (b = true → ∀ i < size, v i = (p.sys.mem w.slot).byte (offset + i)) ∧
      (.reclaimed w.slot ∉ newEvents t u → b = true) := by
  obtain ⟨t, hunlock, hshows', hX⟩ := lastCommit_writeUnlock hshows env hw hstored
  obtain rfl : t = sealed env p.sys w :=
    (Prod.mk.inj (Except.ok.inj (hunlock.symm.trans (lazyfreeWriteUnlock_commit env hw)))).2
  have hcache := cache_sealed env p.sys w
  have hmapped' : (sealed env p.sys w).cache.Mapped lock.key w.slot := by
    rw [hcache]
    exact ⟨(Cache.hmapGet_commit _ _ _ _).trans hmapped.1,
      (Cache.label_commit _ _ _ _).trans hmapped.2⟩
  obtain ⟨L, s, b, v, n, hlock, hread, htrue, hfalse⟩ := read_window env hshows'
    (by rw [hcache]; rfl) hmapped' hX dest hsize hwindow
  exact ⟨_, L, s, b, v, _, hunlock, hlock, hread, htrue, hfalse (alive_sealed env p.sys w)⟩

/-- No torn reads: read-locking a key and reading a window of its page gives the content of its
last commit or fails, and fails only if the page was taken since. -/
theorem no_torn_reads {boot : Boot} {capacity l a m : ℕ} {s₀ : Sys}
    (hnew : lazyfreeCacheNewEx boot capacity l a m = .ok s₀) {ft : FtCache} {calls : List Call}
    {p : Process} (hrun : run env ft calls (start s₀) = .ok ((), p))
    (hw : p.sys.cache.wlock = none) {lock : RLock} (hmapped : p.sys.cache.Mapped lock.key d)
    {X : Buffer} (hX : LastCommit s₀.toCore p.sys.toCore d X) (dest : Buffer) {offset size : ℕ}
    (hsize : 1 ≤ size) (hwindow : offset + size ≤ pageSize) :
    ∃ L s b v t, lazyfreeReadLock env lock p.sys = .ok (L, s) ∧
      lazyfreeRead env L dest offset size s = .ok ((b, v), t) ∧
      (b = true → ∀ i < size, v i = X (offset + i)) ∧
      (Alive p.sys.toCore d → .reclaimed d ∉ newEvents p.sys t → b = true) ∧
      (Untaken s₀.toCore t.toCore d → b = true) := by
  have hshows := showsCommits_run (created_of_new hnew).1 hrun
  obtain ⟨L, s, b, v, n, hlock, hread, htrue, hfalse⟩ :=
    read_window env hshows hw hmapped hX dest hsize hwindow
  refine ⟨L, s, b, v, _, hlock, hread, htrue, hfalse, fun huntaken => ?_⟩
  obtain ⟨hbefore, htaken⟩ := untaken_of_after hX huntaken
  exact hfalse (hshows.alive_of_untaken (not_writeHeld hw) hbefore) htaken

/-- Key 1 was advised with its chunk; the kernel takes its page between two bytes of the copy. -/
theorem no_torn_reads_taken :
    ∃ p X L s b v t, run (takesAt ⟨0, 0⟩ 12) byteCache [.ftGet 1, .ftGet 2] (start smallCache) =
        .ok ((), p) ∧ LastCommit smallCache.toCore p.sys.toCore ⟨0, 0⟩ X ∧
      lazyfreeReadLock (takesAt ⟨0, 0⟩ 12) (.fresh 1) p.sys = .ok (L, s) ∧
      lazyfreeRead (takesAt ⟨0, 0⟩ 12) L blank 4092 4 s = .ok ((b, v), t) ∧
      (b = true → ∀ i < 4, v i = X (4092 + i)) := by
  obtain ⟨p, hrun, hw, hmap, hlabel⟩ :
      ∃ p, run (takesAt ⟨0, 0⟩ 12) byteCache [.ftGet 1, .ftGet 2] (start smallCache) =
        .ok ((), p) ∧ p.sys.cache.wlock = none ∧ p.sys.cache.hmapGet 1 = some ⟨0, 0⟩ ∧
          p.sys.cache.label ⟨0, 0⟩ = 1 :=
    ⟨_, run_eq_unit _ _ (by decide +kernel), by decide +kernel, by decide +kernel,
      by decide +kernel⟩
  obtain ⟨X, hX⟩ := lastCommit_of_mapped (created_of_new smallCache_new).1 hrun hw
    (by decide : (1 : Key) ≠ 0) ⟨hmap, hlabel⟩
  have hmapped : p.sys.cache.Mapped (RLock.fresh 1).key ⟨0, 0⟩ := ⟨hmap, hlabel⟩
  obtain ⟨L, s, b, v, t, hlock, hread, htrue, -, -⟩ := no_torn_reads smallCache_new hrun hw
    hmapped hX blank (by decide : 1 ≤ 4) (by decide : 4092 + 4 ≤ pageSize)
  exact ⟨p, X, L, s, b, v, t, hrun, hX, hlock, hread, htrue⟩

/-! ### All windows -/

/-- Reading `size` bytes from `offset` on through a lock on page `d` stores only to the buffer's
`size` bytes, and a true result means that each of them is the byte of the page it stands for. -/
def ReadsInside (L : RLock) (d : EntryDescriptor) (s : Sys) (offset size : ℕ) : Prop :=
  ∀ env dest b v t, lazyfreeRead env L dest offset size s = .ok ((b, v), t) →
    (∀ j, size ≤ j → v j = dest j) ∧
    (b = true → ∀ i < size, offset + i < pageSize ∧ v i = logical s.toCore d (offset + i))

/-- An empty window that does not end at the page's end, or a window within the page. -/
def Fits (offset size : ℕ) : Prop :=
  (size = 0 ∧ offset ≠ pageSize) ∨ (1 ≤ size ∧ offset + size ≤ pageSize)

instance (offset size : ℕ) : Decidable (Fits offset size) := by
  unfold Fits
  infer_instance

theorem mem_calm (n : ℕ) (s : Sys) (d : EntryDescriptor) : (after calm n s).mem d = s.mem d := by
  rw [mem_after]
  simp [calm]

theorem alive_calm (n : ℕ) (h : Alive s.toCore d) : Alive (after calm n s).toCore d := by
  unfold Alive
  rw [mem_calm]
  exact h

/-- Where nothing is reclaimed a read through a valid lock says true. -/
theorem lazyfreeRead_calm {L : RLock} (hhead : L.head = .page d) (halive : Alive s.toCore d)
    (dest : Buffer) {offset : ℕ} (size : ℕ) (hoff : offset < 2 ^ 64) :
    lazyfreeRead calm L dest offset size s =
      .ok ((true, readResult calm s L d dest offset size),
        after calm (copied offset size + 2) s) := by
  rw [lazyfreeRead_page calm hhead dest size hoff, if_pos (alive_calm 1 halive),
    decide_eq_true (alive_calm _ halive)]

/-- The copy loop and the override of the last byte stay below `size`, unless `size` is 0. -/
theorem readResult_outside {L : RLock} {dest : Buffer} {offset size j : ℕ}
    (hsize : 1 ≤ size ∨ u64 (offset + size) ≠ pageSize) (hlt : size < 2 ^ 64) (hj : size ≤ j) :
    readResult env s L d dest offset size j = dest j := by
  have hcopy : copyFrom env (after env 1 s) d offset size 0 dest j = dest j := by
    unfold copyFrom copied
    rw [if_neg (by omega)]
  unfold readResult
  by_cases hend : u64 (offset + size) = pageSize
  · have hsize' : 1 ≤ size := hsize.resolve_right (not_not_intro hend)
    have hlast : u64 (size + (2 ^ 64 - 1)) = size - 1 := by unfold u64; omega
    rw [if_pos hend, hlast, Function.update_of_ne (by omega), hcopy]
  · rw [if_neg hend, hcopy]

theorem readsInside_of_fits {L : RLock} (hhead : L.head = .page d)
    (htail : L.tail = logical s.toCore d (pageSize - 1)) {offset size : ℕ}
    (hoff : offset < 2 ^ 64) (hfits : Fits offset size) : ReadsInside L d s offset size := by
  have hpage := pageSize_eq
  intro env dest b v t hread
  rw [lazyfreeRead_page env hhead dest size hoff] at hread
  split at hread
  · cases hread
    rcases hfits with ⟨rfl, hne⟩ | ⟨hsize, hwindow⟩
    · refine ⟨fun j hj => readResult_outside (.inr ?_) (by omega) hj, fun _ i hi => by omega⟩
      unfold u64
      omega
    · refine ⟨fun j hj => readResult_outside (.inl hsize) (by omega) hj, fun hb i hi => ?_⟩
      have hcopied : copied offset size = size := by unfold copied; omega
      exact ⟨by omega,
        readResult_window hsize hwindow (of_decide_eq_true hb) (by omega) htail hi⟩
  · cases hread
    exact ⟨fun _ _ => rfl, by simp⟩

theorem fits_of_readsInside {L : RLock} (hhead : L.head = .page d) (halive : Alive s.toCore d)
    {offset size : ℕ} (hoff : offset < 2 ^ 64) (h : ReadsInside L d s offset size) :
    Fits offset size := by
  -- without reclaims the read says true, whatever the buffer held
  obtain ⟨x, hx⟩ : ∃ x : UInt8, L.tail ≠ x := by
    by_cases hzero : L.tail = 0
    · exact ⟨1, by rw [hzero]; decide⟩
    · exact ⟨0, hzero⟩
  obtain ⟨hstores, hreads⟩ := h calm (fun _ => x) _ _ _
    (lazyfreeRead_calm hhead halive _ size hoff)
  by_cases hsize : 1 ≤ size
  · have hlast := (hreads rfl (size - 1) (by omega)).1
    exact .inr ⟨hsize, by omega⟩
  · obtain rfl : size = 0 := by omega
    refine .inl ⟨rfl, ?_⟩
    rintro rfl
    have hwrong := hstores (2 ^ 64 - 1) (Nat.zero_le _)
    unfold readResult at hwrong
    rw [if_pos (by decide), show u64 (0 + (2 ^ 64 - 1)) = 2 ^ 64 - 1 by decide,
      Function.update_self] at hwrong
    exact hx hwrong

/-- A lock stays good while nothing touches its slot: the page is alive and the lock carries its
last byte. -/
theorem lock_of_undisturbed {lock L : RLock} {u : Sys} {es : List Event}
    (hlock : lazyfreeReadLock env lock u = .ok (L, s)) (hhead : L.head = .page d)
    (halive : Alive s.toCore d) (hperf : Performs s t es) (hleft : ∀ e ∈ es, ¬ Touches d e) :
    Alive t.toCore d ∧ L.tail = logical t.toCore d (pageSize - 1) := by
  have htail : L.tail = logical s.toCore d (pageSize - 1) := by
    cases readLocked_of_ok hlock with
    | miss hkey hhead' => cases hhead.symm.trans hhead'
    | gone e hkey hhead' => cases hhead.symm.trans hhead'
    | hit e hkey hhead' hmapped halive' htail =>
      cases hhead.symm.trans hhead'
      exact htail
  have hsame : SameContent s.toCore t.toCore d := by
    rw [hperf.1]
    exact (spares_replay fun e he => spares_of_not_touches (hleft e he)).2
  exact ⟨hsame.alive.mpr halive, htail.trans (hsame.logical _).symm⟩

/-- Through a lock on a page that nothing touched since the lock was taken, a read keeps to its
buffer and to the truth exactly for the windows that fit. -/
theorem readsInside_iff {boot : Boot} {capacity n a m : ℕ} {s₀ : Sys}
    (hnew : lazyfreeCacheNewEx boot capacity n a m = .ok s₀) {ft : FtCache}
    {calls later : List Call} {p q : Process} (hrun : run env ft calls (start s₀) = .ok ((), p))
    {lock L : RLock} (hlock : lazyfreeReadLock env lock p.sys = .ok (L, s)) {l : ℕ}
    (hlater : run env ft later ⟨s, Function.update p.locks l L⟩ = .ok ((), q))
    (hhead : L.head = .page d) (halive : Alive s.toCore d)
    (hleft : ∀ e ∈ newEvents s q.sys, ¬ Touches d e) (offset size : UInt64) :
    ReadsInside L d q.sys offset.toNat size.toNat ↔ Fits offset.toNat size.toNat := by
  have hp := (run_sound (created_of_new hnew).1.sound hrun).1
  obtain ⟨-, -, ⟨es, hes, -⟩, -⟩ := since_readLock hp hlock hlater
  rw [newEvents_eq hes] at hleft
  obtain ⟨halive', htail⟩ := lock_of_undisturbed hlock hhead halive hes hleft
  exact ⟨fits_of_readsInside hhead halive' offset.toNat_lt,
    readsInside_of_fits hhead htail offset.toNat_lt⟩

/-- A window of two bytes before the last one, read after key 2 was filled. -/
theorem readsInside_two_bytes :
    ∃ p L s q, run calm byteCache [.ftGet 1] (start smallCache) = .ok ((), p) ∧
      lazyfreeReadLock calm (.fresh 1) p.sys = .ok (L, s) ∧
      run calm byteCache [.ftGet 2] ⟨s, Function.update p.locks 0 L⟩ = .ok ((), q) ∧
      ReadsInside L ⟨0, 0⟩ q.sys 4093 2 := by
  obtain ⟨p, hrun, L, s, hlock, hhead, halive, q, hlater, hleft⟩ :
      ∃ p, run calm byteCache [.ftGet 1] (start smallCache) = .ok ((), p) ∧
        ∃ L s, lazyfreeReadLock calm (.fresh 1) p.sys = .ok (L, s) ∧ L.head = .page ⟨0, 0⟩ ∧
          Alive s.toCore ⟨0, 0⟩ ∧
          ∃ q, run calm byteCache [.ftGet 2] ⟨s, Function.update p.locks 0 L⟩ = .ok ((), q) ∧
            ∀ e ∈ newEvents s q.sys, ¬ Touches ⟨0, 0⟩ e :=
    ⟨_, run_eq_unit _ _ (by decide +kernel), _, _, run_eq _ _ (by decide +kernel),
      by decide +kernel, by decide +kernel, _, run_eq_unit _ _ (by decide +kernel),
      by decide +kernel⟩
  exact ⟨p, L, s, q, hrun, hlock, hlater, (readsInside_iff smallCache_new hrun hlock hlater hhead
    halive hleft 4093 2).mpr (.inr (by decide))⟩

/-- A cache of entries without bytes. -/
def noBytes : FtCache := ⟨fun _ _ => 0, 0, by decide⟩

/-- The second get of an entry without bytes stores one byte 2^64 - 1 places behind the buffer,
and a read of 4097 bytes says true with the last one missing. -/
theorem reads_outside :
    ∃ p v t L s, run calm noBytes [.ftGet 1] (start smallCache) = .ok ((), p) ∧
      ftCacheGet calm noBytes 1 (fun _ => 7) p.sys = .ok (v, t) ∧ v (2 ^ 64 - 1) ≠ 7 ∧
      lazyfreeReadLock calm (.fresh 1) p.sys = .ok (L, s) ∧ Alive s.toCore ⟨0, 0⟩ ∧
      ¬ ReadsInside L ⟨0, 0⟩ s 4096 0 ∧ ¬ ReadsInside L ⟨0, 0⟩ s 0 4097 := by
  obtain ⟨p, hrun, v, t, hget, hstored, L, s, hlock, hhead, halive⟩ :
      ∃ p, run calm noBytes [.ftGet 1] (start smallCache) = .ok ((), p) ∧
        ∃ v t, ftCacheGet calm noBytes 1 (fun _ => 7) p.sys = .ok (v, t) ∧ v (2 ^ 64 - 1) ≠ 7 ∧
        ∃ L s, lazyfreeReadLock calm (.fresh 1) p.sys = .ok (L, s) ∧ L.head = .page ⟨0, 0⟩ ∧
          Alive s.toCore ⟨0, 0⟩ :=
    ⟨_, run_eq_unit _ _ (by decide +kernel), _, _, run_eq _ _ (by decide +kernel),
      by decide +kernel, _, _, run_eq _ _ (by decide +kernel), by decide +kernel,
      by decide +kernel⟩
  refine ⟨p, v, t, L, s, hrun, hget, hstored, hlock, halive, fun h => ?_, fun h => ?_⟩
  · exact absurd (fits_of_readsInside hhead halive (by decide) h) (by decide)
  · exact absurd (fits_of_readsInside hhead halive (by decide) h) (by decide)

end LazyfreeCache.ReadWindow
