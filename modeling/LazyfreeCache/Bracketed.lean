import LazyfreeCache.Reclaim
import LazyfreeCache.Sessions

/-!
How a process that uses the cache can stop. A client that fills a lock before
it reads through it or unlocks it, and closes each write session before the
next call that allows for none, meets no failing assert, no NULL head and no
exit of the allocation or of `cache_drop`. Its process stops where a lock is
checked whose page is gone, and nowhere else.
-/
namespace LazyfreeCache.Bracketed

open ProgramLogic EventReplay State LazyfreeOps FallthroughOps Refinement Reads Allocation
open Writes Upgrade Frames Fallthrough Accounting Client Slots FtRuns Reclaim Sessions

/-- What a client keeps track of: the locks that were filled and not handed to a write lock
since, and whether it holds a write lock. -/
structure Brackets where
  filled : ℕ → Bool
  writing : Bool

namespace Brackets

def empty : Brackets := ⟨fun _ => false, false⟩

def Allows (b : Brackets) : Call → Prop
  | .rlock _ _ => True
  | .readLock _ => b.writing = false
  | .read l _ _ => b.filled l = true
  | .readUnlock l _ => b.filled l = true ∧ b.writing = false
  | .writeLock _ => b.writing = false
  | .store _ _ => True
  | .writeUnlock _ => b.writing = true
  | .ftGet _ => b.writing = false
  | .ftDrop _ => b.writing = false

def next (b : Brackets) : Call → Brackets
  | .rlock l _ => { b with filled := Function.update b.filled l false }
  | .readLock l => { b with filled := Function.update b.filled l true }
  | .writeLock l => ⟨Function.update b.filled l false, true⟩
  | .writeUnlock _ => { b with writing := false }
  | _ => b

end Brackets

/-- The call checks a lock whose page is gone by then. -/
def Dies (env : Env) (ft : FtCache) (p : Process) : Call → Prop
  | .readUnlock l _ => ∃ d, (p.locks l).head = .page d ∧ ¬ Alive (after env 1 p.sys).toCore d
  | .ftGet key => TakenMidway env key (ft.entrySize + 7) p.sys
  | .ftDrop key => TakenMidway env key 4 p.sys
  | _ => False

def LockFault (e : Fault) : Prop := e = .lockCheckFailed ∨ e = .fallthroughLockCheckFailed

/-- The brackets are those of the process. -/
structure Tracks (b : Brackets) (p : Process) : Prop where
  filled : ∀ l, b.filled l = true → (p.locks l).head ≠ .null
  writing : p.sys.cache.wlock = none ↔ b.writing = false

variable {env : Env} {ft : FtCache} {b : Brackets} {call : Call} {p : Process} {t : Sys} {l : ℕ}

theorem Tracks.wlock_eq (h : Tracks b p) (hb : b.writing = false) :
    p.sys.cache.wlock = none := h.writing.mpr hb

/-- A call that leaves the locks alone and keeps the write lock open or closed. -/
theorem Tracks.setSys (h : Tracks b p) (hw : t.cache.wlock = none ↔ p.sys.cache.wlock = none) :
    Tracks b ⟨t, p.locks⟩ := ⟨h.filled, hw.trans h.writing⟩

/-- A lock is set to one that has a head if the client counts it as filled. -/
theorem Tracks.setLock {L : RLock} {f w : Bool} (h : Tracks b p)
    (hhead : f = true → L.head ≠ .null) (hw : t.cache.wlock = none ↔ w = false) :
    Tracks ⟨Function.update b.filled l f, w⟩ ⟨t, Function.update p.locks l L⟩ := by
  refine ⟨fun l' hl' => ?_, hw⟩
  change Function.update b.filled l f l' = true at hl'
  change (Function.update p.locks l L l').head ≠ .null
  by_cases hll : l' = l
  · rw [hll, Function.update_self] at hl' ⊢
    exact hhead hl'
  · rw [Function.update_of_ne hll] at hl' ⊢
    exact h.filled l' hl'

/-- What a call of the client comes to: it keeps the brackets, or it dies. -/
def Keeps (env : Env) (ft : FtCache) (b : Brackets) (call : Call) (p : Process) : Prop :=
  wp (exec env ft call) (fun _ q => Tracks (b.next call) q ∧ ¬ Dies env ft p call)
    (fun e => LockFault e ∧ Dies env ft p call) p

theorem keeps_readLock (ht : Tracks b p) (hallows : b.writing = false) :
    Keeps env ft b (.readLock l) p := by
  have hw := ht.wlock_eq hallows
  unfold Keeps
  simp only [exec, wp_bind, wp_get, wp_onSys]
  refine wp_readLock hw fun L t hL => ⟨ht.setLock (fun _ => ?_) ?_, fun h => h⟩
  · cases hL with
    | miss hkey hhead => rw [hhead]; simp
    | gone d hkey hhead => rw [hhead]; simp
    | hit d hkey hhead => rw [hhead]; simp
  · have hcache : t.cache = p.sys.cache := by
      cases hL with
      | miss => rfl
      | gone => exact cache_after env 1 p.sys
      | hit => exact cache_after env 2 p.sys
    rw [hcache]
    exact ht.writing

theorem keeps_read (ht : Tracks b p) (hallows : b.filled l = true) (offset size : UInt64) :
    Keeps env ft b (.read l offset size) p := by
  have hreads : ∀ n, Tracks b ⟨after env n p.sys, p.locks⟩ ∧ ¬ False := fun n =>
    ⟨ht.setSys (by rw [cache_after]), fun h => h⟩
  unfold Keeps
  simp only [exec, wp_bind, wp_get, wp_onSys]
  cases hhead : (p.locks l).head with
  | null => exact absurd hhead (ht.filled l hallows)
  | emptyPage =>
    rw [wp_of_ok (lazyfreeRead_emptyPage env hhead _ _ _ p.sys)]
    exact hreads 0
  | page d =>
    have hrun := lazyfreeRead_page env hhead (fun _ => 0) size.toNat offset.toNat_lt p.sys
    split at hrun
    · rw [wp_of_ok hrun]
      exact hreads _
    · rw [wp_of_ok hrun]
      exact hreads 1

theorem keeps_readUnlock (hp : Regular p) (ht : Tracks b p) (hfilled : b.filled l = true)
    (hallows : b.writing = false) (drop : Bool) : Keeps env ft b (.readUnlock l drop) p := by
  have hw := ht.wlock_eq hallows
  unfold Keeps
  simp only [exec, wp_bind, wp_get, wp_onSys]
  cases hhead : (p.locks l).head with
  | null => exact absurd hhead (ht.filled l hfilled)
  | emptyPage =>
    have hlives : ¬ Dies env ft p (.readUnlock l drop) := by
      rintro ⟨d, hd, -⟩
      cases hhead.symm.trans hd
    unfold lazyfreeReadUnlock
    simp only [wp_bind, wp_get, wp_require, hhead, hw]
    exact ⟨fun _ => ⟨fun _ => ⟨ht, hlives⟩, fun h => absurd trivial h⟩, fun h => absurd h (by simp)⟩
  | page d =>
    have hlives : Alive (after env 1 p.sys).toCore d → ¬ Dies env ft p (.readUnlock l drop) := by
      rintro halive ⟨e, he, hdead⟩
      obtain rfl : d = e := Head.page.inj (hhead.symm.trans he)
      exact hdead halive
    have hafter : Tracks b ⟨after env 1 p.sys, p.locks⟩ := ht.setSys (by rw [cache_after])
    have hhanded := hp.sound.locks l d hhead
    refine wp_readUnlock hhead hw (index_lt hp.sound.accounted hhanded)
      (fun hdead => ⟨.inl rfl, d, hhead, hdead⟩) (fun halive _ => ⟨hafter, hlives halive⟩)
      (fun halive _ _ => ⟨hafter, hlives halive⟩) (fun halive _ _ _ => ⟨?_, hlives halive⟩)
      (fun _ hlabel _ hfree => ?_)
    · exact ht.setSys ⟨fun _ => hw, fun _ => rfl⟩
    · -- the slot of a key that is not 0 is not among the free pages
      have hlt := hp.exact.wellFormed.free_length_lt hhanded (by rw [hlabel]; exact hp.nonzero l)
      omega

theorem keeps_writeLock (hp : Regular p) (hpages : 1 ≤ p.sys.cache.pagesPerChunk)
    (ht : Tracks b p) (hallows : b.writing = false) : Keeps env ft b (.writeLock l) p := by
  have hw := ht.wlock_eq hallows
  unfold Keeps
  simp only [exec, wp_bind, wp_get, wp_onSys]
  refine wp_mono (lazyfreeWriteLock_spec env _ p.sys hw fun d hd =>
    index_lt hp.sound.accounted (hp.sound.locks l d hd)) ?_ ?_
  · rintro ⟨d, L⟩ t h
    have hopen : t.cache.wlock ≠ none := by
      cases h with
      | upgraded q => rw [cache_upgradedTo]; simp
      | _ => exact Option.some_ne_none _
    exact ⟨ht.setLock (fun h => by cases h) ⟨fun hnone => absurd hnone hopen, fun h => by cases h⟩,
      fun h => h⟩
  · rintro e ⟨-, hstuck | ⟨d, -, -, -, hstuck⟩⟩
    · exact absurd hstuck (not_stuck hp.sound.accounted hpages)
    · have hsteps : Steps anyKey p.sys (unpinned env p.sys d) := unpinned_steps env d hw
      refine absurd hstuck (not_stuck (hsteps.accounted hp.sound.accounted) ?_)
      have hcache : (unpinned env p.sys d).cache = p.sys.cache := cache_pinned env p.sys d
      rw [hcache]
      exact hpages

theorem keeps_store (ht : Tracks b p) (offset : Fin pageSize) (v : UInt8) :
    Keeps env ft b (.store offset v) p := by
  unfold Keeps
  simp only [exec, wp_onSys]
  unfold storeLocked
  rw [wp_bind, wp_get]
  split
  · exact ⟨ht, fun h => h⟩
  · exact ⟨ht.setSys Iff.rfl, fun h => h⟩

theorem keeps_writeUnlock (hp : Regular p) (ht : Tracks b p) (hallows : b.writing = true)
    (drop : Bool) : Keeps env ft b (.writeUnlock drop) p := by
  have hclosed : ∀ t : Sys, t.cache.wlock = none →
      Tracks (b.next (.writeUnlock drop)) ⟨t, p.locks⟩ ∧ ¬ Dies env ft p (.writeUnlock drop) :=
    fun t hw => ⟨⟨ht.filled, ⟨fun _ => rfl, fun _ => hw⟩⟩, fun h => h⟩
  unfold Keeps
  simp only [exec, wp_onSys]
  cases hw : p.sys.cache.wlock with
  | none => cases (ht.writing.mp hw).symm.trans hallows
  | some w =>
    cases drop with
    | false =>
      rw [wp_of_ok (lazyfreeWriteUnlock_commit env hw)]
      exact hclosed _ (by rw [cache_sealed]; rfl)
    | true =>
      obtain ⟨hzero, hlabel⟩ := hp.exact.wlock w hw
      have hfree := hp.exact.wellFormed.free_length_lt (hp.sound.accounted.wlock_handed w hw)
        (by rw [hlabel]; exact hzero)
      have hrun := lazyfreeWriteUnlock_drop env hw
      rw [if_pos hfree] at hrun
      rw [wp_of_ok hrun]
      exact hclosed _ rfl

theorem keeps_ftGet (hp : Regular p) (hpages : 1 ≤ p.sys.cache.pagesPerChunk) (ht : Tracks b p)
    (hallows : b.writing = false) (key : Key) : Keeps env ft b (.ftGet key) p := by
  have hidle : Idle p.sys := ⟨hp.sound.accounted, ht.wlock_eq hallows⟩
  have hreturns : (∃ v t, ftCacheGet env ft key (fun _ => 0) p.sys = .ok (v, t)) ↔
      ¬ TakenMidway env key (ft.entrySize + 7) p.sys := ftCacheGet_returns_iff hidle hpages
  have hspec := ftCacheGet_spec env ft key (fun _ => 0) p.sys hidle.wlock (hidle.index_lt key)
  unfold Keeps
  simp only [exec, wp_bind, wp_onSys, wp_pure]
  cases hrun : ftCacheGet env ft key (fun _ => 0) p.sys with
  | ok r =>
    obtain ⟨v, t⟩ := r
    rw [wp_of_ok hrun]
    have hw := wlock_ftGot (ftGot_of_ok hidle hrun) hidle.wlock
    exact ⟨ht.setSys ⟨fun _ => hidle.wlock, fun _ => hw⟩, hreturns.mp ⟨v, t, hrun⟩⟩
  | error e =>
    rw [wp_of_error hrun] at hspec ⊢
    refine ⟨?_, ?_⟩
    · cases hspec with
      | torn d e hmapped halive hdead he => exact he.symm
      | stuck n u hmissing hu hstuck => exact absurd hstuck (not_stuck_cleared hidle hpages hu)
    · by_contra hlives
      obtain ⟨v, t, hok⟩ := hreturns.mpr hlives
      cases hok.symm.trans hrun

theorem keeps_ftDrop (hp : Regular p) (ht : Tracks b p) (hallows : b.writing = false) {key : Key}
    (hkey : key ≠ 0) : Keeps env ft b (.ftDrop key) p := by
  have hidle : Idle p.sys := ⟨hp.sound.accounted, ht.wlock_eq hallows⟩
  have hwell := hp.exact.wellFormed
  have hreturns : (∃ v t, ftCacheDrop env key p.sys = .ok (v, t)) ↔
      ¬ TakenMidway env key 4 p.sys := ftCacheDrop_returns_iff hidle hwell hkey
  have hspec := ftCacheDrop_spec env key p.sys hidle.wlock (hidle.index_lt key)
  unfold Keeps
  simp only [exec, wp_bind, wp_onSys, wp_pure]
  cases hrun : ftCacheDrop env key p.sys with
  | ok r =>
    obtain ⟨v, t⟩ := r
    rw [wp_of_ok hrun]
    have hw := wlock_ftDropped (ftDropped_of_ok hidle hrun) hidle.wlock
    exact ⟨ht.setSys ⟨fun _ => hidle.wlock, fun _ => hw⟩, hreturns.mp ⟨v, t, hrun⟩⟩
  | error e =>
    rw [wp_of_error hrun] at hspec ⊢
    refine ⟨?_, ?_⟩
    · cases hspec with
      | torn => exact .inl rfl
      | overflow d hmapped halive hfree =>
        have hlt := hwell.free_length_lt (hidle.handedOut d hmapped) (by rw [hmapped.2]; exact hkey)
        omega
    · by_contra hlives
      obtain ⟨v, t, hok⟩ := hreturns.mpr hlives
      cases hok.symm.trans hrun

/-- The step lemma. -/
theorem keeps_exec (hp : Regular p) (hpages : 1 ≤ p.sys.cache.pagesPerChunk) (ht : Tracks b p)
    (hallows : b.Allows call) (hkeys : call.OnKeys Nonzero) : Keeps env ft b call p := by
  cases call with
  | rlock l key => exact ⟨ht.setLock (fun h => by cases h) ht.writing, fun h => h⟩
  | readLock l => exact keeps_readLock ht hallows
  | read l offset size => exact keeps_read ht hallows offset size
  | readUnlock l drop => exact keeps_readUnlock hp ht hallows.1 hallows.2 drop
  | writeLock l => exact keeps_writeLock hp hpages ht hallows
  | store offset v => exact keeps_store ht offset v
  | writeUnlock drop => exact keeps_writeUnlock hp ht hallows drop
  | ftGet key => exact keeps_ftGet hp hpages ht hallows key
  | ftDrop key => exact keeps_ftDrop hp ht hallows hkeys

/-! ### Runs -/

/-- What every state of a bracketed run satisfies. -/
structure Steady (b : Brackets) (p : Process) : Prop where
  regular : Regular p
  pages : 1 ≤ p.sys.cache.pagesPerChunk
  tracks : Tracks b p

theorem Steady.keeps (h : Steady b p) (hallows : b.Allows call)
    (hkeys : call.OnKeys Nonzero) : Keeps env ft b call p :=
  keeps_exec h.regular h.pages h.tracks hallows hkeys

theorem Steady.after_exec {q : Process} (h : Steady b p) (hallows : b.Allows call)
    (hkeys : call.OnKeys Nonzero) (hrun : exec env ft call p = .ok ((), q)) :
    Steady (b.next call) q := by
  have hkeeps : Keeps env ft b call p := h.keeps hallows hkeys
  obtain ⟨-, es, hes, -⟩ := (wp_of_ok hrun).mp (exec_anyKey env ft call h.regular.sound)
  refine ⟨regular_of_exec h.regular hkeys hrun, ?_, ((wp_of_ok hrun).mp hkeeps).1⟩
  rw [pagesPerChunk_performs hes]
  exact h.pages

/-- The run lemma. -/
theorem Steady.after_run {calls : List Call} {q : Process} (h : Steady b p)
    (hallows : Along Brackets.next Brackets.Allows b calls)
    (hkeys : ∀ call ∈ calls, call.OnKeys Nonzero)
    (hrun : run env ft calls p = .ok ((), q)) :
    Steady (replay Brackets.next b calls) q := by
  induction calls generalizing b p with
  | nil =>
    cases hrun
    exact h
  | cons call calls ih =>
    obtain ⟨u, hcall, hrest⟩ := (runAll_cons_ok _).mp hrun
    exact ih (h.after_exec hallows.1 (hkeys call List.mem_cons_self) hcall) hallows.2
      (fun c hc => hkeys c (List.mem_cons_of_mem _ hc)) hrest

/-- A process whose client keeps its calls bracketed stops exactly at a call that checks a lock
whose page is gone, and then with a failed lock check. -/
theorem stops_iff {boot : Boot} {capacity c a d : ℕ} {s₀ : Sys}
    (hnew : lazyfreeCacheNewEx boot capacity c a d = .ok s₀)
    (hpages : 1 ≤ s₀.cache.pagesPerChunk) (hmax : s₀.cache.pagesPerChunk ≤ 65536)
    (locks : ℕ → RLock) (hlocks : ∀ i, (locks i).head = .null ∧ (locks i).key ≠ 0) (env : Env)
    (ft : FtCache) {calls : List Call} (hkeys : ∀ call ∈ calls, call.OnKeys Nonzero)
    (hallows : Along Brackets.next Brackets.Allows Brackets.empty calls) :
    ((∃ e, run env ft calls ⟨s₀, locks⟩ = .error e) ↔
      ∃ left call right q, calls = left ++ call :: right ∧
        run env ft left ⟨s₀, locks⟩ = .ok ((), q) ∧ Dies env ft q call) ∧
    ∀ e, run env ft calls ⟨s₀, locks⟩ = .error e → LockFault e := by
  have hcreated := (created_of_new hnew).1
  have hstart : Steady Brackets.empty ⟨s₀, locks⟩ :=
    ⟨regular_of_created hcreated hmax hlocks, hpages, fun l hl => (by cases hl),
      ⟨fun _ => rfl, fun _ => hcreated.wlock⟩⟩
  -- the call after any part of the run that returned keeps the brackets or dies
  have hkeeps : ∀ left call right q, calls = left ++ call :: right →
      run env ft left ⟨s₀, locks⟩ = .ok ((), q) →
      Keeps env ft (replay Brackets.next Brackets.empty left) call q := by
    rintro left call right q rfl hleft
    obtain ⟨hallows', hallowed, -⟩ := (along_append left (call :: right)).mp hallows
    exact (hstart.after_run hallows' (fun c hc => hkeys c (List.mem_append_left _ hc)) hleft).keeps
      hallowed (hkeys call (List.mem_append_right _ List.mem_cons_self))
  refine ⟨⟨?_, ?_⟩, ?_⟩
  · rintro ⟨e, he⟩
    obtain ⟨left, call, right, q, hsplit, hleft, hcall⟩ := (runAll_error _).mp he
    exact ⟨left, call, right, q, hsplit, hleft,
      ((wp_of_error hcall).mp (hkeeps left call right q hsplit hleft)).2⟩
  · rintro ⟨left, call, right, q, hsplit, hleft, hdies⟩
    cases hcall : exec env ft call q with
    | error e => exact ⟨e, (runAll_error _).mpr ⟨left, call, right, q, hsplit, hleft, hcall⟩⟩
    | ok r => exact absurd hdies ((wp_of_ok hcall).mp (hkeeps left call right q hsplit hleft)).2
  · intro e he
    obtain ⟨left, call, right, q, hsplit, hleft, hcall⟩ := (runAll_error _).mp he
    exact ((wp_of_error hcall).mp (hkeeps left call right q hsplit hleft)).1

/-- The page of key 1 is taken between the read and the unlock. -/
def lateReclaim : List Call :=
  [.ftGet 1, .ftGet 2, .rlock 0 1, .readLock 0, .read 0 0 8, .readUnlock 0 false]

theorem stops_iff_lateReclaim :
    run (takesAt ⟨0, 0⟩ 20) byteCache lateReclaim ⟨smallCache, fun _ => .fresh 1⟩ =
        .error .lockCheckFailed ∧
      ∃ left call right q, lateReclaim = left ++ call :: right ∧
        run (takesAt ⟨0, 0⟩ 20) byteCache left ⟨smallCache, fun _ => .fresh 1⟩ = .ok ((), q) ∧
        Dies (takesAt ⟨0, 0⟩ 20) byteCache q call := by
  have hrun := run_eq_error (run (takesAt ⟨0, 0⟩ 20) byteCache lateReclaim)
    ⟨smallCache, fun _ => .fresh 1⟩ (by decide +kernel : _ = some .lockCheckFailed)
  refine ⟨hrun, (stops_iff smallCache_new (by decide +kernel) (by decide +kernel) _
    (fun _ => ⟨rfl, by decide⟩) _ byteCache ?_ ?_).1.mp ⟨_, hrun⟩⟩
  · simp [lateReclaim, Call.OnKeys, Nonzero]
  · simp [lateReclaim, Brackets.Allows, Brackets.next, Brackets.empty]

end LazyfreeCache.Bracketed
