import LazyfreeCache.Client

/-!
Read locks whose page was given up. The lock check reads the tail of the page,
so a lock stays detectably invalid as long as that byte is zero. Dropping a page
does not clear it, a file keeps its pages when the chunk is evicted, and the
next commit to the slot sets it again; the condition on a run excludes exactly
these steps, and slots that change their key in some other way.
-/
namespace LazyfreeCache.StaleLocks

open ProgramLogic EventReplay State LazyfreeOps FallthroughOps Refinement Reads Allocation
open Writes Fallthrough Frames Accounting Client

/-- The slot was dropped, or its chunk evicted. -/
def Released (d : EntryDescriptor) (es : List Event) : Prop :=
  .evicted d.chunk ∈ es ∨ ∃ key, .dropped d key ∈ es

/-- The step leaves a lock on slot `d` detectable, `n` being the length of the trace when the
lock was taken: the slot is given up with its tail cleared, no store sets the tail after
that, and until then the slot is not handed out or locked through another page. -/
def KeepsDetectable (d : EntryDescriptor) (n : ℕ) (s : Core) : Event → Prop
  | .dropped p _ => p = d → ¬ Alive s d
  | .evicted c => c = d.chunk → s.cache.mmapImpl c = .anon ∨ ¬ Alive s d
  | .stored p offset v =>
    p = d → Released d (s.trace.drop n) → offset = pageSize - 1 → v = 0
  | .allocated p _ => p = d → Released d (s.trace.drop n)
  | .upgraded p w => w.slot = d → p = d ∨ Released d (s.trace.drop n)
  | _ => True

/-- Stores to slot `d` are made for key `k`. -/
def StoresFor (k : Key) (d : EntryDescriptor) (s : Core) (e : Event) : Prop :=
  ∀ offset v, e = .stored d offset v →
    s.cache.label d = k ∧ ∀ w, s.cache.wlock = some w → w.key = k

/-- The page of slot `d` got only bytes of key `k` between the two states. -/
def OnlyBytesOf (k : Key) (d : EntryDescriptor) (s t : Sys) : Prop :=
  Along Core.apply (StoresFor k d) s.toCore (newEvents s t)

/-- At `t`, a lock taken at `s` tells whether its slot was given up, and a read that ends with a
true lock check has seen the page as it is, with bytes of the lock's key only. -/
structure Detectable (env : Env) (L : RLock) (d : EntryDescriptor) (s t : Sys) : Prop where
  check : Released d (newEvents s t) → ∃ u, lockCheck env L t = .ok (false, u)
  read : Released d (newEvents s t) → ∀ dest offset size, offset < 2 ^ 64 →
    ∃ v u, lazyfreeRead env L dest offset size t = .ok ((false, v), u)
  seen : ∀ u, lockCheck env L t = .ok (true, u) → OnlyBytesOf L.key d s t
  copied : ∀ dest offset size v u, offset < 2 ^ 64 →
    lazyfreeRead env L dest offset size t = .ok ((true, v), u) →
      OnlyBytesOf L.key d s t ∧ ∀ j < Reads.copied offset size,
        v j = (t.mem d).byte (offset + j) ∨ (offset + j = pageSize - 1 ∧ v j = L.tail)

variable {env : Env} {L : RLock} {s t : Sys} {d : EntryDescriptor} {es : List Event} {key : Key}

theorem released_append_singleton {e : Event} : Released d (es ++ [e]) ↔
    Released d es ∨ e = .evicted d.chunk ∨ ∃ key, e = .dropped d key := by
  unfold Released
  simp only [List.mem_append, List.mem_singleton, exists_or]
  constructor
  · rintro ((h | h) | (⟨k, h⟩ | ⟨k, h⟩))
    · exact .inl (.inl h)
    · exact .inr (.inl h.symm)
    · exact .inl (.inr ⟨k, h⟩)
    · exact .inr (.inr ⟨k, h.symm⟩)
  · rintro ((h | ⟨k, h⟩) | (h | ⟨k, h⟩))
    · exact .inl (.inl h)
    · exact .inr (.inl ⟨k, h⟩)
    · exact .inl (.inr h.symm)
    · exact .inr (.inr ⟨k, h.symm⟩)

theorem Released.mono {fs : List Event} (h : Released d es) (hsub : es ⊆ fs) : Released d fs := by
  rcases h with h | ⟨k, h⟩
  · exact .inl (hsub h)
  · exact .inr ⟨k, hsub h⟩

/-- Only a store to the tail brings a page back. -/
theorem dead_apply {s : Core} {e : Event} (h : ¬ Alive s d)
    (htail : ∀ offset v, e = .stored d offset v → offset = pageSize - 1 → v = 0) :
    ¬ Alive (s.apply e) d := by
  unfold Alive at h ⊢
  rw [not_not] at h ⊢
  rw [Core.mem_apply]
  cases e with
  | reclaimed p =>
    simp only [Core.memStep, Function.update_apply]
    split
    · rename_i hdp
      rw [← hdp]
      unfold Page.reclaim
      split
      · rfl
      · exact h
    · exact h
  | stored p offset v =>
    simp only [Core.memStep, Function.update_apply]
    split
    · rename_i hdp
      subst hdp
      by_cases hoff : offset = pageSize - 1
      · rw [hoff, tail_store]
        exact htail offset v rfl hoff
      · rw [tail_store_of_ne _ _ hoff]
        exact h
    · exact h
  | evicted c =>
    simp only [Core.memStep]
    split
    · cases s.cache.mmapImpl c with
      | anon => rfl
      | file => exact h
    · exact h
  | advised c =>
    simp only [Core.memStep]
    split
    · unfold Page.tail
      rw [byte_madvised]
      exact h
    · exact h
  | _ => exact h

/-- The invariant of a lock on slot `d`: a slot that was given up is dead, and until then the slot
and a write lock on it belong to the key. -/
structure Held (k : Key) (d : EntryDescriptor) (n : ℕ) (s : Core) : Prop where
  since : n ≤ s.trace.length
  dead : Released d (s.trace.drop n) → ¬ Alive s d
  label : ¬ Released d (s.trace.drop n) → s.cache.label d = k
  wlock : ¬ Released d (s.trace.drop n) → ∀ w, s.cache.wlock = some w → w.slot = d → w.key = k

theorem held_step {k : Key} {n : ℕ} (s : Core) (e : Event) (h : Held k d n s)
    (he : s.Enabled e ∧ KeepsDetectable d n s e) : Held k d n (s.apply e) := by
  obtain ⟨henabled, hkeeps⟩ := he
  have hdrop : (s.apply e).trace.drop n = s.trace.drop n ++ [e] := by
    rw [Core.trace_apply, List.drop_append_of_le_length h.since]
  have hlater : ¬ Released d ((s.apply e).trace.drop n) → ¬ Released d (s.trace.drop n) ∧
      e ≠ .evicted d.chunk ∧ ∀ key, e ≠ .dropped d key := by
    rw [hdrop, released_append_singleton]
    intro hno
    exact ⟨fun h => hno (.inl h), fun h => hno (.inr (.inl h)), fun key h =>
      hno (.inr (.inr ⟨key, h⟩))⟩
  refine ⟨?_, ?_, ?_, ?_⟩
  · rw [Core.trace_apply, List.length_append]
    exact h.since.trans (Nat.le_add_right _ _)
  · rw [hdrop, released_append_singleton]
    rintro (hreleased | rfl | ⟨key, rfl⟩)
    · refine dead_apply (h.dead hreleased) ?_
      rintro offset v rfl
      exact hkeeps rfl hreleased
    · rcases hkeeps rfl with hanon | hdead
      · unfold Alive
        rw [Core.mem_apply]
        simp only [Core.memStep, if_true, hanon]
        exact fun h => h rfl
      · exact dead_apply hdead (by simp)
    · exact dead_apply (hkeeps rfl) (by simp)
  · intro hno
    obtain ⟨hbefore, hevict, hdropped⟩ := hlater hno
    have hlabel := h.label hbefore
    rw [← hlabel]
    refine label_of_keeps ?_
    cases e with
    | evicted c => exact fun hc => hevict (by rw [hc])
    | allocated p key => exact fun hp => hbefore (hkeeps hp)
    | dropped p key => exact fun hp => hdropped key (by rw [hp])
    | _ => trivial
  · intro hno w hw hslot
    obtain ⟨hbefore, hevict, hdropped⟩ := hlater hno
    have hsame := h.wlock hbefore
    cases e with
    | evicted c =>
      simp only [Core.cache_apply, Cache.step, Cache.wlock_evict] at hw
      exact hsame w hw hslot
    | allocated p key =>
      simp only [Core.cache_apply, Cache.step, Cache.wlock_allocate, Option.some.injEq] at hw
      subst hw
      exact absurd (hkeeps hslot) hbefore
    | upgraded p w' =>
      simp only [Core.cache_apply, Cache.step, Cache.wlock_upgrade, Option.some.injEq] at hw
      subst hw
      obtain rfl := (hkeeps hslot).resolve_right hbefore
      exact henabled.2.2.1.symm.trans (h.label hbefore)
    | committed w' bit => cases hw
    | dropped p key => cases hw
    | refill key => exact hsame w hw hslot
    | reclaimed p => exact hsame w hw hslot
    | stored p offset v => exact hsame w hw hslot
    | advised c => exact hsame w hw hslot

theorem onlyBytesOf_of_held {k : Key} {n : ℕ} (hs : Held k d n s.toCore) (hperf : Performs s t es)
    (hkeeps : Along Core.apply (KeepsDetectable d n) s.toCore es)
    (hno : ¬ Released d (t.trace.drop n)) : OnlyBytesOf k d s t := by
  have hboth := (along_and es).mpr ⟨hperf.2, hkeeps⟩
  have htrace := hperf.trace
  unfold OnlyBytesOf
  rw [newEvents_eq hperf, along_iff_split]
  rintro left e right rfl offset v rfl
  rw [along_append] at hboth
  have hleft := replay_invariant (Held k d n) held_step left hs hboth.1
  have hbefore : ¬ Released d ((replay Core.apply s.toCore left).trace.drop n) := by
    have hle : n ≤ (s.trace ++ left).length := by
      rw [List.length_append]
      exact hs.since.trans (Nat.le_add_right _ _)
    refine fun h => hno (h.mono ?_)
    rw [htrace, Core.trace_replay, ← List.append_assoc, List.drop_append_of_le_length hle]
    exact List.subset_append_left _ _
  refine ⟨hleft.label hbefore, ?_⟩
  intro w hw
  rcases hboth.2.1.1 with ⟨key, hkey⟩ | ⟨hnone, -⟩
  · have hslot : w = ⟨d, key⟩ := Option.some.inj (hw.symm.trans hkey)
    exact hleft.wlock hbefore w hw (by rw [hslot])
  · cases hw.symm.trans hnone

/-- A byte of a copy that ended with a true lock check is a byte of the page; the last byte of the
page comes from the lock. -/
theorem readResult_of_alive {dest : Buffer} {offset size j : ℕ}
    (halive : Alive (after env (copied offset size + 2) t).toCore d) (hoff : offset < 2 ^ 64)
    (hj : j < copied offset size) :
    readResult env t L d dest offset size j = (t.mem d).byte (offset + j) ∨
      (offset + j = pageSize - 1 ∧ readResult env t L d dest offset size j = L.tail) := by
  have hpage := pageSize_eq
  have hcopy : copyFrom env (after env 1 t) d offset size 0 dest j =
      (t.mem d).byte (offset + j) := by
    have halive' : Alive (after env (copied offset size + 1) (after env 1 t)).toCore d := by
      rw [after_after]
      exact halive
    rw [copyFrom_of_alive halive' (by omega) hj, mem_after_eq_of_alive halive (by omega)]
  unfold readResult
  by_cases hend : u64 (offset + size) = pageSize
  · rw [if_pos hend]
    by_cases hlast : j = u64 (size + (2 ^ 64 - 1))
    · right
      refine ⟨?_, by rw [hlast, Function.update_self]⟩
      unfold u64 at hend hlast
      unfold copied at hj
      omega
    · rw [Function.update_of_ne hlast]
      exact .inl hcopy
  · rw [if_neg hend]
    exact .inl hcopy

/-- If every step since the lock was taken keeps it detectable, it is. -/
theorem detectable_of_keeps (hhead : L.head = .page d) (hlabel : s.cache.label d = L.key)
    (hw : s.cache.wlock = none) (hperf : Performs s t es)
    (hkeeps : Along Core.apply (KeepsDetectable d s.trace.length) s.toCore es) :
    Detectable env L d s t := by
  have hnone : s.trace.drop s.trace.length = [] := List.drop_length
  have hs : Held L.key d s.trace.length s.toCore := by
    refine ⟨Nat.le_refl _, ?_, fun _ => hlabel, ?_⟩
    · rw [hnone]
      rintro (h | ⟨k, h⟩) <;> cases h
    · intro _ w hw'
      cases hw.symm.trans hw'
  have ht : Held L.key d s.trace.length t.toCore := by
    rw [hperf.1]
    exact replay_invariant _ held_step es hs ((along_and es).mpr ⟨hperf.2, hkeeps⟩)
  have hdead : ∀ n, Released d (newEvents s t) → ¬ Alive (after env n t).toCore d :=
    fun n hreleased halive => ht.dead hreleased (alive_of_alive_after halive)
  have honly : ∀ n, Alive (after env n t).toCore d → OnlyBytesOf L.key d s t := fun n halive =>
    onlyBytesOf_of_held hs hperf hkeeps fun hreleased => hdead n hreleased halive
  refine ⟨?_, ?_, ?_, ?_⟩
  · intro hreleased
    refine ⟨after env 1 t, ?_⟩
    rw [lockCheck_page env t hhead, decide_eq_false (hdead 1 hreleased)]
  · intro hreleased dest offset size hoff
    refine ⟨dest, after env 1 t, ?_⟩
    rw [lazyfreeRead_page env hhead dest size hoff, if_neg (hdead 1 hreleased)]
  · intro u hcheck
    have halive := (Prod.mk.inj (Except.ok.inj ((lockCheck_page env t hhead).symm.trans hcheck))).1
    exact honly 1 (of_decide_eq_true halive)
  · intro dest offset size v u hoff hread
    rw [lazyfreeRead_page env hhead dest size hoff] at hread
    split at hread
    · obtain ⟨hresult, -⟩ := Prod.mk.inj (Except.ok.inj hread)
      obtain ⟨halive, rfl⟩ := Prod.mk.inj hresult
      have halive' := of_decide_eq_true halive
      exact ⟨honly _ halive', fun j hj => readResult_of_alive halive' hoff hj⟩
    · cases hread

/-- A stale lock stays detectably invalid in every run whose steps, from the lock on, keep it so. -/
theorem stale_lock_detectable {boot : Boot} {capacity n a m : ℕ} {s₀ : Sys}
    (hnew : lazyfreeCacheNewEx boot capacity n a m = .ok s₀) {ft : FtCache}
    {calls later : List Call} {p q : Process} (hrun : run env ft calls (start s₀) = .ok ((), p))
    {lock : RLock} (hlock : lazyfreeReadLock env lock p.sys = .ok (L, s))
    (hhead : L.head = .page d) {l : ℕ}
    (hlater : run env ft later ⟨s, Function.update p.locks l L⟩ = .ok ((), q))
    (hkeeps : Along Core.apply (KeepsDetectable d s.trace.length) s.toCore (newEvents s q.sys)) :
    Detectable env L d s q.sys := by
  have hp := (run_sound (created_of_new hnew).1.sound hrun).1
  obtain ⟨-, -, ⟨es, hes, -⟩, -⟩ := since_readLock hp hlock hlater
  rw [newEvents_eq hes] at hkeeps
  have hw := wlock_of_readLock hlock
  cases readLocked_of_ok hlock with
  | miss hkey hhead' => cases hhead.symm.trans hhead'
  | gone e hkey hhead' => cases hhead.symm.trans hhead'
  | hit e hkey hhead' hmapped halive htail =>
    cases hhead.symm.trans hhead'
    refine detectable_of_keeps hhead ?_ ?_ hes hkeeps
    · rw [cache_after, hkey]
      exact hmapped.2
    · rw [cache_after, hw]

/-- The entry of key 256 is a zero byte: the upgrade of its lock clears the tail, so the drop that
follows is seen through the old lock. -/
theorem stale_lock_detectable_dropped :
    ∃ p L s q u, run calm byteCache [.ftGet 256] (start smallCache) = .ok ((), p) ∧
      lazyfreeReadLock calm (.fresh 256) p.sys = .ok (L, s) ∧
      run calm byteCache [.writeLock 0, .writeUnlock true] ⟨s, Function.update p.locks 0 L⟩ =
        .ok ((), q) ∧ lockCheck calm L q.sys = .ok (false, u) := by
  have hrun := run_eq_unit (start smallCache) (run calm byteCache [.ftGet 256]) (by decide +kernel)
  have hlock := run_eq (lazyfreeReadLock calm (.fresh 256))
    (outcome (run calm byteCache [.ftGet 256]) (start smallCache) (by decide +kernel)).2.sys
    (by decide +kernel)
  have hkeeps := stale_lock_detectable (d := ⟨0, 0⟩) (l := 0) smallCache_new hrun hlock
    (by decide +kernel)
    (run_eq_unit _ (run calm byteCache [.writeLock 0, .writeUnlock true]) (by decide +kernel))
  refine ⟨_, _, _, _, _, hrun, hlock, run_eq_unit _ _ (by decide +kernel),
    ((hkeeps ?_).check (.inr ⟨256, by decide +kernel⟩)).choose_spec⟩
  rw [show newEvents _ _ = [.stored ⟨0, 0⟩ 0 1, .stored ⟨0, 0⟩ 0 0,
    .upgraded ⟨0, 0⟩ ⟨⟨0, 0⟩, 256⟩, .stored ⟨0, 0⟩ 4095 0, .dropped ⟨0, 0⟩ 256]
    by decide +kernel]
  refine ⟨fun _ _ h => ?_, fun _ _ h => ?_, fun _ => .inl rfl, fun _ _ _ => rfl, fun _ => ?_,
    trivial⟩
  · exact absurd h (by decide)
  · exact absurd h (by decide)
  · decide +kernel

/-- Key 1 is dropped and its slot filled for key 2: the lock check of the old lock is true. -/
theorem stale_lock_passes_check :
    ∃ p L s q, run calm byteCache [.ftGet 1] (start smallCache) = .ok ((), p) ∧
      lazyfreeReadLock calm (.fresh 1) p.sys = .ok (L, s) ∧ L.head = .page ⟨0, 0⟩ ∧
      run calm byteCache [.ftDrop 1, .ftGet 2] ⟨s, Function.update p.locks 0 L⟩ = .ok ((), q) ∧
      ¬ Detectable calm L ⟨0, 0⟩ s q.sys := by
  refine ⟨_, _, _, _, run_eq_unit _ _ (by decide +kernel), run_eq _ _ (by decide +kernel),
    by decide +kernel, run_eq_unit _ _ (by decide +kernel), ?_⟩
  intro h
  obtain ⟨u, hcheck⟩ := h.check (.inr ⟨1, by decide +kernel⟩)
  rw [run_eq (lockCheck calm _) _ (by decide +kernel)] at hcheck
  have htrue := (Prod.mk.inj (Except.ok.inj hcheck)).1
  exact absurd htrue (by decide +kernel)

end LazyfreeCache.StaleLocks
