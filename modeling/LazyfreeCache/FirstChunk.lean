import LazyfreeCache.TableCache

/-!
Filling the first chunk. A write lock with `head = NULL` takes a new page, also
for a key that has one. In a fresh cache such writes take the pages of chunk 0
in order while that chunk has blank pages, whatever the kernel does, so slots of
every index that a chunk can hold are reachable, with one key in the table.
-/
namespace LazyfreeCache.FirstChunk

open ProgramLogic EventReplay State LazyfreeOps FallthroughOps Refinement Reads Allocation
open Writes Fallthrough FallthroughEvents Accounting Client FtRuns

/-- `n` pages were written, the first `n` of chunk 0. -/
structure Filling (n : ℕ) (s : Sys) : Prop where
  idle : Idle s
  current : s.cache.currentChunkIdx = 0
  len : s.cache.len 0 = n
  free : s.cache.free 0 = []
  total : s.cache.totalFreePages = numberOfChunks * s.cache.pagesPerChunk - n

variable {env : Env} {ft : FtCache} {n : ℕ} {s t : Sys}

theorem filling_of_created {l a : ℕ} (h : Created l a s) : Filling 0 s where
  idle := idle_of_created h
  current := h.current
  len := h.len 0
  free := h.free 0
  total := h.total

theorem Filling.ready (h : Filling n s) (hn : n < s.cache.pagesPerChunk) :
    s.cache.Ready ⟨n, 0⟩ :=
  ⟨h.current.symm, .inr ⟨h.free, by rw [h.len]; exact hn, h.len.symm⟩⟩

theorem Filling.total_ne_zero (h : Filling n s) (hn : n < s.cache.pagesPerChunk) :
    s.cache.totalFreePages ≠ 0 := by
  have hchunks : numberOfChunks = 32 := rfl
  rw [h.total, hchunks]
  omega

theorem Filling.searched_eq (h : Filling n s) (hn : n < s.cache.pagesPerChunk) :
    searched env s 0 = s := by
  change opened env s = s
  unfold opened
  rw [if_neg (h.total_ne_zero hn)]

theorem Filling.finds (h : Filling n s) (hn : n < s.cache.pagesPerChunk) :
    Finds env s 0 ⟨n, 0⟩ := by
  refine ⟨by decide, by omega, ?_⟩
  rw [h.searched_eq hn]
  exact h.ready hn

/-- The page of the last write: stored and not given back since. -/
structure LastPage (key : Key) (d : EntryDescriptor) (s : Sys) : Prop where
  mapped : s.cache.Mapped key d
  stored : (s.mem d).lazyfree = false
  alive : Alive s.toCore d

/-- One more page, for any key. -/
theorem Filling.write (h : Filling n s) (hn : n < s.cache.pagesPerChunk) (env : Env) (key : Key) :
    ∃ L u t, lazyfreeWriteLock env (.fresh key) s = .ok ((⟨n, 0⟩, L), u) ∧
      lazyfreeWriteUnlock env false u = .ok ((), t) ∧ Filling (n + 1) t ∧
      t.cache.pagesPerChunk = s.cache.pagesPerChunk ∧ LastPage key ⟨n, 0⟩ t := by
  have hlock : wp (lazyfreeWriteLock env (.fresh key))
      (fun r t => WriteLocked env s (.fresh key) r.1 r.2 t) (fun _ => False) s := by
    refine wp_mono (lazyfreeWriteLock_spec env _ s h.idle.wlock fun p hp => by cases hp)
      (fun _ _ h => h) ?_
    rintro e ⟨-, hstuck | ⟨p, hp, -⟩⟩
    · exact not_stuck h.idle.accounted (by omega) hstuck
    · cases hp
  obtain ⟨⟨d, L⟩, u, hrun, hlocked⟩ := returns_of_wp hlock
  cases hlocked with
  | moved p j d hhead => cases hhead
  | torn p j d hhead => cases hhead
  | upgraded p hhead => cases hhead
  | fresh j d hhead hfinds =>
    obtain rfl : d = ⟨n, 0⟩ := hfinds.unique (h.finds hn)
    have hj : j = 0 := by
      by_contra hj
      exact not_full_of_ready (h.finds hn).ready (hfinds.before 0 (by omega))
    subst hj
    rw [h.searched_eq hn] at hrun
    change lazyfreeWriteLock env (.fresh key) s =
      .ok ((⟨n, 0⟩, .fresh key), perform s (.allocated ⟨n, 0⟩ key)) at hrun
    have hw : (perform s (.allocated ⟨n, 0⟩ key)).cache.wlock = some ⟨⟨n, 0⟩, key⟩ := rfl
    have hlabel : (perform s (.allocated ⟨n, 0⟩ key)).cache.label ⟨n, 0⟩ = key := by
      change (s.cache.allocate ⟨n, 0⟩ key).label ⟨n, 0⟩ = key
      rw [Cache.label_allocate, if_pos rfl]
    obtain ⟨es, bit, hsealed, -⟩ := acts_sealed env hlabel hw
    have hgiven : Performs s (perform s (.allocated ⟨n, 0⟩ key)) [.allocated ⟨n, 0⟩ key] :=
      performs_perform ⟨h.idle.wlock, h.ready hn⟩
    have haccounted := accounted_performs h.idle.accounted (hgiven.trans hsealed.performs)
    have hcache : (sealed env (perform s (.allocated ⟨n, 0⟩ key)) ⟨⟨n, 0⟩, key⟩).cache =
        (s.cache.allocate ⟨n, 0⟩ key).commit ⟨⟨n, 0⟩, key⟩
          (tailBit env (perform s (.allocated ⟨n, 0⟩ key)) ⟨n, 0⟩) := cache_sealed env _ _
    have hpages := h.idle.accounted.pages
    have htotal := h.total
    have hchunks : numberOfChunks = 32 := rfl
    refine ⟨_, _, sealed env (perform s (.allocated ⟨n, 0⟩ key)) ⟨⟨n, 0⟩, key⟩, hrun,
      lazyfreeWriteUnlock_commit env hw, ⟨⟨haccounted, ?_⟩, ?_, ?_, ?_, ?_⟩, ?_,
      ⟨⟨?_, ?_⟩, stored_sealed env _ _, alive_sealed env _ _⟩⟩
    all_goals rw [hcache]
    · rw [Cache.wlock_commit]
    · simp [h.current]
    · simp [h.len, h.free, u32]
      omega
    · simp [h.free]
    · rw [Cache.totalFreePages_commit, Cache.totalFreePages_allocate,
        Cache.pagesPerChunk_commit, Cache.pagesPerChunk_allocate, htotal, hchunks]
      unfold u64
      omega
    · simp
    · rw [Cache.hmapGet_commit, Cache.hmapGet_allocate, if_pos rfl]
    · rw [Cache.label_commit, Cache.label_allocate, if_pos rfl]

/-- `n` pages are written for the key, through a lock with `head = NULL` each. -/
def rewrites (key : Key) (n : ℕ) : List Call :=
  (List.replicate n [.rlock 0 key, .writeLock 0, .writeUnlock false]).flatten

theorem onKeys_rewrites (K : Key → Prop) {key : Key} (hkey : K key) (n : ℕ) :
    ∀ call ∈ rewrites key n, call.OnKeys K := by
  intro call hcall
  obtain ⟨calls, hcalls, hmem⟩ := List.mem_flatten.mp hcall
  rw [(List.mem_replicate.mp hcalls).2] at hmem
  simp only [List.mem_cons, List.not_mem_nil, or_false] at hmem
  rcases hmem with rfl | rfl | rfl
  · exact hkey
  · trivial
  · trivial

/-- The first `n` writes take the first `n` pages, in order. -/
theorem filling_run (env : Env) (ft : FtCache) (key : Key) (h : Filling 0 s)
    (hn : n < s.cache.pagesPerChunk) (locks : ℕ → RLock) :
    ∃ p, run env ft (rewrites key (n + 1)) ⟨s, locks⟩ = .ok ((), p) ∧ Filling (n + 1) p.sys ∧
      p.sys.cache.pagesPerChunk = s.cache.pagesPerChunk ∧ LastPage key ⟨n, 0⟩ p.sys := by
  have hone : ∀ m (p : Process), Filling m p.sys → m ≤ n →
      p.sys.cache.pagesPerChunk = s.cache.pagesPerChunk →
      ∃ q, run env ft [.rlock 0 key, .writeLock 0, .writeUnlock false] p = .ok ((), q) ∧
        Filling (m + 1) q.sys ∧ q.sys.cache.pagesPerChunk = s.cache.pagesPerChunk ∧
        LastPage key ⟨m, 0⟩ q.sys := by
    intro m p hp hm hpages
    obtain ⟨L, u, t, hlock, hunlock, ht, hpages', hlast⟩ := hp.write (by omega) env key
    refine ⟨⟨t, Function.update (Function.update p.locks 0 (.fresh key)) 0 L⟩, ?_, ht,
      hpages'.trans hpages, hlast⟩
    have hexec : exec env ft (.writeLock 0) ⟨p.sys, Function.update p.locks 0 (.fresh key)⟩ =
        .ok ((), ⟨u, Function.update (Function.update p.locks 0 (.fresh key)) 0 L⟩) := by
      refine bind_ok.mpr ⟨_, _, rfl, bind_ok.mpr ⟨(⟨m, 0⟩, L), _, onSys_ok ?_, rfl⟩⟩
      dsimp only
      rw [Function.update_self]
      exact hlock
    exact (runAll_cons_ok _).mpr ⟨_, rfl, (runAll_cons_ok _).mpr ⟨_, hexec,
      (runAll_cons_ok _).mpr ⟨_, onSys_ok hunlock, rfl⟩⟩⟩
  induction n with
  | zero => exact hone 0 ⟨s, locks⟩ h (Nat.le_refl _) rfl
  | succ n ih =>
    obtain ⟨p, hrun, hp, hpages, -⟩ := ih (by omega) fun m p hp hm => hone m p hp (by omega)
    obtain ⟨q, hrun', hq, hpages', hlast⟩ := hone (n + 1) p hp (Nat.le_refl _) hpages
    refine ⟨q, ?_, hq, hpages', hlast⟩
    unfold rewrites
    rw [List.replicate_succ', List.flatten_append, List.flatten_singleton]
    exact (runAll_append_ok _).mpr ⟨p, hrun, hrun'⟩

end LazyfreeCache.FirstChunk
