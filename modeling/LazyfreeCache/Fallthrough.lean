import LazyfreeCache.Writes

/-!
How `ft_cache_get` and `ft_cache_drop` end. A call returns from a page that
stayed alive to its last access, or along the miss path; it stops the process
when the page goes away after the first lock check, or when no chunk has a
page left. The numbers of accesses are exact.
-/
namespace LazyfreeCache.Fallthrough
open ProgramLogic EventReplay State LazyfreeOps FallthroughOps Refinement Reads Allocation
open Writes

/-- What `refill_cb` leaves in the caller's buffer. -/
def entry (ft : FtCache) (key : Key) (value : Buffer) : Buffer := fun i =>
  if i < ft.entrySize then ft.refillCb key i else value i

def refilled (s : Sys) (key : Key) : Sys := perform s (.refill key)

/-- Where the miss path of `ft_cache_get` allocates from: a dead page that the
lock still points to was pinned and unpinned before. -/
inductive Cleared (env : Env) (s : Sys) (key : Key) : Sys → Prop
  | untouched : Cleared env s key s
  | unpinned (p : EntryDescriptor) (hmapped : s.cache.Mapped key p)
      (hdead : ¬ Alive s.toCore p) : Cleared env s key (unpinned env s p)

/-- The machine after the miss path allocated slot `d` and filled it. -/
def filled (env : Env) (ft : FtCache) (key : Key) (value : Buffer) (u : Sys) (j : ℕ)
    (d : EntryDescriptor) : Sys :=
  sealed env (copying env d (pageSize - ft.entrySize) (entry ft key value) ft.entrySize 0
    (perform (searched env u j) (.allocated d key))) ⟨d, key⟩

section Filled
variable {env : Env} {ft : FtCache} {key : Key} {value : Buffer} {u : Sys} {j : ℕ}
  {d : EntryDescriptor}

theorem cache_filled : ∃ bit, (filled env ft key value u j d).cache =
    ((searched env u j).cache.allocate d key).commit ⟨d, key⟩ bit := by
  unfold filled
  rw [cache_sealed, cache_copying]
  exact ⟨_, rfl⟩

theorem mapped_filled : (filled env ft key value u j d).cache.Mapped key d := by
  obtain ⟨bit, hcache⟩ : ∃ bit, (filled env ft key value u j d).cache =
    ((searched env u j).cache.allocate d key).commit ⟨d, key⟩ bit := cache_filled
  constructor
  · rw [hcache, Cache.hmapGet_commit, Cache.hmapGet_allocate, if_pos rfl]
  · rw [hcache, Cache.label_commit, Cache.label_allocate, if_pos rfl]

theorem alive_filled : Alive (filled env ft key value u j d).toCore d := alive_sealed env _ _

/-- The page that the miss path leaves holds the entry. -/
theorem logical_filled {i : ℕ} (hi : i < ft.entrySize) :
    logical (filled env ft key value u j d).toCore d (pageSize - ft.entrySize + i) =
      ft.refillCb key i := by
  obtain ⟨hstored, hbytes⟩ := mem_copying env d (pageSize - ft.entrySize)
    (entry ft key value) (by omega : 0 < ft.entrySize) 0
    (perform (searched env u j) (.allocated d key))
  unfold filled
  rw [logical_sealed hstored, hbytes i (Nat.zero_le i) (by omega)]
  exact if_pos hi

end Filled

/-- No page answers for the key after `n` accesses. -/
def Missing (env : Env) (s : Sys) (key : Key) (n : ℕ) : Prop :=
  ∀ d, s.cache.Mapped key d → ¬ Alive (after env n s).toCore d

/-- How `ft_cache_get` returns. -/
inductive FtGot (env : Env) (ft : FtCache) (key : Key) (value : Buffer) (s : Sys) :
    Buffer → Sys → Prop
  | hit (d : EntryDescriptor) (v : Buffer) (hmapped : s.cache.Mapped key d)
      (halive : Alive (after env (ft.entrySize + 7) s).toCore d)
      (hv : ∀ i < ft.entrySize, v i = logical s.toCore d (pageSize - ft.entrySize + i)) :
      FtGot env ft key value s v (after env (ft.entrySize + 7) s)
  | miss (n : ℕ) (u : Sys) (j : ℕ) (d : EntryDescriptor) (hn : n ≤ 3)
      (hmissing : Missing env s key n) (hu : Cleared env (refilled (after env n s) key) key u)
      (hfinds : Finds env u j d) :
      FtGot env ft key value s (entry ft key value) (filled env ft key value u j d)

/-- How `ft_cache_get` stops the process: the page went away after the first
lock check, or no chunk has a free page. -/
inductive FtGetStops (env : Env) (ft : FtCache) (key : Key) (s : Sys) : Fault → Prop
  | torn (d : EntryDescriptor) (e : Fault) (hmapped : s.cache.Mapped key d)
      (halive : Alive (after env 3 s).toCore d)
      (hdead : ¬ Alive (after env (ft.entrySize + 7) s).toCore d)
      (he : e = .fallthroughLockCheckFailed ∨ e = .lockCheckFailed) : FtGetStops env ft key s e
  | stuck (n : ℕ) (u : Sys) (hmissing : Missing env s key n)
      (hu : Cleared env (refilled (after env n s) key) key u) (hstuck : Stuck env u) :
      FtGetStops env ft key s .noFreePage

theorem dead_after {env : Env} {m n : ℕ} {s : Sys} {d : EntryDescriptor}
    (h : ¬ Alive (after env m s).toCore d) (hmn : m ≤ n) : ¬ Alive (after env n s).toCore d :=
  fun halive => h (alive_after_of_le halive hmn)

/-- A store away from the tail brings no page back. -/
theorem alive_storing {env : Env} {s : Sys} {d : EntryDescriptor} {offset : ℕ} {v : UInt8}
    (h : offset ≠ pageSize - 1) :
    Alive (storing env s d offset v).toCore d ↔ Alive (after env 1 s).toCore d := by
  unfold Alive
  rw [mem_storing, tail_store_of_ne _ _ h, after_one]

theorem dead_pinned {env : Env} {s : Sys} {d : EntryDescriptor} (h : ¬ Alive s.toCore d) :
    ¬ Alive (pinned env s d).toCore d := by
  have hpage := pageSize_eq
  have h2 : ¬ Alive (after env 1 (after env 1 s)).toCore d := by
    rw [after_after]
    exact dead_after (m := 0) h (by omega)
  unfold pinned
  refine dead_after (m := 0) ?_ (by omega)
  rw [after_zero, alive_storing (by omega)]
  exact h2

/-- The miss path of `ft_cache_get`, after `LAZYFREE_LOCK_CHECK` said no. -/
theorem wp_refill {env : Env} {ft : FtCache} {key : Key} {value : Buffer} {s : Sys} {L : RLock}
    {Q : Buffer → Sys → Prop} {E : Fault → Prop} (hw : s.cache.wlock = none) (hkey : L.key = key)
    (hindex : ∀ d, s.cache.hmapGet key = some d → d.index < 2 ^ 32)
    (hhead : L.head = .emptyPage ∨
      ∃ p, L.head = .page p ∧ s.cache.Mapped key p ∧ ¬ Alive s.toCore p)
    (hok : ∀ u j d, Cleared env (refilled s key) key u → Finds env u j d →
      Q (entry ft key value) (filled env ft key value u j d))
    (herror : ∀ u, Cleared env (refilled s key) key u → Stuck env u → E .noFreePage) :
    wp (do
      let value ← refill ft key value
      let (page, _) ← lazyfreeWriteLock env L
      memcpyToPage env page (pageSize - ft.entrySize) value ft.entrySize 0
      lazyfreeWriteUnlock env false
      return value) Q E s := by
  have hfill : ∀ u j d, Finds env u j d → u.cache.wlock = none →
      wp (do
        memcpyToPage env d (pageSize - ft.entrySize) (entry ft key value) ft.entrySize 0
        lazyfreeWriteUnlock env false
        return entry ft key value)
        (fun b t => b = entry ft key value ∧ t = filled env ft key value u j d) E
        (perform (searched env u j) (.allocated d key)) := by
    intro u j d hfinds hwu
    rw [wp_bind, wp_of_ok (memcpyToPage_eq env d _ _ _ _ _), wp_bind,
      wp_of_ok (lazyfreeWriteUnlock_commit env (w := ⟨d, key⟩) (by rw [cache_copying]; rfl))]
    exact ⟨rfl, rfl⟩
  rw [wp_bind]
  change wp _ _ _ (refilled s key)
  rw [wp_bind]
  refine wp_mono (lazyfreeWriteLock_spec env L (refilled s key) hw ?_) ?_ ?_
  · rintro p hp
    rcases hhead with hempty | ⟨q, hq, hmapped, -⟩
    · rw [hempty] at hp
      cases hp
    · rw [hq] at hp
      cases hp
      exact hindex p hmapped.1
  · rintro ⟨d, L'⟩ t hlocked
    have hfrom : ∃ u j, Cleared env (refilled s key) key u ∧ Finds env u j d ∧
        u.cache.wlock = none ∧ t = perform (searched env u j) (.allocated d key) := by
      cases hlocked with
      | fresh j d hhead' hfinds => exact ⟨_, j, .untouched, hfinds, hw, by rw [hkey]⟩
      | moved p j d hp hlabel hfinds => exact ⟨_, j, .untouched, hfinds, hw, by rw [hkey]⟩
      | torn p j d hp hlabel hdead hfinds =>
        rcases hhead with hempty | ⟨q, hq, hmapped, hqdead⟩
        · rw [hempty] at hp
          cases hp
        · rw [hq] at hp
          cases hp
          exact ⟨_, j, .unpinned p hmapped hqdead, hfinds, hw, by rw [hkey]⟩
      | upgraded p hp hlabel halive =>
        rcases hhead with hempty | ⟨q, hq, hmapped, hqdead⟩
        · rw [hempty] at hp
          cases hp
        · rw [hq] at hp
          cases hp
          exact absurd halive (dead_pinned hqdead)
    obtain ⟨u, j, hu, hfinds, hwu, rfl⟩ := hfrom
    refine wp_mono (hfill u j d hfinds hwu) ?_ (fun e he => he)
    rintro b t ⟨rfl, rfl⟩
    exact hok u j d hu hfinds
  · rintro e ⟨rfl, hstuck | ⟨p, hp, hlabel, hdead, hstuck⟩⟩
    · exact herror _ .untouched hstuck
    · rcases hhead with hempty | ⟨q, hq, hmapped, hqdead⟩
      · rw [hempty] at hp
        cases hp
      · rw [hq] at hp
        cases hp
        exact herror _ (.unpinned p hmapped hqdead) hstuck

/-- The hit path of `ft_cache_get`, three accesses after the call began. -/
theorem wp_hit {env : Env} {ft : FtCache} {key : Key} {value : Buffer} {s : Sys} {L : RLock}
    {d : EntryDescriptor} (hw : s.cache.wlock = none) (hindex : d.index < 2 ^ 32)
    (hhead : L.head = .page d) (hmapped : s.cache.Mapped key d)
    (hlabel : s.cache.label d = L.key) (h3 : Alive (after env 3 s).toCore d)
    (htail : L.tail = logical (after env 2 s).toCore d (pageSize - 1)) :
    wp (do
      let (_, value) ← lazyfreeRead env L value (pageSize - ft.entrySize) ft.entrySize
      require ((← lockCheck env L) = true) .fallthroughLockCheckFailed
      let _ ← lazyfreeReadUnlock env L false
      return value) (FtGot env ft key value s) (FtGetStops env ft key s) (after env 3 s) := by
  have hpage := pageSize_eq
  have hfits := ft.fits
  have hcopied : copied (pageSize - ft.entrySize) ft.entrySize = ft.entrySize := by
    unfold copied
    omega
  have hoff : pageSize - ft.entrySize < 2 ^ 64 := by omega
  have hread := lazyfreeRead_page env hhead value ft.entrySize hoff (after env 3 s)
  rw [hcopied] at hread
  simp only [after_after] at hread
  rw [wp_bind]
  by_cases h4 : Alive (after env (1 + 3) s).toCore d
  · rw [if_pos h4] at hread
    rw [wp_of_ok hread]
    simp only [wp_bind, wp_lockCheck env hhead, after_after, wp_require, decide_eq_true_eq]
    refine ⟨fun h6 => ?_, fun hdead => ?_⟩
    · refine wp_readUnlock hhead (by rw [cache_after, hw]) hindex ?_ ?_ ?_ ?_ ?_
      · rw [after_after]
        intro hdead
        refine .torn d _ hmapped h3 ?_ (.inr rfl)
        rwa [show 1 + (1 + (ft.entrySize + 2 + 3)) = ft.entrySize + 7 by omega] at hdead
      · rw [cache_after]
        exact fun _ hne => absurd hlabel hne
      · intro halive _ _
        rw [after_after, show 1 + (1 + (ft.entrySize + 2 + 3)) = ft.entrySize + 7 by omega] at *
        refine .hit d _ hmapped halive fun i hi => ?_
        rw [readResult_window (n := ft.entrySize + 4) (by omega) (by omega)
            (by rw [after_after]; exact halive) (by omega) ?_ hi,
          logical_after (alive_after_of_le halive (by omega))]
        rw [htail, logical_after (alive_after_of_le halive (by omega)),
          logical_after (alive_after_of_le halive (by omega))]
      · exact fun _ _ h => by cases h
      · exact fun _ _ h => by cases h
    · refine .torn d _ hmapped h3 (dead_after hdead (by omega)) (.inl rfl)
  · rw [if_neg h4] at hread
    rw [wp_of_ok hread]
    simp only [wp_bind, wp_lockCheck env hhead, after_after, wp_require, decide_eq_true_eq]
    have h5 := dead_after (n := 1 + (1 + 3)) h4 (by omega)
    refine ⟨fun halive => absurd halive h5, fun hdead => ?_⟩
    exact .torn d _ hmapped h3 (dead_after h4 (by omega)) (.inl rfl)

theorem ftCacheGet_spec (env : Env) (ft : FtCache) (key : Key) (value : Buffer) (s : Sys)
    (hw : s.cache.wlock = none)
    (hindex : ∀ d, s.cache.hmapGet key = some d → d.index < 2 ^ 32) :
    wp (ftCacheGet env ft key value) (FtGot env ft key value s) (FtGetStops env ft key s) s := by
  unfold ftCacheGet
  rw [wp_bind]
  refine wp_readLock hw ?_
  intro L t hL
  rw [wp_bind, wp_require]
  have hnext : ∀ n, (after env n s).cache.wlock = none := fun n => by rw [cache_after, hw]
  have hindex' : ∀ n d, (after env n s).cache.hmapGet key = some d → d.index < 2 ^ 32 :=
    fun n d hd => hindex d (by rwa [cache_after] at hd)
  cases hL with
  | miss hkey hhead hmap =>
    have hmissing : Missing env s key 0 := fun d hd _ => hmap d hd
    refine ⟨fun _ => ?_, fun h => absurd h (by simp [hhead])⟩
    rw [wp_bind, wp_of_ok (lockCheck_emptyPage env s hhead)]
    exact wp_refill hw hkey hindex (.inl hhead)
      (fun u j d hu hfinds => .miss 0 u j d (by omega) hmissing hu hfinds)
      (fun u hu hstuck => .stuck 0 u hmissing hu hstuck)
  | gone d hkey hhead hmapped hdead =>
    have hmissing : Missing env s key 1 := fun e he => hmapped.unique he ▸ hdead
    refine ⟨fun _ => ?_, fun h => absurd h (by simp [hhead])⟩
    rw [wp_bind, wp_of_ok (lockCheck_emptyPage env _ hhead)]
    exact wp_refill (hnext 1) hkey (hindex' 1) (.inl hhead)
      (fun u j d hu hfinds => .miss 1 u j d (by omega) hmissing hu hfinds)
      (fun u hu hstuck => .stuck 1 u hmissing hu hstuck)
  | hit d hkey hhead hmapped halive htail =>
    refine ⟨fun _ => ?_, fun h => absurd h (by simp [hhead])⟩
    rw [wp_bind, wp_lockCheck env hhead, after_after]
    by_cases h3 : Alive (after env (1 + 2) s).toCore d
    · rw [if_pos (by simpa using h3)]
      have hlabel : s.cache.label d = L.key := hmapped.2.trans hkey.symm
      exact wp_hit hw (hindex d hmapped.1) hhead hmapped hlabel h3 htail
    · have hmissing : Missing env s key 3 := fun e he => hmapped.unique he ▸ h3
      rw [if_neg (by simpa using h3)]
      refine wp_refill (hnext 3) hkey (hindex' 3) (.inr ⟨d, hhead, ?_, h3⟩)
        (fun u j d hu hfinds => .miss 3 u j d (by omega) hmissing hu hfinds)
        (fun u hu hstuck => .stuck 3 u hmissing hu hstuck)
      rw [cache_after]
      exact hmapped

/-- How `ft_cache_drop` returns. -/
inductive FtDropped (env : Env) (key : Key) (s : Sys) : Bool → Sys → Prop
  | miss (n : ℕ) (hn : n ≤ 3) (hmissing : Missing env s key n) :
      FtDropped env key s false (after env n s)
  | hit (d : EntryDescriptor) (hmapped : s.cache.Mapped key d)
      (halive : Alive (after env 4 s).toCore d)
      (hfree : (s.cache.free d.chunk).length < s.cache.len d.chunk) :
      FtDropped env key s true (perform (after env 4 s) (.dropped d key))

/-- How `ft_cache_drop` stops the process. -/
inductive FtDropStops (env : Env) (key : Key) (s : Sys) : Fault → Prop
  | torn (d : EntryDescriptor) (hmapped : s.cache.Mapped key d)
      (halive : Alive (after env 3 s).toCore d) (hdead : ¬ Alive (after env 4 s).toCore d) :
      FtDropStops env key s .lockCheckFailed
  | overflow (d : EntryDescriptor) (hmapped : s.cache.Mapped key d)
      (halive : Alive (after env 4 s).toCore d)
      (hfree : s.cache.len d.chunk ≤ (s.cache.free d.chunk).length) :
      FtDropStops env key s .freePagesOverflow

theorem ftCacheDrop_spec (env : Env) (key : Key) (s : Sys) (hw : s.cache.wlock = none)
    (hindex : ∀ d, s.cache.hmapGet key = some d → d.index < 2 ^ 32) :
    wp (ftCacheDrop env key) (FtDropped env key s) (FtDropStops env key s) s := by
  unfold ftCacheDrop
  rw [wp_bind]
  refine wp_readLock hw ?_
  intro L t hL
  rw [wp_bind]
  cases hL with
  | miss hkey hhead hmap =>
    rw [wp_of_ok (lockCheck_emptyPage env s hhead)]
    exact .miss 0 (by omega) fun d hd _ => hmap d hd
  | gone d hkey hhead hmapped hdead =>
    rw [wp_of_ok (lockCheck_emptyPage env _ hhead)]
    exact .miss 1 (by omega) fun e he => hmapped.unique he ▸ hdead
  | hit d hkey hhead hmapped halive htail =>
    have hlabel : s.cache.label d = L.key := hmapped.2.trans hkey.symm
    rw [wp_lockCheck env hhead, after_after]
    by_cases h3 : Alive (after env (1 + 2) s).toCore d
    · rw [if_pos (by simpa using h3), wp_bind]
      refine wp_readUnlock hhead (by rw [cache_after, hw]) (hindex d hmapped.1) ?_ ?_ ?_ ?_ ?_
      all_goals rw [after_after]
      · exact fun hdead => .torn d hmapped h3 hdead
      all_goals rw [cache_after]
      · exact fun _ hne => absurd hlabel hne
      · exact fun _ _ h => by cases h
      · intro h4 _ _ hfree
        rw [show L.key = key from hkey]
        exact .hit d hmapped h4 hfree
      · exact fun h4 _ _ hfree => .overflow d hmapped h4 hfree
    · rw [if_neg (by simpa using h3)]
      exact .miss 3 (by omega) fun e he => hmapped.unique he ▸ h3

end LazyfreeCache.Fallthrough
