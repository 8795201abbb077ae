import LazyfreeCache.Commits
import LazyfreeCache.LossyStore
import LazyfreeCache.Slots

/-!
A client that keeps to the rules of the header: it sets up at most one lock on
a key at a time, uses a lock until it is released by a read unlock or handed to
a write lock, and writes in the session that the write lock opens. Its calls
are actions on a lossy store, and what it finds in the cache under a key is the
value of that store, whatever else goes on under other keys.
-/
namespace LazyfreeCache.Sessions

open ProgramLogic EventReplay State LazyfreeOps FallthroughOps Refinement Reads Allocation
open Writes Frames Accounting Client Upgrade Commits Slots LossyStore

/-! ### The discipline -/

/-- The locks that are set up, each with its key, and the one that was handed to a write lock. -/
structure Holding where
  key : ℕ → Option Key
  writing : Option ℕ

namespace Holding

def nothing : Holding := ⟨fun _ => none, none⟩

/-- The lock is set up and was not handed to a write lock. -/
def Has (h : Holding) (l : ℕ) : Prop := h.key l ≠ none ∧ h.writing ≠ some l

/-- A lock is set up when no other lock has its key, and used as long as it is held. -/
def Allows (h : Holding) : Call → Prop
  | .rlock l key => key ≠ 0 ∧ h.key l = none ∧ ∀ l', h.key l' ≠ some key
  | .readLock l => h.Has l
  | .read l _ _ => h.Has l
  | .readUnlock l _ => h.Has l
  | .writeLock l => h.Has l
  | .store _ _ => True
  | .writeUnlock _ => True
  | .ftGet _ => False
  | .ftDrop _ => False

def next (h : Holding) : Call → Holding
  | .rlock l key => { h with key := Function.update h.key l (some key) }
  | .readUnlock l _ => { h with key := Function.update h.key l none }
  | .writeLock l => { h with writing := some l }
  | .writeUnlock _ =>
    match h.writing with
    | some l => ⟨Function.update h.key l none, none⟩
    | none => h
  | _ => h

end Holding

/-! ### The store -/

/-- The bytes of a page as far as its sessions wrote them. -/
abbrev PageBytes := Fin pageSize → Option UInt8

def unwritten : PageBytes := fun _ => none

/-- The written bytes are those of the buffer. -/
def Shows (x : PageBytes) (b : Buffer) : Prop := ∀ i v, x i = some v → b i = v

/-- What a call that led from one process to another does to the store. A write session starts
from the last value if the lock's page was kept. -/
def action (p : Process) (call : Call) (q : Process) : Action Key PageBytes :=
  match call with
  | .readUnlock l true => .discard (p.locks l).key
  | .writeLock l =>
    match (q.locks l).head with
    | .page _ => .reopen (p.locks l).key
    | _ => .create (p.locks l).key unwritten
  | .store offset v => .edit fun x => Function.update x offset (some v)
  | .writeUnlock false => .commit
  | .writeUnlock true => .abandon
  | _ => .idle

/-- A process, the store and the locks held. -/
structure Session where
  process : Process
  store : Store Key PageBytes
  holding : Holding

/-- The session after a call that led to the process `q`. -/
def Session.next (σ : Session) (call : Call) (q : Process) : Session :=
  ⟨q, σ.store.step (action σ.process call q), σ.holding.next call⟩

/-- The calls of a client one after the other, each of them allowed. -/
inductive Runs (env : Env) (ft : FtCache) : Session → List Call → Session → Prop
  | nil (σ : Session) : Runs env ft σ [] σ
  | cons {σ τ : Session} {call : Call} {calls : List Call} {q : Process}
      (hallows : σ.holding.Allows call) (hrun : exec env ft call σ.process = .ok ((), q))
      (hruns : Runs env ft (σ.next call q) calls τ) : Runs env ft σ (call :: calls) τ

/-! ### Frames -/

/-- The key may lose its page from `s` to `t` but gets no other one, and the pages that carry it
show the same as long as they are alive. -/
structure Spares (k : Key) (s t : Core) : Prop where
  map : ∀ d, t.cache.hmapGet k = some d → s.cache.hmapGet k = some d
  label : ∀ d, t.cache.label d = k → s.cache.label d = k ∧ Kept d s t

variable {env : Env} {ft : FtCache} {k : Key} {s t u : Sys} {d p : EntryDescriptor}

theorem spares_refl (k : Key) (s : Core) : Spares k s s :=
  ⟨fun _ h => h, fun d h => ⟨h, kept_refl d s⟩⟩

theorem Spares.trans {s t u : Core} (h : Spares k s t) (h' : Spares k t u) : Spares k s u := by
  refine ⟨fun d hd => h.map d (h'.map d hd), fun d hd => ?_⟩
  obtain ⟨ht, hkept'⟩ := h'.label d hd
  obtain ⟨hs, hkept⟩ := h.label d ht
  exact ⟨hs, hkept.trans hkept'⟩

theorem spares_of_kept {s t : Core} (hcache : t.cache = s.cache)
    (hkept : ∀ d, s.cache.label d = k → Kept d s t) : Spares k s t := by
  refine ⟨fun d hd => by rwa [hcache] at hd, fun d hd => ?_⟩
  rw [hcache] at hd
  exact ⟨hd, hkept d hd⟩

/-- The event is about other keys. -/
def Avoids (k : Key) (s : Core) : Event → Prop
  | .stored p _ _ => s.cache.label p ≠ k
  | .committed w _ => s.cache.label w.slot ≠ k
  | .allocated _ key => key ≠ k
  | .dropped p _ => s.cache.label p ≠ k
  | _ => True

theorem spares_apply (hk : k ≠ 0) {s : Core} {e : Event} (h : Avoids k s e) :
    Spares k s (s.apply e) := by
  refine ⟨fun d hd => ?_, fun d hd => ?_⟩
  · cases e with
    | evicted c =>
      simp only [Core.cache_apply, Cache.step, Cache.hmapGet_evict] at hd
      split at hd
      · cases hd
      · exact hd
    | allocated p key =>
      simp only [Core.cache_apply, Cache.step, Cache.hmapGet_allocate] at hd
      rwa [if_neg (Ne.symm h)] at hd
    | dropped p key =>
      simp only [Core.cache_apply, Cache.step, Cache.hmapGet_drop] at hd
      split at hd
      · cases hd
      · exact hd
    | _ => exact hd
  · have hlabel : s.cache.label d = k := by
      cases e with
      | evicted c =>
        simp only [Core.cache_apply, Cache.step, Cache.label_evict] at hd
        split at hd
        · exact absurd hd.symm hk
        · exact hd
      | allocated p key =>
        simp only [Core.cache_apply, Cache.step, Cache.label_allocate] at hd
        split at hd
        · exact absurd hd h
        · exact hd
      | dropped p key =>
        simp only [Core.cache_apply, Cache.step, Cache.label_drop] at hd
        split at hd
        · exact absurd hd.symm hk
        · exact hd
      | committed w bit =>
        simpa only [Core.cache_apply, Cache.step, Cache.label_commit] using hd
      | _ => exact hd
    refine ⟨hlabel, kept_apply s (fun offset v he => ?_) (fun w bit he hw => ?_)⟩
    · subst he
      exact h hlabel
    · subst he
      exact h (hw ▸ hlabel)

theorem spares_perform (hk : k ≠ 0) {e : Event} (h : Avoids k s.toCore e) :
    Spares k s.toCore (perform s e).toCore := spares_apply hk h

theorem spares_after (k : Key) (env : Env) (n : ℕ) (s : Sys) :
    Spares k s.toCore (after env n s).toCore :=
  spares_of_kept (cache_after env n s) fun d _ => kept_after env n s d

theorem spares_storing (env : Env) (offset : ℕ) (v : UInt8) (h : s.cache.label p ≠ k) :
    Spares k s.toCore (storing env s p offset v).toCore :=
  spares_of_kept (cache_storing env s p offset v) fun _ hd =>
    kept_storing env s offset v fun hp => h (hp ▸ hd)

theorem spares_searched (hk : k ≠ 0) (env : Env) (s : Sys) (j : ℕ) :
    Spares k s.toCore (searched env s j).toCore := by
  induction j with
  | zero =>
    change Spares k s.toCore (opened env s).toCore
    unfold opened
    split
    · exact spares_perform hk trivial
    · exact spares_refl k s.toCore
  | succ j ih =>
    have hnext : searched env s (j + 1) =
        perform (searched env s j) (.advised (searched env s j).cache.currentChunkIdx) :=
      advanced_succ' j _
    rw [hnext]
    exact ih.trans (spares_perform hk trivial)

theorem spares_allocated (hk : k ≠ 0) (env : Env) (s : Sys) (j : ℕ) (d : EntryDescriptor)
    {key : Key} (hne : key ≠ k) :
    Spares k s.toCore (perform (searched env s j) (.allocated d key)).toCore :=
  (spares_searched hk env s j).trans (spares_perform hk hne)

theorem spares_unpinned (k : Key) (env : Env) (s : Sys)
    (hdead : ¬ Alive (pinned env s p).toCore p) :
    Spares k s.toCore (unpinned env s p).toCore :=
  spares_of_kept (cache_pinned env s p) fun _ _ => kept_unpinned env s hdead

theorem spares_upgradedTo (hk : k ≠ 0) (env : Env) {key : Key} (hindex : p.index < 2 ^ 16)
    (hlabel : s.cache.label p = key) (hne : key ≠ k)
    (halive : Alive (pinned env s p).toCore p) :
    Spares k s.toCore (upgradedTo env s p key).toCore := by
  have hrestored : Spares k s.toCore (restored env s p).toCore :=
    spares_of_kept (cache_restored env s p) fun _ _ => kept_restored env s halive
  have hup : Spares k (restored env s p).toCore
      (perform (restored env s p) (.upgraded p (upgradeLock p key))).toCore :=
    spares_perform hk trivial
  refine (hrestored.trans hup).trans (spares_of_kept (cache_tailOpened env _ _) fun d hd => ?_)
  refine kept_tailOpened env _ fun hp => hne ?_
  rw [upgradeLock_slot key hindex] at hp
  have hcache : (perform (restored env s p) (.upgraded p (upgradeLock p key))).cache =
      s.cache.upgrade (upgradeLock p key) := by
    change (restored env s p).cache.upgrade _ = _
    rw [cache_restored]
  rw [hcache, Cache.label_upgrade, ← hp, hlabel] at hd
  exact hd

theorem spares_sealed (hk : k ≠ 0) (env : Env) {w : WLock} (h : s.cache.label w.slot ≠ k) :
    Spares k s.toCore (sealed env s w).toCore := by
  have hlabel : (after env 2 s).cache.label w.slot ≠ k := by rwa [cache_after]
  exact ((spares_after k env 2 s).trans (spares_storing env _ _ hlabel)).trans
    (spares_perform hk hlabel)

/-! ### Processes on nonzero keys -/

/-- The invariants of a process that uses nonzero keys. -/
structure Regular (p : Process) : Prop where
  sound : Sound p
  exact : Exact p.sys.toCore
  nonzero : ∀ l, (p.locks l).key ≠ 0

theorem Regular.holdsKeys {p : Process} (h : Regular p) : HoldsKeys Nonzero p := by
  refine ⟨h.nonzero, fun w hw => ?_⟩
  obtain ⟨hkey, hlabel⟩ := h.exact.wlock w hw
  exact hlabel ▸ hkey

theorem regular_of_exec {call : Call} {p q : Process} (h : Regular p)
    (hkeys : call.OnKeys Nonzero) (hrun : exec env ft call p = .ok ((), q)) : Regular q := by
  obtain ⟨hsound, hsteps, hnonzero⟩ :=
    (wp_of_ok hrun).mp (exec_sound env ft h.sound hkeys h.holdsKeys)
  exact ⟨hsound, (Slots.Steps.exact hsteps h.exact).1, hnonzero⟩

theorem regular_of_created {l a : ℕ} (h : Created l a s) (hpages : s.cache.pagesPerChunk ≤ 2 ^ 16)
    {locks : ℕ → RLock} (hlocks : ∀ i, (locks i).head = .null ∧ (locks i).key ≠ 0) :
    Regular ⟨s, locks⟩ :=
  ⟨h.sound_locks fun i => (hlocks i).1, exact_of_created h hpages, fun i => (hlocks i).2⟩

end LazyfreeCache.Sessions
