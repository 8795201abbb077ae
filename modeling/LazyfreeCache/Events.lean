import LazyfreeCache.LazyfreeOps
import Mathlib.Tactic.SplitIfs
import Mathlib.Tactic.Tauto

/-!
What each event does to the cache and to the mapped pages, and when it may
happen. The code is compared with these effects in `Refinement`. Here every
effect is described once through a few views of the state: the key in a slot,
the length and the free stack of a chunk, the map, the write lock, the side
bits, the free counter and the pages.
-/
namespace LazyfreeCache.State

open Bitset LazyfreeOps EventReplay

namespace Cache

def len (cache : Cache) (c : ChunkIdx) : ℕ := (cache.chunks c).len

def free (cache : Cache) (c : ChunkIdx) : List ℕ := (cache.chunks c).freePages

def bit (cache : Cache) (d : EntryDescriptor) : Bool :=
  bitsetGet (cache.chunks d.chunk).bit0 d.index

def mmapImpl (cache : Cache) (c : ChunkIdx) : MmapImpl := (cache.chunks c).mmapImpl

def madvImpl (cache : Cache) (c : ChunkIdx) : MadvImpl := (cache.chunks c).madvImpl

/-- Slot `d` answers for the key: the map leads to it and its `keys[]` agrees. -/
def Mapped (cache : Cache) (key : Key) (d : EntryDescriptor) : Prop :=
  cache.hmapGet key = some d ∧ cache.label d = key

theorem Mapped.unique {cache : Cache} {key : Key} {d e : EntryDescriptor}
    (hd : cache.Mapped key d) (he : cache.Mapped key e) : d = e :=
  Option.some.inj (hd.1.symm.trans he.1)

/-- `alloc_current_chunk` finds nothing in chunk `c`. -/
def Exhausted (cache : Cache) (c : ChunkIdx) : Prop :=
  cache.free c = [] ∧ cache.pagesPerChunk ≤ cache.len c

/-- `alloc_current_chunk` finds slot `d`: the top of the free stack, or the first
blank page when the stack is empty. -/
def Ready (cache : Cache) (d : EntryDescriptor) : Prop :=
  d.chunk = cache.currentChunkIdx ∧
    ((∃ rest, cache.free d.chunk = d.index :: rest) ∨
      (cache.free d.chunk = [] ∧ cache.len d.chunk < cache.pagesPerChunk ∧
        d.index = cache.len d.chunk))

/-- `drop_next_chunk` once it has chosen chunk `c`. -/
def evict (cache : Cache) (c : ChunkIdx) : Cache :=
  let chunk := cache.chunks c
  let used := u32 (chunk.len + (2 ^ 32 - chunk.freePagesCount))
  { hmapRemoveKeys cache chunk.keys chunk.len with
    currentChunkIdx := c
    chunks := Function.update cache.chunks c { chunk with
      keys := fun i => if i < chunk.len then 0 else chunk.keys i
      len := 0
      freePages := [] }
    totalFreePages := u64 (cache.totalFreePages + used) }

/-- `lazyfree_write_alloc` once `alloc_current_chunk` has found slot `d`. -/
def allocate (cache : Cache) (d : EntryDescriptor) (key : Key) : Cache :=
  let chunk := cache.chunks d.chunk
  { cache.hmapPut key d with
    chunks := Function.update cache.chunks d.chunk { chunk with
      freePages := chunk.freePages.tail
      len := if chunk.freePages = [] then u32 (chunk.len + 1) else chunk.len
      keys := Function.update chunk.keys d.index key }
    totalFreePages := u64 (cache.totalFreePages + (2 ^ 64 - 1))
    wlock := some ⟨d, key⟩ }

/-- `cache_drop`, with the write lock released. -/
def drop (cache : Cache) (d : EntryDescriptor) : Cache :=
  let chunk := cache.chunks d.chunk
  { cache.hmapRemove (cache.label d) with
    chunks := Function.update cache.chunks d.chunk { chunk with
      freePages := d.index :: chunk.freePages
      keys := Function.update chunk.keys d.index 0 }
    totalFreePages := u64 (cache.totalFreePages + 1)
    wlock := none }

/-- `lazyfree_write_unlock` without drop puts the tail bit aside. -/
def commit (cache : Cache) (w : WLock) (bit : Bool) : Cache :=
  let chunk := cache.chunks w.slot.chunk
  { cache.setChunk w.slot.chunk
      { chunk with bit0 := bitsetPut chunk.bit0 w.slot.index bit } with
    wlock := none }

def advance (cache : Cache) : Cache :=
  { cache with currentChunkIdx := cache.currentChunkIdx + 1 }

def upgrade (cache : Cache) (w : WLock) : Cache := { cache with wlock := some w }

/-- The effect of an event on the cache. -/
def step (cache : Cache) : Event → Cache
  | .refill _ => cache
  | .reclaimed _ => cache
  | .stored _ _ _ => cache
  | .evicted c => cache.evict c
  | .advised _ => cache.advance
  | .allocated d key => cache.allocate d key
  | .upgraded _ w => cache.upgrade w
  | .committed w bit => cache.commit w bit
  | .dropped d _ => cache.drop d

/-- The loop of `drop_next_chunk` takes exactly the keys it walks over. -/
theorem hmapRemoveKeys_eq (cache : Cache) (keys : ℕ → Key) (len : ℕ) :
    hmapRemoveKeys cache keys len = { cache with
      map := fun k => if k ≠ 0 ∧ ∃ i < len, keys i = k then none else cache.map k } := by
  induction len with
  | zero => simp [hmapRemoveKeys]
  | succ n ih =>
    have hstep : hmapRemoveKeys cache keys (n + 1) =
        (hmapRemoveKeys cache keys n).hmapRemove (keys n) := by
      simp [hmapRemoveKeys, List.range_succ]
    rw [hstep, ih]
    unfold hmapRemove
    split
    · rename_i hzero
      congr 1
      funext k
      by_cases hk : k = 0
      · simp [hk]
      · have hne : keys n ≠ k := fun h => hk (by rw [← h, hzero])
        simp only [Nat.exists_lt_succ_right, or_iff_left hne]
    · rename_i hzero
      congr 1
      funext k
      rw [Function.update_apply]
      by_cases hk : k = keys n
      · have hex : ∃ i < n + 1, keys i = k := ⟨n, by omega, hk.symm⟩
        rw [if_pos hk, if_pos ⟨fun h => hzero (by rw [← hk, h]), hex⟩]
      · have hne : keys n ≠ k := Ne.symm hk
        rw [if_neg hk]
        simp only [Nat.exists_lt_succ_right, or_iff_left hne]

theorem ext_index {d e : EntryDescriptor} (hc : d.chunk = e.chunk) (hi : d.index = e.index) :
    d = e := by
  cases d
  cases e
  simp_all

section Views
variable (cache : Cache) (c c' : ChunkIdx) (d d' : EntryDescriptor) (k key : Key)
  (w : WLock) (b : Bool)

theorem label_evict : (cache.evict c).label d =
    if d.chunk = c ∧ d.index < cache.len c then 0 else cache.label d := by
  unfold label evict len
  by_cases hc : d.chunk = c
  · subst hc
    simp
  · simp [hc]

@[simp] theorem len_evict :
    (cache.evict c).len c' = if c' = c then 0 else cache.len c' := by
  unfold len evict
  by_cases hc : c' = c <;> simp [hc]

@[simp] theorem free_evict :
    (cache.evict c).free c' = if c' = c then [] else cache.free c' := by
  unfold free evict
  by_cases hc : c' = c <;> simp [hc]

theorem hmapGet_evict : (cache.evict c).hmapGet k =
    if k ≠ 0 ∧ ∃ i < cache.len c, cache.label ⟨i, c⟩ = k then none else cache.hmapGet k := by
  unfold hmapGet evict
  by_cases hk : k = 0 <;> simp [hk, hmapRemoveKeys_eq, label, len]

@[simp] theorem wlock_evict : (cache.evict c).wlock = cache.wlock := by
  simp [evict, hmapRemoveKeys_eq]

@[simp] theorem pagesPerChunk_evict :
    (cache.evict c).pagesPerChunk = cache.pagesPerChunk := by
  simp [evict, hmapRemoveKeys_eq]

@[simp] theorem cacheCapacity_evict :
    (cache.evict c).cacheCapacity = cache.cacheCapacity := by
  simp [evict, hmapRemoveKeys_eq]

@[simp] theorem currentChunkIdx_evict : (cache.evict c).currentChunkIdx = c := rfl

@[simp] theorem totalFreePages_evict : (cache.evict c).totalFreePages =
    u64 (cache.totalFreePages + u32 (cache.len c + (2 ^ 32 - (cache.free c).length))) := rfl

@[simp] theorem bit_evict : (cache.evict c).bit d = cache.bit d := by
  unfold bit evict
  by_cases hc : d.chunk = c
  · subst hc
    simp
  · simp [hc]

@[simp] theorem mmapImpl_evict : (cache.evict c).mmapImpl c' = cache.mmapImpl c' := by
  unfold mmapImpl evict
  by_cases hc : c' = c <;> simp [hc]

@[simp] theorem madvImpl_evict : (cache.evict c).madvImpl c' = cache.madvImpl c' := by
  unfold madvImpl evict
  by_cases hc : c' = c <;> simp [hc]

theorem label_allocate :
    (cache.allocate d key).label d' = if d' = d then key else cache.label d' := by
  unfold label allocate
  by_cases hc : d'.chunk = d.chunk
  · simp only [hc, Function.update_self, Function.update_apply]
    by_cases hi : d'.index = d.index
    · rw [if_pos hi, if_pos (ext_index hc hi)]
    · rw [if_neg hi, if_neg (fun h => hi (by rw [h]))]
  · rw [if_neg (fun h => hc (by rw [h]))]
    simp [hc]

@[simp] theorem len_allocate : (cache.allocate d key).len c =
    if c = d.chunk ∧ cache.free d.chunk = [] then u32 (cache.len c + 1) else cache.len c := by
  unfold len allocate free
  by_cases hc : c = d.chunk
  · subst hc
    simp
  · simp [hc]

@[simp] theorem free_allocate : (cache.allocate d key).free c =
    if c = d.chunk then (cache.free c).tail else cache.free c := by
  unfold free allocate
  by_cases hc : c = d.chunk
  · subst hc
    simp
  · simp [hc]

@[simp] theorem hmapGet_allocate : (cache.allocate d key).hmapGet k =
    if k = key then some d else cache.hmapGet k := by
  unfold hmapGet allocate hmapPut
  by_cases hk : k = 0 <;> by_cases hkey : key = 0 <;> by_cases hkk : k = key <;>
    simp_all

@[simp] theorem wlock_allocate : (cache.allocate d key).wlock = some ⟨d, key⟩ := rfl

@[simp] theorem pagesPerChunk_allocate :
    (cache.allocate d key).pagesPerChunk = cache.pagesPerChunk := by
  unfold allocate hmapPut
  split <;> rfl

@[simp] theorem cacheCapacity_allocate :
    (cache.allocate d key).cacheCapacity = cache.cacheCapacity := by
  unfold allocate hmapPut
  split <;> rfl

@[simp] theorem currentChunkIdx_allocate :
    (cache.allocate d key).currentChunkIdx = cache.currentChunkIdx := by
  unfold allocate hmapPut
  split <;> rfl

@[simp] theorem totalFreePages_allocate : (cache.allocate d key).totalFreePages =
    u64 (cache.totalFreePages + (2 ^ 64 - 1)) := rfl

@[simp] theorem bit_allocate : (cache.allocate d key).bit d' = cache.bit d' := by
  unfold bit allocate
  by_cases hc : d'.chunk = d.chunk <;> simp [hc]

@[simp] theorem mmapImpl_allocate : (cache.allocate d key).mmapImpl c = cache.mmapImpl c := by
  unfold mmapImpl allocate
  by_cases hc : c = d.chunk <;> simp [hc]

@[simp] theorem madvImpl_allocate : (cache.allocate d key).madvImpl c = cache.madvImpl c := by
  unfold madvImpl allocate
  by_cases hc : c = d.chunk <;> simp [hc]

theorem label_drop : (cache.drop d).label d' = if d' = d then 0 else cache.label d' := by
  unfold label drop
  by_cases hc : d'.chunk = d.chunk
  · simp only [hc, Function.update_self, Function.update_apply]
    by_cases hi : d'.index = d.index
    · rw [if_pos hi, if_pos (ext_index hc hi)]
    · rw [if_neg hi, if_neg (fun h => hi (by rw [h]))]
  · rw [if_neg (fun h => hc (by rw [h]))]
    simp [hc]

@[simp] theorem len_drop : (cache.drop d).len c = cache.len c := by
  unfold len drop
  by_cases hc : c = d.chunk <;> simp [hc]

@[simp] theorem free_drop : (cache.drop d).free c =
    if c = d.chunk then d.index :: cache.free c else cache.free c := by
  unfold free drop
  by_cases hc : c = d.chunk <;> simp [hc]

@[simp] theorem hmapGet_drop : (cache.drop d).hmapGet k =
    if k ≠ 0 ∧ k = cache.label d then none else cache.hmapGet k := by
  unfold hmapGet drop hmapRemove
  by_cases hk : k = 0 <;> by_cases hl : cache.label d = 0 <;> by_cases hkl : k = cache.label d <;>
    simp_all

@[simp] theorem wlock_drop : (cache.drop d).wlock = none := rfl

@[simp] theorem pagesPerChunk_drop : (cache.drop d).pagesPerChunk = cache.pagesPerChunk := by
  unfold drop hmapRemove
  split <;> rfl

@[simp] theorem cacheCapacity_drop : (cache.drop d).cacheCapacity = cache.cacheCapacity := by
  unfold drop hmapRemove
  split <;> rfl

@[simp] theorem currentChunkIdx_drop :
    (cache.drop d).currentChunkIdx = cache.currentChunkIdx := by
  unfold drop hmapRemove
  split <;> rfl

@[simp] theorem totalFreePages_drop :
    (cache.drop d).totalFreePages = u64 (cache.totalFreePages + 1) := rfl

@[simp] theorem bit_drop : (cache.drop d).bit d' = cache.bit d' := by
  unfold bit drop
  by_cases hc : d'.chunk = d.chunk <;> simp [hc]

@[simp] theorem mmapImpl_drop : (cache.drop d).mmapImpl c = cache.mmapImpl c := by
  unfold mmapImpl drop
  by_cases hc : c = d.chunk <;> simp [hc]

@[simp] theorem madvImpl_drop : (cache.drop d).madvImpl c = cache.madvImpl c := by
  unfold madvImpl drop
  by_cases hc : c = d.chunk <;> simp [hc]

@[simp] theorem label_commit : (cache.commit w b).label d = cache.label d := by
  unfold label commit setChunk
  by_cases hc : d.chunk = w.slot.chunk <;> simp [hc]

@[simp] theorem len_commit : (cache.commit w b).len c = cache.len c := by
  unfold len commit setChunk
  by_cases hc : c = w.slot.chunk <;> simp [hc]

@[simp] theorem free_commit : (cache.commit w b).free c = cache.free c := by
  unfold free commit setChunk
  by_cases hc : c = w.slot.chunk <;> simp [hc]

@[simp] theorem hmapGet_commit : (cache.commit w b).hmapGet k = cache.hmapGet k := rfl

@[simp] theorem wlock_commit : (cache.commit w b).wlock = none := rfl

@[simp] theorem pagesPerChunk_commit :
    (cache.commit w b).pagesPerChunk = cache.pagesPerChunk := rfl

@[simp] theorem currentChunkIdx_commit :
    (cache.commit w b).currentChunkIdx = cache.currentChunkIdx := rfl

@[simp] theorem totalFreePages_commit :
    (cache.commit w b).totalFreePages = cache.totalFreePages := rfl

theorem bit_commit :
    (cache.commit w b).bit d = if d = w.slot then b else cache.bit d := by
  unfold bit commit setChunk
  by_cases hc : d.chunk = w.slot.chunk
  · simp only [hc, Function.update_self, bitsetGet_bitsetPut]
    by_cases hi : d.index = w.slot.index
    · rw [if_pos hi, if_pos (ext_index hc hi)]
    · rw [if_neg hi, if_neg (fun h => hi (by rw [h]))]
  · rw [if_neg (fun h => hc (by rw [h]))]
    simp [hc]

@[simp] theorem mmapImpl_commit : (cache.commit w b).mmapImpl c = cache.mmapImpl c := by
  unfold mmapImpl commit setChunk
  by_cases hc : c = w.slot.chunk <;> simp [hc]

@[simp] theorem madvImpl_commit : (cache.commit w b).madvImpl c = cache.madvImpl c := by
  unfold madvImpl commit setChunk
  by_cases hc : c = w.slot.chunk <;> simp [hc]

@[simp] theorem label_advance : (cache.advance).label d = cache.label d := rfl

@[simp] theorem len_advance : (cache.advance).len c = cache.len c := rfl

@[simp] theorem free_advance : (cache.advance).free c = cache.free c := rfl

@[simp] theorem hmapGet_advance : (cache.advance).hmapGet k = cache.hmapGet k := rfl

@[simp] theorem bit_advance : (cache.advance).bit d = cache.bit d := rfl

@[simp] theorem pagesPerChunk_advance : (cache.advance).pagesPerChunk = cache.pagesPerChunk := rfl

@[simp] theorem totalFreePages_advance :
    (cache.advance).totalFreePages = cache.totalFreePages := rfl

@[simp] theorem mmapImpl_advance : (cache.advance).mmapImpl c = cache.mmapImpl c := rfl

@[simp] theorem madvImpl_advance : (cache.advance).madvImpl c = cache.madvImpl c := rfl

@[simp] theorem wlock_advance : cache.advance.wlock = cache.wlock := rfl

@[simp] theorem currentChunkIdx_advance :
    cache.advance.currentChunkIdx = cache.currentChunkIdx + 1 := rfl

@[simp] theorem label_upgrade : (cache.upgrade w).label d = cache.label d := rfl

@[simp] theorem len_upgrade : (cache.upgrade w).len c = cache.len c := rfl

@[simp] theorem free_upgrade : (cache.upgrade w).free c = cache.free c := rfl

@[simp] theorem hmapGet_upgrade : (cache.upgrade w).hmapGet k = cache.hmapGet k := rfl

@[simp] theorem bit_upgrade : (cache.upgrade w).bit d = cache.bit d := rfl

@[simp] theorem pagesPerChunk_upgrade :
    (cache.upgrade w).pagesPerChunk = cache.pagesPerChunk := rfl

@[simp] theorem totalFreePages_upgrade :
    (cache.upgrade w).totalFreePages = cache.totalFreePages := rfl

@[simp] theorem mmapImpl_upgrade : (cache.upgrade w).mmapImpl c = cache.mmapImpl c := rfl

@[simp] theorem madvImpl_upgrade : (cache.upgrade w).madvImpl c = cache.madvImpl c := rfl

@[simp] theorem wlock_upgrade : (cache.upgrade w).wlock = some w := rfl

@[simp] theorem currentChunkIdx_upgrade :
    (cache.upgrade w).currentChunkIdx = cache.currentChunkIdx := rfl

end Views
end Cache

namespace Core

/-- The effect of an event on the mapped pages. -/
def memStep (s : Core) : Event → EntryDescriptor → Page
  | .reclaimed d => Function.update s.mem d (s.mem d).reclaim
  | .stored d offset v => Function.update s.mem d ((s.mem d).store offset v)
  | .evicted c => fun d =>
    if d.chunk = c then dontneed (s.cache.mmapImpl c) (s.mem d) else s.mem d
  | .advised c => fun d =>
    if d.chunk = c then madvised (s.cache.madvImpl c) (s.mem d) else s.mem d
  | _ => s.mem

def apply (s : Core) (e : Event) : Core :=
  { cache := s.cache.step e, mem := s.memStep e, trace := s.trace ++ [e] }

/-- Slot `d` was given out by `lazyfree_write_alloc` at some time. -/
def HandedOut (s : Core) (d : EntryDescriptor) : Prop := ∃ key, Event.allocated d key ∈ s.trace

/-- When the event may happen. Pages are stored to under the write lock, or at
byte 0 to pin a page for an upgrade; an upgrade locks the slot whose index is
the lock's 16-bit `_index`; a slot is dropped through a lock on it. -/
def Enabled (s : Core) : Event → Prop
  | .refill _ => s.cache.wlock = none
  | .reclaimed d => (s.mem d).lazyfree = true
  | .stored d offset _ =>
    (∃ key, s.cache.wlock = some ⟨d, key⟩) ∨ (s.cache.wlock = none ∧ offset = 0)
  | .evicted _ => s.cache.wlock = none ∧ s.cache.totalFreePages = 0
  | .advised c => s.cache.wlock = none ∧ c = s.cache.currentChunkIdx ∧ s.cache.Exhausted c
  | .allocated d _ => s.cache.wlock = none ∧ s.cache.Ready d
  | .upgraded d w => s.cache.wlock = none ∧ s.HandedOut d ∧ s.cache.label d = w.key ∧
      w.slot = ⟨d.index % 2 ^ 16, d.chunk⟩
  | .committed w _ => s.cache.wlock = some w
  | .dropped d key => s.cache.label d = key ∧
      (s.cache.free d.chunk).length < s.cache.len d.chunk ∧
      ((s.cache.wlock = none ∧ s.HandedOut d) ∨ ∃ k, s.cache.wlock = some ⟨d, k⟩)

@[simp] theorem cache_apply (s : Core) (e : Event) : (s.apply e).cache = s.cache.step e := rfl

@[simp] theorem trace_apply (s : Core) (e : Event) : (s.apply e).trace = s.trace ++ [e] := rfl

@[simp] theorem mem_apply (s : Core) (e : Event) : (s.apply e).mem = s.memStep e := rfl

@[simp] theorem trace_replay (s : Core) (es : List Event) :
    (replay apply s es).trace = s.trace ++ es := by
  induction es generalizing s with
  | nil => simp
  | cons e es ih => simp [ih]

theorem HandedOut.apply {s : Core} {d : EntryDescriptor} (h : s.HandedOut d) (e : Event) :
    (s.apply e).HandedOut d := by
  obtain ⟨key, hmem⟩ := h
  exact ⟨key, List.mem_append_left _ hmem⟩

theorem HandedOut.replay {s : Core} {d : EntryDescriptor} (h : s.HandedOut d)
    (es : List Event) : (replay Core.apply s es).HandedOut d := by
  obtain ⟨key, hmem⟩ := h
  exact ⟨key, by rw [trace_replay]; exact List.mem_append_left _ hmem⟩

end Core
end LazyfreeCache.State
