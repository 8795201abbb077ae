import LazyfreeCache.Bitset
import LazyfreeCache.ProgramLogic
import LazyfreeCache.EventReplay
import Mathlib.Logic.Function.Basic
import Mathlib.Data.Fin.Basic

/-!
The data of `cache.h` and `lazyfree_cache.c`: pages, chunks, descriptors, the
cache, read locks, and the machine the code runs on. The machine adds what C
leaves implicit: the mapped memory with its `MADV_FREE` marks, a clock that
ticks before every access to a mapped page, and the list of events so far.
The vendored hash map is a finite map on nonzero keys.
-/
namespace LazyfreeCache.State

open Bitset ProgramLogic

/-- `lazyfree_key_t` -/
abbrev Key := UInt64

/-- `PAGE_SIZE` -/
def pageSize : ℕ := 4096

theorem pageSize_eq : pageSize = 4096 := rfl

/-- `NUMBER_OF_CHUNKS` -/
abbrev numberOfChunks : ℕ := 32

instance : NeZero numberOfChunks := ⟨by decide⟩

abbrev ChunkIdx := Fin numberOfChunks

/-- Unsigned 32-bit and 64-bit wrap-around. -/
def u32 (n : ℕ) : ℕ := n % 2 ^ 32
def u64 (n : ℕ) : ℕ := n % 2 ^ 64

/-- `struct entry_descriptor`; `none` stands for `EMPTY_DESC`, whose chunk is -1. -/
structure EntryDescriptor where
  index : ℕ
  chunk : ChunkIdx
  deriving DecidableEq

/-- `madv_impl_t`: `lazyfree_madv_free` or `lazyfree_madv_nop`. -/
inductive MadvImpl
  | free
  | nop
  deriving DecidableEq

/-- `mmap_impl_t`: `lazyfree_mmap_anon` or `lazyfree_mmap_file`. -/
inductive MmapImpl
  | anon
  | file
  deriving DecidableEq

/-- `struct discardable_entry`, with the kernel's mark on it: `lazyfree` is set
by `MADV_FREE` and cleared by the next store. -/
structure Page where
  byte : ℕ → UInt8
  lazyfree : Bool

def Page.zero : Page := ⟨fun _ => 0, false⟩

def Page.tail (p : Page) : UInt8 := p.byte (pageSize - 1)

def Page.store (p : Page) (offset : ℕ) (v : UInt8) : Page :=
  ⟨Function.update p.byte offset v, false⟩

/-- `MADV_DONTNEED`: private anonymous pages become zero, pages of a shared file
stay as they are. -/
def dontneed (impl : MmapImpl) (p : Page) : Page :=
  match impl with
  | .anon => .zero
  | .file => p

/-- `lazyfree_madv_free` marks the page, `lazyfree_madv_nop` does not. -/
def madvised (impl : MadvImpl) (p : Page) : Page :=
  match impl with
  | .free => { p with lazyfree := true }
  | .nop => p

/-- The kernel takes the page if it may: reads then give zeros. -/
def Page.reclaim (p : Page) : Page :=
  if p.lazyfree then ⟨fun _ => 0, true⟩ else p

/-- `struct chunk`. The stack `free_pages[0..free_pages_count)` is a list with
its top first; the mapped `entries` are in the machine's memory. -/
structure Chunk where
  madvImpl : MadvImpl
  mmapImpl : MmapImpl
  bit0 : Bits
  freePages : List ℕ
  keys : ℕ → Key
  len : ℕ

def Chunk.freePagesCount (chunk : Chunk) : ℕ := chunk.freePages.length

/-- `wlock_chunk`, `wlock_index` and `wlock_key`. -/
structure WLock where
  slot : EntryDescriptor
  key : Key
  deriving DecidableEq

/-- `struct lazyfree_cache`. No write lock is `none`, as -1 in `wlock_chunk`. -/
structure Cache where
  cacheCapacity : ℕ
  chunks : ChunkIdx → Chunk
  pagesPerChunk : ℕ
  chunkSize : ℕ
  currentChunkIdx : ChunkIdx
  map : Key → Option EntryDescriptor
  key0 : Option EntryDescriptor
  totalFreePages : ℕ
  wlock : Option WLock

namespace Cache

def setChunk (cache : Cache) (c : ChunkIdx) (chunk : Chunk) : Cache :=
  { cache with chunks := Function.update cache.chunks c chunk }

/-- `chunks[d.chunk].keys[d.index]` -/
def label (cache : Cache) (d : EntryDescriptor) : Key := (cache.chunks d.chunk).keys d.index

/-- `chunk->keys[d.index] = key` -/
def setLabel (cache : Cache) (d : EntryDescriptor) (key : Key) : Cache :=
  let chunk := cache.chunks d.chunk
  cache.setChunk d.chunk { chunk with keys := Function.update chunk.keys d.index key }

/-- `chunk->free_pages[chunk->free_pages_count++] = d.index` -/
def pushFree (cache : Cache) (d : EntryDescriptor) : Cache :=
  let chunk := cache.chunks d.chunk
  cache.setChunk d.chunk { chunk with freePages := d.index :: chunk.freePages }

/-- `bitset_put(chunk->bit0, d.index, bit)` -/
def putBit (cache : Cache) (d : EntryDescriptor) (bit : Bool) : Cache :=
  let chunk := cache.chunks d.chunk
  cache.setChunk d.chunk { chunk with bit0 := bitsetPut chunk.bit0 d.index bit }

/-- `total_free_pages += n` -/
def addFree (cache : Cache) (n : ℕ) : Cache :=
  { cache with totalFreePages := u64 (cache.totalFreePages + n) }

/-- `total_free_pages--` -/
def takeFree (cache : Cache) : Cache := cache.addFree (2 ^ 64 - 1)

def setWlock (cache : Cache) (w : Option WLock) : Cache := { cache with wlock := w }

def setCurrent (cache : Cache) (c : ChunkIdx) : Cache := { cache with currentChunkIdx := c }

/-- Key 0 is kept in `key0`, every other key in the hash map. -/
def hmapGet (cache : Cache) (key : Key) : Option EntryDescriptor :=
  if key = 0 then cache.key0 else cache.map key

def hmapPut (cache : Cache) (key : Key) (desc : EntryDescriptor) : Cache :=
  if key = 0 then { cache with key0 := some desc }
  else { cache with map := Function.update cache.map key (some desc) }

/-- `hashmap_remove` ignores the key `NULL`, so key 0 stays in `key0`. -/
def hmapRemove (cache : Cache) (key : Key) : Cache :=
  if key = 0 then cache else { cache with map := Function.update cache.map key none }

end Cache

/-- The target of `head`: `NULL`, `EMPTY_PAGE` or a page of some chunk. -/
inductive Head
  | null
  | emptyPage
  | page (d : EntryDescriptor)
  deriving DecidableEq

/-- `rlock_impl_t`. Whenever `head` is a page, `_chunk` is its chunk and the
16-bit `_index` is what is left of its index. -/
structure RLock where
  key : Key
  head : Head
  tail : UInt8
  chunk : Option ChunkIdx
  index : ℕ
  coherent : ∀ d, head = .page d → chunk = some d.chunk ∧ index = d.index % 2 ^ 16

/-- A lock with only its key set, and `head` at `NULL`. -/
def RLock.fresh (key : Key) : RLock := ⟨key, .null, 0, none, 0, by simp⟩

/-- `lock->head = NULL` -/
def RLock.nulled (lock : RLock) : RLock := { lock with head := .null, coherent := by simp }

/-- What the cache and the kernel did, in the order of the list. A dropped slot
comes with the key in its `keys[]` entry. -/
inductive Event
  | refill (key : Key)
  | reclaimed (d : EntryDescriptor)
  | stored (d : EntryDescriptor) (offset : ℕ) (v : UInt8)
  | evicted (c : ChunkIdx)
  | advised (c : ChunkIdx)
  | allocated (d : EntryDescriptor) (key : Key)
  | upgraded (d : EntryDescriptor) (w : WLock)
  | committed (w : WLock) (bit : Bool)
  | dropped (d : EntryDescriptor) (key : Key)
  deriving DecidableEq

/-- The cache, the mapped pages of its chunks and what happened so far. -/
structure Core where
  cache : Cache
  mem : EntryDescriptor → Page
  trace : List Event

structure Sys extends Core where
  clock : ℕ
  draws : ℕ

/-- The outside world: the pages the kernel would like to take before each
access, and the values of `random_next`. -/
structure Env where
  reclaim : ℕ → List EntryDescriptor
  random : ℕ → UInt64

/-- How the process can stop. -/
inductive Fault
  /-- `Lazyfree chunks + anon chunks + disk chunks must equal 32` -/
  | chunkCount
  /-- `mmap` -/
  | mmapFailed
  | assertFailed
  | nullHead
  /-- `LOCK CHECK FAILED` -/
  | lockCheckFailed
  /-- `FALLTHROUGH READ LOCK CHECK FAILED` -/
  | fallthroughLockCheckFailed
  /-- `Failed to find free page` -/
  | noFreePage
  /-- `free_pages_count > len` in `cache_drop` -/
  | freePagesOverflow
  deriving DecidableEq

abbrev M := Prog Sys Fault

/-- A caller's buffer. -/
abbrev Buffer := ℕ → UInt8

def emit (e : Event) : M Unit := modify fun s => { s with trace := s.trace ++ [e] }

def modifyCache (f : Cache → Cache) : M Unit :=
  modify fun s => { s with cache := f s.cache }

/-- Before an access to a mapped page the kernel takes the pages it wants and
may take; nothing else happens. -/
def Sys.kernel (env : Env) (s : Sys) : Sys :=
  { s with
    mem := fun d => if d ∈ env.reclaim s.clock then (s.mem d).reclaim else s.mem d
    clock := s.clock + 1
    trace := s.trace ++
      ((env.reclaim s.clock).filter fun d => (s.mem d).lazyfree).map Event.reclaimed }

def readByte (env : Env) (d : EntryDescriptor) (offset : ℕ) : M UInt8 := do
  modify (Sys.kernel env)
  return ((← get).mem d).byte offset

def storeByte (env : Env) (d : EntryDescriptor) (offset : ℕ) (v : UInt8) : M Unit := do
  modify (Sys.kernel env)
  modify fun s => { s with mem := Function.update s.mem d ((s.mem d).store offset v) }
  emit (.stored d offset v)

end LazyfreeCache.State
