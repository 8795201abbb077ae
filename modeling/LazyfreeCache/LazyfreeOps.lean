import LazyfreeCache.State

/-!
The functions of `lazyfree_cache.c` and the inline helpers of `cache.h`, one
definition each. Prints and the verbose flag are left out. Every access to a
mapped page goes through `readByte` or `storeByte`, so the kernel may take
pages before each of them.
-/
namespace LazyfreeCache.LazyfreeOps

open Bitset ProgramLogic State

/-- `chunk->madv_impl(chunk->entries, chunk_size)` -/
def madvImpl (c : ChunkIdx) : M Unit := do
  modify fun s => { s with mem := fun d =>
    if d.chunk = c then madvised (s.cache.chunks c).madvImpl (s.mem d) else s.mem d }
  emit (.advised c)

/-- `madvise(chunk->entries, chunk_size, MADV_DONTNEED)` -/
def madvDontneed (c : ChunkIdx) : M Unit :=
  modify fun s => { s with mem := fun d =>
    if d.chunk = c then dontneed (s.cache.chunks c).mmapImpl (s.mem d) else s.mem d }

def randomNext (env : Env) : M UInt64 := do
  let s ← get
  modify fun s => { s with draws := s.draws + 1 }
  return env.random s.draws

/-- `LAZYFREE_LOCK_CHECK` -/
def lockCheck (env : Env) (lock : RLock) : M Bool :=
  match lock.head with
  | .null => throw .nullHead
  | .emptyPage => return false
  | .page d => do
    let tail ← readByte env d (pageSize - 1)
    return decide (0 < tail)

/-- The copy loop of `lazyfree_read`. `i` never passes `PAGE_SIZE - offset`, so
`PAGE_SIZE` rounds are enough for every `offset` and `size`. -/
def lazyfreeReadLoop (env : Env) (lock : RLock) (offset size : ℕ) :
    ℕ → ℕ → Buffer → M Buffer
  | 0, _, dest => return dest
  | rounds + 1, i, dest =>
    if i < size ∧ u64 (offset + i) < pageSize then do
      let b ← match lock.head with
        | .null => throw .nullHead
        | .emptyPage => pure 0
        | .page d => readByte env d (u64 (offset + i))
      lazyfreeReadLoop env lock offset size rounds (i + 1) (Function.update dest i b)
    else return dest

def lazyfreeRead (env : Env) (lock : RLock) (dest : Buffer) (offset size : ℕ) :
    M (Bool × Buffer) := do
  if (← lockCheck env lock) = false then
    return (false, dest)
  else
    let dest ← lazyfreeReadLoop env lock offset size pageSize 0 dest
    let dest := if u64 (offset + size) = pageSize
      then Function.update dest (u64 (size + (2 ^ 64 - 1))) lock.tail else dest
    return (← lockCheck env lock, dest)

/-- `bit_to_tail` on a byte outside the page. -/
def bitToTail (chunk : Chunk) (index : ℕ) (tail : UInt8) : UInt8 :=
  if bitsetGet chunk.bit0 index then tail else tail &&& ~~~ 1

/-- `bit_to_tail` on `entry->tail`. -/
def bitToEntryTail (env : Env) (d : EntryDescriptor) : M Unit := do
  let s ← get
  if bitsetGet (s.cache.chunks d.chunk).bit0 d.index then
    pure ()
  else
    let tail ← readByte env d (pageSize - 1)
    storeByte env d (pageSize - 1) (tail &&& ~~~ 1)

/-- `bit_from_tail` on `entry->tail`; returns the bit it put aside. -/
def bitFromEntryTail (env : Env) (d : EntryDescriptor) : M Bool := do
  let tail ← readByte env d (pageSize - 1)
  let bit := tail &&& 1 != 0
  modifyCache (·.putBit d bit)
  let tail ← readByte env d (pageSize - 1)
  storeByte env d (pageSize - 1) (tail ||| 1)
  return bit

/-- The distance of `head` from the entries of the lock's own chunk. -/
def rlockToIndex (lock : RLock) : ℕ :=
  match lock.head with
  | .page d => u32 d.index
  | _ => 0

def rlockCheckKey (cache : Cache) (c : ChunkIdx) (lock : RLock) : Bool :=
  (cache.chunks c).keys (rlockToIndex lock) == lock.key

def cacheDrop (desc : EntryDescriptor) : M Unit := do
  modifyCache (·.pushFree desc)
  let chunk := (← get).cache.chunks desc.chunk
  require (chunk.freePagesCount ≤ chunk.len) .freePagesOverflow
  modifyCache (·.addFree 1)
  let key := (← get).cache.label desc
  modifyCache (·.hmapRemove key)
  modifyCache (·.setLabel desc 0)
  emit (.dropped desc key)

def lazyfreeReadLock (env : Env) (lock : RLock) : M RLock := do
  require ((← get).cache.wlock = none) .assertFailed
  let lock := { lock with head := .emptyPage, tail := 0, chunk := none, coherent := by simp }
  let s ← get
  match s.cache.hmapGet lock.key with
  | none => return lock
  | some desc =>
    if s.cache.label desc ≠ lock.key then
      return lock
    else
      let lock := { lock with
        index := desc.index % 2 ^ 16, chunk := some desc.chunk, coherent := by simp }
      if (← readByte env desc (pageSize - 1)) = 0 then
        return lock
      else
        let tail ← readByte env desc (pageSize - 1)
        return {
          key := lock.key
          head := .page desc
          tail := bitToTail (s.cache.chunks desc.chunk) desc.index tail
          chunk := some desc.chunk
          index := desc.index % 2 ^ 16
          coherent := by simp }

def lazyfreeReadUnlock (env : Env) (lock : RLock) (drop : Bool) : M Bool := do
  require (lock.head ≠ .null) .assertFailed
  require ((← get).cache.wlock = none) .assertFailed
  if lock.head = .emptyPage then
    return false
  else
    match lock.chunk with
    | none => throw .assertFailed
    | some c =>
      require ((← lockCheck env lock) = true) .lockCheckFailed
      if rlockCheckKey (← get).cache c lock = false then
        return false
      else if drop = false then
        return true
      else
        cacheDrop ⟨rlockToIndex lock, c⟩
        return true

/-- The loop of `drop_next_chunk` over `keys[0..len)`. -/
def hmapRemoveKeys (cache : Cache) (keys : ℕ → Key) (len : ℕ) : Cache :=
  (List.range len).foldl (fun cache i => cache.hmapRemove (keys i)) cache

/-- `memset(chunk->keys, 0, chunk->len * sizeof(lazyfree_key_t))` -/
def clearKeys (cache : Cache) (c : ChunkIdx) : Cache :=
  let chunk := cache.chunks c
  cache.setChunk c { chunk with keys := fun i => if i < chunk.len then 0 else chunk.keys i }

def dropNextChunk (env : Env) : M Unit := do
  let r ← randomNext env
  modifyCache (·.setCurrent (Fin.ofNat numberOfChunks r.toNat))
  let c := (← get).cache.currentChunkIdx
  modifyCache fun cache => hmapRemoveKeys cache (cache.chunks c).keys (cache.chunks c).len
  modifyCache (clearKeys · c)
  madvDontneed c
  let chunk := (← get).cache.chunks c
  modifyCache (·.addFree (u32 (chunk.len + (2 ^ 32 - chunk.freePagesCount))))
  modifyCache fun cache => cache.setChunk c { cache.chunks c with len := 0, freePages := [] }
  emit (.evicted c)

def advanceChunk : M Unit := do
  madvImpl (← get).cache.currentChunkIdx
  modifyCache fun cache => cache.setCurrent (cache.currentChunkIdx + 1)

def allocCurrentChunk : M (Option EntryDescriptor) := do
  let cache := (← get).cache
  let c := cache.currentChunkIdx
  let chunk := cache.chunks c
  match chunk.freePages with
  | idx :: rest =>
    modifyCache (·.setChunk c { chunk with freePages := rest })
    modifyCache (·.takeFree)
    return some ⟨idx, c⟩
  | [] =>
    if chunk.len < cache.pagesPerChunk then
      modifyCache (·.setChunk c { chunk with len := u32 (chunk.len + 1) })
      modifyCache (·.takeFree)
      return some ⟨chunk.len, c⟩
    else return none

/-- The loop of `alloc_new_page`; the argument is `NUMBER_OF_CHUNKS` less the
chunks visited. -/
def allocLoop : ℕ → M EntryDescriptor
  | 0 => throw .noFreePage
  | n + 1 => do
    match ← allocCurrentChunk with
    | some desc => return desc
    | none =>
      advanceChunk
      allocLoop n

def allocNewPage (env : Env) : M EntryDescriptor := do
  if (← get).cache.totalFreePages = 0 then
    dropNextChunk env
  else pure ()
  allocLoop numberOfChunks

def lazyfreeWriteAlloc (env : Env) (key : Key) : M EntryDescriptor := do
  require ((← get).cache.wlock = none) .assertFailed
  let desc ← allocNewPage env
  modifyCache (·.setWlock (some ⟨desc, key⟩))
  modifyCache (·.hmapPut key desc)
  modifyCache (·.setLabel desc key)
  emit (.allocated desc key)
  return desc

/-- Returns the page and the caller's lock as it is left. -/
def lazyfreeWriteLock (env : Env) (lock : RLock) : M (EntryDescriptor × RLock) := do
  require ((← get).cache.wlock = none) .assertFailed
  match lock.head with
  | .null => return (← lazyfreeWriteAlloc env lock.key, lock)
  | .emptyPage => return (← lazyfreeWriteAlloc env lock.key, lock)
  | .page d =>
    match lock.chunk with
    | none => throw .assertFailed
    | some c =>
      if rlockCheckKey (← get).cache c lock = false then
        return (← lazyfreeWriteAlloc env lock.key, lock.nulled)
      else
        let byte0 ← readByte env d 0
        storeByte env d 0 1
        if (← lockCheck env lock) = false then
          storeByte env d 0 0
          return (← lazyfreeWriteAlloc env lock.key, lock.nulled)
        else
          storeByte env d 0 byte0
          let entry : EntryDescriptor := ⟨lock.index, c⟩
          modifyCache (·.setWlock (some ⟨entry, lock.key⟩))
          emit (.upgraded d ⟨entry, lock.key⟩)
          bitToEntryTail env entry
          return (entry, lock)

def lazyfreeWriteUnlock (env : Env) (drop : Bool) : M Unit := do
  match (← get).cache.wlock with
  | none => throw .assertFailed
  | some w =>
    modifyCache (·.setWlock none)
    if drop then
      cacheDrop w.slot
    else
      let bit ← bitFromEntryTail env w.slot
      emit (.committed w bit)

/-- `struct lazyfree_stats` -/
structure LazyfreeStats where
  totalPages : ℕ
  freePages : ℕ

def lazyfreeFetchStats : M LazyfreeStats := do
  let cache := (← get).cache
  return ⟨cache.cacheCapacity / pageSize, cache.totalFreePages⟩

/-- What `malloc` and the files behind `lazyfree_mmap_file` held before. -/
structure Boot where
  keys : ChunkIdx → ℕ → Key
  bits : ChunkIdx → Bits
  file : EntryDescriptor → ℕ → UInt8

/-- The `mmap_impl` and `madv_impl` given to chunk `c`. -/
def chunkImpl (lazyfreeChunks anonChunks : ℕ) (c : ChunkIdx) : MmapImpl × MadvImpl :=
  if c.val < lazyfreeChunks then (.anon, .free)
  else if c.val < lazyfreeChunks + anonChunks then (.anon, .nop)
  else (.file, .nop)

/-- `lazyfree_cache_new_ex`. With more than 2^31 pages in a chunk the 32 mappings
do not fit into one 48-bit address space, and `mmap` fails. -/
def lazyfreeCacheNewEx (boot : Boot)
    (cacheCapacity lazyfreeChunks anonChunks diskChunks : ℕ) : Except Fault Sys :=
  let chunkSize := cacheCapacity / numberOfChunks
  let pagesPerChunk := chunkSize / pageSize
  let impl := chunkImpl lazyfreeChunks anonChunks
  if lazyfreeChunks + anonChunks + diskChunks ≠ numberOfChunks then .error .chunkCount
  else if chunkSize = 0 ∨ 2 ^ 31 < pagesPerChunk then .error .mmapFailed
  else .ok {
    cache := {
      cacheCapacity := cacheCapacity
      chunks := fun c => {
        mmapImpl := (impl c).1
        madvImpl := (impl c).2
        bit0 := boot.bits c
        freePages := []
        keys := boot.keys c
        len := 0 }
      pagesPerChunk := pagesPerChunk
      chunkSize := chunkSize
      currentChunkIdx := 0
      map := fun _ => none
      key0 := none
      totalFreePages := numberOfChunks * pagesPerChunk
      wlock := none }
    mem := fun d => match (impl d.chunk).1 with
      | .anon => .zero
      | .file => ⟨boot.file d, false⟩
    trace := []
    clock := 0
    draws := 0 }

end LazyfreeCache.LazyfreeOps
