import LazyfreeCache.LazyfreeOps

/-!
The functions of `fallthrough_cache.c` over the lazyfree implementation. The
refill callback is a pure function of the key, as the cache assumes of it.
-/
namespace LazyfreeCache.FallthroughOps

open ProgramLogic State LazyfreeOps

/-- `struct fallthrough_cache`. `ft_cache_init` asserts that an entry fits into
a page. -/
structure FtCache where
  refillCb : Key → Buffer
  entrySize : ℕ
  fits : entrySize ≤ pageSize

/-- The chunk counts of `struct lazyfree_impl`. -/
structure LazyfreeImpl where
  lazyfreeChunks : ℕ
  anonChunks : ℕ
  diskChunks : ℕ

def lazyfreeAnonImpl : LazyfreeImpl := ⟨0, numberOfChunks, 0⟩

def lazyfreeDiskImpl : LazyfreeImpl := ⟨0, 0, numberOfChunks⟩

def ftCacheInit (boot : Boot) (impl : LazyfreeImpl) (refillCb : Key → Buffer)
    (numEntries entrySize : ℕ) : Except Fault (FtCache × Sys) :=
  if fits : entrySize ≤ pageSize then do
    let cache ← lazyfreeCacheNewEx boot (u64 (numEntries * pageSize)) impl.lazyfreeChunks
      impl.anonChunks impl.diskChunks
    return (⟨refillCb, entrySize, fits⟩, cache)
  else .error .assertFailed

/-- `memcpy(page + offset, value, n)`, from byte `i` on. -/
def memcpyToPage (env : Env) (page : EntryDescriptor) (offset : ℕ) (value : Buffer) :
    ℕ → ℕ → M Unit
  | 0, _ => pure ()
  | n + 1, i => do
    storeByte env page (offset + i) (value i)
    memcpyToPage env page offset value n (i + 1)

/-- `refill_cb` fills `value[0..entry_size)`. -/
def refill (ft : FtCache) (key : Key) (value : Buffer) : M Buffer := do
  emit (.refill key)
  return fun i => if i < ft.entrySize then ft.refillCb key i else value i

def ftCacheGet (env : Env) (ft : FtCache) (key : Key) (value : Buffer) : M Buffer := do
  let lock ← lazyfreeReadLock env (.fresh key)
  require (lock.head ≠ .null) .assertFailed
  if (← lockCheck env lock) = true then
    let (_, value) ← lazyfreeRead env lock value (pageSize - ft.entrySize) ft.entrySize
    require ((← lockCheck env lock) = true) .fallthroughLockCheckFailed
    let _ ← lazyfreeReadUnlock env lock false
    return value
  else
    let value ← refill ft key value
    let (page, _) ← lazyfreeWriteLock env lock
    memcpyToPage env page (pageSize - ft.entrySize) value ft.entrySize 0
    lazyfreeWriteUnlock env false
    return value

def ftCacheDrop (env : Env) (key : Key) : M Bool := do
  let lock ← lazyfreeReadLock env (.fresh key)
  if (← lockCheck env lock) = true then
    let _ ← lazyfreeReadUnlock env lock true
    return true
  else
    return false

end LazyfreeCache.FallthroughOps
