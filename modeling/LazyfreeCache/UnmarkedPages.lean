import LazyfreeCache.Client
import LazyfreeCache.Lockstep

/-!
Caches whose chunks are anonymous memory or files. `lazyfree_madv_nop` marks no
page, so the kernel has nothing to take, and whatever it would like to take a
process does the same, step by step and fault by fault.
-/
namespace LazyfreeCache.UnmarkedPages

open Bitset ProgramLogic Lockstep State LazyfreeOps FallthroughOps Client

/-- No page is marked, and no chunk marks its pages. -/
structure Unmarked (s : Core) : Prop where
  impl : ∀ c, (s.cache.chunks c).madvImpl = .nop
  mem : ∀ d, (s.mem d).lazyfree = false

/-- The same world with a kernel that takes nothing. -/
def quiet (env : Env) : Env := ⟨fun _ => [], env.random⟩

/-- The programs do the same while no page is marked. -/
def Alike {α : Type} (m m' : M α) : Prop := Same (fun s : Sys => Unmarked s.toCore) m m'

/-- The update of the cache leaves the chunks unmarked. -/
def KeepsImpl (f : Cache → Cache) : Prop :=
  ∀ cache : Cache, (∀ c, (cache.chunks c).madvImpl = .nop) →
    ∀ c, ((f cache).chunks c).madvImpl = .nop

variable {α : Type} (env : Env) (d desc : EntryDescriptor) (lock : RLock)

/-! ### Accesses -/

theorem unmarked_kernel {s : Sys} (h : Unmarked s.toCore) :
    s.kernel env = s.kernel (quiet env) ∧ Unmarked (s.kernel env).toCore := by
  have hmem : ∀ d, (if d ∈ env.reclaim s.clock then (s.mem d).reclaim else s.mem d) = s.mem d := by
    intro d
    unfold Page.reclaim
    simp [h.mem d]
  have hnone : (env.reclaim s.clock).filter (fun d => (s.mem d).lazyfree) = [] := by
    simp [h.mem]
  refine ⟨?_, h.impl, fun d => ?_⟩
  · unfold Sys.kernel quiet
    simp only [hmem, hnone, List.not_mem_nil, if_false, List.filter_nil]
  · change (if d ∈ env.reclaim s.clock then (s.mem d).reclaim else s.mem d).lazyfree = false
    rw [hmem]
    exact h.mem d

theorem alike_kernel : Alike (modify (Sys.kernel env)) (modify (Sys.kernel (quiet env))) := by
  intro s hs
  obtain ⟨hsame, hinv⟩ := unmarked_kernel env hs
  exact ⟨congrArg (fun t => Except.ok ((), t)) hsame, hinv⟩

theorem alike_modifyCache {f : Cache → Cache} (h : KeepsImpl f) :
    Alike (modifyCache f) (modifyCache f) :=
  same_modify fun _ hs => ⟨h _ hs.impl, hs.mem⟩

theorem alike_emit (e : Event) : Alike (emit e) (emit e) :=
  same_modify fun _ hs => ⟨hs.impl, hs.mem⟩

theorem alike_readByte (offset : ℕ) :
    Alike (readByte env d offset) (readByte (quiet env) d offset) :=
  same_bind (alike_kernel env) fun _ => same_bind same_get fun _ => same_pure _

theorem alike_storeByte (offset : ℕ) (v : UInt8) :
    Alike (storeByte env d offset v) (storeByte (quiet env) d offset v) := by
  refine same_bind (alike_kernel env) fun _ => same_bind (same_modify fun s hs => ⟨hs.impl, ?_⟩)
    fun _ => alike_emit _
  intro e
  change (Function.update s.mem d ((s.mem d).store offset v) e).lazyfree = false
  rw [Function.update_apply]
  split
  · rfl
  · exact hs.mem e

/-! ### The cache -/

theorem keepsImpl_setChunk (c : ChunkIdx) {chunk : Chunk} (h : chunk.madvImpl = .nop) :
    KeepsImpl (·.setChunk c chunk) := by
  intro cache hcache c'
  change (Function.update cache.chunks c chunk c').madvImpl = .nop
  rw [Function.update_apply]
  split
  · exact h
  · exact hcache c'

/-- An update that writes one chunk and leaves its kind as it is. -/
theorem keepsImpl_of_setChunk {f : Cache → Cache} (h : ∀ cache : Cache, ∃ c chunk,
    f cache = cache.setChunk c chunk ∧ chunk.madvImpl = (cache.chunks c).madvImpl) :
    KeepsImpl f := by
  intro cache hcache
  obtain ⟨c, chunk, hf, hchunk⟩ := h cache
  rw [hf]
  exact keepsImpl_setChunk c (hchunk.trans (hcache c)) cache hcache

theorem alike_writeChunk {f : Cache → Cache} (h : ∀ cache : Cache, ∃ c chunk,
    f cache = cache.setChunk c chunk ∧ chunk.madvImpl = (cache.chunks c).madvImpl) :
    Alike (modifyCache f) (modifyCache f) :=
  alike_modifyCache (keepsImpl_of_setChunk h)

theorem keepsImpl_hmapPut (key : Key) : KeepsImpl (·.hmapPut key desc) := by
  intro cache hcache c
  unfold Cache.hmapPut
  split <;> exact hcache c

theorem keepsImpl_hmapRemove (key : Key) : KeepsImpl (·.hmapRemove key) := by
  intro cache hcache c
  unfold Cache.hmapRemove
  split <;> exact hcache c

theorem keepsImpl_hmapRemoveKeys (c : ChunkIdx) : KeepsImpl fun cache =>
    hmapRemoveKeys cache (cache.chunks c).keys (cache.chunks c).len := by
  intro cache hcache
  dsimp only
  rw [Cache.hmapRemoveKeys_eq]
  exact hcache

theorem keepsImpl_setLabel (key : Key) : KeepsImpl (·.setLabel d key) :=
  keepsImpl_of_setChunk fun _ => ⟨_, _, rfl, rfl⟩

theorem alike_cacheDrop : Alike (cacheDrop desc) (cacheDrop desc) := by
  unfold cacheDrop
  refine same_bind (alike_writeChunk fun _ => ⟨_, _, rfl, rfl⟩) fun _ => ?_
  refine same_get_bind fun _ _ => same_bind (same_require _ _) fun _ => ?_
  refine same_bind (alike_modifyCache fun _ h => h) fun _ => same_get_bind fun _ _ => ?_
  refine same_bind (alike_modifyCache (keepsImpl_hmapRemove _)) fun _ => ?_
  exact same_bind (alike_modifyCache (keepsImpl_setLabel _ _)) fun _ => alike_emit _

/-! ### Read locks -/

theorem alike_lockCheck : Alike (lockCheck env lock) (lockCheck (quiet env) lock) := by
  unfold lockCheck
  cases lock.head with
  | null => exact same_throw _
  | emptyPage => exact same_pure _
  | page d => exact same_bind (alike_readByte env d _) fun _ => same_pure _

theorem alike_readLoop (offset size rounds i : ℕ) (dest : Buffer) :
    Alike (lazyfreeReadLoop env lock offset size rounds i dest)
      (lazyfreeReadLoop (quiet env) lock offset size rounds i dest) := by
  induction rounds generalizing i dest with
  | zero => exact same_pure _
  | succ rounds ih =>
    unfold lazyfreeReadLoop
    refine same_ite ?_ (same_pure _)
    cases lock.head with
    | null => exact same_bind (same_throw _) fun _ => ih _ _
    | emptyPage => exact same_bind (same_pure _) fun _ => ih _ _
    | page d => exact same_bind (alike_readByte env d _) fun _ => ih _ _

theorem alike_read (dest : Buffer) (offset size : ℕ) :
    Alike (lazyfreeRead env lock dest offset size)
      (lazyfreeRead (quiet env) lock dest offset size) := by
  unfold lazyfreeRead
  refine same_bind (alike_lockCheck env lock) fun _ => same_ite (same_pure _) ?_
  refine same_bind (alike_readLoop env lock offset size _ _ _) fun _ => ?_
  exact same_bind (alike_lockCheck env lock) fun _ => same_pure _

theorem alike_readLock : Alike (lazyfreeReadLock env lock) (lazyfreeReadLock (quiet env) lock) := by
  unfold lazyfreeReadLock
  refine same_get_bind fun _ _ => same_bind (same_require _ _) fun _ => same_get_bind fun s _ => ?_
  dsimp only
  cases s.cache.hmapGet lock.key with
  | none => exact same_pure _
  | some desc =>
    refine same_ite (same_pure _) (same_bind (alike_readByte env desc _) fun _ => ?_)
    exact same_ite (same_pure _) (same_bind (alike_readByte env desc _) fun _ => same_pure _)

theorem alike_readUnlock (drop : Bool) :
    Alike (lazyfreeReadUnlock env lock drop) (lazyfreeReadUnlock (quiet env) lock drop) := by
  unfold lazyfreeReadUnlock
  refine same_bind (same_require _ _) fun _ => same_get_bind fun _ _ => ?_
  refine same_bind (same_require _ _) fun _ => same_ite (same_pure _) ?_
  cases lock.chunk with
  | none => exact same_throw _
  | some c =>
    refine same_bind (alike_lockCheck env lock) fun _ => same_bind (same_require _ _) fun _ => ?_
    refine same_get_bind fun _ _ => same_ite (same_pure _) (same_ite (same_pure _) ?_)
    exact same_bind (alike_cacheDrop _) fun _ => same_pure _

/-! ### Write locks -/

theorem alike_madvImpl (c : ChunkIdx) : Alike (madvImpl c) (madvImpl c) := by
  refine same_bind (same_modify fun s hs => ⟨hs.impl, fun d => ?_⟩) fun _ => alike_emit _
  change (if d.chunk = c then madvised (s.cache.chunks c).madvImpl (s.mem d)
    else s.mem d).lazyfree = false
  rw [hs.impl c]
  split <;> exact hs.mem d

theorem alike_madvDontneed (c : ChunkIdx) : Alike (madvDontneed c) (madvDontneed c) := by
  refine same_modify fun s hs => ⟨hs.impl, fun d => ?_⟩
  change (if d.chunk = c then dontneed (s.cache.chunks c).mmapImpl (s.mem d)
    else s.mem d).lazyfree = false
  split
  · cases (s.cache.chunks c).mmapImpl with
    | anon => rfl
    | file => exact hs.mem d
  · exact hs.mem d

theorem alike_dropNextChunk : Alike (dropNextChunk env) (dropNextChunk (quiet env)) := by
  unfold dropNextChunk
  refine same_bind (same_get_bind fun _ _ => ?_) fun _ => ?_
  · exact same_bind (same_modify fun _ hs => ⟨hs.impl, hs.mem⟩) fun _ => same_pure _
  refine same_bind (alike_modifyCache fun _ h => h) fun _ => same_get_bind fun s _ => ?_
  refine same_bind (alike_modifyCache (keepsImpl_hmapRemoveKeys _)) fun _ => ?_
  refine same_bind (alike_writeChunk fun _ => ⟨_, _, rfl, rfl⟩) fun _ => ?_
  refine same_bind (alike_madvDontneed _) fun _ => same_get_bind fun _ _ => ?_
  refine same_bind (alike_modifyCache fun _ h => h) fun _ => ?_
  exact same_bind (alike_writeChunk fun _ => ⟨_, _, rfl, rfl⟩) fun _ => alike_emit _

theorem alike_allocCurrentChunk : Alike allocCurrentChunk allocCurrentChunk := by
  unfold allocCurrentChunk
  refine same_get_bind fun s hs => ?_
  have htake : ∀ (chunk : Chunk) (d : EntryDescriptor), chunk.madvImpl = .nop →
      Alike (do
        modifyCache (·.setChunk s.cache.currentChunkIdx chunk)
        modifyCache (·.takeFree)
        return some d)
      (do
        modifyCache (·.setChunk s.cache.currentChunkIdx chunk)
        modifyCache (·.takeFree)
        return some d) := fun chunk d h =>
    same_bind (alike_modifyCache (keepsImpl_setChunk _ h)) fun _ =>
      same_bind (alike_modifyCache fun _ h => h) fun _ => same_pure _
  dsimp only
  cases (s.cache.chunks s.cache.currentChunkIdx).freePages with
  | cons idx rest => exact htake _ _ (hs.impl _)
  | nil => exact same_ite (htake _ _ (hs.impl _)) (same_pure _)

theorem alike_advanceChunk : Alike advanceChunk advanceChunk := by
  unfold advanceChunk
  exact same_get_bind fun _ _ => same_bind (alike_madvImpl _) fun _ =>
    alike_modifyCache fun _ h => h

theorem alike_allocLoop (n : ℕ) : Alike (allocLoop n) (allocLoop n) := by
  induction n with
  | zero => exact same_throw _
  | succ n ih =>
    refine same_bind alike_allocCurrentChunk fun r => ?_
    cases r with
    | some desc => exact same_pure _
    | none => exact same_bind alike_advanceChunk fun _ => ih

theorem alike_writeAlloc (key : Key) :
    Alike (lazyfreeWriteAlloc env key) (lazyfreeWriteAlloc (quiet env) key) := by
  have hnew : Alike (allocNewPage env) (allocNewPage (quiet env)) := by
    unfold allocNewPage
    exact same_get_bind fun _ _ => same_ite (same_bind (alike_dropNextChunk env) fun _ =>
      alike_allocLoop _) (alike_allocLoop _)
  unfold lazyfreeWriteAlloc
  refine same_get_bind fun _ _ => same_bind (same_require _ _) fun _ => same_bind hnew fun _ => ?_
  refine same_bind (alike_modifyCache fun _ h => h) fun _ => ?_
  refine same_bind (alike_modifyCache (keepsImpl_hmapPut _ _)) fun _ => ?_
  refine same_bind (alike_modifyCache (keepsImpl_setLabel _ _)) fun _ => ?_
  exact same_bind (alike_emit _) fun _ => same_pure _

theorem alike_bitToEntryTail : Alike (bitToEntryTail env d) (bitToEntryTail (quiet env) d) := by
  unfold bitToEntryTail
  exact same_get_bind fun _ _ => same_ite (same_pure _) (same_bind (alike_readByte env d _)
    fun _ => alike_storeByte env d _ _)

theorem alike_writeLock :
    Alike (lazyfreeWriteLock env lock) (lazyfreeWriteLock (quiet env) lock) := by
  have halloc : ∀ L : RLock, Alike (do return (← lazyfreeWriteAlloc env lock.key, L))
      (do return (← lazyfreeWriteAlloc (quiet env) lock.key, L)) := fun L =>
    same_bind (alike_writeAlloc env _) fun _ => same_pure _
  unfold lazyfreeWriteLock
  refine same_get_bind fun _ _ => same_bind (same_require _ _) fun _ => ?_
  cases lock.head with
  | null => exact halloc lock
  | emptyPage => exact halloc lock
  | page d =>
    cases lock.chunk with
    | none => exact same_throw _
    | some c =>
      refine same_get_bind fun _ _ => same_ite (halloc _) ?_
      refine same_bind (alike_readByte env d _) fun _ => ?_
      refine same_bind (alike_storeByte env d _ _) fun _ => ?_
      refine same_bind (alike_lockCheck env lock) fun _ => same_ite ?_ ?_
      · exact same_bind (alike_storeByte env d _ _) fun _ => halloc _
      · refine same_bind (alike_storeByte env d _ _) fun _ => ?_
        refine same_bind (alike_modifyCache fun _ h => h) fun _ => ?_
        refine same_bind (alike_emit _) fun _ => ?_
        exact same_bind (alike_bitToEntryTail env _) fun _ => same_pure _

theorem alike_writeUnlock (drop : Bool) :
    Alike (lazyfreeWriteUnlock env drop) (lazyfreeWriteUnlock (quiet env) drop) := by
  unfold lazyfreeWriteUnlock
  refine same_get_bind fun s _ => ?_
  cases s.cache.wlock with
  | none => exact same_throw _
  | some w =>
    refine same_bind (alike_modifyCache fun _ h => h) fun _ => same_ite (alike_cacheDrop _) ?_
    refine same_bind ?_ fun _ => alike_emit _
    refine same_bind (alike_readByte env _ _) fun _ => ?_
    refine same_bind (alike_writeChunk fun _ => ⟨_, _, rfl, rfl⟩) fun _ => ?_
    refine same_bind (alike_readByte env _ _) fun _ => ?_
    exact same_bind (alike_storeByte env _ _ _) fun _ => same_pure _

/-! ### The fallthrough cache -/

theorem alike_memcpyToPage (offset : ℕ) (value : Buffer) (n i : ℕ) :
    Alike (memcpyToPage env d offset value n i) (memcpyToPage (quiet env) d offset value n i) := by
  induction n generalizing i with
  | zero => exact same_pure _
  | succ n ih => exact same_bind (alike_storeByte env d _ _) fun _ => ih _

theorem alike_ftCacheGet (ft : FtCache) (key : Key) (value : Buffer) :
    Alike (ftCacheGet env ft key value) (ftCacheGet (quiet env) ft key value) := by
  unfold ftCacheGet
  refine same_bind (alike_readLock env _) fun L => same_bind (same_require _ _) fun _ => ?_
  refine same_bind (alike_lockCheck env L) fun _ => same_ite ?_ ?_
  · refine same_bind (alike_read env L _ _ _) fun _ => ?_
    refine same_bind (alike_lockCheck env L) fun _ => same_bind (same_require _ _) fun _ => ?_
    exact same_bind (alike_readUnlock env L _) fun _ => same_pure _
  · refine same_bind (same_bind (alike_emit _) fun _ => same_pure _) fun _ => ?_
    refine same_bind (alike_writeLock env L) fun _ => ?_
    refine same_bind (alike_memcpyToPage env _ _ _ _ _) fun _ => ?_
    exact same_bind (alike_writeUnlock env _) fun _ => same_pure _

theorem alike_ftCacheDrop (key : Key) :
    Alike (ftCacheDrop env key) (ftCacheDrop (quiet env) key) := by
  unfold ftCacheDrop
  refine same_bind (alike_readLock env _) fun L => same_bind (alike_lockCheck env L) fun _ => ?_
  exact same_ite (same_bind (alike_readUnlock env L _) fun _ => same_pure _) (same_pure _)

/-! ### Processes -/

/-- The processes do the same while no page is marked. -/
def AlikeProcess {α : Type} (m m' : Prog Process Fault α) : Prop :=
  Same (fun p : Process => Unmarked p.sys.toCore) m m'

theorem alike_onSys {m m' : M α} (h : Alike m m') : AlikeProcess (onSys m) (onSys m') := by
  intro p hp
  obtain ⟨hsame, hinv⟩ := h p.sys hp
  refine ⟨?_, wp_onSys.mpr hinv⟩
  unfold onSys
  rw [hsame]

theorem alike_setLock (l : ℕ) (L : RLock) : AlikeProcess (setLock l L) (setLock l L) :=
  same_modify fun _ hp => hp

theorem alike_exec (ft : FtCache) (call : Call) :
    AlikeProcess (exec env ft call) (exec (quiet env) ft call) := by
  cases call with
  | rlock l key => exact alike_setLock l _
  | readLock l =>
    exact same_get_bind fun _ _ => same_bind (alike_onSys (alike_readLock env _)) fun _ =>
      alike_setLock l _
  | read l offset size =>
    exact same_get_bind fun _ _ => same_bind (alike_onSys (alike_read env _ _ _ _)) fun _ =>
      same_pure _
  | readUnlock l drop =>
    exact same_get_bind fun _ _ => same_bind (alike_onSys (alike_readUnlock env _ _)) fun _ =>
      same_pure _
  | writeLock l =>
    exact same_get_bind fun _ _ => same_bind (alike_onSys (alike_writeLock env _)) fun _ =>
      alike_setLock l _
  | store offset v =>
    refine alike_onSys (same_get_bind fun s _ => ?_)
    cases s.cache.wlock with
    | none => exact same_pure _
    | some w => exact alike_storeByte env _ _ _
  | writeUnlock drop => exact alike_onSys (alike_writeUnlock env drop)
  | ftGet key => exact same_bind (alike_onSys (alike_ftCacheGet env ft key _)) fun _ => same_pure _
  | ftDrop key => exact same_bind (alike_onSys (alike_ftCacheDrop env key)) fun _ => same_pure _

theorem unmarked_of_new {boot : Boot} {capacity a d : ℕ} {s : Sys}
    (hnew : lazyfreeCacheNewEx boot capacity 0 a d = .ok s) : Unmarked s.toCore := by
  have hcreated := (created_of_new hnew).1
  refine ⟨fun c => ?_, hcreated.stored⟩
  have himpl : s.cache.madvImpl c = (chunkImpl 0 a c).2 := congrArg Prod.snd (hcreated.impl c)
  refine himpl.trans ?_
  unfold chunkImpl
  rw [if_neg (Nat.not_lt_zero _)]
  split <;> rfl

/-- Without lazyfree chunks a process does not depend on what the kernel would like to take: two
kernels with the same random numbers give the same results, states and faults. -/
theorem run_eq_of_no_lazyfree {boot : Boot} {capacity a d : ℕ} {s₀ : Sys}
    (hnew : lazyfreeCacheNewEx boot capacity 0 a d = .ok s₀) (locks : ℕ → RLock) (ft : FtCache)
    (calls : List Call) {env env' : Env} (hrandom : env.random = env'.random) :
    run env ft calls ⟨s₀, locks⟩ = run env' ft calls ⟨s₀, locks⟩ := by
  have hquiet : quiet env = quiet env' := by
    unfold quiet
    rw [hrandom]
  have halike : ∀ env, run env ft calls ⟨s₀, locks⟩ = run (quiet env) ft calls ⟨s₀, locks⟩ :=
    fun env => (same_runAll (alike_exec env ft) calls ⟨s₀, locks⟩ (unmarked_of_new hnew)).1
  rw [halike env, halike env', hquiet]

/-- 32 chunks of one page each, in files. -/
def diskCache : Sys := created (lazyfreeCacheNewEx zeroBoot 131072 0 0 32) (by decide +kernel)

theorem diskCache_new : lazyfreeCacheNewEx zeroBoot 131072 0 0 32 = .ok diskCache := rfl

theorem run_eq_of_no_lazyfree_disk :
    run (takesAt ⟨0, 0⟩ 11) byteCache [.ftGet 1, .ftGet 2, .ftGet 1, .ftDrop 1]
        ⟨diskCache, fun _ => .fresh 0⟩ =
      run calm byteCache [.ftGet 1, .ftGet 2, .ftGet 1, .ftDrop 1]
        ⟨diskCache, fun _ => .fresh 0⟩ :=
  run_eq_of_no_lazyfree diskCache_new _ byteCache _ rfl

end LazyfreeCache.UnmarkedPages
