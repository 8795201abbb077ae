import LazyfreeCache.LeftBehind

/-!
How often a chunk is evicted. Every allocation takes one page, every drop gives
one back, and an eviction, which comes only when all pages are in use, gives
back those of one chunk. So the counter is a ledger of the trace, and from one
eviction to the next the allocations outnumber the drops by exactly the pages of
a chunk.
-/
namespace LazyfreeCache.EvictionPace

open ProgramLogic EventReplay State LazyfreeOps FallthroughOps Refinement Accounting Client

def allocations (es : List Event) : ℕ := es.countP fun
  | .allocated _ _ => true
  | _ => false

def drops (es : List Event) : ℕ := es.countP fun
  | .dropped _ _ => true
  | _ => false

def evictions (es : List Event) : ℕ := es.countP fun
  | .evicted _ => true
  | _ => false

@[simp] theorem allocations_append (es fs : List Event) :
    allocations (es ++ fs) = allocations es + allocations fs := List.countP_append

@[simp] theorem drops_append (es fs : List Event) : drops (es ++ fs) = drops es + drops fs :=
  List.countP_append

@[simp] theorem evictions_append (es fs : List Event) :
    evictions (es ++ fs) = evictions es + evictions fs := List.countP_append

variable {s : Core} {e : Event} {pages : ℕ} {es : List Event}

/-- With the counter at 0 every slot of every chunk is in use. -/
theorem full_of_total_zero (h : Accounted s) (hzero : s.cache.totalFreePages = 0) (c : ChunkIdx) :
    s.cache.len c = s.cache.pagesPerChunk ∧ s.cache.free c = [] := by
  have hspare : spare s.cache c = 0 := by
    by_contra hne
    exact LeftBehind.total_ne_zero h (Nat.pos_of_ne_zero hne) hzero
  have hle := h.len_le c
  unfold spare at hspare
  exact ⟨by omega, List.length_eq_zero_iff.mp (by omega)⟩

theorem total_ne_zero_of_ready (h : Accounted s) {d : EntryDescriptor} (hready : s.cache.Ready d) :
    s.cache.totalFreePages ≠ 0 := by
  intro hzero
  obtain ⟨hlen, hfree⟩ := full_of_total_zero h hzero d.chunk
  obtain ⟨-, ⟨rest, hrest⟩ | ⟨-, hlt, -⟩⟩ := hready
  · rw [hfree] at hrest
    cases hrest
  · omega

/-- The step lemma. -/
theorem ledger_step (h : Accounted s) (he : s.Enabled e) :
    (s.apply e).cache.totalFreePages + allocations [e] =
      s.cache.totalFreePages + drops [e] + s.cache.pagesPerChunk * evictions [e] := by
  have hbound := total_le h
  have hpages := h.pages
  cases e with
  | evicted c =>
    obtain ⟨hlen, hfree⟩ := full_of_total_zero h he.2 c
    change u64 (_ + u32 (s.cache.len c + (2 ^ 32 - (s.cache.free c).length))) + 0 = _ + 0 + _ * 1
    rw [he.2, hlen, hfree, List.length_nil]
    unfold u64 u32
    omega
  | allocated d key =>
    have hne := total_ne_zero_of_ready h he.2
    change u64 _ + 1 = _ + 0 + _ * 0
    unfold u64
    omega
  | dropped d key =>
    change u64 _ + 0 = _ + 1 + _ * 0
    unfold u64
    omega
  | _ => rfl

/-- The run lemma: the counter is a ledger of the events. -/
theorem ledger (h : Accounted s) (hpages : s.cache.pagesPerChunk = pages)
    (henabled : Along Core.apply Core.Enabled s es) :
    (replay Core.apply s es).cache.totalFreePages + allocations es =
      s.cache.totalFreePages + drops es + pages * evictions es := by
  induction es generalizing s with
  | nil => rfl
  | cons e es ih =>
    obtain ⟨he, hes⟩ := henabled
    have hstep := ledger_step h he
    have hnext : (s.apply e).cache.pagesPerChunk = pages := by
      rw [← hpages]
      cases e <;> simp [Cache.step]
    have hrest := ih (accounted_step s e h he) hnext hes
    have hsplit : e :: es = [e] ++ es := rfl
    rw [hpages] at hstep
    rw [hsplit, allocations_append, drops_append, evictions_append, Nat.mul_add, replay_append]
    change (replay Core.apply (s.apply e) es).cache.totalFreePages + _ = _
    omega

/-- The counts before every allocation and before every eviction. -/
structure Paced (pages : ℕ) (es : List Event) : Prop where
  allocated : ∀ left d key right, es = left ++ .allocated d key :: right →
    allocations left < numberOfChunks * pages + drops left + pages * evictions left
  evicted : ∀ left c right, es = left ++ .evicted c :: right →
    allocations left = numberOfChunks * pages + drops left + pages * evictions left

theorem paced (h : Accounted s) (hpages : s.cache.pagesPerChunk = pages)
    (htotal : s.cache.totalFreePages = numberOfChunks * pages)
    (henabled : Along Core.apply Core.Enabled s es) : Paced pages es := by
  have hbefore : ∀ left e right, es = left ++ e :: right →
      Accounted (replay Core.apply s left) ∧ (replay Core.apply s left).Enabled e ∧
        (replay Core.apply s left).cache.totalFreePages + allocations left =
          numberOfChunks * pages + drops left + pages * evictions left := by
    rintro left e right rfl
    obtain ⟨hleft, he, -⟩ := (along_append left (e :: right)).mp henabled
    exact ⟨accounted_replay h hleft, he, htotal ▸ ledger h hpages hleft⟩
  constructor
  · intro left d key right hsplit
    obtain ⟨hleft, he, hledger⟩ := hbefore left _ right hsplit
    have hne := total_ne_zero_of_ready hleft he.2
    omega
  · intro left c right hsplit
    obtain ⟨-, he, hledger⟩ := hbefore left _ right hsplit
    rw [he.2] at hledger
    omega

/-- Between two evictions in a row. -/
theorem Paced.between (h : Paced pages es) {left mid right : List Event} {c c' : ChunkIdx}
    (hsplit : es = left ++ .evicted c :: mid ++ .evicted c' :: right)
    (hnone : evictions mid = 0) : allocations mid = pages + drops mid := by
  have hfirst := h.evicted left c (mid ++ .evicted c' :: right) (by simp [hsplit])
  have hsecond := h.evicted (left ++ [.evicted c] ++ mid) c' right (by simp [hsplit])
  have hone : evictions [.evicted c] = 1 := rfl
  have hzero : allocations [.evicted c] = 0 ∧ drops [.evicted c] = 0 := ⟨rfl, rfl⟩
  simp only [allocations_append, drops_append, evictions_append, hone, hzero, hnone, Nat.mul_add]
    at hsecond
  omega

/-- In every run the free pages are those of the 32 chunks, less one for each allocation, more one
for each drop and a chunk for each eviction. A chunk is evicted exactly where this comes to 0, and
between two evictions a chunk's worth of pages is allocated over what is dropped. -/
theorem evictions_paced {boot : Boot} {capacity l a d : ℕ} {s₀ : Sys}
    (hnew : lazyfreeCacheNewEx boot capacity l a d = .ok s₀) (locks : ℕ → RLock)
    (hlocks : ∀ i, (locks i).head = .null) (env : Env) (ft : FtCache) (calls : List Call)
    {p : Process} (hrun : run env ft calls ⟨s₀, locks⟩ = .ok ((), p)) :
    p.sys.cache.totalFreePages + allocations p.sys.trace =
        numberOfChunks * s₀.cache.pagesPerChunk + drops p.sys.trace +
          s₀.cache.pagesPerChunk * evictions p.sys.trace ∧
      Paced s₀.cache.pagesPerChunk p.sys.trace ∧
      ∀ left c mid c' right, p.sys.trace = left ++ .evicted c :: mid ++ .evicted c' :: right →
        evictions mid = 0 → allocations mid = s₀.cache.pagesPerChunk + drops mid := by
  have hs := (created_of_new hnew).1
  obtain ⟨hperforms, -⟩ := run_replay hs hlocks hrun
  have hpaced := paced hs.accounted rfl hs.total hperforms.2
  have hledger := ledger hs.accounted rfl hperforms.2
  rw [← hperforms.1, show s₀.toCore.cache.totalFreePages = _ from hs.total] at hledger
  exact ⟨hledger, hpaced, fun left c mid c' right => hpaced.between⟩

/-- 34 keys in 32 one-page chunks: the last two gets evict a chunk each. -/
theorem evictions_paced_twice : ∃ p, run calm byteCache ((List.range 34).map fun i =>
      .ftGet (UInt64.ofNat (i + 1))) ⟨smallCache, fun _ => .fresh 0⟩ = .ok ((), p) ∧
    evictions p.sys.trace = 2 ∧ Paced smallCache.cache.pagesPerChunk p.sys.trace := by
  obtain ⟨p, hrun, htwo⟩ : ∃ p, run calm byteCache ((List.range 34).map fun i =>
      .ftGet (UInt64.ofNat (i + 1))) ⟨smallCache, fun _ => .fresh 0⟩ = .ok ((), p) ∧
      evictions p.sys.trace = 2 :=
    ⟨_, run_eq_unit _ _ (by decide +kernel), by decide +kernel⟩
  exact ⟨p, hrun, htwo, (evictions_paced smallCache_new _ (fun _ => rfl) calm byteCache _ hrun).2.1⟩

end LazyfreeCache.EvictionPace
