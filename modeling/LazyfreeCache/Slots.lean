import LazyfreeCache.Client

/-!
The structure of slots: which are free, which carry a key and where the map
leads. It holds in every run in which `cache_drop` is never applied to a slot
with the key 0, that is, in which it never frees a free slot again. Then no
slot is free and mapped at once, and two keys never share one.
-/
namespace LazyfreeCache.Slots

open ProgramLogic EventReplay State LazyfreeOps FallthroughOps Refinement Allocation Accounting
open Client

structure WellFormed (s : Core) : Prop where
  accounted : Accounted s
  used : ∀ d, s.HandedOut d → s.cache.label d ≠ 0 → d.index < s.cache.len d.chunk
  free_nodup : ∀ c, (s.cache.free c).Nodup
  free_lt : ∀ c, ∀ i ∈ s.cache.free c, i < s.cache.len c
  free_label : ∀ c, ∀ i ∈ s.cache.free c, s.cache.label ⟨i, c⟩ = 0
  map_label : ∀ k, k ≠ 0 → ∀ d, s.cache.hmapGet k = some d → s.cache.label d = k

/-- `cache_drop` is applied to a slot with a key. -/
def DropsKey : Event → Prop
  | .dropped _ key => key ≠ 0
  | _ => True

theorem WellFormed.map_lt {s : Core} (h : WellFormed s) {k : Key} (hk : k ≠ 0)
    {d : EntryDescriptor} (hd : s.cache.hmapGet k = some d) : d.index < s.cache.len d.chunk :=
  h.used d (h.accounted.map_handed k d hd) (by rw [h.map_label k hk d hd]; exact hk)

/-- A slot about to be given out is blank or free, so no key leads to it. -/
theorem WellFormed.ready_unmapped {s : Core} (h : WellFormed s) {d : EntryDescriptor}
    (hready : s.cache.Ready d) {k : Key} (hk : k ≠ 0) : s.cache.hmapGet k ≠ some d := by
  intro hd
  obtain ⟨-, ⟨rest, hrest⟩ | ⟨-, -, hindex⟩⟩ := hready
  · have hlabel := h.free_label d.chunk d.index (by rw [hrest]; exact List.mem_cons_self)
    exact hk ((h.map_label k hk d hd).symm.trans hlabel)
  · have hlt := h.map_lt hk hd
    omega

theorem WellFormed.ready_not_mem_tail {s : Core} (h : WellFormed s) {d : EntryDescriptor}
    (hready : s.cache.Ready d) : d.index ∉ (s.cache.free d.chunk).tail := by
  obtain ⟨-, ⟨rest, hrest⟩ | ⟨hnil, -⟩⟩ := hready
  · have hnodup := h.free_nodup d.chunk
    rw [hrest] at hnodup ⊢
    exact (List.nodup_cons.mp hnodup).1
  · rw [hnil]
    exact List.not_mem_nil

/-- A slot with a key is not free, so dropping it does not overflow the stack. -/
theorem WellFormed.free_length_lt {s : Core} (h : WellFormed s) {d : EntryDescriptor}
    (hhanded : s.HandedOut d) (hlabel : s.cache.label d ≠ 0) :
    (s.cache.free d.chunk).length < s.cache.len d.chunk := by
  have hlt := h.used d hhanded hlabel
  have hnot : d.index ∉ s.cache.free d.chunk := fun hmem =>
    hlabel (h.free_label d.chunk d.index hmem)
  have hnodup : (d.index :: s.cache.free d.chunk).Nodup :=
    List.nodup_cons.mpr ⟨hnot, h.free_nodup d.chunk⟩
  have hsub : (d.index :: s.cache.free d.chunk) ⊆ List.range (s.cache.len d.chunk) := by
    intro i hi
    rcases List.mem_cons.mp hi with rfl | hi
    · exact List.mem_range.mpr hlt
    · exact List.mem_range.mpr (h.free_lt d.chunk i hi)
  have hle := (List.subperm_of_subset hnodup hsub).length_le
  rw [List.length_cons, List.length_range] at hle
  exact hle

/-- An event that leaves chunks and map alone keeps the structure. -/
theorem wellFormed_frame {s t : Core} (h : WellFormed s) (haccounted : Accounted t)
    (hlabel : ∀ d, t.cache.label d = s.cache.label d)
    (hlen : ∀ c, t.cache.len c = s.cache.len c) (hfree : ∀ c, t.cache.free c = s.cache.free c)
    (hmap : ∀ k, t.cache.hmapGet k = s.cache.hmapGet k)
    (hhanded : ∀ d, t.HandedOut d → s.HandedOut d) : WellFormed t where
  accounted := haccounted
  used d hd hne := by
    rw [hlabel] at hne
    rw [hlen]
    exact h.used d (hhanded d hd) hne
  free_nodup c := by rw [hfree]; exact h.free_nodup c
  free_lt c := by rw [hfree, hlen]; exact h.free_lt c
  free_label c i hi := by
    rw [hfree] at hi
    rw [hlabel]
    exact h.free_label c i hi
  map_label k hk d hd := by
    rw [hmap] at hd
    rw [hlabel]
    exact h.map_label k hk d hd

theorem handedOut_of_apply {s : Core} {e : Event} (hne : ∀ d key, e ≠ .allocated d key)
    (d : EntryDescriptor) (h : (s.apply e).HandedOut d) : s.HandedOut d :=
  ((handedOut_apply s e d).mp h).resolve_right fun ⟨key, hkey⟩ => hne d key hkey

theorem wellFormed_evicted {s : Core} (h : WellFormed s) (c : ChunkIdx) :
    WellFormed (s.apply (.evicted c)) := by
  -- a handed-out slot of the chunk has no key afterwards
  have hclear : ∀ d, s.HandedOut d → (s.cache.evict c).label d ≠ 0 →
      d.chunk ≠ c ∧ s.cache.label d ≠ 0 := by
    intro d hd hne
    rw [Cache.label_evict] at hne
    split at hne
    · exact absurd rfl hne
    · rename_i hout
      exact ⟨fun hc => hout ⟨hc, hc ▸ h.used d hd hne⟩, hne⟩
  refine ⟨accounted_evicted h.accounted c, ?_, ?_, ?_, ?_, ?_⟩
  · intro d hd hne
    have hd' := handedOut_of_apply (by simp) d hd
    obtain ⟨hc, hne'⟩ := hclear d hd' hne
    simp only [Core.cache_apply, Cache.step, Cache.len_evict, if_neg hc]
    exact h.used d hd' hne'
  · intro x
    simp only [Core.cache_apply, Cache.step, Cache.free_evict]
    split
    · exact List.nodup_nil
    · exact h.free_nodup x
  · intro x i hi
    simp only [Core.cache_apply, Cache.step, Cache.free_evict, Cache.len_evict] at hi ⊢
    split at hi
    · cases hi
    · rename_i hx
      rw [if_neg hx]
      exact h.free_lt x i hi
  · intro x i hi
    simp only [Core.cache_apply, Cache.step, Cache.free_evict, Cache.label_evict] at hi ⊢
    split at hi
    · cases hi
    · split
      · rfl
      · exact h.free_label x i hi
  · intro k hk d hd
    simp only [Core.cache_apply, Cache.step, Cache.hmapGet_evict, Cache.label_evict] at hd ⊢
    split at hd
    · cases hd
    · rename_i hkeep
      have hlabel := h.map_label k hk d hd
      rw [if_neg, hlabel]
      rintro ⟨rfl, hlt⟩
      exact hkeep ⟨hk, d.index, hlt, hlabel⟩

theorem len_allocate_ge {s : Core} (h : Accounted s) {d : EntryDescriptor} (key : Key)
    (hready : s.cache.Ready d) (c : ChunkIdx) :
    s.cache.len c ≤ (s.cache.allocate d key).len c := by
  have hpages := h.pages
  have hlen := h.len_le c
  rw [Cache.len_allocate]
  split
  · rename_i hnil
    obtain ⟨rfl, hnil⟩ := hnil
    obtain ⟨-, ⟨rest, hrest⟩ | ⟨-, hblank, -⟩⟩ := hready
    · rw [hnil] at hrest
      cases hrest
    · unfold u32
      omega
  · exact Nat.le_refl _

theorem ready_lt_len {s : Core} (h : WellFormed s) {d : EntryDescriptor} (key : Key)
    (hready : s.cache.Ready d) : d.index < (s.cache.allocate d key).len d.chunk := by
  have hge := len_allocate_ge h.accounted key hready d.chunk
  obtain ⟨-, ⟨rest, hrest⟩ | ⟨hnil, hblank, hindex⟩⟩ := hready
  · have hlt := h.free_lt d.chunk d.index (by rw [hrest]; exact List.mem_cons_self)
    omega
  · have hpages := h.accounted.pages
    rw [Cache.len_allocate, if_pos ⟨rfl, hnil⟩]
    unfold u32
    omega

theorem wellFormed_allocated {s : Core} (h : WellFormed s) {d : EntryDescriptor} (key : Key)
    (hready : s.cache.Ready d) : WellFormed (s.apply (.allocated d key)) := by
  have htail : ∀ x, ∀ i ∈ (s.cache.allocate d key).free x,
      i ∈ s.cache.free x ∧ (⟨i, x⟩ : EntryDescriptor) ≠ d := by
    intro x i hi
    rw [Cache.free_allocate] at hi
    split at hi
    · rename_i hx
      refine ⟨List.mem_of_mem_tail hi, ?_⟩
      rintro rfl
      exact h.ready_not_mem_tail hready hi
    · rename_i hx
      exact ⟨hi, fun hd => hx (by rw [← hd])⟩
  refine ⟨accounted_allocated h.accounted key hready, ?_, ?_, ?_, ?_, ?_⟩
  · intro p hp hne
    simp only [Core.cache_apply, Cache.step, Cache.label_allocate] at hne ⊢
    by_cases hpd : p = d
    · rw [hpd]
      exact ready_lt_len h key hready
    · rw [if_neg hpd] at hne
      have hp' : s.HandedOut p := by
        refine ((handedOut_apply s _ p).mp hp).resolve_right ?_
        rintro ⟨k, hk⟩
        cases hk
        exact hpd rfl
      exact (h.used p hp' hne).trans_le (len_allocate_ge h.accounted key hready p.chunk)
  · intro x
    simp only [Core.cache_apply, Cache.step, Cache.free_allocate]
    split
    · exact (h.free_nodup x).sublist (List.tail_sublist _)
    · exact h.free_nodup x
  · intro x i hi
    exact (h.free_lt x i (htail x i hi).1).trans_le (len_allocate_ge h.accounted key hready x)
  · intro x i hi
    simp only [Core.cache_apply, Cache.step, Cache.label_allocate]
    rw [if_neg (htail x i hi).2]
    exact h.free_label x i (htail x i hi).1
  · intro k hk p hp
    simp only [Core.cache_apply, Cache.step, Cache.hmapGet_allocate, Cache.label_allocate] at hp ⊢
    split at hp
    · rename_i hkey
      rw [if_pos (Option.some.inj hp).symm, hkey]
    · rw [if_neg (fun hpd => h.ready_unmapped hready hk (by rw [hp, hpd]))]
      exact h.map_label k hk p hp

theorem wellFormed_dropped {s : Core} (h : WellFormed s) {d : EntryDescriptor} {key : Key}
    (hkey : key ≠ 0) (henabled : s.Enabled (.dropped d key)) :
    WellFormed (s.apply (.dropped d key)) := by
  have hlabel : s.cache.label d = key := henabled.1
  have hhanded : s.HandedOut d := by
    rcases henabled.2.2 with ⟨-, hd⟩ | ⟨k, hw⟩
    · exact hd
    · exact h.accounted.wlock_handed _ hw
  have hlt := h.used d hhanded (by rw [hlabel]; exact hkey)
  have hnot : d.index ∉ s.cache.free d.chunk := fun hmem =>
    hkey (hlabel.symm.trans (h.free_label d.chunk d.index hmem))
  refine ⟨accounted_dropped h.accounted key henabled.2.1 hhanded, ?_, ?_, ?_, ?_, ?_⟩
  · intro p hp hne
    simp only [Core.cache_apply, Cache.step, Cache.label_drop, Cache.len_drop] at hne ⊢
    split at hne
    · exact absurd rfl hne
    · exact h.used p (handedOut_of_apply (by simp) p hp) hne
  · intro x
    simp only [Core.cache_apply, Cache.step, Cache.free_drop]
    split
    · rename_i hx
      subst hx
      exact List.nodup_cons.mpr ⟨hnot, h.free_nodup d.chunk⟩
    · exact h.free_nodup x
  · intro x i hi
    simp only [Core.cache_apply, Cache.step, Cache.free_drop, Cache.len_drop] at hi ⊢
    split at hi
    · rename_i hx
      subst hx
      rcases List.mem_cons.mp hi with rfl | hi
      · exact hlt
      · exact h.free_lt d.chunk i hi
    · exact h.free_lt x i hi
  · intro x i hi
    simp only [Core.cache_apply, Cache.step, Cache.free_drop, Cache.label_drop] at hi ⊢
    by_cases hid : (⟨i, x⟩ : EntryDescriptor) = d
    · rw [if_pos hid]
    · rw [if_neg hid]
      split at hi
      · rename_i hx
        subst hx
        rcases List.mem_cons.mp hi with rfl | hi
        · exact absurd rfl hid
        · exact h.free_label d.chunk i hi
      · exact h.free_label x i hi
  · intro k hk p hp
    simp only [Core.cache_apply, Cache.step, Cache.hmapGet_drop, Cache.label_drop] at hp ⊢
    split at hp
    · cases hp
    · rename_i hkeep
      have hkp := h.map_label k hk p hp
      rw [if_neg, hkp]
      rintro rfl
      exact hkeep ⟨hk, hkp.symm⟩

theorem wellFormed_step (s : Core) (e : Event) (h : WellFormed s) (henabled : s.Enabled e)
    (hdrops : DropsKey e) : WellFormed (s.apply e) := by
  have haccounted := accounted_step s e h.accounted henabled
  cases e with
  | evicted c => exact wellFormed_evicted h c
  | allocated d key => exact wellFormed_allocated h key henabled.2
  | dropped d key => exact wellFormed_dropped h hdrops henabled
  | committed w bit =>
    exact wellFormed_frame h haccounted (fun _ => Cache.label_commit _ _ _ _)
      (fun _ => Cache.len_commit _ _ _ _) (fun _ => Cache.free_commit _ _ _ _) (fun _ => rfl)
      (handedOut_of_apply (by simp))
  | _ =>
    exact wellFormed_frame h haccounted (fun _ => rfl) (fun _ => rfl) (fun _ => rfl)
      (fun _ => rfl) (handedOut_of_apply (by simp))

theorem wellFormed_of_created {l a : ℕ} {s : Sys} (h : Created l a s) :
    WellFormed s.toCore where
  accounted := h.accounted
  used d hd _ := by
    obtain ⟨key, hkey⟩ := hd
    rw [h.trace] at hkey
    cases hkey
  free_nodup c := by rw [h.free]; exact List.nodup_nil
  free_lt c i hi := by rw [h.free] at hi; cases hi
  free_label c i hi := by rw [h.free] at hi; cases hi
  map_label k hk d hd := by rw [h.map] at hd; cases hd

/-! ### Runs on nonzero keys -/

def Nonzero : Key → Prop := fun key => key ≠ 0

/-- What the map, the `keys[]`, the free stacks and the lengths say fits together: two keys
never share a page and no page is free and mapped at once. -/
structure NoSharing (s : Core) : Prop where
  mapped : ∀ k d, s.cache.hmapGet k = some d → d.index < s.cache.len d.chunk ∧ s.cache.label d = k
  nodup : ∀ c, (s.cache.free c).Nodup
  free : ∀ c, ∀ i ∈ s.cache.free c, i < s.cache.len c ∧ s.cache.label ⟨i, c⟩ = 0 ∧
    ∀ k, s.cache.hmapGet k ≠ some ⟨i, c⟩
  alloc : ∀ clock draws d t, allocCurrentChunk ⟨s, clock, draws⟩ = .ok (some d, t) →
    ∀ k, s.cache.hmapGet k ≠ some d

/-- The invariant of runs on nonzero keys while a lock's index of 16 bits is exact: the slot that
is locked for writing carries the key it is locked for, and no page belongs to key 0. -/
structure Exact (s : Core) : Prop where
  wellFormed : WellFormed s
  pages : s.cache.pagesPerChunk ≤ 2 ^ 16
  key0 : s.cache.hmapGet 0 = none
  wlock : ∀ w, s.cache.wlock = some w → w.key ≠ 0 ∧ s.cache.label w.slot = w.key

theorem Exact.noSharing {s : Core} (h : Exact s) : NoSharing s := by
  have hnonzero : ∀ k d, s.cache.hmapGet k = some d → k ≠ 0 := by
    rintro k d hd rfl
    cases h.key0.symm.trans hd
  have hwell := h.wellFormed
  refine ⟨?_, hwell.free_nodup, ?_, ?_⟩
  · intro k d hd
    exact ⟨hwell.map_lt (hnonzero k d hd) hd, hwell.map_label k (hnonzero k d hd) d hd⟩
  · intro c i hi
    refine ⟨hwell.free_lt c i hi, hwell.free_label c i hi, fun k hd => ?_⟩
    have hk := hnonzero k _ hd
    exact hk ((hwell.map_label k hk _ hd).symm.trans (hwell.free_label c i hi))
  · intro clock draws d t halloc k hd
    exact hwell.ready_unmapped (ready_of_allocCurrentChunk halloc) (hnonzero k d hd) hd

/-- A slot is handed out for key 0. -/
def ZeroSlot (e : Event) : Prop := ∃ d, e = .allocated d 0

theorem not_zeroSlot {e : Event} (h : OnKeys Nonzero e) : ¬ ZeroSlot e := by
  rintro ⟨d, rfl⟩
  exact h rfl

/-- Key 0 gets its entry with a slot. -/
theorem key0_step {s : Core} {e : Event} (h : s.cache.hmapGet 0 = none) (hzero : ¬ ZeroSlot e) :
    (s.apply e).cache.hmapGet 0 = none := by
  cases e with
  | evicted c =>
    simp only [Core.cache_apply, Cache.step, Cache.hmapGet_evict]
    rw [if_neg (by simp), h]
  | allocated d key =>
    simp only [Core.cache_apply, Cache.step, Cache.hmapGet_allocate]
    rw [if_neg, h]
    rintro rfl
    exact hzero ⟨d, rfl⟩
  | dropped d key =>
    simp only [Core.cache_apply, Cache.step, Cache.hmapGet_drop]
    rw [if_neg (by simp), h]
  | _ => exact h

theorem exact_step (s : Core) (e : Event) (h : Exact s)
    (he : s.Enabled e ∧ OnKeys Nonzero e) : Exact (s.apply e) := by
  obtain ⟨henabled, hkeys⟩ := he
  have hdrops : DropsKey e := by cases e <;> first | exact hkeys | trivial
  have hwell := wellFormed_step s e h.wellFormed henabled hdrops
  have hpages : (s.apply e).cache.pagesPerChunk ≤ 2 ^ 16 := by
    rw [show (s.apply e).cache.pagesPerChunk = s.cache.pagesPerChunk by
      cases e <;> simp [Cache.step]]
    exact h.pages
  refine ⟨hwell, hpages, key0_step h.key0 (not_zeroSlot hkeys), ?_⟩
  · intro w hw
    cases e with
    | evicted c =>
      simp only [Core.cache_apply, Cache.step, Cache.wlock_evict] at hw
      cases henabled.1.symm.trans hw
    | advised c => cases henabled.1.symm.trans hw
    | allocated d key =>
      simp only [Core.cache_apply, Cache.step, Cache.wlock_allocate, Option.some.injEq] at hw
      subst hw
      refine ⟨hkeys, ?_⟩
      simp only [Core.cache_apply, Cache.step, Cache.label_allocate, if_true]
    | upgraded d w' =>
      simp only [Core.cache_apply, Cache.step, Cache.wlock_upgrade, Option.some.injEq] at hw
      subst hw
      obtain ⟨-, hhanded, hlabel, hslot⟩ := henabled
      -- the slot is the page of the lock, since its index has 16 bits
      have hindex : d.index < 2 ^ 16 :=
        (h.wellFormed.accounted.handed_lt d hhanded).trans_le h.pages
      rw [Nat.mod_eq_of_lt hindex] at hslot
      refine ⟨hkeys, ?_⟩
      rw [hslot]
      exact hlabel
    | committed w' bit => cases hw
    | dropped d key => cases hw
    | _ => exact h.wlock w hw

/-- A call on nonzero keys does not overflow a free stack. -/
theorem not_overflows {s : Sys} (h : Exact s.toCore) : ¬ Overflows Nonzero s := by
  rintro ⟨d, hhanded, hlabel, hover⟩
  have hlt := h.wellFormed.free_length_lt hhanded hlabel
  omega

theorem exact_of_created {l a : ℕ} {s : Sys} (h : Created l a s)
    (hpages : s.cache.pagesPerChunk ≤ 2 ^ 16) : Exact s.toCore :=
  ⟨wellFormed_of_created h, hpages, h.map 0, fun w hw => by cases h.wlock.symm.trans hw⟩

theorem Steps.exact {s t : Sys} (h : Steps Nonzero s t) (hs : Exact s.toCore) :
    Exact t.toCore ∧ ∃ es, Performs s t es ∧ Along Core.apply (fun s _ => Exact s) s.toCore es := by
  obtain ⟨es, hes, hkeys, -⟩ := h
  have halong := (along_and es).mpr ⟨hes.2, along_of_forall es fun e he _ => hkeys e he⟩
  refine ⟨?_, es, hes, along_of_invariant Exact exact_step (fun _ _ hs _ => hs) es hs halong⟩
  rw [hes.1]
  exact replay_invariant Exact exact_step es hs halong

/-- Two keys never share a page and no page is free and mapped at once, in any state of any run
on nonzero keys, and `cache_drop` never finds more free pages than pages. -/
theorem noSharing_run {boot : Boot} {capacity l a d : ℕ} {s₀ : Sys}
    (hnew : lazyfreeCacheNewEx boot capacity l a d = .ok s₀)
    (hpages : s₀.cache.pagesPerChunk ≤ 65536) (locks : ℕ → RLock)
    (hlocks : ∀ i, (locks i).head = .null ∧ (locks i).key ≠ 0) (env : Env) (ft : FtCache)
    (calls : List Call) (hkeys : ∀ call ∈ calls, call.OnKeys Nonzero) :
    (∀ p, run env ft calls ⟨s₀, locks⟩ = .ok ((), p) → NoSharing p.sys.toCore ∧
      Along Core.apply (fun s _ => NoSharing s) s₀.toCore p.sys.trace) ∧
    run env ft calls ⟨s₀, locks⟩ ≠ .error .freePagesOverflow := by
  have hcreated := (created_of_new hnew).1
  have hexact := exact_of_created hcreated hpages
  have hrun : wp (run env ft calls)
      (fun _ p => Sound p ∧ Steps Nonzero s₀ p.sys ∧ ∀ i, (p.locks i).key ≠ 0)
      (fun e => e ≠ .freePagesOverflow) ⟨s₀, locks⟩ := by
    refine wp_runAll ?_ ⟨hcreated.sound_locks fun i => (hlocks i).1, steps_refl s₀, fun i =>
      (hlocks i).2⟩
    rintro call hcall p ⟨hsound, hsteps, hnonzero⟩
    have hp := (Steps.exact hsteps hexact).1
    refine wp_mono (exec_sound env ft hsound (hkeys call hcall) ⟨hnonzero, fun w hw => ?_⟩)
      (fun _ q h => ⟨h.1, hsteps.trans h.2.1, h.2.2⟩) fun e hstops he => ?_
    · obtain ⟨hkey, hlabel⟩ := hp.wlock w hw
      exact hlabel ▸ hkey
    · exact not_overflows hp (hstops he)
  obtain ⟨hok, herror⟩ := wp_iff.mp hrun
  refine ⟨fun p hp => ?_, fun h => herror _ h rfl⟩
  obtain ⟨-, hsteps, -⟩ := hok () p hp
  obtain ⟨hexact', es, hes, halong⟩ := Steps.exact hsteps hexact
  rw [hcreated.trace_eq hes.trace]
  exact ⟨hexact'.noSharing, along_mono es halong fun _ _ h => h.noSharing⟩

/-- Key 1 is written, upgraded and dropped, and its slot goes to key 2. -/
theorem noSharing_run_reused :
    ∃ p, run calm byteCache [.readLock 0, .writeLock 0, .writeUnlock false, .readLock 0,
        .writeLock 0, .writeUnlock true, .ftGet 2] ⟨smallCache, fun _ => .fresh 1⟩ = .ok ((), p) ∧
      NoSharing p.sys.toCore := by
  have hrun := run_eq_unit ⟨smallCache, fun _ => .fresh 1⟩ (run calm byteCache [.readLock 0,
    .writeLock 0, .writeUnlock false, .readLock 0, .writeLock 0, .writeUnlock true, .ftGet 2])
    (by decide +kernel)
  refine ⟨_, hrun, ((noSharing_run smallCache_new (by decide +kernel) (fun _ => .fresh 1) ?_ calm
    byteCache _ ?_).1 _ hrun).1⟩
  · exact fun _ => ⟨rfl, by simp [RLock.fresh]⟩
  · simp [Call.OnKeys, Nonzero]

end LazyfreeCache.Slots
