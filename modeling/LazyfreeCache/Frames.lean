import LazyfreeCache.Fallthrough

/-!
What the events of one key leave alone for another key. If key `k` answers with
a live page after some events that acted for other keys, it answered with the
same page before them and the page has the same content. The converse needs the
causes of loss: the page was reclaimed, its slot dropped, or a chunk with an
entry for `k` evicted.
-/
namespace LazyfreeCache.Frames

open EventReplay State Reads Refinement Allocation Writes Fallthrough

/-- Key `k` can be read from the page of slot `d`. -/
def Readable (s : Core) (k : Key) (d : EntryDescriptor) : Prop :=
  s.cache.Mapped k d ∧ Alive s d

/-- The page of slot `d` has the same content in both states. -/
def SameContent (s t : Core) (d : EntryDescriptor) : Prop :=
  (t.mem d).byte = (s.mem d).byte ∧ t.cache.bit d = s.cache.bit d

theorem SameContent.trans {s t u : Core} {d : EntryDescriptor} (h : SameContent s t d)
    (h' : SameContent t u d) : SameContent s u d :=
  ⟨h'.1.trans h.1, h'.2.trans h.2⟩

theorem SameContent.logical {s t : Core} {d : EntryDescriptor} (h : SameContent s t d)
    (offset : ℕ) : logical t d offset = logical s d offset := by
  have hbit : Bitset.bitsetGet (t.cache.chunks d.chunk).bit0 d.index =
      Bitset.bitsetGet (s.cache.chunks d.chunk).bit0 d.index := h.2
  unfold Reads.logical LazyfreeOps.bitToTail Page.tail
  rw [h.1, hbit]

theorem SameContent.alive {s t : Core} {d : EntryDescriptor} (h : SameContent s t d) :
    Alive t d ↔ Alive s d := by
  unfold Alive Page.tail
  rw [h.1]

/-- The event acts for the key in the slot it writes to. -/
def ActsFor (key : Key) (s : Core) : Event → Prop
  | .stored d _ _ => s.cache.label d = key
  | .committed w _ => s.cache.label w.slot = key
  | .allocated _ k => k = key
  | .upgraded _ w => w.key = key
  | .dropped _ k => k = key
  | _ => True

/-- The event writes to no slot of key `k`. -/
def Foreign (k : Key) (s : Core) : Event → Prop
  | .stored d _ _ => s.cache.label d ≠ k
  | .committed w _ => s.cache.label w.slot ≠ k
  | .allocated _ key => key ≠ k
  | _ => True

theorem ActsFor.foreign {key k : Key} {s : Core} {e : Event} (h : ActsFor key s e)
    (hne : key ≠ k) : Foreign k s e := by
  cases e with
  | stored d offset v => exact fun hk => hne (h.symm.trans hk)
  | committed w bit => exact fun hk => hne (h.symm.trans hk)
  | allocated d k' => exact fun hk => hne (h.symm.trans hk)
  | _ => trivial

/-- The event leaves slot `d` alone: its key, its side bit and its page. -/
def Spares (d : EntryDescriptor) : Event → Prop
  | .reclaimed p => p ≠ d
  | .stored p _ _ => p ≠ d
  | .evicted c => c ≠ d.chunk
  | .allocated p _ => p ≠ d
  | .committed w _ => w.slot ≠ d
  | .dropped p _ => p ≠ d
  | _ => True

/-- The event keeps what the map says about key `k`. -/
def KeepsEntry (k : Key) (s : Core) : Event → Prop
  | .evicted c => k = 0 ∨ ∀ i < s.cache.len c, s.cache.label ⟨i, c⟩ ≠ k
  | .allocated _ key => key ≠ k
  | .dropped p _ => k = 0 ∨ s.cache.label p ≠ k
  | _ => True

theorem dontneed_of_alive {impl : MmapImpl} {p : Page} (h : (dontneed impl p).tail ≠ 0) :
    dontneed impl p = p := by
  cases impl with
  | anon => exact absurd rfl h
  | file => rfl

theorem byte_madvised (impl : MadvImpl) (p : Page) : (madvised impl p).byte = p.byte := by
  cases impl <;> rfl

theorem label_of_spares {s : Core} {e : Event} {d : EntryDescriptor} (h : Spares d e) :
    (s.apply e).cache.label d = s.cache.label d := by
  cases e with
  | evicted c =>
    simp only [Core.cache_apply, Cache.step, Cache.label_evict]
    rw [if_neg (fun hc => h hc.1.symm)]
  | allocated p key =>
    simp only [Core.cache_apply, Cache.step, Cache.label_allocate]
    rw [if_neg (Ne.symm h)]
  | committed w bit => exact Cache.label_commit _ _ _ _
  | dropped p key =>
    simp only [Core.cache_apply, Cache.step, Cache.label_drop]
    rw [if_neg (Ne.symm h)]
  | _ => rfl

theorem sameContent_of_spares {s : Core} {e : Event} {d : EntryDescriptor} (h : Spares d e) :
    SameContent s (s.apply e) d := by
  cases e with
  | reclaimed p =>
    refine ⟨?_, rfl⟩
    simp only [Core.mem_apply, Core.memStep, Function.update_of_ne (Ne.symm h)]
  | stored p offset v =>
    refine ⟨?_, rfl⟩
    simp only [Core.mem_apply, Core.memStep, Function.update_of_ne (Ne.symm h)]
  | evicted c =>
    refine ⟨?_, Cache.bit_evict _ _ _⟩
    simp only [Core.mem_apply, Core.memStep, if_neg (Ne.symm h)]
  | advised c =>
    refine ⟨?_, rfl⟩
    simp only [Core.mem_apply, Core.memStep]
    split
    · exact byte_madvised _ _
    · rfl
  | allocated p key => exact ⟨rfl, Cache.bit_allocate _ _ _ _⟩
  | committed w bit =>
    refine ⟨rfl, ?_⟩
    simp only [Core.cache_apply, Cache.step, Cache.bit_commit]
    rw [if_neg (Ne.symm h)]
  | dropped p key => exact ⟨rfl, Cache.bit_drop _ _ _⟩
  | refill key => exact ⟨rfl, rfl⟩
  | upgraded p w => exact ⟨rfl, rfl⟩

theorem hmapGet_of_keeps {s : Core} {e : Event} {k : Key} (h : KeepsEntry k s e) :
    (s.apply e).cache.hmapGet k = s.cache.hmapGet k := by
  cases e with
  | evicted c =>
    simp only [Core.cache_apply, Cache.step, Cache.hmapGet_evict]
    rw [if_neg]
    rintro ⟨hk, i, hi, hlabel⟩
    exact h.elim hk fun hne => hne i hi hlabel
  | allocated p key =>
    simp only [Core.cache_apply, Cache.step, Cache.hmapGet_allocate]
    rw [if_neg (Ne.symm h)]
  | committed w bit => rfl
  | dropped p key =>
    simp only [Core.cache_apply, Cache.step, Cache.hmapGet_drop]
    rw [if_neg]
    rintro ⟨hk, hlabel⟩
    exact h.elim hk fun hne => hne hlabel.symm
  | _ => rfl

theorem spares_replay {s : Core} {es : List Event} {d : EntryDescriptor}
    (h : ∀ e ∈ es, Spares d e) :
    (replay Core.apply s es).cache.label d = s.cache.label d ∧
      SameContent s (replay Core.apply s es) d := by
  induction es generalizing s with
  | nil => exact ⟨rfl, rfl, rfl⟩
  | cons e es ih =>
    have he := h e List.mem_cons_self
    obtain ⟨hlabel, hsame⟩ := ih (s := s.apply e) fun f hf => h f (List.mem_cons_of_mem e hf)
    exact ⟨hlabel.trans (label_of_spares he), (sameContent_of_spares he).trans hsame⟩

theorem keeps_replay {s : Core} {es : List Event} {k : Key}
    (h : Along Core.apply (KeepsEntry k) s es) :
    (replay Core.apply s es).cache.hmapGet k = s.cache.hmapGet k := by
  induction es generalizing s with
  | nil => rfl
  | cons e es ih => exact (ih h.2).trans (hmapGet_of_keeps h.1)

/-- The event does not give slot `d` another key. -/
def KeepsLabel (d : EntryDescriptor) : Event → Prop
  | .evicted c => c ≠ d.chunk
  | .allocated p _ => p ≠ d
  | .dropped p _ => p ≠ d
  | _ => True

theorem label_of_keeps {s : Core} {e : Event} {d : EntryDescriptor} (h : KeepsLabel d e) :
    (s.apply e).cache.label d = s.cache.label d := by
  cases e with
  | evicted c => exact label_of_spares (e := .evicted c) h
  | allocated p key => exact label_of_spares (e := .allocated p key) h
  | dropped p key => exact label_of_spares (e := .dropped p key) h
  | committed w bit => exact Cache.label_commit _ _ _ _
  | _ => rfl

theorem label_replay {s : Core} {es : List Event} {d : EntryDescriptor}
    (h : ∀ e ∈ es, KeepsLabel d e) :
    (replay Core.apply s es).cache.label d = s.cache.label d :=
  replay_frame (fun s : Core => s.cache.label d) (KeepsLabel d)
    (fun _ _ he => label_of_keeps he) es h

/-- An event that acts for another key and keeps the slot's key spares the slot, unless
the kernel takes its page. -/
theorem ActsFor.spares {key : Key} {s : Core} {e : Event} {d : EntryDescriptor}
    (h : ActsFor key s e) (hkeeps : KeepsLabel d e) (hlabel : s.cache.label d ≠ key) :
    e = .reclaimed d ∨ Spares d e := by
  cases e with
  | reclaimed p =>
    by_cases hp : p = d
    · exact .inl (by rw [hp])
    · exact .inr hp
  | stored p offset v => exact .inr fun hp => hlabel (hp ▸ h)
  | committed w bit => exact .inr fun hp => hlabel (hp ▸ h)
  | evicted c => exact .inr hkeeps
  | allocated p k => exact .inr hkeeps
  | dropped p k => exact .inr hkeeps
  | refill k => exact .inr trivial
  | advised c => exact .inr trivial
  | upgraded p w => exact .inr trivial

theorem spares_of_acts {key : Key} {s : Core} {es : List Event} {d : EntryDescriptor}
    (h : Along Core.apply (ActsFor key) s es) (hkeeps : ∀ e ∈ es, KeepsLabel d e)
    (hlabel : s.cache.label d ≠ key) : ∀ e ∈ es, e = .reclaimed d ∨ Spares d e := by
  induction es generalizing s with
  | nil => simp
  | cons e es ih =>
    have he := hkeeps e List.mem_cons_self
    intro f hf
    rcases List.mem_cons.mp hf with rfl | hf
    · exact h.1.spares he hlabel
    · exact ih h.2 (fun g hg => hkeeps g (List.mem_cons_of_mem e hg))
        (by rw [label_of_keeps he]; exact hlabel) f hf

/-- A page that is alive after events that spare it was not reclaimed by them. -/
theorem sameContent_of_alive {s : Core} {es : List Event} {d : EntryDescriptor}
    (h : ∀ e ∈ es, e = .reclaimed d ∨ Spares d e) (halive : Alive (replay Core.apply s es) d) :
    Alive s d ∧ SameContent s (replay Core.apply s es) d := by
  induction es generalizing s with
  | nil => exact ⟨halive, rfl, rfl⟩
  | cons e es ih =>
    obtain ⟨hnext, hsame⟩ := ih (s := s.apply e)
      (fun f hf => h f (List.mem_cons_of_mem e hf)) halive
    have hstep : SameContent s (s.apply e) d := by
      rcases h e List.mem_cons_self with rfl | hspares
      · have hmem : (s.apply (.reclaimed d)).mem d = (s.mem d).reclaim := Function.update_self _ _ _
        unfold Alive at hnext
        rw [hmem] at hnext
        exact ⟨by rw [hmem, not_alive_reclaim hnext], rfl⟩
      · exact sameContent_of_spares hspares
    exact ⟨hstep.alive.mp hnext, hstep.trans hsame⟩

/-- Events that act for another key give key `k` no new entry. -/
theorem hmapGet_before {key k : Key} {s : Core} {es : List Event} {d : EntryDescriptor}
    (h : Along Core.apply (ActsFor key) s es) (hk : k ≠ key)
    (hmap : (replay Core.apply s es).cache.hmapGet k = some d) : s.cache.hmapGet k = some d := by
  induction es generalizing s with
  | nil => exact hmap
  | cons e es ih =>
    have hnext := ih h.2 hmap
    cases e with
    | evicted c =>
      simp only [Core.cache_apply, Cache.step, Cache.hmapGet_evict] at hnext
      split at hnext
      · cases hnext
      · exact hnext
    | allocated p key' =>
      have hkey : key' = key := h.1
      simp only [Core.cache_apply, Cache.step, Cache.hmapGet_allocate, hkey, if_neg hk] at hnext
      exact hnext
    | dropped p key' =>
      simp only [Core.cache_apply, Cache.step, Cache.hmapGet_drop] at hnext
      split at hnext
      · cases hnext
      · exact hnext
    | _ => exact hnext

/-- Only a store changes a page that is alive afterwards. -/
theorem byte_apply {s : Core} {e : Event} {d : EntryDescriptor}
    (hstore : ∀ offset v, e ≠ .stored d offset v) (halive : Alive (s.apply e) d) :
    ((s.apply e).mem d).byte = (s.mem d).byte := by
  unfold Alive at halive
  rw [Core.mem_apply] at halive ⊢
  cases e with
  | reclaimed p =>
    simp only [Core.memStep, Function.update_apply] at halive ⊢
    split at halive
    · rename_i hdp
      subst hdp
      rw [if_pos rfl, not_alive_reclaim halive]
    · rename_i hdp
      rw [if_neg hdp]
  | stored p offset v =>
    have hdp : d ≠ p := fun h => hstore offset v (by rw [h])
    simp only [Core.memStep, Function.update_of_ne hdp]
  | evicted c =>
    simp only [Core.memStep] at halive ⊢
    split at halive
    · rename_i hc
      rw [if_pos hc, dontneed_of_alive halive]
    · rename_i hc
      rw [if_neg hc]
  | advised c =>
    simp only [Core.memStep]
    split
    · exact byte_madvised _ _
    · rfl
  | _ => rfl

/-- One foreign event back. -/
theorem readable_before {k : Key} (hk : k ≠ 0) {s : Core} {e : Event} (hforeign : Foreign k s e)
    {d : EntryDescriptor} (h : Readable (s.apply e) k d) :
    Readable s k d ∧ SameContent s (s.apply e) d := by
  obtain ⟨⟨hmap, hlabel⟩, halive⟩ := h
  simp only [Core.cache_apply] at hmap hlabel
  have hsame : s.cache.Mapped k d ∧ (s.apply e).cache.bit d = s.cache.bit d := by
    cases e with
    | evicted c =>
      simp only [Cache.step, Cache.hmapGet_evict, Cache.label_evict] at hmap hlabel
      split at hmap
      · cases hmap
      · split at hlabel
        · exact absurd hlabel.symm hk
        · exact ⟨⟨hmap, hlabel⟩, Cache.bit_evict _ _ _⟩
    | allocated p key =>
      have hkey : k ≠ key := Ne.symm hforeign
      simp only [Cache.step, Cache.hmapGet_allocate, Cache.label_allocate, if_neg hkey]
        at hmap hlabel
      split at hlabel
      · exact absurd hlabel.symm hkey
      · exact ⟨⟨hmap, hlabel⟩, Cache.bit_allocate _ _ _ _⟩
    | committed w bit =>
      simp only [Cache.step, Cache.hmapGet_commit, Cache.label_commit] at hmap hlabel
      have hslot : d ≠ w.slot := fun h => hforeign (h ▸ hlabel)
      exact ⟨⟨hmap, hlabel⟩, by simp [Cache.step, Cache.bit_commit, hslot]⟩
    | dropped p key =>
      simp only [Cache.step, Cache.hmapGet_drop, Cache.label_drop] at hmap hlabel
      split at hmap
      · cases hmap
      · split at hlabel
        · exact absurd hlabel.symm hk
        · exact ⟨⟨hmap, hlabel⟩, Cache.bit_drop _ _ _⟩
    | refill key => exact ⟨⟨hmap, hlabel⟩, rfl⟩
    | reclaimed p => exact ⟨⟨hmap, hlabel⟩, rfl⟩
    | stored p offset v => exact ⟨⟨hmap, hlabel⟩, rfl⟩
    | advised c => exact ⟨⟨hmap, hlabel⟩, rfl⟩
    | upgraded p w => exact ⟨⟨hmap, hlabel⟩, rfl⟩
  have hpage : ((s.apply e).mem d).byte = (s.mem d).byte := by
    refine byte_apply (fun offset v he => ?_) halive
    subst he
    exact hforeign hsame.1.2
  have hcontent : SameContent s (s.apply e) d := ⟨hpage, hsame.2⟩
  exact ⟨⟨hsame.1, hcontent.alive.mp halive⟩, hcontent⟩

/-- Any number of foreign events back. -/
theorem readable_before_replay {k : Key} (hk : k ≠ 0) {s : Core} {es : List Event}
    (hforeign : Along Core.apply (Foreign k) s es) {d : EntryDescriptor}
    (h : Readable (replay Core.apply s es) k d) :
    Readable s k d ∧ SameContent s (replay Core.apply s es) d := by
  induction es generalizing s with
  | nil => exact ⟨h, rfl, rfl⟩
  | cons e es ih =>
    obtain ⟨hread, hsame⟩ := ih hforeign.2 h
    obtain ⟨hread', hsame'⟩ := readable_before hk hforeign.1 hread
    exact ⟨hread', hsame'.trans hsame⟩

end LazyfreeCache.Frames
