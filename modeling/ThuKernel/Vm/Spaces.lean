-- Several address spaces in one memory: each page of the allocator is free, or
-- belongs to one of them, or is kept for something else.
import ThuKernel.Vm.Space

namespace ThuKernel

/-- The address spaces with the roots `R`. The pages `X` are kept for other
uses. -/
structure Spaces (lk : Link) (s : Mm) (R : Nat → Prop) (l : List Nat) (X : Nat → Prop) : Prop where
  free : FreeList lk s l
  space : ∀ r, R r → AddrSpace lk s r l []
  apart : ∀ r r' a, R r → R r' → Owns lk s.mem r a → Owns lk s.mem r' a → r = r'
  kept : ∀ a, X a → IsFrame lk a ∧ a ∉ l ∧ ∀ r, R r → ¬ Owns lk s.mem r a

/-- The page tables of the other address spaces are as before. -/
def OthersSame (R : Nat → Prop) (r : Nat) (s s' : Mm) : Prop :=
  ∀ r', R r' → r' ≠ r → SameTables r' s s' ∧ SamePtes r' s s'

/-- The page tables of all address spaces are as before. -/
def AllSame (R : Nat → Prop) (s s' : Mm) : Prop := ∀ p, R p → SameTables p s s' ∧ SamePtes p s s'

/-- The same pages are free before and after. -/
def SamePages (l l' : List Nat) : Prop := ∀ a, a ∈ l' ↔ a ∈ l

variable {lk : Link} {E : Stop → Prop} {s s₁ s₂ : Mm} {r r' a pa perm v n q : Nat}
variable {R R' X X' keep : Nat → Prop} {l l₁ l₂ hand hand₁ : List Nat}

theorem SameTables.owns (h : SameTables r s s₁) (h' : SamePtes r s s₁) (a : Nat) :
    Owns lk s₁.mem r a ↔ Owns lk s.mem r a := by
  unfold Owns
  rw [h.tableOf a]
  simp only [h'.mapsTo]

theorem SameTables.refl : SameTables r s s := ⟨fun _ _ _ _ => rfl, fun h => h⟩

theorem OthersSame.refl : OthersSame R r s s := fun _ _ _ => ⟨SameTables.refl, fun _ _ => rfl⟩

theorem OthersSame.trans (h : OthersSame R r s s₁) (h' : OthersSame R r s₁ s₂) :
    OthersSame R r s s₂ := by
  intro r' hr hne
  obtain ⟨h1, h2⟩ := h r' hr hne
  obtain ⟨h3, h4⟩ := h' r' hr hne
  refine ⟨h1.trans h3, fun q hq => ?_⟩
  rw [h4 q hq, h2 q hq]

theorem AllSame.trans (h : AllSame R s s₁) (h' : AllSame R s₁ s₂) : AllSame R s s₂ := by
  intro p hp
  obtain ⟨h1, h2⟩ := h p hp
  obtain ⟨h3, h4⟩ := h' p hp
  refine ⟨h1.trans h3, fun q hq => ?_⟩
  rw [h4 q hq, h2 q hq]

theorem OthersSame.all (h : OthersSame (fun p => R p ∨ p = r) r s s₁) (hr : ¬ R r) :
    AllSame R s s₁ := by
  intro p hp
  apply h p (Or.inl hp)
  rintro rfl
  exact hr hp

namespace Spaces

/-- The kept pages of `hand` are in use by the code that works on one address
space. -/
theorem focus (hs : Spaces lk s R l X) (hr : R r) (hX : ∀ a ∈ hand, X a) (hnodup : hand.Nodup) :
    AddrSpace lk s r l hand := by
  have h := hs.space r hr
  refine ⟨h.space, h.walkable, h.tables, h.unmixed, h.unfree, h.unshared, fun a ha => ?_, hnodup⟩
  obtain ⟨h1, h2, h3⟩ := hs.kept a (hX a ha)
  exact ⟨h1, h2, h3 r hr⟩

/-- A page of another address space takes no part. -/
theorem not_has (hs : Spaces lk s R l X) (hr : R r) (hr' : R r') (hne : r' ≠ r)
    (hX : ∀ a ∈ hand, X a) (ha : Owns lk s.mem r' a) : ¬ Has lk s r l hand a := by
  rintro (hc | hc | hc)
  · exact (hs.space r' hr').unowned hc ha
  · exact hne (hs.apart r' r a hr' hr ha hc)
  · exact (hs.kept a (hX a hc)).2.2 r' hr' ha

/-- A step of the code that works on one address space. -/
theorem step (hs : Spaces lk s R l X) (hr : R r) (hX : ∀ a ∈ hand, X a)
    (h : AddrSpace lk s₁ r l₁ hand₁) (hm : Moved lk r s l hand s₁ l₁ hand₁) :
    Spaces lk s₁ R l₁ (fun a => (X a ∧ a ∉ hand) ∨ a ∈ hand₁) ∧ OthersSame R r s s₁ := by
  have hother : ∀ r', R r' → r' ≠ r → AddrSpace lk s₁ r' l₁ [] ∧
      (∀ a, Owns lk s₁.mem r' a ↔ Owns lk s.mem r' a) ∧ SameTables r' s s₁ ∧ SamePtes r' s s₁ := by
    intro r' hr' hne
    refine (hs.space r' hr').frame hm.same (fun a ha => ?_) h.space.free (fun a ha hc => ?_)
      (fun a ha => by cases ha) List.nodup_nil
    · exact hs.not_has hr hr' hne hX (Or.inl ha)
    · exact hs.not_has hr hr' hne hX hc ((hm.pages a).mp (Or.inl ha))
  have hhas : ∀ r' a, R r' → Owns lk s₁.mem r' a → r' = r ∨ Owns lk s.mem r' a := by
    intro r' a hr' ha
    by_cases hne : r' = r
    · exact Or.inl hne
    · exact Or.inr (((hother r' hr' hne).2.1 a).mp ha)
  have hnot : ∀ r' a, R r' → r' ≠ r → Owns lk s₁.mem r' a → ¬ Has lk s r l hand a := by
    intro r' a hr' hne ha
    exact hs.not_has hr hr' hne hX (((hother r' hr' hne).2.1 a).mp ha)
  refine ⟨⟨h.space.free, fun r' hr' => ?_, fun r' r'' a hr' hr'' ha ha' => ?_, fun a ha => ?_⟩,
    fun r' hr' hne => (hother r' hr' hne).2.2⟩
  · by_cases hne : r' = r
    · subst hne
      exact ⟨h.space, h.walkable, h.tables, h.unmixed, h.unfree, h.unshared,
        fun a ha => (by cases ha), List.nodup_nil⟩
    · exact (hother r' hr' hne).1
  · by_cases hne : r' = r
    · subst hne
      by_contra hne'
      exact hnot r'' a hr'' (Ne.symm hne') ha' ((hm.pages a).mp (Or.inr (Or.inl ha)))
    · by_cases hne' : r'' = r
      · subst hne'
        exact absurd ((hm.pages a).mp (Or.inr (Or.inl ha'))) (hnot r' a hr' hne ha)
      · exact hs.apart r' r'' a hr' hr'' (((hother r' hr' hne).2.1 a).mp ha)
          (((hother r'' hr'' hne').2.1 a).mp ha')
  · rcases ha with ⟨ha, hno⟩ | ha
    · obtain ⟨h1, h2, h3⟩ := hs.kept a ha
      have hout : ¬ Has lk s r l hand a := by
        rintro (hc | hc | hc)
        · exact h2 hc
        · exact h3 r hr hc
        · exact hno hc
      refine ⟨h1, fun hc => hout ((hm.pages a).mp (Or.inl hc)), fun r' hr' hc => ?_⟩
      rcases hhas r' a hr' hc with rfl | hc'
      · exact hout ((hm.pages a).mp (Or.inr (Or.inl hc)))
      · exact h3 r' hr' hc'
    · obtain ⟨h1, h2, h3⟩ := h.handOk a ha
      refine ⟨h1, h2, fun r' hr' hc => ?_⟩
      by_cases hne : r' = r
      · subst hne
        exact h3 hc
      · exact hnot r' a hr' hne hc ((hm.pages a).mp (Or.inr (Or.inr ha)))

/-- The same address spaces and kept pages under other names. -/
theorem congr (hs : Spaces lk s R l X) (hR : ∀ r, R' r → R r) (hX : ∀ a, X' a → X a) :
    Spaces lk s R' l X' := by
  refine ⟨hs.free, fun r hr => hs.space r (hR r hr), fun r r' a hr hr' => ?_, fun a ha => ?_⟩
  · exact hs.apart r r' a (hR r hr) (hR r' hr')
  · obtain ⟨h1, h2, h3⟩ := hs.kept a (hX a ha)
    exact ⟨h1, h2, fun r hr => h3 r (hR r hr)⟩

/-- A change outside the tables: of the free list, of the kept pages, and of
the contents of other pages. -/
theorem frame (hs : Spaces lk s R l X) (hsame : SameOn PGSIZE keep s.mem s₁.mem)
    (hkeep : ∀ r a, R r → TableOf s.mem r a → keep a) (hfree : FreeList lk s₁ l₁)
    (hl : ∀ a ∈ l₁, ∀ r, R r → ¬ Owns lk s.mem r a)
    (hX : ∀ a, X' a → IsFrame lk a ∧ a ∉ l₁ ∧ ∀ r, R r → ¬ Owns lk s.mem r a) :
    Spaces lk s₁ R l₁ X' ∧ AllSame R s s₁ := by
  have hall : ∀ r, R r → AddrSpace lk s₁ r l₁ [] ∧
      (∀ a, Owns lk s₁.mem r a ↔ Owns lk s.mem r a) ∧ SameTables r s s₁ ∧ SamePtes r s s₁ :=
    fun r hr => (hs.space r hr).frame hsame (fun a ha => hkeep r a hr ha) hfree
      (fun a ha => hl a ha r hr) (fun a ha => by cases ha) List.nodup_nil
  refine ⟨⟨hfree, fun r hr => (hall r hr).1, fun r r' a hr hr' ha ha' => ?_, fun a ha => ?_⟩,
    fun r hr => (hall r hr).2.2⟩
  · exact hs.apart r r' a hr hr' (((hall r hr).2.1 a).mp ha) (((hall r' hr').2.1 a).mp ha')
  · obtain ⟨h1, h2, h3⟩ := hX a ha
    exact ⟨h1, h2, fun r hr hc => h3 r hr (((hall r hr).2.1 a).mp hc)⟩

/-- The contents of a page that is no table and not free change. -/
theorem write (hs : Spaces lk s R l X) {mem : Bytes} (hsame : SameOn PGSIZE (· ≠ pa) s.mem mem)
    (htable : ∀ r, R r → ¬ TableOf s.mem r pa) (hl : pa ∉ l) :
    Spaces lk { s with mem := mem } R l X ∧ AllSame R s { s with mem := mem } := by
  have hfree : FreeList lk { s with mem := mem } l := hs.free.same (fun a ha => by
    rintro rfl
    exact hl ha) hsame rfl
  refine hs.frame hsame (fun r a hr ha => ?_) hfree (fun a ha r hr => (hs.space r hr).unowned ha)
    hs.kept
  rintro rfl
  exact htable r hr ha

/-- A free page becomes a kept one. -/
theorem kalloc_runs (hs : Spaces lk s R l X) :
    Runs E kalloc s (fun r s' => (l = [] ∧ r = 0 ∧ s' = s) ∨ (r ≠ 0 ∧ ∃ l', l = r :: l' ∧
      Spaces lk s' R l' (fun a => X a ∨ a = r) ∧ AllSame R s s' ∧
      SameOn PGSIZE (· ≠ r) s.mem s'.mem ∧ r ∉ l' ∧ ¬ X r ∧ ∀ p, R p → ¬ Owns lk s.mem p r)) := by
  apply (ThuKernel.kalloc_runs hs.free).imp
  rintro r s' (h | ⟨l', hl, hfree, hsame⟩)
  · exact Or.inl h
  · have hr : r ∈ l := by
      rw [hl]
      exact List.mem_cons_self ..
    have hsub : ∀ a ∈ l', a ∈ l := fun a ha => by
      rw [hl]
      exact List.mem_cons_of_mem _ ha
    have hnew : r ∉ l' := by
      have := hs.free.nodup
      rw [hl] at this
      exact (List.nodup_cons.mp this).1
    have hframe := hs.free.frames r hr
    have hun : ∀ p, R p → ¬ Owns lk s.mem p r := fun p hp => (hs.space p hp).unowned hr
    have hkept : ∀ a, X a ∨ a = r → IsFrame lk a ∧ a ∉ l' ∧ ∀ p, R p → ¬ Owns lk s.mem p a := by
      rintro a (ha | rfl)
      · obtain ⟨h1, h2, h3⟩ := hs.kept a ha
        exact ⟨h1, fun hc => h2 (hsub a hc), h3⟩
      · exact ⟨hframe, hnew, hun⟩
    have hkeep : ∀ p a, R p → TableOf s.mem p a → a ≠ r := by
      rintro p a hp ha rfl
      exact hun p hp (Or.inl ha)
    obtain ⟨h1, h2⟩ := hs.frame hsame hkeep hfree
      (fun a ha p hp => (hs.space p hp).unowned (hsub a ha)) hkept
    exact Or.inr ⟨hframe.ne_zero, l', hl, h1, h2, hsame, hnew, fun hX => (hs.kept r hX).2.1 hr, hun⟩

/-- A kept page becomes a free one. -/
theorem kfree_runs (hs : Spaces lk s R l X) (hX : X pa) :
    Runs E (kfree lk pa) s (fun _ s' => Spaces lk s' R (pa :: l) (fun a => X a ∧ a ≠ pa) ∧
      AllSame R s s' ∧ SameOn PGSIZE (· ≠ pa) s.mem s'.mem) := by
  obtain ⟨hframe, hl, hno⟩ := hs.kept pa hX
  apply (ThuKernel.kfree_runs hs.free fun _ => hl).mono
  · intro e he
    exact absurd hframe he
  · rintro _ s' ⟨_, hfree, hsame⟩
    have hkeep : ∀ p a, R p → TableOf s.mem p a → a ≠ pa := by
      rintro p a hp ha rfl
      exact hno p hp (Or.inl ha)
    have hun : ∀ a ∈ pa :: l, ∀ p, R p → ¬ Owns lk s.mem p a := by
      intro a ha p hp
      rcases List.mem_cons.mp ha with rfl | ha
      · exact hno p hp
      · exact (hs.space p hp).unowned ha
    have hkept : ∀ a, X a ∧ a ≠ pa → IsFrame lk a ∧ a ∉ pa :: l ∧ ∀ p, R p →
        ¬ Owns lk s.mem p a := by
      rintro a ⟨ha, hne⟩
      obtain ⟨h1, h2, h3⟩ := hs.kept a ha
      refine ⟨h1, fun hc => ?_, h3⟩
      rcases List.mem_cons.mp hc with hc | hc
      · exact hne hc
      · exact h2 hc
    obtain ⟨h1, h2⟩ := hs.frame hsame hkeep hfree hun hkept
    exact ⟨h1, h2, hsame⟩

end Spaces

/-! ## New and freed address spaces -/

theorem Empty.not_mapped (he : Empty s.mem r) (q : Nat) : ¬ IsMapped s.mem r q := by
  unfold IsMapped
  rw [he.pteAt, Nat.zero_testBit]
  decide

theorem Empty.owns (he : Empty s.mem r) (a : Nat) : Owns lk s.mem r a ↔ a = r := by
  unfold Owns
  rw [he.tableOf a]
  constructor
  · rintro (ha | ⟨q, ha⟩)
    · exact ha
    · exact absurd ha.mapped (he.not_mapped q)
  · exact Or.inl

/-- An empty table is an address space. -/
theorem Empty.addrSpace (he : Empty s.mem r) (hfree : FreeList lk s l) (hr : IsFrame lk r)
    (hl : r ∉ l) :
    AddrSpace lk s r l [] := by
  have hno : ∀ q a, ¬ MapsTo lk s.mem r q a := fun q a ha => he.not_mapped q ha.mapped
  refine ⟨⟨hfree, he.pageTable, fun a ha hta => ?_⟩,
    ⟨he.pageTable, he.plain, fun q _ hm => absurd hm (he.not_mapped q)⟩, fun a ha => ?_,
    fun q a ha => absurd ha (hno q a), fun q a ha => absurd ha (hno q a),
    fun q _ a ha => absurd ha (hno q a), fun a ha => (by cases ha), List.nodup_nil⟩
  · rw [he.tableOf a] at hta
    subst hta
    exact hl ha
  · rw [he.tableOf a] at ha
    subst ha
    exact hr

namespace Spaces

theorem uvmcreate_runs (hs : Spaces lk s R l X) :
    Runs E uvmcreate s (fun r s' => (l = [] ∧ r = 0 ∧ s' = s) ∨ (r ≠ 0 ∧ ∃ l', l = r :: l' ∧
      Spaces lk s' (fun p => R p ∨ p = r) l' X ∧ Empty s'.mem r ∧ ¬ R r ∧
      AllSame R s s' ∧ SameOn PGSIZE (· ≠ r) s.mem s'.mem)) := by
  unfold uvmcreate
  apply (hs.kalloc_runs).bind
  rintro r s₁ (⟨hl, rfl, rfl⟩ | ⟨hr, l', hl, h₁, hsame₁, hmem₁, hnew, hX, hun⟩)
  · rw [if_pos rfl, Runs.pure_iff]
    exact Or.inl ⟨hl, rfl, rfl⟩
  · rw [if_neg hr, Runs.bind_iff, memset, Runs.modify_iff, Runs.pure_iff]
    obtain ⟨hframe, hnew₁, hun₁⟩ := h₁.kept r (Or.inr rfl)
    have hfill : SameOn PGSIZE (· ≠ r) s₁.mem (s₁.mem.fill r PGSIZE 0) :=
      SameOn.fill hframe.aligned (Nat.le_refl _)
    obtain ⟨h₂, hsame₂⟩ := h₁.write hfill (fun p hp hc => hun₁ p hp (Or.inl hc)) hnew₁
    have hempty : Empty (s₁.mem.fill r PGSIZE 0) r := by
      refine ⟨hframe.isPage, fun i hi => ?_⟩
      exact get64_fill_zero (by simp only [PGSIZE_eq]; omega)
    have hspace : AddrSpace lk { s₁ with mem := s₁.mem.fill r PGSIZE 0 } r l' [] :=
      Empty.addrSpace hempty h₂.free hframe hnew
    have hnR : ¬ R r := fun hc => hun r hc (Or.inl (tableOf_root _ _))
    have howns : ∀ a, Owns lk (s₁.mem.fill r PGSIZE 0) r a ↔ a = r :=
      fun a => Empty.owns (s := { s₁ with mem := s₁.mem.fill r PGSIZE 0 }) hempty a
    have hkept₂ := h₂.kept r (Or.inr rfl)
    refine Or.inr ⟨hr, l', hl, ⟨h₂.free, ?_, ?_, ?_⟩, hempty, hnR, hsame₁.trans hsame₂,
      hmem₁.trans hfill⟩
    · rintro p (hp | rfl)
      · exact h₂.space p hp
      · exact hspace
    · rintro p p' a (hp | rfl) (hp' | rfl) ha ha'
      · exact h₂.apart p p' a hp hp' ha ha'
      · rw [howns a] at ha'
        subst ha'
        exact absurd ha (hkept₂.2.2 p hp)
      · rw [howns a] at ha
        subst ha
        exact absurd ha' (hkept₂.2.2 p' hp')
      · rfl
    · intro a ha
      obtain ⟨h1, h2, h3⟩ := h₂.kept a (Or.inl ha)
      refine ⟨h1, h2, ?_⟩
      rintro p (hp | rfl) hc
      · exact h3 p hp hc
      · rw [howns a] at hc
        subst hc
        exact hX ha

/-- An address space is gone. The pages that `gone` does not name are kept. -/
theorem tornDown (hs : Spaces lk s R l X) (hr : R r) {gone : Nat → Prop}
    (hgone : ∀ a, gone a → Owns lk s.mem r a) (h : TornDown lk r gone s l s₁ l₁) :
    Spaces lk s₁ (fun p => R p ∧ p ≠ r) l₁ (fun a => X a ∨ (Owns lk s.mem r a ∧ ¬ gone a)) ∧
      OthersSame R r s s₁ := by
  have hs' : Spaces lk s (fun p => R p ∧ p ≠ r) l X := hs.congr (fun p hp => hp.1) fun a ha => ha
  have hnot : ∀ p a, R p ∧ p ≠ r → Owns lk s.mem p a → a ∉ l ∧ ¬ Owns lk s.mem r a := by
    intro p a hp ha
    refine ⟨fun hc => (hs.space p hp.1).unowned hc ha, fun hc => ?_⟩
    exact hp.2 (hs.apart p r a hp.1 hr ha hc)
  have hl : ∀ a ∈ l₁, a ∈ l ∨ Owns lk s.mem r a := by
    intro a ha
    rcases (h.list a).mp ha with ha | ha
    · exact Or.inl ha
    · exact Or.inr (hgone a ha)
  have hkept : ∀ a, X a ∨ (Owns lk s.mem r a ∧ ¬ gone a) → IsFrame lk a ∧ a ∉ l₁ ∧
      ∀ p, R p ∧ p ≠ r → ¬ Owns lk s.mem p a := by
    rintro a (ha | ⟨ha, hng⟩)
    · obtain ⟨h1, h2, h3⟩ := hs.kept a ha
      refine ⟨h1, fun hc => ?_, fun p hp => h3 p hp.1⟩
      rcases hl a hc with hc | hc
      · exact h2 hc
      · exact h3 r hr hc
    · refine ⟨ha.frame (hs.space r hr), fun hc => ?_, fun p hp hc => (hnot p a hp hc).2 ha⟩
      rcases (h.list a).mp hc with hc | hc
      · exact (hs.space r hr).unowned hc ha
      · exact hng hc
  obtain ⟨h₁, hsame⟩ := hs'.frame h.same (fun p a hp ha => hnot p a hp (Or.inl ha)) h.free
    (fun a ha p hp hc => by
      rcases hl a ha with hl | hl
      · exact (hnot p a hp hc).1 hl
      · exact (hnot p a hp hc).2 hl) hkept
  exact ⟨h₁, fun p hp hne => hsame p ⟨hp, hne⟩⟩

end Spaces

/-! ## Mapping and unmapping in one of several address spaces -/

namespace Spaces

/-- `mappages` of one kept page. -/
theorem mappages_runs (hs : Spaces lk s R l X) (hr : R r) (hpa : X pa) (hv : v < 2 ^ 26)
    (hperm : perm < 1024) (hleaf : perm &&& (PTE_R ||| PTE_W ||| PTE_X) ≠ 0) :
    Runs E (mappages r (v * PGSIZE) PGSIZE pa perm) s (fun ret s' => ∃ l',
      Spaces lk s' R l' (fun a => X a ∧ (ret = 0 → a ≠ pa)) ∧ OthersSame R r s s' ∧
      MapsPage r v (leafPte pa perm) s s' l l' ret ∧
      (∀ a, (a ∈ l' ∨ Owns lk s'.mem r a) ↔ (a ∈ l ∨ Owns lk s.mem r a) ∨ (ret = 0 ∧ a = pa)) ∧
      SameOn PGSIZE (fun a => a ∉ l ∧ ¬ TableOf s.mem r a) s.mem s'.mem) := by
  obtain ⟨hframe, hl, hno⟩ := hs.kept pa hpa
  have hlimit : v * PGSIZE < MAXVA := by
    have := MAXVA_eq
    simp only [PGSIZE_eq]
    omega
  have hhand : ∀ a ∈ [pa], X a := fun a ha => by rwa [List.mem_singleton.mp ha]
  have hsp := hs.focus hr hhand (List.nodup_cons.mpr ⟨List.not_mem_nil, List.nodup_nil⟩)
  have hkept : [pa] = (if IsFrame lk pa then [pa] else []) ++ [] := by
    rw [if_pos hframe]
    rfl
  apply (hsp.mappages_runs rfl hlimit hframe.isPage hperm hleaf hkept).imp
  rintro ret s₁ ⟨l₁, hsp₁, hmoved₁, hmaps₁⟩
  obtain ⟨h₁, hothers₁⟩ := hs.step hr hhand hsp₁ hmoved₁
  have hsame : SameOn PGSIZE (fun a => a ∉ l ∧ ¬ TableOf s.mem r a) s.mem s₁.mem := by
    apply hmaps₁.grows.same.mono
    rintro a ⟨h1, h2⟩ hc
    obtain ⟨new, hl, htables⟩ := hmaps₁.grows.taken
    rcases (htables a).mp hc with hc | hc
    · exact h2 hc
    · apply h1
      rw [hl]
      exact List.mem_append.mpr (Or.inl hc)
  refine ⟨l₁, ?_, hothers₁, hmaps₁, fun a => ?_, hsame⟩
  · refine h₁.congr (fun p hp => hp) fun a ha => ?_
    by_cases hret : ret = 0
    · refine Or.inl ⟨ha.1, ?_⟩
      rw [List.mem_singleton]
      exact ha.2 hret
    · rw [if_neg hret, List.mem_singleton]
      by_cases hne : a = pa
      · exact Or.inr hne
      · exact Or.inl ⟨ha.1, hne⟩
  · have hpages := hmoved₁.pages a
    unfold Has at hpages
    by_cases hret : ret = 0
    · rw [if_pos hret, List.mem_singleton] at hpages
      simp only [List.not_mem_nil, or_false] at hpages
      rw [hpages, or_assoc]
      simp only [hret, true_and]
    · rw [if_neg hret, List.mem_singleton] at hpages
      simp only [hret, false_and, or_false]
      constructor
      · intro ha
        rcases hpages.mp (or_assoc.mp (Or.inl ha)) with h | h | rfl
        · exact Or.inl h
        · exact Or.inr h
        · rcases ha with ha | ha
          · exact absurd ha (hsp₁.handOk a (by rw [if_neg hret]; exact List.mem_cons_self ..)).2.1
          · exact absurd ha (hsp₁.handOk a (by rw [if_neg hret]; exact List.mem_cons_self ..)).2.2
      · intro ha
        rcases hpages.mpr (or_assoc.mp (Or.inl ha)) with h | h | rfl
        · exact Or.inl h
        · exact Or.inr h
        · rcases ha with ha | ha
          · exact absurd ha hl
          · exact absurd ha (hno r hr)

/-- `uvmunmap` of pages that go to the free list. -/
theorem uvmunmap_runs (hs : Spaces lk s R l X) (hr : R r) {va : Nat} (hva : va % PGSIZE = 0)
    (hend : va + n * PGSIZE ≤ MAXVA) :
    Runs (fun _ => ¬ ∀ q, va / PGSIZE ≤ q → q < va / PGSIZE + n → CanUnmap lk s.mem r true q)
      (uvmunmap lk r va n true) s (fun _ s' => ∃ l', Spaces lk s' R l' X ∧ OthersSame R r s s' ∧
        Moved lk r s l [] s' l' [] ∧ Unmaps lk r (va / PGSIZE) n true s s' l l') := by
  have hX : ∀ a ∈ ([] : List Nat), X a := fun a ha => by cases ha
  apply ((hs.space r hr).uvmunmap_runs hva hend).imp
  rintro _ s₁ ⟨l₁, hsp₁, hmoved₁, hun₁⟩
  obtain ⟨h₁, hothers₁⟩ := hs.step hr hX hsp₁ hmoved₁
  exact ⟨l₁, h₁.congr (fun p hp => hp) fun a ha => Or.inl ⟨ha, List.not_mem_nil⟩, hothers₁,
    hmoved₁, hun₁⟩

end Spaces

/-! ## Filling an address space -/

/-- The number of tables above the pages from 0 to `n`, when there are any. -/
def tablesFor (n : Nat) : Nat := (n + 511) / 512 + (n + 262143) / 262144

/-- The pages that take part when `r` is built are the free ones and those of
`r`. -/
theorem moved_nil {l' : List Nat} : Moved lk r s l [] s₁ l' [] ↔
    (∀ a, (a ∈ l' ∨ Owns lk s₁.mem r a) ↔ (a ∈ l ∨ Owns lk s.mem r a)) ∧
      SameOn PGSIZE (fun a => ¬ (a ∈ l ∨ Owns lk s.mem r a)) s.mem s₁.mem := by
  have hhas : ∀ (s : Mm) (l : List Nat) (a : Nat), Has lk s r l [] a ↔
      a ∈ l ∨ Owns lk s.mem r a := by
    intro s l a
    unfold Has
    simp only [List.not_mem_nil, or_false]
  constructor
  · rintro ⟨h1, h2⟩
    simp only [hhas] at h1 h2
    exact ⟨h1, h2⟩
  · rintro ⟨h1, h2⟩
    constructor
    · simp only [hhas]
      exact h1
    · simp only [hhas]
      exact h2

/-- What the code that works on the address space `r` only does: pages go
between the free list and `r`. -/
structure Within (lk : Link) (R X : Nat → Prop) (r : Nat) (s : Mm) (l : List Nat) (s' : Mm)
    (l' : List Nat) : Prop where
  spaces : Spaces lk s' R l' X
  others : OthersSame R r s s'
  moved : Moved lk r s l [] s' l' []

/-- At most `n` pages came from the free list. -/
structure Fills (lk : Link) (R X : Nat → Prop) (r n : Nat) (s : Mm) (l : List Nat) (s' : Mm)
    (l' : List Nat) : Prop extends Within lk R X r s l s' l' where
  count : l.length ≤ l'.length + n

theorem Within.refl (h : Spaces lk s R l X) : Within lk R X r s l s l :=
  ⟨h, OthersSame.refl, Moved.refl⟩

theorem Within.trans {l₂ : List Nat} (h : Within lk R X r s l s₁ l₁)
    (h' : Within lk R X r s₁ l₁ s₂ l₂) :
    Within lk R X r s l s₂ l₂ :=
  ⟨h'.spaces, h.others.trans h'.others, h.moved.trans h'.moved⟩

theorem Fills.trans {m n : Nat} {l₂ : List Nat} (h : Fills lk R X r m s l s₁ l₁)
    (h' : Fills lk R X r n s₁ l₁ s₂ l₂) : Fills lk R X r (m + n) s l s₂ l₂ := by
  refine ⟨h.toWithin.trans h'.toWithin, ?_⟩
  have h1 := h.count
  have h2 := h'.count
  omega

theorem missing_step {mem : Bytes} {v t : Nat}
    (h : t = 0 ∨ (t = tablesFor v ∧ 0 < v ∧ IsMapped mem r (v - 1))) :
    missing mem r v 2 + t ≤ tablesFor (v + 1) := by
  have h2 := missing_le mem r v 2
  unfold tablesFor at *
  rcases h with rfl | ⟨rfl, hv, hm⟩
  · omega
  · by_cases h1 : v / 512 = (v - 1) / 512
    · rw [missing_of_block hm h1]
      omega
    · by_cases h2 : v / 512 / 512 = (v - 1) / 512 / 512
      · have := missing_of_upper hm h2
        omega
      · omega

/-- How many pages it takes to map `n` pages from `v` on, when `t` tables are
there. -/
def fillCost (t v n : Nat) : Nat := if n = 0 then 0 else n + (tablesFor (v + n) - t)

/-! ## A new page -/

/-- A copy of a page changes only its target. -/
theorem sameOn_copy {page : Nat} (pa : Nat) (mem : Bytes) (hpage : page % PGSIZE = 0) :
    SameOn PGSIZE (· ≠ page) mem (mem.store page (mem.load pa PGSIZE)) := by
  have h := SameOn.store (P := PGSIZE) (m := mem) (o := 0) (l := mem.load pa PGSIZE) hpage (by simp)
  exact h

theorem copied_byte (page pa o : Nat) (mem : Bytes) (ho : o < PGSIZE) :
    mem.store page (mem.load pa PGSIZE) (page + o) = mem (pa + o) := by
  rw [Bytes.store_inside (Nat.le_add_right page o) (by simpa using ho)]
  simp [Bytes.load]

/-- Page number `v` of `r` leads to the new page `page`, filled by `fill`. -/
structure AddsPage (lk : Link) (R X : Nat → Prop) (r v page perm m : Nat)
    (fill : Nat → Bytes → Bytes) (s : Mm) (l : List Nat) (s' : Mm)
    (l' : List Nat) : Prop extends Fills lk R X r m s l s' l' where
  frame : IsFrame lk page
  free : page ∈ l
  unmapped : ¬ IsMapped s.mem r v
  ptes : ∀ q < 512 ^ 3, pteAt s'.mem r q = if q = v then leafPte page perm else pteAt s.mem r q
  same : SameOn PGSIZE (fun a => a ∉ l ∧ ¬ TableOf s.mem r a) s.mem s'.mem
  bytes : ∃ mem, SameOn PGSIZE (· ≠ page) s.mem mem ∧
    ∀ o < PGSIZE, s'.mem (page + o) = fill page mem (page + o)
  tables : ∀ a, TableOf s.mem r a → TableOf s'.mem r a

/-- The page number is in use, or there was no page for a table. The new page
is kept. -/
structure NoPage (lk : Link) (R X : Nat → Prop) (r v page m : Nat) (s : Mm) (l : List Nat) (s' : Mm)
    (l' : List Nat) : Prop where
  spaces : Spaces lk s' R l' (fun a => X a ∨ a = page)
  others : OthersSame R r s s'
  ptes : SamePtes r s s'
  pages : ∀ a, (a ∈ l' ∨ Owns lk s'.mem r a) ∨ a = page ↔ a ∈ l ∨ Owns lk s.mem r a
  same : SameOn PGSIZE (fun a => ¬ (a ∈ l ∨ Owns lk s.mem r a)) s.mem s'.mem
  unkept : ¬ X page
  reason : IsMapped s.mem r v ∨ l.length < m
  tables : ∀ a, TableOf s.mem r a → TableOf s'.mem r a

/-- A page from the free list is filled and mapped. -/
theorem Spaces.newPage_runs {α : Type} {m : Nat} {fill : Nat → Bytes → Bytes}
    (hs : Spaces lk s R l X) (hr : R r) (hv : v < 2 ^ 26) (hperm : perm < 1024)
    (hleaf : perm &&& (PTE_R ||| PTE_W ||| PTE_X) ≠ 0) (hm : missing s.mem r v 2 ≤ m)
    (hfill : ∀ page mem, page % PGSIZE = 0 → SameOn PGSIZE (· ≠ page) mem (fill page mem))
    {A : Prog Mm α} {B C : Nat → Prog Mm α} {Q : α → Mm → Prop} (hnone : l = [] → Runs E A s Q)
    (hfail : ∀ page s' l', NoPage lk R X r v page (1 + m) s l s' l' → Runs E (B page) s' Q)
    (hok : ∀ page s' l', AddsPage lk R X r v page perm (1 + m) fill s l s' l' →
    Runs E (C page) s' Q) :
    Runs E (do
        let page ← kalloc
        if page = 0 then A
        else do
          modify fun s => { s with mem := fill page s.mem }
          let ret ← mappages r (v * PGSIZE) PGSIZE page perm
          if ret ≠ 0 then B page else C page) s Q := by
  apply (hs.kalloc_runs).bind
  rintro page s₁ (⟨hl, rfl, rfl⟩ | ⟨hpage, l₁, hl, h₁, hsame₁, hmem₁, hnew, hX, hno⟩)
  · rw [if_pos rfl]
    exact hnone hl
  rw [if_neg hpage, Runs.bind_iff, Runs.modify_iff]
  obtain ⟨hframe, hnew₁, hno₁⟩ := h₁.kept page (Or.inr rfl)
  have hfill₁ := hfill page s₁.mem hframe.aligned
  obtain ⟨h₂, hsame₂⟩ := h₁.write hfill₁ (fun p hp hc => hno₁ p hp (Or.inl hc)) hnew₁
  have hall := hsame₁.trans hsame₂
  have hpte₂ : ∀ q < 512 ^ 3, pteAt (fill page s₁.mem) r q = pteAt s.mem r q := (hall r hr).2
  have howns : ∀ a, Owns lk (fill page s₁.mem) r a ↔ Owns lk s.mem r a :=
    (hall r hr).1.owns (hall r hr).2
  have hmiss : missing (fill page s₁.mem) r v 2 = missing s.mem r v 2 := by
    have htable := (hall r hr).1.table
    unfold missing missing missing
    rw [htable _ (by decide) _ (by omega), htable _ (by decide) _ (by omega)]
  have hmem₂ : SameOn PGSIZE (fun a => ¬ (a ∈ l ∨ Owns lk s.mem r a)) s.mem (fill page s₁.mem) := by
    apply (hmem₁.trans hfill₁).mono
    rintro a ha rfl
    apply ha
    rw [hl]
    exact Or.inl (List.mem_cons_self ..)
  apply (h₂.mappages_runs hr (Or.inr rfl) hv hperm hleaf).bind
  rintro ret s₃ ⟨l₃, h₃, hothers₃, hmaps₃, hpages₃, hmem₃⟩
  have hothers : OthersSame R r s s₃ := by
    intro p hp hne
    obtain ⟨h1, h2⟩ := hall p hp
    obtain ⟨h3, h4⟩ := hothers₃ p hp hne
    refine ⟨h1.trans h3, fun q hq => ?_⟩
    rw [h4 q hq]
    exact h2 q hq
  have hmem : SameOn PGSIZE (fun a => ¬ (a ∈ l ∨ Owns lk s.mem r a)) s.mem s₃.mem := by
    apply hmem₂.trans (hmem₃.mono _)
    intro a ha
    refine ⟨fun hc => ha (Or.inl ?_), fun hc => ha (Or.inr ((howns a).mp (Or.inl hc)))⟩
    rw [hl]
    exact List.mem_cons_of_mem _ hc
  have htables : ∀ a, TableOf s.mem r a → TableOf s₃.mem r a := fun a ha =>
    hmaps₃.grows.table (((hall r hr).1.tableOf a).mpr ha)
  have hcount := hmaps₃.count
  rw [hmiss] at hcount
  by_cases hret : ret = 0
  · subst hret
    rw [if_neg (by decide)]
    obtain ⟨hun₃, hpte₃⟩ := hmaps₃.ok rfl
    have hun : ¬ IsMapped s.mem r v := by
      unfold IsMapped at hun₃ ⊢
      rwa [hpte₂ v (by omega)] at hun₃
    apply hok page s₃ l₃
    have hpages : ∀ a, a ∈ l₃ ∨ Owns lk s₃.mem r a ↔ a ∈ l ∨ Owns lk s.mem r a := by
      intro a
      rw [hpages₃ a, howns a, hl, List.mem_cons]
      constructor
      · rintro ((h | h) | ⟨_, h⟩)
        · exact Or.inl (Or.inr h)
        · exact Or.inr h
        · exact Or.inl (Or.inl h)
      · rintro ((h | h) | h)
        · exact Or.inr ⟨rfl, h⟩
        · exact Or.inl (Or.inl h)
        · exact Or.inl (Or.inr h)
    refine ⟨⟨⟨?_, hothers, moved_nil.mpr ⟨hpages, hmem⟩⟩, ?_⟩, hframe, ?_, hun, fun q hq => ?_, ?_,
      ⟨s₁.mem, hmem₁, fun o ho => ?_⟩, htables⟩
    · refine h₃.congr (fun p hp => hp) fun a ha => ⟨Or.inl ha, fun _ => ?_⟩
      rintro rfl
      exact hX ha
    · rw [hl, List.length_cons]
      omega
    · rw [hl]
      exact List.mem_cons_self ..
    · rw [hpte₃ q hq, hpte₂ q hq]
    · apply ((hmem₁.trans hfill₁).mono _).trans (hmem₃.mono _)
      · rintro a ⟨ha, _⟩ rfl
        rw [hl] at ha
        exact ha (List.mem_cons_self ..)
      · rintro a ⟨h1, h2⟩
        refine ⟨fun hc => h1 ?_, fun hc => h2 (((hall r hr).1.tableOf a).mp hc)⟩
        rw [hl]
        exact List.mem_cons_of_mem _ hc
    · apply hmem₃.byte hframe.aligned ⟨hnew₁, fun hc => ?_⟩ ho
      exact hno r hr ((howns page).mp (Or.inl hc))
  · rw [if_pos hret]
    obtain ⟨_, hptes₃, hbad⟩ := hmaps₃.failed hret
    apply hfail page s₃ l₃
    refine ⟨?_, hothers, fun q hq => ?_, fun a => ?_, hmem, hX, ?_, htables⟩
    · exact h₃.congr (fun p hp => hp) fun a ha => ⟨ha, fun hc => absurd hc hret⟩
    · rw [hptes₃ q hq]
      exact hpte₂ q hq
    · rw [hpages₃ a, howns a, hl, List.mem_cons]
      constructor
      · rintro (((h | h) | ⟨h, _⟩) | h)
        · exact Or.inl (Or.inr h)
        · exact Or.inr h
        · exact absurd h hret
        · exact Or.inl (Or.inl h)
      · rintro ((h | h) | h)
        · exact Or.inr h
        · exact Or.inl (Or.inl (Or.inl h))
        · exact Or.inl (Or.inl (Or.inr h))
    · rcases hbad with h | ⟨_, h⟩
      · rw [IsMapped, hpte₂ v (by omega)] at h
        exact Or.inl h
      · rw [hmiss] at h
        rw [hl, List.length_cons]
        exact Or.inr (by omega)

/-- The page that was not mapped is given back. -/
theorem NoPage.kfree_runs {page m : Nat} (h : NoPage lk R X r v page m s l s₁ l₁) (hr : R r) :
    Runs E (kfree lk page) s₁ (fun _ s' => Within lk R X r s l s' (page :: l₁) ∧ SamePtes r s s' ∧
      ∀ a, TableOf s.mem r a → TableOf s'.mem r a) := by
  apply (h.spaces.kfree_runs (Or.inr rfl)).imp
  rintro _ s₂ ⟨h₂, hall₂, hmem₂⟩
  refine ⟨⟨?_, ?_, moved_nil.mpr ⟨fun a => ?_, ?_⟩⟩, fun q hq => ?_, fun a ha => ?_⟩
  · refine h₂.congr (fun p hp => hp) fun a ha => ⟨Or.inl ha, ?_⟩
    rintro rfl
    exact h.unkept ha
  · exact h.others.trans fun p hp _ => hall₂ p hp
  · rw [(hall₂ r hr).1.owns (hall₂ r hr).2 a, ← h.pages a, List.mem_cons]
    constructor
    · rintro ((h | h) | h)
      · exact Or.inr h
      · exact Or.inl (Or.inl h)
      · exact Or.inl (Or.inr h)
    · rintro ((h | h) | h)
      · exact Or.inl (Or.inr h)
      · exact Or.inr h
      · exact Or.inl (Or.inl h)
  · apply h.same.trans (hmem₂.mono _)
    rintro a ha rfl
    exact ha ((h.pages a).mp (Or.inr rfl))
  · rw [(hall₂ r hr).2 q hq, h.ptes q hq]
  · exact ((hall₂ r hr).1.tableOf a).mpr (h.tables a ha)

end ThuKernel
