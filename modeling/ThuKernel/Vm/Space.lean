-- The pages of an address space: its tables and the pages that it maps. Every
-- function of vm.c moves pages between the free list, an address space and
-- the hands of its caller, and never loses one or uses one twice.
import ThuKernel.Vm.Freewalk

namespace ThuKernel

/-! ## The pages of an address space -/

/-- The page `a` of the allocator is mapped at page number `q`. -/
structure MapsTo (lk : Link) (mem : Bytes) (root q a : Nat) : Prop where
  limit : q < 512 ^ 3
  mapped : IsMapped mem root q
  frame : frameAt mem root q = a
  alloc : IsFrame lk a

/-- The page `a` belongs to the address space: as a table, or as a page that
is mapped. -/
def Owns (lk : Link) (mem : Bytes) (root a : Nat) : Prop :=
  TableOf mem root a ∨ ∃ q, MapsTo lk mem root q a

/-- An address space: a page table that `freewalk` can free, with a use of its
own for each page. The pages `hand` are in use by the code that runs. -/
structure AddrSpace (lk : Link) (s : Mm) (root : Nat) (l hand : List Nat) : Prop where
  space : Space lk s root l
  walkable : Walkable s.mem root
  tables : ∀ a, TableOf s.mem root a → IsFrame lk a
  unmixed : ∀ q a, MapsTo lk s.mem root q a → ¬ TableOf s.mem root a
  unfree : ∀ q a, MapsTo lk s.mem root q a → a ∉ l
  unshared : ∀ q q' a, MapsTo lk s.mem root q a → MapsTo lk s.mem root q' a → q = q'
  handOk : ∀ a ∈ hand, IsFrame lk a ∧ a ∉ l ∧ ¬ Owns lk s.mem root a
  handNodup : hand.Nodup

/-- The pages that take part: the free ones, those of the address space, and
those in hand. -/
def Has (lk : Link) (s : Mm) (root : Nat) (l hand : List Nat) (a : Nat) : Prop :=
  a ∈ l ∨ Owns lk s.mem root a ∨ a ∈ hand

/-- The same pages take part before and after, and no other page is touched. -/
structure Moved (lk : Link) (root : Nat) (s : Mm) (l hand : List Nat) (s' : Mm)
    (l' hand' : List Nat) :
    Prop where
  pages : ∀ a, Has lk s' root l' hand' a ↔ Has lk s root l hand a
  same : SameOn PGSIZE (fun a => ¬ Has lk s root l hand a) s.mem s'.mem

variable {lk : Link} {E : Stop → Prop} {s s₁ s₂ : Mm} {root a pa perm v n q : Nat}
variable {l l₁ l₂ hand hand₁ hand₂ : List Nat}

theorem Moved.refl : Moved lk root s l hand s l hand := ⟨fun _ => Iff.rfl, SameOn.refl⟩

theorem Moved.trans (h : Moved lk root s l hand s₁ l₁ hand₁)
    (h' : Moved lk root s₁ l₁ hand₁ s₂ l₂ hand₂) : Moved lk root s l hand s₂ l₂ hand₂ := by
  refine ⟨fun a => (h'.pages a).trans (h.pages a), h.same.trans (h'.same.mono fun a ha hc => ?_)⟩
  exact ha ((h.pages a).mp hc)

theorem Owns.frame (ha : Owns lk s.mem root a) (h : AddrSpace lk s root l hand) : IsFrame lk a := by
  rcases ha with ha | ⟨q, ha⟩
  · exact h.tables a ha
  · exact ha.alloc

theorem AddrSpace.unowned (h : AddrSpace lk s root l hand) (ha : a ∈ l) :
    ¬ Owns lk s.mem root a := by
  rintro (hc | ⟨q, hc⟩)
  · exact h.space.apart a ha hc
  · exact h.unfree q a hc ha

theorem mapsTo_congr {mem mem' : Bytes} (h : q < 512 ^ 3 → pteAt mem' root q = pteAt mem root q) :
    MapsTo lk mem' root q a ↔ MapsTo lk mem root q a := by
  constructor
  · rintro ⟨h1, h2, h3, h4⟩
    unfold IsMapped at h2
    unfold frameAt at h3
    rw [h h1] at h2 h3
    exact ⟨h1, h2, h3, h4⟩
  · rintro ⟨h1, h2, h3, h4⟩
    unfold IsMapped at h2
    unfold frameAt at h3
    rw [← h h1] at h2 h3
    exact ⟨h1, h2, h3, h4⟩

theorem SamePtes.mapsTo (h : SamePtes root s s₁) (q a : Nat) :
    MapsTo lk s₁.mem root q a ↔ MapsTo lk s.mem root q a :=
  mapsTo_congr (h q)

/-- The mapped pages of a range are used for nothing else. -/
theorem AddrSpace.apart (h : AddrSpace lk s root l hand) (hend : v + n ≤ 512 ^ 3) :
    FramesApart lk s.mem root l v n := by
  intro q h1 h2 hmapped hframe
  have hmaps : MapsTo lk s.mem root q (frameAt s.mem root q) := ⟨by omega, hmapped, rfl, hframe⟩
  refine ⟨h.unmixed q _ hmaps, h.unfree q _ hmaps, fun q' h1' h2' hm' he => ?_⟩
  exact h.unshared q' q _ ⟨by omega, hm', he, hframe⟩ hmaps

/-! ## Changes outside the address space -/

/-- The free pages, the pages in hand and the pages of others changed, but no
table. -/
theorem AddrSpace.frame (h : AddrSpace lk s root l hand) {keep : Nat → Prop}
    (hsame : SameOn PGSIZE keep s.mem s₁.mem) (hkeep : ∀ a, TableOf s.mem root a → keep a)
    (hfree : FreeList lk s₁ l₁) (hl : ∀ a ∈ l₁, ¬ Owns lk s.mem root a)
    (hhand : ∀ a ∈ hand₁, IsFrame lk a ∧ a ∉ l₁ ∧ ¬ Owns lk s.mem root a) (hnodup : hand₁.Nodup) :
    AddrSpace lk s₁ root l₁ hand₁ ∧ (∀ a, Owns lk s₁.mem root a ↔ Owns lk s.mem root a) ∧
      SameTables root s s₁ ∧ SamePtes root s s₁ := by
  obtain ⟨htables, hptes⟩ := sameTables_frame h.space.table.page hsame hkeep
  have hmaps := fun q a => (hptes.mapsTo q a : MapsTo lk s₁.mem root q a ↔ _)
  have howns : ∀ a, Owns lk s₁.mem root a ↔ Owns lk s.mem root a := by
    intro a
    unfold Owns
    rw [htables.tableOf a]
    simp only [hmaps]
  have hspace := h.space.frame hsame hkeep hfree fun a ha hta => hl a ha (Or.inl hta)
  refine ⟨⟨hspace, ⟨hspace.table, htables.plain h.walkable.plain, fun q hq hm => ?_⟩,
    fun a ha => ?_,
    fun q a hm hta => ?_, fun q a hm hal => ?_, fun q q' a hm hm' => ?_, fun a ha => ?_, hnodup⟩,
    howns, htables, hptes⟩
  · unfold IsMapped at hm
    rw [hptes q hq] at hm ⊢
    exact h.walkable.leaf q hq hm
  · exact h.tables a ((htables.tableOf a).mp ha)
  · exact h.unmixed q a ((hmaps q a).mp hm) ((htables.tableOf a).mp hta)
  · exact hl a hal (Or.inr ⟨q, (hmaps q a).mp hm⟩)
  · exact h.unshared q q' a ((hmaps q a).mp hm) ((hmaps q' a).mp hm')
  · rw [howns a]
    exact hhand a ha

/-- A page comes from the free list into the hand. -/
theorem AddrSpace.kalloc_runs (h : AddrSpace lk s root l hand) :
    Runs E kalloc s (fun r s' => (l = [] ∧ r = 0 ∧ s' = s) ∨ (r ≠ 0 ∧ ∃ l', l = r :: l' ∧
      AddrSpace lk s' root l' (r :: hand) ∧ Moved lk root s l hand s' l' (r :: hand) ∧
      SamePtes root s s')) := by
  apply (ThuKernel.kalloc_runs h.space.free).imp
  rintro r s' (⟨hl, hr, hs⟩ | ⟨l', hl, hfree, hsame⟩)
  · exact Or.inl ⟨hl, hr, hs⟩
  · have hr : r ∈ l := by
      rw [hl]
      exact List.mem_cons_self ..
    have hsub : ∀ a ∈ l', a ∈ l := fun a ha => by
      rw [hl]
      exact List.mem_cons_of_mem _ ha
    have hnew : r ∉ l' := by
      have := h.space.free.nodup
      rw [hl] at this
      exact (List.nodup_cons.mp this).1
    have hhand : ∀ a ∈ r :: hand, IsFrame lk a ∧ a ∉ l' ∧ ¬ Owns lk s.mem root a := by
      intro a ha
      rcases List.mem_cons.mp ha with rfl | ha
      · exact ⟨h.space.free.frames a hr, hnew, h.unowned hr⟩
      · obtain ⟨h1, h2, h3⟩ := h.handOk a ha
        exact ⟨h1, fun hc => h2 (hsub a hc), h3⟩
    have hnodup : (r :: hand).Nodup :=
      List.nodup_cons.mpr ⟨fun hc => (h.handOk r hc).2.1 hr, h.handNodup⟩
    have hkeep : ∀ a, TableOf s.mem root a → a ≠ r := by
      rintro a ha rfl
      exact h.space.apart a hr ha
    obtain ⟨h1, h2, _, h4⟩ := h.frame hsame hkeep hfree (fun a ha => h.unowned (hsub a ha))
      hhand hnodup
    refine Or.inr ⟨(h.space.free.frames r hr).ne_zero, l', hl, h1, ⟨fun a => ?_, ?_⟩, h4⟩
    · unfold Has
      rw [h2 a, hl, List.mem_cons, List.mem_cons]
      constructor
      · rintro (h | h | h | h)
        · exact Or.inl (Or.inr h)
        · exact Or.inr (Or.inl h)
        · exact Or.inl (Or.inl h)
        · exact Or.inr (Or.inr h)
      · rintro ((h | h) | h | h)
        · exact Or.inr (Or.inr (Or.inl h))
        · exact Or.inl h
        · exact Or.inr (Or.inl h)
        · exact Or.inr (Or.inr (Or.inr h))
    · apply hsame.mono
      rintro a ha rfl
      exact ha (Or.inl hr)

/-! ## Mapping a page -/

/-- Free pages became tables of the address space. -/
theorem AddrSpace.grow (h : AddrSpace lk s root l hand) (hspace : Space lk s₁ root l₁)
    (hgrow : Grows root s s₁ l l₁) (hptes : SamePtes root s s₁) :
    AddrSpace lk s₁ root l₁ hand ∧ Moved lk root s l hand s₁ l₁ hand := by
  obtain ⟨new, hl, htables⟩ := hgrow.taken
  have hmaps := fun q a => (hptes.mapsTo q a : MapsTo lk s₁.mem root q a ↔ _)
  have hnew : ∀ a ∈ new, a ∈ l := fun a ha => by
    rw [hl]
    exact List.mem_append.mpr (Or.inl ha)
  have hold : ∀ a ∈ l₁, a ∈ l := fun a ha => by
    rw [hl]
    exact List.mem_append.mpr (Or.inr ha)
  have howns : ∀ a, Owns lk s₁.mem root a ↔ Owns lk s.mem root a ∨ a ∈ new := by
    intro a
    unfold Owns
    rw [htables a]
    simp only [hmaps]
    constructor
    · rintro ((h | h) | h)
      · exact Or.inl (Or.inl h)
      · exact Or.inr h
      · exact Or.inl (Or.inr h)
    · rintro ((h | h) | h)
      · exact Or.inl (Or.inl h)
      · exact Or.inr h
      · exact Or.inl (Or.inr h)
  refine ⟨⟨hspace, ⟨hspace.table, hgrow.plain h.walkable.plain, fun q hq hm => ?_⟩, fun a ha => ?_,
    fun q a hm hta => ?_, fun q a hm hal => ?_, fun q q' a hm hm' => ?_, fun a ha => ?_,
    h.handNodup⟩, ⟨fun a => ?_, hgrow.same.mono fun a ha hta => ?_⟩⟩
  · unfold IsMapped at hm
    rw [hptes q hq] at hm ⊢
    exact h.walkable.leaf q hq hm
  · rcases (htables a).mp ha with ha | ha
    · exact h.tables a ha
    · exact h.space.free.frames a (hnew a ha)
  · rcases (htables a).mp hta with hta | hta
    · exact h.unmixed q a ((hmaps q a).mp hm) hta
    · exact h.unfree q a ((hmaps q a).mp hm) (hnew a hta)
  · exact h.unfree q a ((hmaps q a).mp hm) (hold a hal)
  · exact h.unshared q q' a ((hmaps q a).mp hm) ((hmaps q' a).mp hm')
  · obtain ⟨h1, h2, h3⟩ := h.handOk a ha
    refine ⟨h1, fun hc => h2 (hold a hc), fun hc => ?_⟩
    rcases (howns a).mp hc with hc | hc
    · exact h3 hc
    · exact h2 (hnew a hc)
  · unfold Has
    rw [howns a, hl, List.mem_append]
    constructor
    · rintro (h | (h | h) | h)
      · exact Or.inl (Or.inr h)
      · exact Or.inr (Or.inl h)
      · exact Or.inl (Or.inl h)
      · exact Or.inr (Or.inr h)
    · rintro ((h | h) | h | h)
      · exact Or.inr (Or.inl (Or.inr h))
      · exact Or.inl h
      · exact Or.inr (Or.inl (Or.inl h))
      · exact Or.inr (Or.inr h)
  · rcases (htables a).mp hta with hta | hta
    · exact ha (Or.inr (Or.inl (Or.inl hta)))
    · exact ha (Or.inl (hnew a hta))

/-- The page goes into the address space, if it is one of the allocator. -/
theorem AddrSpace.map (h : AddrSpace lk s root l hand) (hq : q < 512 ^ 3)
    (hun : ¬ IsMapped s.mem root q) {w : Nat} (hspace : Space lk s₁ root l)
    (htables : SameTables root s s₁)
    (hsame : SameOn PGSIZE (fun a => ¬ TableOf s.mem root a) s.mem s₁.mem)
    (hptes : ∀ p < 512 ^ 3, pteAt s₁.mem root p = if p = q then w else pteAt s.mem root p)
    (hleaf : w &&& (PTE_R ||| PTE_W ||| PTE_X) ≠ 0) (hvalid : w.testBit 0 = true)
    (hhand : hand = (if IsFrame lk (PTE2PA w) then [PTE2PA w] else []) ++ hand₁) :
    AddrSpace lk s₁ root l hand₁ ∧ Moved lk root s l hand s₁ l hand₁ := by
  have hmem : IsFrame lk (PTE2PA w) → PTE2PA w ∈ hand := fun hf => by
    rw [hhand, if_pos hf]
    exact List.mem_cons_self ..
  have hother : ∀ p ≠ q, ∀ a, MapsTo lk s₁.mem root p a ↔ MapsTo lk s.mem root p a :=
    fun p hpq a => mapsTo_congr fun hp => by rw [hptes p hp, if_neg hpq]
  have hhere : ∀ a, MapsTo lk s₁.mem root q a ↔ a = PTE2PA w ∧ IsFrame lk a := by
    intro a
    have hpte : pteAt s₁.mem root q = w := by rw [hptes q hq, if_pos rfl]
    constructor
    · rintro ⟨_, _, h3, h4⟩
      unfold frameAt at h3
      rw [hpte] at h3
      exact ⟨h3.symm, h4⟩
    · rintro ⟨rfl, h4⟩
      refine ⟨hq, ?_, ?_, h4⟩
      · unfold IsMapped
        rw [hpte]
        exact hvalid
      · unfold frameAt
        rw [hpte]
  have hmaps : ∀ p a, MapsTo lk s₁.mem root p a ↔
      MapsTo lk s.mem root p a ∨ (p = q ∧ a = PTE2PA w ∧ IsFrame lk a) := by
    intro p a
    by_cases hpq : p = q
    · subst hpq
      rw [hhere a]
      constructor
      · intro h
        exact Or.inr ⟨rfl, h⟩
      · rintro (h | ⟨_, h⟩)
        · exact absurd h.mapped hun
        · exact h
    · rw [hother p hpq a]
      constructor
      · exact Or.inl
      · rintro (h | ⟨h, _⟩)
        · exact h
        · exact absurd h hpq
  have hnodup : IsFrame lk (PTE2PA w) → PTE2PA w ∉ hand₁ := fun hf => by
    have := h.handNodup
    rw [hhand, if_pos hf] at this
    exact (List.nodup_cons.mp this).1
  have hin : ∀ a ∈ hand₁, a ∈ hand := fun a ha => by
    rw [hhand]
    exact List.mem_append.mpr (Or.inr ha)
  refine ⟨⟨hspace, ⟨hspace.table, htables.plain h.walkable.plain, fun p hp hm => ?_⟩,
    fun a ha => ?_,
    fun p a hm hta => ?_, fun p a hm hal => ?_, fun p p' a hm hm' => ?_, fun a ha => ?_, ?_⟩,
    ⟨fun a => ?_, hsame.mono fun a ha hta => ha (Or.inr (Or.inl (Or.inl hta)))⟩⟩
  · unfold IsMapped at hm
    rw [hptes p hp] at hm ⊢
    split
    · exact hleaf
    · rename_i hpq
      rw [if_neg hpq] at hm
      exact h.walkable.leaf p hp hm
  · exact h.tables a ((htables.tableOf a).mp ha)
  · have hta := (htables.tableOf a).mp hta
    rcases (hmaps p a).mp hm with hm | ⟨_, rfl, hf⟩
    · exact h.unmixed p a hm hta
    · exact (h.handOk _ (hmem hf)).2.2 (Or.inl hta)
  · rcases (hmaps p a).mp hm with hm | ⟨_, rfl, hf⟩
    · exact h.unfree p a hm hal
    · exact (h.handOk _ (hmem hf)).2.1 hal
  · rcases (hmaps p a).mp hm with hm | ⟨rfl, rfl, hf⟩
    · rcases (hmaps p' a).mp hm' with hm' | ⟨_, rfl, hf⟩
      · exact h.unshared p p' a hm hm'
      · exact absurd (Or.inr ⟨p, hm⟩) (h.handOk _ (hmem hf)).2.2
    · rcases (hmaps p' _).mp hm' with hm' | ⟨h1, _⟩
      · exact absurd (Or.inr ⟨p', hm'⟩) (h.handOk _ (hmem hf)).2.2
      · exact h1.symm
  · obtain ⟨h1, h2, h3⟩ := h.handOk a (hin a ha)
    refine ⟨h1, h2, ?_⟩
    rintro (hc | ⟨p, hc⟩)
    · exact h3 (Or.inl ((htables.tableOf a).mp hc))
    · rcases (hmaps p a).mp hc with hc | ⟨_, rfl, hf⟩
      · exact h3 (Or.inr ⟨p, hc⟩)
      · exact hnodup hf ha
  · have := h.handNodup
    rw [hhand] at this
    exact (List.nodup_append.mp this).2.1
  · unfold Has Owns
    rw [htables.tableOf a, hhand, List.mem_append]
    simp only [hmaps]
    constructor
    · rintro (h | (h | ⟨p, h | ⟨_, rfl, hf⟩⟩) | h)
      · exact Or.inl h
      · exact Or.inr (Or.inl (Or.inl h))
      · exact Or.inr (Or.inl (Or.inr ⟨p, h⟩))
      · exact Or.inr (Or.inr (Or.inl (by rw [if_pos hf]; exact List.mem_cons_self ..)))
      · exact Or.inr (Or.inr (Or.inr h))
    · rintro (h | (h | ⟨p, h⟩) | h | h)
      · exact Or.inl h
      · exact Or.inr (Or.inl (Or.inl h))
      · exact Or.inr (Or.inl (Or.inr ⟨p, Or.inl h⟩))
      · split at h
        · rename_i hf
          rw [List.mem_singleton] at h
          exact Or.inr (Or.inl (Or.inr ⟨q, Or.inr ⟨rfl, h, h ▸ hf⟩⟩))
        · cases h
      · exact Or.inr (Or.inr h)

/-- What mapping one page ends in. -/
structure MapsPage (root q w : Nat) (s s' : Mm) (l l' : List Nat) (r : Int) : Prop where
  ok : r = 0 → ¬ IsMapped s.mem root q ∧
    ∀ p < 512 ^ 3, pteAt s'.mem root p = if p = q then w else pteAt s.mem root p
  failed : r ≠ 0 → r = -1 ∧ SamePtes root s s' ∧
    (IsMapped s.mem root q ∨ l' = [] ∧ l.length < missing s.mem root q 2)
  grows : Grows root s s' l l'
  count : l.length ≤ l'.length + missing s.mem root q 2

/-- `mappages` of one page: a page in hand goes into the address space, or
stays in hand. -/
theorem AddrSpace.mappages_runs (h : AddrSpace lk s root l hand) {va : Nat} (hva : va = q * PGSIZE)
    (hend : va < MAXVA) (hpa : IsPage pa) (hperm : perm < 1024)
    (hleaf : perm &&& (PTE_R ||| PTE_W ||| PTE_X) ≠ 0)
    (hhand : hand = (if IsFrame lk pa then [pa] else []) ++ hand₁) :
    Runs E (mappages root va PGSIZE pa perm) s (fun r s' => ∃ l',
      AddrSpace lk s' root l' (if r = 0 then hand₁ else hand) ∧
      Moved lk root s l hand s' l' (if r = 0 then hand₁ else hand) ∧
      MapsPage root q (leafPte pa perm) s s' l l' r) := by
  subst hva
  have hmax := MAXVA_eq
  have hvpn : q * PGSIZE / PGSIZE = q := Nat.mul_div_cancel q (by decide)
  have hlt := vpn_lt hend
  rw [hvpn] at hlt
  have hmod := Nat.mod_eq_of_lt hpa.below
  have hwlt : leafPte pa perm < 2 ^ 64 := leafPte_lt pa (by omega)
  have hpage := leafPte_decode hpa.aligned hperm
  rw [hmod] at hpage
  have hstop : PGROUNDDOWN ((q * PGSIZE + PGSIZE + 2 ^ 64 - 1) % 2 ^ 64) = q * PGSIZE := by
    unfold PGROUNDDOWN
    simp only [PGSIZE_eq] at *
    omega
  have hstart : PGROUNDDOWN (q * PGSIZE) = q * PGSIZE := by
    unfold PGROUNDDOWN
    rw [hvpn]
  unfold mappages mappagesLoop
  rw [hstop, hstart]
  apply (walk_runs hend h.space).bind
  rintro r s₁ ⟨l₁, hs₁, hgrow, hsame, hr, hnone, hcount, _⟩
  rw [hvpn] at hr hnone hcount
  obtain ⟨h₁, hmoved₁⟩ := h.grow hs₁ hgrow hsame
  cases r with
  | none =>
    rw [Runs.pure_iff, if_neg (by decide)]
    exact ⟨l₁, h₁, hmoved₁, fun hr => absurd hr (by decide),
      fun _ => ⟨rfl, hsame, Or.inr (hnone rfl)⟩, hgrow, hcount⟩
  | some pte =>
    dsimp only
    rw [Runs.bind_iff, Runs.get_iff, get64_slot hr.symm, hsame q hlt]
    split
    · rename_i hv
      rw [Runs.pure_iff, if_neg (by decide)]
      exact ⟨l₁, h₁, hmoved₁, fun hr => absurd hr (by decide), fun _ => ⟨rfl, hsame, Or.inl hv⟩,
        hgrow, hcount⟩
    · rename_i hv
      obtain ⟨hs₂, htables₂, hsame₂, hpte₂⟩ := hs₁.store hlt hr.symm hwlt
      have hw : PA2PTE pa ||| perm ||| PTE_V = leafPte pa perm := by
        unfold leafPte
        rw [hmod]
      rw [Runs.bind_iff, storePte, Runs.modify_iff, if_pos rfl, Runs.pure_iff, if_pos rfl, hw]
      have hun₁ : ¬ IsMapped s₁.mem root q := by
        unfold IsMapped
        rw [hsame q hlt]
        exact hv
      have hleaf₂ : leafPte pa perm &&& (PTE_R ||| PTE_W ||| PTE_X) ≠ 0 := by
        rw [flags_and, hpage.2, Nat.and_or_distrib_right]
        intro h0
        exact hleaf (Nat.or_eq_zero_iff.mp h0).1
      have hhand₂ : hand = (if IsFrame lk (PTE2PA (leafPte pa perm)) then
          [PTE2PA (leafPte pa perm)] else []) ++ hand₁ := by
        rw [hpage.1]
        exact hhand
      obtain ⟨h₂, hmoved₂⟩ := h₁.map hlt hun₁ hs₂ htables₂ hsame₂ hpte₂ hleaf₂
        (leafPte_valid pa perm) hhand₂
      refine ⟨l₁, h₂, hmoved₁.trans hmoved₂, fun _ => ⟨hv, fun p hp => ?_⟩, fun hr => absurd rfl hr,
        hgrow.trans (htables₂.grows hsame₂), hcount⟩
      exact (hpte₂ p hp).trans (by rw [hsame p hp])

/-! ## Tables that are there already -/

theorem IsMapped.tables {mem : Bytes} (h : IsMapped mem root q) :
    (tableAt mem root 2 (q / 512)).isSome = true ∧ (tableAt mem root 1 (q / 512 / 512)).isSome =
    true := by
  have hsome : (tableAt mem root 2 (q / 512)).isSome = true := by
    cases ht : tableAt mem root 2 (q / 512) with
    | none =>
      rw [IsMapped, pteAt, ht, Nat.zero_testBit] at h
      cases h
    | some t => rfl
  refine ⟨hsome, ?_⟩
  obtain ⟨t, ht⟩ := Option.isSome_iff_exists.mp hsome
  obtain ⟨u, hu⟩ := tableAt_above (d := 1) (k := 1) ht
  rw [Nat.pow_one] at hu
  rw [hu]
  rfl

/-- Next to a mapped page no table is missing. -/
theorem missing_of_block {mem : Bytes} (h : IsMapped mem root q) (hv : v / 512 = q / 512) :
    missing mem root v 2 = 0 := by
  obtain ⟨h1, h2⟩ := h.tables
  rw [← hv] at h1 h2
  unfold missing missing missing
  rw [Nat.zero_add, Nat.pow_one, show 512 ^ (1 + 1) = 512 * 512 from rfl, ← Nat.div_div_eq_div_mul]
  rw [if_neg (by rw [Option.isNone_iff_eq_none]; intro hc; rw [hc] at h1; cases h1),
    if_neg (by rw [Option.isNone_iff_eq_none]; intro hc; rw [hc] at h2; cases h2)]

/-- In the same gigabyte at most the last table is missing. -/
theorem missing_of_upper {mem : Bytes} (h : IsMapped mem root q)
    (hv : v / 512 / 512 = q / 512 / 512) :
    missing mem root v 2 ≤ 1 := by
  obtain ⟨_, h2⟩ := h.tables
  rw [← hv] at h2
  unfold missing
  rw [show 512 ^ (1 + 1) = 512 * 512 from rfl, ← Nat.div_div_eq_div_mul]
  rw [if_neg (by rw [Option.isNone_iff_eq_none]; intro hc; rw [hc] at h2; cases h2)]
  exact missing_le mem root v 1

/-! ## Unmapping pages -/

/-- The entries of the range were cleared, and its pages went to the free list
or to the hand. -/
theorem AddrSpace.unmap (h : AddrSpace lk s root l hand) (hspace : Space lk s₁ root l₁)
    (htables : SameTables root s s₁)
    (hptes : ∀ q < 512 ^ 3, pteAt s₁.mem root q =
      if v ≤ q ∧ q < v + n then 0 else pteAt s.mem root q)
    (hpages : ∀ a, a ∈ l₁ ∨ a ∈ hand₁ ↔
      (a ∈ l ∨ a ∈ hand) ∨ ∃ q, v ≤ q ∧ q < v + n ∧ MapsTo lk s.mem root q a)
    (hhand : ∀ a ∈ hand₁, a ∉ l₁) (hnodup : hand₁.Nodup)
    (hsame : SameOn PGSIZE (fun a => ¬ Has lk s root l hand a) s.mem s₁.mem) :
    AddrSpace lk s₁ root l₁ hand₁ ∧ Moved lk root s l hand s₁ l₁ hand₁ := by
  have hmaps : ∀ q a, MapsTo lk s₁.mem root q a ↔
      MapsTo lk s.mem root q a ∧ ¬ (v ≤ q ∧ q < v + n) := by
    intro q a
    by_cases hq : v ≤ q ∧ q < v + n
    · constructor
      · intro hm
        have hmapped := hm.mapped
        rw [IsMapped, hptes q hm.limit, if_pos hq, Nat.zero_testBit] at hmapped
        cases hmapped
      · intro hm
        exact absurd hq hm.2
    · have hcongr : MapsTo lk s₁.mem root q a ↔ MapsTo lk s.mem root q a :=
        mapsTo_congr fun hlt => by rw [hptes q hlt, if_neg hq]
      rw [hcongr]
      constructor
      · intro hm
        exact ⟨hm, hq⟩
      · intro hm
        exact hm.1
  -- A page that is free or in hand is owned by no one.
  have hout : ∀ a, a ∈ l₁ ∨ a ∈ hand₁ → IsFrame lk a ∧ ¬ TableOf s.mem root a ∧
      ∀ q, MapsTo lk s.mem root q a → v ≤ q ∧ q < v + n := by
    intro a ha
    rcases (hpages a).mp ha with (ha | ha) | ⟨q, h1, h2, ha⟩
    · exact ⟨h.space.free.frames a ha, h.space.apart a ha, fun q hq => absurd ha (h.unfree q a hq)⟩
    · obtain ⟨h1, _, h3⟩ := h.handOk a ha
      exact ⟨h1, fun hc => h3 (Or.inl hc), fun q hq => absurd (Or.inr ⟨q, hq⟩) h3⟩
    · refine ⟨ha.alloc, h.unmixed q a ha, fun q' hq' => ?_⟩
      rw [h.unshared q' q a hq' ha]
      exact ⟨h1, h2⟩
  have hnot : ∀ a, a ∈ l₁ ∨ a ∈ hand₁ → ¬ Owns lk s₁.mem root a := by
    intro a ha
    obtain ⟨_, h2, h3⟩ := hout a ha
    rintro (hc | ⟨q, hc⟩)
    · exact h2 ((htables.tableOf a).mp hc)
    · obtain ⟨h4, h5⟩ := (hmaps q a).mp hc
      exact h5 (h3 q h4)
  refine ⟨⟨hspace, ⟨hspace.table, htables.plain h.walkable.plain, fun q hq hm => ?_⟩,
    fun a ha => ?_,
    fun q a hm hta => ?_, fun q a hm hal => ?_, fun q q' a hm hm' => ?_, fun a ha => ?_, hnodup⟩,
    ⟨fun a => ?_, hsame⟩⟩
  · unfold IsMapped at hm
    rw [hptes q hq] at hm ⊢
    by_cases hin : v ≤ q ∧ q < v + n
    · rw [if_pos hin, Nat.zero_testBit] at hm
      cases hm
    · rw [if_neg hin] at hm ⊢
      exact h.walkable.leaf q hq hm
  · exact h.tables a ((htables.tableOf a).mp ha)
  · exact h.unmixed q a ((hmaps q a).mp hm).1 ((htables.tableOf a).mp hta)
  · exact hnot a (Or.inl hal) (Or.inr ⟨q, hm⟩)
  · exact h.unshared q q' a ((hmaps q a).mp hm).1 ((hmaps q' a).mp hm').1
  · exact ⟨(hout a (Or.inr ha)).1, hhand a ha, hnot a (Or.inr ha)⟩
  · unfold Has Owns
    rw [htables.tableOf a]
    simp only [hmaps]
    have hp := hpages a
    constructor
    · rintro (ha | (ha | ⟨q, ha, _⟩) | ha)
      · rcases hp.mp (Or.inl ha) with (ha | ha) | ⟨q, _, _, ha⟩
        · exact Or.inl ha
        · exact Or.inr (Or.inr ha)
        · exact Or.inr (Or.inl (Or.inr ⟨q, ha⟩))
      · exact Or.inr (Or.inl (Or.inl ha))
      · exact Or.inr (Or.inl (Or.inr ⟨q, ha⟩))
      · rcases hp.mp (Or.inr ha) with (ha | ha) | ⟨q, _, _, ha⟩
        · exact Or.inl ha
        · exact Or.inr (Or.inr ha)
        · exact Or.inr (Or.inl (Or.inr ⟨q, ha⟩))
    · rintro (ha | (ha | ⟨q, ha⟩) | ha)
      · rcases hp.mpr (Or.inl (Or.inl ha)) with ha | ha
        · exact Or.inl ha
        · exact Or.inr (Or.inr ha)
      · exact Or.inr (Or.inl (Or.inl ha))
      · by_cases hq : v ≤ q ∧ q < v + n
        · rcases hp.mpr (Or.inr ⟨q, hq.1, hq.2, ha⟩) with ha | ha
          · exact Or.inl ha
          · exact Or.inr (Or.inr ha)
        · exact Or.inr (Or.inl (Or.inr ⟨q, ha, hq⟩))
      · rcases hp.mpr (Or.inl (Or.inr ha)) with ha | ha
        · exact Or.inl ha
        · exact Or.inr (Or.inr ha)

/-- `uvmunmap` with `do_free`: the pages of the range go to the free list. -/
theorem AddrSpace.uvmunmap_runs (h : AddrSpace lk s root l hand) {va : Nat} (hva : va % PGSIZE = 0)
    (hend : va + n * PGSIZE ≤ MAXVA) :
    Runs (fun _ => ¬ ∀ q, va / PGSIZE ≤ q → q < va / PGSIZE + n → CanUnmap lk s.mem root true q)
      (uvmunmap lk root va n true) s (fun _ s' => ∃ l', AddrSpace lk s' root l' hand ∧
        Moved lk root s l hand s' l' hand ∧
        Unmaps lk root (va / PGSIZE) n true s s' l l') := by
  have hmax := MAXVA_eq
  have hlimit : va / PGSIZE + n ≤ 512 ^ 3 := by
    simp only [PGSIZE_eq] at *
    omega
  apply (ThuKernel.uvmunmap_runs true hva hend h.space fun _ => h.apart hlimit).imp
  rintro _ s' ⟨l', hs', hun⟩
  have hmem : ∀ a, a ∈ freed s.mem root true (va / PGSIZE) n ↔
      ∃ q, va / PGSIZE ≤ q ∧ q < va / PGSIZE + n ∧ MapsTo lk s.mem root q a := by
    intro a
    rw [mem_freed]
    constructor
    · rintro ⟨_, q, h1, h2, rfl⟩
      have hgood := hun.good q h1 h2
      exact ⟨q, h1, h2, by omega, hgood.mapped, rfl, hgood.frame rfl⟩
    · rintro ⟨q, h1, h2, ha⟩
      exact ⟨rfl, q, h1, h2, ha.frame⟩
  have hl : ∀ a, a ∈ l' ↔ a ∈ l ∨ ∃ q, va / PGSIZE ≤ q ∧ q < va / PGSIZE + n ∧
      MapsTo lk s.mem root q a := by
    intro a
    rw [hun.list, List.mem_append, List.mem_reverse, hmem a, or_comm]
  have hpages : ∀ a, a ∈ l' ∨ a ∈ hand ↔ (a ∈ l ∨ a ∈ hand) ∨
      ∃ q, va / PGSIZE ≤ q ∧ q < va / PGSIZE + n ∧ MapsTo lk s.mem root q a := by
    intro a
    rw [hl a, or_right_comm]
  have hunfree : ∀ a ∈ hand, a ∉ l' := by
    intro a ha hc
    rcases (hl a).mp hc with hc | ⟨q, _, _, hc⟩
    · exact (h.handOk a ha).2.1 hc
    · exact (h.handOk a ha).2.2 (Or.inr ⟨q, hc⟩)
  have hsame : SameOn PGSIZE (fun a => ¬ Has lk s root l hand a) s.mem s'.mem := by
    apply hun.same.mono
    intro a ha
    refine ⟨fun hc => ha (Or.inr (Or.inl (Or.inl hc))), fun hc => ?_⟩
    obtain ⟨q, _, _, hc⟩ := (hmem a).mp hc
    exact ha (Or.inr (Or.inl (Or.inr ⟨q, hc⟩)))
  obtain ⟨h₁, hmoved⟩ := h.unmap hs' hun.tables hun.pte hpages hunfree h.handNodup hsame
  exact ⟨l', h₁, hmoved, hun⟩

/-- `uvmunmap` of one page without `do_free`: the page goes to the hand, if it
is one of the allocator. -/
theorem AddrSpace.uvmunmap_keep_runs (h : AddrSpace lk s root l hand) {va : Nat}
    (hva : va = q * PGSIZE) (hend : va < MAXVA) :
    Runs (fun _ => ¬ CanUnmap lk s.mem root false q) (uvmunmap lk root va 1 false) s (fun _ s' =>
      AddrSpace lk s' root l
        ((if IsFrame lk (frameAt s.mem root q) then [frameAt s.mem root q] else []) ++ hand) ∧
      Moved lk root s l hand s' l
        ((if IsFrame lk (frameAt s.mem root q) then [frameAt s.mem root q] else []) ++ hand) ∧
      Unmaps lk root q 1 false s s' l l) := by
  subst hva
  have hmax := MAXVA_eq
  have hq : q * PGSIZE / PGSIZE = q := Nat.mul_div_cancel q (by decide)
  have hlimit : q < 512 ^ 3 := by
    simp only [PGSIZE_eq] at *
    omega
  have hrun := ThuKernel.uvmunmap_runs false (Nat.mul_mod_left q PGSIZE)
    (show q * PGSIZE + 1 * PGSIZE ≤ MAXVA by simp only [PGSIZE_eq] at *; omega) h.space
    (fun hc => by cases hc)
  rw [hq] at hrun
  apply hrun.mono
  · intro e he hcan
    apply he
    intro q' h1 h2
    rw [show q' = q by omega]
    exact hcan
  · rintro _ s' ⟨l', hs', hun⟩
    have hl' : l' = l := hun.list
    subst hl'
    have hcan := hun.good q (Nat.le_refl _) (Nat.lt_succ_self _)
    have hhere : ∀ a, MapsTo lk s.mem root q a ↔ a = frameAt s.mem root q ∧ IsFrame lk a := by
      intro a
      constructor
      · intro ha
        exact ⟨ha.frame.symm, ha.alloc⟩
      · rintro ⟨rfl, ha⟩
        exact ⟨hlimit, hcan.mapped, rfl, ha⟩
    have hmem : ∀ a, a ∈
        (if IsFrame lk (frameAt s.mem root q) then [frameAt s.mem root q] else []) ↔
        MapsTo lk s.mem root q a := by
      intro a
      rw [hhere a]
      split
      · rename_i hf
        rw [List.mem_singleton]
        constructor
        · rintro rfl
          exact ⟨rfl, hf⟩
        · exact And.left
      · rename_i hf
        constructor
        · intro hc
          cases hc
        · rintro ⟨rfl, hc⟩
          exact absurd hc hf
    have hpages : ∀ a, a ∈ l' ∨
        a ∈ (if IsFrame lk (frameAt s.mem root q) then [frameAt s.mem root q] else []) ++ hand ↔
        (a ∈ l' ∨ a ∈ hand) ∨ ∃ q', q ≤ q' ∧ q' < q + 1 ∧ MapsTo lk s.mem root q' a := by
      intro a
      rw [List.mem_append, hmem a]
      constructor
      · rintro (ha | ha | ha)
        · exact Or.inl (Or.inl ha)
        · exact Or.inr ⟨q, Nat.le_refl _, Nat.lt_succ_self _, ha⟩
        · exact Or.inl (Or.inr ha)
      · rintro ((ha | ha) | ⟨q', h1, h2, ha⟩)
        · exact Or.inl ha
        · exact Or.inr (Or.inr ha)
        · rw [show q' = q by omega] at ha
          exact Or.inr (Or.inl ha)
    have hunfree : ∀ a ∈
        (if IsFrame lk (frameAt s.mem root q) then [frameAt s.mem root q] else []) ++
        hand, a ∉ l' := by
      intro a ha
      rcases List.mem_append.mp ha with ha | ha
      · exact h.unfree q a ((hmem a).mp ha)
      · exact (h.handOk a ha).2.1
    have hnodup : ((if IsFrame lk (frameAt s.mem root q) then [frameAt s.mem root q] else []) ++
        hand).Nodup := by
      rw [List.nodup_append]
      refine ⟨?_, h.handNodup, fun a ha b hb he => ?_⟩
      · split
        · exact List.nodup_cons.mpr ⟨List.not_mem_nil, List.nodup_nil⟩
        · exact List.nodup_nil
      · subst he
        exact (h.handOk a hb).2.2 (Or.inr ⟨q, (hmem a).mp ha⟩)
    have hsame : SameOn PGSIZE (fun a => ¬ Has lk s root l' hand a) s.mem s'.mem := by
      apply hun.same.mono
      intro a ha
      refine ⟨fun hc => ha (Or.inr (Or.inl (Or.inl hc))), fun hc => ?_⟩
      rw [mem_freed] at hc
      cases hc.1
    obtain ⟨h₁, hmoved⟩ := h.unmap hs' hun.tables hun.pte hpages hunfree hnodup hsame
    exact ⟨h₁, hmoved, hun⟩

/-! ## Taking the address space down -/

/-- What is left of an address space: the free list. The pages `gone` went
there. -/
structure TornDown (lk : Link) (root : Nat) (gone : Nat → Prop) (s : Mm) (l : List Nat) (s' : Mm)
    (l' : List Nat) : Prop where
  free : FreeList lk s' l'
  list : ∀ a, a ∈ l' ↔ a ∈ l ∨ gone a
  same : SameOn PGSIZE (fun a => a ∉ l ∧ ¬ Owns lk s.mem root a) s.mem s'.mem

theorem AddrSpace.freewalk_runs (h : AddrSpace lk s root l hand) :
    Runs E (freewalk lk 3 root) s (fun _ s' => ∃ l',
      TornDown lk root (TableOf s.mem root) s l s' l') := by
  have hframes : ∀ a, Below s.mem root 0 0 a → IsFrame lk a ∧ a ∉ l := by
    intro a ha
    rw [below_root] at ha
    exact ⟨h.tables a ha, fun hc => h.space.apart a hc ha⟩
  apply (ThuKernel.freewalk_runs h.walkable (d := 0) (n := 0) rfl (by decide) (by decide) rfl
    h.space.free SameOn.refl hframes).imp
  rintro _ s' ⟨l', hfree, hlist, hsame⟩
  refine ⟨l', hfree, fun a => ?_, hsame.mono fun a ha hc => ?_⟩
  · rw [hlist a, below_root]
  · rw [below_root] at hc
    exact ha.2 (Or.inl hc)

/-- The number of pages that a size takes. -/
def npages (sz : Nat) : Nat := PGROUNDUP sz / PGSIZE

theorem npages_zero : npages 0 = 0 := by decide

/-- The pages of a size, when it is no more than the address space. -/
theorem npages_le {sz m : Nat} (hsz : sz ≤ m * PGSIZE) (hm : m * PGSIZE ≤ MAXVA) :
    npages sz ≤ m := by
  have hmax := MAXVA_eq
  unfold npages PGROUNDUP
  rw [Nat.mul_div_cancel _ (by decide)]
  simp only [PGSIZE_eq] at *
  omega

/-- `uvmfree` frees the pages of `[0, sz)` and the tables. -/
theorem AddrSpace.uvmfree_runs (h : AddrSpace lk s root l hand) {sz : Nat} (hsz : sz ≤ MAXVA) :
    Runs (fun _ => ¬ ∀ q < npages sz, CanUnmap lk s.mem root true q) (uvmfree lk root sz) s
      (fun _ s' => (∀ q < npages sz, CanUnmap lk s.mem root true q) ∧ ∃ l', TornDown lk root
        (fun a => TableOf s.mem root a ∨ ∃ q < npages sz, MapsTo lk s.mem root q a) s l s' l') := by
  have hmax := MAXVA_eq
  have hend : 0 + npages sz * PGSIZE ≤ MAXVA := by
    have hle : npages sz ≤ 2 ^ 26 := npages_le (hsz.trans_eq hmax) (by rw [hmax]; decide)
    simp only [PGSIZE_eq] at *
    omega
  have hzero : 0 / PGSIZE = 0 := rfl
  unfold uvmfree
  rw [Runs.bind_iff, Runs.when_iff]
  constructor
  · intro _
    apply (h.uvmunmap_runs (rfl : 0 % PGSIZE = 0) hend).mono
    · intro e he hgood
      apply he
      intro q _ hq
      rw [hzero, Nat.zero_add] at hq
      exact hgood q hq
    · rintro _ s₁ ⟨l₁, h₁, hmoved, hun⟩
      have hgood : ∀ q < npages sz, CanUnmap lk s.mem root true q := fun q hq =>
        hun.good q (Nat.zero_le q) (by rw [hzero, Nat.zero_add]; exact hq)
      apply (h₁.freewalk_runs).imp
      rintro _ s₂ ⟨l₂, hfree, hlist, hsame⟩
      have hl₁ : ∀ a, a ∈ l₁ ↔ a ∈ l ∨ ∃ q < npages sz, MapsTo lk s.mem root q a := by
        intro a
        rw [hun.list, List.mem_append, List.mem_reverse, mem_freed, hzero, Nat.zero_add, or_comm]
        constructor
        · rintro (ha | ⟨_, q, _, hq, rfl⟩)
          · exact Or.inl ha
          · have hlt : q < 512 ^ 3 := by
              simp only [PGSIZE_eq] at *
              omega
            exact Or.inr ⟨q, hq, hlt, (hgood q hq).mapped, rfl, (hgood q hq).frame rfl⟩
        · rintro (ha | ⟨q, hq, ha⟩)
          · exact Or.inl ha
          · exact Or.inr ⟨rfl, q, Nat.zero_le q, hq, ha.frame⟩
      refine ⟨hgood, l₂, hfree, fun a => ?_, ?_⟩
      · rw [hlist a, hl₁ a, hun.tables.tableOf a]
        constructor
        · rintro ((ha | ha) | ha)
          · exact Or.inl ha
          · exact Or.inr (Or.inr ha)
          · exact Or.inr (Or.inl ha)
        · rintro (ha | ha | ha)
          · exact Or.inl (Or.inl ha)
          · exact Or.inr ha
          · exact Or.inl (Or.inr ha)
      · apply (hun.same.mono _).trans (hsame.mono _)
        · rintro a ⟨ha, hno⟩
          refine ⟨fun hc => hno (Or.inl hc), fun hc => ?_⟩
          rw [mem_freed, hzero, Nat.zero_add] at hc
          obtain ⟨_, q, _, hq, rfl⟩ := hc
          have hlt : q < 512 ^ 3 := by
            simp only [PGSIZE_eq] at *
            omega
          exact hno (Or.inr ⟨q, hlt, (hgood q hq).mapped, rfl, (hgood q hq).frame rfl⟩)
        · rintro a ⟨ha, hno⟩
          refine ⟨fun hc => ?_, fun hc => ?_⟩
          · rcases (hl₁ a).mp hc with hc | ⟨q, _, hc⟩
            · exact ha hc
            · exact hno (Or.inr ⟨q, hc⟩)
          · rcases hc with hc | ⟨q, hc⟩
            · exact hno (Or.inl ((hun.tables.tableOf a).mp hc))
            · have hpte := hun.pte q hc.limit
              have hmapped := hc.mapped
              split at hpte
              · rw [IsMapped, hpte, Nat.zero_testBit] at hmapped
                cases hmapped
              · exact hno (Or.inr ⟨q, (mapsTo_congr fun _ => hpte).mp hc⟩)
  · intro hzero
    have hsz0 : sz = 0 := by omega
    subst hsz0
    apply (h.freewalk_runs).imp
    rintro _ s₁ ⟨l₁, hfree, hlist, hsame⟩
    rw [npages_zero]
    refine ⟨fun q hq => absurd hq (Nat.not_lt_zero q), l₁, hfree, fun a => ?_, hsame⟩
    rw [hlist a]
    constructor
    · rintro (ha | ha)
      · exact Or.inl ha
      · exact Or.inr (Or.inl ha)
    · rintro (ha | ha | ⟨q, hq, _⟩)
      · exact Or.inl ha
      · exact Or.inr ha
      · exact absurd hq (Nat.not_lt_zero q)

end ThuKernel
