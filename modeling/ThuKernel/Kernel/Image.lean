-- The address space of a process: what `proc_pagetable` and `loader` build, what
-- `uvmcopy` copies, and what `proc_freepagetable` gives back.
import ThuKernel.Kernel.Proc
import ThuKernel.Vm.Spaces

namespace ThuKernel

/-! ## The contents of a page table -/

/-- The page number of the trampoline. -/
def trampolinePage : Nat := 2 ^ 26 - 1

/-- The page number of the saved registers. -/
def trapframePage : Nat := 2 ^ 26 - 2

/-- The entries of all page numbers. -/
def HasPtes (mem : Bytes) (root : Nat) (f : Nat → Nat) : Prop :=
  ∀ q < 512 ^ 3, pteAt mem root q = f q

/-- The trampoline, the page `tf` of the saved registers, and the entries `u` of
the user. -/
def procPtes (lk : Link) (tf : Nat) (u : Nat → Nat) (q : Nat) : Nat :=
  if q = trampolinePage then leafPte lk.trampoline (PTE_R ||| PTE_X)
  else if q = trapframePage then leafPte tf (PTE_R ||| PTE_W)
  else u q

variable {lk : Link} {E : Stop → Prop} {s s₁ s₂ : Mm} {mem : Bytes} {r tf a q : Nat}
  {R X : Nat → Prop}
variable {f : Nat → Nat} {l l₁ : List Nat}

theorem trampoline_page : TRAMPOLINE = trampolinePage * PGSIZE := TRAMPOLINE_eq

theorem trapframe_page : TRAPFRAME = trapframePage * PGSIZE := TRAPFRAME_eq

/-- The trampoline is a page of the kernel, not of the allocator. -/
theorem trampoline_not_frame : ¬ IsFrame lk lk.trampoline := by
  intro h
  have h1 := h.above
  have h2 := lk.inside
  omega

theorem IsFrame.trampoline (h : IsFrame lk a) : IsPage lk.trampoline := by
  refine ⟨lk.aligned, ?_⟩
  have h1 := h.above
  have h2 := lk.inside
  have h3 := h.isPage.below
  omega

/-! ## proc_pagetable -/

/-- A page table for a process that has no page yet: its tables came from the
free list, and the page `tf` went into it. -/
structure NewImage (lk : Link) (R X : Nat → Prop) (tf : Nat) (s : Mm) (l : List Nat)
    (r : Nat) (s' : Mm) (l' : List Nat) : Prop where
  spaces : Spaces lk s' (fun p => R p ∨ p = r) l' (fun a => X a ∧ a ≠ tf)
  fresh : ¬ R r
  ptes : HasPtes s'.mem r (procPtes lk tf fun _ => 0)
  others : AllSame R s s'
  pages : ∀ a, a ∈ l ↔ a ∈ l' ∨ TableOf s'.mem r a
  count : l.length ≤ l'.length + 3
  same : SameOn PGSIZE (fun a => a ∉ l ∧ a ≠ tf) s.mem s'.mem

/-- No page table was made, and the same pages are free. -/
structure NoImage (lk : Link) (R X : Nat → Prop) (s : Mm) (l : List Nat) (s' : Mm) (l' : List Nat) :
    Prop where
  spaces : Spaces lk s' R l' X
  others : AllSame R s s'
  pages : SamePages l l'
  few : l.length < 3
  same : SameOn PGSIZE (· ∉ l) s.mem s'.mem

/-- A page that `procPtes` does not map for the kernel. -/
theorem procPtes_user {tf : Nat} {u : Nat → Nat} (h : q ≠ trampolinePage) (h' : q ≠ trapframePage) :
    procPtes lk tf u q = u q := by
  rw [procPtes, if_neg h, if_neg h']

theorem trampoline_in : TRAMPOLINE < MAXVA := by
  rw [trampoline_page, MAXVA_eq]
  decide

theorem trapframe_in : TRAPFRAME < MAXVA := by
  rw [trapframe_page, MAXVA_eq]
  decide

/-- The entries of a table with the trampoline only. -/
def trampolinePtes (lk : Link) (q : Nat) : Nat :=
  if q = trampolinePage then leafPte lk.trampoline (PTE_R ||| PTE_X) else 0

/-- A new page table with the entries `f`: its tables came from the free list. -/
structure BareTable (lk : Link) (R X : Nat → Prop) (f : Nat → Nat) (s : Mm) (l : List Nat)
    (r : Nat) (s' : Mm) (l' : List Nat) : Prop where
  spaces : Spaces lk s' (fun p => R p ∨ p = r) l' X
  fresh : ¬ R r
  ptes : HasPtes s'.mem r f
  others : AllSame R s s'
  has : ∀ a, Has lk s' r l' [] a ↔ a ∈ l
  same : SameOn PGSIZE (· ∉ l) s.mem s'.mem

theorem BareTable.in (_ : BareTable lk R X f s l r s₁ l₁) : (fun p => R p ∨ p = r) r := Or.inr rfl

/-- What `uvmcreate` leaves. -/
theorem Empty.bareTable (hempty : Empty s₁.mem r) (h₁ : Spaces lk s₁ (fun p => R p ∨ p = r) l₁ X)
    (hl : l = r :: l₁) (hnew : ¬ R r) (hall : AllSame R s s₁)
    (hsame : SameOn PGSIZE (· ≠ r) s.mem s₁.mem) :
    BareTable lk R X (fun _ => 0) s l r s₁ l₁ where
  spaces := h₁
  fresh := hnew
  ptes := fun q _ => hempty.pteAt q
  others := hall
  has := by
    intro a
    unfold Has
    rw [hempty.owns a, hl, List.mem_cons]
    simp only [List.not_mem_nil, or_false]
    exact or_comm
  same := hsame.mono fun a ha => by
    rintro rfl
    rw [hl] at ha
    exact ha (List.mem_cons_self ..)

/-- A page of the new table in which nothing is in hand. -/
theorem BareTable.step (h : BareTable lk R X f s l r s₁ l₁) {s₂ : Mm} {l₂ : List Nat}
    {g : Nat → Nat} (hsp : AddrSpace lk s₂ r l₂ []) (hmoved : Moved lk r s₁ l₁ [] s₂ l₂ [])
    (hptes : HasPtes s₂.mem r g) :
    BareTable lk R X g s l r s₂ l₂ := by
  have hX : ∀ a ∈ ([] : List Nat), X a := fun a ha => by cases ha
  obtain ⟨h₂, hothers⟩ := h.spaces.step h.in hX hsp hmoved
  refine ⟨h₂.congr (fun p hp => hp) fun a ha => Or.inl ⟨ha, List.not_mem_nil⟩, h.fresh, hptes,
    h.others.trans (hothers.all h.fresh), fun a => (hmoved.pages a).trans (h.has a),
    h.same.trans (hmoved.same.mono fun a ha hc => ha ((h.has a).mp hc))⟩

/-- The trampoline goes into a new table, with two tables above it, or there is
no page for one of these. -/
theorem BareTable.trampoline_runs (h : BareTable lk R X (fun _ => 0) s l r s₁ l₁)
    (hpage : IsPage lk.trampoline) (hl : l.length = l₁.length + 1) :
    Runs E (mappages r TRAMPOLINE PGSIZE lk.trampoline (PTE_R ||| PTE_X)) s₁ (fun c s' => ∃ l',
      (c = 0 ∧ BareTable lk R X (trampolinePtes lk) s l r s' l' ∧ l.length ≤ l'.length + 3) ∨
      (c = -1 ∧ BareTable lk R X (fun _ => 0) s l r s' l' ∧ l.length < 3)) := by
  have hhand : ([] : List Nat) = (if IsFrame lk lk.trampoline then [lk.trampoline] else []) ++
      [] := by
    rw [if_neg trampoline_not_frame]
    rfl
  have htables := missing_le s₁.mem r trampolinePage 2
  apply ((h.spaces.space r h.in).mappages_runs trampoline_page trampoline_in hpage
    (by decide) (by decide) hhand).mono (fun _ he => he)
  rintro c s₂ ⟨l₂, hsp, hmoved, hmaps⟩
  rw [ite_self] at hsp hmoved
  refine ⟨l₂, ?_⟩
  by_cases hc : c = 0
  · obtain ⟨_, hpte⟩ := hmaps.ok hc
    refine Or.inl ⟨hc, h.step hsp hmoved fun q hq => ?_, ?_⟩
    · rw [hpte q hq, h.ptes q hq, trampolinePtes]
    · have := hmaps.count
      omega
  · obtain ⟨hc, hptes, hbad⟩ := hmaps.failed hc
    refine Or.inr ⟨hc, h.step hsp hmoved fun q hq => (hptes q hq).trans (h.ptes q hq), ?_⟩
    rcases hbad with hbad | ⟨_, hbad⟩
    · rw [IsMapped, h.ptes _ (by decide), Nat.zero_testBit] at hbad
      cases hbad
    · omega

/-- The page of the saved registers, once it is mapped. -/
theorem HasPtes.trapframe {u : Nat → Nat} (h : HasPtes mem r (procPtes lk tf u))
    (htf : IsFrame lk tf) :
    MapsTo lk mem r trapframePage tf := by
  refine ⟨by decide, ?_, ?_, htf⟩
  · unfold IsMapped
    rw [h _ (by decide), procPtes, if_neg (by decide), if_pos rfl, leafPte_valid]
  · unfold frameAt
    rw [h _ (by decide), procPtes, if_neg (by decide), if_pos rfl,
      (leafPte_decode htf.aligned (by decide)).1, Nat.mod_eq_of_lt htf.isPage.below]

/-- A table without a page of the user owns its tables and the page of the saved
registers. -/
theorem HasPtes.owns_new (h : HasPtes mem r (procPtes lk tf fun _ => 0)) (htf : IsFrame lk tf)
    (ha : Owns lk mem r a) : TableOf mem r a ∨ a = tf := by
  rcases ha with ha | ⟨q, ha⟩
  · exact Or.inl ha
  have hf := ha.frame
  have hmapped := ha.mapped
  unfold frameAt at hf
  rw [IsMapped, h q ha.limit] at hmapped
  rw [h q ha.limit] at hf
  by_cases h1 : q = trampolinePage
  · rw [procPtes, if_pos h1, (leafPte_decode lk.aligned (by decide)).1,
      Nat.mod_eq_of_lt htf.trampoline.below] at hf
    exact absurd (hf ▸ ha.alloc) trampoline_not_frame
  by_cases h2 : q = trapframePage
  · rw [procPtes, if_neg h1, if_pos h2, (leafPte_decode htf.aligned (by decide)).1,
      Nat.mod_eq_of_lt htf.isPage.below] at hf
    exact Or.inr hf.symm
  · rw [procPtes_user h1 h2, Nat.zero_testBit] at hmapped
    cases hmapped

/-- The page of the saved registers goes next to the trampoline, where no table
is missing. -/
theorem BareTable.trapframe_runs (h : BareTable lk R X (trampolinePtes lk) s l r s₁ l₁)
    (hs : Spaces lk s R l X) (htf : X tf) (hl : l.length ≤ l₁.length + 3) :
    Runs E (mappages r TRAPFRAME PGSIZE tf (PTE_R ||| PTE_W))
      { s₁ with mem := s₁.mem.fill tf TRAPFRAME_REGS 0 } (fun c s' =>
        c = 0 ∧ ∃ l', NewImage lk R X tf s l r s' l') := by
  obtain ⟨hframe, htfl, htfun⟩ := h.spaces.kept tf htf
  have hfill : SameOn PGSIZE (· ≠ tf) s₁.mem (s₁.mem.fill tf TRAPFRAME_REGS 0) :=
    SameOn.fill hframe.aligned (by decide)
  obtain ⟨h₂, hsame₂⟩ := h.spaces.write hfill (fun p hp hc => htfun p hp (Or.inl hc)) htfl
  have hpte₂ : HasPtes (s₁.mem.fill tf TRAPFRAME_REGS 0) r (trampolinePtes lk) := fun q hq =>
    ((hsame₂ r h.in).2 q hq).trans (h.ptes q hq)
  have hhas₂ : ∀ a, Has lk { s₁ with mem := s₁.mem.fill tf TRAPFRAME_REGS 0 } r l₁ [tf] a ↔
      a ∈ l ∨ a = tf := by
    intro a
    rw [← h.has a]
    unfold Has
    rw [(hsame₂ r h.in).1.owns (hsame₂ r h.in).2 a, List.mem_singleton]
    simp only [List.not_mem_nil, or_false]
    exact or_assoc.symm
  have hX : ∀ a ∈ [tf], X a := fun a ha => by rwa [List.mem_singleton.mp ha]
  have hhand : [tf] = (if IsFrame lk tf then [tf] else []) ++ [] := by
    rw [if_pos hframe]
    rfl
  have hun : ¬ IsMapped (s₁.mem.fill tf TRAPFRAME_REGS 0) r trapframePage := by
    unfold IsMapped
    rw [hpte₂ _ (by decide), trampolinePtes, if_neg (by decide), Nat.zero_testBit]
    decide
  have hnear : IsMapped (s₁.mem.fill tf TRAPFRAME_REGS 0) r trampolinePage := by
    unfold IsMapped
    rw [hpte₂ _ (by decide), trampolinePtes, if_pos rfl, leafPte_valid]
  have hmissing := missing_of_block hnear (v := trapframePage) (by decide)
  apply ((h₂.focus h.in hX (List.nodup_cons.mpr ⟨List.not_mem_nil, List.nodup_nil⟩)).mappages_runs
    trapframe_page trapframe_in hframe.isPage (by decide) (by decide) hhand).mono (fun _ he => he)
  rintro c s₃ ⟨l₃, hsp, hmoved, hmaps⟩
  have hc : c = 0 := by
    by_contra hc
    obtain ⟨_, _, hbad | ⟨_, hbad⟩⟩ := hmaps.failed hc
    · exact hun hbad
    · rw [hmissing] at hbad
      exact absurd hbad (Nat.not_lt_zero _)
  rw [if_pos hc] at hsp hmoved
  obtain ⟨_, hpte⟩ := hmaps.ok hc
  obtain ⟨h₃, hothers⟩ := h₂.step h.in hX hsp hmoved
  have hptes : HasPtes s₃.mem r (procPtes lk tf fun _ => 0) := by
    intro q hq
    rw [hpte q hq]
    unfold procPtes
    by_cases h1 : q = trapframePage
    · rw [if_pos h1, if_neg (by rw [h1]; decide), if_pos h1]
    · rw [if_neg h1, if_neg h1, hpte₂ q hq, trampolinePtes]
  have hmap := hptes.trapframe hframe
  refine ⟨hc, l₃, h₃.congr (fun p hp => hp) (fun a ha => Or.inl ⟨ha.1, ?_⟩), h.fresh, hptes, ?_,
    fun a => ?_, ?_, ?_⟩
  · rw [List.mem_singleton]
    exact ha.2
  · exact (h.others.trans fun p hp => hsame₂ p (Or.inl hp)).trans (hothers.all h.fresh)
  · constructor
    · intro ha
      rcases (hmoved.pages a).mpr ((hhas₂ a).mpr (Or.inl ha)) with hc | hc | hc
      · exact Or.inl hc
      · rcases hptes.owns_new hframe hc with hc | rfl
        · exact Or.inr hc
        · exact absurd ha (hs.kept _ htf).2.1
      · cases hc
    · intro ha
      have hc : Has lk s₃ r l₃ [] a := ha.imp_right fun ha => Or.inl (Or.inl ha)
      rcases (hhas₂ a).mp ((hmoved.pages a).mp hc) with hc | rfl
      · exact hc
      · rcases ha with ha | ha
        · exact absurd ha (hsp.unfree _ _ hmap)
        · exact absurd ha (hsp.unmixed _ _ hmap)
  · have := hmaps.count
    rw [hmissing] at this
    omega
  · apply (h.same.mono fun a ha => ha.1).trans
      ((hfill.mono fun a ha => ha.2).trans (hmoved.same.mono _))
    rintro a ⟨ha, hne⟩ hc
    rcases (hhas₂ a).mp hc with hc | hc
    · exact ha hc
    · exact hne hc

/-- A new table without a page is given back as a whole. -/
theorem BareTable.undo_runs (h : BareTable lk R X (fun _ => 0) s l r s₁ l₁) (hfew : l.length < 3) :
    Runs E (uvmfree lk r 0) s₁ (fun _ s' => ∃ l', NoImage lk R X s l s' l') := by
  have hno : ∀ q a, ¬ MapsTo lk s₁.mem r q a := by
    intro q a ha
    have hm := ha.mapped
    rw [IsMapped, h.ptes q ha.limit, Nat.zero_testBit] at hm
    cases hm
  have hgood : ∀ q < npages 0, CanUnmap lk s₁.mem r true q := by
    rw [npages_zero]
    exact fun q hq => absurd hq (Nat.not_lt_zero q)
  apply ((h.spaces.space r h.in).uvmfree_runs (Nat.zero_le _)).mono (fun e he => absurd hgood he)
  rintro _ s₂ ⟨_, l₂, hdown⟩
  have hgone : ∀ a, (TableOf s₁.mem r a ∨ ∃ q < npages 0, MapsTo lk s₁.mem r q a) ↔
      Owns lk s₁.mem r a := by
    intro a
    constructor
    · rintro (ha | ⟨q, _, ha⟩)
      · exact Or.inl ha
      · exact absurd ha (hno q a)
    · rintro (ha | ⟨q, ha⟩)
      · exact Or.inl ha
      · exact absurd ha (hno q a)
  obtain ⟨h₂, hothers⟩ := h.spaces.tornDown h.in (fun a ha => (hgone a).mp ha) hdown
  refine ⟨l₂, h₂.congr (fun p hp => ⟨Or.inl hp, ?_⟩) (fun a ha => Or.inl ha), ?_,
    fun a => ?_, hfew, ?_⟩
  · rintro rfl
    exact h.fresh hp
  · exact h.others.trans (hothers.all h.fresh)
  · rw [hdown.list a, hgone a, ← h.has a]
    unfold Has
    simp only [List.not_mem_nil, or_false]
  · apply h.same.trans (hdown.same.mono _)
    intro a ha
    have hc : ¬ Has lk s₁ r l₁ [] a := fun hc => ha ((h.has a).mp hc)
    exact ⟨fun hl => hc (Or.inl hl), fun ho => hc (Or.inr (Or.inl ho))⟩

theorem proc_pagetable_runs (hs : Spaces lk s R l X) (htf : X tf) :
    Runs (fun e => e = .panic "" ∧ l = []) (proc_pagetable lk tf) s (fun r s' =>
      (r = 0 ∧ ∃ l', NoImage lk R X s l s' l') ∨
      (r ≠ 0 ∧ ∃ l', NewImage lk R X tf s l r s' l')) := by
  unfold proc_pagetable
  apply (hs.uvmcreate_runs).bind
  rintro r s₁ (⟨hl, rfl, rfl⟩ | ⟨hr, l₁, hl, h₁, hempty, hnew, hall, hsame⟩)
  · rw [if_pos rfl, Runs.panic_iff]
    exact ⟨rfl, hl⟩
  rw [if_neg hr]
  have htable := Empty.bareTable hempty h₁ hl hnew hall hsame
  apply (htable.trampoline_runs (hs.kept tf htf).1.trampoline (by rw [hl, List.length_cons])).bind
  rintro c s₂ ⟨l₂, ⟨rfl, htable₂, hcount⟩ | ⟨rfl, htable₂, hfew⟩⟩
  · rw [if_neg (by decide), Runs.bind_iff, memset, Runs.modify_iff]
    apply (htable₂.trapframe_runs hs htf hcount).bind
    rintro c s₃ ⟨rfl, himage⟩
    rw [if_neg (by decide), Runs.pure_iff]
    exact Or.inr ⟨hr, himage⟩
  · rw [if_pos (by decide)]
    apply (htable₂.undo_runs hfew).bind
    rintro _ s₃ hno
    rw [Runs.pure_iff]
    exact Or.inl ⟨rfl, hno⟩

/-! ## proc_freepagetable -/

/-- `proc_freepagetable` reaches no panic. -/
structure Freeable (lk : Link) (mem : Bytes) (r sz : Nat) : Prop where
  trampoline : CanUnmap lk mem r false trampolinePage
  trapframe : CanUnmap lk mem r false trapframePage
  pages : ∀ q < npages sz, CanUnmap lk mem r true q

/-- The address space is gone: its tables and the pages of `[0, sz)` are free,
and the pages mapped elsewhere are in no use. -/
structure Gone (lk : Link) (R X : Nat → Prop) (r sz : Nat) (s : Mm) (l : List Nat) (s' : Mm)
    (l' : List Nat) : Prop where
  spaces : Spaces lk s' (fun p => R p ∧ p ≠ r) l'
    (fun a => X a ∨ ∃ q, npages sz ≤ q ∧ MapsTo lk s.mem r q a)
  others : OthersSame R r s s'
  pages : ∀ a, a ∈ l' ↔ a ∈ l ∨ TableOf s.mem r a ∨ ∃ q < npages sz, MapsTo lk s.mem r q a
  same : SameOn PGSIZE (fun a => a ∉ l ∧ ¬ Owns lk s.mem r a) s.mem s'.mem

theorem npages_trapframe {sz : Nat} (hsz : sz ≤ TRAPFRAME) : npages sz ≤ trapframePage := by
  rw [trapframe_page] at hsz
  exact npages_le hsz (by rw [MAXVA_eq]; decide)

/-- The page of a hand that holds the page at one page number. -/
theorem mem_keptPage {mem : Bytes} (hq : q < 512 ^ 3) (h : IsMapped mem r q) :
    a ∈ (if IsFrame lk (frameAt mem r q) then [frameAt mem r q] else []) ↔ MapsTo lk mem r q a := by
  constructor
  · intro ha
    split at ha
    · rename_i hf
      rw [List.mem_singleton] at ha
      subst ha
      exact ⟨hq, h, rfl, hf⟩
    · cases ha
  · intro ha
    rw [ha.frame, if_pos ha.alloc]
    exact List.mem_cons_self ..

theorem proc_freepagetable_runs {sz : Nat} (hs : Spaces lk s R l X) (hr : R r)
    (hsz : sz ≤ TRAPFRAME) :
    Runs (fun _ => ¬ Freeable lk s.mem r sz) (proc_freepagetable lk r sz) s (fun _ s' =>
      Freeable lk s.mem r sz ∧ ∃ l', Gone lk R X r sz s l s' l') := by
  have hnp := npages_trapframe hsz
  have hle : sz ≤ MAXVA := hsz.trans trapframe_in.le
  have hX : ∀ a ∈ ([] : List Nat), X a := fun a ha => by cases ha
  unfold proc_freepagetable
  -- The trampoline and the page of the saved registers stay.
  rw [Runs.bind_iff]
  apply ((hs.space r hr).uvmunmap_keep_runs trampoline_page trampoline_in).mono
  · intro e he h
    exact he h.trampoline
  rintro _ s₁ ⟨hsp₁, hmoved₁, hun₁⟩
  have hpte₁ : ∀ q < 512 ^ 3, q ≠ trampolinePage → pteAt s₁.mem r q = pteAt s.mem r q := by
    intro q hq hne
    rw [hun₁.pte q hq, if_neg (by omega)]
  rw [Runs.bind_iff]
  apply (hsp₁.uvmunmap_keep_runs trapframe_page trapframe_in).mono
  · intro e he h
    exact he ((canUnmap_congr (hpte₁ _ (by decide) (by decide))).mpr h.trapframe)
  rintro _ s₂ ⟨hsp₂, hmoved₂, hun₂⟩
  have hpte₂ : ∀ q < 512 ^ 3, q ≠ trampolinePage → q ≠ trapframePage →
      pteAt s₂.mem r q = pteAt s.mem r q := by
    intro q hq h1 h2
    rw [hun₂.pte q hq, if_neg (by omega), hpte₁ q hq h1]
  have hbelow : ∀ q < npages sz, q ≠ trampolinePage ∧ q ≠ trapframePage ∧ q < 512 ^ 3 := by
    intro q hq
    unfold trapframePage at hnp
    unfold trampolinePage trapframePage
    omega
  have hcan : ∀ q < npages sz, CanUnmap lk s₂.mem r true q ↔ CanUnmap lk s.mem r true q := by
    intro q hq
    obtain ⟨h1, h2, h3⟩ := hbelow q hq
    exact canUnmap_congr (hpte₂ q h3 h1 h2)
  apply (hsp₂.uvmfree_runs hle).mono
  · intro e he h
    exact he fun q hq => (hcan q hq).mpr (h.pages q hq)
  rintro _ s₃ ⟨hgood, l₃, hdown⟩
  have hfreeable : Freeable lk s.mem r sz :=
    ⟨hun₁.good _ (Nat.le_refl _) (Nat.lt_succ_self _),
      (canUnmap_congr (hpte₁ _ (by decide) (by decide))).mp
        (hun₂.good _ (Nat.le_refl _) (Nat.lt_succ_self _)),
      fun q hq => (hcan q hq).mp (hgood q hq)⟩
  refine ⟨hfreeable, l₃, ?_⟩
  -- What is mapped after the two pages are out.
  have hmaps : ∀ q a, MapsTo lk s₂.mem r q a ↔
      MapsTo lk s.mem r q a ∧ q ≠ trampolinePage ∧ q ≠ trapframePage := by
    intro q a
    constructor
    · intro h
      have h1 : q ≠ trampolinePage := by
        rintro rfl
        have := h.mapped
        rw [IsMapped, hun₂.pte _ h.limit, if_neg (by decide), hun₁.pte _ h.limit, if_pos (by omega),
          Nat.zero_testBit] at this
        cases this
      have h2 : q ≠ trapframePage := by
        rintro rfl
        have := h.mapped
        rw [IsMapped, hun₂.pte _ h.limit, if_pos (by omega), Nat.zero_testBit] at this
        cases this
      exact ⟨(mapsTo_congr fun hq => hpte₂ q hq h1 h2).mp h, h1, h2⟩
    · rintro ⟨h, h1, h2⟩
      exact (mapsTo_congr fun hq => hpte₂ q hq h1 h2).mpr h
  have htables : ∀ a, TableOf s₂.mem r a ↔ TableOf s.mem r a :=
    fun a => (hun₂.tables.tableOf a).trans (hun₁.tables.tableOf a)
  have hgone : ∀ a, (TableOf s₂.mem r a ∨ ∃ q < npages sz, MapsTo lk s₂.mem r q a) ↔
      TableOf s.mem r a ∨ ∃ q < npages sz, MapsTo lk s.mem r q a := by
    intro a
    rw [htables a]
    constructor
    · rintro (h | ⟨q, hq, h⟩)
      · exact Or.inl h
      · exact Or.inr ⟨q, hq, ((hmaps q a).mp h).1⟩
    · rintro (h | ⟨q, hq, h⟩)
      · exact Or.inl h
      · obtain ⟨h1, h2, _⟩ := hbelow q hq
        exact Or.inr ⟨q, hq, (hmaps q a).mpr ⟨h, h1, h2⟩⟩
  have hmoved := hmoved₁.trans hmoved₂
  obtain ⟨h₂, hothers₂⟩ := hs.step hr hX hsp₂ hmoved
  obtain ⟨h₃, hothers₃⟩ := h₂.tornDown hr (fun a ha => by
    rcases ha with ha | ⟨q, _, ha⟩
    · exact Or.inl ha
    · exact Or.inr ⟨q, ha⟩) hdown
  refine ⟨h₃.congr (fun p hp => hp) fun a ha => ?_, hothers₂.trans hothers₃, fun a => ?_, ?_⟩
  · rcases ha with ha | ⟨q, hle, ha⟩
    · exact Or.inl (Or.inl ⟨ha, List.not_mem_nil⟩)
    · by_cases h1 : q = trampolinePage
      · subst h1
        refine Or.inl (Or.inr (List.mem_append.mpr (Or.inr (List.mem_append.mpr (Or.inl ?_)))))
        exact (mem_keptPage ha.limit ha.mapped).mpr ha
      · by_cases h2 : q = trapframePage
        · subst h2
          have hsame := hpte₁ _ ha.limit h1
          have ha₁ := (mapsTo_congr fun _ => hsame).mpr ha
          exact Or.inl
            (Or.inr (List.mem_append.mpr (Or.inl ((mem_keptPage ha.limit ha₁.mapped).mpr ha₁))))
        · have hno : ¬ (TableOf s₂.mem r a ∨ ∃ q < npages sz, MapsTo lk s₂.mem r q a) := by
            rw [hgone a]
            rintro (hc | ⟨q', hq', hc⟩)
            · exact (hs.space r hr).unmixed q a ha hc
            · have := (hs.space r hr).unshared q q' a ha hc
              omega
          exact Or.inr ⟨Or.inr ⟨q, (hmaps q a).mpr ⟨ha, h1, h2⟩⟩, hno⟩
  · rw [hdown.list a, hgone a]
  · apply (hmoved.same.mono _).trans (hdown.same.mono _)
    · rintro a ⟨h1, h2⟩ (hc | hc | hc)
      · exact h1 hc
      · exact h2 hc
      · cases hc
    · rintro a ⟨h1, h2⟩
      refine ⟨h1, ?_⟩
      rintro (hc | ⟨q, hc⟩)
      · exact h2 (Or.inl ((htables a).mp hc))
      · exact h2 (Or.inr ⟨q, ((hmaps q a).mp hc).1⟩)

/-! ## loader.c -/

/-- The entry of a page that `loader` maps. -/
def IsUserPte (lk : Link) (w : Nat) : Prop := ∃ a, IsFrame lk a ∧ w = leafPte a userPerm

theorem IsUserPte.decode {w : Nat} (h : IsUserPte lk w) :
    w.testBit 0 = true ∧ IsFrame lk (PTE2PA w) ∧ PTE_FLAGS w = userPerm ||| PTE_V := by
  obtain ⟨a, ha, rfl⟩ := h
  obtain ⟨h1, h2⟩ := @leafPte_decode a userPerm ha.aligned (by decide)
  rw [Nat.mod_eq_of_lt ha.isPage.below] at h1
  exact ⟨leafPte_valid a userPerm, by rw [h1]; exact ha, h2⟩

/-- The pages from `v` on are mapped for the user, and no other entry changed. -/
structure LoadedPages (lk : Link) (r v n : Nat) (s s' : Mm) : Prop where
  pages : ∀ q, v ≤ q → q < v + n → IsUserPte lk (pteAt s'.mem r q)
  rest : ∀ q < 512 ^ 3, ¬ (v ≤ q ∧ q < v + n) → pteAt s'.mem r q = pteAt s.mem r q

theorem loadPages_runs {t v n : Nat} (pa : Nat) (hs : Spaces lk s R l X) (hr : R r)
    (hv : v + n ≤ 2 ^ 26) (hun : ∀ q, v ≤ q → q < v + n → ¬ IsMapped s.mem r q)
    (ht : t = 0 ∨ (t = tablesFor v ∧ 0 < v ∧ IsMapped s.mem r (v - 1))) :
    Runs (fun _ => l.length < fillCost t v n) (loadPages r n (v * PGSIZE) pa) s
      (fun _ s' => ∃ l', Fills lk R X r (fillCost t v n) s l s' l' ∧
      LoadedPages lk r v n s s') := by
  induction n generalizing s l t v pa with
  | zero =>
    refine ⟨l, ⟨Within.refl hs, Nat.le_add_right _ _⟩, fun q h1 h2 => ?_,
      fun q _ _ => rfl⟩
    omega
  | succ n ih =>
    have hfirst := missing_step ht
    have hcost : 1 + (tablesFor (v + 1) - t) + fillCost (tablesFor (v + 1)) (v + 1) n ≤
        fillCost t v (n + 1) := by
      unfold fillCost
      rw [if_neg (Nat.succ_ne_zero n)]
      split
      · rename_i h0
        subst h0
        simp only [Nat.zero_add]
        omega
      · have hgrow : tablesFor (v + 1) ≤ tablesFor (v + (n + 1)) := by
          unfold tablesFor
          omega
        rw [show v + 1 + n = v + (n + 1) by omega]
        omega
    unfold loadPages
    refine hs.newPage_runs (m := tablesFor (v + 1) - t) hr (by omega) (by decide) (by decide)
      (by omega) (fun page mem hpage => sameOn_copy pa mem hpage)
      (fun hl => ?_) (fun page s₁ l₁ h => ?_) fun page s₁ l₁ h₁ => ?_
    · rw [Runs.panic_iff, hl, List.length_nil]
      omega
    · rw [Runs.panic_iff]
      have := h.reason.resolve_left (hun v (Nat.le_refl _) (by omega))
      omega
    have hpte₁ := h₁.ptes
    have hmapped : IsMapped s₁.mem r (v + 1 - 1) := by
      unfold IsMapped
      rw [Nat.add_sub_cancel, hpte₁ v (by omega), if_pos rfl, leafPte_valid]
    have hun₁ : ∀ q, v + 1 ≤ q → q < v + 1 + n → ¬ IsMapped s₁.mem r q := by
      intro q h1 h2
      unfold IsMapped
      rw [hpte₁ q (by omega), if_neg (by omega)]
      exact hun q (by omega) (by omega)
    have hih := ih (pa + PGSIZE) h₁.spaces (by omega) hun₁ (Or.inr ⟨rfl, Nat.succ_pos v, hmapped⟩)
    rw [Nat.add_mul v 1, Nat.one_mul] at hih
    apply hih.mono
    · intro e he
      have := h₁.count
      omega
    · rintro _ s₂ ⟨l₂, h₂, hload⟩
      refine ⟨l₂, ?_, fun q h1 h2 => ?_, fun q hq hout => ?_⟩
      · have h := h₁.toFills.trans h₂
        exact ⟨h.toWithin, h.count.trans (Nat.add_le_add_left hcost _)⟩
      · by_cases hqv : q = v
        · subst hqv
          rw [hload.rest q (by omega) (by omega), hpte₁ q (by omega), if_pos rfl]
          exact ⟨page, h₁.frame, rfl⟩
        · exact hload.pages q (by omega) (by omega)
      · rw [hload.rest q hq (by omega), hpte₁ q hq, if_neg (by omega)]

/-- A word of a page that is no table and not free is written. -/
theorem Spaces.storePte_runs {o w : Nat} (hs : Spaces lk s R l X) (htf : IsFrame lk tf)
    (ho : o + 8 ≤ PGSIZE) (htable : ∀ p, R p → ¬ TableOf s.mem p tf) (hl : tf ∉ l) :
    Runs E (storePte (tf + o) w) s (fun _ s' => Spaces lk s' R l X ∧ AllSame R s s' ∧
      SameOn PGSIZE (· ≠ tf) s.mem s'.mem) := by
  have hput : SameOn PGSIZE (· ≠ tf) s.mem (s.mem.put64 (tf + o) w) := SameOn.put64 htf.aligned ho
  obtain ⟨h₁, hall⟩ := hs.write hput htable hl
  rw [storePte, Runs.modify_iff]
  exact ⟨h₁, hall, hput⟩

/-- The page of the saved registers is mapped by `r`, so it is no table and not
free. -/
theorem Spaces.trapframe_apart (hs : Spaces lk s R l X) (hr : R r)
    (h : MapsTo lk s.mem r trapframePage tf) : (∀ p, R p → ¬ TableOf s.mem p tf) ∧ tf ∉ l := by
  refine ⟨fun p hp hc => ?_, (hs.space r hr).unfree _ _ h⟩
  have heq := hs.apart p r tf hp hr (Or.inl hc) (Or.inr ⟨_, h⟩)
  subst heq
  exact (hs.space p hp).unmixed _ _ h hc

/-- Writing the saved registers of `r` counts as filling it with no page. -/
theorem Spaces.storeTrapframe_runs {o w : Nat} (hs : Spaces lk s R l X) (hr : R r)
    (h : MapsTo lk s.mem r trapframePage tf) (ho : o + 8 ≤ PGSIZE) :
    Runs E (storePte (tf + o) w) s (fun _ s' => Fills lk R X r 0 s l s' l ∧ SamePtes r s s') := by
  obtain ⟨htable, hl⟩ := hs.trapframe_apart hr h
  apply (hs.storePte_runs h.alloc ho htable hl).imp
  rintro _ s₁ ⟨h₁, hall, hmem⟩
  have hr₁ := hall r hr
  refine ⟨⟨⟨h₁, fun p hp _ => hall p hp, moved_nil.mpr ⟨fun a => ?_, hmem.mono fun a ha => ?_⟩⟩,
    Nat.le_add_right _ _⟩, hr₁.2⟩
  · rw [hr₁.1.owns hr₁.2 a]
  · rintro rfl
    exact ha (Or.inr (Or.inr ⟨_, h⟩))

/-- What `bin_loader` builds: the pages from 0 to `n` are mapped for the user. -/
structure Loaded (lk : Link) (mem : Bytes) (r tf n : Nat) : Prop where
  trampoline : pteAt mem r trampolinePage = leafPte lk.trampoline (PTE_R ||| PTE_X)
  trapframe : pteAt mem r trapframePage = leafPte tf (PTE_R ||| PTE_W)
  pages : ∀ q < n, IsUserPte lk (pteAt mem r q)
  rest : ∀ q < 512 ^ 3, n ≤ q → q ≠ trampolinePage → q ≠ trapframePage → pteAt mem r q = 0

/-- The entry of the page of the saved registers. -/
theorem mapsTo_trapframe {mem : Bytes} (htf : IsFrame lk tf)
    (h : pteAt mem r trapframePage = leafPte tf (PTE_R ||| PTE_W)) : MapsTo lk mem r
    trapframePage tf := by
  refine ⟨by decide, ?_, ?_, htf⟩
  · unfold IsMapped
    rw [h, leafPte_valid]
  · unfold frameAt
    rw [h, (leafPte_decode htf.aligned (by decide)).1, Nat.mod_eq_of_lt htf.isPage.below]

/-- The number of pages of an image. -/
def imagePages (start stop : Nat) : Nat := (PGROUNDUP stop - PGROUNDDOWN start) / PGSIZE

theorem imagePages_mul {start stop : Nat} :
    imagePages start stop * PGSIZE = PGROUNDUP stop - PGROUNDDOWN start := by
  unfold imagePages PGROUNDUP PGROUNDDOWN
  rw [← Nat.sub_mul, Nat.mul_div_cancel _ (by decide)]

theorem imagePages_le {start stop : Nat} (hstop : stop ≤ PHYSTOP) :
    imagePages start stop ≤ 2 ^ 25 := by
  unfold imagePages PGROUNDUP PHYSTOP at *
  simp only [PGSIZE_eq] at *
  omega

theorem alloc_ustack_runs {m : Nat} (hs : Spaces lk s R l X) (hr : R r)
    (hun : ¬ IsMapped s.mem r 0) (hm : missing s.mem r 0 2 ≤ m) (htf : IsFrame lk tf)
    (hpte : pteAt s.mem r trapframePage = leafPte tf (PTE_R ||| PTE_W)) :
    Runs (fun _ => l.length < 1 + m) (alloc_ustack r tf) s (fun _ s' => ∃ l',
      Fills lk R X r (1 + m) s l s' l' ∧ IsUserPte lk (pteAt s'.mem r 0) ∧
      ∀ q < 512 ^ 3, q ≠ 0 → pteAt s'.mem r q = pteAt s.mem r q) := by
  have hfill : ∀ (page : Nat) (mem : Bytes), page % PGSIZE = 0 →
      SameOn PGSIZE (· ≠ page) mem (mem.fill page PGSIZE 0) :=
    fun page mem hpage => SameOn.fill hpage (Nat.le_refl _)
  unfold alloc_ustack
  refine hs.newPage_runs (v := 0) hr (by decide) (by decide) (by decide) hm hfill (fun hl => ?_)
    (fun page s₁ l₁ h => ?_) fun page s₁ l₁ h₁ => ?_
  · rw [Runs.panic_iff, hl, List.length_nil]
    omega
  · exact h.reason.resolve_left hun
  have hpte₁ := h₁.ptes
  have htf₁ : pteAt s₁.mem r trapframePage = leafPte tf (PTE_R ||| PTE_W) := by
    rw [hpte₁ _ (by decide), if_neg (by decide), hpte]
  rw [if_neg (by decide)]
  apply (h₁.spaces.storeTrapframe_runs hr (mapsTo_trapframe htf htf₁) (by decide)).imp
  rintro _ s₂ ⟨h₂, hsame₂⟩
  refine ⟨l₁, h₁.toFills.trans h₂, ?_, fun q hq hne => ?_⟩
  · rw [hsame₂ 0 (by decide), hpte₁ 0 (by decide), if_pos rfl]
    exact ⟨page, h₁.frame, rfl⟩
  · rw [hsame₂ q hq, hpte₁ q hq, if_neg hne]

theorem bin_loader_runs {start stop : Nat} (hs : Spaces lk s R l X) (hr : R r)
    (hstop : stop ≤ PHYSTOP) (htf : IsFrame lk tf)
    (hptes : HasPtes s.mem r (procPtes lk tf fun _ => 0)) :
    Runs (fun _ => l.length < imagePages start stop + 1 + tablesFor (imagePages start stop + 1))
      (bin_loader start stop r tf) s (fun sz s' => sz = (imagePages start stop + 1) * PGSIZE ∧
        Loaded lk s'.mem r tf (imagePages start stop + 1) ∧
        ∃ l', Fills lk R X r (imagePages start stop + 1 + tablesFor (imagePages start stop + 1))
          s l s' l') := by
  generalize hn : imagePages start stop = n
  have hle : n ≤ 2 ^ 25 := by
    rw [← hn]
    exact imagePages_le hstop
  have hsize : USTACK_SIZE + (PGROUNDUP stop - PGROUNDDOWN start) = (n + 1) * PGSIZE := by
    rw [← hn, Nat.add_mul, imagePages_mul]
    unfold USTACK_SIZE
    simp only [PGSIZE_eq]
    omega
  have hpages : (PGROUNDUP stop - PGROUNDDOWN start) / PGSIZE = n := hn
  have hempty : ∀ q < n + 1, ¬ IsMapped s.mem r q := by
    intro q hq
    unfold IsMapped
    rw [hptes q (by omega), procPtes_user (by unfold trampolinePage; omega)
      (by unfold trapframePage; omega), Nat.zero_testBit]
    decide
  unfold bin_loader
  dsimp only
  rw [hpages]
  -- The image, from page 1 on.
  have himage := loadPages_runs (t := 0) (v := 1) (n := n) (PGROUNDDOWN start) hs hr (by omega)
    (fun q _ hq => hempty q (by omega)) (Or.inl rfl)
  have hcost : fillCost 0 1 n + (1 + if n = 0 then 2 else 0) = n + 1 + tablesFor (n + 1) := by
    unfold fillCost
    split
    · rename_i h0
      subst h0
      rfl
    · rw [Nat.add_comm 1 n]
      omega
  rw [Runs.bind_iff]
  apply himage.mono
  · intro e he
    omega
  rintro _ s₁ ⟨l₁, h₁, hload⟩
  have htramp₁ : pteAt s₁.mem r trampolinePage = leafPte lk.trampoline (PTE_R ||| PTE_X) := by
    rw [hload.rest _ (by decide) (by unfold trampolinePage; omega), hptes _ (by decide),
      procPtes, if_pos rfl]
  have htf₁ : pteAt s₁.mem r trapframePage = leafPte tf (PTE_R ||| PTE_W) := by
    rw [hload.rest _ (by decide) (by unfold trapframePage; omega), hptes _ (by decide), procPtes,
      if_neg (by decide), if_pos rfl]
  apply (h₁.spaces.storeTrapframe_runs hr (mapsTo_trapframe htf htf₁) (o := 24) (by decide)).bind
  rintro _ s₂ ⟨h₂, hsame₂⟩
  -- The stack, in page 0.
  have hzero₂ : pteAt s₂.mem r 0 = 0 := by
    rw [hsame₂ 0 (by decide), hload.rest 0 (by decide) (by omega), hptes 0 (by decide),
      procPtes_user (by decide) (by decide)]
  have hun₂ : ¬ IsMapped s₂.mem r 0 := by
    unfold IsMapped
    rw [hzero₂, Nat.zero_testBit]
    decide
  have hmissing₂ : missing s₂.mem r 0 2 ≤ if n = 0 then 2 else 0 := by
    split
    · exact missing_le _ _ _ 2
    · have hone : IsMapped s₂.mem r 1 := by
        unfold IsMapped
        rw [hsame₂ 1 (by decide)]
        exact (hload.pages 1 (Nat.le_refl _) (by omega)).decode.1
      rw [missing_of_block hone (by decide)]
  have htf₂ : pteAt s₂.mem r trapframePage = leafPte tf (PTE_R ||| PTE_W) := by
    rw [hsame₂ _ (by decide), htf₁]
  rw [Runs.bind_iff]
  apply (alloc_ustack_runs h₂.spaces hr hun₂ hmissing₂ htf htf₂).mono
  · intro e he
    have h1 := h₁.count
    have h2 := h₂.count
    omega
  rintro _ s₃ ⟨l₃, h₃, hzero₃, hpte₃⟩
  rw [Runs.pure_iff]
  have hfills := (h₁.trans h₂).trans h₃
  rw [Nat.add_zero, hcost] at hfills
  refine ⟨hsize, ⟨?_, ?_, fun q hq => ?_, fun q hq hnq h1 h2 => ?_⟩, l₃, hfills⟩
  · rw [hpte₃ _ (by decide) (by decide), hsame₂ _ (by decide), htramp₁]
  · rw [hpte₃ _ (by decide) (by decide), htf₂]
  · by_cases h0 : q = 0
    · subst h0
      exact hzero₃
    · rw [hpte₃ q (by omega) h0, hsame₂ q (by omega)]
      exact hload.pages q (by omega) (by omega)
  · rw [hpte₃ q hq (by omega), hsame₂ q hq, hload.rest q hq (by omega), hptes q hq,
      procPtes_user h1 h2]

end ThuKernel
