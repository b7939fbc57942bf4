-- `fork`: when the child gets a copy of every page of its parent.
import Mathlib.Data.List.Nodup
import Mathlib.Data.List.Perm.Subperm
import ThuKernel.Kernel.TakeDown

namespace ThuKernel

variable {lk : Link} {E : Stop → Prop} {s s₁ s₂ : Mm} {r tf a n q np : Nat} {R X : Nat → Prop}
variable {l l₁ hand : List Nat} {k k' : Kernel}

/-! ## How many pages an address space has -/

/-- The tables for the pages from 0 to `n`, and those of the trampoline: a depth
and a number. -/
def someTables (n : Nat) : List (Nat × Nat) :=
  (0, 0) :: (1, 2 ^ 8 - 1) :: (2, 2 ^ 17 - 1) ::
    ((List.range ((n + 511) / 512)).map (Prod.mk 2) ++ (List.range ((n + 262143) / 262144)).map
    (Prod.mk 1))

theorem someTables_length (n : Nat) : (someTables n).length = 3 + tablesFor n := by
  unfold someTables tablesFor
  simp only [List.length_cons, List.length_append, List.length_map, List.length_range]
  omega

theorem someTables_nodup (hn : n ≤ 2 ^ 25) : (someTables n).Nodup := by
  unfold someTables
  have h2 : ((List.range ((n + 511) / 512)).map (Prod.mk 2)).Nodup :=
    List.Nodup.map (Prod.mk_right_injective 2) List.nodup_range
  have h1 : ((List.range ((n + 262143) / 262144)).map (Prod.mk 1)).Nodup :=
    List.Nodup.map (Prod.mk_right_injective 1) List.nodup_range
  simp only [List.nodup_cons, List.mem_cons, List.mem_append, List.mem_map, List.mem_range,
    List.nodup_append]
  refine ⟨?_, ?_, ?_, h2, h1, ?_⟩
  · simp
  · simp
    omega
  · simp
    omega
  · simp

/-- The tables are there when the pages are mapped. -/
theorem someTables_mem {mem : Bytes} (hn : n ≤ 2 ^ 25) (htop : IsMapped mem r trampolinePage)
    (hpages : ∀ q < n, IsMapped mem r q) {d m : Nat} (h : (d, m) ∈ someTables n) :
    d ≤ 2 ∧ m < 512 ^ d ∧ ∃ a, tableAt mem r d m = some a := by
  have hsome := fun q (hq : IsMapped mem r q) => hq.tables
  unfold someTables at h
  simp only [List.mem_cons, List.mem_append, List.mem_map, List.mem_range, Prod.mk.injEq] at h
  rcases h with ⟨rfl, rfl⟩ | ⟨rfl, rfl⟩ | ⟨rfl, rfl⟩ | ⟨b, hb, rfl, rfl⟩ | ⟨b, hb, rfl, rfl⟩
  · exact ⟨by decide, by decide, r, rfl⟩
  · exact ⟨by decide, by decide, Option.isSome_iff_exists.mp (hsome _ htop).2⟩
  · exact ⟨by decide, by decide, Option.isSome_iff_exists.mp (hsome _ htop).1⟩
  · have h1 := (hsome (512 * b) (hpages _ (by omega))).1
    rw [Nat.mul_div_cancel_left _ (by decide)] at h1
    exact ⟨by decide, by omega, Option.isSome_iff_exists.mp h1⟩
  · have h1 := (hsome (262144 * b) (hpages _ (by omega))).2
    rw [show 262144 * b / 512 / 512 = b by omega] at h1
    exact ⟨by decide, by omega, Option.isSome_iff_exists.mp h1⟩

/-- There are not so many pages in the allocator. -/
theorem AddrSpace.pages_le (h : AddrSpace lk s r l hand)
    (hpages : ∀ q < n, ∃ a, MapsTo lk s.mem r q a) : n ≤ 2 ^ 25 := by
  have hnodup : ((List.range n).map fun q => frameAt s.mem r q / PGSIZE).Nodup := by
    refine List.Nodup.map_on ?_ List.nodup_range
    intro q hq q' hq' heq
    obtain ⟨a, ha⟩ := hpages q (List.mem_range.mp hq)
    obtain ⟨a', ha'⟩ := hpages q' (List.mem_range.mp hq')
    rw [ha.frame, ha'.frame] at heq
    have h1 := ha.alloc.aligned
    have h2 := ha'.alloc.aligned
    have heq : a = a' := by
      simp only [PGSIZE_eq] at *
      omega
    subst heq
    exact h.unshared q q' a ha ha'
  have hsub : ((List.range n).map fun q => frameAt s.mem r q / PGSIZE) ⊆ List.range (2 ^ 25) := by
    intro b hb
    obtain ⟨q, hq, rfl⟩ := List.mem_map.mp hb
    obtain ⟨a, ha⟩ := hpages q (List.mem_range.mp hq)
    rw [ha.frame, List.mem_range]
    have hbelow := ha.alloc.below
    unfold PHYSTOP at hbelow
    simp only [PGSIZE_eq]
    omega
  have hle := (hnodup.subperm hsub).length_le
  rwa [List.length_map, List.length_range, List.length_range] at hle

/-- An address space with the pages from 0 to `n` and the trampoline has at least
so many pages. -/
theorem AddrSpace.needs (h : AddrSpace lk s r l hand)
    (htop : IsMapped s.mem r trampolinePage) (hpages : ∀ q < n, ∃ a, MapsTo lk s.mem r q a)
    {F : List Nat} (hF : ∀ a, (TableOf s.mem r a ∨ ∃ q < n, MapsTo lk s.mem r q a) → a ∈ F) :
    3 + (n + tablesFor n) ≤ F.length := by
  have hn := h.pages_le hpages
  have hmapped : ∀ q < n, IsMapped s.mem r q := by
    intro q hq
    obtain ⟨a, ha⟩ := hpages q hq
    exact ha.mapped
  have htables := fun d m hm => someTables_mem (d := d) (m := m) hn htop hmapped hm
  have hnodup : ((someTables n).map (fun t => (tableAt s.mem r t.1 t.2).getD 0) ++
      (List.range n).map (frameAt s.mem r)).Nodup := by
    rw [List.nodup_append]
    refine ⟨?_, ?_, ?_⟩
    · refine List.Nodup.map_on ?_ (someTables_nodup hn)
      rintro ⟨d, m⟩ hm ⟨d', m'⟩ hm' heq
      obtain ⟨h1, h2, a, h3⟩ := htables d m hm
      obtain ⟨h1', h2', a', h3'⟩ := htables d' m' hm'
      rw [h3, h3', Option.getD_some, Option.getD_some] at heq
      subst heq
      obtain ⟨rfl, rfl⟩ := h.space.table.distinct d h1 m h2 d' h1' m' h2' a h3 h3'
      rfl
    · refine List.Nodup.map_on ?_ List.nodup_range
      intro q hq q' hq' heq
      obtain ⟨a, ha⟩ := hpages q (List.mem_range.mp hq)
      obtain ⟨a', ha'⟩ := hpages q' (List.mem_range.mp hq')
      rw [ha.frame, ha'.frame] at heq
      subst heq
      exact h.unshared q q' a ha ha'
    · intro b hb b' hb' heq
      subst heq
      obtain ⟨⟨d, m⟩, hm, rfl⟩ := List.mem_map.mp hb
      obtain ⟨q, hq, hqb⟩ := List.mem_map.mp hb'
      obtain ⟨a, ha⟩ := hpages q (List.mem_range.mp hq)
      obtain ⟨h1, h2, t, h3⟩ := htables d m hm
      rw [h3, Option.getD_some, ha.frame] at hqb
      subst hqb
      exact h.unmixed q a ha ⟨d, h1, m, h2, h3⟩
  have hsub : ((someTables n).map (fun t => (tableAt s.mem r t.1 t.2).getD 0) ++
      (List.range n).map (frameAt s.mem r)) ⊆ F := by
    intro b hb
    rcases List.mem_append.mp hb with hb | hb
    · obtain ⟨⟨d, m⟩, hm, rfl⟩ := List.mem_map.mp hb
      obtain ⟨h1, h2, t, h3⟩ := htables d m hm
      rw [h3]
      exact hF t (Or.inl ⟨d, h1, m, h2, h3⟩)
    · obtain ⟨q, hq, rfl⟩ := List.mem_map.mp hb
      obtain ⟨a, ha⟩ := hpages q (List.mem_range.mp hq)
      rw [ha.frame]
      exact hF a (Or.inr ⟨q, List.mem_range.mp hq, ha⟩)
  have hle := (hnodup.subperm hsub).length_le
  rw [List.length_append, List.length_map, List.length_map, List.length_range,
    someTables_length] at hle
  omega

/-! ## allocproc -/

/-- The saved registers of the new process are cleared. -/
theorem NewImage.fill (h : NewImage lk R X tf s l r s₁ l₁) (hs : Spaces lk s R l X) (htf : X tf) :
    NewImage lk R X tf s l r { s₁ with mem := s₁.mem.fill tf PGSIZE 0 } l₁ := by
  obtain ⟨hframe, htfl, htfun⟩ := hs.kept tf htf
  have hsame : SameOn PGSIZE (· ≠ tf) s₁.mem (s₁.mem.fill tf PGSIZE 0) :=
    SameOn.fill hframe.aligned (Nat.le_refl _)
  have hmaps : MapsTo lk s₁.mem r trapframePage tf := by
    apply mapsTo_trapframe hframe
    rw [h.ptes _ (by decide), procPtes, if_neg (by decide), if_pos rfl]
  have hspace := h.spaces.space r (Or.inr rfl)
  have htable : ∀ p, R p ∨ p = r → ¬ TableOf s₁.mem p tf := by
    rintro p (hp | rfl) hc
    · exact htfun p hp (Or.inl (((h.others p hp).1.tableOf tf).mp hc))
    · exact hspace.unmixed _ _ hmaps hc
  obtain ⟨h₁, hall⟩ := h.spaces.write hsame htable (hspace.unfree _ _ hmaps)
  refine ⟨h₁, h.fresh, fun q hq => ?_, ?_, fun a => ?_, h.count, ?_⟩
  · rw [(hall r (Or.inr rfl)).2 q hq]
    exact h.ptes q hq
  · exact h.others.trans fun p hp => hall p (Or.inl hp)
  · rw [(hall r (Or.inr rfl)).1.tableOf a]
    exact h.pages a
  · exact h.same.trans (hsame.mono fun a ha => ha.2)

theorem allocproc_runs (hs : Spaces lk k.mm R l X) (hslot : freeSlot k.pool = some np)
    (htf : X (k.pool np).trapframe) :
    Runs (fun _ => l.length < 3) (allocproc lk) k (fun r k' => r = some np ∧
      ∃ root mm l₁, root ≠ 0 ∧ NewImage lk R X (k.pool np).trapframe k.mm l root mm l₁ ∧
      k' = { k with
        mm := mm
        PID := k.PID + 1
        pool := Function.update k.pool np (newProc k np root) }) := by
  rw [runs_allocproc, hslot]
  refine ⟨fun hc => (by cases hc), fun _ hnp => ?_⟩
  cases hnp
  apply (proc_pagetable_runs hs htf).mono
  · rintro e ⟨_, rfl⟩
    decide
  · rintro root s₁ (⟨rfl, l₁, h₁⟩ | ⟨hroot, l₁, h₁⟩)
    · exact ⟨fun _ => h₁.few, fun hc => absurd rfl hc⟩
    · exact ⟨fun hc => absurd hc hroot, fun _ => ⟨rfl, root, _, l₁, hroot, h₁.fill hs htf, rfl⟩⟩

/-! ## The address space of a child -/

/-- The address space of a new process, with the table `root` and copies of the
first `m` pages of `r`. -/
structure Child (lk : Link) (R X : Nat → Prop) (tf r m root : Nat) (s : Mm) (l : List Nat) (s' : Mm)
    (l' : List Nat) : Prop where
  spaces : Spaces lk s' (fun p => R p ∨ p = root) l' (fun a => X a ∧ a ≠ tf)
  fresh : ¬ R root
  others : AllSame R s s'
  owned : ∀ a, a ∈ l' ∨ Owns lk s'.mem root a ↔ a ∈ l ∨ a = tf
  same : SameOn PGSIZE (fun a => a ∉ l ∧ a ≠ tf) s.mem s'.mem
  pages : ∀ q < m, CopiedPage lk s.mem s'.mem r root q
  rest : ∀ q < 512 ^ 3, m ≤ q → pteAt s'.mem root q = procPtes lk tf (fun _ => 0) q

variable {m root : Nat}

namespace Child

theorem space (h : Child lk R X tf r m root s l s₁ l₁) : AddrSpace lk s₁ root l₁ [] :=
  h.spaces.space root (Or.inr rfl)

/-- The page of the saved registers is mapped. -/
theorem trapframe (h : Child lk R X tf r m root s l s₁ l₁) (htf : IsFrame lk tf)
    (hm : m ≤ trapframePage) :
    MapsTo lk s₁.mem root trapframePage tf := by
  apply mapsTo_trapframe htf
  rw [h.rest _ (by decide) hm, procPtes, if_neg (by decide), if_pos rfl]

theorem trampoline (h : Child lk R X tf r m root s l s₁ l₁) (hm : m ≤ trapframePage) :
    IsMapped s₁.mem root trampolinePage := by
  unfold IsMapped
  rw [h.rest _ (by decide) (hm.trans (by decide)), procPtes, if_pos rfl, leafPte_valid]

theorem mapsTo (h : Child lk R X tf r m root s l s₁ l₁) (hm : m ≤ trapframePage) (hq : q < m) :
    MapsTo lk s₁.mem root q (frameAt s₁.mem root q) := by
  have hcopied := h.pages q hq
  unfold trapframePage at hm
  exact ⟨by omega, hcopied.mapped, rfl, hcopied.frame⟩

/-- A page of the child was free. -/
theorem page_free (h : Child lk R X tf r m root s l s₁ l₁) (htf : IsFrame lk tf)
    (hm : m ≤ trapframePage) (hq : q < m) : frameAt s₁.mem root q ∈ l := by
  have hmaps := h.mapsTo hm hq
  refine ((h.owned _).mp (Or.inr (Or.inr ⟨q, hmaps⟩))).resolve_right fun hc => ?_
  rw [hc] at hmaps
  have := h.space.unshared q trapframePage tf hmaps (h.trapframe htf hm)
  omega

/-- The child takes as many pages from the free list as it has. -/
theorem count (h : Child lk R X tf r m root s l s₁ l₁) (htf : IsFrame lk tf)
    (hm : m ≤ trapframePage) :
    3 + (m + tablesFor m) ≤ l.length := by
  apply h.space.needs (h.trampoline hm) fun q hq => ⟨_, h.mapsTo hm hq⟩
  rintro a (ha | ⟨q, hq, ha⟩)
  · refine ((h.owned a).mp (Or.inr (Or.inl ha))).resolve_right ?_
    rintro rfl
    exact h.space.unmixed _ _ (h.trapframe htf hm) ha
  · rw [← ha.frame]
    exact h.page_free htf hm hq

/-- The saved registers are written. -/
theorem write (h : Child lk R X tf r m root s l s₁ l₁) (hs : Spaces lk s R l X) (htf : X tf)
    (hm : m ≤ trapframePage) {mem : Bytes} (hsame : SameOn PGSIZE (· ≠ tf) s₁.mem mem) :
    Child lk R X tf r m root s l { s₁ with mem := mem } l₁ := by
  obtain ⟨hframe, htfl, htfun⟩ := hs.kept tf htf
  have hmaps := h.trapframe hframe hm
  have htable : ∀ p, R p ∨ p = root → ¬ TableOf s₁.mem p tf := by
    rintro p (hp | rfl) hc
    · exact htfun p hp (Or.inl (((h.others p hp).1.tableOf tf).mp hc))
    · exact h.space.unmixed _ _ hmaps hc
  obtain ⟨h₁, hall⟩ := h.spaces.write hsame htable (h.space.unfree _ _ hmaps)
  obtain ⟨htables, hptes⟩ := hall root (Or.inr rfl)
  refine ⟨h₁, h.fresh, h.others.trans fun p hp => hall p (Or.inl hp), fun a => ?_, ?_,
    fun q hq => ?_, fun q hq hle => ?_⟩
  · rw [htables.owns hptes a]
    exact h.owned a
  · exact h.same.trans (hsame.mono fun a ha => ha.2)
  · have hcopied := h.pages q hq
    have hlt : q < 512 ^ 3 := (h.mapsTo hm hq).limit
    have hframe' : frameAt mem root q = frameAt s₁.mem root q := by
      unfold frameAt
      rw [hptes q hlt]
    refine ⟨by rw [hframe']; exact hcopied.frame, by rw [hframe', hptes q hlt]; exact hcopied.pte,
      fun o ho => ?_⟩
    rw [hframe', ← hcopied.bytes o ho]
    apply hsame.byte hcopied.frame.aligned _ ho
    intro hc
    have hq' := h.mapsTo hm hq
    rw [hc] at hq'
    have := h.space.unshared q trapframePage tf hq' hmaps
    omega
  · rw [hptes q hq]
    exact h.rest q hq hle

end Child

/-- The table was made, and pages were copied into it. -/
theorem NewImage.child (h : NewImage lk R X tf s l root s₁ l₁) (hs : Spaces lk s R l X) (htf : X tf)
    (hr : R r) (hm : m ≤ trapframePage) {l₂ : List Nat}
    (h' : Within lk (fun p => R p ∨ p = root) (fun a => X a ∧ a ≠ tf) root s₁ l₁ s₂ l₂)
    (hpages : ∀ q < m, CopiedPage lk s₁.mem s₂.mem r root q)
    (hmapped : ∀ q < m, IsMapped s.mem r q)
    (hrest : ∀ q < 512 ^ 3, m ≤ q → pteAt s₂.mem root q = pteAt s₁.mem root q) :
    Child lk R X tf r m root s l s₂ l₂ := by
  obtain ⟨howned, hmem⟩ := moved_nil.mp h'.moved
  have hframe := (hs.kept tf htf).1
  have hlimit : ∀ q < m, q < 512 ^ 3 := by
    intro q hq
    unfold trapframePage at hm
    omega
  have hout : ∀ a, ¬ (a ∈ l ∨ a = tf) → ¬ (a ∈ l₁ ∨ Owns lk s₁.mem root a) := by
    intro a ha hc
    exact ha ((h.owned hframe a).mp hc)
  refine ⟨h'.spaces, h.fresh, h.others.trans (h'.others.all h.fresh), fun a => ?_, ?_,
    fun q hq => ?_, fun q hq hle => ?_⟩
  · rw [howned a, h.owned hframe a]
  · apply h.same.trans (hmem.mono _)
    rintro a ⟨h1, h2⟩
    exact hout a (by rintro (hc | hc); exacts [h1 hc, h2 hc])
  · have hcopied := hpages q hq
    have hpte := (h.others r hr).2 q (hlimit q hq)
    have hframe' : frameAt s₁.mem r q = frameAt s.mem r q := by
      unfold frameAt
      rw [hpte]
    refine ⟨hcopied.frame, by rw [hcopied.pte, hpte], fun o ho => ?_⟩
    rw [hcopied.bytes o ho, hframe']
    -- The page of the parent is not free, and it is not that of the registers.
    have hnot : ∀ a, IsFrame lk a → frameAt s.mem r q = a → a ∉ l ∧ a ≠ tf := by
      intro a ha heq
      have hmaps : MapsTo lk s.mem r q a := ⟨hlimit q hq, hmapped q hq, heq, ha⟩
      refine ⟨(hs.space r hr).unfree q a hmaps, ?_⟩
      rintro rfl
      exact (hs.kept a htf).2.2 r hr (Or.inr ⟨q, hmaps⟩)
    apply h.same.byte (isPage_PTE2PA _).aligned _ ho
    exact ⟨fun hc => (hnot _ (hs.free.frames _ hc) rfl).1 hc,
      fun hc => (hnot tf hframe hc).2 rfl⟩
  · rw [hrest q hq hle]
    exact h.ptes q hq

/-! ## fork -/

/-- The state of a process that calls `fork`, when slot `np` is free: its address
space has the two pages of the kernel, and all other pages are the user's. -/
structure Forking (lk : Link) (k : Kernel) (R X : Nat → Prop) (l : List Nat) (np : Nat) : Prop where
  spaces : Spaces lk k.mm R l X
  root : R (k.pool k.current_proc).pagetable
  slot : freeSlot k.pool = some np
  kept : X (k.pool np).trapframe
  running : (k.pool k.current_proc).state ≠ .UNUSED
  size : (k.pool k.current_proc).sz ≤ TRAPFRAME
  trampoline : pteAt k.mm.mem (k.pool k.current_proc).pagetable trampolinePage =
    leafPte lk.trampoline (PTE_R ||| PTE_X)
  trapframe : pteAt k.mm.mem (k.pool k.current_proc).pagetable trapframePage =
    leafPte (k.pool k.current_proc).trapframe (PTE_R ||| PTE_W)
  frame : IsFrame lk (k.pool k.current_proc).trapframe
  users : ∀ q < 512 ^ 3, q ≠ trampolinePage → q ≠ trapframePage →
    IsMapped k.mm.mem (k.pool k.current_proc).pagetable q →
    (pteAt k.mm.mem (k.pool k.current_proc).pagetable q).testBit 4 = true

/-- The saved registers of the child. -/
def RegsCopied (tf tf' : Nat) (mem mem' : Bytes) : Prop :=
  ∀ o < TRAPFRAME_REGS, mem' (tf' + o) = if 112 ≤ o ∧ o < 120 then 0 else mem (tf + o)

/-- How `fork` may stop: there is no page for the tables, or a page below the
size is not mapped, and there was memory for the pages before it. -/
def ForkStop (k : Kernel) (r n : Nat) (l : List Nat) : Prop :=
  l.length < 3 ∨ ∃ h < n, ¬ IsMapped k.mm.mem r h ∧ (∀ q < h, IsMapped k.mm.mem r q) ∧
    3 + (h + tablesFor h) ≤ l.length

/-- The process that `fork` makes of slot `np`. -/
def forkedProc (k : Kernel) (np root : Nat) (files : Nat → Option Nat) : proc :=
  { newProc k np root with
    sz := (k.pool k.current_proc).sz, files, parent := some k.current_proc, state := .RUNNABLE }

/-- The slot of the child after `fork`, and what else changes. -/
structure NewChild (lk : Link) (k k' : Kernel) (np root sz : Nat) : Prop where
  pool : ∃ q', k'.pool = Function.update k.pool np q' ∧ q'.pagetable = root ∧ q'.sz = sz ∧
    q'.trapframe = (k.pool np).trapframe ∧ q'.pid = k.PID
  parent : sz ≠ 0 → (k'.pool np).parent = some k.current_proc
  files : (∀ fd, (k.pool k.current_proc).files fd = none) → (k'.pool np).files = (k.pool np).files
  pipes : k'.pipes = k.pipes
  current : k'.current_proc = k.current_proc

theorem fillCost_zero (n : Nat) : fillCost 0 0 n = n + tablesFor n := by
  unfold fillCost
  split
  · rename_i h
    rw [h]
    rfl
  · rw [Nat.zero_add, Nat.sub_zero]

/-- The loop over the files changes the files only, and nothing when there are
none. -/
theorem dupFiles_runs {i : Nat} (hne : i ≠ np) :
    Runs E (Prog.forUp (dupFile i np) 0 FD_MAX) k (fun _ k' => ∃ files filepool, (k' = { k with
      filepool := filepool, pool := Function.update k.pool np { k.pool np with files := files } }) ∧
      ((∀ fd, (k.pool i).files fd = none) → files = (k.pool np).files)) := by
  refine Runs.forUp (fun _ k' => ∃ files filepool, (k' = { k with
    filepool := filepool, pool := Function.update k.pool np { k.pool np with files := files } }) ∧
    ((∀ fd, (k.pool i).files fd = none) → files = (k.pool np).files)) ?_ ?_
  · rintro fd t _ _ ⟨files, filepool, rfl, hnone⟩
    unfold dupFile
    rw [Runs.bind_iff, runs_getProc]
    dsimp only
    rw [Function.update_of_ne hne]
    split
    · exact ⟨files, filepool, rfl, hnone⟩
    · rename_i f hf
      rw [Runs.bind_iff, runs_getFile, Runs.when_iff]
      refine ⟨fun _ => ?_, fun _ => ⟨files, filepool, rfl, hnone⟩⟩
      rw [Runs.bind_iff, runs_setFile, Runs.bind_iff, runs_getProc, runs_setProc]
      dsimp only
      rw [Function.update_self, Function.update_idem]
      refine ⟨_, _, rfl, fun hno => ?_⟩
      rw [hno fd] at hf
      cases hf
  · refine ⟨(k.pool np).files, k.filepool, ?_, fun _ => rfl⟩
    rw [Function.update_eq_self]

/-- The registers that `fork` writes. -/
theorem regs_copied {tf' : Nat} {mem : Bytes} (htf' : tf' % PGSIZE = 0) : RegsCopied tf tf' mem
      ((mem.store tf' (mem.load tf TRAPFRAME_REGS)).put64 (tf' + 112) 0) ∧
    SameOn PGSIZE (· ≠ tf') mem ((mem.store tf' (mem.load tf TRAPFRAME_REGS)).put64
      (tf' + 112) 0) := by
  have hstore : SameOn PGSIZE (· ≠ tf') mem (mem.store tf' (mem.load tf TRAPFRAME_REGS)) := by
    have h := SameOn.store (P := PGSIZE) (m := mem) (o := 0) (l := mem.load tf TRAPFRAME_REGS) htf'
      (by rw [Bytes.length_load]; decide)
    exact h
  refine ⟨fun o ho => ?_, hstore.trans (SameOn.put64 htf' (by decide))⟩
  unfold Bytes.put64
  split
  · rename_i hin
    unfold Bytes.putLE
    rw [if_pos (by omega), Nat.zero_div]
    rfl
  · rw [Bytes.putLE_outside (by omega), Bytes.store_inside (Nat.le_add_right _ _)
      (by rw [Bytes.length_load]; omega)]
    simp [Bytes.load]

theorem fork_runs {r n : Nat} (h : Forking lk k R X l np)
    (hr : r = (k.pool k.current_proc).pagetable) (hn : n = npages (k.pool k.current_proc).sz) :
    Runs (fun _ => ForkStop k r n l) (fork lk) k (fun ret k' => ret = k.PID ∧ 3 ≤ l.length ∧
      ∃ root l' m, Child lk R X (k.pool np).trapframe r m root k.mm l k'.mm l' ∧
      ((m = n ∧ (∀ q < n, IsMapped k.mm.mem r q) ∧
      NewChild lk k k' np root (k.pool k.current_proc).sz ∧
        RegsCopied (k.pool k.current_proc).trapframe (k.pool np).trapframe k.mm.mem k'.mm.mem ∧
        ∃ files, k'.pool np = forkedProc k np root files) ∨
      (m = 0 ∧ NewChild lk k k' np root 0 ∧ ∃ v < n, (∀ q ≤ v, IsMapped k.mm.mem r q) ∧
        l.length < 3 + (v + 1 + tablesFor (v + 1))))) := by
  have hfree := freeSlot_some h.slot
  have hne : k.current_proc ≠ np := by
    intro hc
    apply h.running
    rw [hc]
    exact hfree
  have hnp : n ≤ trapframePage := by
    rw [hn]
    exact npages_trapframe h.size
  have hr' : R r := by
    rw [hr]
    exact h.root
  have hframe := (h.spaces.kept _ h.kept).1
  rw [runs_fork]
  apply (allocproc_runs h.spaces h.slot h.kept).mono
  · intro e he
    exact Or.inl he
  rintro _ _ ⟨rfl, root, s₁, l₁, hroot, h₁, rfl⟩ _ rfl _ rfl _ rfl _ rfl
  have hsame : ∀ q < n, (IsMapped s₁.mem r q ↔ IsMapped k.mm.mem r q) := by
    intro q hq
    unfold trapframePage at hnp
    unfold IsMapped
    rw [(h₁.others r hr').2 q (by omega)]
  -- What the loop has copied at any time is the address space of the child.
  have hchild : ∀ {m s₂ l₂}, m ≤ n → (∀ q < m, IsMapped s₁.mem r q) →
      Copies lk (fun p => R p ∨ p = root) (fun a => X a ∧ a ≠ (k.pool np).trapframe) r root
      m s₁ l₁ s₂ l₂ → Child lk R X (k.pool np).trapframe r m root k.mm l s₂ l₂ := by
    intro m s₂ l₂ hm hmapped hcopies
    exact h₁.child h.spaces h.kept hr' (hm.trans hnp) hcopies.toWithin hcopies.pages
      (fun q hq => (hsame q (by omega)).mp (hmapped q hq)) hcopies.rest
  have hstart : Copies lk (fun p => R p ∨ p = root) (fun a => X a ∧ a ≠ (k.pool np).trapframe)
      r root 0 s₁ l₁ s₁ l₁ :=
    ⟨Within.refl h₁.spaces, fun q hq => absurd hq (Nat.not_lt_zero q), fun q _ _ => rfl,
      fun a ha => ha⟩
  have hthree : 3 ≤ l.length :=
    (hchild (Nat.zero_le n) (fun q hq => absurd hq (Nat.not_lt_zero q)) hstart).count hframe
      (Nat.zero_le _)
  rw [Option.getD_some, runs_onMm]
  dsimp only
  rw [Function.update_self, Function.update_of_ne hne, ← hr]
  have hold : r ≠ root := by
    rintro rfl
    exact h₁.fresh hr'
  have hzero : ∀ q < npages (k.pool k.current_proc).sz, pteAt s₁.mem root q = 0 := by
    intro q hq
    rw [← hn] at hq
    unfold trapframePage at hnp
    rw [h₁.ptes q (by omega), procPtes_user (by unfold trampolinePage; omega)
      (by unfold trapframePage; omega)]
  apply (uvmcopy_runs h₁.spaces (Or.inl hr') (Or.inr rfl) hold (h.size.trans trapframe_in.le)
    hzero).mono
  · rintro e ⟨v, hv, hun, hmapped, s₂, l₂, hcopies⟩
    rw [← hn] at hv
    refine Or.inr ⟨v, hv, fun hc => hun ((hsame v hv).mpr hc), fun q hq => ?_, ?_⟩
    · exact (hsame q (by omega)).mp (hmapped q hq)
    · exact (hchild hv.le hmapped hcopies).count hframe (hv.le.trans hnp)
  rintro ret s₂ ⟨l₂, hresult⟩
  rw [← hn] at hresult
  rcases hresult.result with rfl | rfl
  · obtain ⟨hcopies, _, hmapped⟩ := hresult.copied rfl
    have hc₂ := hchild (Nat.le_refl n) hmapped hcopies
    have htf : MapsTo lk k.mm.mem r trapframePage (k.pool k.current_proc).trapframe := by
      apply mapsTo_trapframe h.frame
      rw [hr]
      exact h.trapframe
    have hntf : (k.pool k.current_proc).trapframe ≠ (k.pool np).trapframe := by
      intro hc
      exact (h.spaces.kept _ h.kept).2.2 r hr' (Or.inr ⟨_, hc ▸ htf⟩)
    obtain ⟨hregs, hmem⟩ := @regs_copied (k.pool k.current_proc).trapframe _ s₂.mem hframe.aligned
    refine ⟨fun hc => absurd hc (by decide), fun _ => ?_⟩
    rw [runs_onMm, memmove, Runs.modify_iff]
    apply (dupFiles_runs hne).imp
    rintro _ _ ⟨files, filepool, rfl, hnone⟩
    rw [runs_onMm, storePte, Runs.modify_iff]
    simp only [Function.update_self, Function.update_idem, newProc]
    refine ⟨trivial, hthree, root, l₂, n, hc₂.write h.spaces h.kept hnp hmem, Or.inl ⟨rfl,
      fun q hq => (hsame q hq).mp (hmapped q hq),
      ⟨⟨_, rfl, rfl, rfl, rfl, rfl⟩, fun _ => ?_, fun hno => ?_, rfl, rfl⟩,
      fun o ho => ?_, files, rfl⟩⟩
    · dsimp only
      rw [Function.update_self]
    · dsimp only
      simp only [Function.update_self, Function.update_of_ne hne] at hnone ⊢
      exact hnone hno
    rw [hregs o ho]
    split
    · rfl
    · apply hc₂.same.byte h.frame.aligned ⟨(h.spaces.space r hr').unfree _ _ htf, hntf⟩
      exact Nat.lt_trans ho (by decide)
  · obtain ⟨hback, v, hv, hmapped, hfew⟩ := hresult.failed rfl
    refine ⟨fun _ => ?_, fun hc => absurd (by decide) hc⟩
    have hc₂ : Child lk R X (k.pool np).trapframe r 0 root k.mm l s₂ l₂ :=
      h₁.child h.spaces h.kept hr' (Nat.zero_le _) hback.toWithin (fun q hq =>
        absurd hq (Nat.not_lt_zero q))
        (fun q hq => absurd hq (Nat.not_lt_zero q)) fun q hq _ => hback.ptes q hq
    refine ⟨rfl, hthree, root, l₂, 0, hc₂,
      Or.inr ⟨rfl, ⟨⟨_, rfl, rfl, rfl, rfl, rfl⟩, fun hc => absurd rfl hc,
      fun _ => ?_, rfl, rfl⟩, v, hv, fun q hq => (hsame q (by omega)).mp (hmapped q hq), ?_⟩⟩
    · dsimp only
      rw [Function.update_self]
      rfl
    have := h₁.count
    rw [fillCost_zero] at hfew
    omega

/-! ## What the child gets -/

/-- A page that the user may access. -/
def IsUser (mem : Bytes) (r q : Nat) : Prop := IsMapped mem r q ∧ (pteAt mem r q).testBit 4 = true

/-- The page `a` is a table of the address space, or mapped in it. -/
def InUse (mem : Bytes) (r a : Nat) : Prop :=
  TableOf mem r a ∨ ∃ q < 512 ^ 3, IsMapped mem r q ∧ frameAt mem r q = a

/-- The child in slot `np` has a copy of every user page of its parent, on pages
of its own that were free, and no other user page. Nothing of the parent
changed, and the child has its registers, but for `a0`. -/
structure ForkCopies (lk : Link) (k k' : Kernel) (np : Nat) : Prop where
  pages : ∀ q < 512 ^ 3, IsUser k.mm.mem (k.pool k.current_proc).pagetable q →
    CopiedPage lk k.mm.mem k'.mm.mem (k.pool k.current_proc).pagetable (k'.pool np).pagetable q ∧
    IsFree lk k.mm (frameAt k'.mm.mem (k'.pool np).pagetable q)
  own : ∀ q < 512 ^ 3, ∀ q' < 512 ^ 3, IsUser k'.mm.mem (k'.pool np).pagetable q →
    IsUser k'.mm.mem (k'.pool np).pagetable q' →
    frameAt k'.mm.mem (k'.pool np).pagetable q = frameAt k'.mm.mem (k'.pool np).pagetable q' →
    q = q'
  only : ∀ q < 512 ^ 3, IsUser k'.mm.mem (k'.pool np).pagetable q →
    IsUser k.mm.mem (k.pool k.current_proc).pagetable q
  parent : k'.pool k.current_proc = k.pool k.current_proc ∧
    SameOn PGSIZE (InUse k.mm.mem (k.pool k.current_proc).pagetable) k.mm.mem k'.mm.mem
  registers : RegsCopied (k.pool k.current_proc).trapframe (k'.pool np).trapframe k.mm.mem k'.mm.mem

/-- Fewer than three pages are free, and `fork` panics. Or there is memory for
the pages up to the first one below the size that is not mapped, where `fork`
panics, or else up to the size, and every user page is below the size. -/
def CanFork (k : Kernel) (l : List Nat) : Prop :=
  l.length < 3 ∨ ∃ h ≤ npages (k.pool k.current_proc).sz,
    (∀ q < h, IsMapped k.mm.mem (k.pool k.current_proc).pagetable q) ∧
    3 + (h + tablesFor h) ≤ l.length ∧
    ((h < npages (k.pool k.current_proc).sz ∧
    ¬ IsMapped k.mm.mem (k.pool k.current_proc).pagetable h) ∨
      (h = npages (k.pool k.current_proc).sz ∧
        ∀ q < 512 ^ 3, IsUser k.mm.mem (k.pool k.current_proc).pagetable q → q < h))

theorem tablesFor_mono {v h : Nat} (hle : v ≤ h) : v + tablesFor v ≤ h + tablesFor h := by
  unfold tablesFor
  omega

/-- The pages of the kernel are not the user's. -/
theorem not_user_trampoline
    (h : pteAt s.mem r trampolinePage = leafPte lk.trampoline (PTE_R ||| PTE_X)) :
    ¬ IsUser s.mem r trampolinePage := by
  rintro ⟨_, hbit⟩
  rw [← testBit_flags (by decide), h, (leafPte_decode lk.aligned (by decide)).2] at hbit
  exact absurd hbit (by decide)

theorem not_user_trapframe (htf : IsFrame lk tf)
    (h : pteAt s.mem r trapframePage = leafPte tf (PTE_R ||| PTE_W)) :
    ¬ IsUser s.mem r trapframePage := by
  rintro ⟨_, hbit⟩
  rw [← testBit_flags (by decide), h, (leafPte_decode htf.aligned (by decide)).2] at hbit
  exact absurd hbit (by decide)

/-- The user pages of the child are the copies. -/
theorem Child.user (h : Child lk R X tf r m root s l s₁ l₁) (htf : IsFrame lk tf) (hq : q < 512 ^ 3)
    (hu : IsUser s₁.mem root q) : q < m := by
  by_contra hge
  have hpte := h.rest q hq (Nat.le_of_not_lt hge)
  by_cases h1 : q = trampolinePage
  · subst h1
    refine @not_user_trampoline lk _ _ ?_ hu
    rw [hpte, procPtes, if_pos rfl]
  · by_cases h2 : q = trapframePage
    · subst h2
      apply not_user_trapframe htf _ hu
      rw [hpte, procPtes, if_neg h1, if_pos rfl]
    · have hm := hu.1
      rw [IsMapped, hpte, procPtes_user h1 h2, Nat.zero_testBit] at hm
      cases hm

/-- When the user pages of the parent are those below `n`, a child with the
copies of these has them all. -/
theorem Child.forkCopies {n : Nat} (h : Forking lk k R X l np)
    (hc : Child lk R X (k.pool np).trapframe (k.pool k.current_proc).pagetable n root
    k.mm l k'.mm l₁)
    (hn : n ≤ trapframePage) (hnew : NewChild lk k k' np root (k.pool k.current_proc).sz)
    (hmapped : ∀ q < n, IsMapped k.mm.mem (k.pool k.current_proc).pagetable q)
    (hregs : RegsCopied (k.pool k.current_proc).trapframe (k.pool np).trapframe k.mm.mem k'.mm.mem)
    (hinside : ∀ q < 512 ^ 3, IsUser k.mm.mem (k.pool k.current_proc).pagetable q → q < n) :
    ForkCopies lk k k' np := by
  obtain ⟨hframe, htfl, _⟩ := h.spaces.kept _ h.kept
  obtain ⟨q', hpool, rfl, _, htf', _⟩ := hnew.pool
  have hne : k.current_proc ≠ np := by
    intro hcp
    apply h.running
    rw [hcp]
    exact freeSlot_some h.slot
  have hroot : (k'.pool np).pagetable = q'.pagetable := by
    rw [hpool, Function.update_self]
  have htfeq : (k'.pool np).trapframe = (k.pool np).trapframe := by
    rw [hpool, Function.update_self, htf']
  refine ⟨fun q hq hu => ?_, fun q hq q₂ hq₂ hu hu₂ heq => ?_, fun q hq hu => ?_, ⟨?_, ?_⟩, ?_⟩
  · rw [hroot]
    have hlt := hinside q hq hu
    exact ⟨hc.pages q hlt, (isFree_iff h.spaces.free).mpr (hc.page_free hframe hn hlt)⟩
  · rw [hroot] at hu hu₂ heq
    have h1 := hc.mapsTo hn (hc.user hframe hq hu)
    have h2 := hc.mapsTo hn (hc.user hframe hq₂ hu₂)
    rw [← heq] at h2
    exact hc.space.unshared q q₂ _ h1 h2
  · rw [hroot] at hu
    have hlt := hc.user hframe hq hu
    refine ⟨hmapped q hlt, ?_⟩
    have hcopied := hc.pages q hlt
    have hflags : PTE_FLAGS (pteAt k.mm.mem (k.pool k.current_proc).pagetable q) < 1024 := by
      rw [PTE_FLAGS_eq]
      omega
    have hbit := hu.2
    rw [← testBit_flags (by decide), hcopied.pte, (leafPte_decode hcopied.frame.aligned hflags).2,
      Nat.testBit_or, testBit_flags (by decide),
      show PTE_V.testBit 4 = false by decide, Bool.or_false] at hbit
    exact hbit
  · rw [hpool, Function.update_of_ne hne]
  · apply hc.same.mono
    have htable : ∀ a, Owns lk k.mm.mem (k.pool k.current_proc).pagetable a →
        a ∉ l ∧ a ≠ (k.pool np).trapframe := by
      intro a ha
      refine ⟨fun hl => (h.spaces.space _ h.root).unowned hl ha, ?_⟩
      rintro rfl
      exact (h.spaces.kept _ h.kept).2.2 _ h.root ha
    rintro a (ha | ⟨q, hq, hm, ha⟩)
    · exact htable a (Or.inl ha)
    · by_cases hf : IsFrame lk a
      · exact htable a (Or.inr ⟨q, hq, hm, ha, hf⟩)
      · refine ⟨fun hl => hf (h.spaces.free.frames a hl), ?_⟩
        rintro rfl
        exact hf hframe
  · rw [htfeq]
    exact hregs

/-- A child that has a copy of every user page has none above the copies. -/
theorem ForkCopies.inside {n : Nat} (hcopies : ForkCopies lk k k' np) (h : Forking lk k R X l np)
    {r : Nat} (hc : Child lk R X (k.pool np).trapframe r n root k.mm l k'.mm l₁)
    (hroot : (k'.pool np).pagetable = root) (hq : q < 512 ^ 3)
    (hu : IsUser k.mm.mem (k.pool k.current_proc).pagetable q) : q < n := by
  obtain ⟨hcopied, _⟩ := hcopies.pages q hq hu
  rw [hroot] at hcopied
  apply hc.user (h.spaces.kept _ h.kept).1 hq
  refine ⟨hcopied.mapped, ?_⟩
  have hflags : PTE_FLAGS (pteAt k.mm.mem (k.pool k.current_proc).pagetable q) < 1024 := by
    rw [PTE_FLAGS_eq]
    omega
  rw [← testBit_flags (by decide), hcopied.pte, (leafPte_decode hcopied.frame.aligned hflags).2,
    Nat.testBit_or, testBit_flags (by decide), hu.2]
  rfl

theorem Forking.copies_iff (h : Forking lk k R X l np) :
    Runs (fun _ => True) (fork lk) k (fun _ k' => ForkCopies lk k k' np) ↔ CanFork k l := by
  have hnp := npages_trapframe h.size
  have hrun := fork_runs h rfl rfl
  have hzero : ∀ q ≤ 0, IsMapped k.mm.mem (k.pool k.current_proc).pagetable q →
      IsUser k.mm.mem (k.pool k.current_proc).pagetable q := by
    intro q hq hm
    rw [Nat.le_zero.mp hq] at hm ⊢
    exact ⟨hm, h.users 0 (by decide) (by decide) (by decide) hm⟩
  constructor
  · intro hcopies
    have hboth := hcopies.and hrun
    unfold Runs at hboth
    cases hf : fork lk k with
    | error e =>
      rw [hf] at hboth
      rcases hboth.2 with hfew | ⟨v, hv, hun, hmapped, hlen⟩
      · exact Or.inl hfew
      · exact Or.inr ⟨v, hv.le, hmapped, hlen, Or.inl ⟨hv, hun⟩⟩
    | ok x =>
      rw [hf] at hboth
      obtain ⟨hpost, _, hthree, root, l', m, hc, hcase⟩ := hboth
      rcases hcase with ⟨rfl, hmapped, hnew, _⟩ | ⟨rfl, hnew, v, hv, hmapped, _⟩
      · obtain ⟨q', hpool, rfl, _⟩ := hnew.pool
        have hroot : (x.2.pool np).pagetable = q'.pagetable := by
          rw [hpool, Function.update_self]
        exact Or.inr ⟨_, Nat.le_refl _, hmapped, hc.count (h.spaces.kept _ h.kept).1 hnp,
          Or.inr ⟨rfl, fun q hq hu => hpost.inside h hc hroot hq hu⟩⟩
      · obtain ⟨q', hpool, rfl, _⟩ := hnew.pool
        have hroot : (x.2.pool np).pagetable = q'.pagetable := by
          rw [hpool, Function.update_self]
        have hu := hzero 0 (Nat.le_refl 0) (hmapped 0 (Nat.zero_le v))
        exact absurd (hpost.inside h hc hroot (by decide) hu) (Nat.not_lt_zero 0)
  · intro hcan
    apply hrun.mono fun _ _ => trivial
    rintro ret k' ⟨_, hthree, root, l', m, hc, hcase⟩
    rcases hcan with hfew | ⟨v, hv, hmapped, hlen, hrest⟩
    · omega
    rcases hcase with ⟨rfl, hall, hnew, hregs, _⟩ | ⟨rfl, hnew, w, hw, hall, hfew⟩
    · rcases hrest with ⟨hlt, hun⟩ | ⟨rfl, hinside⟩
      · exact absurd (hall v hlt) hun
      · exact hc.forkCopies h hnp hnew hall hregs hinside
    · have hlt : w < v := by
        rcases hrest with ⟨hlt, hun⟩ | ⟨rfl, _⟩
        · by_contra hge
          exact hun (hall v (Nat.le_of_not_lt hge))
        · exact hw
      have := tablesFor_mono (v := w + 1) hlt
      omega

/-- `fork`, when it returns the pid of a new child, has copied the address space
just when it could: when every user page is below the size and there was memory
for the copies. -/
theorem fork_copies_the_pages_below_the_size (h : Forking lk k R X l np) :
    Runs (fun _ => True) (fork lk) k (fun _ k' => ForkCopies lk k k' np) ↔ CanFork k l :=
  h.copies_iff

/-! ## A process with a page above its size -/

section PageAbove

/-- A process with the address space `root`. All other slots are free. -/
def forkKernel (mm : Mm) (root sz : Nat) : Kernel :=
  { onePageKernel with
    mm := mm
    pool := fun i =>
      if i = 0 then { onePageKernel.pool 0 with pagetable := root, sz := sz, trapframe := 0x1000 }
      else { onePageKernel.pool 0 with
        state := .UNUSED
        pagetable := 0
        sz := 0
        trapframe := 0x2000 } }

/-- Twenty free pages. -/
def twentyPages : List Nat := (List.range 20).map fun i => 0x3000 + i * 0x1000

/-- An application of one page is loaded, and thirteen pages are left. -/
theorem onePageApp_loaded : ∃ mm root sz l, Spaces pageLink mm (· = root) l (· = 0x2000) ∧
    Loaded pageLink mm.mem root 0x1000 2 ∧ npages sz = 2 ∧ sz ≤ TRAPFRAME ∧ 13 ≤ l.length := by
  have hfree : FreeList pageLink (freePages pageLink twentyPages) twentyPages :=
    freePages_freeList (by decide) (by decide)
  have hs : Spaces pageLink (freePages pageLink twentyPages) (fun _ => False) twentyPages
      (fun a => a = 0x1000 ∨ a = 0x2000) := by
    refine ⟨hfree, fun r hr => hr.elim, fun r _ _ hr => hr.elim, ?_⟩
    rintro a (rfl | rfl)
    · exact ⟨⟨by decide, by decide, by decide⟩, by decide, fun r hr => hr.elim⟩
    · exact ⟨⟨by decide, by decide, by decide⟩, by decide, fun r hr => hr.elim⟩
  obtain ⟨⟨root, sz⟩, mm, _, ⟨_, hsz⟩, l, hb, hcount⟩ :=
    (loadTask_runs hs (Or.inl rfl) onePageApp).exists_ok fun _ => by decide
  have hnp : npages sz = 2 := by
    rw [show sz = _ from hsz, npages_mul (by rw [MAXVA_eq]; decide)]
    decide
  refine ⟨mm, root, sz, l, hb.spaces.congr (fun p hp => Or.inr hp) ?_, hnp ▸ hb.loaded,
    hnp, hb.size, ?_⟩
  · rintro a rfl
    exact ⟨Or.inr rfl, by decide⟩
  · have htwenty : twentyPages.length = 20 := by decide
    have hneeded : loadPagesNeeded onePageApp = 7 := by decide
    omega

theorem forkKernel_forking {mm : Mm} {root sz : Nat}
    (hs : Spaces pageLink mm (· = root) l (· = 0x2000)) (hsz : sz ≤ TRAPFRAME)
    (h1 : pteAt mm.mem root trampolinePage = leafPte pageLink.trampoline (PTE_R ||| PTE_X))
    (h2 : pteAt mm.mem root trapframePage = leafPte 0x1000 (PTE_R ||| PTE_W))
    (hu : ∀ q < 512 ^ 3, q ≠ trampolinePage → q ≠ trapframePage → IsMapped mm.mem root q →
      (pteAt mm.mem root q).testBit 4 = true) :
    Forking pageLink (forkKernel mm root sz) (· = root) (· = 0x2000) l 1 :=
  ⟨hs, rfl, by rfl, rfl, (show procstate.RUNNING ≠ .UNUSED by decide), hsz, h1, h2,
    (show IsFrame pageLink 0x1000 from ⟨by decide, by decide, by decide⟩), hu⟩

theorem isUserPte_user {w : Nat} (h : IsUserPte lk w) : w.testBit 4 = true := by
  rw [← testBit_flags (by decide), h.decode.2.2]
  decide

/-- The pages of an application are the user's. -/
theorem loaded_users (h : Loaded lk s.mem r tf n) (hq : q < 512 ^ 3) (h1 : q ≠ trampolinePage)
    (h2 : q ≠ trapframePage) (hm : IsMapped s.mem r q) : (pteAt s.mem r q).testBit 4 = true ∧
    q < n := by
  by_cases hlt : q < n
  · exact ⟨isUserPte_user (h.pages q hlt), hlt⟩
  · rw [IsMapped, h.rest q hq (Nat.le_of_not_lt hlt) h1 h2, Nat.zero_testBit] at hm
    cases hm

/-- The child of a process that was just loaded has all its pages. -/
theorem fork_copies_the_pages_below_the_size_one_page : ∃ mm root sz,
    Runs (fun _ => True) (fork pageLink) (forkKernel mm root sz)
      (fun _ k' => ForkCopies pageLink (forkKernel mm root sz) k' 1) := by
  obtain ⟨mm, root, sz, l, hs, hloaded, hnp, hsz, hlen⟩ := onePageApp_loaded
  have hforking := forkKernel_forking hs hsz hloaded.trampoline hloaded.trapframe
    fun q hq h1 h2 hm => (loaded_users hloaded hq h1 h2 hm).1
  have hnp' : npages ((forkKernel mm root sz).pool (forkKernel mm root sz).current_proc).sz = 2 :=
    hnp
  refine ⟨mm, root, sz, (fork_copies_the_pages_below_the_size hforking).mpr
    (Or.inr ⟨2, hnp'.ge, ?_, ?_, Or.inr ⟨hnp'.symm, ?_⟩⟩)⟩
  · intro q hq
    exact (hloaded.pages q hq).decode.1
  · have hseven : 3 + (2 + tablesFor 2) = 7 := by decide
    omega
  · rintro q hq ⟨hm, hbit⟩
    refine (loaded_users hloaded hq ?_ ?_ hm).2
    · rintro rfl
      exact not_user_trampoline hloaded.trampoline ⟨hm, hbit⟩
    · rintro rfl
      exact not_user_trapframe hforking.frame hloaded.trapframe ⟨hm, hbit⟩

/-- A page that is mapped at the size is not copied. -/
theorem fork_misses_a_page_above_the_size :
    ¬ ∀ (lk : Link) (k : Kernel) (R X : Nat → Prop) (l : List Nat)
    (np : Nat), Forking lk k R X l np →
      Runs (fun _ => True) (fork lk) k (fun _ k' => ForkCopies lk k k' np) := by
  intro hall
  obtain ⟨mm, root, sz, l, hs, hloaded, hnp, hsz, hlen⟩ := onePageApp_loaded
  have hun : ¬ IsMapped mm.mem root 2 := by
    rw [IsMapped, hloaded.rest 2 (by decide) (Nat.le_refl 2) (by decide) (by decide),
      Nat.zero_testBit]
    decide
  -- The page at 0x2000 is mapped, as mmap does.
  have hrun : Runs (fun _ => False) (do
      let page ← kalloc
      if page = 0 then pure ()
      else do
        modify fun s => { s with mem := s.mem }
        let ret ← mappages root (2 * PGSIZE) PGSIZE page userPerm
        if ret ≠ 0 then pure () else pure ()) mm (fun _ mm' => ∃ page l',
          AddsPage pageLink (· = root) (· = 0x2000) root 2 page userPerm 3 (fun _ mem => mem) mm
          l mm' l') := by
    refine hs.newPage_runs (m := 2) rfl (by decide) (by decide) (by decide) (missing_le _ _ _ _)
      (fun _ _ _ => SameOn.refl) (fun hl => ?_) (fun page s' l' h => ?_) fun page s' l' h =>
      ⟨page, l', h⟩
    · rw [hl, List.length_nil] at hlen
      omega
    · rcases h.reason with hc | hc
      · exact absurd hc hun
      · omega
  obtain ⟨_, mm', _, page, l', hadds⟩ := hrun.exists_ok fun _ he => he
  have hother : ∀ q < 512 ^ 3, q ≠ 2 → pteAt mm'.mem root q = pteAt mm.mem root q := by
    intro q hq hne
    rw [hadds.ptes q hq, if_neg hne]
  have hpage : IsUserPte pageLink (pteAt mm'.mem root 2) := by
    rw [hadds.ptes 2 (by decide), if_pos rfl]
    exact ⟨page, hadds.frame, rfl⟩
  have hforking := forkKernel_forking hadds.spaces hsz
    ((hother _ (by decide) (by decide)).trans hloaded.trampoline)
    ((hother _ (by decide) (by decide)).trans hloaded.trapframe) (fun q hq h1 h2 hm => by
      by_cases h : q = 2
      · rw [h]
        exact isUserPte_user hpage
      · rw [IsMapped, hother q hq h] at hm
        rw [hother q hq h]
        exact (loaded_users hloaded hq h1 h2 hm).1)
  have hnp' : npages ((forkKernel mm' root sz).pool (forkKernel mm' root sz).current_proc).sz = 2 :=
    hnp
  rcases hforking.copies_iff.mp (hall _ _ _ _ _ _ hforking) with hfew | ⟨h, hle, _, _, hcase⟩
  · have := hadds.count
    omega
  · rw [hnp'] at hle hcase
    rcases hcase with ⟨hlt, hno⟩ | ⟨rfl, hinside⟩
    · apply hno
      show IsMapped mm'.mem root h
      rw [IsMapped, hother h (by omega) (by omega)]
      exact (hloaded.pages h hlt).decode.1
    · exact absurd (hinside 2 (by decide) ⟨hpage.decode.1, isUserPte_user hpage⟩) (by decide)

end PageAbove

end ThuKernel
