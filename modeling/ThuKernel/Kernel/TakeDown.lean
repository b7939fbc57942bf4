-- A process that maps and unmaps pages and then exits: when its pages go back
-- to the free list.
import ThuKernel.Kernel.Coherence
import ThuKernel.Kernel.Mapping
import ThuKernel.Kernel.RoundTrip

namespace ThuKernel

/-- The kernel, and the pages that are allocated for one process: its tables
and data pages, until they are free again. -/
structure Owner where
  k : Kernel
  taken : Nat → Prop

namespace Owner

/-- The state after a call of the process: a page that was free and no longer is
was allocated for it. -/
def after (lk : Link) (o : Owner) (k' : Kernel) : Owner :=
  ⟨k', fun a => (o.taken a ∨ IsFree lk o.k.mm a) ∧ ¬ IsFree lk k'.mm a⟩

/-- What other code may do between the calls of process `i`: it leaves the
process and its tables alone, and frees none of its pages. -/
structure Others (lk : Link) (i : Nat) (o : Owner) (k' : Kernel) : Prop where
  pagetable : (k'.pool i).pagetable = (o.k.pool i).pagetable
  sz : (k'.pool i).sz = (o.k.pool i).sz
  tables : SameOn PGSIZE (TableOf o.k.mm.mem (o.k.pool i).pagetable) o.k.mm.mem k'.mm.mem
  free : ∃ l, FreeList lk k'.mm l ∧ ∀ a ∈ l, ¬ o.taken a ∧
    ¬ Owns lk o.k.mm.mem (o.k.pool i).pagetable a

/-- A call of process `i` that succeeds, or a step of other code. -/
inductive Step (lk : Link) (i : Nat) : Owner → Owner → Prop
  | mmap {o : Owner} {start len port : Nat} {ret : Int} {k' : Kernel} : o.k.current_proc = i →
      sys_mmap start len port o.k = .ok (ret, k') → ret ≠ -1 → Step lk i o (o.after lk k')
  | munmap {o : Owner} {start len : Nat} {ret : Int} {k' : Kernel} : o.k.current_proc = i →
      sys_munmap lk start len o.k = .ok (ret, k') → ret ≠ -1 → Step lk i o (o.after lk k')
  | others {o : Owner} {k' : Kernel} : Others lk i o k' → Step lk i o ⟨k', o.taken⟩

/-- Process `i` has an address space, with the trampoline in it. What is
allocated for it are its pages, but for that of the saved registers. -/
structure Started (lk : Link) (i : Nat) (o : Owner) : Prop where
  space : ∃ l, AddrSpace lk o.k.mm (o.k.pool i).pagetable l []
  trampoline : pteAt o.k.mm.mem (o.k.pool i).pagetable trampolinePage =
    leafPte lk.trampoline (PTE_R ||| PTE_X)
  size : (o.k.pool i).sz ≤ TRAPFRAME
  taken : ∀ a, o.taken a ↔ Owns lk o.k.mm.mem (o.k.pool i).pagetable a ∧
    ¬ MapsTo lk o.k.mm.mem (o.k.pool i).pagetable trapframePage a

/-- `proc_freepagetable` of the process returns, and frees what was allocated. -/
def Frees (lk : Link) (i : Nat) (o : Owner) : Prop :=
  Runs (fun _ => False) (proc_freepagetable lk (o.k.pool i).pagetable (o.k.pool i).sz) o.k.mm
    fun _ mm => ∀ a, o.taken a → IsFree lk mm a

/-- The state that exit expects: the page of the saved registers is mapped, so
are the pages below the size, each to a page of the allocator, and no page was
allocated but these and the tables. -/
structure Clean (lk : Link) (i : Nat) (o : Owner) : Prop where
  trapframe : IsMapped o.k.mm.mem (o.k.pool i).pagetable trapframePage
  pages : ∀ q < npages (o.k.pool i).sz, ∃ a, MapsTo lk o.k.mm.mem (o.k.pool i).pagetable q a
  taken : ∀ a, o.taken a → TableOf o.k.mm.mem (o.k.pool i).pagetable a ∨
    ∃ q < npages (o.k.pool i).sz, MapsTo lk o.k.mm.mem (o.k.pool i).pagetable q a

/-- What every run keeps. -/
structure Ok (lk : Link) (i : Nat) (o : Owner) : Prop where
  space : ∃ l, AddrSpace lk o.k.mm (o.k.pool i).pagetable l [] ∧ ∀ a ∈ l, ¬ o.taken a
  trampoline : pteAt o.k.mm.mem (o.k.pool i).pagetable trampolinePage =
    leafPte lk.trampoline (PTE_R ||| PTE_X)
  size : (o.k.pool i).sz ≤ TRAPFRAME

variable {lk : Link} {i : Nat} {o o' : Owner} {k' : Kernel} {s : Mm} {r a q : Nat}
  {l hand : List Nat}

theorem Started.ok (h : Started lk i o) : o.Ok lk i := by
  obtain ⟨l, hs⟩ := h.space
  exact ⟨⟨l, hs, fun a ha ht => hs.unowned ha ((h.taken a).mp ht).1⟩, h.trampoline, h.size⟩

/-- The trampoline cannot be unmapped: it is no page of the allocator. -/
theorem trampoline_stays
    (h : pteAt s.mem r trampolinePage = leafPte lk.trampoline (PTE_R ||| PTE_X)) :
    ¬ CanUnmap lk s.mem r true trampolinePage := by
  intro hc
  have hframe := hc.frame rfl
  have hpage := hframe.trampoline
  unfold frameAt at hframe
  rw [h, (leafPte_decode hpage.aligned (by decide)).1, Nat.mod_eq_of_lt hpage.below] at hframe
  exact trampoline_not_frame hframe

/-- A call that changes only the memory. -/
theorem Ok.call (h : o.Ok lk i) (hk : k' = { o.k with mm := k'.mm })
    (hs : AddrSpace lk k'.mm (o.k.pool i).pagetable l hand)
    (htrampoline : pteAt k'.mm.mem (o.k.pool i).pagetable trampolinePage =
      pteAt o.k.mm.mem (o.k.pool i).pagetable trampolinePage) : (o.after lk k').Ok lk i := by
  have hpool : k'.pool = o.k.pool := by
    rw [hk]
  unfold after
  refine ⟨⟨l, ?_, fun a ha ht => ht.2 ⟨l, hs.space.free, ha⟩⟩, ?_, ?_⟩
  · dsimp only
    rw [hpool]
    exact hs.drop
  · dsimp only
    rw [hpool, htrampoline]
    exact h.trampoline
  · dsimp only
    rw [hpool]
    exact h.size

theorem Ok.step (h : o.Ok lk i) (hstep : Step lk i o o') : o'.Ok lk i := by
  obtain ⟨l, hs, htaken⟩ := h.space
  cases hstep with
  | mmap hi hrun _ =>
    subst hi
    obtain ⟨hk, l', hand', hs', _, hptes⟩ := (sys_mmap_runs (E := fun _ => True) rfl hs
      fun _ => trivial).of_ok hrun
    apply h.call hk hs'
    apply hptes.old _ (by decide)
    unfold IsMapped
    rw [h.trampoline, leafPte_valid]
  | munmap hi hrun _ =>
    subst hi
    obtain ⟨hk, l', hs', _, hptes⟩ := (sys_munmap_runs (E := fun _ => True) rfl hs
      fun _ => trivial).of_ok hrun
    apply h.call hk hs'
    rcases hptes.ptes trampolinePage (by decide) with hp | ⟨_, hc⟩
    · exact hp
    · exact absurd hc (trampoline_stays h.trampoline)
  | @others k' ho =>
    obtain ⟨l', hfree, hl'⟩ := ho.free
    obtain ⟨hs', _, _, hptes⟩ := hs.frame ho.tables (fun a ha => ha) hfree (fun a ha =>
      (hl' a ha).2)
      (fun a ha => by cases ha) List.nodup_nil
    refine ⟨⟨l', ?_, fun a ha => (hl' a ha).1⟩, ?_, ?_⟩
    · dsimp only
      rw [ho.pagetable]
      exact hs'
    · dsimp only
      rw [ho.pagetable, hptes _ (by decide)]
      exact h.trampoline
    · dsimp only
      rw [ho.sz]
      exact h.size

theorem Started.run (h : Started lk i o) (hrun : Relation.ReflTransGen (Step lk i) o o') :
    o'.Ok lk i := by
  induction hrun with
  | refl => exact h.ok
  | tail _ hstep ih => exact ih.step hstep

/-- When the tear-down reaches no panic. -/
theorem Ok.freeable_iff (h : o.Ok lk i) :
    Freeable lk o.k.mm.mem (o.k.pool i).pagetable (o.k.pool i).sz ↔
    IsMapped o.k.mm.mem (o.k.pool i).pagetable trapframePage ∧
    ∀ q < npages (o.k.pool i).sz, ∃ a, MapsTo lk o.k.mm.mem (o.k.pool i).pagetable q a := by
  obtain ⟨l, hs, _⟩ := h.space
  have hnp := npages_trapframe h.size
  have hlimit : ∀ q < npages (o.k.pool i).sz, q < 512 ^ 3 := by
    intro q hq
    unfold trapframePage at hnp
    omega
  have hleaf : ∀ q < 512 ^ 3, IsMapped o.k.mm.mem (o.k.pool i).pagetable q →
      PTE_FLAGS (pteAt o.k.mm.mem (o.k.pool i).pagetable q) ≠ PTE_V := by
    intro q hq hm hc
    apply hs.walkable.leaf q hq hm
    rw [flags_and, hc]
    decide
  constructor
  · intro hf
    refine ⟨hf.trapframe.mapped, fun q hq => ?_⟩
    exact ⟨_, hlimit q hq, (hf.pages q hq).mapped, rfl, (hf.pages q hq).frame rfl⟩
  · rintro ⟨htf, hpages⟩
    have htrampoline : IsMapped o.k.mm.mem (o.k.pool i).pagetable trampolinePage := by
      unfold IsMapped
      rw [h.trampoline, leafPte_valid]
    refine ⟨⟨htrampoline, hleaf _ (by decide) htrampoline, fun hc => by cases hc⟩,
      ⟨htf, hleaf _ (by decide) htf, fun hc => by cases hc⟩, fun q hq => ?_⟩
    obtain ⟨a, ha⟩ := hpages q hq
    refine ⟨ha.mapped, hleaf q ha.limit ha.mapped, fun _ => ?_⟩
    rw [ha.frame]
    exact ha.alloc

/-- The tear-down in any state of a run. -/
theorem Ok.frees_iff (h : o.Ok lk i) : o.Frees lk i ↔ o.Clean lk i := by
  obtain ⟨l, hs, htaken⟩ := h.space
  have hspaces : Spaces lk o.k.mm (· = (o.k.pool i).pagetable) l fun _ => False := by
    refine ⟨hs.space.free, ?_, ?_, fun a ha => ha.elim⟩
    · rintro r rfl
      exact hs
    · rintro r r' a rfl rfl _ _
      rfl
  have hrun := proc_freepagetable_runs hspaces rfl h.size
  constructor
  · intro hfrees
    have hboth := hfrees.and hrun
    unfold Runs at hboth
    cases hf : proc_freepagetable lk (o.k.pool i).pagetable (o.k.pool i).sz o.k.mm with
    | error e =>
      rw [hf] at hboth
      exact hboth.1.elim
    | ok x =>
      rw [hf] at hboth
      obtain ⟨hfree, hcan, l', hgone⟩ := hboth
      obtain ⟨h1, h2⟩ := h.freeable_iff.mp hcan
      refine ⟨h1, h2, fun a ha => ?_⟩
      have hmem := (isFree_iff hgone.spaces.free).mp (hfree a ha)
      rcases (hgone.pages a).mp hmem with hc | hc
      · exact absurd ha (htaken a hc)
      · exact hc
  · rintro ⟨h1, h2, h3⟩
    have hcan := h.freeable_iff.mpr ⟨h1, h2⟩
    apply hrun.mono
    · intro e he
      exact he hcan
    · rintro _ mm ⟨_, l', hgone⟩ a ha
      exact (isFree_iff hgone.spaces.free).mpr ((hgone.pages a).mpr (Or.inr (h3 a ha)))

end Owner

/-- After any run of successful `mmap` and `munmap` calls, the tear-down of exit
and exec returns and frees every page that was allocated for the process, just
when the pages of the process are those of its size. -/
theorem exit_frees_the_pages_of_the_size {lk : Link} {i : Nat} {o₀ o : Owner}
    (hstart : o₀.Started lk i) (hrun : Relation.ReflTransGen (Owner.Step lk i) o₀ o) :
    o.Frees lk i ↔ o.Clean lk i :=
  (hstart.run hrun).frees_iff

/-! ## A page that is unmapped -/

section FirstPage

variable {lk : Link} {k : Kernel} {r : Nat} {l : List Nat}

/-- `munmap` of the page at address 0 succeeds when the page came from the
allocator. -/
theorem munmap_first_page (hr : (k.pool k.current_proc).pagetable = r)
    (h : AddrSpace lk k.mm r l []) (hcan : CanUnmap lk k.mm.mem r true 0) :
    Runs (fun _ => False) (sys_munmap lk 0 4096) k (fun ret k' => ret = 4096 ∧
      k' = { k with mm := k'.mm } ∧ ¬ IsMapped k'.mm.mem r 0) := by
  have hmax := MAXVA_eq
  have hzero : (0 : Nat) < MAXVA := by omega
  have hup : PGROUNDUP 4096 = 4096 := by decide
  have hslot : ∃ pte, slot k.mm.mem r 0 = some pte := by
    cases hs : slot k.mm.mem r 0 with
    | none =>
      have hm := hcan.mapped
      rw [IsMapped, slot_none hs, Nat.zero_testBit] at hm
      cases hm
    | some pte => exact ⟨pte, rfl⟩
  obtain ⟨pte, hslot⟩ := hslot
  unfold sys_munmap
  rw [if_neg (by decide), Runs.bind_iff, runs_curr_proc, hr, hup]
  dsimp only
  have hfuel : MAXVA / PGSIZE + 1 = (MAXVA / PGSIZE - 1) + 1 + 1 := by
    simp only [PGSIZE_eq] at *
    omega
  have hscan : Runs (fun _ => False)
      (munmapLoop r ((0 + 4096 / PGSIZE * PGSIZE) % 2 ^ 64) (MAXVA / PGSIZE + 1) 0) k.mm
      (fun ok s' => ok = true ∧ s' = k.mm) := by
    rw [hfuel]
    unfold munmapLoop
    rw [if_pos (by decide), Runs.bind_iff, runs_find hzero, show 0 / PGSIZE = 0 from rfl, hslot]
    dsimp only
    rw [Runs.bind_iff, Runs.get_iff, get64_slot hslot, if_neg (by rw [hcan.mapped]; decide)]
    unfold munmapLoop
    rw [if_neg (by decide), Runs.pure_iff]
    exact ⟨rfl, rfl⟩
  rw [Runs.bind_iff, runs_onMm]
  apply hscan.imp
  rintro _ _ ⟨rfl, rfl⟩
  rw [if_neg (by decide), Runs.bind_iff, runs_onMm]
  apply (h.uvmunmap_runs (n := 4096 / PGSIZE) (rfl : 0 % PGSIZE = 0)
    (by simp only [PGSIZE_eq]; omega)).mono
  · intro e he
    apply he
    intro q _ hq
    rw [show q = 0 by simp only [PGSIZE_eq] at hq; omega]
    exact hcan
  · rintro _ s₁ ⟨l₁, _, _, hun⟩
    refine ⟨rfl, rfl, ?_⟩
    unfold IsMapped
    rw [hun.pte 0 (by decide), if_pos (by decide), Nat.zero_testBit]
    decide

/-- The process of the seven pages. -/
def oneTaskOwner (root sz : Nat) : Owner where
  k := { onePageKernel with
    mm := oneTaskMm
    pool := fun _ => { onePageKernel.pool 0 with pagetable := root, sz := sz, trapframe := 0x1000 }
      }
  taken a := Owns pageLink oneTaskMm.mem root a ∧
    ¬ MapsTo pageLink oneTaskMm.mem root trapframePage a

theorem oneTaskOwner_started : ∃ root sz, (oneTaskOwner root sz).Started pageLink 0 ∧
    Loaded pageLink oneTaskMm.mem root 0x1000 (npages sz) ∧ 0 < npages sz ∧ root ≠ 0 := by
  obtain ⟨⟨root, sz⟩, h⟩ := Prog.returns_iff.mp loadTask_returns
  have hok := sevenPages_booted.ok
  obtain ⟨l, hs⟩ := hok.spaces
  have hidle : sevenPages.Idle 0x1000 := fun t ht => by cases ht
  obtain ⟨⟨hroot, hsz⟩, l', hb, _⟩ :=
    (loadTask_runs hs (hok.idle_kept rfl hidle) onePageApp).of_ok h
  have hnp : 0 < npages sz := by
    rw [show sz = _ from hsz, npages_mul (by rw [MAXVA_eq]; decide)]
    decide
  refine ⟨root, sz, ⟨⟨l', hb.spaces.space root (Or.inr rfl)⟩, hb.loaded.trampoline, hb.size,
    fun a => Iff.rfl⟩, hb.loaded, hnp, hroot⟩

/-- `munmap` of its first page. -/
theorem oneTaskOwner_munmap {root sz : Nat} (hstart : (oneTaskOwner root sz).Started pageLink 0)
    (hloaded : Loaded pageLink oneTaskMm.mem root 0x1000 (npages sz)) (hnp : 0 < npages sz) : ∃ o,
      Owner.Step pageLink 0 (oneTaskOwner root sz) o ∧ 0 < npages (o.k.pool 0).sz ∧
      ¬ IsMapped o.k.mm.mem (o.k.pool 0).pagetable 0 := by
  obtain ⟨l, hs⟩ := hstart.space
  have hframe : IsFrame pageLink 0x1000 := ⟨by decide, by decide, by decide⟩
  obtain ⟨ret, k', hcall, hret, hk, hun⟩ :=
    (munmap_first_page (k := (oneTaskOwner root sz).k) rfl hs
    ((hloaded.freeable hframe).pages 0 hnp)).exists_ok fun _ he => he
  refine ⟨_, .munmap rfl hcall (by rw [hret]; decide), ?_, ?_⟩
  · unfold Owner.after
    dsimp only
    rw [hk]
    exact hnp
  · unfold Owner.after
    dsimp only
    rw [hk]
    exact hun

/-- When it calls nothing, all its pages go back. After `munmap` of its first page
they do not. -/
theorem exit_frees_the_pages_of_the_size_one_task : ∃ (start o : Owner), start.Frees pageLink 0 ∧
    Owner.Step pageLink 0 start o ∧ ¬ o.Frees pageLink 0 := by
  obtain ⟨root, sz, hstart, hloaded, hnp, _⟩ := oneTaskOwner_started
  obtain ⟨o, hstep, hpos, hun⟩ := oneTaskOwner_munmap hstart hloaded hnp
  have hframe : IsFrame pageLink 0x1000 := ⟨by decide, by decide, by decide⟩
  refine ⟨oneTaskOwner root sz, o,
    (exit_frees_the_pages_of_the_size hstart Relation.ReflTransGen.refl).mpr ⟨?_, ?_, ?_⟩,
    hstep, fun hc => ?_⟩
  · exact (mapsTo_trapframe hframe hloaded.trapframe).mapped
  · intro q hq
    exact (hstart.ok.freeable_iff.mp (hloaded.freeable hframe)).2 q hq
  · rintro a ⟨ha | ⟨q, ha⟩, hno⟩
    · exact Or.inl ha
    · rcases (hloaded.mapsTo_iff (npages_trapframe hstart.size) hframe).mp ha with
        ⟨rfl, _⟩ | ⟨hq, _⟩
      · exact absurd ha hno
      · exact Or.inr ⟨q, hq, ha⟩
  · obtain ⟨_, ha⟩ := ((exit_frees_the_pages_of_the_size hstart (.single hstep)).mp hc).pages 0 hpos
    exact hun ha.mapped

/-- After `munmap` of its first page, exit reaches a panic. -/
theorem exit_panics_after_munmap : ¬ ∀ (lk : Link) (i : Nat) (o₀ o : Owner), o₀.Started lk i →
    Relation.ReflTransGen (Owner.Step lk i) o₀ o → o.Frees lk i := by
  intro hall
  obtain ⟨root, sz, hstart, hloaded, hnp, _⟩ := oneTaskOwner_started
  obtain ⟨o, hstep, hpos, hun⟩ := oneTaskOwner_munmap hstart hloaded hnp
  have hrun := Relation.ReflTransGen.single hstep
  obtain ⟨_, ha⟩ := ((hstart.run hrun).frees_iff.mp (hall _ _ _ _ hstart hrun)).pages 0 hpos
  exact hun ha.mapped

end FirstPage

end ThuKernel
