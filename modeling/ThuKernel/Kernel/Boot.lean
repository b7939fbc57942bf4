-- From the entry of `main` to the call of `scheduler`: the free pages, the table of
-- processes, the page table of the kernel, the super block and the first process.
-- What the laws about runs ask of their start holds there.
import ThuKernel.Kernel.AppTable
import ThuKernel.Kernel.BalanceRuns
import ThuKernel.Kernel.DirectMap
import ThuKernel.Kernel.PageRuns
import ThuKernel.Kernel.PipeLaws
import ThuKernel.Kernel.Rounds
import ThuKernel.Vm.FreePages

namespace ThuKernel

/-! ## The code -/

/-- The variables after `clean_bss`, over any memory. The next number of `allocpid`
is 1. -/
def bss (mem : Bytes) (disk : Nat → Bytes) : Kernel where
  mm := ⟨mem, 0⟩
  fs := startFs disk
  filepool _ := ⟨.FD_NONE, 0, false, false, 0, none, 0⟩
  pipes _ := ⟨fun _ => 0, 0, 0, false, false⟩
  pool _ := ⟨.UNUSED, 0, 0, 0, 0, 0, none, 0, fun _ => none, .zero, 0, 0⟩
  current_proc := Scheduler.idle
  PID := 1

/-- The array `ustack` is where the linker put it. -/
def procinit (ustack : Nat) : Prog Kernel Unit :=
  Prog.forUp (fun i => do
    let trapframe ← onMm kalloc
    let p ← getProc i
    setProc i { p with state := .UNUSED, ustack := ustack + i * PGSIZE, trapframe, pid := 0 })
      0 NPROC

def usershell : List Byte := "ch5_usershell".toList.map fun c => BitVec.ofNat 8 c.toNat

theorem usershell_nonzero : ∀ b ∈ usershell, b ≠ 0 := by decide

def ch5_usershell : CStr := ⟨usershell, usershell_nonzero⟩

def run_all_app (lk : Link) : Prog Kernel Int := do
  let r ← allocproc lk
  let i ← deref r
  let p ← getProc i
  setProc i { p with parent := none }
  match get_id_by_name lk ch5_usershell with
  | none => Prog.panic "no user shell\n"
  | some id => do
    loader lk id i
    let p ← getProc i
    setProc i { p with state := .RUNNABLE }
    pure 0

/-- `main`, up to `scheduler`. The buffers are as `binit` left them. Returns
`kernel_pagetable`. -/
def main (lk : Link) (e_text ustack : Nat) : Prog Kernel Nat := do
  onMm (kinit lk)
  procinit ustack
  let kernel_pagetable ← onMm (kvmmake lk e_text)
  onFs fsinit
  let _ ← run_all_app lk
  pure kernel_pagetable

/-- What `main` leaves for the scheduler: the shell is the only process, ready to run
with the number 1, and has the application `app` as it is in the memory `mem`. -/
structure Ready (lk : Link) (e_text kpgtbl : Nat) (app : App) (mem : Bytes) (disk : Nat → Bytes)
    (k : Kernel) : Prop where
  shell : Launched lk app mem k 0
  pid : (k.pool 0).pid = 1
  state : (k.pool 0).state = .RUNNABLE
  parent : (k.pool 0).parent = none
  sched : Scheduler.Boot ⟨k, none, 0, true⟩
  life : LifeBoot k
  pages : EndStart lk ⟨k, fun _ => none, []⟩
  files : InodeBoot disk k
  pipes : PipeStart ⟨k, fun _ => none, fun _ => [], fun _ => [], fun _ => []⟩
  map : ∀ va < MAXVA, translate k.mm.mem kpgtbl va = kernelMap lk e_text va

variable {lk : Link} {E : Stop → Prop} {k k' : Kernel} {l : List Nat} {P : Nat → Prop}
  {np id e_text : Nat} {app : App}

/-! ## kalloc.c -/

/-- All whole pages between the kernel and the end of the memory are free. -/
theorem FreePages.length_ge {pa_start pa_end : Nat} {s : Mm}
    (h : FreePages lk pa_start pa_end [] s l)
    (hr : InMemory lk pa_start pa_end) : (pa_end - PGROUNDUP pa_start) / PGSIZE ≤ l.length := by
  obtain ⟨hmod, hle, _⟩ := PGROUNDUP_spec hr.start
  have hP := PGSIZE_eq
  have hinj : Function.Injective fun i => PGROUNDUP pa_start + i * PGSIZE := by
    intro i j hij
    dsimp only at hij
    simp only [PGSIZE_eq] at hij
    omega
  have hnodup := (List.nodup_range (n := (pa_end - PGROUNDUP pa_start) / PGSIZE)).map hinj
  have hsub : (List.range ((pa_end - PGROUNDUP pa_start) / PGSIZE)).map
      (fun i => PGROUNDUP pa_start + i * PGSIZE) ⊆ l := by
    intro a ha
    obtain ⟨i, hi, rfl⟩ := List.mem_map.mp ha
    have hlt := List.mem_range.mp hi
    refine (h.free _).mpr ⟨⟨?_, ?_, ?_⟩, List.not_mem_nil⟩
    · rw [Nat.add_mul_mod_self_right, hmod]
    · exact hle.trans (Nat.le_add_right ..)
    · rw [PGSIZE_eq] at *
      omega
  have hlen := (hnodup.subperm hsub).length_le
  rwa [List.length_map, List.length_range] at hlen

/-- `kfree` writes to no page but those of the allocator. -/
theorem kfree_outside (pa : Nat) (s : Mm) :
    Runs (fun _ => True) (kfree lk pa) s fun _ s' =>
    SameOn PGSIZE (fun a => ¬ IsFrame lk a) s.mem s'.mem := by
  rw [runs_kfree]
  refine ⟨fun _ => trivial, fun hframe => ?_⟩
  have hsame : SameOn PGSIZE (· ≠ pa) s.mem ((s.mem.fill pa PGSIZE 1).put64 pa s.freelist) := by
    apply SameOn.trans (SameOn.fill hframe.aligned (Nat.le_refl _))
    exact SameOn.put64 (o := 0) hframe.aligned (by decide)
  apply hsame.mono
  rintro a ha rfl
  exact ha hframe

theorem freerangeLoop_outside (pa_end fuel p : Nat) (s : Mm) :
    Runs (fun _ => True) (freerangeLoop lk pa_end fuel p) s
    fun _ s' => SameOn PGSIZE (fun a => ¬ IsFrame lk a) s.mem s'.mem := by
  induction fuel generalizing s p with
  | zero => trivial
  | succ fuel ih =>
    unfold freerangeLoop
    split
    · apply (kfree_outside p s).bind
      intro _ s₁ hsame
      exact (ih _ s₁).imp fun _ _ h => hsame.trans h
    · rw [Runs.pure_iff]
      exact SameOn.refl

theorem freerange_outside (pa_start pa_end : Nat) (s : Mm) :
    Runs (fun _ => True) (freerange lk pa_start pa_end) s
    fun _ s' => SameOn PGSIZE (fun a => ¬ IsFrame lk a) s.mem s'.mem := by
  unfold freerange
  exact freerangeLoop_outside ..

theorem freerange_all {pa_end : Nat} (hr : InMemory lk lk.ekernel pa_end) (mem : Bytes) :
    Runs E (freerange lk lk.ekernel pa_end) ⟨mem, 0⟩ fun _ s' => ∃ l, FreeList lk s' l ∧
      (pa_end - PGROUNDUP lk.ekernel) / PGSIZE ≤ l.length ∧ SameOn PGSIZE
      (fun a => ¬ IsFrame lk a) mem s'.mem := by
  apply ((freerange_runs hr mem).and (freerange_outside ..)).mono (fun _ he => he.1)
  rintro _ s' ⟨⟨l, h⟩, hsame⟩
  exact ⟨l, h.list, h.length_ge hr, hsame⟩

theorem kinit_runs (hlk : lk.ekernel ≤ PHYSTOP) (s : Mm) :
    Runs E (kinit lk) s fun _ s' => ∃ l, FreeList lk s' l ∧
    (PHYSTOP - PGROUNDUP lk.ekernel) / PGSIZE ≤ l.length ∧ SameOn PGSIZE
    (fun a => ¬ IsFrame lk a) s.mem s'.mem := by
  have hr : InMemory lk lk.ekernel PHYSTOP := ⟨Nat.le_refl _, hlk, Nat.le_refl _⟩
  unfold kinit
  -- Without a name for the end, the unifier unrolls the loop.
  generalize PHYSTOP = pa_end at hr ⊢
  rw [Runs.bind_iff, Runs.modify_iff]
  exact freerange_all hr s.mem

/-! ## proc.c -/

/-- Slot `i` after `procinit`. -/
def initProc (ustack : Nat) (l : List Nat) (i : Nat) (p : proc) : proc :=
  { p with state := .UNUSED, ustack := ustack + i * PGSIZE, trapframe := l.getD i 0, pid := 0 }

theorem procinit_runs (ustack : Nat) (h : FreeList lk k.mm l) (hlen : NPROC ≤ l.length) :
    Runs E (procinit ustack) k fun _ k' => FreeList lk k'.mm (l.drop NPROC) ∧
    SameOn PGSIZE (· ∉ l) k.mm.mem k'.mm.mem ∧
      k' = { k with
        mm := k'.mm
        pool := fun i => if i < NPROC then initProc ustack l i (k.pool i) else k.pool i } := by
  have hloop := @Runs.forUp Kernel E k (fun i => do
      let trapframe ← onMm kalloc
      let p ← getProc i
      setProc i { p with state := .UNUSED, ustack := ustack + i * PGSIZE, trapframe, pid := 0 })
        (fun n k' => FreeList lk k'.mm (l.drop n) ∧ SameOn PGSIZE (· ∉ l) k.mm.mem k'.mm.mem ∧
      k' = { k with
        mm := k'.mm
        pool := fun i => if i < n then initProc ustack l i (k.pool i) else k.pool i }) 0 NPROC ?_ ?_
  · rwa [Nat.zero_add] at hloop
  · rintro i k₁ _ hi ⟨hfree, hsame, hk₁⟩
    have hlt : i < l.length := by omega
    rw [Runs.bind_iff, runs_onMm]
    apply (kalloc_runs hfree).imp
    rintro r s₁ (⟨hnil, _⟩ | ⟨l', hl, hfree', hsame'⟩)
    · rw [List.drop_eq_nil_iff] at hnil
      omega
    rw [List.drop_eq_getElem_cons hlt, List.cons.injEq] at hl
    obtain ⟨rfl, rfl⟩ := hl
    rw [Runs.bind_iff, runs_getProc, runs_setProc]
    refine ⟨hfree', hsame.trans (hsame'.mono fun a ha => ?_), ?_⟩
    · rintro rfl
      exact ha (List.getElem_mem hlt)
    · rw [hk₁]
      dsimp only
      congr 1
      funext j
      by_cases hj : j = i
      · subst hj
        rw [Function.update_self, if_neg (by omega), if_pos (by omega)]
        unfold initProc
        simp [hlt]
      · rw [Function.update_of_ne hj]
        by_cases hlt' : j < i
        · rw [if_pos hlt', if_pos (by omega)]
        · rw [if_neg hlt', if_neg (by omega)]
  · exact ⟨h, SameOn.refl, rfl⟩

/-- With no process, the pages of the saved registers and those of `P` are the only
ones in use. -/
theorem PagesOk.init (hfree : FreeList lk k.mm l)
    (hunused : ∀ i < NPROC, (k.pool i).state = .UNUSED ∧ (k.pool i).pagetable = 0)
    (htf : ∀ i < NPROC, IsFrame lk (k.pool i).trapframe ∧ (k.pool i).trapframe ∉ l ∧
    ¬ P (k.pool i).trapframe) (hregs : ∀ i < NPROC, ∀ j < NPROC, (k.pool i).trapframe =
      (k.pool j).trapframe → i = j)
    (hP : ∀ a, P a → IsFrame lk a ∧ a ∉ l) : PagesOk lk k P l := by
  have hroot : ∀ r, ¬ Root k r := by
    rintro r ⟨i, hi, rfl, hne⟩
    exact hne (hunused i hi).2
  refine ⟨⟨hfree, fun r hr => absurd hr (hroot r), fun r _ _ hr => absurd hr (hroot r), ?_⟩,
    fun i hi => ?_,
    fun i hi _ _ hne => absurd (hunused i hi).2 hne, fun i hi => (htf i hi).1, hregs,
    fun i hi => (htf i hi).2.2, fun i hi hne => absurd (hunused i hi).2 hne⟩
  · rintro a (ha | ⟨i, hi, _, rfl⟩)
    · exact ⟨(hP a ha).1, (hP a ha).2, fun r hr => absurd hr (hroot r)⟩
    · exact ⟨(htf i hi).1, (htf i hi).2.1, fun r hr => absurd hr (hroot r)⟩
  · exact ⟨fun _ => Or.inl (hunused i hi).1, fun _ => (hunused i hi).2⟩

/-- The fields of the process that count. -/
theorem Launched.congr {mem : Bytes} {i : Nat} (h : Launched lk app mem k i) (hmm : k'.mm = k.mm)
    (hsz : (k'.pool i).sz = (k.pool i).sz) (hroot : (k'.pool i).pagetable = (k.pool i).pagetable)
    (htf : (k'.pool i).trapframe = (k.pool i).trapframe) :
    Launched lk app mem k' i := by
  refine ⟨hsz.trans h.size, ?_, fun hin => ?_, fun o ho => ?_⟩
  · rw [hmm, hroot, htf]
    exact h.loaded
  · rw [hmm, hroot]
    exact h.image hin
  · rw [hmm, htf]
    exact h.registers o ho

/-- The first process: the next number, no parent, ready to run. -/
def firstProc (k : Kernel) (np root : Nat) (app : App) : proc :=
  { loadedProc (newProc k np root) app with state := .RUNNABLE }

theorem run_all_app_runs (h : PagesOk lk k P l) (hslot : freeSlot k.pool = some np)
    (hid : get_id_by_name lk ch5_usershell = some id) (happ : lk.apps[id]? = some app)
    (hlen : loadPagesNeeded app ≤ l.length) :
    Runs E (run_all_app lk) k (fun _ k' => ∃ root l', root ≠ 0 ∧ PagesOk lk k' P l' ∧
      Launched lk app k.mm.mem k' np ∧ SameOn PGSIZE P k.mm.mem k'.mm.mem ∧
      k' = { k with
        mm := k'.mm
        PID := k.PID + 1
        pool := Function.update k.pool np (firstProc k np root app) }) := by
  have hnp := freeSlot_lt hslot
  have hfree : (k.pool np).pagetable = 0 := (h.rooted np hnp).mpr (Or.inl (freeSlot_some hslot))
  have hkept : Reserved k P (k.pool np).trapframe := Or.inr ⟨np, hnp, hfree, rfl⟩
  have hthree : 3 ≤ loadPagesNeeded app := Nat.le_add_right ..
  unfold run_all_app
  have hstop : ∀ e : Stop, l.length < 3 ∧ True → E e := fun _ hfew => absurd hfew.1 (by omega)
  apply (((allocproc_runs h.spaces hslot hkept).and allocproc_regs).mono hstop fun _ _ hr =>
    hr).bind
  rintro _ _ ⟨⟨rfl, root, s₁, l₁, hroot, h₁, rfl⟩, hzero⟩
  have hregs : ∀ o < TRAPFRAME_REGS, s₁.mem ((k.pool np).trapframe + o) = 0 :=
    fun o ho => hzero np rfl o (Nat.lt_trans ho (by decide))
  have hq : ({ newProc k np root with parent := none } : proc) = newProc k np root := rfl
  dsimp only [deref]
  rw [Runs.bind_iff, Runs.pure_iff, Runs.bind_iff, runs_getProc, Runs.bind_iff, runs_setProc]
  dsimp only
  rw [Function.update_self, Function.update_idem, hq, hid]
  dsimp only
  have hused : (newProc k np root).state = .USED := rfl
  have hlive : ¬ Dead (newProc k np root) :=
    not_dead (by rw [hused]; decide) (by rw [hused]; decide)
  rw [Runs.bind_iff]
  apply (h.loads (q := newProc k np root) hnp hfree hroot h₁ hregs rfl rfl hlive rfl).mono
  · rintro e (hnone | ⟨app', happ', hfew⟩)
    · rw [happ] at hnone
      cases hnone
    · obtain rfl := Option.some.inj (happ.symm.trans happ')
      omega
  rintro _ k₃ ⟨app', happ', hbegins, htakes, hkeep, hk₃⟩
  obtain rfl := Option.some.inj (happ.symm.trans happ')
  obtain ⟨l', hpages⟩ := htakes.pages
  have hself : k₃.pool np = loadedProc (newProc k np root) app := by
    rw [hk₃]
    exact Function.update_self ..
  rw [Runs.bind_iff, runs_getProc, Runs.bind_iff, runs_setProc, Runs.pure_iff, hself]
  have hfields : ∀ {β : Type} (g : proc → β), (∀ p : proc, g { p with state := .RUNNABLE } = g p) →
      ∀ i, g (Function.update k₃.pool np (firstProc k np root app) i) = g (k₃.pool i) := by
    intro β g hg i
    by_cases hi : i = np
    · rw [hi, Function.update_self, hself]
      exact hg _
    · rw [Function.update_of_ne hi]
  refine ⟨root, l', hroot, ?_, ?_, hkeep, ?_⟩
  · refine hpages.same rfl (fun _ ha => ha) (hfields proc.pagetable fun _ => rfl)
      (hfields proc.sz fun _ => rfl) (hfields proc.trapframe fun _ => rfl) fun i => ?_
    by_cases hi : i = np
    · subst hi
      refine iff_of_false ?_ htakes.live
      dsimp only
      rw [Function.update_self]
      exact not_dead_runnable
    · dsimp only
      rw [Function.update_of_ne hi]
  · exact hbegins.congr rfl (hfields proc.sz (fun _ => rfl) np)
      (hfields proc.pagetable (fun _ => rfl) np) (hfields proc.trapframe (fun _ => rfl) np)
  · dsimp only
    rw [hk₃]
    dsimp only
    rw [Function.update_idem]
    rfl

/-! ## fs.c -/

/-- On a disk with the magic number, `fsinit` returns. -/
theorem fsinit_returns_of_magic {disk : Nat → Bytes} (hmagic : (disk 1).get32 0 = FSMAGIC) {s : Fs}
    (hs : s.bio = binit disk) :
    Runs E fsinit s fun _ s' => fsinit s = .ok ((), s') := by
  obtain ⟨h1, h2, h3⟩ := binit_spec disk
  have hroom : Room (binit disk) := ⟨0, by decide, (h3 0).1⟩
  have hclean : Clean (binit disk) 1 := fun i hi hv => by
    rw [(h3 i).2] at hv
    cases hv
  have hruns : Runs E fsinit s fun _ _ => True := by
    unfold fsinit readsb
    simp only [Runs.bind_iff]
    refine (onBread (hs ▸ h1) (hs ▸ hroom) 1).imp ?_
    rintro bp _ ⟨t, rfl, hh, hd, hdata⟩
    have hdata := hdata (hs ▸ hclean)
    rw [hs, h2] at hdata
    simp only [runs_bpData, Runs.modify_iff, runs_brelse, Runs.get_iff]
    rw [hdata, hmagic, if_neg (fun hc => hc rfl), Runs.pure_iff]
    trivial
  exact hruns.with_run.imp fun _ _ h => h.2

/-! ## The only process -/

/-- The slots, the files and the pipes before the first process. -/
structure NoProcs (k : Kernel) : Prop where
  unused : ∀ i, (k.pool i).state = .UNUSED ∧ (k.pool i).pid = 0 ∧ (k.pool i).pagetable = 0
  parent : ∀ i, (k.pool i).parent = none
  boxes : ∀ i, (k.pool i).mailbox = .zero
  noFiles : NoFiles k
  types : ∀ f, (k.filepool f).type = .FD_NONE
  pipes : ∀ pi, (k.pipes pi).nread = 0 ∧ (k.pipes pi).nwrite = 0
  idle : k.current_proc = Scheduler.idle
  next : k.PID = 1

theorem freeSlot_zero (h : (k.pool 0).state = .UNUSED) : freeSlot k.pool = some 0 := by
  unfold freeSlot
  rw [show NPROC = 255 + 1 from rfl, List.range_succ_eq_map, List.find?_cons_of_pos]
  rw [h]
  rfl

/-- The kernel with the first process, in slot 0. -/
def Kernel.withFirst (k : Kernel) (mm : Mm) (root : Nat) (app : App) : Kernel :=
  { k with mm := mm, PID := k.PID + 1, pool := Function.update k.pool 0 (firstProc k 0 root app) }

namespace NoProcs

variable {mm : Mm} {root : Nat}

theorem init (mem : Bytes) (disk : Nat → Bytes) (ustack : Nat) (l : List Nat) (mm : Mm) (fs : Fs) :
    NoProcs { bss mem disk with
      mm := mm
      fs := fs
      pool := fun i => if i < NPROC then initProc ustack l i ((bss mem disk).pool i) else
        (bss mem disk).pool i } := by
  have hpool : ∀ {P : proc → Prop} i, P (initProc ustack l i ((bss mem disk).pool i)) →
      P ((bss mem disk).pool i) →
      P (if i < NPROC then initProc ustack l i ((bss mem disk).pool i) else
        (bss mem disk).pool i) := by
    intro P i hinit hbss
    split
    · exact hinit
    · exact hbss
  refine ⟨fun i => hpool (P := fun p => p.state = .UNUSED ∧ p.pid = 0 ∧ p.pagetable = 0) i ⟨rfl,
    rfl, rfl⟩ ⟨rfl, rfl, rfl⟩,
    fun i => hpool (P := fun p => p.parent = none) i rfl rfl,
    fun i => hpool (P := fun p => p.mailbox = .zero) i rfl rfl,
    ⟨fun _ => rfl, fun i fd => hpool (P := fun p => p.files fd = none) i rfl rfl⟩, fun _ => rfl,
    fun _ => ⟨rfl, rfl⟩, rfl, rfl⟩

/-- The registers have the first pages, and the table of the kernel the next ones. -/
theorem pagesOk {s₁ s₂ : Mm} {l₃ : List Nat} {kpgtbl m : Nat} {f : Nat → Nat} (h : NoProcs k)
    (hfree : FreeList lk s₁ l) (hlen : NPROC ≤ l.length)
    (htf : ∀ i < NPROC, (k.pool i).trapframe = l.getD i 0)
    (hfill : Filling lk s₂ (l.drop NPROC) kpgtbl f m k.mm l₃) :
    PagesOk lk k (TableOf k.mm.mem kpgtbl) l₃ := by
  have hat : ∀ i, (hi : i < NPROC) → (k.pool i).trapframe = l[i] := by
    intro i hi
    have hlt := hi.trans_le hlen
    rw [htf i hi]
    simp [hlt]
  have hlater : ∀ i < NPROC, (k.pool i).trapframe ∉ l.drop NPROC := by
    intro i hi hc
    have hdis := List.disjoint_take_drop hfree.nodup (Nat.le_refl NPROC)
    refine hdis ?_ hc
    rw [hat i hi, List.mem_take_iff_getElem]
    exact ⟨i, by omega, rfl⟩
  refine PagesOk.init hfill.space.free (fun i _ => ⟨(h.unused i).1, (h.unused i).2.2⟩) (fun i hi =>
    ⟨?_, fun hc => ?_, fun hc => ?_⟩)
    (fun i hi j hj heq => ?_) fun a ha => ⟨?_, fun hc => hfill.space.apart a hc ha⟩
  · rw [hat i hi]
    exact hfree.frames _ (List.getElem_mem _)
  · exact hlater i hi ((hfill.pages _).mp (Or.inr hc))
  · exact hlater i hi ((hfill.pages _).mp (Or.inl hc))
  · rw [hat i hi, hat j hj] at heq
    exact (hfree.nodup.getElem_inj_iff).mp heq
  · exact hfree.frames _ (List.mem_of_mem_drop ((hfill.pages a).mp (Or.inl ha)))

/-! ### With the first process -/

theorem first : (k.withFirst mm root app).pool 0 = firstProc k 0 root app := by
  unfold Kernel.withFirst
  dsimp only
  rw [Function.update_self]

theorem first_parent : ((k.withFirst mm root app).pool 0).parent = none := by
  rw [first]
  rfl

theorem other {i : Nat} (hi : i ≠ 0) : (k.withFirst mm root app).pool i = k.pool i :=
  Function.update_of_ne hi _ _

/-- The first process is ready, and has the first number. -/
theorem first_ready (h : NoProcs k) : ((k.withFirst mm root app).pool 0).state = .RUNNABLE ∧
    1 ≤ ((k.withFirst mm root app).pool 0).pid ∧ ((k.withFirst mm root app).pool 0).pid <
    (k.withFirst mm root app).PID := by
  have hpid : ((k.withFirst mm root app).pool 0).pid = k.PID := by
    rw [first]
    rfl
  rw [hpid, h.next, first]
  exact ⟨rfl, Nat.le_refl 1, h.next ▸ Nat.lt_succ_self k.PID⟩

theorem first_noFiles (h : NoProcs k) : NoFiles (k.withFirst mm root app) := by
  refine ⟨h.noFiles.free, fun i fd => ?_⟩
  by_cases hi : i = 0
  · rw [hi, first]
    exact h.noFiles.fds 0 fd
  · rw [other hi]
    exact h.noFiles.fds i fd

theorem sched (h : NoProcs k) : Scheduler.Boot ⟨k.withFirst mm root app, none, 0, true⟩ := by
  obtain ⟨hstate, hpos, hlt⟩ := @first_ready k app mm root h
  refine ⟨⟨rfl, h.idle, rfl⟩, 0, by decide, hstate, hpos, hlt, fun j hj => ?_⟩
  dsimp only
  rw [other hj]
  exact ⟨(h.unused j).1, (h.unused j).2.1, (h.unused j).2.2, fun fd _ => h.noFiles.fds j fd⟩

theorem life (h : NoProcs k) : LifeBoot (k.withFirst mm root app) := by
  obtain ⟨hstate, hpos, hlt⟩ := @first_ready k app mm root h
  refine ⟨⟨0, by decide, not_dead_runnable hstate, hpos, hlt, fun j hj => ?_⟩, fun i => ?_,
    fun i => ?_⟩
  · rw [other hj]
    exact ⟨(h.unused j).1, (h.unused j).2.1⟩
  · by_cases hi : i = 0
    · rw [hi, first]
      rfl
    · rw [other hi, h.parent i]
  · have hbox : ((k.withFirst mm root app).pool i).mailbox = .zero := by
      by_cases hi : i = 0
      · rw [hi, first]
        exact h.boxes 0
      · rw [other hi, h.boxes i]
    rw [hbox]
    exact ⟨by decide, rfl⟩

theorem ends (h : NoProcs k) (hpages : PagesOk lk (k.withFirst mm root app) P l) :
    EndStart lk ⟨k.withFirst mm root app, fun _ => none, []⟩ := by
  obtain ⟨hcounted, hcleared⟩ := (@first_noFiles k app mm root h).counted
  refine ⟨⟨l, ?_⟩, fun f => ?_, fun f => ?_, hcleared, fun _ => rfl, rfl⟩
  · exact hpages.same rfl (fun _ hc => hc.elim) (fun _ => rfl) (fun _ => rfl) (fun _ => rfl)
      fun _ => Iff.rfl
  · have htype : ((k.withFirst mm root app).filepool f).type = .FD_NONE := h.types f
    dsimp only
    rw [htype]
    decide
  · unfold surplus
    dsimp only
    rw [hcounted f, sub_self]

end NoProcs

/-! ## main.c -/

/-- With the shell among the applications, the magic number on the disk and pages for
the registers of all slots, the table of the kernel and the shell, `main` gets to the
scheduler, and leaves the state that all laws about runs start from. The shell is found
in the table of names as it is among the applications. -/
theorem main_gets_to_the_scheduler {disk : Nat → Bytes} (ht : TextEnd lk e_text)
    (hmagic : (disk 1).get32 0 = FSMAGIC) (hid : get_id_by_name lk ch5_usershell = some id)
    (happ : lk.apps[id]? = some app)
    (hlen : NPROC + kvmTables + loadPagesNeeded app ≤ (PHYSTOP - PGROUNDUP lk.ekernel) / PGSIZE)
    (mem : Bytes) (ustack : Nat) :
    ∃ kpgtbl k', main lk e_text ustack (bss mem disk) = .ok (kpgtbl, k') ∧
    Ready lk e_text kpgtbl app mem disk k' ∧
      (AppTable.Fits lk → AppTable.Agrees lk) := by
  apply Runs.returns
  unfold main
  rw [Runs.bind_iff, runs_onMm]
  apply (kinit_runs ht.memory.le _).imp
  rintro _ s₁ ⟨l, hfree₁, hcount, hsame₁⟩
  have hmany : NPROC + kvmTables + loadPagesNeeded app ≤ l.length := hlen.trans hcount
  apply (procinit_runs ustack hfree₁ (by omega)).bind
  rintro _ k₂ ⟨hfree₂, hsame₂, hk₂⟩
  have hdrop : (l.drop NPROC).length = l.length - NPROC := List.length_drop
  rw [Runs.bind_iff, runs_onMm]
  apply (kvmmake_runs ht hfree₂ (by omega)).imp
  rintro kpgtbl s₃ ⟨_, l₃, h₃⟩
  have hcount₃ := h₃.count
  have hfs : k₂.fs = startFs disk := by
    rw [hk₂]
    rfl
  have hbio : k₂.fs.bio = binit disk := by
    rw [hfs]
    rfl
  rw [Runs.bind_iff, runs_onFs]
  apply (fsinit_returns_of_magic hmagic hbio).imp
  rintro _ fs hinit
  rw [hfs] at hinit
  have hempty : NoProcs { k₂ with mm := s₃, fs := fs } := by
    rw [hk₂]
    exact .init mem disk ustack l s₃ fs
  have htf : ∀ i < NPROC, (k₂.pool i).trapframe = l.getD i 0 := by
    intro i hi
    rw [hk₂]
    dsimp only
    rw [if_pos hi]
    rfl
  have hpages := hempty.pagesOk hfree₁ (by omega) htf h₃
  rw [Runs.bind_iff]
  apply (run_all_app_runs hpages (freeSlot_zero (hempty.unused 0).1) hid happ (by omega)).imp
  rintro _ k' ⟨root, l', _, hpages', hlaunched, hkeep, hk'⟩
  rw [Runs.pure_iff]
  obtain ⟨mm, rfl⟩ : ∃ mm, k' = Kernel.withFirst { k₂ with mm := s₃, fs := fs } mm root app :=
    ⟨_, hk'⟩
  have hpid : ((Kernel.withFirst { k₂ with mm := s₃, fs := fs } mm root app).pool 0).pid =
      k₂.PID := by
    rw [NoProcs.first]
    rfl
  refine ⟨⟨?_, hpid.trans hempty.next, hempty.first_ready.1, NoProcs.first_parent, hempty.sched,
    hempty.life, hempty.ends hpages',
    ⟨⟨hinit, hempty.types⟩, hempty.first_noFiles.free, hempty.first_noFiles.fds⟩,
    ⟨fun _ => rfl, hempty.pipes, fun _ => rfl, fun _ => rfl⟩, fun va hva => ?_⟩,
    AppTable.Fits.agrees⟩
  · -- The image of the shell is outside of the pages that were handed out.
    have houtside : SameOn PGSIZE (fun a => ¬ IsFrame lk a) mem s₃.mem := by
      refine (hsame₁.trans (hsame₂.mono fun a ha hc => ha (hfree₁.frames a hc))).trans
        (h₃.same.mono fun a ha hc => ?_)
      exact ha (hfree₁.frames a (List.mem_of_mem_drop hc))
    exact ⟨hlaunched.size, hlaunched.loaded, fun hin => (hlaunched.image hin).congr hin houtside,
      hlaunched.registers⟩
  · have hptes := (@sameTables_frame s₃ mm kpgtbl _ h₃.space.table.page hkeep fun _ ha => ha).2
    rw [Kernel.withFirst, translate_congr (hptes _ (vpn_lt hva))]
    exact h₃.kernelMap ht hva

/-! ## A machine -/

section Shell

theorem shellApp_le : KERNBASE + 0x2000 ≤ KERNBASE + 0x3000 := by decide

theorem shellApp_below : KERNBASE + 0x3000 ≤ PHYSTOP := by decide

/-- The shell of one page, inside a kernel of five. -/
def shellApp : App := ⟨ch5_usershell, KERNBASE + 0x2000, KERNBASE + 0x3000, shellApp_le,
    shellApp_below⟩

theorem shellLink_inside : KERNBASE < KERNBASE + 0x5000 := by decide

def shellLink : Link :=
  ⟨KERNBASE + 0x5000, KERNBASE, [shellApp], kernbase_aligned, shellLink_inside⟩

theorem main_gets_to_the_scheduler_with_a_shell : ∃ kpgtbl k',
    main shellLink (KERNBASE + 0x1000) (KERNBASE + 0x4000) (bss (fun _ => 0) oneFileDisk) =
    .ok (kpgtbl, k') ∧
      Ready shellLink (KERNBASE + 0x1000) kpgtbl shellApp (fun _ => 0) oneFileDisk k' ∧
      AppTable.Agrees shellLink := by
  have ht : TextEnd shellLink (KERNBASE + 0x1000) :=
    ⟨by decide, by decide, by decide, by decide, by decide⟩
  have hmagic : (oneFileDisk 1).get32 0 = FSMAGIC := by decide
  have hid : get_id_by_name shellLink ch5_usershell = some 0 := by decide
  have hlen : NPROC + kvmTables + loadPagesNeeded shellApp ≤ (PHYSTOP - PGROUNDUP shellLink.ekernel)
      / PGSIZE := by decide
  have hfits : AppTable.Fits shellLink := ⟨by decide, by decide⟩
  obtain ⟨kpgtbl, k', hrun, hready, hagrees⟩ :=
    main_gets_to_the_scheduler ht hmagic hid rfl hlen (fun _ => 0) (KERNBASE + 0x4000)
  exact ⟨kpgtbl, k', hrun, hready, hagrees hfits⟩

end Shell

end ThuKernel
