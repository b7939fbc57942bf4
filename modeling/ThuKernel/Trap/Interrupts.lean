-- Interrupts of user programs: through uservec, a switch to the scheduler and to
-- any other processes, and back through userret with the same registers.
import ThuKernel.Trap.Code
import ThuKernel.Kernel.State
import Mathlib.Logic.Relation

namespace ThuKernel.Trap

/-! ## The kernel around the code -/

/-- The memory that the switches use: the page of the trap frame of each slot of
`pool`, `p->context` of each, and `idle.context`. -/
inductive Area where
  | frame (p : Fin NPROC)
  | context (p : Fin NPROC)
  | idle
  deriving DecidableEq

def Area.size : Area → Nat
  | .frame _ => PGSIZE
  | .context _ | .idle => 112

/-- Where the areas are. No two of them meet. -/
structure Layout where
  base : Area → Nat
  kernel_pagetable : Word
  apart : ∀ A B off off', off < A.size → off' < B.size → base A + off = base B + off' → A = B

/-- Where a process is: in its program, in the kernel after a trap, switched out
in `sched`, or back from there. `timer` says that the trap was the timer's. -/
inductive Stage where
  | none
  | user
  | kernel (timer : Bool)
  | away (timer : Bool)
  | back (timer : Bool)
  deriving DecidableEq

/-- The machine, the page tables with the `satp` of each process, the process on
the processor, and where each process is. -/
structure System where
  m : Hart
  tr : Translation
  satp : Fin NPROC → Word
  current_proc : Option (Fin NPROC)
  stage : Fin NPROC → Stage

def TRAPFRAME_VA : Word := BitVec.ofNat 64 TRAPFRAME

/-- `usertrapret`, with what its calls leave in the registers. It passes on
`TRAPFRAME` and the page table of the process. -/
def usertrapret (frame : Nat) (kstack usertrap satp : Word) (regs : Reg → Word) (m : Hart) : Hart :=
  let mem := Function.update m.mem (frame + KERNEL_SATP) (m.csr .satp)
  let mem := Function.update mem (frame + KERNEL_SP) (kstack + BitVec.ofNat 64 PGSIZE)
  let mem := Function.update mem (frame + KERNEL_TRAP) usertrap
  let mem := Function.update mem (frame + KERNEL_HARTID) (m.regs .tp)
  { regs := Function.update (Function.update regs .a0 TRAPFRAME_VA) .a1 satp
    csr := Function.update m.csr .sepc (mem (frame + EPC))
    pc := m.pc
    mem }

section usertrapret

variable (frame : Nat) (kstack usertrap satp : Word) (regs : Reg → Word) (m : Hart)

theorem usertrapret_a0 : (usertrapret frame kstack usertrap satp regs m).regs .a0 =
    TRAPFRAME_VA := by
  unfold usertrapret
  dsimp only
  rw [Function.update_of_ne (by decide), Function.update_self]

theorem usertrapret_a1 : (usertrapret frame kstack usertrap satp regs m).regs .a1 = satp := by
  unfold usertrapret
  dsimp only
  rw [Function.update_self]

/-- Only the four words of the kernel are written. -/
theorem usertrapret_mem {a : Nat} (h : a < frame ∨ frame + 40 ≤ a ∨ a = frame + EPC) :
    (usertrapret frame kstack usertrap satp regs m).mem a = m.mem a := by
  unfold usertrapret
  unfold EPC at h
  unfold KERNEL_SATP KERNEL_SP KERNEL_TRAP KERNEL_HARTID
  dsimp only
  rw [Function.update_of_ne (by omega), Function.update_of_ne (by omega),
    Function.update_of_ne (by omega), Function.update_of_ne (by omega)]

theorem usertrapret_satp :
    (usertrapret frame kstack usertrap satp regs m).mem (frame + KERNEL_SATP) = m.csr .satp := by
  unfold usertrapret
  unfold KERNEL_SATP KERNEL_SP KERNEL_TRAP KERNEL_HARTID
  dsimp only
  rw [Function.update_of_ne (by omega), Function.update_of_ne (by omega),
    Function.update_of_ne (by omega), Function.update_self]

theorem usertrapret_sepc : (usertrapret frame kstack usertrap satp regs m).csr .sepc =
    m.mem (frame + EPC) := by
  rw [← usertrapret_mem frame kstack usertrap satp regs m (Or.inr (Or.inr rfl))]
  unfold usertrapret
  dsimp only
  rw [Function.update_self]

end usertrapret

variable (L : Layout)

/-- The memory of an area stays the same. -/
def Keeps (A : Area) (m m' : Hart) : Prop :=
  ∀ off < A.size, m'.mem (L.base A + off) = m.mem (L.base A + off)

/-- The page table of each process has its trap frame at `TRAPFRAME`, and that of
the kernel has every context at its own address. -/
structure Mapped (s : System) : Prop where
  frame : ∀ p, s.stage p ≠ .none → FrameAt s.tr (s.satp p) TRAPFRAME_VA (L.base (.frame p))
  context : ∀ p, ∀ off < 112, s.tr L.kernel_pagetable (BitVec.ofNat 64 (L.base (.context p)) +
    BitVec.ofNat 64 off) =
    some (L.base (.context p) + off)
  idle : ∀ off < 112, s.tr L.kernel_pagetable (BitVec.ofNat 64 (L.base .idle) +
    BitVec.ofNat 64 off) =
    some (L.base .idle + off)

/-! ## Steps -/

/-- The program runs: it changes its registers and its own memory. -/
def Computes (p : Fin NPROC) (s s' : System) : Prop :=
  s.current_proc = some p ∧ s.stage p = .user ∧
  ∃ m', m'.csr = s.m.csr ∧ (∀ A, Keeps L A s.m m') ∧ s' = { s with m := m' }

/-- A trap from the program: the processor puts the place into `sepc`, and goes
on at `uservec`. -/
def Traps (p : Fin NPROC) (timer : Bool) (s s' : System) : Prop :=
  s.current_proc = some p ∧ s.stage p = .user ∧
  ∃ m', execAll s.tr uservec { s.m with csr := Function.update s.m.csr .sepc s.m.pc } = some m' ∧
    s' = { s with m := m', stage := Function.update s.stage p (.kernel timer) }

/-- Code of the kernel in a process: it leaves the frames and contexts of the
others alone, and makes new processes. After an interrupt of the timer it has no
business with its own frame either. -/
def Works (p : Fin NPROC) (timer : Bool) (s s' : System) : Prop :=
  s.current_proc = some p ∧ (s.stage p = .kernel timer ∨ s.stage p = .back timer) ∧
  s'.current_proc = some p ∧ s'.m.csr .satp = s.m.csr .satp ∧ Mapped L s' ∧
  (∀ q, s'.stage q = s.stage q ∨ (s.stage q = .none ∧ s'.stage q = .away false)) ∧
  (∀ q ≠ p, s.stage q ≠ .none → Keeps L (.frame q) s.m s'.m ∧ Keeps L (.context q) s.m s'.m) ∧
  (timer = true → Keeps L (.frame p) s.m s'.m)

/-- `sched`: the switch to the scheduler. A process that has exited does not come
back. -/
def Leaves (p : Fin NPROC) (timer exits : Bool) (s s' : System) : Prop :=
  s.current_proc = some p ∧ (s.stage p = .kernel timer ∨ s.stage p = .back timer) ∧
    (exits = true → timer = false) ∧
  s.m.regs .a0 = BitVec.ofNat 64 (L.base (.context p)) ∧
  s.m.regs .a1 = BitVec.ofNat 64 (L.base .idle) ∧
  ∃ m', execAll s.tr swtch s.m = some m' ∧ s' = { s with
    m := m'
    current_proc := none
    stage := Function.update s.stage p (if exits then .none else .away timer) }

/-- Code of the scheduler. -/
def Schedules (s s' : System) : Prop :=
  s.current_proc = none ∧
  ∃ m', m'.csr .satp = s.m.csr .satp ∧ (∀ A, Keeps L A s.m m') ∧ s' = { s with m := m' }

/-- `scheduler`: the switch to a process. -/
def Enters (p : Fin NPROC) (timer : Bool) (s s' : System) : Prop :=
  s.current_proc = none ∧ s.stage p = .away timer ∧
  s.m.regs .a0 = BitVec.ofNat 64 (L.base .idle) ∧
  s.m.regs .a1 = BitVec.ofNat 64 (L.base (.context p)) ∧
  ∃ m', execAll s.tr swtch s.m = some m' ∧ s' = { s with
    m := m'
    current_proc := some p
    stage := Function.update s.stage p (.back timer) }

/-- `usertrapret` and `userret`: back to the program. -/
def Returns (p : Fin NPROC) (s s' : System) : Prop :=
  s.current_proc = some p ∧ (∃ timer, s.stage p = .kernel timer ∨ s.stage p = .back timer) ∧
  ∃ kstack usertrap regs m', execAll s.tr userret
      (usertrapret (L.base (.frame p)) kstack usertrap (s.satp p) regs s.m) = some m' ∧
    s' = { s with m := m', stage := Function.update s.stage p .user }

inductive Step : System → System → Prop
  | computes {s s' : System} (p : Fin NPROC) (h : Computes L p s s') : Step s s'
  | traps {s s' : System} (p : Fin NPROC) (timer : Bool) (h : Traps p timer s s') : Step s s'
  | works {s s' : System} (p : Fin NPROC) (timer : Bool) (h : Works L p timer s s') : Step s s'
  | leaves {s s' : System} (p : Fin NPROC) (timer exits : Bool) (h : Leaves L p timer exits s s') :
      Step s s'
  | schedules {s s' : System} (h : Schedules L s s') : Step s s'
  | enters {s s' : System} (p : Fin NPROC) (timer : Bool) (h : Enters L p timer s s') : Step s s'
  | returns {s s' : System} (p : Fin NPROC) (h : Returns L p s s') : Step s s'

/-- Before the first process runs. -/
structure Boot (s : System) : Prop where
  mapped : Mapped L s
  stage : ∀ p, s.stage p = .none ∨ s.stage p = .away false
  current : s.current_proc = none
  satp : s.m.csr .satp = L.kernel_pagetable

/-! ## What holds in every state -/

/-- The process in its program is the one on the processor, under its own page
table, and the way into the kernel is prepared. Otherwise the kernel has its own
page table. -/
structure Good (s : System) : Prop where
  mapped : Mapped L s
  user : ∀ p, s.stage p = .user → s.current_proc = some p ∧ s.m.csr .satp = s.satp p ∧
    s.m.csr .sscratch = TRAPFRAME_VA ∧ s.m.mem (L.base (.frame p) + KERNEL_SATP) =
    L.kernel_pagetable
  kernel : (∀ p, s.stage p ≠ .user) → s.m.csr .satp = L.kernel_pagetable

variable {L} {s s' s₀ s₁ s₂ s₃ : System} {p q : Fin NPROC} {timer exits : Bool} {m m' : Hart}
  {A B : Area} {regs : Reg → Word} {pc : Word}

theorem Boot.good (h : Boot L s) : Good L s := by
  refine ⟨h.mapped, fun p hp => ?_, fun _ => h.satp⟩
  rcases h.stage p with hc | hc
  · rw [hc] at hp
    cases hp
  · rw [hc] at hp
    cases hp

/-! ## Which memory a step leaves alone -/

/-- What is written inside one area leaves the others. -/
theorem Keeps.of_outside {lo n : Nat} (hn : lo + n ≤ A.size)
    (h : ∀ a, a < L.base A + lo ∨ L.base A + (lo + n) ≤ a → m'.mem a = m.mem a)
    (hne : B ≠ A) : Keeps L B m m' := by
  intro off hoff
  apply h
  by_contra hc
  obtain ⟨x, hx⟩ : ∃ x, L.base B + off = L.base A + x := ⟨L.base B + off - L.base A, by omega⟩
  exact hne (L.apart B A off x hoff (by omega) hx)

theorem Saved.keep (h : Saved m regs pc (L.base (.frame p))) (hk : Keeps L (.frame p) m m') :
    Saved m' regs pc (L.base (.frame p)) := by
  have hoff : ∀ x ∈ trapframeRegs, x.2 < PGSIZE := by decide
  refine ⟨fun x hx => ?_, ?_⟩
  · rw [hk x.2 (hoff x hx)]
    exact h.regs x hx
  · rw [hk EPC (by show EPC < PGSIZE; decide)]
    exact h.epc

namespace Good

/-- A trap from the program saves its registers in its frame. -/
theorem traps (h : Good L s) (hp : s.stage p = .user) :
    ∃ m', execAll s.tr uservec { s.m with csr := Function.update s.m.csr .sepc s.m.pc } = some m' ∧
      Saved m' s.m.regs s.m.pc (L.base (.frame p)) ∧ m'.csr .satp = L.kernel_pagetable ∧
      ∀ B ≠ .frame p, Keeps L B s.m m' := by
  obtain ⟨_, hsatp, hscratch, hkernel⟩ := h.user p hp
  obtain ⟨m₀, hm₀⟩ : ∃ m₀ : Hart, m₀ = { s.m with csr := Function.update s.m.csr .sepc s.m.pc } :=
    ⟨_, rfl⟩
  have hcsr : ∀ c ≠ .sepc, m₀.csr c = s.m.csr c := by
    rw [hm₀]
    exact fun c hc => Function.update_of_ne hc _ _
  have hmem : m₀.mem = s.m.mem := by rw [hm₀]
  have hframe : FrameAt s.tr (m₀.csr .satp) (m₀.csr .sscratch) (L.base (.frame p)) := by
    rw [hcsr .satp (by decide), hcsr .sscratch (by decide), hsatp, hscratch]
    exact h.mapped.frame p (by rw [hp]; decide)
  obtain ⟨m', hrun, hent⟩ := uservec_enters hframe
  have hothers := hent.others
  rw [hmem] at hothers
  refine ⟨m', hm₀ ▸ hrun, ⟨fun x hx => ?_, ?_⟩, ?_, fun B hB => ?_⟩
  · rw [hent.saved.regs x hx, hm₀]
  · rw [hent.saved.epc, hm₀]
    dsimp only
    rw [Function.update_self]
  · rw [hent.satp, hmem]
    exact hkernel
  · refine @Keeps.of_outside L s.m m' (.frame p) B 0 288 ?_ (fun a ha => hothers a ?_) hB
    · show 0 + 288 ≤ PGSIZE
      decide
    · unfold EPC
      omega

/-- A switch writes the context that it leaves, and takes the registers from the
other. -/
theorem switches (h : Good L s) (hkernel : ∀ q, s.stage q ≠ .user) (hA : A.size = 112)
    (ha0 : ∀ off < 112, s.tr L.kernel_pagetable (s.m.regs .a0 + BitVec.ofNat 64 off) =
    some (L.base A + off))
    (ha1 : ∀ off < 112, s.tr L.kernel_pagetable (s.m.regs .a1 + BitVec.ofNat 64 off) =
    some (L.base B + off)) :
    ∃ m', execAll s.tr swtch s.m = some m' ∧ Switched s.m m' (L.base A) (L.base B) ∧
      ∀ C ≠ A, Keeps L C s.m m' := by
  rw [← h.kernel hkernel] at ha0 ha1
  obtain ⟨m', hrun, hsw⟩ := swtch_switches ha0 ha1
  refine ⟨m', hrun, hsw, fun C hC =>
    @Keeps.of_outside L s.m m' A C 0 112 (by omega) (fun a ha => ?_) hC⟩
  exact hsw.others a (by omega)

theorem leaves (h : Good L s) (hkernel : ∀ q, s.stage q ≠ .user)
    (ha0 : s.m.regs .a0 = BitVec.ofNat 64 (L.base (.context p)))
    (ha1 : s.m.regs .a1 = BitVec.ofNat 64 (L.base .idle)) :
    ∃ m', execAll s.tr swtch s.m = some m' ∧ Switched s.m m' (L.base (.context p)) (L.base .idle) ∧
      ∀ B ≠ .context p, Keeps L B s.m m' :=
  h.switches hkernel rfl (by rw [ha0]; exact h.mapped.context p) (by rw [ha1]; exact h.mapped.idle)

theorem enters (h : Good L s) (hkernel : ∀ q, s.stage q ≠ .user)
    (ha0 : s.m.regs .a0 = BitVec.ofNat 64 (L.base .idle))
    (ha1 : s.m.regs .a1 = BitVec.ofNat 64 (L.base (.context p))) :
    ∃ m', execAll s.tr swtch s.m = some m' ∧ Switched s.m m' (L.base .idle) (L.base (.context p)) ∧
      ∀ B ≠ .idle, Keeps L B s.m m' :=
  h.switches hkernel rfl (by rw [ha0]; exact h.mapped.idle) (by rw [ha1]; exact h.mapped.context p)

/-- The way back takes the registers from the frame of the process. -/
theorem returns (h : Good L s) (hin : s.stage p ≠ .none) (kstack usertrap : Word)
    (regs : Reg → Word) :
    ∃ m', execAll s.tr userret (usertrapret (L.base (.frame p)) kstack usertrap (s.satp p) regs
      s.m) = some m' ∧
      (∀ x ∈ trapframeRegs, m'.regs x.1 = s.m.mem (L.base (.frame p) + x.2)) ∧
      m'.pc = s.m.mem (L.base (.frame p) + EPC) ∧ m'.csr .satp = s.satp p ∧
      m'.csr .sscratch = TRAPFRAME_VA ∧
      m'.mem (L.base (.frame p) + KERNEL_SATP) = s.m.csr .satp ∧
      ∀ B ≠ .frame p, Keeps L B s.m m' := by
  have hoff : ∀ x ∈ trapframeRegs, 40 ≤ x.2 := by decide
  have hframe : FrameAt s.tr ((usertrapret (L.base (.frame p)) kstack usertrap (s.satp p) regs
      s.m).regs .a1)
      ((usertrapret (L.base (.frame p)) kstack usertrap (s.satp p) regs s.m).regs .a0)
      (L.base (.frame p)) := by
    rw [usertrapret_a0, usertrapret_a1]
    exact h.mapped.frame p hin
  obtain ⟨m', hrun, hleft⟩ := userret_leaves hframe
  refine ⟨m', hrun, fun x hx => ?_, ?_, ?_, ?_, ?_, fun B hB => ?_⟩
  · have hx' := hoff x hx
    rw [hleft.regs x hx, usertrapret_mem]
    omega
  · rw [hleft.pc, usertrapret_sepc]
  · rw [hleft.satp, usertrapret_a1]
  · rw [hleft.sscratch, usertrapret_a0]
  · rw [hleft.mem, usertrapret_satp]
  · refine @Keeps.of_outside L s.m m' (.frame p) B 0 40 ?_ (fun a ha => ?_) hB
    · show 0 + 40 ≤ PGSIZE
      decide
    · rw [hleft.mem, usertrapret_mem]
      omega

/-- While a process is in the kernel, or none is on the processor, nobody is in
its program. -/
theorem no_user (h : Good L s) (hcur : ∀ q, s.current_proc = some q → s.stage q ≠ .user) :
    ∀ q, s.stage q ≠ .user :=
  fun q hq => hcur q (h.user q hq).1 hq

theorem no_user_of_kernel (h : Good L s) (hcur : s.current_proc = some p)
    (hp : s.stage p = .kernel timer ∨ s.stage p = .back timer) : ∀ q, s.stage q ≠ .user := by
  refine h.no_user fun q hq => ?_
  cases hcur.symm.trans hq
  rcases hp with hp | hp
  · rw [hp]
    exact fun hc => by cases hc
  · rw [hp]
    exact fun hc => by cases hc

theorem no_user_of_idle (h : Good L s) (hcur : s.current_proc = none) : ∀ q, s.stage q ≠ .user :=
  h.no_user fun q hq => by cases hcur.symm.trans hq

end Good

theorem Mapped.congr (h : Mapped L s) (htr : s'.tr = s.tr) (hsatp : s'.satp = s.satp)
    (hstage : ∀ q, s'.stage q ≠ .none → s.stage q ≠ .none) : Mapped L s' := by
  refine ⟨fun q hq => ?_, ?_, ?_⟩
  · rw [htr, hsatp]
    exact h.frame q (hstage q hq)
  · rw [htr]
    exact h.context
  · rw [htr]
    exact h.idle

/-- A process whose stage is set was not out of use before. -/
theorem ne_none_of_update {t : Stage} (hp : s.stage p ≠ .none) (q : Fin NPROC)
    (h : Function.update s.stage p t q ≠ .none) : s.stage q ≠ .none := by
  by_cases hq : q = p
  · rwa [hq]
  · rwa [Function.update_of_ne hq] at h

theorem user_of_update {t : Stage} (ht : t ≠ .user) {q : Fin NPROC}
    (h : Function.update s.stage p t q = .user) :
    s.stage q = .user := by
  by_cases hq : q = p
  · rw [hq, Function.update_self] at h
    exact absurd h ht
  · rwa [Function.update_of_ne hq] at h

theorem kernel_ne_none (hp : s.stage p = .kernel timer ∨ s.stage p = .back timer) :
    s.stage p ≠ .none := by
  rcases hp with hp | hp
  · rw [hp]
    exact fun hc => by cases hc
  · rw [hp]
    exact fun hc => by cases hc

/-- Every step keeps it. -/
theorem Good.step (h : Good L s) (hs : Step L s s') : Good L s' := by
  cases hs with
  | computes p hc =>
    obtain ⟨hcur, hp, m', hcsr, hkeeps, rfl⟩ := hc
    refine ⟨h.mapped.congr rfl rfl fun _ hq => hq, fun q hq => ?_, fun hno => absurd hp (hno p)⟩
    obtain ⟨h1, h2, h3, h4⟩ := h.user q hq
    dsimp only
    rw [hcsr]
    refine ⟨h1, h2, h3, ?_⟩
    rw [hkeeps (.frame q) KERNEL_SATP (by show KERNEL_SATP < PGSIZE; decide)]
    exact h4
  | traps p timer ht =>
    obtain ⟨hcur, hp, m', hrun, rfl⟩ := ht
    obtain ⟨m'', hrun', _, hsatp, _⟩ := h.traps hp
    cases hrun.symm.trans hrun'
    refine ⟨h.mapped.congr rfl rfl (ne_none_of_update (by rw [hp]; decide)), fun q hq => ?_,
      fun _ => hsatp⟩
    have hq' := user_of_update (fun hc => by cases hc) hq
    cases hcur.symm.trans (h.user q hq').1
    dsimp only at hq
    rw [Function.update_self] at hq
    cases hq
  | works p timer hw =>
    obtain ⟨hcur, hp, _, hsatp, hmapped, hstage, _, _⟩ := hw
    have hno := h.no_user_of_kernel hcur hp
    refine ⟨hmapped, fun q hq => ?_, fun _ => by rw [hsatp]; exact h.kernel hno⟩
    rcases hstage q with hsame | ⟨_, hnew⟩
    · rw [hsame] at hq
      exact absurd hq (hno q)
    · rw [hnew] at hq
      cases hq
  | leaves p timer exits hl =>
    obtain ⟨hcur, hp, _, ha0, ha1, m', hrun, rfl⟩ := hl
    have hno := h.no_user_of_kernel hcur hp
    obtain ⟨m'', hrun', hsw, _⟩ := h.leaves hno ha0 ha1
    cases hrun.symm.trans hrun'
    refine ⟨h.mapped.congr rfl rfl (ne_none_of_update (kernel_ne_none hp)), fun q hq => ?_,
      fun _ => ?_⟩
    · refine absurd (user_of_update ?_ hq) (hno q)
      split
      · decide
      · exact fun hc => by cases hc
    · dsimp only
      rw [hsw.csr]
      exact h.kernel hno
  | schedules hc =>
    obtain ⟨hcur, m', hsatp, _, rfl⟩ := hc
    have hno := h.no_user_of_idle hcur
    refine ⟨h.mapped.congr rfl rfl fun _ hq => hq, fun q hq => absurd hq (hno q), fun _ => ?_⟩
    dsimp only
    rw [hsatp]
    exact h.kernel hno
  | enters p timer he =>
    obtain ⟨hcur, hp, ha0, ha1, m', hrun, rfl⟩ := he
    have hno := h.no_user_of_idle hcur
    obtain ⟨m'', hrun', hsw, _⟩ := h.enters hno ha0 ha1
    cases hrun.symm.trans hrun'
    refine ⟨h.mapped.congr rfl rfl (ne_none_of_update (by rw [hp]; exact fun hc => by cases hc)),
      fun q hq => ?_, fun _ => ?_⟩
    · exact absurd (user_of_update (fun hc => by cases hc) hq) (hno q)
    · dsimp only
      rw [hsw.csr]
      exact h.kernel hno
  | returns p hr =>
    obtain ⟨hcur, ⟨timer, hp⟩, kstack, usertrap, regs, m', hrun, rfl⟩ := hr
    have hno := h.no_user_of_kernel hcur hp
    obtain ⟨m'', hrun', _, _, hsatp, hscratch, hkernel, _⟩ :=
      h.returns (kernel_ne_none hp) kstack usertrap regs
    cases hrun.symm.trans hrun'
    refine ⟨h.mapped.congr rfl rfl (ne_none_of_update (kernel_ne_none hp)), fun q hq => ?_,
      fun hall => ?_⟩
    · by_cases hqp : q = p
      · rw [hqp]
        exact ⟨hcur, hsatp, hscratch, hkernel.trans (h.kernel hno)⟩
      · dsimp only at hq
        rw [Function.update_of_ne hqp] at hq
        exact absurd hq (hno q)
    · exact absurd (Function.update_self _ _ _) (hall p)

theorem Good.run (h : Good L s) (hrun : Relation.ReflTransGen (Step L) s s') : Good L s' := by
  induction hrun with
  | refl => exact h
  | tail _ hlast ih => exact ih.step hlast

/-! ## A process in the kernel after an interrupt -/

/-- The frame of the process has the registers of its program, as the interrupt
of the timer found them. -/
structure Frozen (L : Layout) (s : System) (p : Fin NPROC) (regs : Reg → Word) (pc : Word) :
    Prop where
  stage : s.stage p = .kernel true ∨ s.stage p = .away true ∨ s.stage p = .back true
  saved : Saved s.m regs pc (L.base (.frame p))

theorem Frozen.ne_none (h : Frozen L s p regs pc) : s.stage p ≠ .none := by
  rcases h.stage with hs | hs | hs
  · rw [hs]; decide
  · rw [hs]; decide
  · rw [hs]; decide

/-- Such a process came into the kernel by the timer. -/
theorem Frozen.by_timer (h : Frozen L s p regs pc)
    (hp : s.stage p = .kernel timer ∨ s.stage p = .back timer) :
    timer = true := by
  rcases hp with hp | hp
  · rcases h.stage with hc | hc | hc
    · exact Stage.kernel.inj (hp.symm.trans hc)
    · cases hp.symm.trans hc
    · cases hp.symm.trans hc
  · rcases h.stage with hc | hc | hc
    · cases hp.symm.trans hc
    · cases hp.symm.trans hc
    · exact Stage.back.inj (hp.symm.trans hc)

/-- Nothing that happens until the way back changes the frame. -/
theorem Frozen.step (h : Frozen L s p regs pc) (hg : Good L s) (hs : Step L s s')
    (hin : s'.stage p ≠ .user) :
    Frozen L s' p regs pc := by
  cases hs with
  | computes q hc =>
    obtain ⟨_, _, m', _, hkeeps, rfl⟩ := hc
    exact ⟨h.stage, h.saved.keep (hkeeps _)⟩
  | traps q timer ht =>
    obtain ⟨_, hq, m', hrun, rfl⟩ := ht
    obtain ⟨m'', hrun', _, _, hkeeps⟩ := hg.traps hq
    cases hrun.symm.trans hrun'
    have hne : p ≠ q := by
      rintro rfl
      rcases h.stage with hc | hc | hc
      · cases hc.symm.trans hq
      · cases hc.symm.trans hq
      · cases hc.symm.trans hq
    refine ⟨?_, h.saved.keep (hkeeps _ fun hc => hne (Area.frame.inj hc))⟩
    dsimp only
    rw [Function.update_of_ne hne]
    exact h.stage
  | works q timer hw =>
    obtain ⟨_, hq, _, _, _, hstage, hothers, hown⟩ := hw
    have hsame : s'.stage p = s.stage p := (hstage p).resolve_right fun hc => h.ne_none hc.1
    refine ⟨by rw [hsame]; exact h.stage, h.saved.keep ?_⟩
    by_cases hpq : p = q
    · subst hpq
      exact hown (h.by_timer hq)
    · exact (hothers p hpq h.ne_none).1
  | leaves q timer exits hl =>
    obtain ⟨hcur, hq, hexits, ha0, ha1, m', hrun, rfl⟩ := hl
    obtain ⟨m'', hrun', _, hkeeps⟩ := hg.leaves (hg.no_user_of_kernel hcur hq) ha0 ha1
    cases hrun.symm.trans hrun'
    refine ⟨?_, h.saved.keep (hkeeps _ fun hc => by cases hc)⟩
    dsimp only
    by_cases hpq : p = q
    · subst hpq
      rw [Function.update_self]
      cases exits with
      | false => exact Or.inr (Or.inl (by rw [h.by_timer hq]; rfl))
      | true => cases (h.by_timer hq).symm.trans (hexits rfl)
    · rw [Function.update_of_ne hpq]
      exact h.stage
  | schedules hc =>
    obtain ⟨_, m', _, hkeeps, rfl⟩ := hc
    exact ⟨h.stage, h.saved.keep (hkeeps _)⟩
  | enters q timer he =>
    obtain ⟨hcur, hq, ha0, ha1, m', hrun, rfl⟩ := he
    obtain ⟨m'', hrun', _, hkeeps⟩ := hg.enters (hg.no_user_of_idle hcur) ha0 ha1
    cases hrun.symm.trans hrun'
    refine ⟨?_, h.saved.keep (hkeeps _ fun hc => by cases hc)⟩
    dsimp only
    by_cases hpq : p = q
    · subst hpq
      rw [Function.update_self]
      rcases h.stage with hc | hc | hc
      · cases hq.symm.trans hc
      · cases Stage.away.inj (hq.symm.trans hc)
        exact Or.inr (Or.inr rfl)
      · cases hq.symm.trans hc
    · rw [Function.update_of_ne hpq]
      exact h.stage
  | returns q hr =>
    obtain ⟨hcur, ⟨timer, hq⟩, kstack, usertrap, left, m', hrun, rfl⟩ := hr
    obtain ⟨m'', hrun', _, _, _, _, _, hkeeps⟩ :=
      hg.returns (kernel_ne_none hq) kstack usertrap left
    cases hrun.symm.trans hrun'
    have hne : p ≠ q := by
      rintro rfl
      exact hin (Function.update_self _ _ _)
    refine ⟨?_, h.saved.keep (hkeeps _ fun hc => hne (Area.frame.inj hc))⟩
    dsimp only
    rw [Function.update_of_ne hne]
    exact h.stage

theorem Frozen.run (h : Frozen L s p regs pc) (hg : Good L s)
    (hrun : Relation.ReflTransGen (fun s s' => Step L s s' ∧ s'.stage p ≠ .user) s s') :
    Good L s' ∧ Frozen L s' p regs pc := by
  induction hrun with
  | refl => exact ⟨hg, h⟩
  | tail _ hlast ih => exact ⟨ih.1.step hlast.1, ih.2.step ih.1 hlast.1 hlast.2⟩

/-! ## A process that is switched out -/

/-- The context of the process has the registers that a function keeps, as they
were at the switch. -/
structure Parked (L : Layout) (s : System) (p : Fin NPROC) (regs : Reg → Word) : Prop where
  stage : ∃ timer, s.stage p = .away timer
  saved : ∀ x ∈ contextRegs, s.m.mem (L.base (.context p) + x.2) = regs x.1

theorem Parked.keep (h : Parked L s p regs) (hk : Keeps L (.context p) s.m s'.m)
    (haway : ∃ timer, s'.stage p = .away timer) : Parked L s' p regs := by
  have hoff : ∀ x ∈ contextRegs, x.2 < 112 := by decide
  refine ⟨haway, fun x hx => ?_⟩
  rw [hk x.2 (hoff x hx)]
  exact h.saved x hx

theorem Parked.step (h : Parked L s p regs) (hg : Good L s) (hs : Step L s s')
    (haway : ∃ timer, s'.stage p = .away timer) : Parked L s' p regs := by
  obtain ⟨t, ht⟩ := h.stage
  cases hs with
  | computes q hc =>
    obtain ⟨_, _, m', _, hkeeps, rfl⟩ := hc
    exact h.keep (hkeeps _) haway
  | traps q timer hc =>
    obtain ⟨_, hq, m', hrun, rfl⟩ := hc
    obtain ⟨m'', hrun', _, _, hkeeps⟩ := hg.traps hq
    cases hrun.symm.trans hrun'
    exact h.keep (hkeeps _ fun hc => by cases hc) haway
  | works q timer hw =>
    obtain ⟨_, hq, _, _, _, _, hothers, _⟩ := hw
    have hne : p ≠ q := by
      rintro rfl
      rcases hq with hq | hq
      · cases ht.symm.trans hq
      · cases ht.symm.trans hq
    exact h.keep (hothers p hne (by rw [ht]; exact fun hc => by cases hc)).2 haway
  | leaves q timer exits hl =>
    obtain ⟨hcur, hq, hexits, ha0, ha1, m', hrun, rfl⟩ := hl
    obtain ⟨m'', hrun', _, hkeeps⟩ := hg.leaves (hg.no_user_of_kernel hcur hq) ha0 ha1
    cases hrun.symm.trans hrun'
    have hne : p ≠ q := by
      rintro rfl
      rcases hq with hq | hq
      · cases ht.symm.trans hq
      · cases ht.symm.trans hq
    exact h.keep (hkeeps _ fun hc => hne (Area.context.inj hc)) haway
  | schedules hc =>
    obtain ⟨_, m', _, hkeeps, rfl⟩ := hc
    exact h.keep (hkeeps _) haway
  | enters q timer he =>
    obtain ⟨hcur, hq, ha0, ha1, m', hrun, rfl⟩ := he
    obtain ⟨m'', hrun', _, hkeeps⟩ := hg.enters (hg.no_user_of_idle hcur) ha0 ha1
    cases hrun.symm.trans hrun'
    exact h.keep (hkeeps _ fun hc => by cases hc) haway
  | returns q hr =>
    obtain ⟨hcur, ⟨timer, hq⟩, kstack, usertrap, left, m', hrun, rfl⟩ := hr
    obtain ⟨m'', hrun', _, _, _, _, _, hkeeps⟩ :=
      hg.returns (kernel_ne_none hq) kstack usertrap left
    cases hrun.symm.trans hrun'
    exact h.keep (hkeeps _ fun hc => by cases hc) haway

theorem Parked.run (h : Parked L s p regs) (hg : Good L s)
    (hrun : Relation.ReflTransGen (fun s s' => Step L s s' ∧
    ∃ timer, s'.stage p = .away timer) s s') :
    Good L s' ∧ Parked L s' p regs := by
  induction hrun with
  | refl => exact ⟨hg, h⟩
  | tail _ hlast ih => exact ⟨ih.1.step hlast.1, ih.2.step ih.1 hlast.1 hlast.2⟩

/-- A process that was switched out goes on where it called the switch, with the
registers that a function keeps. -/
theorem a_switch_returns {s₄ : System} {t t' : Bool} (hg : Good L s₁)
    (hleave : Leaves L p t false s₁ s₂)
    (hrun : Relation.ReflTransGen (fun s s' => Step L s s' ∧ ∃ timer, s'.stage p = .away timer) s₂
    s₃) (henter : Enters L p t' s₃ s₄) :
    (∀ x ∈ contextRegs, s₄.m.regs x.1 = s₁.m.regs x.1) ∧ s₄.m.pc = s₁.m.regs .ra := by
  have hg₂ := hg.step (.leaves p t false hleave)
  obtain ⟨hcur, hp, _, ha0, ha1, m', hswitch, rfl⟩ := hleave
  obtain ⟨m'', hswitch', hsw, _⟩ := hg.leaves (hg.no_user_of_kernel hcur hp) ha0 ha1
  cases hswitch.symm.trans hswitch'
  have hstart :
    Parked L
    { s₁ with m := m', current_proc := none, stage := Function.update s₁.stage p (.away t) } p
      s₁.m.regs := ⟨⟨t, Function.update_self _ _ _⟩, hsw.saved⟩
  obtain ⟨hg₃, hparked⟩ := hstart.run hg₂ hrun
  obtain ⟨hcur, hp, ha0, ha1, m₄, hswitch, rfl⟩ := henter
  obtain ⟨m₄', hswitch', hsw₄, hkeeps⟩ := hg₃.enters (hg₃.no_user_of_idle hcur) ha0 ha1
  cases hswitch.symm.trans hswitch'
  have hoff : ∀ x ∈ contextRegs, x.2 < 112 := by decide
  have hregs : ∀ x ∈ contextRegs, m₄.regs x.1 = s₁.m.regs x.1 := by
    intro x hx
    rw [hsw₄.regs x hx, hkeeps (.context p) (fun hc => by cases hc) x.2 (hoff x hx)]
    exact hparked.saved x hx
  exact ⟨hregs, hsw₄.pc.trans (hregs (.ra, 0) (by decide))⟩

/-! ## The way there and back -/

/-- The way back of a process in the kernel after an interrupt. -/
theorem Frozen.goes_on (h : Frozen L s p regs pc) (hg : Good L s) (hreturn : Returns L p s s') :
    (∀ r, s'.m.regs r = regs r) ∧ s'.m.pc = pc := by
  obtain ⟨_, _, kstack, usertrap, left, m', hret, rfl⟩ := hreturn
  obtain ⟨m'', hret', hregs, hpc, _⟩ := hg.returns h.ne_none kstack usertrap left
  cases hret.symm.trans hret'
  refine ⟨fun r => ?_, hpc.trans h.saved.epc⟩
  obtain ⟨off, hoff⟩ := trapframeRegs_all r
  exact (hregs _ hoff).trans (h.saved.regs _ hoff)

theorem Good.can_trap (h : Good L s) (hp : s.stage p = .user) (timer : Bool) :
    ∃ s', Traps p timer s s' := by
  obtain ⟨m', hrun, _⟩ := h.traps hp
  exact ⟨_, (h.user p hp).1, hp, m', hrun, rfl⟩

theorem Good.can_return (h : Good L s) (hcur : s.current_proc = some p)
    (hp : s.stage p = .back timer) :
    ∃ s', Returns L p s s' := by
  obtain ⟨m', hrun, _⟩ := h.returns (p := p) (by rw [hp]; exact fun hc => by cases hc) 0 0 s.m.regs
  exact ⟨_, hcur, ⟨timer, Or.inr hp⟩, 0, 0, s.m.regs, m', hrun, rfl⟩

/-- In every run, the timer can interrupt a program where it is, and after any
switches to other processes the kernel can go back to it; it goes on with all its
registers and where it stood. -/
theorem an_interrupted_program_goes_on (hboot : Boot L s)
    (hrun : Relation.ReflTransGen (Step L) s s₀) (hp : s₀.stage p = .user) :
    (∃ s₁, Traps p true s₀ s₁) ∧
    ∀ s₁ s₂, Traps p true s₀ s₁ →
      Relation.ReflTransGen (fun s s' => Step L s s' ∧ s'.stage p ≠ .user) s₁ s₂ →
      (s₂.current_proc = some p → s₂.stage p = .back true → ∃ s₃, Returns L p s₂ s₃) ∧
      ∀ s₃, Returns L p s₂ s₃ → (∀ r, s₃.m.regs r = s₀.m.regs r) ∧ s₃.m.pc = s₀.m.pc := by
  have hg := hboot.good.run hrun
  refine ⟨hg.can_trap hp true, fun s₁ s₂ htrap hkernel => ?_⟩
  have hg₁ := hg.step (.traps p true htrap)
  obtain ⟨_, _, m', hvec, rfl⟩ := htrap
  obtain ⟨m'', hvec', hsaved, _⟩ := hg.traps hp
  cases hvec.symm.trans hvec'
  have hstart : Frozen L { s₀ with m := m', stage := Function.update s₀.stage p (.kernel true) } p
      s₀.m.regs s₀.m.pc :=
    ⟨Or.inl (Function.update_self _ _ _), hsaved⟩
  obtain ⟨hg₂, hfrozen⟩ := hstart.run hg₁ hkernel
  exact ⟨hg₂.can_return, fun s₃ hreturn => hfrozen.goes_on hg₂ hreturn⟩

/-! ## A machine with two processes -/

/-- The contexts in the lower halves of pages of two, the frames in the upper. -/
def smallLayout : Layout where
  base
    | .frame p => 8192 * p + 4096
    | .context p => 8192 * p
    | .idle => 2048
  kernel_pagetable := 0
  apart A B off off' ha hb h := by
    have hframe : ∀ p, Area.size (.frame p) = 4096 := fun _ => rfl
    have hcontext : ∀ p, Area.size (.context p) = 112 := fun _ => rfl
    have hidle : Area.size .idle = 112 := rfl
    cases A with
    | frame p =>
      cases B with
      | frame q => exact congrArg _ (Fin.ext (by rw [hframe] at *; dsimp only at h; omega))
      | context q => rw [hframe, hcontext] at *; dsimp only at h; omega
      | idle => rw [hframe, hidle] at *; dsimp only at h; omega
    | context p =>
      cases B with
      | frame q => rw [hframe, hcontext] at *; dsimp only at h; omega
      | context q => exact congrArg _ (Fin.ext (by rw [hcontext] at *; dsimp only at h; omega))
      | idle => rw [hcontext, hidle] at *; dsimp only at h; omega
    | idle =>
      cases B with
      | frame q => rw [hframe, hidle] at *; dsimp only at h; omega
      | context q => rw [hcontext, hidle] at *; dsimp only at h; omega
      | idle => rfl

/-- Page table 0 maps every address to itself, page table `p + 1` maps `TRAPFRAME`
to the frame of `p`. -/
def smallTranslation : Translation := fun satp va =>
  if satp = 0 then some va.toNat else some (8192 * (satp.toNat - 1) + 4096 + (va.toNat - TRAPFRAME))

def smallSystem (stage : Fin NPROC → Stage) : System where
  m := ⟨fun r => if r = .a0 then 2048 else 0, fun _ => 0, 0, fun _ => 0⟩
  tr := smallTranslation
  satp p := BitVec.ofNat 64 (p + 1)
  current_proc := none
  stage

theorem smallSystem_boot {stage : Fin NPROC → Stage}
    (h : ∀ p, stage p = .none ∨ stage p = .away false) :
    Boot smallLayout (smallSystem stage) := by
  have hmaxva : TRAPFRAME + 288 < 2 ^ 64 := by
    rw [TRAPFRAME_eq]
    decide
  have hkernel : ∀ base off, base + off < 2 ^ 64 →
      smallTranslation 0 (BitVec.ofNat 64 base + BitVec.ofNat 64 off) = some (base + off) := by
    intro base off hlt
    unfold smallTranslation
    rw [if_pos rfl, ← BitVec.ofNat_add, BitVec.toNat_ofNat, Nat.mod_eq_of_lt hlt]
  refine ⟨⟨fun p _ off hoff => ?_, fun p off hoff => hkernel _ _ ?_,
    fun off hoff => hkernel _ _ ?_⟩, h, rfl, rfl⟩
  · have hp : p.val < 256 := p.2
    have hsatp : BitVec.ofNat 64 (p.val + 1) ≠ 0 := by
      intro hc
      have hnat := congrArg BitVec.toNat hc
      rw [BitVec.toNat_ofNat, Nat.mod_eq_of_lt (show p.val + 1 < 2 ^ 64 by omega)] at hnat
      cases (hnat : p.val + 1 = 0)
    show smallTranslation (BitVec.ofNat 64 (p.val + 1)) (TRAPFRAME_VA + BitVec.ofNat 64 off) =
      some (8192 * p.val + 4096 + off)
    unfold smallTranslation TRAPFRAME_VA
    rw [if_neg hsatp, ← BitVec.ofNat_add, BitVec.toNat_ofNat, BitVec.toNat_ofNat,
      Nat.mod_eq_of_lt (by omega),
      Nat.mod_eq_of_lt (by omega), Nat.add_sub_cancel, Nat.add_sub_cancel_left]
  · have hp : p.val < 256 := p.2
    show 8192 * p.val + off < 2 ^ 64
    omega
  · show 2048 + off < 2 ^ 64
    omega

/-- The first slot. -/
def init : Fin NPROC := ⟨0, by decide⟩

/-- The kernel sets the two arguments of a switch. -/
def setArgs (m : Hart) (old new : Nat) : Hart :=
  { m with
    regs := Function.update (Function.update m.regs .a0 (BitVec.ofNat 64 old)) .a1
      (BitVec.ofNat 64 new) }

theorem setArgs_a0 (old new : Nat) : (setArgs m old new).regs .a0 = BitVec.ofNat 64 old := by
  unfold setArgs
  dsimp only
  rw [Function.update_of_ne (by decide), Function.update_self]

theorem setArgs_a1 (old new : Nat) : (setArgs m old new).regs .a1 = BitVec.ofNat 64 new := by
  unfold setArgs
  dsimp only
  rw [Function.update_self]

/-- A process in the kernel can go to the scheduler. -/
theorem Good.can_leave (h : Good L s) (hcur : s.current_proc = some p)
    (hp : s.stage p = .kernel true) :
    ∃ s₁ s₂, Works L p true s s₁ ∧ s₁.stage p = .kernel true ∧ Leaves L p true false s₁ s₂ ∧
      s₂.current_proc = none ∧ s₂.stage p = .away true := by
  obtain ⟨s₁, hs₁⟩ : ∃ s₁, s₁ = { s with m := setArgs s.m (L.base (.context p)) (L.base .idle) } :=
    ⟨_, rfl⟩
  have hworks : Works L p true s s₁ := by
    rw [hs₁]
    exact ⟨hcur, Or.inl hp, hcur, rfl, h.mapped.congr rfl rfl fun _ hq => hq, fun _ => Or.inl rfl,
      fun _ _ _ => ⟨fun _ _ => rfl, fun _ _ => rfl⟩, fun _ _ _ => rfl⟩
  have hcur₁ : s₁.current_proc = some p := hworks.2.2.1
  have hp₁ : s₁.stage p = .kernel true := by rw [hs₁]; exact hp
  have ha0 : s₁.m.regs .a0 = BitVec.ofNat 64 (L.base (.context p)) := by
    rw [hs₁]; exact setArgs_a0 _ _
  have ha1 : s₁.m.regs .a1 = BitVec.ofNat 64 (L.base .idle) := by rw [hs₁]; exact setArgs_a1 _ _
  have hg₁ := h.step (.works p true hworks)
  obtain ⟨m', hrun, _⟩ := hg₁.leaves (hg₁.no_user_of_kernel hcur₁ (Or.inl hp₁)) ha0 ha1
  exact ⟨s₁, _, hworks, hp₁, ⟨hcur₁, Or.inl hp₁, (fun hc => by cases hc), ha0, ha1, m', hrun, rfl⟩,
    rfl, Function.update_self _ _ _⟩

/-- The scheduler can go to a process that was switched out. -/
theorem Good.can_enter (h : Good L s) (hcur : s.current_proc = none)
    (hp : s.stage p = .away timer) :
    ∃ s₁ s₂, Schedules L s s₁ ∧ s₁.stage p = .away timer ∧ Enters L p timer s₁ s₂ ∧
    s₂.current_proc = some p ∧
      s₂.stage p = .back timer := by
  obtain ⟨s₁, hs₁⟩ : ∃ s₁, s₁ = { s with m := setArgs s.m (L.base .idle) (L.base (.context p)) } :=
    ⟨_, rfl⟩
  have hschedules : Schedules L s s₁ :=
    ⟨hcur, setArgs s.m (L.base .idle) (L.base (.context p)), rfl, fun _ _ _ => rfl, hs₁⟩
  have hcur₁ : s₁.current_proc = none := by rw [hs₁]; exact hcur
  have hp₁ : s₁.stage p = .away timer := by rw [hs₁]; exact hp
  have ha0 : s₁.m.regs .a0 = BitVec.ofNat 64 (L.base .idle) := by rw [hs₁]; exact setArgs_a0 _ _
  have ha1 : s₁.m.regs .a1 = BitVec.ofNat 64 (L.base (.context p)) := by
    rw [hs₁]; exact setArgs_a1 _ _
  have hg₁ := h.step (.schedules hschedules)
  obtain ⟨m', hrun, _⟩ := hg₁.enters (hg₁.no_user_of_idle hcur₁) ha0 ha1
  exact ⟨s₁, _, hschedules, hp₁, ⟨hcur₁, hp₁, ha0, ha1, m', hrun, rfl⟩, rfl,
    Function.update_self _ _ _⟩

/-- The first process is interrupted in its program, is switched out and in again,
and goes on. -/
theorem an_interrupted_program_goes_on_once :
    ∃ s s₀ s₁ s₂ s₃, Boot smallLayout s ∧ Relation.ReflTransGen (Step smallLayout) s s₀ ∧
    Traps init true s₀ s₁ ∧
      Relation.ReflTransGen (fun s s' => Step smallLayout s s' ∧ s'.stage init ≠ .user) s₁ s₂ ∧
      s₂.stage init = .back true ∧ Returns smallLayout init s₂ s₃ ∧
      (∀ r, s₃.m.regs r = s₀.m.regs r) ∧ s₃.m.pc = s₀.m.pc := by
  have hboot : Boot smallLayout (smallSystem fun _ => .away false) :=
    smallSystem_boot fun _ => Or.inr rfl
  obtain ⟨a₁, a₂, hschedules, _, henters, hcur₂, hback₂⟩ := hboot.good.can_enter (p := init) rfl rfl
  have hg₂ := (hboot.good.step (.schedules hschedules)).step (.enters init false henters)
  obtain ⟨s₀, hreturns⟩ := hg₂.can_return hcur₂ hback₂
  have hrun : Relation.ReflTransGen (Step smallLayout) (smallSystem fun _ => .away false) s₀ :=
    ((Relation.ReflTransGen.single (.schedules hschedules)).tail (.enters init false henters)).tail
      (.returns init hreturns)
  have huser : s₀.stage init = .user := by
    obtain ⟨_, _, _, _, _, _, _, rfl⟩ := hreturns
    exact Function.update_self init Stage.user a₂.stage
  have hlaw := an_interrupted_program_goes_on hboot hrun huser
  obtain ⟨s₁, htraps⟩ := hlaw.1
  have hg₁ := (hboot.good.run hrun).step (.traps init true htraps)
  have hin₁ : s₁.current_proc = some init ∧ s₁.stage init = .kernel true := by
    obtain ⟨hcur, _, _, _, rfl⟩ := htraps
    exact ⟨hcur, Function.update_self init (Stage.kernel true) s₀.stage⟩
  obtain ⟨b₁, b₂, hworks, hb₁, hleaves, hcurb, hb₂⟩ := hg₁.can_leave hin₁.1 hin₁.2
  have hgb := (hg₁.step (.works init true hworks)).step (.leaves init true false hleaves)
  obtain ⟨c₁, s₂, hschedules', hc₁, henters', hcurs, hs₂⟩ := hgb.can_enter hcurb hb₂
  have hkernel : Relation.ReflTransGen (fun s s' => Step smallLayout s s' ∧ s'.stage init ≠ .user)
      s₁ s₂ := by
    have hb₁' : b₁.stage init ≠ .user := by rw [hb₁]; decide
    have hb₂' : b₂.stage init ≠ .user := by rw [hb₂]; decide
    have hc₁' : c₁.stage init ≠ .user := by rw [hc₁]; decide
    have hs₂' : s₂.stage init ≠ .user := by rw [hs₂]; decide
    exact (((Relation.ReflTransGen.single ⟨.works init true hworks, hb₁'⟩).tail
      ⟨.leaves init true false hleaves, hb₂'⟩).tail ⟨.schedules hschedules', hc₁'⟩).tail
      ⟨.enters init true henters', hs₂'⟩
  obtain ⟨s₃, hreturn⟩ := (hlaw.2 s₁ s₂ htraps hkernel).1 hcurs hs₂
  exact ⟨_, s₀, s₁, s₂, s₃, hboot, hrun, htraps, hkernel, hs₂, hreturn,
    (hlaw.2 s₁ s₂ htraps hkernel).2 s₃ hreturn⟩

end ThuKernel.Trap
