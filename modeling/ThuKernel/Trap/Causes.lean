-- The causes of a trap, and what the kernel does about each: a system call, a
-- fault, an interrupt of the timer or of the disk (trap.c, timer.c, plic.c).
import ThuKernel.Trap.Code
import ThuKernel.Kernel.Rounds
import ThuKernel.Disk.VirtioLaws

namespace ThuKernel.Trap

open Scheduler (Cpu CpuStep ProcCall)

/-! ## trap.h, riscv.h, memory_layout.h -/

def InstructionFault : Nat := 1
def IllegalInstruction : Nat := 2
def LoadFault : Nat := 5
def StoreFault : Nat := 7
def UserEnvCall : Nat := 8
def InstructionPageFault : Nat := 12
def LoadPageFault : Nat := 13
def StorePageFault : Nat := 15

def SupervisorTimer : Nat := 5
def SupervisorExternal : Nat := 9

/-- The bit of `sstatus` for a trap from the kernel. -/
def SSTATUS_SPP : Nat := 2 ^ 8

def VIRTIO0_IRQ : Nat := 1

def TICKS_PER_SEC : Nat := 100
def CPU_FREQ : Nat := 12500000

/-! ## The machine around the kernel -/

/-- The processor with the registers of a trap, the timer with its clock and its
next interrupt, and the interrupts that wait and that are being served. -/
structure Machine where
  cpu : Cpu
  disk : Virtio.Disk
  sstatus : Nat
  scause : Nat
  time : Nat
  timer : Nat
  pending : Nat
  serving : Nat

/-- What the handling of a trap ends in: the way back, the system call, or the
switch to the scheduler. -/
inductive Ending where
  | returns
  | call
  | leaves
  deriving DecidableEq

variable {α : Type}

def onKernel (f : Prog Kernel α) : Prog Machine α :=
  Prog.on (fun m => m.cpu.k) (fun k m => { m with cpu := { m.cpu with k } }) f

def onDisk (f : Prog Virtio.Disk α) : Prog Machine α :=
  Prog.on Machine.disk (fun disk m => { m with disk }) f

/-- The time at 100 Hz from now. -/
def set_next_timer : Prog Machine Unit :=
  modify fun m => { m with timer := (m.time + CPU_FREQ / TICKS_PER_SEC) % 2 ^ 64 }

/-- An interrupt that waits, or 0. -/
def plic_claim : Prog Machine Nat := do
  let m ← get
  set { m with pending := 0, serving := m.pending }
  pure m.pending

def plic_complete (irq : Nat) : Prog Machine Unit :=
  modify fun m => if m.serving = irq then { m with serving := 0 } else m

/-! ## trap.c -/

/-- `exit`, up to the switch. -/
def exitTrap (lk : Link) (code : Int) : Prog Machine Ending := do
  onKernel do
    exit lk code
    Scheduler.sched
  pure .leaves

def unknown_trap (lk : Link) : Prog Machine Ending := exitTrap lk (-1)

def devintr (lk : Link) (cause : Nat) : Prog Machine Ending := do
  if cause = SupervisorTimer then do
    set_next_timer
    let m ← get
    if m.sstatus &&& SSTATUS_SPP = 0 then do
      onKernel Scheduler.yield
      pure .leaves
    else pure .returns
  else if cause = SupervisorExternal then do
    let irq ← plic_claim
    Prog.when (irq = VIRTIO0_IRQ) (onDisk Virtio.virtio_disk_intr)
    Prog.when (irq ≠ 0) (plic_complete irq)
    pure .returns
  else unknown_trap lk

/-- `trapframe->epc += 4`: past the instruction of the call. -/
def skipCall : Prog Kernel Unit := do
  let p ← curr_proc
  onMm (modify fun m =>
    { m with mem := m.mem.put64 (p.trapframe + EPC) (m.mem.get64 (p.trapframe + EPC) + 4) })

/-- `usertrap`, up to `syscall`, `usertrapret` or the switch. -/
def usertrap (lk : Link) : Prog Machine Ending := do
  let m ← get
  if m.sstatus &&& SSTATUS_SPP ≠ 0 then Prog.panic "usertrap: not from user mode"
  else if m.scause.testBit 63 then devintr lk (m.scause &&& 0xff)
  else if m.scause = UserEnvCall then do
    onKernel skipCall
    pure .call
  else if m.scause ∈ [StoreFault, StorePageFault, InstructionFault, InstructionPageFault, LoadFault,
    LoadPageFault] then
    exitTrap lk (-2)
  else if m.scause = IllegalInstruction then exitTrap lk (-3)
  else unknown_trap lk

/-- A trap from the code of the kernel. -/
def kerneltrap (lk : Link) : Prog Machine Ending := do
  let m ← get
  if m.sstatus &&& SSTATUS_SPP = 0 then Prog.panic "kerneltrap: not from supervisor mode"
  else if m.scause.testBit 63 then devintr lk (m.scause &&& 0xff)
  else exitTrap lk (-1)

variable {lk : Link} {E : Stop → Prop} {k k' : Kernel} {m m' : Machine} {e : Ending} {p cause : Nat}
  {code : Int}

/-! ## Each function -/

theorem runs_onKernel {f : Prog Kernel α} {Q : α → Machine → Prop} :
    Runs E (onKernel f) m Q ↔ Runs E f m.cpu.k (fun a k =>
      Q a { m with cpu := { m.cpu with k } }) :=
  Runs.on_iff

theorem runs_onDisk {f : Prog Virtio.Disk α} {Q : α → Machine → Prop} :
    Runs E (onDisk f) m Q ↔ Runs E f m.disk (fun a d => Q a { m with disk := d }) :=
  Runs.on_iff

/-- The exit in a trap is the system call of that name. -/
theorem exit_is_a_call (h : (exit lk code >>= fun _ => Scheduler.sched) k = .ok ((), k')) :
    (ProcCall.exit code).run lk k = .ok (.yield, k') := by
  have hrun : (ProcCall.exit code).run lk =
      (exit lk code >>= fun _ => Scheduler.sched) >>= fun _ => pure WaitScan.yield := by
    simp only [ProcCall.run, sys_exit, bind_assoc, pure_bind]
  rw [hrun, Prog.bind_ok h]
  rfl

/-- So is the offer of the processor. -/
theorem yield_is_a_call (h : Scheduler.yield k = .ok ((), k')) :
    ProcCall.sched_yield.run lk k = .ok (.yield, k') := by
  show (Scheduler.yield >>= fun _ => pure WaitScan.yield) k = _
  rw [Prog.bind_ok h]
  rfl

/-- What the handling of a trap is to the scheduler: nothing, or a call in which
the process leaves the processor. -/
inductive Outcome (lk : Link) (m : Machine) : Ending → Machine → Prop
  | returns {m' : Machine} (hcpu : m'.cpu = m.cpu) : Outcome lk m .returns m'
  | call {m' : Machine} {k' : Kernel} (hcpu : m'.cpu = { m.cpu with k := k' }) (hpool : k'.pool =
      m.cpu.k.pool)
      (hcur : k'.current_proc = m.cpu.k.current_proc)
      (hnext : k'.PID = m.cpu.k.PID) : Outcome lk m .call m'
  | leaves {m' : Machine} {k' : Kernel} (call : ProcCall) (hcall : call = .sched_yield ∨
      ∃ code < 0, call = .exit code)
      (hrun : call.run lk m.cpu.k = .ok (.yield, k')) (hcpu : m'.cpu = { m.cpu with k := k' }) :
      Outcome lk m .leaves m'

theorem exitTrap_runs (hcode : code < 0) :
    Runs (fun _ => True) (exitTrap lk code) m (fun e m' => Outcome lk m e m' ∧ m'.timer = m.timer ∧
      m'.serving = m.serving) := by
  unfold exitTrap
  rw [Runs.bind_iff, runs_onKernel]
  refine Runs.of_forall fun _ k' hok => ?_
  rw [Runs.pure_iff]
  exact ⟨.leaves (.exit code) (Or.inr ⟨code, hcode, rfl⟩) (exit_is_a_call hok) rfl, rfl, rfl⟩

/-- An interrupt of the timer sets the next one, and one of a device is over at
the end. In the kernel these two go straight back. -/
structure Handled (m : Machine) (cause : Nat) (e : Ending) (m' : Machine) : Prop where
  timer : m'.timer = if cause = SupervisorTimer then (m.time + CPU_FREQ / TICKS_PER_SEC) % 2 ^
    64 else m.timer
  serving : m.serving = 0 → m'.serving = 0
  kernel : m.sstatus &&& SSTATUS_SPP ≠ 0 → cause = SupervisorTimer ∨ cause = SupervisorExternal →
    e = .returns

theorem devintr_runs :
    Runs (fun _ => True) (devintr lk cause) m (fun e m' => Outcome lk m e m' ∧
      Handled m cause e m') := by
  unfold devintr
  split
  · rename_i hc
    rw [Runs.bind_iff, set_next_timer, Runs.modify_iff, Runs.bind_iff, Runs.get_iff]
    split
    · rename_i huser
      rw [Runs.bind_iff, runs_onKernel]
      refine Runs.of_forall fun _ k' hok => ?_
      rw [Runs.pure_iff]
      exact ⟨.leaves .sched_yield (Or.inl rfl) (yield_is_a_call hok) rfl, (if_pos hc).symm,
        fun h => h, fun hspp => absurd huser hspp⟩
    · rw [Runs.pure_iff]
      exact ⟨.returns rfl, (if_pos hc).symm, fun h => h, fun _ _ => rfl⟩
  · rename_i hc
    split
    · unfold plic_claim
      rw [Runs.bind_iff, Runs.bind_iff, Runs.get_iff, Runs.bind_iff, Runs.set_iff, Runs.pure_iff,
        Runs.bind_iff]
      have hserved : ∀ d, Runs (fun _ => True)
          (do Prog.when (m.pending ≠ 0) (plic_complete m.pending); pure Ending.returns)
          { m with pending := 0, serving := m.pending, disk := d }
          (fun e m' => Outcome lk m e m' ∧ Handled m cause e m') := by
        intro d
        unfold plic_complete
        rw [Runs.bind_iff, Runs.when_iff]
        refine ⟨fun _ => ?_, fun hzero => ?_⟩
        · rw [Runs.modify_iff, if_pos rfl, Runs.pure_iff]
          exact ⟨.returns rfl, (if_neg hc).symm, fun _ => rfl, fun _ _ => rfl⟩
        · rw [Runs.pure_iff]
          exact ⟨.returns rfl, (if_neg hc).symm, fun _ => not_not.mp hzero, fun _ _ => rfl⟩
      rw [Runs.when_iff]
      refine ⟨fun _ => ?_, fun _ => hserved m.disk⟩
      rw [runs_onDisk]
      exact Runs.of_forall fun _ d _ => hserved d
    · rename_i hc'
      apply (exitTrap_runs (by decide)).imp
      rintro e m' ⟨hout, htimer, hserving⟩
      exact ⟨hout, htimer.trans (if_neg hc).symm, fun h => hserving.trans h,
        fun _ h => absurd h (not_or.mpr ⟨hc, hc'⟩)⟩

theorem usertrap_runs : Runs (fun _ => True) (usertrap lk) m (fun e m' => Outcome lk m e m') := by
  unfold usertrap
  rw [Runs.bind_iff, Runs.get_iff]
  split
  · trivial
  · split
    · exact devintr_runs.imp fun _ _ h => h.1
    · split
      · rw [Runs.bind_iff, runs_onKernel]
        unfold skipCall
        rw [Runs.bind_iff, runs_curr_proc, runs_onMm, Runs.modify_iff, Runs.pure_iff]
        exact .call rfl rfl rfl rfl
      · split
        · exact (exitTrap_runs (by decide)).imp fun _ _ h => h.1
        · split
          · exact (exitTrap_runs (by decide)).imp fun _ _ h => h.1
          · exact (exitTrap_runs (by decide)).imp fun _ _ h => h.1

/-! ## Interrupts of the kernel -/

/-- An interrupt of the timer or of a device in the code of the kernel takes the
processor from nobody, and leaves the whole kernel as it is. -/
theorem the_kernel_is_not_interrupted (hint : m.scause.testBit 63 = true)
    (hcause : m.scause &&& 0xff = SupervisorTimer ∨ m.scause &&& 0xff = SupervisorExternal) :
    Runs (fun _ => True) (kerneltrap lk) m (fun e m' => e = .returns ∧ m'.cpu = m.cpu) := by
  unfold kerneltrap
  rw [Runs.bind_iff, Runs.get_iff, hint]
  split
  · trivial
  · rename_i hspp
    apply devintr_runs.imp
    rintro e m' ⟨hout, hhandled⟩
    cases hhandled.kernel hspp hcause
    cases hout with
    | returns hcpu => exact ⟨rfl, hcpu⟩

/-- The handler of the disk does not stop, sees all that the device has put into
the used ring, and tells the controller so. -/
theorem the_disk_is_heard {s : Virtio.System} {A U : List Nat} {ok : Virtio.Disk → Nat → Prop}
    (h : Virtio.Coherent s A U) (hdisk : m.disk = s.disk) (hirq : m.pending = VIRTIO0_IRQ) :
    Runs (fun _ => False) (devintr lk SupervisorExternal) m (fun e m' => e = .returns ∧
      m'.cpu = m.cpu ∧
      m'.serving = 0 ∧ ∃ told, Relation.ReflTransGen (Virtio.Step ok) s
      { s with disk := m'.disk, told } ∧
        Virtio.Coherent { s with disk := m'.disk, told } A []) := by
  unfold devintr plic_claim plic_complete
  rw [if_neg (by decide), if_pos rfl, Runs.bind_iff, Runs.bind_iff, Runs.get_iff, Runs.bind_iff,
    Runs.set_iff, Runs.pure_iff, hirq, Runs.bind_iff, Runs.when_iff]
  refine ⟨fun _ => ?_, fun hc => absurd rfl hc⟩
  rw [runs_onDisk]
  dsimp only
  rw [hdisk]
  apply (h.virtio_disk_intr_runs ok).imp
  rintro _ d htold
  rw [Runs.bind_iff, Runs.when_iff]
  refine ⟨fun _ => ?_, fun hc => absurd (by decide) hc⟩
  rw [Runs.modify_iff, if_pos rfl, Runs.pure_iff]
  exact ⟨rfl, rfl, rfl, htold⟩

/-! ## Runs -/

/-- The machine once a trap is over. A process that left is not on the processor
any more, and the scheduler goes on after its slot. -/
def Machine.after (m : Machine) : Ending → Machine
  | .returns => m
  | .call => m
  | .leaves => { m with cpu := { m.cpu with runs := none, p := m.cpu.p + 1 } }

/-- A step of the scheduler or a call, a change outside of the kernel (a trap is
raised, time passes, the disk works), or a trap from the program that runs. -/
inductive TrapStep (lk : Link) : Machine → Machine → Prop
  | cpu {m : Machine} {cpu : Cpu} (h : CpuStep lk m.cpu cpu) : TrapStep lk m { m with cpu }
  | world {m m' : Machine} (hcpu : m'.cpu = m.cpu) : TrapStep lk m m'
  | trap {m m' : Machine} {e : Ending} (p : Nat) (hruns : m.cpu.runs = some p)
      (hrun : usertrap lk m = .ok (e, m')) :
      TrapStep lk m (m'.after e)

theorem Outcome.step (h : Outcome lk m e m') (hruns : m.cpu.runs = some p) :
    Relation.ReflTransGen (CpuStep lk) m.cpu (m'.after e).cpu := by
  cases h with
  | returns hcpu =>
    show Relation.ReflTransGen _ _ m'.cpu
    rw [hcpu]
  | @call _ k' hcpu hpool hcur hnext =>
    show Relation.ReflTransGen _ _ m'.cpu
    rw [hcpu]
    refine .single (.other (fun j => ?_) hcur hnext)
    rw [hpool]
    exact Scheduler.Same.refl
  | leaves call _ hrun hcpu =>
    show Relation.ReflTransGen _ _ { m'.cpu with runs := none, p := m'.cpu.p + 1 }
    rw [hcpu]
    exact .single (.leave p call hruns hrun)

theorem TrapStep.step (h : TrapStep lk m m') : Relation.ReflTransGen (CpuStep lk) m.cpu m'.cpu := by
  cases h with
  | cpu h => exact .single h
  | world hcpu => rw [hcpu]
  | trap p hruns hrun => exact (usertrap_runs.of_ok hrun).step hruns

/-- What traps do, the scheduler and the calls of the processes do: a run with
traps is a run of these. -/
theorem traps_are_calls (h : Relation.ReflTransGen (TrapStep lk) m m') :
    Relation.ReflTransGen (CpuStep lk) m.cpu m'.cpu := by
  induction h with
  | refl => exact .refl
  | tail _ hlast ih => exact ih.trans hlast.step

/-- So the table of processes stays in order through all traps. -/
theorem the_table_survives_traps (hboot : Scheduler.Boot m.cpu)
    (h : Relation.ReflTransGen (TrapStep lk) m m') :
    Scheduler.Table m'.cpu :=
  hboot.run (traps_are_calls h)

end ThuKernel.Trap
