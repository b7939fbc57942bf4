-- The state of the kernel: the memory, the file system, the open files and
-- pipes, and the table of processes.
import ThuKernel.Fs.Dir

namespace ThuKernel

def NPROC : Nat := 256
def FD_MAX : Nat := 16
def FILE_MAX : Nat := 128 * 16
def PIPESIZE : Nat := 512

inductive filetype where
  | FD_NONE
  | FD_PIPE
  | FD_INODE
  deriving DecidableEq, Repr

/-- An open file. `pipe` is the page of the pipe, `ip` an entry of `itable`. -/
structure file where
  type : filetype
  ref : Int
  readable : Bool
  writable : Bool
  pipe : Nat
  ip : Option Nat
  off : Nat

/-- The contents of the page of a pipe. The two counters are 32-bit numbers. -/
structure pipe where
  data : Bytes
  nread : Nat
  nwrite : Nat
  readopen : Bool
  writeopen : Bool

inductive procstate where
  | UNUSED
  | USED
  | SLEEPING
  | RUNNABLE
  | RUNNING
  | ZOMBIE
  deriving DecidableEq, Repr

/-- The mails of a process: a ring of 17 slots, with the length of each. -/
structure Mailbox where
  head : Nat
  tail : Nat
  len : Nat → Int
  mails : Nat → Bytes

/-- The mailbox of a slot that was never used. -/
def Mailbox.zero : Mailbox := ⟨0, 0, fun _ => 0, fun _ _ => 0⟩

/-- A process. `parent` is an index of `pool`, `files` are indices of
`filepool`, and `trapframe` is the page of the saved registers. -/
structure proc where
  state : procstate
  pid : Nat
  pagetable : Nat
  ustack : Nat
  trapframe : Nat
  sz : Nat
  parent : Option Nat
  exit_code : Int
  files : Nat → Option Nat
  mailbox : Mailbox
  prio : Nat
  pass : Nat

/-- The state of the kernel. A pipe is kept under the address of its page. -/
structure Kernel where
  mm : Mm
  fs : Fs
  filepool : Nat → file
  pipes : Nat → pipe
  pool : Nat → proc
  current_proc : Nat
  PID : Nat

/-- The kernel with process `p` on the processor. -/
def Kernel.switch (k : Kernel) (p : Nat) : Kernel := { k with current_proc := p }

variable {α : Type}

/-! ## Access to the parts -/

def onMm (f : Prog Mm α) : Prog Kernel α := Prog.on Kernel.mm (fun m k => { k with mm := m }) f

def onFs (f : Prog Fs α) : Prog Kernel α := Prog.on Kernel.fs (fun s k => { k with fs := s }) f

def curr_proc : Prog Kernel proc := do
  let k ← get
  pure (k.pool k.current_proc)

def setProc (i : Nat) (p : proc) : Prog Kernel Unit :=
  modify fun k => { k with pool := Function.update k.pool i p }

/-- A change of the process that runs. -/
def modifyCurr (f : proc → proc) : Prog Kernel Unit :=
  modify fun k =>
    { k with pool := Function.update k.pool k.current_proc (f (k.pool k.current_proc)) }

def getFile (f : Nat) : Prog Kernel file := do
  let k ← get
  pure (k.filepool f)

def setFile (f : Nat) (x : file) : Prog Kernel Unit :=
  modify fun k => { k with filepool := Function.update k.filepool f x }

def getPipe (pi : Nat) : Prog Kernel pipe := do
  let k ← get
  pure (k.pipes pi)

def setPipe (pi : Nat) (x : pipe) : Prog Kernel Unit :=
  modify fun k => { k with pipes := Function.update k.pipes pi x }

/-- A pointer that the code follows without a check. -/
def deref (x : Option Nat) : Prog Kernel Nat :=
  match x with
  | some i => pure i
  | none => Prog.fault "null pointer"

/-- An index of `p->files`. -/
def IsFd (fd : Int) : Prop := 0 ≤ fd ∧ fd < FD_MAX

/-- `p->files[fd]`. The code does not check that `fd` is an index: with another
one it goes on with what it finds around the array. The model stops there, and
in a run such a call may do anything. -/
def fileAt (fd : Int) : Prog Kernel Nat := do
  if 0 ≤ fd ∧ fd < FD_MAX then do
    let p ← curr_proc
    deref (p.files fd.toNat)
  else Prog.fault "files: out of range"

end ThuKernel
