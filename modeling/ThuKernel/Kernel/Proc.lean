-- The processes of proc.c, and how loader.c fills an address space.
import ThuKernel.Kernel.File

namespace ThuKernel

def USTACK_SIZE : Nat := 4096
def BASE_ADDRESS : Nat := 0x1000
def USTACK_BOTTOM : Nat := 0
def INT_MAX : Nat := 100000

/-- `sizeof(struct trapframe)`: `epc` at 24, `sp` at 48 and `a0` at 112. -/
def TRAPFRAME_REGS : Nat := 288

def getProc (i : Nat) : Prog Kernel proc := do
  let k ← get
  pure (k.pool i)

/-! ## The page table of a process -/

/-- An empty page table with the trampoline and the page `trapframe`. Returns
0 when there is no page for the tables of the trampoline. -/
def proc_pagetable (lk : Link) (trapframe : Nat) : Prog Mm Nat := do
  let pagetable ← uvmcreate
  if pagetable = 0 then Prog.panic ""
  else do
    let r ← mappages pagetable TRAMPOLINE PGSIZE lk.trampoline (PTE_R ||| PTE_X)
    if r < 0 then do
      uvmfree lk pagetable 0
      pure 0
    else do
      memset trapframe 0 TRAPFRAME_REGS
      let r ← mappages pagetable TRAPFRAME PGSIZE trapframe (PTE_R ||| PTE_W)
      if r < 0 then Prog.panic "" else pure pagetable

def proc_freepagetable (lk : Link) (pagetable sz : Nat) : Prog Mm Unit := do
  uvmunmap lk pagetable TRAMPOLINE 1 false
  uvmunmap lk pagetable TRAPFRAME 1 false
  uvmfree lk pagetable sz

/-! ## loader.c -/

def userPerm : Nat := PTE_U ||| PTE_R ||| PTE_W ||| PTE_X

/-- The `sp` of the trap frame is set to the top of the new stack. -/
def alloc_ustack (pagetable trapframe : Nat) : Prog Mm Unit := do
  let page ← kalloc
  if page = 0 then Prog.panic "can't alloc user stack"
  else do
    memset page 0 PGSIZE
    let r ← mappages pagetable USTACK_BOTTOM USTACK_SIZE page userPerm
    if r ≠ 0 then Prog.panic ""
    else if BASE_ADDRESS < USTACK_BOTTOM + USTACK_SIZE then Prog.panic "error memory_layout"
    else storePte (trapframe + 48) (USTACK_BOTTOM + USTACK_SIZE)

/-- The loop of `bin_loader`, with `n` pages to go. -/
def loadPages (pagetable : Nat) : (n : Nat) → (va pa : Nat) → Prog Mm Unit
  | 0, _, _ => pure ()
  | n + 1, va, pa => do
    let page ← kalloc
    if page = 0 then Prog.panic ""
    else do
      memmove page pa PGSIZE
      let r ← mappages pagetable va PGSIZE page userPerm
      if r ≠ 0 then Prog.panic "" else loadPages pagetable n (va + PGSIZE) (pa + PGSIZE)

/-- Fills the address space with the pages from `start` to `stop`, and a stack
below them. Returns the new size. -/
def bin_loader (start stop pagetable trapframe : Nat) : Prog Mm Nat := do
  let s := PGROUNDDOWN start
  let e := PGROUNDUP stop
  loadPages pagetable ((e - s) / PGSIZE) BASE_ADDRESS s
  storePte (trapframe + 24) BASE_ADDRESS
  alloc_ustack pagetable trapframe
  pure (USTACK_SIZE + (e - s))

/-- The number of an application. -/
def get_id_by_name (lk : Link) (name : CStr) : Option Nat :=
  (List.range lk.apps.length).find? fun i =>
    match lk.apps[i]? with
    | some app => strncmp name.read app.name.read 100 == 0
    | none => false

def loader (lk : Link) (id i : Nat) : Prog Kernel Unit := do
  match lk.apps[id]? with
  | none => Prog.fault "loader: no such application"
  | some app => do
    let p ← getProc i
    let sz ← onMm (bin_loader app.start app.stop p.pagetable p.trapframe)
    let p ← getProc i
    setProc i { p with sz, ustack := USTACK_BOTTOM }

/-! ## proc.c -/

/-- `for (i = 0; i < FD_MAX; ++i) if (p->files[i] != 0) ..` of `freeproc`. -/
def closeFiles (lk : Link) (i : Nat) : Prog Kernel Unit :=
  Prog.forUp (fun fd => do
    let p ← getProc i
    match p.files fd with
    | none => pure ()
    | some f => do
      fileclose lk f
      let p ← getProc i
      setProc i { p with files := Function.update p.files fd none }) 0 FD_MAX

def freeproc (lk : Link) (i : Nat) : Prog Kernel Unit := do
  let p ← getProc i
  Prog.when (p.pagetable ≠ 0) (onMm (proc_freepagetable lk p.pagetable p.sz))
  let p ← getProc i
  setProc i { p with pagetable := 0, state := .UNUSED }
  closeFiles lk i

/-- The first process that is in no use. -/
def freeSlot (pool : Nat → proc) : Option Nat :=
  (List.range NPROC).find? fun i => (pool i).state == .UNUSED

def allocproc (lk : Link) : Prog Kernel (Option Nat) := do
  let k ← get
  match freeSlot k.pool with
  | none => pure none
  | some i => do
    set { k with PID := k.PID + 1 }
    setProc i { k.pool i with
      pid := k.PID, state := .USED, sz := 0, exit_code := -1, parent := none, ustack := 0,
      prio := 16, pass := INT_MAX / 16 }
    let p ← getProc i
    let pagetable ← onMm (proc_pagetable lk p.trapframe)
    setProc i { p with pagetable }
    if pagetable = 0 then Prog.panic ""
    else do
      onMm (memset p.trapframe 0 PGSIZE)
      pure (some i)

/-- One turn of the loop of `fork` over the files. -/
def dupFile (i np fd : Nat) : Prog Kernel Unit := do
  let p ← getProc i
  match p.files fd with
  | none => pure ()
  | some f => do
    let x ← getFile f
    Prog.when (x.type ≠ .FD_NONE) do
      setFile f { x with ref := x.ref + 1 }
      let q ← getProc np
      setProc np { q with files := Function.update q.files fd (some f) }

/-- Copies the current process. Without a free slot, the copy is attempted
into the process itself. -/
def fork (lk : Link) : Prog Kernel Int := do
  let k ← get
  let i := k.current_proc
  let r ← allocproc lk
  let np := r.getD i
  let p ← getProc i
  let q ← getProc np
  let r ← onMm (uvmcopy lk p.pagetable q.pagetable p.sz)
  if r < 0 then pure q.pid
  else do
    setProc np { q with sz := p.sz }
    onMm (memmove q.trapframe p.trapframe TRAPFRAME_REGS)
    Prog.forUp (dupFile i np) 0 FD_MAX
    onMm (storePte (q.trapframe + 112) 0)
    let q ← getProc np
    setProc np { q with parent := some i, state := .RUNNABLE }
    pure q.pid

def exec (lk : Link) (name : CStr) : Prog Kernel Int := do
  match get_id_by_name lk name with
  | none => pure (-1)
  | some id => do
    let p ← curr_proc
    onMm (proc_freepagetable lk p.pagetable p.sz)
    let pagetable ← onMm (proc_pagetable lk p.trapframe)
    modifyCurr fun p => { p with sz := 0, pagetable }
    if pagetable = 0 then Prog.panic ""
    else do
      let k ← get
      loader lk id k.current_proc
      pure 0

def spawn (lk : Link) (name : CStr) : Prog Kernel Int := do
  let k ← get
  match ← allocproc lk with
  | none => Prog.panic "allocproc\n"
  | some np => do
    let q ← getProc np
    setProc np { q with parent := some k.current_proc, state := .RUNNABLE }
    match get_id_by_name lk name with
    | none => pure (-1)
    | some id => do
      loader lk id np
      pure q.pid

def exit (lk : Link) (code : Int) : Prog Kernel Unit := do
  modifyCurr fun p => { p with exit_code := code }
  let k ← get
  freeproc lk k.current_proc
  let p ← curr_proc
  Prog.when (p.parent.isSome) (modifyCurr fun p => { p with state := .ZOMBIE })

end ThuKernel
