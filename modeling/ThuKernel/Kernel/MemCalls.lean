-- The system calls of syscall.c on processes and on memory.
import ThuKernel.Kernel.FileCalls
import ThuKernel.Kernel.Proc

namespace ThuKernel

/-! ## Memory -/

/-- The loop of `sys_mmap`, with `n` pages to go: the result of the last
`mappages`. The product `i*PGSIZE` is an `int`. -/
def mmapLoop (pagetable start perm : Nat) : (n i : Nat) → (mmap : Int) → Prog Mm Int
  | 0, _, mmap => pure mmap
  | n + 1, i, _ =>
    if 2 ^ 31 ≤ i * PGSIZE then Prog.fault "mmap: int overflow"
    else do
      let physical_addr ← kalloc
      let mmap ← mappages pagetable ((start + i * PGSIZE) % 2 ^ 64) PGSIZE physical_addr perm
      mmapLoop pagetable start perm n (i + 1) mmap

/-- `len` goes up to a multiple of the page size, as a 64-bit number. -/
def sys_mmap (start len port : Nat) : Prog Kernel Int :=
  if port < 1 ∨ 7 < port then pure (-1)
  else do
    let len := PGROUNDUP len
    let p ← curr_proc
    if start % 4096 ≠ 0 then pure (-1)
    else do
      let perm := port <<< 1 ||| PTE_U ||| PTE_V
      let mmap ← onMm (mmapLoop p.pagetable start perm (len / PGSIZE) 0 0)
      if mmap = 0 then pure len else pure (-1)

/-- The first loop of `sys_munmap`: whether every page is mapped. -/
def munmapLoop (pagetable stop : Nat) : (fuel : Nat) → (a : Nat) → Prog Mm Bool
  | 0, _ => Prog.fault "munmap: past the last address"
  | n + 1, a =>
    if a < stop then do
      match ← walk pagetable a false with
      | none => Prog.fault "null pointer"
      | some pte => do
        let s ← get
        if (s.mem.get64 pte).testBit 0 = false then pure false
        else munmapLoop pagetable stop n (a + PGSIZE)
    else pure true

def sys_munmap (lk : Link) (start len : Nat) : Prog Kernel Int :=
  if start % 4096 ≠ 0 then pure (-1)
  else do
    let len := PGROUNDUP len
    let p ← curr_proc
    let stop := (start + len / PGSIZE * PGSIZE) % 2 ^ 64
    let mapped ← onMm (munmapLoop p.pagetable stop (MAXVA / PGSIZE + 1) start)
    if mapped = false then pure (-1)
    else do
      onMm (uvmunmap lk p.pagetable start (len / PGSIZE) true)
      pure len

/-! ## Processes -/

/-- A name of at most 200 bytes on the stack. -/
def copyinName (name : Bytes) (va : Nat) : Prog Kernel CStr := do
  let p ← curr_proc
  let (_, bytes) ← onMm (copyinstr p.pagetable va PATH_SIZE)
  pure (CStr.ofBytes (name.store 0 bytes) 0 PATH_SIZE)

def sys_clone (lk : Link) : Prog Kernel Int := fork lk

def sys_exec (lk : Link) (name : Bytes) (va : Nat) : Prog Kernel Int := do
  let name ← copyinName name va
  exec lk name

def sys_spawn (lk : Link) (name : Bytes) (va : Nat) : Prog Kernel Int := do
  let name ← copyinName name va
  spawn lk name

def sys_exit (lk : Link) (code : Int) : Prog Kernel Int := do
  exit lk code
  pure 0

/-! ## Pipes -/

/-- The 8 bytes of a `uint64`. -/
def u64Bytes (x : Nat) : List Byte := (Bytes.put64 (fun _ => 0) 0 x).load 0 8

/-- `p->files[fd] = 0`. The entry -1 is the exit code, the field before the array. -/
def clearFd (fd : Option Nat) : Prog Kernel Unit :=
  match fd with
  | some i => modifyCurr fun p => { p with files := Function.update p.files i none }
  | none => modifyCurr fun p => { p with exit_code := 0 }

/-- A descriptor that `fdalloc` did not find is -1. -/
def fdValue (fd : Option Nat) : Nat := fd.getD (2 ^ 64 - 1)

def sys_pipe (lk : Link) (fdarray : Nat) : Prog Kernel Int := do
  let f0 ← filealloc
  let f1 ← filealloc
  let r ← pipealloc f0 f1
  if r < 0 then pure (-1)
  else do
    let f0 ← deref f0
    let f1 ← deref f1
    let fd0 ← fdalloc f0
    let fd1 ← fdalloc f1
    let p ← curr_proc
    let r0 ← onMm (copyout p.pagetable fdarray (u64Bytes (fdValue fd0)))
    let r1 ← if r0 < 0 then pure (-1)
      else onMm (copyout p.pagetable (fdarray + 8) (u64Bytes (fdValue fd1)))
    if r1 < 0 then do
      fileclose lk f0
      fileclose lk f1
      clearFd fd0
      clearFd fd1
      pure (-1)
    else pure 0

/-- `sys_pipe` with a page and without two free files, up to the store through a
null pointer, which ends the process. The first file may be an end by then. -/
def pipeTrap : Prog Kernel Unit := do
  let f0 ← filealloc
  let f1 ← filealloc
  let pi ← onMm kalloc
  if pi = 0 then Prog.fault "pipe: no page"
  else do
    onMm (memset pi 0 PGSIZE)
    setPipe pi { data := fun _ => 0, nread := 0, nwrite := 0, readopen := true, writeopen := true }
    match f0, f1 with
    | none, _ => pure ()
    | some f0, none => do
      let x ← getFile f0
      setFile f0 { x with type := .FD_PIPE, readable := true, writable := false, pipe := pi }
    | some _, some _ => Prog.fault "pipe: two files"

end ThuKernel
