-- The open files of file.c, and how a pipe is made and closed.
import ThuKernel.Kernel.State

namespace ThuKernel

/-! ## fcntl.h -/

def O_WRONLY : Nat := 0x001
def O_RDWR : Nat := 0x002
def O_CREATE : Nat := 0x200
def O_TRUNC : Nat := 0x400

/-- `omode & flag` -/
def hasFlag (omode flag : Nat) : Bool := omode &&& flag != 0

/-! ## pipe.c -/

def pipeclose (lk : Link) (pi : Nat) (writable : Bool) : Prog Kernel Unit := do
  let x ← getPipe pi
  let y := if writable then { x with writeopen := false } else { x with readopen := false }
  setPipe pi y
  Prog.when (y.readopen = false ∧ y.writeopen = false) (onMm (kfree lk pi))

/-- The files are null when `filealloc` found none. -/
def pipealloc (f0 f1 : Option Nat) : Prog Kernel Int := do
  let pi ← onMm kalloc
  if pi = 0 then pure (-1)
  else do
    onMm (memset pi 0 PGSIZE)
    setPipe pi { data := fun _ => 0, nread := 0, nwrite := 0, readopen := true, writeopen := true }
    let f0 ← deref f0
    let x ← getFile f0
    setFile f0 { x with type := .FD_PIPE, readable := true, writable := false, pipe := pi }
    let f1 ← deref f1
    let x ← getFile f1
    setFile f1 { x with type := .FD_PIPE, readable := false, writable := true, pipe := pi }
    pure 0

/-! ## file.c -/

/-- What `fileclose` does for the last reference. -/
def closeLast (lk : Link) (x : file) : Prog Kernel Unit :=
  match x.type with
  | .FD_PIPE => pipeclose lk x.pipe x.writable
  | .FD_INODE => do
    let ip ← deref x.ip
    onFs (iput ip)
  | .FD_NONE => pure ()

def fileclose (lk : Link) (f : Nat) : Prog Kernel Unit := do
  let x ← getFile f
  if x.ref < 1 then Prog.panic "fileclose"
  else do
    setFile f { x with ref := x.ref - 1 }
    Prog.when (¬ 0 < x.ref - 1) do
      closeLast lk x
      let y ← getFile f
      setFile f
        { y with off := 0, readable := false, writable := false, ref := 0, type := .FD_NONE }

/-- The first file that is in no use. -/
@[irreducible] def freeFile (filepool : Nat → file) : Option Nat :=
  (List.range FILE_MAX).find? fun i => (filepool i).ref == 0

def filealloc : Prog Kernel (Option Nat) := do
  let k ← get
  match freeFile k.filepool with
  | none => pure none
  | some i => do
    setFile i { k.filepool i with ref := 1 }
    pure (some i)

/-- The first descriptor from 3 on that is in no use. -/
def fdalloc (f : Nat) : Prog Kernel (Option Nat) := do
  let p ← curr_proc
  match ((List.range FD_MAX).drop 3).find? (fun i => (p.files i).isNone) with
  | none => pure none
  | some i => do
    modifyCurr fun p => { p with files := Function.update p.files i (some f) }
    pure (some i)

/-- The inode that `fileopen` opens, or none. -/
def openInode (path : CStr) (omode : Nat) : Prog Fs (Option Nat) :=
  if hasFlag omode O_CREATE then create path T_FILE
  else do
    match ← namei path with
    | none => pure none
    | some ip => do
      ivalid ip
      pure (some ip)

/-- `(f = filealloc()) == 0 || (fd = fdalloc(f)) < 0`, and what is undone then. -/
def openFile (lk : Link) : Prog Kernel (Option (Nat × Nat)) := do
  match ← filealloc with
  | none => pure none
  | some f => do
    match ← fdalloc f with
    | none => do
      fileclose lk f
      pure none
    | some fd => pure (some (f, fd))

def fileopen (lk : Link) (path : CStr) (omode : Nat) : Prog Kernel Int := do
  match ← onFs (openInode path omode) with
  | none => pure (-1)
  | some ip => do
    let x ← onFs (getInode ip)
    if x.type ≠ T_FILE then Prog.panic "unsupported file inode type\n"
    else do
      match ← openFile lk with
      | none => do
        onFs (iput ip)
        pure (-1)
      | some (f, fd) => do
        let y ← getFile f
        setFile f { y with
          type := .FD_INODE, off := 0, ip := some ip
          readable := !hasFlag omode O_WRONLY
          writable := hasFlag omode O_WRONLY || hasFlag omode O_RDWR }
        let x ← onFs (getInode ip)
        Prog.when (hasFlag omode O_TRUNC ∧ x.type = T_FILE) (onFs (itrunc ip))
        pure (fd : Int)

/-- `f->off += r`, on 32-bit numbers. -/
def advance (f : Nat) (r : Int) : Prog Kernel Unit :=
  Prog.when (0 < r) do
    let x ← getFile f
    setFile f { x with off := (x.off + r.toNat) % 2 ^ 32 }

def filewrite (f va len : Nat) : Prog Kernel Int := do
  let x ← getFile f
  let ip ← deref x.ip
  onFs (ivalid ip)
  let k ← get
  let p ← curr_proc
  let r ← onFs (writei ip (.user k.mm p.pagetable va) x.off (len % 2 ^ 32))
  advance f r
  pure r

/-- Puts the memory back that a copy to the user left. -/
def putDst (dst : Dst) : Prog Kernel Unit :=
  match dst with
  | .user mm _ _ => modify fun k => { k with mm := mm }
  | .kernel _ => pure ()

def fileread (f va len : Nat) : Prog Kernel Int := do
  let x ← getFile f
  let ip ← deref x.ip
  onFs (ivalid ip)
  let k ← get
  let p ← curr_proc
  let (r, dst) ← onFs (readi ip (.user k.mm p.pagetable va) x.off (len % 2 ^ 32))
  putDst dst
  advance f r
  pure r

end ThuKernel
