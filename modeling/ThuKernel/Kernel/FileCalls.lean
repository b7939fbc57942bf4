-- The system calls on files of syscall.c. A buffer on the kernel stack starts
-- with whatever is there, so it is a parameter.
import ThuKernel.Kernel.File

namespace ThuKernel

def KSTACK_SIZE : Nat := 4096
def PATH_SIZE : Nat := 200

/-- How a system call ends: with a result, or in a loop of pipe.c that gives
up the processor between its turns. -/
inductive Outcome where
  | ret (r : Int)
  | piperead (pi va : Nat) (n : Int)
  | pipewrite (pi va : Nat) (n : Int)
  deriving DecidableEq, Repr

/-- A 64-bit argument as an `int`. -/
def toInt (x : Nat) : Int := (BitVec.ofNat 32 x).toInt

/-! ## Reading and writing -/

/-- The characters go to the console. -/
def console_write (va len : Nat) : Prog Kernel Int := do
  let p ← curr_proc
  let (size, _) ← onMm (copyinstr p.pagetable va (min len PATH_SIZE))
  pure size

/-- `str` is what came from the console, with what lies behind it: all `len`
bytes are copied. -/
def console_read (str : Bytes) (va len : Nat) : Prog Kernel Int := do
  let p ← curr_proc
  let _ ← onMm (copyout p.pagetable va (str.load 0 len))
  pure len

def sys_write (fd : Int) (va len : Nat) : Prog Kernel Outcome :=
  if 15 < fd then pure (.ret (-1))
  else if fd ≤ 2 then .ret <$> console_write va len
  else do
    let f ← fileAt fd
    let x ← getFile f
    match x.type with
    | .FD_PIPE => pure (.pipewrite x.pipe va (toInt len))
    | .FD_INODE => .ret <$> filewrite f va len
    | .FD_NONE => Prog.panic "syswrite: unknown file type\n"

def sys_read (str : Bytes) (fd : Int) (va len : Nat) : Prog Kernel Outcome :=
  if fd = 0 then .ret <$> console_read str va len
  else do
    let f ← fileAt fd
    let x ← getFile f
    match x.type with
    | .FD_PIPE => pure (.piperead x.pipe va (toInt len))
    | .FD_INODE => .ret <$> fileread f va len
    | .FD_NONE => Prog.panic "sysread: unknown file type\n"

/-! ## Opening and closing -/

def sys_close (lk : Link) (fd : Int) : Prog Kernel Int :=
  if fd = 0 then pure 0
  else do
    let f ← fileAt fd
    fileclose lk f
    modifyCurr fun p => { p with files := Function.update p.files fd.toNat none }
    pure 0

def sys_openat (lk : Link) (path : Bytes) (va omode : Nat) : Prog Kernel Int := do
  let p ← curr_proc
  let (_, bytes) ← onMm (copyinstr p.pagetable va PATH_SIZE)
  fileopen lk (CStr.ofBytes (path.store 0 bytes) 0 PATH_SIZE) omode

/-! ## Links -/

/-- `copyin(pagetable, path, path_, DIRSIZ)` into a buffer on the stack. -/
def copyinPath (path : Bytes) (va : Nat) : Prog Kernel Bytes := do
  let p ← curr_proc
  let (_, bytes) ← onMm (copyin p.pagetable va DIRSIZ)
  pure (path.store 0 bytes)

/-- `sys_linkat`, from `root_dir` on. -/
def linkat (oldpath newpath : Bytes) : Prog Fs Int := do
  let dp ← root_dir
  if strncmp oldpath newpath DIRSIZ = 0 then pure (-1)
  else do
    match ← dirlookup dp (CStr.ofBytes oldpath 0 DIRSIZ) with
    | none => pure (-1)
    | some (ip, _) => do
      let x ← getInode ip
      let r ← dirlink dp (CStr.ofBytes newpath 0 DIRSIZ) x.inum
      if r < 0 then pure (-1) else pure 0

def sys_linkat (oldpath newpath : Bytes) (oldpath_ newpath_ : Nat) : Prog Kernel Int := do
  let oldpath ← copyinPath oldpath oldpath_
  let newpath ← copyinPath newpath newpath_
  onFs (linkat oldpath newpath)

/-- `sys_unlinkat`, from `root_dir` on. The name may run on past the 14 bytes
of `path`, to the first NUL on the stack. -/
def unlinkat (path behind : Bytes) : Prog Fs Int := do
  let name := CStr.ofBytes path 0 KSTACK_SIZE
  let dp ← root_dir
  match ← dirlookup dp name with
  | none => pure (-1)
  | some _ => do
    let r ← dirunlink dp name behind
    if r < 0 then pure (-1) else pure 0

def sys_unlinkat (path behind : Bytes) (path_ : Nat) : Prog Kernel Int := do
  let path ← copyinPath path path_
  onFs (unlinkat path behind)

/-! ## The status of a file -/

def DIR : Nat := 0x040000
def FILE : Nat := 0x100000

/-- `sizeof(struct Stat)`: `dev` at 0, `ino` at 8, `mode` at 16, `nlink` at 20
and the padding from 24 on. -/
def STAT_SIZE : Nat := 80

/-- The loop over the directory: the number of entries for `inum`. -/
def nlinkLoop (dp inum : Nat) : (fuel : Nat) → (off nlink : Nat) → Prog Fs (Option Nat)
  | 0, _, _ => Prog.fault "fstat: past the size"
  | n + 1, off, nlink => do
    let x ← getInode dp
    if off < x.size then do
      let (r, dst) ← readi dp (.kernel []) off DIRENT_SIZE
      let next := if direntInum dst.bytes = inum then nlink + 1 else nlink
      if r ≠ DIRENT_SIZE then pure none
      else nlinkLoop dp inum n (off + DIRENT_SIZE) next
    else pure (some nlink)

/-- The bytes of `sst`. The padding is not set. -/
def statBytes (sst : Bytes) (dev ino mode nlink : Nat) : List Byte :=
  ((((sst.put64 0 dev).put64 8 ino).put32 16 mode).put32 20 nlink).load 0 STAT_SIZE

/-- The file of a descriptor, for `fstat`. -/
def statInode (fd : Nat) : Prog Kernel Nat := do
  let f ← fileAt fd
  let x ← getFile f
  deref x.ip

def countLinks (dp inum : Nat) : Prog Fs (Option Nat) := do
  let x ← getInode dp
  nlinkLoop dp inum (x.size + 1) 0 0

def sys_fstat (sst : Bytes) (fd st : Nat) : Prog Kernel Int :=
  if FD_MAX ≤ fd then pure (-1)
  else do
    let dp ← onFs root_dir
    let ip ← statInode fd
    let x ← onFs (getInode ip)
    match ← onFs (countLinks dp x.inum) with
    | none => pure (-1)
    | some nlink => do
      let x ← onFs (getInode ip)
      if x.type ≠ T_DIR ∧ x.type ≠ T_FILE then pure (-1)
      else do
        let mode := if x.type = T_DIR then DIR else FILE
        let p ← curr_proc
        let r ← onMm (copyout p.pagetable st (statBytes sst x.dev x.inum mode nlink))
        if r < 0 then pure (-1) else pure 0

/-! ## The calls as one type -/

/-- A system call on files, with its arguments and with what it finds on the
kernel stack. -/
inductive FileCall where
  | openat (path : Bytes) (va omode : Nat)
  | close (fd : Int)
  | read (str : Bytes) (fd : Int) (va len : Nat)
  | write (fd : Int) (va len : Nat)
  | linkat (oldpath newpath : Bytes) (oldpath_ newpath_ : Nat)
  | unlinkat (path behind : Bytes) (path_ : Nat)
  | fstat (sst : Bytes) (fd st : Nat)

def FileCall.run (lk : Link) : FileCall → Prog Kernel Outcome
  | .openat path va omode => .ret <$> sys_openat lk path va omode
  | .close fd => .ret <$> sys_close lk fd
  | .read str fd va len => sys_read str fd va len
  | .write fd va len => sys_write fd va len
  | .linkat oldpath newpath oldpath_ newpath_ =>
    .ret <$> sys_linkat oldpath newpath oldpath_ newpath_
  | .unlinkat path behind path_ => .ret <$> sys_unlinkat path behind path_
  | .fstat sst fd st => .ret <$> sys_fstat sst fd st

/-- The calls that follow a pointer from outside of `p->files`. The others check
the descriptor. -/
def FileCall.Outside : FileCall → Prop
  | .close fd => ¬ IsFd fd
  | .read _ fd _ _ => ¬ IsFd fd
  | _ => False

end ThuKernel
