-- The file system of fs.c: blocks, inodes, and the directory. Each function
-- stands under its name in the C code.
import ThuKernel.Fs.Bio
import ThuKernel.Lib.Str
import ThuKernel.Vm.Vm

namespace ThuKernel

/-- The in-memory copy of an inode. -/
structure inode where
  dev : Nat
  inum : Nat
  ref : Int
  valid : Bool
  type : Nat
  size : Nat
  addrs : Nat → Nat

/-- What the functions of fs.c keep: the super block, the buffer cache over
the disk, and `itable`. -/
structure Fs where
  sb : superblock
  bio : Bio
  itable : Nat → inode

/-- A function of bio.c in a function of fs.c. -/
def onBio {α : Type} (f : Prog Bio α) : Prog Fs α :=
  Prog.on Fs.bio (fun b s => { s with bio := b }) f

/-- `bp->data` -/
def bpData (bp : Nat) : Prog Fs Bytes := do
  let s ← get
  pure (s.bio.buf bp).data

def setBpData (bp : Nat) (d : Bytes) : Prog Fs Unit := onBio (modify fun s => s.setData bp d)

def getInode (ip : Nat) : Prog Fs inode := do
  let s ← get
  pure (s.itable ip)

def setInode (ip : Nat) (x : inode) : Prog Fs Unit :=
  modify fun s => { s with itable := Function.update s.itable ip x }

/-! ## The super block -/

/-- The super block is the start of block 1. -/
def readsb (dev : Nat) : Prog Fs Unit := do
  let bp ← onBio (bread dev 1)
  let d ← bpData bp
  modify fun s => { s with sb :=
    { magic := d.get32 0, size := d.get32 4, nblocks := d.get32 8, ninodes := d.get32 12
      inodestart := d.get32 16, bmapstart := d.get32 20 } }
  onBio (brelse bp)

def fsinit : Prog Fs Unit := do
  readsb ROOTDEV
  let s ← get
  if s.sb.magic ≠ FSMAGIC then Prog.panic "invalid file system" else pure ()

/-! ## Blocks -/

/-- Zero a block. -/
def bzero (dev bno : Nat) : Prog Fs Unit := do
  let bp ← onBio (bread dev bno)
  let d ← bpData bp
  setBpData bp (d.fill 0 BSIZE 0)
  onBio (bwrite bp)
  onBio (brelse bp)

/-- The inner loop of `balloc`: the first clear bit from `bi` on. -/
def firstFree (d : Bytes) (size b : Nat) : (fuel : Nat) → (bi : Nat) → Option Nat
  | 0, _ => none
  | n + 1, bi =>
    if bi < BPB ∧ b + bi < size then
      if d (bi / 8) &&& 1#8 <<< (bi % 8) = 0 then some bi else firstFree d size b n (bi + 1)
    else none

/-- The outer loop of `balloc`: one turn for each block of the free map. -/
def ballocLoop (dev : Nat) : (fuel : Nat) → (b : Nat) → Prog Fs Nat
  | 0, _ => Prog.panic "balloc: out of blocks"
  | n + 1, b => do
    let s ← get
    if b < s.sb.size then do
      let bp ← onBio (bread dev (BBLOCK b s.sb))
      let d ← bpData bp
      match firstFree d s.sb.size b BPB 0 with
      | some bi => do
        setBpData bp (d.setBit bi)
        onBio (bwrite bp)
        onBio (brelse bp)
        bzero dev (b + bi)
        pure (b + bi)
      | none => do
        onBio (brelse bp)
        ballocLoop dev n (b + BPB)
    else Prog.panic "balloc: out of blocks"

/-- Allocate a zeroed disk block. -/
def balloc (dev : Nat) : Prog Fs Nat := do
  let s ← get
  ballocLoop dev (s.sb.size / BPB + 1) 0

/-- Free a disk block. -/
def bfree (dev b : Nat) : Prog Fs Unit := do
  let s ← get
  let bp ← onBio (bread dev (BBLOCK b s.sb))
  let d ← bpData bp
  let bi := b % BPB
  if d (bi / 8) &&& 1#8 <<< (bi % 8) = 0 then Prog.panic "freeing free block"
  else do
    setBpData bp (d.clearBit bi)
    onBio (bwrite bp)
    onBio (brelse bp)

/-! ## Inodes -/

/-- The entry of `itable` for an inode, new or found. Does not read the inode
from disk. -/
def iget (dev inum : Nat) : Prog Fs Nat := do
  let s ← get
  match (List.range NINODE).find? (fun i =>
      decide (0 < (s.itable i).ref) && (s.itable i).dev == dev && (s.itable i).inum == inum) with
  | some i => do
    setInode i { s.itable i with ref := (s.itable i).ref + 1 }
    pure i
  | none =>
    -- Recycle the first entry with no reference.
    match (List.range NINODE).find? (fun i => (s.itable i).ref == 0) with
    | none => Prog.panic "iget: no inodes"
    | some i => do
      setInode i { s.itable i with dev, inum, ref := 1, valid := false }
      pure i

def iallocLoop (dev type : Nat) : (fuel : Nat) → (inum : Nat) → Prog Fs Nat
  | 0, _ => Prog.panic "ialloc: no inodes"
  | n + 1, inum => do
    let s ← get
    if inum < s.sb.ninodes then do
      let bp ← onBio (bread dev (IBLOCK inum s.sb))
      let d ← bpData bp
      if dinodeType d inum = 0 then do
        setBpData bp (freshDinode d inum type)
        onBio (bwrite bp)
        onBio (brelse bp)
        iget dev inum
      else do
        onBio (brelse bp)
        iallocLoop dev type n (inum + 1)
    else Prog.panic "ialloc: no inodes"

/-- Allocate an inode on device `dev`, with a type. -/
def ialloc (dev type : Nat) : Prog Fs Nat := do
  let s ← get
  iallocLoop dev type s.sb.ninodes 1

/-- Copy a modified in-memory inode to disk. -/
def iupdate (ip : Nat) : Prog Fs Unit := do
  let s ← get
  let x := s.itable ip
  let bp ← onBio (bread x.dev (IBLOCK x.inum s.sb))
  let d ← bpData bp
  setBpData bp (putDinode d x.inum x.type x.size x.addrs)
  onBio (bwrite bp)
  onBio (brelse bp)

def idup (ip : Nat) : Prog Fs Nat := do
  let x ← getInode ip
  setInode ip { x with ref := x.ref + 1 }
  pure ip

/-- Reads the inode from disk if necessary. -/
def ivalid (ip : Nat) : Prog Fs Unit := do
  let s ← get
  let x := s.itable ip
  if x.valid then pure ()
  else do
    let bp ← onBio (bread x.dev (IBLOCK x.inum s.sb))
    let d ← bpData bp
    onBio (brelse bp)
    let type := dinodeType d x.inum
    setInode ip { x with
      type, size := dinodeSize d x.inum, addrs := dinodeAddr d x.inum, valid := true }
    if type = 0 then Prog.panic "ivalid: no type" else pure ()

/-- Drop a reference. The branch that would free the inode stands behind
`&& 0`. -/
def iput (ip : Nat) : Prog Fs Unit := do
  let x ← getInode ip
  setInode ip { x with ref := x.ref - 1 }

/-! ## Inode content -/

/-- `if ((addr = ip->addrs[k]) == 0) ip->addrs[k] = addr = balloc(ip->dev);` -/
def bmapAddr (ip k : Nat) : Prog Fs Nat := do
  let x ← getInode ip
  if x.addrs k = 0 then do
    let addr ← balloc x.dev
    let y ← getInode ip
    setInode ip { y with addrs := Function.update y.addrs k addr }
    pure addr
  else pure (x.addrs k)

/-- The `bn`th entry of the indirect block at `addr`, allocating if necessary. -/
def bmapIndirect (ip addr bn : Nat) : Prog Fs Nat := do
  let x ← getInode ip
  let bp ← onBio (bread x.dev addr)
  let a ← bpData bp
  if indirectAt a bn = 0 then do
    let addr ← balloc x.dev
    let a ← bpData bp
    setBpData bp (setIndirect a bn addr)
    onBio (bwrite bp)
    onBio (brelse bp)
    pure addr
  else do
    onBio (brelse bp)
    pure (indirectAt a bn)

/-- The disk block address of the `bn`th block in the inode. If there is no
such block, one is allocated. -/
def bmap (ip bn : Nat) : Prog Fs Nat :=
  if bn < NDIRECT then bmapAddr ip bn
  else if bn - NDIRECT < NINDIRECT then do
    let addr ← bmapAddr ip NDIRECT
    bmapIndirect ip addr (bn - NDIRECT)
  else Prog.panic "bmap: out of range"

/-- Truncate inode (discard contents). -/
def itrunc (ip : Nat) : Prog Fs Unit := do
  Prog.forUp (fun i => do
    let x ← getInode ip
    Prog.when (x.addrs i ≠ 0) do
      bfree x.dev (x.addrs i)
      let y ← getInode ip
      setInode ip { y with addrs := Function.update y.addrs i 0 }) 0 NDIRECT
  let x ← getInode ip
  Prog.when (x.addrs NDIRECT ≠ 0) do
    let bp ← onBio (bread x.dev (x.addrs NDIRECT))
    Prog.forUp (fun j => do
      let a ← bpData bp
      Prog.when (indirectAt a j ≠ 0) (bfree x.dev (indirectAt a j))) 0 NINDIRECT
    onBio (brelse bp)
    bfree x.dev (x.addrs NDIRECT)
    let y ← getInode ip
    setInode ip { y with addrs := Function.update y.addrs NDIRECT 0 }
  let x ← getInode ip
  setInode ip { x with size := 0 }
  iupdate ip

/-- Where `readi` copies to: a user address of the current process, or a
kernel buffer, with the bytes that are in it so far. -/
inductive Dst where
  | user (mm : Mm) (pagetable va : Nat)
  | kernel (got : List Byte)

/-- Where `writei` copies from. -/
inductive Src where
  | user (mm : Mm) (pagetable va : Nat)
  | kernel (bytes : List Byte)

/-- Copies `src` to the `tot`th byte of the destination and the bytes after
it. -/
def either_copyout (dst : Dst) (tot : Nat) (src : List Byte) : Except Stop (Int × Dst) :=
  match dst with
  | .user mm pagetable va =>
    match copyout pagetable (va + tot) src mm with
    | .ok (r, mm') => .ok (r, .user mm' pagetable va)
    | .error e => .error e
  | .kernel got => .ok (0, .kernel (got ++ src))

/-- Copies `len` bytes from the `tot`th byte of the source. -/
def either_copyin (src : Src) (tot len : Nat) : Except Stop (Int × List Byte) :=
  match src with
  | .user mm pagetable va =>
    match copyin pagetable (va + tot) len mm with
    | .ok (r, _) => .ok r
    | .error e => .error e
  | .kernel bytes => .ok (0, (bytes.drop tot).take len)

/-- The loop of `readi`: `tot` bytes of `n` are copied, the next one is at
`off` in the file. -/
def readiLoop (ip n : Nat) : (fuel : Nat) → (tot off : Nat) → Dst → Prog Fs (Int × Dst)
  | 0, _, _, _ => Prog.fault "readi: more turns than bytes"
  | fuel + 1, tot, off, dst =>
    if tot < n then do
      let addr ← bmap ip (off / BSIZE)
      let x ← getInode ip
      let bp ← onBio (bread x.dev addr)
      let m := min (n - tot) (BSIZE - off % BSIZE)
      let d ← bpData bp
      let (r, dst') ← liftM (either_copyout dst tot (d.load (off % BSIZE) m))
      onBio (brelse bp)
      if r = -1 then pure (-1, dst')
      else readiLoop ip n fuel (tot + m) (off + m) dst'
    else pure (tot, dst)

/-- Read data from inode. -/
def readi (ip : Nat) (dst : Dst) (off n : Nat) : Prog Fs (Int × Dst) := do
  let x ← getInode ip
  let last := (off + n) % 2 ^ 32
  if x.size < off ∨ last < off then pure (0, dst)
  else do
    let n := if x.size < last then x.size - off else n
    readiLoop ip n (n + 1) 0 off dst

/-- The loop of `writei`. Returns `tot` and `off` as the loop leaves them. -/
def writeiLoop (ip : Nat) (src : Src) (n : Nat) :
    (fuel : Nat) → (tot off : Nat) → Prog Fs (Nat × Nat)
  | 0, _, _ => Prog.fault "writei: more turns than bytes"
  | fuel + 1, tot, off =>
    if tot < n then do
      let addr ← bmap ip (off / BSIZE)
      let x ← getInode ip
      let bp ← onBio (bread x.dev addr)
      let m := min (n - tot) (BSIZE - off % BSIZE)
      let (r, bytes) ← liftM (either_copyin src tot m)
      let d ← bpData bp
      setBpData bp (d.store (off % BSIZE) bytes)
      if r = -1 then do
        onBio (brelse bp)
        pure (tot, off)
      else do
        onBio (bwrite bp)
        onBio (brelse bp)
        writeiLoop ip src n fuel (tot + m) (off + m)
    else pure (tot, off)

/-- Write data to inode. Returns the number of bytes written, or -1. -/
def writei (ip : Nat) (src : Src) (off n : Nat) : Prog Fs Int := do
  let x ← getInode ip
  let last := (off + n) % 2 ^ 32
  if x.size < off ∨ last < off then pure (-1)
  else if MAXFILE * BSIZE < last then pure (-1)
  else do
    let (tot, off) ← writeiLoop ip src n (n + 1) 0 off
    let x ← getInode ip
    Prog.when (x.size < off) (setInode ip { x with size := off })
    -- Back to disk even if the size did not change: `bmap` may have added a
    -- block to `addrs`.
    iupdate ip
    pure tot

end ThuKernel
