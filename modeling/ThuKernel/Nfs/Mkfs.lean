-- mkfs (nfs/fs.c): it writes the image of the disk for the files that it is given, with
-- the free map last.
import ThuKernel.Fs.Dir

namespace ThuKernel

namespace Mkfs

def FSSIZE : Nat := 1000
def NINODES : Nat := 200
def nbitmap : Nat := FSSIZE / (BSIZE * 8) + 1
def ninodeblocks : Nat := NINODES / IPB + 1
/-- Number of meta blocks (boot, sb, inode, bitmap). -/
def nmeta : Nat := 2 + ninodeblocks + nbitmap
def nblocks : Nat := FSSIZE - nmeta

/-- Convert to intel byte order: the number itself, on a host with that order. -/
def xshort (x : Nat) : Nat := x % 2 ^ 16
def xint (x : Nat) : Nat := x % 2 ^ 32

def sb : superblock where
  magic := FSMAGIC
  size := xint FSSIZE
  nblocks := xint nblocks
  ninodes := xint NINODES
  inodestart := xint 2
  bmapstart := xint (2 + ninodeblocks)

/-- The image file `fsfd` with its length in blocks, and the two counters. -/
structure State where
  disk : Nat → Bytes
  length : Nat
  freeinode : Nat
  freeblock : Nat

/-! ## Sectors and inodes -/

def wsect (sec : Nat) (buf : Bytes) : Prog State Unit :=
  modify fun s =>
    { s with disk := Function.update s.disk sec buf, length := max s.length (sec + 1) }

/-- A read past the end of the file is short: `perror("read"); exit(1);` -/
def rsect (sec : Nat) : Prog State Bytes := do
  let s ← get
  if sec < s.length then pure (s.disk sec) else Prog.panic "read"

/-- The `struct dinode` of the inode, by its 64 bytes. -/
def rinode (inum : Nat) : Prog State Bytes := do
  let buf ← rsect (IBLOCK inum sb)
  pure fun o => buf (dipOff inum + o)

def winode (inum : Nat) (din : Bytes) : Prog State Unit := do
  let buf ← rsect (IBLOCK inum sb)
  wsect (IBLOCK inum sb) (buf.store (dipOff inum) (din.load 0 DINODE_SIZE))

def dinSize (din : Bytes) : Nat := din.get32 8
def setDinSize (din : Bytes) (v : Nat) : Bytes := din.put32 8 v
def dinAddr (din : Bytes) (k : Nat) : Nat := din.get32 (12 + 4 * k)
def setDinAddr (din : Bytes) (k v : Nat) : Bytes := din.put32 (12 + 4 * k) v

def ialloc (type : Nat) : Prog State Nat := do
  let s ← get
  set { s with freeinode := s.freeinode + 1 }
  let din : Bytes := fun _ => 0
  winode s.freeinode (setDinSize (din.put16 0 (xshort type)) (xint 0))
  pure s.freeinode

/-! ## The free map -/

/-- The map after `n` turns of the loop of `balloc`. -/
def bitmap : (n : Nat) → Bytes
  | 0 => fun _ => 0
  | n + 1 => (bitmap n).setBit n

def balloc (used : Nat) : Prog State Unit := do
  if used < BSIZE * 8 then wsect sb.bmapstart (bitmap used) else Prog.panic "assert"

/-! ## Appending to a file -/

/-- `freeblock++` -/
def newBlock : Prog State Nat := do
  let s ← get
  set { s with freeblock := s.freeblock + 1 }
  pure s.freeblock

/-- `if (xint(din.addrs[k]) == 0) din.addrs[k] = xint(freeblock++);` -/
def dinBlock (din : Bytes) (k : Nat) : Prog State Bytes := do
  if xint (dinAddr din k) = 0 then do
    let b ← newBlock
    pure (setDinAddr din k (xint b))
  else pure din

/-- The block at place `j` of the indirect block `a`. -/
def indirectBlock (a j : Nat) : Prog State Nat := do
  let indirect ← rsect a
  if indirectAt indirect j = 0 then do
    let b ← newBlock
    wsect a (setIndirect indirect j (xint b))
    pure (xint (indirectAt (setIndirect indirect j (xint b)) j))
  else pure (xint (indirectAt indirect j))

/-- The block `fbn` of the file, and the inode with it. -/
def fileBlock (din : Bytes) (fbn : Nat) : Prog State (Nat × Bytes) := do
  if fbn < NDIRECT then do
    let din ← dinBlock din fbn
    pure (xint (dinAddr din fbn), din)
  else do
    let din ← dinBlock din NDIRECT
    let x ← indirectBlock (xint (dinAddr din NDIRECT)) (fbn - NDIRECT)
    pure (x, din)

def iappendLoop : (fuel : Nat) → (p : List Byte) → (off : Nat) → (din : Bytes) →
    Prog State (Nat × Bytes)
  | 0, _, _, _ => Prog.fault "iappend: no end"
  | fuel + 1, p, off, din =>
    if 0 < p.length then
      if off / BSIZE < MAXFILE then do
        let (x, din) ← fileBlock din (off / BSIZE)
        let n1 := min p.length ((off / BSIZE + 1) * BSIZE - off)
        let buf ← rsect x
        wsect x (buf.store (off - off / BSIZE * BSIZE) (p.take n1))
        iappendLoop fuel (p.drop n1) (off + n1) din
      else Prog.panic "assert"
    else pure (off, din)

def iappend (inum : Nat) (p : List Byte) : Prog State Unit := do
  let din ← rinode inum
  let (off, din) ← iappendLoop (p.length + 1) p (xint (dinSize din)) din
  winode inum (setDinSize din (xint off))

/-! ## The files of the host -/

/-- A file that mkfs is given: its path, and what each `read` gives until the end of the
file, when the file can be opened. -/
structure HostFile where
  path : CStr
  reads : Option (List (List Byte))
  sizes : ∀ l, reads = some l → ∀ cc ∈ l, 0 < cc.length ∧ cc.length ≤ BSIZE

/-- "target/" -/
def target : List Byte := [0x74, 0x61, 0x72, 0x67, 0x65, 0x74, 0x2f]

/-- The path without "target/". -/
def shortname (path : CStr) : CStr :=
  if strncmp path.read (fun i => (target[i]?).getD 0) 7 = 0 then
    ⟨path.bytes.drop 7, fun b hb => path.nonzero b (List.mem_of_mem_drop hb)⟩
  else path

/-- `index(name, '/') == 0` -/
def noSlash (name : CStr) : Bool := name.bytes.all (· ≠ 0x2f)

def appendAll (inum : Nat) : List (List Byte) → Prog State Unit
  | [] => pure ()
  | cc :: reads => do
    iappend inum cc
    appendAll inum reads

/-- A turn of the loop over the files. -/
def addFile (rootino : Nat) (f : HostFile) : Prog State Unit := do
  if noSlash (shortname f.path) = false then Prog.panic "assert"
  else
    match f.reads with
    | none => Prog.panic "open"
    | some reads => do
      let inum ← ialloc T_FILE
      iappend rootino (direntBytes (xshort inum) (strncpy (shortname f.path).read DIRSIZ))
      appendAll inum reads

def addFiles (rootino : Nat) : List HostFile → Prog State Unit
  | [] => pure ()
  | f :: files => do
    addFile rootino f
    addFiles rootino files

/-- Fix size of root inode dir. -/
def fixRoot (rootino : Nat) : Prog State Unit := do
  let din ← rinode rootino
  let off := xint (dinSize din)
  winode rootino (setDinSize din (xint ((off / BSIZE + 1) * BSIZE)))

/-- The super block, in a block of zeros. -/
def sbBlock : Bytes :=
  let buf : Bytes := fun _ => 0
  (((((buf.put32 0 sb.magic).put32 4 sb.size).put32 8 sb.nblocks).put32 12 sb.ninodes).put32 16
  sb.inodestart).put32 20
    sb.bmapstart

/-- The empty file that `main` opens. -/
def opened : State := ⟨fun _ _ => 0, 0, 1, 0⟩

/-- `for (i = 0; i < n; i++) wsect(i, zeroes);` -/
@[irreducible] def wzeroes (n : Nat) : Prog State Unit :=
  Prog.forUp (fun i => wsect i fun _ => 0) 0 n

def main (files : List HostFile) : Prog State Unit := do
  modify fun s => { s with freeblock := nmeta }
  wzeroes FSSIZE
  wsect 1 sbBlock
  let rootino ← ialloc T_DIR
  addFiles rootino files
  fixRoot rootino
  let s ← get
  balloc s.freeblock

end Mkfs

end ThuKernel
