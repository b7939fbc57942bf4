-- The directory of fs.c, a file of `struct dirent`s, and `create` of file.c.
import ThuKernel.Fs.Fs

namespace ThuKernel

/-- The bytes that `readi` left in a kernel buffer. -/
def Dst.bytes : Dst → List Byte
  | .user _ _ _ => []
  | .kernel got => got

/-- `de.inum`, of the 16 bytes of `de`. -/
def direntInum (de : List Byte) : Nat := Bytes.get16 (fun i => (de[i]?).getD 0) 0

/-- `de.name`. A read past its 14 bytes meets what lies behind `de` on the
stack. -/
def direntName (de : List Byte) (behind : Bytes) : Bytes := fun i =>
  if i < DIRSIZ then (de[i + 2]?).getD 0 else behind (i - DIRSIZ)

/-- The bytes of a `struct dirent`. -/
def direntBytes (inum : Nat) (name : List Byte) : List Byte :=
  [BitVec.ofNat 8 inum, BitVec.ofNat 8 (inum / 256)] ++ name

def dirlookupLoop (dp : Nat) (name : CStr) :
    (fuel : Nat) → (off : Nat) → Prog Fs (Option (Nat × Nat))
  | 0, _ => Prog.fault "dirlookup: past the size"
  | n + 1, off => do
    let x ← getInode dp
    if off < x.size then do
      let (r, dst) ← readi dp (.kernel []) off DIRENT_SIZE
      let de := dst.bytes
      if r ≠ DIRENT_SIZE then Prog.panic "dirlookup read"
      else if direntInum de = 0 then dirlookupLoop dp name n (off + DIRENT_SIZE)
      else if strncmp name.read (direntName de fun _ => 0) DIRSIZ = 0 then do
        -- entry matches path element
        let ip ← iget x.dev (direntInum de)
        pure (some (ip, off))
      else dirlookupLoop dp name n (off + DIRENT_SIZE)
    else pure none

/-- Look for a directory entry. If found, the inode, and the byte offset of
the entry (`*poff`). -/
def dirlookup (dp : Nat) (name : CStr) : Prog Fs (Option (Nat × Nat)) := do
  let x ← getInode dp
  if x.type ≠ T_DIR then Prog.panic "dirlookup not DIR"
  else dirlookupLoop dp name (x.size + 1) 0

/-- The first offset whose entry satisfies `stop`, with the entry, or the
offset where the loop ends, with the entry read last. -/
def dirScan (dp : Nat) (stop : List Byte → Bool) :
    (fuel : Nat) → (off : Nat) → (de : List Byte) → Prog Fs (Nat × List Byte)
  | 0, _, _ => Prog.fault "dirlink: past the size"
  | n + 1, off, de => do
    let x ← getInode dp
    if off < x.size then do
      let (r, dst) ← readi dp (.kernel []) off DIRENT_SIZE
      if r ≠ DIRENT_SIZE then Prog.panic "dirlink read"
      else if stop dst.bytes then pure (off, dst.bytes)
      else dirScan dp stop n (off + DIRENT_SIZE) dst.bytes
    else pure (off, de)

/-- `dirlink`, when the name is not present: look for an empty dirent, and
write the new one there. -/
def dirinsert (dp : Nat) (name : CStr) (inum : Nat) : Prog Fs Int := do
  let x ← getInode dp
  let (off, _) ← dirScan dp (fun de => direntInum de == 0) (x.size + 1) 0 []
  let r ← writei dp (.kernel (direntBytes inum (strncpy name.read DIRSIZ))) off DIRENT_SIZE
  if r ≠ DIRENT_SIZE then Prog.panic "dirlink" else pure 0

/-- Write a new directory entry (name, inum) into the directory. -/
def dirlink (dp : Nat) (name : CStr) (inum : Nat) : Prog Fs Int := do
  -- Check that name is not present.
  match ← dirlookup dp name with
  | some (ip, _) => do
    iput ip
    pure (-1)
  | none => dirinsert dp name inum

def root_dir : Prog Fs Nat := do
  let r ← iget ROOTDEV ROOTINO
  ivalid r
  pure r

/-- `dirunlink`, when the name is present. `behind` is what lies behind `de` on
the stack: the comparison is bounded by `strlen(name)`, not by the 14 bytes of
`de.name`. -/
def dirremove (dp : Nat) (name : CStr) (behind : Bytes) : Prog Fs Int := do
  let x ← getInode dp
  let (off, de) ← dirScan dp
    (fun de => strncmp (direntName de behind) name.read name.strlen == 0) (x.size + 1) 0 []
  let x ← getInode dp
  if off = x.size then pure (-1)
  else do
    let _ ← writei dp (.kernel (direntBytes 0 (de.drop 2))) off DIRENT_SIZE
    pure 0

def dirunlink (dp : Nat) (name : CStr) (behind : Bytes) : Prog Fs Int := do
  match ← dirlookup dp name with
  | none => pure (-1)
  | some _ => dirremove dp name behind

def namei (path : CStr) : Prog Fs (Option Nat) := do
  let dp ← root_dir
  let r ← dirlookup dp path
  pure (r.map Prod.fst)

/-- `create` of file.c. -/
def create (path : CStr) (type : Nat) : Prog Fs (Option Nat) := do
  let dp ← root_dir
  ivalid dp
  match ← dirlookup dp path with
  | some (ip, _) => do
    iput dp
    ivalid ip
    let x ← getInode ip
    if type = T_FILE ∧ x.type = T_FILE then pure (some ip)
    else do
      iput ip
      pure none
  | none => do
    let d ← getInode dp
    let ip ← ialloc d.dev type
    ivalid ip
    iupdate ip
    let x ← getInode ip
    let r ← dirlink dp path x.inum
    if r < 0 then Prog.panic "create: dirlink"
    else do
      iput dp
      pure (some ip)

end ThuKernel
