-- The constants of fs.h, and where the layout of the disk puts each thing:
-- [ boot block | super block | inode blocks | free bit map | data blocks ].
import ThuKernel.Lib.Bytes

namespace ThuKernel

def NINODE : Nat := 50
def ROOTDEV : Nat := 1
def NBUF : Nat := 30
def ROOTINO : Nat := 1
def BSIZE : Nat := 1024
def FSMAGIC : Nat := 0x10203040
def NDIRECT : Nat := 12
def NINDIRECT : Nat := BSIZE / 4
def MAXFILE : Nat := NDIRECT + NINDIRECT
def T_DIR : Nat := 1
def T_FILE : Nat := 2
/-- `sizeof(struct dinode)`: `type` at 0, `pad` at 2, `size` at 8 and the
13 `addrs` from 12 on. -/
def DINODE_SIZE : Nat := 64
def IPB : Nat := BSIZE / DINODE_SIZE
def BPB : Nat := BSIZE * 8
def DIRSIZ : Nat := 14
/-- `sizeof(struct dirent)`: `inum` at 0 and `name` at 2. -/
def DIRENT_SIZE : Nat := 16

/-- The fields of the super block that the kernel reads after `fsinit`. -/
structure superblock where
  magic : Nat
  size : Nat
  nblocks : Nat
  ninodes : Nat
  inodestart : Nat
  bmapstart : Nat

/-- Block containing inode `i`. -/
def IBLOCK (i : Nat) (sb : superblock) : Nat := i / IPB + sb.inodestart

/-- Block of free map containing the bit for block `b`. -/
def BBLOCK (b : Nat) (sb : superblock) : Nat := b / BPB + sb.bmapstart

/-! ## The structures inside a block -/

/-- Offset of inode `inum` in its block. -/
def dipOff (inum : Nat) : Nat := inum % IPB * DINODE_SIZE

def dinodeType (d : Bytes) (inum : Nat) : Nat := d.get16 (dipOff inum)
def dinodeSize (d : Bytes) (inum : Nat) : Nat := d.get32 (dipOff inum + 8)
def dinodeAddr (d : Bytes) (inum k : Nat) : Nat := d.get32 (dipOff inum + 12 + 4 * k)

/-- The `j`th block number of an indirect block. -/
def indirectAt (d : Bytes) (j : Nat) : Nat := d.get32 (4 * j)

def setIndirect (d : Bytes) (j v : Nat) : Bytes := d.put32 (4 * j) v

/-- `memmove(dip->addrs, addrs, sizeof(addrs))`, the first `n` of them. -/
def putAddrs (addrs : Nat → Nat) (off : Nat) : (n : Nat) → Bytes → Bytes
  | 0, d => d
  | n + 1, d => (putAddrs addrs off n d).put32 (off + 12 + 4 * n) (addrs n)

/-- What `iupdate` stores into the block of the inode. -/
def putDinode (d : Bytes) (inum type size : Nat) (addrs : Nat → Nat) : Bytes :=
  putAddrs addrs (dipOff inum) (NDIRECT + 1)
    ((d.put16 (dipOff inum) type).put32 (dipOff inum + 8) size)

/-- `memset(dip, 0, sizeof(*dip)); dip->type = type;` -/
def freshDinode (d : Bytes) (inum type : Nat) : Bytes :=
  (d.fill (dipOff inum) DINODE_SIZE 0).put16 (dipOff inum) type

end ThuKernel
