-- The file system as a whole: the inodes as the kernel sees them, the blocks that
-- they refer to, and the block invariant.
import ThuKernel.Fs.FsRules
import ThuKernel.Fs.Refs
import ThuKernel.Lib.Owned

namespace ThuKernel

/-! ## Layout -/

/-- The first data block. -/
def nmeta (sb : superblock) : Nat := sb.bmapstart + sb.size / BPB + 1

/-- The inode blocks, the free map and the data blocks follow each other. -/
structure SbOk (sb : superblock) : Prop where
  inodes : sb.inodestart + sb.ninodes / IPB < sb.bmapstart
  data : nmeta sb ≤ sb.size
  small : sb.size ≤ 2 ^ 32

variable {sb : superblock} {s s' : Fs} {inum i k b : Nat} {d d' : Bytes}

theorem IBLOCK_lt (h : SbOk sb) (hi : inum < sb.ninodes) : IBLOCK inum sb < sb.bmapstart := by
  have h1 := h.inodes
  have h2 : inum / IPB ≤ sb.ninodes / IPB := Nat.div_le_div_right (Nat.le_of_lt hi)
  unfold IBLOCK
  omega

theorem le_BBLOCK : sb.bmapstart ≤ BBLOCK b sb := Nat.le_add_left _ _

theorem nmeta_pos : 0 < nmeta sb := Nat.succ_pos _

theorem bmapstart_le : sb.bmapstart ≤ nmeta sb := by
  have h := Nat.zero_le (sb.size / BPB)
  unfold nmeta
  omega

theorem BBLOCK_lt (hb : b < sb.size) : BBLOCK b sb < nmeta sb := by
  have h1 : b / BPB ≤ sb.size / BPB := Nat.div_le_div_right (Nat.le_of_lt hb)
  unfold BBLOCK nmeta
  omega

/-! ## Inodes -/

/-- What an inode says of a file. -/
@[ext] structure Ino where
  type : Nat
  size : Nat
  addrs : Nat → Nat

/-- The 13 block numbers, and 0 behind them. -/
def addrsOf (addrs : Nat → Nat) : Nat → Nat := fun k => if k ≤ NDIRECT then addrs k else 0

/-- The inode in an entry of the table. -/
def inode.ino (x : inode) : Ino := ⟨x.type, x.size, addrsOf x.addrs⟩

/-- The inode in a block. -/
def dinode (d : Bytes) (inum : Nat) : Ino :=
  ⟨dinodeType d inum, dinodeSize d inum, addrsOf (dinodeAddr d inum)⟩

/-- The entry of `itable` that has the inode, when one has. -/
def entryOf (s : Fs) (inum : Nat) : Option Nat :=
  (List.range NINODE).find? fun i => decide (0 < (s.itable i).ref) && (s.itable i).valid &&
    (s.itable i).inum == inum

/-- The inode: the entry if there is one, and the disk if not. -/
def inoOf (s : Fs) (inum : Nat) : Ino :=
  match entryOf s inum with
  | some i => (s.itable i).ino
  | none => dinode (s.bio.disk (IBLOCK inum s.sb)) inum

/-- The number of an inode in use. -/
def IsInode (s : Fs) (inum : Nat) : Prop := 0 < inum ∧ inum < s.sb.ninodes ∧ (inoOf s inum).type ≠ 0

instance (s : Fs) (inum : Nat) : Decidable (IsInode s inum) :=
  inferInstanceAs (Decidable (_ ∧ _ ∧ _))

/-! ## Blocks -/

/-- The places for block numbers: 12 direct ones, the one of the indirect block,
and the 256 in that block. -/
def SLOTS : Nat := NDIRECT + 1 + NINDIRECT

/-- The block number at a place of an inode. -/
def refAt (disk : Nat → Bytes) (x : Ino) (k : Nat) : Nat :=
  if k ≤ NDIRECT then x.addrs k
  else if x.addrs NDIRECT = 0 then 0
  else indirectAt (disk (x.addrs NDIRECT)) (k - (NDIRECT + 1))

def refOf (s : Fs) (inum k : Nat) : Nat := refAt s.bio.disk (inoOf s inum) k

/-- The indirect block. -/
def indOf (s : Fs) (inum : Nat) : Nat := (inoOf s inum).addrs NDIRECT

/-- The block is marked in the free map. -/
def used (s : Fs) (b : Nat) : Bool := (s.bio.disk (BBLOCK b s.sb)).bit (b % BPB)

/-- All places of all inodes in use. -/
def place (s : Fs) (p : Nat × Nat) : Nat :=
  if IsInode s p.1 ∧ p.2 < SLOTS then refOf s p.1 p.2 else 0

/-- The place of the `bn`th block of a file. -/
def slotOf (bn : Nat) : Nat := if bn < NDIRECT then bn else bn + 1

/-- The `bn`th block of a file. -/
def blkOf (s : Fs) (inum bn : Nat) : Nat := refOf s inum (slotOf bn)

/-- A block with metadata: one before the data blocks, or an indirect block. -/
def MetaBlock (s : Fs) (b : Nat) : Prop :=
  b < nmeta s.sb ∨ ∃ inum, IsInode s inum ∧ indOf s inum ≠ 0 ∧ indOf s inum = b

/-! ## The invariant -/

/-- The entries of `itable` in use are for different inodes of the one disk. -/
structure TableOk (s : Fs) : Prop where
  distinct : Distinct s
  dev : ∀ i < NINODE, 0 < (s.itable i).ref → (s.itable i).dev = ROOTDEV

/-- The block invariant. Each block number in an inode is a data block that is
marked, and stands at one place, and each data block that is marked stands at one.
A file has all its blocks. The cache holds the metadata as on the disk. -/
structure FsOk (s : Fs) : Prop where
  cache : CacheOk s.bio
  room : Room2 s.bio
  layout : SbOk s.sb
  table : TableOk s
  clean : ∀ b, MetaBlock s b → Clean s.bio b
  metaUsed : ∀ b < nmeta s.sb, used s b = true
  owned : Owned (nmeta s.sb) s.sb.size (used s) (place s)
  fits : ∀ inum, IsInode s inum → (inoOf s inum).type < 2 ^ 16 ∧
    (inoOf s inum).size ≤ MAXFILE * BSIZE
  full : ∀ inum, IsInode s inum → ∀ bn, bn * BSIZE < (inoOf s inum).size → blkOf s inum bn ≠ 0

/-- Entry `ip` has the inode `inum`, read from the disk. -/
structure Entry (s : Fs) (ip inum : Nat) : Prop where
  lt : ip < NINODE
  ref : 0 < (s.itable ip).ref
  valid : (s.itable ip).valid = true
  dev : (s.itable ip).dev = ROOTDEV
  num : (s.itable ip).inum = inum
  ino : IsInode s inum

/-! ## Reading the definitions -/

theorem entryOf_some (h : entryOf s inum = some i) :
    i < NINODE ∧ 0 < (s.itable i).ref ∧ (s.itable i).valid = true ∧ (s.itable i).inum = inum := by
  have hlt := List.mem_range.mp (List.mem_of_find?_eq_some h)
  have hp := List.find?_some h
  simp only [Bool.and_eq_true, decide_eq_true_iff, beq_iff_eq] at hp
  exact ⟨hlt, hp.1.1, hp.1.2, hp.2⟩

theorem entryOf_eq (h : TableOk s) (hi : i < NINODE) (href : 0 < (s.itable i).ref)
    (hv : (s.itable i).valid = true) : entryOf s (s.itable i).inum = some i := by
  cases hfind : entryOf s (s.itable i).inum with
  | none =>
    have := List.find?_eq_none.mp hfind i (List.mem_range.mpr hi)
    simp [href, hv] at this
  | some j =>
    obtain ⟨hj, hjref, hjv, hjinum⟩ := entryOf_some hfind
    rw [h.distinct j hj i hi hjref href ((h.dev j hj hjref).trans (h.dev i hi href).symm) hjinum]

theorem Entry.entryOf (h : Entry s ip inum) (ht : TableOk s) : entryOf s inum = some ip := by
  have := entryOf_eq ht h.lt h.ref h.valid
  rwa [h.num] at this

theorem Entry.inoOf (h : Entry s ip inum) (ht : TableOk s) : inoOf s inum = (s.itable ip).ino := by
  unfold ThuKernel.inoOf
  rw [h.entryOf ht]

theorem addrsOf_of_le {addrs : Nat → Nat} (hk : k ≤ NDIRECT) : addrsOf addrs k = addrs k :=
  if_pos hk

theorem Entry.addrs (h : Entry s ip inum) (ht : TableOk s) (hk : k ≤ NDIRECT) :
    (s.itable ip).addrs k = (ThuKernel.inoOf s inum).addrs k := by
  rw [h.inoOf ht]
  exact (addrsOf_of_le hk).symm

theorem refOf_of_le (hk : k ≤ NDIRECT) : refOf s inum k = (inoOf s inum).addrs k := if_pos hk

theorem refOf_ind : refOf s inum NDIRECT = indOf s inum := refOf_of_le (Nat.le_refl _)

theorem refOf_of_ind (hk : NDIRECT < k) (h : indOf s inum ≠ 0) :
    refOf s inum k = indirectAt (s.bio.disk (indOf s inum)) (k - (NDIRECT + 1)) := by
  unfold refOf refAt indOf at *
  rw [if_neg (by omega), if_neg h]

theorem refOf_of_no_ind (hk : NDIRECT < k) (h : indOf s inum = 0) : refOf s inum k = 0 := by
  unfold refOf refAt indOf at *
  rw [if_neg (by omega), if_pos h]

theorem place_of (hi : IsInode s inum) (hk : k < SLOTS) : place s (inum, k) = refOf s inum k :=
  if_pos ⟨hi, hk⟩

theorem slotOf_lt {bn : Nat} (h : bn < MAXFILE) : slotOf bn < SLOTS := by
  unfold slotOf SLOTS
  unfold MAXFILE at h
  split
  · omega
  · omega

theorem slotOf_inj {bn bn' : Nat} (h : slotOf bn = slotOf bn') : bn = bn' := by
  unfold slotOf at h
  split at h
  · split at h
    · exact h
    · omega
  · split at h
    · omega
    · omega

theorem slotOf_ne_ind (bn : Nat) : slotOf bn ≠ NDIRECT := by
  unfold slotOf
  split
  · omega
  · omega

/-! ## The bytes of an inode -/

/-- Two inodes of a block are apart. -/
theorem dipOff_apart {inum' : Nat} (hne : inum ≠ inum')
    (hblock : IBLOCK inum sb = IBLOCK inum' sb) :
    dipOff inum + DINODE_SIZE ≤ dipOff inum' ∨ dipOff inum' + DINODE_SIZE ≤ dipOff inum := by
  unfold IBLOCK at hblock
  have hdiv : inum / IPB = inum' / IPB := by omega
  have h1 := Nat.div_add_mod inum IPB
  have h2 := Nat.div_add_mod inum' IPB
  have hmod : inum % IPB ≠ inum' % IPB := by
    intro hc
    apply hne
    rw [← h1, ← h2, hdiv, hc]
  unfold dipOff DINODE_SIZE
  omega

/-- An inode is the 64 bytes at its offset. -/
theorem dinode_congr (h : ∀ o < DINODE_SIZE, d (dipOff inum + o) = d' (dipOff inum + o)) :
    dinode d inum = dinode d' inum := by
  have hget : ∀ n o, o + n ≤ DINODE_SIZE →
      Bytes.getLE n d (dipOff inum + o) = Bytes.getLE n d' (dipOff inum + o) := by
    intro n o ho
    apply Bytes.getLE_congr
    intro i hi
    have := h (o + i) (by omega)
    rwa [← Nat.add_assoc] at this
  unfold dinode
  congr 1
  · exact hget 2 0 (by decide)
  · exact hget 4 8 (by decide)
  · funext k
    unfold addrsOf
    split
    · rename_i hk
      have := hget 4 (12 + 4 * k) (by unfold NDIRECT at hk; unfold DINODE_SIZE; omega)
      rwa [← Nat.add_assoc] at this
    · rfl

theorem putAddrs_outside {addrs : Nat → Nat} {off n x : Nat}
    (h : x < off + 12 ∨ off + 12 + 4 * n ≤ x) :
    putAddrs addrs off n d x = d x := by
  induction n with
  | zero => rfl
  | succ n ih =>
    unfold putAddrs
    have hput := @Bytes.putLE_outside 4 (putAddrs addrs off n d) (off + 12 + 4 * n) (addrs n)
      x (by omega)
    exact hput.trans (ih (by omega))

theorem putAddrs_get {addrs : Nat → Nat} {off n j : Nat} (hj : j < n) (hfit : addrs j < 2 ^ 32) :
    (putAddrs addrs off n d).get32 (off + 12 + 4 * j) = addrs j := by
  induction n with
  | zero => omega
  | succ n ih =>
    unfold putAddrs
    by_cases hjn : j = n
    · subst hjn
      exact Bytes.get32_put32 hfit
    · rw [Bytes.get32_put32_ne (by omega)]
      exact ih (by omega)

theorem putDinode_outside {type size x : Nat} {addrs : Nat → Nat}
    (h : x < dipOff inum ∨ dipOff inum + DINODE_SIZE ≤ x) :
    putDinode d inum type size addrs x = d x := by
  unfold DINODE_SIZE at h
  unfold putDinode
  rw [putAddrs_outside (by unfold NDIRECT; omega)]
  have h1 := @Bytes.putLE_outside 4 (d.put16 (dipOff inum) type) (dipOff inum + 8) size x (by omega)
  exact h1.trans (Bytes.putLE_outside (by omega))

/-- What `iupdate` stores is read back. -/
theorem dinode_putDinode {type size : Nat} {addrs : Nat → Nat} (htype : type < 2 ^ 16)
    (hsize : size < 2 ^ 32) (haddrs : ∀ k ≤ NDIRECT, addrs k < 2 ^ 32) :
    dinode (putDinode d inum type size addrs) inum = ⟨type, size, addrsOf addrs⟩ := by
  have hlow : ∀ n o, o + n ≤ 12 →
      Bytes.getLE n (putDinode d inum type size addrs) (dipOff inum + o) =
      Bytes.getLE n ((d.put16 (dipOff inum) type).put32 (dipOff inum + 8) size)
      (dipOff inum + o) := by
    intro n o ho
    apply Bytes.getLE_congr
    intro i hi
    exact putAddrs_outside (by omega)
  unfold dinode
  congr 1
  · refine (hlow 2 0 (by decide)).trans ?_
    refine (Bytes.getLE_putLE_of_disjoint (by omega)).trans ?_
    exact Bytes.get16_put16 htype
  · exact (hlow 4 8 (by decide)).trans (Bytes.get32_put32 hsize)
  · funext k
    unfold addrsOf
    split
    · rename_i hk
      exact putAddrs_get (by omega) (haddrs k hk)
    · rfl

/-- An inode that `ialloc` just took. -/
theorem dinode_freshDinode {type : Nat} (htype : type < 2 ^ 16) :
    dinode (freshDinode d inum type) inum = ⟨type, 0, fun _ => 0⟩ := by
  have hzero : ∀ n o, 2 ≤ o → o + n ≤ DINODE_SIZE →
      Bytes.getLE n (freshDinode d inum type) (dipOff inum + o) = 0 := by
    intro n o ho hn
    apply Bytes.getLE_zero
    intro i hi
    unfold freshDinode
    refine (Bytes.putLE_outside (by omega)).trans ?_
    exact Bytes.fill_inside (by omega) (by omega)
  unfold dinode
  congr 1
  · exact Bytes.get16_put16 htype
  · exact hzero 4 8 (by decide) (by decide)
  · funext k
    unfold addrsOf
    split
    · rename_i hk
      have := hzero 4 (12 + 4 * k) (by omega) (by unfold NDIRECT at hk; unfold DINODE_SIZE; omega)
      rwa [← Nat.add_assoc] at this
    · rfl

theorem freshDinode_outside {type x : Nat} (h : x < dipOff inum ∨ dipOff inum + DINODE_SIZE ≤ x) :
    freshDinode d inum type x = d x := by
  unfold DINODE_SIZE at h
  unfold freshDinode
  refine (Bytes.putLE_outside (by omega)).trans ?_
  exact Bytes.fill_outside (by unfold DINODE_SIZE; omega)

end ThuKernel
