-- `iappend` of mkfs, seen as the kernel sees the image: the inode that is written stands
-- in an entry of the table, and the free map is the one that `balloc` writes in the end.
import ThuKernel.Nfs.Mkfs
import ThuKernel.Fs.TableRuns

namespace ThuKernel

/-! ## A cache after boot -/

section Boot

variable {d d' : Nat → Bytes} {T : Set Nat}

theorem binit_cache (d : Nat → Bytes) : CacheOk (binit d) := (binit_spec d).1

theorem binit_disk (d : Nat → Bytes) : (binit d).disk = d := (binit_spec d).2.1

theorem binit_room (d : Nat → Bytes) : Room2 (binit d) :=
  ⟨0, by decide, 1, by decide, by decide, ((binit_spec d).2.2 0).1, ((binit_spec d).2.2 1).1⟩

/-- The blocks of `T` may differ. -/
theorem binit_follows (h : ∀ b ∉ T, d' b = d b) : Follows T (binit d) (binit d') := by
  refine ⟨fun i _ => ?_, fun i _ hheld => ?_, fun b hb => ?_, fun b _ _ => binit_clean d' b⟩
  · rw [((binit_spec d).2.2 i).1, ((binit_spec d').2.2 i).1]
    rfl
  · rw [((binit_spec d).2.2 i).1] at hheld
    exact absurd hheld (lt_irrefl 0)
  · rw [binit_disk, binit_disk]
    exact h b hb

end Boot

/-! ## The bytes of a file that may lack blocks -/

/-- The byte at `p`, which is 0 where the file has no block. -/
def fileByte (s : Fs) (inum p : Nat) : Byte :=
  if blkOf s inum (p / BSIZE) = 0 then 0 else byteAt s inum p

section Files

variable {s s' : Fs} {inum j k a p : Nat}

theorem fileByte_congr (hblk : blkOf s' j (p / BSIZE) = blkOf s j (p / BSIZE))
    (hdata : blkOf s j (p / BSIZE) ≠ 0 →
    s'.bio.disk (blkOf s j (p / BSIZE)) = s.bio.disk (blkOf s j (p / BSIZE))) :
    fileByte s' j p = fileByte s j p := by
  unfold fileByte byteAt
  rw [hblk]
  split
  · rfl
  · rename_i h0
    rw [hdata h0]

/-- The inodes are the same, and so is the disk from the free map on. -/
structure SameFiles (s s' : Fs) : Prop where
  sb : s'.sb = s.sb
  ino : ∀ j < s.sb.ninodes, inoOf s' j = inoOf s j
  disk : ∀ b, s.sb.bmapstart ≤ b → s'.bio.disk b = s.bio.disk b

namespace SameFiles

theorem isInode (h : SameFiles s s') (j : Nat) : IsInode s' j ↔ IsInode s j :=
  isInode_congr h.sb fun hj => by rw [h.ino j hj]

theorem ref (h : SameFiles s s') (hok : FsOk s) (hj : IsInode s j) (m : Nat) :
    refOf s' j m = refOf s j m := by
  refine refOf_congr (h.ino j hj.2.1) (fun h0 => h.disk _ ?_) m
  have h1 := (hok.ind hj h0).1
  have h2 := @bmapstart_le s.sb
  omega

theorem fileByte (h : SameFiles s s') (hok : FsOk s) (hj : IsInode s j) (hp : p < MAXFILE * BSIZE) :
    ThuKernel.fileByte s' j p = ThuKernel.fileByte s j p := by
  refine fileByte_congr (h.ref hok hj _) fun h0 => h.disk _ ?_
  have h1 := (hok.ref hj (slotOf_lt (div_lt_MAXFILE hp)) h0).1
  have h2 := @bmapstart_le s.sb
  unfold blkOf
  omega

theorem fsOk (h : SameFiles s s') (hok : FsOk s) (hcache : CacheOk s'.bio) (hroom : Room2 s'.bio)
    (htable : TableOk s') (hclean : ∀ b, Clean s'.bio b) : FsOk s' :=
  hok.same h.sb hcache hroom htable h.ino (fun b _ hb => h.disk b hb) fun b _ => hclean b

end SameFiles

/-- A new block with zeros is as no block. -/
theorem Gains.fileByte (h : Gains s s' inum k a) (hg : FileGrown inum s s') (hi : IsInode s inum)
    (hzero : ∀ o < BSIZE, s'.bio.disk a o = 0) (hj : IsInode s j) (hp : p < MAXFILE * BSIZE) :
    ThuKernel.fileByte s' j p = ThuKernel.fileByte s j p := by
  have hslot := slotOf_lt (div_lt_MAXFILE hp)
  by_cases hji : j = inum
  · subst hji
    by_cases h0 : blkOf s j (p / BSIZE) = 0
    · unfold ThuKernel.fileByte
      rw [if_pos h0]
      split
      · rfl
      · rename_i hnew
        have hk : slotOf (p / BSIZE) = k := by
          by_contra hne
          exact hnew ((h.kept j _ hj hslot (Or.inr hne)).trans h0)
        have hblk : blkOf s' j (p / BSIZE) = a := by
          unfold blkOf
          rw [hk, h.new]
        unfold byteAt
        rw [hblk]
        exact hzero _ (Nat.mod_lt _ (by decide))
    · exact fileByte_congr (hg.own _ hslot h0) fun h0 => hg.ownData _ hslot (slotOf_ne_ind _) h0
  · exact fileByte_congr (hg.foreign j _ hj hji hslot) fun h0 => hg.data j _ hj hji hslot h0

end Files

namespace Mkfs

variable {E : Stop → Prop} {s s' : State} {inum j k n b off fbn : Nat} {din din' d : Bytes}
  {p : List Byte}

/-! ## The image as the kernel sees it -/

/-- The blocks, with the free map in its place. -/
def mapped (s : State) : Nat → Bytes := Function.update s.disk sb.bmapstart (bitmap s.freeblock)

/-- The image that is mounted. -/
def State.fs (s : State) : Fs := ⟨sb, binit (mapped s), noInodes⟩

/-- The entry of the table for `din`. -/
def entry (inum : Nat) (din : Bytes) : inode :=
  ⟨ROOTDEV, inum, 1, true, din.get16 0, dinSize din, dinAddr din⟩

/-- The image that is mounted, with inode `inum` open as `din`. -/
def State.fsWith (s : State) (inum : Nat) (din : Bytes) : Fs :=
  ⟨sb, binit (mapped s), Function.update noInodes 0 (entry inum din)⟩

theorem fsWith_itable : (s.fsWith inum din).itable 0 = entry inum din := by
  unfold State.fsWith
  dsimp only
  rw [Function.update_self]

theorem fsWith_other (h : j ≠ 0) : (s.fsWith inum din).itable j = noInodes j :=
  Function.update_of_ne h ..

theorem fs_disk : s.fs.bio.disk = mapped s := binit_disk _

theorem fsWith_disk : (s.fsWith inum din).bio.disk = mapped s := binit_disk _

theorem entry_zero (h : 0 < ((s.fsWith inum din).itable j).ref) : j = 0 := by
  by_contra hj
  rw [fsWith_other hj] at h
  exact absurd h (lt_irrefl 0)

theorem fsWith_table : TableOk (s.fsWith inum din) := by
  refine ⟨fun i _ j _ hi hj _ _ => (entry_zero hi).trans (entry_zero hj).symm, fun i _ hi => ?_⟩
  rw [entry_zero hi]
  rfl

theorem fs_table : TableOk s.fs :=
  ⟨fun _ _ _ _ hi _ _ _ => absurd hi (lt_irrefl 0), fun _ _ hi => absurd hi (lt_irrefl 0)⟩

theorem inoOf_fs (j : Nat) : inoOf s.fs j = dinode (mapped s (IBLOCK j sb)) j := by
  unfold inoOf
  cases hfind : entryOf s.fs j with
  | some i => exact absurd (entryOf_some hfind).2.1 (lt_irrefl 0)
  | none =>
    dsimp only
    rw [fs_disk]
    rfl

theorem inoOf_fsWith (j : Nat) :
    inoOf (s.fsWith inum din) j = if j = inum then (entry inum din).ino else dinode
    (mapped s (IBLOCK j sb)) j := by
  have hentry := @entryOf_eq (s.fsWith inum din) 0 fsWith_table (by decide) Int.one_pos rfl
  by_cases hj : j = inum
  · subst hj
    have hsome : entryOf (s.fsWith j din) j = some 0 := hentry
    rw [if_pos rfl]
    unfold inoOf
    rw [hsome]
    rfl
  · rw [if_neg hj]
    unfold inoOf
    cases hfind : entryOf (s.fsWith inum din) j with
    | some i =>
      obtain ⟨_, href, _, hnum⟩ := entryOf_some hfind
      rw [entry_zero href] at hnum
      exact absurd hnum.symm hj
    | none =>
      dsimp only
      rw [fsWith_disk]
      rfl

theorem entryFor (h : IsInode (s.fsWith inum din) inum) : Entry (s.fsWith inum din) 0 inum :=
  ⟨by decide, Int.one_pos, rfl, rfl, rfl, h⟩

/-! ## The free map and the blocks that are left -/

/-- The image has its full length, and the blocks that are left are clear. -/
structure Blank (s : State) : Prop where
  length : s.length = FSSIZE
  lo : nmeta ≤ s.freeblock
  hi : s.freeblock ≤ FSSIZE
  clear : ∀ b, s.freeblock ≤ b → b < FSSIZE → ∀ o, s.disk b o = 0

/-- The state after `freeblock++`. -/
def State.take (s : State) : State := { s with freeblock := s.freeblock + 1 }

theorem xint_of_lt (h : n < 2 ^ 32) : xint n = n := Nat.mod_eq_of_lt h

theorem xint_addr : xint (dinAddr din k) = dinAddr din k := xint_of_lt (Bytes.get32_lt ..)

theorem xint_indirect : xint (indirectAt d j) = indirectAt d j := xint_of_lt (Bytes.get32_lt ..)

theorem BBLOCK_sb (h : b < FSSIZE) : BBLOCK b sb = sb.bmapstart ∧ b % BPB = b := by
  have hlt : b < BPB := h.trans (by decide)
  unfold BBLOCK
  rw [Nat.div_eq_of_lt hlt, Nat.zero_add]
  exact ⟨rfl, Nat.mod_eq_of_lt hlt⟩

theorem bit_bitmap (n i : Nat) : (bitmap n).bit i = decide (i < n) := by
  induction n with
  | zero =>
    unfold bitmap Bytes.bit
    simp
  | succ n ih =>
    unfold bitmap
    rw [Bytes.bit_setBit, ih]
    by_cases hi : i = n
    · simp [hi]
    · have : i < n + 1 ↔ i < n := by omega
      simp [Ne.symm hi, this]

theorem mapped_map : mapped s sb.bmapstart = bitmap s.freeblock := Function.update_self ..

theorem mapped_ne (h : b ≠ sb.bmapstart) : mapped s b = s.disk b := Function.update_of_ne h ..

theorem mapped_take (h : b ≠ sb.bmapstart) : mapped s.take b = mapped s b := by
  rw [mapped_ne h, mapped_ne h]
  rfl

theorem mapped_wsect (h : b ≠ sb.bmapstart) :
    mapped { s with disk := Function.update s.disk b d } = Function.update (mapped s) b d := by
  unfold mapped
  exact Function.update_comm h ..

theorem used_fsWith (h : b < FSSIZE) : used (s.fsWith inum din) b = decide (b < s.freeblock) := by
  obtain ⟨h1, h2⟩ := BBLOCK_sb h
  unfold used
  rw [fsWith_disk]
  change (mapped s (BBLOCK b sb)).bit (b % BPB) = _
  rw [h1, h2, mapped_map, bit_bitmap]

theorem nmeta_sb : ThuKernel.nmeta sb = nmeta := by decide

theorem bmapstart_ne (h : nmeta ≤ b) : b ≠ sb.bmapstart := by
  rintro rfl
  exact absurd h (by decide)

/-- `freeblock++` is as `balloc` of the kernel. -/
theorem Blank.balloced (h : Blank s) (hlt : s.freeblock < FSSIZE) :
    Balloced (s.fsWith inum din) s.freeblock (binit (mapped s.take)) := by
  obtain ⟨h1, h2⟩ := BBLOCK_sb hlt
  refine ⟨binit_cache _, ?_, hlt, ?_, ?_, fun o _ => ?_, binit_clean _ _, binit_clean _ _⟩
  · refine binit_follows fun b hb => mapped_take fun hc => hb (Or.inl ?_)
    rw [hc]
    exact h1.symm
  · rw [used_fsWith hlt]
    exact decide_eq_false (lt_irrefl _)
  · rw [binit_disk, fsWith_disk]
    change mapped s.take (BBLOCK s.freeblock sb) = (mapped s (BBLOCK s.freeblock sb)).setBit
      (s.freeblock % BPB)
    rw [h1, h2, mapped_map, mapped_map]
    rfl
  · rw [binit_disk, mapped_ne (bmapstart_ne h.lo)]
    exact h.clear _ (Nat.le_refl _) hlt o

/-! ## A new block -/

/-- The file got the block `a`, with zeros, at place `k`. -/
structure Grew (s s' : Fs) (inum k a : Nat) : Prop where
  gains : Gains s s' inum k a
  grown : FileGrown inum s s'
  ok : FsOk s'
  clear : ∀ o < BSIZE, s'.bio.disk a o = 0

theorem entry_setDinAddr (hb : b < 2 ^ 32) :
    entry inum (setDinAddr din k b) = withAddr (entry inum din) k b := by
  unfold entry withAddr
  have htype : (setDinAddr din k b).get16 0 = din.get16 0 :=
    Bytes.getLE_putLE_of_disjoint (by omega)
  have hsize : dinSize (setDinAddr din k b) = dinSize din := Bytes.get32_put32_ne (by omega)
  have haddr : dinAddr (setDinAddr din k b) = Function.update (dinAddr din) k b := by
    funext m
    by_cases hm : m = k
    · rw [hm, Function.update_self]
      exact Bytes.get32_put32 hb
    · rw [Function.update_of_ne hm]
      exact Bytes.get32_put32_ne (by omega)
  rw [htype, hsize, haddr]

theorem refOf_fsWith (hk : k ≤ NDIRECT) : refOf (s.fsWith inum din) inum k = dinAddr din k := by
  rw [refOf_of_le hk, inoOf_fsWith, if_pos rfl]
  exact addrsOf_of_le hk

theorem indOf_fsWith : indOf (s.fsWith inum din) inum = dinAddr din NDIRECT := by
  rw [← refOf_ind]
  exact refOf_fsWith (Nat.le_refl _)

theorem refOf_indirect (hok : FsOk (s.fsWith inum din)) (hi : IsInode (s.fsWith inum din) inum)
    (hind : dinAddr din NDIRECT ≠ 0) :
    refOf (s.fsWith inum din) inum (NDIRECT + 1 + j) =
    indirectAt (s.disk (dinAddr din NDIRECT)) j := by
  have hlo := (hok.ind hi (by rwa [indOf_fsWith])).1
  rw [indOf_fsWith] at hlo
  rw [refOf_of_ind (by omega) (by rwa [indOf_fsWith]), indOf_fsWith, fsWith_disk,
    mapped_ne (bmapstart_ne (nmeta_sb ▸ hlo)), Nat.add_sub_cancel_left]

theorem Blank.direct (h : Blank s) (hok : FsOk (s.fsWith inum din))
    (hi : IsInode (s.fsWith inum din) inum) (hlt : s.freeblock < FSSIZE) (hk : k ≤ NDIRECT)
    (h0 : dinAddr din k = 0) :
    Grew (s.fsWith inum din) (s.take.fsWith inum (setDinAddr din k s.freeblock)) inum k
    s.freeblock := by
  have hsmall : s.freeblock < 2 ^ 32 := hlt.trans (by decide)
  have hsame : s.take.fsWith inum (setDinAddr din k s.freeblock) = { s.fsWith inum din with
      bio := binit (mapped s.take)
      itable := Function.update (s.fsWith inum din).itable 0
        (withAddr ((s.fsWith inum din).itable 0) k s.freeblock) } := by
    rw [fsWith_itable, ← entry_setDinAddr hsmall]
    unfold State.fsWith
    dsimp only
    rw [Function.update_idem]
  have hzero : ((s.fsWith inum din).itable 0).addrs k = 0 := by
    rw [fsWith_itable]
    exact h0
  have hall := @Blank.balloced s inum din h hlt
  obtain ⟨h1, h2⟩ := newAddr_grown hok (entryFor hi) hk hzero hall
  rw [hsame]
  exact ⟨newAddr_gains hok (entryFor hi) hk hzero hall, h1, h2, hall.zero⟩

/-- The state with a new block in the indirect block `a`. -/
def State.takeIndirect (s : State) (a j : Nat) : State :=
  { s.take with disk := Function.update s.disk a (setIndirect (s.disk a) j s.freeblock) }

theorem Blank.indirect (h : Blank s) (hok : FsOk (s.fsWith inum din))
    (hi : IsInode (s.fsWith inum din) inum) (hlt : s.freeblock < FSSIZE)
    (hind : dinAddr din NDIRECT ≠ 0) (hj : j < NINDIRECT)
    (h0 : refOf (s.fsWith inum din) inum (NDIRECT + 1 + j) = 0) :
    Grew (s.fsWith inum din) ((s.takeIndirect (dinAddr din NDIRECT) j).fsWith inum din) inum
    (NDIRECT + 1 + j) s.freeblock := by
  obtain ⟨hlo, hhi, hmarked⟩ := hok.ind hi (by rwa [indOf_fsWith])
  rw [indOf_fsWith] at hlo hhi hmarked
  have hlo : nmeta ≤ dinAddr din NDIRECT := nmeta_sb ▸ hlo
  have hne : dinAddr din NDIRECT ≠ sb.bmapstart := bmapstart_ne hlo
  have hused : dinAddr din NDIRECT < s.freeblock := by
    rw [used_fsWith hhi, decide_eq_true_iff] at hmarked
    exact hmarked
  have hdata : (s.fsWith inum din).bio.disk (indOf (s.fsWith inum din) inum) =
      s.disk (dinAddr din NDIRECT) := by
    rw [indOf_fsWith, fsWith_disk, mapped_ne hne]
  have hdisk : (binit (mapped (s.takeIndirect (dinAddr din NDIRECT) j))).disk =
      Function.update (binit (mapped s.take)).disk (indOf (s.fsWith inum din) inum)
        (setIndirect ((s.fsWith inum din).bio.disk (indOf (s.fsWith inum din) inum)) j
        s.freeblock) := by
    rw [binit_disk, binit_disk, hdata, indOf_fsWith]
    exact mapped_wsect hne
  have hall := @Blank.balloced s inum din h hlt
  have h0' : indirectAt ((s.fsWith inum din).bio.disk (indOf (s.fsWith inum din) inum)) j = 0 := by
    rwa [hdata, ← refOf_indirect hok hi hind]
  have hnz : indOf (s.fsWith inum din) inum ≠ 0 := by rwa [indOf_fsWith]
  have hgains := newIndirect_gains hok hi hnz h0' rfl hok.mapOk hall hdisk
  obtain ⟨h1, h2⟩ := newIndirect_grown hok hi hnz hj h0' rfl hok.mapOk hall hdisk (binit_cache _)
    (binit_follows fun b hb => absurd (Set.mem_univ b) hb) (fun _ hc => hc)
    (fun b _ => binit_clean _ b) (binit_clean _ _)
  refine ⟨hgains, h1, h2, fun o ho => ?_⟩
  change (binit (mapped (s.takeIndirect (dinAddr din NDIRECT) j))).disk _ o = 0
  rw [hdisk, Function.update_of_ne]
  · exact hall.zero o ho
  · rw [indOf_fsWith]
    omega

/-! ## The blocks that a file needs -/

/-- The data blocks of `n` bytes. -/
def blocksFor (n : Nat) : Nat := (n + BSIZE - 1) / BSIZE

/-- All blocks of a file of `n` bytes, with the indirect one. -/
def need (n : Nat) : Nat := blocksFor n + if NDIRECT < blocksFor n then 1 else 0

/-- The new blocks for the byte at `off`, when the bytes before it are there. -/
def cost (off : Nat) : Nat := if off % BSIZE = 0 then if off = NDIRECT * BSIZE then 2 else 1 else 0

theorem need_zero : need 0 = 0 := by decide

theorem blocksFor_mono (h : n ≤ k) : blocksFor n ≤ blocksFor k := Nat.div_le_div_right (by omega)

theorem need_mono (h : n ≤ k) : need n ≤ need k := by
  have := blocksFor_mono h
  unfold need
  split
  · rw [if_pos (by omega)]
    omega
  · omega

theorem need_step (hn : 0 < n) (hfit : off % BSIZE + n ≤ BSIZE) :
    need (off + n) = need off + cost off := by
  have hB : BSIZE = 1024 := rfl
  have hD : NDIRECT = 12 := rfl
  unfold need cost blocksFor
  simp only [hB, hD] at hfit ⊢
  have hdm := Nat.div_add_mod off 1024
  by_cases h0 : off % 1024 = 0
  · have h1 : (off + n + 1024 - 1) / 1024 = off / 1024 + 1 := by omega
    have h2 : (off + 1024 - 1) / 1024 = off / 1024 := by omega
    rw [h1, h2, if_pos h0]
    by_cases h12 : off = 12 * 1024
    · rw [if_pos h12, if_pos (by omega), if_neg (by omega)]
    · rw [if_neg h12]
      by_cases hlt : 12 < off / 1024
      · rw [if_pos hlt, if_pos (by omega)]
      · rw [if_neg hlt, if_neg (by omega)]
  · have h1 : (off + n + 1024 - 1) / 1024 = off / 1024 + 1 := by omega
    have h2 : (off + 1024 - 1) / 1024 = off / 1024 + 1 := by omega
    rw [h1, h2, if_neg h0]
    exact (Nat.add_zero _).symm

/-- The file has the blocks for its first `n` bytes, and no other ones. -/
structure Covers (s : Fs) (inum n : Nat) : Prop where
  blk : ∀ bn < MAXFILE, blkOf s inum bn ≠ 0 ↔ bn * BSIZE < n
  ind : indOf s inum ≠ 0 ↔ NDIRECT * BSIZE < n

/-- Inode `inum` is open as `din`, with the blocks for `off` bytes. -/
structure Open (s : State) (inum : Nat) (din : Bytes) (off : Nat) : Prop where
  blank : Blank s
  ok : FsOk (s.fsWith inum din)
  inode : IsInode (s.fsWith inum din) inum
  covers : Covers (s.fsWith inum din) inum off

/-- The file has its block `fbn` now, which is `x`, for `c` new blocks. -/
structure Blocked (s : State) (inum : Nat) (din : Bytes) (fbn c x : Nat) (s' : State)
    (din' : Bytes) : Prop where
  blank : Blank s'
  ok : FsOk (s'.fsWith inum din')
  grown : FileGrown inum (s.fsWith inum din) (s'.fsWith inum din')
  bytes : ∀ j, IsInode (s.fsWith inum din) j → ∀ p < MAXFILE * BSIZE,
    fileByte (s'.fsWith inum din') j p = fileByte (s.fsWith inum din) j p
  block : blkOf (s'.fsWith inum din') inum fbn = x
  covers : Covers (s'.fsWith inum din') inum ((fbn + 1) * BSIZE)
  freeblock : s'.freeblock = s.freeblock + c
  freeinode : s'.freeinode = s.freeinode

section Grew

variable {S S' : Fs} {a : Nat}

theorem Grew.fileByte (h : Grew S S' inum k a) (hi : IsInode S inum) (hj : IsInode S j) {q : Nat}
    (hq : q < MAXFILE * BSIZE) :
    fileByte S' j q = ThuKernel.fileByte S j q := h.gains.fileByte h.grown hi h.clear hj hq

/-- The new block is the next one of the file. -/
theorem Grew.next (h : Grew S S' inum (slotOf fbn) a) (hi : IsInode S inum)
    (hblk : ∀ bn < MAXFILE, blkOf S inum bn ≠ 0 ↔ bn < fbn) (bn : Nat) (hbn : bn < MAXFILE) :
    blkOf S' inum bn ≠ 0 ↔ bn < fbn + 1 := by
  by_cases hb : bn = fbn
  · have hnew : blkOf S' inum bn = a := by rw [hb]; exact h.gains.new
    rw [hnew]
    exact iff_of_true h.gains.nonzero (by omega)
  · have hne : slotOf bn ≠ slotOf fbn := fun hc => hb (slotOf_inj hc)
    have hsame : blkOf S' inum bn = blkOf S inum bn :=
      h.gains.kept inum _ hi (slotOf_lt hbn) (Or.inr hne)
    rw [hsame, hblk bn hbn]
    omega

theorem Grew.indOf (h : Grew S S' inum k a) (hi : IsInode S inum) (hk : k ≠ NDIRECT) :
    indOf S' inum = ThuKernel.indOf S inum := by
  rw [← refOf_ind, ← refOf_ind]
  exact h.gains.kept inum _ hi (by decide) (Or.inr hk.symm)

theorem Grew.isInode (h : Grew S S' inum k a) (hi : IsInode S inum) : IsInode S' inum :=
  (h.gains.isInode inum).mpr hi

end Grew

theorem mul_BSIZE_lt {m : Nat} : m * BSIZE < k * BSIZE ↔ m < k := Nat.mul_lt_mul_right (by decide)

namespace Open

theorem ref_lt (h : Open s inum din off) (hk : k < SLOTS)
    (h0 : refOf (s.fsWith inum din) inum k ≠ 0) :
    nmeta ≤ refOf (s.fsWith inum din) inum k ∧ refOf (s.fsWith inum din) inum k < s.freeblock := by
  obtain ⟨h1, h2, h3⟩ := h.ok.ref h.inode hk h0
  rw [used_fsWith h2, decide_eq_true_iff] at h3
  exact ⟨nmeta_sb ▸ h1, h3⟩

/-- The block is there. -/
theorem found (h : Open s inum din off) (hmax : off < MAXFILE * BSIZE) (hin : off % BSIZE ≠ 0) :
    Runs E (fileBlock din (off / BSIZE)) s fun r s' =>
    Blocked s inum din (off / BSIZE) 0 r.1 s' r.2 := by
  have hfbn := div_lt_MAXFILE hmax
  have hdm := Nat.div_add_mod off BSIZE
  have hlt : off / BSIZE * BSIZE < off := by
    rw [Nat.mul_comm]
    omega
  have h0 := (h.covers.blk _ hfbn).mpr hlt
  have hcovers : Covers (s.fsWith inum din) inum ((off / BSIZE + 1) * BSIZE) := by
    have hend : ∀ m, m * BSIZE < off ↔ m * BSIZE < (off / BSIZE + 1) * BSIZE := by
      intro m
      rw [mul_BSIZE_lt]
      constructor
      · intro hm
        by_contra hc
        have := Nat.mul_le_mul_right BSIZE (Nat.le_of_not_lt hc)
        have hlast := Nat.mod_lt off (show 0 < BSIZE by decide)
        rw [Nat.add_mul, Nat.one_mul, Nat.mul_comm] at this
        omega
      · intro hm
        have := Nat.mul_le_mul_right BSIZE (Nat.le_of_lt_succ hm)
        omega
    exact ⟨fun bn hbn => (h.covers.blk bn hbn).trans (hend bn), h.covers.ind.trans (hend _)⟩
  have hdone : Blocked s inum din (off / BSIZE) 0 (blkOf (s.fsWith inum din) inum (off / BSIZE))
      s din :=
    ⟨h.blank, h.ok, FileGrown.refl, fun _ _ _ _ => rfl, rfl, hcovers, rfl, rfl⟩
  unfold fileBlock
  split
  · rename_i hdirect
    have haddr : blkOf (s.fsWith inum din) inum (off / BSIZE) = dinAddr din (off / BSIZE) := by
      unfold blkOf slotOf
      rw [if_pos hdirect]
      exact refOf_fsWith (by omega)
    rw [haddr] at h0 hdone
    unfold dinBlock
    rw [xint_addr, if_neg h0]
    rw [Runs.bind_iff, Runs.pure_iff, Runs.pure_iff, xint_addr]
    exact hdone
  · rename_i hdirect
    have hind : dinAddr din NDIRECT ≠ 0 := by
      rw [← @indOf_fsWith s inum, h.covers.ind]
      exact (Nat.mul_le_mul_right BSIZE (Nat.le_of_not_lt hdirect)).trans_lt hlt
    have hindlt := h.ref_lt (k := NDIRECT) (by decide) (by rwa [refOf_fsWith (Nat.le_refl _)])
    rw [refOf_fsWith (Nat.le_refl _)] at hindlt
    have hlen : dinAddr din NDIRECT < s.length := by
      rw [h.blank.length]
      exact hindlt.2.trans_le h.blank.hi
    have haddr : blkOf (s.fsWith inum din) inum (off / BSIZE) =
        indirectAt (s.disk (dinAddr din NDIRECT)) (off / BSIZE - NDIRECT) := by
      have hslot : slotOf (off / BSIZE) = NDIRECT + 1 + (off / BSIZE - NDIRECT) := by
        unfold slotOf
        rw [if_neg hdirect]
        omega
      unfold blkOf
      rw [hslot, refOf_indirect h.ok h.inode hind]
    rw [haddr] at h0 hdone
    unfold dinBlock indirectBlock rsect
    rw [xint_addr, if_neg hind, Runs.bind_iff, Runs.pure_iff]
    simp only [Runs.bind_iff, Runs.get_iff, xint_addr]
    rw [if_pos hlen, Runs.pure_iff, if_neg h0, Runs.pure_iff, Runs.pure_iff]
    rw [xint_indirect]
    exact hdone

end Open

/-- What `indirectBlock` gives at an empty place: the next block, if one is left. -/
theorem indirectBlock_runs (h : Blank s) (hok : FsOk (s.fsWith inum din))
    (hi : IsInode (s.fsWith inum din) inum) (hind : dinAddr din NDIRECT ≠ 0)
    (h0 : refOf (s.fsWith inum din) inum (NDIRECT + 1 + j) = 0) :
    Runs E (indirectBlock (dinAddr din NDIRECT) j) s fun x s' =>
      (s.freeblock < FSSIZE ∧ x = s.freeblock ∧ s' = s.takeIndirect (dinAddr din NDIRECT) j) ∨
        (s.freeblock = FSSIZE ∧ s'.length ≤ x) := by
  have hhi := (hok.ind hi (by rwa [indOf_fsWith])).2.1
  rw [indOf_fsWith] at hhi
  have hlt : dinAddr din NDIRECT < s.length := h.length ▸ hhi
  rw [refOf_indirect hok hi hind] at h0
  have hsmall : s.freeblock < 2 ^ 32 := h.hi.trans_lt (by decide)
  have hlen : max s.length (dinAddr din NDIRECT + 1) = s.length := Nat.max_eq_left hlt
  have hnew : indirectAt (setIndirect (s.disk (dinAddr din NDIRECT)) j s.freeblock) j =
      s.freeblock := Bytes.get32_put32 hsmall
  unfold indirectBlock rsect newBlock wsect
  simp only [Runs.bind_iff, Runs.get_iff]
  rw [if_pos hlt, Runs.pure_iff, if_pos h0]
  simp only [Runs.bind_iff, Runs.get_iff, Runs.set_iff, Runs.pure_iff, Runs.modify_iff,
    xint_indirect, xint_of_lt hsmall]
  rw [hlen, hnew]
  rcases Nat.lt_or_eq_of_le h.hi with hroom | hfull
  · exact Or.inl ⟨hroom, rfl, rfl⟩
  · exact Or.inr ⟨hfull, h.length.le.trans hfull.ge⟩

theorem Blank.take (h : Blank s) (hlt : s.freeblock < FSSIZE) : Blank s.take :=
  ⟨h.length, h.lo.trans (Nat.le_succ _), hlt, fun b hb => h.clear b ((Nat.le_succ _).trans hb)⟩

theorem Blank.set (h : Blank s) (hb : b < s.freeblock) :
    Blank { s with disk := Function.update s.disk b d } := by
  refine ⟨h.length, h.lo, h.hi, fun c hc hlt o => ?_⟩
  dsimp only at hc ⊢
  rw [Function.update_of_ne (by omega)]
  exact h.clear c hc hlt o

/-- The file gets its block `fbn` by `c` new blocks, or the next read is past the end of
the image. -/
def Gets (s : State) (inum : Nat) (din : Bytes) (fbn c x : Nat) (s' : State) (din' : Bytes) :
    Prop :=
  Blocked s inum din fbn c x s' din' ∨ (FSSIZE < s.freeblock + c ∧ s'.length ≤ x)

/-- The file has the data blocks before `fbn`, and no other ones. -/
def HasBefore (s : Fs) (inum fbn : Nat) : Prop := ∀ bn < MAXFILE, blkOf s inum bn ≠ 0 ↔ bn < fbn

theorem HasBefore.none {S : Fs} (h : HasBefore S inum fbn) (hfbn : fbn < MAXFILE) :
    blkOf S inum fbn = 0 :=
  not_not.mp ((h fbn hfbn).not.mpr (lt_irrefl fbn))

theorem Grew.blocked (hg : Grew (s.fsWith inum din) (s'.fsWith inum din') inum (slotOf fbn) b)
    (hi : IsInode (s.fsWith inum din) inum) (hblank : Blank s')
    (hbefore : HasBefore (s.fsWith inum din) inum fbn)
    (hind : ThuKernel.indOf (s'.fsWith inum din') inum ≠ 0 ↔ NDIRECT < fbn + 1)
    (hblock : s'.freeblock = s.freeblock + 1)
    (hinode : s'.freeinode = s.freeinode) : Blocked s inum din fbn 1 b s' din' := by
  refine ⟨hblank, hg.ok, hg.grown, fun j hj p hp => hg.fileByte hi hj hp, hg.gains.new,
    ⟨fun bn hbn => ?_, ?_⟩, hblock, hinode⟩
  · rw [mul_BSIZE_lt]
    exact hg.next hi hbefore bn hbn
  · rw [mul_BSIZE_lt]
    exact hind

/-- A direct block. -/
theorem dinBlock_gets (h : Blank s) (hok : FsOk (s.fsWith inum din))
    (hi : IsInode (s.fsWith inum din) inum) (hbefore : HasBefore (s.fsWith inum din) inum fbn)
    (hind : indOf (s.fsWith inum din) inum = 0) (hfbn : fbn < NDIRECT) :
    Runs E (dinBlock din fbn) s fun din' s' =>
    Gets s inum din fbn 1 (dinAddr din' fbn) s' din' := by
  have hslot : slotOf fbn = fbn := if_pos hfbn
  have hsmall : s.freeblock < 2 ^ 32 := h.hi.trans_lt (by decide)
  have h0 : dinAddr din fbn = 0 := by
    have := hbefore.none (by unfold MAXFILE; omega)
    unfold blkOf at this
    rwa [hslot, refOf_fsWith (by omega)] at this
  unfold dinBlock newBlock
  rw [xint_addr, if_pos h0]
  simp only [Runs.bind_iff, Runs.get_iff, Runs.set_iff, Runs.pure_iff, xint_of_lt hsmall]
  have hx : dinAddr (setDinAddr din fbn s.freeblock) fbn = s.freeblock := Bytes.get32_put32 hsmall
  rw [hx]
  rcases Nat.lt_or_eq_of_le h.hi with hroom | hfull
  · have hgrew := h.direct hok hi hroom (by omega) h0
    have hsame := hgrew.indOf hi (by omega)
    refine Or.inl (@Grew.blocked s s.take _ _ _ _ _ (by rwa [hslot]) hi (h.take hroom)
      hbefore ?_ rfl rfl)
    rw [hsame, hind]
    exact iff_of_false (fun hc => hc rfl) (by omega)
  · exact Or.inr ⟨by omega, h.length.le.trans hfull.ge⟩

/-- A block of the indirect block. -/
theorem indirectBlock_gets (h : Blank s) (hok : FsOk (s.fsWith inum din))
    (hi : IsInode (s.fsWith inum din) inum) (hbefore : HasBefore (s.fsWith inum din) inum fbn)
    (hind : dinAddr din NDIRECT ≠ 0) (hlo : NDIRECT ≤ fbn) (hhi : fbn < MAXFILE) :
    Runs E (indirectBlock (dinAddr din NDIRECT) (fbn - NDIRECT)) s fun x s' =>
    Gets s inum din fbn 1 x s' din := by
  have hslot : slotOf fbn = NDIRECT + 1 + (fbn - NDIRECT) := by
    unfold slotOf
    rw [if_neg (by omega)]
    omega
  have h0 : refOf (s.fsWith inum din) inum (NDIRECT + 1 + (fbn - NDIRECT)) = 0 := by
    rw [← hslot]
    exact hbefore.none hhi
  refine (indirectBlock_runs h hok hi hind h0).imp ?_
  rintro x s' (⟨hroom, rfl, rfl⟩ | ⟨hfull, hpast⟩)
  · have hgrew := h.indirect hok hi hroom hind (j := fbn - NDIRECT)
      (by unfold MAXFILE at hhi; omega) h0
    have hsame := hgrew.indOf hi (by omega)
    obtain ⟨_, hlt, hmarked⟩ := hok.ind hi (by rwa [indOf_fsWith])
    rw [used_fsWith hlt, decide_eq_true_iff, indOf_fsWith] at hmarked
    refine Or.inl (Grew.blocked (by rwa [hslot]) hi ((h.take hroom).set (Nat.lt_succ_of_lt hmarked))
      hbefore ?_ rfl rfl)
    rw [hsame, indOf_fsWith]
    exact iff_of_true hind (by omega)
  · exact Or.inr ⟨by omega, hpast⟩

/-- The indirect block is new too. -/
theorem firstIndirect_gets (h : Blank s) (hok : FsOk (s.fsWith inum din))
    (hi : IsInode (s.fsWith inum din) inum) (hbefore : HasBefore (s.fsWith inum din) inum NDIRECT)
    (h0 : dinAddr din NDIRECT = 0) :
    Runs (fun _ => FSSIZE < s.freeblock + 2) (do
        let din ← dinBlock din NDIRECT
        let x ← indirectBlock (xint (dinAddr din NDIRECT)) 0
        pure (x, din)) s fun r s' => Gets s inum din NDIRECT 2 r.1 s' r.2 := by
  have hsmall : s.freeblock < 2 ^ 32 := h.hi.trans_lt (by decide)
  have hx : dinAddr (setDinAddr din NDIRECT s.freeblock) NDIRECT = s.freeblock :=
    Bytes.get32_put32 hsmall
  unfold dinBlock newBlock
  rw [xint_addr, if_pos h0]
  simp only [Runs.bind_iff, Runs.get_iff, Runs.set_iff, Runs.pure_iff, xint_of_lt hsmall, xint_addr]
  rcases Nat.lt_or_eq_of_le h.hi with hroom | hfull
  · have hgrew := h.direct hok hi hroom (Nat.le_refl _) h0
    have hi₁ := hgrew.isInode hi
    have hbefore₁ : HasBefore (s.take.fsWith inum (setDinAddr din NDIRECT s.freeblock)) inum
        NDIRECT := by
      intro bn hbn
      have hsame := hgrew.gains.kept inum _ hi (slotOf_lt hbn) (Or.inr (slotOf_ne_ind bn))
      unfold blkOf
      rw [hsame]
      exact hbefore bn hbn
    have hind : dinAddr (setDinAddr din NDIRECT s.freeblock) NDIRECT ≠ 0 := by
      rw [hx]
      exact hgrew.gains.nonzero
    have hnext := @indirectBlock_gets (fun _ => FSSIZE < s.freeblock + 2) s.take inum NDIRECT _
      (h.take hroom) hgrew.ok hi₁ hbefore₁ hind (Nat.le_refl _) (by decide)
    rw [Nat.sub_self] at hnext
    refine hnext.imp ?_
    rintro x s' (hb | ⟨hfull, hpast⟩)
    · refine Or.inl ⟨hb.blank, hb.ok, hgrew.grown.trans hb.grown, fun j hj p hp => ?_, hb.block,
        hb.covers, hb.freeblock, hb.freeinode⟩
      rw [hb.bytes j ((hgrew.gains.isInode j).mpr hj) p hp, hgrew.fileByte hi hj hp]
    · exact Or.inr ⟨hfull, hpast⟩
  · -- The indirect block itself is past the end.
    unfold indirectBlock rsect
    simp only [Runs.bind_iff, Runs.get_iff]
    rw [hx, if_neg (by rw [h.length, hfull]; exact lt_irrefl _), Runs.panic_iff]
    omega

/-- The step lemma for the blocks: the file has the block of the byte at `off` then, unless
no block is left for it. -/
theorem Open.fileBlock_runs (h : Open s inum din off) (hmax : off < MAXFILE * BSIZE) :
    Runs (fun _ => FSSIZE < s.freeblock + cost off) (fileBlock din (off / BSIZE)) s fun r s' =>
      Gets s inum din (off / BSIZE) (cost off) r.1 s' r.2 := by
  by_cases hin : off % BSIZE = 0
  · have hfbn := div_lt_MAXFILE hmax
    have hoff : off / BSIZE * BSIZE = off := Nat.div_mul_cancel (Nat.dvd_of_mod_eq_zero hin)
    have hlt : ∀ m, m * BSIZE < off ↔ m < off / BSIZE := by
      intro m
      conv_lhs => rw [← hoff]
      exact mul_BSIZE_lt
    have hbefore : HasBefore (s.fsWith inum din) inum (off / BSIZE) :=
      fun bn hbn => (h.covers.blk bn hbn).trans (hlt bn)
    have hind : indOf (s.fsWith inum din) inum ≠ 0 ↔ NDIRECT < off / BSIZE :=
      h.covers.ind.trans (hlt _)
    have hcost : cost off = if off / BSIZE = NDIRECT then 2 else 1 := by
      have hiff : off = NDIRECT * BSIZE ↔ off / BSIZE = NDIRECT := by
        constructor
        · rintro rfl
          exact Nat.mul_div_cancel _ (by decide)
        · intro hc
          rw [← hc, hoff]
      unfold cost
      rw [if_pos hin]
      simp only [hiff]
    obtain ⟨fbn, hf⟩ : ∃ fbn, fbn = off / BSIZE := ⟨_, rfl⟩
    rw [hcost, ← hf]
    rw [← hf] at hfbn hbefore hind
    unfold fileBlock
    by_cases hdirect : fbn < NDIRECT
    · have hnone : indOf (s.fsWith inum din) inum = 0 := not_not.mp (hind.not.mpr (by omega))
      rw [if_pos hdirect, if_neg (by omega)]
      refine (dinBlock_gets h.blank h.ok h.inode hbefore hnone hdirect).bind ?_
      intro din' s' hgets
      rw [Runs.pure_iff, xint_addr]
      exact hgets
    · rw [if_neg hdirect]
      by_cases hfirst : fbn = NDIRECT
      · have hnone : dinAddr din NDIRECT = 0 := by
          rw [← @indOf_fsWith s inum]
          exact not_not.mp (hind.not.mpr (by omega))
        subst hfirst
        rw [if_pos rfl, Nat.sub_self]
        exact firstIndirect_gets h.blank h.ok h.inode hbefore hnone
      · have hhas := hind.mpr (by omega)
        rw [indOf_fsWith] at hhas
        rw [if_neg hfirst]
        unfold dinBlock
        rw [xint_addr, if_neg hhas, Runs.bind_iff, Runs.pure_iff, Runs.bind_iff, xint_addr]
        exact indirectBlock_gets h.blank h.ok h.inode hbefore hhas (by omega) hfbn
  · have hcost : cost off = 0 := by
      unfold cost
      rw [if_neg hin]
    rw [hcost]
    exact (h.found hmax hin).imp fun _ _ hb => Or.inl hb

/-! ## A run of bytes -/

/-- From `s` to `s'`, the bytes `p` were put at `off` of the file, which has the blocks for
them now. -/
structure Appended (s : State) (inum : Nat) (din : Bytes) (off : Nat) (p : List Byte) (s' : State)
    (din' : Bytes) : Prop where
  opened : Open s' inum din' (off + p.length)
  touches : Touches inum (s.fsWith inum din) (s'.fsWith inum din')
  size : (inoOf (s'.fsWith inum din') inum).size = (inoOf (s.fsWith inum din) inum).size
  bytes : ∀ q < MAXFILE * BSIZE,
    fileByte (s'.fsWith inum din') inum q = Bytes.store (fileByte (s.fsWith inum din) inum) off p q
  low : ∀ b < sb.bmapstart, s'.disk b = s.disk b
  freeblock : s'.freeblock + need off = s.freeblock + need (off + p.length)
  freeinode : s'.freeinode = s.freeinode

theorem Appended.refl (h : Open s inum din off) : Appended s inum din off [] s din :=
  ⟨h, Touches.refl, rfl, fun _ _ => by rw [Bytes.store_nil], fun _ _ => rfl, rfl, rfl⟩

theorem Appended.trans {s₁ : State} {din₁ : Bytes} {p₁ : List Byte}
    (h : Appended s inum din off p s₁ din₁)
    (h' : Appended s₁ inum din₁ (off + p.length) p₁ s' din') : Appended s inum din off (p ++ p₁)
    s' din' := by
  have hlen : off + (p ++ p₁).length = off + p.length + p₁.length := by
    rw [List.length_append, Nat.add_assoc]
  refine ⟨hlen ▸ h'.opened, h.touches.trans h'.touches, h'.size.trans h.size, fun q hq => ?_,
    fun b hb => (h'.low b hb).trans (h.low b hb), ?_, h'.freeinode.trans h.freeinode⟩
  · rw [h'.bytes q hq, ← Bytes.store_append]
    unfold Bytes.store
    rw [h.bytes q hq]
    rfl
  · have h1 := h.freeblock
    have h2 := h'.freeblock
    rw [hlen]
    omega

/-- The block of the bytes is written. -/
theorem Open.append (h : Open s inum din off) {x : Nat}
    (hb : Blocked s inum din (off / BSIZE) (cost off) x s' din') (hmax : off < MAXFILE * BSIZE)
    (hp : 0 < p.length) (hfit : off % BSIZE + p.length ≤ BSIZE) :
    x < s'.length ∧ Appended s inum din off p
      { s' with
        disk := Function.update s'.disk x
          ((s'.disk x).store (off - off / BSIZE * BSIZE) p) } din' := by
  have hfbn := div_lt_MAXFILE hmax
  have hdm := Nat.div_add_mod' off BSIZE
  have hstart : off - off / BSIZE * BSIZE = off % BSIZE := by omega
  have hi := (hb.grown.isInode inum).mpr h.inode
  have h0 : blkOf (s'.fsWith inum din') inum (off / BSIZE) ≠ 0 := by
    rw [hb.covers.blk _ hfbn, mul_BSIZE_lt]
    omega
  obtain ⟨hlo, hhi, hmarked⟩ := hb.ok.ref hi (slotOf_lt hfbn) h0
  have hx : refOf (s'.fsWith inum din') inum (slotOf (off / BSIZE)) = x := hb.block
  rw [hx] at hlo hhi hmarked
  rw [used_fsWith hhi, decide_eq_true_iff] at hmarked
  have hne : x ≠ sb.bmapstart := bmapstart_ne (nmeta_sb ▸ hlo)
  obtain ⟨d, hd⟩ : ∃ d, d = (s'.disk x).store (off % BSIZE) p := ⟨_, rfl⟩
  rw [hstart, ← hd]
  refine ⟨hb.blank.length ▸ hhi, ?_⟩
  have hset : BlockSet inum (off / BSIZE) (s'.fsWith inum din')
      ({ s' with disk := Function.update s'.disk x d }.fsWith inum din') := by
    refine blockSet hb.ok hi hfbn h0 (binit_cache _) (binit_follows fun b hb' => ?_)
    rw [mapped_wsect hne, Function.update_of_ne]
    rintro rfl
    exact hb' hb.block.symm
  have hdisk : ({ s' with disk := Function.update s'.disk x d }.fsWith inum din').bio.disk x =
      d := by
    rw [fsWith_disk, mapped_wsect hne, Function.update_self]
  have hold : (s'.fsWith inum din').bio.disk x = s'.disk x := by rw [fsWith_disk, mapped_ne hne]
  have hend : ∀ m, m * BSIZE < (off / BSIZE + 1) * BSIZE ↔ m * BSIZE < off + p.length := by
    intro m
    rw [mul_BSIZE_lt]
    constructor
    · intro hm
      have := Nat.mul_le_mul_right BSIZE (Nat.le_of_lt_succ hm)
      omega
    · intro hm
      by_contra hc
      have := Nat.mul_le_mul_right BSIZE (Nat.le_of_not_lt hc)
      rw [Nat.add_mul, Nat.one_mul] at this
      omega
  refine ⟨⟨hb.blank.set hmarked, hset.ok, (hset.touches.isInode inum).mpr hi,
    ⟨fun bn hbn => ?_, ?_⟩⟩,
    hb.grown.toTouches.trans hset.touches, ?_, fun q hq => ?_, fun b hlow => ?_, ?_, hb.freeinode⟩
  · rw [hset.blkOf hi, hb.covers.blk bn hbn]
    exact hend bn
  · rw [← refOf_ind, hset.ref inum _ hi, refOf_ind, hb.covers.ind]
    exact hend _
  · rw [hset.ino inum hi.2.1, hb.grown.size]
  · have hgrown := hb.bytes inum h.inode q hq
    by_cases hqb : q / BSIZE = off / BSIZE
    · have hqdm := Nat.div_add_mod' q BSIZE
      rw [hqb] at hqdm
      have hle : off % BSIZE ≤ q % BSIZE ↔ off ≤ q := by omega
      have hsub : q % BSIZE - off % BSIZE = q - off := by omega
      unfold fileByte byteAt at hgrown ⊢
      rw [hqb, hb.block, if_neg (by rwa [← hb.block]), hold] at hgrown
      rw [hset.blkOf hi, hqb, hb.block, if_neg (by rwa [← hb.block]), hdisk, hd]
      unfold Bytes.store
      simp only [hle, hsub]
      rw [hgrown, hqb]
    · have hother : fileByte ({ s' with disk := Function.update s'.disk x d }.fsWith inum din')
          inum q = fileByte (s'.fsWith inum din') inum q := by
        refine fileByte_congr (hset.blkOf hi _) fun hz => hset.disk _ ?_
        exact BlockSet.ne hb.ok hi hfbn (div_lt_MAXFILE hq) hqb hz
      have hout : q < off ∨ off + p.length ≤ q := by
        by_contra hc
        have hq1 := Nat.div_le_div_right (c := BSIZE) (show off ≤ q by omega)
        have hq2 : q < (off / BSIZE + 1) * BSIZE := by
          rw [Nat.add_mul, Nat.one_mul]
          omega
        have hq3 := Nat.div_lt_of_lt_mul (by rwa [Nat.mul_comm] at hq2)
        omega
      rw [hother, hgrown, Bytes.store_outside hout]
  · have hout : b ≠ x := by
      have hmeta : sb.bmapstart < nmeta := by decide
      have hlo : nmeta ≤ x := nmeta_sb ▸ hlo
      omega
    have hkept := hb.grown.inodes b hlow
    rw [fsWith_disk, fsWith_disk, mapped_ne hlow.ne, mapped_ne hlow.ne] at hkept
    dsimp only
    rw [Function.update_of_ne hout, hkept]
  · rw [need_step hp hfit]
    have := hb.freeblock
    dsimp only
    omega

/-- There is room for `n` more bytes: in the file, and on the disk. -/
def Fits (s : State) (off n : Nat) : Prop :=
  off + n ≤ MAXFILE * BSIZE ∧ s.freeblock + need (off + n) ≤ FSSIZE + need off

theorem not_fits (hn : 0 < n) (h : FSSIZE < s.freeblock + cost off) : ¬ Fits s off n := by
  rintro ⟨_, hroom⟩
  have hstep := @need_step 1 off Nat.one_pos (Nat.mod_lt off (by decide))
  have hmono : need (off + 1) ≤ need (off + n) := need_mono (by omega)
  omega

/-- After a part of the bytes, there is room for the rest just when there was room for all. -/
theorem Appended.fits_iff {m : Nat} (h : Appended s inum din off p s' din') :
    Fits s' (off + p.length) m ↔ Fits s off (p.length + m) := by
  have := h.freeblock
  unfold Fits
  rw [Nat.add_assoc]
  omega

/-- The loop of `iappend`: by the step lemma, one block after the other. -/
theorem iappendLoop_runs (fuel : Nat) (h : Open s inum din off) (hfuel : p.length < fuel)
    (hoff : off ≤ MAXFILE * BSIZE) :
    Runs (fun _ => ¬ Fits s off p.length) (iappendLoop fuel p off din) s fun r s' =>
      Fits s off p.length ∧ r.1 = off + p.length ∧ Appended s inum din off p s' r.2 := by
  induction fuel generalizing p off din s with
  | zero => omega
  | succ fuel ih =>
    unfold iappendLoop
    by_cases hp : 0 < p.length
    · rw [if_pos hp]
      by_cases hblock : off / BSIZE < MAXFILE
      · have hmax : off < MAXFILE * BSIZE := (Nat.div_lt_iff_lt_mul (by decide)).mp hblock
        rw [if_pos hblock]
        refine ((h.fileBlock_runs hmax).mono (fun _ he => not_fits hp he) fun _ _ hr => hr).bind ?_
        rintro ⟨x, din₁⟩ s₁ hgets
        dsimp only at hgets ⊢
        obtain ⟨n1, hn1⟩ : ∃ n1, n1 = min p.length ((off / BSIZE + 1) * BSIZE - off) := ⟨_, rfl⟩
        rw [← hn1]
        rw [Nat.add_mul, Nat.one_mul] at hn1
        have hdm := Nat.div_add_mod' off BSIZE
        have hmod := Nat.mod_lt off (show 0 < BSIZE by decide)
        have hlast := Nat.mul_le_mul_right BSIZE (Nat.succ_le_of_lt hblock)
        rw [Nat.succ_mul] at hlast
        have hlen : (p.take n1).length = n1 := by
          rw [List.length_take]
          omega
        unfold rsect wsect
        simp only [Runs.bind_iff, Runs.get_iff]
        rcases hgets with hb | ⟨hfull, hpast⟩
        · obtain ⟨hlt, hall⟩ := h.append (p := p.take n1) hb hmax (by omega) (by omega)
          rw [if_pos hlt, Runs.pure_iff, Runs.modify_iff, Nat.max_eq_left hlt]
          have hfits := hall.fits_iff (m := (p.drop n1).length)
          have hopened := hall.opened
          have hsum : n1 + (p.drop n1).length = p.length := by
            rw [List.length_drop]
            omega
          rw [hlen, hsum] at hfits
          rw [hlen] at hopened
          refine (ih hopened (by omega) (by omega)).mono (fun _ he => hfits.not.mp he) ?_
          rintro ⟨off', din₂⟩ s₂ ⟨hrest, hoff', happ⟩
          have htrans := hall.trans (by rwa [hlen] : Appended _ _ _ _ (p.drop n1) _ _)
          rw [List.take_append_drop] at htrans
          exact ⟨hfits.mp hrest, by dsimp only at hoff' ⊢; omega, htrans⟩
        · rw [if_neg (Nat.not_lt.mpr hpast), Runs.panic_iff]
          exact not_fits hp hfull
      · rw [if_neg hblock, Runs.panic_iff]
        rintro ⟨hfit, _⟩
        exact hblock ((Nat.div_lt_iff_lt_mul (by decide)).mpr (by omega))
    · obtain rfl : p = [] := List.length_eq_zero_iff.mp (by omega)
      rw [if_neg hp, Runs.pure_iff]
      exact ⟨⟨hoff, Nat.add_le_add_right h.blank.hi _⟩, rfl, Appended.refl h⟩

end Mkfs

end ThuKernel
