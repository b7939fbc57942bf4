-- Writing a file and reading it again: the new bytes where they were written, the old
-- ones elsewhere, and every other file as before.
import ThuKernel.Fs.Write

namespace ThuKernel

/-! ## What is said of a write -/

/-- The bytes of a source. -/
def Src.data (src : Src) (n : Nat) : List Byte :=
  match src with
  | .user mm pagetable va => userBytes mm.mem pagetable va n
  | .kernel bytes => bytes.take n

/-- What `readi` gives of the file of an entry. -/
def reads (s : Fs) (ip off n : Nat) : Option (List Byte) :=
  match readi ip (.kernel []) off n s with
  | .ok ((r, .kernel got), _) => if r = got.length then some got else none
  | _ => none

/-- One byte of the file. -/
def readByte (s : Fs) (ip p : Nat) : Option Byte := (reads s ip p 1).bind List.head?

/-- The file of entry `ip` has the new bytes from `off` on, and all else is as before.
What `readi` gives is said of files of which the cache had all blocks as on the disk. -/
structure WriteRight (s : Fs) (ip inum off : Nat) (data : List Byte) (s' : Fs) : Prop where
  size : (s'.itable ip).size = max (s.itable ip).size (off + data.length)
  own : DataClean s inum → ∀ o n, n < 2 ^ 32 → ∃ got, reads s' ip o n = some got ∧
    got.length = readLen (s'.itable ip).size o n ∧
    ∀ i < got.length, got[i]? =
    if off ≤ o + i ∧ o + i < off + data.length then data[o + i - off]? else readByte s ip (o + i)
  others : ∀ j jp, Entry s jp j → j ≠ inum → s'.itable jp = s.itable jp ∧
    (DataClean s j → ∀ o n, n < 2 ^ 32 → ∃ got, reads s' jp o n = some got ∧
    reads s jp o n = some got)
  rest : ∀ j, IsInode s j → j ≠ inum → inoOf s' j = inoOf s j ∧ contents s' j = contents s j

/-- What is right of a call of `writei`. -/
structure WriteiRight (s : Fs) (ip inum : Nat) (src : Src) (off n : Nat) : Prop where
  fails : (s.itable ip).size < off ∨ 2 ^ 32 ≤ off + n ∨ MAXFILE * BSIZE < off + n →
    writei ip src off n s = .ok (-1, s)
  writes : off ≤ (s.itable ip).size → off + n ≤ MAXFILE * BSIZE →
    ∀ s', writei ip src off n s = .ok ((n : Int), s') → WriteRight s ip inum off (src.data n) s'

variable {E : Stop → Prop} {s s' : Fs} {ip inum off n : Nat} {src : Src}

/-! ## The source -/

/-- The copies give slices of the data. -/
theorem gives_data (hlen : (src.data n).length = n) (off : Nat) :
    Gives src off n fun p => (src.data n).getD (p - off) 0 := by
  intro tot m bytes hm hcopy
  have hindex : ∀ i, off + tot + i - off = tot + i := fun i => by omega
  simp only [hindex]
  cases src with
  | kernel got =>
    cases hcopy
    dsimp only [Src.data] at hlen ⊢
    rw [List.length_take] at hlen
    apply List.ext_getElem?
    intro i
    by_cases hi : i < m
    · rw [List.getElem?_take, if_pos hi, List.getElem?_drop, List.getElem?_map,
        List.getElem?_range hi, Option.map_some,
        List.getD_eq_getElem?_getD, List.getElem?_take, if_pos (by omega),
        List.getElem?_eq_getElem (by omega)]
      rfl
    · rw [List.getElem?_take, if_neg hi, List.getElem?_eq_none (by simp; omega)]
  | user mm pagetable va =>
    have hc := copyin_runs (E := fun _ => False) (s := mm) pagetable (va + tot) m
    dsimp only [either_copyin] at hcopy
    cases hrun : copyin pagetable (va + tot) m mm with
    | error e => exact (hc.of_error hrun).elim
    | ok r =>
      rw [hrun] at hcopy
      obtain ⟨r, mm'⟩ := r
      obtain ⟨_, hin⟩ := hc.of_ok hrun
      cases hcopy
      have hlen' : bytes.length = m := by
        rcases hin.result with ⟨_, h⟩ | ⟨h, _⟩
        · exact h
        · cases h
      have hbytes := hin.bytes
      dsimp only at hbytes
      rw [hbytes, hlen']
      unfold userBytes
      apply List.map_congr_left
      intro i hi
      have hi := List.mem_range.mp hi
      have hin : tot + i < n := by omega
      simp [Src.data, userBytes, hin, Nat.add_assoc]

/-! ## The reads -/

theorem reads_eq (hok : FsOk s) (he : Entry s ip inum) (hclean : DataClean s inum)
    (hn : n < 2 ^ 32) :
    reads s ip off n = some (bytesAt s inum off (readLen (inoOf s inum).size off n)) := by
  obtain ⟨r, s', hrun, rfl, _⟩ :=
    (@readi_kernel (fun _ => False) s ip inum off n hok he hn hclean).exists_ok fun _ h => h
  unfold reads
  rw [hrun]
  simp

theorem readLen_le (size off n : Nat) :
    off + readLen size off n ≤ size ∨ readLen size off n = 0 := by
  unfold readLen
  split
  · exact Or.inr rfl
  · omega

theorem readByte_eq (hok : FsOk s) (he : Entry s ip inum) (hclean : DataClean s inum) {p : Nat}
    (hp : p < (inoOf s inum).size) :
    readByte s ip p = some (byteAt s inum p) := by
  have hsize := (hok.fits inum he.ino).2
  have hmax : MAXFILE * BSIZE < 2 ^ 31 := by decide
  have hlen : readLen (inoOf s inum).size p 1 = 1 := by
    unfold readLen
    rw [if_neg (by omega)]
    omega
  unfold readByte
  rw [reads_eq hok he hclean (by decide), hlen]
  rfl

theorem entry_size (he : Entry s ip inum) (ht : TableOk s) :
    (s.itable ip).size = (inoOf s inum).size := by
  rw [he.inoOf ht]
  rfl

/-! ## The other files -/

section Others

variable {j p : Nat}

theorem SparesFiles.byteAt (h : SparesFiles inum s s') (hok : FsOk s) (hj : IsInode s j)
    (hne : j ≠ inum) (hp : p < (inoOf s j).size) :
    byteAt s' j p = byteAt s j p := by
  obtain ⟨hbn, h0⟩ := hok.blk hj hp
  have hblk : blkOf s' j (p / BSIZE) = blkOf s j (p / BSIZE) := h.foreign j _ hj hne (slotOf_lt hbn)
  unfold ThuKernel.byteAt
  rw [hblk]
  exact congrFun (h.data j _ hj hne (slotOf_lt hbn) h0) _

theorem SparesFiles.bytesAt (h : SparesFiles inum s s') (hok : FsOk s) (hj : IsInode s j)
    (hne : j ≠ inum) (hend : off + n ≤ (inoOf s j).size ∨ n = 0) : bytesAt s' j off n =
    bytesAt s j off n := by
  unfold ThuKernel.bytesAt
  apply List.map_congr_left
  intro i hi
  have hi := List.mem_range.mp hi
  exact h.byteAt hok hj hne (by omega)

theorem SparesFiles.dataClean (h : SparesFiles inum s s') (hok : FsOk s) (hj : IsInode s j)
    (hne : j ≠ inum) (hc : DataClean s j) :
    DataClean s' j := by
  intro p hp
  rw [h.others j hj.2.1 hne] at hp
  obtain ⟨hbn, h0⟩ := hok.blk hj hp
  have hblk : blkOf s' j (p / BSIZE) = blkOf s j (p / BSIZE) := h.foreign j _ hj hne (slotOf_lt hbn)
  rw [hblk]
  exact h.clean j _ hj hne (slotOf_lt hbn) h0 (hc p hp)

theorem SparesFiles.contents (h : SparesFiles inum s s') (hok : FsOk s) (hj : IsInode s j)
    (hne : j ≠ inum) :
    contents s' j = contents s j := by
  unfold ThuKernel.contents
  rw [h.others j hj.2.1 hne]
  exact h.bytesAt hok hj hne (Or.inl (by omega))

end Others

/-! ## A write that is right -/

/-- A write of all the bytes. -/
theorem Written.right {data : List Byte}
    (h : Written inum off (off + data.length) (fun p => data.getD (p - off) 0) s s') (hok : FsOk s)
    (he : Entry s ip inum) (hk : KeepsClean inum off (off + data.length) s s')
    (hoff : off ≤ (inoOf s inum).size) : WriteRight s ip inum off data s' := by
  have he' := h.touches.entryOk he
  have hsize' := entry_size he' h.ok.table
  refine ⟨?_, fun hclean o n hn => ?_, fun j jp hj hne => ⟨?_, fun hclean o n hn => ?_⟩,
    fun j hj hne => ⟨h.touches.others j hj.2.1 hne, h.touches.contents hok hj hne⟩⟩
  · rw [hsize', h.size, entry_size he hok.table]
  · have hclean' := h.dataClean hk hok he.ino hoff hclean
    refine ⟨_, reads_eq h.ok he' hclean' hn, by rw [length_bytesAt, hsize'], fun i hi => ?_⟩
    rw [length_bytesAt] at hi
    have hend := readLen_le (inoOf s' inum).size o n
    rw [h.size] at hend
    have hget : (bytesAt s' inum o (readLen (inoOf s' inum).size o n))[i]? =
        some (byteAt s' inum (o + i)) := by
      simp [ThuKernel.bytesAt, hi]
    rw [hget]
    rw [h.size] at hi
    split
    · rename_i hin
      rw [h.new _ hin.1 hin.2, List.getD_eq_getElem?_getD, List.getElem?_eq_getElem (by omega)]
      rfl
    · have hold : o + i < (inoOf s inum).size := by omega
      rw [h.old _ hold (hclean _ hold) (by omega), readByte_eq hok he hclean hold]
  · by_contra hc
    exact hne (hj.num.symm.trans (h.touches.entry jp hc))
  · have hino := h.touches.others j hj.ino.2.1 hne
    refine ⟨_, ?_, reads_eq hok hj hclean hn⟩
    rw [reads_eq h.ok (h.touches.entryOk hj) (h.touches.dataClean hok hj.ino hne hclean) hn, hino,
      h.touches.bytesAt hok hj.ino hne (readLen_le _ _ _)]

/-- Every call of `writei` is right. -/
theorem what_was_written_is_read (hok : FsOk s) (he : Entry s ip inum) (hn : n < 2 ^ 32)
    (hlen : (src.data n).length = n) :
    WriteiRight s ip inum src off n := by
  have hsize := entry_size he hok.table
  have hmax : MAXFILE * BSIZE < 2 ^ 32 := by decide
  refine ⟨fun hr => ?_, fun hoff hend s' hrun => ?_⟩
  · rw [hsize] at hr
    have hrefused : Refused (inoOf s inum).size off n := by
      unfold Refused
      omega
    obtain ⟨r, s', hrun, rfl, rfl⟩ :=
      (@writei_refused (fun _ => False) s ip inum n off src hok he hn hrefused).exists_ok fun _ h =>
        h
    exact hrun
  · rw [hsize] at hoff
    have hr : ¬ Refused (inoOf s inum).size off n := by
      unfold Refused
      omega
    obtain ⟨tot, _, htot, hwritten, hclean, _⟩ :=
      (writei_runs hok he (gives_data hlen off) hr).of_ok hrun
    have htot : tot = n := by omega
    subst htot
    refine Written.right ?_ hok he ?_ hoff
    · rwa [hlen]
    · rw [hlen]
      exact hclean rfl

/-! ## A small disk -/

/-- Inodes in block 2, the free map in block 3, and data from block 4 on. -/
def smallSb : superblock := ⟨FSMAGIC, 16, 12, 5, 2, 3⟩

/-- Inode 1 is the root directory, with no entries. Inodes 2 and 3 are files of
two bytes, in the blocks 4 and 5. -/
def smallDisk : Nat → Bytes := fun b o =>
  if b = 2 then
    if o = 64 then 1 else if o = 128 ∨ o = 192 then 2 else if o = 136 ∨ o = 200 then 2
    else if o = 140 then 4 else if o = 204 then 5 else 0
  else if b = 3 ∧ o = 0 then 0x3f else 0

/-- The three inodes in the table. -/
def smallTable : Nat → inode := fun i =>
  if i = 0 then ⟨ROOTDEV, 1, 1, true, T_DIR, 0, fun _ => 0⟩
  else if i < 3 then ⟨ROOTDEV, i + 1, 1, true, T_FILE, 2, fun k => if k = 0 then i + 3 else 0⟩
  else ⟨0, 0, 0, false, 0, 0, fun _ => 0⟩

def smallFs (bio : Bio) : Fs := ⟨smallSb, bio, smallTable⟩

section Small

variable {bio : Bio}

theorem small_inoOf : inoOf (smallFs bio) 1 = ⟨T_DIR, 0, fun _ => 0⟩ ∧
    ∀ j, j = 2 ∨ j = 3 → inoOf (smallFs bio) j =
    ⟨T_FILE, 2, fun k => if k = 0 then j + 2 else 0⟩ := by
  have haddrs : ∀ a, addrsOf (fun k => if k = 0 then a else 0) = fun k =>
      if k = 0 then a else 0 := by
    intro a
    funext k
    unfold addrsOf
    by_cases hk : k = 0
    · subst hk
      rfl
    · simp [hk]
  constructor
  · have hentry : entryOf (smallFs bio) 1 = some 0 := by rfl
    unfold inoOf
    rw [hentry]
    exact Ino.ext rfl rfl (by funext k; unfold inode.ino addrsOf smallFs smallTable; simp)
  · intro j hj
    have hentry : entryOf (smallFs bio) j = some (j - 1) := by
      rcases hj with rfl | rfl <;> rfl
    unfold inoOf
    rw [hentry]
    rcases hj with rfl | rfl
    · exact Ino.ext rfl rfl (haddrs 4)
    · exact Ino.ext rfl rfl (haddrs 5)

theorem small_isInode (hd : bio.disk = smallDisk) {j : Nat} :
    IsInode (smallFs bio) j ↔ j = 1 ∨ j = 2 ∨ j = 3 := by
  obtain ⟨h1, h2⟩ := @small_inoOf bio
  constructor
  · rintro ⟨hpos, hlt, htype⟩
    have hlt : j < 5 := hlt
    by_contra hc
    obtain rfl : j = 4 := by omega
    apply htype
    have hentry : entryOf (smallFs bio) 4 = none := by rfl
    unfold inoOf
    rw [hentry]
    dsimp only [smallFs]
    rw [hd]
    decide
  · rintro (rfl | rfl | rfl)
    · exact ⟨by decide, show 1 < 5 by decide, by rw [h1]; decide⟩
    · exact ⟨by decide, show 2 < 5 by decide, by rw [h2 2 (Or.inl rfl)]; decide⟩
    · exact ⟨by decide, show 3 < 5 by decide, by rw [h2 3 (Or.inr rfl)]; decide⟩

/-- The block numbers of the small disk. -/
theorem small_refOf (hd : bio.disk = smallDisk) {j m : Nat} (hj : IsInode (smallFs bio) j) :
    refOf (smallFs bio) j m = if m = 0 ∧ j ≠ 1 then j + 2 else 0 := by
  obtain ⟨h1, h2⟩ := @small_inoOf bio
  have hind : indOf (smallFs bio) j = 0 := by
    unfold indOf
    rcases (small_isInode hd).mp hj with rfl | hj
    · rw [h1]
    · rw [h2 j hj]
      rfl
  by_cases hm : m ≤ NDIRECT
  · rw [refOf_of_le hm]
    rcases (small_isInode hd).mp hj with rfl | hj
    · rw [h1]
      simp
    · rw [h2 j hj]
      have hne : j ≠ 1 := by omega
      simp [hne]
  · rw [refOf_of_no_ind (by omega) hind]
    rw [if_neg]
    omega

/-- The first six blocks of the small disk are marked. -/
theorem small_used (hd : bio.disk = smallDisk) {b : Nat} (hb : b < 16) :
    used (smallFs bio) b = decide (b < 6) := by
  have hbits : ∀ b < 16, (smallDisk (BBLOCK b smallSb)).bit (b % BPB) = decide (b < 6) := by
    decide
  unfold used smallFs
  dsimp only
  rw [hd]
  exact hbits b hb

/-- The two places of the small disk that have a block. -/
theorem small_place (hd : bio.disk = smallDisk) {p : Nat × Nat} (h0 : place (smallFs bio) p ≠ 0) :
    p = (2, 0) ∧ place (smallFs bio) p = 4 ∨ p = (3, 0) ∧ place (smallFs bio) p = 5 := by
  obtain ⟨j, m⟩ := p
  unfold place at h0 ⊢
  split at h0
  · rename_i hin
    rw [if_pos hin]
    dsimp only at h0 hin ⊢
    rw [small_refOf hd hin.1] at h0 ⊢
    split at h0
    · rename_i hm
      rw [if_pos hm]
      rcases (small_isInode hd).mp hin.1 with hj | rfl | rfl
      · exact absurd hj hm.2
      · exact Or.inl ⟨by rw [hm.1], rfl⟩
      · exact Or.inr ⟨by rw [hm.1], rfl⟩
    · exact absurd rfl h0
  · exact absurd rfl h0

theorem small_nmeta : nmeta (smallFs bio).sb = 4 := show nmeta smallSb = 4 by decide

/-- The marked data blocks are those of the two files. -/
theorem small_owned (hd : bio.disk = smallDisk) :
    Owned (nmeta (smallFs bio).sb) (smallFs bio).sb.size (used (smallFs bio))
      (place (smallFs bio)) := by
  refine ⟨?_, ?_, ?_, ?_⟩
  · intro p h0
    rw [small_nmeta]
    rcases small_place hd h0 with ⟨_, hp⟩ | ⟨_, hp⟩
    · rw [hp]
      exact ⟨by decide, show 4 < 16 by decide⟩
    · rw [hp]
      exact ⟨by decide, show 5 < 16 by decide⟩
  · intro p h0
    rcases small_place hd h0 with ⟨_, hp⟩ | ⟨_, hp⟩
    · rw [hp, small_used hd (by decide)]
      rfl
    · rw [hp, small_used hd (by decide)]
      rfl
  · intro p q h0 heq
    have h0' : place (smallFs bio) q ≠ 0 := heq ▸ h0
    rcases small_place hd h0 with ⟨hp, hv⟩ | ⟨hp, hv⟩
    · rcases small_place hd h0' with ⟨hq, hw⟩ | ⟨hq, hw⟩
      · rw [hp, hq]
      · omega
    · rcases small_place hd h0' with ⟨hq, hw⟩ | ⟨hq, hw⟩
      · omega
      · rw [hp, hq]
  · intro b hlo hhi hu
    rw [small_nmeta] at hlo
    have hhi : b < 16 := hhi
    rw [small_used hd hhi, decide_eq_true_iff] at hu
    have hp : ∀ j, j = 2 ∨ j = 3 → place (smallFs bio) (j, 0) = j + 2 := by
      intro j hj
      have hin := (small_isInode hd).mpr (Or.inr hj)
      rw [place_of hin (by decide), small_refOf hd hin, if_pos ⟨rfl, by omega⟩]
    by_cases hb : b = 4
    · exact ⟨(2, 0), by rw [hp 2 (Or.inl rfl), hb]⟩
    · exact ⟨(3, 0), by rw [hp 3 (Or.inr rfl)]; omega⟩

/-- The entries in use are the first three, one for each inode. -/
theorem smallTable_inum {i : Nat} (h : 0 < (smallTable i).ref) :
    (smallTable i).inum = i + 1 ∧ (smallTable i).dev = ROOTDEV := by
  unfold smallTable at h ⊢
  split at h
  · rename_i h0
    rw [if_pos h0]
    exact ⟨by rw [h0], rfl⟩
  · split at h
    · rename_i h0 h3
      rw [if_neg h0, if_pos h3]
      exact ⟨rfl, rfl⟩
    · exact absurd h (by decide)

theorem small_table : TableOk (smallFs bio) := by
  refine ⟨?_, fun i hi href => (smallTable_inum href).2⟩
  intro i hi j hj hri hrj _ hinum
  have hi := (smallTable_inum hri).1
  have hj := (smallTable_inum hrj).1
  change (smallTable i).inum = (smallTable j).inum at hinum
  omega

/-- The invariant holds of the small disk, under any cache that has the metadata. -/
theorem small_ok (hcache : CacheOk bio) (hfree : ∀ i, (bio.core i).refcnt = 0)
    (hd : bio.disk = smallDisk) (hclean : ∀ b < 4, Clean bio b) : FsOk (smallFs bio) := by
  obtain ⟨h1, h2⟩ := @small_inoOf bio
  have hinode := fun {j} => small_isInode (j := j) hd
  have hind : ∀ j, IsInode (smallFs bio) j → indOf (smallFs bio) j = 0 := by
    intro j hj
    rw [← refOf_ind, small_refOf hd hj]
    rfl
  have hlayout : SbOk smallSb := ⟨by decide, by decide, by decide⟩
  refine ⟨hcache, ⟨0, by decide, 1, by decide, by decide, hfree 0, hfree 1⟩, hlayout, small_table,
    ?_, ?_, small_owned hd, ?_, ?_⟩
  · rintro b (hb | ⟨j, hj, h0, _⟩)
    · exact hclean b (by rwa [small_nmeta] at hb)
    · exact absurd (hind j hj) h0
  · intro b hb
    rw [small_nmeta] at hb
    rw [small_used hd (by omega)]
    simp
    omega
  · intro j hj
    rcases hinode.mp hj with rfl | hj
    · rw [h1]
      decide
    · rw [h2 j hj]
      exact ⟨show T_FILE < 2 ^ 16 by decide, show 2 ≤ MAXFILE * BSIZE by decide⟩
  · intro j hj bn hbn
    rcases hinode.mp hj with rfl | hj'
    · rw [h1] at hbn
      exact absurd hbn (Nat.not_lt_zero _)
    · rw [h2 j hj'] at hbn
      have hbn : bn * BSIZE < 2 := hbn
      have hbn0 : bn = 0 := by
        unfold BSIZE at hbn
        omega
      subst hbn0
      unfold blkOf
      rw [small_refOf hd hj, if_pos ⟨rfl, by omega⟩]
      omega

theorem small_entry (hd : bio.disk = smallDisk) {i : Nat} (hi : i < 3) :
    Entry (smallFs bio) i (i + 1) := by
  have hin : IsInode (smallFs bio) (i + 1) := (small_isInode hd).mpr (by omega)
  obtain rfl | rfl | rfl : i = 0 ∨ i = 1 ∨ i = 2 := by omega
  · exact ⟨by decide, show (0 : Int) < 1 by decide, rfl, rfl, rfl, hin⟩
  · exact ⟨by decide, show (0 : Int) < 1 by decide, rfl, rfl, rfl, hin⟩
  · exact ⟨by decide, show (0 : Int) < 1 by decide, rfl, rfl, rfl, hin⟩

end Small
theorem binit_clean (disk : Nat → Bytes) (b : Nat) : Clean (binit disk) b := by
  intro i _ hv
  rw [((binit_spec disk).2.2 i).2] at hv
  cases hv

theorem small_binit : FsOk (smallFs (binit smallDisk)) :=
  small_ok (binit_spec smallDisk).1 (fun i => ((binit_spec smallDisk).2.2 i).1)
    (binit_spec smallDisk).2.1 fun b _ => binit_clean _ b

theorem small_write_returns : (writei 1 (.kernel [7, 8]) 1 2).returns (smallFs (binit smallDisk)) =
    true := by decide +kernel

theorem small_write_value :
    ((writei 1 (.kernel [7, 8]) 1 2) (smallFs (binit smallDisk))).toOption.map Prod.fst =
    some 2 := by decide +kernel

/-- Two bytes go to the end of the file of inode 2. -/
theorem small_write : ∃ s', writei 1 (.kernel [7, 8]) 1 2 (smallFs (binit smallDisk)) =
    .ok (2, s') ∧ s' = (writei 1 (.kernel [7, 8]) 1 2).final (smallFs (binit smallDisk)) := by
  obtain ⟨r, hrun⟩ := Prog.returns_iff.mp small_write_returns
  have hvalue := small_write_value
  rw [hrun] at hvalue
  cases hvalue
  exact ⟨_, hrun, rfl⟩

theorem what_was_written_is_read_of_two_bytes :
    ∃ s', writei 1 (.kernel [7, 8]) 1 2 (smallFs (binit smallDisk)) = .ok (2, s') ∧
    WriteRight (smallFs (binit smallDisk)) 1 2 1 [7, 8] s' ∧
    ∀ j, DataClean (smallFs (binit smallDisk)) j := by
  obtain ⟨s', hrun, _⟩ := small_write
  have hright : WriteiRight (smallFs (binit smallDisk)) 1 2 (.kernel [7, 8]) 1 2 :=
    what_was_written_is_read small_binit
    (small_entry (binit_spec smallDisk).2.1 (by decide : 1 < 3)) (by decide : 2 < 2 ^ 32) rfl
  exact ⟨s', hrun, hright.writes (by decide) (by decide) s' hrun, fun _ _ _ => binit_clean _ _⟩

/-- A read of `2 ^ 32 - 1` bytes from byte 1 on gives none of the bytes that were written. -/
theorem a_long_read_gives_nothing : ¬ ∀ (s s' : Fs) (ip inum off n : Nat) (src : Src), FsOk s →
    Entry s ip inum →
    (∀ j, IsInode s j → DataClean s j) → writei ip src off n s = .ok ((n : Int), s') →
    ∀ o m, o < (s'.itable ip).size → m < 2 ^ 32 →
      ∃ got, reads s' ip o m = some got ∧ got.length = min m ((s'.itable ip).size - o) := by
  intro hall
  have hsize : (((writei 1 (.kernel [7, 8]) 1 2).final (smallFs (binit smallDisk))).itable 1).size =
      3 := by decide +kernel
  have hafter : reads ((writei 1 (.kernel [7, 8]) 1 2).final (smallFs (binit smallDisk))) 1 1
      (2 ^ 32 - 1) = some [] := by
    decide +kernel
  obtain ⟨_, hrun, rfl⟩ := small_write
  obtain ⟨got, hgot, hlen⟩ :=
    hall _ _ 1 2 1 2 _ small_binit (small_entry (binit_spec smallDisk).2.1 (by decide))
    (fun _ _ _ _ => binit_clean _ _) hrun 1 (2 ^ 32 - 1) (by rw [hsize]; decide) (by decide)
  rw [hafter] at hgot
  rw [hsize] at hlen
  cases hgot
  cases hlen

end ThuKernel
