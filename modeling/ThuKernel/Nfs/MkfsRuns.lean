-- The runs of mkfs: what `ialloc`, `iappend` and the loop over the files leave on the
-- image, and when mkfs stops.
import ThuKernel.Nfs.Iappend

namespace ThuKernel

/-- A number in a part of a block. -/
theorem Bytes.getLE_shift (n : Nat) (b : Bytes) (a o : Nat) :
    Bytes.getLE n (fun x => b (a + x)) o = Bytes.getLE n b (a + o) := by
  induction n generalizing o with
  | zero => rfl
  | succ n ih =>
    unfold Bytes.getLE
    rw [ih, Nat.add_assoc]

/-- Bytes that are stored behind the first `n`. -/
theorem Bytes.map_store (f : Bytes) (n : Nat) (p : List Byte) :
    (List.range (n + p.length)).map (f.store n p) = (List.range n).map f ++ p := by
  rw [List.range_add, List.map_append, List.map_map]
  congr 1
  · apply List.map_congr_left
    intro q hq
    exact Bytes.store_outside (Or.inl (List.mem_range.mp hq))
  · have hload := Bytes.load_store f n p
    exact hload

theorem SparesFiles.fileByte {s s' : Fs} {inum j p : Nat} (h : SparesFiles inum s s')
    (hj : IsInode s j) (hne : j ≠ inum) (hp : p < MAXFILE * BSIZE) : fileByte s' j p =
    ThuKernel.fileByte s j p :=
  fileByte_congr (h.foreign j _ hj hne (slotOf_lt (div_lt_MAXFILE hp))) fun h0 =>
    h.data j _ hj hne (slotOf_lt (div_lt_MAXFILE hp)) h0

/-- The bytes of a file, by its size. -/
def content (s : Fs) (inum : Nat) : List Byte :=
  (List.range (inoOf s inum).size).map (fileByte s inum)

@[simp] theorem length_content (s : Fs) (inum : Nat) :
    (content s inum).length = (inoOf s inum).size := by simp [content]

namespace Mkfs

variable {E : Stop → Prop} {s s' : State} {inum j k n b off fbn : Nat} {din din' d : Bytes}
  {p : List Byte}

/-! ## Opening and closing an inode -/

theorem IBLOCK_sb (h : inum < NINODES) : IBLOCK inum sb < sb.bmapstart := by
  have hle : inum / IPB ≤ 199 / IPB := Nat.div_le_div_right (by unfold NINODES at h; omega)
  have h199 : 199 / IPB + 2 < sb.bmapstart := by decide
  have hstart : IBLOCK inum sb = inum / IPB + 2 := rfl
  omega

theorem Blank.rsect (h : Blank s) (hb : b < FSSIZE) {Q : Bytes → State → Prop}
    (hQ : Q (s.disk b) s) : Runs E (rsect b) s Q := by
  unfold Mkfs.rsect
  rw [Runs.bind_iff, Runs.get_iff, if_pos (h.length ▸ hb)]
  exact hQ

/-- The inode as `rinode` reads it. -/
def State.dinOf (s : State) (inum : Nat) : Bytes :=
  fun o => s.disk (IBLOCK inum sb) (dipOff inum + o)

/-- The image after `winode`. -/
def State.stored (s : State) (inum : Nat) (din : Bytes) : State :=
  let buf := (s.disk (IBLOCK inum sb)).store (dipOff inum) (din.load 0 DINODE_SIZE)
  { s with disk := Function.update s.disk (IBLOCK inum sb) buf }

theorem rinode_runs (h : Blank s) (hlt : inum < NINODES) :
    Runs E (rinode inum) s fun din s' => din = s.dinOf inum ∧ s' = s := by
  unfold rinode
  rw [Runs.bind_iff]
  exact h.rsect ((IBLOCK_sb hlt).trans (by decide)) ⟨rfl, rfl⟩

theorem winode_runs (h : Blank s) (hlt : inum < NINODES) :
    Runs E (winode inum din) s fun _ s' => s' = s.stored inum din := by
  have hblock : IBLOCK inum sb < s.length := h.length ▸ (IBLOCK_sb hlt).trans (by decide)
  unfold winode
  rw [Runs.bind_iff]
  refine h.rsect ((IBLOCK_sb hlt).trans (by decide)) ?_
  unfold wsect State.stored
  rw [Runs.modify_iff, Nat.max_eq_left hblock]

theorem ino_din (h : inum < NINODES) :
    (entry inum (s.dinOf inum)).ino = dinode (mapped s (IBLOCK inum sb)) inum := by
  rw [mapped_ne (IBLOCK_sb h).ne]
  unfold entry inode.ino dinode dinodeType dinodeSize dinSize State.dinOf Bytes.get16 Bytes.get32
  dsimp only
  rw [Bytes.getLE_shift, Bytes.getLE_shift, Nat.add_zero]
  congr 2
  funext k
  unfold dinAddr dinodeAddr Bytes.get32
  rw [Bytes.getLE_shift, Nat.add_assoc]

/-- An inode that is read is as on the image. -/
theorem sameFiles_open (h : inum < NINODES) : SameFiles s.fs (s.fsWith inum (s.dinOf inum)) := by
  refine ⟨rfl, fun j _ => ?_, fun _ _ => rfl⟩
  rw [inoOf_fsWith, inoOf_fs]
  by_cases hj : j = inum
  · rw [if_pos hj, hj, ino_din h]
  · rw [if_neg hj]

/-- The bytes of the other inodes are beside the 64 bytes of the one that is written. -/
theorem dinode_stored (h : inum < NINODES) (hj : j < NINODES) :
    dinode (mapped (s.stored inum din) (IBLOCK j sb)) j =
      if j = inum then (entry inum din).ino else dinode (mapped s (IBLOCK j sb)) j := by
  have hload : (din.load 0 DINODE_SIZE).length = DINODE_SIZE := Bytes.length_load ..
  rw [mapped_ne (IBLOCK_sb hj).ne, mapped_ne (IBLOCK_sb hj).ne]
  unfold State.stored
  dsimp only
  by_cases hji : j = inum
  · subst hji
    rw [if_pos rfl, Function.update_self]
    have hget : ∀ n o, o + n ≤ DINODE_SIZE →
        Bytes.getLE n ((s.disk (IBLOCK j sb)).store (dipOff j) (din.load 0 DINODE_SIZE))
        (dipOff j + o) = Bytes.getLE n din o := by
      intro n o ho
      rw [← Bytes.getLE_shift]
      apply Bytes.getLE_congr
      intro i hi
      rw [Bytes.store_inside (by omega) (by rw [hload]; omega)]
      simp only [Bytes.load, List.getElem_map, List.getElem_range]
      congr 1
      omega
    unfold dinode entry inode.ino dinodeType dinodeSize dinSize
    dsimp only
    rw [show Bytes.get16 _ (dipOff j) = din.get16 0 from hget 2 0 (by decide),
      show Bytes.get32 _ (dipOff j + 8) = din.get32 8 from hget 4 8 (by decide)]
    congr 1
    funext k
    unfold addrsOf
    split
    · rename_i hk
      have := hget 4 (12 + 4 * k) (by unfold NDIRECT at hk; unfold DINODE_SIZE; omega)
      rwa [← Nat.add_assoc] at this
    · rfl
  · rw [if_neg hji]
    by_cases hblock : IBLOCK j sb = IBLOCK inum sb
    · rw [hblock, Function.update_self]
      apply dinode_congr
      intro o ho
      have hapart := dipOff_apart hji hblock
      exact Bytes.store_outside (by rw [hload]; omega)
    · rw [Function.update_of_ne hblock]

/-- An inode that is written back. -/
theorem sameFiles_close (h : inum < NINODES) :
    SameFiles (s.fsWith inum din) (s.stored inum din).fs := by
  refine ⟨rfl, fun j hj => ?_, fun b hb => ?_⟩
  · rw [inoOf_fs, inoOf_fsWith, dinode_stored h hj]
  · have hne : b ≠ IBLOCK inum sb := by
      have := IBLOCK_sb h
      have hb : sb.bmapstart ≤ b := hb
      omega
    rw [fs_disk, fsWith_disk]
    unfold mapped State.stored
    dsimp only
    by_cases hmap : b = sb.bmapstart
    · rw [hmap, Function.update_self, Function.update_self]
    · rw [Function.update_of_ne hmap, Function.update_of_ne hmap, Function.update_of_ne hne]

theorem stored_boot (h : b < sb.inodestart) : (s.stored inum din).disk b = s.disk b := by
  have hstart : sb.inodestart ≤ IBLOCK inum sb := Nat.le_add_left ..
  unfold State.stored
  dsimp only
  rw [Function.update_of_ne (by omega)]

theorem Blank.stored (h : Blank s) (hlt : inum < NINODES) : Blank (s.stored inum din) := by
  refine h.set ?_
  have h1 := IBLOCK_sb hlt
  have h2 := h.lo
  have h3 : sb.bmapstart < nmeta := by decide
  omega

/-! ## The invariant -/

/-- The image between two calls of `iappend`. Each file has the blocks for its size and no
other ones, and the last of them ends with zeros. -/
structure Sound (s : State) : Prop where
  blank : Blank s
  ok : FsOk s.fs
  inodes : ∀ j, IsInode s.fs j ↔ 0 < j ∧ j < s.freeinode
  few : s.freeinode ≤ NINODES
  covers : ∀ j, IsInode s.fs j → Covers s.fs j (inoOf s.fs j).size
  tail : ∀ j, IsInode s.fs j → ∀ q < MAXFILE * BSIZE, (inoOf s.fs j).size ≤ q →
    fileByte s.fs j q = 0

/-- From `s` to `s'`, the file `inum` got the bytes `p` at its end. -/
structure Extends (s : State) (inum : Nat) (p : List Byte) (s' : State) : Prop where
  sound : Sound s'
  content : ∀ j, IsInode s.fs j → content s'.fs j = content s.fs j ++ if j = inum then p else []
  type : ∀ j, IsInode s.fs j → (inoOf s'.fs j).type = (inoOf s.fs j).type
  boot : ∀ b < sb.inodestart, s'.disk b = s.disk b
  freeblock : s'.freeblock + need (inoOf s.fs inum).size =
    s.freeblock + need ((inoOf s.fs inum).size + p.length)
  freeinode : s'.freeinode = s.freeinode

theorem Sound.lt (h : Sound s) (hj : IsInode s.fs j) : j < NINODES :=
  ((h.inodes j).mp hj).2.trans_le h.few

theorem Covers.congr {S S' : Fs} (h : Covers S inum n)
    (href : ∀ m < SLOTS, refOf S' inum m = refOf S inum m) :
    Covers S' inum n := by
  refine ⟨fun bn hbn => ?_, ?_⟩
  · unfold blkOf
    rw [href _ (slotOf_lt hbn)]
    exact h.blk bn hbn
  · rw [← refOf_ind, href _ (by decide), refOf_ind]
    exact h.ind

namespace Extends

theorem isInode (h : Extends s inum p s') (hs : Sound s) (j : Nat) :
    IsInode s'.fs j ↔ IsInode s.fs j := by
  rw [h.sound.inodes, hs.inodes, h.freeinode]

theorem size (h : Extends s inum p s') (hj : IsInode s.fs j) :
    (inoOf s'.fs j).size = (inoOf s.fs j).size + if j = inum then p.length else 0 := by
  rw [← length_content, h.content j hj, List.length_append, length_content]
  congr 1
  split
  · rfl
  · rfl

theorem refl (h : Sound s) : Extends s inum [] s := by
  refine ⟨h, fun j _ => ?_, fun _ _ => rfl, fun _ _ => rfl, rfl, rfl⟩
  split
  · exact (List.append_nil _).symm
  · exact (List.append_nil _).symm

theorem trans {s₁ : State} {p₁ : List Byte} (h : Extends s inum p s₁) (h' : Extends s₁ inum p₁ s')
    (hs : Sound s) (hi : IsInode s.fs inum) : Extends s inum (p ++ p₁) s' := by
  refine ⟨h'.sound, fun j hj => ?_, fun j hj => ?_, fun b hb => (h'.boot b hb).trans (h.boot b hb),
    ?_, h'.freeinode.trans h.freeinode⟩
  · rw [h'.content j ((h.isInode hs j).mpr hj), h.content j hj, List.append_assoc]
    congr 1
    split
    · rfl
    · rfl
  · rw [h'.type j ((h.isInode hs j).mpr hj), h.type j hj]
  · have h1 := h.freeblock
    have h2 := h'.freeblock
    rw [h.size hi, if_pos rfl] at h2
    rw [List.length_append, ← Nat.add_assoc]
    omega

theorem fits_iff {m : Nat} (h : Extends s inum p s') (hi : IsInode s.fs inum) :
    Fits s' (inoOf s'.fs inum).size m ↔ Fits s (inoOf s.fs inum).size (p.length + m) := by
  have := h.freeblock
  rw [h.size hi, if_pos rfl]
  unfold Fits
  rw [Nat.add_assoc]
  omega

end Extends

/-! ## iappend -/

theorem entry_setDinSize (hn : n < 2 ^ 32) :
    entry inum (setDinSize din n) = { entry inum din with size := n } := by
  unfold entry
  have htype : (setDinSize din n).get16 0 = din.get16 0 := Bytes.getLE_putLE_of_disjoint (by omega)
  have hsize : dinSize (setDinSize din n) = n := Bytes.get32_put32 hn
  have haddr : dinAddr (setDinSize din n) = dinAddr din :=
    funext fun m => Bytes.get32_put32_ne (by omega)
  rw [htype, hsize, haddr]

theorem fsWith_setDinSize (hn : n < 2 ^ 32) :
    s.fsWith inum (setDinSize din n) = { s.fsWith inum din with
    itable := Function.update (s.fsWith inum din).itable 0
      { (s.fsWith inum din).itable 0 with size := n } } := by
  rw [fsWith_itable, ← entry_setDinSize hn]
  unfold State.fsWith
  dsimp only
  rw [Function.update_idem]

/-- An inode of a sound image is opened. -/
theorem Sound.opened (h : Sound s) (hi : IsInode s.fs inum) :
    SameFiles s.fs (s.fsWith inum (s.dinOf inum)) ∧
    Open s inum (s.dinOf inum) (inoOf s.fs inum).size := by
  have hsame := sameFiles_open (s := s) (h.lt hi)
  have hok := hsame.fsOk h.ok (binit_cache _) (binit_room _) fsWith_table (binit_clean _)
  exact ⟨hsame, h.blank, hok, (hsame.isInode inum).mpr hi, (h.covers inum hi).congr fun m _ =>
    hsame.ref h.ok hi m⟩

/-- The files when the inode `inum` is stored, as it is in `t`, with the size for `p` at
its end. -/
structure StoredBack (s : State) (inum : Nat) (p : List Byte) (t : Fs) (s' : State) : Prop where
  ok : FsOk s'.fs
  isInode : ∀ j, IsInode s'.fs j ↔ IsInode s.fs j
  ino : ∀ j, IsInode s.fs j → inoOf s'.fs j =
    if j = inum then { inoOf t inum with size := (inoOf s.fs inum).size + p.length } else
      inoOf s.fs j
  ref : ∀ j, IsInode s.fs j → ∀ m < SLOTS, refOf s'.fs j m =
    if j = inum then refOf t inum m else refOf s.fs j m
  bytes : ∀ j, IsInode s.fs j → ∀ q < MAXFILE * BSIZE, fileByte s'.fs j q =
    if j = inum then Bytes.store (fileByte s.fs inum) (inoOf s.fs inum).size p q else
      fileByte s.fs j q

namespace StoredBack

variable {t : Fs}

theorem size (h : StoredBack s inum p t s') (hj : IsInode s.fs j) :
    (inoOf s'.fs j).size = (inoOf s.fs j).size + if j = inum then p.length else 0 := by
  rw [h.ino j hj]
  split
  · rename_i heq
    rw [heq]
  · rfl

theorem content (h : StoredBack s inum p t s') (hj : IsInode s.fs j) :
    content s'.fs j = ThuKernel.content s.fs j ++ if j = inum then p else [] := by
  have hsize := h.size hj
  have hsizes : ∀ i < (inoOf s'.fs j).size, i < MAXFILE * BSIZE := by
    intro i hin
    have := (h.ok.fits j ((h.isInode j).mpr hj)).2
    omega
  unfold ThuKernel.content
  by_cases hji : j = inum
  · subst hji
    rw [if_pos rfl] at hsize ⊢
    rw [← Bytes.map_store, ← hsize]
    apply List.map_congr_left
    intro i hin
    rw [h.bytes j hj i (hsizes i (List.mem_range.mp hin)), if_pos rfl]
  · rw [if_neg hji, Nat.add_zero] at hsize
    rw [if_neg hji, List.append_nil, ← hsize]
    apply List.map_congr_left
    intro i hin
    rw [h.bytes j hj i (hsizes i (List.mem_range.mp hin)), if_neg hji]

/-- The files have the blocks for their sizes, if the one that was stored has. -/
theorem covers (h : StoredBack s inum p t s') (hs : Sound s)
    (hc : Covers t inum ((inoOf s.fs inum).size + p.length))
    (hj : IsInode s.fs j) : Covers s'.fs j (inoOf s'.fs j).size := by
  have hsize := h.size hj
  by_cases hji : j = inum
  · subst hji
    rw [if_pos rfl] at hsize
    rw [hsize]
    exact hc.congr fun m hm => by rw [h.ref j hj m hm, if_pos rfl]
  · rw [if_neg hji, Nat.add_zero] at hsize
    rw [hsize]
    exact (hs.covers j hj).congr fun m hm => by rw [h.ref j hj m hm, if_neg hji]

/-- The files end with zeros. -/
theorem tail (h : StoredBack s inum p t s') (hs : Sound s) (hj : IsInode s.fs j) {q : Nat}
    (hq : q < MAXFILE * BSIZE) (hge : (inoOf s'.fs j).size ≤ q) : fileByte s'.fs j q = 0 := by
  rw [h.size hj] at hge
  rw [h.bytes j hj q hq]
  by_cases hji : j = inum
  · subst hji
    rw [if_pos rfl] at hge ⊢
    rw [Bytes.store_outside (by omega)]
    exact hs.tail j hj q hq (by omega)
  · rw [if_neg hji] at hge ⊢
    exact hs.tail j hj q hq hge

end StoredBack

/-- After the loop of `iappend`, the new size is set and the inode is stored. -/
theorem Appended.storedBack {s₁ : State} {din' : Bytes} (h : Sound s) (hi : IsInode s.fs inum)
    (happ : Appended s inum (s.dinOf inum) (inoOf s.fs inum).size p s₁ din')
    (hend : (inoOf s.fs inum).size + p.length ≤ MAXFILE * BSIZE) :
    StoredBack s inum p (s₁.fsWith inum din')
    (s₁.stored inum (setDinSize din' ((inoOf s.fs inum).size + p.length))) := by
  obtain ⟨hsame, _⟩ := h.opened hi
  have hlt := h.lt hi
  have hmax : MAXFILE * BSIZE < 2 ^ 32 := by decide
  have hopened := happ.opened
  obtain ⟨n, hn⟩ : ∃ n, n = (inoOf s.fs inum).size + p.length := ⟨_, rfl⟩
  rw [← hn] at hend hopened ⊢
  -- The new size.
  obtain ⟨hok₂, htouch₂, hino₂, href₂⟩ :=
    setSize hopened.ok (entryFor hopened.inode) hend fun bn hbn =>
    (hopened.covers.blk bn (Nat.lt_of_mul_lt_mul_right (hbn.trans_le hend))).mpr hbn
  rw [← fsWith_setDinSize (hend.trans_lt hmax)] at hok₂ htouch₂ hino₂ href₂
  -- The inode is written back.
  have hclose := @sameFiles_close s₁ _ (setDinSize din' n) hlt
  have hok₃ := hclose.fsOk hok₂ (binit_cache _) (binit_room _) fs_table (binit_clean _)
  have hinode₂ : ∀ j, IsInode s.fs j ↔ IsInode (s₁.fsWith inum (setDinSize din' n)) j := fun j =>
    ((hsame.isInode j).symm.trans (happ.touches.isInode j).symm).trans (htouch₂.isInode j).symm
  refine ⟨hok₃, fun j => (hclose.isInode j).trans (hinode₂ j).symm, fun j hj => ?_,
    fun j hj m hm => ?_, fun j hj q hq => ?_⟩
  · have hjlt := h.lt hj
    rw [hclose.ino j hjlt]
    by_cases hji : j = inum
    · rw [if_pos hji, hji, hino₂, hn]
    · rw [if_neg hji, htouch₂.others j hjlt hji, happ.touches.others j hjlt hji, hsame.ino j hjlt]
  · rw [hclose.ref hok₂ ((hinode₂ j).mp hj), href₂]
    by_cases hji : j = inum
    · rw [if_pos hji, hji]
    · rw [if_neg hji, happ.touches.foreign j m ((hsame.isInode j).mpr hj) hji hm, hsame.ref h.ok hj]
  · have hmid : fileByte (s₁.fsWith inum (setDinSize din' n)) j q =
        fileByte (s₁.fsWith inum din') j q :=
      fileByte_congr (href₂ j _) fun _ => rfl
    rw [hclose.fileByte hok₂ ((hinode₂ j).mp hj) hq, hmid]
    by_cases hji : j = inum
    · rw [if_pos hji, hji, happ.bytes q hq]
      unfold Bytes.store
      rw [hsame.fileByte h.ok hi hq]
    · rw [if_neg hji, happ.touches.fileByte ((hsame.isInode j).mpr hj) hji hq,
        hsame.fileByte h.ok hj hq]

/-- With the inode stored, the file has the bytes at its end. -/
theorem Appended.extends {s₁ : State} {din' : Bytes} (h : Sound s) (hi : IsInode s.fs inum)
    (happ : Appended s inum (s.dinOf inum) (inoOf s.fs inum).size p s₁ din')
    (hend : (inoOf s.fs inum).size + p.length ≤ MAXFILE * BSIZE) :
    Extends s inum p (s₁.stored inum (setDinSize din' ((inoOf s.fs inum).size + p.length))) := by
  have hb := happ.storedBack h hi hend
  have hlt := h.lt hi
  obtain ⟨hsame, _⟩ := h.opened hi
  have hfree : s₁.freeinode = s.freeinode := happ.freeinode
  refine ⟨⟨happ.opened.blank.stored hlt, hb.ok, fun j => ?_, ?_, fun j hj => ?_,
    fun j hj q hq hge => ?_⟩,
    fun j hj => hb.content hj, fun j hj => ?_, fun b hlow => ?_, happ.freeblock, hfree⟩
  · rw [hb.isInode, h.inodes, ← hfree]
    rfl
  · exact hfree ▸ h.few
  · exact hb.covers h happ.opened.covers ((hb.isInode j).mp hj)
  · exact hb.tail h ((hb.isInode j).mp hj) hq hge
  · rw [hb.ino j hj]
    by_cases hji : j = inum
    · rw [if_pos hji, hji]
      have h1 := happ.touches.type
      have h2 := congrArg Ino.type (hsame.ino inum hlt)
      exact h1.trans h2
    · rw [if_neg hji]
  · rw [stored_boot hlow, happ.low b (hlow.trans (by decide))]

theorem iappend_runs (h : Sound s) (hi : IsInode s.fs inum) :
    Runs (fun _ => ¬ Fits s (inoOf s.fs inum).size p.length) (iappend inum p) s fun _ s' =>
      Fits s (inoOf s.fs inum).size p.length ∧ Extends s inum p s' := by
  obtain ⟨hsame, hopen⟩ := h.opened hi
  have hlt := h.lt hi
  have hmax : MAXFILE * BSIZE < 2 ^ 32 := by decide
  have hle := (h.ok.fits inum hi).2
  have hsize : xint (dinSize (s.dinOf inum)) = (inoOf s.fs inum).size := by
    have hino := congrArg Ino.size (hsame.ino inum hlt)
    rw [inoOf_fsWith, if_pos rfl] at hino
    exact (xint_of_lt (Bytes.get32_lt ..)).trans hino
  unfold iappend
  refine (rinode_runs h.blank hlt).bind ?_
  rintro _ _ ⟨rfl, hs⟩
  rw [hs, hsize]
  refine (iappendLoop_runs (p.length + 1) hopen (Nat.lt_succ_self _) hle).bind ?_
  rintro ⟨off, din'⟩ s₁ ⟨hfits, hoff, happ⟩
  dsimp only at hoff happ ⊢
  subst hoff
  have hend := hfits.1
  rw [xint_of_lt (hend.trans_lt hmax)]
  refine (winode_runs happ.opened.blank hlt).imp ?_
  rintro _ _ rfl
  exact ⟨hfits, happ.extends h hi hend⟩

/-- All reads of a file are appended, one after the other. -/
theorem appendAll_runs (h : Sound s) (hi : IsInode s.fs inum) (reads : List (List Byte)) :
    Runs (fun _ => ¬ Fits s (inoOf s.fs inum).size reads.flatten.length) (appendAll inum reads)
    s fun _ s' =>
      Fits s (inoOf s.fs inum).size reads.flatten.length ∧ Extends s inum reads.flatten s' := by
  induction reads generalizing s with
  | nil => exact ⟨⟨(h.ok.fits inum hi).2, Nat.add_le_add_right h.blank.hi _⟩, Extends.refl h⟩
  | cons cc reads ih =>
    unfold appendAll
    rw [List.flatten_cons, List.length_append]
    have hless : ¬ Fits s (inoOf s.fs inum).size cc.length →
        ¬ Fits s (inoOf s.fs inum).size (cc.length + reads.flatten.length) := by
      rintro hno ⟨h1, h2⟩
      have hmono : need ((inoOf s.fs inum).size + cc.length) ≤
          need ((inoOf s.fs inum).size + (cc.length + reads.flatten.length)) :=
        need_mono (by omega)
      exact hno ⟨by omega, by omega⟩
    refine ((iappend_runs h hi).mono (fun _ he => hless he) fun _ _ hr => hr).bind ?_
    rintro _ s₁ ⟨_, hext⟩
    have hiff := hext.fits_iff hi (m := reads.flatten.length)
    refine (ih hext.sound ((hext.isInode h inum).mpr hi)).mono (fun _ he => hiff.not.mp he) ?_
    rintro _ s₂ ⟨hfits, hext'⟩
    exact ⟨hiff.mp hfits, hext.trans hext' h hi⟩

/-! ## ialloc -/

/-- From `s` to `s'`, there is one more file, which is empty. -/
structure Added (s : State) (type : Nat) (s' : State) : Prop where
  sound : Sound s'
  freeinode : s'.freeinode = s.freeinode + 1
  freeblock : s'.freeblock = s.freeblock
  new : (inoOf s'.fs s.freeinode).type = type ∧ content s'.fs s.freeinode = []
  content : ∀ j, IsInode s.fs j → content s'.fs j = content s.fs j
  type : ∀ j, IsInode s.fs j → (inoOf s'.fs j).type = (inoOf s.fs j).type
  boot : ∀ b < sb.inodestart, s'.disk b = s.disk b

/-- The 64 bytes of a new inode. -/
theorem store_fresh {type : Nat} (htype : type < 2 ^ 16) :
    d.store (dipOff inum) ((setDinSize (Bytes.put16 (fun _ => 0) 0 (xshort type)) (xint 0)).load 0
      DINODE_SIZE) =
      freshDinode d inum type := by
  have hshort : xshort type = type := Nat.mod_eq_of_lt htype
  funext x
  rw [hshort]
  by_cases hin : dipOff inum ≤ x ∧ x < dipOff inum + DINODE_SIZE
  · rw [Bytes.store_inside hin.1 (by rw [Bytes.length_load]; omega)]
    simp only [Bytes.load, List.getElem_map, List.getElem_range]
    unfold freshDinode setDinSize Bytes.put32 Bytes.put16 Bytes.putLE xint
    rw [Bytes.fill_inside hin.1 hin.2, Nat.zero_add, Nat.sub_zero]
    have h2 : (0 ≤ x - dipOff inum ∧ x - dipOff inum < 0 + 2) ↔
        (dipOff inum ≤ x ∧ x < dipOff inum + 2) := by omega
    by_cases h8 : 8 ≤ x - dipOff inum ∧ x - dipOff inum < 8 + 4
    · rw [if_pos h8, if_neg (by omega), Nat.zero_mod, Nat.zero_div]
      rfl
    · rw [if_neg h8]
      simp only [h2]
  · rw [Bytes.store_outside (by rw [Bytes.length_load]; omega), freshDinode_outside (by omega)]

/-- The free inode that is taken is a new, empty file. -/
theorem Sound.added {type : Nat} (h : Sound s) (hnew : NewInode s.fs s.freeinode type s'.fs)
    (h0 : 0 < s.freeinode) (hfew : s.freeinode < NINODES) (hblank : Blank s')
    (hfreeinode : s'.freeinode = s.freeinode + 1) (hfreeblock : s'.freeblock = s.freeblock)
    (hboot : ∀ b < sb.inodestart, s'.disk b = s.disk b) : Added s type s' := by
  have hblock := IBLOCK_sb hfew
  have hne : ∀ j, IsInode s.fs j → j ≠ s.freeinode := by
    rintro j hj rfl
    have := ((h.inodes _).mp hj).2
    omega
  have hino : ∀ j, IsInode s.fs j → inoOf s'.fs j = inoOf s.fs j := by
    intro j hj
    rw [hnew.ino, if_neg (hne j hj)]
  have hkeep : ∀ b, nmeta ≤ b → s'.fs.bio.disk b = s.fs.bio.disk b := by
    intro b hb
    refine hnew.disk b ?_
    have hmeta : sb.bmapstart < nmeta := by decide
    change b ≠ IBLOCK s.freeinode sb
    omega
  have href : ∀ j, IsInode s.fs j → ∀ m, refOf s'.fs j m = refOf s.fs j m := fun j hj m =>
    refOf_congr (hino j hj) (fun hz => hkeep _ (nmeta_sb ▸ (h.ok.ind hj hz).1)) m
  have hbyte : ∀ j, IsInode s.fs j → ∀ q < MAXFILE * BSIZE, fileByte s'.fs j q =
      fileByte s.fs j q := fun j hj q hq =>
    fileByte_congr (href j hj _) fun hz =>
      hkeep _ (nmeta_sb ▸ (h.ok.ref hj (slotOf_lt (div_lt_MAXFILE hq)) hz).1)
  have hown : inoOf s'.fs s.freeinode = ⟨type, 0, fun _ => 0⟩ := by rw [hnew.ino, if_pos rfl]
  have hzero : ∀ m, refOf s'.fs s.freeinode m = 0 := by
    intro m
    unfold refOf refAt
    rw [hown]
    simp
  refine ⟨⟨hblank, hnew.synced.ok, fun j => ?_, ?_, fun j hj => ?_, fun j hj q hq hge => ?_⟩,
    hfreeinode, hfreeblock, ?_, fun j hj => ?_, fun j hj => by rw [hino j hj], hboot⟩
  · rw [hnew.inodes, h.inodes, hfreeinode]
    omega
  · rw [hfreeinode]
    omega
  · rcases (hnew.inodes j).mp hj with rfl | hold
    · rw [hown]
      refine ⟨fun bn _ => ?_, ?_⟩
      · unfold blkOf
        rw [hzero]
        exact iff_of_false (fun hc => hc rfl) (Nat.not_lt_zero _)
      · rw [← refOf_ind, hzero]
        exact iff_of_false (fun hc => hc rfl) (Nat.not_lt_zero _)
    · rw [hino j hold]
      exact (h.covers j hold).congr fun m _ => href j hold m
  · rcases (hnew.inodes j).mp hj with rfl | hold
    · have hnone : blkOf s'.fs s.freeinode (q / BSIZE) = 0 := hzero _
      unfold fileByte
      rw [if_pos hnone]
    · rw [hino j hold] at hge
      rw [hbyte j hold q hq]
      exact h.tail j hold q hq hge
  · rw [hown]
    refine ⟨rfl, ?_⟩
    unfold ThuKernel.content
    rw [hown]
    rfl
  · unfold ThuKernel.content
    rw [hino j hj]
    apply List.map_congr_left
    intro i hi
    have hfits := (h.ok.fits j hj).2
    exact hbyte j hj i ((List.mem_range.mp hi).trans_le hfits)

theorem ialloc_runs {type : Nat} (h : Sound s) (h0 : 0 < s.freeinode) (hfew : s.freeinode < NINODES)
    (htype : type ≠ 0) (hfit : type < 2 ^ 16) : Runs E (ialloc type) s fun r s' => r = s.freeinode ∧
    Added s type s' := by
  have hblank : Blank { s with freeinode := s.freeinode + 1 } :=
    ⟨h.blank.length, h.blank.lo, h.blank.hi, h.blank.clear⟩
  have hsync := h.ok.synced (fun _ _ => rfl)
  have hfree : dinodeType (s.fs.bio.disk (IBLOCK s.freeinode s.fs.sb)) s.freeinode = 0 := by
    by_contra hne
    have hnot := (h.inodes s.freeinode).not.mpr (by omega)
    refine hnot ⟨h0, hfew, ?_⟩
    rw [inoOf_fs]
    rwa [fs_disk] at hne
  have hblock := IBLOCK_sb hfew
  unfold ialloc
  rw [Runs.bind_iff, Runs.get_iff, Runs.bind_iff, Runs.set_iff]
  refine (winode_runs hblank hfew).bind ?_
  rintro _ _ rfl
  rw [Runs.pure_iff]
  obtain ⟨s', hs'⟩ : ∃ s' : State, s' = State.stored { s with freeinode := s.freeinode + 1 }
    s.freeinode (setDinSize (Bytes.put16 (fun _ => 0) 0 (xshort type)) (xint 0)) := ⟨_, rfl⟩
  rw [← hs']
  have hmapped : mapped s' = Function.update (mapped s) (IBLOCK s.freeinode sb)
      (freshDinode (mapped s (IBLOCK s.freeinode sb)) s.freeinode type) := by
    rw [hs', mapped_ne hblock.ne, ← store_fresh hfit]
    exact mapped_wsect hblock.ne
  have hnew : NewInode s.fs s.freeinode type s'.fs := by
    refine newInode hsync h0 hfew hfree htype hfit (binit_cache _) (binit_follows fun b hb => ?_) ?_
      (binit_clean _ _)
    · rw [hmapped]
      exact Function.update_of_ne hb ..
    · rw [binit_disk, fs_disk]
      exact hmapped
  refine ⟨rfl, h.added hnew h0 hfew ?_ ?_ ?_ fun b hb => ?_⟩
  · rw [hs']
    exact hblank.stored hfew
  · rw [hs']
    rfl
  · rw [hs']
    rfl
  · rw [hs', stored_boot hb]

end Mkfs

end ThuKernel
