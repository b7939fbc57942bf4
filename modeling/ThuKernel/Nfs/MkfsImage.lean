-- The image that mkfs leaves: mkfs ends just when its files fit, and the image has a root
-- directory with a name for each of them, and their bytes.
import ThuKernel.Nfs.MkfsRuns
import ThuKernel.Fs.RootDir

namespace ThuKernel

namespace Mkfs

variable {E : Stop → Prop} {s s' : State} {inum j k n b : Nat} {f : HostFile}
  {files done rest : List HostFile}

/-! ## What fits -/

/-- All bytes of a file of the host. -/
def HostFile.bytes (f : HostFile) : List Byte := (f.reads.getD []).flatten

/-- The file can be put on an image: by its name, and by its size. -/
structure Suits (f : HostFile) : Prop where
  name : noSlash (shortname f.path) = true
  opens : f.reads ≠ none
  size : f.bytes.length ≤ MAXFILE * BSIZE

/-- The blocks of the root directory and of the files. -/
def blocksOf (files : List HostFile) : Nat :=
  need (DIRENT_SIZE * files.length) + (files.map fun f => need f.bytes.length).sum

/-- Each file can be put on the image, and there are blocks for all of them. -/
structure FitsAll (files : List HostFile) : Prop where
  suits : ∀ f ∈ files, Suits f
  room : nmeta + blocksOf files ≤ FSSIZE

theorem blocksOf_append (done rest : List HostFile) : blocksOf done ≤ blocksOf (done ++ rest) := by
  have hdir : need (DIRENT_SIZE * done.length) ≤ need (DIRENT_SIZE * (done ++ rest).length) := by
    apply need_mono
    apply Nat.mul_le_mul_left
    rw [List.length_append]
    exact Nat.le_add_right ..
  unfold blocksOf
  rw [List.map_append, List.sum_append]
  omega

theorem blocksOf_concat (done : List HostFile) (f : HostFile) :
    blocksOf (done ++ [f]) + need (DIRENT_SIZE * done.length) =
    blocksOf done + need (DIRENT_SIZE * (done.length + 1)) + need f.bytes.length := by
  unfold blocksOf
  rw [List.map_append, List.sum_append, List.length_append, List.map_singleton, List.sum_singleton,
    List.length_singleton]
  omega

/-- Where all files fit, the first ones do. -/
theorem FitsAll.init (h : FitsAll (done ++ rest)) : FitsAll done := by
  have := blocksOf_append done rest
  exact ⟨fun f hf => h.suits f (List.mem_append_left _ hf), by have := h.room; omega⟩

/-! ## A file that is added -/

/-- The entry that is put into the root directory. -/
def direntOf (f : HostFile) (inum : Nat) : List Byte := newDirent (shortname f.path) (xshort inum)

/-- The entries of the root directory, from inode 2 on. -/
def dirents (files : List HostFile) : List Byte :=
  (files.zipIdx 2).flatMap fun e => direntOf e.1 e.2

/-- The image has these files, with the inodes from 2 on, and the root directory names them. -/
structure Listed (s : State) (files : List HostFile) : Prop where
  sound : Sound s
  fits : FitsAll files
  freeinode : s.freeinode = 2 + files.length
  freeblock : s.freeblock = nmeta + blocksOf files
  root : (inoOf s.fs ROOTINO).type = T_DIR
  dir : content s.fs ROOTINO = dirents files
  file : ∀ i f, files[i]? = some f → content s.fs (2 + i) = f.bytes
  type : ∀ i < files.length, (inoOf s.fs (2 + i)).type = T_FILE
  super : s.disk 1 = sbBlock

theorem length_direntOf (f : HostFile) (inum : Nat) : (direntOf f inum).length = DIRENT_SIZE :=
  length_newDirent ..

theorem dirents_concat (files : List HostFile) (f : HostFile) :
    dirents (files ++ [f]) = dirents files ++ direntOf f (2 + files.length) := by
  unfold dirents
  rw [List.zipIdx_append, List.flatMap_append]
  simp

theorem length_dirents (files : List HostFile) :
    (dirents files).length = DIRENT_SIZE * files.length := by
  unfold dirents
  simp [List.length_flatMap, length_direntOf, Nat.mul_comm]

namespace Listed

theorem isInode (h : Listed s files) : IsInode s.fs j ↔ 0 < j ∧ j < 2 + files.length := by
  rw [h.sound.inodes, h.freeinode]

theorem rootInode (h : Listed s files) : IsInode s.fs ROOTINO :=
  h.isInode.mpr ⟨Nat.one_pos, by unfold ROOTINO; omega⟩

theorem rootSize (h : Listed s files) : (inoOf s.fs ROOTINO).size = DIRENT_SIZE * files.length := by
  rw [← length_content, h.dir, length_dirents]

end Listed

/-- After a file got its inode, its entry and its bytes. -/
theorem Listed.concat {s₁ s₂ : State} (h : Listed s done) (hadd : Added s T_FILE s₁)
    (hroot : Extends s₁ ROOTINO (direntOf f s.freeinode) s₂)
    (hall : Extends s₂ s.freeinode f.bytes s') (hf : Suits f) :
    Listed s' (done ++ [f]) := by
  obtain ⟨inum, hinum⟩ : ∃ inum, inum = s.freeinode := ⟨_, rfl⟩
  have hnew := hadd.new
  have hfree₁ := hadd.freeinode
  rw [← hinum] at hroot hall hnew hfree₁
  have hnum : inum = 2 + done.length := hinum.trans h.freeinode
  have hR : ROOTINO = 1 := rfl
  have hinode₁ : ∀ j, 0 < j → j ≤ inum → IsInode s₁.fs j :=
    fun j h0 hj => (hadd.sound.inodes j).mpr ⟨h0, by omega⟩
  have hinode₂ : ∀ j, 0 < j → j ≤ inum → IsInode s₂.fs j :=
    fun j h0 hj => (hroot.isInode hadd.sound j).mpr (hinode₁ j h0 hj)
  have hold : ∀ j, 0 < j → j < inum →
      content s'.fs j = content s.fs j ++ (if j = ROOTINO then direntOf f inum else []) ∧
      (inoOf s'.fs j).type = (inoOf s.fs j).type := by
    intro j h0 hj
    have h1 := hinode₁ j h0 hj.le
    have h2 := hinode₂ j h0 hj.le
    have hi : IsInode s.fs j := (h.sound.inodes j).mpr ⟨h0, hinum ▸ hj⟩
    constructor
    · rw [hall.content j h2, hroot.content j h1, hadd.content j hi, if_neg (Nat.ne_of_lt hj),
        List.append_nil]
    · rw [hall.type j h2, hroot.type j h1, hadd.type j hi]
  have hempty : content s₂.fs inum = [] := by
    rw [hroot.content inum (hinode₁ inum (by omega) (Nat.le_refl _)), hnew.2, if_neg (by omega),
      List.append_nil]
  have hown : content s'.fs inum = f.bytes := by
    rw [hall.content inum (hinode₂ inum (by omega) (Nat.le_refl _)), hempty, if_pos rfl,
      List.nil_append]
  have hblocks : s'.freeblock = nmeta + blocksOf (done ++ [f]) := by
    have h1 := hroot.freeblock
    have h2 := hall.freeblock
    rw [← length_content, hadd.content _ h.rootInode, length_content, h.rootSize, length_direntOf,
      ← Nat.mul_add_one, hadd.freeblock, h.freeblock] at h1
    rw [← length_content, hempty, List.length_nil, need_zero, Nat.zero_add] at h2
    have := blocksOf_concat done f
    omega
  refine ⟨hall.sound, ⟨fun g hg => ?_, ?_⟩, ?_, hblocks, ?_, ?_, fun i g hi => ?_,
    fun i hi => ?_, ?_⟩
  · rcases List.mem_append.mp hg with hg | hg
    · exact h.fits.suits g hg
    · rw [List.mem_singleton.mp hg]
      exact hf
  · rw [← hblocks]
    exact hall.sound.blank.hi
  · rw [hall.freeinode, hroot.freeinode, hfree₁, hnum, List.length_append]
    rfl
  · rw [(hold _ (by decide) (by omega)).2, h.root]
  · rw [(hold _ (by decide) (by omega)).1, if_pos rfl, h.dir, dirents_concat, hnum]
  · by_cases hlt : i < done.length
    · rw [List.getElem?_append_left hlt] at hi
      rw [(hold _ (by omega) (by omega)).1, if_neg (by omega), List.append_nil]
      exact h.file i g hi
    · rw [List.getElem?_append_right (Nat.le_of_not_lt hlt)] at hi
      have hg := List.mem_singleton.mp (List.mem_of_getElem? hi)
      have hlen := (List.getElem?_eq_some_iff.mp hi).1
      rw [List.length_singleton] at hlen
      have hin : 2 + i = inum := by omega
      rw [hin, hown, hg]
  · rw [List.length_append, List.length_singleton] at hi
    by_cases hlt : i < done.length
    · rw [(hold _ (by omega) (by omega)).2]
      exact h.type i hlt
    · have hin : 2 + i = inum := by omega
      have h0 : 0 < inum := by omega
      rw [hin, hall.type _ (hinode₂ inum h0 (Nat.le_refl _)),
        hroot.type _ (hinode₁ inum h0 (Nat.le_refl _))]
      exact hnew.1
  · rw [hall.boot 1 (by decide), hroot.boot 1 (by decide), hadd.boot 1 (by decide), h.super]

/-- The entry of a file and its bytes are put on the image. -/
theorem addFile_runs (h : Listed s done) (hfew : 2 + done.length < NINODES) (f : HostFile) :
    Runs (fun _ => ¬ FitsAll (done ++ [f])) (addFile ROOTINO f) s fun _ s' =>
    Listed s' (done ++ [f]) := by
  have hlast : f ∈ done ++ [f] := List.mem_append_right _ (List.mem_singleton_self f)
  have hD : DIRENT_SIZE = 16 := rfl
  have hM : DIRENT_SIZE * NINODES ≤ MAXFILE * BSIZE := by decide
  have hconcat := blocksOf_concat done f
  have hblocks := h.freeblock
  unfold addFile
  by_cases hname : noSlash (shortname f.path) = false
  · rw [if_pos hname, Runs.panic_iff]
    intro hfit
    rw [(hfit.suits f hlast).name] at hname
    exact Bool.noConfusion hname
  rw [if_neg hname]
  cases hreads : f.reads with
  | none =>
    dsimp only
    rw [Runs.panic_iff]
    exact fun hfit => (hfit.suits f hlast).opens hreads
  | some reads =>
    have hbytes : f.bytes = reads.flatten := by
      unfold HostFile.bytes
      rw [hreads]
      rfl
    dsimp only
    refine (ialloc_runs h.sound (by rw [h.freeinode]; omega) (by rw [h.freeinode]; exact hfew)
      (by decide) (by decide)).bind ?_
    rintro inum s₁ ⟨hinum, hadd⟩
    have hnum : inum = 2 + done.length := hinum.trans h.freeinode
    have hnext : s₁.freeinode = inum + 1 := by rw [hadd.freeinode, hinum]
    have hroot₁ : IsInode s₁.fs ROOTINO :=
      (hadd.sound.inodes _).mpr ⟨Nat.one_pos, by unfold ROOTINO; omega⟩
    have hinode₁ : IsInode s₁.fs inum := (hadd.sound.inodes _).mpr ⟨by omega, by omega⟩
    have hsize₁ : (inoOf s₁.fs ROOTINO).size = DIRENT_SIZE * done.length := by
      rw [← length_content, hadd.content _ h.rootInode, length_content, h.rootSize]
    have hentry := length_direntOf f inum
    have hfree₁ := hadd.freeblock
    -- The entry in the root directory.
    refine (((iappend_runs hadd.sound hroot₁ (p := direntOf f inum)).mono (fun _ hno hfit =>
      hno ⟨?_, ?_⟩) fun _ _ hr => hr).bind ?_)
    · rw [hsize₁, hentry, hD] at *
      omega
    · have := hfit.room
      rw [hsize₁, hentry, ← Nat.mul_add_one]
      omega
    rintro _ s₂ ⟨_, hroot⟩
    have hinode₂ := (hroot.isInode hadd.sound inum).mpr hinode₁
    have hsize₂ : (inoOf s₂.fs inum).size = 0 := by
      have hne : inum ≠ ROOTINO := by unfold ROOTINO; omega
      have hempty := hadd.new.2
      rw [← hinum] at hempty
      rw [← length_content, hroot.content _ hinode₁, hempty, if_neg hne]
      rfl
    have hfree₂ := hroot.freeblock
    rw [hsize₁, hentry, ← Nat.mul_add_one] at hfree₂
    -- The bytes.
    refine (appendAll_runs hroot.sound hinode₂ reads).mono (fun _ hno hfit => hno ⟨?_, ?_⟩) ?_
    · rw [hsize₂, Nat.zero_add, ← hbytes]
      exact (hfit.suits f hlast).size
    · have := hfit.room
      rw [hsize₂, Nat.zero_add, need_zero, ← hbytes]
      omega
    rintro _ s₃ ⟨hroom, hall⟩
    have hlen := hroom.1
    rw [hsize₂, Nat.zero_add, ← hbytes] at hlen
    rw [hinum] at hroot hall
    rw [← hbytes] at hall
    exact h.concat hadd hroot hall
      ⟨by simpa using hname, by rw [hreads]; exact Option.some_ne_none _, hlen⟩

/-- The loop over the files. -/
theorem addFiles_runs (h : Listed s done) (rest : List HostFile)
    (hfew : 2 + done.length + rest.length ≤ NINODES) :
    Runs (fun _ => ¬ FitsAll (done ++ rest)) (addFiles ROOTINO rest) s fun _ s' =>
    Listed s' (done ++ rest) := by
  induction rest generalizing s done with
  | nil =>
    unfold addFiles
    rw [Runs.pure_iff, List.append_nil]
    exact h
  | cons f rest ih =>
    rw [List.length_cons] at hfew
    have hsplit : done ++ f :: rest = done ++ [f] ++ rest := by simp
    unfold addFiles
    refine ((addFile_runs h (by omega) f).mono (fun _ hno hfit => hno ?_) fun _ _ hr => hr).bind ?_
    · rw [hsplit] at hfit
      exact hfit.init
    rintro _ s₁ h₁
    rw [hsplit]
    refine ih h₁ ?_
    rw [List.length_append, List.length_singleton]
    omega

/-! ## The size of the root directory -/

/-- The size that `fixRoot` gives to a directory of `n` bytes. -/
def fixed (n : Nat) : Nat := (n / BSIZE + 1) * BSIZE

/-- From `s` to `s'`, the size of one inode became `n`. -/
structure Resized (s : State) (inum n : Nat) (s' : State) : Prop where
  blank : Blank s'
  freeblock : s'.freeblock = s.freeblock
  ino : ∀ j < NINODES, inoOf s'.fs j = if j = inum then { inoOf s.fs inum with size := n } else
    inoOf s.fs j
  disk : ∀ b, sb.bmapstart ≤ b → s'.fs.bio.disk b = s.fs.bio.disk b
  boot : ∀ b < sb.inodestart, s'.disk b = s.disk b
  ok : n ≤ MAXFILE * BSIZE → (∀ bn, bn * BSIZE < n → blkOf s.fs inum bn ≠ 0) → FsOk s'.fs

theorem Sound.resized (h : Sound s) (hi : IsInode s.fs inum) (hn : n < 2 ^ 32) :
    Resized s inum n (s.stored inum (setDinSize (s.dinOf inum) n)) := by
  obtain ⟨hsame, hopen⟩ := h.opened hi
  have hlt := h.lt hi
  have hclose := @sameFiles_close s _ (setDinSize (s.dinOf inum) n) hlt
  refine ⟨h.blank.stored hlt, rfl, fun j hj => ?_, fun b hb => ?_, fun b hb => stored_boot hb,
    fun hmax hfull => ?_⟩
  · rw [hclose.ino j hj, inoOf_fsWith, entry_setDinSize hn, inoOf_fs, inoOf_fs, ← ino_din hlt]
    rfl
  · rw [hclose.disk b hb, fsWith_disk, fs_disk]
  · have hblk : ∀ bn, bn * BSIZE < n → blkOf (s.fsWith inum (s.dinOf inum)) inum bn ≠ 0 := by
      intro bn hbn
      have := hsame.ref h.ok hi (slotOf bn)
      unfold blkOf at hfull ⊢
      rw [this]
      exact hfull bn hbn
    obtain ⟨hok, _, _, _⟩ := setSize hopen.ok (entryFor hopen.inode) hmax hblk
    rw [← fsWith_setDinSize hn] at hok
    exact hclose.fsOk hok (binit_cache _) (binit_room _) fs_table (binit_clean _)

namespace Resized

variable {t : State}

theorem type (h : Resized s inum n t) (hj : j < NINODES) :
    (inoOf t.fs j).type = (inoOf s.fs j).type := by
  rw [h.ino j hj]
  split
  · rename_i heq
    rw [heq]
  · rfl

theorem isInode (h : Resized s inum n t) (j : Nat) : IsInode t.fs j ↔ IsInode s.fs j :=
  isInode_congr rfl fun hj => by rw [h.type hj]

theorem ref (h : Resized s inum n t) (hs : Sound s) (hj : IsInode s.fs j) (m : Nat) :
    refOf t.fs j m = refOf s.fs j m := by
  have haddrs : (inoOf t.fs j).addrs = (inoOf s.fs j).addrs := by
    rw [h.ino j (hs.lt hj)]
    split
    · rename_i heq
      rw [heq]
    · rfl
  unfold refOf refAt
  rw [haddrs]
  split
  · rfl
  · split
    · rfl
    · rename_i hind
      rw [h.disk]
      have h1 := (hs.ok.ind hj hind).1
      have h2 := @bmapstart_le s.fs.sb
      exact h2.trans h1

theorem fileByte (h : Resized s inum n t) (hs : Sound s) (hj : IsInode s.fs j) {q : Nat}
    (hq : q < MAXFILE * BSIZE) :
    ThuKernel.fileByte t.fs j q = ThuKernel.fileByte s.fs j q := by
  refine fileByte_congr (h.ref hs hj _) fun h0 => h.disk _ ?_
  have h1 := (hs.ok.ref hj (slotOf_lt (div_lt_MAXFILE hq)) h0).1
  have h2 := @bmapstart_le s.fs.sb
  exact h2.trans h1

theorem content_ne (h : Resized s inum n t) (hs : Sound s) (hj : IsInode s.fs j) (hne : j ≠ inum) :
    content t.fs j = ThuKernel.content s.fs j := by
  unfold ThuKernel.content
  rw [h.ino _ (hs.lt hj), if_neg hne]
  apply List.map_congr_left
  intro q hq
  exact h.fileByte hs hj ((List.mem_range.mp hq).trans_le (hs.ok.fits _ hj).2)

/-- The file has zeros up to its new size. -/
theorem content (h : Resized s inum n t) (hs : Sound s) (hi : IsInode s.fs inum)
    (hle : (inoOf s.fs inum).size ≤ n) (hmax : n ≤ MAXFILE * BSIZE) : ThuKernel.content t.fs inum =
      ThuKernel.content s.fs inum ++ List.replicate (n - (inoOf s.fs inum).size) 0 := by
  have htail := hs.tail inum hi
  obtain ⟨m, hm⟩ : ∃ m, m = (inoOf s.fs inum).size := ⟨_, rfl⟩
  rw [← hm] at hle htail ⊢
  have hnew : (inoOf t.fs inum).size = m + (n - m) := by
    rw [h.ino _ (hs.lt hi), if_pos rfl, Nat.add_sub_of_le hle]
  unfold ThuKernel.content
  rw [hnew, ← hm, List.range_add, List.map_append]
  congr 1
  · apply List.map_congr_left
    intro q hq
    have hq := List.mem_range.mp hq
    exact h.fileByte hs hi (by omega)
  · rw [List.eq_replicate_iff, List.map_map, List.length_map, List.length_range]
    refine ⟨rfl, fun b hb => ?_⟩
    obtain ⟨q, hq, rfl⟩ := List.mem_map.mp hb
    have hq := List.mem_range.mp hq
    have hlt : m + q < MAXFILE * BSIZE := by omega
    exact (h.fileByte hs hi hlt).trans (htail _ hlt (Nat.le_add_right ..))

end Resized

theorem le_fixed (n : Nat) : n ≤ fixed n := by
  have hdm := Nat.div_add_mod' n BSIZE
  have hmod := Nat.mod_lt n (show 0 < BSIZE by decide)
  unfold fixed
  rw [Nat.add_mul, Nat.one_mul]
  omega

/-- The sizes in whole blocks. -/
theorem lt_fixed {bn : Nat} (hpart : n % BSIZE ≠ 0) : bn * BSIZE < fixed n ↔ bn * BSIZE < n := by
  have hdm := Nat.div_add_mod' n BSIZE
  have hmod := Nat.mod_lt n (show 0 < BSIZE by decide)
  unfold fixed
  rw [mul_BSIZE_lt]
  constructor
  · intro hbn
    have := Nat.mul_le_mul_right BSIZE (Nat.le_of_lt_succ hbn)
    omega
  · intro hbn
    by_contra hc
    have := Nat.mul_le_mul_right BSIZE (Nat.le_of_not_lt hc)
    rw [Nat.add_mul, Nat.one_mul] at this
    omega

theorem fixRoot_runs (h : Listed s files) (hfew : 2 + files.length ≤ NINODES) :
    Runs E (fixRoot ROOTINO) s fun _ s' =>
    Resized s ROOTINO (fixed (DIRENT_SIZE * files.length)) s' := by
  have hlt := h.sound.lt h.rootInode
  have hN : NINODES = 200 := rfl
  have hB : BSIZE = 1024 := rfl
  have hD : DIRENT_SIZE = 16 := rfl
  have hsize : xint (dinSize (s.dinOf ROOTINO)) = DIRENT_SIZE * files.length := by
    have hdin : xint (dinSize (s.dinOf ROOTINO)) = dinSize (s.dinOf ROOTINO) :=
      xint_of_lt (Bytes.get32_lt ..)
    rw [hdin, ← h.rootSize, inoOf_fs, ← ino_din hlt]
    rfl
  have hfixed : fixed (DIRENT_SIZE * files.length) < 2 ^ 32 := by
    unfold fixed
    rw [hB, hD]
    omega
  unfold fixRoot
  refine (rinode_runs h.sound.blank hlt).bind ?_
  rintro _ _ ⟨rfl, hs⟩
  rw [hs]
  dsimp only
  rw [hsize]
  change Runs E (winode ROOTINO (setDinSize _ (xint (fixed (DIRENT_SIZE * files.length))))) s _
  rw [xint_of_lt hfixed]
  refine (winode_runs h.sound.blank hlt).imp ?_
  rintro _ _ rfl
  exact h.sound.resized h.rootInode hfixed

/-! ## The image -/

/-- An image when the kernel has booted on it. -/
def mounted (disk : Nat → Bytes) : Fs := ⟨sb, binit disk, noInodes⟩

/-- The image has the files, with the inodes from 2 on, under the names that the root
directory has before its last zeros. -/
structure Image (files : List HostFile) (s : State) : Prop where
  length : s.length = FSSIZE
  super : s.disk 1 = sbBlock
  inodes : ∀ j, IsInode (mounted s.disk) j ↔ 0 < j ∧ j < 2 + files.length
  root : (inoOf (mounted s.disk) ROOTINO).type = T_DIR
  dir : content (mounted s.disk) ROOTINO =
    dirents files ++ List.replicate
    (fixed (DIRENT_SIZE * files.length) - DIRENT_SIZE * files.length) 0
  file : ∀ i f, files[i]? = some f → content (mounted s.disk) (2 + i) = f.bytes
  type : ∀ i < files.length, (inoOf (mounted s.disk) (2 + i)).type = T_FILE
  sound : FsOk (mounted s.disk) ↔ files.length * DIRENT_SIZE % BSIZE ≠ 0

/-- With its size in whole blocks, a file has a block for each of its bytes just when it
ended inside a block. -/
theorem Resized.ok_iff (h : Resized s inum (fixed n) s') (hs : Sound s) (hi : IsInode s.fs inum)
    (hsize : (inoOf s.fs inum).size = n) (hlt : n < MAXFILE * BSIZE)
    (hmax : fixed n ≤ MAXFILE * BSIZE) :
    FsOk s'.fs ↔ n % BSIZE ≠ 0 := by
  have hfull : ∀ bn < MAXFILE, blkOf s.fs inum bn ≠ 0 ↔ bn * BSIZE < n := fun bn hbn => by
    rw [(hs.covers inum hi).blk bn hbn, hsize]
  constructor
  · intro hok hpart
    have hdm := Nat.div_add_mod' n BSIZE
    have hlast : n / BSIZE * BSIZE < (inoOf s'.fs inum).size := by
      rw [h.ino _ (hs.lt hi), if_pos rfl]
      exact mul_BSIZE_lt.mpr (Nat.lt_succ_self _)
    have hblk : blkOf s'.fs inum (n / BSIZE) ≠ 0 := hok.full inum ((h.isInode inum).mpr hi) _ hlast
    have hkept : blkOf s'.fs inum (n / BSIZE) = blkOf s.fs inum (n / BSIZE) := h.ref hs hi _
    rw [hkept, hfull _ (div_lt_MAXFILE hlt)] at hblk
    omega
  · intro hpart
    refine h.ok hmax fun bn hbn => ?_
    have hlt := (lt_fixed hpart).mp hbn
    exact (hfull bn (mul_BSIZE_lt.mp (hbn.trans_le hmax))).mpr hlt

/-- After the size of the root directory and the free map are written. -/
theorem Listed.image (h : Listed s files) (hfew : 2 + files.length ≤ NINODES)
    (hr : Resized s ROOTINO (fixed (DIRENT_SIZE * files.length)) s') :
    Image files { s' with disk := mapped s' } := by
  have hB : BSIZE = 1024 := rfl
  have hD : DIRENT_SIZE = 16 := rfl
  have hN : NINODES = 200 := rfl
  have hM : 4 * BSIZE ≤ MAXFILE * BSIZE := by decide
  obtain ⟨n, hn⟩ : ∃ n, n = DIRENT_SIZE * files.length := ⟨_, rfl⟩
  have hmax : fixed n ≤ MAXFILE * BSIZE := by
    refine Nat.le_trans ?_ hM
    unfold fixed
    rw [hB]
    rw [hD] at hn
    omega
  have hlt : n < MAXFILE * BSIZE := by
    rw [hB, hD] at *
    omega
  rw [← hn] at hr
  have hroot := h.rootInode
  have hsize := h.rootSize
  rw [← hn] at hsize
  have hfs : mounted (mapped s') = s'.fs := rfl
  have hno : ∀ i, 2 + i ≠ ROOTINO := fun i => by unfold ROOTINO; omega
  refine ⟨h.sound.blank.length ▸ ?_, ?_, fun j => ?_, ?_, ?_, fun i f hi => ?_, fun i hi => ?_, ?_⟩
  · exact hr.blank.length.trans h.sound.blank.length.symm
  · change mapped s' 1 = sbBlock
    rw [mapped_ne (by decide), hr.boot 1 (by decide), h.super]
  · rw [hfs, hr.isInode, h.isInode]
  · rw [hfs, hr.type (h.sound.lt hroot), h.root]
  · rw [hfs, ← h.dir, ← hn, hr.content h.sound hroot (hsize ▸ le_fixed n) hmax, hsize]
  · have hlen := (List.getElem?_eq_some_iff.mp hi).1
    have hj : IsInode s.fs (2 + i) := h.isInode.mpr ⟨by omega, by omega⟩
    rw [hfs, hr.content_ne h.sound hj (hno i), h.file i f hi]
  · rw [hfs, hr.type (by omega), h.type i hi]
  · rw [hfs, Nat.mul_comm, ← hn]
    exact hr.ok_iff h.sound hroot hsize hlt hmax

/-! ## mkfs -/

/-- The image after the blocks of zeros and the super block are written. -/
def fresh : State := ⟨Function.update (fun _ _ => 0) 1 sbBlock, FSSIZE, 1, nmeta⟩

theorem used_fs (h : b < FSSIZE) : used s.fs b = decide (b < s.freeblock) := by
  rw [← @used_fsWith _ 0 _ (fun _ => 0) h]
  unfold used
  rw [fs_disk, fsWith_disk]
  rfl

theorem fresh_disk (h : b ≠ 1) : fresh.disk b = fun _ => 0 := by
  unfold fresh
  dsimp only
  rw [Function.update_of_ne h]

/-- There is no inode on the fresh image. -/
theorem fresh_sound : Sound fresh := by
  have hzero : ∀ b, b ≠ 1 → ∀ o, fresh.disk b o = 0 := fun b hb o => congrFun (fresh_disk hb) o
  have hno : ∀ j, ¬ IsInode fresh.fs j := by
    rintro j ⟨_, hlt, htype⟩
    refine htype ?_
    have hblock := IBLOCK_sb (hlt : j < NINODES)
    have hstart : sb.inodestart ≤ IBLOCK j sb := Nat.le_add_left ..
    have hne : IBLOCK j sb ≠ 1 := by
      have : sb.inodestart = 2 := rfl
      omega
    rw [inoOf_fs, mapped_ne hblock.ne, fresh_disk hne]
    exact Bytes.getLE_zero fun _ _ => rfl
  have hplace : ∀ p, place fresh.fs p = 0 := fun p => if_neg fun hc => hno _ hc.1
  refine ⟨⟨rfl, Nat.le_refl _, by decide, fun b hlo _ o => hzero b ?_ o⟩, ?_,
    fun j => ?_, by decide, fun j hj => absurd hj (hno j), fun j hj => absurd hj (hno j)⟩
  · rintro rfl
    exact absurd hlo (by decide)
  · refine ⟨binit_cache _, binit_room _, ⟨by decide, by decide, by decide⟩, fs_table,
      fun b _ => binit_clean _ b, fun b hb => ?_, ?_,
      fun j hj => absurd hj (hno j), fun j hj => absurd hj (hno j)⟩
    · have hb : b < nmeta := nmeta_sb ▸ hb
      rw [used_fs (hb.trans (by decide)), decide_eq_true_iff]
      exact hb
    · refine ⟨fun i hi => absurd (hplace i) hi, fun i hi => absurd (hplace i) hi,
        fun i _ hi => absurd (hplace i) hi, fun b hlo hhi hb => ?_⟩
      rw [used_fs hhi, decide_eq_true_iff] at hb
      have hlo : nmeta ≤ b := nmeta_sb ▸ hlo
      exact absurd hb (Nat.not_lt.mpr hlo)
  · refine iff_of_false (hno j) ?_
    rintro ⟨h0, h1⟩
    have hone : fresh.freeinode = 1 := rfl
    omega

theorem wzeroes_runs (n : Nat) (h : s.disk = fun _ _ => 0) (hlen : s.length = 0) :
    Runs E (wzeroes n) s fun _ s' => s' = { s with length := n } := by
  have hloop : Runs E (wzeroes n) s fun _ s' => s' = { s with length := 0 + n } := by
    unfold wzeroes
    refine Runs.forUp (fun i s' => s' = { s with length := i }) (fun i t _ _ ht => ?_) ?_
    · subst ht
      unfold wsect
      rw [Runs.modify_iff, Nat.max_eq_right (Nat.le_succ i), h]
      dsimp only
      rw [Function.update_eq_self_iff.mpr rfl]
    · rw [← hlen]
  rwa [Nat.zero_add] at hloop

/-- The root directory, before the first file. -/
theorem listed_nil (hadd : Added fresh T_DIR s) : Listed s [] := by
  have hnew : (inoOf s.fs ROOTINO).type = T_DIR ∧ content s.fs ROOTINO = [] := hadd.new
  refine ⟨hadd.sound, ⟨fun f hf => absurd hf (List.not_mem_nil), by decide⟩, hadd.freeinode,
    hadd.freeblock, hnew.1, hnew.2, fun i f hi => ?_, fun i hi => absurd hi (Nat.not_lt_zero i), ?_⟩
  · exact absurd hi (by simp)
  · rw [hadd.boot 1 (by decide)]
    unfold fresh
    dsimp only
    rw [Function.update_self]

theorem balloc_runs (h : Blank s) :
    Runs E (balloc s.freeblock) s fun _ s' => s' = { s with disk := mapped s } := by
  have hused : s.freeblock < BSIZE * 8 := h.hi.trans_lt (by decide)
  have hlt : sb.bmapstart + 1 ≤ s.length := h.length ▸ (by decide)
  unfold balloc
  rw [if_pos hused]
  unfold wsect
  rw [Runs.modify_iff, Nat.max_eq_left hlt]
  rfl

theorem main_runs (files : List HostFile) (hfew : 2 + files.length ≤ NINODES) :
    Runs (fun _ => ¬ FitsAll files) (main files) opened fun _ s' => FitsAll files ∧
    Image files s' := by
  unfold main
  refine Runs.bind (P := fun _ s' => s' = { opened with freeblock := nmeta })
    (Runs.modify_iff.mpr rfl) ?_
  rintro _ _ rfl
  refine (wzeroes_runs FSSIZE rfl rfl).bind ?_
  rintro _ _ rfl
  have hwsect : Runs (fun _ => ¬ FitsAll files) (wsect 1 sbBlock)
      { opened with freeblock := nmeta, length := FSSIZE } fun _ s' => s' = fresh := by
    unfold wsect
    rw [Runs.modify_iff]
    rfl
  refine hwsect.bind ?_
  rintro _ _ rfl
  have hialloc := @ialloc_runs (fun _ => ¬ FitsAll files) _ T_DIR fresh_sound (by decide)
    (by decide) (by decide) (by decide)
  refine hialloc.bind ?_
  rintro rootino s₁ ⟨hroot, hadd⟩
  have hroot : rootino = ROOTINO := hroot
  rw [hroot]
  have hloop := addFiles_runs (listed_nil hadd) files (by rw [List.length_nil]; omega)
  rw [List.nil_append] at hloop
  refine hloop.bind ?_
  intro _ s₂ h₂
  refine (fixRoot_runs h₂ hfew).bind ?_
  intro _ s₃ hr
  rw [Runs.bind_iff, Runs.get_iff]
  refine (balloc_runs hr.blank).imp ?_
  rintro _ _ rfl
  exact ⟨h₂.fits, h₂.image hfew hr⟩

/-- mkfs ends just when the files fit, and leaves an image of them. -/
theorem mkfs_makes_image (files : List HostFile) (hfew : 2 + files.length ≤ NINODES) :
    ((main files).returns opened = true ↔ FitsAll files) ∧
    (FitsAll files → Image files ((main files).final opened)) := by
  obtain ⟨hreturns, hfinal⟩ := (main_runs files hfew).returns_iff
  refine ⟨hreturns, fun hfits => ?_⟩
  obtain ⟨_, himage⟩ := hfinal hfits
  exact himage

/-- "ab", with two bytes. -/
def abFile : HostFile where
  path := nameAb
  reads := some [[0x68, 0x69]]
  sizes := fun _ h cc hcc => by
    cases h
    rw [List.mem_singleton.mp hcc]
    exact ⟨Nat.two_pos, Nat.le_add_left 2 1022⟩

theorem abFile_fits : FitsAll [abFile] := by
  refine ⟨fun f hf => ?_, by decide⟩
  rw [List.mem_singleton.mp hf]
  exact ⟨by decide, by decide, by decide⟩

theorem mkfs_makes_image_ab : (main [abFile]).returns opened = true ∧
    Image [abFile] ((main [abFile]).final opened) :=
  have h := mkfs_makes_image [abFile] (by decide)
  ⟨h.1.mpr abFile_fits, h.2 abFile_fits⟩

end Mkfs

end ThuKernel
