-- The kernel on an image of mkfs: `fsinit` takes the super block, and a file is found under
-- its name and read back as it was on the host.
import ThuKernel.Nfs.MkfsImage

namespace ThuKernel

variable {E : Stop → Prop} {s s' : Fs} {ip inum i : Nat}

/-! ## Bytes -/

theorem content_eq (h : FsOk s) (hi : IsInode s inum) : content s inum = contents s inum := by
  unfold content contents bytesAt
  apply List.map_congr_left
  intro p hp
  have hblk := h.full inum hi (p / BSIZE) ((Nat.div_mul_le_self ..).trans_lt (List.mem_range.mp hp))
  unfold fileByte
  rw [if_neg hblk, Nat.zero_add]

theorem direntAt_content (h : FsOk s) (hi : IsInode s inum) (hlt : i < dirCount s inum) :
    direntAt s inum i = ((content s inum).drop (DIRENT_SIZE * i)).take DIRENT_SIZE := by
  have hD : DIRENT_SIZE = 16 := rfl
  have hend : DIRENT_SIZE * i + DIRENT_SIZE ≤ (inoOf s inum).size := by
    unfold dirCount at hlt
    simp only [hD] at hlt ⊢
    omega
  rw [content_eq h hi]
  exact bytesAt_contents hend

namespace Rereads

variable {s₁ : Fs} {j : Nat}

theorem dataClean (h : Rereads s s') (hs : Synced s) (hc : DataClean s j) : DataClean s' j := by
  intro p hp
  rw [h.inoOf hs] at hp
  rw [h.blkOf hs]
  exact h.cached.since.clean _ (Set.notMem_empty _) (hc p hp)

end Rereads

/-- With room for all bytes of a file, `readi` gives them all. -/
theorem readi_contents (h : FsOk s) (he : Entry s ip inum) (hi : IsInode s inum)
    (hclean : DataClean s inum) :
    Runs E (readi ip (.kernel []) 0 (MAXFILE * BSIZE)) s fun r _ =>
    r = (((inoOf s inum).size : Int), .kernel (contents s inum)) := by
  have hfits := (h.fits _ hi).2
  have hmax : MAXFILE * BSIZE < 2 ^ 32 := by decide
  have hlen : readLen (inoOf s inum).size 0 (MAXFILE * BSIZE) = (inoOf s inum).size := by
    unfold readLen
    rw [if_neg (by omega)]
    omega
  refine (readi_kernel h he hmax hclean).imp ?_
  rintro _ _ ⟨rfl, _⟩
  rw [hlen]
  rfl

/-- With an entry of the table in no use, `dirlookup` returns. -/
theorem dirlookupLoop_free {dp d : Nat} (h : IsDir s dp d)
    (hfree : ∃ i < NINODE, (s.itable i).ref = 0) (name : CStr) (fuel : Nat) {u : Bio}
    (hu : Cached s.bio u) (hi : i ≤ dirCount s d) (hfuel : dirCount s d < fuel + i) :
    Runs (fun _ => False) (dirlookupLoop dp name fuel (DIRENT_SIZE * i)) { s with bio := u }
    fun _ _ => True := by
  induction fuel generalizing i u with
  | zero => omega
  | succ fuel ih =>
    have hdir := h.cached hu
    unfold dirlookupLoop
    rw [Runs.bind_iff, runs_getInode]
    dsimp only
    by_cases hlt : i < dirCount s d
    · rw [if_pos (h.lt_size.mpr hlt)]
      refine (hdir.readi (by rwa [dirCount_cached hu])).bind ?_
      rintro _ _ ⟨rfl, v, rfl, hv⟩
      have hnext := ih (i := i + 1) (hu.trans hv) (by omega) (by omega)
      rw [Nat.mul_add, Nat.mul_one] at hnext
      dsimp only
      rw [bytes_kernel, direntAt_cached hu, if_neg (by simp)]
      split
      · exact hnext
      · split
        · rw [h.entry.dev]
          exact (iget_fits ((hu.trans hv).fsOk h.ok).table (Or.inr hfree)).bind fun _ _ _ => trivial
        · exact hnext
    · rw [if_neg fun hc => hlt (h.lt_size.mp hc)]
      trivial

theorem dirlookup_free {dp d : Nat} (h : IsDir s dp d) (hfree : ∃ i < NINODE, (s.itable i).ref = 0)
    (name : CStr) :
    Runs E (dirlookup dp name) s fun r s' => LookedUp s d name 0 r s' := by
  have hstop : Runs (fun _ => False) (dirlookup dp name) s fun _ _ => True := by
    have htype : (s.itable dp).type = T_DIR := by
      rw [← h.type, h.entry.inoOf h.ok.table]
      rfl
    have hD : DIRENT_SIZE = 16 := rfl
    unfold dirlookup
    rw [Runs.bind_iff, runs_getInode, if_neg (by rw [htype]; simp)]
    refine dirlookupLoop_free h hfree name _ (Cached.refl h.ok.cache) (Nat.zero_le _) ?_
    rw [h.size_eq, hD]
    omega
  exact ((dirlookup_runs h name).and hstop).mono (fun _ he => he.2.elim) fun _ _ hl => hl.1

/-- On a sound disk after boot, `root_dir` returns the entry of the root directory. -/
theorem root_dir_free (h : RootOk s) (hnone : s.itable = noInodes) :
    Runs E root_dir s fun dp s' => Rereads s s' ∧ Entry s' dp ROOTINO ∧
    ∀ i ≠ dp, (s'.itable i).ref = 0 := by
  have hfree : ∃ i < NINODE, (s.itable i).ref = 0 := ⟨0, by decide, by rw [hnone]; rfl⟩
  refine (root_dir_fits h (Or.inr hfree)).imp ?_
  rintro dp s' ⟨hre, he, _, hothers⟩
  refine ⟨hre, he, fun i hi => ?_⟩
  rw [hothers i hi, hnone]
  rfl

namespace Mkfs

variable {files : List HostFile} {img : State} {name : CStr}

/-- Mounts the disk, and reads all of the file with the name into the kernel. -/
def readBack (name : CStr) : Prog Fs (Option (Int × List Byte)) := do
  fsinit
  match ← namei name with
  | none => pure none
  | some ip => do
    ivalid ip
    let (r, dst) ← readi ip (.kernel []) 0 (MAXFILE * BSIZE)
    pure (some (r, dst.bytes))

/-- The kernel before `fsinit`. -/
structure Boots (s : Fs) (disk : Nat → Bytes) : Prop where
  bio : s.bio = binit disk
  itable : s.itable = noInodes

theorem sb_stored : sbBlock.get32 0 = sb.magic ∧ sbBlock.get32 4 = sb.size ∧
    sbBlock.get32 8 = sb.nblocks ∧ sbBlock.get32 12 = sb.ninodes ∧
    sbBlock.get32 16 = sb.inodestart ∧ sbBlock.get32 20 = sb.bmapstart := by decide

/-- `fsinit` takes the super block that mkfs wrote. -/
theorem fsinit_runs (hcache : CacheOk s.bio) (hroom : Room s.bio) (hclean : Clean s.bio 1)
    (hblock : s.bio.disk 1 = sbBlock) :
    Runs E fsinit s fun _ s' => ∃ u, s' = { s with bio := u, sb := sb } ∧ Cached s.bio u := by
  obtain ⟨h0, h4, h8, h12, h16, h20⟩ := sb_stored
  unfold fsinit readsb
  simp only [Runs.bind_iff]
  refine (onBread hcache hroom 1).imp ?_
  rintro bp _ ⟨t, rfl, hh, hd, hdata⟩
  obtain ⟨h1, h2, h3, _⟩ := hh.read hd
  have hdata := (hdata hclean).trans hblock
  simp only [runs_bpData, Runs.modify_iff, runs_brelse, Runs.get_iff]
  rw [hdata, h0, h4, h8, h12, h16, h20, if_neg (by decide), Runs.pure_iff]
  exact ⟨t.release bp, rfl, h1, h2, h3⟩

/-! ## The root directory -/

theorem Image.size (h : Image files img) :
    (inoOf (mounted img.disk) ROOTINO).size = DIRENT_SIZE * files.length +
      (fixed (DIRENT_SIZE * files.length) - DIRENT_SIZE * files.length) := by
  rw [← length_content, h.dir, List.length_append, length_dirents, List.length_replicate]

theorem Image.count_le (h : Image files img) :
    files.length ≤ dirCount (mounted img.disk) ROOTINO := by
  have hD : DIRENT_SIZE = 16 := rfl
  unfold dirCount
  rw [h.size]
  simp only [hD]
  omega

/-- The entries of the files. -/
theorem dirents_getElem? (files : List HostFile) (k : Nat) (i : Nat) (hi : i < files.length)
    (rest : List Byte) :
    ((((files.zipIdx k).flatMap fun e => direntOf e.1 e.2) ++ rest).drop (DIRENT_SIZE * i)).take
    DIRENT_SIZE =
      direntOf files[i] (k + i) := by
  induction files generalizing k i with
  | nil => exact absurd hi (Nat.not_lt_zero i)
  | cons f files ih =>
    rw [List.zipIdx_cons, List.flatMap_cons, List.append_assoc]
    cases i with
    | zero => exact List.take_left' (length_direntOf ..)
    | succ i =>
      have hdrop : DIRENT_SIZE * (i + 1) = (direntOf f k).length + DIRENT_SIZE * i := by
        rw [length_direntOf, Nat.mul_add_one, Nat.add_comm]
      have hlt : i < files.length := Nat.lt_of_succ_lt_succ hi
      have hnum : k + 1 + i = k + (i + 1) := by omega
      dsimp only
      rw [hdrop, ← List.drop_drop, List.drop_left, List.getElem_cons_succ, ih (k + 1) i hlt, hnum]

/-- The mounted image is sound, and its root directory is one of whole entries. -/
theorem Image.rootOk (h : Image files img) (hok : FsOk (mounted img.disk))
    (hfew : 2 + files.length ≤ NINODES) :
    RootOk (mounted img.disk) ∧
    (∀ i (hi : i < files.length), direntAt (mounted img.disk) ROOTINO i =
    direntOf files[i] (2 + i)) ∧
      ∀ i, files.length ≤ i → i < dirCount (mounted img.disk) ROOTINO →
      direntInum (direntAt (mounted img.disk) ROOTINO i) = 0 := by
  have hD : DIRENT_SIZE = 16 := rfl
  have hB : BSIZE = 1024 := rfl
  have hN : NINODES = 200 := rfl
  obtain ⟨m, hm⟩ : ∃ m, m = fixed (DIRENT_SIZE * files.length) - DIRENT_SIZE * files.length :=
    ⟨_, rfl⟩
  have hsize := h.size
  have hdir := h.dir
  rw [← hm] at hsize hdir
  have hroot : IsInode (mounted img.disk) ROOTINO :=
    (h.inodes ROOTINO).mpr ⟨Nat.one_pos, by unfold ROOTINO; omega⟩
  have hcount := h.count_le
  have hfile : ∀ i (hi : i < files.length), direntAt (mounted img.disk) ROOTINO i =
      direntOf files[i] (2 + i) := by
    intro i hi
    rw [direntAt_content hok hroot (hi.trans_le hcount), hdir]
    exact dirents_getElem? files 2 i hi _
  have hrest : ∀ i, files.length ≤ i → i < dirCount (mounted img.disk) ROOTINO →
      direntInum (direntAt (mounted img.disk) ROOTINO i) = 0 := by
    intro i hi hlt
    have hoff : DIRENT_SIZE * i = (dirents files).length +
        (DIRENT_SIZE * i - DIRENT_SIZE * files.length) := by
      rw [length_dirents]
      simp only [hD]
      omega
    rw [direntAt_content hok hroot hlt, hdir, hoff, ← List.drop_drop, List.drop_left,
      List.drop_replicate, List.take_replicate]
    refine Bytes.getLE_zero fun k _ => ?_
    rw [List.getElem?_replicate]
    split
    · rfl
    · rfl
  refine ⟨⟨hok.synced fun _ _ => rfl, hroot, h.root, ?_, fun _ _ => binit_clean _ _,
    fun r hr => ?_⟩, hfile, hrest⟩
  · rw [hsize, hm]
    unfold fixed
    simp only [hD, hB]
    omega
  · obtain ⟨i, hi⟩ := List.getElem?_of_mem hr
    rw [getElem?_dirRows] at hi
    split at hi
    · rename_i hlt
      cases hi
      have hmax : (mounted img.disk).sb.ninodes = 200 := rfl
      rw [hmax]
      unfold rowOf
      dsimp only
      by_cases hin : i < files.length
      · rw [hfile i hin]
        unfold direntOf newDirent
        rw [direntInum_bytes]
        unfold xshort
        omega
      · rw [hrest i (Nat.le_of_not_lt hin) hlt]
        omega
    · exact absurd hi (by simp)

/-- After `fsinit`, the kernel has the image as it was mounted. -/
theorem Image.fsinit_rereads {s : Fs} (h : Image files img) (hroot : RootOk (mounted img.disk))
    (hboot : Boots s img.disk) :
    Runs E fsinit s fun _ s' => Rereads (mounted img.disk) s' ∧ s'.itable = noInodes := by
  have hbio := hboot.bio
  refine (fsinit_runs (hbio ▸ binit_cache _) (hbio ▸ (binit_room _).room) (hbio ▸ binit_clean _ 1)
    ?_).imp ?_
  · rw [hbio, binit_disk, h.super]
  · rintro _ _ ⟨u, rfl, hu⟩
    have heq : ({ s with bio := u, sb := sb } : Fs) = { mounted img.disk with bio := u } := by
      unfold mounted
      rw [hboot.itable]
    rw [hbio] at hu
    rw [heq]
    exact ⟨⟨hroot.synced.cached hu, rfl, hu⟩, rfl⟩

/-- The first of the files with the name: what the kernel keeps of a name decides. -/
def named (files : List HostFile) (name : CStr) : Option HostFile :=
  files.find? fun f => (shortname f.path).key == name.key

/-- In the root directory, the entries for a name are those of the files with it. -/
theorem Image.match_iff {i : Nat} (h : Image files img) (hok : FsOk (mounted img.disk))
    (hfew : 2 + files.length ≤ NINODES)
    (hi : i < dirCount (mounted img.disk) ROOTINO) : Match (mounted img.disk) ROOTINO name i ↔
      ∃ f, files[i]? = some f ∧ (shortname f.path).key = name.key := by
  obtain ⟨_, hfile, hrest⟩ := h.rootOk hok hfew
  have hN : NINODES = 200 := rfl
  unfold Match
  by_cases hin : i < files.length
  · have hrow := rowOf_newDirent (shortname files[i].path) (xshort (2 + i))
    have hnum := congrArg Prod.fst hrow
    have hname := congrArg Prod.snd hrow
    unfold rowOf at hnum hname
    dsimp only at hnum hname
    rw [hfile i hin, List.getElem?_eq_getElem hin]
    unfold direntOf
    rw [hnum, hname]
    unfold xshort
    simp
    omega
  · rw [hrest i (Nat.le_of_not_lt hin) hi, List.getElem?_eq_none (Nat.le_of_not_lt hin)]
    simp

/-- The first entry for a name is that of the first file with it. -/
theorem Image.named_some {j : Nat} (h : Image files img) (hok : FsOk (mounted img.disk))
    (hfew : 2 + files.length ≤ NINODES) (hj : j < dirCount (mounted img.disk) ROOTINO)
    (hm : Match (mounted img.disk) ROOTINO name j)
    (hfirst : ∀ k < j, ¬ Match (mounted img.disk) ROOTINO name k) :
    ∃ f, files[j]? = some f ∧ named files name = some f ∧
    direntInum (direntAt (mounted img.disk) ROOTINO j) = 2 + j := by
  obtain ⟨_, hfile, _⟩ := h.rootOk hok hfew
  have hN : NINODES = 200 := rfl
  obtain ⟨f, hf, hkey⟩ := (h.match_iff hok hfew hj).mp hm
  obtain ⟨hlt, hget⟩ := List.getElem?_eq_some_iff.mp hf
  refine ⟨f, hf, ?_, ?_⟩
  · unfold named
    rw [List.find?_eq_some_iff_getElem]
    refine ⟨by simpa using hkey, j, hlt, hget, fun i hi => ?_⟩
    have hno := hfirst i hi
    rw [h.match_iff hok hfew (hi.trans hj)] at hno
    have hne : (shortname files[i].path).key ≠ name.key :=
      fun hc => hno ⟨_, List.getElem?_eq_getElem (hi.trans hlt), hc⟩
    simpa using hne
  · rw [hfile j hlt]
    unfold direntOf newDirent
    rw [direntInum_bytes]
    unfold xshort
    omega

/-- With no entry for a name, no file has it. -/
theorem Image.named_none (h : Image files img) (hok : FsOk (mounted img.disk))
    (hfew : 2 + files.length ≤ NINODES)
    (hmiss : ∀ j < dirCount (mounted img.disk) ROOTINO, ¬ Match (mounted img.disk) ROOTINO name j) :
    named files name = none := by
  unfold named
  rw [List.find?_eq_none]
  intro f hf hkey
  obtain ⟨i, hi⟩ := List.getElem?_of_mem hf
  have hlt : i < dirCount (mounted img.disk) ROOTINO :=
    (List.getElem?_eq_some_iff.mp hi).1.trans_le h.count_le
  exact hmiss i hlt ((h.match_iff hok hfew hlt).mpr ⟨f, hi, by simpa using hkey⟩)

/-- Once the kernel has an entry for the inode of a file, it reads the bytes of the file. -/
theorem Image.reads {j : Nat} (h : Image files img) (hok : FsOk (mounted img.disk))
    (hfew : 2 + files.length ≤ NINODES) (hf : files[j]? = some f)
    (hre : Rereads (mounted img.disk) s) (hgot : Got s (2 + j) ip s') :
    Runs E (ivalid ip) s' fun _ s'' => Runs E (readi ip (.kernel []) 0 (MAXFILE * BSIZE))
    s'' fun r _ =>
      r = ((f.bytes.length : Int), .kernel f.bytes) := by
  obtain ⟨hroot, _, _⟩ := h.rootOk hok hfew
  have hMs := hroot.synced
  obtain ⟨hlt, _⟩ := List.getElem?_eq_some_iff.mp hf
  have hinode : IsInode (mounted img.disk) (2 + j) := (h.inodes _).mpr ⟨by omega, by omega⟩
  have hclean : DataClean (mounted img.disk) (2 + j) := fun _ _ => binit_clean _ _
  have hall : contents (mounted img.disk) (2 + j) = f.bytes := by
    rw [← content_eq hok hinode]
    exact h.file j f hf
  have hre' := hre.trans (hgot.rereads hre.synced ((hre.isInode hMs _).mpr hinode))
  have hvalid : IsInode s' (s'.itable ip).inum := by
    rw [hgot.num]
    exact (hre'.isInode hMs _).mpr hinode
  refine (ivalid_inode hre'.synced hgot.lt hgot.ref hvalid).imp ?_
  intro _ s'' hv
  have hre'' := hre'.trans hv.rereads
  obtain ⟨href, _, hnum, _⟩ := hv.holds.entry ip hgot.ref
  have he := hv.synced.entry hgot.lt href hv.valid
  rw [hnum, hgot.num] at he
  refine (readi_contents hv.synced.ok he ((hre''.isInode hMs _).mpr hinode)
    (hre''.dataClean hMs hclean)).imp ?_
  rintro _ _ rfl
  have hsize : (inoOf (mounted img.disk) (2 + j)).size = f.bytes.length := by
    rw [← hall]
    exact (length_bytesAt ..).symm
  rw [hre''.inoOf hMs, hre''.contents hMs, hall, hsize]

/-- The kernel reads what mkfs was given. -/
theorem Image.readBack_runs {s : Fs} (h : Image files img) (hok : FsOk (mounted img.disk))
    (hfew : 2 + files.length ≤ NINODES) (hboot : Boots s img.disk) (name : CStr) :
    Runs E (readBack name) s fun r _ => r = (named files name).map fun f =>
    ((f.bytes.length : Int), f.bytes) := by
  obtain ⟨hroot, _, _⟩ := h.rootOk hok hfew
  have hMs := hroot.synced
  unfold readBack namei
  refine (h.fsinit_rereads hroot hboot).bind ?_
  rintro _ s₁ ⟨hre₁, hnone⟩
  have hroot₁ := (hre₁.root hroot).ok
  rw [Runs.bind_iff]
  refine (root_dir_free hroot₁ hnone).bind ?_
  rintro dp s₂ ⟨hre₂, he, hothers⟩
  have hre := hre₁.trans hre₂
  have hroot₂ := (hre₂.root hroot₁).ok
  have hcount := hre.dirCount hMs ROOTINO
  have hfree : ∃ i < NINODE, (s₂.itable i).ref = 0 := by
    by_cases h0 : dp = 0
    · exact ⟨1, by decide, hothers 1 (by omega)⟩
    · exact ⟨0, by decide, hothers 0 (Ne.symm h0)⟩
  refine (dirlookup_free (hroot₂.isDir he) hfree name).bind ?_
  intro r s₃ hl
  rw [Runs.pure_iff]
  obtain ⟨u, hu, hl⟩ := hl
  cases r with
  | none =>
    obtain ⟨_, hmiss⟩ := hl
    have hnamed := h.named_none hok hfew fun j hj =>
      (hre.match_iff hMs).not.mp (hmiss j (Nat.zero_le j) (hcount ▸ hj))
    rw [hnamed, Option.map_none, Runs.pure_iff]
    rfl
  | some r =>
    obtain ⟨j, _, hj, _, hm, hfirst, hgot⟩ := hl
    obtain ⟨f, hf, hnamed, hnum⟩ := h.named_some hok hfew (hcount ▸ hj) ((hre.match_iff hMs).mp hm)
      fun k hk => (hre.match_iff hMs).not.mp (hfirst k (Nat.zero_le k) hk)
    rw [hre.direntAt hMs, hnum] at hgot
    have hreu : Rereads s₂ { s₂ with bio := u } := ⟨hroot₂.synced.cached hu, rfl, hu⟩
    rw [hnamed, Option.map_some]
    dsimp only
    refine (h.reads hok hfew hf (hre.trans hreu) hgot).bind ?_
    intro _ s₄ hread
    refine hread.bind ?_
    rintro _ _ rfl
    rfl

/-- After mkfs, the kernel that boots on the image finds each name, and reads the bytes that
the host had, when the entries do not fill the last block of the root directory. -/
theorem mkfs_then_readBack (files : List HostFile) (hfew : 2 + files.length ≤ NINODES)
    (hpart : files.length * DIRENT_SIZE % BSIZE ≠ 0) (hfits : FitsAll files) (s : Fs)
    (hboot : Boots s ((main files).final opened).disk) (name : CStr) :
    ∃ s', readBack name s = .ok ((named files name).map fun f => ((f.bytes.length : Int), f.bytes),
      s') := by
  have himage := (mkfs_makes_image files hfew).2 hfits
  obtain ⟨r, s', hrun, rfl⟩ :=
    (himage.readBack_runs (himage.sound.mpr hpart) hfew hboot name).returns
  exact ⟨s', hrun⟩

theorem mkfs_then_readBack_ab :
    ∃ s', readBack nameAb ⟨⟨0, 0, 0, 0, 0, 0⟩, binit ((main [abFile]).final opened).disk,
      noInodes⟩ =
    .ok (some (2, [0x68, 0x69]), s') :=
  mkfs_then_readBack [abFile] (by decide) (by decide) abFile_fits _ ⟨rfl, rfl⟩ _

end Mkfs

end ThuKernel
