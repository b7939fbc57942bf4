-- Reading never writes: over every run of calls on an image of mkfs, a call that only
-- reads leaves the disk and the entries of `itable` as they are.
import ThuKernel.Nfs.Mount
import ThuKernel.Kernel.LinkCounts

namespace ThuKernel

/-- A call that only reads. -/
inductive ReadOp where
  | root_dir
  | dirlookup (dp : Nat) (name : CStr)
  | namei (path : CStr)
  | readi (ip : Nat) (dst : Dst) (off n : Nat)
  | countLinks (dp inum : Nat)

def ReadOp.run : ReadOp → Prog Fs Unit
  | .root_dir => do
    let _ ← ThuKernel.root_dir
    pure ()
  | .dirlookup dp name => do
    let _ ← ThuKernel.dirlookup dp name
    pure ()
  | .namei path => do
    let _ ← ThuKernel.namei path
    pure ()
  | .readi ip dst off n => do
    let _ ← ThuKernel.readi ip dst off n
    pure ()
  | .countLinks dp inum => do
    let _ ← ThuKernel.countLinks dp inum
    pure ()

/-- What a caller of each function has. -/
def ReadOp.Allowed (s : Fs) : ReadOp → Prop
  | .root_dir => True
  | .dirlookup dp _ => IsRoot s dp
  | .namei _ => True
  | .readi ip _ _ n => OpenEntry s ip ∧ n < 2 ^ 32
  | .countLinks dp _ => IsRoot s dp

/-- The disk is the same, and so are the inodes in the table, but for the counts of their
references. -/
structure Unwritten (s s' : Fs) : Prop where
  disk : s'.bio.disk = s.bio.disk
  entry : ∀ i, 0 < (s.itable i).ref → (s.itable i).valid = true →
    ∃ ref > 0, s'.itable i = { s.itable i with ref }

variable {E : Stop → Prop} {s s₁ s' : Fs} {ip inum dp : Nat} {u : Bio}

namespace Unwritten

theorem cached (h : Cached s.bio u) : Unwritten s { s with bio := u } :=
  ⟨h.disk, fun i href _ => ⟨(s.itable i).ref, href, rfl⟩⟩

theorem trans (h : Unwritten s s₁) (h' : Unwritten s₁ s') : Unwritten s s' := by
  refine ⟨h'.disk.trans h.disk, fun i href hv => ?_⟩
  obtain ⟨r, hr, heq⟩ := h.entry i href hv
  have href₁ : 0 < (s₁.itable i).ref := by
    rw [heq]
    exact hr
  obtain ⟨r', hr', heq'⟩ := h'.entry i href₁ (by rw [heq]; exact hv)
  exact ⟨r', hr', by rw [heq', heq]⟩

end Unwritten

theorem Got.unwritten (h : Got s inum ip s') : Unwritten s s' := by
  refine ⟨by rw [h.bio], fun i href _ => ?_⟩
  by_cases hi : i = ip
  · rw [hi] at href ⊢
    rcases h.entry with ⟨_, _, _, heq⟩ | ⟨hzero, _, _⟩
    · exact ⟨(s.itable ip).ref + 1, by omega, heq⟩
    · omega
  · exact ⟨(s.itable i).ref, href, h.others i hi⟩

theorem Validated.unwritten (h : Validated s ip s') : Unwritten s s' :=
  ⟨h.cached.disk, fun i href hv => ⟨(s.itable i).ref, href, h.same i href hv⟩⟩

theorem LookedUp.unwritten {d : Nat} {name : CStr} {r : Option (Nat × Nat)}
    (h : LookedUp s d name 0 r s') : Unwritten s s' := by
  obtain ⟨u, hu, h⟩ := h
  cases r with
  | none =>
    rw [h.1]
    exact .cached hu
  | some e =>
    obtain ⟨_, _, _, _, _, _, hgot⟩ := h
    exact (Unwritten.cached hu).trans hgot.unwritten

theorem root_dir_unwritten (h : RootOk s) : Runs FsStops root_dir s fun _ s' => Unwritten s s' := by
  unfold root_dir
  have hget : Runs FsStops (iget ROOTDEV ROOTINO) s fun dp s' => Synced s' ∧ Got s ROOTINO dp s' :=
    (iget_synced h.synced h.inode.1 h.inode.2.1).mono (fun _ he => Or.inl he) fun _ _ hg => hg
  refine hget.bind ?_
  rintro dp s₁ ⟨hs, hgot⟩
  refine ((ivalid_synced hs hgot.lt hgot.ref).mono (fun _ he => Or.inr (Or.inl he)) fun _ _ hv =>
    hv).bind ?_
  intro _ s₂ hv
  rw [Runs.pure_iff]
  exact hgot.unwritten.trans hv.unwritten

theorem dirlookup_unwritten (h : RootOk s) (he : Entry s dp ROOTINO) (name : CStr) :
    Runs FsStops (dirlookup dp name) s fun _ s' => Unwritten s s' :=
  (dirlookup_runs (h.isDir he) name).mono (fun _ he => Or.inl (Or.inr (Or.inr he.1))) fun _ _ hl =>
    hl.unwritten

/-- The step lemma: reading writes neither the disk nor an inode of the table. -/
theorem ReadOp.unwritten {op : ReadOp} (h : RootOk s) (ha : op.Allowed s) :
    Runs FsStops op.run s fun _ s' => Unwritten s s' := by
  cases op with
  | root_dir => exact runs_discard (root_dir_unwritten h)
  | dirlookup dp name => exact runs_discard (dirlookup_unwritten h (ha.entry h) name)
  | namei path =>
    refine runs_discard ?_
    unfold ThuKernel.namei
    refine ((root_dir_unwritten h).and (root_dir_runs h)).mono (fun _ he => he.1) (fun _ _ hr => hr)
      |>.bind ?_
    rintro dp s₁ ⟨hun, hsame, he, _⟩
    refine (dirlookup_unwritten hsame.ok he path).bind ?_
    intro r s₂ hun'
    rw [Runs.pure_iff]
    exact hun.trans hun'
  | readi ip dst off n =>
    refine runs_discard ((readi_cached h.synced.ok (ha.1.entry h.synced) ha.2 dst).imp ?_)
    rintro _ _ ⟨u, rfl, hu⟩
    exact .cached hu
  | countLinks dp inum =>
    refine runs_discard ((countLinks_runs (h.isDir (ha.entry h)) inum).imp ?_)
    rintro _ _ ⟨_, u, rfl, hu⟩
    exact .cached hu

namespace Mkfs

variable {files : List HostFile} {img : State}

/-- The kernel after `fsinit` on the disk. -/
def Mounts (disk : Nat → Bytes) (s : Fs) : Prop := ∃ s₀, Boots s₀ disk ∧ fsinit s₀ = .ok ((), s)

/-- The image of mkfs is one on which the calls on files start. -/
theorem Image.mounts (h : Image files img) (hok : FsOk (mounted img.disk))
    (hfew : 2 + files.length ≤ NINODES) (hmount : Mounts img.disk s) : RootOk s := by
  obtain ⟨s₀, hboot, hrun⟩ := hmount
  obtain ⟨hroot, _, _⟩ := h.rootOk hok hfew
  exact (((h.fsinit_rereads (E := fun _ => False) hroot hboot).of_ok hrun).1.root hroot).ok

/-- After mkfs, and after any calls on its image: each block stands at one place of one
file, and a call that only reads changes neither the free map nor an inode. The entries
do not fill the last block of the root directory. -/
theorem reading_never_writes (files : List HostFile) (hfew : 2 + files.length ≤ NINODES)
    (hpart : files.length * DIRENT_SIZE % BSIZE ≠ 0) (hfits : FitsAll files) {s₁ s : Fs}
    (hmount : Mounts ((main files).final opened).disk s₁) (hrun : NameRun s₁ s) :
    BlocksSound s ∧ ∀ op : ReadOp, op.Allowed s → Runs FsStops op.run s fun _ s' =>
    Unwritten s s' := by
  have himage := (mkfs_makes_image files hfew).2 hfits
  have hroot := himage.mounts (himage.sound.mpr hpart) hfew hmount
  have h := (hrun.root hroot).ok
  exact ⟨h.synced.ok.blocksSound, fun op ha => op.unwritten h ha⟩

/-- The kernel on the image of one file. -/
def abFs : Fs :=
  fsinit.final ⟨⟨0, 0, 0, 0, 0, 0⟩, binit ((main [abFile]).final opened).disk, noInodes⟩

theorem abFs_mounts : Mounts ((main [abFile]).final opened).disk abFs ∧ RootOk abFs ∧
    abFs.itable = noInodes := by
  have himage := (mkfs_makes_image [abFile] (by decide)).2 abFile_fits
  obtain ⟨hroot, _, _⟩ := himage.rootOk (himage.sound.mpr (by decide)) (by decide)
  obtain ⟨s₀, hs₀⟩ : ∃ s₀ : Fs, s₀ = ⟨⟨0, 0, 0, 0, 0, 0⟩, binit ((main [abFile]).final opened).disk,
      noInodes⟩ := ⟨_, rfl⟩
  have hboot : Boots s₀ ((main [abFile]).final opened).disk := by
    rw [hs₀]
    exact ⟨rfl, rfl⟩
  obtain ⟨_, s₁, hret, hre, hnone⟩ := (himage.fsinit_rereads hroot hboot).returns
  have hab : abFs = s₁ := by
    unfold abFs
    rw [← hs₀]
    exact Prog.final_of_ok hret
  rw [hab]
  exact ⟨⟨s₀, hboot, hret⟩, (hre.root hroot).ok, hnone⟩

/-- After `root_dir`, which holds an entry for the root directory. -/
theorem reading_never_writes_ab : ∃ s, NameOp.root_dir.run abFs = .ok ((), s) ∧ BlocksSound s ∧
    ∀ op : ReadOp, op.Allowed s → Runs FsStops op.run s fun _ s' => Unwritten s s' := by
  obtain ⟨hmount, hroot, hnone⟩ := abFs_mounts
  obtain ⟨dp, s, hrun, _⟩ := (root_dir_free (E := fun _ => False) hroot hnone).returns
  have hcall : NameOp.root_dir.run abFs = .ok ((), s) := Prog.bind_ok hrun
  exact ⟨s, hcall, reading_never_writes [abFile] (by decide) (by decide) abFile_fits hmount
    (.single ⟨.root_dir, trivial, hcall⟩)⟩

end Mkfs

end ThuKernel
