-- Runs of the calls on files, by name and by descriptor: each data block that is marked
-- is the block of one file, and no call frees a free one.
import ThuKernel.Fs.RootDir
import ThuKernel.Kernel.FileCalls

namespace ThuKernel

/-! ## The calls -/

/-- A call on files. -/
inductive NameOp where
  | create (path : CStr) (type : Nat)
  | openInode (path : CStr) (omode : Nat)
  | root_dir
  | dirlookup (dp : Nat) (name : CStr)
  | dirlink (dp : Nat) (name : CStr) (inum : Nat)
  | dirunlink (dp : Nat) (name : CStr) (behind : Bytes)
  | linkat (oldpath newpath : Bytes)
  | unlinkat (path behind : Bytes)
  | readi (ip : Nat) (dst : Dst) (off n : Nat)
  | writei (ip : Nat) (src : Src) (off n : Nat)
  | itrunc (ip : Nat)
  | iput (ip : Nat)

/-- The call, without its result. -/
def NameOp.run : NameOp → Prog Fs Unit
  | .create path type => do
    let _ ← ThuKernel.create path type
    pure ()
  | .openInode path omode => do
    let _ ← ThuKernel.openInode path omode
    pure ()
  | .root_dir => do
    let _ ← ThuKernel.root_dir
    pure ()
  | .dirlookup dp name => do
    let _ ← ThuKernel.dirlookup dp name
    pure ()
  | .dirlink dp name inum => do
    let _ ← ThuKernel.dirlink dp name inum
    pure ()
  | .dirunlink dp name behind => do
    let _ ← ThuKernel.dirunlink dp name behind
    pure ()
  | .linkat oldpath newpath => do
    let _ ← ThuKernel.linkat oldpath newpath
    pure ()
  | .unlinkat path behind => do
    let _ ← ThuKernel.unlinkat path behind
    pure ()
  | .readi ip dst off n => do
    let _ ← ThuKernel.readi ip dst off n
    pure ()
  | .writei ip src off n => do
    let _ ← ThuKernel.writei ip src off n
    pure ()
  | .itrunc ip => ThuKernel.itrunc ip
  | .iput ip => ThuKernel.iput ip

/-- The entry is the one of the root directory. -/
def IsRoot (s : Fs) (dp : Nat) : Prop := OpenEntry s dp ∧ (s.itable dp).inum = ROOTINO

/-- What a caller of each function has. The root directory is written through `dirlink`
and `dirunlink` only, and linked names are for inodes of the disk. -/
def NameOp.Allowed (s : Fs) : NameOp → Prop
  | .create _ type => type ≠ 0 ∧ type < 2 ^ 16
  | .openInode .. => True
  | .root_dir => True
  | .dirlookup dp _ => IsRoot s dp
  | .dirlink dp _ inum => IsRoot s dp ∧ inum < s.sb.ninodes
  | .dirunlink dp .. => IsRoot s dp
  | .linkat .. => True
  | .unlinkat .. => True
  | .readi ip _ _ n => OpenEntry s ip ∧ n < 2 ^ 32
  | .writei ip src _ n =>
    OpenEntry s ip ∧ ROOTINO ≠ (s.itable ip).inum ∧ n < 2 ^ 32 ∧ (src.data n).length = n
  | .itrunc ip => OpenEntry s ip
  | .iput ip => HasRef s ip

/-- A call that returns. -/
def NameStep (s s' : Fs) : Prop := ∃ op : NameOp, op.Allowed s ∧ op.run s = .ok ((), s')

/-- Any calls, one after the other. -/
abbrev NameRun : Fs → Fs → Prop := Relation.ReflTransGen NameStep

variable {s s₁ s' : Fs} {dp ip inum : Nat} {op : NameOp}

/-! ## One call -/

theorem IsRoot.entry (h : IsRoot s dp) (hr : RootOk s) : Entry s dp ROOTINO := by
  have := h.1.entry hr.synced
  rwa [h.2] at this

theorem openInode_root (h : RootOk s) (path : CStr) (omode : Nat) :
    Runs FsStops (openInode path omode) s fun r s' =>
    GivesOpen s r s' := by
  unfold openInode
  split
  · exact create_root h (by decide) (by decide)
  · unfold namei
    rw [Runs.bind_iff]
    refine (root_dir_runs h).bind ?_
    rintro dp s₁ ⟨h₁, he₁, _⟩
    refine (dirlookup_root h₁.ok he₁ path).bind ?_
    rintro r s₂ ⟨hsame, _, hfound⟩
    have h₂ := h₁.trans (hsame.sameRoot h₁.ok)
    rw [Runs.pure_iff]
    cases r with
    | none =>
      exact ⟨h₂.step, fun ip hip => nomatch hip⟩
    | some e =>
      have hf := hfound e rfl
      dsimp only [Option.map]
      refine (ivalid_root h₂.ok hf.hasRef).bind ?_
      rintro _ s₃ ⟨h₃, hv⟩
      rw [Runs.pure_iff]
      refine ⟨(h₂.trans h₃).step, ?_⟩
      rintro ip ⟨⟩
      refine ⟨⟨hf.hasRef.1, ?_⟩, hv.valid⟩
      rw [hv.ref]
      exact hf.hasRef.2

theorem linkat_root (h : RootOk s) (oldpath newpath : Bytes) :
    Runs FsStops (linkat oldpath newpath) s fun _ s' => RootStep s s' := by
  unfold linkat
  refine (root_dir_runs h).bind ?_
  rintro dp s₁ ⟨h₁, he₁, _⟩
  split
  · exact h₁.step
  · refine (dirlookup_root h₁.ok he₁ _).bind ?_
    rintro r s₂ ⟨hsame, _, hfound⟩
    have h₂ := h₁.trans (hsame.sameRoot h₁.ok)
    cases r with
    | none => exact h₂.step
    | some e =>
      have hf := hfound e rfl
      dsimp only
      rw [Runs.bind_iff, runs_getInode]
      refine (dirlink_root h₂.ok hsame.isDir.entry _ (by rw [hsame.opened.sb]; exact hf.lt)).bind ?_
      rintro r s₃ ⟨hstep, _⟩
      split
      · exact h₂.step.trans hstep
      · exact h₂.step.trans hstep

theorem unlinkat_root (h : RootOk s) (path behind : Bytes) :
    Runs FsStops (unlinkat path behind) s fun _ s' => RootStep s s' := by
  unfold unlinkat
  dsimp only
  refine (root_dir_runs h).bind ?_
  rintro dp s₁ ⟨h₁, he₁, _⟩
  refine (dirlookup_root h₁.ok he₁ _).bind ?_
  rintro r s₂ ⟨hsame, _, _⟩
  have h₂ := h₁.trans (hsame.sameRoot h₁.ok)
  cases r with
  | none => exact h₂.step
  | some e =>
    dsimp only
    refine (dirunlink_root h₂.ok hsame.isDir.entry _ behind).bind ?_
    intro r s₃ hstep
    split
    · exact h₂.step.trans hstep
    · exact h₂.step.trans hstep

/-- The step lemma: each call keeps the invariant, and stops for want of room only, or
at an inode with no type. -/
theorem NameOp.root (h : RootOk s) (ha : op.Allowed s) :
    Runs FsStops op.run s fun _ s' => RootStep s s' := by
  cases op with
  | create path type => exact runs_discard ((create_root h ha.1 ha.2).imp fun _ _ hg => hg.step)
  | openInode path omode => exact runs_discard ((openInode_root h path omode).imp fun _ _ hg =>
    hg.step)
  | root_dir => exact runs_discard ((root_dir_runs h).imp fun _ _ hg => hg.1.step)
  | dirlookup dp name => exact runs_discard ((dirlookup_root h (ha.entry h) name).imp fun _ _ hg =>
    (hg.1.sameRoot h).step)
  | dirlink dp name inum => exact runs_discard ((dirlink_root h (ha.1.entry h) name ha.2).imp
    fun _ _ hg => hg.1)
  | dirunlink dp name behind => exact runs_discard (dirunlink_root h (ha.entry h) name behind)
  | linkat oldpath newpath => exact runs_discard (linkat_root h oldpath newpath)
  | unlinkat path behind => exact runs_discard (unlinkat_root h path behind)
  | readi ip dst off n => exact runs_discard ((readi_root h ha.1 ha.2 dst).imp fun _ _ hg =>
    hg.step)
  | writei ip src off n => exact runs_discard ((writei_root h ha.1 ha.2.1 ha.2.2.1 ha.2.2.2).imp
    fun _ _ hg => hg.step)
  | itrunc ip => exact itrunc_root h ha
  | iput ip => exact (iput_root h ha.1).imp fun _ _ hg => hg.1.step

/-- The run lemma. -/
theorem NameRun.root (hr : NameRun s s') (h : RootOk s) : RootStep s s' := by
  induction hr with
  | refl => exact ⟨h, id⟩
  | tail _ hs ih =>
    obtain ⟨op, ha, hrun⟩ := hs
    exact ih.trans ((op.root ih.ok ha).of_ok hrun)

/-! ## The blocks -/

/-- The block numbers in the inodes: the direct ones, the one of the indirect block, and
the ones in it. The entry of an inode that was read takes precedence over the disk. -/
structure BlocksSound (s : Fs) : Prop where
  marked : ∀ inum k, IsInode s inum → k < SLOTS → refOf s inum k ≠ 0 →
    nmeta s.sb ≤ refOf s inum k ∧ refOf s inum k < s.sb.size ∧ used s (refOf s inum k) = true
  once : ∀ inum k inum' k', IsInode s inum → k < SLOTS → IsInode s inum' → k' < SLOTS →
    refOf s inum k ≠ 0 → refOf s inum k = refOf s inum' k' → inum = inum' ∧ k = k'
  referenced : ∀ b, nmeta s.sb ≤ b → b < s.sb.size → used s b = true → ∃ inum k, IsInode s inum ∧
    k < SLOTS ∧ refOf s inum k = b

theorem FsOk.blocksSound (h : FsOk s) : BlocksSound s := by
  refine ⟨fun inum k hi hk h0 => h.ref hi hk h0, fun inum k inum' k' hi hk hi' hk' h0 heq => ?_,
    fun b h1 h2 hb => ?_⟩
  · exact h.ref_inj hi hi' hk hk' h0 heq
  · obtain ⟨⟨inum, k⟩, hp⟩ := h.owned.all b h1 h2 hb
    have hb0 : b ≠ 0 := by
      have := @nmeta_pos s.sb
      omega
    unfold place at hp
    split at hp
    · rename_i hin
      exact ⟨inum, k, hin.1, hin.2, hp⟩
    · exact absurd hp.symm hb0

/-- `balloc` gives a block that no inode has. -/
def GivesFree (s : Fs) : Prop := Runs OutOfBlocks (balloc ROOTDEV) s fun b _ =>
  nmeta s.sb ≤ b ∧ b < s.sb.size ∧ used s b = false ∧ ∀ inum k, IsInode s inum → k < SLOTS →
    refOf s inum k ≠ b

theorem FsOk.givesFree (h : FsOk s) : GivesFree s := by
  refine (balloc_runs h.mapOk).imp ?_
  rintro b _ ⟨u, rfl, hb⟩
  have hmeta : nmeta s.sb ≤ b := by
    by_contra hc
    have := h.metaUsed b (by omega)
    rw [hb.free] at this
    cases this
  refine ⟨hmeta, hb.lt, hb.free, fun inum k hi hk hc => ?_⟩
  have hused := (h.ref hi hk (by have := @nmeta_pos s.sb; omega)).2.2
  rw [hc, hb.free] at hused
  cases hused

/-- After any calls, each block number in an inode is a data block that is marked and
stands at one place, and the blocks that are marked stand at one. `balloc` gives a block
that stands at none, and no call frees one that is free. -/
theorem every_block_has_one_place (h : RootOk s) (hrun : NameRun s s') :
    BlocksSound s' ∧ GivesFree s' ∧
    ∀ op : NameOp, op.Allowed s' → op.run s' ≠ .error (.panic "freeing free block") := by
  have h' := (hrun.root h).ok
  refine ⟨h'.synced.ok.blocksSound, h'.synced.ok.givesFree, fun op ha herr => ?_⟩
  have hstop := (op.root h' ha).of_error herr
  unfold FsStops NoRoom OutOfBlocks NoType at hstop
  simp at hstop

/-! ## Small runs -/

theorem small_root : RootOk (smallFs (binit smallDisk)) := by
  have hdir := small_isDir
  refine RootOk.of_isDir hdir small_synced fun r hr => ?_
  obtain ⟨i, hi⟩ := List.getElem?_of_mem hr
  change (dirRows (smallFs (binit smallDisk)) 1)[i]? = some r at hi
  rw [getElem?_dirRows, small_dirCount, if_neg (Nat.not_lt_zero i)] at hi
  cases hi

theorem NameRun.next (hr : NameRun s s') (ha : op.Allowed s') (hret : op.run.returns s' = true) :
    NameRun s (op.run.final s') := by
  obtain ⟨_, hrun⟩ := Prog.returns_iff.mp hret
  exact hr.tail ⟨op, ha, hrun⟩

instance (s : Fs) (dp : Nat) : Decidable (IsRoot s dp) := inferInstanceAs (Decidable (_ ∧ _))

theorem small_link :
    NameRun (smallFs (binit smallDisk))
    ((NameOp.dirlink 0 nameAb 2).run.final (smallFs (binit smallDisk))) :=
  NameRun.next .refl ⟨by decide, show 2 < 5 by decide⟩ (by decide +kernel)

theorem every_block_has_one_place_after_a_link :
    BlocksSound ((NameOp.dirlink 0 nameAb 2).run.final (smallFs (binit smallDisk))) :=
  (every_block_has_one_place small_root small_link).1

/-- The small disk, but the root directory has an entry for inode 32, which is beyond the
inodes of the disk: its block is the one of file 2, and the bytes there say that it is
a file with the block of file 3. -/
def strayDisk : Nat → Bytes := fun b o =>
  if b = 2 ∧ o = 72 then 16 else if b = 2 ∧ o = 76 then 6 else if b = 3 ∧ o = 0 then 0x7f
  else if b = 4 then (if o = 0 then 2 else if o = 12 then 5 else 0)
  else if b = 6 then (if o = 0 then 32 else if o = 2 then 97 else 0)
  else smallDisk b o

theorem stray_blocks : (∀ inum < 5, ∀ k < 13, refOf (mountedFs strayDisk) inum k =
      if k = 0 then (if inum = 1 then 6 else if inum = 2 then 4 else if inum = 3 then 5 else 0) else
        0) ∧
    ∀ b < 16, used (mountedFs strayDisk) b = decide (b < 7) := by
  decide +kernel

/-- The file is opened, and truncated. -/
def openedStray : Fs := (NameOp.openInode nameA 0).run.final (mountedFs strayDisk)

def truncatedStray : Fs := (NameOp.itrunc 1).run.final openedStray

theorem stray_run : NameRun (mountedFs strayDisk) truncatedStray := by
  have hopen : NameRun (mountedFs strayDisk) openedStray :=
    NameRun.next .refl trivial (by decide +kernel)
  have hopened : OpenEntry openedStray 1 := by decide +kernel
  exact hopen.next hopened (by decide +kernel)

theorem stray_refOf {k : Nat} (hi : IsInode (mountedFs strayDisk) inum) :
    refOf (mountedFs strayDisk) inum k =
    if k = 0 then (if inum = 1 then 6 else if inum = 2 then 4 else if inum = 3 then 5 else 0) else
      0 := by
  have hlt : inum < 5 := hi.2.1
  by_cases hk : k < 13
  · exact stray_blocks.1 inum hlt k hk
  · have hind := stray_blocks.1 inum hlt NDIRECT (by decide)
    rw [if_neg (by decide), refOf_ind] at hind
    rw [if_neg (by omega), refOf_of_no_ind (by unfold NDIRECT; omega) hind]

theorem stray_sound : BlocksSound (mountedFs strayDisk) := by
  have hin : ∀ b, 4 ≤ b → b < 7 → ∃ inum, IsInode (mountedFs strayDisk) inum ∧
      refOf (mountedFs strayDisk) inum 0 = b := by
    intro b h1 h2
    have htype : ∀ inum < 4, 0 < inum → (inoOf (mountedFs strayDisk) inum).type ≠ 0 := by
      decide +kernel
    have hino : ∀ inum, 0 < inum → inum < 4 → IsInode (mountedFs strayDisk) inum :=
      fun inum h0 h4 => ⟨h0, show inum < 5 by omega, htype inum h4 h0⟩
    obtain rfl | rfl | rfl : b = 4 ∨ b = 5 ∨ b = 6 := by omega
    · exact ⟨2, hino 2 (by decide) (by decide), stray_refOf (hino 2 (by decide) (by decide))⟩
    · exact ⟨3, hino 3 (by decide) (by decide), stray_refOf (hino 3 (by decide) (by decide))⟩
    · exact ⟨1, hino 1 (by decide) (by decide), stray_refOf (hino 1 (by decide) (by decide))⟩
  have hmeta : nmeta (mountedFs strayDisk).sb = 4 := by decide
  refine ⟨fun inum k hi _ h0 => ?_, fun inum k inum' k' hi _ hi' _ h0 heq => ?_,
    fun b h1 h2 hb => ?_⟩
  · rw [stray_refOf hi] at h0 ⊢
    rw [hmeta]
    have hsize : (mountedFs strayDisk).sb.size = 16 := rfl
    rw [hsize, stray_blocks.2 _ (by split_ifs <;> decide), decide_eq_true_eq]
    split_ifs at h0 ⊢ <;> simp at h0 ⊢
  · rw [stray_refOf hi] at h0 heq
    rw [stray_refOf hi'] at heq
    split_ifs at h0 heq <;> omega
  · rw [stray_blocks.2 b h2, decide_eq_true_eq] at hb
    rw [hmeta] at h1
    obtain ⟨inum, hi, href⟩ := hin b h1 hb
    exact ⟨inum, 0, hi, by decide, href⟩

theorem stray_allocated : Allocated (mountedFs strayDisk) := allocated_of_small (by decide +kernel)

/-- The block of file 3 is not marked any more. -/
theorem an_open_frees_a_block_of_another_file :
    BlocksSound (mountedFs strayDisk) ∧ Allocated (mountedFs strayDisk) ∧
    NoEntries (mountedFs strayDisk) ∧ NameRun (mountedFs strayDisk) truncatedStray ∧
    ¬ BlocksSound truncatedStray := by
  refine ⟨stray_sound, stray_allocated, mountedFs_noEntries _, stray_run, fun h => ?_⟩
  have hino : IsInode truncatedStray 3 := ⟨by decide, by decide +kernel, by decide +kernel⟩
  have href : refOf truncatedStray 3 0 = 5 := by decide +kernel
  have hused := (h.marked 3 0 hino (by decide) (by rw [href]; decide)).2.2
  rw [href] at hused
  have hfree : used truncatedStray 5 = false := by decide +kernel
  rw [hfree] at hused
  cases hused

end ThuKernel
