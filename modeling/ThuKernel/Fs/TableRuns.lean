-- Runs of the calls on inodes: the table of inodes never has an inode twice, gives an
-- entry in use to no other inode, and says of an inode what the disk says.
import ThuKernel.Fs.Table
import ThuKernel.Fs.Trunc
import ThuKernel.Fs.WriteRead
import Mathlib.Logic.Relation

namespace ThuKernel

/-! ## The calls -/

/-- A call on inodes. -/
inductive TableOp where
  | iget (inum : Nat)
  | idup (ip : Nat)
  | ivalid (ip : Nat)
  | iput (ip : Nat)
  | ialloc (type : Nat)
  | iupdate (ip : Nat)
  | readi (ip : Nat) (dst : Dst) (off n : Nat)
  | writei (ip : Nat) (src : Src) (off n : Nat)
  | itrunc (ip : Nat)

def TableOp.run : TableOp → Prog Fs Unit
  | .iget inum => do
    let _ ← ThuKernel.iget ROOTDEV inum
    pure ()
  | .idup ip => do
    let _ ← ThuKernel.idup ip
    pure ()
  | .ivalid ip => ThuKernel.ivalid ip
  | .iput ip => ThuKernel.iput ip
  | .ialloc type => do
    let _ ← ThuKernel.ialloc ROOTDEV type
    pure ()
  | .iupdate ip => ThuKernel.iupdate ip
  | .readi ip dst off n => do
    let _ ← ThuKernel.readi ip dst off n
    pure ()
  | .writei ip src off n => do
    let _ ← ThuKernel.writei ip src off n
    pure ()
  | .itrunc ip => ThuKernel.itrunc ip

/-- The caller has a reference to the entry. -/
def HasRef (s : Fs) (ip : Nat) : Prop := ip < NINODE ∧ 0 < (s.itable ip).ref

/-- The caller has a reference to the entry, and has called `ivalid`. -/
def OpenEntry (s : Fs) (ip : Nat) : Prop := HasRef s ip ∧ (s.itable ip).valid = true

/-- What a caller of each function has. A kernel buffer for `writei` has as many bytes
as are written. -/
def TableOp.Allowed (s : Fs) : TableOp → Prop
  | .iget inum => 0 < inum ∧ inum < s.sb.ninodes
  | .idup ip => HasRef s ip
  | .ivalid ip => HasRef s ip
  | .iput ip => HasRef s ip
  | .ialloc type => type ≠ 0 ∧ type < 2 ^ 16
  | .iupdate ip => OpenEntry s ip
  | .readi ip _ _ n => OpenEntry s ip ∧ n < 2 ^ 32
  | .writei ip src _ n => OpenEntry s ip ∧ n < 2 ^ 32 ∧ (src.data n).length = n
  | .itrunc ip => OpenEntry s ip

/-- A call that returns. -/
def TableStep (s s' : Fs) : Prop := ∃ op : TableOp, op.Allowed s ∧ op.run s = .ok ((), s')

/-- Any calls, one after the other. -/
abbrev TableRun : Fs → Fs → Prop := Relation.ReflTransGen TableStep

variable {E : Stop → Prop} {s s' : Fs} {ip i inum off n : Nat} {dst : Dst} {src : Src}
  {op : TableOp}

/-! ## One call -/

/-- A copy to any destination returns 0 or -1. -/
theorem either_copyout_ok (dst : Dst) (tot : Nat) (src : List Byte) :
    ∃ r dst', either_copyout dst tot src = .ok (r, dst') ∧ (r = 0 ∨ r = -1) := by
  cases dst with
  | kernel got => exact ⟨0, _, rfl, Or.inl rfl⟩
  | user mm pagetable va =>
    obtain ⟨r, mm', hrun, hr⟩ :=
      (copyout_runs (E := fun _ => False) (s := mm) pagetable (va + tot) src).exists_ok fun _ h => h
    refine ⟨r, .user mm' pagetable va, ?_, hr.1⟩
    dsimp only [either_copyout]
    rw [hrun]

/-- Reading changes nothing but the cache, for any destination. -/
theorem readi_cached (hok : FsOk s) (he : Entry s ip inum) (hn : n < 2 ^ 32) (dst : Dst) :
    Runs E (readi ip dst off n) s fun _ s' => ∃ u, s' = { s with bio := u } ∧ Cached s.bio u := by
  have hI : CopiesOut (fun _ _ => True) (fun _ => True) s inum off
      (readLen (inoOf s inum).size off n) := by
    intro tot dst m src _ _ _ _ _
    obtain ⟨r, dst', hrun, hr⟩ := either_copyout_ok dst tot src
    exact ⟨r, dst', hrun, hr.imp (fun h => ⟨h, trivial⟩) fun h => ⟨h, trivial⟩⟩
  exact (readi_runs hok he hn hI trivial).imp fun _ _ h => h.2

/-- Entries in use are for the inodes that they were for. -/
def SameInodes (s s' : Fs) : Prop :=
  ∀ i, 0 < (s.itable i).ref → (s'.itable i).dev = (s.itable i).dev ∧
    (s'.itable i).inum = (s.itable i).inum

theorem StaysOpen.sameInodes (h : StaysOpen s s') : SameInodes s s' := by
  intro i hi
  obtain ⟨_, h2, h3, _⟩ := h.entry i hi
  exact ⟨h2, h3⟩

theorem OpenEntry.entry (h : OpenEntry s ip) (hs : Synced s) : Entry s ip (s.itable ip).inum :=
  hs.entry h.1.1 h.1.2 h.2

theorem writei_synced (h : Synced s) (ho : OpenEntry s ip) (hn : n < 2 ^ 32)
    (hlen : (src.data n).length = n) :
    Runs OutOfBlocks (writei ip src off n) s fun _ s' => Synced s' ∧ SameInodes s s' := by
  have he := ho.entry h
  by_cases hr : Refused (inoOf s (s.itable ip).inum).size off n
  · refine (writei_refused h.ok he hn hr).imp ?_
    rintro _ _ ⟨_, rfl⟩
    exact ⟨h, fun _ _ => ⟨rfl, rfl⟩⟩
  · have hsrc : Gives src off n fun p => (src.data n).getD (p - off) 0 := gives_data hlen off
    refine (writei_runs h.ok he hsrc hr).mono (fun _ hb => hb.1) ?_
    rintro _ s' ⟨tot, _, _, hw, _, _⟩
    exact ⟨hw.touches.toSparesFiles.synced h hw.ok he hw.stored,
      hw.touches.toSparesFiles.holds.sameInodes⟩

theorem readi_synced (h : Synced s) (ho : OpenEntry s ip) (hn : n < 2 ^ 32) :
    Runs E (readi ip dst off n) s fun _ s' => Synced s' ∧ SameInodes s s' := by
  refine (readi_cached h.ok (ho.entry h) hn dst).imp ?_
  rintro _ _ ⟨u, rfl, hu⟩
  exact ⟨h.cached hu, fun _ _ => ⟨rfl, rfl⟩⟩

theorem itrunc_synced (h : Synced s) (ho : OpenEntry s ip) :
    Runs E (itrunc ip) s fun _ s' => Synced s' ∧ SameInodes s s' := by
  have he := ho.entry h
  refine (itrunc_runs h.ok he).imp ?_
  intro _ s' ht
  exact ⟨ht.spares.synced h ht.ok he ht.stored, ht.spares.holds.sameInodes⟩

theorem iupdate_synced (h : Synced s) (ho : OpenEntry s ip) :
    Runs E (iupdate ip) s fun _ s' => Synced s' ∧ SameInodes s s' := by
  have he := ho.entry h
  refine (iupdate_runs h.ok he).imp ?_
  intro _ s' hup
  have hstored := hup.stored.trans (hup.ino _ he.ino.2.1).symm
  exact ⟨hup.touches.toSparesFiles.synced h hup.ok he hstored,
    hup.touches.toSparesFiles.holds.sameInodes⟩

theorem ialloc_synced {type : Nat} (h : Synced s) (htype : type ≠ 0) (hfit : type < 2 ^ 16) :
    Runs NoRoom (ialloc ROOTDEV type) s fun _ s' => Synced s' ∧ SameInodes s s' := by
  unfold ialloc
  rw [Runs.bind_iff, Runs.get_iff]
  refine (iallocLoop_runs h htype hfit s.sb.ninodes 1 Nat.one_pos).imp ?_
  rintro ip s' ⟨inum, u, s₁, _, _, hnew, hs, hgot⟩
  refine ⟨hs, fun i hi => ?_⟩
  have hsame : s₁.itable i = s.itable i := congrFun hnew.table i
  rw [← hsame] at hi ⊢
  exact hgot.holds.sameInodes i hi

theorem iput_sameInodes (h : Synced s) (ho : HasRef s ip) :
    Runs E (iput ip) s fun _ s' => Synced s' ∧ SameInodes s s' := by
  refine (iput_synced h ho.1).imp ?_
  rintro _ _ ⟨hs, rfl⟩
  refine ⟨hs, fun i _ => ?_⟩
  unfold putBack
  dsimp only
  by_cases hi : i = ip
  · subst hi
    rw [Function.update_self]
    exact ⟨rfl, rfl⟩
  · rw [Function.update_of_ne hi]
    exact ⟨rfl, rfl⟩

/-- A call whose result is not used. -/
theorem runs_discard {α : Type} {f : Prog Fs α} {Q : Fs → Prop} (h : Runs E f s fun _ s' => Q s') :
    Runs E (do
      let _ ← f
      pure ()) s fun _ s' => Q s' :=
  h.bind fun _ _ hq => hq

/-- The step lemma: each call keeps the invariant. -/
theorem TableOp.synced (h : Synced s) (ha : op.Allowed s) :
    Runs (fun _ => True) op.run s fun _ s' => Synced s' ∧ SameInodes s s' := by
  have hany : ∀ {E : Stop → Prop} {α : Type} {f : Prog Fs α},
      Runs E f s (fun _ s' => Synced s' ∧ SameInodes s s') →
      Runs (fun _ => True) f s fun _ s' => Synced s' ∧ SameInodes s s' :=
    fun h => h.mono (fun _ _ => trivial) fun _ _ h => h
  cases op with
  | iget inum => exact runs_discard (hany ((iget_synced h ha.1 ha.2).imp fun _ _ hg =>
    ⟨hg.1, hg.2.holds.sameInodes⟩))
  | idup ip => exact runs_discard ((idup_synced h ha.1 ha.2).imp fun _ _ hd =>
    ⟨hd.1, hd.2.sameInodes⟩)
  | ivalid ip => exact hany ((ivalid_synced h ha.1 ha.2).imp fun _ _ hv =>
    ⟨hv.synced, hv.holds.sameInodes⟩)
  | iput ip => exact iput_sameInodes h ha
  | ialloc type => exact runs_discard (hany (ialloc_synced h ha.1 ha.2))
  | iupdate ip => exact iupdate_synced h ha
  | readi ip dst off n => exact runs_discard (readi_synced h ha.1 ha.2)
  | writei ip src off n => exact runs_discard (hany (writei_synced h ha.1 ha.2.1 ha.2.2))
  | itrunc ip => exact itrunc_synced h ha

theorem TableStep.synced (hs : TableStep s s') (h : Synced s) : Synced s' ∧ SameInodes s s' := by
  obtain ⟨op, ha, hrun⟩ := hs
  exact (op.synced h ha).of_ok hrun

/-- The run lemma. -/
theorem TableRun.synced (hr : TableRun s s') (h : Synced s) : Synced s' := by
  induction hr with
  | refl => exact h
  | tail _ hs ih => exact (hs.synced ih).1

/-! ## The table and the disk -/

/-- No entry is in use. -/
def NoEntries (s : Fs) : Prop := ∀ i < NINODE, (s.itable i).ref = 0

theorem FsOk.synced (h : FsOk s) (hempty : NoEntries s) : Synced s := by
  have hno : ∀ i < NINODE, ¬ 0 < (s.itable i).ref := by
    intro i hi hpos
    rw [hempty i hi] at hpos
    exact absurd hpos (by decide)
  exact ⟨h, fun i hi href => absurd href (hno i hi), fun i hi href => absurd href (hno i hi),
    fun i hi href => absurd href (hno i hi)⟩

/-- The entry says what its inode on the disk says. -/
structure AsOnDisk (s : Fs) (x : inode) : Prop where
  type : x.type = dinodeType (s.bio.disk (IBLOCK x.inum s.sb)) x.inum
  size : x.size = dinodeSize (s.bio.disk (IBLOCK x.inum s.sb)) x.inum
  addrs : ∀ k ≤ NDIRECT, x.addrs k = dinodeAddr (s.bio.disk (IBLOCK x.inum s.sb)) x.inum k

/-- What holds of the table at any time. -/
structure TableRight (s : Fs) : Prop where
  one : ∀ i < NINODE, ∀ j < NINODE, 0 < (s.itable i).ref → 0 < (s.itable j).ref →
    (s.itable i).dev = (s.itable j).dev → (s.itable i).inum = (s.itable j).inum → i = j
  disk : ∀ i < NINODE, 0 < (s.itable i).ref → (s.itable i).valid = true → AsOnDisk s (s.itable i)

theorem Synced.tableRight (h : Synced s) : TableRight s := by
  refine ⟨h.ok.table.distinct, fun i hi href hv => ?_⟩
  have hino := h.stored i hi href hv
  refine ⟨(congrArg Ino.type hino).symm, (congrArg Ino.size hino).symm, fun k hk => ?_⟩
  have haddr := congrFun (congrArg Ino.addrs hino) k
  unfold dinode inode.ino at haddr
  dsimp only at haddr
  rw [addrsOf_of_le hk, addrsOf_of_le hk] at haddr
  exact haddr.symm

/-- After any calls on a sound image, no inode is in two entries, an entry in use is as
its inode on the disk, and no call gives it to another inode. -/
theorem the_table_is_as_on_the_disk (hok : FsOk s) (hempty : NoEntries s) (hrun : TableRun s s') :
    TableRight s' ∧ ∀ s'', TableStep s' s'' → SameInodes s' s'' := by
  have h := hrun.synced (hok.synced hempty)
  exact ⟨h.tableRight, fun s'' hs => (hs.synced h).2⟩

/-! ## Small runs -/

/-- The table after boot. -/
def noInodes : Nat → inode := fun _ => ⟨0, 0, 0, false, 0, 0, fun _ => 0⟩

def mountedFs (disk : Nat → Bytes) : Fs := ⟨smallSb, binit disk, noInodes⟩

theorem mountedFs_noEntries (disk : Nat → Bytes) : NoEntries (mountedFs disk) := fun _ _ => rfl

/-- The table of the small disk is as on the disk. -/
theorem small_synced : Synced (smallFs (binit smallDisk)) := by
  have hd := (binit_spec smallDisk).2.1
  have hin : ∀ i, 0 < (smallTable i).ref → i < 3 := by
    intro i href
    by_contra hi
    unfold smallTable at href
    rw [if_neg (by omega), if_neg hi] at href
    exact absurd href (by decide)
  have hrows : ∀ i < 3, (smallTable i).inum = i + 1 ∧ IBLOCK (i + 1) smallSb = 2 ∧
      (smallTable i).type ≠ 0 ∧
      dinodeType (smallDisk 2) (i + 1) = (smallTable i).type ∧ dinodeSize (smallDisk 2) (i + 1) =
      (smallTable i).size ∧
      ∀ k < 13, dinodeAddr (smallDisk 2) (i + 1) k = (smallTable i).addrs k := by decide
  refine ⟨small_binit, fun i _ href => ?_, fun i _ href _ => ?_,
    fun i _ href _ => (hrows i (hin i href)).2.2.1⟩
  · have hlt := hin i href
    change 0 < (smallTable i).inum ∧ (smallTable i).inum < 5
    rw [(hrows i hlt).1]
    omega
  · obtain ⟨hnum, hblock, _, htype, hsize, haddrs⟩ := hrows i (hin i href)
    change dinode ((binit smallDisk).disk (IBLOCK (smallTable i).inum smallSb))
      (smallTable i).inum = (smallTable i).ino
    rw [hd, hnum, hblock]
    refine Ino.ext htype hsize (funext fun k => ?_)
    unfold dinode inode.ino addrsOf
    dsimp only
    split
    · rename_i hk
      exact haddrs k (by unfold NDIRECT at hk; omega)
    · rfl

theorem noInodes_ref (i : Nat) : ¬ 0 < (noInodes i).ref := Int.lt_irrefl 0

theorem mounted_ok : FsOk (mountedFs smallDisk) :=
  (small_synced.setTable (t := noInodes) ⟨fun i _ _ _ h => absurd h (noInodes_ref i),
    fun i _ h => absurd h (noInodes_ref i)⟩
    (fun i _ h => absurd h (noInodes_ref i)) (fun i _ h => absurd h (noInodes_ref i))
    fun i _ h => absurd h (noInodes_ref i)).ok

theorem TableRun.next (hr : TableRun s s') (ha : op.Allowed s') (hret : op.run.returns s' = true) :
    TableRun s (op.run.final s') := by
  obtain ⟨_, hrun⟩ := Prog.returns_iff.mp hret
  exact hr.tail ⟨op, ha, hrun⟩

/-- Inode 2 in the table. -/
def openedFs (disk : Nat → Bytes) : Fs :=
  (TableOp.ivalid 0).run.final ((TableOp.iget 2).run.final (mountedFs disk))

instance (s : Fs) (ip : Nat) : Decidable (HasRef s ip) := inferInstanceAs (Decidable (_ ∧ _))

instance (s : Fs) (ip : Nat) : Decidable (OpenEntry s ip) := inferInstanceAs (Decidable (_ ∧ _))

theorem the_table_is_as_on_the_disk_after_two_calls : TableRight (openedFs smallDisk) := by
  have hget : TableRun (mountedFs smallDisk) ((TableOp.iget 2).run.final (mountedFs smallDisk)) :=
    TableRun.next .refl ⟨by decide, show 2 < 5 by decide⟩ (by decide +kernel)
  have hheld : HasRef ((TableOp.iget 2).run.final (mountedFs smallDisk)) 0 := by decide +kernel
  have hvalid : TableRun (mountedFs smallDisk) (openedFs smallDisk) :=
    hget.next hheld (by decide +kernel)
  exact (the_table_is_as_on_the_disk mounted_ok (mountedFs_noEntries _) hvalid).1

/-- Every block below the size of a file is allocated. -/
def Allocated (s : Fs) : Prop := ∀ inum, IsInode s inum → ∀ bn, bn * BSIZE < (inoOf s inum).size →
  blkOf s inum bn ≠ 0 ∧ used s (blkOf s inum bn) = true

/-- The small disk, but the block of inode 2 is the one of the inodes. -/
def sharedDisk : Nat → Bytes := fun b o =>
  if b = 2 ∧ o = 136 then 200 else if b = 2 ∧ o = 140 then 2 else smallDisk b o

theorem allocated_of_small {disk : Nat → Bytes}
    (hall : ∀ j < 5, (inoOf (mountedFs disk) j).size ≤ BSIZE ∧
    (0 < (inoOf (mountedFs disk) j).size →
      blkOf (mountedFs disk) j 0 ≠ 0 ∧ used (mountedFs disk) (blkOf (mountedFs disk) j 0) =
      true)) : Allocated (mountedFs disk) := by
  rintro j ⟨_, hj, _⟩ bn hbn
  obtain ⟨h1, h2⟩ := hall j hj
  have hbn0 : bn = 0 := by
    unfold BSIZE at h1 hbn
    omega
  subst hbn0
  exact h2 (by omega)

theorem sharedDisk_allocated : Allocated (mountedFs sharedDisk) :=
  allocated_of_small (by decide +kernel)

/-- Both files are opened, and a byte of inode 2 is written. -/
def overwritten : Fs :=
  (TableOp.writei 0 (.kernel [7]) 192 1).run.final
    ((TableOp.ivalid 1).run.final ((TableOp.iget 3).run.final (openedFs sharedDisk)))

/-- The byte is the type of inode 3. -/
theorem a_write_changes_another_inode :
    Allocated (mountedFs sharedDisk) ∧ NoEntries (mountedFs sharedDisk) ∧
    TableRun (mountedFs sharedDisk) overwritten ∧ ¬ TableRight overwritten := by
  refine ⟨sharedDisk_allocated, mountedFs_noEntries _, ?_, fun h => ?_⟩
  · have hget : TableRun (mountedFs sharedDisk)
        ((TableOp.iget 2).run.final (mountedFs sharedDisk)) :=
      TableRun.next .refl ⟨by decide, show 2 < 5 by decide⟩ (by decide +kernel)
    have hheld : HasRef ((TableOp.iget 2).run.final (mountedFs sharedDisk)) 0 := by decide +kernel
    have hvalid : TableRun (mountedFs sharedDisk) (openedFs sharedDisk) :=
      hget.next hheld (by decide +kernel)
    have hin : (TableOp.iget 3).Allowed (openedFs sharedDisk) := ⟨by decide, by decide +kernel⟩
    have hget' := hvalid.next hin (by decide +kernel)
    have hheld' : HasRef ((TableOp.iget 3).run.final (openedFs sharedDisk)) 1 := by decide +kernel
    have hvalid' : TableRun (mountedFs sharedDisk)
        ((TableOp.ivalid 1).run.final ((TableOp.iget 3).run.final (openedFs sharedDisk))) :=
      hget'.next hheld' (by decide +kernel)
    have hopened :
      OpenEntry ((TableOp.ivalid 1).run.final ((TableOp.iget 3).run.final (openedFs sharedDisk)))
      0 := by
      decide +kernel
    have hwrite : (TableOp.writei 0 (.kernel [7]) 192 1).Allowed _ := ⟨hopened, by decide, rfl⟩
    exact hvalid'.next hwrite (by decide +kernel)
  · have htype := (h.disk 1 (by decide) (by decide +kernel) (by decide +kernel)).type
    have hdiffer : (overwritten.itable 1).type ≠
        dinodeType (overwritten.bio.disk (IBLOCK (overwritten.itable 1).inum overwritten.sb))
        (overwritten.itable 1).inum := by
      decide +kernel
    exact hdiffer htype

end ThuKernel
