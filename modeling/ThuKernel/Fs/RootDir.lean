-- The calls on files by name: what keeps the root directory and the table of inodes
-- sound, from one call to the next.
import ThuKernel.Fs.TableRuns
import ThuKernel.Fs.Unlink

namespace ThuKernel

/-- The root directory is one of whole entries for inodes of the disk, which the cache
has as on the disk. The rest is sound too. -/
structure RootOk (s : Fs) : Prop where
  synced : Synced s
  inode : IsInode s ROOTINO
  type : (inoOf s ROOTINO).type = T_DIR
  whole : (inoOf s ROOTINO).size % DIRENT_SIZE = 0
  clean : DataClean s ROOTINO
  range : EntriesInRange s ROOTINO

/-- The entries of the root directory are as before. -/
structure SameRoot (s s' : Fs) : Prop where
  ok : RootOk s'
  sb : s'.sb = s.sb
  rows : dirRows s' ROOTINO = dirRows s ROOTINO

/-- Whatever the call did to the entries, they are for names that differ. -/
structure RootStep (s s' : Fs) : Prop where
  ok : RootOk s'
  names : DistinctNames s ROOTINO → DistinctNames s' ROOTINO

/-- The stops of the calls. -/
def FsStops (e : Stop) : Prop := NoRoom e ∨ NoType e ∨ e = .panic "dirlink"

variable {E : Stop → Prop} {s s₁ s' : Fs} {dp ip inum type off n : Nat} {u : Bio} {name : CStr}
  {behind : Bytes} {dst : Dst} {src : Src}

namespace RootOk

theorem isDir (h : RootOk s) (he : Entry s dp ROOTINO) : IsDir s dp ROOTINO :=
  ⟨h.synced.ok, he, h.type, h.whole, h.clean⟩

theorem of_isDir (h : IsDir s dp ROOTINO) (hs : Synced s) (hr : EntriesInRange s ROOTINO) :
    RootOk s :=
  ⟨hs, h.entry.ino, h.type, h.whole, h.clean, hr⟩

/-- The block of an entry. -/
theorem blk (h : RootOk s) {p : Nat} (hp : p < (inoOf s ROOTINO).size) :
    p / BSIZE < MAXFILE ∧ blkOf s ROOTINO (p / BSIZE) ≠ 0 ∧
    nmeta s.sb ≤ blkOf s ROOTINO (p / BSIZE) := by
  obtain ⟨hbn, h0⟩ := h.synced.ok.blk h.inode hp
  exact ⟨hbn, h0, (h.synced.ok.ref h.inode (slotOf_lt hbn) h0).1⟩

/-- The root directory is as before when its inode, its blocks and their buffers are. -/
theorem same (h : RootOk s) (hs : Synced s') (hsb : s'.sb = s.sb)
    (hino : inoOf s' ROOTINO = inoOf s ROOTINO)
    (hblk : ∀ bn < MAXFILE, blkOf s' ROOTINO bn = blkOf s ROOTINO bn)
    (hdata : ∀ p < (inoOf s ROOTINO).size, s'.bio.disk (blkOf s ROOTINO (p / BSIZE)) =
    s.bio.disk (blkOf s ROOTINO (p / BSIZE))) (hclean : ∀ p < (inoOf s ROOTINO).size,
      Clean s.bio (blkOf s ROOTINO (p / BSIZE)) → Clean s'.bio (blkOf s ROOTINO (p / BSIZE))) :
    SameRoot s s' := by
  have hD : DIRENT_SIZE = 16 := rfl
  have hrows : dirRows s' ROOTINO = dirRows s ROOTINO := by
    unfold dirRows dirCount
    rw [hino]
    apply List.map_congr_left
    intro i hi
    have hi := List.mem_range.mp hi
    unfold direntAt bytesAt
    refine congrArg rowOf (List.map_congr_left fun o ho => ?_)
    have ho := List.mem_range.mp ho
    have hp : DIRENT_SIZE * i + o < (inoOf s ROOTINO).size := by
      rw [hD] at *
      omega
    unfold byteAt
    rw [hblk _ (h.blk hp).1, hdata _ hp]
  refine ⟨⟨hs, ?_, ?_, ?_, fun p hp => ?_, ?_⟩, hsb, hrows⟩
  · exact ⟨h.inode.1, hsb ▸ h.inode.2.1, by rw [hino]; exact h.inode.2.2⟩
  · rw [hino]
    exact h.type
  · rw [hino]
    exact h.whole
  · rw [hino] at hp
    rw [hblk _ (h.blk hp).1]
    exact hclean p hp (h.clean p hp)
  · unfold EntriesInRange
    rw [hrows, hsb]
    exact h.range

/-- Only the table and the cache changed. -/
theorem cached (h : RootOk s) (hs : Synced s') (hsb : s'.sb = s.sb) (hc : Cached s.bio s'.bio) :
    SameRoot s s' := by
  have hino : inoOf s' ROOTINO = inoOf s ROOTINO := by
    rw [hs.stored.inoOf, h.synced.stored.inoOf, hc.disk, hsb]
  refine h.same hs hsb hino (fun bn _ => ?_) (fun p _ => by rw [hc.disk]) fun p _ =>
    hc.since.clean _ (Set.notMem_empty _)
  exact refOf_congr hino (fun _ => by rw [hc.disk]) _

/-- Only another inode changed. -/
theorem spares (h : RootOk s) (hs : Synced s') (hsp : SparesFiles inum s s')
    (hne : ROOTINO ≠ inum) : SameRoot s s' := by
  refine h.same hs hsp.sb (hsp.others _ h.inode.2.1 hne) (fun bn hbn =>
    hsp.foreign _ _ h.inode hne (slotOf_lt hbn))
    (fun p hp => ?_) fun p hp hcl => ?_
  · obtain ⟨hbn, h0, _⟩ := h.blk hp
    exact hsp.data _ _ h.inode hne (slotOf_lt hbn) h0
  · obtain ⟨hbn, h0, _⟩ := h.blk hp
    exact hsp.clean _ _ h.inode hne (slotOf_lt hbn) h0 hcl

theorem newInode (h : RootOk s) (hnew : NewInode s inum type s') (hfree : ¬ IsInode s inum) :
    SameRoot s s' := by
  have hne : ROOTINO ≠ inum := by
    rintro rfl
    exact hfree h.inode
  have hlt : inum < s.sb.ninodes := by
    have := ((hnew.inodes inum).mpr (Or.inl rfl)).2.1
    rwa [hnew.sb] at this
  have hout : ∀ b, nmeta s.sb ≤ b → b ≠ IBLOCK inum s.sb := by
    intro b hb hc
    have h1 := IBLOCK_lt h.synced.ok.layout hlt
    have h2 := @bmapstart_le s.sb
    omega
  have hino : inoOf s' ROOTINO = inoOf s ROOTINO := by rw [hnew.ino, if_neg hne]
  refine h.same hnew.synced hnew.sb hino (fun bn _ => refOf_congr hino (fun hz => ?_) _)
    (fun p hp => ?_) fun p _ => hnew.clean _
  · exact hnew.disk _ (hout _ (h.synced.ok.ind h.inode hz).1)
  · exact hnew.disk _ (hout _ (h.blk hp).2.2)

end RootOk

namespace SameRoot

theorem trans (h : SameRoot s s₁) (h' : SameRoot s₁ s') : SameRoot s s' :=
  ⟨h'.ok, h'.sb.trans h.sb, h'.rows.trans h.rows⟩

theorem names (h : SameRoot s s') (hd : DistinctNames s ROOTINO) : DistinctNames s' ROOTINO := by
  unfold DistinctNames
  rw [h.rows]
  exact hd

theorem step (h : SameRoot s s') : RootStep s s' := ⟨h.ok, h.names⟩

end SameRoot

theorem RootStep.trans (h : RootStep s s₁) (h' : RootStep s₁ s') : RootStep s s' :=
  ⟨h'.ok, h'.names ∘ h.names⟩

/-! ## The table -/

theorem Got.sameRoot (h : Got s inum ip s') (hr : RootOk s) (h0 : 0 < inum)
    (hlt : inum < s.sb.ninodes) : SameRoot s s' := by
  refine hr.cached (h.synced hr.synced h0 hlt) h.sb ?_
  rw [h.bio]
  exact Cached.refl hr.synced.ok.cache

theorem Validated.sameRoot (h : Validated s ip s') (hr : RootOk s) : SameRoot s s' :=
  hr.cached h.synced h.holds.sb h.cached

theorem iput_root (h : RootOk s) (hlt : ip < NINODE) :
    Runs E (iput ip) s fun _ s' => SameRoot s s' ∧ s' = putBack s ip := by
  refine (iput_synced h.synced hlt).imp ?_
  rintro _ _ ⟨hs, rfl⟩
  exact ⟨h.cached hs rfl (Cached.refl h.synced.ok.cache), rfl⟩

theorem ivalid_root (h : RootOk s) (ho : HasRef s ip) : Runs FsStops (ivalid ip) s fun _ s' =>
    SameRoot s s' ∧ Validated s ip s' :=
  (ivalid_synced h.synced ho.1 ho.2).mono (fun _ he => Or.inr (Or.inl he)) fun _ _ hv =>
    ⟨hv.sameRoot h, hv⟩

/-- What differs is the table and the cache alone. -/
structure Rereads (s s' : Fs) : Prop where
  synced : Synced s'
  sb : s'.sb = s.sb
  cached : Cached s.bio s'.bio

namespace Rereads

variable {s₁ : Fs} {j : Nat}

theorem trans (h : Rereads s s₁) (h' : Rereads s₁ s') : Rereads s s' :=
  ⟨h'.synced, h'.sb.trans h.sb, h.cached.trans h'.cached⟩

theorem inoOf (h : Rereads s s') (hs : Synced s) (j : Nat) :
    ThuKernel.inoOf s' j = ThuKernel.inoOf s j := by
  rw [h.synced.stored.inoOf, hs.stored.inoOf, h.cached.disk, h.sb]

theorem isInode (h : Rereads s s') (hs : Synced s) (j : Nat) : IsInode s' j ↔ IsInode s j :=
  isInode_congr h.sb fun _ => by rw [h.inoOf hs]

theorem root (h : Rereads s s') (hr : RootOk s) : SameRoot s s' := hr.cached h.synced h.sb h.cached

theorem blkOf (h : Rereads s s') (hs : Synced s) (j bn : Nat) :
    ThuKernel.blkOf s' j bn = ThuKernel.blkOf s j bn :=
  refOf_congr (h.inoOf hs j) (fun _ => by rw [h.cached.disk]) _

theorem bytesAt (h : Rereads s s') (hs : Synced s) (j off n : Nat) :
    ThuKernel.bytesAt s' j off n = ThuKernel.bytesAt s j off n := by
  unfold ThuKernel.bytesAt
  apply List.map_congr_left
  intro p _
  unfold byteAt
  rw [h.blkOf hs, h.cached.disk]

theorem contents (h : Rereads s s') (hs : Synced s) (j : Nat) :
    ThuKernel.contents s' j = ThuKernel.contents s j := by
  unfold ThuKernel.contents
  rw [h.inoOf hs, h.bytesAt hs]

theorem dirCount (h : Rereads s s') (hs : Synced s) (j : Nat) :
    ThuKernel.dirCount s' j = ThuKernel.dirCount s j := by
  unfold ThuKernel.dirCount
  rw [h.inoOf hs]

theorem direntAt (h : Rereads s s') (hs : Synced s) (j i : Nat) :
    ThuKernel.direntAt s' j i = ThuKernel.direntAt s j i :=
  h.bytesAt hs ..

theorem match_iff (h : Rereads s s') (hs : Synced s) {name : CStr} {i : Nat} :
    Match s' j name i ↔ Match s j name i := by
  unfold Match
  rw [h.direntAt hs]

end Rereads

theorem Got.rereads (h : Got s inum ip s') (hs : Synced s) (hi : IsInode s inum) :
    Rereads s s' := by
  refine ⟨h.synced hs hi.1 hi.2.1, h.sb, ?_⟩
  rw [h.bio]
  exact Cached.refl hs.ok.cache

theorem Validated.rereads (h : Validated s ip s') : Rereads s s' := ⟨h.synced, h.holds.sb, h.cached⟩

/-- The root directory is open, or some entry is in no use. -/
def RootFits (s : Fs) : Prop := ¬ Lacks s ROOTINO ∨ ∃ i < NINODE, (s.itable i).ref = 0

/-- What `root_dir` gives, when `iget` gives an entry: the entry is read. -/
theorem root_dir_read (h : RootOk s)
    (hget : Runs E (iget ROOTDEV ROOTINO) s fun i s' => Got s ROOTINO i s') :
    Runs E root_dir s fun dp s' => Rereads s s' ∧ Entry s' dp ROOTINO ∧ ∃ s₁, Got s ROOTINO dp s₁ ∧
    Validated s₁ dp s' := by
  unfold root_dir
  refine hget.bind ?_
  rintro dp s₁ hgot
  have hre := hgot.rereads h.synced h.inode
  have hinode : IsInode s₁ (s₁.itable dp).inum := by
    rw [hgot.num]
    exact (hre.isInode h.synced _).mpr h.inode
  refine (ivalid_inode hre.synced hgot.lt hgot.ref hinode).bind ?_
  rintro _ s₂ hv
  rw [Runs.pure_iff]
  obtain ⟨href, _, hnum, _⟩ := hv.holds.entry dp hgot.ref
  have he := hv.synced.entry hgot.lt href hv.valid
  rw [hnum, hgot.num] at he
  exact ⟨hre.trans hv.rereads, he, s₁, hgot, hv⟩

/-- The rest of the table stays. -/
theorem root_dir_got (h : RootOk s)
    (hget : Runs E (iget ROOTDEV ROOTINO) s fun i s' => Got s ROOTINO i s') :
    Runs E root_dir s fun dp s' => Rereads s s' ∧ Entry s' dp ROOTINO ∧ StaysOpen s s' ∧
      ∀ i ≠ dp, (s'.itable i).ref = (s.itable i).ref := by
  refine (root_dir_read h hget).imp ?_
  rintro dp s' ⟨hre, he, s₁, hgot, hv⟩
  refine ⟨hre, he, hgot.holds.trans hv.holds, fun i hi => ?_⟩
  rw [hv.ref, hgot.others i hi]

/-- With an entry for the root directory, `root_dir` returns it. -/
theorem root_dir_fits (h : RootOk s) (hfit : RootFits s) : Runs E root_dir s fun dp s' =>
    Rereads s s' ∧ Entry s' dp ROOTINO ∧ StaysOpen s s' ∧ ∀ i ≠ dp, (s'.itable i).ref =
      (s.itable i).ref :=
  root_dir_got h (iget_fits h.synced.ok.table hfit)

theorem root_dir_rereads (h : RootOk s) : Runs FsStops root_dir s fun dp s' =>
    Rereads s s' ∧ Entry s' dp ROOTINO ∧ StaysOpen s s' ∧ ∀ i ≠ dp, (s'.itable i).ref =
      (s.itable i).ref :=
  root_dir_got h ((iget_runs h.synced.ok.table ROOTINO).mono (fun _ he =>
    Or.inl (Or.inr (Or.inr he.1))) fun _ _ hg => hg)

theorem root_dir_runs (h : RootOk s) : Runs FsStops root_dir s fun dp s' => SameRoot s s' ∧
    Entry s' dp ROOTINO ∧ StaysOpen s s' :=
  (root_dir_rereads h).imp fun _ _ hr => ⟨hr.1.root h, hr.2.1, hr.2.2.1⟩

/-! ## The directory -/

theorem SameDir.sameRoot (h : SameDir s dp ROOTINO s') (hr : RootOk s) : SameRoot s s' :=
  ⟨RootOk.of_isDir h.isDir (h.synced hr.synced hr.range) (h.inRange hr.range), h.opened.sb, h.rows⟩

/-- An entry is put, for an inode of the disk or for none. -/
theorem DirentPut.rootOk {j : Nat} {de : List Byte} (h : DirentPut s dp ROOTINO j de s')
    (hr : RootOk s) (he : Entry s dp ROOTINO) (hj : j ≤ dirCount s ROOTINO)
    (hde : direntInum de < s.sb.ninodes) : RootOk s' := by
  refine RootOk.of_isDir h.isDir (h.touches.toSparesFiles.synced hr.synced h.isDir.ok he h.stored)
    fun r hmem => ?_
  rw [h.touches.sb]
  rw [h.rows hj] at hmem
  rcases Rows.mem_put hmem with rfl | hmem
  · exact hde
  · exact hr.range r hmem

theorem LinkEnds.rootStep {r : Int} (h : LinkEnds s dp ROOTINO name inum r s') (hr : RootOk s)
    (hlt : inum < s.sb.ninodes) :
    RootStep s s' ∧ StaysOpen s s' := by
  have hd := h.distinct
  cases h with
  | present _ hsame => exact ⟨(hsame.sameRoot hr).step, hsame.opened⟩
  | @new s₁ s' j _ hsame hfree hput =>
    have hr₁ := hsame.sameRoot hr
    refine ⟨⟨hput.rootOk hr₁.ok hsame.isDir.entry hfree.le ?_, hd⟩,
      hsame.opened.trans hput.touches.toSparesFiles.holds⟩
    unfold newDirent
    rw [direntInum_bytes, hr₁.sb]
    exact (Nat.mod_le ..).trans_lt hlt

theorem UnlinkEnds.rootStep {r : Int} (h : UnlinkEnds s dp ROOTINO name behind r s')
    (hr : RootOk s) : RootStep s s' := by
  have hd := h.distinct
  cases h with
  | absent _ hsame => exact (hsame.sameRoot hr).step
  | missed _ _ hsame => exact (hsame.sameRoot hr).step
  | @cleared s₁ s' j _ hj _ hsame hput =>
    have hr₁ := hsame.sameRoot hr
    refine ⟨hput.rootOk hr₁.ok hsame.isDir.entry (by rw [hsame.count]; exact hj.le) ?_, hd⟩
    rw [direntInum_bytes, hr₁.sb]
    exact (Nat.mod_le ..).trans_lt (hr.inode.1.trans hr.inode.2.1)

/-- What `dirlookup` finds in the root directory. -/
structure Found (s : Fs) (e : Nat × Nat) (s' : Fs) : Prop where
  hasRef : HasRef s' e.1
  pos : 0 < (s'.itable e.1).inum
  lt : (s'.itable e.1).inum < s.sb.ninodes
  more : 0 < (s.itable e.1).ref → (s'.itable e.1).ref = (s.itable e.1).ref + 1

theorem LookedUp.found {e : Nat × Nat} (hl : LookedUp s ROOTINO name 0 (some e) s')
    (hr : RootOk s) : Found s e s' := by
  obtain ⟨u, hu, j, _, hj, _, hm, _, hgot⟩ := hl
  refine ⟨⟨hgot.lt, hgot.ref⟩, ?_, ?_, fun href => ?_⟩
  · rw [hgot.num]
    exact Nat.pos_of_ne_zero hm.1
  · rw [hgot.num]
    exact hr.range _ (mem_dirRows hj)
  · rcases hgot.entry with ⟨_, _, _, heq⟩ | ⟨hzero, _⟩
    · rw [heq]
    · exact absurd hzero (by dsimp only; omega)

theorem dirlookup_root (h : RootOk s) (he : Entry s dp ROOTINO) (name : CStr) :
    Runs FsStops (dirlookup dp name) s fun r s' =>
    SameDir s dp ROOTINO s' ∧ (r = none → ¬ Present s ROOTINO name) ∧ ∀ e, r = some e →
      Found s e s' := by
  refine (dirlookup_runs (h.isDir he) name).mono (fun _ he => Or.inl (Or.inr (Or.inr he.1))) ?_
  intro r s' hl
  refine ⟨hl.sameDir (h.isDir he), ?_, ?_⟩
  · rintro rfl
    exact hl.absent
  · rintro e rfl
    exact hl.found h

theorem dirlink_root (h : RootOk s) (he : Entry s dp ROOTINO) (name : CStr)
    (hlt : inum < s.sb.ninodes) :
    Runs FsStops (dirlink dp name inum) s fun r s' => RootStep s s' ∧ StaysOpen s s' ∧
    (¬ Present s ROOTINO name → r = 0) := by
  have hstops : ∀ e, NoLink e → FsStops e := by
    rintro e (he | he | he)
    · exact Or.inl (Or.inl he)
    · exact Or.inl (Or.inr (Or.inr he))
    · exact Or.inr (Or.inr he)
  refine (dirlink_runs (h.isDir he) name inum).mono hstops ?_
  intro r s' hend
  obtain ⟨hstep, hopen⟩ := hend.rootStep h hlt
  refine ⟨hstep, hopen, fun hnone => ?_⟩
  cases hend with
  | present hpres => exact absurd hpres hnone
  | new => rfl

theorem dirunlink_root (h : RootOk s) (he : Entry s dp ROOTINO) (name : CStr) (behind : Bytes) :
    Runs FsStops (dirunlink dp name behind) s fun _ s' => RootStep s s' :=
  (dirunlink_runs (h.isDir he) name behind).mono (fun _ he => Or.inl (Or.inr (Or.inr he.1)))
    fun _ _ hend => hend.rootStep h

/-! ## Files -/

theorem present_iff_row {d : Nat} :
    Present s d name ↔ ∃ r ∈ dirRows s d, r.1 ≠ 0 ∧ r.2 = name.key := by
  constructor
  · rintro ⟨j, hj, hm⟩
    exact ⟨_, mem_dirRows hj, hm⟩
  · rintro ⟨r, hr, hm⟩
    obtain ⟨j, hj⟩ := List.getElem?_of_mem hr
    rw [getElem?_dirRows] at hj
    split at hj
    · rename_i hlt
      cases hj
      exact ⟨j, hlt, hm⟩
    · cases hj

theorem SameRoot.present (h : SameRoot s s') :
    Present s' ROOTINO name ↔ Present s ROOTINO name := by
  rw [present_iff_row, present_iff_row, h.rows]

theorem Entry.of_open (he : Entry s dp inum) (h : StaysOpen s s') (hi : IsInode s' inum) :
    Entry s' dp inum := by
  obtain ⟨h1, h2, h3, h4⟩ := h.entry dp he.ref
  exact ⟨he.lt, h1, h4 he.valid, h2.trans he.dev, h3.trans he.num, hi⟩

theorem ialloc_root (h : RootOk s) (htype : type ≠ 0) (hfit : type < 2 ^ 16) :
    Runs FsStops (ialloc ROOTDEV type) s fun ip s' =>
    SameRoot s s' ∧ StaysOpen s s' ∧ HasRef s' ip ∧ ¬ IsInode s (s'.itable ip).inum := by
  unfold ialloc
  rw [Runs.bind_iff, Runs.get_iff]
  refine (iallocLoop_runs h.synced htype hfit s.sb.ninodes 1 Nat.one_pos).mono
    (fun _ he => Or.inl he) ?_
  rintro ip s' ⟨inum, u, s₁, hfree, hu, hnew, _, hgot⟩
  have h₁ := h.cached (h.synced.cached hu) rfl hu
  have h₂ := h₁.ok.newInode hnew (by unfold IsInode at hfree ⊢; rwa [hu.inoOf])
  have hin := (hnew.inodes inum).mpr (Or.inl rfl)
  have h₃ := hgot.sameRoot h₂.ok hin.1 hin.2.1
  have hopen : StaysOpen s s₁ := ⟨hnew.sb, fun i hi => by rw [hnew.table]; exact ⟨hi, rfl, rfl, id⟩⟩
  refine ⟨(h₁.trans h₂).trans h₃, hopen.trans hgot.holds, ⟨hgot.lt, hgot.ref⟩, ?_⟩
  rw [hgot.num]
  exact hfree

theorem iupdate_root (h : RootOk s) (ho : OpenEntry s ip) (hne : ROOTINO ≠ (s.itable ip).inum) :
    Runs FsStops (iupdate ip) s fun _ s' =>
    SameRoot s s' ∧ StaysOpen s s' := by
  have he := ho.entry h.synced
  refine (iupdate_runs h.synced.ok he).imp ?_
  intro _ s' hup
  have hsp := hup.touches.toSparesFiles
  have hstored := hup.stored.trans (hup.ino _ he.ino.2.1).symm
  exact ⟨h.spares (hsp.synced h.synced hup.ok he hstored) hsp hne, hsp.holds⟩

theorem writei_root (h : RootOk s) (ho : OpenEntry s ip) (hne : ROOTINO ≠ (s.itable ip).inum)
    (hn : n < 2 ^ 32) (hlen : (src.data n).length = n) : Runs FsStops (writei ip src off n) s
    fun _ s' => SameRoot s s' := by
  have he := ho.entry h.synced
  by_cases hr : Refused (inoOf s (s.itable ip).inum).size off n
  · refine (writei_refused h.synced.ok he hn hr).imp ?_
    rintro _ _ ⟨_, rfl⟩
    exact ⟨h, rfl, rfl⟩
  · refine (writei_runs h.synced.ok he (gives_data hlen off) hr).mono
      (fun _ hb => Or.inl (Or.inl hb.1)) ?_
    rintro _ s' ⟨tot, _, _, hw, _, _⟩
    have hsp := hw.touches.toSparesFiles
    exact h.spares (hsp.synced h.synced hw.ok he hw.stored) hsp hne

theorem readi_root (h : RootOk s) (ho : OpenEntry s ip) (hn : n < 2 ^ 32) (dst : Dst) :
    Runs FsStops (readi ip dst off n) s fun _ s' => SameRoot s s' := by
  refine (readi_cached h.synced.ok (ho.entry h.synced) hn dst).imp ?_
  rintro _ _ ⟨u, rfl, hu⟩
  exact h.cached (h.synced.cached hu) rfl hu

/-- A directory that `itrunc` emptied has no entries. -/
theorem itrunc_root (h : RootOk s) (ho : OpenEntry s ip) :
    Runs FsStops (itrunc ip) s fun _ s' => RootStep s s' := by
  have he := ho.entry h.synced
  refine (itrunc_runs h.synced.ok he).imp ?_
  intro _ s' ht
  have hs := ht.spares.synced h.synced ht.ok he ht.stored
  by_cases hne : ROOTINO = (s.itable ip).inum
  · have hino := ht.ino
    rw [← hne] at hino
    have hrows : dirRows s' ROOTINO = [] := by
      unfold dirRows dirCount
      rw [hino]
      dsimp only
      rw [Nat.zero_div]
      rfl
    refine ⟨⟨hs, (ht.spares.isInode _).mpr h.inode, ?_, ?_, fun p hp => ?_, fun r hr => ?_⟩,
      fun _ i j v w k hi => ?_⟩
    · rw [hino]
      exact h.type
    · rw [hino]
      rfl
    · rw [hino] at hp
      exact absurd hp (Nat.not_lt_zero p)
    · rw [hrows] at hr
      cases hr
    · rw [hrows] at hi
      cases hi
  · exact (h.spares hs ht.spares hne).step

/-! ## create -/

/-- The caller gets an entry that was read. -/
structure GivesOpen (s : Fs) (r : Option Nat) (s' : Fs) : Prop where
  step : RootStep s s'
  opened : ∀ ip, r = some ip → OpenEntry s' ip

/-- A reference that was taken twice is still there after one is given back. -/
theorem Found.hasRef_putBack {e : Nat × Nat} (h : Found s e s') (hr : 0 < (s.itable dp).ref) :
    HasRef (putBack s' dp) e.1 := by
  refine ⟨h.hasRef.1, ?_⟩
  unfold putBack
  dsimp only
  by_cases hne : e.1 = dp
  · have hmore := h.more (hne ▸ hr)
    rw [hne] at hmore ⊢
    rw [Function.update_self]
    dsimp only
    omega
  · rw [Function.update_of_ne hne]
    exact h.hasRef.2

/-- A file is made: its inode was free. -/
theorem create_makes (h : RootOk s) (he : Entry s dp ROOTINO) (hnone : ¬ Present s ROOTINO name)
    (htype : type ≠ 0) (hfit : type < 2 ^ 16) :
    Runs FsStops (do
      let d ← getInode dp
      let ip ← ialloc d.dev type
      ivalid ip
      iupdate ip
      let x ← getInode ip
      let r ← dirlink dp name x.inum
      if r < 0 then Prog.panic "create: dirlink"
      else do
        iput dp
        pure (some ip)) s fun r s' =>
      RootStep s s' ∧ s'.sb = s.sb ∧ ∃ ip, r = some ip ∧ OpenEntry s' ip ∧
        ¬ IsInode s (s'.itable ip).inum := by
  rw [Runs.bind_iff, runs_getInode, he.dev]
  refine (ialloc_root h htype hfit).bind ?_
  rintro ip s₁ ⟨h₁, hopen₁, href₁, hnew⟩
  refine (ivalid_root h₁.ok href₁).bind ?_
  rintro _ s₂ ⟨h₂, hv⟩
  have h₂ := h₁.trans h₂
  obtain ⟨href₂, _, hnum₂, _⟩ := hv.holds.entry ip href₁.2
  have ho : OpenEntry s₂ ip := ⟨⟨href₁.1, href₂⟩, hv.valid⟩
  have hne : (s₂.itable ip).inum ≠ ROOTINO := by
    rw [hnum₂]
    exact fun hc => hnew (hc ▸ h.inode)
  refine (iupdate_root h₂.ok ho hne.symm).bind ?_
  rintro _ s₃ ⟨h₃, hopen₃⟩
  have h₃ := h₂.trans h₃
  obtain ⟨href₃, _, hnum₃, hval₃⟩ := hopen₃.entry ip href₂
  have he₃ : Entry s₃ dp ROOTINO := he.of_open ((hopen₁.trans hv.holds).trans hopen₃) h₃.ok.inode
  rw [Runs.bind_iff, runs_getInode]
  refine (dirlink_root h₃.ok he₃ name (h₃.ok.synced.range ip href₁.1 href₃).2).bind ?_
  rintro r s₄ ⟨hstep, hopen₄, hr⟩
  rw [hr (fun hc => hnone (h₃.present.mp hc)), if_neg (by decide)]
  obtain ⟨href₄, _, hnum₄, hval₄⟩ := hopen₄.entry ip href₃
  refine (iput_root hstep.ok he.lt).bind ?_
  rintro _ _ ⟨h₅, rfl⟩
  rw [Runs.pure_iff]
  have hipdp : ip ≠ dp := by
    rintro rfl
    exact hne (by rw [← hnum₃]; exact he₃.num)
  refine ⟨(h₃.step.trans hstep).trans h₅.step, (h₅.sb.trans hopen₄.sb).trans h₃.sb, ip, rfl, ?_⟩
  unfold OpenEntry HasRef putBack
  dsimp only
  rw [Function.update_of_ne hipdp, hnum₄, hnum₃, hnum₂]
  exact ⟨⟨⟨href₁.1, href₄⟩, hval₄ (hval₃ hv.valid)⟩, hnew⟩

theorem create_root (h : RootOk s) (htype : type ≠ 0) (hfit : type < 2 ^ 16) :
    Runs FsStops (create name type) s fun r s' =>
    GivesOpen s r s' := by
  unfold create
  refine (root_dir_runs h).bind ?_
  rintro dp s₁ ⟨h₁, he₁, _⟩
  refine (ivalid_root h₁.ok ⟨he₁.lt, he₁.ref⟩).bind ?_
  rintro _ s₂ ⟨h₂, hv₂⟩
  have h₂ := h₁.trans h₂
  have he₂ := he₁.of_open hv₂.holds h₂.ok.inode
  refine (dirlookup_root h₂.ok he₂ name).bind ?_
  rintro r s₃ ⟨hsame, hnone, hfound⟩
  have h₃ := h₂.trans (hsame.sameRoot h₂.ok)
  have he₃ := hsame.isDir.entry
  cases r with
  | some e =>
    have hf := hfound e rfl
    dsimp only
    refine (iput_root h₃.ok he₃.lt).bind ?_
    rintro _ _ ⟨h₄, rfl⟩
    have h₄ := h₃.trans h₄
    refine (ivalid_root h₄.ok (hf.hasRef_putBack he₂.ref)).bind ?_
    rintro _ s₅ ⟨h₅, hv₅⟩
    have h₅ := h₄.trans h₅
    have hopen : OpenEntry s₅ e.1 := by
      refine ⟨⟨hf.hasRef.1, ?_⟩, hv₅.valid⟩
      rw [hv₅.ref]
      exact (hf.hasRef_putBack he₂.ref).2
    rw [Runs.bind_iff, runs_getInode]
    split
    · rw [Runs.pure_iff]
      refine ⟨h₅.step, ?_⟩
      rintro ip ⟨⟩
      exact hopen
    · refine (iput_root h₅.ok hopen.1.1).bind ?_
      rintro _ _ ⟨h₆, _⟩
      rw [Runs.pure_iff]
      exact ⟨(h₅.trans h₆).step, fun ip hip => nomatch hip⟩
  | none =>
    dsimp only
    have habsent : ¬ Present s₃ ROOTINO name := by
      rw [(hsame.sameRoot h₂.ok).present]
      exact hnone rfl
    refine (create_makes h₃.ok he₃ habsent htype hfit).imp ?_
    rintro r s₄ ⟨hstep, _, ip, rfl, ho, _⟩
    refine ⟨h₃.step.trans hstep, ?_⟩
    rintro _ ⟨⟩
    exact ho

end ThuKernel
