-- What the calls by name come to: a link, an unlink, and the opening of a file. That
-- they refuse is told from the state before.
import ThuKernel.Fs.Room
import ThuKernel.Kernel.FileCalls
import ThuKernel.Lib.StrLaws

namespace ThuKernel

/-- The table has room for the inode of the name. -/
def Findable (s : Fs) (name : CStr) : Prop :=
  RoomFor s {ROOTINO} ∧ ∀ i, inodeOf s name = some i → RoomFor s {ROOTINO, i}

variable {E : Stop → Prop} {s s₁ s' : Fs} {dp ip inum omode : Nat} {name old new : CStr}
  {path behind : Bytes}

theorem putBack_rereads (h : Synced s) (hlt : ip < NINODE) :
    Runs E (iput ip) s fun _ s' => Rereads s s' ∧ s' = putBack s ip := by
  refine (iput_synced h hlt).imp ?_
  rintro _ _ ⟨hs, rfl⟩
  exact ⟨⟨hs, rfl, Cached.refl h.ok.cache⟩, rfl⟩

theorem putBack_inum (s : Fs) (dp ip : Nat) :
    ((putBack s dp).itable ip).inum = (s.itable ip).inum := by
  unfold putBack
  dsimp only
  by_cases h : ip = dp
  · rw [h, Function.update_self]
  · rw [Function.update_of_ne h]

/-- An entry for an inode in use is read, and one for a free inode is not. -/
theorem ivalid_reads (h : Synced s) (ho : HasRef s ip)
    (hE : (inoOf s (s.itable ip).inum).type ≠ 0 ∨ ∀ e, E e) :
    Runs E (ivalid ip) s fun _ s' => Rereads s s' ∧ HasRef s' ip ∧
    (inoOf s (s.itable ip).inum).type ≠ 0 ∧
      (s'.itable ip).type = (inoOf s (s.itable ip).inum).type := by
  have hrun : Runs E (ivalid ip) s fun _ s' => Validated s ip s' := by
    rcases hE with htype | hE
    · exact ivalid_inode h ho.1 ho.2 ⟨(h.range ip ho.1 ho.2).1, (h.range ip ho.1 ho.2).2, htype⟩
    · exact (ivalid_synced h ho.1 ho.2).mono (fun e _ => hE e) fun _ _ hv => hv
  refine hrun.imp ?_
  intro _ s' hv
  have hre := hv.rereads
  obtain ⟨href, _, hnum, _⟩ := hv.holds.entry ip ho.2
  have he := hv.synced.entry ho.1 href hv.valid
  rw [hnum] at he
  refine ⟨hre, ⟨ho.1, href⟩, ?_, ?_⟩
  · rw [← hre.inoOf h]
    exact he.ino.2.2
  · rw [← hre.inoOf h, he.inoOf hre.synced.ok.table]
    rfl

/-! ## dirlink and linkat -/

theorem dirlink_ends (h : RootOk s) (he : Entry s dp ROOTINO) (inum : Nat)
    (hE : (∃ j, inodeOf s name = some j ∧ RoomFor s {j}) ∨ ∀ e, E e) :
    Runs E (dirlink dp name inum) s fun r s' =>
      r < 0 ∧ Rereads s s' ∧ (∃ j, inodeOf s name = some j ∧ RoomFor s {j}) ∨ ¬ r < 0 ∧
        inodeOf s name = none := by
  unfold dirlink
  refine (dirlookup_looks h he (hE.imp_left ?_)).bind ?_
  · rintro ⟨j, hj, hroom⟩ i hi
    cases hj.symm.trans hi
    exact hroom
  rintro (_ | e) s₁ ⟨hl, he₁⟩
  · have hnone := (hl.absent rfl).1
    have hstop : ∀ e, E e := hE.resolve_left (by rintro ⟨j, hj, _⟩; rw [hnone] at hj; cases hj)
    dsimp only
    refine (dirinsert_runs ((hl.rereads.rootOk h).isDir he₁) name inum).mono (fun e _ => hstop e) ?_
    rintro r s' ⟨rfl, _⟩
    exact Or.inr ⟨Int.lt_irrefl 0, hnone⟩
  · obtain ⟨hf, hname, _⟩ := hl.found e rfl
    dsimp only
    refine (putBack_rereads hl.rereads.synced hf.hasRef.1).bind ?_
    rintro _ s₂ ⟨hre, _⟩
    rw [Runs.pure_iff]
    exact Or.inl ⟨by decide, hl.rereads.trans hre, _, hname, hl.fits hname⟩

/-- The names are the same, or there is no first name, or there is a second one. -/
def LinkRefused (s : Fs) (old new : CStr) : Prop :=
  RoomFor s {ROOTINO} ∧ (old = new ∨ ∀ i, inodeOf s old = some i → ∃ j, inodeOf s new = some j ∧
    RoomFor s {ROOTINO, i, j})

theorem strncmp_names (hold : old.bytes.length ≤ DIRSIZ) (hnew : new.bytes.length ≤ DIRSIZ) :
    strncmp old.read new.read DIRSIZ = 0 ↔ old = new := by
  rw [strncmp_eq_zero, CStr.find_read, CStr.find_read, List.take_of_length_le hold,
    List.take_of_length_le hnew]
  exact ⟨CStr.ext, congrArg _⟩

theorem linkat_ends (h : RootOk s) (hold : old.bytes.length ≤ DIRSIZ)
    (hnew : new.bytes.length ≤ DIRSIZ)
    (hE : LinkRefused s old new ∨ ∀ e, E e) : Runs E (linkat old.read new.read) s fun r s' =>
      r = -1 ∧ Rereads s s' ∧ LinkRefused s old new ∨ r ≠ -1 ∧ ¬ LinkRefused s old new := by
  unfold linkat
  rw [CStr.ofBytes_read hold, CStr.ofBytes_read hnew]
  refine (root_dir_at h (hE.imp_left And.left)).bind ?_
  rintro dp s₁ hat
  have h₁ := hat.rereads.rootOk h
  split
  · rename_i hcmp
    exact Or.inl ⟨rfl, hat.rereads, hat.fits, Or.inl ((strncmp_names hold hnew).mp hcmp)⟩
  · rename_i hcmp
    have hne : old ≠ new := fun hc => hcmp ((strncmp_names hold hnew).mpr hc)
    refine (dirlookup_looks h₁ hat.entry (hE.imp_left ?_)).bind ?_
    · rintro ⟨_, hc⟩ i hi
      rw [hat.rereads.inodeOf h] at hi
      obtain ⟨j, _, hroom⟩ := hc.resolve_left hne i hi
      exact ((hat.room _).mp hroom).mono
        (Finset.singleton_subset_iff.mpr (Finset.mem_insert_self i {j}))
    rintro (_ | e) s₂ ⟨hl, he₂⟩
    · have hnone := (hl.absent rfl).1
      rw [hat.rereads.inodeOf h] at hnone
      refine Or.inl ⟨rfl, hat.rereads.trans hl.rereads, hat.fits, Or.inr fun i hi => ?_⟩
      rw [hnone] at hi
      cases hi
    · obtain ⟨_, hi, hroom⟩ := hl.found e rfl
      rw [hat.rereads.inodeOf h] at hi
      have hre := hat.rereads.trans hl.rereads
      have hrooms : ∀ l, RoomFor s (insert ROOTINO (insert (s₂.itable e.1).inum l)) ↔
          RoomFor s₂ l :=
        fun l => (hat.room _).trans (hroom l)
      dsimp only
      rw [Runs.bind_iff, runs_getInode]
      refine (dirlink_ends (hre.rootOk h) he₂ _ (hE.imp_left ?_)).bind ?_
      · rintro ⟨_, hc⟩
        obtain ⟨j, hj, hfit⟩ := hc.resolve_left hne _ hi
        exact ⟨j, (hre.inodeOf h new).trans hj, (hrooms {j}).mp hfit⟩
      rintro r s₃ (⟨hr, hre₃, j, hj, hfit⟩ | ⟨hr, hnone⟩)
      · rw [if_pos hr, Runs.pure_iff]
        refine Or.inl ⟨rfl, hre.trans hre₃, hat.fits, Or.inr fun i hi' => ?_⟩
        cases hi.symm.trans hi'
        exact ⟨j, (hre.inodeOf h new).symm.trans hj, (hrooms {j}).mpr hfit⟩
      · rw [if_neg hr, Runs.pure_iff]
        refine Or.inr ⟨by decide, ?_⟩
        rintro ⟨_, hc⟩
        obtain ⟨j, hj, _⟩ := hc.resolve_left hne _ hi
        rw [hre.inodeOf h] at hnone
        rw [hnone] at hj
        cases hj

/-! ## unlinkat -/

theorem dirlookupLoop_key (h : old.key = new.key) (n off : Nat) :
    dirlookupLoop dp old n off = dirlookupLoop dp new n off := by
  induction n generalizing off with
  | zero => rfl
  | succ n ih =>
    unfold dirlookupLoop
    simp only [strncmp_name, h, ih]

/-- A lookup reads the first 14 bytes of a name. -/
theorem dirlookup_key (h : old.key = new.key) : dirlookup dp old = dirlookup dp new := by
  unfold dirlookup
  simp only [dirlookupLoop_key h]

theorem inodeOf_key (h : old.key = new.key) : inodeOf s old = inodeOf s new := by
  unfold inodeOf
  rw [h]

/-- Some entry of the directory begins with the whole name. -/
def HasBeginning (s : Fs) (behind : Bytes) (name : CStr) : Prop :=
  ∃ k < dirCount s ROOTINO, Begins behind name (direntAt s ROOTINO k)

theorem Rereads.hasBeginning (h : Rereads s s') (hs : Synced s) :
    HasBeginning s' behind name ↔ HasBeginning s behind name := by
  unfold HasBeginning
  simp only [h.dirCount hs, h.direntAt hs]

/-- A name that is there is removed just when `dirunlink` sees it in an entry. -/
theorem dirunlink_ends (h : RootOk s) (he : Entry s dp ROOTINO) (hi : inodeOf s name = some inum)
    (hfit : RoomFor s {inum}) :
    Runs E (dirunlink dp name behind) s fun r _ => r < 0 ↔ ¬ HasBeginning s behind name := by
  unfold dirunlink
  refine (dirlookup_looks h he (Or.inl fun j hj => ?_)).bind ?_
  · cases hi.symm.trans hj
    exact hfit
  rintro (_ | e) s₁ ⟨hl, he₁⟩
  · cases hi.symm.trans (hl.absent rfl).1
  dsimp only
  have hbegin : HasBeginning s₁ behind name ↔ HasBeginning s behind name :=
    hl.rereads.hasBeginning h.synced
  refine (dirremove_runs ((hl.rereads.rootOk h).isDir he₁) name behind).mono
    (fun _ he => he.elim) ?_
  rintro r s' (⟨rfl, hno, _⟩ | ⟨rfl, j, hj, hfirst, _⟩)
  · refine iff_of_true (by decide) fun hc => ?_
    obtain ⟨k, hk, hb⟩ := hbegin.mpr hc
    exact hno k hk hb
  · exact iff_of_false (by decide) fun hc => hc (hbegin.mp ⟨j, hj, hfirst.begins⟩)

theorem unlinkat_ends (h : RootOk s) (hname : CStr.ofBytes path 0 KSTACK_SIZE = name)
    (hE : Findable s name ∨ ∀ e, E e) :
    Runs E (unlinkat path behind) s fun r s' => Findable s name ∧
      (inodeOf s name = none → r = -1 ∧ Rereads s s') ∧
      (inodeOf s name ≠ none → (r = 0 ↔ HasBeginning s behind name)) := by
  unfold unlinkat
  dsimp only
  rw [hname]
  refine (root_dir_at h (hE.imp_left And.left)).bind ?_
  rintro dp s₁ hat
  have hino := hat.rereads.inodeOf h name
  refine (dirlookup_looks (hat.rereads.rootOk h) hat.entry (hE.imp_left ?_)).bind ?_
  · rintro ⟨_, hfit⟩ i hi
    rw [hino] at hi
    exact (hat.room {i}).mp (hfit i hi)
  rintro (_ | e) s₂ ⟨hl, he₂⟩
  · have hnone := (hl.absent rfl).1
    rw [hino] at hnone
    refine ⟨⟨hat.fits, fun i hi => ?_⟩, fun _ => ⟨rfl, hat.rereads.trans hl.rereads⟩,
      fun hc => absurd hnone hc⟩
    rw [hnone] at hi
    cases hi
  · obtain ⟨_, hi, hroom⟩ := hl.found e rfl
    have hfits := hl.fits hi
    rw [hino] at hi
    have hre := hat.rereads.trans hl.rereads
    -- The inode is open: the second lookup needs no more room.
    have hroom₂ : RoomFor s₂ {(s₂.itable e.1).inum} := by
      rw [← hroom, Finset.insert_eq_of_mem (Finset.mem_singleton_self _)]
      exact hfits
    dsimp only
    refine (dirunlink_ends (hre.rootOk h) he₂ ((hre.inodeOf h name).trans hi) hroom₂).bind ?_
    intro r s₃ hr
    rw [hre.hasBeginning h.synced] at hr
    have hfind : Findable s name := by
      refine ⟨hat.fits, fun j hj => ?_⟩
      cases hi.symm.trans hj
      exact (hat.room _).mpr hfits
    have hsome : inodeOf s name ≠ none := by
      rw [hi]
      exact Option.some_ne_none _
    split
    · rename_i hneg
      exact ⟨hfind, fun hc => absurd hc hsome, fun _ => iff_of_false (by decide) (hr.mp hneg)⟩
    · rename_i hneg
      exact ⟨hfind, fun hc => absurd hc hsome,
        fun _ => iff_of_true rfl (not_not.mp (mt hr.mpr hneg))⟩

/-! ## Opening -/

/-- The inode of the path can be opened, and none is made. -/
def Openable (s : Fs) (path : CStr) (omode : Nat) : Prop :=
  Findable s path ∧ (inodeOf s path = none → hasFlag omode O_CREATE = false) ∧
    ∀ i, inodeOf s path = some i → (inoOf s i).type ≠ 0

/-- What the opening of an inode comes to. -/
inductive Opens (s : Fs) (path : CStr) (omode : Nat) : Option Nat → Fs → Prop
  | absent {s' : Fs} : Openable s path omode → inodeOf s path = none → Rereads s s' →
      Opens s path omode none s'
  | other {s' : Fs} {i : Nat} : Openable s path omode → inodeOf s path = some i →
      (inoOf s i).type ≠ T_FILE →
      hasFlag omode O_CREATE = true → Rereads s s' → Opens s path omode none s'
  | found {s' : Fs} {i ip : Nat} : Openable s path omode → inodeOf s path = some i →
      (hasFlag omode O_CREATE = true → (inoOf s i).type = T_FILE) → Rereads s s' → HasRef s' ip →
      (s'.itable ip).type = (inoOf s i).type → Opens s path omode (some ip) s'
  | made {s' : Fs} {ip : Nat} : ¬ Openable s path omode → Synced s' → HasRef s' ip →
      s'.bio.disk ≠ s.bio.disk → Opens s path omode (some ip) s'

theorem create_ends {path : CStr} (h : RootOk s) (hcreate : hasFlag omode O_CREATE = true)
    (hE : Openable s path omode ∨ ∀ e, E e) :
    Runs E (create path T_FILE) s fun r s' => Opens s path omode r s' := by
  unfold create
  refine (root_dir_at h (hE.imp_left fun ho => ho.1.1)).bind ?_
  rintro dp s₁ hat
  have h₁ := hat.rereads.rootOk h
  refine (ivalid_inode h₁.synced hat.entry.lt hat.entry.ref
    (by rw [hat.entry.num]; exact hat.entry.ino)).bind ?_
  rintro _ s₂ hv
  have h₂ := hv.rereads.rootOk h₁
  have hre₂ := hat.rereads.trans hv.rereads
  have he₂ : Entry s₂ dp ROOTINO := hat.entry.of_open hv.holds h₂.inode
  have hroom₂ : ∀ l, RoomFor s (insert ROOTINO l) ↔ RoomFor s₂ l :=
    fun l => (hat.room l).trans hv.sameUse.room
  have hino := hre₂.inodeOf h path
  refine (dirlookup_looks h₂ he₂ (hE.imp_left ?_)).bind ?_
  · rintro ho i hi
    rw [hino] at hi
    exact (hroom₂ {i}).mp (ho.1.2 i hi)
  rintro (_ | e) s₃ ⟨hl, he₃⟩
  · have hnone := (hl.absent rfl).1
    rw [hino] at hnone
    have hno : ¬ Openable s path omode := fun ho => by
      have := ho.2.1 hnone
      rw [hcreate] at this
      cases this
    have hre := hre₂.trans hl.rereads
    have hrows : ¬ Present s₃ ROOTINO path := by
      rw [present_iff_row]
      rintro ⟨r, hr, hne, hkey⟩
      have hlook := Rows.lookup_eq_none.mp ((hre.inodeOf h path).trans hnone)
      obtain ⟨j, hj⟩ := List.getElem?_of_mem hr
      exact hne (hlook j r.1 (by rw [hj, ← hkey]))
    dsimp only
    refine (create_makes (hre.rootOk h) he₃ hrows (by decide) (by decide)).mono
      (fun e _ => (hE.resolve_left hno) e) ?_
    rintro r s' ⟨hstep, hsb, ip, rfl, ho, hnew⟩
    refine .made hno hstep.ok.synced ho.1 fun hdisk => hnew ?_
    have hin := (ho.entry hstep.ok.synced).ino
    refine (isInode_congr hsb fun _ => ?_).mp hin
    rw [hstep.ok.synced.stored.inoOf, hre.synced.stored.inoOf, hdisk, hre.cached.disk, hsb]
  · obtain ⟨hf, hi, _⟩ := hl.found e rfl
    have hfits := hl.fits hi
    rw [hino] at hi
    have hfind : Findable s path := by
      refine ⟨hat.fits, fun j hj => ?_⟩
      cases hi.symm.trans hj
      exact (hroom₂ _).mpr hfits
    dsimp only
    refine (putBack_rereads hl.rereads.synced he₃.lt).bind ?_
    rintro _ _ ⟨hre₄, rfl⟩
    have hre := (hre₂.trans hl.rereads).trans hre₄
    have hnum : ((putBack s₃ dp).itable e.1).inum = (s₃.itable e.1).inum := putBack_inum ..
    have hread := ivalid_reads (E := E) hre₄.synced (hf.hasRef_putBack he₂.ref)
    rw [hnum, hre.inoOf h.synced] at hread
    refine (hread (hE.imp_left fun ho => ho.2.2 _ hi)).bind ?_
    rintro _ s₅ ⟨hre₅, href, htype, heq⟩
    have hopen : Openable s path omode := by
      refine ⟨hfind, fun hc => ?_, fun j hj => ?_⟩
      · rw [hi] at hc
        cases hc
      · cases hi.symm.trans hj
        exact htype
    rw [Runs.bind_iff, runs_getInode]
    split
    · rename_i hc
      rw [Runs.pure_iff]
      refine .found hopen hi (fun _ => ?_) (hre.trans hre₅) href heq
      rw [← heq]
      exact hc.2
    · rename_i hc
      refine (putBack_rereads hre₅.synced href.1).bind ?_
      rintro _ s₆ ⟨hre₆, _⟩
      rw [Runs.pure_iff]
      refine .other hopen hi (fun hfile => hc ⟨rfl, ?_⟩) hcreate ((hre.trans hre₅).trans hre₆)
      rw [heq]
      exact hfile

theorem openInode_ends {path : CStr} (h : RootOk s) (hE : Openable s path omode ∨ ∀ e, E e) :
    Runs E (openInode path omode) s fun r s' => Opens s path omode r s' := by
  unfold openInode
  split
  · rename_i hcreate
    exact create_ends h hcreate hE
  · rename_i hcreate
    have hcreate := Bool.eq_false_iff.mpr hcreate
    unfold namei
    rw [Runs.bind_iff]
    refine (root_dir_at h (hE.imp_left fun ho => ho.1.1)).bind ?_
    rintro dp s₁ hat
    have hino := hat.rereads.inodeOf h path
    refine (dirlookup_looks (hat.rereads.rootOk h) hat.entry (hE.imp_left ?_)).bind ?_
    · rintro ho i hi
      rw [hino] at hi
      exact (hat.room {i}).mp (ho.1.2 i hi)
    rintro (_ | e) s₂ ⟨hl, _⟩
    · have hnone := (hl.absent rfl).1
      rw [hino] at hnone
      refine .absent ⟨⟨hat.fits, fun i hi => ?_⟩, fun _ => hcreate, fun i hi => ?_⟩ hnone
        (hat.rereads.trans hl.rereads)
      · rw [hnone] at hi
        cases hi
      · rw [hnone] at hi
        cases hi
    · obtain ⟨hf, hi, _⟩ := hl.found e rfl
      have hfits := hl.fits hi
      rw [hino] at hi
      have hre := hat.rereads.trans hl.rereads
      have hread := ivalid_reads (E := E) hre.synced hf.hasRef
      rw [hre.inoOf h.synced] at hread
      rw [Runs.pure_iff]
      dsimp only [Option.map]
      refine (hread (hE.imp_left fun ho => ho.2.2 _ hi)).bind ?_
      rintro _ s₃ ⟨hre₃, href, htype, heq⟩
      rw [Runs.pure_iff]
      refine .found ⟨⟨hat.fits, fun j hj => ?_⟩, fun _ => hcreate, fun j hj => ?_⟩ hi (fun hc => ?_)
        (hre.trans hre₃) href heq
      · cases hi.symm.trans hj
        exact (hat.room _).mpr hfits
      · cases hi.symm.trans hj
        exact htype
      · rw [hcreate] at hc
        cases hc

end ThuKernel
