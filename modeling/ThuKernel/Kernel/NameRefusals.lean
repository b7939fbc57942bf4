-- What openat, linkat and unlinkat refuse, and what each of the five calls that take a
-- string needs to be sure of it.
import ThuKernel.Kernel.NameCalls
import ThuKernel.Kernel.NameEnds
import ThuKernel.Kernel.PipeUndo
import ThuKernel.Kernel.UserStrings

namespace ThuKernel

variable {lk : Link} {E : Stop → Prop} {k k₁ k' : Kernel} {s s' : Fs} {ip path_ omode : Nat}
  {name str : CStr}

/-! ## Refusals -/

theorem NoEffect.trans (h : NoEffect k k₁) (h' : NoEffect k₁ k') : NoEffect k k' := by
  refine ⟨h'.pool.trans h.pool, fun f => (h'.refs f).trans (h.refs f), fun f hf => ?_,
    h'.disk.trans h.disk⟩
  rw [h'.files f (by rwa [h.refs]), h.files f hf]

theorem Rereads.noEffect (h : Rereads k.fs s') : NoEffect k { k with fs := s' } :=
  ⟨rfl, fun _ => rfl, fun _ _ => rfl, h.cached.disk⟩

/-- A call that stops only where the condition fails, and is refused just where it holds. -/
theorem refuses_iff {f : Prog Kernel Int} {C : Prop}
    (h : ∀ E : Stop → Prop, (C ∨ ∀ e, E e) → Runs E f k fun r k' => (r = -1 ∧ NoEffect k k') ↔ C) :
    Refuses k f ↔ C := by
  constructor
  · intro hr
    obtain ⟨r, k', _, hrefused, hiff⟩ :=
      (hr.and (h (fun _ => True) (Or.inr fun _ => trivial))).exists_ok fun e he => he.1
    exact hiff.mp hrefused
  · exact fun hc => (h (fun _ => False) (Or.inl hc)).imp fun r k' hiff => hiff.mpr hc

/-! ## openat -/

/-- There is no file or no descriptor left. -/
def NoFileLeft (k : Kernel) : Prop :=
  freeFile k.filepool = none ∨ firstFd (k.pool k.current_proc).files = none

/-- A file in no use is of no kind: `fileclose` leaves it so. -/
def FreeFilesClosed (k : Kernel) : Prop :=
  ∀ f, (k.filepool f).ref = 0 → (k.filepool f).type = .FD_NONE

theorem openFile_ends (h : FreeFilesClosed k) : Runs E (openFile lk) k fun r k' => k'.fs = k.fs ∧
    (r = none ∧ NoFileLeft k ∧ NoEffect k k' ∨ r ≠ none ∧ ¬ NoFileLeft k) := by
  unfold openFile
  refine filealloc_runs.bind ?_
  rintro _ k₁ ⟨rfl, ⟨hnone, rfl⟩ | ⟨f, hf, href, rfl⟩⟩
  · rw [hnone]
    exact ⟨rfl, Or.inl ⟨rfl, Or.inl hnone, rfl, fun _ => rfl, fun _ _ => rfl, rfl⟩⟩
  · rw [hf]
    dsimp only
    rw [Runs.bind_iff, runs_fdalloc]
    dsimp only
    cases hfd : firstFd (k.pool k.current_proc).files with
    | some fd =>
      refine ⟨rfl, Or.inr ⟨Option.some_ne_none _, ?_⟩⟩
      rintro (hc | hc)
      · rw [hf] at hc
        cases hc
      · rw [hfd] at hc
        cases hc
    | none =>
      have hsame := withFd_none (f := f)
        (k := { k with filepool := Function.update k.filepool f { k.filepool f with ref := 1 } })
        hfd
      rw [hsame]
      dsimp only
      rw [Runs.bind_iff, runs_fileclose (Function.update_self ..), runs_closeLast]
      dsimp only
      rw [h f href]
      refine ⟨fun hc => absurd hc (by decide), fun hc => absurd hc (by decide),
        fun _ => ⟨fun _ => ?_, fun hc => (by cases hc), fun hc => (by cases hc)⟩⟩
      refine ⟨rfl, Or.inl ⟨rfl, Or.inr hfd, rfl, fun g => ?_, fun g hg => ?_, rfl⟩⟩
      · dsimp only
        by_cases hgf : g = f
        · rw [hgf, Function.update_self, file.closed_ref, href]
        · rw [Function.update_of_ne hgf, Function.update_of_ne hgf, Function.update_of_ne hgf]
      · have hgf : g ≠ f := by
          rintro rfl
          omega
        dsimp only
        rw [Function.update_of_ne hgf, Function.update_of_ne hgf, Function.update_of_ne hgf]

/-- The second half of `fileopen`: the inode gets a file and a descriptor, or goes back. -/
theorem fileopen_rest (h : FreeFilesClosed k) (hs : Synced k.fs) (hip : HasRef k.fs ip)
    (hE : NoFileLeft k ∨ ∀ e, E e) :
    Runs E (do
      match ← openFile lk with
      | none => do
        onFs (iput ip)
        pure (-1)
      | some (f, fd) => do
        let y ← getFile f
        setFile f { y with
          type := .FD_INODE, off := 0, ip := some ip
          readable := !hasFlag omode O_WRONLY
          writable := hasFlag omode O_WRONLY || hasFlag omode O_RDWR }
        let x ← onFs (getInode ip)
        Prog.when (hasFlag omode O_TRUNC ∧ x.type = T_FILE) (onFs (itrunc ip))
        pure (fd : Int)) k fun r k' => r = -1 ∧ NoFileLeft k ∧ NoEffect k k' ∨ r ≠ -1 ∧
          ¬ NoFileLeft k := by
  refine (openFile_ends h).bind ?_
  rintro r k₁ ⟨hfs, ⟨rfl, hno, heff⟩ | ⟨hsome, hleft⟩⟩
  · dsimp only
    rw [Runs.bind_iff, runs_onFs, hfs]
    refine (putBack_rereads hs hip.1).imp ?_
    rintro _ s' ⟨hre, _⟩
    refine Or.inl ⟨rfl, hno, heff.trans (Rereads.noEffect ?_)⟩
    rwa [hfs]
  · obtain ⟨⟨f, fd⟩, rfl⟩ := Option.ne_none_iff_exists'.mp hsome
    have hrest : Runs (fun _ => True) (do
        let y ← getFile f
        setFile f { y with
          type := .FD_INODE, off := 0, ip := some ip
          readable := !hasFlag omode O_WRONLY
          writable := hasFlag omode O_WRONLY || hasFlag omode O_RDWR }
        let x ← onFs (getInode ip)
        Prog.when (hasFlag omode O_TRUNC ∧ x.type = T_FILE) (onFs (itrunc ip))
        pure (fd : Int)) k₁ fun r _ => r ≠ -1 := by
      rw [Runs.bind_iff, runs_getFile, Runs.bind_iff, runs_setFile, Runs.bind_iff, runs_onFs,
        runs_getInode, Runs.bind_iff]
      apply Runs.of_forall
      intro _ _ _
      rw [Runs.pure_iff]
      have := Int.natCast_nonneg fd
      omega
    exact hrest.mono (fun e _ => (hE.resolve_left hleft) e) fun r k' hr => Or.inr ⟨hr, hleft⟩

/-- Nothing is made for the path, and there is no file to open or nothing to open it with. -/
def OpenRefused (k : Kernel) (path : CStr) (omode : Nat) : Prop :=
  Openable k.fs path omode ∧ ∀ i, inodeOf k.fs path = some i →
    if (inoOf k.fs i).type = T_FILE then NoFileLeft k else hasFlag omode O_CREATE = true

theorem fileopen_refuses_iff {path : CStr} (hr : RootOk k.fs) (h : FreeFilesClosed k) :
    Refuses k (fileopen lk path omode) ↔ OpenRefused k path omode := by
  apply refuses_iff
  intro E hE
  unfold fileopen
  rw [Runs.bind_iff, runs_onFs]
  refine (openInode_ends hr (hE.imp_left And.left)).imp ?_
  intro r s' hopens
  cases hopens with
  | absent ho hnone hre =>
    refine iff_of_true ⟨rfl, hre.noEffect⟩ ⟨ho, fun i hi => ?_⟩
    rw [hnone] at hi
    cases hi
  | other ho hi htype hcreate hre =>
    refine iff_of_true ⟨rfl, hre.noEffect⟩ ⟨ho, fun j hj => ?_⟩
    cases hi.symm.trans hj
    rwa [if_neg htype]
  | @found _ i ip ho hi hcreate hre href htype =>
    dsimp only
    rw [Runs.bind_iff, runs_onFs, runs_getInode, htype]
    have hcond : OpenRefused k path omode →
        if (inoOf k.fs i).type = T_FILE then NoFileLeft k else hasFlag omode O_CREATE = true :=
      fun hc => hc.2 i hi
    split
    · rename_i hfile
      rw [Runs.panic_iff]
      refine hE.resolve_left (fun hc => hfile (hcreate ?_)) _
      have := hcond hc
      rwa [if_neg hfile] at this
    · rename_i hfile
      have hfile := not_not.mp hfile
      have hiff : OpenRefused k path omode ↔ NoFileLeft k := by
        refine ⟨fun hc => ?_, fun hc => ⟨ho, fun j hj => ?_⟩⟩
        · have := hcond hc
          rwa [if_pos hfile] at this
        · cases hi.symm.trans hj
          rwa [if_pos hfile]
      rw [hiff] at hE ⊢
      refine (fileopen_rest (k := { k with fs := s' }) h hre.synced href hE).imp ?_
      rintro r k' (⟨rfl, hno, heff⟩ | ⟨hne, hleft⟩)
      · exact iff_of_true ⟨rfl, hre.noEffect.trans heff⟩ hno
      · exact iff_of_false (fun hc => hne hc.1) hleft
  | @made _ ip hno hs href hdisk =>
    have hrefused : ¬ OpenRefused k path omode := fun hc => hno hc.1
    have hstop := hE.resolve_left hrefused
    dsimp only
    rw [Runs.bind_iff, runs_onFs, runs_getInode]
    split
    · exact hstop _
    · refine (fileopen_rest (k := { k with fs := s' }) h hs href (Or.inr hstop)).imp ?_
      rintro r k' (⟨_, _, heff⟩ | ⟨hne, _⟩)
      · exact iff_of_false (fun hc => hdisk (heff.disk.symm.trans hc.2.disk)) hrefused
      · exact iff_of_false (fun hc => hne hc.1) hrefused

theorem openFine_iff (hr : RootOk k.fs) (h : FreeFilesClosed k) (va : Nat) :
    OpenFine lk k va omode ↔
    CanRead k va PATH_SIZE ∨ ∀ path, MayName k va PATH_SIZE path → OpenRefused k path omode := by
  unfold OpenFine
  simp only [sys_openat_eq]
  refine (named_call_iff va).trans (or_congr_right ?_)
  simp only [fileopen_refuses_iff hr h]

/-! ## linkat -/

theorem MayRead.le {mem : Bytes} {root va max : Nat} (h : MayRead mem root va max name) :
    name.bytes.length ≤ max := by
  rcases h with h | h
  · rcases h.ends with hmax | ⟨hlt, _⟩
    · exact hmax.le
    · exact hlt.le
  · exact h.1

theorem link_refuses_iff {old new : CStr} (hr : RootOk k.fs) (hold : old.bytes.length ≤ DIRSIZ)
    (hnew : new.bytes.length ≤ DIRSIZ) :
    Refuses k (linkNames (old, new)) ↔ LinkRefused k.fs old new := by
  apply refuses_iff
  intro E hE
  unfold linkNames
  rw [runs_onFs]
  refine (linkat_ends hr hold hnew hE).imp ?_
  rintro r s' (⟨rfl, hre, hc⟩ | ⟨hne, hc⟩)
  · exact iff_of_true ⟨rfl, hre.noEffect⟩ hc
  · exact iff_of_false (fun h => hne h.1) hc

theorem linkFine_refused (hr : RootOk k.fs) (oldpath_ newpath_ : Nat) :
    LinkFine k oldpath_ newpath_ ↔ (CanRead k oldpath_ DIRSIZ ∧ CanRead k newpath_ DIRSIZ) ∨
      ∀ old new, MayName k oldpath_ DIRSIZ old → MayName k newpath_ DIRSIZ new →
      LinkRefused k.fs old new := by
  refine (linkFine_iff oldpath_ newpath_).trans (or_congr_right ?_)
  constructor
  · exact fun h old new hold hnew =>
      (link_refuses_iff hr hold.le hnew.le).mp (h (old, new) ⟨hold, hnew⟩)
  · rintro h ⟨old, new⟩ ⟨hold, hnew⟩
    exact (link_refuses_iff hr hold.le hnew.le).mpr (h old new hold hnew)

/-! ## unlinkat -/

theorem CStr.key_ofBytes {b : Bytes} {n : Nat} (h : DIRSIZ ≤ n) :
    (CStr.ofBytes b 0 n).key = CStr.find b 0 DIRSIZ := CStr.take_find h

theorem present_of_inodeOf (h : inodeOf s name ≠ none) :
    ∃ j < dirCount s ROOTINO, Match s ROOTINO name j := by
  by_contra hno
  push Not at hno
  exact h (inodeOf_eq_none hno)

/-- A name of at most 14 bytes is seen in its entry, whatever lies behind that. -/
theorem begins_of_short {behind : Bytes} {de : List Byte} (hlen : name.bytes.length ≤ DIRSIZ)
    (h : nameIn de = name.key) :
    Begins behind name de := by
  have hbytes : name.key = name.bytes := List.take_of_length_le hlen
  unfold Begins CStr.strlen
  rw [strncmp_eq_zero, CStr.find_read, List.take_length]
  have hcongr : CStr.find (direntName de behind) 0 name.bytes.length =
      CStr.find (direntName de fun _ => 0) 0 name.bytes.length := by
    apply CStr.find_congr
    intro i hi
    unfold direntName
    rw [Nat.zero_add, if_pos (hi.trans_le hlen), if_pos (hi.trans_le hlen)]
  rw [hcongr, ← CStr.take_find hlen]
  change (nameIn de).take _ = _
  rw [h, hbytes, List.take_length]

theorem hasBeginning_of_short {behind : Bytes} (hlen : name.bytes.length ≤ DIRSIZ)
    (h : inodeOf s name ≠ none) :
    HasBeginning s behind name := by
  obtain ⟨j, hj, hm⟩ := present_of_inodeOf h
  exact ⟨j, hj, begins_of_short hlen hm.2⟩

/-- With a NUL behind the 14 bytes of an entry, no longer name is seen in it. -/
theorem not_begins_of_long {de : List Byte} (hlen : name.bytes.length = DIRSIZ + 1) :
    ¬ Begins zeros name de := by
  unfold Begins CStr.strlen
  rw [strncmp_eq_zero, CStr.find_read, List.take_length, hlen]
  intro hc
  have hlt : DIRSIZ < (CStr.find (direntName de zeros) 0 (DIRSIZ + 1)).length := by
    rw [hc]
    omega
  have hat := CStr.getElem_find hlt
  have hbehind : direntName de zeros (0 + DIRSIZ) = 0 := by
    unfold direntName
    rw [if_neg (by omega)]
    rfl
  rw [hbehind] at hat
  exact CStr.find_nonzero _ _ _ _ (List.getElem_mem hlt) hat

theorem sys_unlinkat_ok (bufs : Bytes × Bytes) (path_ : Nat) :
    ∃ l, CopiedBytes k.mm.mem (callerRoot k) path_ DIRSIZ l ∧
    sys_unlinkat bufs.1 bufs.2 path_ k = onFs (unlinkat (bufs.1.store 0 l) bufs.2) k := by
  obtain ⟨l, hl, hok⟩ := copyinPath_ok (k := k) bufs.1 path_
  exact ⟨l, hl, bind_ok hok⟩

/-- A string without a NUL is copied whole. -/
theorem CopiedBytes.whole {mem : Bytes} {root va max : Nat} {l : List Byte}
    (h : CopiedBytes mem root va max l) (hstr : StringAt mem root va max str)
    (hlen : str.bytes.length = max) : l = str.bytes := by
  have hle := h.le
  have hfull : l.length = max := by
    rcases h.ends with hmax | hzero | hstop
    · exact hmax
    · obtain ⟨i, hi, hat⟩ := List.getElem_of_mem hzero
      have hbyte : l[i] = userByte mem root (va + i) := by
        rw [List.getElem_of_eq h.bytes hi]
        simp [userBytes, userByte]
      exact absurd (hbyte.symm.trans hat) (userBytes_ne hstr.bytes (by omega))
    · by_contra hne
      exact hstop (hstr.mapped _ (by omega))
  rw [h.bytes, hstr.bytes, hfull, hlen]

/-- Two names with the same first 14 bytes, for which no lookup returns an inode. -/
theorem unlinkat_unfound {path behind : Bytes} (path' behind' : Bytes) (hr : RootOk s)
    (hkey : (CStr.ofBytes path 0 KSTACK_SIZE).key = (CStr.ofBytes path' 0 KSTACK_SIZE).key)
    (hno : ∀ i, inodeOf s (CStr.ofBytes path' 0 KSTACK_SIZE) = some i → ¬ RoomFor s {ROOTINO, i}) :
    unlinkat path behind s = unlinkat path' behind' s := by
  unfold unlinkat
  cases hroot : root_dir s with
  | error e => rw [Prog.bind_error hroot, Prog.bind_error hroot]
  | ok x =>
    obtain ⟨dp, s₁⟩ := x
    rw [Prog.bind_ok hroot, Prog.bind_ok hroot, dirlookup_key hkey]
    have hat := (root_dir_at (E := fun _ => True) hr (Or.inr fun _ => trivial)).of_ok hroot
    cases hlook : dirlookup dp (CStr.ofBytes path' 0 KSTACK_SIZE) s₁ with
    | error e => rw [Prog.bind_error hlook, Prog.bind_error hlook]
    | ok y =>
      obtain ⟨r, s₂⟩ := y
      rw [Prog.bind_ok hlook, Prog.bind_ok hlook]
      have hl :=
        ((dirlookup_looks (E := fun _ => True) (hat.rereads.rootOk hr) hat.entry (Or.inr fun _ =>
          trivial)).of_ok hlook).1
      cases r with
      | none => rfl
      | some e =>
        obtain ⟨_, hi, _⟩ := hl.found e rfl
        have hfits := hl.fits hi
        rw [hat.rereads.inodeOf hr] at hi
        exact absurd ((hat.room _).mpr hfits) (hno _ hi)

/-- What `unlinkat` comes to in the kernel. -/
theorem runs_unlinkat (path behind : Bytes) (hr : RootOk k.fs)
    (hname : CStr.ofBytes path 0 KSTACK_SIZE = name)
    (hE : Findable k.fs name ∨ ∀ e, E e) : Runs E (onFs (unlinkat path behind)) k fun r k' =>
    Findable k.fs name ∧
      (inodeOf k.fs name = none → r = -1 ∧ NoEffect k k') ∧
      (inodeOf k.fs name ≠ none → (r = 0 ↔ HasBeginning k.fs behind name)) := by
  rw [runs_onFs]
  refine (unlinkat_ends hr hname hE).imp ?_
  rintro r s' ⟨hfind, habsent, hpresent⟩
  exact ⟨hfind, fun hc => ⟨(habsent hc).1, (habsent hc).2.noEffect⟩, hpresent⟩

/-- A name without a NUL among its 14 bytes runs on over the stack: that makes no
difference only when no lookup returns its inode. -/
theorem unlinkFine_long (hr : RootOk k.fs) (hstr : StringIs k path_ DIRSIZ str)
    (hlen : str.bytes.length = DIRSIZ) :
    UnlinkFine k path_ ↔ ∀ i, inodeOf k.fs str = some i → ¬ RoomFor k.fs {ROOTINO, i} := by
  have hread : CStr.ofBytes str.read 0 KSTACK_SIZE = str := CStr.ofBytes_read (by rw [hlen]; decide)
  constructor
  · intro hfine i hi hroom
    have hone : ∀ b ∈ str.bytes ++ [1], b ≠ 0 := by
      intro b hb
      rcases List.mem_append.mp hb with hb | hb
      · exact str.nonzero b hb
      · rw [List.mem_singleton.mp hb]
        decide
    -- The byte behind the buffer is no NUL, and the one behind the entry is.
    generalize hlong : CStr.mk (str.bytes ++ [1]) hone = long
    have hbytes : long.bytes = str.bytes ++ [1] := by rw [← hlong]
    have hlonglen : long.bytes.length = DIRSIZ + 1 := by rw [hbytes, List.length_append, hlen]; rfl
    have hkey : long.key = str.key := by
      unfold CStr.key
      rw [hbytes, List.take_append_of_le_length hlen.ge]
    obtain ⟨l, hl, hrun⟩ := sys_unlinkat_ok (k := k) (long.read, zeros) path_
    have hact : sys_unlinkat long.read zeros path_ k = onFs (unlinkat str.read zeros) k :=
      (hfine (long.read, zeros)).1 str hstr
    rw [hl.whole hstr hlen, CStr.read_store (by rw [hbytes]; exact List.prefix_append ..),
      hact] at hrun
    have hfind : Findable k.fs str := by
      refine ⟨hroom.mono (by simp), fun j hj => ?_⟩
      cases hi.symm.trans hj
      exact hroom
    have hsome : inodeOf k.fs str ≠ none := by
      rw [hi]
      exact Option.some_ne_none _
    have hshort := runs_unlinkat (E := fun _ => False) str.read zeros hr hread (Or.inl hfind)
    have hother := runs_unlinkat (E := fun _ => True) long.read zeros hr
      (CStr.ofBytes_read (by rw [hlonglen]; decide)) (Or.inr fun _ => trivial)
    obtain ⟨r, k', hok, _, _, hzero⟩ := hshort.returns
    rw [hrun] at hok
    obtain ⟨_, _, hno⟩ := hother.of_ok hok
    rw [inodeOf_key hkey] at hno
    obtain ⟨j, _, hb⟩ := (hno hsome).mp ((hzero hsome).mpr (hasBeginning_of_short hlen.le hsome))
    exact not_begins_of_long hlonglen hb
  · intro hno bufs
    refine ⟨fun name hname => ?_, fun hcan => absurd ⟨str, hstr⟩ hcan⟩
    obtain rfl := StringAt.unique hname hstr
    obtain ⟨l, hl, hrun⟩ := sys_unlinkat_ok (k := k) bufs path_
    have hbuffer : CStr.ofBytes (bufs.1.store 0 l) 0 DIRSIZ = name :=
      StringAt.mayRead_eq hname (hl.mayRead bufs.1)
    refine hrun.trans ?_
    unfold onFs Prog.on
    dsimp only
    rw [unlinkat_unfound name.read zeros hr ?_ (by rwa [hread])]
    rw [CStr.key_ofBytes (by decide), CStr.key_ofBytes (by decide), CStr.find_read, ← hlen,
      List.take_length]
    have := congrArg CStr.bytes hbuffer
    rwa [← hlen] at this

/-- A name that cannot be read is refused for all stacks when no name that begins with
what was read is there. -/
theorem unlinkFine_unread (hr : RootOk k.fs) (hcan : ¬ CanRead k path_ DIRSIZ) :
    UnlinkFine k path_ ↔
    RoomFor k.fs {ROOTINO} ∧ ∀ name, MayName k path_ DIRSIZ name → inodeOf k.fs name = none := by
  constructor
  · intro hfine
    have hat : ∀ name, MayName k path_ DIRSIZ name → Findable k.fs name ∧
        inodeOf k.fs name = none := by
      intro name hname
      obtain ⟨l, hl, hrun⟩ := sys_unlinkat_ok (k := k) (name.read, zeros) path_
      have hstack : name.read.store 0 l = name.read := by
        rcases hl.reads name.read with hstr | ⟨pre, hpre, rfl⟩
        · exact absurd ⟨_, hstr⟩ hcan
        · rcases hname with hname | ⟨_, pre', hpre', hbegins⟩
          · exact absurd ⟨_, hname⟩ hcan
          · obtain rfl := hpre.unique hpre'
            exact CStr.read_store hbegins
      rw [hstack] at hrun
      have hrefused := (refuses_congr hrun).mp ((hfine _).2 hcan)
      have hends := runs_unlinkat (E := fun _ => True) name.read zeros hr
        (CStr.ofBytes_read (hname.le.trans (by decide))) (Or.inr fun _ => trivial)
      obtain ⟨r, _, _, ⟨rfl, _⟩, hfind, _, hpresent⟩ :=
        (hrefused.and hends).exists_ok fun e he => he.1
      refine ⟨hfind, ?_⟩
      by_contra hsome
      have := (hpresent hsome).mpr (hasBeginning_of_short hname.le hsome)
      cases this
    obtain ⟨l, hl, _⟩ := sys_unlinkat_ok (k := k) (zeros, zeros) path_
    exact ⟨(hat _ (hl.mayRead zeros)).1.1, fun name hname => (hat name hname).2⟩
  · rintro ⟨hroom, hnone⟩ bufs
    refine ⟨fun name hname => absurd ⟨name, hname⟩ hcan, fun _ => ?_⟩
    obtain ⟨l, hl, hrun⟩ := sys_unlinkat_ok (k := k) bufs path_
    have hkey : (CStr.ofBytes (bufs.1.store 0 l) 0 KSTACK_SIZE).key =
        (CStr.ofBytes (bufs.1.store 0 l) 0 DIRSIZ).key := by
      rw [CStr.key_ofBytes (by decide), CStr.key_ofBytes le_rfl]
    have habsent := (inodeOf_key hkey).trans (hnone _ (hl.mayRead bufs.1))
    refine (refuses_congr hrun).mpr
      ((runs_unlinkat _ _ hr rfl (Or.inl ⟨hroom, fun i hi => ?_⟩)).imp ?_)
    · rw [habsent] at hi
      cases hi
    · exact fun r k' hends => hends.2.1 habsent

theorem unlinkFine_iff (hr : RootOk k.fs) (path_ : Nat) : UnlinkFine k path_ ↔
    (∃ str, StringIs k path_ DIRSIZ str ∧
      (str.bytes.length < DIRSIZ ∨ ∀ i, inodeOf k.fs str = some i → ¬ RoomFor k.fs {ROOTINO, i})) ∨
    (¬ CanRead k path_ DIRSIZ ∧ RoomFor k.fs {ROOTINO} ∧ ∀ name, MayName k path_ DIRSIZ name →
    inodeOf k.fs name = none) := by
  by_cases hcan : CanRead k path_ DIRSIZ
  · obtain ⟨str, hstr⟩ := hcan
    have hother : ∀ str', StringIs k path_ DIRSIZ str' → str' = str :=
      fun str' hstr' => StringAt.unique hstr' hstr
    by_cases hlt : str.bytes.length < DIRSIZ
    · exact iff_of_true (unlinkFine hstr hlt) (Or.inl ⟨str, hstr, Or.inl hlt⟩)
    · have hlen : str.bytes.length = DIRSIZ := hstr.ends.resolve_right fun hc => hlt hc.1
      rw [unlinkFine_long hr hstr hlen]
      constructor
      · exact fun hno => Or.inl ⟨str, hstr, Or.inr hno⟩
      · rintro (⟨str', hstr', hc⟩ | ⟨hc, _⟩)
        · obtain rfl := hother str' hstr'
          exact hc.resolve_left hlt
        · exact absurd ⟨str, hstr⟩ hc
  · rw [unlinkFine_unread hr hcan]
    constructor
    · exact fun h => Or.inr ⟨hcan, h⟩
    · rintro (⟨str, hstr, _⟩ | ⟨_, h⟩)
      · exact absurd ⟨str, hstr⟩ hcan
      · exact h

/-! ## The five calls -/

/-- What each of the five calls needs to be sure of the strings of its user. -/
theorem user_strings_are_checked (lk : Link) (k : Kernel) (va omode oldpath_ newpath_ path_ : Nat) :
    (ExecFine lk k va ↔ CanRead k va PATH_SIZE ∨
      ∀ pre, PrefixAt k.mm.mem (callerRoot k) va PATH_SIZE pre →
        ∀ app ∈ lk.apps, ¬ pre.bytes.take 100 <+: app.name.bytes) ∧
    (SpawnFine lk k va ↔ CanRead k va PATH_SIZE) ∧
    (RootOk k.fs → FreeFilesClosed k →
      (OpenFine lk k va omode ↔ CanRead k va PATH_SIZE ∨
        ∀ path, MayName k va PATH_SIZE path → OpenRefused k path omode) ∧
      (LinkFine k oldpath_ newpath_ ↔ (CanRead k oldpath_ DIRSIZ ∧ CanRead k newpath_ DIRSIZ) ∨
        ∀ old new, MayName k oldpath_ DIRSIZ old → MayName k newpath_ DIRSIZ new →
        LinkRefused k.fs old new) ∧
      (UnlinkFine k path_ ↔
        (∃ str, StringIs k path_ DIRSIZ str ∧
          (str.bytes.length < DIRSIZ ∨ ∀ i, inodeOf k.fs str = some i →
          ¬ RoomFor k.fs {ROOTINO, i})) ∨
        (¬ CanRead k path_ DIRSIZ ∧ RoomFor k.fs {ROOTINO} ∧
          ∀ name, MayName k path_ DIRSIZ name → inodeOf k.fs name = none))) := by
  refine ⟨execFine_iff va, spawnFine_iff va, fun hr hclosed => ⟨openFine_iff hr hclosed va, ?_,
    unlinkFine_iff hr path_⟩⟩
  exact linkFine_refused hr oldpath_ newpath_

/-- A process with one page, which begins with a name. The directory is empty. -/
def nameKernel : Kernel :=
  { forkKernel ⟨onePageMem, 0⟩ 0x1000 4096 with fs := smallFs (binit smallDisk) }

theorem nameKernel_string {max : Nat} (hmax : 1 < max) : StringIs nameKernel 0 max nameA := by
  have hends : nameA.bytes = userBytes nameKernel.mm.mem (callerRoot nameKernel) 0 1 ∧
      Mapped nameKernel.mm.mem (callerRoot nameKernel) 0 ∧
      userByte nameKernel.mm.mem (callerRoot nameKernel) 1 = 0 ∧
      Mapped nameKernel.mm.mem (callerRoot nameKernel) 1 := by
    decide +kernel
  refine ⟨hends.1, fun u hu => ?_, Or.inr ⟨hmax, hends.2.2⟩⟩
  obtain rfl : u = 0 := Nat.lt_one_iff.mp hu
  exact hends.2.1

/-- No string begins above the user's addresses. -/
theorem not_canRead_top {max : Nat} (hmax : 0 < max) : ¬ CanRead k (2 ^ 38) max := by
  rintro ⟨str, hstr⟩
  apply not_mapped_top k.mm.mem (callerRoot k)
  by_cases hempty : str.bytes.length = 0
  · rcases hstr.ends with hc | ⟨_, _, hmapped⟩
    · omega
    · rwa [hempty] at hmapped
  · exact hstr.mapped 0 (Nat.pos_of_ne_zero hempty)

theorem nameKernel_room : RoomFor nameKernel.fs {ROOTINO} := by
  unfold RoomFor
  decide +kernel

theorem nameKernel_empty (name : CStr) : inodeOf nameKernel.fs name = none := by
  refine inodeOf_eq_none fun j hj => ?_
  rw [show dirCount nameKernel.fs ROOTINO = 0 from small_dirCount] at hj
  exact absurd hj (Nat.not_lt_zero j)

/-- The calls with the name, and an unlink of a string that cannot be read. -/
theorem user_strings_are_checked_for_a_name :
    ExecFine noLink nameKernel 0 ∧ SpawnFine noLink nameKernel 0 ∧
    OpenFine noLink nameKernel 0 O_CREATE ∧ LinkFine nameKernel 0 0 ∧ UnlinkFine nameKernel 0 ∧
    UnlinkFine nameKernel (2 ^ 38) := by
  have hcan : ∀ {max}, 1 < max → CanRead nameKernel 0 max :=
    fun hmax => ⟨nameA, nameKernel_string hmax⟩
  have hclosed : FreeFilesClosed nameKernel := fun _ _ => rfl
  obtain ⟨hexec, hspawn, hrest⟩ := user_strings_are_checked noLink nameKernel 0 O_CREATE 0 0 0
  obtain ⟨hopen, hlink, hunlink⟩ := hrest small_root hclosed
  obtain ⟨_, _, hunread⟩ := (user_strings_are_checked noLink nameKernel 0 O_CREATE 0 0 (2 ^ 38)).2.2
    small_root hclosed
  refine ⟨hexec.mpr (Or.inl (hcan (by decide))), hspawn.mpr (hcan (by decide)),
    hopen.mpr (Or.inl (hcan (by decide))),
    hlink.mpr (Or.inl ⟨hcan (by decide), hcan (by decide)⟩),
    hunlink.mpr (Or.inl ⟨nameA, nameKernel_string (by decide), Or.inl (by decide)⟩),
    hunread.mpr (Or.inr ⟨not_canRead_top (by decide), nameKernel_room,
      fun name _ => nameKernel_empty name⟩)⟩

theorem spawn_of_no_string_returns :
    (sys_spawn pageLink zeros (2 ^ 38)).returns freeSlotsKernel = true := by decide +kernel

/-- A pointer above the user's addresses: slot 1 is in use after the call. -/
theorem a_spawn_of_no_string_starts_a_process :
    (∃ r k', sys_spawn pageLink zeros (2 ^ 38) freeSlotsKernel = .ok (r, k') ∧
    (freeSlotsKernel.pool 1).state = .UNUSED ∧ (k'.pool 1).state = .RUNNABLE) ∧
    ¬ SpawnFine pageLink freeSlotsKernel (2 ^ 38) := by
  obtain ⟨r, hok⟩ := Prog.returns_iff.mp spawn_of_no_string_returns
  refine ⟨⟨r, _, hok, rfl, by decide +kernel⟩, fun hfine => ?_⟩
  exact not_canRead_top (by decide) ((spawnFine_iff (2 ^ 38)).mp hfine)

end ThuKernel
