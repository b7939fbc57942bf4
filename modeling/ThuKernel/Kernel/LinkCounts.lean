-- `sys_fstat`: the number of links that it reports is the number of names that give the
-- inode.
import ThuKernel.Kernel.NameCalls
import ThuKernel.Kernel.FileStreams

namespace ThuKernel

variable {E : Stop → Prop} {s s' : Fs} {k : Kernel} {dp d i inum ip f fd nlink : Nat} {u : Bio}
  {name : CStr} {sst : Bytes} {st : Nat}

/-! ## The loop over the directory -/

theorem drop_dirRows (hi : i < dirCount s d) :
    (dirRows s d).drop i = rowOf (direntAt s d i) :: (dirRows s d).drop (i + 1) := by
  have hrow : (dirRows s d)[i]? = some (rowOf (direntAt s d i)) := by
    rw [getElem?_dirRows, if_pos hi]
  obtain ⟨hlt, hget⟩ := List.getElem?_eq_some_iff.mp hrow
  rw [List.drop_eq_getElem_cons hlt, hget]

/-- The number of the entries for an inode, in use or not. -/
def entriesFor (s : Fs) (d inum : Nat) (i : Nat) : Nat :=
  ((dirRows s d).drop i).countP fun r => decide (r.1 = inum)

theorem entriesFor_step (hi : i < dirCount s d) :
    entriesFor s d inum i = (if direntInum (direntAt s d i) = inum then 1 else 0) +
    entriesFor s d inum (i + 1) := by
  unfold entriesFor
  rw [drop_dirRows hi, List.countP_cons, Nat.add_comm]
  unfold rowOf
  simp

theorem nlinkLoop_runs (h : IsDir s dp d) (inum fuel nlink : Nat) (hu : Cached s.bio u)
    (hi : i ≤ dirCount s d) (hfuel : dirCount s d < fuel + i) :
    Runs E (nlinkLoop dp inum fuel (DIRENT_SIZE * i) nlink) { s with bio := u } fun r s' =>
      r = some (nlink + entriesFor s d inum i) ∧ ∃ u, s' = { s with bio := u } ∧
        Cached s.bio u := by
  induction fuel generalizing i nlink u with
  | zero => omega
  | succ fuel ih =>
    have hdir := h.cached hu
    unfold nlinkLoop
    rw [Runs.bind_iff, runs_getInode]
    dsimp only
    by_cases hlt : i < dirCount s d
    · rw [if_pos (h.lt_size.mpr hlt)]
      refine (hdir.readi (by rwa [dirCount_cached hu])).bind ?_
      rintro _ _ ⟨rfl, v, rfl, hv⟩
      have hv := hu.trans hv
      dsimp only
      rw [bytes_kernel, direntAt_cached hu, if_neg (by simp)]
      have hnext : DIRENT_SIZE * i + DIRENT_SIZE = DIRENT_SIZE * (i + 1) := rfl
      rw [hnext]
      refine (ih _ hv (by omega) (by omega)).imp ?_
      rintro r s' ⟨rfl, hs⟩
      refine ⟨?_, hs⟩
      rw [entriesFor_step hlt]
      split
      · exact congrArg some (by omega)
      · exact congrArg some (by omega)
    · rw [if_neg fun hc => hlt (h.lt_size.mp hc), Runs.pure_iff]
      refine ⟨?_, u, rfl, hu⟩
      unfold entriesFor
      rw [List.drop_eq_nil_of_le (by rw [length_dirRows]; omega)]
      rfl

theorem countLinks_runs (h : IsDir s dp d) (inum : Nat) : Runs E (countLinks dp inum) s fun r s' =>
    r = some (entriesFor s d inum 0) ∧ ∃ u, s' = { s with bio := u } ∧ Cached s.bio u := by
  unfold countLinks
  rw [Runs.bind_iff, runs_getInode]
  have hfuel : dirCount s d < (s.itable dp).size + 1 + 0 := by
    have hD : DIRENT_SIZE = 16 := rfl
    rw [h.size_eq, hD]
    omega
  have hloop := nlinkLoop_runs (E := E) h inum _ 0 (Cached.refl h.ok.cache) (Nat.zero_le _) hfuel
  rw [Nat.zero_add] at hloop
  exact hloop

/-! ## The names of an inode -/

/-- The names, of 14 bytes at most, for which `dirlookup` gives the inode. -/
def namesOf (s : Fs) (dp i : Nat) : Set (List Byte) :=
  {key | ∃ name : CStr, name.key = key ∧ Yields s dp name (some i)}

/-- `dirlookup` gives one number only, when the table has the inode. -/
theorem Yields.unique {x : Option Nat} (h : Yields s dp name x) (h' : Yields s dp name (some i))
    (hin : ¬ Lacks s i) : x = some i := by
  have hboth := h.and h'
  unfold Runs at hboth
  cases hrun : dirlookup dp name s with
  | error e =>
    rw [hrun] at hboth
    obtain ⟨_, _, n, ⟨⟩, hlacks⟩ := hboth
    exact absurd hlacks hin
  | ok r =>
    rw [hrun] at hboth
    exact hboth.1.symm.trans hboth.2

theorem nonzero_of_mem_find (b : Bytes) (o n : Nat) : ∀ x ∈ CStr.find b o n, x ≠ 0 := by
  induction n generalizing o with
  | zero => exact fun x hx => nomatch hx
  | succ n ih =>
    intro x hx
    unfold CStr.find at hx
    split at hx
    · cases hx
    · rename_i h0
      rcases List.mem_cons.mp hx with rfl | hx
      · exact h0
      · exact ih (o + 1) x hx

/-- Each name in an entry is the key of a string. -/
theorem exists_key {r : Nat × List Byte} (hr : r ∈ dirRows s d) :
    ∃ name : CStr, name.key = r.2 := by
  obtain ⟨j, hj⟩ := List.getElem?_of_mem hr
  rw [getElem?_dirRows] at hj
  split at hj
  · cases hj
    refine ⟨⟨nameIn (direntAt s d j), nonzero_of_mem_find _ _ _⟩, List.take_of_length_le ?_⟩
    exact CStr.length_find _ _ _
  · cases hj

theorem namesOf_eq (h : IsDir s dp d) (hd : DistinctNames s d) (hin : ¬ Lacks s i) :
    namesOf s dp i = {key | Rows.lookup 0 (dirRows s d) key = some i} := by
  ext key
  constructor
  · rintro ⟨name, rfl, hy⟩
    exact (h.yields hd name).unique hy hin
  · intro hkey
    have hsome := (Rows.lookup_eq_some hd).mp hkey
    obtain ⟨_, j, hj⟩ := hsome
    obtain ⟨name, rfl⟩ := exists_key (List.mem_of_getElem? hj)
    have hy := h.yields hd name
    rw [hkey] at hy
    exact ⟨name, rfl, hy⟩

/-- The entries for an inode are as many as its names. -/
theorem entriesFor_eq (h : IsDir s dp d) (hd : DistinctNames s d) (he : Entry s ip i) :
    entriesFor s d i 0 = (namesOf s dp i).ncard := by
  have hin : ¬ Lacks s i := fun hc => hc ip he.lt he.ref he.num
  rw [namesOf_eq h hd hin]
  exact Rows.countP_eq hd he.ino.1.ne'

/-! ## sys_fstat -/

/-- The field `nlink` of a `struct Stat`. -/
def statNlink (l : List Byte) : Nat := Bytes.get32 (fun j => (l[j]?).getD 0) 20

theorem statNlink_bytes {dev ino mode : Nat} (h : nlink < 2 ^ 32) :
    statNlink (statBytes sst dev ino mode nlink) = nlink := by
  unfold statNlink statBytes
  obtain ⟨b, hb⟩ : ∃ b, b = (((sst.put64 0 dev).put64 8 ino).put32 16 mode).put32 20 nlink :=
    ⟨_, rfl⟩
  have hget : Bytes.get32 (fun j => ((b.load 0 STAT_SIZE)[j]?).getD 0) 20 = b.get32 20 := by
    refine Bytes.getLE_congr fun j hj => ?_
    rw [Bytes.getElem?_load (by unfold STAT_SIZE; omega), Nat.zero_add]
    rfl
  rw [← hb, hget, hb]
  exact Bytes.get32_put32 h

theorem length_statBytes (sst : Bytes) (dev ino mode nlink : Nat) :
    (statBytes sst dev ino mode nlink).length = STAT_SIZE := Bytes.length_load ..

theorem entriesFor_lt (h : IsDir s dp d) (inum : Nat) : entriesFor s d inum 0 < 2 ^ 32 := by
  have hle : entriesFor s d inum 0 ≤ dirCount s d := by
    refine List.countP_le_length.trans ?_
    rw [List.length_drop, length_dirRows]
    exact Nat.sub_le _ _
  have hfits := (h.ok.fits d h.entry.ino).2
  have hM : MAXFILE * BSIZE < 2 ^ 32 := by decide
  have hcount : dirCount s d ≤ (inoOf s d).size := Nat.div_le_self _ _
  omega

/-- The descriptor is for a file that is open on inode `i`. -/
structure FdOpenOn (k : Kernel) (fd ip i : Nat) : Prop where
  lt : fd < FD_MAX
  file : ∃ f, (k.pool k.current_proc).files fd = some f ∧ (k.filepool f).ip = some ip
  entry : Entry k.fs ip i

/-- An inode of one of the two types that `fstat` knows. -/
def KnownType (x : inode) : Prop := x.type = T_DIR ∨ x.type = T_FILE

instance (x : inode) : Decidable (KnownType x) := inferInstanceAs (Decidable (_ ∨ _))

/-- What `sys_fstat` does for a file that is open on inode `i`: with 0, `nlink` at the user
address is the number of the names. It returns when there is an entry for the root
directory, and gives 0 when the buffer is mapped. -/
structure FstatRight (k : Kernel) (sst : Bytes) (fd st ip i : Nat) : Prop where
  number : ∀ k', sys_fstat sst fd st k = .ok (0, k') →
    ∃ dp s, root_dir k.fs = .ok (dp, s) ∧
      statNlink (userBytes k'.mm.mem k.root st STAT_SIZE) = (namesOf s dp i).ncard
  returns : RootFits k.fs → KnownType (k.fs.itable ip) →
    ∃ r k', sys_fstat sst fd st k = .ok (r, k') ∧
    (r = 0 ↔ ∀ u < STAT_SIZE, Mapped k.mm.mem k.root (st + u))

/-- The type of an inode that was read stays while only the table and the cache change. -/
theorem Rereads.type (h : Rereads s s') (hs : Synced s) (he : Entry s ip i) (he' : Entry s' ip i) :
    (s'.itable ip).type = (s.itable ip).type := by
  have hold := congrArg Ino.type (he.inoOf hs.ok.table)
  have hnew := congrArg Ino.type (he'.inoOf h.synced.ok.table)
  rw [h.inoOf hs] at hnew
  exact hnew.symm.trans hold

/-- A call of `sys_fstat`, whose only stops are those of `root_dir`. -/
theorem sys_fstat_runs (h : RootOk k.fs) (hd : DistinctNames k.fs ROOTINO) (ho : FdOpenOn k fd ip i)
    (hs : Separate k.mm.mem k.root)
    (hroot : Runs E root_dir k.fs fun dp s' => Rereads k.fs s' ∧ Entry s' dp ROOTINO ∧
    StaysOpen k.fs s' ∧
      ∀ j ≠ dp, (s'.itable j).ref = (k.fs.itable j).ref) :
    Runs E (sys_fstat sst fd st) k fun r k' =>
      (r = 0 → ∃ dp s, root_dir k.fs = .ok (dp, s) ∧
        statNlink (userBytes k'.mm.mem k.root st STAT_SIZE) = (namesOf s dp i).ncard) ∧
      (KnownType (k.fs.itable ip) → (r = 0 ↔
      ∀ u < STAT_SIZE, Mapped k.mm.mem k.root (st + u))) := by
  obtain ⟨hlt, ⟨f, hfile, hip⟩, he⟩ := ho
  unfold sys_fstat
  rw [if_neg (by omega), Runs.bind_iff, runs_onFs]
  refine hroot.with_run.imp ?_
  rintro dp s₁ ⟨⟨hre, he₁, hopen, _⟩, hroot⟩
  have h₁ := hre.root h
  obtain ⟨href, _, hnum, hval⟩ := hopen.entry ip he.ref
  have he' := h₁.ok.synced.entry he.lt href (hval he.valid)
  rw [hnum, he.num] at he'
  have htype := hre.type h.synced he he'
  have hat : fileAt fd { k with fs := s₁ } = .ok (f, { k with fs := s₁ }) :=
    fileAt_ok (Int.natCast_nonneg fd) (by exact_mod_cast hlt) hfile
  unfold statInode
  rw [Runs.bind_iff, Runs.bind_iff, Runs.ok_iff hat, Runs.bind_iff, runs_getFile]
  dsimp only
  rw [hip]
  have hderef : deref (some ip) { k with fs := s₁ } = .ok (ip, { k with fs := s₁ }) := rfl
  rw [Runs.ok_iff hderef, Runs.bind_iff, runs_onFs, runs_getInode, Runs.bind_iff, runs_onFs]
  dsimp only
  rw [he'.num]
  refine (countLinks_runs (h₁.ok.isDir he₁) i).imp ?_
  rintro _ _ ⟨rfl, u, rfl, _⟩
  dsimp only
  rw [Runs.bind_iff, runs_onFs, runs_getInode]
  split
  · rename_i hunknown
    refine ⟨fun h0 => absurd h0 (by decide), fun hknown => ?_⟩
    rw [htype] at hunknown
    exact absurd hunknown (by unfold KnownType at hknown; tauto)
  · rw [Runs.bind_iff, runs_curr_proc, Runs.bind_iff, runs_onMm]
    dsimp only
    have hlen := length_statBytes sst (s₁.itable ip).dev (s₁.itable ip).inum
      (if (s₁.itable ip).type = T_DIR then DIR else FILE) (entriesFor s₁ ROOTINO i 0)
    refine (copyout_separate hs (by rw [hlen]; decide)).imp ?_
    intro r mm hcopied
    have hmapped := hcopied.iff
    rw [hlen] at hmapped
    split
    · rename_i hr
      refine ⟨fun h0 => absurd h0 (by decide), fun _ => ?_⟩
      rw [← hmapped]
      constructor
      · intro hc
        exact absurd hc (by decide)
      · intro hc
        omega
    · rename_i hr
      have hr0 : r = 0 := by
        rcases hcopied.result with ⟨hz, _⟩ | ⟨hm, _⟩
        · exact hz
        · omega
      have hbytes := hcopied.userBytes hr0
      rw [hlen] at hbytes
      refine ⟨fun _ => ⟨dp, s₁, hroot, ?_⟩, fun _ => ⟨fun _ => hmapped.mp hr0, fun _ => rfl⟩⟩
      change statNlink (userBytes mm.mem k.root st STAT_SIZE) = _
      rw [hbytes, statNlink_bytes (entriesFor_lt (h₁.ok.isDir he₁) i)]
      exact entriesFor_eq (h₁.ok.isDir he₁) (h₁.names hd) he'

theorem sys_fstat_right (h : RootOk k.fs) (hd : DistinctNames k.fs ROOTINO)
    (ho : FdOpenOn k fd ip i) (hs : Separate k.mm.mem k.root) : FstatRight k sst fd st ip i := by
  refine ⟨fun k' hret => ?_, fun hfits hknown => ?_⟩
  · exact ((sys_fstat_runs h hd ho hs (root_dir_rereads h)).of_ok hret).1 rfl
  · have hruns : Runs (fun _ => False) (sys_fstat sst fd st) k _ :=
      sys_fstat_runs h hd ho hs (root_dir_fits h hfits)
    obtain ⟨r, k', hret, _, hmapped⟩ := hruns.exists_ok fun _ he => he
    exact ⟨r, k', hret, hmapped hknown⟩

/-- After any calls on the files of a sound image whose names differ, `sys_fstat` counts
the names of an open file. -/
theorem nlink_is_the_number_of_names (h : RootOk s) (hd : DistinctNames s ROOTINO)
    (hrun : NameRun s k.fs) (ho : FdOpenOn k fd ip i) (ht : UserTable k.mm.mem k.root)
    (ha : TablesApart k.mm.mem k.root) (sst : Bytes) (st : Nat) : FstatRight k sst fd st ip i := by
  have hroot := hrun.root h
  exact sys_fstat_right hroot.ok (hroot.names hd) ho (ht.separate ha)

/-- One process, with one page of memory at address 0 and the file of inode 2. The file
has a name. -/
def linkedKernel : Kernel where
  mm := ⟨oneEntry (PA2PTE 0x4000 ||| 0x1f), 0⟩
  fs := (NameOp.dirlink 0 nameAb 2).run.final (smallFs (binit smallDisk))
  filepool _ := ⟨.FD_INODE, 1, true, true, 0, some 1, 0⟩
  pipes _ := ⟨fun _ => 0, 0, 0, false, false⟩
  pool _ := ⟨.RUNNING, 1, 0x1000, 0, 0, 4096, none, 0, fun _ => some 0, .zero, 16, 6250⟩
  current_proc := 0
  PID := 2

theorem nlink_is_the_number_of_names_of_one_file :
    ∃ k', sys_fstat (fun _ => 0) 3 0 linkedKernel = .ok (0, k') ∧
    ∃ dp s, root_dir linkedKernel.fs = .ok (dp, s) ∧
      statNlink (userBytes k'.mm.mem linkedKernel.root 0 STAT_SIZE) = (namesOf s dp 2).ncard := by
  have hs := ((small_link.root small_root).ok).synced
  have he : Entry linkedKernel.fs 1 2 := by
    have hnum : (linkedKernel.fs.itable 1).inum = 2 := by decide +kernel
    have := hs.entry (i := 1) (by decide) (by decide +kernel) (by decide +kernel)
    rwa [← hnum]
  have hopen : FdOpenOn linkedKernel 3 1 2 := ⟨by decide, ⟨0, rfl, rfl⟩, he⟩
  have hright := nlink_is_the_number_of_names small_root small_distinct small_link hopen
    (userTable_oneEntry (by decide) (by decide)) (tablesApart_oneEntry (by decide) (by decide))
    (fun _ => 0) 0
  have hfits : RootFits linkedKernel.fs := Or.inr ⟨3, by decide, by decide +kernel⟩
  have htype : KnownType (linkedKernel.fs.itable 1) := by
    unfold KnownType
    decide +kernel
  obtain ⟨r, k', hret, hr⟩ := hright.returns hfits htype
  have hmapped : ∀ u < STAT_SIZE, Mapped linkedKernel.mm.mem linkedKernel.root (0 + u) := by
    decide +kernel
  obtain rfl := hr.mpr hmapped
  exact ⟨k', hret, hright.number k' hret⟩

end ThuKernel
