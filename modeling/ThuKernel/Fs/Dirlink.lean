-- `dirlink`: a new name is found afterwards, the other names are as before, and a name
-- that is present is left alone.
import ThuKernel.Fs.Directory

namespace ThuKernel

/-! ## What is said of a directory -/

/-- No two entries in use have one name. -/
def DistinctNames (s : Fs) (d : Nat) : Prop := Rows.Distinct 0 (dirRows s d)

/-- An entry in use has the name. -/
def Present (s : Fs) (d : Nat) (name : CStr) : Prop := ∃ j < dirCount s d, Match s d name j

/-- `dirlookup` gives inode number `x`, or null for none. It stops only when the table
has no room for the inode. -/
def Yields (s : Fs) (dp : Nat) (name : CStr) (x : Option Nat) : Prop :=
  Runs (fun e => NoEntryLeft e ∧ ∃ n, x = some n ∧ Lacks s n) (dirlookup dp name) s fun r s' =>
    r.map (fun e => (s'.itable e.1).inum) = x

variable {E : Stop → Prop} {s s' : Fs} {dp d i j inum : Nat} {u : Bio} {name other : CStr}
  {de : List Byte} {x : Option Nat}

/-! ## Names -/

theorem find_strncpy (t : Bytes) (n : Nat) :
    CStr.find (fun i => ((strncpy t n)[i]?).getD 0) 0 n = CStr.find t 0 n := by
  induction n generalizing t with
  | zero => rfl
  | succ n ih =>
    unfold strncpy CStr.find
    by_cases h0 : t 0 = 0
    · rw [if_pos h0, if_pos h0]
      exact if_pos rfl
    · rw [if_neg h0, if_neg h0]
      have hhead : (((t 0 :: strncpy (fun i => t (i + 1)) n)[0]?).getD 0 : Byte) = t 0 := rfl
      rw [hhead, if_neg h0, ← CStr.find_shift, ← CStr.find_shift, ← ih fun i => t (i + 1)]
      rfl

theorem length_strncpy (t : Bytes) (n : Nat) : (strncpy t n).length = n := by
  induction n generalizing t with
  | zero => rfl
  | succ n ih =>
    unfold strncpy
    split
    · exact List.length_replicate
    · rw [List.length_cons, ih]

/-- The entry that `dirlink` writes. -/
def newDirent (name : CStr) (inum : Nat) : List Byte := direntBytes inum (strncpy name.read DIRSIZ)

theorem length_newDirent (name : CStr) (inum : Nat) :
    (newDirent name inum).length = DIRENT_SIZE := by
  unfold newDirent direntBytes
  rw [List.length_append, length_strncpy]
  rfl

theorem direntInum_bytes (inum : Nat) (l : List Byte) :
    direntInum (direntBytes inum l) = inum % 2 ^ 16 := by
  change (BitVec.ofNat 8 inum).toNat + 256 * ((BitVec.ofNat 8 (inum / 256)).toNat + 256 * 0) = _
  rw [BitVec.toNat_ofNat, BitVec.toNat_ofNat]
  omega

theorem nameIn_bytes (inum : Nat) (l : List Byte) :
    nameIn (direntBytes inum l) = CStr.find (fun i => (l[i]?).getD 0) 0 DIRSIZ := by
  apply CStr.find_congr
  intro i hi
  rw [Nat.zero_add]
  unfold direntName
  rw [if_pos hi]
  rfl

theorem rowOf_newDirent (name : CStr) (inum : Nat) :
    rowOf (newDirent name inum) = (inum % 2 ^ 16, name.key) := by
  unfold rowOf newDirent
  rw [direntInum_bytes, nameIn_bytes, find_strncpy, CStr.find_read]
  rfl

/-! ## What dirlookup finds -/

theorem present_iff (hd : DistinctNames s d) :
    Present s d name ↔ Rows.lookup 0 (dirRows s d) name.key ≠ none := by
  have hrow : ∀ j < dirCount s d, (dirRows s d)[j]? = some (rowOf (direntAt s d j)) := by
    intro j hj
    rw [getElem?_dirRows, if_pos hj]
  constructor
  · rintro ⟨j, hj, h0, hname⟩ hnone
    have hj := hrow j hj
    unfold rowOf at hj
    rw [hname] at hj
    exact h0 (Rows.lookup_eq_none.mp hnone j _ hj)
  · intro hsome
    obtain ⟨v, hv⟩ := Option.ne_none_iff_exists'.mp hsome
    obtain ⟨h0, j, hj⟩ := (Rows.lookup_eq_some hd).mp hv
    rw [getElem?_dirRows] at hj
    split at hj
    · rename_i hlt
      obtain ⟨rfl, hname⟩ := Prod.mk.inj (Option.some.inj hj)
      exact ⟨j, hlt, h0, hname⟩
    · cases hj

theorem lookup_of_match (hd : DistinctNames s d) (hj : j < dirCount s d) (hm : Match s d name j) :
    Rows.lookup 0 (dirRows s d) name.key = some (direntInum (direntAt s d j)) := by
  refine (Rows.lookup_eq_some hd).mpr ⟨hm.1, j, ?_⟩
  rw [getElem?_dirRows, if_pos hj, ← hm.2]
  rfl

/-- The number that `dirlookup` gives is the one in the rows. -/
theorem LookedUp.number {r : Option (Nat × Nat)} (h : LookedUp s d name 0 r s')
    (hd : DistinctNames s d) :
    r.map (fun e => (s'.itable e.1).inum) = Rows.lookup 0 (dirRows s d) name.key := by
  obtain ⟨u, hu, h⟩ := h
  cases r with
  | none =>
    have hnone : ¬ Present s d name := by
      rintro ⟨j, hj, hm⟩
      exact h.2 j (Nat.zero_le j) hj hm
    rw [present_iff hd, not_not] at hnone
    exact hnone.symm
  | some e =>
    obtain ⟨j, _, hj, _, hm, _, hgot⟩ := h
    rw [lookup_of_match hd hj hm]
    exact congrArg some hgot.num

theorem IsDir.yields (h : IsDir s dp d) (hd : DistinctNames s d) (name : CStr) :
    Yields s dp name (Rows.lookup 0 (dirRows s d) name.key) := by
  refine (dirlookup_runs h name).mono ?_ fun _ _ hl => hl.number hd
  rintro e ⟨he, j, hj, hm, hlacks⟩
  exact ⟨he, _, lookup_of_match hd hj hm, hlacks⟩

/-! ## dirlink -/

section TableChange

variable (hbio : s'.bio = s.bio) (hino : inoOf s' d = inoOf s d)

include hbio hino in
theorem blkOf_of_table (bn : Nat) : blkOf s' d bn = blkOf s d bn :=
  refOf_congr hino (fun _ => by rw [hbio]) _

include hbio hino in
theorem bytesAt_of_table (off n : Nat) : bytesAt s' d off n = bytesAt s d off n := by
  unfold bytesAt byteAt
  apply List.map_congr_left
  intro i _
  rw [blkOf_of_table hbio hino, hbio]

include hbio hino in
theorem dirRows_of_table : dirRows s' d = dirRows s d := by
  unfold dirRows dirCount direntAt
  rw [hino]
  apply List.map_congr_left
  intro i _
  rw [bytesAt_of_table hbio hino]

include hbio hino in
/-- The table changed, and the directory did not. -/
theorem IsDir.of_table (h : IsDir s dp d) (hok : FsOk s') (hopen : StaysOpen s s') :
    IsDir s' dp d := by
  obtain ⟨h1, h2, h3, h4⟩ := hopen.entry dp h.entry.ref
  refine ⟨hok, ⟨h.entry.lt, h1, h4 h.entry.valid, h2.trans h.entry.dev, h3.trans h.entry.num, ?_⟩,
    ?_, ?_, fun p hp => ?_⟩
  · exact (isInode_congr hopen.sb fun _ => by rw [hino]).mpr h.entry.ino
  · rw [hino]
    exact h.type
  · rw [hino]
    exact h.whole
  · rw [hino] at hp
    rw [blkOf_of_table hbio hino, hbio]
    exact h.clean p hp

end TableChange

/-- The entries name inodes of the disk. -/
def EntriesInRange (s : Fs) (d : Nat) : Prop := ∀ r ∈ dirRows s d, r.1 < s.sb.ninodes

/-- The state after `dirlookup` has the same directory. -/
structure SameDir (s : Fs) (dp d : Nat) (s' : Fs) : Prop where
  isDir : IsDir s' dp d
  rows : dirRows s' d = dirRows s d
  bytes : ∀ off n, bytesAt s' d off n = bytesAt s d off n
  size : (inoOf s' d).size = (inoOf s d).size
  opened : StaysOpen s s'
  synced : Synced s → EntriesInRange s d → Synced s'

theorem SameDir.inRange (h : SameDir s dp d s') (hr : EntriesInRange s d) :
    EntriesInRange s' d := by
  unfold EntriesInRange
  rw [h.rows, h.opened.sb]
  exact hr

theorem SameDir.cached (h : IsDir s dp d) (hu : Cached s.bio u) :
    SameDir s dp d { s with bio := u } := by
  refine ⟨h.cached hu, ?_, hu.bytesAt d, by rw [hu.inoOf], ⟨rfl,
    fun i hi => ⟨hi, rfl, rfl, id⟩⟩, fun hs _ => hs.cached hu⟩
  unfold dirRows
  rw [dirCount_cached hu]
  apply List.map_congr_left
  intro i _
  rw [direntAt_cached hu]

theorem SameDir.trans {s₁ : Fs} (h : SameDir s dp d s₁) (h' : SameDir s₁ dp d s') :
    SameDir s dp d s' :=
  ⟨h'.isDir, h'.rows.trans h.rows, fun off n => (h'.bytes off n).trans (h.bytes off n),
    h'.size.trans h.size,
    h.opened.trans h'.opened, fun hs hr => h'.synced (h.synced hs hr) (h.inRange hr)⟩

theorem mem_dirRows (hj : j < dirCount s d) : rowOf (direntAt s d j) ∈ dirRows s d := by
  apply List.mem_of_getElem?
  rw [getElem?_dirRows, if_pos hj]

/-- `iget` is called with the number of an entry. -/
theorem SameDir.got {ip : Nat} (h : IsDir s dp d) (hj : j < dirCount s d) (hm : Match s d name j)
    (hg : Got s (direntInum (direntAt s d j)) ip s') : SameDir s dp d s' :=
  ⟨h.of_table hg.bio (hg.inoOf d) (hg.fsOk h.ok) hg.holds, dirRows_of_table hg.bio (hg.inoOf d),
    bytesAt_of_table hg.bio (hg.inoOf d),
    by rw [hg.inoOf], hg.holds, fun hs hr => hg.synced hs (Nat.pos_of_ne_zero hm.1) (hr _
      (mem_dirRows hj))⟩

theorem SameDir.idle (h : IsDir s dp d) (hi : IdleChange s s') : SameDir s dp d s' :=
  ⟨h.of_table hi.bio (hi.inoOf d) (hi.fsOk h.ok) hi.staysOpen, dirRows_of_table hi.bio (hi.inoOf d),
    bytesAt_of_table hi.bio (hi.inoOf d), by rw [hi.inoOf], hi.staysOpen, fun hs _ => hi.synced hs⟩

/-- What `dirlookup` leaves. -/
theorem LookedUp.sameDir {r : Option (Nat × Nat)} (hl : LookedUp s d name 0 r s')
    (h : IsDir s dp d) : SameDir s dp d s' := by
  obtain ⟨u, hu, hl⟩ := hl
  have hsame := SameDir.cached h hu
  cases r with
  | none =>
    obtain ⟨rfl, _⟩ := hl
    exact hsame
  | some e =>
    obtain ⟨j, _, hj, _, hm, _, hgot⟩ := hl
    have hat : direntAt { s with bio := u } d j = direntAt s d j := direntAt_cached hu d j
    have hm' : Match { s with bio := u } d name j := by
      unfold Match
      rwa [hat]
    rw [← hat] at hgot
    exact hsame.trans (SameDir.got hsame.isDir (by rwa [dirCount_cached hu]) hm' hgot)

theorem LookedUp.absent (hl : LookedUp s d name 0 none s') : ¬ Present s d name := by
  obtain ⟨u, _, _, hnone⟩ := hl
  rintro ⟨j, hj, hm⟩
  exact hnone j (Nat.zero_le j) hj hm

theorem LookedUp.present {e : Nat × Nat} (hl : LookedUp s d name 0 (some e) s') :
    Present s d name := by
  obtain ⟨_, _, j, _, hj, _, hm, _⟩ := hl
  exact ⟨j, hj, hm⟩

/-- The first entry in no use, or the end of the directory. -/
structure FreeAt (s : Fs) (d j : Nat) : Prop where
  le : j ≤ dirCount s d
  free : j < dirCount s d → direntInum (direntAt s d j) = 0
  before : ∀ k < j, direntInum (direntAt s d k) ≠ 0

/-- The panics of `dirlink`. -/
def NoLink (e : Stop) : Prop := OutOfBlocks e ∨ NoEntryLeft e ∨ e = .panic "dirlink"

/-- What `dirlink` does. -/
inductive LinkEnds (s : Fs) (dp d : Nat) (name : CStr) (inum : Nat) : Int → Fs → Prop
  | present {s' : Fs} : Present s d name → SameDir s dp d s' → LinkEnds s dp d name inum (-1) s'
  | new {s₁ s' : Fs} {j : Nat} : ¬ Present s d name → SameDir s dp d s₁ → FreeAt s₁ d j →
      DirentPut s₁ dp d j (newDirent name inum) s' → LinkEnds s dp d name inum 0 s'

theorem dirinsert_runs (h : IsDir s dp d) (name : CStr) (inum : Nat) :
    Runs NoLink (dirinsert dp name inum) s fun r s' =>
    r = 0 ∧ ∃ j s₁, SameDir s dp d s₁ ∧ FreeAt s₁ d j ∧
      DirentPut s₁ dp d j (newDirent name inum) s' := by
  unfold dirinsert
  rw [Runs.bind_iff, runs_getInode]
  refine (dirScan_all h _).bind ?_
  rintro ⟨off, de⟩ _ ⟨j, ⟨u, rfl, hu⟩, _, hj, rfl, hbefore, hfound⟩
  dsimp only at hfound ⊢
  have hsame := SameDir.cached h hu
  have hcount := dirCount_cached hu d
  have hfree : FreeAt { s with bio := u } d j := by
    refine ⟨by rwa [hcount], fun hlt => ?_, fun k hk => ?_⟩
    · rw [hcount] at hlt
      rw [direntAt_cached hu]
      exact beq_iff_eq.mp (hfound hlt).1
    · rw [direntAt_cached hu]
      exact beq_eq_false_iff_ne.mp (hbefore k (Nat.zero_le k) hk)
  have hwrite : Runs NoLink (writei dp (.kernel (newDirent name inum)) (DIRENT_SIZE * j)
      DIRENT_SIZE) { s with bio := u } fun r s' =>
      r = -1 ∧ s' = { s with bio := u } ∧ DirFull { s with bio := u } d j ∨
        r = DIRENT_SIZE ∧ DirentPut { s with bio := u } dp d j (newDirent name inum) s' :=
    (writeDirent_runs hsame.isDir (by rwa [hcount]) (length_newDirent name inum)).mono
      (fun _ he => Or.inl he.1) fun _ _ hw => hw
  refine Runs.bind hwrite ?_
  rintro r s' (⟨rfl, rfl, _⟩ | ⟨rfl, hput⟩)
  · rw [if_pos (by decide)]
    exact Or.inr (Or.inr rfl)
  · rw [if_neg (by simp), Runs.pure_iff]
    exact ⟨rfl, j, _, hsame, hfree, hput⟩

theorem dirlink_runs (h : IsDir s dp d) (name : CStr) (inum : Nat) :
    Runs NoLink (dirlink dp name inum) s fun r s' => LinkEnds s dp d name inum r s' := by
  unfold dirlink
  have hlookup : Runs NoLink (dirlookup dp name) s fun r s' => LookedUp s d name 0 r s' :=
    (dirlookup_runs h name).mono (fun _ he => Or.inr (Or.inl he.1)) fun _ _ hl => hl
  refine Runs.bind hlookup ?_
  intro r s₁ hl
  cases r with
  | some e =>
    have hpres := hl.present
    obtain ⟨u, hu, _, _, _, _, _, _, hgot⟩ := hl
    have hsame := SameDir.cached h hu
    dsimp only
    rw [Runs.bind_iff]
    unfold iput
    rw [Runs.bind_iff, runs_getInode, runs_setInode, Runs.pure_iff]
    exact .present hpres (hsame.trans (SameDir.idle hsame.isDir hgot.putBack))
  | none =>
    have hsame := hl.sameDir h
    dsimp only
    refine (dirinsert_runs hsame.isDir name inum).imp ?_
    rintro r s' ⟨rfl, j, s₁, hs, hfree, hput⟩
    exact .new hl.absent (hsame.trans hs) hfree hput

/-! ## The law of dirlink -/

/-- The row that `dirlink` puts is found, and the other names are as before. -/
theorem LinkEnds.rows {r : Int} (h : LinkEnds s dp d name inum r s') (hr : r ≠ -1) :
    ¬ Present s d name ∧
    ∃ j, FreeAt s d j ∧ dirRows s' d = Rows.put (dirRows s d) j (inum % 2 ^ 16, name.key) ∧
      (inoOf s' d).size = max (inoOf s d).size (DIRENT_SIZE * (j + 1)) := by
  cases h with
  | present => exact absurd rfl hr
  | @new s₁ s' j hnone hsame hfree hput =>
    have hcount : dirCount s₁ d = dirCount s d := by
      unfold dirCount
      rw [hsame.size]
    have hat : ∀ k, direntAt s₁ d k = direntAt s d k := fun k => hsame.bytes _ _
    refine ⟨hnone, j, ⟨hcount ▸ hfree.le, fun hlt => ?_, fun k hk => ?_⟩, ?_, ?_⟩
    · rw [← hat]
      exact hfree.free (hcount ▸ hlt)
    · rw [← hat]
      exact hfree.before k hk
    · rw [hput.rows hfree.le, hsame.rows, rowOf_newDirent]
    · rw [hput.size, hsame.size]

theorem LinkEnds.isDir {r : Int} (h : LinkEnds s dp d name inum r s') : IsDir s' dp d := by
  cases h with
  | present _ hsame => exact hsame.isDir
  | new _ _ _ hput => exact hput.isDir

theorem FreeAt.row (h : FreeAt s d j) : ∀ r, (dirRows s d)[j]? = some r → r.1 = 0 := by
  intro r hr
  rw [getElem?_dirRows] at hr
  split at hr
  · rename_i hlt
    cases hr
    exact h.free hlt
  · cases hr

theorem SameDir.distinct (h : SameDir s dp d s') (hd : DistinctNames s d) : DistinctNames s' d := by
  unfold DistinctNames
  rw [h.rows]
  exact hd

theorem LinkEnds.distinct {r : Int} (h : LinkEnds s dp d name inum r s') (hd : DistinctNames s d) :
    DistinctNames s' d := by
  by_cases hr : r = -1
  · subst hr
    cases h with
    | present _ hsame => exact hsame.distinct hd
  · obtain ⟨hnone, j, hfree, hrows, _⟩ := h.rows hr
    rw [present_iff hd, not_not] at hnone
    unfold DistinctNames
    rw [hrows]
    exact hd.insert (by rw [length_dirRows]; exact hfree.le) hnone

/-- No name of the directory changes but the new one. -/
structure LinkedIn (s : Fs) (dp d : Nat) (name : CStr) (inum : Nat) (s' : Fs) : Prop where
  found : Yields s' dp name (some inum)
  others : ∀ other : CStr, other.key ≠ name.key → ∃ x, Yields s dp other x ∧ Yields s' dp other x
  size : (inoOf s' d).size = (inoOf s d).size + if ∃ j < dirCount s d, direntInum (direntAt s d j) =
    0 then 0 else DIRENT_SIZE

/-- A name that is present is left alone, and a new name is found afterwards. -/
theorem a_name_is_linked_once (h : IsDir s dp d) (hd : DistinctNames s d) (h0 : 0 < inum)
    (hinum : inum < 2 ^ 16) {r : Int} (hrun : dirlink dp name inum s = .ok (r, s')) :
    IsDir s' dp d ∧ DistinctNames s' d ∧ (r = -1 ↔ Present s d name) ∧
      (r = -1 → (inoOf s' d).size = (inoOf s d).size ∧ ∀ off n, bytesAt s' d off n =
      bytesAt s d off n) ∧
      (r ≠ -1 → r = 0 ∧ LinkedIn s dp d name inum s') := by
  have hend := (dirlink_runs h name inum).of_ok hrun
  have hdir := hend.isDir
  have hd' := hend.distinct hd
  have hD : DIRENT_SIZE = 16 := rfl
  by_cases hr : r = -1
  · subst hr
    cases hend with
    | present hpres hsame =>
      exact ⟨hdir, hd', iff_of_true rfl hpres, fun _ => ⟨hsame.size, hsame.bytes⟩,
        fun hc => absurd rfl hc⟩
  · obtain ⟨hnone, j, hfree, hrows, hsize⟩ := hend.rows hr
    have hle : j ≤ (dirRows s d).length := by
      rw [length_dirRows]
      exact hfree.le
    have hnew : Rows.lookup 0 (dirRows s d) name.key = none := by
      rwa [present_iff hd, not_not] at hnone
    rw [Nat.mod_eq_of_lt hinum] at hrows
    refine ⟨hdir, hd', iff_of_false hr hnone, fun hc => absurd hc hr,
      fun _ => ⟨?_, ?_, fun other hne => ?_, ?_⟩⟩
    · cases hend with
      | present => exact absurd rfl hr
      | new => rfl
    · have := hdir.yields hd' name
      rwa [hrows, Rows.lookup_insert hle hnew hd (by omega)] at this
    · have := hdir.yields hd' other
      rw [hrows, Rows.lookup_insert_ne hle hfree.row hnew hd hne] at this
      exact ⟨_, h.yields hd other, this⟩
    · have hwhole : (inoOf s d).size = DIRENT_SIZE * dirCount s d := by
        rw [← h.size_eq, entry_size h.entry h.ok.table]
      have hjle := hfree.le
      rw [hsize]
      split
      · rename_i hex
        obtain ⟨k, hk, hk0⟩ := hex
        have hjk : j ≤ k := by
          by_contra hc
          exact hfree.before k (by omega) hk0
        rw [hwhole, hD]
        omega
      · rename_i hno
        have hj : j = dirCount s d := by
          by_contra hc
          exact hno ⟨j, by omega, hfree.free (by omega)⟩
        rw [hwhole, hD]
        omega

theorem small_isDir : IsDir (smallFs (binit smallDisk)) 0 1 := by
  have hino : inoOf (smallFs (binit smallDisk)) 1 = ⟨T_DIR, 0, fun _ => 0⟩ := small_inoOf.1
  refine ⟨small_binit, small_entry (binit_spec smallDisk).2.1 (by decide), ?_, ?_, fun p hp => ?_⟩
  · rw [hino]
  · rw [hino]
    rfl
  · rw [hino] at hp
    exact absurd hp (Nat.not_lt_zero p)

theorem small_dirCount : dirCount (smallFs (binit smallDisk)) 1 = 0 := by
  unfold dirCount
  rw [small_inoOf.1]
  rfl

theorem small_distinct : DistinctNames (smallFs (binit smallDisk)) 1 := by
  intro i j v w k hi
  rw [getElem?_dirRows, small_dirCount, if_neg (Nat.not_lt_zero i)] at hi
  cases hi

def nameAb : CStr := ⟨[97, 98], by decide⟩

theorem a_name_is_linked_once_ab :
    LinkedIn (smallFs (binit smallDisk)) 0 1 nameAb 2
    ((dirlink 0 nameAb 2).final (smallFs (binit smallDisk))) := by
  have hreturns : (dirlink 0 nameAb 2).returns (smallFs (binit smallDisk)) = true := by
    decide +kernel
  obtain ⟨r, hrun⟩ := Prog.returns_iff.mp hreturns
  obtain ⟨_, _, hiff, _, hnew⟩ :=
    a_name_is_linked_once small_isDir small_distinct (by decide) (by decide) hrun
  refine (hnew fun hr => ?_).2
  obtain ⟨j, hj, _⟩ := hiff.mp hr
  rw [small_dirCount] at hj
  exact Nat.not_lt_zero j hj

end ThuKernel
