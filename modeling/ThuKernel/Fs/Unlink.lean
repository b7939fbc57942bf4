-- `dirunlink`: the entry that it clears, and when it is the one that `dirlookup` finds.
import ThuKernel.Fs.Dirlink

namespace ThuKernel

/-- The bytes of the entry begin with the whole name. -/
def Begins (behind : Bytes) (name : CStr) (de : List Byte) : Prop :=
  strncmp (direntName de behind) name.read name.strlen = 0

instance (behind : Bytes) (name : CStr) (de : List Byte) : Decidable (Begins behind name de) :=
  inferInstanceAs (Decidable (_ = _))

/-- Slot `j` is the first one, in use or not, that begins with the name. -/
structure FirstBegins (s : Fs) (d : Nat) (behind : Bytes) (name : CStr) (j : Nat) : Prop where
  begins : Begins behind name (direntAt s d j)
  before : ∀ k < j, ¬ Begins behind name (direntAt s d k)

/-- What `dirunlink` does. -/
inductive UnlinkEnds (s : Fs) (dp d : Nat) (name : CStr) (behind : Bytes) : Int → Fs → Prop
  | absent {s' : Fs} : ¬ Present s d name → SameDir s dp d s' →
      UnlinkEnds s dp d name behind (-1) s'
  | missed {s' : Fs} : Present s d name →
      (∀ k < dirCount s d, ¬ Begins behind name (direntAt s d k)) → SameDir s dp d s' →
      UnlinkEnds s dp d name behind (-1) s'
  | cleared {s₁ s' : Fs} {j : Nat} : Present s d name → j < dirCount s d →
      FirstBegins s d behind name j → SameDir s dp d s₁ →
      DirentPut s₁ dp d j (direntBytes 0 ((direntAt s d j).drop 2)) s' →
      UnlinkEnds s dp d name behind 0 s'

variable {s s₀ s₁ s' : Fs} {dp d j : Nat} {name : CStr} {behind : Bytes} {de : List Byte}

namespace SameDir

theorem count (h : SameDir s dp d s') : dirCount s' d = dirCount s d := by
  unfold dirCount
  rw [h.size]

theorem entryAt (h : SameDir s dp d s') (k : Nat) : direntAt s' d k = direntAt s d k := h.bytes _ _

end SameDir

theorem length_direntAt (s : Fs) (d k : Nat) : (direntAt s d k).length = DIRENT_SIZE := by
    simp [direntAt, bytesAt]

/-- The name stays in an entry that goes out of use. -/
theorem rowOf_cleared (de : List Byte) : rowOf (direntBytes 0 (de.drop 2)) = (0, nameIn de) := by
  unfold rowOf
  rw [direntInum_bytes, nameIn_bytes]
  refine congrArg (Prod.mk 0) (CStr.find_congr fun i hi => ?_)
  rw [Nat.zero_add, List.getElem?_drop, Nat.add_comm]
  unfold direntName
  rw [if_pos hi]

theorem dirremove_runs (h : IsDir s₁ dp d) (name : CStr) (behind : Bytes) :
    Runs (fun _ => False) (dirremove dp name behind) s₁ fun r s' =>
      (r = -1 ∧ (∀ k < dirCount s₁ d, ¬ Begins behind name (direntAt s₁ d k)) ∧
        SameDir s₁ dp d s') ∨
        r = 0 ∧ ∃ j < dirCount s₁ d, FirstBegins s₁ d behind name j ∧
          ∃ s₂, SameDir s₁ dp d s₂ ∧ DirentPut s₂ dp d j (direntBytes 0 ((direntAt s₁ d j).drop 2))
          s' := by
  have hD : DIRENT_SIZE = 16 := rfl
  unfold dirremove
  rw [Runs.bind_iff, runs_getInode]
  refine (dirScan_all h _).bind ?_
  rintro ⟨off, de⟩ _ ⟨j, ⟨u, rfl, hu⟩, _, hj, rfl, hbefore, hfound⟩
  have hbefore : ∀ k < j, ¬ Begins behind name (direntAt s₁ d k) :=
    fun k hk => beq_eq_false_iff_ne.mp (hbefore k (Nat.zero_le k) hk)
  have hsame := SameDir.cached h hu
  dsimp only at hfound ⊢
  rw [Runs.bind_iff, runs_getInode]
  dsimp only
  have hsize := h.size_eq
  by_cases hend : j = dirCount s₁ d
  · rw [if_pos (by rw [hsize, hend]), Runs.pure_iff]
    exact Or.inl ⟨rfl, fun k hk => hbefore k (hend ▸ hk), hsame⟩
  · have hlt : j < dirCount s₁ d := by omega
    obtain ⟨hstop, rfl⟩ := hfound hlt
    rw [if_neg (by rw [hsize, hD]; omega)]
    have hlen : (direntBytes 0 ((direntAt s₁ d j).drop 2)).length = DIRENT_SIZE := by
      unfold direntBytes
      rw [List.length_append, List.length_drop, length_direntAt]
      rfl
    have hwrite : Runs (fun _ => False)
        (writei dp (.kernel (direntBytes 0 ((direntAt s₁ d j).drop 2))) (DIRENT_SIZE * j)
        DIRENT_SIZE)
        { s₁ with bio := u } fun r s' => r = -1 ∧ s' = { s₁ with bio := u } ∧ DirFull
        { s₁ with bio := u } d j ∨
          r = DIRENT_SIZE ∧ DirentPut { s₁ with bio := u } dp d j
          (direntBytes 0 ((direntAt s₁ d j).drop 2)) s' :=
      (writeDirent_runs hsame.isDir (by rw [hsame.count]; omega) hlen).mono
        (fun _ he => hend (hsame.count ▸ he.2)) fun _ _ hw => hw
    refine Runs.bind hwrite ?_
    rintro r s' (⟨_, _, hfull, _⟩ | ⟨_, hput⟩)
    · rw [hsame.count] at hfull
      exact absurd hfull hend
    · rw [Runs.pure_iff]
      exact Or.inr ⟨rfl, j, hlt, ⟨beq_iff_eq.mp hstop, hbefore⟩, _, hsame, hput⟩

/-- The only panic is the one of `dirlookup`. -/
theorem dirunlink_runs (h : IsDir s dp d) (name : CStr) (behind : Bytes) :
    Runs (NoEntryFor s d name) (dirunlink dp name behind) s fun r s' =>
    UnlinkEnds s dp d name behind r s' := by
  unfold dirunlink
  refine (dirlookup_runs h name).bind ?_
  intro r s₁ hl
  have hsame := hl.sameDir h
  cases r with
  | none => exact .absent hl.absent hsame
  | some e =>
    have hpres := hl.present
    dsimp only
    refine (dirremove_runs hsame.isDir name behind).mono (fun _ he => he.elim) ?_
    rintro r s' (⟨rfl, hnone, hs⟩ | ⟨rfl, j, hj, hfirst, s₂, hs, hput⟩)
    · refine .missed hpres (fun k hk => ?_) (hsame.trans hs)
      rw [← hsame.entryAt]
      exact hnone k (by rwa [hsame.count])
    · rw [hsame.count] at hj
      rw [hsame.entryAt] at hput
      refine .cleared hpres hj ⟨?_, fun k hk => ?_⟩ (hsame.trans hs) hput
      · rw [← hsame.entryAt]
        exact hfirst.begins
      · rw [← hsame.entryAt]
        exact hfirst.before k hk

/-! ## Runs -/

/-- A call of `dirlink` or `dirunlink` that returns. -/
inductive DirStep (dp : Nat) (s s' : Fs) : Prop
  | link (name : CStr) (inum : Nat) {r : Int} : 0 < inum → inum < 2 ^ 16 →
      dirlink dp name inum s = .ok (r, s') → DirStep dp s s'
  | unlink (name : CStr) (behind : Bytes) {r : Int} : dirunlink dp name behind s = .ok (r, s') →
      DirStep dp s s'

/-- The states that these calls reach. -/
abbrev DirRun (dp : Nat) : Fs → Fs → Prop := Relation.ReflTransGen (DirStep dp)

/-- The row of an entry that is cleared. -/
theorem cleared_rows (hsame : SameDir s dp d s₁) (hj : j < dirCount s d)
    (hput : DirentPut s₁ dp d j (direntBytes 0 ((direntAt s d j).drop 2)) s') :
    (dirRows s d)[j]? = some (rowOf (direntAt s d j)) ∧ dirRows s' d = Rows.put (dirRows s d) j
    (0, nameIn (direntAt s d j)) := by
  constructor
  · rw [getElem?_dirRows, if_pos hj]
  · rw [hput.rows (by rw [hsame.count]; exact hj.le), hsame.rows, rowOf_cleared]

theorem UnlinkEnds.isDir {r : Int} (h : UnlinkEnds s dp d name behind r s') : IsDir s' dp d := by
  cases h with
  | absent _ hsame => exact hsame.isDir
  | missed _ _ hsame => exact hsame.isDir
  | cleared _ _ _ _ hput => exact hput.isDir

theorem UnlinkEnds.distinct {r : Int} (h : UnlinkEnds s dp d name behind r s')
    (hd : DistinctNames s d) : DistinctNames s' d := by
  cases h with
  | absent _ hsame => exact hsame.distinct hd
  | missed _ _ hsame => exact hsame.distinct hd
  | cleared _ hj _ hsame hput =>
    obtain ⟨hrow, hrows⟩ := cleared_rows hsame hj hput
    unfold DistinctNames
    rw [hrows]
    exact hd.clear hrow

theorem DirStep.keeps (hs : DirStep dp s s') (h : IsDir s dp d) (hd : DistinctNames s d) :
    IsDir s' dp d ∧ DistinctNames s' d := by
  cases hs with
  | link name inum _ _ hrun =>
    have hend := (dirlink_runs h name inum).of_ok hrun
    exact ⟨hend.isDir, hend.distinct hd⟩
  | unlink name behind hrun =>
    have hend := (dirunlink_runs h name behind).of_ok hrun
    exact ⟨hend.isDir, hend.distinct hd⟩

theorem DirRun.keeps (hr : DirRun dp s s') (h : IsDir s dp d) (hd : DistinctNames s d) :
    IsDir s' dp d ∧ DistinctNames s' d := by
  induction hr with
  | refl => exact ⟨h, hd⟩
  | tail _ hs ih => exact hs.keeps ih.1 ih.2

/-! ## Which entry is cleared -/

/-- The entry that `dirlookup` finds is cleared, and no other one: the name is gone, and
the other names are as before. -/
def Unlinked (s : Fs) (dp d : Nat) (name : CStr) (s' : Fs) : Prop :=
  ∃ i < dirCount s d, Match s d name i ∧ direntInum (direntAt s' d i) = 0 ∧
    (∀ k < dirCount s d, k ≠ i → direntAt s' d k = direntAt s d k) ∧ Yields s' dp name none ∧
    ∀ other : CStr, other.key ≠ name.key → ∃ x, Yields s dp other x ∧ Yields s' dp other x

/-- The first slot, in use or not, that begins with the name is the one of the entry for it. -/
def FirstIsEntry (s : Fs) (d : Nat) (behind : Bytes) (name : CStr) : Prop :=
  ∃ i < dirCount s d, Match s d name i ∧ FirstBegins s d behind name i

theorem FirstBegins.unique {i : Nat} (h : FirstBegins s d behind name i)
    (h' : FirstBegins s d behind name j) : i = j := by
  by_contra hne
  rcases Nat.lt_or_gt_of_ne hne with hlt | hlt
  · exact h'.before i hlt h.begins
  · exact h.before j hlt h'.begins

theorem the_entry_found_is_cleared (h : IsDir s₀ dp d) (hd : DistinctNames s₀ d)
    (hrun : DirRun dp s₀ s) (hpres : Present s d name) {r : Int}
    (hret : dirunlink dp name behind s = .ok (r, s')) :
    Unlinked s dp d name s' ↔ FirstIsEntry s d behind name := by
  obtain ⟨h, hd⟩ := hrun.keeps h hd
  have hend := (dirunlink_runs h name behind).of_ok hret
  have hdir := hend.isDir
  have hd' := hend.distinct hd
  cases hend with
  | absent hnone => exact absurd hpres hnone
  | missed _ hmiss hsame =>
    refine iff_of_false ?_ ?_
    · rintro ⟨i, _, hm, hclear, _⟩
      rw [hsame.entryAt] at hclear
      exact hm.1 hclear
    · rintro ⟨i, hi, _, hfirst⟩
      exact hmiss i hi hfirst.begins
  | @cleared s₁ _ j _ hj hfirst hsame hput =>
    constructor
    · rintro ⟨i, hi, hm, hclear, _⟩
      have hij : i = j := by
        by_contra hne
        rw [hput.old i (by rwa [hsame.count]) hne, hsame.entryAt] at hclear
        exact hm.1 hclear
      rw [hij] at hi hm
      exact ⟨j, hi, hm, hfirst⟩
    · rintro ⟨i, hi, hm, hfirst'⟩
      obtain rfl := hfirst'.unique hfirst
      obtain ⟨hrow, hrows⟩ := cleared_rows hsame hi hput
      rw [hm.2] at hrows
      have hrow' : (dirRows s d)[i]? = some (direntInum (direntAt s d i), name.key) := by
        rw [hrow, ← hm.2]
        rfl
      refine ⟨i, hi, hm, ?_, fun k hk hki => ?_, ?_, fun other hne => ?_⟩
      · rw [hput.new, direntInum_bytes]
        rfl
      · rw [hput.old k (by rwa [hsame.count]) hki, hsame.entryAt]
      · have := hdir.yields hd' name
        rwa [hrows, Rows.lookup_clear hrow' hd hm.1] at this
      · have := hdir.yields hd' other
        rw [hrows, Rows.lookup_clear_ne hrow' hd (Or.inl hne)] at this
        exact ⟨_, h.yields hd other, this⟩

instance (s : Fs) (d : Nat) (name : CStr) (i : Nat) : Decidable (Match s d name i) :=
  inferInstanceAs (Decidable (_ ∧ _))

theorem nameA_nonzero : ∀ b ∈ ([97] : List Byte), b ≠ 0 := by decide

def nameA : CStr where
  bytes := [97]
  nonzero := nameA_nonzero

/-- Two names are linked, and one is the beginning of the other. -/
def prefixFs : Fs :=
  (dirlink 0 nameA 3).final ((dirlink 0 nameAb 2).final (smallFs (binit smallDisk)))

theorem prefixFs_run : DirRun 0 (smallFs (binit smallDisk)) prefixFs := by
  have hab : (dirlink 0 nameAb 2).returns (smallFs (binit smallDisk)) = true := by decide +kernel
  have ha : (dirlink 0 nameA 3).returns ((dirlink 0 nameAb 2).final (smallFs (binit smallDisk))) =
      true := by decide +kernel
  obtain ⟨_, hab⟩ := Prog.returns_iff.mp hab
  obtain ⟨_, ha⟩ := Prog.returns_iff.mp ha
  exact (Relation.ReflTransGen.single (.link nameAb 2 (by decide) (by decide) hab)).tail
    (.link nameA 3 (by decide) (by decide) ha)

theorem prefixFs_entries : dirCount prefixFs 1 = 2 ∧ Match prefixFs 1 nameAb 0 ∧
    Match prefixFs 1 nameA 1 ∧
    ¬ Match prefixFs 1 nameA 0 ∧ Begins (fun _ => 0) nameAb (direntAt prefixFs 1 0) ∧
    Begins (fun _ => 0) nameA (direntAt prefixFs 1 0) := by
  decide +kernel

/-- Both inodes are in the table. -/
theorem prefixFs_returns (name : CStr) :
    ∃ r s', dirunlink 0 name (fun _ => 0) prefixFs = .ok (r, s') := by
  obtain ⟨h, _⟩ := prefixFs_run.keeps small_isDir small_distinct
  have hhas : ∀ j < dirCount prefixFs 1, ∃ i < NINODE, 0 < (prefixFs.itable i).ref ∧
      (prefixFs.itable i).inum = direntInum (direntAt prefixFs 1 j) := by
    decide +kernel
  obtain ⟨r, s', hret, _⟩ := (dirunlink_runs h name fun _ => 0).exists_ok fun e => by
    rintro ⟨_, j, hj, _, hlacks⟩
    obtain ⟨i, hi, href, hinum⟩ := hhas j hj
    exact hlacks i hi href hinum
  exact ⟨r, s', hret⟩

theorem the_entry_found_is_cleared_ab :
    ∃ r s', dirunlink 0 nameAb (fun _ => 0) prefixFs = .ok (r, s') ∧
    Unlinked prefixFs 0 1 nameAb s' := by
  obtain ⟨h2, hab, _, _, hbegins, _⟩ := prefixFs_entries
  obtain ⟨r, s', hret⟩ := prefixFs_returns nameAb
  have h0 : 0 < dirCount prefixFs 1 := by omega
  refine ⟨r, s', hret, (the_entry_found_is_cleared small_isDir small_distinct prefixFs_run ⟨0, h0,
    hab⟩ hret).mpr ?_⟩
  exact ⟨0, h0, hab, hbegins, fun k hk => absurd hk (Nat.not_lt_zero k)⟩

/-- The shorter name was linked last, and the entry of the longer one is cleared for it. -/
theorem an_unlink_clears_another_entry :
    IsDir (smallFs (binit smallDisk)) 0 1 ∧ DistinctNames (smallFs (binit smallDisk)) 1 ∧
    DirRun 0 (smallFs (binit smallDisk)) prefixFs ∧ Present prefixFs 1 nameA ∧
    ∃ r s', dirunlink 0 nameA (fun _ => 0) prefixFs = .ok (r, s') ∧ direntInum (direntAt s' 1 0) =
    0 ∧ ¬ Unlinked prefixFs 0 1 nameA s' := by
  obtain ⟨h2, _, ha, hab, _, hbegins⟩ := prefixFs_entries
  obtain ⟨h, _⟩ := prefixFs_run.keeps small_isDir small_distinct
  obtain ⟨r, s', hret⟩ := prefixFs_returns nameA
  have hpres : Present prefixFs 1 nameA := ⟨1, by omega, ha⟩
  have hfirst : FirstBegins prefixFs 1 (fun _ => 0) nameA 0 :=
    ⟨hbegins, fun k hk => absurd hk (Nat.not_lt_zero k)⟩
  refine ⟨small_isDir, small_distinct, prefixFs_run, hpres, r, s', hret, ?_⟩
  cases (dirunlink_runs h nameA fun _ => 0).of_ok hret with
  | absent hnone => exact absurd hpres hnone
  | missed _ hmiss => exact absurd hbegins (hmiss 0 (by omega))
  | cleared _ _ hfirst' hsame hput =>
    obtain rfl := hfirst'.unique hfirst
    refine ⟨by rw [hput.new, direntInum_bytes]; rfl, ?_⟩
    rintro ⟨i, hi, hm, hclear, _⟩
    have hi0 : i ≠ 0 := by
      rintro rfl
      exact hab hm
    rw [hput.old i (by rwa [hsame.count]) hi0, hsame.entryAt] at hclear
    exact hm.1 hclear

end ThuKernel
