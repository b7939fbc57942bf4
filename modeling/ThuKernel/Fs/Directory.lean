-- The directory as a table of names: what `dirlookup` finds, and the slot at which the
-- scans of `dirlink` and `dirunlink` stop.
import ThuKernel.Fs.Table
import ThuKernel.Fs.WriteRead
import ThuKernel.Fs.Dir
import ThuKernel.Lib.Rows
import ThuKernel.Lib.StrLaws

namespace ThuKernel

/-! ## Entries -/

/-- The `i`th entry of a directory. -/
def direntAt (s : Fs) (d i : Nat) : List Byte := bytesAt s d (DIRENT_SIZE * i) DIRENT_SIZE

/-- The name in an entry: the bytes before the first NUL, 14 at most. -/
def nameIn (de : List Byte) : List Byte := CStr.find (direntName de fun _ => 0) 0 DIRSIZ

/-- What a directory keeps of a name. -/
def CStr.key (name : CStr) : List Byte := name.bytes.take DIRSIZ

/-- The number of entries, with the ones in no use. -/
def dirCount (s : Fs) (d : Nat) : Nat := (inoOf s d).size / DIRENT_SIZE

/-- The number and the name of an entry. -/
def rowOf (de : List Byte) : Nat × List Byte := (direntInum de, nameIn de)

/-- The entries of a directory. Those with the number 0 are in no use. -/
def dirRows (s : Fs) (d : Nat) : List (Nat × List Byte) :=
  (List.range (dirCount s d)).map fun i => rowOf (direntAt s d i)

/-- Entry `dp` of the table is a directory of whole entries, which the cache has as on
the disk. -/
structure IsDir (s : Fs) (dp d : Nat) : Prop where
  ok : FsOk s
  entry : Entry s dp d
  type : (inoOf s d).type = T_DIR
  whole : (inoOf s d).size % DIRENT_SIZE = 0
  clean : DataClean s d

variable {E : Stop → Prop} {s s' : Fs} {dp d i j n off : Nat} {u v : Bio} {name : CStr}
  {de : List Byte}

@[simp] theorem length_dirRows (s : Fs) (d : Nat) : (dirRows s d).length = dirCount s d := by
    simp [dirRows]

theorem getElem?_dirRows (s : Fs) (d i : Nat) :
    (dirRows s d)[i]? = if i < dirCount s d then some (rowOf (direntAt s d i)) else none := by
  unfold dirRows
  rw [List.getElem?_map]
  by_cases hi : i < dirCount s d
  · rw [if_pos hi, List.getElem?_range hi]
    rfl
  · rw [if_neg hi, List.getElem?_eq_none (by simpa using hi)]
    rfl

theorem bytes_kernel (got : List Byte) : (Dst.kernel got).bytes = got := rfl

/-- The comparison of `dirlookup` is one of keys. -/
theorem strncmp_name : strncmp name.read (direntName de fun _ => 0) DIRSIZ = 0 ↔
    nameIn de = name.key := by
  rw [strncmp_eq_zero, CStr.find_read]
  exact eq_comm

namespace IsDir

theorem size_eq (h : IsDir s dp d) : (s.itable dp).size = DIRENT_SIZE * dirCount s d := by
  rw [entry_size h.entry h.ok.table]
  have := Nat.div_add_mod (inoOf s d).size DIRENT_SIZE
  rw [h.whole, Nat.add_zero] at this
  exact this.symm

theorem lt_size (h : IsDir s dp d) : DIRENT_SIZE * i < (s.itable dp).size ↔ i < dirCount s d := by
  rw [h.size_eq]
  exact Nat.mul_lt_mul_left (by decide)

theorem cached (h : IsDir s dp d) (hu : Cached s.bio u) : IsDir { s with bio := u } dp d :=
  ⟨hu.fsOk h.ok,
    hu.entry
    h.entry, by rw [hu.inoOf]; exact h.type, by rw [hu.inoOf]; exact h.whole, hu.dataClean h.clean⟩

/-- An entry is read. -/
theorem readi (h : IsDir s dp d) (hi : i < dirCount s d) :
    Runs E (ThuKernel.readi dp (.kernel []) (DIRENT_SIZE * i) DIRENT_SIZE) s fun r s' =>
      r = ((DIRENT_SIZE : Int), .kernel (direntAt s d i)) ∧ ∃ u, s' = { s with bio := u } ∧
        Cached s.bio u := by
  have hsize := h.size_eq
  rw [entry_size h.entry h.ok.table] at hsize
  have hfits := (h.ok.fits d h.entry.ino).2
  have hM : MAXFILE * BSIZE < 2 ^ 32 := by decide
  have hD : DIRENT_SIZE = 16 := rfl
  have hlen : readLen (inoOf s d).size (DIRENT_SIZE * i) DIRENT_SIZE = DIRENT_SIZE := by
    unfold readLen
    rw [hD] at hsize ⊢
    rw [if_neg (by omega)]
    omega
  have hread := @readi_kernel E _ _ _ (DIRENT_SIZE * i) DIRENT_SIZE h.ok h.entry (by decide) h.clean
  rw [hlen] at hread
  exact hread

end IsDir

theorem dirCount_cached (h : Cached s.bio u) (d : Nat) :
    dirCount { s with bio := u } d = dirCount s d := by
  unfold dirCount
  rw [h.inoOf]

theorem direntAt_cached (h : Cached s.bio u) (d i : Nat) :
    direntAt { s with bio := u } d i = direntAt s d i := h.bytesAt ..

/-! ## dirlookup -/

/-- Entry `i` is in use for the name. -/
def Match (s : Fs) (d : Nat) (name : CStr) (i : Nat) : Prop :=
  direntInum (direntAt s d i) ≠ 0 ∧ nameIn (direntAt s d i) = name.key

/-- What `dirlookup` gives, from entry `i` on: the first entry for the name, or none. -/
def LookedUp (s : Fs) (d : Nat) (name : CStr) (i : Nat) (r : Option (Nat × Nat)) (s' : Fs) : Prop :=
  ∃ u, Cached s.bio u ∧ match r with
    | none => s' = { s with bio := u } ∧ ∀ j, i ≤ j → j < dirCount s d → ¬ Match s d name j
    | some (ip, off) => ∃ j, i ≤ j ∧ j < dirCount s d ∧ off = DIRENT_SIZE * j ∧ Match s d name j ∧
        (∀ k, i ≤ k → k < j → ¬ Match s d name k) ∧ Got { s with bio := u }
        (direntInum (direntAt s d j)) ip s'

theorem LookedUp.skip {r : Option (Nat × Nat)} (h : LookedUp s d name (i + 1) r s')
    (hi : ¬ Match s d name i) : LookedUp s d name i r s' := by
  have hcase : ∀ {k}, i ≤ k → k = i ∨ i + 1 ≤ k := fun hk => by omega
  obtain ⟨u, hu, h⟩ := h
  refine ⟨u, hu, ?_⟩
  cases r with
  | none =>
    refine ⟨h.1, fun j hj hlt => ?_⟩
    rcases hcase hj with rfl | hj
    · exact hi
    · exact h.2 j hj hlt
  | some r =>
    obtain ⟨j, hj, hlt, hoff, hm, hbefore, hgot⟩ := h
    refine ⟨j, by omega, hlt, hoff, hm, fun k hk hkj => ?_, hgot⟩
    rcases hcase hk with rfl | hk
    · exact hi
    · exact hbefore k hk hkj

/-- The only panic of `dirlookup`: the entry is there, and the table has no room for its inode. -/
def NoEntryFor (s : Fs) (d : Nat) (name : CStr) (e : Stop) : Prop :=
  NoEntryLeft e ∧ ∃ j < dirCount s d, Match s d name j ∧ Lacks s (direntInum (direntAt s d j))

/-- `iget` gives the inode of the first entry for the name, or stops in `E`. -/
def FirstGets (E : Stop → Prop) (s : Fs) (d : Nat) (name : CStr) : Prop :=
  ∀ u j, Cached s.bio u → j < dirCount s d → Match s d name j → (∀ k < j, ¬ Match s d name k) →
    Runs E (iget ROOTDEV (direntInum (direntAt s d j))) { s with bio := u }
      fun ip s' => Got { s with bio := u } (direntInum (direntAt s d j)) ip s'

theorem dirlookupLoop_runs (h : IsDir s dp d) (name : CStr) (hget : FirstGets E s d name)
    (fuel : Nat) (hu : Cached s.bio u) (hi : i ≤ dirCount s d) (hno : ∀ k < i, ¬ Match s d name k)
    (hfuel : dirCount s d < fuel + i) :
    Runs E (dirlookupLoop dp name fuel (DIRENT_SIZE * i)) { s with bio := u } fun r s' =>
    LookedUp s d name i r s' := by
  induction fuel generalizing i u with
  | zero => omega
  | succ fuel ih =>
    have hdir := h.cached hu
    unfold dirlookupLoop
    rw [Runs.bind_iff, runs_getInode]
    dsimp only
    by_cases hlt : i < dirCount s d
    · rw [if_pos (h.lt_size.mpr hlt)]
      refine (hdir.readi (by rwa [dirCount_cached hu])).bind ?_
      rintro _ _ ⟨rfl, v, rfl, hv⟩
      have hv := hu.trans hv
      dsimp only
      rw [bytes_kernel, direntAt_cached hu, if_neg (by simp)]
      have hnext : ¬ Match s d name i →
          Runs E (dirlookupLoop dp name fuel (DIRENT_SIZE * i + DIRENT_SIZE)) { s with bio := v }
            fun r s' => LookedUp s d name i r s' := by
        intro hm
        have hrest := ih (i := i + 1) hv (by omega) (fun k hk => ?_) (by omega)
        · rw [Nat.mul_add, Nat.mul_one] at hrest
          exact hrest.imp fun _ _ hl => hl.skip hm
        · by_cases hki : k = i
          · rwa [hki]
          · exact hno k (by omega)
      split
      · rename_i hzero
        exact hnext fun hc => hc.1 hzero
      · rename_i hzero
        split
        · rename_i hname
          rw [h.entry.dev]
          have hm : Match s d name i := ⟨hzero, strncmp_name.mp hname⟩
          refine (hget v i hv hlt hm hno).bind ?_
          intro ip s' hgot
          rw [Runs.pure_iff]
          exact ⟨v, hv, i, Nat.le_refl i, hlt, rfl, hm, fun k h1 h2 => by omega, hgot⟩
        · rename_i hname
          exact hnext fun hc => hname (strncmp_name.mpr hc.2)
    · rw [if_neg fun hc => hlt (h.lt_size.mp hc), Runs.pure_iff]
      exact ⟨u, hu, rfl, fun j h1 h2 => by omega⟩

theorem dirlookup_gets (h : IsDir s dp d) (name : CStr) (hget : FirstGets E s d name) :
    Runs E (dirlookup dp name) s fun r s' => LookedUp s d name 0 r s' := by
  have htype : (s.itable dp).type = T_DIR := by
    rw [← h.type, h.entry.inoOf h.ok.table]
    rfl
  unfold dirlookup
  rw [Runs.bind_iff, runs_getInode, if_neg (by rw [htype]; simp)]
  have hfuel : dirCount s d < (s.itable dp).size + 1 + 0 := by
    have hD : DIRENT_SIZE = 16 := rfl
    rw [h.size_eq, hD]
    omega
  exact dirlookupLoop_runs h name hget _ (Cached.refl h.ok.cache) (Nat.zero_le _)
    (fun k hk => absurd hk (Nat.not_lt_zero k)) hfuel

theorem dirlookup_runs (h : IsDir s dp d) (name : CStr) :
    Runs (NoEntryFor s d name) (dirlookup dp name) s fun r s' => LookedUp s d name 0 r s' :=
  dirlookup_gets h name fun _ j hu hj hm _ =>
    (iget_runs (hu.fsOk h.ok).table _).mono (fun _ he => ⟨he.1, j, hj, hm, he.2⟩) fun _ _ hg => hg

/-! ## The scan -/

/-- Where a scan stops: at the first entry from `i` on that satisfies `stop`, or behind the last
one. -/
structure Scanned (s : Fs) (d : Nat) (stop : List Byte → Bool) (i : Nat) (r : Nat × List Byte)
    (s' : Fs) (j : Nat) : Prop where
  cached : ∃ u, s' = { s with bio := u } ∧ Cached s.bio u
  ge : i ≤ j
  le : j ≤ dirCount s d
  off : r.1 = DIRENT_SIZE * j
  before : ∀ k, i ≤ k → k < j → stop (direntAt s d k) = false
  found : j < dirCount s d → stop (direntAt s d j) = true ∧ r.2 = direntAt s d j

theorem dirScan_runs (h : IsDir s dp d) (stop : List Byte → Bool) (fuel : Nat) (de : List Byte)
    (hu : Cached s.bio u) (hi : i ≤ dirCount s d) (hfuel : dirCount s d < fuel + i) :
    Runs E (dirScan dp stop fuel (DIRENT_SIZE * i) de) { s with bio := u } fun r s' =>
    ∃ j, Scanned s d stop i r s' j := by
  induction fuel generalizing i u de with
  | zero => omega
  | succ fuel ih =>
    have hdir := h.cached hu
    unfold dirScan
    rw [Runs.bind_iff, runs_getInode]
    dsimp only
    by_cases hlt : i < dirCount s d
    · rw [if_pos (h.lt_size.mpr hlt)]
      refine (hdir.readi (by rwa [dirCount_cached hu])).bind ?_
      rintro _ _ ⟨rfl, v, rfl, hv⟩
      have hv := hu.trans hv
      dsimp only
      rw [bytes_kernel, direntAt_cached hu, if_neg (by simp)]
      split
      · rename_i hstop
        rw [Runs.pure_iff]
        exact ⟨i, ⟨v, rfl, hv⟩, Nat.le_refl i, hi, rfl,
          fun k h1 h2 => by omega, fun _ => ⟨hstop, rfl⟩⟩
      · rename_i hstop
        have hnext := ih (i := i + 1) (direntAt s d i) hv (by omega) (by omega)
        rw [Nat.mul_add, Nat.mul_one] at hnext
        refine hnext.imp ?_
        rintro r s' ⟨j, h1, h2, h3, h4, h5, h6⟩
        refine ⟨j, h1, by omega, h3, h4, fun k hk hkj => ?_, h6⟩
        by_cases hki : k = i
        · rw [hki]
          exact Bool.eq_false_iff.mpr hstop
        · exact h5 k (by omega) hkj
    · rw [if_neg fun hc => hlt (h.lt_size.mp hc), Runs.pure_iff]
      exact ⟨i, ⟨u, rfl, hu⟩, Nat.le_refl i, hi, rfl,
        fun k h1 h2 => by omega, fun hc => absurd hc hlt⟩

/-- A scan of the whole directory. -/
theorem dirScan_all (h : IsDir s dp d) (stop : List Byte → Bool) :
    Runs E (dirScan dp stop ((s.itable dp).size + 1) 0 []) s fun r s' =>
    ∃ j, Scanned s d stop 0 r s' j := by
  have hfuel : dirCount s d < (s.itable dp).size + 1 + 0 := by
    have hD : DIRENT_SIZE = 16 := rfl
    rw [h.size_eq, hD]
    omega
  exact dirScan_runs h stop _ [] (Cached.refl h.ok.cache) (Nat.zero_le _) hfuel

/-! ## An entry that is written -/

/-- Entry `j` is `de` now, and the others are as before. -/
structure DirentPut (s : Fs) (dp d j : Nat) (de : List Byte) (s' : Fs) : Prop where
  isDir : IsDir s' dp d
  touches : Touches d s s'
  stored : dinode (s'.bio.disk (IBLOCK d s.sb)) d = inoOf s' d
  size : (inoOf s' d).size = max (inoOf s d).size (DIRENT_SIZE * (j + 1))
  new : direntAt s' d j = de
  old : ∀ k < dirCount s d, k ≠ j → direntAt s' d k = direntAt s d k

namespace DirentPut

theorem count (h : DirentPut s dp d j de s') : dirCount s' d = max (dirCount s d) (j + 1) := by
  have hD : DIRENT_SIZE = 16 := rfl
  unfold dirCount
  rw [h.size, hD]
  omega

theorem rows (h : DirentPut s dp d j de s') (hj : j ≤ dirCount s d) :
    dirRows s' d = Rows.put (dirRows s d) j (rowOf de) := by
  apply List.ext_getElem?
  intro k
  rw [getElem?_dirRows, Rows.getElem?_put (by rwa [length_dirRows]), getElem?_dirRows, h.count]
  by_cases hk : k = j
  · rw [if_pos hk, if_pos (by omega), hk, h.new]
  · rw [if_neg hk]
    by_cases hlt : k < dirCount s d
    · rw [if_pos hlt, if_pos (by omega), h.old k hlt hk]
    · rw [if_neg hlt, if_neg (by omega)]

end DirentPut

/-- There is no room for one more entry. -/
def DirFull (s : Fs) (d j : Nat) : Prop :=
  j = dirCount s d ∧ MAXFILE * BSIZE < (inoOf s d).size + DIRENT_SIZE

theorem writeDirent_runs (h : IsDir s dp d) (hj : j ≤ dirCount s d)
    (hlen : de.length = DIRENT_SIZE) :
    Runs (fun e => OutOfBlocks e ∧ j = dirCount s d)
    (writei dp (.kernel de) (DIRENT_SIZE * j) DIRENT_SIZE) s fun r s' =>
      r = -1 ∧ s' = s ∧ DirFull s d j ∨ r = DIRENT_SIZE ∧ DirentPut s dp d j de s' := by
  have hD : DIRENT_SIZE = 16 := rfl
  have hsize : (inoOf s d).size = DIRENT_SIZE * dirCount s d := by
    rw [← h.size_eq, entry_size h.entry h.ok.table]
  have hfits := (h.ok.fits d h.entry.ino).2
  have hoff : DIRENT_SIZE * j ≤ (inoOf s d).size := by
    rw [hsize]
    exact Nat.mul_le_mul_left _ hj
  by_cases hr : Refused (inoOf s d).size (DIRENT_SIZE * j) DIRENT_SIZE
  · refine (writei_refused h.ok h.entry (by decide) hr).imp ?_
    rintro _ _ ⟨rfl, rfl⟩
    refine Or.inl ⟨rfl, rfl, ?_⟩
    have hMB : MAXFILE * BSIZE % 16 = 0 := by decide
    unfold Refused at hr
    rw [hD] at hr hsize hoff
    unfold DirFull
    rw [hD]
    omega
  · have hsrc : (Src.kernel de).data DIRENT_SIZE = de := List.take_of_length_le hlen.le
    have hdata : ((Src.kernel de).data DIRENT_SIZE).length = DIRENT_SIZE := by rw [hsrc, hlen]
    have hfull : ∀ e, NoBlockFor s d (DIRENT_SIZE * j) (DIRENT_SIZE * j + DIRENT_SIZE) e →
        OutOfBlocks e ∧ j = dirCount s d := by
      rintro e ⟨he, p, h1, h2, h0⟩
      refine ⟨he, ?_⟩
      by_contra hne
      have hp : p < (inoOf s d).size := by
        rw [hsize, hD] at *
        omega
      exact h.ok.full d h.entry.ino (p / BSIZE) (lt_of_le_of_lt (Nat.div_mul_le_self ..) hp) h0
    refine (writei_runs h.ok h.entry (gives_data hdata (DIRENT_SIZE * j)) hr).mono hfull ?_
    rintro r s' ⟨tot, _, rfl, hw, hclean, hall⟩
    have htot : tot = DIRENT_SIZE := by
      refine hall fun _ _ r bytes _ hcopy => ?_
      cases hcopy
      rfl
    subst htot
    refine Or.inr ⟨rfl, ?_⟩
    have hbytes : ∀ k < dirCount s d, k ≠ j → direntAt s' d k = direntAt s d k := by
      intro k hk hkj
      unfold direntAt bytesAt
      apply List.map_congr_left
      intro i hi
      have hi := List.mem_range.mp hi
      have hin : DIRENT_SIZE * k + i < (inoOf s d).size := by
        rw [hsize, hD] at *
        omega
      refine hw.old _ hin (h.clean _ hin) ?_
      rw [hD] at hi ⊢
      omega
    refine ⟨⟨hw.ok, hw.touches.entryOk h.entry, hw.touches.type.trans h.type, ?_, ?_⟩, hw.touches,
      hw.stored, ?_, ?_, hbytes⟩
    · rw [hw.size]
      have := h.whole
      rw [hD] at this ⊢
      omega
    · exact hw.dataClean (hclean rfl) h.ok h.entry.ino hoff h.clean
    · rw [hw.size, Nat.mul_add, Nat.mul_one]
    · unfold direntAt bytesAt
      apply List.ext_getElem?
      intro i
      by_cases hi : i < DIRENT_SIZE
      · rw [List.getElem?_map, List.getElem?_range hi, Option.map_some,
          hw.new _ (by omega) (by omega), List.getElem?_eq_getElem (by omega),
          Nat.add_sub_cancel_left, hsrc, List.getD_eq_getElem?_getD,
          List.getElem?_eq_getElem (by omega)]
        rfl
      · rw [List.getElem?_eq_none (by simpa using hi), List.getElem?_eq_none (by omega)]

end ThuKernel
