-- The bytes of a file, and `readi`: it gives the bytes as they are on the disk when the
-- cache has no other ones, and it changes nothing but the cache.
import ThuKernel.Fs.BlockMap

namespace ThuKernel

/-- The byte at `p` of a file. -/
def byteAt (s : Fs) (inum p : Nat) : Byte := s.bio.disk (blkOf s inum (p / BSIZE)) (p % BSIZE)

/-- The `n` bytes of a file from `off` on. -/
def bytesAt (s : Fs) (inum off n : Nat) : List Byte :=
  (List.range n).map fun i => byteAt s inum (off + i)

/-- All the bytes of a file. -/
def contents (s : Fs) (inum : Nat) : List Byte := bytesAt s inum 0 (inoOf s inum).size

/-- The cache has the blocks of the file as on the disk. -/
def DataClean (s : Fs) (inum : Nat) : Prop :=
  ∀ p < (inoOf s inum).size, Clean s.bio (blkOf s inum (p / BSIZE))

/-- How many bytes `readi` reads. -/
def readLen (size off n : Nat) : Nat :=
  if size < off ∨ 2 ^ 32 ≤ off + n then 0 else min n (size - off)

variable {E : Stop → Prop} {s : Fs} {ip inum j off n m tot start : Nat} {u : Bio} {dst : Dst}

@[simp] theorem length_bytesAt (s : Fs) (inum off n : Nat) : (bytesAt s inum off n).length = n := by
    simp [bytesAt]

@[simp] theorem bytesAt_zero (s : Fs) (inum off : Nat) : bytesAt s inum off 0 = [] := rfl

theorem bytesAt_add (s : Fs) (inum off m n : Nat) :
    bytesAt s inum off (m + n) = bytesAt s inum off m ++ bytesAt s inum (off + m) n := by
  unfold bytesAt
  rw [List.range_add, List.map_append, List.map_map]
  simp [Function.comp_def, Nat.add_assoc]

/-- The bytes of a file are slices of its contents. -/
theorem bytesAt_contents (h : off + n ≤ (inoOf s inum).size) :
    bytesAt s inum off n = ((contents s inum).drop off).take n := by
  have hsize : (inoOf s inum).size = off + (n + ((inoOf s inum).size - off - n)) := by omega
  unfold contents
  rw [hsize, bytesAt_add, bytesAt_add, List.drop_left' (length_bytesAt ..),
    List.take_left' (length_bytesAt ..), Nat.zero_add]

/-! ## The state under a cache that changes -/

theorem Cached.blkOf (h : Cached s.bio u) (j bn : Nat) :
    blkOf { s with bio := u } j bn = blkOf s j bn := h.refOf j _

theorem Cached.bytesAt (h : Cached s.bio u) (j off n : Nat) :
    bytesAt { s with bio := u } j off n = bytesAt s j off n := by
  unfold ThuKernel.bytesAt
  apply List.map_congr_left
  intro i _
  unfold byteAt
  rw [h.blkOf]
  dsimp only
  rw [h.disk]

theorem Cached.dataClean (h : Cached s.bio u) (hc : DataClean s j) :
    DataClean { s with bio := u } j := by
  intro p hp
  rw [h.inoOf] at hp
  rw [h.blkOf]
  exact h.since.clean _ (Set.notMem_empty _) (hc p hp)

theorem Cached.entry (h : Cached s.bio u) (he : Entry s ip inum) :
    Entry { s with bio := u } ip inum :=
  SparesFiles.entryOk (h.grown.toSparesFiles : SparesFiles inum s _) he

/-- A block of a file that has it. -/
theorem FsOk.blk (h : FsOk s) (hi : IsInode s inum) {p : Nat} (hp : p < (inoOf s inum).size) :
    p / BSIZE < MAXFILE ∧ blkOf s inum (p / BSIZE) ≠ 0 := by
  have hle := (h.fits inum hi).2
  refine ⟨Nat.div_lt_of_lt_mul (by rw [Nat.mul_comm]; omega), h.full inum hi _ ?_⟩
  exact (Nat.div_mul_le_self p BSIZE).trans_lt hp

/-- A run of bytes inside one block. -/
theorem load_block (h : off % BSIZE + m ≤ BSIZE) :
    (s.bio.disk (blkOf s inum (off / BSIZE))).load (off % BSIZE) m = bytesAt s inum off m := by
  unfold Bytes.load bytesAt byteAt
  apply List.map_congr_left
  intro i hi
  have hi := List.mem_range.mp hi
  have hdiv := Nat.div_add_mod off BSIZE
  have hsplit : off + i = off % BSIZE + i + BSIZE * (off / BSIZE) := by omega
  have hlt : off % BSIZE + i < BSIZE := by omega
  rw [hsplit, Nat.add_mul_div_left _ _ (by decide), Nat.add_mul_mod_self_left, Nat.div_eq_of_lt hlt,
    Nat.mod_eq_of_lt hlt, Nat.zero_add]

/-! ## readi -/

section Reading

-- What is known of the destination after `tot` bytes, and after a copy that failed.
variable (I : Nat → Dst → Prop) (F : Dst → Prop)

/-- Each copy of bytes of the file keeps `I`, or gives `F`. -/
def CopiesOut (s : Fs) (inum start n : Nat) : Prop :=
  ∀ tot dst m src, I tot dst → 0 < m → tot + m ≤ n → src.length = m →
    (DataClean s inum → src = bytesAt s inum (start + tot) m) →
    ∃ r dst', either_copyout dst tot src = .ok (r, dst') ∧
    (r = 0 ∧ I (tot + m) dst' ∨ r = -1 ∧ F dst')

variable {I F}

theorem readiLoop_runs (hok : FsOk s) (he : Entry s ip inum)
    (hsize : start + n ≤ (inoOf s inum).size) (hI : CopiesOut I F s inum start n) (fuel : Nat)
    (hu : Cached s.bio u) (hfuel : n - tot < fuel) (htot : tot ≤ n) (hdst : I tot dst) :
    Runs E (readiLoop ip n fuel tot (start + tot) dst) { s with bio := u } fun r s' =>
      (r.1 = n ∧ I n r.2 ∨ r.1 = -1 ∧ F r.2) ∧ ∃ u, s' = { s with bio := u } ∧ Cached s.bio u := by
  induction fuel generalizing tot dst u with
  | zero => omega
  | succ fuel ih =>
    unfold readiLoop
    by_cases hlt : tot < n
    · rw [if_pos hlt]
      obtain ⟨hbn, hblk⟩ := hok.blk he.ino (p := start + tot) (by omega)
      have hread := bmap_read (E := E) (hu.fsOk hok) (hu.entry he) hbn (by rwa [hu.blkOf])
      refine hread.bind ?_
      rintro a _ ⟨ha, v, rfl, hv⟩
      dsimp only at hv
      rw [hu.blkOf] at ha
      have hv := hu.trans hv
      rw [Runs.bind_iff, runs_getInode, he.dev]
      refine (onBread (s := { s with bio := v }) hv.cache (hv.since.room2 hok.room).room a).bind ?_
      rintro bp _ ⟨t, rfl, hh, hd, hdata⟩
      dsimp only at hd hdata hh
      rw [Runs.bind_iff, runs_bpData]
      dsimp only
      have hmod : (start + tot) % BSIZE < BSIZE := Nat.mod_lt _ (by decide)
      have hm : 0 < min (n - tot) (BSIZE - (start + tot) % BSIZE) := by omega
      have hbytes : DataClean s inum →
          (t.core bp).data.load ((start + tot) % BSIZE)
          (min (n - tot) (BSIZE - (start + tot) % BSIZE)) =
          bytesAt s inum (start + tot) (min (n - tot) (BSIZE - (start + tot) % BSIZE)) := by
        intro hclean
        have hc := hv.dataClean hclean (start + tot) (by rw [hv.inoOf]; omega)
        rw [hv.blkOf, ← ha] at hc
        rw [hdata hc, ha, hv.disk]
        exact load_block (by omega)
      obtain ⟨r, dst', hcopy, hcase⟩ :=
        hI tot dst _ _ hdst hm (by omega) (Bytes.length_load ..) hbytes
      rw [hcopy, Runs.bind_iff, runs_liftM]
      refine ⟨fun x hx => ?_, fun e hx => by cases hx⟩
      cases hx
      dsimp only
      rw [Runs.bind_iff, runs_brelse]
      obtain ⟨h1, h2, h3, _⟩ := hh.read hd
      have hrel : Cached s.bio (t.release bp) := hv.trans ⟨h1, h2, h3⟩
      rcases hcase with ⟨rfl, hnext⟩ | ⟨rfl, hfail⟩
      · rw [if_neg (by decide), Nat.add_assoc]
        exact ih hrel (by omega) (by omega) hnext
      · rw [if_pos rfl, Runs.pure_iff]
        exact ⟨Or.inr ⟨rfl, hfail⟩, _, rfl, hrel⟩
    · rw [if_neg hlt, Runs.pure_iff]
      obtain rfl : tot = n := by omega
      exact ⟨Or.inl ⟨rfl, hdst⟩, u, rfl, hu⟩

theorem readi_runs (hok : FsOk s) (he : Entry s ip inum) (hn : n < 2 ^ 32)
    (hI : CopiesOut I F s inum off (readLen (inoOf s inum).size off n)) (hdst : I 0 dst) :
    Runs E (readi ip dst off n) s fun r s' =>
      (r.1 = readLen (inoOf s inum).size off n ∧ I (readLen (inoOf s inum).size off n) r.2 ∨
        r.1 = -1 ∧ F r.2) ∧
        ∃ u, s' = { s with bio := u } ∧ Cached s.bio u := by
  have hsize : (s.itable ip).size = (inoOf s inum).size := by rw [he.inoOf hok.table]; rfl
  have hmax := (hok.fits inum he.ino).2
  have hM : MAXFILE * BSIZE < 2 ^ 32 := by decide
  unfold readi
  rw [Runs.bind_iff, runs_getInode, hsize]
  dsimp only
  by_cases hout : (inoOf s inum).size < off ∨ 2 ^ 32 ≤ off + n
  · have hlen : readLen (inoOf s inum).size off n = 0 := if_pos hout
    rw [if_pos (by omega), Runs.pure_iff, hlen]
    exact ⟨Or.inl ⟨rfl, hdst⟩, s.bio, rfl, Cached.refl hok.cache⟩
  · rw [not_or, not_lt, not_le] at hout
    have hlast : (off + n) % 2 ^ 32 = off + n := Nat.mod_eq_of_lt hout.2
    have hlen : readLen (inoOf s inum).size off n = min n ((inoOf s inum).size - off) :=
      if_neg (by omega)
    have hmin : (if (inoOf s inum).size < off + n then (inoOf s inum).size - off else n) =
        min n ((inoOf s inum).size - off) := by
      split
      · omega
      · omega
    rw [hlast, if_neg (by omega), hmin]
    rw [hlen] at hI ⊢
    have hstart : off + min n ((inoOf s inum).size - off) ≤ (inoOf s inum).size := by omega
    exact readiLoop_runs hok he hstart hI _ (Cached.refl hok.cache) (Nat.lt_succ_self _)
      (Nat.zero_le _) hdst

end Reading

/-- Reading into the kernel gives the bytes of the file. -/
theorem readi_kernel (hok : FsOk s) (he : Entry s ip inum) (hn : n < 2 ^ 32)
    (hclean : DataClean s inum) :
    Runs E (readi ip (.kernel []) off n) s fun r s' =>
      r = (((readLen (inoOf s inum).size off n : Nat) : Int),
        .kernel (bytesAt s inum off (readLen (inoOf s inum).size off n))) ∧
        ∃ u, s' = { s with bio := u } ∧ Cached s.bio u := by
  have hI : CopiesOut (fun tot dst => dst = .kernel (bytesAt s inum off tot))
      (fun _ => False) s inum off (readLen (inoOf s inum).size off n) := by
    rintro tot _ m src rfl _ _ _ hsrc
    refine ⟨0, _, rfl, Or.inl ⟨rfl, ?_⟩⟩
    dsimp only
    rw [hsrc hclean, bytesAt_add]
  apply (readi_runs hok he hn hI rfl).imp
  rintro ⟨r, dst⟩ s' ⟨h, hs⟩
  refine ⟨?_, hs⟩
  rcases h with ⟨h1, h2⟩ | ⟨_, h2⟩
  · exact Prod.ext h1 h2
  · exact h2.elim

end ThuKernel
