-- `writei`: the bytes that it wrote are in the file, the other bytes are as before, and
-- nothing of another file changes, also when a copy fails on the way.
import ThuKernel.Fs.Content

namespace ThuKernel

variable {E : Stop → Prop} {s s' s₁ s₂ : Fs}
  {ip inum j k m n a b bn p off lo mid hi hi' start tot : Nat} {t u : Bio} {val : Nat → Byte}
  {src : Src}

theorem div_lt_MAXFILE (hp : p < MAXFILE * BSIZE) : p / BSIZE < MAXFILE :=
  Nat.div_lt_of_lt_mul (by rwa [Nat.mul_comm])

/-! ## A data block -/

/-- A change of a block of the file leaves the metadata and the other blocks alone. -/
structure BlockSet (inum bn : Nat) (s s' : Fs) : Prop where
  ok : FsOk s'
  touches : Touches inum s s'
  ino : ∀ j < s.sb.ninodes, inoOf s' j = inoOf s j
  ref : ∀ j m, IsInode s j → refOf s' j m = refOf s j m
  disk : ∀ b ≠ blkOf s inum bn, s'.bio.disk b = s.bio.disk b
  clean : ∀ b ≠ blkOf s inum bn, Clean s.bio b → Clean s'.bio b

theorem blockSet (hok : FsOk s) (hi : IsInode s inum) (hbn : bn < MAXFILE)
    (h0 : blkOf s inum bn ≠ 0) (hcache : CacheOk u)
    (hsince : Follows {blkOf s inum bn} s.bio u) : BlockSet inum bn s { s with bio := u } := by
  have hslot := slotOf_lt hbn
  obtain ⟨hlo, hhi, hmarked⟩ := hok.ref hi hslot h0
  have hstart := @bmapstart_le s.sb
  -- The block is no other one of an inode, and no metadata.
  have hne : ∀ j m, IsInode s j → m < SLOTS → (j ≠ inum ∨ m ≠ slotOf bn) → refOf s j m ≠ 0 →
      refOf s j m ≠ blkOf s inum bn := by
    intro j m hj hm hout hz hc
    obtain ⟨h1, h2⟩ := hok.ref_inj hj hi hm hslot hz hc
    exact hout.elim (fun hc => hc h1) fun hc => hc h2
  have hind : ∀ j, IsInode s j → indOf s j ≠ 0 → indOf s j ≠ blkOf s inum bn := by
    intro j hj hz
    rw [← refOf_ind] at hz ⊢
    exact hne j NDIRECT hj (by decide) (Or.inr (slotOf_ne_ind bn).symm) hz
  have hlow : ∀ b, b < nmeta s.sb → b ≠ blkOf s inum bn := by
    intro b hb hc
    unfold blkOf at hc
    omega
  have hdisk : ∀ b ≠ blkOf s inum bn, u.disk b = s.bio.disk b := fun b hb => hsince.disk b hb
  have hclean : ∀ b ≠ blkOf s inum bn, Clean s.bio b → Clean u b :=
    fun b hb hc => hsince.clean b hb hc
  have hblock : ∀ j < s.sb.ninodes, u.disk (IBLOCK j s.sb) = s.bio.disk (IBLOCK j s.sb) := by
    intro j hj
    have := IBLOCK_lt hok.layout hj
    exact hdisk _ (hlow _ (by omega))
  have hino : ∀ j < s.sb.ninodes, inoOf { s with bio := u } j = inoOf s j :=
    fun j hj => inoOf_bio (hblock j hj)
  have href : ∀ j m, IsInode s j → refOf { s with bio := u } j m = refOf s j m :=
    fun j m hj => refOf_congr (hino j hj.2.1) (fun hz => hdisk _ (hind j hj hz)) m
  have hmeta : ∀ b, MetaBlock s b → b ≠ blkOf s inum bn := by
    rintro b (hb | ⟨j, hj, hz, rfl⟩)
    · exact hlow b hb
    · exact hind j hj hz
  have hok' : FsOk { s with bio := u } :=
    hok.same rfl hcache (hsince.room2 hok.room) ⟨hok.table.distinct, hok.table.dev⟩ hino
      (fun b hb _ => hdisk b (hmeta b hb)) fun b hb => hclean b (hmeta b hb) (hok.clean b hb)
  refine ⟨hok', ⟨⟨rfl, hsince.mono (Set.subset_univ _), fun _ => ⟨rfl, rfl, rfl, rfl⟩,
    fun _ hc => absurd rfl hc,
    fun j hj _ => hino j hj, fun j hj _ => ?_, ?_, fun j m hj _ _ => href j m hj,
    fun j m hj hji hm hz => hdisk _ (hne j m hj hm (Or.inl hji) hz),
    fun j m hj hji hm hz hc => hclean _ (hne j m hj hm (Or.inl hji) hz) hc⟩,
    fun m _ _ => href inum m hi⟩, hino, href, hdisk, hclean⟩
  · dsimp only
    rw [hblock j hj]
  · rw [hino inum hi.2.1]

namespace BlockSet

theorem blkOf (h : BlockSet inum bn s s') (hi : IsInode s inum) (bn' : Nat) :
    ThuKernel.blkOf s' inum bn' = ThuKernel.blkOf s inum bn' := h.ref inum _ hi

theorem ne (hok : FsOk s) (hi : IsInode s inum) {bn' : Nat} (hbn : bn < MAXFILE)
    (hbn' : bn' < MAXFILE) (hne : bn' ≠ bn)
    (h0 : ThuKernel.blkOf s inum bn' ≠ 0) : ThuKernel.blkOf s inum bn' ≠
    ThuKernel.blkOf s inum bn := by
  intro hc
  exact hne (slotOf_inj (hok.ref_inj hi hi (slotOf_lt hbn') (slotOf_lt hbn) h0 hc).2)

/-- The bytes of another block of the file. -/
theorem byteAt_ne (h : BlockSet inum bn s s') (hok : FsOk s) (hi : IsInode s inum)
    (hbn : bn < MAXFILE) (hp : p < MAXFILE * BSIZE) (h0 : ThuKernel.blkOf s inum (p / BSIZE) ≠ 0)
    (hne : p / BSIZE ≠ bn) :
    byteAt s' inum p = byteAt s inum p := by
  unfold byteAt
  rw [h.blkOf hi, h.disk _ (ne hok hi hbn (div_lt_MAXFILE hp) hne h0)]

theorem clean_blk (h : BlockSet inum bn s s') (hok : FsOk s) (hi : IsInode s inum)
    (hbn : bn < MAXFILE) (hnew : Clean s'.bio (ThuKernel.blkOf s inum bn)) {bn' : Nat}
    (hbn' : bn' < MAXFILE) (h0 : ThuKernel.blkOf s inum bn' ≠ 0)
    (hc : Clean s.bio (ThuKernel.blkOf s inum bn')) :
    Clean s'.bio (ThuKernel.blkOf s inum bn') := by
  by_cases hne : bn' = bn
  · rwa [hne]
  · exact h.clean _ (ne hok hi hbn hbn' hne h0) hc

end BlockSet

/-! ## The blocks that `bmap` gives -/

theorem FileGrown.blkOf (h : FileGrown inum s s') (hbn : bn < MAXFILE) (h0 : blkOf s inum bn ≠ 0) :
    blkOf s' inum bn = blkOf s inum bn :=
  h.own _ (slotOf_lt hbn) h0

theorem FileGrown.byteAt (h : FileGrown inum s s') (hp : p < MAXFILE * BSIZE)
    (h0 : ThuKernel.blkOf s inum (p / BSIZE) ≠ 0) :
    byteAt s' inum p = byteAt s inum p := by
  have hbn := div_lt_MAXFILE hp
  unfold ThuKernel.byteAt
  rw [h.blkOf hbn h0]
  exact congrFun (h.ownData _ (slotOf_lt hbn) (slotOf_ne_ind _) h0) _

/-- A block that is new, or was as on the disk. -/
theorem FileGrown.clean_blk (h : FileGrown inum s s') (hbn : bn < MAXFILE)
    (h0 : ThuKernel.blkOf s' inum bn ≠ 0)
    (hc : ThuKernel.blkOf s inum bn ≠ 0 → Clean s.bio (ThuKernel.blkOf s inum bn)) :
    Clean s'.bio (ThuKernel.blkOf s' inum bn) := by
  by_cases hold : ThuKernel.blkOf s inum bn = 0
  · exact h.fresh _ (slotOf_lt hbn) (slotOf_ne_ind bn) hold h0
  · rw [h.blkOf hbn hold]
    exact h.ownClean _ (slotOf_lt hbn) (slotOf_ne_ind bn) hold (hc hold)

/-! ## A run of bytes -/

/-- The bytes of `[lo, hi)` in the file are `val` now. -/
structure Wrote (inum lo hi : Nat) (val : Nat → Byte) (s s' : Fs) : Prop where
  ok : FsOk s'
  touches : Touches inum s s'
  size : (inoOf s' inum).size = (inoOf s inum).size
  blocks : ∀ p, lo ≤ p → p < hi → blkOf s' inum (p / BSIZE) ≠ 0
  old : ∀ p < MAXFILE * BSIZE, blkOf s inum (p / BSIZE) ≠ 0 →
    Clean s.bio (blkOf s inum (p / BSIZE)) → (p < lo ∨ hi ≤ p) → byteAt s' inum p = byteAt s inum p
  new : ∀ p, lo ≤ p → p < hi → byteAt s' inum p = val p

/-- The cache has the blocks of `[lo, hi)` as on the disk, and each other block of which
it had no other bytes. -/
structure KeepsClean (inum lo hi : Nat) (s s' : Fs) : Prop where
  old : ∀ bn < MAXFILE, blkOf s' inum bn ≠ 0 →
    (blkOf s inum bn ≠ 0 → Clean s.bio (blkOf s inum bn)) → Clean s'.bio (blkOf s' inum bn)
  new : ∀ p, lo ≤ p → p < hi → Clean s'.bio (blkOf s' inum (p / BSIZE))

namespace Wrote

theorem refl (hok : FsOk s) (lo : Nat) : Wrote inum lo lo val s s :=
  ⟨hok, Touches.refl, rfl, fun p h1 h2 => by omega, fun _ _ _ _ _ => rfl, fun p h1 h2 => by omega⟩

theorem keep (h : Wrote inum lo hi val s s') (hbn : bn < MAXFILE) (h0 : blkOf s inum bn ≠ 0) :
    blkOf s' inum bn = blkOf s inum bn :=
  h.touches.own _ (slotOf_lt hbn) h0

theorem trans (h : Wrote inum lo mid val s s₁) (hc : KeepsClean inum lo mid s s₁)
    (h' : Wrote inum mid hi val s₁ s₂) (h1 : lo ≤ mid) (h2 : mid ≤ hi)
    (hmax : hi ≤ MAXFILE * BSIZE) : Wrote inum lo hi val s s₂ := by
  refine ⟨h'.ok, h.touches.trans h'.touches, h'.size.trans h.size, fun p hlo hhi => ?_,
    fun p hp h0 hd hout => ?_, fun p hlo hhi => ?_⟩
  · by_cases hmid : p < mid
    · have h0 := h.blocks p hlo hmid
      rwa [h'.keep (div_lt_MAXFILE (by omega)) h0]
    · exact h'.blocks p (by omega) hhi
  · have hbn := div_lt_MAXFILE hp
    have hsame := h.keep hbn h0
    have h0' : blkOf s₁ inum (p / BSIZE) ≠ 0 := by rwa [hsame]
    rw [h'.old p hp h0' (hc.old _ hbn h0' fun _ => hd) (by omega), h.old p hp h0 hd (by omega)]
  · by_cases hmid : p < mid
    · rw [h'.old p (by omega) (h.blocks p hlo hmid) (hc.new p hlo hmid) (Or.inl hmid),
        h.new p hlo hmid]
    · exact h'.new p (by omega) hhi

/-- Bytes of the file with a block that it may have had before. -/
theorem ofBlock (hi : IsInode s inum) (hm : Bmapped s s₁ inum (slotOf bn) a) (hbn : bn < MAXFILE)
    (hs : BlockSet inum bn s₁ s₂) (hlo : lo / BSIZE = bn) (hend : lo % BSIZE + n ≤ BSIZE)
    (hold : Clean s₁.bio a → ∀ o < BSIZE, (o < lo % BSIZE ∨ lo % BSIZE + n ≤ o) →
    s₂.bio.disk a o = s₁.bio.disk a o)
    (hnew : ∀ i < n, s₂.bio.disk a (lo % BSIZE + i) = val (lo + i)) : Wrote inum lo (lo + n)
    val s s₂ := by
  have hi₁ := (hm.grown.isInode inum).mpr hi
  have hblk : blkOf s₁ inum bn = a := hm.block
  have hdm := Nat.div_add_mod lo BSIZE
  have hin : ∀ p, p / BSIZE = bn → p = p % BSIZE + lo - lo % BSIZE := by
    intro p hp
    have := Nat.div_add_mod p BSIZE
    rw [hp, ← hlo] at this
    omega
  have hdiv : ∀ p, lo ≤ p → p < lo + n → p / BSIZE = bn ∧ p % BSIZE = lo % BSIZE + (p - lo) := by
    intro p h1 h2
    have hsplit : p = lo % BSIZE + (p - lo) + BSIZE * (lo / BSIZE) := by omega
    have hlt : lo % BSIZE + (p - lo) < BSIZE := by omega
    constructor
    · rw [hsplit, Nat.add_mul_div_left _ _ (by decide), Nat.div_eq_of_lt hlt, Nat.zero_add, hlo]
    · conv_lhs => rw [hsplit, Nat.add_mul_mod_self_left, Nat.mod_eq_of_lt hlt]
  refine ⟨hs.ok, hm.grown.toTouches.trans hs.touches, ?_, fun p h1 h2 => ?_,
    fun p hp h0 hd hout => ?_, fun p h1 h2 => ?_⟩
  · rw [hs.ino inum hi₁.2.1, hm.grown.size]
  · rw [(hdiv p h1 h2).1, hs.blkOf hi₁, hblk]
    exact hm.nonzero
  · rw [← hm.grown.byteAt hp h0]
    have h0' : blkOf s₁ inum (p / BSIZE) ≠ 0 := by rwa [hm.grown.blkOf (div_lt_MAXFILE hp) h0]
    by_cases hpb : p / BSIZE = bn
    · have hclean := hm.grown.clean_blk (div_lt_MAXFILE hp) h0' fun _ => hd
      rw [hpb, hblk] at hclean
      unfold byteAt
      rw [hs.blkOf hi₁, hpb, hblk]
      have hpin := hin p hpb
      have hmod : p % BSIZE < BSIZE := Nat.mod_lt _ (by decide)
      exact hold hclean _ hmod (by omega)
    · exact hs.byteAt_ne hm.ok hi₁ hbn hp h0' hpb
  · obtain ⟨h3, h4⟩ := hdiv p h1 h2
    unfold byteAt
    rw [hs.blkOf hi₁, h3, hblk, h4, hnew _ (by omega)]
    congr 1
    omega

end Wrote

namespace KeepsClean

theorem refl (lo : Nat) : KeepsClean inum lo lo s s :=
  ⟨fun _ _ h0 hc => hc h0, fun p h1 h2 => by omega⟩

theorem trans (h : KeepsClean inum lo mid s s₁) (h' : KeepsClean inum mid hi s₁ s₂)
    (hw : Wrote inum lo mid val s s₁) (hw' : Wrote inum mid hi val s₁ s₂)
    (hmax : mid ≤ MAXFILE * BSIZE) : KeepsClean inum lo hi s s₂ := by
  refine ⟨fun bn hbn h0 hc => ?_, fun p hlo hhi => ?_⟩
  · exact h'.old bn hbn h0 fun h0' => h.old bn hbn h0' hc
  · by_cases hmid : p < mid
    · have hbn := div_lt_MAXFILE (p := p) (by omega)
      have h0 := hw.blocks p hlo hmid
      have hsame := hw'.keep hbn h0
      exact h'.old _ hbn (by rwa [hsame]) fun _ => h.new p hlo hmid
    · exact h'.new p (by omega) hhi

/-- A block that was written. -/
theorem ofBlock (hi : IsInode s inum) (hm : Bmapped s s₁ inum (slotOf bn) a) (hbn : bn < MAXFILE)
    (hs : BlockSet inum bn s₁ s₂) (hin : ∀ p, lo ≤ p → p < hi' → p / BSIZE = bn)
    (hnew : Clean s₂.bio a) :
    KeepsClean inum lo hi' s s₂ := by
  have hi₁ := (hm.grown.isInode inum).mpr hi
  have hblk : blkOf s₁ inum bn = a := hm.block
  refine ⟨fun bn' hbn' h0 hc => ?_, fun p h1 h2 => ?_⟩
  · rw [hs.blkOf hi₁] at h0 ⊢
    exact hs.clean_blk hm.ok hi₁ hbn (by rwa [hblk]) hbn' h0 (hm.grown.clean_blk hbn' h0 hc)
  · rw [hin p h1 h2, hs.blkOf hi₁, hblk]
    exact hnew

end KeepsClean

/-! ## The loop of writei -/

/-- The bytes that a copy gives, when it does not fail. `val p` is for the byte at `p`
of the file. -/
def Gives (src : Src) (start n : Nat) (val : Nat → Byte) : Prop :=
  ∀ tot m bytes, tot + m ≤ n → either_copyin src tot m = .ok (0, bytes) →
    bytes = (List.range m).map fun i => val (start + tot + i)

/-- No copy fails. -/
def AllCopied (src : Src) (n : Nat) : Prop :=
  ∀ tot m r bytes, tot + m ≤ n → either_copyin src tot m = .ok (r, bytes) → r = 0

/-- How the loop ends, after `tot` of the bytes. -/
structure WriteEnds (src : Src) (inum start n : Nat) (val : Nat → Byte) (lo : Nat) (s : Fs)
    (r : Nat × Nat) (s' : Fs) : Prop where
  off : r.2 = start + r.1
  ge : lo ≤ r.1
  le : r.1 ≤ n
  wrote : Wrote inum (start + lo) (start + r.1) val s s'
  clean : r.1 = n → KeepsClean inum (start + lo) (start + n) s s'
  all : AllCopied src n → r.1 = n

/-- No block is left, and a byte of the range has none. -/
def NoBlockFor (s : Fs) (inum lo hi : Nat) (e : Stop) : Prop :=
  OutOfBlocks e ∧ ∃ p, lo ≤ p ∧ p < hi ∧ blkOf s inum (p / BSIZE) = 0

theorem writeiLoop_runs (hsrc : Gives src start n val) (hmax : start + n ≤ MAXFILE * BSIZE)
    (fuel : Nat) (hok : FsOk s) (he : Entry s ip inum) (hle : tot ≤ n) (hfuel : n - tot < fuel) :
    Runs (NoBlockFor s inum (start + tot) (start + n))
    (writeiLoop ip src n fuel tot (start + tot)) s
      fun r s' => WriteEnds src inum start n val tot s r s' := by
  induction fuel generalizing tot s with
  | zero => omega
  | succ fuel ih =>
    unfold writeiLoop
    by_cases hlt : tot < n
    · rw [if_pos hlt]
      have hp : start + tot < MAXFILE * BSIZE := by omega
      have hbn := div_lt_MAXFILE hp
      have hbmap : Runs (NoBlockFor s inum (start + tot) (start + n))
          (bmap ip ((start + tot) / BSIZE)) s
          fun a s' => Bmapped s s' inum (slotOf ((start + tot) / BSIZE)) a :=
        (bmap_gets hok he hbn).mono (fun _ he => ⟨he.1, _, Nat.le_refl _, by omega, he.2⟩)
          fun _ _ hm => hm
      refine hbmap.bind ?_
      intro a s₁ hm
      have he₁ := hm.grown.entryOk he
      have hi₁ := he₁.ino
      have hblk : blkOf s₁ inum ((start + tot) / BSIZE) = a := hm.block
      rw [Runs.bind_iff, runs_getInode, he₁.dev]
      refine (onBread hm.ok.cache hm.ok.room.room a).bind ?_
      rintro bp _ ⟨t, rfl, hh, hd, hdata⟩
      dsimp only
      have hmod : (start + tot) % BSIZE < BSIZE := Nat.mod_lt _ (by decide)
      obtain ⟨c, hc⟩ : ∃ c, c = min (n - tot) (BSIZE - (start + tot) % BSIZE) := ⟨_, rfl⟩
      rw [← hc, Runs.bind_iff]
      apply runs_either_copyin
      intro r bytes hcopy hr hlen
      have hheld : Held {a} s₁.bio t bp a := hh.mono (Set.empty_subset _)
      have hheld' : Held {a} s₁.bio
          (t.setData bp ((t.core bp).data.store ((start + tot) % BSIZE) bytes)) bp a :=
        hheld.setData rfl
      simp only [Runs.bind_iff, runs_bpData, runs_setBpData]
      rcases hr with rfl | rfl
      · -- The block is written, and the loop goes on.
        have hbytes := hsrc tot c bytes (by omega) hcopy
        rw [if_neg (by decide)]
        simp only [Runs.bind_iff, runs_bwrite, runs_brelse]
        obtain ⟨h1, h2, h3, h4, _⟩ :=
          hheld.write (d := (t.core bp).data.store ((start + tot) % BSIZE) bytes) rfl
        generalize (((t.setData bp ((t.core bp).data.store ((start + tot) % BSIZE) bytes)).diskWrite
          bp).release bp) = u
          at h1 h2 h3 h4 ⊢
        have hset := blockSet hm.ok hi₁ hbn (by rw [hblk]; exact hm.nonzero) h1
          (by rw [hblk]; exact h2)
        have hlen' : bytes.length = c := by rw [hbytes]; simp
        have hwrote : Wrote inum (start + tot) (start + tot + c) val s { s₁ with bio := u } := by
          refine Wrote.ofBlock he.ino hm hbn hset rfl (by omega) (fun hcl o ho hout => ?_)
            fun i hi => ?_
          · dsimp only
            rw [h3, Function.update_self, Bytes.store_outside (by omega), hdata hcl]
          · dsimp only
            rw [h3, Function.update_self, Bytes.store_inside (by omega) (by omega)]
            subst hbytes
            simp
        have hclean : KeepsClean inum (start + tot) (start + tot + c) s { s₁ with bio := u } := by
          refine KeepsClean.ofBlock he.ino hm hbn hset (fun p h1 h2 => ?_) h4
          have hdm := Nat.div_add_mod (start + tot) BSIZE
          have hsplit : p = (start + tot) % BSIZE + (p - (start + tot)) + BSIZE *
              ((start + tot) / BSIZE) := by omega
          rw [hsplit, Nat.add_mul_div_left _ _ (by decide), Nat.div_eq_of_lt (by omega),
            Nat.zero_add]
        rw [Nat.add_assoc] at hwrote hclean
        have hnext := @ih { s₁ with bio := u } (tot + c) hset.ok (hset.touches.entryOk he₁)
          (by omega) (by omega)
        rw [← Nat.add_assoc] at hnext
        refine hnext.mono ?_ ?_
        · rintro e ⟨he, p, h1, h2, h0⟩
          refine ⟨he, p, by omega, h2, ?_⟩
          by_contra hne
          rw [← hwrote.keep (div_lt_MAXFILE (by omega)) hne] at hne
          exact hne h0
        intro r s' hend
        have hge := hend.ge
        have hle := hend.le
        refine ⟨hend.off, by omega, hend.le, hwrote.trans hclean hend.wrote
          (by omega) (by omega) (by omega), fun hr => ?_, hend.all⟩
        have hwrote' := hend.wrote
        rw [hr] at hwrote'
        exact hclean.trans (hend.clean hr) hwrote hwrote' (by omega)
      · -- The copy failed, and the block is as before on the disk.
        rw [if_pos rfl]
        simp only [Runs.bind_iff, runs_brelse, Runs.pure_iff]
        have hdisk : ((t.setData bp ((t.core bp).data.store ((start + tot) % BSIZE) bytes)).release
            bp).disk = s₁.bio.disk :=
          (release_spec hheld'.cache hheld'.has).2.1.trans hd
        obtain ⟨h1, h2⟩ := hheld'.release
        generalize ((t.setData bp ((t.core bp).data.store ((start + tot) % BSIZE) bytes)).release
          bp) = u at h1 h2 hdisk ⊢
        have hset := blockSet hm.ok hi₁ hbn (by rw [hblk]; exact hm.nonzero) h1
          (by rw [hblk]; exact h2)
        have hwrote : Wrote inum (start + tot) (start + tot + 0) val s { s₁ with bio := u } := by
          refine Wrote.ofBlock he.ino hm hbn hset rfl (by omega) (fun _ o _ _ => ?_)
            fun i hi => by omega
          dsimp only
          rw [hdisk]
        refine ⟨rfl, Nat.le_refl _, hle, hwrote, fun hr => by omega, fun hall => ?_⟩
        have := hall tot c (-1) bytes (by omega) hcopy
        cases this
    · rw [if_neg hlt, Runs.pure_iff]
      obtain rfl : tot = n := by omega
      exact ⟨rfl, Nat.le_refl _, Nat.le_refl _, Wrote.refl hok _, fun _ => KeepsClean.refl _,
        fun _ => rfl⟩

/-! ## The inode on the disk -/

/-- A new size, when the file has all blocks for it. -/
theorem setSize (hok : FsOk s) (he : Entry s ip inum) (hn : n ≤ MAXFILE * BSIZE)
    (hfull : ∀ bn, bn * BSIZE < n → blkOf s inum bn ≠ 0) :
    FsOk { s with itable := Function.update s.itable ip { s.itable ip with size := n } } ∧
      Touches inum s
      { s with itable := Function.update s.itable ip { s.itable ip with size := n } } ∧
      inoOf { s with itable := Function.update s.itable ip { s.itable ip with size := n } } inum =
      { inoOf s inum with size := n } ∧
      ∀ j m, refOf { s with itable := Function.update s.itable ip { s.itable ip with size := n } } j
      m = refOf s j m := by
  have hset := inoOf_set (x := { s.itable ip with size := n }) (he.entryOf hok.table) ⟨rfl,
    rfl, rfl, rfl⟩
  have hown : inoOf { s with itable := Function.update s.itable ip { s.itable ip with size := n } }
      inum = { inoOf s inum with size := n } := by
    rw [hset, if_pos rfl, he.inoOf hok.table]
    rfl
  have hother : ∀ j, j ≠ inum →
      inoOf { s with itable := Function.update s.itable ip { s.itable ip with size := n } } j =
      inoOf s j := by
    intro j hj
    rw [hset, if_neg hj]
  have href : ∀ j m,
      refOf { s with itable := Function.update s.itable ip { s.itable ip with size := n } } j m =
      refOf s j m := by
    intro j m
    unfold refOf refAt
    by_cases hj : j = inum
    · rw [hj, hown]
    · rw [hother j hj]
  have hind : ∀ j,
      indOf { s with itable := Function.update s.itable ip { s.itable ip with size := n } } j =
      indOf s j := by
    intro j
    rw [← refOf_ind, ← refOf_ind]
    exact href j _
  have hinode : ∀ j,
      IsInode { s with itable := Function.update s.itable ip { s.itable ip with size := n } } j ↔
      IsInode s j := by
    intro j
    refine @isInode_congr s
      { s with itable := Function.update s.itable ip { s.itable ip with size := n } } j
      rfl fun _ => ?_
    by_cases hj : j = inum
    · rw [hj, hown]
    · rw [hother j hj]
  have hentries : ∀ i, SameEntry (s.itable i)
      (Function.update s.itable ip { s.itable ip with size := n } i) := by
    intro i
    by_cases hi : i = ip
    · subst hi
      rw [Function.update_self]
      exact ⟨rfl, rfl, rfl, rfl⟩
    · rw [Function.update_of_ne hi]
      exact ⟨rfl, rfl, rfl, rfl⟩
  refine ⟨⟨hok.cache, hok.room, hok.layout, hok.table.set ⟨rfl, rfl, rfl, rfl⟩, ?_, hok.metaUsed,
    ?_, fun j hj => ?_,
    fun j hj bn hbn => ?_⟩,
    ⟨⟨rfl, Since.refl _ _, hentries, fun i hi => ?_, fun j _ hne => hother j hne,
      fun _ _ _ => rfl, ?_,
    fun j m _ _ _ => href j m, fun _ _ _ _ _ _ => rfl, fun _ _ _ _ _ _ h => h⟩,
    fun m _ _ => href inum m⟩, hown, href⟩
  · rintro b (hb | ⟨j, hj, h0, rfl⟩)
    · exact hok.clean b (Or.inl hb)
    · rw [hind] at h0 ⊢
      exact hok.clean _ (Or.inr ⟨j, (hinode j).mp hj, h0, rfl⟩)
  · apply hok.owned.congr fun _ _ _ => rfl
    rintro ⟨j, m⟩
    unfold place
    simp only [hinode, href]
  · by_cases hji : j = inum
    · rw [hji, hown]
      exact ⟨(hok.fits inum he.ino).1, hn⟩
    · rw [hother j hji]
      exact hok.fits j ((hinode j).mp hj)
  · unfold blkOf
    rw [href]
    by_cases hji : j = inum
    · rw [hji, hown] at hbn
      rw [hji]
      exact hfull bn hbn
    · rw [hother j hji] at hbn
      exact hok.full j ((hinode j).mp hj) bn hbn
  · by_contra hc
    have hip : i ≠ ip := fun hip => hc (hip ▸ he.num)
    exact hi (Function.update_of_ne hip ..)
  · rw [hown]

/-- What `iupdate` does: the inode is on the disk as in the table. -/
structure Updated (inum : Nat) (s s' : Fs) : Prop where
  ok : FsOk s'
  touches : Touches inum s s'
  ino : ∀ j < s.sb.ninodes, inoOf s' j = inoOf s j
  ref : ∀ j m, IsInode s j → refOf s' j m = refOf s j m
  table : s'.itable = s.itable
  disk : ∀ b ≠ IBLOCK inum s.sb, s'.bio.disk b = s.bio.disk b
  clean : ∀ b ≠ IBLOCK inum s.sb, Clean s.bio b → Clean s'.bio b
  stored : dinode (s'.bio.disk (IBLOCK inum s.sb)) inum = inoOf s inum

theorem iupdate_runs (hok : FsOk s) (he : Entry s ip inum) :
    Runs E (iupdate ip) s fun _ s' => Updated inum s s' := by
  have hlt := IBLOCK_lt hok.layout he.ino.2.1
  have hstart := @bmapstart_le s.sb
  have hmeta : MetaBlock s (IBLOCK inum s.sb) := Or.inl (by omega)
  unfold iupdate
  rw [Runs.bind_iff, Runs.get_iff]
  dsimp only
  rw [he.dev, he.num]
  refine (onBread hok.cache hok.room.room _).bind ?_
  rintro bp _ ⟨t, rfl, hh, hd, hdata⟩
  have hdata := hdata (hok.clean _ hmeta)
  simp only [Runs.bind_iff, runs_bpData, runs_setBpData, runs_bwrite, runs_brelse]
  rw [hdata]
  have hheld : Held {IBLOCK inum s.sb} s.bio t bp (IBLOCK inum s.sb) := hh.mono (Set.empty_subset _)
  obtain ⟨h1, h2, h3, h4, _⟩ :=
    hheld.write (d := putDinode (s.bio.disk (IBLOCK inum s.sb)) inum (s.itable ip).type
    (s.itable ip).size (s.itable ip).addrs) rfl
  generalize
    ((t.setData bp (putDinode (s.bio.disk (IBLOCK inum s.sb)) inum (s.itable ip).type
    (s.itable ip).size (s.itable ip).addrs)).diskWrite bp).release bp = u at h1 h2 h3 h4 ⊢
  rw [hd] at h3
  have hdisk : ∀ b ≠ IBLOCK inum s.sb, u.disk b = s.bio.disk b := fun b hb => h2.disk b hb
  have hclean : ∀ b ≠ IBLOCK inum s.sb, Clean s.bio b → Clean u b := fun b hb hc => h2.clean b hb hc
  -- Another inode of the block is beside the 64 bytes.
  have hdinode : ∀ j, j ≠ inum →
      dinode (u.disk (IBLOCK j s.sb)) j = dinode (s.bio.disk (IBLOCK j s.sb)) j := by
    intro j hne
    by_cases hblock : IBLOCK j s.sb = IBLOCK inum s.sb
    · rw [hblock, h3, Function.update_self]
      apply dinode_congr
      intro o ho
      have hapart := dipOff_apart hne hblock
      exact putDinode_outside (by omega)
    · rw [hdisk _ hblock]
  have hino : ∀ j, inoOf { s with bio := u } j = inoOf s j := by
    intro j
    have hentry : entryOf { s with bio := u } j = entryOf s j := rfl
    by_cases hji : j = inum
    · unfold inoOf
      rw [hentry, hji, he.entryOf hok.table]
    · unfold inoOf
      rw [hentry]
      cases entryOf s j with
      | none => exact hdinode j hji
      | some i => rfl
  have hindDisk : ∀ j, IsInode s j → indOf s j ≠ 0 →
      u.disk (indOf s j) = s.bio.disk (indOf s j) := by
    intro j hj h0
    have := (hok.ind hj h0).1
    exact hdisk _ (by omega)
  have href : ∀ j m, IsInode s j → refOf { s with bio := u } j m = refOf s j m :=
    fun j m hj => refOf_congr (hino j) (hindDisk j hj) m
  have hne : ∀ j m, IsInode s j → m < SLOTS → refOf s j m ≠ 0 → refOf s j m ≠ IBLOCK inum s.sb := by
    intro j m hj hm h0
    have := (hok.ref hj hm h0).1
    omega
  refine ⟨hok.same rfl h1 (h2.room2 hok.room) ⟨hok.table.distinct,
      hok.table.dev⟩ (fun j _ => hino j)
      (fun b _ hb => hdisk b (by omega)) fun b hb => ?_,
    ⟨⟨rfl, h2.mono (Set.subset_univ _), fun _ => ⟨rfl, rfl, rfl, rfl⟩, fun _ hc => absurd rfl hc,
      fun j _ _ => hino j,
      fun j _ hji => hdinode j hji, by rw [hino], fun j m hj _ _ => href j m hj,
      fun j m hj _ hm h0 => hdisk _ (hne j m hj hm h0), fun j m hj _ hm h0 hc =>
      hclean _ (hne j m hj hm h0) hc⟩, fun m _ _ => href inum m he.ino⟩,
    fun j _ => hino j, href, rfl, hdisk, hclean, ?_⟩
  · by_cases hb' : b = IBLOCK inum s.sb
    · rw [hb']
      exact h4
    · exact hclean b hb' (hok.clean b hb)
  · dsimp only
    rw [h3, Function.update_self, he.inoOf hok.table]
    have hfits := hok.fits inum he.ino
    rw [he.inoOf hok.table] at hfits
    have hmax : MAXFILE * BSIZE < 2 ^ 32 := by decide
    refine dinode_putDinode hfits.1 (hfits.2.trans_lt hmax) fun k hk => ?_
    rw [he.addrs hok.table hk, ← refOf_of_le hk]
    by_cases h0 : refOf s inum k = 0
    · rw [h0]
      decide
    · have := (hok.ref he.ino (by unfold SLOTS; omega) h0).2.1
      exact this.trans_le hok.layout.small

/-! ## writei -/

/-- What `writei` does when it writes `[lo, hi)`. -/
structure Written (inum lo hi : Nat) (val : Nat → Byte) (s s' : Fs) : Prop where
  ok : FsOk s'
  touches : Touches inum s s'
  size : (inoOf s' inum).size = max (inoOf s inum).size hi
  old : ∀ p < (inoOf s inum).size, Clean s.bio (blkOf s inum (p / BSIZE)) → (p < lo ∨ hi ≤ p) →
    byteAt s' inum p = byteAt s inum p
  new : ∀ p, lo ≤ p → p < hi → byteAt s' inum p = val p
  stored : dinode (s'.bio.disk (IBLOCK inum s.sb)) inum = inoOf s' inum

/-- After a write of all bytes, the cache has the blocks of the file as on the disk. -/
theorem Written.dataClean (h : Written inum lo hi val s s') (hk : KeepsClean inum lo hi s s')
    (hok : FsOk s) (hinode : IsInode s inum) (hlo : lo ≤ (inoOf s inum).size)
    (hc : DataClean s inum) : DataClean s' inum := by
  intro p hp
  rw [h.size] at hp
  by_cases hin : lo ≤ p ∧ p < hi
  · exact hk.new p hin.1 hin.2
  · have hold : p < (inoOf s inum).size := by omega
    obtain ⟨hbn, h0⟩ := hok.blk hinode hold
    have hsame : blkOf s' inum (p / BSIZE) = blkOf s inum (p / BSIZE) :=
      h.touches.own _ (slotOf_lt hbn) h0
    exact hk.old _ hbn (by rwa [hsame]) fun _ => hc p hold

/-- The arguments with which `writei` fails at once. -/
def Refused (size off n : Nat) : Prop := size < off ∨ MAXFILE * BSIZE < off + n

instance (size off n : Nat) : Decidable (Refused size off n) := inferInstanceAs (Decidable (_ ∨ _))

theorem writei_refused (hok : FsOk s) (he : Entry s ip inum) (hn : n < 2 ^ 32)
    (hr : Refused (inoOf s inum).size off n) :
    Runs E (writei ip src off n) s fun r s' => r = -1 ∧ s' = s := by
  have hsize : (s.itable ip).size = (inoOf s inum).size := by rw [he.inoOf hok.table]; rfl
  have hmax := (hok.fits inum he.ino).2
  have hM : MAXFILE * BSIZE < 2 ^ 32 := by decide
  unfold writei
  rw [Runs.bind_iff, runs_getInode, hsize]
  dsimp only
  by_cases hout : (inoOf s inum).size < off ∨ (off + n) % 2 ^ 32 < off
  · rw [if_pos hout]
    exact ⟨rfl, rfl⟩
  · rw [if_neg hout, if_pos]
    · exact ⟨rfl, rfl⟩
    · unfold Refused at hr
      omega

theorem writei_runs (hok : FsOk s) (he : Entry s ip inum) (hsrc : Gives src off n val)
    (hr : ¬ Refused (inoOf s inum).size off n) :
    Runs (NoBlockFor s inum off (off + n)) (writei ip src off n) s fun r s' => ∃ tot ≤ n, r = tot ∧
    Written inum off (off + tot) val s s' ∧
      (tot = n → KeepsClean inum off (off + n) s s') ∧ (AllCopied src n → tot = n) := by
  have hsize : (s.itable ip).size = (inoOf s inum).size := by rw [he.inoOf hok.table]; rfl
  have hM : MAXFILE * BSIZE < 2 ^ 32 := by decide
  unfold Refused at hr
  rw [not_or, not_lt, not_lt] at hr
  obtain ⟨hoff, hmax⟩ := hr
  have hlast : (off + n) % 2 ^ 32 = off + n := Nat.mod_eq_of_lt (hmax.trans_lt hM)
  unfold writei
  rw [Runs.bind_iff, runs_getInode, hsize]
  dsimp only
  rw [hlast, if_neg (by omega), if_neg (by omega)]
  have hloop := @writeiLoop_runs s ip inum n off 0 val src hsrc hmax (n + 1) hok he
    (Nat.zero_le _) (by omega)
  refine Runs.bind hloop ?_
  rintro ⟨tot, off'⟩ s₁ ⟨hoff', _, htot, hwrote, hclean, hall⟩
  dsimp only at hoff' htot hwrote hclean hall
  subst hoff'
  rw [Nat.add_zero] at hwrote
  have he₁ := hwrote.touches.entryOk he
  have hsize₁ : (s₁.itable ip).size = (inoOf s inum).size := by
    rw [← hwrote.size, he₁.inoOf hwrote.ok.table]
    rfl
  -- The file has all blocks for its new size.
  have hfull : ∀ bn, bn * BSIZE < max (inoOf s inum).size (off + tot) → blkOf s₁ inum bn ≠ 0 := by
    intro bn hbn
    by_cases hold : bn * BSIZE < (inoOf s inum).size
    · exact hwrote.ok.full inum he₁.ino bn (by rwa [hwrote.size])
    · have := hwrote.blocks (bn * BSIZE) (by omega) (by omega)
      rwa [Nat.mul_div_cancel _ (by decide)] at this
  have hfits := (hok.fits inum he.ino).2
  obtain ⟨hok₂, htouch₂, hino₂, href₂⟩ := setSize hwrote.ok he₁ (by omega) hfull
  have hset : ∀ {Q : Unit → Fs → Prop},
      Q () { s₁ with
        itable :=
          Function.update s₁.itable ip
            { s₁.itable ip with size := max (inoOf s inum).size (off + tot) } } →
      Runs (NoBlockFor s inum off (off + n))
      (Prog.when ((s₁.itable ip).size < off + tot)
      (setInode ip { s₁.itable ip with size := off + tot })) s₁ Q := by
    intro Q hQ
    rw [Runs.when_iff, hsize₁]
    refine ⟨fun hlt => ?_, fun hge => ?_⟩
    · rw [max_eq_right hlt.le] at hQ
      exact hQ
    · rw [max_eq_left (by omega), ← hsize₁, Function.update_eq_self] at hQ
      exact hQ
  rw [Runs.bind_iff, runs_getInode, Runs.bind_iff]
  apply hset
  refine (iupdate_runs hok₂ (htouch₂.entryOk he₁)).bind ?_
  intro _ s₃ hup
  rw [Runs.pure_iff]
  have hbyte : ∀ p < MAXFILE * BSIZE, blkOf s₁ inum (p / BSIZE) ≠ 0 →
      byteAt s₃ inum p = byteAt s₁ inum p := by
    intro p hp h0
    have hblk : blkOf s₃ inum (p / BSIZE) = blkOf s₁ inum (p / BSIZE) :=
      (hup.ref inum _ ((htouch₂.isInode inum).mpr he₁.ino)).trans (href₂ inum _)
    have hne : blkOf s₁ inum (p / BSIZE) ≠ IBLOCK inum s₁.sb := by
      have h1 := (hwrote.ok.ref he₁.ino (slotOf_lt (div_lt_MAXFILE hp)) h0).1
      have h2 := IBLOCK_lt hwrote.ok.layout he₁.ino.2.1
      have h3 := @bmapstart_le s₁.sb
      unfold blkOf
      omega
    unfold byteAt
    rw [hblk, hup.disk _ hne]
  have htouch := hwrote.touches.trans (htouch₂.trans hup.touches)
  have hsb := hwrote.touches.sb
  have hi₂ : inum < s₁.sb.ninodes := he₁.ino.2.1
  have hino₃ := hup.ino inum hi₂
  refine ⟨tot, htot, rfl, ⟨hup.ok, htouch, ?_, fun p hp hc hout => ?_, fun p h1 h2 => ?_, ?_⟩,
    fun hn => ?_, hall⟩
  · rw [hino₃, hino₂]
  · have hblk := hok.blk he.ino hp
    have hp' : p < MAXFILE * BSIZE := by omega
    have hsame := hwrote.touches.own _ (slotOf_lt hblk.1) hblk.2
    rw [hbyte p hp' (by unfold blkOf; rw [hsame]; exact hblk.2)]
    exact hwrote.old p hp' hblk.2 hc hout
  · rw [hbyte p (by omega) (hwrote.blocks p h1 h2)]
    exact hwrote.new p h1 h2
  · rw [← hsb]
    exact hup.stored.trans hino₃.symm
  · have hc₁ := hclean hn
    have hblk : ∀ bn, blkOf s₃ inum bn = blkOf s₁ inum bn :=
      fun bn => (hup.ref inum _ ((htouch₂.isInode inum).mpr he₁.ino)).trans (href₂ inum _)
    have hkeep : ∀ bn < MAXFILE, blkOf s₁ inum bn ≠ 0 → Clean s₁.bio (blkOf s₁ inum bn) →
        Clean s₃.bio (blkOf s₁ inum bn) := by
      intro bn hbn h0 hc
      refine hup.clean _ ?_ hc
      have h1 := (hwrote.ok.ref he₁.ino (slotOf_lt hbn) h0).1
      have h2 := IBLOCK_lt hwrote.ok.layout he₁.ino.2.1
      have h3 := @bmapstart_le s₁.sb
      unfold blkOf
      dsimp only
      omega
    refine ⟨fun bn hbn h0 hc => ?_, fun p h1 h2 => ?_⟩
    · rw [hblk] at h0 ⊢
      exact hkeep bn hbn h0 (hc₁.old bn hbn h0 hc)
    · rw [hblk]
      refine hkeep _ (div_lt_MAXFILE (by omega)) (hwrote.blocks p h1 (by omega))
        (hc₁.new p (by omega) h2)

end ThuKernel
