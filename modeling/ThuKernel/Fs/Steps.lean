-- Steps on the image: what a change of the table or of some blocks does to the inodes
-- and their block numbers, and when the block invariant goes on.
import ThuKernel.Fs.FreeMap

namespace ThuKernel

variable {s s' : Fs} {ip inum j k m a b : Nat} {x : inode} {u : Bio}

/-! ## The inodes -/

/-- An entry that changes only what it says of the file. -/
structure SameEntry (x y : inode) : Prop where
  dev : y.dev = x.dev
  inum : y.inum = x.inum
  ref : y.ref = x.ref
  valid : y.valid = x.valid

theorem entryOf_set (hx : SameEntry (s.itable ip) x) (inum : Nat) :
    entryOf { s with itable := Function.update s.itable ip x } inum = entryOf s inum := by
  unfold entryOf
  congr 1
  funext i
  dsimp only
  by_cases hi : i = ip
  · subst hi
    simp [hx.ref, hx.valid, hx.inum]
  · simp [Function.update_of_ne hi]

theorem inoOf_set (he : entryOf s inum = some ip) (hx : SameEntry (s.itable ip) x) (j : Nat) :
    inoOf { s with itable := Function.update s.itable ip x } j =
    if j = inum then x.ino else inoOf s j := by
  unfold inoOf
  rw [entryOf_set hx]
  by_cases hj : j = inum
  · rw [if_pos hj, hj, he]
    dsimp only
    rw [Function.update_self]
  · rw [if_neg hj]
    cases hfind : entryOf s j with
    | none => rfl
    | some i =>
      have hi : i ≠ ip := by
        rintro rfl
        exact hj ((entryOf_some hfind).2.2.2.symm.trans (entryOf_some he).2.2.2)
      dsimp only
      rw [Function.update_of_ne hi]

theorem inoOf_bio (h : u.disk (IBLOCK j s.sb) = s.bio.disk (IBLOCK j s.sb)) :
    inoOf { s with bio := u } j = inoOf s j := by
  have hentry : entryOf { s with bio := u } j = entryOf s j := rfl
  unfold inoOf
  rw [hentry]
  cases entryOf s j with
  | none =>
    dsimp only
    rw [h]
  | some i => rfl

theorem TableOk.set (h : TableOk s) (hx : SameEntry (s.itable ip) x) :
    TableOk { s with itable := Function.update s.itable ip x } := by
  have hsame : ∀ i, (Function.update s.itable ip x i).dev = (s.itable i).dev ∧
      (Function.update s.itable ip x i).inum = (s.itable i).inum ∧
      (Function.update s.itable ip x i).ref = (s.itable i).ref := by
    intro i
    by_cases hi : i = ip
    · subst hi
      rw [Function.update_self]
      exact ⟨hx.dev, hx.inum, hx.ref⟩
    · rw [Function.update_of_ne hi]
      exact ⟨rfl, rfl, rfl⟩
  refine ⟨fun i hi j hj hri hrj hdev hinum => ?_, fun i hi href => ?_⟩
  · dsimp only at hri hrj hdev hinum
    rw [(hsame i).2.2] at hri
    rw [(hsame j).2.2] at hrj
    rw [(hsame i).1, (hsame j).1] at hdev
    rw [(hsame i).2.1, (hsame j).2.1] at hinum
    exact h.distinct i hi j hj hri hrj hdev hinum
  · dsimp only at href ⊢
    rw [(hsame i).2.2] at href
    rw [(hsame i).1]
    exact h.dev i hi href

theorem isInode_congr (hsb : s'.sb = s.sb)
    (h : j < s.sb.ninodes → (inoOf s' j).type = (inoOf s j).type) :
    IsInode s' j ↔ IsInode s j := by
  unfold IsInode
  rw [hsb]
  constructor
  · rintro ⟨h1, h2, h3⟩
    exact ⟨h1, h2, by rwa [← h h2]⟩
  · rintro ⟨h1, h2, h3⟩
    exact ⟨h1, h2, by rwa [h h2]⟩

/-! ## Block numbers -/

/-- The block numbers of an inode are in the inode and in its indirect block. -/
theorem refOf_congr (hino : inoOf s' j = inoOf s j)
    (hdisk : indOf s j ≠ 0 → s'.bio.disk (indOf s j) = s.bio.disk (indOf s j))
    (m : Nat) : refOf s' j m = refOf s j m := by
  unfold refOf refAt
  rw [hino]
  split
  · rfl
  · split
    · rfl
    · rename_i hind
      exact congrArg (fun d => indirectAt d _) (hdisk hind)

namespace FsOk

theorem ref (h : FsOk s) (hi : IsInode s inum) (hk : k < SLOTS) (h0 : refOf s inum k ≠ 0) :
    nmeta s.sb ≤ refOf s inum k ∧ refOf s inum k < s.sb.size ∧ used s (refOf s inum k) = true := by
  have hp := place_of hi hk
  rw [← hp] at h0 ⊢
  have hrange := h.owned.range _ h0
  exact ⟨hrange.1, hrange.2, h.owned.marked _ h0⟩

theorem ref_inj (h : FsOk s) (hi : IsInode s inum) (hj : IsInode s j) (hk : k < SLOTS)
    (hm : m < SLOTS) (h0 : refOf s inum k ≠ 0) (heq : refOf s inum k = refOf s j m) : inum = j ∧
    k = m := by
  rw [← place_of hi hk] at h0
  rw [← place_of hi hk, ← place_of hj hm] at heq
  have := h.owned.one _ _ h0 heq
  exact ⟨congrArg Prod.fst this, congrArg Prod.snd this⟩

theorem ind (h : FsOk s) (hi : IsInode s inum) (h0 : indOf s inum ≠ 0) :
    nmeta s.sb ≤ indOf s inum ∧ indOf s inum < s.sb.size ∧ used s (indOf s inum) = true := by
  rw [← refOf_ind] at h0 ⊢
  exact h.ref hi (by decide) h0

/-- Two indirect blocks are those of one inode. -/
theorem ind_inj (h : FsOk s) (hi : IsInode s inum) (hj : IsInode s j) (h0 : indOf s inum ≠ 0)
    (heq : indOf s inum = indOf s j) : inum = j := by
  rw [← refOf_ind] at h0
  rw [← refOf_ind, ← refOf_ind] at heq
  exact (h.ref_inj hi hj (by decide) (by decide) h0 heq).1

theorem map (h : FsOk s) (hroom : Room u) (hcache : CacheOk u)
    (hsince : ∀ b, Clean s.bio b → Clean u b)
    (hdisk : u.disk = s.bio.disk) : MapOk { s with bio := u } := by
  refine ⟨hcache, hroom, fun b hb => hsince _ (h.clean _ (Or.inl (BBLOCK_lt hb))), fun b hb => ?_⟩
  have := h.metaUsed b hb
  unfold used at this ⊢
  dsimp only
  rwa [hdisk]

/-- A step that changes no inode and no block number. -/
theorem same (h : FsOk s) (hsb : s'.sb = s.sb) (hcache : CacheOk s'.bio) (hroom : Room2 s'.bio)
    (htable : TableOk s') (hino : ∀ j < s.sb.ninodes, inoOf s' j = inoOf s j)
    (hdisk : ∀ b, MetaBlock s b → s.sb.bmapstart ≤ b → s'.bio.disk b = s.bio.disk b)
    (hclean : ∀ b, MetaBlock s b → Clean s'.bio b) : FsOk s' := by
  have hinode : ∀ j, IsInode s' j ↔ IsInode s j :=
    fun j => isInode_congr hsb fun hj => by rw [hino j hj]
  have hstart : s.sb.bmapstart ≤ nmeta s.sb := bmapstart_le
  have href : ∀ j, IsInode s j → ∀ m, refOf s' j m = refOf s j m := by
    intro j hj m
    refine refOf_congr (hino j hj.2.1) (fun h0 => ?_) m
    have := (h.ind hj h0).1
    exact hdisk _ (Or.inr ⟨j, hj, h0, rfl⟩) (by omega)
  have hmeta : ∀ b, MetaBlock s' b → MetaBlock s b := by
    rintro b (hb | ⟨j, hj, h0, rfl⟩)
    · exact Or.inl (hsb ▸ hb)
    · have hj := (hinode j).mp hj
      have heq : indOf s' j = indOf s j := by
        rw [← refOf_ind, ← refOf_ind]
        exact href j hj _
      exact Or.inr ⟨j, hj, heq ▸ h0, heq.symm⟩
  have hused : ∀ b < s.sb.size, used s' b = used s b := by
    intro b hb
    unfold used
    rw [hsb, hdisk _ (Or.inl (BBLOCK_lt hb)) le_BBLOCK]
  refine ⟨hcache, hroom, hsb ▸ h.layout, htable, fun b hb => hclean b (hmeta b hb), fun b hb => ?_,
    ?_, fun j hj => ?_, fun j hj bn hbn => ?_⟩
  · rw [hsb] at hb
    rw [hused b (hb.trans_le h.layout.data)]
    exact h.metaUsed b hb
  · rw [hsb]
    apply h.owned.congr fun b _ hb => hused b hb
    rintro ⟨j, m⟩
    unfold place
    by_cases hp : IsInode s j ∧ m < SLOTS
    · rw [if_pos hp, if_pos ⟨(hinode j).mpr hp.1, hp.2⟩]
      exact href j hp.1 m
    · rw [if_neg hp, if_neg fun hc => hp ⟨(hinode j).mp hc.1, hc.2⟩]
  · have hj := (hinode j).mp hj
    rw [hino j hj.2.1]
    exact h.fits j hj
  · have hj := (hinode j).mp hj
    rw [hino j hj.2.1] at hbn
    unfold blkOf
    rw [href j hj]
    exact h.full j hj bn hbn

end FsOk

/-! ## A new block -/

/-- Place `k` of the inode got the block `a`, which was free. -/
structure Gains (s s' : Fs) (inum k a : Nat) : Prop where
  sb : s'.sb = s.sb
  data : nmeta s.sb ≤ a ∧ a < s.sb.size
  free : used s a = false
  others : ∀ j < s.sb.ninodes, j ≠ inum → inoOf s' j = inoOf s j
  same : (inoOf s' inum).type = (inoOf s inum).type ∧ (inoOf s' inum).size = (inoOf s inum).size
  empty : refOf s inum k = 0
  new : refOf s' inum k = a
  kept : ∀ j m, IsInode s j → m < SLOTS → (j ≠ inum ∨ m ≠ k) → refOf s' j m = refOf s j m
  marks : ∀ c < s.sb.size, used s' c = (decide (c = a) || used s c)

namespace Gains

theorem isInode (h : Gains s s' inum k a) (j : Nat) : IsInode s' j ↔ IsInode s j := by
  apply isInode_congr h.sb
  intro hj
  by_cases hji : j = inum
  · rw [hji, h.same.1]
  · rw [h.others j hj hji]

theorem nonzero (h : Gains s s' inum k a) : a ≠ 0 := by
  have h1 := h.data.1
  have h2 := @nmeta_pos s.sb
  omega

/-- A place that had a block has it still. -/
theorem ref (h : Gains s s' inum k a) (hj : IsInode s j) (hm : m < SLOTS) (h0 : refOf s j m ≠ 0) :
    refOf s' j m = refOf s j m := by
  refine h.kept j m hj hm (Classical.or_iff_not_imp_left.mpr fun hji hmk => h0 ?_)
  rw [not_not.mp hji, hmk, h.empty]

theorem fsOk (h : Gains s s' inum k a) (hok : FsOk s) (hi : IsInode s inum) (hk : k < SLOTS)
    (hcache : CacheOk s'.bio) (hroom : Room2 s'.bio) (htable : TableOk s')
    (hclean : ∀ b, MetaBlock s' b → Clean s'.bio b) : FsOk s' := by
  have hsb := h.sb
  refine ⟨hcache, hroom, hsb ▸ hok.layout, htable, hclean, fun b hb => ?_, ?_, fun j hj => ?_,
    fun j hj bn hbn => ?_⟩
  · rw [hsb] at hb
    rw [h.marks b (hb.trans_le hok.layout.data), hok.metaUsed b hb, Bool.or_true]
  · rw [hsb]
    have hplace : ∀ j m, (j ≠ inum ∨ m ≠ k) → place s' (j, m) = place s (j, m) := by
      intro j m hne
      unfold place
      by_cases hp : IsInode s j ∧ m < SLOTS
      · rw [if_pos hp, if_pos ⟨(h.isInode j).mpr hp.1, hp.2⟩]
        exact h.kept j m hp.1 hp.2 hne
      · rw [if_neg hp, if_neg fun hc => hp ⟨(h.isInode j).mp hc.1, hc.2⟩]
    apply hok.owned.alloc (i := (inum, k)) nmeta_pos h.data.1 h.data.2 h.free _ (fun c _ hc =>
      h.marks c hc)
    · rw [place_of ((h.isInode inum).mpr hi) hk, h.new]
    · rintro ⟨j, m⟩ hne
      apply hplace
      by_contra hc
      rw [not_or, not_not, not_not] at hc
      exact hne (by rw [hc.1, hc.2])
    · rw [place_of hi hk, h.empty]
  · have hj := (h.isInode j).mp hj
    by_cases hji : j = inum
    · rw [hji, h.same.1, h.same.2]
      exact hok.fits inum hi
    · rw [h.others j hj.2.1 hji]
      exact hok.fits j hj
  · have hj := (h.isInode j).mp hj
    have hbn' : bn * BSIZE < (inoOf s j).size := by
      by_cases hji : j = inum
      · rw [hji, h.same.2] at hbn
        rwa [hji]
      · rwa [h.others j hj.2.1 hji] at hbn
    have hblk := hok.full j hj bn hbn'
    have hlt : bn < MAXFILE := by
      have := (hok.fits j hj).2
      exact Nat.lt_of_mul_lt_mul_right (hbn'.trans_le this)
    unfold blkOf at hblk ⊢
    rwa [h.ref hj (slotOf_lt hlt) hblk]

end Gains

end ThuKernel
