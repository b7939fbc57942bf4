-- `bmap`: the block of a file, or a new one. The file keeps the blocks that it has, and
-- nothing of another file changes.
import ThuKernel.Fs.Steps

namespace ThuKernel

/-- What a change of inode `inum` leaves alone: all that the other inodes have. -/
structure SparesFiles (inum : Nat) (s s' : Fs) : Prop where
  sb : s'.sb = s.sb
  bio : Follows Set.univ s.bio s'.bio
  entries : ∀ i, SameEntry (s.itable i) (s'.itable i)
  entry : ∀ i, s'.itable i ≠ s.itable i → (s.itable i).inum = inum
  others : ∀ j < s.sb.ninodes, j ≠ inum → inoOf s' j = inoOf s j
  dinodes : ∀ j < s.sb.ninodes, j ≠ inum →
    dinode (s'.bio.disk (IBLOCK j s.sb)) j = dinode (s.bio.disk (IBLOCK j s.sb)) j
  type : (inoOf s' inum).type = (inoOf s inum).type
  foreign : ∀ j m, IsInode s j → j ≠ inum → m < SLOTS → refOf s' j m = refOf s j m
  data : ∀ j m, IsInode s j → j ≠ inum → m < SLOTS → refOf s j m ≠ 0 →
    s'.bio.disk (refOf s j m) = s.bio.disk (refOf s j m)
  clean : ∀ j m, IsInode s j → j ≠ inum → m < SLOTS → refOf s j m ≠ 0 → Clean s.bio (refOf s j m) →
    Clean s'.bio (refOf s j m)

/-- The inode keeps the blocks that it has. -/
structure Touches (inum : Nat) (s s' : Fs) : Prop extends SparesFiles inum s s' where
  own : ∀ m < SLOTS, refOf s inum m ≠ 0 → refOf s' inum m = refOf s inum m

/-- Inode `inum` may have got blocks that were free, and what it has is as before. -/
structure FileGrown (inum : Nat) (s s' : Fs) : Prop extends Touches inum s s' where
  size : (inoOf s' inum).size = (inoOf s inum).size
  inodes : ∀ b < s.sb.bmapstart, s'.bio.disk b = s.bio.disk b
  ownData : ∀ m < SLOTS, m ≠ NDIRECT → refOf s inum m ≠ 0 →
    s'.bio.disk (refOf s inum m) = s.bio.disk (refOf s inum m)
  ownClean : ∀ m < SLOTS, m ≠ NDIRECT → refOf s inum m ≠ 0 → Clean s.bio (refOf s inum m) →
    Clean s'.bio (refOf s inum m)
  fresh : ∀ m < SLOTS, m ≠ NDIRECT → refOf s inum m = 0 → refOf s' inum m ≠ 0 →
    Clean s'.bio (refOf s' inum m)

variable {E : Stop → Prop} {s s' s₁ s₂ : Fs} {ip inum j k m a b bn : Nat} {t u v : Bio}

namespace SparesFiles

theorem isInode (h : SparesFiles inum s s') (j : Nat) : IsInode s' j ↔ IsInode s j := by
  apply isInode_congr h.sb
  intro hj
  by_cases hji : j = inum
  · rw [hji, h.type]
  · rw [h.others j hj hji]

theorem entryOk (h : SparesFiles inum s s') (he : Entry s ip j) : Entry s' ip j := by
  obtain ⟨hdev, hinum, href, hv⟩ := h.entries ip
  exact ⟨he.lt, href ▸ he.ref, hv.trans he.valid, hdev.trans he.dev, hinum.trans he.num,
    (h.isInode j).mpr he.ino⟩

theorem refl : SparesFiles inum s s :=
  ⟨rfl, Since.refl _ _, fun _ => ⟨rfl, rfl, rfl, rfl⟩, fun _ h => absurd rfl h, fun _ _ _ => rfl,
    fun _ _ _ => rfl, rfl, fun _ _ _ _ _ => rfl, fun _ _ _ _ _ _ => rfl, fun _ _ _ _ _ _ h => h⟩

theorem trans (h : SparesFiles inum s s₁) (h' : SparesFiles inum s₁ s₂) :
    SparesFiles inum s s₂ := by
  have hsb := h.sb
  refine ⟨h'.sb.trans h.sb, h.bio.trans h'.bio, fun i => ?_, fun i hi => ?_, fun j hj hne => ?_,
    fun j hj hne => ?_,
    h'.type.trans h.type, fun j m hj hne hm => ?_, fun j m hj hne hm h0 => ?_,
    fun j m hj hne hm h0 hc => ?_⟩
  · obtain ⟨e1, e2, e3, e4⟩ := h.entries i
    obtain ⟨e1', e2', e3', e4'⟩ := h'.entries i
    exact ⟨e1'.trans e1, e2'.trans e2, e3'.trans e3, e4'.trans e4⟩
  · by_cases hsame : s₁.itable i = s.itable i
    · rw [← hsame]
      exact h'.entry i fun hc => hi (hc.trans hsame)
    · exact h.entry i hsame
  · rw [h'.others j (hsb ▸ hj) hne, h.others j hj hne]
  · have := h'.dinodes j (hsb ▸ hj) hne
    rw [hsb] at this
    rw [this, h.dinodes j hj hne]
  · rw [h'.foreign j m ((h.isInode j).mpr hj) hne hm, h.foreign j m hj hne hm]
  · have h1 := h.foreign j m hj hne hm
    have h2 := h'.data j m ((h.isInode j).mpr hj) hne hm (h1 ▸ h0)
    rw [h1] at h2
    rw [h2, h.data j m hj hne hm h0]
  · have h1 := h.foreign j m hj hne hm
    have h2 := h'.clean j m ((h.isInode j).mpr hj) hne hm (h1 ▸ h0)
    rw [h1] at h2
    exact h2 (h.clean j m hj hne hm h0 hc)

end SparesFiles

namespace Touches

theorem refl : Touches inum s s := ⟨SparesFiles.refl, fun _ _ _ => rfl⟩

theorem trans (h : Touches inum s s₁) (h' : Touches inum s₁ s₂) : Touches inum s s₂ := by
  refine ⟨h.toSparesFiles.trans h'.toSparesFiles, fun m hm h0 => ?_⟩
  have h1 := h.own m hm h0
  rw [h'.own m hm (h1 ▸ h0), h1]

end Touches

namespace FileGrown

theorem refl : FileGrown inum s s :=
  ⟨Touches.refl, rfl, fun _ _ => rfl, fun _ _ _ _ => rfl, fun _ _ _ _ h => h,
    fun _ _ _ h0 h => absurd h0 h⟩

theorem trans (h : FileGrown inum s s₁) (h' : FileGrown inum s₁ s₂) : FileGrown inum s s₂ := by
  have hsb := h.sb
  refine ⟨h.toTouches.trans h'.toTouches, h'.size.trans h.size, fun b hb => ?_,
    fun m hm hind h0 => ?_, fun m hm hind h0 hc => ?_, fun m hm hind h0 hnew => ?_⟩
  · rw [h'.inodes b (hsb ▸ hb), h.inodes b hb]
  · have h1 := h.own m hm h0
    have h2 := h'.ownData m hm hind (h1 ▸ h0)
    rw [h1] at h2
    rw [h2, h.ownData m hm hind h0]
  · have h1 := h.own m hm h0
    have h2 := h'.ownClean m hm hind (h1 ▸ h0)
    rw [h1] at h2
    exact h2 (h.ownClean m hm hind h0 hc)
  · by_cases h1 : refOf s₁ inum m = 0
    · exact h'.fresh m hm hind h1 hnew
    · rw [h'.own m hm h1]
      exact h'.ownClean m hm hind h1 (h.fresh m hm hind h0 h1)

end FileGrown

/-! ## A block number of the inode -/

/-- The entry with block `a` at place `k`. -/
def withAddr (x : inode) (k a : Nat) : inode := { x with addrs := Function.update x.addrs k a }

theorem addrsOf_update {addrs : Nat → Nat} (hk : k ≤ NDIRECT) :
    addrsOf (Function.update addrs k a) = Function.update (addrsOf addrs) k a := by
  funext i
  unfold addrsOf
  by_cases hi : i = k
  · rw [hi, if_pos hk, Function.update_self, Function.update_self]
  · rw [Function.update_of_ne hi, Function.update_of_ne hi]

theorem FsOk.mapOk (h : FsOk s) : MapOk s :=
  ⟨h.cache, h.room.room, fun _ hb => h.clean _ (Or.inl (BBLOCK_lt hb)), h.metaUsed⟩

/-- The blocks that `balloc` touches are neither in use nor before the free map. -/
theorem Balloced.keeps (h : Balloced s a u) (hm : MapOk s)
    (hb : b < s.sb.bmapstart ∨ nmeta s.sb ≤ b ∧ used s b = true) :
    b ∉ ({BBLOCK a s.sb, a} : Set Nat) := by
  have h1 := h.data hm
  have h2 := BBLOCK_lt h.lt
  have h3 := @le_BBLOCK s.sb a
  have h4 := @bmapstart_le s.sb
  rintro (hc | hc)
  · omega
  · have hc : b = a := hc
    subst hc
    rcases hb with hb | ⟨_, hb⟩
    · omega
    · rw [h.free] at hb
      cases hb

theorem newAddr_ino (hok : FsOk s) (he : Entry s ip inum) (hk : k ≤ NDIRECT) (h : Balloced s a u)
    (hj : j < s.sb.ninodes) :
    inoOf { s with bio := u, itable := Function.update s.itable ip (withAddr (s.itable ip) k a) }
    j =
      if j = inum then { inoOf s inum with addrs := Function.update (inoOf s inum).addrs k a } else
        inoOf s j := by
  have hblock := h.since.disk _ (h.keeps hok.mapOk (Or.inl (IBLOCK_lt hok.layout hj)))
  have hbio := inoOf_bio hblock
  have hset := @inoOf_set { s with bio := u } ip inum (withAddr (s.itable ip) k a)
    (he.entryOf hok.table) ⟨rfl, rfl, rfl, rfl⟩ j
  rw [hbio] at hset
  refine hset.trans ?_
  by_cases hji : j = inum
  · rw [if_pos hji, if_pos hji, he.inoOf hok.table]
    unfold withAddr inode.ino
    dsimp only
    rw [addrsOf_update hk]
  · rw [if_neg hji, if_neg hji]

/-- A free block in a place, when the blocks in use are left alone. -/
theorem Gains.grown (h : Gains s s' inum k a) (hok : FsOk s) (hi : IsInode s inum)
    (hbio : Follows Set.univ s.bio s'.bio) (hentries : ∀ i, SameEntry (s.itable i) (s'.itable i))
    (hentry : ∀ i, s'.itable i ≠ s.itable i → (s.itable i).inum = inum)
    (hinodes : ∀ b < s.sb.bmapstart, s'.bio.disk b = s.bio.disk b)
    (hdata : ∀ b, nmeta s.sb ≤ b → used s b = true → b ≠ indOf s inum →
    s'.bio.disk b = s.bio.disk b)
    (hclean : ∀ b, nmeta s.sb ≤ b → used s b = true → b ≠ indOf s inum → Clean s.bio b →
    Clean s'.bio b)
    (hfresh : Clean s'.bio a) : FileGrown inum s s' := by
  have hne : ∀ j m, IsInode s j → m < SLOTS → (j ≠ inum ∨ m ≠ NDIRECT) → refOf s j m ≠ 0 →
      refOf s j m ≠ indOf s inum := by
    intro j m hj hm hout h0 hc
    rw [← refOf_ind] at hc
    obtain ⟨h1, h2⟩ := hok.ref_inj hj hi hm (by decide) h0 hc
    exact hout.elim (fun hc => hc h1) fun hc => hc h2
  refine ⟨⟨⟨h.sb, hbio, hentries, hentry, h.others, fun j hj _ => ?_, h.same.1,
    fun j m hj hne hm => h.kept j m hj hm (Or.inl hne),
    fun j m hj hji hm h0 => ?_, fun j m hj hji hm h0 => ?_⟩, fun m hm h0 => h.ref hi hm h0⟩,
    h.same.2, hinodes, fun m hm hind h0 => ?_, fun m hm hind h0 => ?_, fun m hm _ h0 hnew => ?_⟩
  · rw [hinodes _ (IBLOCK_lt hok.layout hj)]
  · obtain ⟨h1, _, h3⟩ := hok.ref hj hm h0
    exact hdata _ h1 h3 (hne j m hj hm (Or.inl hji) h0)
  · obtain ⟨h1, _, h3⟩ := hok.ref hj hm h0
    exact hclean _ h1 h3 (hne j m hj hm (Or.inl hji) h0)
  · obtain ⟨h1, _, h3⟩ := hok.ref hi hm h0
    exact hdata _ h1 h3 (hne inum m hi hm (Or.inr hind) h0)
  · obtain ⟨h1, _, h3⟩ := hok.ref hi hm h0
    exact hclean _ h1 h3 (hne inum m hi hm (Or.inr hind) h0)
  · by_cases hmk : m = k
    · rwa [hmk, h.new]
    · rw [h.kept inum m hi hm (Or.inr hmk)] at hnew
      exact absurd h0 hnew

theorem newAddr_gains (hok : FsOk s) (he : Entry s ip inum) (hk : k ≤ NDIRECT)
    (h0 : (s.itable ip).addrs k = 0) (h : Balloced s a u) :
    Gains s { s with bio := u, itable := Function.update s.itable ip (withAddr (s.itable ip) k a) }
    inum k a := by
  have hino := fun {j} (hj : j < s.sb.ninodes) => newAddr_ino hok he hk h hj
  have hown := hino he.ino.2.1
  rw [if_pos rfl] at hown
  have hempty : refOf s inum k = 0 := by
    rw [refOf_of_le hk, ← he.addrs hok.table hk, h0]
  refine ⟨rfl, ⟨h.data hok.mapOk, h.lt⟩, h.free,
    fun j hj hne => by rw [hino hj, if_neg hne], by rw [hown]; exact ⟨rfl, rfl⟩,
    hempty, ?_, fun j m hj hm hne => ?_, fun c hc => h.marks hok.mapOk c hc⟩
  · rw [refOf_of_le hk, hown]
    dsimp only
    rw [Function.update_self]
  · -- The indirect blocks are as before.
    have hdisk : indOf s j ≠ 0 → u.disk (indOf s j) = s.bio.disk (indOf s j) := by
      intro hind
      obtain ⟨h1, _, h3⟩ := hok.ind hj hind
      exact h.since.disk _ (h.keeps hok.mapOk (Or.inr ⟨h1, h3⟩))
    by_cases hji : j = inum
    · subst hji
      have hmk : m ≠ k := hne.resolve_left fun hc => hc rfl
      by_cases hle : m ≤ NDIRECT
      · rw [refOf_of_le hle, refOf_of_le hle, hown]
        dsimp only
        rw [Function.update_of_ne hmk]
      · by_cases hkind : k = NDIRECT
        · -- The new block is the indirect one, and it is clear.
          subst hkind
          rw [refOf_ind] at hempty
          have hind :
            indOf { s with
              bio := u
              itable := Function.update s.itable ip (withAddr (s.itable ip) NDIRECT a) } j = a := by
            unfold indOf
            rw [hown]
            dsimp only
            rw [Function.update_self]
          have hpos : a ≠ 0 := by
            have h1 := h.data hok.mapOk
            have h2 := @nmeta_pos s.sb
            omega
          rw [refOf_of_no_ind (by omega) hempty, refOf_of_ind (by omega) (by rw [hind]; exact hpos),
            hind]
          apply Bytes.getLE_zero
          intro i hi
          apply h.zero
          unfold SLOTS NINDIRECT BSIZE at hm
          unfold BSIZE
          omega
        · have hind :
            indOf { s with
              bio := u
              itable := Function.update s.itable ip (withAddr (s.itable ip) k a) } j =
                indOf s j := by
            unfold indOf
            rw [hown]
            dsimp only
            rw [Function.update_of_ne (Ne.symm hkind)]
          by_cases hz : indOf s j = 0
          · rw [refOf_of_no_ind (by omega) hz, refOf_of_no_ind (by omega) (hind.trans hz)]
          · rw [refOf_of_ind (by omega) hz, refOf_of_ind (by omega) (by rwa [hind]), hind]
            exact congrArg (fun d => indirectAt d _) (hdisk hz)
    · exact refOf_congr (by rw [hino hj.2.1, if_neg hji]) hdisk m

theorem newAddr_grown (hok : FsOk s) (he : Entry s ip inum) (hk : k ≤ NDIRECT)
    (h0 : (s.itable ip).addrs k = 0) (h : Balloced s a u) :
    FileGrown inum s
    { s with bio := u, itable := Function.update s.itable ip (withAddr (s.itable ip) k a) } ∧
      FsOk { s with
        bio := u
        itable := Function.update s.itable ip (withAddr (s.itable ip) k a) } := by
  have hgains := newAddr_gains hok he hk h0 h
  have hkeeps : ∀ b, b < s.sb.bmapstart ∨ nmeta s.sb ≤ b ∧ used s b = true →
      b ∉ ({BBLOCK a s.sb, a} : Set Nat) :=
    fun b hb => h.keeps hok.mapOk hb
  have hentry : ∀ i, i ≠ ip → Function.update s.itable ip (withAddr (s.itable ip) k a) i =
      s.itable i :=
    fun i hi => Function.update_of_ne hi ..
  constructor
  · apply hgains.grown hok he.ino (h.since.mono (Set.subset_univ _))
    · intro i
      by_cases hi : i = ip
      · subst hi
        dsimp only
        rw [Function.update_self]
        exact ⟨rfl, rfl, rfl, rfl⟩
      · dsimp only
        rw [hentry i hi]
        exact ⟨rfl, rfl, rfl, rfl⟩
    · intro i hi
      by_contra hc
      exact hi (hentry i fun hip => hc (hip ▸ he.num))
    · exact fun b hb => h.since.disk b (hkeeps b (Or.inl hb))
    · exact fun b hlo hu _ => h.since.disk b (hkeeps b (Or.inr ⟨hlo, hu⟩))
    · exact fun b hlo hu _ hc => h.since.clean b (hkeeps b (Or.inr ⟨hlo, hu⟩)) hc
    · exact h.clean
  · apply hgains.fsOk hok he.ino (by unfold SLOTS; omega) h.cache (h.since.room2 hok.room)
    · exact TableOk.set (s := { s with bio := u }) ⟨hok.table.distinct, hok.table.dev⟩ ⟨rfl,
        rfl, rfl, rfl⟩
    · rintro b (hb | ⟨j, hj, hind, rfl⟩)
      · by_cases hmap : b = BBLOCK a s.sb
        · rw [hmap]
          exact h.cleanMap
        · refine h.since.clean b ?_ (hok.clean b (Or.inl hb))
          have := h.data hok.mapOk
          rintro (hc | hc)
          · exact hmap hc
          · have hc : b = a := hc
            have hb : b < nmeta s.sb := hb
            omega
      · have hj := (hgains.isInode j).mp hj
        by_cases hnew : j = inum ∧ k = NDIRECT
        · obtain ⟨rfl, rfl⟩ := hnew
          rw [← refOf_ind, hgains.new]
          exact h.clean
        · have hsame :
            indOf { s with
              bio := u
              itable := Function.update s.itable ip (withAddr (s.itable ip) k a) } j =
                indOf s j := by
            rw [← refOf_ind, ← refOf_ind]
            refine hgains.kept j _ hj (by decide) ?_
            rw [← not_and_or]
            exact fun hc => hnew ⟨hc.1, hc.2.symm⟩
          rw [hsame] at hind ⊢
          obtain ⟨h1, _, h3⟩ := hok.ind hj hind
          exact h.since.clean _ (hkeeps _ (Or.inr ⟨h1, h3⟩))
            (hok.clean _ (Or.inr ⟨j, hj, hind, rfl⟩))

/-- What `bmap` gives: the block at the place, which is new if there was none. -/
structure Bmapped (s s' : Fs) (inum k a : Nat) : Prop where
  ok : FsOk s'
  grown : FileGrown inum s s'
  block : refOf s' inum k = a
  nonzero : a ≠ 0

theorem bmapAddr_runs (hok : FsOk s) (he : Entry s ip inum) (hk : k ≤ NDIRECT) :
    Runs OutOfBlocks (bmapAddr ip k) s fun a s' => Bmapped s s' inum k a ∧
    (refOf s inum k ≠ 0 → s' = s) := by
  have href : refOf s inum k = (s.itable ip).addrs k := by
    rw [refOf_of_le hk, he.addrs hok.table hk]
  unfold bmapAddr
  rw [Runs.bind_iff, runs_getInode]
  split
  · rename_i h0
    rw [he.dev]
    refine (balloc_runs hok.mapOk).bind ?_
    rintro a _ ⟨u, rfl, h⟩
    rw [Runs.bind_iff, runs_getInode, Runs.bind_iff, runs_setInode, Runs.pure_iff]
    obtain ⟨hgrown, hok'⟩ := newAddr_grown hok he hk h0 h
    have hgains := newAddr_gains hok he hk h0 h
    exact ⟨⟨hok', hgrown, hgains.new, hgains.nonzero⟩, fun hc => absurd (href.trans h0) hc⟩
  · rename_i h0
    exact ⟨⟨hok, FileGrown.refl, href, h0⟩, fun _ => rfl⟩

/-! ## A block number of the indirect block -/

section Indirect

/-- What the new block number in the indirect block changes. The block was taken by
`balloc` in the state `t`, with the indirect block held, and `v` is the state after it. -/
theorem newIndirect_gains (hok : FsOk s) (hi : IsInode s inum) (hind : indOf s inum ≠ 0)
    (h0 : indirectAt (s.bio.disk (indOf s inum)) bn = 0) (ht : t.disk = s.bio.disk)
    (hm : MapOk { s with bio := t }) (h : Balloced { s with bio := t } a v)
    (hu : u.disk = Function.update v.disk (indOf s inum)
    (setIndirect (s.bio.disk (indOf s inum)) bn a)) :
    Gains s { s with bio := u } inum (NDIRECT + 1 + bn) a := by
  have hused : ∀ b, used { s with bio := t } b = used s b := by
    intro b
    unfold used
    dsimp only
    rw [ht]
  have hkeeps : ∀ b, b < s.sb.bmapstart ∨ nmeta s.sb ≤ b ∧ used s b = true → b ≠ indOf s inum →
      u.disk b = s.bio.disk b := by
    intro b hb hne
    rw [hu, Function.update_of_ne hne, h.since.disk b (h.keeps hm (by rwa [hused]))]
    exact congrFun ht b
  obtain ⟨hlo, hhi, hmarked⟩ := hok.ind hi hind
  have hstart := @bmapstart_le s.sb
  have hino : ∀ j < s.sb.ninodes, inoOf { s with bio := u } j = inoOf s j := by
    intro j hj
    have hlt := IBLOCK_lt hok.layout hj
    exact inoOf_bio (hkeeps _ (Or.inl hlt) (by omega))
  have hsame : indOf { s with bio := u } inum = indOf s inum := by
    unfold indOf
    rw [hino inum hi.2.1]
  have hread : u.disk (indOf s inum) = setIndirect (s.bio.disk (indOf s inum)) bn a := by
    rw [hu, Function.update_self]
  have hat : ∀ m, NDIRECT < m → refOf { s with bio := u } inum m =
      indirectAt (setIndirect (s.bio.disk (indOf s inum)) bn a) (m - (NDIRECT + 1)) := by
    intro m hm
    rw [refOf_of_ind hm (by rwa [hsame]), hsame]
    dsimp only
    rw [hread]
  have hsub : NDIRECT + 1 + bn - (NDIRECT + 1) = bn := by omega
  refine ⟨rfl, ⟨h.data hm, h.lt⟩, (hused a).symm.trans h.free, fun j hj _ => hino j hj, ?_, ?_, ?_,
    fun j m hj hm' hne => ?_, fun c hc => ?_⟩
  · rw [hino inum hi.2.1]
    exact ⟨rfl, rfl⟩
  · rw [refOf_of_ind (by omega) hind, hsub, h0]
  · rw [hat _ (by omega), hsub]
    exact Bytes.get32_put32 (h.lt.trans_le hok.layout.small)
  · by_cases hji : j = inum
    · subst hji
      by_cases hle : m ≤ NDIRECT
      · rw [refOf_of_le hle, refOf_of_le hle, hino j hj.2.1]
      · have hmk := hne.resolve_left fun hc => hc rfl
        rw [hat m (by omega), refOf_of_ind (by omega) hind]
        exact Bytes.get32_put32_ne (by omega)
    · refine refOf_congr (hino j hj.2.1) (fun hz => ?_) m
      obtain ⟨h1, _, h3⟩ := hok.ind hj hz
      exact hkeeps _ (Or.inr ⟨h1, h3⟩) fun hc => hji (hok.ind_inj hj hi hz hc)
  · have hne : BBLOCK c s.sb ≠ indOf s inum := by
      have := BBLOCK_lt hc
      omega
    have hmarks := h.marks hm c hc
    rw [hused] at hmarks
    rw [← hmarks]
    unfold used
    dsimp only
    rw [hu, Function.update_of_ne hne]

theorem newIndirect_grown (hok : FsOk s) (hi : IsInode s inum) (hind : indOf s inum ≠ 0)
    (hbn : bn < NINDIRECT) (h0 : indirectAt (s.bio.disk (indOf s inum)) bn = 0)
    (ht : t.disk = s.bio.disk) (hm : MapOk { s with bio := t })
    (h : Balloced { s with bio := t } a v)
    (hu : u.disk = Function.update v.disk (indOf s inum)
    (setIndirect (s.bio.disk (indOf s inum)) bn a)) (hcache : CacheOk u)
    (hsince : Follows Set.univ s.bio u) (hclean : ∀ b, Clean s.bio b → Clean t b)
    (hclean' : ∀ b, Clean v b → Clean u b) (hnew : Clean u (indOf s inum)) :
    FileGrown inum s { s with bio := u } ∧ FsOk { s with bio := u } := by
  have hgains := newIndirect_gains hok hi hind h0 ht hm h hu
  have hused : ∀ b, used { s with bio := t } b = used s b := by
    intro b
    unfold used
    dsimp only
    rw [ht]
  obtain ⟨hlo, hhi, hmarked⟩ := hok.ind hi hind
  have hstart := @bmapstart_le s.sb
  have hkeeps : ∀ b, b < s.sb.bmapstart ∨ nmeta s.sb ≤ b ∧ used s b = true →
      b ∉ ({BBLOCK a s.sb, a} : Set Nat) :=
    fun b hb => h.keeps hm (by rwa [hused])
  have hkeepDisk : ∀ b, b < s.sb.bmapstart ∨ nmeta s.sb ≤ b ∧ used s b = true → b ≠ indOf s inum →
      u.disk b = s.bio.disk b := by
    intro b hb hne
    rw [hu, Function.update_of_ne hne, h.since.disk b (hkeeps b hb)]
    exact congrFun ht b
  have hkeepClean : ∀ b ∉ ({BBLOCK a s.sb, a} : Set Nat), Clean s.bio b → Clean u b :=
    fun b hb hc => hclean' b (h.since.clean b hb (hclean b hc))
  have hsame : ∀ j, IsInode s j → indOf { s with bio := u } j = indOf s j := by
    intro j hj
    rw [← refOf_ind, ← refOf_ind]
    refine hgains.kept j _ hj (by decide) (Or.inr ?_)
    omega
  constructor
  · apply hgains.grown hok hi hsince
    · exact fun i => ⟨rfl, rfl, rfl, rfl⟩
    · exact fun i hne => absurd rfl hne
    · exact fun b hb => hkeepDisk b (Or.inl hb) (by omega)
    · exact fun b hb hu hne => hkeepDisk b (Or.inr ⟨hb, hu⟩) hne
    · exact fun b hb hu _ hc => hkeepClean b (hkeeps b (Or.inr ⟨hb, hu⟩)) hc
    · exact hclean' a h.clean
  · apply hgains.fsOk hok hi (by unfold SLOTS; omega) hcache (hsince.room2 hok.room)
    · exact ⟨hok.table.distinct, hok.table.dev⟩
    · rintro b (hb | ⟨j, hj, hz, rfl⟩)
      · by_cases hmap : b = BBLOCK a s.sb
        · rw [hmap]
          exact hclean' _ h.cleanMap
        · refine hkeepClean b ?_ (hok.clean b (Or.inl hb))
          have := h.data hm
          rintro (hc | hc)
          · exact hmap hc
          · have hc : b = a := hc
            have hb : b < nmeta s.sb := hb
            have this : nmeta s.sb ≤ a := this
            omega
      · have hj := (hgains.isInode j).mp hj
        rw [hsame j hj] at hz ⊢
        by_cases hji : j = inum
        · rw [hji]
          exact hnew
        · obtain ⟨h1, _, h3⟩ := hok.ind hj hz
          exact hkeepClean _ (hkeeps _ (Or.inr ⟨h1, h3⟩)) (hok.clean _ (Or.inr ⟨j, hj, hz, rfl⟩))

end Indirect

/-! ## bmap -/

/-- Only the cache changed. -/
structure Cached (t u : Bio) : Prop where
  cache : CacheOk u
  since : Follows ∅ t u
  disk : u.disk = t.disk

theorem Cached.refl (h : CacheOk t) : Cached t t := ⟨h, Since.refl _ _, rfl⟩

theorem Cached.trans (h : Cached t u) (h' : Cached u v) : Cached t v :=
  ⟨h'.cache, h.since.trans h'.since, h'.disk.trans h.disk⟩

/-- The image is the same with the cache changed. -/
theorem Cached.refOf (h : Cached s.bio u) (j m : Nat) :
    refOf { s with bio := u } j m = refOf s j m := by
  exact refOf_congr (inoOf_bio (congrFun h.disk _)) (fun _ => congrFun h.disk _) m

theorem Cached.inoOf (h : Cached s.bio u) (j : Nat) : inoOf { s with bio := u } j = inoOf s j :=
  inoOf_bio (congrFun h.disk _)

theorem Cached.grown (h : Cached s.bio u) : FileGrown inum s { s with bio := u } := by
  have hclean : ∀ b, Clean s.bio b → Clean u b :=
    fun b hc => h.since.clean b (Set.notMem_empty b) hc
  refine ⟨⟨⟨rfl, h.since.mono (Set.subset_univ _), fun _ => ⟨rfl, rfl, rfl, rfl⟩,
    fun _ hne => absurd rfl hne,
    fun j _ _ => h.inoOf j,
    fun j _ _ => by rw [h.disk], by rw [h.inoOf], fun j m _ _ _ => h.refOf j m,
    fun _ _ _ _ _ _ => congrFun h.disk _, fun _ _ _ _ _ _ => hclean _⟩,
    fun m _ _ => h.refOf inum m⟩, by rw [h.inoOf], fun b _ => congrFun h.disk b,
    fun _ _ _ _ => congrFun h.disk _, fun _ _ _ _ => hclean _,
    fun m _ _ h0 hne => absurd ((h.refOf inum m).trans h0) hne⟩

theorem Cached.fsOk (h : Cached s.bio u) (hok : FsOk s) : FsOk { s with bio := u } :=
  hok.same rfl h.cache (h.since.room2 hok.room) ⟨hok.table.distinct, hok.table.dev⟩
    (fun j _ => h.inoOf j) (fun b _ _ => congrFun h.disk b)
    fun b hb => h.since.clean b (Set.notMem_empty b) (hok.clean b hb)

/-- An indirect block that is read. -/
theorem bread_indirect (hok : FsOk s) (hi : IsInode s inum) (hind : indOf s inum ≠ 0) :
    Runs E (onBio (bread ROOTDEV (indOf s inum))) s fun bp s' => ∃ t, s' = { s with bio := t } ∧
      Held ∅ s.bio t bp (indOf s inum) ∧ t.disk = s.bio.disk ∧
      (t.core bp).data = s.bio.disk (indOf s inum) :=
  (onBread hok.cache hok.room.room _).imp fun _ _ ⟨t, h1, h2, h3, h4⟩ =>
    ⟨t, h1, h2, h3, h4 (hok.clean _ (Or.inr ⟨inum, hi, hind, rfl⟩))⟩

theorem bmapIndirect_runs (hok : FsOk s) (he : Entry s ip inum) (hind : indOf s inum ≠ 0)
    (hbn : bn < NINDIRECT) :
    Runs OutOfBlocks (bmapIndirect ip (indOf s inum) bn) s fun a s' =>
    Bmapped s s' inum (NDIRECT + 1 + bn) a := by
  have href : refOf s inum (NDIRECT + 1 + bn) = indirectAt (s.bio.disk (indOf s inum)) bn := by
    rw [refOf_of_ind (by omega) hind, Nat.add_sub_cancel_left]
  unfold bmapIndirect
  rw [Runs.bind_iff, runs_getInode, he.dev]
  refine (bread_indirect hok he.ino hind).bind ?_
  rintro bp _ ⟨t, rfl, hh, hdisk, hdata⟩
  rw [Runs.bind_iff, runs_bpData]
  dsimp only
  rw [hdata]
  split
  · rename_i h0
    have hclean : ∀ b, Clean s.bio b → Clean t b :=
      fun b hc => hh.since.clean b (Set.notMem_empty b) hc
    have hm : MapOk { s with bio := t } :=
      hok.map (hh.since.room_of_room2 hok.room) hh.cache hclean hdisk
    refine (balloc_runs hm).bind ?_
    rintro a _ ⟨v, rfl, h⟩
    obtain ⟨hlo, hhi, hmarked⟩ := hok.ind he.ino hind
    have hne : indOf s inum ∉ ({BBLOCK a s.sb, a} : Set Nat) := by
      apply h.keeps hm (Or.inr ⟨hlo, ?_⟩)
      unfold used
      dsimp only
      rw [hdisk]
      exact hmarked
    have hsame : (v.core bp).data = s.bio.disk (indOf s inum) :=
      (h.since.data hh.has hne).trans hdata
    have hh' : Held Set.univ s.bio v bp (indOf s inum) :=
      ⟨h.cache, (hh.since.mono (Set.subset_univ _)).trans (h.since.mono (Set.subset_univ _)),
        h.since.hasBlock hh.has⟩
    simp only [Runs.bind_iff, runs_bpData, runs_setBpData, runs_bwrite, runs_brelse, Runs.pure_iff]
    rw [hsame]
    obtain ⟨h1, h2, h3, h4, h5⟩ :=
      hh'.write (d := setIndirect (s.bio.disk (indOf s inum)) bn a) (Set.mem_univ _)
    have hgains := newIndirect_gains hok he.ino hind h0 hdisk hm h h3
    obtain ⟨hgrown, hok'⟩ := newIndirect_grown hok he.ino hind hbn h0 hdisk hm h h3 h1
      h2 hclean h5 h4
    exact ⟨hok', hgrown, hgains.new, hgains.nonzero⟩
  · rename_i h0
    rw [Runs.bind_iff, runs_brelse, Runs.pure_iff]
    obtain ⟨h1, h2, h3, _⟩ := hh.read hdisk
    have hc : Cached s.bio (t.release bp) := ⟨h1, h2, h3⟩
    exact ⟨hc.fsOk hok, hc.grown, (hc.refOf inum _).trans href, h0⟩

theorem Bmapped.trans {c k' : Nat} (h : Bmapped s s₁ inum k a) (h' : Bmapped s₁ s₂ inum k' c) :
    Bmapped s s₂ inum k' c :=
  ⟨h'.ok, h.grown.trans h'.grown, h'.block, h'.nonzero⟩

/-- The file has the block `bn` afterwards, new or not. -/
theorem bmap_runs (hok : FsOk s) (he : Entry s ip inum) (hbn : bn < MAXFILE) :
    Runs OutOfBlocks (bmap ip bn) s fun a s' => Bmapped s s' inum (slotOf bn) a := by
  unfold bmap
  by_cases hdirect : bn < NDIRECT
  · rw [if_pos hdirect]
    have hslot : slotOf bn = bn := if_pos hdirect
    rw [hslot]
    exact (bmapAddr_runs hok he (by omega)).imp fun _ _ h => h.1
  · have hlt : bn - NDIRECT < NINDIRECT := by
      unfold MAXFILE at hbn
      omega
    have hslot : slotOf bn = NDIRECT + 1 + (bn - NDIRECT) := by
      unfold slotOf
      rw [if_neg hdirect]
      omega
    rw [if_neg hdirect, if_pos hlt, hslot]
    refine (bmapAddr_runs hok he (Nat.le_refl _)).bind ?_
    rintro a s₁ ⟨h, _⟩
    have hind := h.block
    rw [refOf_ind] at hind
    subst hind
    exact (bmapIndirect_runs h.ok (h.grown.entryOk he) h.nonzero hlt).imp fun _ _ h' => h.trans h'

/-- A block that the file has is found, and only the cache changes. -/
theorem bmap_read (hok : FsOk s) (he : Entry s ip inum) (hbn : bn < MAXFILE)
    (h0 : blkOf s inum bn ≠ 0) :
    Runs E (bmap ip bn) s fun a s' => a = blkOf s inum bn ∧ ∃ u, s' = { s with bio := u } ∧
    Cached s.bio u := by
  have hskip : ∀ k ≤ NDIRECT, refOf s inum k ≠ 0 → Runs E (bmapAddr ip k) s fun a s' =>
      a = refOf s inum k ∧ s' = s := by
    intro k hk hne
    rw [refOf_of_le hk, ← he.addrs hok.table hk] at hne ⊢
    unfold bmapAddr
    rw [Runs.bind_iff, runs_getInode, if_neg hne, Runs.pure_iff]
    exact ⟨rfl, rfl⟩
  unfold blkOf at h0 ⊢
  unfold bmap
  by_cases hdirect : bn < NDIRECT
  · have hslot : slotOf bn = bn := if_pos hdirect
    rw [hslot] at h0 ⊢
    rw [if_pos hdirect]
    exact (hskip bn (by omega) h0).imp fun a s' h => ⟨h.1, s.bio, h.2, Cached.refl hok.cache⟩
  · have hlt : bn - NDIRECT < NINDIRECT := by
      unfold MAXFILE at hbn
      omega
    have hslot : slotOf bn = NDIRECT + 1 + (bn - NDIRECT) := by
      unfold slotOf
      rw [if_neg hdirect]
      omega
    rw [hslot] at h0 ⊢
    have hind : indOf s inum ≠ 0 := fun hz => h0 (refOf_of_no_ind (by omega) hz)
    rw [refOf_of_ind (by omega) hind, Nat.add_sub_cancel_left] at h0 ⊢
    rw [if_neg hdirect, if_pos hlt]
    have hfirst := hskip NDIRECT (Nat.le_refl _) (by rwa [refOf_ind])
    rw [refOf_ind] at hfirst
    refine hfirst.bind ?_
    rintro a _ ⟨rfl, rfl⟩
    unfold bmapIndirect
    rw [Runs.bind_iff, runs_getInode, he.dev]
    refine (bread_indirect hok he.ino hind).bind ?_
    rintro bp _ ⟨t, rfl, hh, hdisk, hdata⟩
    rw [Runs.bind_iff, runs_bpData]
    dsimp only
    rw [hdata, if_neg h0, Runs.bind_iff, runs_brelse, Runs.pure_iff]
    obtain ⟨h1, h2, h3, _⟩ := hh.read hdisk
    exact ⟨rfl, _, rfl, h1, h2, h3⟩

/-- A block that the file has needs no new one. -/
theorem bmap_gets (hok : FsOk s) (he : Entry s ip inum) (hbn : bn < MAXFILE) :
    Runs (fun e => OutOfBlocks e ∧ blkOf s inum bn = 0) (bmap ip bn) s fun a s' =>
    Bmapped s s' inum (slotOf bn) a := by
  have hruns := bmap_runs hok he hbn
  by_cases h0 : blkOf s inum bn = 0
  · exact hruns.mono (fun _ hb => ⟨hb, h0⟩) fun _ _ hm => hm
  · have hread := @bmap_read (fun _ => False) s ip inum bn hok he hbn h0
    exact (hruns.and hread).mono (fun _ hb => hb.2.elim) fun _ _ hm => hm.1

end ThuKernel
