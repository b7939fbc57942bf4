-- The table of inodes against the disk: an entry in use that was read is as its inode
-- on the disk, through `iget`, `idup`, `iput`, `ivalid` and `ialloc`.
import ThuKernel.Fs.Write

namespace ThuKernel

/-- The entries in use that were read are as on the disk. -/
def Stored (s : Fs) : Prop := ∀ i < NINODE, 0 < (s.itable i).ref → (s.itable i).valid = true →
  dinode (s.bio.disk (IBLOCK (s.itable i).inum s.sb)) (s.itable i).inum = (s.itable i).ino

/-- The invariant of the file system between two calls: the block invariant, and a table
with what the disk has. -/
structure Synced (s : Fs) : Prop where
  ok : FsOk s
  range : ∀ i < NINODE, 0 < (s.itable i).ref → 0 < (s.itable i).inum ∧
    (s.itable i).inum < s.sb.ninodes
  stored : Stored s
  typed : ∀ i < NINODE, 0 < (s.itable i).ref → (s.itable i).valid = true → (s.itable i).type ≠ 0

/-- Entries in use stay in use, for the same inode. -/
structure StaysOpen (s s' : Fs) : Prop where
  sb : s'.sb = s.sb
  entry : ∀ i, 0 < (s.itable i).ref → 0 < (s'.itable i).ref ∧ (s'.itable i).dev = (s.itable i).dev ∧
    (s'.itable i).inum = (s.itable i).inum ∧
    ((s.itable i).valid = true → (s'.itable i).valid = true)

/-- The panics for lack of room. -/
def NoRoom (e : Stop) : Prop :=
  OutOfBlocks e ∨ e = .panic "ialloc: no inodes" ∨ e = .panic "iget: no inodes"

variable {E : Stop → Prop} {s s' s₁ : Fs} {ip i j inum : Nat} {x : inode}
  {t : Nat → inode} {u : Bio}

namespace StaysOpen

theorem refl : StaysOpen s s := ⟨rfl, fun _ h => ⟨h, rfl, rfl, id⟩⟩

theorem trans (h : StaysOpen s s₁) (h' : StaysOpen s₁ s') : StaysOpen s s' := by
  refine ⟨h'.sb.trans h.sb, fun i hi => ?_⟩
  obtain ⟨a1, a2, a3, a4⟩ := h.entry i hi
  obtain ⟨b1, b2, b3, b4⟩ := h'.entry i a1
  exact ⟨b1, b2.trans a2, b3.trans a3, fun hv => b4 (a4 hv)⟩

end StaysOpen

theorem SparesFiles.holds (h : SparesFiles inum s s') : StaysOpen s s' := by
  refine ⟨h.sb, fun i hi => ?_⟩
  obtain ⟨h1, h2, h3, h4⟩ := h.entries i
  exact ⟨h3 ▸ hi, h1, h2, fun hv => h4.trans hv⟩

/-- Each inode is as on the disk. -/
theorem Stored.inoOf (h : Stored s) (j : Nat) :
    inoOf s j = dinode (s.bio.disk (IBLOCK j s.sb)) j := by
  unfold ThuKernel.inoOf
  cases hfind : entryOf s j with
  | none => rfl
  | some i =>
    obtain ⟨hi, href, hv, rfl⟩ := entryOf_some hfind
    exact (h i hi href hv).symm

namespace Synced

theorem entry (h : Synced s) (hi : i < NINODE) (href : 0 < (s.itable i).ref)
    (hv : (s.itable i).valid = true) :
    Entry s i (s.itable i).inum := by
  obtain ⟨h1, h2⟩ := h.range i hi href
  refine ⟨hi, href, hv, h.ok.table.dev i hi href, rfl, h1, h2, ?_⟩
  rw [h.stored.inoOf, h.stored i hi href hv]
  exact h.typed i hi href hv

/-- A change of the table alone. -/
theorem setTable (h : Synced s) (htable : TableOk { s with itable := t })
    (hrange : ∀ i < NINODE, 0 < (t i).ref → 0 < (t i).inum ∧ (t i).inum < s.sb.ninodes)
    (hstored : Stored { s with itable := t })
    (htyped : ∀ i < NINODE, 0 < (t i).ref → (t i).valid = true → (t i).type ≠ 0) :
    Synced { s with itable := t } :=
  ⟨h.ok.same rfl h.ok.cache h.ok.room htable (fun j _ => by rw [hstored.inoOf, h.stored.inoOf])
    (fun _ _ _ => rfl) h.ok.clean, hrange, hstored, htyped⟩

/-- A change of one entry. -/
theorem setEntry (h : Synced s)
    (hother : 0 < x.ref → ∀ j < NINODE, j ≠ ip → 0 < (s.itable j).ref → (s.itable j).inum ≠ x.inum)
    (hdev : 0 < x.ref → x.dev = ROOTDEV) (hrange : 0 < x.ref → 0 < x.inum ∧ x.inum < s.sb.ninodes)
    (hread : 0 < x.ref → x.valid = true → dinode (s.bio.disk (IBLOCK x.inum s.sb)) x.inum = x.ino ∧
    x.type ≠ 0) :
    Synced { s with itable := Function.update s.itable ip x } := by
  have hcases : ∀ {P : inode → Prop}, P x → (∀ i ≠ ip, P (s.itable i)) →
      ∀ i, P (Function.update s.itable ip x i) := by
    intro P hx hold i
    by_cases hi : i = ip
    · rw [hi, Function.update_self]
      exact hx
    · rw [Function.update_of_ne hi]
      exact hold i hi
  refine h.setTable ⟨?_, fun i hi => ?_⟩ (fun i hi => ?_) (fun i hi => ?_) fun i hi => ?_
  · intro a ha b hb
    dsimp only
    by_cases hap : a = ip
    · by_cases hbp : b = ip
      · intro _ _ _ _
        rw [hap, hbp]
      · rw [hap, Function.update_self, Function.update_of_ne hbp]
        intro h1 h2 _ h4
        exact absurd h4.symm (hother h1 b hb hbp h2)
    · rw [Function.update_of_ne hap]
      by_cases hbp : b = ip
      · rw [hbp, Function.update_self]
        intro h1 h2 _ h4
        exact absurd h4 (hother h2 a ha hap h1)
      · rw [Function.update_of_ne hbp]
        exact h.ok.table.distinct a ha b hb
  · by_cases hip : i = ip
    · dsimp only
      rw [hip, Function.update_self]
      exact hdev
    · dsimp only
      rw [Function.update_of_ne hip]
      exact h.ok.table.dev i hi
  · by_cases hip : i = ip
    · rw [hip, Function.update_self]
      exact hrange
    · rw [Function.update_of_ne hip]
      exact h.range i hi
  · by_cases hip : i = ip
    · dsimp only
      rw [hip, Function.update_self]
      exact fun h1 h2 => (hread h1 h2).1
    · dsimp only
      rw [Function.update_of_ne hip]
      exact h.stored i hi
  · by_cases hip : i = ip
    · rw [hip, Function.update_self]
      exact fun h1 h2 => (hread h1 h2).2
    · rw [Function.update_of_ne hip]
      exact h.typed i hi

/-- A change of the cache alone. -/
theorem cached (h : Synced s) (hc : Cached s.bio u) : Synced { s with bio := u } := by
  refine ⟨hc.fsOk h.ok, h.range, fun i hi href hv => ?_, h.typed⟩
  dsimp only
  rw [hc.disk]
  exact h.stored i hi href hv

end Synced

/-- A change of one inode that is on the disk afterwards. -/
theorem SparesFiles.synced (h : SparesFiles inum s s') (hs : Synced s) (hok : FsOk s')
    (he : Entry s ip inum)
    (hstored : dinode (s'.bio.disk (IBLOCK inum s.sb)) inum = inoOf s' inum) : Synced s' := by
  have he' := h.entryOk he
  have hip : ∀ i < NINODE, 0 < (s.itable i).ref → (s.itable i).inum = inum → i = ip := by
    intro i hi href hinum
    exact hs.ok.table.distinct i hi ip he.lt href he.ref
      ((hs.ok.table.dev i hi href).trans he.dev.symm) (hinum.trans he.num.symm)
  have hsame : ∀ i < NINODE, 0 < (s'.itable i).ref → i ≠ ip → (s'.itable i) = s.itable i ∧
      (s.itable i).inum ≠ inum := by
    intro i hi href hne
    have hold : 0 < (s.itable i).ref := by
      rw [← (h.entries i).ref]
      exact href
    have hnum : (s.itable i).inum ≠ inum := fun hc => hne (hip i hi hold hc)
    exact ⟨by_contra fun hc => hnum (h.entry i hc), hnum⟩
  refine ⟨hok, fun i hi href => ?_, fun i hi href hv => ?_, fun i hi href hv => ?_⟩
  · obtain ⟨_, e2, e3, _⟩ := h.entries i
    rw [e2, h.sb]
    exact hs.range i hi (by rwa [← e3])
  · rw [h.sb]
    by_cases hne : i = ip
    · rw [hne, he'.num, hstored, he'.inoOf hok.table]
    · obtain ⟨heq, hnum⟩ := hsame i hi href hne
      rw [heq] at href hv ⊢
      rw [h.dinodes _ (hs.range i hi href).2 hnum]
      exact hs.stored i hi href hv
  · by_cases hne : i = ip
    · have := he'.ino.2.2
      rw [he'.inoOf hok.table] at this
      rw [hne]
      exact this
    · obtain ⟨heq, _⟩ := hsame i hi href hne
      rw [heq] at href hv ⊢
      exact hs.typed i hi href hv

/-- The entries that count, for each inode. -/
def counted (x : inode) (j : Nat) : Bool := decide (0 < x.ref) && x.valid && x.inum == j

/-- A change of the table that leaves the entries that were read as they are. -/
theorem inoOf_table (hsb : s'.sb = s.sb) (hbio : s'.bio = s.bio)
    (hsame : ∀ i, counted (s'.itable i) j = counted (s.itable i) j)
    (hino : ∀ i, 0 < (s.itable i).ref → (s'.itable i).ino = (s.itable i).ino) : inoOf s' j =
    inoOf s j := by
  have hentry : entryOf s' j = entryOf s j := by
    unfold entryOf
    exact congrArg (fun p => (List.range NINODE).find? p) (funext hsame)
  unfold inoOf
  rw [hentry]
  cases hfind : entryOf s j with
  | none =>
    dsimp only
    rw [hbio, hsb]
  | some i => exact hino i (entryOf_some hfind).2.1

/-- A change of the table that leaves the inodes as they are. -/
theorem FsOk.table_change (h : FsOk s) (hsb : s'.sb = s.sb) (hbio : s'.bio = s.bio)
    (htable : TableOk s') (hino : ∀ j, inoOf s' j = inoOf s j) : FsOk s' := by
  refine h.same hsb ?_ ?_ htable (fun j _ => hino j) (fun b _ _ => ?_) fun b hb => ?_
  · rw [hbio]
    exact h.cache
  · rw [hbio]
    exact h.room
  · rw [hbio]
  · rw [hbio]
    exact h.clean b hb

/-! ## References -/

/-- There is no entry for one more inode. -/
def NoEntryLeft (e : Stop) : Prop := e = .panic "iget: no inodes"

/-- No entry in use has the inode. -/
def Lacks (s : Fs) (inum : Nat) : Prop :=
  ∀ j < NINODE, 0 < (s.itable j).ref → (s.itable j).inum ≠ inum

/-- What `iget` gives: the entry that has the inode, or the first one in no use. -/
structure Got (s : Fs) (inum i : Nat) (s' : Fs) : Prop where
  bio : s'.bio = s.bio
  sb : s'.sb = s.sb
  lt : i < NINODE
  others : ∀ j ≠ i, s'.itable j = s.itable j
  entry : (0 < (s.itable i).ref ∧ (s.itable i).dev = ROOTDEV ∧ (s.itable i).inum = inum ∧
      s'.itable i = { s.itable i with ref := (s.itable i).ref + 1 }) ∨
    ((s.itable i).ref = 0 ∧ Lacks s inum ∧
      s'.itable i = { s.itable i with dev := ROOTDEV, inum := inum, ref := 1, valid := false })

theorem iget_runs (ht : TableOk s) (inum : Nat) :
    Runs (fun e => NoEntryLeft e ∧ Lacks s inum) (iget ROOTDEV inum) s fun i s' =>
    Got s inum i s' := by
  unfold iget
  rw [Runs.bind_iff, Runs.get_iff]
  cases hfind : (List.range NINODE).find? (fun i =>
      decide (0 < (s.itable i).ref) && (s.itable i).dev == ROOTDEV &&
        (s.itable i).inum == inum) with
  | some i =>
    have hi := List.mem_range.mp (List.mem_of_find?_eq_some hfind)
    have hp := List.find?_some hfind
    simp only [Bool.and_eq_true, decide_eq_true_eq, beq_iff_eq] at hp
    dsimp only
    rw [Runs.bind_iff, runs_setInode, Runs.pure_iff]
    exact ⟨rfl, rfl, hi, fun j hj => Function.update_of_ne hj ..,
      Or.inl ⟨hp.1.1, hp.1.2, hp.2, Function.update_self ..⟩⟩
  | none =>
    have hlacks : Lacks s inum := by
      intro j hj href hc
      have := List.find?_eq_none.mp hfind j (List.mem_range.mpr hj)
      simp only [Bool.and_eq_true, decide_eq_true_eq, beq_iff_eq] at this
      exact this ⟨⟨href, ht.dev j hj href⟩, hc⟩
    dsimp only
    cases hfree : (List.range NINODE).find? (fun i => (s.itable i).ref == 0) with
    | none => exact ⟨rfl, hlacks⟩
    | some i =>
      have hi := List.mem_range.mp (List.mem_of_find?_eq_some hfree)
      have hzero : (s.itable i).ref = 0 := by simpa using List.find?_some hfree
      dsimp only
      rw [Runs.bind_iff, runs_setInode, Runs.pure_iff]
      exact ⟨rfl, rfl, hi, fun j hj => Function.update_of_ne hj ..,
        Or.inr ⟨hzero, hlacks, Function.update_self ..⟩⟩

/-- With the inode in an entry, or with an entry in no use, `iget` returns. -/
theorem iget_fits (ht : TableOk s) (hfit : ¬ Lacks s inum ∨ ∃ i < NINODE, (s.itable i).ref = 0) :
    Runs E (iget ROOTDEV inum) s fun i s' => Got s inum i s' := by
  rcases hfit with hin | ⟨i, hi, hzero⟩
  · exact (iget_runs ht inum).mono (fun _ he => absurd he.2 hin) fun _ _ hg => hg
  · have hstop : Runs (fun _ => False) (iget ROOTDEV inum) s fun _ _ => True := by
      unfold iget
      rw [Runs.bind_iff, Runs.get_iff]
      split
      · rw [Runs.bind_iff, runs_setInode]
        trivial
      · split
        · rename_i hnone
          have := List.find?_eq_none.mp hnone i (List.mem_range.mpr hi)
          exact absurd hzero (by simpa using this)
        · rw [Runs.bind_iff, runs_setInode]
          trivial
    exact ((iget_runs ht inum).and hstop).mono (fun _ he => he.2.elim) fun _ _ hg => hg.1

namespace Got

theorem state (h : Got s inum i s') :
    s' = { s with itable := Function.update s.itable i (s'.itable i) } := by
  obtain ⟨hbio, hsb, _, hothers, _⟩ := h
  have htable : s'.itable = Function.update s.itable i (s'.itable i) := by
    funext j
    by_cases hj : j = i
    · rw [hj, Function.update_self]
    · rw [Function.update_of_ne hj, hothers j hj]
  rw [← htable, ← hbio, ← hsb]

theorem ref (h : Got s inum i s') : 0 < (s'.itable i).ref := by
  rcases h.entry with ⟨href, _, _, heq⟩ | ⟨_, _, heq⟩
  · rw [heq]
    dsimp only
    omega
  · rw [heq]
    exact Int.one_pos

theorem num (h : Got s inum i s') : (s'.itable i).inum = inum := by
  rcases h.entry with ⟨_, _, hinum, heq⟩ | ⟨_, _, heq⟩
  · rw [heq]
    exact hinum
  · rw [heq]

theorem dev (h : Got s inum i s') : (s'.itable i).dev = ROOTDEV := by
  rcases h.entry with ⟨_, hdev, _, heq⟩ | ⟨_, _, heq⟩
  · rw [heq]
    exact hdev
  · rw [heq]

theorem holds (h : Got s inum i s') : StaysOpen s s' := by
  refine ⟨h.sb, fun j hj => ?_⟩
  by_cases hji : j = i
  · subst hji
    rcases h.entry with ⟨_, _, _, heq⟩ | ⟨hzero, _, _⟩
    · rw [heq]
      exact ⟨by dsimp only; omega, rfl, rfl, id⟩
    · omega
  · rw [h.others j hji]
    exact ⟨hj, rfl, rfl, id⟩

/-- No other entry in use has the inode. -/
theorem alone (h : Got s inum i s') (ht : TableOk s) (hj : j < NINODE) (hji : j ≠ i)
    (href : 0 < (s.itable j).ref) :
    (s.itable j).inum ≠ inum := by
  intro hc
  rcases h.entry with ⟨hpos, hdev, hinum, _⟩ | ⟨_, hnone, _⟩
  · exact hji (ht.distinct j hj i h.lt href hpos ((ht.dev j hj href).trans hdev.symm)
      (hc.trans hinum.symm))
  · exact hnone j hj href hc

/-- A new entry was not read, so each inode is as it was. -/
theorem inoOf (h : Got s inum i s') (j : Nat) : ThuKernel.inoOf s' j = ThuKernel.inoOf s j := by
  refine inoOf_table h.sb h.bio (fun k => ?_) fun k hk => ?_
  · by_cases hki : k = i
    · rw [hki]
      rcases h.entry with ⟨href, _, _, heq⟩ | ⟨hzero, _, heq⟩
      · unfold counted
        rw [heq, decide_eq_true href, decide_eq_true (by dsimp only; omega)]
      · unfold counted
        rw [heq, hzero]
        rfl
    · rw [h.others k hki]
  · by_cases hki : k = i
    · rw [hki] at hk ⊢
      rcases h.entry with ⟨_, _, _, heq⟩ | ⟨hzero, _, _⟩
      · rw [heq]
        rfl
      · omega
    · rw [h.others k hki]

theorem tableOk (h : Got s inum i s') (ht : TableOk s) : TableOk s' := by
  have hold : ∀ k, k ≠ i → s'.itable k = s.itable k := h.others
  refine ⟨fun a ha b hb hra hrb hdev hinum => ?_, fun a ha href => ?_⟩
  · by_cases hai : a = i
    · by_cases hbi : b = i
      · rw [hai, hbi]
      · rw [hai, hold b hbi, h.num] at hinum
        rw [hold b hbi] at hrb
        exact absurd hinum.symm (h.alone ht hb hbi hrb)
    · rw [hold a hai] at hra hdev hinum
      by_cases hbi : b = i
      · rw [hbi, h.num] at hinum
        exact absurd hinum (h.alone ht ha hai hra)
      · rw [hold b hbi] at hrb hdev hinum
        exact ht.distinct a ha b hb hra hrb hdev hinum
  · by_cases hai : a = i
    · rw [hai]
      exact h.dev
    · rw [hold a hai] at href ⊢
      exact ht.dev a ha href

theorem fsOk (h : Got s inum i s') (hok : FsOk s) : FsOk s' :=
  hok.table_change h.sb h.bio (h.tableOk hok.table) h.inoOf

end Got

/-- Only entries in no use changed. -/
structure IdleChange (s s' : Fs) : Prop where
  sb : s'.sb = s.sb
  bio : s'.bio = s.bio
  entry : ∀ i, s'.itable i = s.itable i ∨ (s'.itable i).ref = 0 ∧ (s.itable i).ref = 0

namespace IdleChange

theorem inUse (h : IdleChange s s') (hi : 0 < (s'.itable i).ref) : s'.itable i = s.itable i := by
  rcases h.entry i with heq | ⟨hz, _⟩
  · exact heq
  · omega

theorem inoOf (h : IdleChange s s') (j : Nat) : ThuKernel.inoOf s' j = ThuKernel.inoOf s j := by
  refine inoOf_table h.sb h.bio (fun k => ?_) fun k hk => ?_
  · rcases h.entry k with heq | ⟨hz, hz'⟩
    · rw [heq]
    · unfold counted
      rw [hz, hz']
      rfl
  · rcases h.entry k with heq | ⟨_, hz⟩
    · rw [heq]
    · omega

theorem tableOk (h : IdleChange s s') (ht : TableOk s) : TableOk s' := by
  refine ⟨fun a ha b hb hra hrb hdev hinum => ?_, fun a ha href => ?_⟩
  · have haeq := h.inUse hra
    have hbeq := h.inUse hrb
    rw [haeq] at hra hdev hinum
    rw [hbeq] at hrb hdev hinum
    exact ht.distinct a ha b hb hra hrb hdev hinum
  · have haeq := h.inUse href
    rw [haeq] at href ⊢
    exact ht.dev a ha href

theorem fsOk (h : IdleChange s s') (hok : FsOk s) : FsOk s' :=
  hok.table_change h.sb h.bio (h.tableOk hok.table) h.inoOf

theorem staysOpen (h : IdleChange s s') : StaysOpen s s' := by
  refine ⟨h.sb, fun j hj => ?_⟩
  rcases h.entry j with heq | ⟨_, hz⟩
  · rw [heq]
    exact ⟨hj, rfl, rfl, id⟩
  · omega

theorem synced (h : IdleChange s s') (hs : Synced s) : Synced s' := by
  refine ⟨h.fsOk hs.ok, fun i hi href => ?_, fun i hi href hv => ?_, fun i hi href hv => ?_⟩
  · have heq := h.inUse href
    rw [heq] at href ⊢
    rw [h.sb]
    exact hs.range i hi href
  · have heq := h.inUse href
    rw [heq] at href hv ⊢
    rw [h.sb, h.bio]
    exact hs.stored i hi href hv
  · have heq := h.inUse href
    rw [heq] at href hv ⊢
    exact hs.typed i hi href hv

end IdleChange

/-- The state after `iput`. -/
def putBack (s : Fs) (ip : Nat) : Fs :=
  { s with itable := Function.update s.itable ip { s.itable ip with ref := (s.itable ip).ref - 1 } }

/-- A reference that is given back at once. -/
theorem Got.putBack (h : Got s inum i s') : IdleChange s (ThuKernel.putBack s' i) := by
  refine ⟨h.sb, h.bio, fun j => ?_⟩
  unfold ThuKernel.putBack
  dsimp only
  by_cases hj : j = i
  · subst hj
    rw [Function.update_self]
    rcases h.entry with ⟨_, _, _, heq⟩ | ⟨hzero, _, heq⟩
    · rw [heq]
      dsimp only
      rw [Int.add_sub_cancel]
      exact Or.inl rfl
    · rw [heq]
      exact Or.inr ⟨rfl, hzero⟩
  · rw [Function.update_of_ne hj, h.others j hj]
    exact Or.inl rfl

theorem Got.synced (hgot : Got s inum i s') (h : Synced s) (h0 : 0 < inum)
    (hlt : inum < s.sb.ninodes) : Synced s' := by
  rw [hgot.state]
  refine h.setEntry (fun _ j hj hji href => ?_) (fun _ => hgot.dev) (fun _ => ?_) fun _ hv => ?_
  · rw [hgot.num]
    exact hgot.alone h.ok.table hj hji href
  · rw [hgot.num]
    exact ⟨h0, hlt⟩
  · rcases hgot.entry with ⟨href, _, _, heq⟩ | ⟨_, _, heq⟩
    · rw [heq] at hv ⊢
      exact ⟨h.stored i hgot.lt href hv, h.typed i hgot.lt href hv⟩
    · rw [heq] at hv
      cases hv

theorem iget_synced (h : Synced s) (h0 : 0 < inum) (hlt : inum < s.sb.ninodes) :
    Runs NoRoom (iget ROOTDEV inum) s fun i s' => Synced s' ∧ Got s inum i s' :=
  (iget_runs h.ok.table inum).mono (fun _ he => Or.inr (Or.inr he.1)) fun _ _ hgot =>
    ⟨hgot.synced h h0 hlt, hgot⟩

theorem setRef_synced (h : Synced s) (n : Int) (hn : 0 < n → 0 < (s.itable ip).ref ∧ ip < NINODE) :
    Synced { s with itable := Function.update s.itable ip { s.itable ip with ref := n } } := by
  refine h.setEntry (fun hpos j hj hji hjref hc => ?_) (fun hpos => ?_) (fun hpos => ?_)
    fun hpos hv => ?_
  · obtain ⟨href, hlt⟩ := hn hpos
    exact hji (h.ok.table.distinct j hj ip hlt hjref href
      ((h.ok.table.dev j hj hjref).trans (h.ok.table.dev ip hlt href).symm) hc)
  · exact h.ok.table.dev ip (hn hpos).2 (hn hpos).1
  · exact h.range ip (hn hpos).2 (hn hpos).1
  · exact ⟨h.stored ip (hn hpos).2 (hn hpos).1 hv, h.typed ip (hn hpos).2 (hn hpos).1 hv⟩

theorem idup_synced (h : Synced s) (hlt : ip < NINODE) (href : 0 < (s.itable ip).ref) :
    Runs E (idup ip) s fun _ s' => Synced s' ∧ StaysOpen s s' := by
  unfold idup
  rw [Runs.bind_iff, runs_getInode, Runs.bind_iff, runs_setInode, Runs.pure_iff]
  refine ⟨setRef_synced h _ fun _ => ⟨href, hlt⟩, rfl, fun j hj => ?_⟩
  dsimp only
  by_cases hji : j = ip
  · subst hji
    rw [Function.update_self]
    exact ⟨by dsimp only; omega, rfl, rfl, id⟩
  · rw [Function.update_of_ne hji]
    exact ⟨hj, rfl, rfl, id⟩

/-- A reference that is given back. The entry may be in no use afterwards. -/
theorem iput_synced (h : Synced s) (hlt : ip < NINODE) :
    Runs E (iput ip) s fun _ s' => Synced s' ∧ s' = putBack s ip := by
  unfold iput
  rw [Runs.bind_iff, runs_getInode, runs_setInode]
  exact ⟨setRef_synced h _ fun hpos => ⟨by omega, hlt⟩, rfl⟩

/-! ## Reading an inode -/

/-- An entry with what the block of its inode has. -/
def inode.load (x : inode) (d : Bytes) : inode :=
  { x with
    type := dinodeType d x.inum
    size := dinodeSize d x.inum
    addrs := dinodeAddr d x.inum
    valid := true }

/-- The panic of `ivalid`: the inode is free. -/
def NoType (e : Stop) : Prop := e = .panic "ivalid: no type"

/-- What `ivalid` gives: the entry was read. -/
structure Validated (s : Fs) (ip : Nat) (s' : Fs) : Prop where
  synced : Synced s'
  holds : StaysOpen s s'
  cached : Cached s.bio s'.bio
  valid : (s'.itable ip).valid = true
  ref : ∀ i, (s'.itable i).ref = (s.itable i).ref
  same : ∀ i, 0 < (s.itable i).ref → (s.itable i).valid = true → s'.itable i = s.itable i

theorem ivalid_synced (h : Synced s) (hlt : ip < NINODE) (href : 0 < (s.itable ip).ref) :
    Runs NoType (ivalid ip) s fun _ s' => Validated s ip s' := by
  unfold ivalid
  rw [Runs.bind_iff, Runs.get_iff]
  dsimp only
  split
  · rename_i hv
    exact ⟨h, StaysOpen.refl, Cached.refl h.ok.cache, hv, fun _ => rfl, fun _ _ _ => rfl⟩
  · rename_i hv
    obtain ⟨hpos, hin⟩ := h.range ip hlt href
    have hmeta : MetaBlock s (IBLOCK (s.itable ip).inum s.sb) := by
      have h1 := IBLOCK_lt h.ok.layout hin
      have h2 := @bmapstart_le s.sb
      exact Or.inl (by omega)
    have hread := @onBread NoType s h.ok.cache h.ok.room.room (IBLOCK (s.itable ip).inum s.sb)
    rw [← h.ok.table.dev ip hlt href] at hread
    refine hread.bind ?_
    rintro bp _ ⟨t, rfl, hh, hd, hdata⟩
    have hdata := hdata (h.ok.clean _ hmeta)
    obtain ⟨h1, h2, h3, _⟩ := hh.read hd
    have hc : Cached s.bio (t.release bp) := ⟨h1, h2, h3⟩
    simp only [Runs.bind_iff, runs_bpData, runs_brelse, runs_setInode]
    rw [hdata]
    generalize hblock : s.bio.disk (IBLOCK (s.itable ip).inum s.sb) = d
    change Runs _ _
      { s with bio := t.release bp, itable := Function.update s.itable ip ((s.itable ip).load d) } _
    split
    · exact rfl
    · rename_i htype
      rw [Runs.pure_iff]
      have hself : Function.update s.itable ip ((s.itable ip).load d) ip = (s.itable ip).load d :=
        Function.update_self ..
      refine ⟨(h.cached hc).setEntry (fun _ j hj hji hjref hcc => hji ?_) (fun _ =>
        h.ok.table.dev ip hlt href)
        (fun _ => ⟨hpos, hin⟩) fun _ _ => ⟨?_, htype⟩, ⟨rfl, fun j hj => ?_⟩, hc, ?_, fun j => ?_,
        fun j _ hjv => ?_⟩
      · exact h.ok.table.distinct j hj ip hlt hjref href
          ((h.ok.table.dev j hj hjref).trans (h.ok.table.dev ip hlt href).symm) hcc
      · rw [← hblock]
        dsimp only
        rw [h3]
        rfl
      · dsimp only
        by_cases hji : j = ip
        · subst hji
          rw [hself]
          exact ⟨hj, rfl, rfl, fun _ => rfl⟩
        · rw [Function.update_of_ne hji]
          exact ⟨hj, rfl, rfl, id⟩
      · dsimp only
        rw [hself]
        rfl
      · dsimp only
        by_cases hji : j = ip
        · subst hji
          rw [hself]
          rfl
        · rw [Function.update_of_ne hji]
      · have hji : j ≠ ip := by
          rintro rfl
          exact hv hjv
        exact Function.update_of_ne hji ..

/-- An entry for an inode in use is read. -/
theorem ivalid_inode (h : Synced s) (hlt : ip < NINODE) (href : 0 < (s.itable ip).ref)
    (hi : IsInode s (s.itable ip).inum) :
    Runs E (ivalid ip) s fun _ s' => Validated s ip s' := by
  have hstop : Runs (fun _ => False) (ivalid ip) s fun _ _ => True := by
    unfold ivalid
    rw [Runs.bind_iff, Runs.get_iff]
    dsimp only
    split
    · trivial
    have hmeta : MetaBlock s (IBLOCK (s.itable ip).inum s.sb) := by
      have h1 := IBLOCK_lt h.ok.layout hi.2.1
      have h2 := @bmapstart_le s.sb
      exact Or.inl (by omega)
    have hread := @onBread (fun _ => False) s h.ok.cache h.ok.room.room
      (IBLOCK (s.itable ip).inum s.sb)
    rw [← h.ok.table.dev ip hlt href] at hread
    refine hread.bind ?_
    rintro bp _ ⟨t, rfl, hh, hd, hdata⟩
    have hdata := hdata (h.ok.clean _ hmeta)
    simp only [Runs.bind_iff, runs_bpData, runs_brelse, runs_setInode]
    rw [hdata, if_neg]
    · trivial
    · have htype := hi.2.2
      rwa [h.stored.inoOf] at htype
  exact ((ivalid_synced h hlt href).and hstop).mono (fun _ he => he.2.elim) fun _ _ hv => hv.1

/-! ## A new inode -/

/-- An inode that was free has its type now, and no bytes. -/
structure NewInode (s : Fs) (inum type : Nat) (s' : Fs) : Prop where
  synced : Synced s'
  ino : ∀ j, inoOf s' j = if j = inum then ⟨type, 0, fun _ => 0⟩ else inoOf s j
  inodes : ∀ j, IsInode s' j ↔ j = inum ∨ IsInode s j
  sb : s'.sb = s.sb
  table : s'.itable = s.itable
  disk : ∀ b ≠ IBLOCK inum s.sb, s'.bio.disk b = s.bio.disk b
  clean : ∀ b, Clean s.bio b → Clean s'.bio b

theorem newInode {type : Nat} (h : Synced s) (h0 : 0 < inum) (hlt : inum < s.sb.ninodes)
    (hfree : dinodeType (s.bio.disk (IBLOCK inum s.sb)) inum = 0) (htype : type ≠ 0)
    (hfit : type < 2 ^ 16) (hcache : CacheOk u) (hsince : Follows {IBLOCK inum s.sb} s.bio u)
    (hdisk : u.disk = Function.update s.bio.disk (IBLOCK inum s.sb)
    (freshDinode (s.bio.disk (IBLOCK inum s.sb)) inum type))
    (hclean : Clean u (IBLOCK inum s.sb)) : NewInode s inum type { s with bio := u } := by
  have hblock := IBLOCK_lt h.ok.layout hlt
  have hstart := @bmapstart_le s.sb
  have hsame : ∀ b ≠ IBLOCK inum s.sb, u.disk b = s.bio.disk b := fun b hb => hsince.disk b hb
  have hkeep : ∀ b, Clean s.bio b → Clean u b := by
    intro b hc
    by_cases hb : b = IBLOCK inum s.sb
    · rw [hb]
      exact hclean
    · exact hsince.clean b hb hc
  have hown : dinode (u.disk (IBLOCK inum s.sb)) inum = ⟨type, 0, fun _ => 0⟩ := by
    rw [hdisk, Function.update_self]
    exact dinode_freshDinode hfit
  have hother : ∀ j, j ≠ inum → dinode (u.disk (IBLOCK j s.sb)) j =
      dinode (s.bio.disk (IBLOCK j s.sb)) j := by
    intro j hne
    by_cases hb : IBLOCK j s.sb = IBLOCK inum s.sb
    · rw [hb, hdisk, Function.update_self]
      apply dinode_congr
      intro o ho
      have hapart := dipOff_apart hne hb
      exact freshDinode_outside (by omega)
    · rw [hsame _ hb]
  -- No entry was read for the free inode.
  have hne : ∀ i < NINODE, 0 < (s.itable i).ref → (s.itable i).valid = true →
      (s.itable i).inum ≠ inum := by
    intro i hi href hv hc
    have hread := congrArg Ino.type (h.stored i hi href hv)
    rw [hc] at hread
    exact h.typed i hi href hv (hread.symm.trans hfree)
  have hstored : Stored { s with bio := u } := by
    intro i hi href hv
    dsimp only at href hv ⊢
    rw [hother _ (hne i hi href hv)]
    exact h.stored i hi href hv
  have hino : ∀ j, inoOf { s with bio := u } j =
      if j = inum then ⟨type, 0, fun _ => 0⟩ else inoOf s j := by
    intro j
    rw [hstored.inoOf, h.stored.inoOf]
    by_cases hj : j = inum
    · rw [if_pos hj, hj]
      exact hown
    · rw [if_neg hj]
      exact hother j hj
  have hold : ∀ j, IsInode s j → j ≠ inum := by
    rintro _ ⟨_, _, ht⟩ rfl
    rw [h.stored.inoOf] at ht
    exact ht hfree
  have hinodes : ∀ j, IsInode { s with bio := u } j ↔ j = inum ∨ IsInode s j := by
    intro j
    by_cases hj : j = inum
    · refine ⟨fun _ => Or.inl hj, fun _ => ?_⟩
      rw [hj]
      exact ⟨h0, hlt, by rw [hino, if_pos rfl]; exact htype⟩
    · unfold IsInode
      rw [hino, if_neg hj]
      exact ⟨fun hc => Or.inr hc, fun hc => hc.resolve_left hj⟩
  have href : ∀ j m, IsInode s j → refOf { s with bio := u } j m = refOf s j m := by
    intro j m hj
    refine refOf_congr (by rw [hino, if_neg (hold j hj)]) (fun hz => ?_) m
    have := (h.ok.ind hj hz).1
    exact hsame _ (by omega)
  have hnone : ∀ m, refOf { s with bio := u } inum m = 0 := by
    intro m
    unfold refOf refAt
    rw [hino, if_pos rfl]
    simp
  have hind : ∀ j, IsInode { s with bio := u } j → indOf { s with bio := u } j ≠ 0 →
      IsInode s j ∧ indOf { s with bio := u } j = indOf s j := by
    intro j hj hz
    rw [← refOf_ind] at hz ⊢
    rcases (hinodes j).mp hj with rfl | hj
    · exact absurd (hnone _) hz
    · exact ⟨hj, by rw [href j _ hj, refOf_ind]⟩
  have hused : ∀ b < s.sb.size, used { s with bio := u } b = used s b := by
    intro b _
    have hb : BBLOCK b s.sb ≠ IBLOCK inum s.sb := by
      have := @le_BBLOCK s.sb b
      omega
    unfold used
    dsimp only
    rw [hsame _ hb]
  refine ⟨⟨⟨hcache, hsince.room2 h.ok.room, h.ok.layout, ⟨h.ok.table.distinct, h.ok.table.dev⟩, ?_,
    fun b hb => ?_, ?_,
    fun j hj => ?_, fun j hj bn hbn => ?_⟩, h.range, hstored, h.typed⟩, hino, hinodes, rfl, rfl,
    hsame, hkeep⟩
  · rintro b (hb | ⟨j, hj, hz, rfl⟩)
    · exact hkeep b (h.ok.clean b (Or.inl hb))
    · obtain ⟨hj, heq⟩ := hind j hj hz
      rw [heq] at hz ⊢
      exact hkeep _ (h.ok.clean _ (Or.inr ⟨j, hj, hz, rfl⟩))
  · rw [hused b (hb.trans_le h.ok.layout.data)]
    exact h.ok.metaUsed b hb
  · apply h.ok.owned.congr fun b _ hb => hused b hb
    rintro ⟨j, m⟩
    unfold place
    dsimp only
    by_cases hj : j = inum
    · rw [hj, hnone]
      simp [mt (hold inum) (fun hc => hc rfl)]
    · have hiff : IsInode { s with bio := u } j ↔ IsInode s j := by
        rw [hinodes]
        exact ⟨fun hc => hc.resolve_left hj, Or.inr⟩
      by_cases hin : IsInode s j ∧ m < SLOTS
      · rw [if_pos hin, if_pos ⟨hiff.mpr hin.1, hin.2⟩]
        exact href j m hin.1
      · rw [if_neg hin, if_neg fun hc => hin ⟨hiff.mp hc.1, hc.2⟩]
  · rw [hino]
    by_cases hj' : j = inum
    · rw [if_pos hj']
      exact ⟨hfit, Nat.zero_le _⟩
    · rw [if_neg hj']
      exact h.ok.fits j (((hinodes j).mp hj).resolve_left hj')
  · rw [hino] at hbn
    by_cases hj' : j = inum
    · rw [if_pos hj'] at hbn
      exact absurd hbn (Nat.not_lt_zero _)
    · rw [if_neg hj'] at hbn
      have hj := ((hinodes j).mp hj).resolve_left hj'
      unfold blkOf
      rw [href j _ hj]
      exact h.ok.full j hj bn hbn

theorem iallocLoop_runs {type : Nat} (h : Synced s) (htype : type ≠ 0) (hfit : type < 2 ^ 16)
    (n inum : Nat) (h0 : 0 < inum) :
    Runs NoRoom (iallocLoop ROOTDEV type n inum) s fun ip s' => ∃ inum u s₁, ¬ IsInode s inum ∧
    Cached s.bio u ∧
      NewInode { s with bio := u } inum type s₁ ∧ Synced s' ∧ Got s₁ inum ip s' := by
  induction n generalizing s inum with
  | zero => exact Or.inr (Or.inl rfl)
  | succ n ih =>
    unfold iallocLoop
    rw [Runs.bind_iff, Runs.get_iff]
    split
    · rename_i hlt
      have hblock := IBLOCK_lt h.ok.layout hlt
      have hstart := @bmapstart_le s.sb
      refine (onBread h.ok.cache h.ok.room.room _).bind ?_
      rintro bp _ ⟨t, rfl, hh, hd, hdata⟩
      have hdata := hdata (h.ok.clean _ (Or.inl (by omega)))
      rw [Runs.bind_iff, runs_bpData, hdata]
      split
      · rename_i hfree
        simp only [Runs.bind_iff, runs_setBpData, runs_bwrite, runs_brelse]
        have hheld : Held {IBLOCK inum s.sb} s.bio t bp (IBLOCK inum s.sb) :=
          hh.mono (Set.empty_subset _)
        obtain ⟨h1, h2, h3, h4, _⟩ :=
          hheld.write (d := freshDinode (s.bio.disk (IBLOCK inum s.sb)) inum type) rfl
        rw [hd] at h3
        have hnew := newInode h h0 hlt hfree htype hfit h1 h2 h3 h4
        have hnot : ¬ IsInode s inum := by
          rintro ⟨_, _, ht⟩
          rw [h.stored.inoOf] at ht
          exact ht hfree
        apply (iget_synced hnew.synced h0 hlt).imp
        intro ip s' hgot
        exact ⟨inum, s.bio, _, hnot, Cached.refl h.ok.cache, hnew, hgot⟩
      · rw [Runs.bind_iff, runs_brelse]
        obtain ⟨h1, h2, h3, _⟩ := hh.read hd
        have hc : Cached s.bio (t.release bp) := ⟨h1, h2, h3⟩
        apply (ih (h.cached hc) (inum + 1) (Nat.succ_pos _)).imp
        rintro ip s' ⟨inum', u, s₁, hnot, hu, hnew, hgot⟩
        refine ⟨inum', u, s₁, ?_, hc.trans hu, hnew, hgot⟩
        unfold IsInode at hnot ⊢
        rwa [hc.inoOf] at hnot
    · exact Or.inr (Or.inl rfl)

end ThuKernel
