-- When the table of inodes has room for the inodes that a call looks up: then the
-- lookups of the call return, and otherwise one of them stops.
import ThuKernel.Fs.RootDir
import Mathlib.Data.Finset.Card

namespace ThuKernel

/-- The inodes that the entries in use are for. -/
def openSet (s : Fs) : Finset Nat :=
  ((Finset.range NINODE).filter fun j => 0 < (s.itable j).ref).image fun j => (s.itable j).inum

/-- The entries in no use. -/
def freeEntries (s : Fs) : Finset Nat := (Finset.range NINODE).filter fun j => (s.itable j).ref = 0

/-- The table has room for these inodes too. -/
def RoomFor (s : Fs) (l : Finset Nat) : Prop := (l \ openSet s).card ≤ (freeEntries s).card

/-- The inode of the first entry in use for the name. -/
def inodeOf (s : Fs) (name : CStr) : Option Nat := Rows.lookup 0 (dirRows s ROOTINO) name.key

variable {E : Stop → Prop} {s s₁ s' : Fs} {dp ip inum : Nat} {l l' : Finset Nat} {name : CStr}

/-! ## Room -/

theorem RoomFor.mono (h : RoomFor s l') (hle : l ⊆ l') : RoomFor s l :=
  (Finset.card_le_card (Finset.sdiff_subset_sdiff hle subset_rfl)).trans h

theorem RoomFor.empty (s : Fs) : RoomFor s ∅ := by
  unfold RoomFor
  rw [Finset.empty_sdiff]
  exact Nat.zero_le _

theorem mem_openSet : inum ∈ openSet s ↔ ∃ j < NINODE, 0 < (s.itable j).ref ∧
    (s.itable j).inum = inum := by
  unfold openSet
  simp [and_assoc]

theorem mem_freeEntries {j : Nat} : j ∈ freeEntries s ↔ j < NINODE ∧ (s.itable j).ref = 0 := by
  unfold freeEntries
  simp

theorem lacks_iff : Lacks s inum ↔ inum ∉ openSet s := by
  rw [mem_openSet]
  unfold Lacks
  push Not
  rfl

/-- Every entry is in use as before. -/
structure SameUse (s s' : Fs) : Prop where
  ref : ∀ j, (s'.itable j).ref = (s.itable j).ref
  num : ∀ j, 0 < (s.itable j).ref → (s'.itable j).inum = (s.itable j).inum

theorem SameUse.room (h : SameUse s s') : RoomFor s l ↔ RoomFor s' l := by
  have hopen : openSet s' = openSet s := by
    ext i
    rw [mem_openSet, mem_openSet]
    constructor
    · rintro ⟨j, hj, href, hnum⟩
      rw [h.ref] at href
      exact ⟨j, hj, href, (h.num j href).symm.trans hnum⟩
    · rintro ⟨j, hj, href, hnum⟩
      exact ⟨j, hj, by rwa [h.ref], (h.num j href).trans hnum⟩
  have hfree : freeEntries s' = freeEntries s := by
    unfold freeEntries
    simp only [h.ref]
  unfold RoomFor
  rw [hopen, hfree]

theorem Validated.sameUse (h : Validated s ip s') : SameUse s s' :=
  ⟨h.ref, fun j hj => (h.holds.entry j hj).2.2.1⟩

/-- After `iget` there is room for the other inodes that there was room for with this one. -/
theorem Got.room (h : Got s inum ip s') : RoomFor s (insert inum l) ↔ RoomFor s' l := by
  rcases h.entry with ⟨href, _, hnum, heq⟩ | ⟨hzero, hlacks, heq⟩
  · have hin : inum ∈ openSet s := mem_openSet.mpr ⟨ip, h.lt, href, hnum⟩
    have hopen : openSet s' = openSet s := by
      ext i
      rw [mem_openSet, mem_openSet]
      apply exists_congr
      intro j
      by_cases hj : j = ip
      · rw [hj, heq]
        dsimp only
        constructor
        · rintro ⟨hlt, _, hi⟩
          exact ⟨hlt, href, hi⟩
        · rintro ⟨hlt, _, hi⟩
          exact ⟨hlt, by omega, hi⟩
      · rw [h.others j hj]
    have hfree : freeEntries s' = freeEntries s := by
      ext j
      rw [mem_freeEntries, mem_freeEntries]
      by_cases hj : j = ip
      · rw [hj, heq]
        dsimp only
        omega
      · rw [h.others j hj]
    unfold RoomFor
    rw [hopen, hfree, Finset.insert_sdiff_of_mem _ hin]
  · have hnot := lacks_iff.mp hlacks
    have hopen : openSet s' = insert inum (openSet s) := by
      ext i
      rw [Finset.mem_insert, mem_openSet, mem_openSet]
      constructor
      · rintro ⟨j, hj, href, hi⟩
        by_cases hjp : j = ip
        · rw [hjp, heq] at hi
          exact Or.inl hi.symm
        · rw [h.others j hjp] at href hi
          exact Or.inr ⟨j, hj, href, hi⟩
      · rintro (hi | ⟨j, hj, href, hi⟩)
        · refine ⟨ip, h.lt, ?_, ?_⟩
          · rw [heq]
            exact Int.one_pos
          · rw [heq]
            exact hi.symm
        · have hjp : j ≠ ip := by
            rintro rfl
            omega
          exact ⟨j, hj, by rwa [h.others j hjp], by rwa [h.others j hjp]⟩
    have hfree : freeEntries s = insert ip (freeEntries s') := by
      ext j
      rw [Finset.mem_insert, mem_freeEntries, mem_freeEntries]
      by_cases hj : j = ip
      · rw [hj]
        exact iff_of_true ⟨h.lt, hzero⟩ (Or.inl rfl)
      · rw [h.others j hj]
        exact ⟨Or.inr, fun hc => hc.resolve_left hj⟩
    have hip : ip ∉ freeEntries s' := by
      rw [mem_freeEntries, heq]
      rintro ⟨_, hc⟩
      cases hc
    have hsplit : insert inum l \ openSet s = insert inum (l \ openSet s') := by
      rw [hopen, Finset.insert_sdiff_of_notMem _ hnot]
      ext i
      simp only [Finset.mem_insert, Finset.mem_sdiff]
      tauto
    have hinum : inum ∉ l \ openSet s' := by
      rw [hopen]
      simp
    unfold RoomFor
    rw [hsplit, hfree, Finset.card_insert_of_notMem hinum, Finset.card_insert_of_notMem hip,
      Nat.add_le_add_iff_right]

/-- With room for an inode, `iget` returns. -/
theorem iget_gets (ht : TableOk s) (hE : RoomFor s {inum} ∨ ∀ e, E e) :
    Runs E (iget ROOTDEV inum) s fun i s' => Got s inum i s' := by
  rcases hE with h | hE
  swap
  · exact (iget_runs ht inum).mono (fun e _ => hE e) fun _ _ hg => hg
  refine iget_fits ht ?_
  by_cases hin : inum ∈ openSet s
  · exact Or.inl fun hc => lacks_iff.mp hc hin
  · have hcard : ({inum} \ openSet s).card = 1 := by
      rw [Finset.sdiff_eq_self_of_disjoint (Finset.disjoint_singleton_left.mpr hin),
        Finset.card_singleton]
    unfold RoomFor at h
    rw [hcard] at h
    obtain ⟨i, hi⟩ := Finset.card_pos.mp h
    exact Or.inr ⟨i, mem_freeEntries.mp hi⟩

/-! ## The root directory -/

/-- The root directory is open. Nothing else has changed but the cache. -/
structure AtRoot (s : Fs) (dp : Nat) (s' : Fs) : Prop where
  rereads : Rereads s s'
  entry : Entry s' dp ROOTINO
  opened : StaysOpen s s'
  room : ∀ l, RoomFor s (insert ROOTINO l) ↔ RoomFor s' l

/-- With room for it, `root_dir` returns. -/
theorem root_dir_at (h : RootOk s) (hE : RoomFor s {ROOTINO} ∨ ∀ e, E e) :
    Runs E root_dir s fun dp s' => AtRoot s dp s' := by
  refine (root_dir_read h (iget_gets h.synced.ok.table hE)).imp ?_
  rintro dp s' ⟨hre, he, s₁, hgot, hv⟩
  exact ⟨hre, he, hgot.holds.trans hv.holds, fun l => hgot.room.trans hv.sameUse.room⟩

theorem AtRoot.fits (h : AtRoot s dp s') : RoomFor s {ROOTINO} := by
  have hroom := (h.room ∅).mpr (.empty s')
  rwa [insert_empty_eq] at hroom

theorem Rereads.rootOk (h : Rereads s s') (hr : RootOk s) : RootOk s' := (h.root hr).ok

theorem Rereads.inodeOf (h : Rereads s s') (hr : RootOk s) (name : CStr) :
    ThuKernel.inodeOf s' name = ThuKernel.inodeOf s name := by
  unfold ThuKernel.inodeOf
  rw [(h.root hr).rows]

/-! ## Names -/

/-- The inode of a name is open, if there is one. Nothing else has changed but the cache. -/
structure Looked (s : Fs) (name : CStr) (r : Option (Nat × Nat)) (s' : Fs) : Prop where
  rereads : Rereads s s'
  opened : StaysOpen s s'
  absent : r = none → inodeOf s name = none ∧ ∀ l, RoomFor s l ↔ RoomFor s' l
  found : ∀ e, r = some e → Found s e s' ∧ inodeOf s name = some (s'.itable e.1).inum ∧
    ∀ l, RoomFor s (insert (s'.itable e.1).inum l) ↔ RoomFor s' l

theorem inodeOf_eq_none (h : ∀ j < dirCount s ROOTINO, ¬ Match s ROOTINO name j) :
    inodeOf s name = none := by
  refine Rows.lookup_eq_none.mpr fun j v hj => ?_
  rw [getElem?_dirRows] at hj
  split at hj
  · rename_i hlt
    obtain ⟨rfl, hname⟩ := Prod.mk.inj (Option.some.inj hj)
    by_contra h0
    exact h j hlt ⟨h0, hname⟩
  · cases hj

/-- The first entry in use for the name is the one that counts. -/
theorem inodeOf_eq_some {j : Nat} (hj : j < dirCount s ROOTINO) (hm : Match s ROOTINO name j)
    (hbefore : ∀ k < j, ¬ Match s ROOTINO name k) : inodeOf s name =
    some (direntInum (direntAt s ROOTINO j)) := by
  refine Rows.lookup_first (i := j) ?_ hm.1 fun k v hk hrow => ?_
  · rw [getElem?_dirRows, if_pos hj, ← hm.2]
    rfl
  · rw [getElem?_dirRows, if_pos (hk.trans hj)] at hrow
    obtain ⟨rfl, hname⟩ := Prod.mk.inj (Option.some.inj hrow)
    by_contra h0
    exact hbefore k hk ⟨h0, hname⟩

theorem LookedUp.looked {r : Option (Nat × Nat)} (h : LookedUp s ROOTINO name 0 r s')
    (hr : RootOk s) : Looked s name r s' := by
  have hcached : ∀ {u}, Cached s.bio u → Rereads s { s with bio := u } := fun hu =>
    ⟨(hr.cached (hr.synced.cached hu) rfl hu).ok.synced, rfl, hu⟩
  cases r with
  | none =>
    obtain ⟨u, hu, rfl, hno⟩ := h
    refine ⟨hcached hu, ⟨rfl, fun i hi => ⟨hi, rfl, rfl, id⟩⟩,
      fun _ => ⟨inodeOf_eq_none fun j hj => hno j (Nat.zero_le j) hj, fun _ => Iff.rfl⟩, ?_⟩
    rintro e ⟨⟩
  | some e =>
    have hfound := h.found hr
    obtain ⟨u, hu, j, _, hj, _, hm, hbefore, hgot⟩ := h
    have hnum := hgot.num
    have hpos := hfound.pos
    have hlt := hfound.lt
    rw [hnum] at hpos hlt
    refine ⟨⟨hgot.synced (hcached hu).synced hpos hlt, hgot.sb, ?_⟩,
      ⟨hgot.holds.sb, hgot.holds.entry⟩, ?_, ?_⟩
    · rw [hgot.bio]
      exact hu
    · rintro ⟨⟩
    · rintro e ⟨⟩
      rw [hnum]
      exact ⟨hfound, inodeOf_eq_some hj hm fun k hk => hbefore k (Nat.zero_le k) hk,
        fun l => hgot.room⟩

/-- With room for the inode of the name, `dirlookup` returns. -/
theorem dirlookup_looks (h : RootOk s) (he : Entry s dp ROOTINO)
    (hE : (∀ inum, inodeOf s name = some inum → RoomFor s {inum}) ∨ ∀ e, E e) :
    Runs E (dirlookup dp name) s fun r s' => Looked s name r s' ∧ Entry s' dp ROOTINO := by
  refine (dirlookup_gets (h.isDir he) name fun u j hu hj hm hbefore => ?_).imp fun r s' hl => ?_
  · exact iget_gets (hu.fsOk h.synced.ok).table (hE.imp_left fun hroom =>
      hroom _ (inodeOf_eq_some hj hm hbefore))
  · exact ⟨hl.looked h, (hl.sameDir (h.isDir he)).isDir.entry⟩

theorem Looked.room {e : Nat × Nat} (h : Looked s name (some e) s')
    (hi : inodeOf s name = some inum) (l : Finset Nat) :
    RoomFor s (insert inum l) ↔ RoomFor s' l := by
  obtain ⟨_, hname, hroom⟩ := h.found e rfl
  cases hi.symm.trans hname
  exact hroom l

theorem Looked.fits {e : Nat × Nat} (h : Looked s name (some e) s')
    (hi : inodeOf s name = some inum) : RoomFor s {inum} := by
  have hroom := (h.room hi ∅).mpr (.empty s')
  rwa [insert_empty_eq] at hroom

end ThuKernel
