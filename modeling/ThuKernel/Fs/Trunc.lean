-- `bfree` and `itrunc`: the blocks of a file go out of the free map, each of them is
-- marked before, and nothing of another file changes.
import ThuKernel.Fs.Write

namespace ThuKernel

variable {E : Stop → Prop} {s s' : Fs} {ip inum i j k m b c : Nat} {t u v : Bio} {D D' : Set Nat}
  {x : inode}

/-! ## bfree -/

/-- The blocks of the free map. -/
def MapBlocks (s : Fs) : Set Nat := fun b => ∃ c < s.sb.size, b = BBLOCK c s.sb

/-- The marks of the blocks in `D` are gone, and only the free map changed. -/
structure Dropped (D : Set Nat) (s : Fs) (u : Bio) : Prop where
  cache : CacheOk u
  since : Follows (MapBlocks s) s.bio u
  marks : ∀ c < s.sb.size, used { s with bio := u } c = true ↔ used s c = true ∧ c ∉ D
  clean : ∀ c < s.sb.size, Clean u (BBLOCK c s.sb)

theorem not_mapBlocks (h : b < s.sb.bmapstart ∨ nmeta s.sb ≤ b) : b ∉ MapBlocks s := by
  rintro ⟨c, hc, rfl⟩
  have h1 := BBLOCK_lt hc
  have h2 := @le_BBLOCK s.sb c
  omega

namespace Dropped

theorem refl (hm : MapOk s) : Dropped ∅ s s.bio :=
  ⟨hm.cache, Since.refl _ _, fun _ _ => ⟨fun h => ⟨h, Set.notMem_empty _⟩, And.left⟩, hm.clean⟩

theorem trans (h : Dropped D s u) (h' : Dropped D' { s with bio := u } v) :
    Dropped (D ∪ D') s v := by
  refine ⟨h'.cache, h.since.trans h'.since, fun c hc => ?_, h'.clean⟩
  rw [Set.mem_union, not_or, ← and_assoc, ← h.marks c hc]
  exact h'.marks c hc

theorem congr (h : Dropped D s u) (hD : ∀ c, c ∈ D ↔ c ∈ D') : Dropped D' s u := by
  refine ⟨h.cache, h.since, fun c hc => ?_, h.clean⟩
  rw [← hD]
  exact h.marks c hc

theorem mapOk (h : Dropped D s u) (hm : MapOk s) (hl : SbOk s.sb) (hD : ∀ c ∈ D, nmeta s.sb ≤ c) :
    MapOk { s with bio := u } := by
  refine ⟨h.cache, h.since.room hm.room, h.clean, fun c hc => ?_⟩
  have hc : c < nmeta s.sb := hc
  rw [h.marks c (hc.trans_le hl.data)]
  exact ⟨hm.metaUsed c hc, fun hcD => absurd (hD c hcD) (by omega)⟩

end Dropped

/-- A block that is marked is free afterwards. -/
theorem bfree_runs (hm : MapOk s) (hb : b < s.sb.size) (hu : used s b = true) :
    Runs E (bfree ROOTDEV b) s fun _ s' => ∃ u, s' = { s with bio := u } ∧ Dropped {b} s u := by
  unfold bfree
  rw [Runs.bind_iff, Runs.get_iff]
  refine (onBread hm.cache hm.room _).bind ?_
  rintro bp _ ⟨t, rfl, hh, hd, hdata⟩
  have hdata := hdata (hm.clean b hb)
  rw [Runs.bind_iff, runs_bpData]
  dsimp only
  have hmark : ¬ (t.core bp).data (b % BPB / 8) &&& 1#8 <<< (b % BPB % 8) = 0 := by
    rw [Bytes.and_mask_eq_zero_iff, hdata]
    exact fun hc => by rw [show Bytes.bit _ _ = used s b from rfl, hu] at hc; cases hc
  rw [if_neg hmark]
  simp only [Runs.bind_iff, runs_setBpData, runs_bwrite, runs_brelse]
  have hh' : Held (MapBlocks s) s.bio t bp (BBLOCK b s.sb) := hh.mono (Set.empty_subset _)
  obtain ⟨h1, h2, h3, h4, h5⟩ := hh'.write (d := (t.core bp).data.clearBit (b % BPB)) ⟨b, hb, rfl⟩
  refine ⟨_, rfl, h1, h2, fun c hc => ?_, fun c hc => ?_⟩
  · unfold used
    dsimp only
    rw [h3, hd, hdata, Set.mem_singleton_iff]
    by_cases hblock : BBLOCK c s.sb = BBLOCK b s.sb
    · rw [hblock, Function.update_self, Bytes.bit_clearBit, Bool.and_eq_true, Bool.not_eq_true',
        decide_eq_false_iff_not, and_comm]
      refine and_congr_right fun _ => not_congr ⟨fun hmod => ?_, fun hcb => by rw [hcb]⟩
      unfold BBLOCK at hblock
      have hdiv : c / BPB = b / BPB := by omega
      have e1 := Nat.div_add_mod b BPB
      have e2 := Nat.div_add_mod c BPB
      rw [← e1, ← e2, hdiv, hmod]
    · rw [Function.update_of_ne hblock]
      exact ⟨fun h => ⟨h, fun hcb => hblock (by rw [hcb])⟩, And.left⟩
  · exact h5 _ (hh.since.clean _ (Set.notMem_empty _) (hm.clean c hc))

/-! ## The blocks of a file -/

/-- The blocks that the inode refers to. -/
def blocksOf (s : Fs) (inum : Nat) : Set Nat := {c | c ≠ 0 ∧ ∃ m < SLOTS, refOf s inum m = c}

/-- The entry without its first `k` block numbers. -/
def cleared (x : inode) (k : Nat) : inode :=
  { x with addrs := fun m => if m < k then 0 else x.addrs m }

/-- The blocks at the first `k` places. -/
def firstBlocks (x : inode) (k : Nat) : Set Nat := {c | c ≠ 0 ∧ ∃ m < k, x.addrs m = c}

/-- The first `k` blocks that the indirect block refers to. -/
def firstIndirect (a : Bytes) (k : Nat) : Set Nat := {c | c ≠ 0 ∧ ∃ m < k, indirectAt a m = c}

/-- The state in the middle of `itrunc`. -/
def freeing (s : Fs) (ip : Nat) (u : Bio) (x : inode) : Fs :=
  { s with bio := u, itable := Function.update s.itable ip x }

theorem cleared_succ (x : inode) (k : Nat) :
    ({ cleared x k with addrs := Function.update (cleared x k).addrs k 0 } : inode) = cleared x
    (k + 1) := by
  have haddrs : Function.update (cleared x k).addrs k 0 = (cleared x (k + 1)).addrs := by
    funext m
    unfold cleared
    dsimp only
    by_cases hm : m = k
    · rw [hm, Function.update_self, if_pos (Nat.lt_succ_self k)]
    · rw [Function.update_of_ne hm]
      by_cases hlt : m < k
      · rw [if_pos hlt, if_pos (by omega)]
      · rw [if_neg hlt, if_neg (by omega)]
  rw [haddrs]
  rfl

theorem cleared_of_zero (h : x.addrs k = 0) : cleared x (k + 1) = cleared x k := by
  unfold cleared
  congr 1
  funext m
  by_cases hm : m = k
  · rw [hm, if_pos (Nat.lt_succ_self k), if_neg (Nat.lt_irrefl k), h]
  · by_cases hlt : m < k
    · rw [if_pos hlt, if_pos (by omega)]
    · rw [if_neg hlt, if_neg (by omega)]

/-- The blocks up to `k + 1`, of any row of block numbers. -/
theorem mem_first_succ {f : Nat → Nat} :
    (c ≠ 0 ∧ ∃ m < k + 1, f m = c) ↔ (c ≠ 0 ∧ ∃ m < k, f m = c) ∨ (f k ≠ 0 ∧ c = f k) := by
  constructor
  · rintro ⟨h0, m, hm, rfl⟩
    by_cases hmk : m = k
    · subst hmk
      exact Or.inr ⟨h0, rfl⟩
    · exact Or.inl ⟨h0, m, by omega, rfl⟩
  · rintro (⟨h0, m, hm, rfl⟩ | ⟨h0, rfl⟩)
    · exact ⟨h0, m, by omega, rfl⟩
    · exact ⟨h0, k, Nat.lt_succ_self k, rfl⟩

/-- One more block is dropped, or there is none at the place. -/
theorem Dropped.next {f : Nat → Nat} (h : Dropped {c | c ≠ 0 ∧ ∃ m < k, f m = c} s u)
    (h' : Dropped {f k} { s with bio := u } v)
    (h0 : f k ≠ 0) : Dropped {c | c ≠ 0 ∧ ∃ m < k + 1, f m = c} s v := by
  refine (h.trans h').congr fun c => ?_
  rw [Set.mem_union, Set.mem_ofPred_eq, Set.mem_ofPred_eq, Set.mem_singleton_iff, mem_first_succ]
  exact or_congr_right ⟨fun hc => ⟨h0, hc⟩, And.right⟩

theorem Dropped.skip {f : Nat → Nat} (h : Dropped {c | c ≠ 0 ∧ ∃ m < k, f m = c} s u)
    (h0 : f k = 0) :
    Dropped {c | c ≠ 0 ∧ ∃ m < k + 1, f m = c} s u := by
  refine h.congr fun c => ?_
  rw [Set.mem_ofPred_eq, Set.mem_ofPred_eq, mem_first_succ]
  exact ⟨Or.inl, fun hc => hc.resolve_right fun hc => hc.1 h0⟩

/-! ## The direct blocks -/

/-- A turn of the loop over the direct blocks. -/
def truncDirect (ip i : Nat) : Prog Fs Unit := do
  let x ← getInode ip
  Prog.when (x.addrs i ≠ 0) do
    bfree x.dev (x.addrs i)
    let y ← getInode ip
    setInode ip { y with addrs := Function.update y.addrs i 0 }

theorem FsOk.firstBlocks (hok : FsOk s) (he : Entry s ip inum) (hk : k ≤ NDIRECT + 1)
    (hc : c ∈ firstBlocks (s.itable ip) k) :
    ∃ m < k, refOf s inum m = c ∧ c ≠ 0 := by
  obtain ⟨h0, m, hm, rfl⟩ := hc
  exact ⟨m, hm, by rw [refOf_of_le (by omega), he.addrs hok.table (by omega)], h0⟩

theorem truncDirect_runs (hok : FsOk s) (he : Entry s ip inum) :
    Runs E (Prog.forUp (truncDirect ip) 0 NDIRECT) s fun _ s' =>
      ∃ u, s' = freeing s ip u (cleared (s.itable ip) NDIRECT) ∧
        Dropped (firstBlocks (s.itable ip) NDIRECT) s u := by
  have hm := hok.mapOk
  have hstart : s = freeing s ip s.bio (cleared (s.itable ip) 0) := by
    unfold freeing
    rw [show cleared (s.itable ip) 0 = s.itable ip from rfl, Function.update_eq_self]
  have hnone : Dropped (firstBlocks (s.itable ip) 0) s s.bio := by
    refine (Dropped.refl hm).congr fun c => ⟨fun hc => absurd hc (Set.notMem_empty c), ?_⟩
    rintro ⟨_, m, hm, _⟩
    omega
  have hloop := @Runs.forUp Fs E s (truncDirect ip)
    (fun i t => ∃ u, t = freeing s ip u (cleared (s.itable ip) i) ∧
    Dropped (firstBlocks (s.itable ip) i) s u) 0 NDIRECT ?_
    ⟨_, hstart, hnone⟩
  · rwa [Nat.zero_add] at hloop
  rintro i _ _ hi ⟨u, rfl, hu⟩
  have hself : (freeing s ip u (cleared (s.itable ip) i)).itable ip = cleared (s.itable ip) i :=
    Function.update_self ..
  have haddr : (cleared (s.itable ip) i).addrs i = (s.itable ip).addrs i := if_neg (Nat.lt_irrefl i)
  unfold truncDirect
  rw [Runs.bind_iff, runs_getInode, hself, haddr, Runs.when_iff]
  refine ⟨fun h0 => ?_, fun h0 => ?_⟩
  · have href : refOf s inum i = (s.itable ip).addrs i := by
      rw [refOf_of_le (by omega), he.addrs hok.table (by omega)]
    obtain ⟨_, hlt, hmarked⟩ := hok.ref he.ino (k := i) (by unfold SLOTS; omega) (by rwa [href])
    rw [href] at hlt hmarked
    have hlow : ∀ c ∈ firstBlocks (s.itable ip) i, nmeta s.sb ≤ c := by
      intro c hc
      obtain ⟨m, hm, rfl, hc0⟩ := hok.firstBlocks he (by omega) hc
      exact (hok.ref he.ino (by unfold SLOTS; omega) hc0).1
    have hnot : (s.itable ip).addrs i ∉ firstBlocks (s.itable ip) i := by
      intro hc
      obtain ⟨m, hm, hr, hc0⟩ := hok.firstBlocks he (by omega) hc
      have := (hok.ref_inj he.ino he.ino (by unfold SLOTS; omega) (by unfold SLOTS; omega)
        (by rwa [hr]) (hr.trans href.symm)).2
      omega
    have hmap : MapOk (freeing s ip u (cleared (s.itable ip) i)) := by
      obtain ⟨h1, h2, h3, h4⟩ := hu.mapOk hm hok.layout hlow
      exact ⟨h1, h2, h3, h4⟩
    rw [show (cleared (s.itable ip) i).dev = ROOTDEV from he.dev]
    refine (bfree_runs hmap hlt ((hu.marks _ hlt).mpr ⟨hmarked, hnot⟩)).bind ?_
    rintro _ _ ⟨v, rfl, hv⟩
    rw [Runs.bind_iff, runs_getInode, runs_setInode]
    refine ⟨v, ?_, hu.next ⟨hv.cache, hv.since, hv.marks, hv.clean⟩ h0⟩
    unfold freeing
    dsimp only
    rw [Function.update_self, cleared_succ, Function.update_idem]
  · have hz := not_not.mp h0
    exact ⟨u, by rw [cleared_of_zero hz], hu.skip hz⟩

/-! ## The indirect block -/

/-- A turn of the loop over the indirect block, which is in buffer `bp`. -/
def truncIndirect (dev bp j : Nat) : Prog Fs Unit := do
  let a ← bpData bp
  Prog.when (indirectAt a j ≠ 0) (bfree dev (indirectAt a j))

/-- The loop frees the blocks that the indirect block refers to, when they are marked
and different. -/
theorem truncIndirect_runs {bp : Nat} {a : Bytes} (hm : MapOk s) (hl : SbOk s.sb)
    (hh : HasBlock s.bio bp b) (hb : b ∉ MapBlocks s) (ha : (s.bio.core bp).data = a)
    (hmarked : ∀ j < NINDIRECT, indirectAt a j ≠ 0 → nmeta s.sb ≤ indirectAt a j ∧
    indirectAt a j < s.sb.size ∧
      used s (indirectAt a j) = true)
    (hone : ∀ i < NINDIRECT, ∀ j < NINDIRECT, indirectAt a i ≠ 0 → indirectAt a i = indirectAt a j →
    i = j) :
    Runs E (Prog.forUp (truncIndirect ROOTDEV bp) 0 NINDIRECT) s fun _ s' =>
      ∃ u, s' = { s with bio := u } ∧ Dropped (firstIndirect a NINDIRECT) s u := by
  have hnone : Dropped (firstIndirect a 0) s s.bio := by
    refine (Dropped.refl hm).congr fun c => ⟨fun hc => absurd hc (Set.notMem_empty c), ?_⟩
    rintro ⟨_, m, hm, _⟩
    omega
  have hloop := @Runs.forUp Fs E s (truncIndirect ROOTDEV bp)
    (fun j t => ∃ u, t = { s with bio := u } ∧ Dropped (firstIndirect a j) s u) 0 NINDIRECT ?_
    ⟨s.bio, rfl, hnone⟩
  · rwa [Nat.zero_add] at hloop
  rintro j _ _ hj ⟨u, rfl, hu⟩
  have hj : j < NINDIRECT := by omega
  have hdata : (u.core bp).data = a := by rw [hu.since.data hh hb, ha]
  unfold truncIndirect
  rw [Runs.bind_iff, runs_bpData]
  dsimp only
  rw [hdata, Runs.when_iff]
  refine ⟨fun h0 => ?_, fun h0 => ⟨u, rfl, hu.skip (not_not.mp h0)⟩⟩
  obtain ⟨_, hlt, hmark⟩ := hmarked j hj h0
  have hlow : ∀ c ∈ firstIndirect a j, nmeta s.sb ≤ c := by
    rintro _ ⟨h0, m, hm, rfl⟩
    exact (hmarked m (by omega) h0).1
  have hnot : indirectAt a j ∉ firstIndirect a j := by
    rintro ⟨_, m, hm, heq⟩
    have := hone m (by omega) j hj (by rwa [heq]) heq
    omega
  refine (bfree_runs (hu.mapOk hm hl hlow) hlt ((hu.marks _ hlt).mpr ⟨hmark, hnot⟩)).imp ?_
  rintro _ _ ⟨v, rfl, hv⟩
  exact ⟨v, rfl, hu.next hv h0⟩

/-- The blocks of an inode: the direct ones, those of the indirect block, and that block. -/
theorem mem_blocksOf (hok : FsOk s) (he : Entry s ip inum) (c : Nat) : c ∈ blocksOf s inum ↔
    c ∈ firstBlocks (s.itable ip) NDIRECT ∨ indOf s inum ≠ 0 ∧
      (c ∈ firstIndirect (s.bio.disk (indOf s inum)) NINDIRECT ∨ c = indOf s inum) := by
  constructor
  · rintro ⟨h0, m, hm, rfl⟩
    by_cases hdirect : m < NDIRECT
    · refine Or.inl ⟨h0, m, hdirect, ?_⟩
      rw [refOf_of_le (by omega), he.addrs hok.table (by omega)]
    · by_cases hkind : m = NDIRECT
      · subst hkind
        rw [refOf_ind] at h0 ⊢
        exact Or.inr ⟨h0, Or.inr rfl⟩
      · have hind : indOf s inum ≠ 0 := fun hz => h0 (refOf_of_no_ind (by omega) hz)
        refine Or.inr ⟨hind, Or.inl ⟨h0, m - (NDIRECT + 1), by unfold SLOTS at hm; omega, ?_⟩⟩
        rw [refOf_of_ind (by omega) hind]
  · rintro (hc | ⟨hind, ⟨h0, m, hm, rfl⟩ | rfl⟩)
    · obtain ⟨m, hm, hr, hc0⟩ := hok.firstBlocks he (by omega) hc
      exact ⟨hc0, m, by unfold SLOTS; omega, hr⟩
    · refine ⟨h0, NDIRECT + 1 + m, by unfold SLOTS; omega, ?_⟩
      rw [refOf_of_ind (by omega) hind, Nat.add_sub_cancel_left]
    · exact ⟨hind, NDIRECT, by decide, refOf_ind⟩

/-- The block numbers in the indirect block are those of the places behind it. -/
theorem indirectAt_disk (hind : indOf s inum ≠ 0) (j : Nat) :
    indirectAt (s.bio.disk (indOf s inum)) j = refOf s inum (NDIRECT + 1 + j) := by
  rw [refOf_of_ind (by omega) hind, Nat.add_sub_cancel_left]

theorem slot_of_indirect (hj : j < NINDIRECT) : NDIRECT + 1 + j < SLOTS := by
  unfold SLOTS
  omega

/-- The direct blocks hold data, and are at no other place of the file. -/
theorem FsOk.direct_apart (hok : FsOk s) (he : Entry s ip inum)
    (hc : c ∈ ThuKernel.firstBlocks (s.itable ip) NDIRECT) :
    nmeta s.sb ≤ c ∧ ∀ m < SLOTS, NDIRECT ≤ m → refOf s inum m ≠ c := by
  obtain ⟨m, hm, rfl, hc0⟩ := hok.firstBlocks he (by omega) hc
  refine ⟨(hok.ref he.ino (by unfold SLOTS; omega) hc0).1, fun m' hm' hge heq => ?_⟩
  have := (hok.ref_inj he.ino he.ino (by unfold SLOTS; omega) hm' hc0 heq.symm).2
  omega

/-- No two places of the indirect block have one block. -/
theorem FsOk.indirect_inj (hok : FsOk s) (he : Entry s ip inum) (hind : indOf s inum ≠ 0)
    (hi : i < NINDIRECT) (hj : j < NINDIRECT)
    (h0 : indirectAt (s.bio.disk (indOf s inum)) i ≠ 0)
    (heq : indirectAt (s.bio.disk (indOf s inum)) i = indirectAt (s.bio.disk (indOf s inum)) j) :
    i = j := by
  rw [indirectAt_disk hind] at h0
  rw [indirectAt_disk hind, indirectAt_disk hind] at heq
  have hslot := (hok.ref_inj he.ino he.ino (slot_of_indirect hi) (slot_of_indirect hj) h0 heq).2
  omega

/-- The indirect block is none of the blocks that are freed before it. -/
theorem FsOk.ind_apart (hok : FsOk s) (he : Entry s ip inum) (hind : indOf s inum ≠ 0) :
    indOf s inum ∉ ThuKernel.firstBlocks (s.itable ip) NDIRECT ∪
      firstIndirect (s.bio.disk (indOf s inum)) NINDIRECT := by
  rintro (hc | ⟨h0, j, hj, heq⟩)
  · exact (hok.direct_apart he hc).2 NDIRECT (by decide) (Nat.le_refl _) refOf_ind
  · rw [indirectAt_disk hind] at heq
    have hslot := (hok.ref_inj he.ino he.ino (slot_of_indirect hj) (by decide) (by rwa [heq])
      (heq.trans refOf_ind.symm)).2
    omega

/-- What `itrunc` does with the indirect block. -/
def truncRest (ip : Nat) : Prog Fs Unit := do
  let x ← getInode ip
  Prog.when (x.addrs NDIRECT ≠ 0) do
    let bp ← onBio (bread x.dev (x.addrs NDIRECT))
    Prog.forUp (truncIndirect x.dev bp) 0 NINDIRECT
    onBio (brelse bp)
    bfree x.dev (x.addrs NDIRECT)
    let y ← getInode ip
    setInode ip { y with addrs := Function.update y.addrs NDIRECT 0 }

theorem truncRest_runs (hok : FsOk s) (he : Entry s ip inum)
    (hu : Dropped (firstBlocks (s.itable ip) NDIRECT) s u) :
    Runs E (truncRest ip) (freeing s ip u (cleared (s.itable ip) NDIRECT)) fun _ s' =>
      ∃ v, s' = freeing s ip v (cleared (s.itable ip) (NDIRECT + 1)) ∧
        Dropped (blocksOf s inum) s v := by
  have hself : (freeing s ip u (cleared (s.itable ip) NDIRECT)).itable ip =
      cleared (s.itable ip) NDIRECT := Function.update_self ..
  have haddr : (cleared (s.itable ip) NDIRECT).addrs NDIRECT = indOf s inum := by
    have hind : (s.itable ip).addrs NDIRECT = indOf s inum := he.addrs hok.table (Nat.le_refl _)
    unfold cleared
    dsimp only
    rw [if_neg (Nat.lt_irrefl NDIRECT), hind]
  have hblocks := mem_blocksOf hok he
  unfold truncRest
  rw [Runs.bind_iff, runs_getInode, hself, haddr, Runs.when_iff]
  refine ⟨fun hind => ?_, fun hind => ?_⟩
  · -- The blocks that were freed so far are other ones.
    have hm := hok.mapOk
    obtain ⟨hlo, hhi, hmark⟩ := hok.ind he.ino hind
    have hmap : MapOk { s with bio := u } :=
      hu.mapOk hm hok.layout fun c hc => (hok.direct_apart he hc).1
    have hnotMap : indOf s inum ∉ MapBlocks s := not_mapBlocks (Or.inr hlo)
    have hcleanInd : Clean u (indOf s inum) :=
      hu.since.clean _ hnotMap (hok.clean _ (Or.inr ⟨inum, he.ino, hind, rfl⟩))
    have hdiskInd : u.disk (indOf s inum) = s.bio.disk (indOf s inum) := hu.since.disk _ hnotMap
    rw [show (cleared (s.itable ip) NDIRECT).dev = ROOTDEV from he.dev]
    refine (onBread (s := freeing s ip u (cleared (s.itable ip) NDIRECT)) hmap.cache
      hmap.room _).bind ?_
    rintro bp _ ⟨t, rfl, hh, hd, hdata⟩
    dsimp only [freeing] at hh hd hdata
    have hdata := (hdata hcleanInd).trans hdiskInd
    have hused : ∀ c, used { s with bio := t } c = used { s with bio := u } c := by
      intro c
      unfold used
      dsimp only
      rw [hd]
    have hroom : Room t := hh.since.room_of_room2 (hu.since.room2 hok.room)
    have hmapT : MapOk { s with bio := t } := by
      refine ⟨hh.cache, hroom, fun c hc => hh.since.clean _ (Set.notMem_empty _) (hmap.clean c hc),
        fun c hc => ?_⟩
      rw [hused]
      exact hmap.metaUsed c hc
    have hmarked : ∀ j < NINDIRECT, indirectAt (s.bio.disk (indOf s inum)) j ≠ 0 →
        nmeta s.sb ≤ indirectAt (s.bio.disk (indOf s inum)) j ∧
        indirectAt (s.bio.disk (indOf s inum)) j < s.sb.size ∧
          used { s with bio := t } (indirectAt (s.bio.disk (indOf s inum)) j) = true := by
      intro j hj h0
      rw [indirectAt_disk hind] at h0 ⊢
      obtain ⟨h1, h2, h3⟩ := hok.ref he.ino (slot_of_indirect hj) h0
      refine ⟨h1, h2, ?_⟩
      rw [hused, hu.marks _ h2]
      exact ⟨h3, fun hc => (hok.direct_apart he hc).2 _ (slot_of_indirect hj) (by omega) rfl⟩
    have hloop :=
      @truncIndirect_runs E (freeing { s with bio := t } ip t (cleared (s.itable ip) NDIRECT))
        (indOf s inum) bp
      (s.bio.disk (indOf s inum)) ⟨hmapT.cache, hmapT.room, hmapT.clean, hmapT.metaUsed⟩ hok.layout
      hh.has hnotMap hdata hmarked fun i hi j hj => hok.indirect_inj he hind hi hj
    refine Runs.bind hloop ?_
    rintro _ _ ⟨v, rfl, hv⟩
    have hv : Dropped (firstIndirect (s.bio.disk (indOf s inum)) NINDIRECT) { s with bio := t } v :=
      ⟨hv.cache, hv.since, hv.marks, hv.clean⟩
    rw [Runs.bind_iff, runs_brelse]
    -- The buffer is given back, and its block is freed.
    have hheld : Held (MapBlocks s) u v bp (indOf s inum) :=
      (hh.mono (Set.empty_subset _)).follow hv.cache hv.since
    have hsame := (release_spec hheld.cache hheld.has).2.1
    have hloopDone : Dropped (firstIndirect (s.bio.disk (indOf s inum)) NINDIRECT)
        { s with bio := u } (v.release bp) := by
      refine ⟨hheld.release.1, hheld.release.2, fun c hc => ?_,
        fun c hc => (hv.clean c hc).release hheld.cache hheld.has⟩
      rw [← hused]
      refine Iff.trans ?_ (hv.marks c hc)
      unfold used
      dsimp only
      rw [hsame]
    have htwo := hu.trans hloopDone
    have hlowTwo : ∀ c ∈ firstBlocks (s.itable ip) NDIRECT ∪ firstIndirect (s.bio.disk
        (indOf s inum)) NINDIRECT, nmeta s.sb ≤ c := by
      rintro c (hc | ⟨h0, j, hj, rfl⟩)
      · exact (hok.direct_apart he hc).1
      · exact (hmarked j hj h0).1
    have hmapTwo := htwo.mapOk hm hok.layout hlowTwo
    have hfree := @bfree_runs E (freeing s ip (v.release bp) (cleared (s.itable ip) NDIRECT))
      (indOf s inum)
      ⟨hmapTwo.cache, hmapTwo.room, hmapTwo.clean, hmapTwo.metaUsed⟩ hhi
      ((htwo.marks _ hhi).mpr ⟨hmark, hok.ind_apart he hind⟩)
    refine Runs.bind hfree ?_
    rintro _ _ ⟨w, rfl, hw⟩
    have hlast : Dropped {indOf s inum} { s with bio := v.release bp } w :=
      ⟨hw.cache, hw.since, hw.marks, hw.clean⟩
    have hall := htwo.trans hlast
    rw [Runs.bind_iff, runs_getInode, runs_setInode]
    refine ⟨w, ?_, hall.congr fun c => ?_⟩
    · unfold freeing
      dsimp only
      rw [Function.update_self, cleared_succ, Function.update_idem]
    · rw [hblocks, Set.mem_union, Set.mem_union, Set.mem_singleton_iff, or_assoc,
        and_iff_right hind]
  · have hz := not_not.mp hind
    have hzero : (s.itable ip).addrs NDIRECT = 0 := (he.addrs hok.table (Nat.le_refl _)).trans hz
    refine ⟨u, by rw [cleared_of_zero hzero], hu.congr fun c => ?_⟩
    rw [hblocks, hz]
    exact ⟨Or.inl, fun hc => hc.resolve_right fun hc => hc.1 rfl⟩

/-! ## The empty file -/

/-- The inode has no blocks and no bytes, and nothing else of the table changed. -/
structure Emptied (s : Fs) (inum : Nat) (s' : Fs) : Prop where
  ok : FsOk s'
  spares : SparesFiles inum s s'
  ino : inoOf s' inum = ⟨(inoOf s inum).type, 0, fun _ => 0⟩

/-- The files of `s'` are those of `s`, but that the inode is empty. -/
structure Bare (s : Fs) (inum : Nat) (s' : Fs) : Prop where
  own : inoOf s' inum = ⟨(inoOf s inum).type, 0, fun _ => 0⟩
  others : ∀ j < s.sb.ninodes, j ≠ inum → inoOf s' j = inoOf s j
  isInode : ∀ j, IsInode s' j ↔ IsInode s j
  zero : ∀ m, refOf s' inum m = 0
  ref : ∀ j m, IsInode s j → j ≠ inum → refOf s' j m = refOf s j m

namespace Dropped

theorem disk (h : Dropped D s u) (hb : b < s.sb.bmapstart ∨ nmeta s.sb ≤ b) :
    u.disk b = s.bio.disk b := h.since.disk b (not_mapBlocks hb)

theorem keepClean (h : Dropped D s u) (hb : b < s.sb.bmapstart ∨ nmeta s.sb ≤ b)
    (hc : Clean s.bio b) : Clean u b := h.since.clean b (not_mapBlocks hb) hc

theorem bare (h : Dropped D s u) (hok : FsOk s) (he : Entry s ip inum)
    (hx : SameEntry (s.itable ip) x) (hino : x.ino = ⟨(inoOf s inum).type, 0, fun _ => 0⟩) :
    Bare s inum (freeing s ip u x) := by
  have hinos : ∀ j < s.sb.ninodes, inoOf (freeing s ip u x) j =
      if j = inum then x.ino else inoOf s j := by
    intro j hj
    have hset := inoOf_set (s := { s with bio := u }) (he.entryOf hok.table) hx j
    rwa [inoOf_bio (h.disk (Or.inl (IBLOCK_lt hok.layout hj)))] at hset
  have hown : inoOf (freeing s ip u x) inum = ⟨(inoOf s inum).type, 0, fun _ => 0⟩ := by
    rw [hinos inum he.ino.2.1, if_pos rfl, hino]
  have hothers : ∀ j < s.sb.ninodes, j ≠ inum → inoOf (freeing s ip u x) j = inoOf s j := by
    intro j hj hne
    rw [hinos j hj, if_neg hne]
  refine ⟨hown, hothers, fun j => ?_, fun m => ?_, fun j m hj hne => ?_⟩
  · refine (isInode_congr rfl fun hj => ?_ : IsInode (freeing s ip u x) j ↔ IsInode s j)
    by_cases hji : j = inum
    · rw [hji, hown]
    · rw [hothers j hj hji]
  · unfold refOf refAt
    rw [hown]
    simp
  · exact refOf_congr (hothers j hj.2.1 hne) (fun hz => h.disk (Or.inr (hok.ind hj hz).1)) m

end Dropped

/-- The data blocks that an inode does not refer to are at none of its places. -/
theorem Entry.not_mem_blocksOf (he : Entry s ip inum) (hc : nmeta s.sb ≤ c) :
    c ∉ blocksOf s inum ↔ ∀ p : Nat × Nat, p.1 = inum → place s p ≠ c := by
  have hpos := @nmeta_pos s.sb
  constructor
  · rintro hnot ⟨j, m⟩ hj hp
    obtain rfl : inum = j := hj.symm
    have h0 : place s (inum, m) ≠ 0 := by
      rw [hp]
      omega
    have hm : m < SLOTS := by
      by_contra hm
      exact h0 (if_neg fun hc => hm hc.2)
    rw [place_of he.ino hm] at hp h0
    exact hnot ⟨by rwa [← hp], m, hm, hp⟩
  · rintro hall ⟨_, m, hm, hr⟩
    exact hall (inum, m) rfl ((place_of he.ino hm).trans hr)

namespace Bare

/-- The blocks that are still marked are those of the other files. -/
theorem owned (h : Bare s inum (freeing s ip u x)) (hok : FsOk s) (he : Entry s ip inum)
    (hu : Dropped (blocksOf s inum) s u) :
    Owned (nmeta s.sb) s.sb.size (used (freeing s ip u x)) (place (freeing s ip u x)) := by
  refine hok.owned.drop (fun p => p.1 = inum) (fun c hlo hhi => ?_) ?_ ?_
  · rw [← he.not_mem_blocksOf hlo]
    exact hu.marks c hhi
  · rintro ⟨_, m⟩ rfl
    unfold place
    rw [h.zero, ite_self]
  · rintro ⟨j, m⟩ hne
    unfold place
    by_cases hp : IsInode s j ∧ m < SLOTS
    · rw [if_pos hp, if_pos ⟨(h.isInode j).mpr hp.1, hp.2⟩]
      exact h.ref j m hp.1 hne
    · rw [if_neg hp, if_neg fun hc => hp ⟨(h.isInode j).mp hc.1, hc.2⟩]

/-- The blocks of the inodes and of the free map, and the indirect blocks, are on the disk. -/
theorem clean (h : Bare s inum (freeing s ip u x)) (hok : FsOk s) (hu : Dropped D s u)
    (hb : MetaBlock (freeing s ip u x) b) : Clean u b := by
  rcases hb with hb | ⟨j, hj, h0, rfl⟩
  · by_cases hmap : b ∈ MapBlocks s
    · obtain ⟨c, hc, rfl⟩ := hmap
      exact hu.clean c hc
    · exact hu.since.clean b hmap (hok.clean b (Or.inl hb))
  · have hne : j ≠ inum := by
      rintro rfl
      rw [← refOf_ind] at h0
      exact h0 (h.zero _)
    have hj := (h.isInode j).mp hj
    have hsame : indOf (freeing s ip u x) j = indOf s j := by
      rw [← refOf_ind, ← refOf_ind]
      exact h.ref j _ hj hne
    rw [hsame] at h0 ⊢
    exact hu.keepClean (Or.inr (hok.ind hj h0).1) (hok.clean _ (Or.inr ⟨j, hj, h0, rfl⟩))

end Bare

/-- When all blocks of an inode are dropped, and its entry says so, the block invariant
holds again. -/
theorem emptied (hok : FsOk s) (he : Entry s ip inum) (h : Dropped (blocksOf s inum) s u)
    (hx : SameEntry (s.itable ip) x)
    (hino : x.ino = ⟨(inoOf s inum).type, 0, fun _ => 0⟩) : Emptied s inum (freeing s ip u x) := by
  have hentries : ∀ i, SameEntry (s.itable i) (Function.update s.itable ip x i) := by
    intro i
    by_cases hi : i = ip
    · rw [hi, Function.update_self]
      exact hx
    · rw [Function.update_of_ne hi]
      exact ⟨rfl, rfl, rfl, rfl⟩
  have hbare := h.bare hok he hx hino
  refine ⟨⟨h.cache, h.since.room2 hok.room, hok.layout, ?_, fun b hb => hbare.clean hok h hb,
    fun b hb => ?_, hbare.owned hok he h, fun j hj => ?_, fun j hj bn hbn => ?_⟩,
    ⟨rfl, h.since.mono (Set.subset_univ _), hentries, fun i hi => ?_, hbare.others,
      fun j hj _ => ?_, ?_, fun j m hj hne _ => hbare.ref j m hj hne,
      fun j m hj _ hm h0 => h.disk (Or.inr (hok.ref hj hm h0).1),
      fun j m hj _ hm h0 => h.keepClean (Or.inr (hok.ref hj hm h0).1)⟩, hbare.own⟩
  · exact TableOk.set (s := { s with bio := u }) ⟨hok.table.distinct, hok.table.dev⟩ hx
  · have hb : b < nmeta s.sb := hb
    change used { s with bio := u } b = true
    rw [h.marks b (hb.trans_le hok.layout.data)]
    refine ⟨hok.metaUsed b hb, ?_⟩
    rintro ⟨h0, m, hm, hr⟩
    have := (hok.ref he.ino hm (by rwa [hr])).1
    omega
  · by_cases hji : j = inum
    · rw [hji, hbare.own]
      exact ⟨(hok.fits inum he.ino).1, Nat.zero_le _⟩
    · have hj := (hbare.isInode j).mp hj
      rw [hbare.others j hj.2.1 hji]
      exact hok.fits j hj
  · by_cases hji : j = inum
    · rw [hji, hbare.own] at hbn
      exact absurd hbn (Nat.not_lt_zero _)
    · have hj := (hbare.isInode j).mp hj
      rw [hbare.others j hj.2.1 hji] at hbn
      unfold blkOf
      rw [hbare.ref j _ hj hji]
      exact hok.full j hj bn hbn
  · by_contra hc
    have hip : i ≠ ip := fun hip => hc (hip ▸ he.num)
    exact hi (Function.update_of_ne hip ..)
  · have hb := h.disk (Or.inl (IBLOCK_lt hok.layout hj))
    unfold freeing
    dsimp only
    rw [hb]
  · rw [hbare.own]

/-- What `itrunc` does: the file is empty, in the table and on the disk, and the blocks
that it had are not marked. No block is freed that is free. -/
structure Truncated (s : Fs) (inum : Nat) (s' : Fs) : Prop extends Emptied s inum s' where
  stored : dinode (s'.bio.disk (IBLOCK inum s.sb)) inum = inoOf s' inum
  freed : ∀ b < s.sb.size, used s' b = true ↔ used s b = true ∧ b ∉ blocksOf s inum

theorem itrunc_runs (hok : FsOk s) (he : Entry s ip inum) :
    Runs E (itrunc ip) s fun _ s' => Truncated s inum s' := by
  unfold itrunc
  refine (truncDirect_runs hok he).bind ?_
  rintro _ _ ⟨u, rfl, hu⟩
  have hrest := truncRest_runs (E := E) hok he hu
  unfold truncRest at hrest
  rw [Runs.bind_iff, runs_getInode] at hrest ⊢
  refine Runs.bind hrest ?_
  rintro _ _ ⟨v, rfl, hv⟩
  rw [Runs.bind_iff, runs_getInode, Runs.bind_iff, runs_setInode]
  have hself : (freeing s ip v (cleared (s.itable ip) (NDIRECT + 1))).itable ip =
      cleared (s.itable ip) (NDIRECT + 1) :=
    Function.update_self ..
  have hstate : { freeing s ip v (cleared (s.itable ip) (NDIRECT + 1)) with
      itable := Function.update (freeing s ip v (cleared (s.itable ip) (NDIRECT + 1))).itable ip
        { cleared (s.itable ip) (NDIRECT + 1) with size := 0 } } =
      freeing s ip v { cleared (s.itable ip) (NDIRECT + 1) with size := 0 } := by
    unfold freeing
    dsimp only
    rw [Function.update_idem]
  rw [hself, hstate]
  have hino : ({ cleared (s.itable ip) (NDIRECT + 1) with size := 0 } : inode).ino =
      ⟨(inoOf s inum).type, 0, fun _ => 0⟩ := by
    rw [he.inoOf hok.table]
    refine Ino.ext rfl rfl (funext fun k => ?_)
    unfold inode.ino cleared addrsOf
    dsimp only
    split
    · exact if_pos (by omega)
    · rfl
  have hempty := emptied (x := { cleared (s.itable ip) (NDIRECT + 1) with size := 0 }) hok he hv
    ⟨rfl, rfl, rfl, rfl⟩ hino
  refine (iupdate_runs hempty.ok (hempty.spares.entryOk he)).imp ?_
  intro _ s' hup
  have hlt := IBLOCK_lt hok.layout he.ino.2.1
  refine ⟨⟨hup.ok, hempty.spares.trans hup.touches.toSparesFiles,
    (hup.ino inum he.ino.2.1).trans hempty.ino⟩,
    hup.stored.trans (hup.ino inum he.ino.2.1).symm, fun b hb => ?_⟩
  have hne : BBLOCK b s.sb ≠ IBLOCK inum s.sb := by
    have := @le_BBLOCK s.sb b
    omega
  rw [← hv.marks b hb]
  unfold used
  rw [hup.touches.sb]
  have := hup.disk (BBLOCK b s.sb) hne
  dsimp only [freeing] at this ⊢
  rw [this]

end ThuKernel
