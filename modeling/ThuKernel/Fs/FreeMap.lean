-- The free map: `balloc` takes a block that is not marked, marks it and clears it,
-- and `bfree` takes the mark away. Nothing else on the disk changes.
import ThuKernel.Fs.Image

namespace ThuKernel

/-- The only panic of the allocator for blocks. -/
def OutOfBlocks (e : Stop) : Prop := e = .panic "balloc: out of blocks"

/-- What `balloc` needs: the cache holds the free map as on the disk, and the blocks
before the data blocks are marked. -/
structure MapOk (s : Fs) : Prop where
  cache : CacheOk s.bio
  room : Room s.bio
  clean : ∀ b < s.sb.size, Clean s.bio (BBLOCK b s.sb)
  metaUsed : ∀ b < nmeta s.sb, used s b = true

/-- Block `a` was free, and is marked and clear now. -/
structure Balloced (s : Fs) (a : Nat) (u : Bio) : Prop where
  cache : CacheOk u
  since : Follows {BBLOCK a s.sb, a} s.bio u
  lt : a < s.sb.size
  free : used s a = false
  map : u.disk (BBLOCK a s.sb) = (s.bio.disk (BBLOCK a s.sb)).setBit (a % BPB)
  zero : ∀ o < BSIZE, u.disk a o = 0
  cleanMap : Clean u (BBLOCK a s.sb)
  clean : Clean u a

variable {E : Stop → Prop} {s : Fs} {t u : Bio} {a b : Nat} {d : Bytes}

/-! ## balloc -/

theorem firstFree_some {size n bi j : Nat} (h : firstFree d size b n bi = some j) :
    j < BPB ∧ b + j < size ∧ d.bit j = false := by
  induction n generalizing bi with
  | zero => cases h
  | succ n ih =>
    unfold firstFree at h
    split at h
    · rename_i hin
      split at h
      · rename_i hbit
        cases h
        exact ⟨hin.1, hin.2, (Bytes.and_mask_eq_zero_iff d j).mp hbit⟩
      · exact ih h
    · cases h

theorem Balloced.data (h : Balloced s a u) (hm : MapOk s) : nmeta s.sb ≤ a := by
  by_contra hc
  have := hm.metaUsed a (by omega)
  rw [h.free] at this
  cases this

/-- The block is cleared. -/
theorem bzero_runs {s : Fs} (hc : CacheOk s.bio) (hr : Room s.bio) (b : Nat) :
    Runs E (bzero ROOTDEV b) s fun _ s' => ∃ u, s' = { s with bio := u } ∧ CacheOk u ∧
    Follows {b} s.bio u ∧
      (∀ o < BSIZE, u.disk b o = 0) ∧ Clean u b := by
  refine (onBread hc hr b).bind ?_
  rintro bp _ ⟨t, rfl, hh, _, _⟩
  simp only [Runs.bind_iff, runs_bpData, runs_setBpData, runs_bwrite, runs_brelse]
  have hh' : Held {b} s.bio t bp b := hh.mono (Set.empty_subset _)
  obtain ⟨h1, h2, h3, h4, _⟩ := hh'.write (d := (t.core bp).data.fill 0 BSIZE 0) rfl
  refine ⟨_, rfl, h1, h2, fun o ho => ?_, h4⟩
  rw [h3, Function.update_self]
  exact Bytes.fill_inside (Nat.zero_le o) (by omega)

/-- The mark and the clearing of the block, after the search. -/
theorem take_runs (hm : MapOk s) (hlt : a < s.sb.size) (hfree : used s a = false) {bp : Nat}
    (hh : Held ∅ s.bio t bp (BBLOCK a s.sb)) (hdata : d = s.bio.disk (BBLOCK a s.sb)) :
    Runs E (do
      setBpData bp (d.setBit (a % BPB))
      onBio (bwrite bp)
      onBio (brelse bp)
      bzero ROOTDEV a
      pure a) { s with bio := t } fun r s' => r = a ∧ ∃ u, s' = { s with bio := u } ∧
        Balloced s a u := by
  simp only [Runs.bind_iff, runs_setBpData, runs_bwrite, runs_brelse]
  have hh' : Held {BBLOCK a s.sb, a} s.bio t bp (BBLOCK a s.sb) := hh.mono (Set.empty_subset _)
  obtain ⟨h1, h2, h3, h4, _⟩ := hh'.write (d := d.setBit (a % BPB)) (Or.inl rfl)
  have hne : BBLOCK a s.sb ≠ a := by
    intro hc
    have := hm.metaUsed a (hc ▸ BBLOCK_lt hlt)
    rw [hfree] at this
    cases this
  apply (bzero_runs (s := { s with bio := _ }) h1 (h2.room hm.room) a).imp
  rintro _ _ ⟨u, rfl, hcache, hsince, hzero, hclean⟩
  rw [Runs.pure_iff]
  refine ⟨rfl, u, rfl, hcache, h2.trans (hsince.mono fun _ hb => Or.inr hb), hlt, hfree, ?_,
    hzero, ?_, hclean⟩
  · rw [hsince.disk _ hne]
    change (((t.setData bp _).diskWrite bp).release bp).disk _ = _
    rw [h3, Function.update_self, hdata]
  · exact hsince.clean _ hne h4

theorem ballocLoop_runs (hm : MapOk s) (n b : Nat) (hb : b % BPB = 0) :
    Runs OutOfBlocks (ballocLoop ROOTDEV n b) s fun a s' => ∃ u, s' = { s with bio := u } ∧
    Balloced s a u := by
  induction n generalizing s b with
  | zero => exact rfl
  | succ n ih =>
    unfold ballocLoop
    rw [Runs.bind_iff, Runs.get_iff]
    split
    · rename_i hlt
      refine (onBread hm.cache hm.room _).bind ?_
      rintro bp _ ⟨t, rfl, hh, hd, hdata⟩
      rw [Runs.bind_iff, runs_bpData]
      have hdata := hdata (hm.clean b hlt)
      cases hfirst : firstFree (t.core bp).data s.sb.size b BPB 0 with
      | some j =>
        obtain ⟨hj, hlt', hbit⟩ := firstFree_some hfirst
        have hmod : (b + j) % BPB = j := by
          rw [Nat.add_mod, hb, Nat.zero_add, Nat.mod_mod, Nat.mod_eq_of_lt hj]
        have hblock : BBLOCK (b + j) s.sb = BBLOCK b s.sb := by
          have hdiv : (b + j) / BPB = b / BPB := by
            rw [show BPB = 8192 from rfl] at hb hj ⊢
            omega
          unfold BBLOCK
          rw [hdiv]
        have hfree : used s (b + j) = false := by
          unfold used
          rw [hblock, hmod, ← hdata]
          exact hbit
        rw [← hblock] at hh hdata
        have htake := take_runs (E := OutOfBlocks) hm hlt' hfree hh hdata
        rw [hmod] at htake
        apply htake.imp
        rintro _ _ ⟨rfl, h⟩
        exact h
      | none =>
        dsimp only
        rw [Runs.bind_iff, runs_brelse]
        obtain ⟨h1, h2, h3, h4⟩ := hh.read hd
        have hused : ∀ b, used { s with bio := t.release bp } b = used s b := by
          intro b
          unfold used
          rw [show ({ s with bio := t.release bp } : Fs).bio.disk = s.bio.disk from h3]
        have hm' : MapOk { s with bio := t.release bp } :=
          ⟨h1, h2.room hm.room, fun b hb => h2.clean _ (Set.notMem_empty _) (hm.clean b hb),
            fun b hb => (hused b).trans (hm.metaUsed b hb)⟩
        apply (ih hm' (b + BPB) (by rw [Nat.add_mod_right, hb])).imp
        rintro a _ ⟨u, rfl, hu⟩
        refine ⟨u, rfl, hu.cache, (h2.mono (Set.empty_subset _)).trans hu.since, hu.lt,
          (hused a).symm.trans hu.free, ?_, hu.zero, hu.cleanMap, hu.clean⟩
        rw [hu.map]
        change ((t.release bp).disk _).setBit _ = _
        rw [h3]
    · exact rfl

theorem balloc_runs (hm : MapOk s) :
    Runs OutOfBlocks (balloc ROOTDEV) s fun a s' => ∃ u, s' = { s with bio := u } ∧
    Balloced s a u := by
  unfold balloc
  rw [Runs.bind_iff, Runs.get_iff]
  exact ballocLoop_runs hm _ 0 rfl

/-- Only the block itself is marked. -/
theorem Balloced.marks (h : Balloced s a u) (hm : MapOk s) (b : Nat) (hb : b < s.sb.size) :
    used { s with bio := u } b = (decide (b = a) || used s b) := by
  unfold used
  dsimp only
  by_cases hblock : BBLOCK b s.sb = BBLOCK a s.sb
  · rw [hblock, h.map, Bytes.bit_setBit]
    congr 1
    rw [decide_eq_decide]
    constructor
    · intro hmod
      unfold BBLOCK at hblock
      have hdiv : b / BPB = a / BPB := by omega
      have h1 := Nat.div_add_mod a BPB
      have h2 := Nat.div_add_mod b BPB
      rw [← h1, ← h2, hdiv, hmod]
    · rintro rfl
      rfl
  · have hne : b ≠ a := fun hc => hblock (by rw [hc])
    have hna : BBLOCK b s.sb ≠ a := by
      have h1 := BBLOCK_lt hb
      have h2 := h.data hm
      omega
    rw [h.since.disk _ (by rintro (hc | hc); exacts [hblock hc, hna hc]), decide_eq_false hne,
      Bool.false_or]

end ThuKernel
