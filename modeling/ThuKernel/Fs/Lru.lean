-- The list of the buffer cache over whole runs: a ring of all the buffers, in the order
-- in which they went out of use.
import ThuKernel.Fs.BioLaws

namespace ThuKernel

/-- How often each buffer is taken. -/
def counts (s : Bio) : Nat → Int := fun i => (s.core i).refcnt

/-- The block that each buffer carries. -/
def carries (s : Bio) (i : Nat) : Nat × Nat := ((s.core i).dev, (s.core i).blockno)

/-! ## What the functions do to the list -/

/-- Buffer `i` was taken for a block. If no buffer carried it, `i` is the last buffer of
the list that was in no use. -/
structure Taken (s : Bio) (l : List Nat) (block : Nat × Nat) (i : Nat) (t : Bio) : Prop where
  lt : i < NBUF
  next : t.next = s.next
  prev : t.prev = s.prev
  counts : counts t = Function.update (counts s) i (ThuKernel.counts s i + 1)
  carries : ∀ j, carries t j = if j = i then block else ThuKernel.carries s j
  found : ThuKernel.carries s i = block ∨ (∀ j < NBUF, ThuKernel.carries s j ≠ block) ∧
    ThuKernel.counts s i = 0 ∧ ∃ l₁ l₂, l = l₁ ++ i :: l₂ ∧ ∀ j ∈ l₂, ThuKernel.counts s j ≠ 0

/-- The only panic of bio.c. -/
def noBuffers : Stop := .panic "bget: no buffers"

variable {s t : Bio} {l l₁ l₂ : List Nat} {dev blockno b i j : Nat}

theorem taken_of_set {x : ThuKernel.buf} {block : Nat × Nat} (hi : i < NBUF)
    (hnext : x.next = (s.buf i).next) (hprev : x.prev = (s.buf i).prev)
    (href : x.refcnt = (s.buf i).refcnt + 1) (hblock : (x.dev, x.blockno) = block)
    (hfound : carries s i = block ∨ (∀ j < NBUF, carries s j ≠ block) ∧ counts s i = 0 ∧
      ∃ l₁ l₂, l = l₁ ++ i :: l₂ ∧ ∀ j ∈ l₂, counts s j ≠ 0) : Taken s l block i (s.set i x) := by
  obtain ⟨h1, h2⟩ := s.links_set i x hnext hprev
  refine ⟨hi, h1, h2, ?_, fun j => ?_, hfound⟩
  · funext j
    unfold counts Bio.core
    dsimp only
    rw [Bio.set_buf, Function.update_apply]
    split
    · exact href
    · rfl
  · unfold carries Bio.core
    dsimp only
    rw [Bio.set_buf]
    split
    · exact hblock
    · rfl

/-- `bread`, of any device. It stops only when all buffers are in use. -/
theorem bread_taken (hring : Ring s.next s.prev HEAD l) (hperm : l.Perm (List.range NBUF))
    (dev blockno : Nat) :
    Runs (fun e => e = noBuffers ∧ ∀ i < NBUF, counts s i ≠ 0) (bread dev blockno) s
      fun i t => Taken s l (dev, blockno) i t := by
  have hlen := ring_length hperm
  unfold bread bget
  simp only [Runs.bind_iff, Runs.get_iff]
  rw [hring.firstAlong_next _ hlen, hring.firstAlong_prev _ hlen]
  cases hfind : l.find? (fun j => (s.buf j).dev == dev && (s.buf j).blockno == blockno) with
  | some i =>
    have hi := (mem_ring hperm).mp (List.mem_of_find?_eq_some hfind)
    have hp := List.find?_some hfind
    simp only [Bool.and_eq_true, beq_iff_eq] at hp
    have hblock : carries s i = (dev, blockno) := Prod.ext hp.1 hp.2
    simp only [Runs.bind_iff, Runs.set_iff, Runs.pure_iff, Bio.setRefcnt, Bio.set_buf_self]
    split
    · exact taken_of_set hi rfl rfl rfl hblock (Or.inl hblock)
    · simp only [Runs.bind_iff, Runs.set_iff, Runs.pure_iff, Bio.diskRead, Bio.setData, Bio.set_set,
        Bio.set_disk, Bio.set_buf_self]
      exact taken_of_set hi rfl rfl rfl hblock (Or.inl hblock)
  | none =>
    have hnew : ∀ j < NBUF, carries s j ≠ (dev, blockno) := by
      intro j hj hc
      have := List.find?_eq_none.mp hfind j ((mem_ring hperm).mpr hj)
      simp only [Bool.and_eq_true, beq_iff_eq, not_and] at this
      exact this (congrArg Prod.fst hc) (congrArg Prod.snd hc)
    simp only
    cases hfree : l.reverse.find? (fun j => (s.buf j).refcnt == 0) with
    | none =>
      refine ⟨rfl, fun j hj hc => ?_⟩
      have := List.find?_eq_none.mp hfree j (by simpa using (mem_ring hperm).mpr hj)
      have hne : (s.buf j).refcnt ≠ 0 := by simpa using this
      exact hne hc
    | some i =>
      have hi : i < NBUF := by
        have := List.mem_of_find?_eq_some hfree
        exact (mem_ring hperm).mp (by simpa using this)
      have h0 : (s.buf i).refcnt = 0 := by simpa using List.find?_some hfree
      have hlast : ∃ l₁ l₂, l = l₁ ++ i :: l₂ ∧ ∀ j ∈ l₂, counts s j ≠ 0 := by
        obtain ⟨_, as, bs, has, hbs⟩ := List.find?_eq_some_iff_append.mp hfree
        refine ⟨bs.reverse, as.reverse, ?_, fun j hj hc => ?_⟩
        · have := congrArg List.reverse has
          simpa using this
        · have := hbs j (List.mem_reverse.mp hj)
          have hc : (s.buf j).refcnt = 0 := hc
          simp [hc] at this
      simp only [Runs.bind_iff, Runs.set_iff, Runs.pure_iff, Bio.set_buf_self, Bio.diskRead,
        Bio.setData, Bio.set_set, Bio.set_disk, Bool.false_eq_true, if_false]
      refine taken_of_set hi rfl rfl ?_ rfl (Or.inr ⟨hnew, h0, hlast⟩)
      rw [h0]
      rfl

theorem release_counts (s : Bio) (b : Nat) :
    counts (s.release b) = Function.update (counts s) b (counts s b - 1) := by
  have hset : counts (s.setRefcnt b ((s.buf b).refcnt - 1)) =
      Function.update (counts s) b (counts s b - 1) := by
    funext i
    unfold counts
    rw [Bio.core_setRefcnt, Function.update_apply]
    split
    · rfl
    · rfl
  unfold Bio.release
  dsimp only
  split
  · rw [← hset]
    funext i
    simp [counts]
  · exact hset

theorem release_carries (s : Bio) (b : Nat) : carries (s.release b) = carries s := by
  have hset : carries (s.setRefcnt b ((s.buf b).refcnt - 1)) = carries s := by
    funext i
    unfold carries
    rw [Bio.core_setRefcnt]
    split
    · rename_i hi
      rw [hi]
    · rfl
  unfold Bio.release
  dsimp only
  split
  · rw [← hset]
    funext i
    simp [carries]
  · exact hset

/-- A buffer that goes out of use moves to the front. -/
theorem release_ring (hring : Ring s.next s.prev HEAD (l₁ ++ b :: l₂)) :
    Ring (s.release b).next (s.release b).prev HEAD
      (if counts s b = 1 then b :: (l₁ ++ l₂) else l₁ ++ b :: l₂) := by
  obtain ⟨h1, h2⟩ := s.links_set b { s.buf b with refcnt := (s.buf b).refcnt - 1 } rfl rfl
  have hset : Ring (s.setRefcnt b ((s.buf b).refcnt - 1)).next
      (s.setRefcnt b ((s.buf b).refcnt - 1)).prev HEAD (l₁ ++ b :: l₂) := by
    unfold Bio.setRefcnt
    rw [h1, h2]
    exact hring
  have hself : ((s.setRefcnt b ((s.buf b).refcnt - 1)).buf b).refcnt = counts s b - 1 := by
    unfold Bio.setRefcnt
    rw [Bio.set_buf_self]
    rfl
  unfold Bio.release
  dsimp only
  rw [hself]
  by_cases h0 : counts s b = 1
  · rw [if_pos (by omega), if_pos h0]
    exact ring_moveFront hset
  · rw [if_neg (by omega), if_neg h0]
    exact hset

/-! ## The lists that are in order -/

/-- The list is a ring of all the buffers, and no count is below 0. -/
structure ListOk (s : Bio) : Prop where
  ring : s.RingOk
  counts : ∀ i, 0 ≤ counts s i

theorem Taken.listOk (h : Taken s l (dev, blockno) i t) (hs : ListOk s) : ListOk t := by
  refine ⟨hs.ring.of_links h.next h.prev, fun j => ?_⟩
  have h1 := hs.counts j
  have h2 := hs.counts i
  rw [h.counts, Function.update_apply]
  split
  · omega
  · exact h1

theorem release_listOk (hs : ListOk s) (hb : b < NBUF) (hpos : 0 < counts s b) :
    ListOk (s.release b) := by
  obtain ⟨⟨l, hring, hperm⟩, hcounts⟩ := hs
  obtain ⟨l₁, l₂, rfl⟩ := List.append_of_mem ((mem_ring hperm).mpr hb)
  refine ⟨⟨_, release_ring hring, ?_⟩, fun i => ?_⟩
  · split
    · exact List.perm_middle.symm.trans hperm
    · exact hperm
  · have := hcounts i
    rw [release_counts, Function.update_apply]
    split
    · omega
    · exact this

theorem binit_listOk (disk : Nat → Bytes) : ListOk (binit disk) ∧ counts (binit disk) = 0 := by
  obtain ⟨hok, _, hcore⟩ := binit_spec disk
  have hzero : counts (binit disk) = 0 := funext fun i => (hcore i).1
  exact ⟨⟨hok.ring, fun i => by rw [hzero]; exact Int.le_refl 0⟩, hzero⟩

/-! ## Runs -/

/-- A call of bio.c: `bread` of a block, which gave buffer `b`, or `brelse`. -/
inductive BufCall where
  | bread (dev blockno b : Nat)
  | brelse (b : Nat)
  deriving DecidableEq

/-- The states after `binit` and some calls, the newest call first. Only buffers that
are held are given back. -/
inductive BufRun (disk : Nat → Bytes) : List BufCall → Bio → Prop
  | binit : BufRun disk [] (binit disk)
  | bread {h : List BufCall} {s s' : Bio} {dev blockno b : Nat} : BufRun disk h s → 1 ≤ dev →
      bread dev blockno s = .ok (b, s') → BufRun disk (.bread dev blockno b :: h) s'
  | brelse {h : List BufCall} {s s' : Bio} {b : Nat} : BufRun disk h s → b < NBUF → 0 < counts s b →
      brelse b s = .ok ((), s') → BufRun disk (.brelse b :: h) s'

/-- When the buffer was given back last: the number of that call, or 0 for never. -/
def lastRelease : List BufCall → Nat → Nat
  | [], _ => 0
  | call :: h, b => if call = .brelse b then h.length + 1 else lastRelease h b

variable {disk : Nat → Bytes} {h : List BufCall} {call : BufCall}

theorem lastRelease_cons : lastRelease (call :: h) b = if call = .brelse b then h.length +
    1 else lastRelease h b := rfl

theorem lastRelease_le (h : List BufCall) (b : Nat) : lastRelease h b ≤ h.length := by
  induction h with
  | nil => exact Nat.le_refl 0
  | cons call h ih =>
    rw [lastRelease_cons, List.length_cons]
    split
    · exact Nat.le_refl _
    · omega

theorem lastRelease_ne (h : List BufCall) (hne : i ≠ b) :
    lastRelease (.brelse b :: h) i = lastRelease h i := by
  rw [lastRelease_cons, if_neg]
  intro hc
  cases hc
  exact hne rfl

/-- Two buffers are given back at different times. -/
theorem lastRelease_inj (heq : lastRelease h i = lastRelease h j) (hpos : lastRelease h i ≠ 0) :
    i = j := by
  induction h with
  | nil => exact absurd rfl hpos
  | cons call h ih =>
    rw [lastRelease_cons] at heq hpos
    rw [lastRelease_cons] at heq
    have hi := lastRelease_le h i
    have hj := lastRelease_le h j
    by_cases h1 : call = .brelse i
    · by_cases h2 : call = .brelse j
      · rw [h1] at h2
        cases h2
        rfl
      · rw [if_pos h1, if_neg h2] at heq
        omega
    · by_cases h2 : call = .brelse j
      · rw [if_neg h1, if_pos h2] at heq
        omega
      · rw [if_neg h1] at hpos
        rw [if_neg h1, if_neg h2] at heq
        exact ih heq hpos

/-- The list after a run. Of two buffers in no use, the one that was given back later
stands before the other. -/
structure LruOk (h : List BufCall) (s : Bio) (l : List Nat) : Prop where
  ring : Ring s.next s.prev HEAD l
  perm : l.Perm (List.range NBUF)
  counts : ∀ i, 0 ≤ counts s i
  one : ∀ i < NBUF, ∀ j < NBUF, (carries s i).1 ≠ 0 → carries s i = carries s j → i = j
  order : l.Pairwise fun i j => ThuKernel.counts s i = 0 → ThuKernel.counts s j = 0 →
    lastRelease h j ≤ lastRelease h i

theorem binit_lru (disk : Nat → Bytes) : ∃ l, LruOk [] (binit disk) l := by
  obtain ⟨hok, _, hcore⟩ := binit_spec disk
  obtain ⟨⟨l, hring, hperm⟩, hcounts⟩ := (binit_listOk disk).1
  refine ⟨l, hring, hperm, hcounts, fun i hi j hj hne heq => ?_, ?_⟩
  · exact hok.one i hi j hj hne (congrArg Prod.fst heq) (congrArg Prod.snd heq)
  · exact List.pairwise_of_forall fun _ _ _ _ => Nat.le_refl 0

/-- A buffer that is taken keeps its place. -/
theorem LruOk.bread (hl : LruOk h s l) (ht : Taken s l (dev, blockno) i t) :
    LruOk (.bread dev blockno i :: h) t l := by
  refine ⟨?_, hl.perm, (ht.listOk ⟨⟨l, hl.ring, hl.perm⟩, hl.counts⟩).counts,
    fun a ha b hb hne heq => ?_, ?_⟩
  · rw [ht.next, ht.prev]
    exact hl.ring
  · -- Another buffer with the block would have been found.
    have hother : ∀ c < NBUF, c ≠ i → dev ≠ 0 → carries s c ≠ (dev, blockno) := by
      intro c hc hci hdev heq
      rcases ht.found with hi | ⟨hnew, _⟩
      · exact hci (hl.one c hc i ht.lt (by rw [heq]; exact hdev) (heq.trans hi.symm))
      · exact hnew c hc heq
    rw [ht.carries] at hne heq
    rw [ht.carries] at heq
    by_cases hai : a = i
    · rw [if_pos hai] at hne heq
      by_cases hbi : b = i
      · rw [hai, hbi]
      · rw [if_neg hbi] at heq
        exact absurd heq.symm (hother b hb hbi hne)
    · rw [if_neg hai] at hne heq
      by_cases hbi : b = i
      · rw [if_pos hbi] at heq
        exact absurd heq (hother a ha hai (by rw [heq] at hne; exact hne))
      · rw [if_neg hbi] at heq
        exact hl.one a ha b hb hne heq
  · have hzero : ∀ j, ThuKernel.counts t j = 0 → ThuKernel.counts s j = 0 := by
      intro j h0
      rw [ht.counts, Function.update_apply] at h0
      have := hl.counts i
      split at h0
      · omega
      · exact h0
    exact hl.order.imp fun hab ha hb => hab (hzero _ ha) (hzero _ hb)

theorem LruOk.brelse (hl : LruOk h s l) (hb : b < NBUF) (hpos : 0 < ThuKernel.counts s b) :
    ∃ l', LruOk (.brelse b :: h) (s.release b) l' := by
  have hlist := release_listOk ⟨⟨l, hl.ring, hl.perm⟩, hl.counts⟩ hb hpos
  obtain ⟨hring, hperm, hcounts, hone, horder⟩ := hl
  obtain ⟨l₁, l₂, rfl⟩ := List.append_of_mem ((mem_ring hperm).mpr hb)
  have hnd := (List.nodup_cons.mp hring.nodup).2
  have hsame : ∀ c, c ≠ b → ThuKernel.counts (s.release b) c = ThuKernel.counts s c := by
    intro c hc
    rw [release_counts, Function.update_of_ne hc]
  refine ⟨_, release_ring hring, ?_, hlist.counts, by rw [release_carries]; exact hone, ?_⟩
  · split
    · exact List.perm_middle.symm.trans hperm
    · exact hperm
  · split
    · -- The buffer is the first, and was given back now.
      have hnd' := List.nodup_cons.mp (List.perm_middle.nodup_iff.mp hnd)
      have hne : ∀ c ∈ l₁ ++ l₂, c ≠ b := by
        rintro c hc rfl
        exact hnd'.1 hc
      refine List.pairwise_cons.mpr ⟨fun c hc _ _ => ?_, ?_⟩
      · rw [lastRelease_ne h (hne c hc)]
        have := lastRelease_le h c
        rw [lastRelease_cons, if_pos rfl]
        omega
      · have hsub : (l₁ ++ l₂).Sublist (l₁ ++ b :: l₂) :=
          (List.sublist_cons_self b l₂).append_left l₁
        apply (horder.sublist hsub).imp_of_mem
        intro c d hc hd hcd
        rw [hsame c (hne c hc), hsame d (hne d hd), lastRelease_ne h (hne c hc),
          lastRelease_ne h (hne d hd)]
        exact hcd
    · -- The buffer is still in use.
      rename_i h1
      have hb0 : ThuKernel.counts (s.release b) b ≠ 0 := by
        rw [release_counts, Function.update_self]
        omega
      apply horder.imp
      intro c d hcd hc hd
      have hcb : c ≠ b := by
        rintro rfl
        exact hb0 hc
      have hdb : d ≠ b := by
        rintro rfl
        exact hb0 hd
      rw [hsame c hcb] at hc
      rw [hsame d hdb] at hd
      rw [lastRelease_ne h hcb, lastRelease_ne h hdb]
      exact hcd hc hd

theorem BufRun.lru (hr : BufRun disk h s) : ∃ l, LruOk h s l := by
  induction hr with
  | binit => exact binit_lru disk
  | bread _ _ hb ih =>
    obtain ⟨l, hl⟩ := ih
    exact ⟨l, hl.bread ((bread_taken hl.ring hl.perm _ _).of_ok hb)⟩
  | brelse _ hb hpos hok ih =>
    obtain ⟨l, hl⟩ := ih
    cases hok
    exact hl.brelse hb hpos

/-- The buffer that is recycled was given back before all others in no use, or never. -/
theorem LruOk.oldest (hl : LruOk h s l) (hi : l = l₁ ++ i :: l₂) (h0 : ThuKernel.counts s i = 0)
    (hbehind : ∀ j ∈ l₂, ThuKernel.counts s j ≠ 0) (hj : j < NBUF) (hj0 : ThuKernel.counts s j = 0)
    (hne : j ≠ i) :
    lastRelease h i = 0 ∨ lastRelease h i < lastRelease h j := by
  have hmem := (mem_ring hl.perm).mpr hj
  rw [hi, List.mem_append, List.mem_cons] at hmem
  have hbefore : j ∈ l₁ := by
    rcases hmem with hmem | hmem | hmem
    · exact hmem
    · exact absurd hmem hne
    · exact absurd hj0 (hbehind j hmem)
  have horder := hl.order
  rw [hi, List.pairwise_append] at horder
  have hle := horder.2.2 j hbefore i (List.mem_cons_self ..) hj0 h0
  by_cases hz : lastRelease h i = 0
  · exact Or.inl hz
  · refine Or.inr (Nat.lt_of_le_of_ne hle fun heq => hne (lastRelease_inj heq hz).symm)

/-- What the list is for, after the calls `h`. -/
structure ListRight (h : List BufCall) (s : Bio) : Prop where
  /-- The two walks from the head meet all buffers once, in opposite orders. -/
  walks : ∃ l, l.Perm (List.range NBUF) ∧ around s.next HEAD (NBUF + 1) HEAD = l ∧
    around s.prev HEAD (NBUF + 1) HEAD = l.reverse
  one : ∀ i < NBUF, ∀ j < NBUF, 1 ≤ (carries s i).1 → carries s i = carries s j → i = j
  /-- `bread` stops only when all buffers are in use, and leaves these alone. What it
  recycles is the buffer in no use that was given back longest ago. -/
  bread : ∀ dev blockno, Runs (fun e => e = noBuffers ∧ ∀ i < NBUF, counts s i ≠ 0)
    (bread dev blockno) s fun b s' =>
    (∀ i, 0 < counts s i → carries s' i = carries s i) ∧
    ((∀ i < NBUF, carries s i ≠ (dev, blockno)) → b < NBUF ∧ counts s b = 0 ∧
      ∀ j < NBUF, counts s j = 0 → j ≠ b → lastRelease h b = 0 ∨ lastRelease h b < lastRelease h j)
  brelse : ∀ b, Runs (fun _ => False) (brelse b) s fun _ s' => carries s' = carries s

theorem the_list_is_in_the_order_of_release (disk : Nat → Bytes) (h : List BufCall) (s : Bio)
    (hr : BufRun disk h s) :
    ListRight h s := by
  obtain ⟨l, hl⟩ := hr.lru
  have hwalk := hl.ring.around (ring_length hl.perm)
  refine ⟨⟨l, hl.perm, hwalk.1, hwalk.2⟩, fun i hi j hj hdev heq => hl.one i hi j hj (by omega) heq,
    fun dev blockno => ?_, fun b => release_carries s b⟩
  apply (bread_taken hl.ring hl.perm dev blockno).imp
  intro b s' ht
  refine ⟨fun i hpos => ?_, fun hnew => ?_⟩
  · rw [ht.carries]
    split
    · rename_i hib
      subst hib
      rcases ht.found with hfound | ⟨_, h0, _⟩
      · exact hfound.symm
      · omega
    · rfl
  · rcases ht.found with hfound | ⟨_, h0, l₁, l₂, hsplit, hbehind⟩
    · exact absurd hfound (hnew b ht.lt)
    · exact ⟨ht.lt, h0, fun j hj hj0 hne => hl.oldest hsplit h0 hbehind hj hj0 hne⟩

/-- With no buffer in use, a block is read and given back. -/
theorem BufRun.two_calls (hr : BufRun disk h s) (hs : ListOk s) (h0 : counts s = 0) (hdev : 1 ≤ dev)
    (blockno : Nat) :
    ∃ b s', BufRun disk (.brelse b :: .bread dev blockno b :: h) s' := by
  obtain ⟨⟨l, hring, hperm⟩, _⟩ := hs
  have hread := bread_taken hring hperm dev blockno
  obtain ⟨b, t, hok, ht⟩ := hread.exists_ok fun e he => he.2 0 (by decide) (congrFun h0 0)
  have hpos : 0 < counts t b := by
    rw [ht.counts, Function.update_self, h0]
    exact Int.one_pos
  have hrel : ThuKernel.brelse b t = .ok ((), t.release b) := rfl
  exact ⟨b, _, (hr.bread hdev hok).brelse ht.lt hpos hrel⟩

theorem the_list_is_in_order_after_two_calls :
    ∃ b s, BufRun (fun _ _ => 0) [.brelse b, .bread ROOTDEV 5 b] s ∧
    ListRight [.brelse b, .bread ROOTDEV 5 b] s := by
  obtain ⟨hs, h0⟩ := binit_listOk fun _ _ => 0
  obtain ⟨b, s, hrun⟩ := BufRun.binit.two_calls hs h0 (Nat.le_refl ROOTDEV) 5
  exact ⟨b, s, hrun, the_list_is_in_the_order_of_release _ _ _ hrun⟩

end ThuKernel
