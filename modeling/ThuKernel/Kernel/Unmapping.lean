-- When `sys_munmap` unmaps all of its range or nothing: what its first loop
-- sees, page by page, and what it takes for granted about the range.
import ThuKernel.Kernel.Fork
import ThuKernel.Kernel.Mapping

namespace ThuKernel

variable {lk : Link} {E : Stop → Prop} {s : Mm} {k k' : Kernel} {root a start len n m : Nat}
  {l : List Nat}

/-! ## What the call has to do -/

/-- The number of pages of `len` bytes. -/
def pagesOf (len : Nat) : Nat := (len + 4095) / 4096

/-- Page `i` from `start` on is an address of the user, and mapped. -/
def PageMapped (mem : Bytes) (root start i : Nat) : Prop :=
  start + i * PGSIZE < MAXVA ∧ IsMapped mem root (start / PGSIZE + i)

/-- `munmap` has to refuse: the start is not that of a page, or some page is not
mapped or not in the address space. -/
def MunmapBad (mem : Bytes) (root start len : Nat) : Prop :=
  start % PGSIZE ≠ 0 ∨ ∃ i < pagesOf len, ¬ PageMapped mem root start i

/-- The pages of the range went to the free list, and nothing else changed. -/
structure Unmapped (lk : Link) (root start n : Nat) (k k' : Kernel) : Prop where
  rest : k' = { k with mm := k'.mm }
  ptes : ∀ q < 512 ^ 3, pteAt k'.mm.mem root q =
    if start / PGSIZE ≤ q ∧ q < start / PGSIZE + n then 0 else pteAt k.mm.mem root q
  free : ∀ a, IsFree lk k'.mm a ↔ IsFree lk k.mm a ∨
    ∃ i < n, frameAt k.mm.mem root (start / PGSIZE + i) = a

/-- A call refuses with nothing changed, or unmaps all pages of the range. -/
def MunmapFine (lk : Link) (k : Kernel) (start len : Nat) : Prop :=
  Runs (fun _ => False) (sys_munmap lk start len) k fun r k' =>
    (MunmapBad k.mm.mem (k.pool k.current_proc).pagetable start len ∧ r = -1 ∧ k' = k) ∨
      (¬ MunmapBad k.mm.mem (k.pool k.current_proc).pagetable start len ∧
      r = (pagesOf len * PGSIZE : Nat) ∧
        Unmapped lk (k.pool k.current_proc).pagetable start (pagesOf len) k k')

/-- The range ends below 2^64, and its first page that is not mapped is an
address of the user whose last table is there. -/
def StopsAtEntry (mem : Bytes) (root start len : Nat) : Prop :=
  start + pagesOf len * PGSIZE < 2 ^ 64 ∧
    ∃ i < pagesOf len, (∀ j < i, PageMapped mem root start j) ∧
    start + i * PGSIZE < MAXVA ∧ (slot mem root (start / PGSIZE + i)).isSome ∧
    ¬ IsMapped mem root (start / PGSIZE + i)

/-- All pages of the range are mapped, and to pages of the allocator. -/
def AllFrames (lk : Link) (mem : Bytes) (root start len : Nat) : Prop :=
  ∀ i < pagesOf len, PageMapped mem root start i ∧
    IsFrame lk (frameAt mem root (start / PGSIZE + i))

/-! ## The first loop -/

/-- The loop goes on over pages that are mapped. -/
theorem munmapLoop_skip {stop fuel : Nat} {Q : Bool → Mm → Prop} (ha : a % PGSIZE = 0)
    (hgood : ∀ i < m, PageMapped s.mem root a i) (hstop : a + m * PGSIZE ≤ stop) :
    Runs E (munmapLoop root stop (fuel + m) a) s Q ↔
    Runs E (munmapLoop root stop fuel (a + m * PGSIZE)) s Q := by
  induction m generalizing a with
  | zero => simp
  | succ m ih =>
    obtain ⟨hlt, hmapped⟩ := hgood 0 (Nat.zero_lt_succ m)
    rw [Nat.zero_mul, Nat.add_zero] at hlt
    rw [Nat.add_zero] at hmapped
    have hnext : (a + PGSIZE) % PGSIZE = 0 := by
      rw [Nat.add_mod_right]
      exact ha
    have hvpn : (a + PGSIZE) / PGSIZE = a / PGSIZE + 1 := Nat.add_div_right a (by decide)
    have hrest : ∀ i < m, PageMapped s.mem root (a + PGSIZE) i := by
      intro i hi
      obtain ⟨h1, h2⟩ := hgood (i + 1) (by omega)
      refine ⟨?_, ?_⟩
      · rw [Nat.add_mul] at h1
        omega
      · rwa [hvpn, Nat.add_assoc, Nat.add_comm 1 i]
    have hsum : a + (m + 1) * PGSIZE = a + PGSIZE + m * PGSIZE := by
      rw [Nat.add_mul]
      omega
    obtain ⟨pte, hslot⟩ : ∃ pte, slot s.mem root (a / PGSIZE) = some pte := by
      cases hslot : slot s.mem root (a / PGSIZE) with
      | some pte => exact ⟨pte, rfl⟩
      | none =>
        rw [IsMapped, slot_none hslot, Nat.zero_testBit] at hmapped
        cases hmapped
    have hbelow : a < stop := by
      have : 0 < PGSIZE := by decide
      rw [hsum] at hstop
      omega
    rw [show fuel + (m + 1) = fuel + m + 1 from rfl, munmapLoop, if_pos hbelow, Runs.bind_iff,
      runs_find hlt, hslot]
    dsimp only
    rw [Runs.bind_iff, Runs.get_iff, get64_slot hslot]
    have hbit : (pteAt s.mem root (a / PGSIZE)).testBit 0 ≠ false := by
      rw [hmapped]
      decide
    rw [if_neg hbit, ih hnext hrest (by omega), hsum]

/-- The loop finds all pages mapped. -/
theorem munmapLoop_all {stop fuel : Nat} {Q : Bool → Mm → Prop} (ha : a % PGSIZE = 0)
    (hgood : ∀ i < m, PageMapped s.mem root a i) (hstop : stop = a + m * PGSIZE)
    (hfuel : m < fuel) :
    Runs E (munmapLoop root stop fuel a) s Q ↔ Q true s := by
  obtain ⟨f, rfl⟩ : ∃ f, fuel = f + 1 + m := ⟨fuel - 1 - m, by omega⟩
  rw [munmapLoop_skip ha hgood hstop.ge, munmapLoop, if_neg (by omega), Runs.pure_iff]

/-- What the loop does at the first page that is not mapped. -/
theorem munmapLoop_missing {stop fuel : Nat} (ha : a % PGSIZE = 0)
    (hgood : ∀ i < m, PageMapped s.mem root a i) (hbad : ¬ PageMapped s.mem root a m)
    (hstop : a + m * PGSIZE < stop) (hfuel : m < fuel) {Q : Bool → Mm → Prop} :
    Runs (fun _ => False) (munmapLoop root stop fuel a) s Q ↔
      a + m * PGSIZE < MAXVA ∧ (slot s.mem root (a / PGSIZE + m)).isSome ∧ Q false s := by
  obtain ⟨f, rfl⟩ : ∃ f, fuel = f + 1 + m := ⟨fuel - 1 - m, by omega⟩
  have hvpn : (a + m * PGSIZE) / PGSIZE = a / PGSIZE + m := Nat.add_mul_div_right a m (by decide)
  rw [munmapLoop_skip ha hgood hstop.le, munmapLoop, if_pos hstop, Runs.bind_iff]
  by_cases hend : MAXVA ≤ a + m * PGSIZE
  · unfold walk
    rw [if_pos hend]
    exact iff_of_false not_false fun hc => absurd hc.1 (by omega)
  · have hlt := Nat.lt_of_not_le hend
    rw [runs_find hlt, hvpn]
    cases hslot : slot s.mem root (a / PGSIZE + m) with
    | none => exact iff_of_false not_false fun hc => by simp at hc
    | some pte =>
      have hbit : (pteAt s.mem root (a / PGSIZE + m)).testBit 0 = false := by
        by_contra hc
        exact hbad ⟨hlt, Bool.eq_true_of_not_eq_false hc⟩
      dsimp only
      rw [Runs.bind_iff, Runs.get_iff, get64_slot hslot, if_pos hbit, Runs.pure_iff]
      exact ⟨fun hQ => ⟨hlt, rfl, hQ⟩, fun hc => hc.2.2⟩

/-- Where pages are missing, there is a first one. -/
theorem first_bad {P : Nat → Prop} (h : ¬ ∀ i < n, P i) : ∃ m, (m < n ∧ ¬ P m) ∧ ∀ j < m, P j := by
  classical
  have hex : ∃ i, i < n ∧ ¬ P i := by
    by_contra hc
    exact h fun i hi => Classical.byContradiction fun hP => hc ⟨i, hi, hP⟩
  refine ⟨Nat.find hex, Nat.find_spec hex, fun j hj => ?_⟩
  by_contra hP
  exact Nat.find_min hex hj ⟨hj.trans (Nat.find_spec hex).1, hP⟩

/-! ## Rounding -/

theorem roundup_small (h : pagesOf len * PGSIZE < 2 ^ 64) :
    PGROUNDUP len = pagesOf len * PGSIZE ∧ PGROUNDUP len / PGSIZE = pagesOf len := by
  unfold pagesOf PGROUNDUP at *
  simp only [PGSIZE_eq] at *
  omega

/-- A range that leaves the 64-bit numbers ends before it starts. -/
theorem roundup_wraps (hlen : len < 2 ^ 64) (hstart : start < 2 ^ 64) (ha : start % PGSIZE = 0)
    (h : 2 ^ 64 ≤ start + pagesOf len * PGSIZE) :
    (start + PGROUNDUP len / PGSIZE * PGSIZE) % 2 ^ 64 ≤ start := by
  unfold pagesOf PGROUNDUP at *
  simp only [PGSIZE_eq] at *
  omega

/-! ## The call -/

/-- A page that is mapped has a leaf entry. -/
theorem AddrSpace.leafAt {hand : List Nat} {q : Nat} (h : AddrSpace lk s root l hand)
    (hq : q < 512 ^ 3) (hmapped : IsMapped s.mem root q) : PTE_FLAGS (pteAt s.mem root q) ≠
    PTE_V := by
  intro hc
  have hleaf := h.walkable.leaf q hq hmapped
  rw [flags_and, hc] at hleaf
  exact hleaf (by decide)

/-- The loops count at most the pages of the address space. -/
theorem pages_bound (h : n = 0 ∨ start + n * PGSIZE ≤ MAXVA) : n < MAXVA / PGSIZE + 1 := by
  rw [MAXVA_eq, PGSIZE_eq] at *
  omega

/-- The call, from the start of a page on. -/
theorem sys_munmap_aligned {Q : Int → Kernel → Prop}
    (hroot : (k.pool k.current_proc).pagetable = root) (ha : start % PGSIZE = 0) :
    Runs E (sys_munmap lk start len) k Q ↔
      Runs E (munmapLoop root ((start + PGROUNDUP len / PGSIZE * PGSIZE) % 2 ^ 64)
        (MAXVA / PGSIZE + 1) start) k.mm
        fun ok s => if ok = false then Q (-1) { k with mm := s }
          else Runs E (uvmunmap lk root start (PGROUNDUP len / PGSIZE) true) s
            fun _ s' => Q (PGROUNDUP len : Nat) { k with mm := s' } := by
  have haligned : ¬ start % 4096 ≠ 0 := not_not.mpr ha
  unfold sys_munmap
  rw [if_neg haligned, Runs.bind_iff, runs_curr_proc, hroot, Runs.bind_iff, runs_onMm]
  apply Runs.congr
  intro ok s
  cases ok with
  | false => rfl
  | true => simp [runs_onMm]

/-- The call from an address that does not start a page. -/
theorem sys_munmap_unaligned (ha : start % PGSIZE ≠ 0) : MunmapFine lk k start len := by
  unfold MunmapFine sys_munmap
  rw [if_pos (by rwa [← PGSIZE_eq])]
  exact Or.inl ⟨Or.inl ha, rfl, rfl⟩

/-- A range that leaves the 64-bit numbers is unmapped with success, though
none of it is mapped. -/
theorem munmap_wraps (hroot : (k.pool k.current_proc).pagetable = root) (hstart : start < 2 ^ 64)
    (hlen : len < 2 ^ 64) (ha : start % PGSIZE = 0)
    (hwrap : 2 ^ 64 ≤ start + pagesOf len * PGSIZE) :
    ¬ MunmapFine lk k start len := by
  have hstop := roundup_wraps hlen hstart ha hwrap
  have hmax := MAXVA_eq
  have hn : 0 < pagesOf len := by
    by_contra hc
    rw [Nat.eq_zero_of_not_pos hc, Nat.zero_mul] at hwrap
    omega
  have hbad : MunmapBad k.mm.mem root start len := by
    refine Or.inr ⟨pagesOf len - 1, by omega, fun hc => ?_⟩
    have := hc.1
    simp only [PGSIZE_eq] at *
    omega
  unfold MunmapFine
  rw [hroot, sys_munmap_aligned hroot ha, munmapLoop, if_neg (by omega), Runs.pure_iff,
    if_neg (by decide)]
  intro hrun
  have hnone : Runs (fun _ => False) (uvmunmap lk root start (PGROUNDUP len / PGSIZE) true) k.mm
      fun _ s => s = k.mm :=
    uvmunmap_none ha hstop
  obtain ⟨_, s, _, ⟨_, hr, _⟩ | ⟨hgood, _⟩, _⟩ := (Runs.and hrun hnone).exists_ok fun e he => he.1
  · omega
  · exact hgood hbad

/-- The call over pages that are all mapped. -/
theorem munmap_mapped (h : AddrSpace lk k.mm root l [])
    (hroot : (k.pool k.current_proc).pagetable = root) (hstart : start < 2 ^ 64)
    (ha : start % PGSIZE = 0) (hend : start + pagesOf len * PGSIZE < 2 ^ 64)
    (hall : ∀ i < pagesOf len, PageMapped k.mm.mem root start i) :
    MunmapFine lk k start len ↔ AllFrames lk k.mm.mem root start len := by
  obtain ⟨hlen, hpages⟩ := roundup_small (by omega : pagesOf len * PGSIZE < 2 ^ 64)
  have hmax := MAXVA_eq
  have hlast : pagesOf len = 0 ∨ start + pagesOf len * PGSIZE ≤ MAXVA := by
    by_cases hn : pagesOf len = 0
    · exact Or.inl hn
    · have := (hall (pagesOf len - 1) (by omega)).1
      simp only [PGSIZE_eq] at *
      omega
  have hgood : ¬ MunmapBad k.mm.mem root start len := by
    rintro (hbad | ⟨i, hi, hbad⟩)
    · exact hbad ha
    · exact hbad (hall i hi)
  -- With all pages mapped, the call is the call of `uvmunmap`.
  unfold MunmapFine
  rw [hroot, sys_munmap_aligned hroot ha, hlen, Nat.mul_div_cancel _ (by decide),
    Nat.mod_eq_of_lt hend, munmapLoop_all ha hall rfl (pages_bound hlast), if_neg (by decide)]
  rcases hlast with hzero | hlast
  · -- An empty range.
    have hall' : AllFrames lk k.mm.mem root start len := by
      intro i hi
      omega
    refine iff_of_true ?_ hall'
    have hnone : (start + pagesOf len * PGSIZE) % 2 ^ 64 ≤ start := by
      rw [hzero, Nat.mod_eq_of_lt (by omega)]
      omega
    apply (uvmunmap_none ha hnone).imp
    rintro _ s rfl
    refine Or.inr ⟨hgood, rfl, rfl, fun q _ => ?_, fun a => ?_⟩
    · rw [hzero, if_neg (by omega)]
    · simp [hzero]
  have hrun := h.uvmunmap_runs ha hlast
  have hvpn : start / PGSIZE + pagesOf len ≤ 512 ^ 3 := by
    simp only [PGSIZE_eq] at *
    omega
  constructor
  · intro hfine i hi
    obtain ⟨_, _, _, _, _, _, _, hun⟩ := (Runs.and hfine hrun).exists_ok fun e he => he.1
    exact ⟨hall i hi, (hun.good (start / PGSIZE + i) (Nat.le_add_right ..) (by omega)).frame rfl⟩
  · intro hframes
    have hcan : ∀ q, start / PGSIZE ≤ q → q < start / PGSIZE + pagesOf len →
        CanUnmap lk k.mm.mem root true q := by
      intro q hq1 hq2
      obtain ⟨i, rfl⟩ := Nat.exists_eq_add_of_le hq1
      obtain ⟨⟨_, hmapped⟩, hframe⟩ := hframes i (by omega)
      exact ⟨hmapped, h.leafAt (by omega) hmapped, fun _ => hframe⟩
    apply hrun.mono fun e he => he hcan
    rintro _ s ⟨l', h', _, hun⟩
    refine Or.inr ⟨hgood, rfl, rfl, hun.pte, fun a => ?_⟩
    rw [isFree_iff h'.space.free, isFree_iff h.space.free, hun.list, List.mem_append,
      List.mem_reverse, mem_freed, or_comm]
    apply or_congr_right
    constructor
    · rintro ⟨_, q, hq1, hq2, hq⟩
      obtain ⟨i, rfl⟩ := Nat.exists_eq_add_of_le hq1
      exact ⟨i, by omega, hq⟩
    · rintro ⟨i, hi, ha⟩
      exact ⟨rfl, _, Nat.le_add_right .., by omega, ha⟩

/-- The call over pages of which one is not mapped. -/
theorem munmap_missing (hroot : (k.pool k.current_proc).pagetable = root) (ha : start % PGSIZE = 0)
    (hend : start + pagesOf len * PGSIZE < 2 ^ 64) (hm : m < pagesOf len)
    (hgood : ∀ i < m, PageMapped k.mm.mem root start i)
    (hbad : ¬ PageMapped k.mm.mem root start m) :
    MunmapFine lk k start len ↔
      start + m * PGSIZE < MAXVA ∧ (slot k.mm.mem root (start / PGSIZE + m)).isSome := by
  obtain ⟨hlen, hpages⟩ := roundup_small (by omega : pagesOf len * PGSIZE < 2 ^ 64)
  have hfuel : m < MAXVA / PGSIZE + 1 := by
    apply @pages_bound start m
    by_cases hzero : m = 0
    · exact Or.inl hzero
    · have := (hgood (m - 1) (by omega)).1
      rw [MAXVA_eq, PGSIZE_eq] at *
      omega
  have hstop : start + m * PGSIZE < start + pagesOf len * PGSIZE :=
    Nat.add_lt_add_left (Nat.mul_lt_mul_of_pos_right hm (by decide)) start
  have hbad' : MunmapBad k.mm.mem root start len := Or.inr ⟨m, hm, hbad⟩
  unfold MunmapFine
  rw [hroot, sys_munmap_aligned hroot ha, hlen, Nat.mul_div_cancel _ (by decide),
    Nat.mod_eq_of_lt hend, munmapLoop_missing ha hgood hbad hstop hfuel, if_pos rfl]
  exact ⟨fun hc => ⟨hc.1, hc.2.1⟩, fun hc => ⟨hc.1, hc.2, Or.inl ⟨hbad', rfl, rfl⟩⟩⟩

/-- `sys_munmap` is all or nothing, exactly when its range is not that of pages,
or all its pages are mapped and the allocator's, or its first page that is not
mapped has its last table. -/
theorem munmap_is_all_or_nothing (h : AddrSpace lk k.mm root l [])
    (hroot : (k.pool k.current_proc).pagetable = root) (hstart : start < 2 ^ 64)
    (hlen : len < 2 ^ 64) :
    MunmapFine lk k start len ↔
      start % PGSIZE ≠ 0 ∨ AllFrames lk k.mm.mem root start len ∨
      StopsAtEntry k.mm.mem root start len := by
  by_cases ha : start % PGSIZE ≠ 0
  · exact iff_of_true (sys_munmap_unaligned ha) (Or.inl ha)
  have ha := not_not.mp ha
  by_cases hwrap : 2 ^ 64 ≤ start + pagesOf len * PGSIZE
  · refine iff_of_false (munmap_wraps hroot hstart hlen ha hwrap) ?_
    rintro (hc | hc | hc)
    · exact hc ha
    · have := (hc (pagesOf len - 1) (by rw [PGSIZE_eq] at hwrap; omega)).1.1
      rw [MAXVA_eq, PGSIZE_eq] at *
      omega
    · exact absurd hc.1 (by omega)
  have hend := Nat.lt_of_not_le hwrap
  by_cases hall : ∀ i < pagesOf len, PageMapped k.mm.mem root start i
  · rw [munmap_mapped h hroot hstart ha hend hall]
    refine ⟨fun hc => Or.inr (Or.inl hc), fun hc => ?_⟩
    rcases hc with hc | hc | ⟨_, i, hi, _, _, _, hc⟩
    · exact absurd ha hc
    · exact hc
    · exact absurd (hall i hi).2 hc
  · obtain ⟨m, ⟨hm, hbad⟩, hgood⟩ := first_bad hall
    rw [munmap_missing hroot ha hend hm hgood hbad]
    constructor
    · rintro ⟨hlt, hslot⟩
      exact Or.inr (Or.inr ⟨hend, m, hm, hgood, hlt, hslot, fun hc => hbad ⟨hlt, hc⟩⟩)
    · rintro (hc | hc | ⟨_, i, hi, hgood', hlt, hslot, hun⟩)
      · exact absurd ha hc
      · exact absurd (hc m hm).1 hbad
      · -- Both are the first page that is not mapped.
        have hmi : m = i := by
          rcases Nat.lt_trichotomy m i with hlt | heq | hgt
          · exact absurd (hgood' m hlt) hbad
          · exact heq
          · exact absurd (hgood i hgt).2 hun
        rw [hmi]
        exact ⟨hlt, hslot⟩

/-- The first page of a process that runs. -/
theorem munmap_is_all_or_nothing_of_a_page : ∃ k : Kernel,
    IsMapped k.mm.mem (k.pool k.current_proc).pagetable 0 ∧ MunmapFine pageLink k 0 4096 := by
  obtain ⟨mm, root, sz, l, hs, hloaded, _⟩ := onePageApp_loaded
  have h : AddrSpace pageLink (forkKernel mm root sz).mm root l [] := hs.space root rfl
  have hdecode := (hloaded.pages 0 (by decide)).decode
  have hframes : AllFrames pageLink mm.mem root 0 4096 := by
    intro i hi
    obtain rfl := Nat.lt_one_iff.mp hi
    refine ⟨⟨?_, hdecode.1⟩, hdecode.2.1⟩
    rw [MAXVA_eq]
    decide
  exact ⟨forkKernel mm root sz, hdecode.1,
    (munmap_is_all_or_nothing h rfl (by decide) (by decide)).mpr (Or.inr (Or.inl hframes))⟩

/-- The first page above the address space makes the kernel panic. -/
theorem a_page_above_all_stops_munmap :
    ¬ ∀ (lk : Link) (k : Kernel) (l : List Nat) (start len : Nat),
    AddrSpace lk k.mm (k.pool k.current_proc).pagetable l [] → start < 2 ^ 64 → len < 2 ^ 64 →
    MunmapFine lk k start len := by
  intro hall
  obtain ⟨mm, root, sz, l, hs, _⟩ := onePageApp_loaded
  have h : AddrSpace pageLink (forkKernel mm root sz).mm root l [] := hs.space root rfl
  have hfine := hall pageLink (forkKernel mm root sz) l (2 ^ 38) 1 h (by decide) (by decide)
  have hbad : ¬ PageMapped (forkKernel mm root sz).mm.mem root (2 ^ 38) 0 := by
    rintro ⟨hlt, _⟩
    rw [MAXVA_eq] at hlt
    omega
  have hpanic :=
    (munmap_missing (k := forkKernel mm root sz) rfl (by decide) (by decide)
      (by decide : 0 < pagesOf 1)
    (fun j hj => absurd hj (Nat.not_lt_zero j)) hbad).mp hfine
  exact absurd hpanic.1 (by rw [MAXVA_eq]; decide)

end ThuKernel
