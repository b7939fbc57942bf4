-- Mapping and unmapping pages: `mappages` and `uvmunmap` as changes of the
-- partial map from page numbers to entries.
import ThuKernel.Vm.Walk

namespace ThuKernel

/-! ## The map -/

/-- The entry that `mappages` stores for a page. The address is a 64-bit
number. -/
def leafPte (pa perm : Nat) : Nat := PA2PTE (pa % 2 ^ 64) ||| perm ||| PTE_V

/-- Some page is mapped at the page number. -/
def IsMapped (mem : Bytes) (root vpn : Nat) : Prop := (pteAt mem root vpn).testBit 0 = true

instance (mem : Bytes) (root vpn : Nat) : Decidable (IsMapped mem root vpn) :=
  inferInstanceAs (Decidable (_ = true))

variable {lk : Link} {E : Stop → Prop} {s s₁ s₂ : Mm} {root pa perm v n k : Nat}
  {l l₁ l₂ : List Nat}

theorem leafPte_mod (pa perm : Nat) : leafPte (pa % 2 ^ 64) perm = leafPte pa perm := by
  unfold leafPte
  rw [Nat.mod_mod]

theorem leafPte_lt (pa : Nat) (hperm : perm < 2 ^ 64) : leafPte pa perm < 2 ^ 64 := by
  have h : pa % 2 ^ 64 < 2 ^ 64 := Nat.mod_lt _ (Nat.two_pow_pos 64)
  have hword := PA2PTE_eq (pa % 2 ^ 64)
  unfold leafPte
  apply Nat.or_lt_two_pow
  · apply Nat.or_lt_two_pow
    · omega
    · exact hperm
  · decide

theorem leafPte_valid (pa perm : Nat) : (leafPte pa perm).testBit 0 = true := by
  unfold leafPte
  rw [Nat.testBit_or, show PTE_V.testBit 0 = true from rfl, Bool.or_true]

/-- The page and the flags of an entry, when the permissions are flags. -/
theorem leafPte_decode (hpa : pa % PGSIZE = 0) (hperm : perm < 1024) :
    PTE2PA (leafPte pa perm) = pa % 2 ^ 64 ∧ PTE_FLAGS (leafPte pa perm) = perm ||| PTE_V := by
  have hflags : perm ||| PTE_V < 1024 := Nat.or_lt_two_pow (n := 10) hperm (by decide)
  have hpage : IsPage (pa % 2 ^ 64) := by
    refine ⟨?_, Nat.mod_lt _ (Nat.two_pow_pos 64)⟩
    simp only [PGSIZE_eq] at hpa ⊢
    omega
  unfold leafPte
  rw [Nat.or_assoc]
  exact ⟨PTE2PA_pte hflags hpage, PTE_FLAGS_pte hflags _⟩

/-! ## Mapping -/

/-- The first `k` of `n` pages from `v` on were mapped, and the result is `r`:
all of them, or the next one is mapped already or has no table. -/
structure Maps (root v n pa perm : Nat) (s s' : Mm) (l l' : List Nat) (r : Int) (k : Nat) :
    Prop where
  grows : Grows root s s' l l'
  fresh : ∀ i < k, ¬ IsMapped s.mem root (v + i)
  pte : ∀ q < 512 ^ 3, pteAt s'.mem root q =
    if v ≤ q ∧ q < v + k then leafPte (pa + (q - v) * PGSIZE) perm else pteAt s.mem root q
  result : (r = 0 ∧ k = n) ∨ (r = -1 ∧ k < n ∧
    (IsMapped s.mem root (v + k) ∨ (l' = [] ∧ ¬ IsMapped s.mem root (v + k))))

/-- Storing an entry of a page number changes that entry only. -/
theorem Space.store (hs : Space lk s root l) (hv : v < 512 ^ 3) {pte w : Nat}
    (hpte : slot s.mem root v = some pte) (hw : w < 2 ^ 64) :
    Space lk { s with mem := s.mem.put64 pte w } root l ∧
      SameTables root s { s with mem := s.mem.put64 pte w } ∧
      SameOn PGSIZE (fun a => ¬ TableOf s.mem root a) s.mem (s.mem.put64 pte w) ∧
      ∀ q < 512 ^ 3, pteAt (s.mem.put64 pte w) root q =
      if q = v then w else pteAt s.mem root q := by
  have hstore := hs.table.leafStore hv hpte hw
  obtain ⟨t, ht, rfl⟩ := Option.map_eq_some_iff.mp hpte
  have htable : TableOf s.mem root t := ⟨2, Nat.le_refl _, v / 512, by omega, ht⟩
  have hof := tableOf_congr hstore.table
  have hsame : SameOn PGSIZE (· ≠ t) s.mem (s.mem.put64 (t + 8 * (v % 512)) w) :=
    SameOn.put64 (htable.isPage hs.table.page).aligned (by rw [PGSIZE_eq]; omega)
  refine ⟨⟨?_, hs.table.congr hstore.table, ?_⟩, ⟨hstore.table, hstore.plain⟩, ?_, hstore.pte⟩
  · refine hs.free.same (fun a ha => ?_) hsame rfl
    rintro rfl
    exact hs.apart a ha htable
  · intro a ha hta
    exact hs.apart a ha ((hof a).mp hta)
  · apply hsame.mono
    rintro a ha rfl
    exact ha htable

theorem mappagesLoop_runs (hperm : perm < 2 ^ 64) (fuel v n pa : Nat) (hfuel : n ≤ fuel)
    (hn : 0 < n) (hend : (v + n) * PGSIZE ≤ MAXVA) (hs : Space lk s root l) :
    Runs E (mappagesLoop root perm ((v + n - 1) * PGSIZE) fuel (v * PGSIZE) (pa % 2 ^ 64)) s
      (fun r s' => ∃ l' k, Space lk s' root l' ∧ Maps root v n pa perm s s' l l' r k) := by
  induction fuel generalizing s l v n pa with
  | zero => omega
  | succ fuel ih =>
    have hva : v * PGSIZE < MAXVA := by
      rw [PGSIZE_eq] at *
      omega
    have hvpn : v * PGSIZE / PGSIZE = v := Nat.mul_div_cancel v (by decide)
    have hlt := vpn_lt hva
    rw [hvpn] at hlt
    unfold mappagesLoop
    apply (walk_runs hva hs).bind
    rintro r s₁ ⟨l₁, hs₁, hgrow, hsame, hr, hnone, _⟩
    rw [hvpn] at hr
    cases r with
    | none =>
      -- No page for a table on the way.
      have hempty : ¬ IsMapped s.mem root v := by
        unfold IsMapped
        rw [← hsame v hlt, slot_none hr.symm, Nat.zero_testBit]
        decide
      refine ⟨l₁, 0, hs₁, hgrow, fun i hi => absurd hi (by omega), fun q hq => ?_, ?_⟩
      · rw [if_neg (by omega), hsame q hq]
      · exact Or.inr ⟨rfl, hn, Or.inr ⟨(hnone rfl).1, hempty⟩⟩
    | some pte =>
      dsimp only
      rw [Runs.bind_iff, Runs.get_iff, get64_slot hr.symm, hsame v hlt]
      split
      · -- The page is mapped already.
        rename_i hv
        refine ⟨l₁, 0, hs₁, hgrow, fun i hi => absurd hi (by omega), fun q hq => ?_, ?_⟩
        · rw [if_neg (by omega), hsame q hq]
        · exact Or.inr ⟨rfl, hn, Or.inl hv⟩
      · rename_i hv
        rw [Runs.bind_iff, storePte, Runs.modify_iff]
        obtain ⟨hs₂, htables₂, hsame₂, hpte₂⟩ := hs₁.store hlt hr.symm (leafPte_lt pa hperm)
        have hgrow₂ := htables₂.grows hsame₂ (l := l₁)
        have hfirst : ∀ q < 512 ^ 3, pteAt (s₁.mem.put64 pte (leafPte pa perm)) root q =
            if q = v then leafPte pa perm else pteAt s.mem root q := by
          intro q hq
          rw [hpte₂ q hq, hsame q hq]
        split
        · -- The last page.
          rename_i hlast
          have hn1 : n = 1 := by
            rw [PGSIZE_eq] at hlast
            omega
          refine ⟨l₁, 1, hs₂, hgrow.trans hgrow₂, fun i hi => ?_, fun q hq => ?_,
            Or.inl ⟨rfl, hn1.symm⟩⟩
          · rw [show v + i = v by omega]
            exact hv
          · refine (hfirst q hq).trans ?_
            by_cases hqv : q = v
            · rw [if_pos hqv, if_pos (by omega), hqv, Nat.sub_self, Nat.zero_mul, Nat.add_zero]
            · rw [if_neg hqv, if_neg (by omega)]
        · rename_i hmore
          have hn2 : 1 < n := by
            rw [PGSIZE_eq] at hmore
            by_contra hc
            apply hmore
            rw [show v + n - 1 = v by omega]
          have hih := ih (v + 1) (n - 1) (pa % 2 ^ 64 + PGSIZE) (by omega) (by omega)
            (by rwa [show v + 1 + (n - 1) = v + n by omega]) hs₂
          rw [show v + 1 + (n - 1) - 1 = v + n - 1 by omega, Nat.add_mul, Nat.one_mul] at hih
          apply hih.imp
          rintro r s₃ ⟨l₃, k, hs₃, hmaps⟩
          refine ⟨l₃, k + 1, hs₃, (hgrow.trans hgrow₂).trans hmaps.grows, fun i hi => ?_,
            fun q hq => ?_, ?_⟩
          · cases i with
            | zero => exact hv
            | succ i =>
              have := hmaps.fresh i (by omega)
              unfold IsMapped at this ⊢
              have hq : v + 1 + i < 512 ^ 3 := by
                have h1 := hmaps.result
                have h2 := MAXVA_eq
                rw [PGSIZE_eq] at hend
                omega
              rw [hfirst _ hq, if_neg (by omega)] at this
              rwa [show v + (i + 1) = v + 1 + i by omega]
          · rw [hmaps.pte q hq, hfirst q hq]
            by_cases hqv : q = v
            · rw [if_neg (by omega), if_pos hqv, if_pos (by omega), hqv, Nat.sub_self, Nat.zero_mul,
                Nat.add_zero]
            · by_cases hin : v + 1 ≤ q ∧ q < v + 1 + k
              · have haddr : (pa % 2 ^ 64 + PGSIZE + (q - (v + 1)) * PGSIZE) % 2 ^ 64 =
                    (pa + (q - v) * PGSIZE) % 2 ^ 64 := by
                  simp only [PGSIZE_eq]
                  omega
                rw [if_pos hin, if_pos (by omega)]
                calc leafPte (pa % 2 ^ 64 + PGSIZE + (q - (v + 1)) * PGSIZE) perm
                    = leafPte ((pa % 2 ^ 64 + PGSIZE + (q - (v + 1)) * PGSIZE) % 2 ^ 64) perm :=
                      (leafPte_mod _ _).symm
                  _ = leafPte ((pa + (q - v) * PGSIZE) % 2 ^ 64) perm :=
                    congrArg (leafPte · perm) haddr
                  _ = leafPte (pa + (q - v) * PGSIZE) perm := leafPte_mod _ _
              · rw [if_neg hin, if_neg hqv, if_neg (by omega)]
          · rcases hmaps.result with ⟨h1, h2⟩ | ⟨h1, h2, h3⟩
            · exact Or.inl ⟨h1, by omega⟩
            · refine Or.inr ⟨h1, by omega, ?_⟩
              have hq : v + 1 + k < 512 ^ 3 := by
                have h2 := MAXVA_eq
                rw [PGSIZE_eq] at hend
                omega
              unfold IsMapped at h3 ⊢
              rwa [hfirst _ hq, if_neg (by omega), show v + 1 + k = v + (k + 1) by omega] at h3

theorem mappages_runs {va size : Nat} (hperm : perm < 2 ^ 64) (hpa : pa < 2 ^ 64) (hsize : 0 < size)
    (hend : va + size ≤ MAXVA) (hs : Space lk s root l) :
    Runs E (mappages root va size pa perm) s (fun r s' => ∃ l' k, Space lk s' root l' ∧
      Maps root (va / PGSIZE) ((va + size - 1) / PGSIZE - va / PGSIZE + 1) pa perm s s'
      l l' r k) := by
  have hmax := MAXVA_eq
  have hlast : (va + size + 2 ^ 64 - 1) % 2 ^ 64 = va + size - 1 := by omega
  have hle : va / PGSIZE ≤ (va + size - 1) / PGSIZE := Nat.div_le_div_right (by omega)
  obtain ⟨n, hn⟩ : ∃ n, (va + size - 1) / PGSIZE = va / PGSIZE + n :=
    ⟨_, (Nat.add_sub_of_le hle).symm⟩
  unfold mappages PGROUNDDOWN
  rw [hlast, hn, Nat.add_sub_cancel_left]
  have h := mappagesLoop_runs (E := E) hperm (MAXVA / PGSIZE + 1) (va / PGSIZE) (n + 1) pa
    (by rw [PGSIZE_eq] at *; omega) (by omega) (by rw [PGSIZE_eq] at *; omega) hs
  rwa [Nat.mod_eq_of_lt hpa] at h

/-! ## Unmapping -/

/-- The page at a page number. -/
def frameAt (mem : Bytes) (root vpn : Nat) : Nat := PTE2PA (pteAt mem root vpn)

/-- `uvmunmap` takes the page at the page number away without a panic. -/
structure CanUnmap (lk : Link) (mem : Bytes) (root : Nat) (do_free : Bool) (q : Nat) : Prop where
  mapped : IsMapped mem root q
  leaf : PTE_FLAGS (pteAt mem root q) ≠ PTE_V
  frame : do_free = true → IsFrame lk (frameAt mem root q)

/-- The pages that go to the free list, first one first. -/
def freed (mem : Bytes) (root : Nat) (do_free : Bool) (v n : Nat) : List Nat :=
  if do_free then (List.range' v n).map (frameAt mem root) else []

/-- The pages that are mapped are used for nothing else: not for a table, not
at another page number, and they are not free. -/
def FramesApart (lk : Link) (mem : Bytes) (root : Nat) (l : List Nat) (v n : Nat) : Prop :=
  ∀ q, v ≤ q → q < v + n → IsMapped mem root q → IsFrame lk (frameAt mem root q) →
    ¬ TableOf mem root (frameAt mem root q) ∧ frameAt mem root q ∉ l ∧
    ∀ q', v ≤ q' → q' < v + n → IsMapped mem root q' →
      frameAt mem root q' = frameAt mem root q → q' = q

/-- The `n` pages from `v` on were unmapped. -/
structure Unmaps (lk : Link) (root v n : Nat) (do_free : Bool) (s s' : Mm) (l l' : List Nat) :
    Prop where
  good : ∀ q, v ≤ q → q < v + n → CanUnmap lk s.mem root do_free q
  list : l' = (freed s.mem root do_free v n).reverse ++ l
  tables : SameTables root s s'
  pte : ∀ q < 512 ^ 3, pteAt s'.mem root q = if v ≤ q ∧ q < v + n then 0 else pteAt s.mem root q
  same : SameOn PGSIZE (fun a => ¬ TableOf s.mem root a ∧ a ∉ freed s.mem root do_free v n)
    s.mem s'.mem

/-- The page goes to the free list, if `do_free`. -/
theorem free_runs (hs : Space lk s root l) (do_free : Bool)
    (hpa : do_free = true → IsFrame lk pa → ¬ TableOf s.mem root pa ∧ pa ∉ l) :
    Runs (fun _ => ¬ (do_free = true → IsFrame lk pa)) (Prog.when (do_free = true) (kfree lk pa)) s
      (fun _ s' => (do_free = true → IsFrame lk pa) ∧
        Space lk s' root ((if do_free then [pa] else []) ++ l) ∧
        SameOn PGSIZE (· ∉ if do_free then [pa] else []) s.mem s'.mem ∧
        SameTables root s s' ∧ SamePtes root s s') := by
  cases do_free with
  | false =>
    rw [Prog.when, if_neg (by decide), Runs.pure_iff]
    exact ⟨fun h => (by cases h), hs, SameOn.refl, ⟨fun _ _ _ _ => rfl, fun h => h⟩, fun _ _ => rfl⟩
  | true =>
    rw [Prog.when, if_pos rfl]
    apply (kfree_runs hs.free fun hframe => (hpa rfl hframe).2).mono
    · intro e he hframe
      exact he (hframe rfl)
    · rintro _ s' ⟨hframe, hfree, hsame⟩
      have hno := (hpa rfl hframe).1
      have hkeep : ∀ a, TableOf s.mem root a → a ≠ pa := by
        rintro a ha rfl
        exact hno ha
      refine ⟨fun _ => hframe, hs.frame hsame hkeep hfree ?_, ?_,
        sameTables_frame hs.table.page hsame hkeep⟩
      · intro a ha
        rcases List.mem_cons.mp ha with rfl | ha
        · exact hno
        · exact hs.apart a ha
      · apply hsame.mono
        rintro a ha rfl
        exact ha (List.mem_singleton_self _)

theorem freed_add (mem : Bytes) (root : Nat) (do_free : Bool) (v m n : Nat) :
    freed mem root do_free v (m + n) =
      freed mem root do_free v m ++ freed mem root do_free (v + m) n := by
  unfold freed
  cases do_free with
  | false => rfl
  | true => rw [if_pos rfl, if_pos rfl, if_pos rfl, ← List.map_append, List.range'_append_1]

theorem freed_one (mem : Bytes) (root : Nat) (do_free : Bool) (v : Nat) :
    freed mem root do_free v 1 = if do_free then [frameAt mem root v] else [] := by
  unfold freed
  rw [List.range'_one, List.map_singleton]

theorem mem_freed {mem : Bytes} {do_free : Bool} {a : Nat} :
    a ∈ freed mem root do_free v n ↔
      do_free = true ∧ ∃ q, v ≤ q ∧ q < v + n ∧ frameAt mem root q = a := by
  unfold freed
  cases do_free with
  | false => simp
  | true =>
    simp only [if_true, List.mem_map, List.mem_range'_1, true_and]
    constructor
    · rintro ⟨q, ⟨h1, h2⟩, h3⟩
      exact ⟨q, h1, h2, h3⟩
    · rintro ⟨q, h1, h2, h3⟩
      exact ⟨q, ⟨h1, h2⟩, h3⟩

theorem freed_congr {mem mem' : Bytes} {do_free : Bool}
    (h : ∀ q, v ≤ q → q < v + n → pteAt mem' root q = pteAt mem root q) :
    freed mem' root do_free v n = freed mem root do_free v n := by
  unfold freed
  cases do_free with
  | false => simp only [Bool.false_eq_true, if_false]
  | true =>
    apply List.map_congr_left
    intro q hq
    rw [List.mem_range'_1] at hq
    unfold frameAt
    rw [h q hq.1 hq.2]

theorem canUnmap_congr {mem mem' : Bytes} {do_free : Bool} {q : Nat}
    (h : pteAt mem' root q = pteAt mem root q) :
    CanUnmap lk mem' root do_free q ↔ CanUnmap lk mem root do_free q := by
  constructor
  · rintro ⟨h1, h2, h3⟩
    unfold IsMapped at h1
    unfold frameAt at h3
    rw [h] at h1 h2 h3
    exact ⟨h1, h2, h3⟩
  · rintro ⟨h1, h2, h3⟩
    unfold IsMapped at h1
    unfold frameAt at h3
    rw [← h] at h1 h2 h3
    exact ⟨h1, h2, h3⟩

namespace Unmaps

variable {do_free : Bool} {m : Nat}

/-- The entries behind the range are as before. -/
theorem rest (h : Unmaps lk root v m do_free s s₁ l l₁) (hend : v + m + n ≤ 512 ^ 3) {q : Nat}
    (h1 : v + m ≤ q) (h2 : q < v + m + n) : pteAt s₁.mem root q = pteAt s.mem root q := by
  rw [h.pte q (by omega), if_neg (by omega)]

/-- Two ranges, one behind the other. -/
theorem trans (h : Unmaps lk root v m do_free s s₁ l l₁)
    (h' : Unmaps lk root (v + m) n do_free s₁ s₂ l₁ l₂) (hend : v + m + n ≤ 512 ^ 3) :
    Unmaps lk root v (m + n) do_free s s₂ l l₂ := by
  have hfreed : freed s₁.mem root do_free (v + m) n = freed s.mem root do_free (v + m) n :=
    freed_congr fun q h1 h2 => h.rest hend h1 h2
  refine ⟨fun q h1 h2 => ?_, ?_, h.tables.trans h'.tables, fun q hq => ?_, ?_⟩
  · by_cases hq : q < v + m
    · exact h.good q h1 hq
    · exact (canUnmap_congr (h.rest hend (n := n) (by omega) (by omega))).mp
        (h'.good q (by omega) (by omega))
  · rw [h'.list, h.list, hfreed, freed_add, List.reverse_append, List.append_assoc]
  · rw [h'.pte q hq, h.pte q hq]
    by_cases h1 : v + m ≤ q ∧ q < v + m + n
    · rw [if_pos h1, if_pos (by omega)]
    · rw [if_neg h1]
      by_cases h2 : v ≤ q ∧ q < v + m
      · rw [if_pos h2, if_pos (by omega)]
      · rw [if_neg h2, if_neg (by omega)]
  · rw [freed_add]
    apply (h.same.mono _).trans (h'.same.mono _)
    · rintro a ⟨ha, hl⟩
      exact ⟨ha, fun hc => hl (List.mem_append.mpr (Or.inl hc))⟩
    · rintro a ⟨ha, hl⟩
      refine ⟨fun hc => ha ((h.tables.tableOf a).mp hc), fun hc => ?_⟩
      rw [hfreed] at hc
      exact hl (List.mem_append.mpr (Or.inr hc))

/-- The pages of the range behind are still used for nothing else. -/
theorem apart (h : Unmaps lk root v m true s s₁ l l₁) (hend : v + m + n ≤ 512 ^ 3)
    (ha : FramesApart lk s.mem root l v (m + n)) : FramesApart lk s₁.mem root l₁ (v + m) n := by
  intro q h1 h2 hmapped hframe
  have hpte := h.rest hend h1 h2
  have hsame : ∀ q', v + m ≤ q' → q' < v + m + n →
      frameAt s₁.mem root q' = frameAt s.mem root q' := by
    intro q' h1 h2
    unfold frameAt
    rw [h.rest hend h1 h2]
  unfold IsMapped at hmapped
  rw [hpte] at hmapped
  rw [hsame q h1 h2] at hframe ⊢
  obtain ⟨h3, h4, h5⟩ := ha q (by omega) (by omega) hmapped hframe
  refine ⟨fun hc => h3 ((h.tables.tableOf _).mp hc), fun hc => ?_, fun q' h1' h2' hm' he => ?_⟩
  · rw [h.list, List.mem_append, List.mem_reverse, mem_freed] at hc
    rcases hc with ⟨_, q', h1', h2', he⟩ | hc
    · have := h5 q' h1' (by omega) (h.good q' h1' h2').mapped he
      omega
    · exact h4 hc
  · unfold IsMapped at hm'
    rw [h.rest hend h1' h2'] at hm'
    rw [hsame q' h1' h2'] at he
    exact h5 q' (by omega) (by omega) hm' he

end Unmaps

/-- One page: it goes to the free list, if `do_free`, and its entry is
cleared. -/
theorem unmapPage_runs (hs : Space lk s root l) (do_free : Bool) (hv : v < 512 ^ 3) {pte : Nat}
    (hpte : slot s.mem root v = some pte) (hmapped : IsMapped s.mem root v)
    (hleaf : PTE_FLAGS (pteAt s.mem root v) ≠ PTE_V)
    (hapart : do_free = true → FramesApart lk s.mem root l v 1) :
    Runs (fun _ => ¬ CanUnmap lk s.mem root do_free v) (do
        Prog.when (do_free = true) (kfree lk (frameAt s.mem root v))
        storePte pte 0) s
      (fun _ s' => ∃ l', Space lk s' root l' ∧ Unmaps lk root v 1 do_free s s' l l') := by
  rw [Runs.bind_iff]
  have hfree : do_free = true → IsFrame lk (frameAt s.mem root v) →
      ¬ TableOf s.mem root (frameAt s.mem root v) ∧ frameAt s.mem root v ∉ l := fun hdo hframe =>
    have h := hapart hdo v (Nat.le_refl _) (by omega) hmapped hframe
    ⟨h.1, h.2.1⟩
  apply (free_runs hs do_free hfree).mono
  · intro e he hcan
    exact he hcan.frame
  · rintro _ s₁ ⟨hframe, hs₁, hsame₁, htables₁, hptes₁⟩
    have hslot₁ : slot s₁.mem root v = some pte := by
      unfold slot
      rw [htables₁.table 2 (Nat.le_refl _) _ (by omega)]
      exact hpte
    obtain ⟨hs₂, htables₂, hsame₂, hpte₂⟩ := hs₁.store hv hslot₁ (w := 0) (by decide)
    rw [storePte, Runs.modify_iff]
    refine ⟨_, hs₂, fun q h1 h2 => ?_, ?_, htables₁.trans htables₂, fun q hq => ?_, ?_⟩
    · rw [show q = v by omega]
      exact ⟨hmapped, hleaf, hframe⟩
    · rw [freed_one]
      cases do_free <;> rfl
    · rw [hpte₂ q hq, hptes₁ q hq]
      by_cases hqv : q = v
      · rw [if_pos hqv, if_pos (by omega)]
      · rw [if_neg hqv, if_neg (by omega)]
    · rw [freed_one]
      apply (hsame₁.mono fun a ha => ha.2).trans (hsame₂.mono _)
      intro a ha hc
      exact ha.1 ((htables₁.tableOf a).mp hc)

/-- `uvmunmap` clears the entries of the range. It panics if a page of the
range cannot be unmapped. -/
theorem uvmunmapLoop_runs (do_free : Bool) (fuel v n : Nat) (hfuel : n < fuel)
    (hend : (v + n) * PGSIZE ≤ MAXVA) (hs : Space lk s root l)
    (hapart : do_free = true → FramesApart lk s.mem root l v n) :
    Runs (fun _ => ¬ ∀ q, v ≤ q → q < v + n → CanUnmap lk s.mem root do_free q)
      (uvmunmapLoop lk root ((v + n) * PGSIZE) do_free fuel (v * PGSIZE)) s
      (fun _ s' => ∃ l', Space lk s' root l' ∧ Unmaps lk root v n do_free s s' l l') := by
  induction fuel generalizing s l v n with
  | zero => omega
  | succ fuel ih =>
    have hmax := MAXVA_eq
    have hlimit : v + n ≤ 512 ^ 3 := by
      rw [PGSIZE_eq] at *
      omega
    unfold uvmunmapLoop
    cases n with
    | zero =>
      -- The end of the range.
      rw [Nat.add_zero, if_neg (Nat.lt_irrefl _), Runs.pure_iff]
      refine ⟨l, hs, fun q h1 h2 => absurd h1 (by omega), ?_, ⟨fun _ _ _ _ => rfl, fun h => h⟩,
        fun q _ => ?_, SameOn.refl⟩
      · cases do_free <;> rfl
      · rw [if_neg (by omega)]
    | succ n =>
      have hva : v * PGSIZE < MAXVA := by
        rw [PGSIZE_eq] at *
        omega
      have hvpn : v * PGSIZE / PGSIZE = v := Nat.mul_div_cancel v (by decide)
      have hhere : v ≤ v ∧ v < v + (n + 1) := by omega
      rw [if_pos (by rw [PGSIZE_eq]; omega), Runs.bind_iff, runs_find hva, hvpn]
      cases hslot : slot s.mem root v with
      | none =>
        intro hgood
        have := (hgood v hhere.1 hhere.2).mapped
        rw [IsMapped, slot_none hslot, Nat.zero_testBit] at this
        cases this
      | some pte =>
        dsimp only
        rw [Runs.bind_iff, Runs.get_iff, get64_slot hslot]
        split
        · rename_i hv
          intro hgood
          have := (hgood v hhere.1 hhere.2).mapped
          rw [IsMapped, hv] at this
          cases this
        · rename_i hv
          have hmapped : IsMapped s.mem root v := by
            unfold IsMapped
            simpa using hv
          split
          · rename_i hleaf
            intro hgood
            exact (hgood v hhere.1 hhere.2).leaf hleaf
          · rename_i hleaf
            have hone := unmapPage_runs hs do_free (by omega) hslot hmapped hleaf
              fun hdo q h1 h2 hm hf => by
              obtain ⟨h3, h4, h5⟩ := hapart hdo q h1 (by omega) hm hf
              exact ⟨h3, h4, fun q' h1' h2' => h5 q' h1' (by omega)⟩
            rw [Runs.bind_iff] at hone
            rw [Runs.bind_iff]
            apply hone.mono
            · intro e he hgood
              exact he (hgood v hhere.1 hhere.2)
            · intro _ s₁ h
              rw [Runs.bind_iff]
              apply h.mono
              · intro e he hgood
                exact he (hgood v hhere.1 hhere.2)
              · rintro _ s₂ ⟨l₂, hs₂, h₂⟩
                have hnext : v + 1 + n = v + (n + 1) := by omega
                have hih := ih (v + 1) n (by omega) (by rw [hnext]; exact hend) hs₂ fun hdo => by
                  subst hdo
                  apply h₂.apart (by omega)
                  rw [Nat.add_comm 1 n]
                  exact hapart rfl
                rw [hnext, Nat.add_mul v 1, Nat.one_mul] at hih
                apply hih.mono
                · intro e he hgood
                  apply he
                  intro q h1 h2
                  rw [canUnmap_congr (h₂.rest (n := n) (by omega) h1 (by omega))]
                  exact hgood q (by omega) h2
                · rintro _ s₃ ⟨l₃, hs₃, h₃⟩
                  refine ⟨l₃, hs₃, ?_⟩
                  rw [Nat.add_comm n 1]
                  exact h₂.trans h₃ (by omega)

theorem uvmunmap_runs (do_free : Bool) {va npages : Nat} (hva : va % PGSIZE = 0)
    (hend : va + npages * PGSIZE ≤ MAXVA) (hs : Space lk s root l)
    (hapart : do_free = true → FramesApart lk s.mem root l (va / PGSIZE) npages) :
    Runs (fun _ => ¬ ∀ q, va / PGSIZE ≤ q → q < va / PGSIZE + npages →
      CanUnmap lk s.mem root do_free q)
      (uvmunmap lk root va npages do_free) s
      (fun _ s' => ∃ l', Space lk s' root l' ∧
        Unmaps lk root (va / PGSIZE) npages do_free s s' l l') := by
  have hmax := MAXVA_eq
  have hv : va / PGSIZE * PGSIZE = va := Nat.div_mul_cancel (Nat.dvd_of_mod_eq_zero hva)
  have hstop : (va + npages * PGSIZE) % 2 ^ 64 = (va / PGSIZE + npages) * PGSIZE := by
    rw [Nat.add_mul, hv]
    omega
  have hend' : (va / PGSIZE + npages) * PGSIZE ≤ MAXVA := by
    rw [Nat.add_mul, hv]
    exact hend
  have hfuel : npages < MAXVA / PGSIZE + 1 := by
    have := Nat.div_le_div_right (c := PGSIZE) hend'
    rw [Nat.mul_div_cancel _ (by decide)] at this
    exact Nat.lt_succ_of_le ((Nat.le_add_left _ _).trans this)
  unfold uvmunmap
  rw [if_neg (by omega), hstop]
  have h := uvmunmapLoop_runs do_free (MAXVA / PGSIZE + 1) (va / PGSIZE) npages hfuel
    hend' hs hapart
  rwa [hv] at h

/-! ## The partial map -/

/-- The page and the flags that a user address leads to, as `walk` finds them. -/
def translate (mem : Bytes) (root va : Nat) : Option (Nat × Nat) :=
  match slotAt mem va 2 root with
  | none => none
  | some pte =>
    let v := mem.get64 pte
    if v.testBit 0 then some (PTE2PA v, PTE_FLAGS v) else none

theorem translate_of_none {mem : Bytes} {va : Nat} (h : slotAt mem va 2 root = none) :
    translate mem root va = none := by
  unfold translate
  rw [h]

theorem translate_of_some {mem : Bytes} {va pte : Nat} (h : slotAt mem va 2 root = some pte) :
    translate mem root va =
      if (mem.get64 pte).testBit 0 then some (PTE2PA (mem.get64 pte), PTE_FLAGS (mem.get64 pte))
      else none := by
  unfold translate
  rw [h]

theorem translate_eq (mem : Bytes) (root va : Nat) : translate mem root va =
    if (pteAt mem root (va / PGSIZE)).testBit 0 then
      some (PTE2PA (pteAt mem root (va / PGSIZE)), PTE_FLAGS (pteAt mem root (va / PGSIZE)))
    else none := by
  cases h : slot mem root (va / PGSIZE) with
  | none =>
    rw [translate_of_none ((slotAt_root mem root va).trans h), slot_none h, Nat.zero_testBit]
    rfl
  | some pte =>
    have hsome := translate_of_some ((slotAt_root mem root va).trans h)
    rwa [get64_slot h] at hsome

theorem translate_mapped {mem : Bytes} {va : Nat} (h : IsMapped mem root (va / PGSIZE)) :
    translate mem root va =
      some (frameAt mem root (va / PGSIZE), PTE_FLAGS (pteAt mem root (va / PGSIZE))) := by
  unfold IsMapped at h
  rw [translate_eq, if_pos h]
  rfl

theorem translate_unmapped {mem : Bytes} {va : Nat} (h : ¬ IsMapped mem root (va / PGSIZE)) :
    translate mem root va = none := by
  unfold IsMapped at h
  rw [translate_eq, if_neg h]

theorem translate_congr {mem mem' : Bytes} {va : Nat}
    (h : pteAt mem' root (va / PGSIZE) = pteAt mem root (va / PGSIZE)) :
    translate mem' root va = translate mem root va := by
  rw [translate_eq, translate_eq, h]

/-- The address is in one of the pages from `va` to `va + size - 1`. -/
def InPages (va size a : Nat) : Prop :=
  va / PGSIZE ≤ a / PGSIZE ∧ a / PGSIZE ≤ (va + size - 1) / PGSIZE

/-- What `mappages` does to the map. -/
structure MapsPages (root va size pa perm : Nat) (mem mem' : Bytes) (r : Int) : Prop where
  result : r = 0 ∨ r = -1
  all : r = 0 → ∀ a, InPages va size a → translate mem root a = none ∧
    pteAt mem' root (a / PGSIZE) = leafPte (pa + (a / PGSIZE - va / PGSIZE) * PGSIZE) perm ∧
    (perm < 1024 → translate mem' root a =
      some ((pa + (a / PGSIZE - va / PGSIZE) * PGSIZE) % 2 ^ 64, perm ||| PTE_V))
  failed : r = -1 → va / PGSIZE = (va + size - 1) / PGSIZE → ∀ a < MAXVA,
    translate mem' root a = translate mem root a
  outside : ∀ a < MAXVA, ¬ InPages va size a → translate mem' root a = translate mem root a

theorem Maps.mapsPages {va size : Nat} {r : Int} (hpa : pa % PGSIZE = 0) (hend : va + size ≤ MAXVA)
    (hsize : 0 < size) (h : Maps root (va / PGSIZE)
      ((va + size - 1) / PGSIZE - va / PGSIZE + 1) pa perm s s₁ l l₁ r k) :
    MapsPages root va size pa perm s.mem s₁.mem r := by
  have hmax := MAXVA_eq
  have hle : va / PGSIZE ≤ (va + size - 1) / PGSIZE := Nat.div_le_div_right (by omega)
  have hresult := h.result
  refine ⟨?_, ?_, ?_, ?_⟩
  · omega
  · intro hr a ha
    have hlt : a / PGSIZE < 512 ^ 3 := vpn_lt (by
      have h1 := ha.2
      simp only [PGSIZE_eq] at h1
      omega)
    have hfresh := h.fresh (a / PGSIZE - va / PGSIZE) (by
      have h1 := ha.1
      have h2 := ha.2
      omega)
    rw [Nat.add_sub_cancel' ha.1] at hfresh
    have hpte := h.pte _ hlt
    rw [if_pos ⟨ha.1, by have h2 := ha.2; omega⟩] at hpte
    refine ⟨translate_unmapped hfresh, hpte, fun hperm => ?_⟩
    have haligned : (pa + (a / PGSIZE - va / PGSIZE) * PGSIZE) % PGSIZE = 0 := by
      rw [Nat.add_mul_mod_self_right]
      exact hpa
    obtain ⟨h1, h2⟩ := leafPte_decode haligned hperm
    rw [translate_mapped]
    · unfold frameAt
      rw [hpte, h1, h2]
    · unfold IsMapped
      rw [hpte, leafPte_valid]
  · intro hr hone a ha
    apply translate_congr
    rw [h.pte _ (vpn_lt ha), if_neg (by omega)]
  · intro a ha hout
    apply translate_congr
    rw [h.pte _ (vpn_lt ha), if_neg]
    rintro ⟨h1, h2⟩
    exact hout ⟨h1, by omega⟩

/-- `mappages` fails when a page of the range is mapped, or no page is free for a table. -/
theorem Maps.fails {va size : Nat} {r : Int} (hsize : 0 < size) (h : Maps root (va / PGSIZE)
    ((va + size - 1) / PGSIZE - va / PGSIZE + 1) pa perm s s₁ l l₁ r k) :
    r = 0 ∨ l₁ = [] ∨ ∃ a, InPages va size a ∧ translate s.mem root a ≠ none := by
  rcases h.result with ⟨hr, _⟩ | ⟨_, hk, hmapped | ⟨hnil, _⟩⟩
  · exact Or.inl hr
  · have hpage : (va / PGSIZE + k) * PGSIZE / PGSIZE = va / PGSIZE + k :=
      Nat.mul_div_cancel _ (by decide)
    refine Or.inr (Or.inr ⟨(va / PGSIZE + k) * PGSIZE, ⟨?_, ?_⟩, ?_⟩)
    · rw [hpage]
      exact Nat.le_add_right ..
    · rw [hpage]
      have hle : va / PGSIZE ≤ (va + size - 1) / PGSIZE := Nat.div_le_div_right (by omega)
      omega
    · rw [translate_mapped (by rwa [hpage])]
      exact Option.some_ne_none _
  · exact Or.inr (Or.inl hnil)

/-- A page table is a partial map: `mappages` adds the pages of its range, if
none of them was mapped and there are pages for the tables, or reports that it could
not; `uvmunmap` takes the pages of its range away; nothing else changes, and it stays a
page table. -/
theorem a_page_table_is_a_partial_map (hs : Space lk s root l) :
    (∀ va size pa perm, 0 < size → va + size ≤ MAXVA → pa % PGSIZE = 0 → pa < 2 ^ 64 →
      perm < 2 ^ 64 → Runs (fun _ => False) (mappages root va size pa perm) s (fun r s' =>
        (∃ l', Space lk s' root l' ∧ (r = 0 ∨ l' = [] ∨ ∃ a, InPages va size a ∧
          translate s.mem root a ≠ none)) ∧
          MapsPages root va size pa perm s.mem s'.mem r)) ∧
    (∀ va npages do_free, va % PGSIZE = 0 → va + npages * PGSIZE ≤ MAXVA →
      (do_free = true → FramesApart lk s.mem root l (va / PGSIZE) npages) →
      Runs (fun _ => ¬ ∀ q, va / PGSIZE ≤ q → q < va / PGSIZE + npages →
          CanUnmap lk s.mem root do_free q) (uvmunmap lk root va npages do_free) s (fun _ s' =>
        (∃ l', Space lk s' root l') ∧ ∀ a < MAXVA,
          if va / PGSIZE ≤ a / PGSIZE ∧ a / PGSIZE < va / PGSIZE + npages then
            translate s.mem root a ≠ none ∧ translate s'.mem root a = none
          else translate s'.mem root a = translate s.mem root a)) := by
  constructor
  · intro va size pa perm hsize hend hpa hpa' hperm
    apply (mappages_runs hperm hpa' hsize hend hs).imp
    rintro r s' ⟨l', k, hs', h⟩
    exact ⟨⟨l', hs', h.fails hsize⟩, h.mapsPages hpa hend hsize⟩
  · intro va npages do_free hva hend hapart
    apply (uvmunmap_runs do_free hva hend hs hapart).imp
    rintro _ s' ⟨l', hs', h⟩
    refine ⟨⟨l', hs'⟩, fun a ha => ?_⟩
    have hpte := h.pte _ (vpn_lt ha)
    split
    · rename_i hin
      rw [if_pos hin] at hpte
      rw [translate_mapped (h.good _ hin.1 hin.2).mapped, translate_unmapped]
      · simp
      · unfold IsMapped
        rw [hpte, Nat.zero_testBit]
        decide
    · rename_i hout
      rw [if_neg hout] at hpte
      exact translate_congr hpte

section OnePage

/-- An empty table at page 1, and two free pages. -/
def twoFreePages : Mm := ⟨Bytes.put64 (fun _ => 0) 0x2000 0x3000, 0x2000⟩

def pageLink : Link := ⟨PGSIZE, 0, [], Link.zero_aligned, Link.zero_inside⟩

theorem twoFreePages_space : Space pageLink twoFreePages 0x1000 [0x2000, 0x3000] := by
  have hzero : ∀ i < 512, entry twoFreePages.mem 0x1000 i = 0 := by
    intro i hi
    unfold entry twoFreePages
    rw [Bytes.get64_put64_ne (by omega)]
    exact Bytes.getLE_zero fun _ _ => rfl
  have hempty : Empty twoFreePages.mem 0x1000 := ⟨⟨by decide, by decide⟩, hzero⟩
  have hlast : twoFreePages.mem.get64 0x3000 = 0 := by decide +kernel
  refine ⟨⟨⟨rfl, by decide, by decide +kernel, by decide, hlast⟩, by decide, ?_⟩,
    hempty.pageTable, fun a ha hta => ?_⟩
  · intro a ha
    simp only [List.mem_cons, List.not_mem_nil, or_false] at ha
    rcases ha with rfl | rfl <;> exact ⟨by decide, by decide, by decide⟩
  · rw [hempty.tableOf] at hta
    subst hta
    simp at ha

/-- The page at address 0 is mapped, with two new tables. -/
theorem a_page_table_is_a_partial_map_one_page :
    Runs (fun _ => False) (mappages 0x1000 0 PGSIZE 0x4000 PTE_R) twoFreePages (fun r s' =>
      (∃ l', Space pageLink s' 0x1000 l' ∧ (r = 0 ∨ l' = [] ∨
        ∃ a, InPages 0 PGSIZE a ∧ translate twoFreePages.mem 0x1000 a ≠ none)) ∧
        MapsPages 0x1000 0 PGSIZE 0x4000 PTE_R twoFreePages.mem s'.mem r) :=
  (a_page_table_is_a_partial_map twoFreePages_space).1 0 PGSIZE 0x4000 PTE_R (by decide)
    (by rw [MAXVA_eq]; decide) (by decide) (by decide) (by decide)

end OnePage

end ThuKernel
