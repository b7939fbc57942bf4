-- Page tables as partial maps from page numbers to entries: which table page
-- covers which page numbers, and what a change of the memory does to a table.
import ThuKernel.Vm.Alloc
import ThuKernel.Vm.Copy

namespace ThuKernel

/-! ## The tables of a page table -/

/-- Entry `i` of the table page `t`. -/
def entry (mem : Bytes) (t i : Nat) : Nat := mem.get64 (t + 8 * i)

/-- The table that an entry of an upper table leads to. -/
def child (pte : Nat) : Option Nat := if pte.testBit 0 then some (PTE2PA pte) else none

/-- Table `n` at a depth below the root: the one for the page numbers with the
upper 9-bit indices `n`. -/
def tableAt (mem : Bytes) (root : Nat) : (depth : Nat) → (n : Nat) → Option Nat
  | 0, _ => some root
  | d + 1, n =>
    match tableAt mem root d (n / 512) with
    | none => none
    | some t => child (entry mem t (n % 512))

/-- The entry of a page number, 0 if there is no table for it. -/
def pteAt (mem : Bytes) (root vpn : Nat) : Nat :=
  match tableAt mem root 2 (vpn / 512) with
  | none => 0
  | some t => entry mem t (vpn % 512)

/-- The address of the entry of a page number. -/
def slot (mem : Bytes) (root vpn : Nat) : Option Nat :=
  (tableAt mem root 2 (vpn / 512)).map fun t => t + 8 * (vpn % 512)

/-- The page `a` is a table page. -/
def TableOf (mem : Bytes) (root a : Nat) : Prop :=
  ∃ d ≤ 2, ∃ n < 512 ^ d, tableAt mem root d n = some a

/-- A page table: no table page is used for two tables. -/
structure PageTable (mem : Bytes) (root : Nat) : Prop where
  page : IsPage root
  distinct : ∀ d ≤ 2, ∀ n < 512 ^ d, ∀ d' ≤ 2, ∀ n' < 512 ^ d', ∀ a,
    tableAt mem root d n = some a → tableAt mem root d' n' = some a → d = d' ∧ n = n'

/-- The entries of the upper tables have no flag but `PTE_V`, so `freewalk`
follows them. -/
def Plain (mem : Bytes) (root : Nat) : Prop :=
  ∀ d < 2, ∀ n < 512 ^ d, ∀ t, tableAt mem root d n = some t → ∀ i < 512,
    (entry mem t i).testBit 0 = true → entry mem t i &&& (PTE_R ||| PTE_W ||| PTE_X) = 0

variable {lk : Link} {mem mem' : Bytes} {root va vpn : Nat} {keep : Nat → Prop}

theorem PX_eq (level va : Nat) : PX level va = va / PGSIZE / 512 ^ level % 512 := by
  unfold PX PXSHIFT PXMASK PGSHIFT
  rw [Nat.shiftRight_eq_div_pow, Nat.pow_add, Nat.pow_mul, ← Nat.div_div_eq_div_mul]
  exact Nat.and_two_pow_sub_one_eq_mod _ 9

/-- A look-up finds the entry of the page number. -/
theorem slotAt_eq {level t : Nat} (hl : level ≤ 2)
    (ht : tableAt mem root (2 - level) (va / PGSIZE / 512 ^ (level + 1)) = some t) :
    slotAt mem va level t = slot mem root (va / PGSIZE) := by
  induction level generalizing t with
  | zero =>
    unfold slotAt slot
    rw [Nat.zero_add, Nat.pow_one] at ht
    rw [ht, PX_eq, Nat.pow_zero, Nat.div_one]
    rfl
  | succ level ih =>
    -- The table of the level below has the index of this entry.
    have hnext : tableAt mem root (2 - level) (va / PGSIZE / 512 ^ (level + 1)) =
        child (entry mem t (PX (level + 1) va)) := by
      rw [show 2 - level = 2 - (level + 1) + 1 by omega, tableAt, Nat.div_div_eq_div_mul,
        ← Nat.pow_succ, ht, PX_eq]
    unfold slotAt
    dsimp only
    split
    · rename_i hv
      apply ih (by omega)
      rw [hnext, child, entry, if_pos hv]
    · rename_i hv
      rw [child, entry, if_neg hv] at hnext
      -- No table below: the entry of the page number is missing.
      have hnone : ∀ k ≤ level, tableAt mem root (2 - k) (va / PGSIZE / 512 ^ (k + 1)) = none := by
        intro k hk
        induction hj : level - k generalizing k with
        | zero => rw [show k = level by omega]; exact hnext
        | succ j ihj =>
          have := ihj (k + 1) (by omega) (by omega)
          rw [show 2 - k = 2 - (k + 1) + 1 by omega, tableAt, Nat.div_div_eq_div_mul,
            ← Nat.pow_succ, this]
      have h0 := hnone 0 (by omega)
      rw [Nat.zero_add, Nat.pow_one] at h0
      unfold slot
      rw [h0]
      rfl

theorem slotAt_root (mem : Bytes) (root va : Nat) :
    slotAt mem va 2 root = slot mem root (va / PGSIZE) :=
  slotAt_eq (Nat.le_refl _) rfl

theorem slot_none (h : slot mem root vpn = none) : pteAt mem root vpn = 0 := by
  unfold slot at h
  unfold pteAt
  rw [Option.map_eq_none_iff.mp h]

theorem get64_slot {pte : Nat} (h : slot mem root vpn = some pte) :
    mem.get64 pte = pteAt mem root vpn := by
  unfold slot at h
  unfold pteAt
  obtain ⟨t, ht, rfl⟩ := Option.map_eq_some_iff.mp h
  rw [ht]
  rfl

theorem isPage_of_tableAt (hroot : IsPage root) {d n a : Nat} (h : tableAt mem root d n = some a) :
    IsPage a := by
  cases d with
  | zero =>
    cases h
    exact hroot
  | succ d =>
    unfold tableAt at h
    split at h
    · cases h
    · unfold child at h
      split at h
      · cases h
        exact isPage_PTE2PA _
      · cases h

theorem TableOf.isPage {a : Nat} (h : TableOf mem root a) (hroot : IsPage root) : IsPage a := by
  obtain ⟨d, _, n, _, h⟩ := h
  exact isPage_of_tableAt hroot h

theorem tableOf_root (mem : Bytes) (root : Nat) : TableOf mem root root :=
  ⟨0, by omega, 0, by omega, rfl⟩

/-! ## Changes of the memory -/

theorem entry_same {t i : Nat} (hsame : SameOn PGSIZE keep mem mem') (ht : IsPage t)
    (hkeep : keep t) (hi : i < 512) : entry mem' t i = entry mem t i :=
  hsame.get64 ht.aligned hkeep (by rw [PGSIZE_eq]; omega)

/-- What leaves the upper tables alone leaves the tables where they are. -/
theorem tableAt_same (hroot : IsPage root) (hsame : SameOn PGSIZE keep mem mem')
    (hkeep : ∀ d < 2, ∀ n < 512 ^ d, ∀ t, tableAt mem root d n = some t → keep t)
    {d n : Nat} (hd : d ≤ 2) (hn : n < 512 ^ d) : tableAt mem' root d n = tableAt mem root d n := by
  induction d generalizing n with
  | zero => rfl
  | succ d ih =>
    have hn' : n / 512 < 512 ^ d := by
      rw [Nat.pow_succ] at hn
      omega
    unfold tableAt
    rw [ih (by omega) hn']
    cases ht : tableAt mem root d (n / 512) with
    | none => rfl
    | some t =>
      dsimp only
      rw [entry_same hsame (isPage_of_tableAt hroot ht) (hkeep d (by omega) _ hn' t ht) (by omega)]

/-- What leaves all tables alone leaves the page table alone. -/
theorem tableAt_frame (hroot : IsPage root) (hsame : SameOn PGSIZE keep mem mem')
    (hkeep : ∀ a, TableOf mem root a → keep a) {d n : Nat} (hd : d ≤ 2) (hn : n < 512 ^ d) :
    tableAt mem' root d n = tableAt mem root d n :=
  tableAt_same hroot hsame (fun d hd n hn _ ht => hkeep _ ⟨d, by omega, n, hn, ht⟩) hd hn

theorem pteAt_frame (hroot : IsPage root) (hsame : SameOn PGSIZE keep mem mem')
    (hkeep : ∀ a, TableOf mem root a → keep a) (hvpn : vpn < 512 ^ 3) :
    pteAt mem' root vpn = pteAt mem root vpn := by
  have hn : vpn / 512 < 512 ^ 2 := by omega
  unfold pteAt
  rw [tableAt_frame hroot hsame hkeep (Nat.le_refl 2) hn]
  cases ht : tableAt mem root 2 (vpn / 512) with
  | none => rfl
  | some t =>
    exact entry_same hsame (isPage_of_tableAt hroot ht) (hkeep t ⟨2, Nat.le_refl _, _, hn, ht⟩)
      (by omega)

theorem tableOf_congr (h : ∀ d ≤ 2, ∀ n < 512 ^ d, tableAt mem' root d n = tableAt mem root d n)
    (a : Nat) : TableOf mem' root a ↔ TableOf mem root a := by
  constructor
  · rintro ⟨d, hd, n, hn, ht⟩
    exact ⟨d, hd, n, hn, by rw [← h d hd n hn]; exact ht⟩
  · rintro ⟨d, hd, n, hn, ht⟩
    exact ⟨d, hd, n, hn, by rw [h d hd n hn]; exact ht⟩

theorem PageTable.congr (hp : PageTable mem root)
    (h : ∀ d ≤ 2, ∀ n < 512 ^ d, tableAt mem' root d n = tableAt mem root d n) :
    PageTable mem' root := by
  refine ⟨hp.page, ?_⟩
  intro d hd n hn d' hd' n' hn' a h1 h2
  rw [h d hd n hn] at h1
  rw [h d' hd' n' hn'] at h2
  exact hp.distinct d hd n hn d' hd' n' hn' a h1 h2

/-! ## A new entry -/

/-- The table of a page number, when an entry of it is stored. -/
structure LeafStore (mem mem' : Bytes) (root vpn v : Nat) : Prop where
  table : ∀ d ≤ 2, ∀ n < 512 ^ d, tableAt mem' root d n = tableAt mem root d n
  pte : ∀ q < 512 ^ 3, pteAt mem' root q = if q = vpn then v else pteAt mem root q
  plain : Plain mem root → Plain mem' root

theorem entry_put64 {t i j v : Nat} (hv : v < 2 ^ 64) :
    entry (mem.put64 (t + 8 * i) v) t j = if j = i then v else entry mem t j := by
  unfold entry
  by_cases hj : j = i
  · rw [if_pos hj, hj, Bytes.get64_put64 hv]
  · rw [if_neg hj]
    apply Bytes.get64_put64_ne
    omega

/-- Storing an entry of a page number changes that entry. -/
theorem PageTable.leafStore (hp : PageTable mem root) (hvpn : vpn < 512 ^ 3) {pte v : Nat}
    (hpte : slot mem root vpn = some pte) (hv : v < 2 ^ 64) :
    LeafStore mem (mem.put64 pte v) root vpn v := by
  obtain ⟨t, ht, rfl⟩ := Option.map_eq_some_iff.mp hpte
  have hn : vpn / 512 < 512 ^ 2 := by omega
  have hpage := isPage_of_tableAt hp.page ht
  have hsame : SameOn PGSIZE (· ≠ t) mem (mem.put64 (t + 8 * (vpn % 512)) v) :=
    SameOn.put64 hpage.aligned (by rw [PGSIZE_eq]; omega)
  have hupper : ∀ d < 2, ∀ n < 512 ^ d, ∀ u, tableAt mem root d n = some u → u ≠ t := by
    rintro d hd n hn' u hu rfl
    have := (hp.distinct d (by omega) n hn' 2 (Nat.le_refl _) _ hn u hu ht).1
    omega
  have htable : ∀ d ≤ 2, ∀ n < 512 ^ d,
      tableAt (mem.put64 (t + 8 * (vpn % 512)) v) root d n = tableAt mem root d n :=
    fun d hd n hn => tableAt_same hp.page hsame hupper hd hn
  refine ⟨htable, fun q hq => ?_, fun hplain d hd n hn' u hu i hi => ?_⟩
  · have hq' : q / 512 < 512 ^ 2 := by omega
    unfold pteAt
    rw [htable 2 (Nat.le_refl _) _ hq']
    cases hu : tableAt mem root 2 (q / 512) with
    | none =>
      have : q ≠ vpn := by
        rintro rfl
        rw [hu] at ht
        cases ht
      rw [if_neg this]
    | some u =>
      dsimp only
      by_cases hut : u = t
      · have hidx := (hp.distinct 2 (Nat.le_refl _) _ hq' 2 (Nat.le_refl _) _ hn t (hut ▸ hu) ht).2
        rw [hut, entry_put64 hv]
        by_cases hqv : q = vpn
        · rw [if_pos (by rw [hqv]), if_pos hqv]
        · rw [if_neg (by omega), if_neg hqv]
      · have : q ≠ vpn := by
          rintro rfl
          rw [hu] at ht
          exact hut (Option.some.inj ht)
        rw [if_neg this]
        exact entry_same hsame (isPage_of_tableAt hp.page hu) hut (by omega)
  · rw [htable d (by omega) n hn'] at hu
    rw [entry_same hsame (isPage_of_tableAt hp.page hu) (hupper d hd n hn' u hu) hi]
    exact hplain d hd n hn' u hu i hi

/-! ## A new table -/

/-- The page `c` becomes table `n` at depth `d`. -/
structure NewTable (mem mem' : Bytes) (root d n c : Nat) : Prop where
  table : ∀ d' ≤ 2, ∀ n' < 512 ^ d', tableAt mem' root d' n' =
    if d' = d ∧ n' = n then some c else tableAt mem root d' n'
  pte : ∀ q < 512 ^ 3, pteAt mem' root q = pteAt mem root q
  plain : Plain mem root → Plain mem' root

theorem child_pte {c flags : Nat} (hc : IsPage c) (hf : flags < 1024)
    (hv : flags.testBit 0 = true) :
    child (PA2PTE c ||| flags) = some c := by
  unfold child
  rw [Nat.testBit_or, hv, Bool.or_true, if_pos rfl, PTE2PA_pte hf hc]

theorem flags_and {v : Nat} : v &&& (PTE_R ||| PTE_W ||| PTE_X) =
    PTE_FLAGS v &&& (PTE_R ||| PTE_W ||| PTE_X) := by
  unfold PTE_FLAGS
  rw [Nat.and_assoc]
  rfl

/-- Linking a page of zeros at an entry that leads nowhere. -/
theorem PageTable.newTable (hp : PageTable mem root) {d n t i c : Nat} (hd : d < 2)
    (hn : n < 512 ^ d) (hi : i < 512) (ht : tableAt mem root d n = some t)
    (hno : child (entry mem t i) = none) (hc : IsPage c) (hnew : ¬ TableOf mem root c)
    (hsame : SameOn PGSIZE (fun a => a ≠ t ∧ a ≠ c) mem mem')
    (hentry : ∀ j < 512, entry mem' t j = if j = i then PA2PTE c ||| PTE_V else entry mem t j)
    (hzero : ∀ j < 512, entry mem' c j = 0) :
    NewTable mem mem' root (d + 1) (n * 512 + i) c := by
  have hchild : child (PA2PTE c ||| PTE_V) = some c := child_pte hc (by decide) (by decide)
  have hnone : tableAt mem root (d + 1) (n * 512 + i) = none := by
    unfold tableAt
    rw [show (n * 512 + i) / 512 = n by omega, show (n * 512 + i) % 512 = i by omega, ht]
    exact hno
  -- A table that is neither the new one nor its parent keeps its entries.
  have hother : ∀ d' ≤ 2, ∀ n' < 512 ^ d', ∀ u, tableAt mem root d' n' = some u → u ≠ t →
      ∀ j < 512, entry mem' u j = entry mem u j := by
    intro d' hd' n' hn' u hu hut j hj
    apply entry_same hsame (isPage_of_tableAt hp.page hu) ⟨hut, ?_⟩ hj
    rintro rfl
    exact hnew ⟨d', hd', n', hn', hu⟩
  have htable : ∀ d' ≤ 2, ∀ n' < 512 ^ d', tableAt mem' root d' n' =
      if d' = d + 1 ∧ n' = n * 512 + i then some c else tableAt mem root d' n' := by
    intro d'
    induction d' with
    | zero =>
      intro _ n' _
      rw [if_neg (by omega)]
      rfl
    | succ d' ih =>
      intro hd' n' hn'
      have hn'' : n' / 512 < 512 ^ d' := by
        rw [Nat.pow_succ] at hn'
        omega
      have hih := ih (by omega) (n' / 512) hn''
      by_cases hunder : d' = d + 1 ∧ n' / 512 = n * 512 + i
      · -- Below the new table: its entries are zeros.
        rw [if_pos hunder] at hih
        rw [if_neg (by omega)]
        unfold tableAt
        rw [hih, hunder.1, hunder.2, hnone]
        dsimp only
        rw [hzero _ (by omega)]
        rfl
      · rw [if_neg hunder] at hih
        rw [tableAt, hih]
        cases hu : tableAt mem root d' (n' / 512) with
        | none =>
          have : ¬ (d' + 1 = d + 1 ∧ n' = n * 512 + i) := by
            rintro ⟨h1, h2⟩
            rw [show d' = d by omega, show n' / 512 = n by omega, ht] at hu
            cases hu
          rw [if_neg this, tableAt, hu]
        | some u =>
          dsimp only
          by_cases hut : u = t
          · obtain ⟨h1, h2⟩ := hp.distinct d' (by omega) _ hn'' d (by omega) n hn t (hut ▸ hu) ht
            rw [hut, hentry _ (by omega)]
            by_cases hidx : n' % 512 = i
            · rw [if_pos hidx, if_pos (by omega), hchild]
            · rw [if_neg hidx, if_neg (by omega), tableAt, hu, hut]
          · have : ¬ (d' + 1 = d + 1 ∧ n' = n * 512 + i) := by
              rintro ⟨h1, h2⟩
              rw [show d' = d by omega, show n' / 512 = n by omega, ht] at hu
              exact hut (Option.some.inj hu).symm
            rw [if_neg this, tableAt, hu, hother d' (by omega) _ hn'' u hu hut _ (by omega)]
  refine ⟨htable, fun q hq => ?_, fun hplain d' hd' n' hn' u hu j hj hv => ?_⟩
  · have hq' : q / 512 < 512 ^ 2 := by omega
    unfold pteAt
    rw [htable 2 (Nat.le_refl _) _ hq']
    by_cases hunder : 2 = d + 1 ∧ q / 512 = n * 512 + i
    · rw [if_pos hunder, hunder.1, hunder.2, hnone]
      exact hzero _ (by omega)
    · rw [if_neg hunder]
      cases hu : tableAt mem root 2 (q / 512) with
      | none => rfl
      | some u =>
        apply hother 2 (Nat.le_refl _) _ hq' u hu _ _ (by omega)
        rintro rfl
        have := (hp.distinct 2 (Nat.le_refl _) _ hq' d (by omega) n hn u hu ht).1
        omega
  · rw [htable d' (by omega) n' hn'] at hu
    by_cases hunder : d' = d + 1 ∧ n' = n * 512 + i
    · rw [if_pos hunder] at hu
      cases hu
      rw [hzero j hj]
      rfl
    · rw [if_neg hunder] at hu
      by_cases hut : u = t
      · rw [hut, hentry j hj] at hv ⊢
        by_cases hji : j = i
        · rw [if_pos hji, flags_and, PTE_FLAGS_pte (by decide)]
          decide
        · rw [if_neg hji] at hv ⊢
          exact hplain d' hd' n' hn' t (hut ▸ hu) j hj hv
      · rw [hother d' (by omega) n' hn' u hu hut j hj] at hv ⊢
        exact hplain d' hd' n' hn' u hu j hj hv

theorem NewTable.tableOf {d n c : Nat} (h : NewTable mem mem' root d n c) (hd : d ≤ 2)
    (hn : n < 512 ^ d) (hno : tableAt mem root d n = none) (a : Nat) :
    TableOf mem' root a ↔ TableOf mem root a ∨ a = c := by
  constructor
  · rintro ⟨d', hd', n', hn', ht⟩
    rw [h.table d' hd' n' hn'] at ht
    split at ht
    · cases ht
      exact Or.inr rfl
    · exact Or.inl ⟨d', hd', n', hn', ht⟩
  · rintro (⟨d', hd', n', hn', ht⟩ | rfl)
    · refine ⟨d', hd', n', hn', ?_⟩
      rw [h.table d' hd' n' hn', if_neg]
      · exact ht
      · rintro ⟨rfl, rfl⟩
        rw [hno] at ht
        cases ht
    · exact ⟨d, hd, n, hn, by rw [h.table d hd n hn, if_pos ⟨rfl, rfl⟩]⟩

theorem NewTable.pageTable {d n c : Nat} (h : NewTable mem mem' root d n c)
    (hp : PageTable mem root) (hnew : ¬ TableOf mem root c) : PageTable mem' root := by
  refine ⟨hp.page, ?_⟩
  intro d₁ hd₁ n₁ hn₁ d₂ hd₂ n₂ hn₂ a h1 h2
  rw [h.table d₁ hd₁ n₁ hn₁] at h1
  rw [h.table d₂ hd₂ n₂ hn₂] at h2
  split at h1
  · rename_i hc1
    cases h1
    split at h2
    · rename_i hc2
      exact ⟨hc1.1.trans hc2.1.symm, hc1.2.trans hc2.2.symm⟩
    · exact absurd ⟨d₂, hd₂, n₂, hn₂, h2⟩ hnew
  · split at h2
    · cases h2
      exact absurd ⟨d₁, hd₁, n₁, hn₁, h1⟩ hnew
    · exact hp.distinct d₁ hd₁ n₁ hn₁ d₂ hd₂ n₂ hn₂ a h1 h2

/-! ## The empty table -/

/-- A root of zeros. -/
structure Empty (mem : Bytes) (root : Nat) : Prop where
  page : IsPage root
  zero : ∀ i < 512, entry mem root i = 0

namespace Empty

theorem tableAt_succ (h : Empty mem root) (d n : Nat) : tableAt mem root (d + 1) n = none := by
  induction d generalizing n with
  | zero =>
    have hentry := h.zero (n % 512) (by omega)
    unfold tableAt tableAt
    dsimp only
    rw [hentry]
    rfl
  | succ d ih =>
    rw [tableAt, ih]

theorem tableOf (h : Empty mem root) (a : Nat) : TableOf mem root a ↔ a = root := by
  constructor
  · rintro ⟨d, hd, n, hn, ht⟩
    cases d with
    | zero =>
      cases ht
      rfl
    | succ d =>
      rw [h.tableAt_succ] at ht
      cases ht
  · rintro rfl
    exact tableOf_root mem a

theorem pteAt (h : Empty mem root) (q : Nat) : pteAt mem root q = 0 := by
  unfold ThuKernel.pteAt
  rw [h.tableAt_succ]

theorem pageTable (h : Empty mem root) : PageTable mem root := by
  refine ⟨h.page, ?_⟩
  intro d hd n hn d' hd' n' hn' a h1 h2
  cases d with
  | zero =>
    cases d' with
    | zero =>
      rw [Nat.pow_zero] at hn hn'
      omega
    | succ d' =>
      rw [h.tableAt_succ] at h2
      cases h2
  | succ d =>
    rw [h.tableAt_succ] at h1
    cases h1

theorem plain (h : Empty mem root) : Plain mem root := by
  intro d hd n hn t ht i hi hv
  cases d with
  | zero =>
    cases ht
    rw [h.zero i hi] at hv
    cases hv
  | succ d =>
    rw [h.tableAt_succ] at ht
    cases ht

end Empty

end ThuKernel
