-- Freeing a page table: every table page is visited once and goes to the free
-- list.
import ThuKernel.Vm.Map

namespace ThuKernel

/-! ## The tables below a table -/

/-- The page `a` is a table page at table `n` of depth `d`, or below it. -/
def Below (mem : Bytes) (root d n a : Nat) : Prop :=
  ∃ d' ≤ 2, d ≤ d' ∧ ∃ n' < 512 ^ d', n' / 512 ^ (d' - d) = n ∧ tableAt mem root d' n' = some a

variable {lk : Link} {E : Stop → Prop} {mem : Bytes} {s s₁ : Mm} {root d n t a : Nat} {l : List Nat}

theorem below_root (mem : Bytes) (root a : Nat) : Below mem root 0 0 a ↔ TableOf mem root a := by
  constructor
  · rintro ⟨d', hd', _, n', hn', _, ht⟩
    exact ⟨d', hd', n', hn', ht⟩
  · rintro ⟨d', hd', n', hn', ht⟩
    refine ⟨d', hd', by omega, n', hn', ?_, ht⟩
    rw [Nat.sub_zero]
    exact Nat.div_eq_of_lt hn'

/-- No table has a table below a missing one. -/
theorem tableAt_above {k : Nat} (h : tableAt mem root (d + k) n = some a) :
    ∃ t, tableAt mem root d (n / 512 ^ k) = some t := by
  induction k generalizing n a with
  | zero =>
    rw [Nat.pow_zero, Nat.div_one]
    exact ⟨a, h⟩
  | succ k ih =>
    rw [← Nat.add_assoc, tableAt] at h
    cases hup : tableAt mem root (d + k) (n / 512) with
    | none =>
      rw [hup] at h
      cases h
    | some u =>
      have := ih hup
      rwa [Nat.div_div_eq_div_mul, ← Nat.pow_succ'] at this

theorem not_below_of_none (h : tableAt mem root d n = none) : ¬ Below mem root d n a := by
  rintro ⟨d', _, hle, n', _, hidx, ht⟩
  rw [show d' = d + (d' - d) by omega] at ht
  obtain ⟨t, ht'⟩ := tableAt_above ht
  rw [hidx, h] at ht'
  cases ht'

/-- A table, and the tables below its entries. -/
theorem below_iff (hd : d ≤ 2) (hn : n < 512 ^ d) (ht : tableAt mem root d n = some t) :
    Below mem root d n a ↔ a = t ∨ ∃ j < 512, Below mem root (d + 1) (n * 512 + j) a := by
  constructor
  · rintro ⟨d', hd', hle, n', hn', hidx, hta⟩
    by_cases heq : d' = d
    · subst heq
      rw [Nat.sub_self, Nat.pow_zero, Nat.div_one] at hidx
      rw [hidx, ht] at hta
      exact Or.inl (Option.some.inj hta).symm
    · refine Or.inr ⟨n' / 512 ^ (d' - (d + 1)) % 512, by omega, d', hd', by omega, n', hn', ?_, hta⟩
      have hup : n' / 512 ^ (d' - (d + 1)) / 512 = n := by
        rw [Nat.div_div_eq_div_mul, ← Nat.pow_succ, show (d' - (d + 1)).succ = d' - d by omega]
        exact hidx
      omega
  · rintro (rfl | ⟨j, hj, d', hd', hle, n', hn', hidx, hta⟩)
    · exact ⟨d, hd, Nat.le_refl _, n, hn, by rw [Nat.sub_self, Nat.pow_zero, Nat.div_one], ht⟩
    · refine ⟨d', hd', by omega, n', hn', ?_, hta⟩
      rw [show d' - d = d' - (d + 1) + 1 by omega, Nat.pow_succ, ← Nat.div_div_eq_div_mul, hidx]
      omega

/-- A table is not below its own entries. -/
theorem PageTable.not_below (hp : PageTable mem root) (hd : d ≤ 2) (hn : n < 512 ^ d)
    (ht : tableAt mem root d n = some t) (m : Nat) : ¬ Below mem root (d + 1) m t := by
  rintro ⟨d', hd', hle, n', hn', _, hta⟩
  have := (hp.distinct d hd n hn d' hd' n' hn' t ht hta).1
  omega

/-- No page is below two tables of one depth. -/
theorem PageTable.below_unique (hp : PageTable mem root) {m : Nat} (h : Below mem root d n a)
    (h' : Below mem root d m a) : n = m := by
  obtain ⟨d₁, hd₁, _, n₁, hn₁, hi₁, ht₁⟩ := h
  obtain ⟨d₂, hd₂, _, n₂, hn₂, hi₂, ht₂⟩ := h'
  obtain ⟨rfl, rfl⟩ := hp.distinct d₁ hd₁ n₁ hn₁ d₂ hd₂ n₂ hn₂ a ht₁ ht₂
  exact hi₁.symm.trans hi₂

/-! ## The walk -/

/-- The entries that `freewalk` meets: those of the upper tables lead to tables,
those of the last ones to none. -/
structure Walkable (mem : Bytes) (root : Nat) : Prop where
  table : PageTable mem root
  plain : Plain mem root
  leaf : ∀ q < 512 ^ 3, IsMapped mem root q → pteAt mem root q &&& (PTE_R ||| PTE_W ||| PTE_X) ≠ 0

/-- What was freed so far: the tables below the first `i` entries. -/
structure Freed (lk : Link) (mem : Bytes) (root d n t : Nat) (s : Mm) (l : List Nat) (i : Nat)
    (s' : Mm) (l' : List Nat) : Prop where
  free : FreeList lk s' l'
  list : ∀ a, a ∈ l' ↔ a ∈ l ∨ ∃ j < i, Below mem root (d + 1) (n * 512 + j) a
  same : SameOn PGSIZE (fun a => a ≠ t ∧ ∀ j < i, ¬ Below mem root (d + 1) (n * 512 + j) a)
    s.mem s'.mem
  entries : ∀ j, i ≤ j → j < 512 → entry s'.mem t j = entry mem t j

theorem mul_lt_of_lt {j : Nat} (hn : n < 512 ^ d) (hj : j < 512) : n * 512 + j < 512 ^ (d + 1) := by
  rw [Nat.pow_succ]
  omega

/-- The table below an entry. -/
theorem tableAt_next (ht : tableAt mem root d n = some t) {j : Nat} (hj : j < 512) :
    tableAt mem root (d + 1) (n * 512 + j) = child (entry mem t j) := by
  rw [tableAt, show (n * 512 + j) / 512 = n by omega, show (n * 512 + j) % 512 = j by omega, ht]

/-- What an entry means to `freewalk`. -/
theorem Walkable.entry_iff (hw : Walkable mem root) (hd : d ≤ 2) (hn : n < 512 ^ d)
    (ht : tableAt mem root d n = some t) {j : Nat} (hj : j < 512) :
    ((entry mem t j).testBit 0 = true ∧ entry mem t j &&& (PTE_R ||| PTE_W ||| PTE_X) = 0) ↔
      d < 2 ∧ tableAt mem root (d + 1) (n * 512 + j) = some (PTE2PA (entry mem t j)) := by
  constructor
  · rintro ⟨h1, h2⟩
    have hlt : d < 2 := by
      by_contra hc
      have hd2 : d = 2 := by omega
      subst hd2
      have hpte : pteAt mem root (n * 512 + j) = entry mem t j := by
        unfold pteAt
        rw [show (n * 512 + j) / 512 = n by omega, show (n * 512 + j) % 512 = j by omega, ht]
      apply hw.leaf (n * 512 + j) (mul_lt_of_lt hn hj)
      · unfold IsMapped
        rw [hpte]
        exact h1
      · rw [hpte]
        exact h2
    refine ⟨hlt, ?_⟩
    rw [tableAt_next ht hj, child, if_pos h1]
  · rintro ⟨hlt, h⟩
    rw [tableAt_next ht hj, child] at h
    have h1 : (entry mem t j).testBit 0 = true := by
      by_contra hc
      rw [if_neg hc] at h
      cases h
    exact ⟨h1, hw.plain d hlt n hn t ht j hj h1⟩

/-- Nothing is below an entry that `freewalk` passes over. -/
theorem not_below_entry (ht : tableAt mem root d n = some t) {j : Nat} (hj : j < 512)
    (hno : ¬ (d < 2 ∧ tableAt mem root (d + 1) (n * 512 + j) = some (PTE2PA (entry mem t j)))) :
    ¬ Below mem root (d + 1) (n * 512 + j) a := by
  intro ha
  by_cases hlt : d < 2
  · apply not_below_of_none _ ha
    rw [tableAt_next ht hj, child, if_neg]
    intro hv
    apply hno
    refine ⟨hlt, ?_⟩
    rw [tableAt_next ht hj, child, if_pos hv]
  · obtain ⟨d', hd', hle, _⟩ := ha
    omega

/-! ## The loop over the entries of a table -/

section Loop

variable {i : Nat} {l₁ l₂ : List Nat} {s₂ : Mm}

theorem Freed.start (hfree : FreeList lk s l) (hd : d ≤ 2) (hn : n < 512 ^ d)
    (hp : PageTable mem root) (ht : tableAt mem root d n = some t)
    (hsame : SameOn PGSIZE (Below mem root d n) mem s.mem) :
    Freed lk mem root d n t s l 0 s l where
  free := hfree
  list := fun a => by simp
  same := SameOn.refl
  entries := fun j _ hj =>
    entry_same hsame (isPage_of_tableAt hp.page ht) ((below_iff hd hn ht).mpr (Or.inl rfl)) hj

/-- The tables below the next entry are still what they were. -/
theorem Freed.kept (h : Freed lk mem root d n t s l i s₁ l₁) (hp : PageTable mem root) (hd : d ≤ 2)
    (hn : n < 512 ^ d) (ht : tableAt mem root d n = some t) (hi : i < 512)
    (hsame : SameOn PGSIZE (Below mem root d n) mem s.mem) :
    SameOn PGSIZE (Below mem root (d + 1) (n * 512 + i)) mem s₁.mem := by
  apply (hsame.mono fun a ha => (below_iff hd hn ht).mpr (Or.inr ⟨i, hi, ha⟩)).trans (h.same.mono _)
  intro a ha
  refine ⟨?_, fun j hj hja => ?_⟩
  · rintro rfl
    exact hp.not_below hd hn ht _ ha
  · have := hp.below_unique hja ha
    omega

/-- No table below the next entry is free yet. -/
theorem Freed.unfreed (h : Freed lk mem root d n t s l i s₁ l₁) (hp : PageTable mem root)
    (ha : Below mem root (d + 1) (n * 512 + i) a) (hl : a ∉ l) : a ∉ l₁ := by
  intro hal
  rcases (h.list a).mp hal with hal | ⟨j, hj, hja⟩
  · exact hl hal
  · have := hp.below_unique hja ha
    omega

/-- The table itself is not free yet. -/
theorem Freed.self (h : Freed lk mem root d n t s l i s₁ l₁) (hp : PageTable mem root) (hd : d ≤ 2)
    (hn : n < 512 ^ d) (ht : tableAt mem root d n = some t) (hl : t ∉ l) : t ∉ l₁ := by
  intro htl
  rcases (h.list t).mp htl with htl | ⟨j, hj, htl⟩
  · exact hl htl
  · exact hp.not_below hd hn ht _ htl

/-- The turn at an entry without a table. -/
theorem Freed.pass (h : Freed lk mem root d n t s l i s₁ l₁)
    (hempty : ∀ a, ¬ Below mem root (d + 1) (n * 512 + i) a) :
    Freed lk mem root d n t s l (i + 1) s₁ l₁ where
  free := h.free
  list := fun a => by
    rw [h.list a, Nat.exists_lt_succ_right]
    simp only [hempty a, or_false]
  same := h.same.mono fun a ha => ⟨ha.1, fun j hj => ha.2 j (by omega)⟩
  entries := fun j hj1 hj2 => h.entries j (by omega) hj2

/-- The turn at an entry with a table: the tables below it were freed, and the
entry is cleared. -/
theorem Freed.visit (h : Freed lk mem root d n t s l i s₁ l₁) (hp : PageTable mem root) (hd : d ≤ 2)
    (hn : n < 512 ^ d) (ht : tableAt mem root d n = some t) (hi : i < 512) (hl : t ∉ l)
    (hfree₂ : FreeList lk s₂ l₂)
    (hlist₂ : ∀ a, a ∈ l₂ ↔ a ∈ l₁ ∨ Below mem root (d + 1) (n * 512 + i) a)
    (hsame₂ : SameOn PGSIZE (fun a => ¬ Below mem root (d + 1) (n * 512 + i) a) s₁.mem s₂.mem) :
    Freed lk mem root d n t s l (i + 1) { s₂ with mem := s₂.mem.put64 (t + 8 * i) 0 } l₂ := by
  have htpage := isPage_of_tableAt hp.page ht
  have htbelow := hp.not_below hd hn ht (n * 512 + i)
  have hput : SameOn PGSIZE (· ≠ t) s₂.mem (s₂.mem.put64 (t + 8 * i) 0) :=
    SameOn.put64 htpage.aligned (by simp only [PGSIZE_eq]; omega)
  refine ⟨?_, fun a => ?_, ?_, fun j hj1 hj2 => ?_⟩
  · refine hfree₂.same (fun a ha => ?_) hput rfl
    rintro rfl
    rcases (hlist₂ a).mp ha with ha | ha
    · exact h.self hp hd hn ht hl ha
    · exact htbelow ha
  · rw [hlist₂ a, h.list a, Nat.exists_lt_succ_right, or_assoc]
  · apply (h.same.mono _).trans ((hsame₂.mono _).trans (hput.mono _))
    · intro a ha
      exact ⟨ha.1, fun j hj => ha.2 j (by omega)⟩
    · intro a ha
      exact ha.2 i (by omega)
    · intro a ha
      exact ha.1
  · have hnext : entry s₂.mem t j = entry s₁.mem t j := entry_same hsame₂ htpage htbelow hj2
    rw [entry_put64 (by decide), if_neg (by omega), hnext]
    exact h.entries j (by omega) hj2

end Loop

theorem freewalk_runs (hw : Walkable mem root) {depth : Nat} (hdepth : d + depth = 3) (hd : d ≤ 2)
    (hn : n < 512 ^ d) (ht : tableAt mem root d n = some t) (hfree : FreeList lk s l)
    (hsame : SameOn PGSIZE (Below mem root d n) mem s.mem)
    (hframes : ∀ a, Below mem root d n a → IsFrame lk a ∧ a ∉ l) :
    Runs E (freewalk lk depth t) s (fun _ s' => ∃ l', FreeList lk s' l' ∧
      (∀ a, a ∈ l' ↔ a ∈ l ∨ Below mem root d n a) ∧
      SameOn PGSIZE (fun a => ¬ Below mem root d n a) s.mem s'.mem) := by
  induction depth generalizing d n t s l with
  | zero => omega
  | succ depth ih =>
    have hp := hw.table
    have hbelow := fun a => below_iff (a := a) hd hn ht
    have hself : Below mem root d n t := (hbelow t).mpr (Or.inl rfl)
    have hunder : ∀ j < 512, ∀ a, Below mem root (d + 1) (n * 512 + j) a → Below mem root d n a :=
      fun j hj a ha => (hbelow a).mpr (Or.inr ⟨j, hj, ha⟩)
    unfold freewalk
    -- The loop over the entries, then the table itself.
    have hloop : Runs E (Prog.forUp (fun i => do
        let s ← get
        let pte := s.mem.get64 (t + 8 * i)
        Prog.when (pte.testBit 0 ∧ pte &&& (PTE_R ||| PTE_W ||| PTE_X) = 0) do
          freewalk lk depth (PTE2PA pte)
          storePte (t + 8 * i) 0) 0 512) s
        (fun _ s' => ∃ l', Freed lk mem root d n t s l (0 + 512) s' l') := by
      refine Runs.forUp (fun i s' => ∃ l', Freed lk mem root d n t s l i s' l')
        (fun i s₁ _ hi h => ?_) ⟨l, Freed.start hfree hd hn hp ht hsame⟩
      obtain ⟨l₁, h⟩ := h
      have hi' : i < 512 := by omega
      rw [Runs.bind_iff, Runs.get_iff]
      dsimp only
      have hentry : s₁.mem.get64 (t + 8 * i) = entry mem t i := h.entries i (Nat.le_refl _) hi'
      rw [hentry, Runs.when_iff, hw.entry_iff hd hn ht hi']
      constructor
      · rintro ⟨hlt, hchild⟩
        apply (ih (by omega) (by omega) (mul_lt_of_lt hn hi') hchild h.free
          (h.kept hp hd hn ht hi' hsame) ?_).bind
        · rintro _ s₂ ⟨l₂, hfree₂, hlist₂, hsame₂⟩
          rw [storePte, Runs.modify_iff]
          exact ⟨l₂, h.visit hp hd hn ht hi' (hframes t hself).2 hfree₂ hlist₂ hsame₂⟩
        · intro a ha
          obtain ⟨hframe, hl⟩ := hframes a (hunder i hi' a ha)
          exact ⟨hframe, h.unfreed hp ha hl⟩
      · intro hno
        exact ⟨l₁, h.pass fun a => not_below_entry ht hi' hno⟩
    apply hloop.bind
    rintro _ s₁ ⟨l₁, h⟩
    apply (kfree_runs h.free fun _ => h.self hp hd hn ht (hframes t hself).2).mono
    · intro e he
      exact absurd (hframes t hself).1 he
    · rintro _ s₂ ⟨_, hfree₂, hsame₂⟩
      refine ⟨t :: l₁, hfree₂, fun a => ?_, ?_⟩
      · rw [List.mem_cons, h.list a, hbelow a]
        exact or_left_comm
      · apply (h.same.mono _).trans (hsame₂.mono _)
        · intro a ha
          refine ⟨?_, fun j hj hja => ha (hunder j (by omega) a hja)⟩
          rintro rfl
          exact ha hself
        · rintro a ha rfl
          exact ha hself

end ThuKernel
