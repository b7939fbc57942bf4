-- The walk down a page table that makes missing tables from free pages.
import ThuKernel.Vm.Table

namespace ThuKernel

/-- A page table, and the pages that are free. -/
structure Space (lk : Link) (s : Mm) (root : Nat) (l : List Nat) : Prop where
  free : FreeList lk s l
  table : PageTable s.mem root
  apart : ∀ a ∈ l, ¬ TableOf s.mem root a

/-- The entries of all page numbers are as before. -/
def SamePtes (root : Nat) (s s' : Mm) : Prop :=
  ∀ q < 512 ^ 3, pteAt s'.mem root q = pteAt s.mem root q

/-- Free pages became tables, and nothing changed outside the tables. -/
structure Grows (root : Nat) (s s' : Mm) (l l' : List Nat) : Prop where
  taken : ∃ new, l = new ++ l' ∧ ∀ a, TableOf s'.mem root a ↔ TableOf s.mem root a ∨ a ∈ new
  same : SameOn PGSIZE (fun a => ¬ TableOf s'.mem root a) s.mem s'.mem
  plain : Plain s.mem root → Plain s'.mem root

variable {lk : Link} {E : Stop → Prop} {s s₁ s₂ : Mm} {root va : Nat} {l l₁ l₂ : List Nat}

theorem Grows.refl : Grows root s s l l :=
  ⟨⟨[], rfl, fun a => by simp⟩, SameOn.refl, fun h => h⟩

/-- What is a table stays one. -/
theorem Grows.table (h : Grows root s s₁ l l₁) {a : Nat} (ha : TableOf s.mem root a) :
    TableOf s₁.mem root a := by
  obtain ⟨new, _, hnew⟩ := h.taken
  exact (hnew a).mpr (Or.inl ha)

theorem Grows.trans (h : Grows root s s₁ l l₁) (h' : Grows root s₁ s₂ l₁ l₂) :
    Grows root s s₂ l l₂ := by
  obtain ⟨new, hl, hnew⟩ := h.taken
  obtain ⟨new', hl', hnew'⟩ := h'.taken
  refine ⟨⟨new ++ new', ?_, fun a => ?_⟩, ?_, fun hp => h'.plain (h.plain hp)⟩
  · rw [hl, hl', List.append_assoc]
  · rw [hnew', hnew, List.mem_append, or_assoc]
  · apply SameOn.trans _ h'.same
    apply h.same.mono
    intro a ha hb
    exact ha ((hnew' a).mpr (Or.inl hb))

/-- The tables are where they were. -/
structure SameTables (root : Nat) (s s' : Mm) : Prop where
  table : ∀ d ≤ 2, ∀ n < 512 ^ d, tableAt s'.mem root d n = tableAt s.mem root d n
  plain : Plain s.mem root → Plain s'.mem root

theorem SameTables.tableOf (h : SameTables root s s₁) (a : Nat) :
    TableOf s₁.mem root a ↔ TableOf s.mem root a :=
  tableOf_congr h.table a

theorem SameTables.trans (h : SameTables root s s₁) (h' : SameTables root s₁ s₂) :
    SameTables root s s₂ := by
  refine ⟨fun d hd n hn => ?_, fun hp => h'.plain (h.plain hp)⟩
  rw [h'.table d hd n hn, h.table d hd n hn]

theorem SameTables.grows (h : SameTables root s s₁)
    (hsame : SameOn PGSIZE (fun a => ¬ TableOf s.mem root a) s.mem s₁.mem) :
    Grows root s s₁ l l := by
  refine ⟨⟨[], rfl, fun a => ?_⟩, hsame.mono fun a ha hta => ha ((h.tableOf a).mpr hta), h.plain⟩
  rw [h.tableOf a]
  simp

/-- What leaves the pages of the tables alone leaves the page table alone. -/
theorem sameTables_frame {keep : Nat → Prop} (hroot : IsPage root)
    (hsame : SameOn PGSIZE keep s.mem s₁.mem) (hkeep : ∀ a, TableOf s.mem root a → keep a) :
    SameTables root s s₁ ∧ SamePtes root s s₁ := by
  have htable : ∀ d ≤ 2, ∀ n < 512 ^ d, tableAt s₁.mem root d n = tableAt s.mem root d n :=
    fun d hd n hn => tableAt_frame hroot hsame hkeep hd hn
  refine ⟨⟨htable, fun hp d hd n hn t ht i hi => ?_⟩, fun q hq => pteAt_frame hroot hsame hkeep hq⟩
  rw [htable d (by omega) n hn] at ht
  rw [entry_same hsame (isPage_of_tableAt hroot ht) (hkeep t ⟨d, by omega, n, hn, ht⟩) hi]
  exact hp d hd n hn t ht i hi

/-- The free pages changed, but no table. -/
theorem Space.frame (hs : Space lk s root l) {keep : Nat → Prop}
    (hsame : SameOn PGSIZE keep s.mem s₁.mem) (hkeep : ∀ a, TableOf s.mem root a → keep a)
    (hfree : FreeList lk s₁ l₁) (hapart : ∀ a ∈ l₁, ¬ TableOf s.mem root a) :
    Space lk s₁ root l₁ := by
  have htables := (sameTables_frame hs.table.page hsame hkeep).1
  refine ⟨hfree, hs.table.congr htables.table, fun a ha hta => ?_⟩
  exact hapart a ha ((htables.tableOf a).mp hta)

/-- Linking the first free page as a table. -/
theorem link_runs {d n t c : Nat} (hs : Space lk s root (c :: l)) (hd : d < 2)
    (hn : n < 512 ^ (d + 1)) (ht : tableAt s.mem root d (n / 512) = some t)
    (hno : child (entry s.mem t (n % 512)) = none) (hfree : FreeList lk s₁ l)
    (hsame : SameOn PGSIZE (· ≠ c) s.mem s₁.mem) :
    Runs E (do
        memset c 0 PGSIZE
        storePte (t + 8 * (n % 512)) (PA2PTE c ||| PTE_V)) s₁
      (fun _ s' => Space lk s' root l ∧ Grows root s s' (c :: l) l ∧ SamePtes root s s' ∧
        ∀ e ≤ 2, ∀ m < 512 ^ e, tableAt s'.mem root e m =
          if e = d + 1 ∧ m = n then some c else tableAt s.mem root e m) := by
  have hn' : n / 512 < 512 ^ d := by
    rw [Nat.pow_succ] at hn
    omega
  have hpage := isPage_of_tableAt hs.table.page ht
  have hc : IsPage c := (hs.free.frames c (List.mem_cons_self ..)).isPage
  have hnew : ¬ TableOf s.mem root c := hs.apart c (List.mem_cons_self ..)
  have htc : t ≠ c := by
    rintro rfl
    exact hnew ⟨d, by omega, _, hn', ht⟩
  have hv : PA2PTE c ||| PTE_V < 2 ^ 64 := pte_lt (by decide) hc.below
  unfold memset storePte
  rw [Runs.bind_iff, Runs.modify_iff, Runs.modify_iff]
  have hfill : SameOn PGSIZE (· ≠ c) s₁.mem (s₁.mem.fill c PGSIZE 0) :=
    SameOn.fill hc.aligned (Nat.le_refl _)
  have hput : SameOn PGSIZE (· ≠ t) (s₁.mem.fill c PGSIZE 0) ((s₁.mem.fill c PGSIZE 0).put64
      (t + 8 * (n % 512)) (PA2PTE c ||| PTE_V)) :=
    SameOn.put64 hpage.aligned (by rw [PGSIZE_eq]; omega)
  have hall : SameOn PGSIZE (fun a => a ≠ t ∧ a ≠ c) s.mem ((s₁.mem.fill c PGSIZE 0).put64
      (t + 8 * (n % 512)) (PA2PTE c ||| PTE_V)) :=
    ((hsame.trans hfill).mono fun _ h => h.2).trans (hput.mono fun _ h => h.1)
  have hlink := hs.table.newTable hd hn' (i := n % 512) (by omega) ht hno hc hnew hall
    (fun j hj => by
      rw [entry_put64 hv]
      split
      · rfl
      · exact entry_same (hsame.trans hfill) hpage htc hj)
    (fun j hj => by
      rw [entry_same hput hc (Ne.symm htc) hj]
      exact get64_fill_zero (by rw [PGSIZE_eq]; omega))
  rw [show n / 512 * 512 + n % 512 = n by omega] at hlink
  have hnone : tableAt s.mem root (d + 1) n = none := by
    rw [tableAt, ht]
    exact hno
  have hof := hlink.tableOf (by omega) hn hnone
  refine ⟨⟨?_, hlink.pageTable hs.table hnew, ?_⟩, ⟨⟨[c], rfl, ?_⟩, ?_, hlink.plain⟩, hlink.pte,
    hlink.table⟩
  · have hboth : SameOn PGSIZE (fun a => a ≠ t ∧ a ≠ c) s₁.mem ((s₁.mem.fill c PGSIZE 0).put64
        (t + 8 * (n % 512)) (PA2PTE c ||| PTE_V)) :=
      (hfill.mono fun _ h => h.2).trans (hput.mono fun _ h => h.1)
    refine hfree.same (fun a ha => ⟨?_, ?_⟩) hboth rfl
    · rintro rfl
      exact hs.apart a (List.mem_cons_of_mem _ ha) ⟨d, by omega, _, hn', ht⟩
    · rintro rfl
      exact (List.nodup_cons.mp hs.free.nodup).1 ha
  · intro a ha hta
    rcases (hof a).mp hta with h | rfl
    · exact hs.apart a (List.mem_cons_of_mem _ ha) h
    · exact (List.nodup_cons.mp hs.free.nodup).1 ha
  · intro a
    rw [hof a, List.mem_singleton]
  · apply hall.mono
    intro a ha
    refine ⟨?_, ?_⟩
    · rintro rfl
      exact ha ((hof a).mpr (Or.inl ⟨d, by omega, _, hn', ht⟩))
    · rintro rfl
      exact ha ((hof a).mpr (Or.inr rfl))

/-- The number of tables that a walk has to make, from the table of a level
down. -/
def missing (mem : Bytes) (root vpn : Nat) : (level : Nat) → Nat
  | 0 => 0
  | level + 1 => missing mem root vpn level +
      if (tableAt mem root (2 - level) (vpn / 512 ^ (level + 1))).isNone then 1 else 0

theorem missing_le (mem : Bytes) (root vpn level : Nat) : missing mem root vpn level ≤ level := by
  induction level with
  | zero => exact Nat.le_refl _
  | succ level ih =>
    unfold missing
    split <;> omega

/-- The number of a table is in range. -/
theorem tableIndex_lt {vpn level : Nat} (hvpn : vpn < 512 ^ 3) (hl : level ≤ 2) :
    vpn / 512 ^ (level + 1) < 512 ^ (2 - level) := by
  rw [Nat.div_lt_iff_lt_mul (Nat.pow_pos (by decide)), ← Nat.pow_add]
  rwa [show 2 - level + (level + 1) = 3 by omega]

/-- What is missing below a level is read off the tables below it. -/
theorem missing_congr {mem mem' : Bytes} {vpn level : Nat} (hvpn : vpn < 512 ^ 3) (hl : level ≤ 2)
    (h : ∀ d, 2 - level < d ∧ d ≤ 2 → ∀ n < 512 ^ d, tableAt mem' root d n = tableAt mem root d n) :
    missing mem' root vpn level = missing mem root vpn level := by
  induction level with
  | zero => rfl
  | succ level ih =>
    unfold missing
    rw [ih (by omega) (fun d hd => h d ⟨by omega, hd.2⟩),
      h (2 - level) ⟨by omega, by omega⟩ _ (tableIndex_lt hvpn (by omega))]

/-- A table that is there is not counted. -/
theorem missing_there {mem : Bytes} {vpn level : Nat}
    (h : tableAt mem root (2 - level) (vpn / 512 ^ (level + 1)) ≠ none) :
    missing mem root vpn (level + 1) = missing mem root vpn level := by
  rw [missing, if_neg (fun hc => h (Option.isNone_iff_eq_none.mp hc)), Nat.add_zero]

/-- Below a missing table all are missing. -/
theorem missing_of_none {mem : Bytes} {vpn level : Nat} (hl : level ≤ 2)
    (h : tableAt mem root (2 - level) (vpn / 512 ^ (level + 1)) = none) :
    missing mem root vpn level = level := by
  induction level with
  | zero => rfl
  | succ level ih =>
    have hnext : tableAt mem root (2 - level) (vpn / 512 ^ (level + 1)) = none := by
      rw [show 2 - level = 2 - (level + 1) + 1 by omega, tableAt, Nat.div_div_eq_div_mul,
        ← Nat.pow_succ, h]
    unfold missing
    rw [ih (by omega) hnext, hnext]
    rfl

theorem missing_all {mem : Bytes} {vpn level : Nat} (hl : level ≤ 2)
    (h : tableAt mem root (2 - level) (vpn / 512 ^ (level + 1)) = none) :
    missing mem root vpn (level + 1) = level + 1 := by
  unfold missing
  rw [missing_of_none hl h, h]
  rfl

/-- The tables on the way to a page number, below a level, are there now, and
no other is new. -/
def Builds (root vpn level : Nat) (s s' : Mm) : Prop :=
  ∀ d ≤ 2, ∀ n < 512 ^ d, tableAt s'.mem root d n = none ↔
    tableAt s.mem root d n = none ∧ ¬ (2 - level < d ∧ n = vpn / 512 ^ (3 - d))

/-- The table of the next level was there: the walk below it makes all that is new. -/
theorem Builds.below {vpn level : Nat} (h : Builds root vpn level s s₁)
    (hthere : tableAt s.mem root (2 - level) (vpn / 512 ^ (level + 1)) ≠ none) :
    Builds root vpn (level + 1) s s₁ := by
  intro d hd n hn
  rw [h d hd n hn]
  refine ⟨fun hc => ⟨hc.1, fun hw => ?_⟩, fun hc => ⟨hc.1, fun hw => hc.2 ⟨by omega, hw.2⟩⟩⟩
  by_cases hlast : d = 2 - level
  · rw [hlast, show 3 - (2 - level) = level + 1 by omega] at hw
    rw [hlast, hw.2] at hc
    exact hthere hc.1
  · exact hc.2 ⟨by omega, hw.2⟩

/-- The table of the next level was linked, and the walk went on below it. -/
theorem Builds.linked {vpn level c : Nat} (h : Builds root vpn level s₁ s₂) (hl : level < 2)
    (htable : ∀ e ≤ 2, ∀ m < 512 ^ e, tableAt s₁.mem root e m =
      if e = 2 - level ∧ m = vpn / 512 ^ (level + 1) then some c else tableAt s.mem root e m) :
    Builds root vpn (level + 1) s s₂ := by
  intro d hd n hn
  rw [h d hd n hn, htable d hd n hn]
  by_cases hthis : d = 2 - level ∧ n = vpn / 512 ^ (level + 1)
  · rw [if_pos hthis]
    refine iff_of_false (fun hc => by cases hc.1) fun hc => hc.2 ⟨by omega, ?_⟩
    rw [hthis.2, hthis.1, show 3 - (2 - level) = level + 1 by omega]
  · rw [if_neg hthis]
    apply and_congr_right'
    apply not_congr
    refine ⟨fun hw => ⟨by omega, hw.2⟩, fun hw => ⟨?_, hw.2⟩⟩
    by_contra hc
    obtain rfl : d = 2 - level := by omega
    exact hthis ⟨rfl, by rw [hw.2, show 3 - (2 - level) = level + 1 by omega]⟩

/-- The walk down to level 0 ends at the entry of the page number, or finds no
free page for a table on the way. -/
theorem walkFrom_runs {level t : Nat} (hl : level ≤ 2) (hva : va / PGSIZE < 512 ^ 3)
    (hs : Space lk s root l)
    (ht : tableAt s.mem root (2 - level) (va / PGSIZE / 512 ^ (level + 1)) = some t) :
    Runs E (walkFrom va true level t) s (fun r s' => ∃ l', Space lk s' root l' ∧
      Grows root s s' l l' ∧ SamePtes root s s' ∧ r = slot s'.mem root (va / PGSIZE) ∧
      (r = none → l' = [] ∧ l.length < missing s.mem root (va / PGSIZE) level) ∧
      l.length ≤ l'.length + missing s.mem root (va / PGSIZE) level ∧
      (r ≠ none → l.length = l'.length + missing s.mem root (va / PGSIZE) level ∧
        Builds root (va / PGSIZE) level s s')) := by
  induction level generalizing s l t with
  | zero =>
    rw [Nat.zero_add, Nat.pow_one] at ht
    refine ⟨l, hs, Grows.refl, fun _ _ => rfl, ?_, (fun h => by cases h), Nat.le_add_right _ _,
      fun _ => ⟨rfl, ?_⟩⟩
    · unfold slot
      rw [ht, PX_eq, Nat.pow_zero, Nat.div_one]
      rfl
    · intro d hd n _
      exact ⟨fun h => ⟨h, fun hc => by omega⟩, fun h => h.1⟩
  | succ level ih =>
    unfold walkFrom
    rw [Runs.bind_iff, Runs.get_iff]
    dsimp only
    -- The index of the table of the next level.
    have hidx : va / PGSIZE / 512 ^ (level + 1) / 512 = va / PGSIZE / 512 ^ (level + 1 + 1) := by
      rw [Nat.div_div_eq_div_mul, ← Nat.pow_succ]
    have hdepth : 2 - level = 2 - (level + 1) + 1 := by omega
    have hlt := tableIndex_lt hva (by omega : level ≤ 2)
    rw [hdepth] at hlt
    rw [← hidx] at ht
    rw [PX_eq]
    have hstep : tableAt s.mem root (2 - (level + 1) + 1) (va / PGSIZE / 512 ^ (level + 1)) =
        child (entry s.mem t (va / PGSIZE / 512 ^ (level + 1) % 512)) := by
      rw [tableAt, ht]
    split
    · rename_i hv
      apply (ih (by omega) hs (by rw [hdepth, hstep, child, entry, if_pos hv])).imp
      rintro r s' ⟨l', hs', hgrow, hsame, hr, hnone, hcount, hsome⟩
      have hthere : tableAt s.mem root (2 - level) (va / PGSIZE / 512 ^ (level + 1)) ≠ none := by
        rw [hdepth, hstep, child, entry, if_pos hv]
        exact Option.some_ne_none _
      rw [missing_there hthere]
      exact ⟨l', hs', hgrow, hsame, hr, hnone, hcount,
        fun h => ⟨(hsome h).1, (hsome h).2.below hthere⟩⟩
    · rename_i hv
      have hno : child (entry s.mem t (va / PGSIZE / 512 ^ (level + 1) % 512)) = none := by
        rw [child, entry, if_neg hv]
      rw [if_neg (by decide)]
      apply (kalloc_runs hs.free).bind
      rintro c s₁ (⟨rfl, rfl, rfl⟩ | ⟨l', rfl, hfree, hsame⟩)
      · -- No page for the table: the entry is missing.
        rw [if_pos rfl, Runs.pure_iff]
        have hnext : tableAt s₁.mem root (2 - level) (va / PGSIZE / 512 ^ (level + 1)) = none := by
          rw [hdepth, hstep, hno]
        refine ⟨[], hs, Grows.refl, fun _ _ => rfl, ?_, fun _ => ⟨rfl, ?_⟩, Nat.zero_le _,
          fun h => absurd rfl h⟩
        swap
        · unfold missing
          rw [hnext, Option.isNone_none, if_pos rfl]
          exact Nat.succ_pos _
        have hnone : slotAt s₁.mem va (level + 1) t = none := by
          rw [slotAt, if_neg]
          rw [PX_eq]
          exact hv
        rw [slotAt_eq hl (by rw [← hidx]; exact ht)] at hnone
        exact hnone.symm
      · have hframe := hs.free.frames c (List.mem_cons_self ..)
        rw [if_neg hframe.ne_zero]
        have hlink := link_runs (E := E) hs (by omega) hlt ht hno hfree hsame
        rw [Runs.bind_iff] at hlink
        rw [Runs.bind_iff]
        apply hlink.imp
        intro _ s₂ h
        rw [Runs.bind_iff]
        apply h.imp
        rintro _ s₃ ⟨hs₃, hgrow, hsame₃, htable⟩
        have hnew : tableAt s₃.mem root (2 - level) (va / PGSIZE / 512 ^ (level + 1)) = some c := by
          rw [hdepth, htable _ (by omega) _ hlt, if_pos ⟨rfl, rfl⟩]
        apply (ih (by omega) hs₃ hnew).imp
        rintro r s₄ ⟨l'', hs₄, hgrow', hsame₄, hr, hnone, hcount, hsome⟩
        have hnext : tableAt s.mem root (2 - level) (va / PGSIZE / 512 ^ (level + 1)) = none := by
          rw [hdepth, hstep, hno]
        have hrest := missing_le s₃.mem root (va / PGSIZE) level
        rw [missing_all (by omega) hnext, List.length_cons]
        refine ⟨l'', hs₄, hgrow.trans hgrow', fun q hq => ?_, hr, fun h => ⟨(hnone h).1, ?_⟩, ?_,
          fun h => ⟨?_, (hsome h).2.linked (by omega) (hdepth ▸ htable)⟩⟩
        · rw [hsame₄ q hq, hsame₃ q hq]
        · have := (hnone h).2
          omega
        · omega
        · -- Below the new table all are missing still.
          have hbelow : missing s₃.mem root (va / PGSIZE) level =
              missing s.mem root (va / PGSIZE) level := by
            apply missing_congr hva (by omega)
            intro d hd n hn
            rw [htable d (by omega) n hn, if_neg (by omega)]
          have := (hsome h).1
          rw [hbelow, missing_of_none (by omega) hnext] at this
          omega

theorem vpn_lt (hva : va < MAXVA) : va / PGSIZE < 512 ^ 3 := by
  have h := MAXVA_eq
  rw [PGSIZE_eq]
  omega

theorem walk_runs (hva : va < MAXVA) (hs : Space lk s root l) :
    Runs E (walk root va true) s (fun r s' => ∃ l', Space lk s' root l' ∧ Grows root s s' l l' ∧
      SamePtes root s s' ∧ r = slot s'.mem root (va / PGSIZE) ∧
      (r = none → l' = [] ∧ l.length < missing s.mem root (va / PGSIZE) 2) ∧
      l.length ≤ l'.length + missing s.mem root (va / PGSIZE) 2 ∧
      (r ≠ none → l.length = l'.length + missing s.mem root (va / PGSIZE) 2 ∧
        Builds root (va / PGSIZE) 2 s s')) := by
  unfold walk
  rw [if_neg (by omega)]
  exact walkFrom_runs (Nat.le_refl _) (vpn_lt hva) hs rfl

/-- A look-up of the entry of a page number. -/
theorem runs_find (hva : va < MAXVA) {Q : Option Nat → Mm → Prop} :
    Runs E (walk root va false) s Q ↔ Q (slot s.mem root (va / PGSIZE)) s := by
  rw [runs_lookup hva, slotAt_root]

end ThuKernel
