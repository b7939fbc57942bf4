-- When `sys_mmap` maps all of its range or nothing: what each turn of its loop
-- ends in, and how many pages and tables the range takes.
import Mathlib.Data.Finset.Card
import ThuKernel.Kernel.Unmapping

namespace ThuKernel

variable {lk : Link} {E : Stop → Prop} {s s₁ s' : Mm} {k : Kernel} {root perm q v n pa : Nat}
variable {l l₁ l' hand hand₁ hand' : List Nat}

/-! ## What the call has to do -/

/-- Each page that was free or in the address space is so still. -/
def NoneLost (lk : Link) (root : Nat) (s s' : Mm) : Prop :=
  ∀ a, IsFree lk s a ∨ Owns lk s.mem root a → IsFree lk s' a ∨ Owns lk s'.mem root a

/-- The pages of the range, none of which was mapped, were mapped each to a free
page of its own, and no other page was. -/
structure PagesMapped (lk : Link) (root start n perm : Nat) (s s' : Mm) : Prop where
  inside : ∀ i < n, start + i * PGSIZE < MAXVA
  unmapped : ∀ i < n, ¬ IsMapped s.mem root (start / PGSIZE + i)
  fresh : ∀ i < n, ∃ pa, IsFree lk s pa ∧ pteAt s'.mem root (start / PGSIZE + i) = leafPte pa perm
  own : ∀ i < n, ∀ j < n,
    frameAt s'.mem root (start / PGSIZE + i) = frameAt s'.mem root (start / PGSIZE + j) → i = j
  others : ∀ q < 512 ^ 3, (∀ i < n, q ≠ start / PGSIZE + i) →
    pteAt s'.mem root q = pteAt s.mem root q

/-- What `sys_mmap` asks of its arguments first. -/
def MmapArgs (start port : Nat) : Prop := (1 ≤ port ∧ port ≤ 7) ∧ start % PGSIZE = 0

/-- A call maps all pages of the range with the permissions of `port`, or
refuses and maps none. No page is lost. -/
def MmapFine (lk : Link) (k : Kernel) (start len port : Nat) : Prop :=
  Runs (fun _ => False) (sys_mmap start len port) k fun r k' =>
    k' = { k with mm := k'.mm } ∧ NoneLost lk (k.pool k.current_proc).pagetable k.mm k'.mm ∧
      (r = -1 ∧ SamePtes (k.pool k.current_proc).pagetable k.mm k'.mm ∨
        r = (pagesOf len * PGSIZE : Nat) ∧ MmapArgs start port ∧
          PagesMapped lk (k.pool k.current_proc).pagetable start (pagesOf len)
            (port <<< 1 ||| PTE_U ||| PTE_V) k.mm k'.mm)

/-! ## The tables that a range needs -/

/-- How many tables at depth `d` are missing above the `n` pages from `v` on. -/
def lackingAt (mem : Bytes) (root v n d : Nat) : Nat :=
  (((Finset.range n).image fun i => (v + i) / 512 ^ (3 - d)).filter fun m =>
    (tableAt mem root d m).isNone).card

theorem lackingAt_le (mem : Bytes) (root v n d : Nat) : lackingAt mem root v n d ≤ n := by
  unfold lackingAt
  calc _ ≤ ((Finset.range n).image fun i => (v + i) / 512 ^ (3 - d)).card :=
    Finset.card_filter_le ..
    _ ≤ (Finset.range n).card := Finset.card_image_le
    _ = n := Finset.card_range n

/-- How many tables are missing above the `n` pages from `v` on. -/
def tablesLacking (mem : Bytes) (root v n : Nat) : Nat :=
  lackingAt mem root v n 2 + lackingAt mem root v n 1

/-- Whether the table above a page is missing. -/
def lacksAt (mem : Bytes) (root v d : Nat) : Nat :=
  if (tableAt mem root d (v / 512 ^ (3 - d))).isNone then 1 else 0

theorem missing_eq (mem : Bytes) (root v : Nat) :
    missing mem root v 2 = lacksAt mem root v 2 + lacksAt mem root v 1 := by
  unfold missing missing missing lacksAt
  rw [Nat.zero_add]

/-- A page needs its tables first. -/
theorem lacksAt_le (mem : Bytes) (root v n d : Nat) :
    lacksAt mem root v d ≤ lackingAt mem root v (n + 1) d := by
  unfold lacksAt
  split
  · rename_i hnone
    apply Finset.card_pos.mpr
    refine ⟨v / 512 ^ (3 - d), Finset.mem_filter.mpr ⟨Finset.mem_image.mpr ⟨0, ?_, rfl⟩, hnone⟩⟩
    exact Finset.mem_range.mpr (Nat.succ_pos n)
  · exact Nat.zero_le _

/-- The blocks of the pages from `v` on: that of `v`, and those of the others. -/
theorem image_blocks (v n b : Nat) : (Finset.range (n + 1)).image (fun i => (v + i) / b) =
    insert (v / b) ((Finset.range n).image fun i => (v + 1 + i) / b) := by
  ext m
  simp only [Finset.mem_image, Finset.mem_insert, Finset.mem_range]
  constructor
  · rintro ⟨i, hi, rfl⟩
    cases i with
    | zero => exact Or.inl rfl
    | succ i => exact Or.inr ⟨i, by omega, by rw [Nat.add_assoc, Nat.add_comm 1 i]⟩
  · rintro (rfl | ⟨i, hi, rfl⟩)
    · exact ⟨0, Nat.succ_pos n, rfl⟩
    · exact ⟨i + 1, by omega, by rw [Nat.add_assoc, Nat.add_comm 1 i]⟩

/-- With the tables of the first page there, the others lack the rest. -/
theorem lackingAt_step {d : Nat} (hb : Builds root v 2 s s₁) (hd : 0 < d) (hd' : d ≤ 2)
    (hend : v + n < 512 ^ 3) :
    lackingAt s.mem root v (n + 1) d = lacksAt s.mem root v d + lackingAt s₁.mem root
    (v + 1) n d := by
  have hblock : ∀ i ≤ n, (v + i) / 512 ^ (3 - d) < 512 ^ d := by
    intro i hi
    rw [Nat.div_lt_iff_lt_mul (Nat.pow_pos (by decide)), ← Nat.pow_add,
      show d + (3 - d) = 3 by omega]
    omega
  unfold lackingAt lacksAt
  rw [image_blocks]
  generalize hA : (Finset.range n).image (fun i => (v + 1 + i) / 512 ^ (3 - d)) = A
  have hrest : (A.filter fun m => (tableAt s₁.mem root d m).isNone) =
      (A.filter fun m => (tableAt s.mem root d m).isNone).erase (v / 512 ^ (3 - d)) := by
    ext m
    simp only [Finset.mem_filter, Finset.mem_erase, Option.isNone_iff_eq_none]
    constructor
    · rintro ⟨hm, hnone⟩
      have hlt : m < 512 ^ d := by
        rw [← hA, Finset.mem_image] at hm
        obtain ⟨i, hi, rfl⟩ := hm
        rw [Finset.mem_range] at hi
        rw [Nat.add_assoc]
        exact hblock (1 + i) (by omega)
      obtain ⟨hs, hne⟩ := (hb d hd' m hlt).mp hnone
      exact ⟨fun hc => hne ⟨by omega, hc⟩, hm, hs⟩
    · rintro ⟨hne, hm, hs⟩
      have hlt : m < 512 ^ d := by
        rw [← hA, Finset.mem_image] at hm
        obtain ⟨i, hi, rfl⟩ := hm
        rw [Finset.mem_range] at hi
        rw [Nat.add_assoc]
        exact hblock (1 + i) (by omega)
      exact ⟨hm, (hb d hd' m hlt).mpr ⟨hs, fun hc => hne hc.2⟩⟩
  rw [hrest, Finset.filter_insert]
  split
  · rename_i hnone
    rw [← Finset.erase_insert_eq_erase, ← Finset.card_erase_add_one (Finset.mem_insert_self ..),
      Nat.add_comm]
  · rename_i hsome
    rw [Nat.zero_add, Finset.erase_eq_of_notMem]
    exact fun hc => hsome (Finset.mem_filter.mp hc).2

/-- The range lacks what its first page lacks and, once that is there, what the
others lack. -/
theorem tablesLacking_step (hb : Builds root v 2 s s₁) (hend : v + n < 512 ^ 3) :
    tablesLacking s.mem root v (n + 1) = missing s.mem root v 2 + tablesLacking s₁.mem root
    (v + 1) n := by
  unfold tablesLacking
  rw [lackingAt_step hb (by decide) (by decide) hend,
    lackingAt_step hb (by decide) (by decide) hend, missing_eq]
  omega

theorem missing_le_lacking (mem : Bytes) (root v n : Nat) :
    missing mem root v 2 ≤ tablesLacking mem root v (n + 1) := by
  rw [missing_eq]
  exact Nat.add_le_add (lacksAt_le mem root v n 2) (lacksAt_le mem root v n 1)

theorem slot_of_missing {mem : Bytes} (h : slot mem root v ≠ none) : missing mem root v 2 = 0 := by
  obtain ⟨pte, hpte⟩ := Option.ne_none_iff_exists'.mp h
  obtain ⟨t, ht, _⟩ := Option.map_eq_some_iff.mp hpte
  obtain ⟨u, hu⟩ := tableAt_above (d := 1) (k := 1) ht
  rw [Nat.pow_one, Nat.div_div_eq_div_mul] at hu
  rw [missing_eq, lacksAt, lacksAt, show 512 ^ (3 - 2) = 512 from rfl,
    show 512 ^ (3 - 1) = 512 * 512 from rfl, ht, hu]
  rfl

/-! ## A turn of the loop -/

/-- Without a free page the walk is a look-up. -/
theorem walkFrom_empty {va level t : Nat} (hfree : FreeList lk s []) :
    Runs E (walkFrom va true level t) s fun r s' => r = slotAt s.mem va level t ∧ s' = s := by
  induction level generalizing t with
  | zero => exact ⟨rfl, rfl⟩
  | succ level ih =>
    unfold walkFrom slotAt
    rw [Runs.bind_iff, Runs.get_iff]
    dsimp only
    split
    · exact ih
    · rw [if_neg (by decide)]
      apply (kalloc_runs hfree).bind
      rintro c s₁ (⟨_, rfl, rfl⟩ | ⟨l', hl, _⟩)
      · rw [if_pos rfl]
        exact ⟨rfl, rfl⟩
      · cases hl

/-- `mappages` of one page. -/
theorem mappages_one {Q : Int → Mm → Prop} (hv : v < 2 ^ 26) :
    Runs E (mappages root (v * PGSIZE) PGSIZE pa perm) s Q ↔
      Runs E (walk root (v * PGSIZE) true) s fun r s' => match r with
        | none => Q (-1) s'
        | some pte => if (s'.mem.get64 pte).testBit 0 then Q (-1) s'
          else Q 0 { s' with mem := s'.mem.put64 pte (PA2PTE pa ||| perm ||| PTE_V) } := by
  have hstart : PGROUNDDOWN (v * PGSIZE) = v * PGSIZE := by
    unfold PGROUNDDOWN
    rw [Nat.mul_div_cancel v (by decide)]
  have hstop : PGROUNDDOWN ((v * PGSIZE + PGSIZE + 2 ^ 64 - 1) % 2 ^ 64) = v * PGSIZE := by
    unfold PGROUNDDOWN
    simp only [PGSIZE_eq] at *
    omega
  unfold mappages mappagesLoop
  rw [hstart, hstop, Runs.bind_iff]
  apply Runs.congr
  intro r s'
  cases r with
  | none => rfl
  | some pte =>
    dsimp only
    rw [Runs.bind_iff, Runs.get_iff]
    split
    · rfl
    · rw [Runs.bind_iff, storePte, Runs.modify_iff, if_pos rfl, Runs.pure_iff]

/-- Without a free page, nothing is mapped where a page is mapped or has no last
table. -/
theorem mappages_empty (hfree : FreeList lk s []) (hv : v < 2 ^ 26)
    (hno : IsMapped s.mem root v ∨ slot s.mem root v = none) :
    Runs E (mappages root (v * PGSIZE) PGSIZE pa perm) s fun ret s' => ret = -1 ∧ s' = s := by
  have hvpn : v * PGSIZE / PGSIZE = v := Nat.mul_div_cancel v (by decide)
  have hmax : ¬ MAXVA ≤ v * PGSIZE := by
    rw [MAXVA_eq, PGSIZE_eq]
    omega
  rw [mappages_one hv, walk, if_neg hmax]
  apply (walkFrom_empty hfree).imp
  rintro r s' ⟨hr, rfl⟩
  rw [slotAt_root, hvpn] at hr
  cases r with
  | none => exact ⟨rfl, rfl⟩
  | some pte =>
    dsimp only
    rw [get64_slot hr.symm, if_pos]
    · exact ⟨rfl, rfl⟩
    · rcases hno with hm | hnone
      · exact hm
      · rw [hnone] at hr
        cases hr

/-- When `mappages` maps a page, it has built just the tables that were missing. -/
theorem AddrSpace.mappages_builds (h : AddrSpace lk s root l hand) (hv : v < 2 ^ 26)
    (hpa : IsPage pa) (hperm : perm < 1024) :
    Runs E (mappages root (v * PGSIZE) PGSIZE pa perm) s fun ret s' => ret = 0 →
    ∃ l', FreeList lk s' l' ∧
      l.length = l'.length + missing s.mem root v 2 ∧ Builds root v 2 s s' := by
  have hvpn : v * PGSIZE / PGSIZE = v := Nat.mul_div_cancel v (by decide)
  have hend : v * PGSIZE < MAXVA := by
    rw [MAXVA_eq, PGSIZE_eq]
    omega
  rw [mappages_one hv]
  apply (walk_runs hend h.space).imp
  rintro r s₁ ⟨l₁, hs₁, _, _, hr, _, _, hsome⟩
  rw [hvpn] at hr hsome
  cases r with
  | none => exact fun hc => absurd hc (by decide)
  | some pte =>
    dsimp only
    split
    · exact fun hc => absurd hc (by decide)
    · intro _
      obtain ⟨hcount, hbuilt⟩ := hsome (Option.some_ne_none pte)
      have hw : PA2PTE pa ||| perm ||| PTE_V < 2 ^ 64 := by
        rw [Nat.or_assoc]
        exact pte_lt (Nat.or_lt_two_pow (n := 10) hperm (by decide)) hpa.below
      obtain ⟨hs₂, htables, _, _⟩ := hs₁.store (by omega) hr.symm hw
      refine ⟨l₁, hs₂.free, hcount, fun d hd n hn => ?_⟩
      rw [htables.table d hd n hn]
      exact hbuilt d hd n hn

/-- The turn took a free page, and mapped it. -/
structure TakesPage (lk : Link) (root v perm pa : Nat) (s : Mm) (l : List Nat) (s' : Mm)
    (l' : List Nat) : Prop where
  free : pa ∈ l
  fewer : ∀ a ∈ l', a ∈ l
  unmapped : ¬ IsMapped s.mem root v
  pte : ∀ q < 512 ^ 3, pteAt s'.mem root q = if q = v then leafPte pa perm else pteAt s.mem root q
  count : l.length = l'.length + 1 + missing s.mem root v 2
  built : Builds root v 2 s s'

/-- How a turn ends: with a new page, with nothing done for want of a page, with
the page at address 0, or with a page that is lost. -/
def TurnEnds (lk : Link) (root v perm : Nat) (s : Mm) (l hand : List Nat) (ret : Int) (s' : Mm)
    (l' hand' : List Nat) : Prop :=
  (ret = 0 ∧ hand' = hand ∧ ∃ pa, TakesPage lk root v perm pa s l s' l') ∨
  (ret = -1 ∧ hand' = hand ∧ s' = s ∧ l = [] ∧ l' = [] ∧
  (IsMapped s.mem root v ∨ slot s.mem root v = none)) ∨
  (hand' = hand ∧ l = [] ∧ ¬ IsMapped s.mem root v ∧ slot s.mem root v ≠ none ∧
    ∀ q < 512 ^ 3, pteAt s'.mem root q = if q = v then leafPte 0 perm else pteAt s.mem root q) ∨
  (SamePtes root s s' ∧ (∃ pa, hand' = pa :: hand) ∧ l ≠ [] ∧
    (IsMapped s.mem root v ∨ l.length < 1 + missing s.mem root v 2))

theorem kalloc_tables (hs : Space lk s root l) :
    Runs E kalloc s fun _ s' => SameTables root s s' := by
  apply (kalloc_runs hs.free).imp
  rintro r s' (⟨_, _, rfl⟩ | ⟨l', hl, _, hsame⟩)
  · exact SameTables.refl
  · refine (sameTables_frame hs.table.page hsame ?_).1
    rintro a ha rfl
    refine hs.apart a ?_ ha
    rw [hl]
    exact List.mem_cons_self ..

theorem AddrSpace.mmapTurn_ends (h : AddrSpace lk s root l hand) (hv : v < 2 ^ 26)
    (hperm : perm < 1024) (hleaf : perm &&& (PTE_R ||| PTE_W ||| PTE_X) ≠ 0) :
    Runs E (do
      let physical_addr ← kalloc
      mappages root (v * PGSIZE) PGSIZE physical_addr perm) s fun ret s' => ∃ l' hand',
        AddrSpace lk s' root l' hand' ∧ Moved lk root s l hand s' l' hand' ∧
        TurnEnds lk root v perm s l hand ret s' l' hand' := by
  have hlt : v < 512 ^ 3 := by omega
  have hend : v * PGSIZE < MAXVA := by
    rw [MAXVA_eq, PGSIZE_eq]
    omega
  have hkalloc := (h.kalloc_runs (E := E)).and (kalloc_tables (E := E) h.space)
  refine (hkalloc.mono (fun _ he => he.1) fun _ _ hboth => hboth).bind ?_
  rintro pa s₁ ⟨⟨hl, rfl, rfl⟩ | ⟨hpa, l₁, hl, h₁, hmoved₁, hsame₁⟩, htables⟩
  · -- There is no page.
    subst hl
    by_cases hno : IsMapped s₁.mem root v ∨ slot s₁.mem root v = none
    · apply (mappages_empty h.space.free hv hno).imp
      rintro ret s₂ ⟨hret, rfl⟩
      exact ⟨[], hand, h, Moved.refl, Or.inr (Or.inl ⟨hret, rfl, rfl, rfl, rfl, hno⟩)⟩
    · have hzero : ¬ IsFrame lk 0 := fun hc => hc.ne_zero rfl
      have hhand : hand = (if IsFrame lk 0 then [0] else []) ++ hand := by
        rw [if_neg hzero]
        rfl
      apply (h.mappages_runs rfl hend ⟨rfl, by decide⟩ hperm hleaf hhand).imp
      rintro ret s₂ ⟨l₂, h₂, hmoved₂, hmaps⟩
      rw [ite_self] at h₂ hmoved₂
      obtain ⟨hun, hslot⟩ := not_or.mp hno
      have hret : ret = 0 := by
        by_contra hret
        obtain ⟨_, _, hm | ⟨_, hc⟩⟩ := hmaps.failed hret
        · exact hun hm
        · rw [slot_of_missing hslot] at hc
          exact absurd hc (Nat.not_lt_zero _)
      exact ⟨l₂, hand, h₂, hmoved₂,
        Or.inr (Or.inr (Or.inl ⟨rfl, rfl, hun, hslot, (hmaps.ok hret).2⟩))⟩
  · have hframe := (h₁.handOk pa (List.mem_cons_self ..)).1
    have hhand : pa :: hand = (if IsFrame lk pa then [pa] else []) ++ hand := by
      rw [if_pos hframe]
      rfl
    have hmissing : missing s₁.mem root v 2 = missing s.mem root v 2 :=
      missing_congr hlt (Nat.le_refl 2) fun d hd => htables.table d hd.2
    have hmapped : IsMapped s₁.mem root v ↔ IsMapped s.mem root v := by
      unfold IsMapped
      rw [hsame₁ v hlt]
    have hlen : l.length = l₁.length + 1 := by
      rw [hl]
      rfl
    apply ((h₁.mappages_runs (E := E) rfl hend hframe.isPage hperm hleaf hhand).and
      (h₁.mappages_builds (E := E) hv hframe.isPage hperm)).mono fun _ he => he.1
    rintro ret s₂ ⟨⟨l₂, h₂, hmoved₂, hmaps⟩, hbuilds⟩
    refine ⟨l₂, _, h₂, hmoved₁.trans hmoved₂, ?_⟩
    by_cases hret : ret = 0
    · rw [if_pos hret]
      obtain ⟨l₂', hfree₂, hcount, hbuilt⟩ := hbuilds hret
      obtain rfl := hfree₂.unique h₂.space.free
      obtain ⟨hun, hpte⟩ := hmaps.ok hret
      obtain ⟨new, hnew, _⟩ := hmaps.grows.taken
      refine Or.inl ⟨hret, rfl, pa, ?_, fun a ha => ?_, fun hc => hun (hmapped.mpr hc),
        fun q hq => ?_, ?_, fun d hd n hn => ?_⟩
      · rw [hl]
        exact List.mem_cons_self ..
      · rw [hl, hnew]
        exact List.mem_cons_of_mem _ (List.mem_append.mpr (Or.inr ha))
      · rw [hpte q hq, hsame₁ q hq]
      · omega
      · rw [hbuilt d hd n hn, htables.table d hd n hn]
    · rw [if_neg hret]
      obtain ⟨_, hsame₂, hwhy⟩ := hmaps.failed hret
      refine Or.inr (Or.inr (Or.inr ⟨fun q hq => (hsame₂ q hq).trans (hsame₁ q hq),
        ⟨pa, rfl⟩, ?_, ?_⟩))
      · rw [hl]
        exact List.cons_ne_nil pa l₁
      · rcases hwhy with hm | ⟨_, hfew⟩
        · exact Or.inl (hmapped.mp hm)
        · exact Or.inr (by omega)

/-! ## The loop -/

/-- What stays as it is while pages from `v` to `v + n` are mapped. -/
structure MmapRest (root v n : Nat) (s : Mm) (hand : List Nat) (s' : Mm) (hand' : List Nat) :
    Prop where
  old : ∀ q < 512 ^ 3, IsMapped s.mem root q → pteAt s'.mem root q = pteAt s.mem root q
  others : ∀ q < 512 ^ 3, (∀ i < n, q ≠ v + i) → pteAt s'.mem root q = pteAt s.mem root q
  kept : ∀ a ∈ hand, a ∈ hand'

/-- All pages are newly mapped, to pages of a kind. -/
def AllNew (kind : Nat → Prop) (root v n perm : Nat) (s s' : Mm) : Prop :=
  ∀ i < n, ¬ IsMapped s.mem root (v + i) ∧ ∃ pa, kind pa ∧
    pteAt s'.mem root (v + i) = leafPte pa perm

/-- No page of the range is mapped, and there are free pages for all of them and
for their tables. -/
def CanMap (mem : Bytes) (root v n free : Nat) : Prop :=
  (∀ i < n, ¬ IsMapped mem root (v + i)) ∧ n + tablesLacking mem root v n ≤ free

/-- No page is free, and each page of the range is mapped or has no last table. -/
def NoneToMap (mem : Bytes) (root v n : Nat) (l : List Nat) : Prop :=
  l = [] ∧ ∀ i < n, IsMapped mem root (v + i) ∨ slot mem root (v + i) = none

theorem TurnEnds.rest {ret : Int} (h : TurnEnds lk root v perm s l hand ret s' l' hand') :
    MmapRest root v 1 s hand s' hand' := by
  have hone : ∀ {pa}, ¬ IsMapped s.mem root v →
      (∀ q < 512 ^ 3, pteAt s'.mem root q = if q = v then leafPte pa perm else pteAt s.mem root q) →
      MmapRest root v 1 s hand s' hand := by
    intro pa hun hpte
    refine ⟨fun q hq hm => ?_, fun q hq hne => ?_, fun _ ha => ha⟩
    · rw [hpte q hq, if_neg]
      rintro rfl
      exact hun hm
    · rw [hpte q hq, if_neg]
      exact hne 0 Nat.one_pos
  rcases h with ⟨_, rfl, pa, h⟩ | ⟨_, rfl, rfl, _⟩ | ⟨rfl, _, hun, _, hpte⟩ | ⟨hsame, ⟨pa, rfl⟩, _⟩
  · exact hone h.unmapped h.pte
  · exact ⟨fun _ _ _ => rfl, fun _ _ _ => rfl, fun _ ha => ha⟩
  · exact hone hun hpte
  · exact ⟨fun q hq _ => hsame q hq, fun q hq _ => hsame q hq,
      fun a ha => List.mem_cons_of_mem _ ha⟩

theorem MmapRest.cons (h : MmapRest root v 1 s hand s₁ hand₁)
    (h' : MmapRest root (v + 1) n s₁ hand₁ s' hand') :
    MmapRest root v (n + 1) s hand s' hand' := by
  refine ⟨fun q hq hm => ?_, fun q hq hne => ?_, fun a ha => h'.kept a (h.kept a ha)⟩
  · have hm₁ : IsMapped s₁.mem root q := by
      unfold IsMapped
      rw [h.old q hq hm]
      exact hm
    rw [h'.old q hq hm₁, h.old q hq hm]
  · rw [h'.others q hq fun i hi => ?_, h.others q hq fun i hi => ?_]
    · exact hne i (by omega)
    · have := hne (i + 1) (by omega)
      omega

/-- The turn at page `i` of the range. -/
theorem mmapLoop_turn {start i : Nat} {m : Int} {Q : Int → Mm → Prop}
    (hv : (start + i * PGSIZE) % 2 ^ 64 = v * PGSIZE) (hint : i * PGSIZE < 2 ^ 31) :
    Runs E (mmapLoop root start perm (n + 1) i m) s Q ↔
      Runs E (do
        let physical_addr ← kalloc
        mappages root (v * PGSIZE) PGSIZE physical_addr perm) s fun ret s' =>
          Runs E (mmapLoop root start perm n (i + 1) ret) s' Q := by
  rw [mmapLoop, if_neg (by omega), Runs.bind_iff, Runs.bind_iff, hv]
  exact Runs.congr fun pa s' => Runs.bind_iff

/-- The range of the loop, from turn `i` on. -/
structure InRange (start i v n : Nat) : Prop where
  page : start + i * PGSIZE = v * PGSIZE
  inside : v + n ≤ 2 ^ 26
  int : (i + n) * PGSIZE ≤ 2 ^ 31

theorem InRange.turn {start i : Nat} (h : InRange start i v (n + 1)) :
    ((start + i * PGSIZE) % 2 ^ 64 = v * PGSIZE ∧ i * PGSIZE < 2 ^ 31) ∧ InRange start (i + 1)
    (v + 1) n := by
  obtain ⟨h1, h2, h3⟩ := h
  have hpage : start + (i + 1) * PGSIZE = (v + 1) * PGSIZE := by
    rw [Nat.add_mul, Nat.add_mul, ← Nat.add_assoc, h1]
  refine ⟨⟨?_, ?_⟩, hpage, by omega, by rwa [Nat.add_assoc, Nat.add_comm 1 n]⟩
  · rw [h1]
    apply Nat.mod_eq_of_lt
    rw [PGSIZE_eq]
    omega
  · rw [PGSIZE_eq] at *
    omega

/-- The loop, whatever was lost before. -/
theorem AddrSpace.mmapLoop_rest (hperm : perm < 1024)
    (hleaf : perm &&& (PTE_R ||| PTE_W ||| PTE_X) ≠ 0) {start i : Nat} {m : Int}
    (hr : InRange start i v n) (h : AddrSpace lk s root l hand) :
    Runs E (mmapLoop root start perm n i m) s fun _ s' => ∃ l' hand',
    AddrSpace lk s' root l' hand' ∧
      Moved lk root s l hand s' l' hand' ∧ MmapRest root v n s hand s' hand' := by
  induction n generalizing s l hand i v m with
  | zero => exact ⟨l, hand, h, Moved.refl, fun _ _ _ => rfl, fun _ _ _ => rfl, fun _ ha => ha⟩
  | succ n ih =>
    obtain ⟨⟨hva, hint⟩, hnext⟩ := hr.turn
    have hin := hr.inside
    rw [mmapLoop_turn hva hint]
    apply (h.mmapTurn_ends (by omega) hperm hleaf).imp
    rintro ret s₁ ⟨l₁, hand₁, h₁, hmoved₁, hturn⟩
    apply (ih hnext h₁).imp
    rintro _ s₂ ⟨l₂, hand₂, h₂, hmoved₂, hrest₂⟩
    exact ⟨l₂, hand₂, h₂, hmoved₁.trans hmoved₂, hturn.rest.cons hrest₂⟩

/-- How the loop ends, from pages none of which is in hand: it mapped all of the
range, or there was nothing it could do, or neither, and then no page can be
undone. -/
inductive LoopEnds (lk : Link) (root v n perm : Nat) (m : Int) (s : Mm) (l : List Nat)
    (ret : Int) (s' : Mm) (hand' : List Nat) : Prop
  | all (can : CanMap s.mem root v n l.length) (hand : hand' = [])
    (new : AllNew (· ∈ l) root v n perm s s')
    (ok : ret = if n = 0 then m else 0) (none : n = 0 → s' = s)
  | nothing (some : 0 < n) (no : NoneToMap s.mem root v n l) (same : s' = s) (hand : hand' = [])
      (failed : ret = -1)
  | part (cannot : ¬ CanMap s.mem root v n l.length) (can : ¬ NoneToMap s.mem root v n l)
    (not_all : ¬ (hand' = [] ∧ AllNew (IsFrame lk) root v n perm s s'))
    (not_same : ¬ (hand' = [] ∧ SamePtes root s s'))

theorem leafPte_mapped {mem : Bytes} (h : pteAt mem root q = leafPte pa perm) :
    IsMapped mem root q := by
  unfold IsMapped
  rw [h]
  exact leafPte_valid pa perm

/-- After a turn that mapped a page, the rest of the range is as it was. -/
theorem TakesPage.canMap (h : TakesPage lk root v perm pa s l s₁ l₁) (hend : v + n < 512 ^ 3) :
    CanMap s.mem root v (n + 1) l.length ↔ CanMap s₁.mem root (v + 1) n l₁.length := by
  have hstep := tablesLacking_step h.built hend
  have hcount := h.count
  have hsame : ∀ i < n, IsMapped s₁.mem root (v + 1 + i) ↔ IsMapped s.mem root (v + (i + 1)) := by
    intro i hi
    unfold IsMapped
    rw [h.pte _ (by omega), if_neg (by omega), Nat.add_assoc, Nat.add_comm 1 i]
  constructor
  · rintro ⟨h1, h2⟩
    exact ⟨fun i hi => fun hc => h1 (i + 1) (by omega) ((hsame i hi).mp hc), by omega⟩
  · rintro ⟨h1, h2⟩
    refine ⟨fun i hi => ?_, by omega⟩
    cases i with
    | zero => exact h.unmapped
    | succ i => exact fun hc => h1 i (by omega) ((hsame i (by omega)).mpr hc)

theorem TakesPage.allNew (h : TakesPage lk root v perm pa s l s₁ l₁) (hend : v + n < 512 ^ 3)
    (hrest : MmapRest root (v + 1) n s₁ hand₁ s' hand')
    (h' : AllNew (· ∈ l₁) root (v + 1) n perm s₁ s') :
    AllNew (· ∈ l) root v (n + 1) perm s s' := by
  intro i hi
  cases i with
  | zero =>
    refine ⟨h.unmapped, pa, h.free, ?_⟩
    rw [Nat.add_zero, hrest.others v (by omega) (fun i _ => by omega), h.pte v (by omega),
      if_pos rfl]
  | succ i =>
    obtain ⟨hun, pa', hpa', hpte⟩ := h' i (by omega)
    rw [show v + (i + 1) = v + 1 + i by omega]
    refine ⟨?_, pa', h.fewer pa' hpa', hpte⟩
    unfold IsMapped at *
    rwa [h.pte _ (by omega), if_neg (by omega)] at hun

/-- A turn that mapped a page: the rest of the range decides. -/
theorem TakesPage.loopEnds {ret m : Int} (h : TakesPage lk root v perm pa s l s₁ l₁)
    (hend : v + n < 512 ^ 3) (hrest : MmapRest root (v + 1) n s₁ [] s' hand')
    (hends : LoopEnds lk root (v + 1) n perm 0 s₁ l₁ ret s' hand') :
    LoopEnds lk root v (n + 1) perm m s l ret s' hand' := by
  have hcan := h.canMap hend
  have hfree : ¬ NoneToMap s.mem root v (n + 1) l := by
    rintro ⟨rfl, _⟩
    cases h.free
  have hchanged : ¬ (hand' = [] ∧ SamePtes root s s') := by
    rintro ⟨_, hsame⟩
    apply h.unmapped
    have hpte := hsame v (by omega)
    rw [hrest.others v (by omega) (fun i _ => by omega), h.pte v (by omega), if_pos rfl] at hpte
    exact leafPte_mapped hpte.symm
  cases hends with
  | all can hand new ok none =>
    rw [ite_self] at ok
    exact .all (hcan.mpr can) hand (h.allNew hend hrest new) ok fun hc => by omega
  | nothing some no same hand failed =>
    refine .part (fun hc => ?_) hfree ?_ hchanged
    · have hfew := (hcan.mp hc).2
      rw [no.1, List.length_nil] at hfew
      omega
    · rintro ⟨_, hall⟩
      obtain ⟨hun, pa', _, hpte⟩ := hall 1 (by omega)
      have hm := leafPte_mapped hpte
      rw [same] at hm
      rcases no.2 0 some with hm' | hnone
      · apply hun
        unfold IsMapped at hm' ⊢
        rwa [Nat.add_zero, h.pte _ (by omega), if_neg (by omega)] at hm'
      · rw [Nat.add_zero] at hnone
        rw [IsMapped, slot_none hnone, Nat.zero_testBit] at hm
        cases hm
  | part cannot can not_all not_same =>
    refine .part (fun hc => cannot (hcan.mp hc)) hfree ?_ hchanged
    rintro ⟨hhand, hall⟩
    refine not_all ⟨hhand, fun i hi => ?_⟩
    rw [show v + 1 + i = v + (i + 1) by omega]
    obtain ⟨hun, hnew⟩ := hall (i + 1) (by omega)
    refine ⟨?_, hnew⟩
    unfold IsMapped at *
    rwa [h.pte _ (by omega), if_neg (by omega)]

/-- A turn that did nothing, for want of a page: the other turns found none either. -/
theorem LoopEnds.of_nothing {ret m : Int}
    (hno : IsMapped s.mem root v ∨ slot s.mem root v = none)
    (h : LoopEnds lk root (v + 1) n perm (-1) s [] ret s' hand') :
    LoopEnds lk root v (n + 1) perm m s [] ret s' hand' := by
  have hall : (∀ i < n, IsMapped s.mem root (v + 1 + i) ∨ slot s.mem root (v + 1 + i) = none) →
      NoneToMap s.mem root v (n + 1) [] := by
    intro hrest
    refine ⟨rfl, fun i hi => ?_⟩
    cases i with
    | zero => exact hno
    | succ i =>
      rw [show v + (i + 1) = v + 1 + i by omega]
      exact hrest i (by omega)
  cases h with
  | all can hand new ok none =>
    have hfew := can.2
    rw [List.length_nil] at hfew
    obtain rfl : n = 0 := by omega
    rw [if_pos rfl] at ok
    exact .nothing Nat.one_pos (hall fun i hi => absurd hi (Nat.not_lt_zero i)) (none rfl) hand ok
  | nothing some no same hand failed =>
    exact .nothing (Nat.succ_pos n) (hall no.2) same hand failed
  | part cannot can not_all not_same =>
    refine .part (fun hc => ?_) (fun hc => can ⟨rfl, fun i hi => ?_⟩) ?_ not_same
    · exact absurd hc.2 (by simp)
    · rw [show v + 1 + i = v + (i + 1) by omega]
      exact hc.2 (i + 1) (by omega)
    · rintro ⟨hhand, hall⟩
      refine not_all ⟨hhand, fun i hi => ?_⟩
      rw [show v + 1 + i = v + (i + 1) by omega]
      exact hall (i + 1) (by omega)

/-- The first page is at address 0, which is no page of the free list. -/
theorem LoopEnds.of_zero {ret m : Int} (hv : v < 512 ^ 3) (hperm : perm < 1024)
    (hun : ¬ IsMapped s.mem root v) (hslot : slot s.mem root v ≠ none)
    (hzero : pteAt s'.mem root v = leafPte 0 perm) :
    LoopEnds lk root v (n + 1) perm m s [] ret s' hand' := by
  refine .part (fun hc => ?_) (fun hc => ?_) ?_ ?_
  · exact absurd hc.2 (by simp)
  · rcases hc.2 0 (Nat.succ_pos n) with hm | hnone
    · exact hun hm
    · exact hslot hnone
  · rintro ⟨_, hall⟩
    obtain ⟨_, pa, hframe, hpa⟩ := hall 0 (Nat.succ_pos n)
    rw [Nat.add_zero, hzero] at hpa
    have hdecode := (leafPte_decode hframe.aligned hperm).1
    have hdecode₀ := (@leafPte_decode 0 perm rfl hperm).1
    rw [← hpa, hdecode₀, Nat.mod_eq_of_lt hframe.isPage.below] at hdecode
    exact hframe.ne_zero hdecode.symm
  · rintro ⟨_, hsame⟩
    apply hun
    rw [hsame v hv] at hzero
    exact leafPte_mapped hzero

/-- A page is in hand, because the first page of the range cannot be mapped. -/
theorem LoopEnds.of_lost {ret m : Int} (hlost : hand' ≠ []) (hl : l ≠ [])
    (hwhy : IsMapped s.mem root v ∨ l.length < 1 + missing s.mem root v 2) :
    LoopEnds lk root v (n + 1) perm m s l ret s' hand' := by
  refine .part (fun hc => ?_) (fun hc => hl hc.1) (fun hc => hlost hc.1) (fun hc => hlost hc.1)
  rcases hwhy with hm | hfew
  · exact hc.1 0 (Nat.succ_pos n) hm
  · have hneed := hc.2
    have hmissing := missing_le_lacking s.mem root v n
    omega

/-- The loop, when nothing was lost before. -/
theorem AddrSpace.mmapLoop_ends (hperm : perm < 1024)
    (hleaf : perm &&& (PTE_R ||| PTE_W ||| PTE_X) ≠ 0) {start i : Nat} {m : Int}
    (hr : InRange start i v n) (h : AddrSpace lk s root l []) :
    Runs E (mmapLoop root start perm n i m) s fun ret s' => ∃ l' hand',
    AddrSpace lk s' root l' hand' ∧
      Moved lk root s l [] s' l' hand' ∧ MmapRest root v n s [] s' hand' ∧
      LoopEnds lk root v n perm m s l ret s' hand' := by
  induction n generalizing s l i v m with
  | zero =>
    refine ⟨l, [], h, Moved.refl, ⟨fun _ _ _ => rfl, fun _ _ _ => rfl, fun _ ha => ha⟩, ?_⟩
    exact .all ⟨fun i hi => absurd hi (Nat.not_lt_zero i), by simp [tablesLacking, lackingAt]⟩ rfl
      (fun i hi => absurd hi (Nat.not_lt_zero i)) rfl fun _ => rfl
  | succ n ih =>
    obtain ⟨⟨hva, hint⟩, hnext⟩ := hr.turn
    have hin := hr.inside
    rw [mmapLoop_turn hva hint]
    apply (h.mmapTurn_ends (by omega) hperm hleaf).imp
    rintro ret s₁ ⟨l₁, hand₁, h₁, hmoved₁, hturn⟩
    have hrest₁ := hturn.rest
    rcases hturn with ⟨rfl, rfl, pa, hpage⟩ | ⟨rfl, rfl, rfl, rfl, rfl, hno⟩ | ⟨rfl, rfl, hun,
      hslot, hpte⟩ |
      ⟨hsame, ⟨pa, rfl⟩, hl, hwhy⟩
    · -- A new page.
      apply (ih hnext h₁).imp
      rintro ret s₂ ⟨l₂, hand₂, h₂, hmoved₂, hrest₂, hends⟩
      exact ⟨l₂, hand₂, h₂, hmoved₁.trans hmoved₂, hrest₁.cons hrest₂,
        hpage.loopEnds (by omega) hrest₂ hends⟩
    · -- Nothing done, for want of a page.
      apply (ih hnext h₁).imp
      rintro ret s₂ ⟨l₂, hand₂, h₂, hmoved₂, hrest₂, hends⟩
      exact ⟨l₂, hand₂, h₂, hmoved₁.trans hmoved₂, hrest₁.cons hrest₂, hends.of_nothing hno⟩
    · -- The page at address 0 is mapped, and stays.
      apply (h₁.mmapLoop_rest hperm hleaf hnext).imp
      rintro ret s₂ ⟨l₂, hand₂, h₂, hmoved₂, hrest₂⟩
      refine ⟨l₂, hand₂, h₂, hmoved₁.trans hmoved₂, hrest₁.cons hrest₂,
        .of_zero (by omega) hperm hun hslot ?_⟩
      rw [hrest₂.others v (by omega) (fun i _ => by omega), hpte v (by omega), if_pos rfl]
    · -- A page is lost, and stays so.
      apply (h₁.mmapLoop_rest hperm hleaf hnext).imp
      rintro ret s₂ ⟨l₂, hand₂, h₂, hmoved₂, hrest₂⟩
      refine ⟨l₂, hand₂, h₂, hmoved₁.trans hmoved₂, hrest₁.cons hrest₂, .of_lost ?_ hl hwhy⟩
      exact List.ne_nil_of_mem (hrest₂.kept pa (List.mem_cons_self ..))

/-- A loop that returns had all its pages in the address space. -/
theorem mmapLoop_inside {start i : Nat} {m : Int} (hstart : start % PGSIZE = 0) :
    Runs (fun _ => True) (mmapLoop root start perm n i m) s fun _ _ => ∀ j < n,
      (start + (i + j) * PGSIZE) % 2 ^ 64 < MAXVA ∧ (i + j) * PGSIZE < 2 ^ 31 := by
  induction n generalizing s i m with
  | zero => exact fun j hj => absurd hj (Nat.not_lt_zero j)
  | succ n ih =>
    unfold mmapLoop
    split
    · trivial
    · rename_i hint
      apply (Runs.of_forall fun _ _ _ => trivial : Runs _ kalloc s fun _ _ => True).bind
      intro pa s₁ _
      by_cases hend : MAXVA ≤ (start + i * PGSIZE) % 2 ^ 64
      · have haligned : (start + i * PGSIZE) % 2 ^ 64 % PGSIZE = 0 := by
          simp only [PGSIZE_eq] at *
          omega
        exact Runs.bind_iff.mpr (mappages_stops haligned hend trivial)
      · apply (Runs.of_forall fun _ _ _ => trivial : Runs _ (mappages _ _ _ _ _) s₁ fun _ _ =>
          True).bind
        intro ret s₂ _
        apply ih.imp
        intro _ _ hrest j hj
        cases j with
        | zero => exact ⟨Nat.lt_of_not_le hend, Nat.lt_of_not_le hint⟩
        | succ j =>
          rw [show i + (j + 1) = i + 1 + j by omega]
          exact hrest j (by omega)

/-! ## The call -/

/-- Pages are lost just when some are in hand at the end. -/
theorem Moved.noneLost_iff (h : AddrSpace lk s root l []) (h' : AddrSpace lk s' root l' hand')
    (hmoved : Moved lk root s l [] s' l' hand') : NoneLost lk root s s' ↔ hand' = [] := by
  unfold NoneLost
  simp only [isFree_iff h.space.free, isFree_iff h'.space.free]
  constructor
  · intro hnone
    cases hand' with
    | nil => rfl
    | cons a hand' =>
      obtain ⟨_, hfree, howns⟩ := h'.handOk a (List.mem_cons_self ..)
      have hhas := (hmoved.pages a).mp (Or.inr (Or.inr (List.mem_cons_self ..)))
      rcases hhas with hl | ho | hc
      · exact ((hnone a (Or.inl hl)).elim hfree howns).elim
      · exact ((hnone a (Or.inr ho)).elim hfree howns).elim
      · cases hc
  · rintro rfl a ha
    have hhas := (hmoved.pages a).mpr (ha.imp id Or.inl)
    rcases hhas with hl | ho | hc
    · exact Or.inl hl
    · exact Or.inr ho
    · cases hc

/-- The call with arguments that it takes. -/
theorem sys_mmap_args {start len port : Nat} {Q : Int → Kernel → Prop}
    (hroot : (k.pool k.current_proc).pagetable = root) (hargs : MmapArgs start port) :
    Runs E (sys_mmap start len port) k Q ↔
      Runs E (mmapLoop root start (port <<< 1 ||| PTE_U ||| PTE_V) (PGROUNDUP len / PGSIZE) 0 0)
      k.mm fun m s =>
        if m = 0 then Q (PGROUNDUP len : Nat) { k with mm := s } else Q (-1)
          { k with mm := s } := by
  have hport : ¬ (port < 1 ∨ 7 < port) := by
    have := hargs.1
    omega
  have hstart : ¬ start % 4096 ≠ 0 := not_not.mpr hargs.2
  unfold sys_mmap
  rw [if_neg hport, Runs.bind_iff, runs_curr_proc, hroot]
  dsimp only
  rw [if_neg hstart, Runs.bind_iff, runs_onMm]
  apply Runs.congr
  intro m s
  split
  · rfl
  · rfl

/-- The call with arguments that it refuses. -/
theorem sys_mmap_refuses {start len port : Nat} (hargs : ¬ MmapArgs start port) :
    MmapFine lk k start len port := by
  have hrefused : k = { k with mm := k.mm } ∧
      NoneLost lk (k.pool k.current_proc).pagetable k.mm k.mm ∧
      ((-1 : Int) = -1 ∧ SamePtes (k.pool k.current_proc).pagetable k.mm k.mm ∨
        (-1 : Int) = (pagesOf len * PGSIZE : Nat) ∧ MmapArgs start port ∧
          PagesMapped lk (k.pool k.current_proc).pagetable start (pagesOf len)
            (port <<< 1 ||| PTE_U ||| PTE_V) k.mm k.mm) :=
    ⟨rfl, fun _ ha => ha, Or.inl ⟨rfl, fun _ _ => rfl⟩⟩
  unfold MmapFine sys_mmap
  split
  · exact hrefused
  · rename_i hport
    rw [Runs.bind_iff, runs_curr_proc]
    have hstart : start % 4096 ≠ 0 := fun hc => hargs ⟨by omega, hc⟩
    dsimp only
    rw [if_pos hstart]
    exact hrefused

/-- What the loop mapped is what the call has to map. -/
theorem AddrSpace.pagesMapped {start : Nat} (h : AddrSpace lk s root l [])
    (h' : AddrSpace lk s' root l' hand') (hr : InRange start 0 (start / PGSIZE) n)
    (hrest : MmapRest root (start / PGSIZE) n s [] s' hand') (hperm : perm < 1024)
    (hall : AllNew (· ∈ l) root (start / PGSIZE) n perm s s') :
    PagesMapped lk root start n perm s s' := by
  have hin := hr.inside
  have hmaps : ∀ i < n, MapsTo lk s'.mem root (start / PGSIZE + i)
      (frameAt s'.mem root (start / PGSIZE + i)) := by
    intro i hi
    obtain ⟨_, pa, hpa, hpte⟩ := hall i hi
    have hframe := h.space.free.frames pa hpa
    have hat : frameAt s'.mem root (start / PGSIZE + i) = pa := by
      unfold frameAt
      rw [hpte, (leafPte_decode hframe.aligned hperm).1, Nat.mod_eq_of_lt hframe.isPage.below]
    rw [hat]
    exact ⟨by omega, leafPte_mapped hpte, hat, hframe⟩
  refine ⟨fun i hi => ?_, fun i hi => (hall i hi).1, fun i hi => ?_, fun i hi j hj heq => ?_,
    hrest.others⟩
  · have hpage := hr.page
    rw [Nat.zero_mul, Nat.add_zero] at hpage
    rw [MAXVA_eq, hpage, ← Nat.add_mul, PGSIZE_eq]
    rw [PGSIZE_eq] at hin
    omega
  · obtain ⟨_, pa, hpa, hpte⟩ := hall i hi
    exact ⟨pa, (isFree_iff h.space.free).mpr hpa, hpte⟩
  · have hmapped := hmaps j hj
    rw [← heq] at hmapped
    have := h'.unshared _ _ _ (hmaps i hi) hmapped
    omega

/-- What the call has to map are new pages of the allocator. -/
theorem PagesMapped.allNew {start : Nat} (h : PagesMapped lk root start n perm s s')
    (hs : AddrSpace lk s root l []) :
    AllNew (IsFrame lk) root (start / PGSIZE) n perm s s' := by
  intro i hi
  obtain ⟨pa, hpa, hpte⟩ := h.fresh i hi
  exact ⟨h.unmapped i hi, pa, hs.space.free.frames pa ((isFree_iff hs.space.free).mp hpa), hpte⟩

/-- A length that leaves the 64-bit numbers is rounded to 0. -/
theorem roundup_zero {len : Nat} (hlen : len < 2 ^ 64) (h : 2 ^ 64 ≤ pagesOf len * PGSIZE) :
    PGROUNDUP len = 0 := by
  unfold pagesOf PGROUNDUP at *
  simp only [PGSIZE_eq] at *
  omega

/-- A range of pages that all turns find in the address space lies in it. -/
theorem range_inside {start : Nat} (hn : 0 < n) (ha : start % PGSIZE = 0) (hstart : start < 2 ^ 64)
    (h : ∀ j < n, (start + (0 + j) * PGSIZE) % 2 ^ 64 < MAXVA ∧ (0 + j) * PGSIZE < 2 ^ 31) :
    start + n * PGSIZE ≤ MAXVA ∧ n * PGSIZE ≤ 2 ^ 31 := by
  obtain ⟨hfirst, _⟩ := h 0 hn
  obtain ⟨hlast, hint⟩ := h (n - 1) (by omega)
  rw [MAXVA_eq] at *
  simp only [PGSIZE_eq] at *
  omega

/-- The call with a length of no page. -/
theorem mmap_empty {start len port : Nat} (hargs : MmapArgs start port) (hzero : pagesOf len = 0) :
    MmapFine lk k start len port := by
  have hround : PGROUNDUP len = 0 := by
    have hsmall : pagesOf len * PGSIZE < 2 ^ 64 := by
      rw [hzero]
      decide
    have := (roundup_small hsmall).1
    rwa [hzero, Nat.zero_mul] at this
  unfold MmapFine
  rw [sys_mmap_args rfl hargs, hround, Nat.zero_div, mmapLoop, Runs.pure_iff, if_pos rfl, hzero]
  refine ⟨rfl, fun _ ha => ha, Or.inr ⟨rfl, hargs, ?_, ?_, ?_, ?_, fun _ _ _ => rfl⟩⟩
  all_goals exact fun i hi => absurd hi (Nat.not_lt_zero i)

/-- The call over a range that leaves the address space. -/
theorem mmap_outside {start len port : Nat} (hroot : (k.pool k.current_proc).pagetable = root)
    (hargs : MmapArgs start port) (hzero : pagesOf len ≠ 0) (hstart : start < 2 ^ 64)
    (hlen : len < 2 ^ 64)
    (hin : ¬ (start + pagesOf len * PGSIZE ≤ MAXVA ∧ pagesOf len * PGSIZE ≤ 2 ^ 31)) :
    ¬ MmapFine lk k start len port := by
  unfold MmapFine
  rw [hroot, sys_mmap_args hroot hargs]
  by_cases hwrap : 2 ^ 64 ≤ pagesOf len * PGSIZE
  · -- The length is rounded to 0.
    rw [roundup_zero hlen hwrap, Nat.zero_div, mmapLoop, Runs.pure_iff, if_pos rfl]
    rintro ⟨_, _, ⟨hr, _⟩ | ⟨hr, _⟩⟩
    · cases hr
    · omega
  · -- Some turn stops.
    obtain ⟨hround, hpages⟩ := roundup_small (Nat.lt_of_not_le hwrap)
    rw [hround, Nat.mul_div_cancel _ (by decide)]
    intro hfine
    obtain ⟨_, _, _, _, hinside⟩ := (hfine.and (mmapLoop_inside hargs.2)).exists_ok fun e he => he.1
    exact hin (range_inside (Nat.pos_of_ne_zero hzero) hargs.2 hstart hinside)

/-- The call over a range in the address space. -/
theorem mmap_inside {start len port : Nat} (h : AddrSpace lk k.mm root l [])
    (hroot : (k.pool k.current_proc).pagetable = root) (hargs : MmapArgs start port)
    (hzero : pagesOf len ≠ 0) (hin : start + pagesOf len * PGSIZE ≤ MAXVA ∧
    pagesOf len * PGSIZE ≤ 2 ^ 31) :
    MmapFine lk k start len port ↔ CanMap k.mm.mem root (start / PGSIZE) (pagesOf len) l.length ∨
      NoneToMap k.mm.mem root (start / PGSIZE) (pagesOf len) l := by
  obtain ⟨hperm, hleaf⟩ := @mmapPerm port hargs.1.1 hargs.1.2
  obtain ⟨hround, hpages⟩ := roundup_small (by omega : pagesOf len * PGSIZE < 2 ^ 64)
  have hr : InRange start 0 (start / PGSIZE) (pagesOf len) := by
    obtain ⟨h1, h2⟩ := hin
    refine ⟨?_, ?_, by rwa [Nat.zero_add]⟩
    · rw [Nat.zero_mul, Nat.add_zero, Nat.div_mul_cancel (Nat.dvd_of_mod_eq_zero hargs.2)]
    · rw [MAXVA_eq, PGSIZE_eq] at *
      omega
  have hends := h.mmapLoop_ends (E := fun _ => False) (m := 0) hperm hleaf hr
  unfold MmapFine
  rw [hroot, sys_mmap_args hroot hargs, hround, Nat.mul_div_cancel _ (by decide)]
  constructor
  · intro hfine
    obtain ⟨m, s', _, hpost, l', hand', h', hmoved, hrest, hend⟩ :=
      (hfine.and hends).exists_ok fun e he => he.1
    have hboth : NoneLost lk root k.mm s' ∧ (SamePtes root k.mm s' ∨
        PagesMapped lk root start (pagesOf len) (port <<< 1 ||| PTE_U ||| PTE_V) k.mm s') := by
      split at hpost
      · exact ⟨hpost.2.1, hpost.2.2.imp (fun hc => hc.2) fun hc => hc.2.2⟩
      · exact ⟨hpost.2.1, hpost.2.2.imp (fun hc => hc.2) fun hc => hc.2.2⟩
    have hhand := (hmoved.noneLost_iff h h').mp hboth.1
    cases hend with
    | all can => exact Or.inl can
    | nothing some no => exact Or.inr no
    | part cannot can not_all not_same =>
      rcases hboth.2 with hsame | hmapped
      · exact absurd ⟨hhand, hsame⟩ not_same
      · exact absurd ⟨hhand, hmapped.allNew h⟩ not_all
  · intro hcan
    apply hends.imp
    rintro m s' ⟨l', hand', h', hmoved, hrest, hend⟩
    cases hend with
    | all can hand new ok none =>
      rw [if_neg hzero] at ok
      rw [if_pos ok]
      exact ⟨rfl, (hmoved.noneLost_iff h h').mpr hand,
        Or.inr ⟨rfl, hargs, h.pagesMapped h' hr hrest hperm new⟩⟩
    | nothing some no same hand failed =>
      rw [failed, if_neg (by decide)]
      refine ⟨rfl, (hmoved.noneLost_iff h h').mpr hand, Or.inl ⟨rfl, ?_⟩⟩
      rw [same]
      exact fun _ _ => rfl
    | part cannot can not_all not_same =>
      rcases hcan with hcan | hcan
      · exact absurd hcan cannot
      · exact absurd hcan can

/-- `sys_mmap` is all or nothing, exactly when it refuses its arguments, or the
range is empty, or it lies in the address space and either can be mapped or
cannot be mapped at all. -/
theorem mmap_is_all_or_nothing {start len port : Nat} (h : AddrSpace lk k.mm root l [])
    (hroot : (k.pool k.current_proc).pagetable = root) (hstart : start < 2 ^ 64)
    (hlen : len < 2 ^ 64) :
    MmapFine lk k start len port ↔
      ¬ MmapArgs start port ∨ pagesOf len = 0 ∨
        ((start + pagesOf len * PGSIZE ≤ MAXVA ∧ pagesOf len * PGSIZE ≤ 2 ^ 31) ∧
          (CanMap k.mm.mem root (start / PGSIZE) (pagesOf len) l.length ∨
            NoneToMap k.mm.mem root (start / PGSIZE) (pagesOf len) l)) := by
  by_cases hargs : MmapArgs start port
  swap
  · exact iff_of_true (sys_mmap_refuses hargs) (Or.inl hargs)
  by_cases hzero : pagesOf len = 0
  · exact iff_of_true (mmap_empty hargs hzero) (Or.inr (Or.inl hzero))
  by_cases hin : start + pagesOf len * PGSIZE ≤ MAXVA ∧ pagesOf len * PGSIZE ≤ 2 ^ 31
  · rw [mmap_inside h hroot hargs hzero hin]
    refine ⟨fun hc => Or.inr (Or.inr ⟨hin, hc⟩), ?_⟩
    rintro (hc | hc | ⟨_, hc⟩)
    · exact absurd hargs hc
    · exact absurd hc hzero
    · exact hc
  · refine iff_of_false (mmap_outside hroot hargs hzero hstart hlen hin) ?_
    rintro (hc | hc | ⟨hc, _⟩)
    · exact hc hargs
    · exact hzero hc
    · exact hin hc

/-- A page that is not mapped, in a process that runs. -/
theorem mmap_is_all_or_nothing_of_a_page : ∃ k : Kernel,
    ¬ IsMapped k.mm.mem (k.pool k.current_proc).pagetable (0x10000 / PGSIZE) ∧
    MmapFine pageLink k 0x10000 4096 3 := by
  obtain ⟨mm, root, sz, l, hs, hloaded, _, _, hlen⟩ := onePageApp_loaded
  have h : AddrSpace pageLink (forkKernel mm root sz).mm root l [] := hs.space root rfl
  have hpage : pagesOf 4096 = 1 := by decide
  have hun : ¬ IsMapped mm.mem root (0x10000 / PGSIZE) := by
    unfold IsMapped
    rw [hloaded.rest _ (by decide) (by decide) (by decide) (by decide), Nat.zero_testBit]
    exact Bool.false_ne_true
  have hlacking : tablesLacking mm.mem root (0x10000 / PGSIZE) 1 ≤ 1 + 1 :=
    Nat.add_le_add (lackingAt_le ..) (lackingAt_le ..)
  have hcan : CanMap mm.mem root (0x10000 / PGSIZE) (pagesOf 4096) l.length := by
    rw [hpage]
    refine ⟨fun i hi => ?_, by omega⟩
    obtain rfl := Nat.lt_one_iff.mp hi
    exact hun
  have hin : 0x10000 + pagesOf 4096 * PGSIZE ≤ MAXVA ∧ pagesOf 4096 * PGSIZE ≤ 2 ^ 31 := by
    rw [MAXVA_eq]
    decide
  exact ⟨forkKernel mm root sz, hun,
    (mmap_is_all_or_nothing h rfl (by decide) (by decide)).mpr (Or.inr (Or.inr ⟨hin, Or.inl hcan⟩))⟩

/-- A page that is mapped is asked for again: a free page is lost. -/
theorem a_second_mmap_loses_a_page :
    ¬ ∀ (lk : Link) (k : Kernel) (l : List Nat) (start len port : Nat),
    AddrSpace lk k.mm (k.pool k.current_proc).pagetable l [] → start < 2 ^ 64 → len < 2 ^ 64 →
    MmapFine lk k start len port := by
  intro hall
  obtain ⟨mm, root, sz, l, hs, hloaded, _, _, hlen⟩ := onePageApp_loaded
  have h : AddrSpace pageLink (forkKernel mm root sz).mm root l [] := hs.space root rfl
  have hfine := hall pageLink (forkKernel mm root sz) l 0 1 1 h (by decide) (by decide)
  have hin : 0 + pagesOf 1 * PGSIZE ≤ MAXVA ∧ pagesOf 1 * PGSIZE ≤ 2 ^ 31 := by
    rw [MAXVA_eq]
    decide
  rcases (mmap_inside (k := forkKernel mm root sz) h rfl ⟨by decide, by decide⟩ (by decide) hin).mp
    hfine with hcan | hno
  · exact hcan.1 0 (by decide) (hloaded.pages 0 (by decide)).decode.1
  · rw [hno.1] at hlen
    exact absurd hlen (by decide)

end ThuKernel
