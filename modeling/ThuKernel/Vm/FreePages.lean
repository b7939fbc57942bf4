-- `freerange` and the runs of the page allocator: the free list holds the whole pages of
-- the range that nobody has.
import ThuKernel.Vm.Alloc

namespace ThuKernel

def freerangeLoop (lk : Link) (pa_end : Nat) : (fuel : Nat) → (p : Nat) → Prog Mm Unit
  | 0, _ => Prog.fault "freerange: past the end"
  | n + 1, p =>
    if p + PGSIZE ≤ pa_end then do
      kfree lk p
      freerangeLoop lk pa_end n (p + PGSIZE)
    else pure ()

/-- Every turn moves up one page, so the loop has no more turns than there are pages
below `pa_end`. -/
def freerange (lk : Link) (pa_start pa_end : Nat) : Prog Mm Unit :=
  freerangeLoop lk pa_end (pa_end / PGSIZE + 1) (PGROUNDUP pa_start)

@[irreducible] def kinit (lk : Link) : Prog Mm Unit := do
  modify fun s => { s with freelist := 0 }
  freerange lk lk.ekernel PHYSTOP

/-- A page that lies in the range as a whole. -/
structure WholePage (pa_start pa_end a : Nat) : Prop where
  aligned : a % PGSIZE = 0
  above : pa_start ≤ a
  below : a + PGSIZE ≤ pa_end

/-- One step of the kernel: a page is taken or given back, or somebody writes, but not
into a free page. `out` are the pages that are outstanding. -/
inductive PageStep (lk : Link) (pa_start pa_end : Nat) : List Nat → Mm → List Nat → Mm → Prop
  | kalloc {out : List Nat} {s s' : Mm} {pa : Nat} : kalloc s = .ok (pa, s') →
      PageStep lk pa_start pa_end out s (if pa = 0 then out else pa :: out) s'
  | kfree {out : List Nat} {s s' : Mm} {pa : Nat} : pa ∈ out → kfree lk pa s = .ok ((), s') →
      PageStep lk pa_start pa_end out s (out.erase pa) s'
  | store {out : List Nat} {s : Mm} {m : Bytes} :
      SameOn PGSIZE (fun a => WholePage pa_start pa_end a ∧ a ∉ out) s.mem m →
      PageStep lk pa_start pa_end out s out { s with mem := m }

/-- The states after `freerange`, on an empty list, and any steps. -/
inductive PageRun (lk : Link) (pa_start pa_end : Nat) : List Nat → Mm → Prop
  | freerange {mem : Bytes} {s : Mm} : freerange lk pa_start pa_end ⟨mem, 0⟩ = .ok ((), s) →
      PageRun lk pa_start pa_end [] s
  | step {out out' : List Nat} {s s' : Mm} : PageRun lk pa_start pa_end out s →
      PageStep lk pa_start pa_end out s out' s' → PageRun lk pa_start pa_end out' s'

/-- The range lies in the memory that the allocator may hand out. -/
structure InMemory (lk : Link) (pa_start pa_end : Nat) : Prop where
  above : lk.ekernel ≤ pa_start
  start : pa_start ≤ PHYSTOP
  stop : pa_end ≤ PHYSTOP

/-- The free list, when the pages in `out` are outstanding. -/
structure FreePages (lk : Link) (pa_start pa_end : Nat) (out : List Nat) (s : Mm) (l : List Nat) :
    Prop where
  list : FreeList lk s l
  free : ∀ a, a ∈ l ↔ WholePage pa_start pa_end a ∧ a ∉ out
  nodup : out.Nodup
  whole : ∀ a ∈ out, WholePage pa_start pa_end a

variable {E : Stop → Prop} {lk : Link} {pa_start pa_end p a pa fuel : Nat} {s s' : Mm}
  {l out out' : List Nat}

theorem WholePage.isFrame (h : WholePage pa_start pa_end a) (hr : InMemory lk pa_start pa_end) :
    IsFrame lk a := by
  have h1 := hr.above
  have h2 := h.above
  have h3 := hr.stop
  have h4 := h.below
  have hpos : 0 < PGSIZE := by decide
  exact ⟨h.aligned, by omega, by omega⟩

/-! ## freerange -/

theorem freerangeLoop_runs (hl : FreeList lk s l) (hp : p % PGSIZE = 0) (hlo : lk.ekernel ≤ p)
    (hend : pa_end ≤ PHYSTOP) (hlt : ∀ a ∈ l, a < p) (hpos : 0 < fuel)
    (hfuel : pa_end < p + fuel * PGSIZE) :
    Runs E (freerangeLoop lk pa_end fuel p) s fun _ s' => ∃ l', FreeList lk s' l' ∧
      ∀ a, a ∈ l' ↔ a ∈ l ∨ WholePage p pa_end a := by
  have hP := PGSIZE_eq
  induction fuel generalizing s l p with
  | zero => omega
  | succ n ih =>
    unfold freerangeLoop
    split
    · rename_i hin
      have hframe : IsFrame lk p := ⟨hp, hlo, by omega⟩
      have hfree : Runs E (kfree lk p) s fun _ s₁ => _ :=
        (kfree_runs hl fun _ hmem => absurd (hlt p hmem) (Nat.lt_irrefl p)).mono
          (fun _ he => absurd hframe he) fun _ _ h => h
      refine hfree.bind ?_
      rintro _ s₁ ⟨_, hl₁, _⟩
      have hlt₁ : ∀ a ∈ p :: l, a < p + PGSIZE := by
        intro a ha
        rcases List.mem_cons.mp ha with rfl | ha
        · omega
        · have := hlt a ha
          omega
      have hp₁ : (p + PGSIZE) % PGSIZE = 0 := by rwa [Nat.add_mod_right]
      have hfuel₁ : pa_end < p + PGSIZE + n * PGSIZE := by
        rw [Nat.succ_mul] at hfuel
        omega
      have hn : 0 < n := by
        by_contra hc
        obtain rfl : n = 0 := by omega
        omega
      apply (ih hl₁ hp₁ (by omega) hlt₁ hn hfuel₁).imp
      rintro _ s' ⟨l', hl', hmem⟩
      refine ⟨l', hl', fun a => ?_⟩
      rw [hmem, List.mem_cons]
      -- The page at `p` is the first of the range.
      constructor
      · rintro ((rfl | h) | h)
        · exact Or.inr ⟨hp, Nat.le_refl _, hin⟩
        · exact Or.inl h
        · exact Or.inr ⟨h.aligned, by have := h.above; omega, h.below⟩
      · rintro (h | h)
        · exact Or.inl (Or.inr h)
        · have h1 := h.aligned
          have h2 := h.above
          by_cases hap : a = p
          · exact Or.inl (Or.inl hap)
          · rw [PGSIZE_eq] at h1 hp
            exact Or.inr ⟨h.aligned, by omega, h.below⟩
    · rename_i hout
      rw [Runs.pure_iff]
      refine ⟨l, hl, fun a => ⟨Or.inl, fun h => h.resolve_right fun hw => ?_⟩⟩
      have h1 := hw.above
      have h2 := hw.below
      omega

/-- The first page that starts in the range. -/
theorem PGROUNDUP_spec {x : Nat} (h : x ≤ PHYSTOP) :
    PGROUNDUP x % PGSIZE = 0 ∧ x ≤ PGROUNDUP x ∧ ∀ a, a % PGSIZE = 0 → x ≤ a → PGROUNDUP x ≤ a := by
  have hsmall : PHYSTOP + 4096 ≤ 2 ^ 64 := by decide
  have hmod : (x + 4096 - 1) % 2 ^ 64 = x + 4096 - 1 := Nat.mod_eq_of_lt (by omega)
  unfold PGROUNDUP
  rw [PGSIZE_eq, hmod]
  refine ⟨Nat.mul_mod_left _ _, by omega, fun a h1 h2 => by omega⟩

/-- `freerange` never panics, and puts each whole page of the range on the list. -/
theorem freerange_runs (hr : InMemory lk pa_start pa_end) (mem : Bytes) :
    Runs E (freerange lk pa_start pa_end) ⟨mem, 0⟩ fun _ s =>
    ∃ l, FreePages lk pa_start pa_end [] s l := by
  obtain ⟨h1, h2, h3⟩ := hr
  obtain ⟨hp, hle, hfirst⟩ := PGROUNDUP_spec h2
  have hempty : FreeList lk ⟨mem, 0⟩ [] :=
    ⟨rfl, List.nodup_nil, fun _ ha => absurd ha List.not_mem_nil⟩
  have hfuel : pa_end < PGROUNDUP pa_start + (pa_end / PGSIZE + 1) * PGSIZE := by
    rw [PGSIZE_eq]
    omega
  unfold freerange
  apply (freerangeLoop_runs hempty hp (by omega) h3 (fun _ ha => absurd ha List.not_mem_nil)
    (Nat.succ_pos _) hfuel).imp
  rintro _ s ⟨l, hl, hmem⟩
  refine ⟨l, hl, fun a => ?_, List.nodup_nil, fun _ ha => absurd ha List.not_mem_nil⟩
  rw [hmem]
  constructor
  · rintro (h | h)
    · exact absurd h List.not_mem_nil
    · exact ⟨⟨h.aligned, hle.trans h.above, h.below⟩, List.not_mem_nil⟩
  · rintro ⟨h, _⟩
    exact Or.inr ⟨h.aligned, hfirst a h.aligned h.above, h.below⟩

/-! ## The steps -/

/-- What `kalloc` does, by whether a page is left. -/
theorem kalloc_pages (h : FreePages lk pa_start pa_end out s l) :
    Runs E kalloc s fun r s' => (r = 0 ↔ l = []) ∧ (r ≠ 0 → WholePage pa_start pa_end r ∧ r ∉ out) ∧
      ∃ l', FreePages lk pa_start pa_end (if r = 0 then out else r :: out) s' l' := by
  apply (kalloc_runs h.list).imp
  rintro r s' (⟨rfl, rfl, rfl⟩ | ⟨l', rfl, hl', _⟩)
  · exact ⟨⟨fun _ => rfl, fun _ => rfl⟩, fun hc => absurd rfl hc, [], by rw [if_pos rfl]; exact h⟩
  · have hr := (h.free r).mp (List.mem_cons_self ..)
    have hr0 := (h.list.frames r (List.mem_cons_self ..)).ne_zero
    have hnd := List.nodup_cons.mp h.list.nodup
    refine ⟨⟨fun hc => absurd hc hr0, fun hc => by cases hc⟩, fun _ => hr, l', ?_⟩
    rw [if_neg hr0]
    refine ⟨hl', fun a => ?_, List.nodup_cons.mpr ⟨hr.2, h.nodup⟩, fun a ha => ?_⟩
    · have hfree := h.free a
      rw [List.mem_cons] at hfree
      rw [List.mem_cons, not_or]
      constructor
      · intro ha
        have hw := hfree.mp (Or.inr ha)
        refine ⟨hw.1, ?_, hw.2⟩
        rintro rfl
        exact hnd.1 ha
      · rintro ⟨hw, hne, hout⟩
        exact (hfree.mpr ⟨hw, hout⟩).resolve_left hne
    · rcases List.mem_cons.mp ha with rfl | ha
      · exact hr.1
      · exact h.whole a ha

/-- A page that is outstanding may be given back. -/
theorem kfree_pages (hr : InMemory lk pa_start pa_end) (h : FreePages lk pa_start pa_end out s l)
    (hpa : pa ∈ out) :
    Runs E (kfree lk pa) s fun _ s' =>
    FreePages lk pa_start pa_end (out.erase pa) s' (pa :: l) := by
  have hnot : pa ∉ l := fun hmem => ((h.free pa).mp hmem).2 hpa
  have hframe := (h.whole pa hpa).isFrame hr
  apply (kfree_runs h.list fun _ => hnot).mono (fun _ he => absurd hframe he)
  rintro _ s' ⟨_, hl', _⟩
  refine ⟨hl', fun a => ?_, h.nodup.erase pa, fun a ha => h.whole a (List.mem_of_mem_erase ha)⟩
  rw [List.mem_cons, h.free, h.nodup.mem_erase_iff]
  constructor
  · rintro (rfl | ⟨hw, hout⟩)
    · exact ⟨h.whole a hpa, fun hc => hc.1 rfl⟩
    · exact ⟨hw, fun hc => hout hc.2⟩
  · rintro ⟨hw, hout⟩
    by_cases hap : a = pa
    · exact Or.inl hap
    · exact Or.inr ⟨hw, fun hc => hout ⟨hap, hc⟩⟩

theorem PageStep.pages (hr : InMemory lk pa_start pa_end)
    (hs : PageStep lk pa_start pa_end out s out' s')
    (h : FreePages lk pa_start pa_end out s l) : ∃ l', FreePages lk pa_start pa_end out' s' l' := by
  cases hs with
  | kalloc hk => exact ((kalloc_pages (E := fun _ => True) h).of_ok hk).2.2
  | kfree hpa hk => exact ⟨_, (kfree_pages (E := fun _ => True) hr h hpa).of_ok hk⟩
  | store hm => exact ⟨l, h.list.same (fun a ha => (h.free a).mp ha) hm rfl, h.free,
    h.nodup, h.whole⟩

theorem PageRun.pages (hr : InMemory lk pa_start pa_end) (hrun : PageRun lk pa_start pa_end out s) :
    ∃ l, FreePages lk pa_start pa_end out s l := by
  induction hrun with
  | freerange hf => exact (freerange_runs (E := fun _ => True) hr _).of_ok hf
  | step _ hs ih =>
    obtain ⟨l, hl⟩ := ih
    exact hs.pages hr hl

/-! ## The law of the allocator -/

/-- For any range in memory, `freerange` returns, and after any steps the free list is a
list with an end of different pages, the whole pages of the range that are not
outstanding. `kalloc` gives one of them, or 0 when there is none, and `kfree` takes any
page that is outstanding. -/
theorem the_free_list_has_all_other_pages (lk : Link) (pa_start pa_end : Nat)
    (hr : InMemory lk pa_start pa_end) :
    (∀ mem, ∃ s, freerange lk pa_start pa_end ⟨mem, 0⟩ = .ok ((), s)) ∧
    ∀ out s, PageRun lk pa_start pa_end out s →
      (∃ l, Chain s.mem s.freelist l ∧ l.Nodup ∧ ∀ a, a ∈ l ↔
      WholePage pa_start pa_end a ∧ a ∉ out) ∧
      (∃ r s', kalloc s = .ok (r, s') ∧ (r = 0 ↔ ∀ a, WholePage pa_start pa_end a → a ∈ out) ∧
        (r ≠ 0 → WholePage pa_start pa_end r ∧ r ∉ out)) ∧
      ∀ pa ∈ out, ∃ s', kfree lk pa s = .ok ((), s') := by
  refine ⟨fun mem => ?_, fun out s hrun => ?_⟩
  · obtain ⟨_, s, hok, _⟩ := (freerange_runs (E := fun _ => False) hr mem).exists_ok fun _ hc => hc
    exact ⟨s, hok⟩
  · obtain ⟨l, h⟩ := hrun.pages hr
    refine ⟨⟨l, h.list.chain, h.list.nodup, h.free⟩, ?_, fun pa hpa => ?_⟩
    · obtain ⟨r, s', hok, hzero, hpage, _⟩ :=
        (kalloc_pages (E := fun _ => False) h).exists_ok fun _ hc => hc
      refine ⟨r, s', hok, hzero.trans ⟨?_, fun hall => ?_⟩, hpage⟩
      · rintro rfl a ha
        by_contra hout
        exact List.not_mem_nil ((h.free a).mpr ⟨ha, hout⟩)
      · rw [List.eq_nil_iff_forall_not_mem]
        intro a ha
        obtain ⟨hw, hout⟩ := (h.free a).mp ha
        exact hout (hall a hw)
    · obtain ⟨_, s', hok, _⟩ := (kfree_pages (E := fun _ => False) hr h hpa).exists_ok fun _ hc =>
        hc
      exact ⟨s', hok⟩

/-- A kernel that ends inside a page. -/
def unalignedLink : Link := ⟨KERNBASE + 2048, KERNBASE, [], by decide, by decide⟩

theorem the_free_list_has_all_other_pages_of_the_memory :
    InMemory unalignedLink unalignedLink.ekernel PHYSTOP ∧
    ((∀ mem, ∃ s, freerange unalignedLink unalignedLink.ekernel PHYSTOP ⟨mem, 0⟩ = .ok ((), s)) ∧
    ∀ out s, PageRun unalignedLink unalignedLink.ekernel PHYSTOP out s →
      (∃ l, Chain s.mem s.freelist l ∧ l.Nodup ∧ ∀ a, a ∈ l ↔
      WholePage unalignedLink.ekernel PHYSTOP a ∧ a ∉ out) ∧
      (∃ r s', kalloc s = .ok (r, s') ∧ (r = 0 ↔ ∀ a, WholePage unalignedLink.ekernel PHYSTOP a →
      a ∈ out) ∧
        (r ≠ 0 → WholePage unalignedLink.ekernel PHYSTOP r ∧ r ∉ out)) ∧
      ∀ pa ∈ out, ∃ s', kfree unalignedLink pa s = .ok ((), s')) := by
  have hr : InMemory unalignedLink unalignedLink.ekernel PHYSTOP :=
    ⟨by decide, by decide, by decide⟩
  exact ⟨hr, the_free_list_has_all_other_pages _ _ _ hr⟩

end ThuKernel
