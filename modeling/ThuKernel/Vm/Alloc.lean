-- The page allocator: the free list as a list of pages, what `kalloc` takes
-- from it and what `kfree` puts there. And the entries of the page tables.
import ThuKernel.Lib.Pages
import ThuKernel.Vm.Vm

namespace ThuKernel

/-! ## Pages -/

/-- The address of a page. -/
structure IsPage (a : Nat) : Prop where
  aligned : a % PGSIZE = 0
  below : a < 2 ^ 64

/-- A page that the allocator may hand out, and that `kfree` takes back. -/
structure IsFrame (lk : Link) (a : Nat) : Prop where
  aligned : a % PGSIZE = 0
  above : lk.ekernel ≤ a
  below : a < PHYSTOP

variable {lk : Link} {a b pa : Nat}

theorem PGSIZE_eq : PGSIZE = 4096 := rfl

theorem IsFrame.isPage (h : IsFrame lk a) : IsPage a := by
  refine ⟨h.aligned, ?_⟩
  have := h.below
  unfold PHYSTOP at this
  omega

theorem IsFrame.ne_zero (h : IsFrame lk a) : a ≠ 0 := by
  have h1 := h.above
  have h2 := lk.inside
  omega

instance : Decidable (IsFrame lk a) :=
  decidable_of_iff (a % PGSIZE = 0 ∧ lk.ekernel ≤ a ∧ a < PHYSTOP)
    ⟨fun h => ⟨h.1, h.2.1, h.2.2⟩, fun h => ⟨h.1, h.2, h.3⟩⟩

/-! ## Entries -/

theorem PA2PTE_eq (pa : Nat) : PA2PTE pa = 2 ^ 10 * (pa / 4096) := by
  unfold PA2PTE
  rw [Nat.shiftRight_eq_div_pow, Nat.shiftLeft_eq, Nat.mul_comm]

theorem PTE2PA_eq (pte : Nat) : PTE2PA pte = pte / 1024 * 4096 % 2 ^ 64 := by
  unfold PTE2PA
  rw [Nat.shiftRight_eq_div_pow, Nat.shiftLeft_eq]

theorem PTE_FLAGS_eq (pte : Nat) : PTE_FLAGS pte = pte % 1024 :=
  Nat.and_two_pow_sub_one_eq_mod pte 10

/-- Every entry leads to a page. -/
theorem isPage_PTE2PA (pte : Nat) : IsPage (PTE2PA pte) := by
  rw [PTE2PA_eq]
  constructor
  · rw [PGSIZE_eq]
    omega
  · exact Nat.mod_lt _ (by decide)

/-- An entry is the page and the flags, side by side. -/
theorem pte_eq {flags : Nat} (hf : flags < 1024) (pa : Nat) :
    PA2PTE pa ||| flags = 1024 * (pa / 4096) + flags := by
  rw [PA2PTE_eq]
  exact (Nat.two_pow_add_eq_or_of_lt (i := 10) hf _).symm

theorem pte_lt {flags : Nat} (hf : flags < 1024) (hpa : pa < 2 ^ 64) :
    PA2PTE pa ||| flags < 2 ^ 64 := by
  rw [pte_eq hf]
  omega

theorem PTE2PA_pte {flags : Nat} (hf : flags < 1024) (h : IsPage pa) :
    PTE2PA (PA2PTE pa ||| flags) = pa := by
  have h1 := h.aligned
  have h2 := h.below
  rw [PGSIZE_eq] at h1
  rw [PTE2PA_eq, pte_eq hf]
  omega

theorem PTE_FLAGS_pte {flags : Nat} (hf : flags < 1024) (pa : Nat) :
    PTE_FLAGS (PA2PTE pa ||| flags) = flags := by
  rw [PTE_FLAGS_eq, pte_eq hf]
  omega

theorem testBit_flags {pte i : Nat} (hi : i < 10) : (PTE_FLAGS pte).testBit i = pte.testBit i := by
  rw [PTE_FLAGS_eq]
  exact (Nat.testBit_mod_two_pow pte 10 i).trans (by simp [hi])

/-! ## The allocator -/

/-- The free list holds the pages `l`. -/
structure FreeList (lk : Link) (s : Mm) (l : List Nat) : Prop where
  chain : Chain s.mem s.freelist l
  nodup : l.Nodup
  frames : ∀ a ∈ l, IsFrame lk a

variable {E : Stop → Prop} {s s' : Mm} {l : List Nat}

/-- What leaves the free pages alone leaves the free list alone. -/
theorem FreeList.same (h : FreeList lk s l) {keep : Nat → Prop} (hkeep : ∀ a ∈ l, keep a)
    (hsame : SameOn PGSIZE keep s.mem s'.mem) (hlist : s'.freelist = s.freelist) :
    FreeList lk s' l := by
  refine ⟨?_, h.nodup, h.frames⟩
  rw [hlist]
  exact h.chain.same (by decide) (fun a ha => ⟨(h.frames a ha).aligned, hkeep a ha⟩) hsame

theorem FreeList.head_lt (h : FreeList lk s l) : s.freelist < 2 ^ 64 := by
  have hchain := h.chain
  cases l with
  | nil =>
    have h0 : s.freelist = 0 := hchain
    omega
  | cons a l =>
    have := (h.frames a (List.mem_cons_self ..)).isPage.below
    have h1 := hchain.1
    omega

theorem runs_kalloc {Q : Nat → Mm → Prop} : Runs E kalloc s Q ↔ (s.freelist = 0 → Q 0 s) ∧
    (s.freelist ≠ 0 → Q s.freelist
      { mem := s.mem.fill s.freelist PGSIZE 5, freelist := s.mem.get64 s.freelist }) := by
  unfold kalloc
  rw [Runs.bind_iff, Runs.get_iff]
  dsimp only
  split
  · simp [*]
  · simp [*]

theorem runs_kfree {Q : Unit → Mm → Prop} : Runs E (kfree lk pa) s Q ↔
    (¬ IsFrame lk pa → E (.panic "kfree")) ∧
    (IsFrame lk pa →
    Q () { mem := (s.mem.fill pa PGSIZE 1).put64 pa s.freelist, freelist := pa }) := by
  unfold kfree
  split
  · rename_i hbad
    have hno : ¬ IsFrame lk pa := fun h => by
      have h1 := h.aligned
      have h2 := h.above
      have h3 := h.below
      omega
    simp [hno]
  · rename_i hgood
    have hframe : IsFrame lk pa := ⟨by omega, by omega, by omega⟩
    simp [hframe]

/-- `kalloc` takes the first free page, and touches only it. -/
theorem kalloc_runs (h : FreeList lk s l) :
    Runs E kalloc s (fun r s' => (l = [] ∧ r = 0 ∧ s' = s) ∨
      ∃ l', l = r :: l' ∧ FreeList lk s' l' ∧ SameOn PGSIZE (· ≠ r) s.mem s'.mem) := by
  rw [runs_kalloc]
  constructor
  · intro h0
    exact Or.inl ⟨h.chain.head_eq_zero_iff.mp h0, rfl, rfl⟩
  · intro h0
    cases l with
    | nil => exact absurd h.chain h0
    | cons a l' =>
      obtain ⟨h1, h2, h3⟩ := h.chain
      have hframe := h.frames a (List.mem_cons_self ..)
      have hsame : SameOn PGSIZE (· ≠ a) s.mem (s.mem.fill a PGSIZE 5) :=
        SameOn.fill hframe.aligned (Nat.le_refl _)
      rw [h1]
      refine Or.inr ⟨l', rfl, ⟨?_, h.nodup.of_cons, ?_⟩, hsame⟩
      · apply h3.same (by decide) _ hsame
        intro b hb
        refine ⟨(h.frames b (List.mem_cons_of_mem _ hb)).aligned, ?_⟩
        rintro rfl
        exact (List.nodup_cons.mp h.nodup).1 hb
      · intro b hb
        exact h.frames b (List.mem_cons_of_mem _ hb)

/-- `kfree` takes any page that the allocator may hand out. One that is not
free becomes the first free page. -/
theorem kfree_runs (h : FreeList lk s l) (hl : IsFrame lk pa → pa ∉ l) :
    Runs (fun _ => ¬ IsFrame lk pa) (kfree lk pa) s (fun _ s' => IsFrame lk pa ∧
      FreeList lk s' (pa :: l) ∧ SameOn PGSIZE (· ≠ pa) s.mem s'.mem) := by
  rw [runs_kfree]
  refine ⟨fun hno => hno, fun hframe => ?_⟩
  have hsame : SameOn PGSIZE (· ≠ pa) s.mem ((s.mem.fill pa PGSIZE 1).put64 pa s.freelist) := by
    apply SameOn.trans (SameOn.fill hframe.aligned (Nat.le_refl _))
    exact SameOn.put64 (o := 0) hframe.aligned (by decide)
  refine ⟨hframe, ⟨⟨rfl, hframe.ne_zero, ?_⟩, List.nodup_cons.mpr ⟨hl hframe, h.nodup⟩, ?_⟩, hsame⟩
  · have hnext : ((s.mem.fill pa PGSIZE 1).put64 pa s.freelist).get64 pa = s.freelist := by
      apply Bytes.get64_put64
      exact h.head_lt
    dsimp only
    rw [hnext]
    apply h.chain.same (by decide) _ hsame
    intro b hb
    refine ⟨(h.frames b hb).aligned, ?_⟩
    rintro rfl
    exact hl hframe hb
  · intro b hb
    rcases List.mem_cons.mp hb with rfl | hb
    · exact hframe
    · exact h.frames b hb

end ThuKernel
