-- The pages of a fork: `uvmcopy` gives the child a copy of every page, each on a
-- page that was free, or takes everything back.
import ThuKernel.Kernel.Fork

namespace ThuKernel

variable {lk : Link} {E : Stop → Prop} {R X : Nat → Prop} {s s' : Mm} {l l' : List Nat}
  {old new n q sz : Nat}

/-- Every address below `sz` is mapped. -/
def AllMapped (mem : Bytes) (root sz : Nat) : Prop :=
  ∀ va < sz, va < MAXVA ∧ IsMapped mem root (va / PGSIZE)

/-- The page table of a process with no page yet: the entries below `sz` are clear,
and the other ones are not the user's. -/
structure FreshTable (mem : Bytes) (root sz : Nat) : Prop where
  clear : ∀ q < npages sz, pteAt mem root q = 0
  kernel : ∀ q < 512 ^ 3, ¬ IsUser mem root q

/-- The tables, the entries and the pages of `root` are the same. -/
structure Untouched (root : Nat) (s s' : Mm) : Prop where
  tables : SameTables root s s'
  ptes : SamePtes root s s'
  bytes : ∀ q < 512 ^ 3, IsMapped s.mem root q → ∀ o < PGSIZE,
    s'.mem (frameAt s.mem root q + o) = s.mem (frameAt s.mem root q + o)

/-- The page `a` is page `q` of `new`, and has no other use. -/
structure OnlyFor (R X : Nat → Prop) (new q : Nat) (s : Mm) (l : List Nat) (a : Nat) : Prop where
  unfree : a ∉ l
  unkept : ¬ X a
  table : ∀ r, R r → ¬ TableOf s.mem r a
  mapped : ∀ r, R r → ∀ p < 512 ^ 3, IsMapped s.mem r p → frameAt s.mem r p = a → r = new ∧ p = q

/-- Page `q` of `new` has the flags and the bytes of page `q` of `old`, and was
free before. -/
structure NewCopy (R X : Nat → Prop) (old new : Nat) (s : Mm) (l : List Nat) (s' : Mm)
    (l' : List Nat) (q : Nat) : Prop where
  mapped : IsMapped s'.mem new q
  flags : PTE_FLAGS (pteAt s'.mem new q) = PTE_FLAGS (pteAt s.mem old q)
  bytes : ∀ o < PGSIZE, s'.mem (frameAt s'.mem new q + o) = s.mem (frameAt s.mem old q + o)
  free : frameAt s'.mem new q ∈ l
  only : OnlyFor R X new q s' l' (frameAt s'.mem new q)

/-- The user has no page of `new`, and of the free pages only tables of `new` are
gone. There were too few for the pages and their tables. -/
structure TakenBack (new n : Nat) (s' : Mm) (l l' : List Nat) : Prop where
  leaves : ∀ q < 512 ^ 3, ¬ IsUser s'.mem new q
  pages : ∀ a ∈ l, a ∈ l' ∨ TableOf s'.mem new a
  free : ∀ a ∈ l', a ∈ l
  few : l.length < n + tablesFor n

theorem Within.untouched (h : Within lk R X new s l s' l') (hs : Spaces lk s R l X) (hold : R old)
    (hnew : R new) (hne : old ≠ new) : Untouched old s s' := by
  obtain ⟨htables, hptes⟩ := h.others old hold hne
  exact ⟨htables, hptes, fun q hq hm o ho => h.oldPage hs hold hnew hne hq hm ho⟩

theorem Copies.onlyFor (h : Copies lk R X old new n s l s' l') (hnew : R new) (hq : q < n)
    (hn : n ≤ 512 ^ 3) :
    OnlyFor R X new q s' l' (frameAt s'.mem new q) := by
  have hspace := h.spaces.space new hnew
  have hframe := (h.pages q hq).frame
  have hmaps : MapsTo lk s'.mem new q (frameAt s'.mem new q) :=
    ⟨by omega, (h.pages q hq).mapped, rfl, hframe⟩
  -- No other address space owns the page.
  have hone : ∀ r, R r → Owns lk s'.mem r (frameAt s'.mem new q) → r = new :=
    fun r hr ho => h.spaces.apart r new _ hr hnew ho (Or.inr ⟨q, hmaps⟩)
  refine ⟨hspace.unfree _ _ hmaps, fun hx => ?_, fun r hr ht => ?_, fun r hr p hp hm heq => ?_⟩
  · exact (h.spaces.kept _ hx).2.2 new hnew (Or.inr ⟨q, hmaps⟩)
  · obtain rfl := hone r hr (Or.inl ht)
    exact hspace.unmixed _ _ hmaps ht
  · have hmaps' : MapsTo lk s'.mem r p (frameAt s'.mem new q) := ⟨hp, hm, heq, hframe⟩
    obtain rfl := hone r hr (Or.inr ⟨p, hmaps'⟩)
    exact ⟨rfl, hspace.unshared _ _ _ hmaps' hmaps⟩

/-- The pages of the copies were free: what `new` had before, it still has. -/
theorem Copies.free (h : Copies lk R X old new n s l s' l') (hnew : R new) (hq : q < n)
    (hn : n ≤ 512 ^ 3) (hclear : ∀ q < n, pteAt s.mem new q = 0) : frameAt s'.mem new q ∈ l := by
  have honly := h.onlyFor hnew hq hn
  have hhas : Has lk s' new l' [] (frameAt s'.mem new q) :=
    Or.inr (Or.inl (Or.inr ⟨q, by omega, (h.pages q hq).mapped, rfl, (h.pages q hq).frame⟩))
  rcases (h.moved.pages _).mp hhas with hin | ho | hnil
  · exact hin
  · rcases ho with ht | ⟨p, hp⟩
    · exact absurd (h.tables _ ht) (honly.table new hnew)
    · have hle : n ≤ p := by
        by_contra hc
        have hm := hp.mapped
        rw [IsMapped, hclear p (by omega), Nat.zero_testBit] at hm
        cases hm
      have hpte := h.rest p hp.limit hle
      have hmapped : IsMapped s'.mem new p := by
        unfold IsMapped
        rw [hpte]
        exact hp.mapped
      have hframe : frameAt s'.mem new p = frameAt s'.mem new q := by
        rw [← hp.frame]
        unfold frameAt
        rw [hpte]
      have := (honly.mapped new hnew p hp.limit hmapped hframe).2
      omega
  · cases hnil

theorem Copies.newCopy (h : Copies lk R X old new n s l s' l') (hnew : R new) (hq : q < n)
    (hn : n ≤ 512 ^ 3) (hclear : ∀ q < n, pteAt s.mem new q = 0)
    (hm : IsMapped s.mem old q) : NewCopy R X old new s l s' l' q := by
  have hcopied := h.pages q hq
  refine ⟨hcopied.mapped, ?_, hcopied.bytes, h.free hnew hq hn hclear, h.onlyFor hnew hq hn⟩
  have hlt : PTE_FLAGS (pteAt s.mem old q) < 1024 := by
    rw [PTE_FLAGS_eq]
    exact Nat.mod_lt _ (by decide)
  rw [hcopied.pte, (leafPte_decode hcopied.frame.aligned hlt).2]
  -- The flags have `PTE_V` already.
  have hv : (PTE_FLAGS (pteAt s.mem old q)).testBit 0 = true := by
    rw [testBit_flags (by decide)]
    exact hm
  apply Nat.eq_of_testBit_eq
  intro i
  cases i with
  | zero => simp [PTE_V, hv]
  | succ i => simp [PTE_V, Nat.testBit_one_eq_true_iff_self_eq_zero]

theorem GaveBack.takenBack (h : GaveBack lk R X new s l s' l') (hs : Spaces lk s R l X)
    (hnew : R new) (hfresh : FreshTable s.mem new sz)
    (hfew : l.length < n + tablesFor n) : TakenBack new n s' l l' := by
  have hmaps : ∀ q a, MapsTo lk s'.mem new q a ↔ MapsTo lk s.mem new q a :=
    fun q a => h.ptes.mapsTo q a
  refine ⟨fun q hq hu => hfresh.kernel q hq ?_, fun a ha => ?_, fun a ha => ?_, hfew⟩
  · unfold IsUser IsMapped at *
    rwa [h.ptes q hq] at hu
  · rcases (h.moved.pages a).mpr (Or.inl ha) with hin | (ht | ⟨q, hq⟩) | hnil
    · exact Or.inl hin
    · exact Or.inr ht
    · exact absurd ha ((hs.space new hnew).unfree q a ((hmaps q a).mp hq))
    · cases hnil
  · rcases (h.moved.pages a).mp (Or.inl ha) with hin | (ht | ⟨q, hq⟩) | hnil
    · exact hin
    · exact absurd (Or.inl (h.tables a ht)) ((h.spaces.space new hnew).unowned ha)
    · exact absurd ha ((h.spaces.space new hnew).unfree q a ((hmaps q a).mpr hq))
    · cases hnil

/-- `uvmcopy` never panics on a parent whose pages are all mapped. The parent stays
as it is, and the child gets all pages or none. -/
theorem uvmcopy_copies_all_or_nothing (hs : Spaces lk s R l X) (hold : R old) (hnew : R new)
    (hne : old ≠ new) (hmapped : AllMapped s.mem old sz) (hfresh : FreshTable s.mem new sz) :
    Runs (fun _ => False) (uvmcopy lk old new sz) s fun r s' => Untouched old s s' ∧
      ∃ l', Spaces lk s' R l' X ∧ ((r = 0 ∧ ∀ q < npages sz, NewCopy R X old new s l s' l' q) ∨
        (r = -1 ∧ TakenBack new (npages sz) s' l l')) := by
  have hsz : sz ≤ MAXVA := by
    by_contra hc
    have := (hmapped (sz - 1) (by omega)).1
    omega
  have hall : ∀ q < npages sz, IsMapped s.mem old q := by
    intro q hq
    have hm := (hmapped (q * PGSIZE) ((mul_lt_iff_lt_npages hsz q).mpr hq)).2
    rwa [Nat.mul_div_cancel q (by decide)] at hm
  have hmax := MAXVA_eq
  have hn : npages sz ≤ 2 ^ 26 := npages_le (hsz.trans_eq hmax) (by rw [hmax]; decide)
  apply (uvmcopy_runs hs hold hnew hne hsz hfresh.clear).mono
  · rintro e ⟨q, hq, hno, _⟩
    exact hno (hall q hq)
  · rintro r s' ⟨l', hresult⟩
    rcases hresult.result with rfl | rfl
    · have hcopies := (hresult.copied rfl).1
      exact ⟨hcopies.toWithin.untouched hs hold hnew hne, l', hcopies.spaces,
        Or.inl ⟨rfl, fun q hq => hcopies.newCopy hnew hq (hn.trans (by decide)) hfresh.clear
          (hall q hq)⟩⟩
    · obtain ⟨hback, v, hv, _, hfew⟩ := hresult.failed rfl
      rw [fillCost_zero] at hfew
      have hmono := tablesFor_mono (show v + 1 ≤ npages sz by omega)
      exact ⟨hback.toWithin.untouched hs hold hnew hne, l', hback.spaces,
        Or.inr ⟨rfl, hback.takenBack hs hnew hfresh (by omega)⟩⟩

/-! ## A table that is fresh -/

/-- `proc_pagetable` makes such a table. -/
theorem NewImage.freshTable {tf r : Nat} (h : NewImage lk R X tf s l r s' l') (htf : IsFrame lk tf)
    (hsz : sz ≤ TRAPFRAME) :
    FreshTable s'.mem r sz := by
  have hn := npages_trapframe hsz
  have hclear : ∀ q < 512 ^ 3, q ≠ trampolinePage → q ≠ trapframePage → pteAt s'.mem r q = 0 := by
    intro q hq h1 h2
    rw [h.ptes q hq, procPtes_user h1 h2]
  refine ⟨fun q hq => ?_, fun q hq hu => ?_⟩
  · unfold trapframePage at hn
    exact hclear q (by omega) (by unfold trampolinePage; omega) (by unfold trapframePage; omega)
  · by_cases h1 : q = trampolinePage
    · subst h1
      exact @not_user_trampoline lk _ _ (by rw [h.ptes _ hq, procPtes, if_pos rfl]) hu
    · by_cases h2 : q = trapframePage
      · subst h2
        exact not_user_trapframe htf (by rw [h.ptes _ hq, procPtes, if_neg h1, if_pos rfl]) hu
      · have hm := hu.1
        rw [IsMapped, hclear q hq h1 h2, Nat.zero_testBit] at hm
        cases hm

/-- The pages of an application are copied to the table of a new process. -/
theorem uvmcopy_copies_all_or_nothing_two_pages :
    ∃ (R X : Nat → Prop) (s : Mm) (l : List Nat) (old new sz : Nat),
    npages sz = 2 ∧ Runs (fun _ => False) (uvmcopy pageLink old new sz) s fun r s' =>
    Untouched old s s' ∧
      ∃ l', Spaces pageLink s' R l' X ∧
      ((r = 0 ∧ ∀ q < npages sz, NewCopy R X old new s l s' l' q) ∨
        (r = -1 ∧ TakenBack new (npages sz) s' l l')) := by
  obtain ⟨mm, root, sz, l, hs, hloaded, hnp, hsz, hlen⟩ := onePageApp_loaded
  obtain ⟨new, s, _, himage⟩ :=
    (proc_pagetable_runs hs (rfl : (0x2000 : Nat) = 0x2000)).exists_ok (by
    rintro e ⟨_, rfl⟩
    simp at hlen)
  rcases himage with ⟨_, l', hno⟩ | ⟨_, l', himage⟩
  · have := hno.few
    omega
  · have hold := himage.others root rfl
    have hmax := hsz.trans (show TRAPFRAME ≤ MAXVA by rw [trapframe_page, MAXVA_eq]; decide)
    have hmapped : AllMapped s.mem root sz := by
      intro va hva
      have hq : va / PGSIZE < npages sz := by
        rw [← mul_lt_iff_lt_npages hmax]
        exact (Nat.div_mul_le_self va PGSIZE).trans_lt hva
      refine ⟨hva.trans_le hmax, ?_⟩
      rw [IsMapped, hold.2 _ (by omega)]
      exact (hloaded.pages _ (by omega)).decode.1
    have hne : root ≠ new := fun hc => himage.fresh hc.symm
    exact ⟨_, _, s, l', root, new, sz, hnp,
      uvmcopy_copies_all_or_nothing himage.spaces (Or.inl rfl) (Or.inr rfl) hne
      hmapped (himage.freshTable ⟨by decide, by decide, by decide⟩ hsz)⟩

end ThuKernel
