-- `uvmcopy`: the pages of one address space are copied into another one, page
-- by page, and what was copied is given back if there is no page left.
import ThuKernel.Vm.Spaces

namespace ThuKernel

variable {lk : Link} {E : Stop → Prop} {s₀ s s₁ s₂ : Mm} {old new r pa v n k : Nat}
variable {R X : Nat → Prop} {l₀ l l₁ l₂ : List Nat}

/-- Page `q` of `new` is a copy of page `q` of `old`, as `old` was in `mem`. -/
structure CopiedPage (lk : Link) (mem mem' : Bytes) (old new q : Nat) : Prop where
  frame : IsFrame lk (frameAt mem' new q)
  pte : pteAt mem' new q = leafPte (frameAt mem' new q) (PTE_FLAGS (pteAt mem old q))
  bytes : ∀ o < PGSIZE, mem' (frameAt mem' new q + o) = mem (frameAt mem old q + o)

/-- The first `k` pages were copied. -/
structure Copies (lk : Link) (R X : Nat → Prop) (old new k : Nat) (s₀ : Mm) (l₀ : List Nat) (s : Mm)
    (l : List Nat) : Prop extends Within lk R X new s₀ l₀ s l where
  pages : ∀ q < k, CopiedPage lk s₀.mem s.mem old new q
  rest : ∀ q < 512 ^ 3, k ≤ q → pteAt s.mem new q = pteAt s₀.mem new q
  tables : ∀ a, TableOf s₀.mem new a → TableOf s.mem new a

/-- The copies were given back, and no entry of `new` is left. -/
structure GaveBack (lk : Link) (R X : Nat → Prop) (new : Nat) (s₀ : Mm) (l₀ : List Nat) (s : Mm)
    (l : List Nat) : Prop extends Within lk R X new s₀ l₀ s l where
  ptes : SamePtes new s₀ s
  tables : ∀ a, TableOf s₀.mem new a → TableOf s.mem new a

theorem CopiedPage.mapped {mem mem' : Bytes} (h : CopiedPage lk mem mem' old new v) :
    IsMapped mem' new v := by
  unfold IsMapped
  rw [h.pte, leafPte_valid]

/-- The pages that were copied are taken away again. -/
theorem Within.giveBack (h : Within lk R X new s₀ l₀ s l) (hnew : R new) (hk : k ≤ 2 ^ 26)
    (hzero : ∀ q < k, pteAt s₀.mem new q = 0)
    (hpages : ∀ q < k, IsMapped s.mem new q ∧ IsFrame lk (frameAt s.mem new q))
    (hrest : ∀ q < 512 ^ 3, k ≤ q → pteAt s.mem new q = pteAt s₀.mem new q)
    (htables : ∀ a, TableOf s₀.mem new a → TableOf s.mem new a) :
    Runs E (uvmunmap lk new 0 k true) s (fun _ s' => ∃ l', GaveBack lk R X new s₀ l₀ s' l') := by
  have hend : 0 + k * PGSIZE ≤ MAXVA := by
    have := MAXVA_eq
    simp only [PGSIZE_eq]
    omega
  have hgood : ∀ q, 0 / PGSIZE ≤ q → q < 0 / PGSIZE + k → CanUnmap lk s.mem new true q := by
    intro q _ hq
    rw [show 0 / PGSIZE = 0 from rfl, Nat.zero_add] at hq
    obtain ⟨hmapped, hframe⟩ := hpages q hq
    refine ⟨hmapped, fun hflags => ?_, fun _ => hframe⟩
    apply (h.spaces.space new hnew).walkable.leaf q (by omega) hmapped
    rw [flags_and, hflags]
    decide
  apply (h.spaces.uvmunmap_runs hnew (rfl : 0 % PGSIZE = 0) hend).mono
  · intro e he
    exact absurd hgood he
  · rintro _ s₁ ⟨l₁, h₁, hothers₁, hmoved₁, hun₁⟩
    refine ⟨l₁, h.trans ⟨h₁, hothers₁, hmoved₁⟩, fun q hq => ?_, fun a ha => ?_⟩
    · rw [hun₁.pte q hq, show 0 / PGSIZE = 0 from rfl, Nat.zero_add]
      by_cases hqk : q < k
      · rw [if_pos ⟨Nat.zero_le q, hqk⟩, hzero q hqk]
      · rw [if_neg (by omega), hrest q hq (by omega)]
    · exact (hun₁.tables.tableOf a).mpr (htables a ha)

/-- A page of the old address space is as it was. -/
theorem Within.oldPage (h : Within lk R X new s₀ l₀ s l) (hs : Spaces lk s₀ R l₀ X) (hold : R old)
    (hnew : R new) (hne : old ≠ new) {q o : Nat} (hq : q < 512 ^ 3) (hm : IsMapped s₀.mem old q)
    (ho : o < PGSIZE) : s.mem (frameAt s₀.mem old q + o) = s₀.mem (frameAt s₀.mem old q + o) := by
  have hpage := isPage_PTE2PA (pteAt s₀.mem old q)
  refine h.moved.same.byte hpage.aligned (fun hc => ?_) ho
  have hframe : IsFrame lk (frameAt s₀.mem old q) := by
    rcases hc with hc | hc | hc
    · exact hs.free.frames _ hc
    · exact hc.frame (hs.space new hnew)
    · cases hc
  have hown : Owns lk s₀.mem old (frameAt s₀.mem old q) := Or.inr ⟨q, hq, hm, rfl, hframe⟩
  exact hs.not_has hnew hold hne (fun a ha => by cases ha) hown hc

/-- One more page was copied. -/
theorem Copies.page {page m : Nat} (h : Copies lk R X old new k s₀ l₀ s l)
    (hs : Spaces lk s₀ R l₀ X) (hold : R old) (hnew : R new) (hne : old ≠ new) (hk : k < 2 ^ 26)
    (hm : IsMapped s₀.mem old k) (h₁ : AddsPage lk R X new k page (PTE_FLAGS (pteAt s₀.mem old k)) m
      (fun page mem => mem.store page (mem.load (frameAt s₀.mem old k) PGSIZE)) s l s₁ l₁) :
    Copies lk R X old new (k + 1) s₀ l₀ s₁ l₁ := by
  refine ⟨h.toWithin.trans h₁.toWithin, fun q hq => ?_, fun q hq hle => ?_,
    fun a ha => h₁.tables a (h.tables a ha)⟩
  · by_cases hqk : q = k
    · subst hqk
      have hpte : pteAt s₁.mem new q = leafPte page (PTE_FLAGS (pteAt s₀.mem old q)) := by
        rw [h₁.ptes q (by omega), if_pos rfl]
      have hflags : PTE_FLAGS (pteAt s₀.mem old q) < 1024 := by
        rw [PTE_FLAGS_eq]
        omega
      have hpage : frameAt s₁.mem new q = page := by
        unfold frameAt
        rw [hpte, (leafPte_decode h₁.frame.aligned hflags).1,
          Nat.mod_eq_of_lt h₁.frame.isPage.below]
      obtain ⟨mem, hmem, hbytes⟩ := h₁.bytes
      refine ⟨by rw [hpage]; exact h₁.frame, by rw [hpage]; exact hpte, fun o ho => ?_⟩
      -- The old page is not the new one, so it was there to copy.
      have hapart : frameAt s₀.mem old q ≠ page := by
        intro hc
        have hsame := (h.others old hold hne).2 q (by omega)
        have hmaps : MapsTo lk s.mem old q page := by
          refine ⟨by omega, ?_, ?_, h₁.frame⟩
          · unfold IsMapped
            rw [hsame]
            exact hm
          · unfold frameAt
            rw [hsame]
            exact hc
        exact (h.spaces.space old hold).unfree q page hmaps h₁.free
      rw [hpage, hbytes o ho, copied_byte _ _ _ _ ho]
      have haligned : frameAt s₀.mem old q % PGSIZE = 0 := (isPage_PTE2PA _).aligned
      rw [hmem.byte haligned hapart ho]
      exact h.toWithin.oldPage hs hold hnew hne (by omega) hm ho
    · have hcopied := h.pages q (by omega)
      have hpte : pteAt s₁.mem new q = pteAt s.mem new q := by
        rw [h₁.ptes q (by omega), if_neg hqk]
      have hframe : frameAt s₁.mem new q = frameAt s.mem new q := by
        unfold frameAt
        rw [hpte]
      have hmaps : MapsTo lk s.mem new q (frameAt s.mem new q) :=
        ⟨by omega, hcopied.mapped, rfl, hcopied.frame⟩
      have hspace := h.spaces.space new hnew
      refine ⟨by rw [hframe]; exact hcopied.frame, by rw [hframe, hpte]; exact hcopied.pte,
        fun o ho => ?_⟩
      rw [hframe, ← hcopied.bytes o ho]
      exact h₁.same.byte hcopied.frame.aligned ⟨hspace.unfree q _ hmaps,
        hspace.unmixed q _ hmaps⟩ ho
  · rw [h₁.ptes q hq, if_neg (by omega), h.rest q hq (by omega)]

/-- The loop of `uvmcopy` stops at the first page that is not mapped, when the
pages before it were copied. -/
def CopyStop (lk : Link) (R X : Nat → Prop) (old new n : Nat) (s₀ : Mm) (l₀ : List Nat) : Prop :=
  ∃ h < n, ¬ IsMapped s₀.mem old h ∧ (∀ q < h, IsMapped s₀.mem old q) ∧
    ∃ s l, Copies lk R X old new h s₀ l₀ s l

/-- What the loop of `uvmcopy` ends in. -/
structure CopyResult (lk : Link) (R X : Nat → Prop) (old new n : Nat) (s₀ : Mm)
    (l₀ : List Nat) (r : Int) (s : Mm) (l : List Nat) : Prop where
  result : r = 0 ∨ r = -1
  copied : r = 0 → Copies lk R X old new n s₀ l₀ s l ∧ l₀.length ≤ l.length + fillCost 0 0 n ∧
    ∀ q < n, IsMapped s₀.mem old q
  failed : r = -1 → GaveBack lk R X new s₀ l₀ s l ∧
    ∃ v < n, (∀ q ≤ v, IsMapped s₀.mem old q) ∧ l₀.length < fillCost 0 0 (v + 1)

theorem uvmcopyLoop_runs {n k sz fuel : Nat} (hs : Spaces lk s₀ R l₀ X) (hold : R old)
    (hnew : R new) (hne : old ≠ new) (hn : n ≤ 2 ^ 26) (hsz : ∀ q, q * PGSIZE < sz ↔ q < n)
    (hzero : ∀ q < n, pteAt s₀.mem new q = 0) (h : Copies lk R X old new k s₀ l₀ s l)
    (hcount : l₀.length ≤ l.length + fillCost 0 0 k) (hmapped : ∀ q < k, IsMapped s₀.mem old q)
    (hk : k ≤ n) (hfuel : n - k < fuel) :
    Runs (fun _ => CopyStop lk R X old new n s₀ l₀) (uvmcopyLoop lk old new sz fuel (k * PGSIZE)) s
      (fun r s' => ∃ l', CopyResult lk R X old new n s₀ l₀ r s' l') := by
  induction fuel generalizing s l k with
  | zero => omega
  | succ fuel ih =>
    have hmax := MAXVA_eq
    unfold uvmcopyLoop
    by_cases hlast : k < n
    · have hva : k * PGSIZE < MAXVA := by
        simp only [PGSIZE_eq]
        omega
      have hvpn : k * PGSIZE / PGSIZE = k := Nat.mul_div_cancel k (by decide)
      have hpte : pteAt s.mem old k = pteAt s₀.mem old k := (h.others old hold hne).2 k (by omega)
      rw [if_pos ((hsz k).mpr hlast), Runs.bind_iff, runs_find hva, hvpn]
      cases hslot : slot s.mem old k with
      | none =>
        refine ⟨k, hlast, fun hm => ?_, hmapped, s, l, h⟩
        rw [IsMapped, ← hpte, slot_none hslot, Nat.zero_testBit] at hm
        cases hm
      | some pte =>
        dsimp only
        rw [Runs.bind_iff, Runs.get_iff, get64_slot hslot, hpte]
        split
        · rename_i hv
          refine ⟨k, hlast, fun hm => ?_, hmapped, s, l, h⟩
          rw [IsMapped, hv] at hm
          cases hm
        · rename_i hv
          have hm : IsMapped s₀.mem old k := by
            unfold IsMapped
            simpa using hv
          have hzerok : pteAt s.mem new k = 0 := by
            rw [h.rest k (by omega) (Nat.le_refl _), hzero k hlast]
          have hun : ¬ IsMapped s.mem new k := by
            rw [IsMapped, hzerok, Nat.zero_testBit]
            decide
          have hmissing : missing s.mem new k 2 ≤ fillCost 0 0 (k + 1) - fillCost 0 0 k - 1 := by
            have hstep := @missing_step new s.mem k (if k = 0 then 0 else tablesFor k) (by
              split
              · exact Or.inl rfl
              · rename_i h0
                exact Or.inr ⟨rfl, by omega, (h.pages (k - 1) (by omega)).mapped⟩)
            unfold fillCost
            rw [if_neg (Nat.succ_ne_zero k), Nat.zero_add, Nat.zero_add]
            split at hstep
            · rename_i h0
              rw [if_pos h0]
              omega
            · rename_i h0
              rw [if_neg h0]
              omega
          have hcost : fillCost 0 0 k < fillCost 0 0 (k + 1) := by
            unfold fillCost tablesFor
            rw [if_neg (Nat.succ_ne_zero k)]
            split
            · omega
            · omega
          have hback : ∀ {s' : Mm} {l' : List Nat}, Within lk R X new s₀ l₀ s' l' →
              (∀ q < 512 ^ 3, pteAt s'.mem new q = pteAt s.mem new q) →
              (∀ a, TableOf s.mem new a → TableOf s'.mem new a) →
              l₀.length < fillCost 0 0 (k + 1) → Runs (fun _ => CopyStop lk R X old new n s₀ l₀) (do
                uvmunmap lk new 0 k true
                pure (-1 : Int)) s' (fun r s' =>
                  ∃ l', CopyResult lk R X old new n s₀ l₀ r s' l') := by
            intro s' l' h' hsame htables hfew
            apply (h'.giveBack hnew (by omega) (fun q hq => hzero q (by omega)) (fun q hq => ?_)
              (fun q hq hle => ?_) fun a ha => htables a (h.tables a ha)).bind
            · rintro _ s'' ⟨l'', h''⟩
              refine ⟨l'', Or.inr rfl, fun hr => absurd hr (by decide),
                fun _ => ⟨h'', k, hlast, ?_, hfew⟩⟩
              intro q hq
              by_cases hqk : q = k
              · rw [hqk]
                exact hm
              · exact hmapped q (by omega)
            · have hpage := h.pages q hq
              unfold IsMapped frameAt
              rw [hsame q (by omega)]
              exact ⟨hpage.mapped, hpage.frame⟩
            · rw [hsame q hq, h.rest q hq hle]
          have hleaf : PTE_FLAGS (pteAt s₀.mem old k) &&& (PTE_R ||| PTE_W ||| PTE_X) ≠ 0 := by
            rw [← flags_and]
            exact (hs.space old hold).walkable.leaf k (by omega) hm
          have hflags : PTE_FLAGS (pteAt s₀.mem old k) < 1024 := by
            rw [PTE_FLAGS_eq]
            omega
          refine h.spaces.newPage_runs hnew (by omega) hflags hleaf hmissing
            (fun page mem hpage => sameOn_copy (PTE2PA (pteAt s₀.mem old k)) mem hpage)
            (fun hl => ?_) (fun page s₁ l₁ h₁ => ?_) fun page s₁ l₁ h₁ => ?_
          · -- No page is left.
            apply hback h.toWithin (fun q hq => rfl) (fun a ha => ha)
            rw [hl, List.length_nil] at hcount
            omega
          · -- No page for a table is left.
            apply (h₁.kfree_runs hnew).bind
            rintro _ s₂ ⟨h₂, hsame₂, htables₂⟩
            have hfew := h₁.reason.resolve_left hun
            exact hback (h.toWithin.trans h₂) hsame₂ htables₂ (by omega)
          · have h' := h.page hs hold hnew hne (by omega) hm h₁
            have hcount₁ := h₁.count
            have hih := ih h' (by omega) (fun q hq => ?_) hlast (by omega)
            · rwa [Nat.add_mul, Nat.one_mul] at hih
            · by_cases hqk : q = k
              · rw [hqk]
                exact hm
              · exact hmapped q (by omega)
    · have hkn : k = n := by omega
      subst hkn
      rw [if_neg (by rw [hsz k]; omega), Runs.pure_iff]
      exact ⟨l, Or.inl rfl, fun _ => ⟨h, hcount, hmapped⟩, fun hr => absurd hr (by decide)⟩

/-- The pages that start below `sz`. -/
theorem mul_lt_iff_lt_npages {sz : Nat} (hsz : sz ≤ MAXVA) (q : Nat) :
    q * PGSIZE < sz ↔ q < npages sz := by
  have hmax := MAXVA_eq
  unfold npages PGROUNDUP
  rw [Nat.mul_div_cancel _ (by decide)]
  simp only [PGSIZE_eq]
  omega

/-- `uvmcopy` copies every page of `[0, sz)`, or nothing. It panics at a page
that is not mapped. -/
theorem uvmcopy_runs {sz : Nat} (hs : Spaces lk s R l X) (hold : R old) (hnew : R new)
    (hne : old ≠ new) (hsz : sz ≤ MAXVA) (hzero : ∀ q < npages sz, pteAt s.mem new q = 0) :
    Runs (fun _ => CopyStop lk R X old new (npages sz) s l) (uvmcopy lk old new sz) s
      (fun r s' => ∃ l', CopyResult lk R X old new (npages sz) s l r s' l') := by
  have hmax := MAXVA_eq
  have hlt := mul_lt_iff_lt_npages hsz
  have hn : npages sz ≤ 2 ^ 26 := npages_le (hsz.trans_eq hmax) (by rw [hmax]; decide)
  have hfuel : MAXVA / PGSIZE = 2 ^ 26 := by
    rw [hmax]
    decide
  have hstart : Copies lk R X old new 0 s l s l :=
    ⟨Within.refl hs, fun q hq => absurd hq (Nat.not_lt_zero q), fun q _ _ => rfl, fun a ha => ha⟩
  have h := uvmcopyLoop_runs hs hold hnew hne hn hlt hzero hstart
    (Nat.le_add_right _ _) (fun q hq => absurd hq (Nat.not_lt_zero q)) (Nat.zero_le _)
    (show npages sz - 0 < MAXVA / PGSIZE + 1 by omega)
  rw [Nat.zero_mul] at h
  exact h

/-- Nothing to unmap. -/
theorem runs_uvmunmap_zero {Q : Unit → Mm → Prop} :
    Runs E (uvmunmap lk r 0 0 true) s Q ↔ Q () s := by
  rw [uvmunmap, if_neg (by decide), uvmunmapLoop, if_neg (by decide)]
  exact Runs.pure_iff

/-- Copying an address space into itself fails at the first page. -/
theorem uvmcopy_self_runs {sz : Nat} (hs : Spaces lk s R l X) (hr : R r) (hsz : 0 < sz) :
    Runs (fun _ => ¬ IsMapped s.mem r 0) (uvmcopy lk r r sz) s (fun ret s' => ret = -1 ∧
      ∃ l', Within lk R X r s l s' l' ∧ SamePtes r s s') := by
  have hva : 0 < MAXVA := by
    rw [MAXVA_eq]
    decide
  have hzero : 0 / PGSIZE = 0 := rfl
  unfold uvmcopy uvmcopyLoop
  rw [if_pos hsz, Runs.bind_iff, runs_find hva, hzero]
  cases hslot : slot s.mem r 0 with
  | none =>
    intro hm
    rw [IsMapped, slot_none hslot, Nat.zero_testBit] at hm
    cases hm
  | some pte =>
    dsimp only
    rw [Runs.bind_iff, Runs.get_iff, get64_slot hslot]
    split
    · rename_i hv
      intro hm
      rw [IsMapped, hv] at hm
      cases hm
    · rename_i hv
      have hm : IsMapped s.mem r 0 := by
        unfold IsMapped
        simpa using hv
      have hleaf : PTE_FLAGS (pteAt s.mem r 0) &&& (PTE_R ||| PTE_W ||| PTE_X) ≠ 0 := by
        rw [← flags_and]
        exact (hs.space r hr).walkable.leaf 0 (by decide) hm
      have hflags : PTE_FLAGS (pteAt s.mem r 0) < 1024 := by
        rw [PTE_FLAGS_eq]
        omega
      have hcopy : ∀ (page : Nat) (mem : Bytes), page % PGSIZE = 0 → SameOn PGSIZE (· ≠ page) mem
          (mem.store page (mem.load (PTE2PA (pteAt s.mem r 0)) PGSIZE)) :=
        fun page mem hpage => sameOn_copy _ mem hpage
      refine hs.newPage_runs (v := 0) hr (by decide) hflags hleaf (Nat.le_refl _) hcopy
        (fun _ => ?_) (fun page s₁ l₁ h₁ => ?_) fun page s₁ l₁ h₁ => absurd hm h₁.unmapped
      · rw [Runs.bind_iff, runs_uvmunmap_zero, Runs.pure_iff]
        exact ⟨rfl, l, Within.refl hs, fun q hq => rfl⟩
      · apply (h₁.kfree_runs hr).bind
        rintro _ s₂ ⟨h₂, hsame₂, _⟩
        rw [Runs.bind_iff, runs_uvmunmap_zero, Runs.pure_iff]
        exact ⟨rfl, _, h₂, hsame₂⟩

end ThuKernel
