-- What `sys_mmap` and `sys_munmap` do to the address space of their caller.
import ThuKernel.Kernel.Image
import ThuKernel.Kernel.MemCalls
import ThuKernel.Kernel.Rules

namespace ThuKernel

variable {lk : Link} {E : Stop → Prop} {s s₁ s₂ : Mm} {r perm q a n : Nat}
  {l l₁ l₂ hand hand₁ : List Nat}

/-! ## mmap -/

/-- What mapping pages does to the entries: a mapped page keeps its entry, and a
new one leads to a page of the allocator, or to 0 when there was none. -/
structure MmapPtes (lk : Link) (r perm : Nat) (s : Mm) (l : List Nat) (s' : Mm) (l' : List Nat) :
    Prop where
  old : ∀ q < 512 ^ 3, IsMapped s.mem r q → pteAt s'.mem r q = pteAt s.mem r q
  new : ∀ q < 512 ^ 3, pteAt s'.mem r q = pteAt s.mem r q ∨
    ∃ pa, pteAt s'.mem r q = leafPte pa perm ∧ (IsFrame lk pa ∨ (pa = 0 ∧ l' = []))
  fewer : l'.length ≤ l.length

theorem MmapPtes.refl : MmapPtes lk r perm s l s l :=
  ⟨fun _ _ _ => rfl, fun _ _ => Or.inl rfl, Nat.le_refl _⟩

theorem MmapPtes.trans (h : MmapPtes lk r perm s l s₁ l₁) (h' : MmapPtes lk r perm s₁ l₁ s₂ l₂) :
    MmapPtes lk r perm s l s₂ l₂ := by
  refine ⟨fun q hq hm => ?_, fun q hq => ?_, h'.fewer.trans h.fewer⟩
  · have hm₁ : IsMapped s₁.mem r q := by
      unfold IsMapped
      rw [h.old q hq hm]
      exact hm
    rw [h'.old q hq hm₁, h.old q hq hm]
  · rcases h'.new q hq with h1 | h1
    · rw [h1]
      rcases h.new q hq with h2 | ⟨pa, h2, h3⟩
      · exact Or.inl h2
      · refine Or.inr ⟨pa, h2, h3.imp id fun h4 => ⟨h4.1, ?_⟩⟩
        have := h'.fewer
        rw [h4.2, List.length_nil, Nat.le_zero, List.length_eq_zero_iff] at this
        exact this
    · exact Or.inr h1

/-- The permissions that `sys_mmap` takes. -/
theorem mmapPerm {port : Nat} (h1 : 1 ≤ port) (h7 : port ≤ 7) :
    (port <<< 1 ||| PTE_U ||| PTE_V) < 1024 ∧
      (port <<< 1 ||| PTE_U ||| PTE_V) &&& (PTE_R ||| PTE_W ||| PTE_X) ≠ 0 := by
  have h : ∀ p < 8, 1 ≤ p → (p <<< 1 ||| PTE_U ||| PTE_V) < 1024 ∧
      (p <<< 1 ||| PTE_U ||| PTE_V) &&& (PTE_R ||| PTE_W ||| PTE_X) ≠ 0 := by decide
  exact h port (by omega) h1

theorem PGROUNDUP_mul (len : Nat) : PGROUNDUP len / PGSIZE * PGSIZE = PGROUNDUP len := by
  unfold PGROUNDUP
  rw [Nat.mul_div_cancel _ (by decide)]

/-- A mapping stops at the end of the address space. -/
theorem mappages_stops {va pa : Nat} {Q : Int → Mm → Prop} (hva : va % PGSIZE = 0) (h : MAXVA ≤ va)
    (hE : E (.panic "walk")) : Runs E (mappages r va PGSIZE pa perm) s Q := by
  have hstart : PGROUNDDOWN va = va := by
    unfold PGROUNDDOWN
    simp only [PGSIZE_eq] at *
    omega
  unfold mappages mappagesLoop walk
  rw [hstart, Runs.bind_iff, if_pos h, Runs.panic_iff]
  exact hE

/-- What mapping one page does to the entries. -/
theorem MapsPage.mmapPtes {pa : Nat} {ret : Int} (h : MapsPage r q (leafPte pa perm) s s₁ l l₁ ret)
    (hq : q < 512 ^ 3) (hpa : IsFrame lk pa ∨ (pa = 0 ∧ l₁ = [])) : MmapPtes lk r perm
    s l s₁ l₁ := by
  have hfewer : l₁.length ≤ l.length := by
    obtain ⟨new, hl, _⟩ := h.grows.taken
    rw [hl, List.length_append]
    omega
  by_cases hret : ret = 0
  · obtain ⟨hun, hpte⟩ := h.ok hret
    refine ⟨fun p hp hm => ?_, fun p hp => ?_, hfewer⟩
    · rw [hpte p hp, if_neg]
      rintro rfl
      exact hun hm
    · rw [hpte p hp]
      split
      · exact Or.inr ⟨pa, rfl, hpa⟩
      · exact Or.inl rfl
  · obtain ⟨_, hsame, _⟩ := h.failed hret
    exact ⟨fun p hp _ => hsame p hp, fun p hp => Or.inl (hsame p hp), hfewer⟩

/-- The pages in hand take no more part. -/
theorem AddrSpace.drop (h : AddrSpace lk s r l hand) : AddrSpace lk s r l [] :=
  ⟨h.space, h.walkable, h.tables, h.unmixed, h.unfree, h.unshared, fun b hb => (by cases hb),
    List.nodup_nil⟩

/-- One turn of the loop of `sys_mmap`. A page that is not mapped stays in
hand for ever. -/
theorem AddrSpace.mmapTurn_runs (h : AddrSpace lk s r l hand) {va : Nat} (hva : va % PGSIZE = 0)
    (hperm : perm < 1024) (hleaf : perm &&& (PTE_R ||| PTE_W ||| PTE_X) ≠ 0)
    (hE : E (.panic "walk")) {α : Type} {g : Int → Prog Mm α} {Q : α → Mm → Prop}
    (hg : ∀ ret s' l' hand', AddrSpace lk s' r l' hand' → Moved lk r s l hand s' l' hand' →
      MmapPtes lk r perm s l s' l' → Runs E (g ret) s' Q) :
    Runs E (do
      let physical_addr ← kalloc
      let mmap ← mappages r va PGSIZE physical_addr perm
      g mmap) s Q := by
  apply (h.kalloc_runs).bind
  intro pa s₁ hk
  by_cases hend : MAXVA ≤ va
  · exact Runs.bind_iff.mpr (mappages_stops hva hend hE)
  have hq : va = va / PGSIZE * PGSIZE := by
    simp only [PGSIZE_eq] at *
    omega
  have hlt := vpn_lt (Nat.lt_of_not_le hend)
  rcases hk with ⟨hl, rfl, rfl⟩ | ⟨hpa, l₁, hl, h₁, hmoved₁, hsame₁⟩
  · -- Without a free page, the page at address 0 is mapped.
    have hzero : ¬ IsFrame lk 0 := fun hc => hc.ne_zero rfl
    have hhand : hand = (if IsFrame lk 0 then [0] else []) ++ hand := by
      rw [if_neg hzero]
      rfl
    apply (h.mappages_runs hq (Nat.lt_of_not_le hend) ⟨rfl, by decide⟩ hperm hleaf hhand).bind
    rintro ret s₂ ⟨l₂, h₂, hmoved₂, hmaps₂⟩
    rw [ite_self] at h₂ hmoved₂
    obtain ⟨new, hnew, _⟩ := hmaps₂.grows.taken
    have hl₂ : l₂ = [] := by
      rw [hl] at hnew
      exact (List.append_eq_nil_iff.mp hnew.symm).2
    exact hg ret s₂ l₂ hand h₂ hmoved₂ (hmaps₂.mmapPtes hlt (Or.inr ⟨rfl, hl₂⟩))
  · have hframe := (h₁.handOk pa (List.mem_cons_self ..)).1
    have hhand : pa :: hand = (if IsFrame lk pa then [pa] else []) ++ hand := by
      rw [if_pos hframe]
      rfl
    apply (h₁.mappages_runs hq (Nat.lt_of_not_le hend) hframe.isPage hperm hleaf hhand).bind
    rintro ret s₂ ⟨l₂, h₂, hmoved₂, hmaps₂⟩
    have hptes₁ : MmapPtes lk r perm s l s₁ l₁ := by
      refine ⟨fun q hq _ => hsame₁ q hq, fun q hq => Or.inl (hsame₁ q hq), ?_⟩
      rw [hl]
      exact Nat.le_succ _
    exact hg ret s₂ l₂ _ h₂ (hmoved₁.trans hmoved₂)
      (hptes₁.trans (hmaps₂.mmapPtes hlt (Or.inl hframe)))

/-- The loop of `sys_mmap`. -/
theorem AddrSpace.mmapLoop_runs (hperm : perm < 1024)
    (hleaf : perm &&& (PTE_R ||| PTE_W ||| PTE_X) ≠ 0) (hE : ∀ e, E e) {start i : Nat} {m : Int}
    (hstart : start % PGSIZE = 0) (h : AddrSpace lk s r l hand) :
    Runs E (mmapLoop r start perm n i m) s (fun _ s' => ∃ l' hand', AddrSpace lk s' r l' hand' ∧
      Moved lk r s l hand s' l' hand' ∧ MmapPtes lk r perm s l s' l') := by
  induction n generalizing s l hand i m with
  | zero => exact ⟨l, hand, h, Moved.refl, MmapPtes.refl⟩
  | succ n ih =>
    unfold mmapLoop
    split
    · exact hE _
    · have hva : (start + i * PGSIZE) % 2 ^ 64 % PGSIZE = 0 := by
        simp only [PGSIZE_eq] at *
        omega
      apply h.mmapTurn_runs hva hperm hleaf (hE _)
      intro ret s₁ l₁ hand₁ h₁ hmoved₁ hptes₁
      apply (ih h₁).imp
      rintro _ s₂ ⟨l₂, hand₂, h₂, hmoved₂, hptes₂⟩
      exact ⟨l₂, hand₂, h₂, hmoved₁.trans hmoved₂, hptes₁.trans hptes₂⟩

/-! ## munmap -/

/-- The first loop of `sys_munmap` changes nothing, and says that every page
up to `stop` is mapped. -/
theorem munmapLoop_runs (hE : ∀ e, E e) {stop fuel : Nat} (ha : a % PGSIZE = 0)
    (hstop : stop % PGSIZE = 0) :
    Runs E (munmapLoop r stop fuel a) s (fun ok s' => s' = s ∧
      (ok = true → a < stop → stop ≤ MAXVA ∧
      ∀ q, a / PGSIZE ≤ q → q < stop / PGSIZE → IsMapped s.mem r q)) := by
  induction fuel generalizing a with
  | zero => exact hE _
  | succ fuel ih =>
    unfold munmapLoop
    split
    · rename_i hlt
      by_cases hend : MAXVA ≤ a
      · unfold walk
        rw [if_pos hend, Runs.bind_iff, Runs.panic_iff]
        exact hE _
      have hend := Nat.lt_of_not_le hend
      rw [Runs.bind_iff, runs_find hend]
      cases hslot : slot s.mem r (a / PGSIZE) with
      | none => exact hE _
      | some pte =>
        dsimp only
        rw [Runs.bind_iff, Runs.get_iff, get64_slot hslot]
        split
        · rw [Runs.pure_iff]
          exact ⟨rfl, fun hc => by cases hc⟩
        · rename_i hbit
          have hmapped : IsMapped s.mem r (a / PGSIZE) := Bool.eq_true_of_not_eq_false hbit
          have hnext : (a + PGSIZE) % PGSIZE = 0 := by
            rw [Nat.add_mod_right]
            exact ha
          have hmax := MAXVA_eq
          apply (ih hnext).imp
          rintro ok s' ⟨rfl, hok⟩
          refine ⟨rfl, fun htrue _ => ?_⟩
          simp only [PGSIZE_eq] at *
          by_cases hlast : a + 4096 < stop
          · obtain ⟨h1, h2⟩ := hok htrue hlast
            refine ⟨h1, fun q hq1 hq2 => ?_⟩
            by_cases hq : q = a / 4096
            · rw [hq]
              exact hmapped
            · exact h2 q (by omega) hq2
          · refine ⟨by omega, fun q hq1 hq2 => ?_⟩
            have hq : q = a / 4096 := by omega
            rw [hq]
            exact hmapped
    · rename_i hge
      rw [Runs.pure_iff]
      exact ⟨rfl, fun _ hlt => absurd hlt hge⟩

/-- What unmapping pages does to the entries: an entry stays, or it led to a
page of the allocator and is cleared. -/
structure MunmapPtes (lk : Link) (r : Nat) (s : Mm) (l : List Nat) (s' : Mm) (l' : List Nat) :
    Prop where
  ptes : ∀ q < 512 ^ 3, pteAt s'.mem r q = pteAt s.mem r q ∨
    (pteAt s'.mem r q = 0 ∧ CanUnmap lk s.mem r true q)
  more : ∀ a ∈ l, a ∈ l'

/-- A range that wraps around the end of the address space has no page. -/
theorem uvmunmap_none {va : Nat} (hva : va % PGSIZE = 0) (h : (va + n * PGSIZE) % 2 ^ 64 ≤ va) :
    Runs E (uvmunmap lk r va n true) s (fun _ s' => s' = s) := by
  unfold uvmunmap uvmunmapLoop
  rw [if_neg (by omega), if_neg (by omega), Runs.pure_iff]

/-- The pages of `sys_munmap`, when its first loop found them mapped, go to the
free list. -/
theorem AddrSpace.munmap_runs (h : AddrSpace lk s r l hand) {start : Nat}
    (hstart : start % PGSIZE = 0) (hmapped : start < (start + n * PGSIZE) % 2 ^ 64 →
    (start + n * PGSIZE) % 2 ^ 64 ≤ MAXVA)
    (hn : n * PGSIZE < 2 ^ 64) (hE : ∀ e, E e) :
    Runs E (uvmunmap lk r start n true) s (fun _ s' => ∃ l', AddrSpace lk s' r l' hand ∧
      Moved lk r s l hand s' l' hand ∧ MunmapPtes lk r s l s' l') := by
  by_cases hlt : start < (start + n * PGSIZE) % 2 ^ 64
  · have hmax := MAXVA_eq
    have hbound := hmapped hlt
    have hend : start + n * PGSIZE ≤ MAXVA := by
      simp only [PGSIZE_eq] at *
      omega
    apply (h.uvmunmap_runs hstart hend).mono fun e _ => hE e
    rintro _ s₁ ⟨l₁, h₁, hmoved₁, hun₁⟩
    refine ⟨l₁, h₁, hmoved₁, fun q hq => ?_, fun a ha => ?_⟩
    · rw [hun₁.pte q hq]
      split
      · rename_i hin
        exact Or.inr ⟨rfl, hun₁.good q hin.1 hin.2⟩
      · exact Or.inl rfl
    · rw [hun₁.list]
      exact List.mem_append.mpr (Or.inr ha)
  · apply (uvmunmap_none hstart (Nat.le_of_not_lt hlt)).imp
    rintro _ s₁ rfl
    exact ⟨l, h, Moved.refl, fun _ _ => Or.inl rfl, fun _ ha => ha⟩

/-! ## The calls -/

variable {k : Kernel}

/-- `sys_mmap`, when any stop is allowed. -/
theorem sys_mmap_runs {start len port : Nat} (hr : (k.pool k.current_proc).pagetable = r)
    (h : AddrSpace lk k.mm r l hand) (hE : ∀ e, E e) :
    Runs E (sys_mmap start len port) k (fun _ k' => k' = { k with mm := k'.mm } ∧ ∃ l' hand',
      AddrSpace lk k'.mm r l' hand' ∧ Moved lk r k.mm l hand k'.mm l' hand' ∧
      MmapPtes lk r (port <<< 1 ||| PTE_U ||| PTE_V) k.mm l k'.mm l') := by
  have hsame : k = { k with mm := k.mm } ∧ ∃ l' hand', AddrSpace lk k.mm r l' hand' ∧
      Moved lk r k.mm l hand k.mm l' hand' ∧
      MmapPtes lk r (port <<< 1 ||| PTE_U ||| PTE_V) k.mm l k.mm l' :=
    ⟨rfl, l, hand, h, Moved.refl, MmapPtes.refl⟩
  unfold sys_mmap
  split
  · exact hsame
  · rename_i hport
    rw [Runs.bind_iff, runs_curr_proc, hr]
    dsimp only
    split
    · exact hsame
    · rename_i hstart
      obtain ⟨hperm, hleaf⟩ := @mmapPerm port (by omega) (by omega)
      rw [Runs.bind_iff, runs_onMm]
      apply (h.mmapLoop_runs hperm hleaf hE (Classical.not_not.mp hstart)).imp
      rintro m s₁ ⟨l₁, hand₁, h₁, hmoved₁, hptes₁⟩
      split
      · exact ⟨rfl, l₁, hand₁, h₁, hmoved₁, hptes₁⟩
      · exact ⟨rfl, l₁, hand₁, h₁, hmoved₁, hptes₁⟩

/-- `sys_munmap`, when any stop is allowed. -/
theorem sys_munmap_runs {start len : Nat} (hr : (k.pool k.current_proc).pagetable = r)
    (h : AddrSpace lk k.mm r l hand) (hE : ∀ e, E e) :
    Runs E (sys_munmap lk start len) k (fun _ k' => k' = { k with mm := k'.mm } ∧ ∃ l',
      AddrSpace lk k'.mm r l' hand ∧ Moved lk r k.mm l hand k'.mm l' hand ∧
      MunmapPtes lk r k.mm l k'.mm l') := by
  have hsame : k = { k with mm := k.mm } ∧ ∃ l', AddrSpace lk k.mm r l' hand ∧
      Moved lk r k.mm l hand k.mm l' hand ∧ MunmapPtes lk r k.mm l k.mm l' :=
    ⟨rfl, l, h, Moved.refl, fun _ _ => Or.inl rfl, fun _ ha => ha⟩
  unfold sys_munmap
  split
  · exact hsame
  · rename_i hstart
    have hstart : start % PGSIZE = 0 := Classical.not_not.mp hstart
    rw [Runs.bind_iff, runs_curr_proc, hr]
    dsimp only
    have hstop : (start + PGROUNDUP len / PGSIZE * PGSIZE) % 2 ^ 64 % PGSIZE = 0 := by
      simp only [PGSIZE_eq] at *
      omega
    have hn : PGROUNDUP len / PGSIZE * PGSIZE < 2 ^ 64 := by
      rw [PGROUNDUP_mul]
      unfold PGROUNDUP
      simp only [PGSIZE_eq]
      omega
    rw [Runs.bind_iff, runs_onMm]
    apply (munmapLoop_runs hE hstart hstop).imp
    rintro ok s₁ ⟨rfl, hok⟩
    split
    · exact hsame
    · rename_i htrue
      have htrue : ok = true := Bool.eq_true_of_not_eq_false htrue
      rw [Runs.bind_iff, runs_onMm]
      apply (h.munmap_runs hstart (fun hlt => (hok htrue hlt).1) hn hE).imp
      rintro _ s₂ ⟨l₂, h₂, hmoved₂, hptes₂⟩
      exact ⟨rfl, l₂, h₂, hmoved₂, hptes₂⟩

end ThuKernel
