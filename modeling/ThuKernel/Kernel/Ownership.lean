-- The pages of the kernel: which are free, which belong to the address space
-- of a process, and which hold saved registers or a pipe. The functions of
-- proc.c on address spaces keep these uses apart.
import ThuKernel.Kernel.FileRefRuns
import ThuKernel.Kernel.Fork
import ThuKernel.Kernel.Lifecycle
import ThuKernel.Vm.CopyOut

namespace ThuKernel

variable {lk : Link} {E : Stop → Prop} {k k' : Kernel} {s s₁ : Mm} {r a i np : Nat}
variable {R X P P' : Nat → Prop} {l l₁ : List Nat} {p p' : proc}

/-! ## Copies to the user -/

/-- The pages that a user may access are pages of the allocator. -/
def UserFrames (lk : Link) (mem : Bytes) (r : Nat) : Prop :=
  ∀ q < 512 ^ 3, IsUser mem r q → IsFrame lk (frameAt mem r q)

theorem UserFrames.congr (h : UserFrames lk s.mem r) (hsame : SamePtes r s s₁) :
    UserFrames lk s₁.mem r := by
  intro q hq hu
  have hpte := hsame q hq
  unfold IsUser IsMapped at hu
  rw [hpte] at hu
  unfold frameAt
  rw [hpte]
  exact h q hq hu

/-- The page behind a user address is mapped in the address space. -/
theorem UserFrames.mapsTo {va : Nat} (h : UserFrames lk s.mem r) (hva : userPage s.mem r va ≠ 0) :
    MapsTo lk s.mem r (va / PGSIZE) (userPage s.mem r va) := by
  rw [userPage_eq] at hva ⊢
  split at hva
  · exact absurd rfl hva
  · rename_i hmax
    split at hva
    · rename_i hu
      rw [if_neg hmax, if_pos hu]
      have hlimit : va / PGSIZE < 512 ^ 3 := by
        rw [MAXVA_eq] at hmax
        rw [PGSIZE_eq]
        omega
      exact ⟨hlimit, hu.1, rfl, h _ hlimit hu⟩
    · exact absurd rfl hva

/-- Copies to the user leave the tables alone. -/
theorem AddrSpace.separate {hand : List Nat} (h : AddrSpace lk s r l hand)
    (hu : UserFrames lk s.mem r) :
    Separate s.mem r := by
  refine ⟨h.space.table.page, fun va hva => h.unmixed _ _ (hu.mapsTo hva), fun va va' hva heq => ?_⟩
  have hva' : userPage s.mem r va' ≠ 0 := by
    rw [← heq]
    exact hva
  exact h.unshared _ _ _ (heq ▸ hu.mapsTo hva) (hu.mapsTo hva')

/-- The user pages of an application that was loaded. -/
theorem Loaded.userFrames {tf n : Nat} (h : Loaded lk s.mem r tf n) (htf : IsFrame lk tf) :
    UserFrames lk s.mem r := by
  intro q hq hu
  have h1 : q ≠ trampolinePage := by
    rintro rfl
    exact not_user_trampoline h.trampoline hu
  have h2 : q ≠ trapframePage := by
    rintro rfl
    exact not_user_trapframe htf h.trapframe hu
  exact (h.pages q (loaded_users h hq h1 h2 hu.1).2).decode.2.1

/-- The first pages of an application that was loaded are the user's. -/
theorem Loaded.mapped {tf n va : Nat} (h : Loaded lk s.mem r tf n) (hn : n * PGSIZE ≤ MAXVA)
    (hva : va < n * PGSIZE) : Mapped s.mem r va := by
  have hmax := MAXVA_eq
  have hq : va / PGSIZE < n := Nat.div_lt_of_lt_mul (by rwa [Nat.mul_comm])
  obtain ⟨hbit, hframe, _⟩ := (h.pages _ hq).decode
  unfold Mapped
  rw [Nat.mod_eq_of_lt (by omega), userPage_PGROUNDDOWN, userPage_eq, if_neg (by omega),
    if_pos ⟨hbit, isUserPte_user (h.pages _ hq)⟩]
  exact hframe.ne_zero

/-- A page that one address space maps is no table and not free. -/
theorem Spaces.mapped_apart (hs : Spaces lk s R l X) (hr : R r) {q : Nat}
    (h : MapsTo lk s.mem r q a) :
    (∀ p, R p → ¬ TableOf s.mem p a) ∧ a ∉ l := by
  refine ⟨fun p hp hc => ?_, (hs.space r hr).unfree _ _ h⟩
  have heq := hs.apart p r a hp hr (Or.inl hc) (Or.inr ⟨_, h⟩)
  subst heq
  exact (hs.space p hp).unmixed _ _ h hc

/-- A copy to the user writes to the pages of the user only. -/
theorem Spaces.copyout_runs (hs : Spaces lk s R l X) (hr : R r) (hu : UserFrames lk s.mem r)
    (va : Nat) (src : List Byte) : Runs E (copyout r va src) s (fun _ s' => Spaces lk s' R l X ∧
    AllSame R s s') := by
  have hloop : ∀ fuel va src (s : Mm), src.length < fuel → Spaces lk s R l X →
      UserFrames lk s.mem r →
      Runs E (copyoutLoop r fuel va src) s (fun _ s' => Spaces lk s' R l X ∧ AllSame R s s') := by
    intro fuel
    induction fuel with
    | zero =>
      intro va src s hlen
      omega
    | succ fuel ih =>
      intro va src s hlen hs hu
      unfold copyoutLoop
      split
      · exact ⟨hs, fun p _ => ⟨SameTables.refl, fun _ _ => rfl⟩⟩
      · rename_i hne
        rw [Runs.bind_iff, runs_walkaddr]
        split
        · exact ⟨hs, fun p _ => ⟨SameTables.refl, fun _ _ => rfl⟩⟩
        · rename_i hpa
          obtain ⟨htable, hl⟩ := hs.mapped_apart hr (hu.mapsTo hpa)
          have h1 := PGROUNDDOWN_le va
          have h2 := lt_PGROUNDDOWN_add va
          have hshort : (src.take (min (PGSIZE - (va - PGROUNDDOWN va)) src.length)).length ≤
              PGSIZE - (va - PGROUNDDOWN va) := by
            rw [List.length_take]
            omega
          dsimp only
          rw [Runs.bind_iff, Runs.modify_iff]
          obtain ⟨hs₁, hall₁⟩ := hs.write (SameOn.store (o := va - PGROUNDDOWN va)
            (l := src.take (min (PGSIZE - (va - PGROUNDDOWN va)) src.length))
            (isPage_userPage s.mem r (PGROUNDDOWN va)).aligned (by omega)) htable hl
          have hdrop : (src.drop (min (PGSIZE - (va - PGROUNDDOWN va)) src.length)).length =
              src.length - min (PGSIZE - (va - PGROUNDDOWN va)) src.length := List.length_drop
          apply (ih _ _ _ (by omega) hs₁ (hu.congr (hall₁ r hr).2)).imp
          rintro _ s' ⟨hs', hall'⟩
          exact ⟨hs', hall₁.trans hall'⟩
  exact hloop _ _ _ s (Nat.lt_succ_self _) hs hu

/-! ## The uses of the pages -/

/-- The tables of the processes. -/
def Root (k : Kernel) (r : Nat) : Prop := ∃ i < NPROC, (k.pool i).pagetable = r ∧ r ≠ 0

/-- The pages of the pipes, and those of the saved registers of the slots that
have no address space. -/
def Reserved (k : Kernel) (P : Nat → Prop) (a : Nat) : Prop :=
  P a ∨ ∃ i < NPROC, (k.pool i).pagetable = 0 ∧ (k.pool i).trapframe = a

/-- The address space of a process: the two pages of the kernel, and pages of
the allocator for the user. -/
structure ProcImage (lk : Link) (mem : Bytes) (p : proc) : Prop where
  size : p.sz ≤ TRAPFRAME
  trampoline : pteAt mem p.pagetable trampolinePage = leafPte lk.trampoline (PTE_R ||| PTE_X)
  trapframe : pteAt mem p.pagetable trapframePage = leafPte p.trapframe (PTE_R ||| PTE_W)
  users : ∀ q < 512 ^ 3, q ≠ trampolinePage → q ≠ trapframePage → IsMapped mem p.pagetable q →
    (pteAt mem p.pagetable q).testBit 4 = true ∧ IsFrame lk (frameAt mem p.pagetable q)

/-- Each page has one use: it is free, or of one process, or reserved. The pages
`P` are those of the pipes. -/
structure PagesOk (lk : Link) (k : Kernel) (P : Nat → Prop) (l : List Nat) : Prop where
  spaces : Spaces lk k.mm (Root k) l (Reserved k P)
  rooted : ∀ i < NPROC, (k.pool i).pagetable = 0 ↔ Dead (k.pool i)
  own : ∀ i < NPROC, ∀ j < NPROC, (k.pool i).pagetable ≠ 0 →
    (k.pool i).pagetable = (k.pool j).pagetable → i = j
  frames : ∀ i < NPROC, IsFrame lk (k.pool i).trapframe
  regs : ∀ i < NPROC, ∀ j < NPROC, (k.pool i).trapframe = (k.pool j).trapframe → i = j
  pipes : ∀ i < NPROC, ¬ P (k.pool i).trapframe
  image : ∀ i < NPROC, (k.pool i).pagetable ≠ 0 → ProcImage lk k.mm.mem (k.pool i)

namespace ProcImage

theorem congr (h : ProcImage lk s.mem p) (hsame : SamePtes p.pagetable s s₁) :
    ProcImage lk s₁.mem p := by
  refine ⟨h.size, ?_, ?_, fun q hq h1 h2 hm => ?_⟩
  · rw [hsame _ (by decide)]
    exact h.trampoline
  · rw [hsame _ (by decide)]
    exact h.trapframe
  · unfold IsMapped at hm
    unfold frameAt
    rw [hsame q hq] at hm ⊢
    exact h.users q hq h1 h2 hm

/-- The fields that count. -/
theorem proc_congr (h : ProcImage lk s.mem p) (hsz : p'.sz = p.sz)
    (hroot : p'.pagetable = p.pagetable)
    (htf : p'.trapframe = p.trapframe) : ProcImage lk s.mem p' := by
  refine ⟨hsz ▸ h.size, ?_, ?_, ?_⟩
  · rw [hroot]
    exact h.trampoline
  · rw [hroot, htf]
    exact h.trapframe
  · rw [hroot]
    exact h.users

/-- The pages of the kernel are not the user's. -/
theorem kernel_pte_user {pa perm : Nat} (hpa : pa % PGSIZE = 0) (hperm : perm < 1024)
    (hbit : (perm ||| PTE_V).testBit 4 = false) : (leafPte pa perm).testBit 4 = false := by
  rw [← testBit_flags (by decide), (leafPte_decode hpa hperm).2]
  exact hbit

theorem userFrames (h : ProcImage lk s.mem p) (htf : IsFrame lk p.trapframe) :
    UserFrames lk s.mem p.pagetable := by
  intro q hq hu
  have hbit := hu.2
  by_cases h1 : q = trampolinePage
  · rw [h1, h.trampoline, kernel_pte_user lk.aligned (by decide) (by decide)] at hbit
    cases hbit
  · by_cases h2 : q = trapframePage
    · rw [h2, h.trapframe, kernel_pte_user htf.aligned (by decide) (by decide)] at hbit
      cases hbit
    · exact (h.users q hq h1 h2 hu.1).2

end ProcImage

namespace PagesOk

theorem root (h : PagesOk lk k P l) (hi : i < NPROC) (hlive : ¬ Dead (k.pool i)) :
    Root k (k.pool i).pagetable ∧ (k.pool i).pagetable ≠ 0 := by
  have hne : (k.pool i).pagetable ≠ 0 := fun hc => hlive ((h.rooted i hi).mp hc)
  exact ⟨⟨i, hi, rfl, hne⟩, hne⟩

theorem maps_tf (h : PagesOk lk k P l) (hi : i < NPROC) (hne : (k.pool i).pagetable ≠ 0) :
    MapsTo lk k.mm.mem (k.pool i).pagetable trapframePage (k.pool i).trapframe :=
  mapsTo_trapframe (h.frames i hi) (h.image i hi hne).trapframe

/-- Other fields of the processes, and other parts of the kernel. -/
theorem same (h : PagesOk lk k P l) (hmm : k'.mm = k.mm) (hP : ∀ a, P' a → P a)
    (hroot : ∀ i, (k'.pool i).pagetable = (k.pool i).pagetable)
    (hsz : ∀ i, (k'.pool i).sz = (k.pool i).sz)
    (htf : ∀ i, (k'.pool i).trapframe = (k.pool i).trapframe)
    (hdead : ∀ i, Dead (k'.pool i) ↔ Dead (k.pool i)) :
    PagesOk lk k' P' l := by
  refine ⟨?_, fun i hi => ?_, fun i hi j hj => ?_, fun i hi => ?_, fun i hi j hj => ?_,
    fun i hi => ?_, fun i hi => ?_⟩
  · rw [hmm]
    apply h.spaces.congr
    · rintro r ⟨i, hi, hr⟩
      rw [hroot] at hr
      exact ⟨i, hi, hr⟩
    · rintro a (ha | ⟨i, hi, ha⟩)
      · exact Or.inl (hP a ha)
      · rw [hroot, htf] at ha
        exact Or.inr ⟨i, hi, ha⟩
  · rw [hroot, hdead]
    exact h.rooted i hi
  · rw [hroot, hroot]
    exact h.own i hi j hj
  · rw [htf]
    exact h.frames i hi
  · rw [htf, htf]
    exact h.regs i hi j hj
  · rw [htf]
    exact fun hc => h.pipes i hi (hP _ hc)
  · rw [hroot, hmm]
    exact fun hne => (h.image i hi hne).proc_congr (hsz i) (hroot i) (htf i)

/-- Another memory with the same address spaces. -/
theorem setMm {m : Mm} (h : PagesOk lk k P l) (hs : Spaces lk m (Root k) l₁ (Reserved k P'))
    (hall : AllSame (Root k) k.mm m) (hP : ∀ i < NPROC, ¬ P' (k.pool i).trapframe) :
    PagesOk lk { k with mm := m } P' l₁ :=
  ⟨hs, h.rooted, h.own, h.frames, h.regs, hP,
    fun i hi hne => (h.image i hi hne).congr (hall _ ⟨i, hi, rfl, hne⟩).2⟩

/-- A copy to a live process. -/
theorem copyout_runs (h : PagesOk lk k P l) (hi : i < NPROC) (hlive : ¬ Dead (k.pool i)) (va : Nat)
    (src : List Byte) : Runs E (onMm (copyout (k.pool i).pagetable va src)) k (fun _ k' =>
      PagesOk lk k' P l ∧ k' = { k with mm := k'.mm }) := by
  obtain ⟨hr, hne⟩ := h.root hi hlive
  rw [runs_onMm]
  apply (h.spaces.copyout_runs hr ((h.image i hi hne).userFrames (h.frames i hi)) va src).imp
  rintro _ m ⟨hs, hall⟩
  exact ⟨h.setMm hs hall h.pipes, rfl⟩

/-- A page from the free list is reserved, when there is one. -/
theorem kalloc_runs (h : PagesOk lk k P l) : Runs E (onMm kalloc) k (fun r k' =>
    (l = [] ∧ r = 0 ∧ k' = k) ∨ (r ≠ 0 ∧ ∃ l', l = r :: l' ∧
      PagesOk lk k' (fun a => P a ∨ a = r) l' ∧
      ¬ P r ∧ AllSame (Root k) k.mm k'.mm ∧ k' = { k with mm := k'.mm })) := by
  rw [runs_onMm]
  apply (h.spaces.kalloc_runs).imp
  rintro r m (⟨hl, hr, rfl⟩ | ⟨hr, l', hl, hs, hall, _, hl', hX, hown⟩)
  · exact Or.inl ⟨hl, hr, rfl⟩
  · refine Or.inr ⟨hr, l', hl, ?_, fun hc => hX (Or.inl hc), hall, rfl⟩
    apply h.setMm (hs.congr (fun _ hp => hp) _) hall
    · rintro i hi (hc | hc)
      · exact h.pipes i hi hc
      · by_cases hne : (k.pool i).pagetable = 0
        · exact hX (Or.inr ⟨i, hi, hne, hc⟩)
        · exact hown _ ⟨i, hi, rfl, hne⟩ (Or.inr ⟨_, hc ▸ h.maps_tf hi hne⟩)
    · rintro a ((ha | ha) | ha)
      · exact Or.inl (Or.inl ha)
      · exact Or.inr ha
      · exact Or.inl (Or.inr ha)

/-- The page of a pipe goes back. -/
theorem kfree_runs (h : PagesOk lk k P l) (ha : P a) : Runs E (onMm (kfree lk a)) k (fun _ k' =>
    PagesOk lk k' (fun b => P b ∧ b ≠ a) (a :: l) ∧ k' = { k with mm := k'.mm }) := by
  rw [runs_onMm]
  have hX : Reserved k P a := Or.inl ha
  apply (h.spaces.kfree_runs hX).imp
  rintro _ m ⟨hs, hall, _⟩
  refine ⟨h.setMm (hs.congr (fun _ hp => hp) ?_) hall fun i hi hc => h.pipes i hi hc.1, rfl⟩
  rintro b (⟨hb, hne⟩ | ⟨i, hi, hr, rfl⟩)
  · exact ⟨Or.inl hb, hne⟩
  · refine ⟨Or.inr ⟨i, hi, hr, rfl⟩, ?_⟩
    rintro rfl
    exact h.pipes i hi ha

/-- The contents of a reserved page change. -/
theorem memset_runs (h : PagesOk lk k P l) (ha : P a) (v : Nat) :
    Runs E (onMm (memset a v PGSIZE)) k (fun _ k' =>
    PagesOk lk k' P l ∧ AllSame (Root k) k.mm k'.mm ∧ k' = { k with mm := k'.mm }) := by
  obtain ⟨hframe, hl, hno⟩ := h.spaces.kept a (Or.inl ha)
  rw [runs_onMm, memset, Runs.modify_iff]
  obtain ⟨hs, hall⟩ := h.spaces.write (SameOn.fill hframe.aligned (Nat.le_refl PGSIZE))
    (fun r hr hc => hno r hr (Or.inl hc)) hl
  exact ⟨h.setMm hs hall h.pipes, hall, rfl⟩

end PagesOk

/-! ## fork -/

/-- The processes that neither run nor start are as before. -/
def Others (k k' : Kernel) : Prop :=
  ∀ j, j ≠ k.current_proc → ¬ Dead (k.pool j) → k'.pool j = k.pool j

/-- The address space of a child, when its parent has one. -/
theorem Child.procImage {tf r m root : Nat} (h : Child lk R X tf r m root s l s₁ l₁)
    (hp : ProcImage lk s.mem p) (hr : p.pagetable = r) (hm : m = npages p'.sz)
    (hsz : p'.sz ≤ TRAPFRAME) (hroot : p'.pagetable = root) (htf : p'.trapframe = tf)
    (hold : ∀ q < m, IsMapped s.mem r q) : ProcImage lk s₁.mem p' := by
  subst hr hroot htf
  have hle : m ≤ trapframePage := hm ▸ npages_trapframe hsz
  refine ⟨hsz, ?_, ?_, fun q hq h1 h2 hmapped => ?_⟩
  · rw [h.rest _ (by decide) (hle.trans (by decide)), procPtes, if_pos rfl]
  · rw [h.rest _ (by decide) hle, procPtes, if_neg (by decide), if_pos rfl]
  · by_cases hlt : q < m
    · have hc := h.pages q hlt
      have hflags : PTE_FLAGS (pteAt s.mem p.pagetable q) < 1024 := by
        rw [PTE_FLAGS_eq]
        omega
      refine ⟨?_, hc.frame⟩
      rw [← testBit_flags (by decide), hc.pte, (leafPte_decode hc.frame.aligned hflags).2,
        Nat.testBit_or,
        testBit_flags (by decide), (hp.users q hq h1 h2 (hold q hlt)).1, Bool.true_or]
    · unfold IsMapped at hmapped
      rw [h.rest q hq (by omega), procPtes_user h1 h2, Nat.zero_testBit] at hmapped
      cases hmapped

namespace PagesOk

theorem forking (h : PagesOk lk k P l) (hcur : k.current_proc < NPROC)
    (hlive : ¬ Dead (k.pool k.current_proc))
    (hslot : freeSlot k.pool = some np) : Forking lk k (Root k) (Reserved k P) l np := by
  obtain ⟨hr, hne⟩ := h.root hcur hlive
  have himage := h.image _ hcur hne
  have hnp := freeSlot_lt hslot
  exact ⟨h.spaces, hr, hslot, Or.inr ⟨np, hnp, (h.rooted np hnp).mpr (Or.inl (freeSlot_some hslot)),
    rfl⟩,
    fun hc => hlive (Or.inl hc), himage.size, himage.trampoline, himage.trapframe, h.frames _ hcur,
    fun q hq h1 h2 hm => (himage.users q hq h1 h2 hm).1⟩

/-- A process of slot `np` gets the new address space `root`, with the page of
its saved registers. -/
theorem gain {root : Nat} (h : PagesOk lk k P l) (hnp : np < NPROC) (hne : root ≠ 0)
    (hs : Spaces lk k'.mm (fun r => Root k r ∨ r = root) l₁ (fun a => Reserved k P a ∧
    a ≠ (k.pool np).trapframe))
    (hfresh : ¬ Root k root) (hothers : AllSame (Root k) k.mm k'.mm) {q' : proc}
    (hpool : k'.pool = Function.update k.pool np q') (hroot : q'.pagetable = root)
    (htf : q'.trapframe = (k.pool np).trapframe) (hlive : ¬ Dead q')
    (himage : ProcImage lk k'.mm.mem q') :
    PagesOk lk k' P l₁ := by
  have hnew : k'.pool np = q' := by
    rw [hpool, Function.update_self]
  have hother : ∀ j ≠ np, k'.pool j = k.pool j := by
    intro j hj
    rw [hpool, Function.update_of_ne hj]
  have hold : ∀ j < NPROC, (k.pool j).pagetable ≠ root := by
    intro j hj heq
    by_cases h0 : (k.pool j).pagetable = 0
    · exact hne (heq.symm.trans h0)
    · exact hfresh ⟨j, hj, heq, hne⟩
  have htfs : ∀ j, (k'.pool j).trapframe = (k.pool j).trapframe := by
    intro j
    by_cases hj : j = np
    · rw [hj, hnew, htf]
    · rw [hother j hj]
  refine ⟨hs.congr ?_ ?_, fun i hi => ?_, fun i hi j hj h0 heq => ?_, fun i hi => ?_,
    fun i hi j hj => ?_, fun i hi => ?_, fun i hi h0 => ?_⟩
  · rintro r' ⟨j, hj, hr', h0⟩
    by_cases hjn : j = np
    · subst hjn
      rw [hnew, hroot] at hr'
      exact Or.inr hr'.symm
    · rw [hother j hjn] at hr'
      exact Or.inl ⟨j, hj, hr', h0⟩
  · rintro a (ha | ⟨j, hj, h0, rfl⟩)
    · refine ⟨Or.inl ha, ?_⟩
      rintro rfl
      exact h.pipes np hnp ha
    · by_cases hjn : j = np
      · subst hjn
        rw [hnew, hroot] at h0
        exact absurd h0 hne
      · rw [htfs]
        rw [hother j hjn] at h0
        exact ⟨Or.inr ⟨j, hj, h0, rfl⟩, fun heq => hjn (h.regs j hj np hnp heq)⟩
  · by_cases hin : i = np
    · subst hin
      rw [hnew, hroot]
      exact ⟨fun hc => absurd hc hne, fun hc => absurd hc hlive⟩
    · rw [hother i hin]
      exact h.rooted i hi
  · by_cases hin : i = np
    · by_cases hjn : j = np
      · rw [hin, hjn]
      · rw [hin, hnew, hroot, hother j hjn] at heq
        exact absurd heq.symm (hold j hj)
    · by_cases hjn : j = np
      · rw [hjn, hnew, hroot, hother i hin] at heq
        exact absurd heq (hold i hi)
      · rw [hother i hin] at h0 heq
        rw [hother j hjn] at heq
        exact h.own i hi j hj h0 heq
  · rw [htfs]
    exact h.frames i hi
  · rw [htfs, htfs]
    exact h.regs i hi j hj
  · rw [htfs]
    exact h.pipes i hi
  · by_cases hin : i = np
    · subst hin
      rwa [hnew]
    · rw [hother i hin] at h0 ⊢
      exact (h.image i hi h0).congr (hothers _ ⟨i, hi, rfl, h0⟩).2

/-- The new process takes a slot, the page of its saved registers, and pages
that were free. -/
theorem newChild {tf r m root : Nat} (h : PagesOk lk k P l) (hnp : np < NPROC)
    (hc : Child lk (Root k) (Reserved k P) tf r m root k.mm l k'.mm l₁)
    (htf : tf = (k.pool np).trapframe) {q' : proc} (hpool : k'.pool = Function.update k.pool np q')
    (hroot : q'.pagetable = root) (hq : q'.trapframe = tf) (hlive : ¬ Dead q')
    (himage : ProcImage lk k'.mm.mem q') : PagesOk lk k' P l₁ := by
  subst htf
  have hne : root ≠ 0 := (hc.space.tables root (tableOf_root _ _)).ne_zero
  exact h.gain hnp hne hc.spaces hc.fresh hc.others hpool hroot hq hlive himage

/-- `fork` with a free slot. -/
theorem fork_new (h : PagesOk lk k P l) (hcur : k.current_proc < NPROC)
    (hlive : ¬ Dead (k.pool k.current_proc))
    (hslot : freeSlot k.pool = some np) : Runs (fun _ => True) (fork lk) k (fun _ k' =>
      (∃ l', PagesOk lk k' P l') ∧ Others k k' ∧ k'.pipes = k.pipes ∧
        k'.current_proc = k.current_proc) := by
  have hforking := h.forking hcur hlive hslot
  have hnp := freeSlot_lt hslot
  have hdead : Dead (k.pool np) := Or.inl (freeSlot_some hslot)
  obtain ⟨hr, hne⟩ := h.root hcur hlive
  have himage := h.image _ hcur hne
  apply ((fork_runs hforking rfl rfl).and (@fork_created lk k)).mono (fun _ _ => trivial)
  rintro ret k₁ ⟨⟨_, _, root, l₁, m, hchild, hresult⟩, hcreated⟩
  have hnew : ¬ Dead (k₁.pool np) := by
    rcases hcreated with ⟨np', hc, _⟩ | ⟨hc, _⟩
    · have := hc.slot
      rw [hslot] at this
      cases this
      exact hc.live
    · have := hc.full
      rw [hslot] at this
      cases this
  have hfinish : ∀ sz, NewChild lk k k₁ np root sz → m = npages sz → sz ≤ TRAPFRAME →
      (∀ q < m, IsMapped k.mm.mem (k.pool k.current_proc).pagetable q) →
      (∃ l', PagesOk lk k₁ P l') ∧ Others k k₁ ∧ k₁.pipes = k.pipes ∧
      k₁.current_proc = k.current_proc := by
    intro sz hn hm hsz hmapped
    obtain ⟨q', hpool, hroot, hq, htf, _⟩ := hn.pool
    have hq' : k₁.pool np = q' := by
      rw [hpool, Function.update_self]
    rw [hq'] at hnew
    refine ⟨⟨l₁, h.newChild hnp hchild rfl hpool hroot htf hnew ?_⟩, ?_, hn.pipes, hn.current⟩
    · exact hchild.procImage himage rfl (by rw [hq, hm]) (by rwa [hq]) hroot htf hmapped
    · intro j _ hj
      rw [hpool, Function.update_of_ne]
      rintro rfl
      exact hj hdead
  rcases hresult with ⟨hm, hmapped, hn, _⟩ | ⟨hm, hn, _⟩
  · exact hfinish _ hn hm himage.size (hm ▸ hmapped)
  · exact hfinish 0 hn (by rw [hm, npages_zero]) (Nat.zero_le _) fun q hq => absurd hq (by omega)

/-- The saved registers of a process are written. -/
theorem writeRegs {mem : Bytes} (h : PagesOk lk k P l) (hi : i < NPROC)
    (hne : (k.pool i).pagetable ≠ 0)
    (hsame : SameOn PGSIZE (· ≠ (k.pool i).trapframe) k.mm.mem mem) :
    PagesOk lk { k with mm := { k.mm with mem := mem } } P l := by
  obtain ⟨htable, hl⟩ := h.spaces.mapped_apart ⟨i, hi, rfl, hne⟩ (h.maps_tf hi hne)
  obtain ⟨hs, hall⟩ := h.spaces.write hsame htable hl
  exact h.setMm hs hall h.pipes

/-- Other fields of a process. -/
theorem setProc {q : proc} (h : PagesOk lk k P l) (hroot : q.pagetable = (k.pool i).pagetable)
    (hsz : q.sz = (k.pool i).sz) (htf : q.trapframe = (k.pool i).trapframe)
    (hdead : Dead q ↔ Dead (k.pool i)) :
    PagesOk lk { k with pool := Function.update k.pool i q } P l := by
  have hpool : ∀ {α : Sort _} (f : proc → α), f q = f (k.pool i) →
      ∀ j, f (Function.update k.pool i q j) = f (k.pool j) := by
    intro α f hf j
    by_cases hj : j = i
    · rw [hj, Function.update_self, hf]
    · rw [Function.update_of_ne hj]
  exact h.same rfl (fun _ ha => ha) (hpool _ hroot) (hpool _ hsz) (hpool _ htf)
    fun j => iff_of_eq (hpool Dead (propext hdead) j)

/-- The files take part in nothing. -/
theorem setFiles (h : PagesOk lk k P l) (files : Nat → Option Nat) (filepool : Nat → file) :
    PagesOk lk { k with filepool := filepool, pool := Function.update k.pool i { k.pool i with
      files := files } } P l := by
  have h₁ := h.setProc (i := i) (q := { k.pool i with files := files }) rfl rfl rfl Iff.rfl
  exact h₁.same rfl (fun _ ha => ha) (fun _ => rfl) (fun _ => rfl) (fun _ => rfl) fun _ => Iff.rfl

/-- `fork` without a free slot copies the process onto itself. -/
theorem fork_self (h : PagesOk lk k P l) (hcur : k.current_proc < NPROC)
    (hlive : ¬ Dead (k.pool k.current_proc))
    (hfull : freeSlot k.pool = none) : Runs (fun _ => True) (fork lk) k (fun _ k' =>
      (∃ l', PagesOk lk k' P l') ∧ Others k k' ∧ k'.pipes = k.pipes ∧
        k'.current_proc = k.current_proc) := by
  obtain ⟨hr, hne⟩ := h.root hcur hlive
  rw [runs_fork, runs_allocproc_full hfull]
  rintro _ rfl _ rfl _ rfl _ rfl
  rw [Option.getD_none, runs_onMm]
  by_cases hsz : 0 < (k.pool k.current_proc).sz
  · apply (uvmcopy_self_runs h.spaces hr hsz).mono (fun _ _ => trivial)
    rintro _ m ⟨rfl, l', hw, hptes⟩
    refine ⟨fun _ => ?_, fun hc => absurd (by decide) hc⟩
    refine ⟨⟨l', hw.spaces, h.rooted, h.own, h.frames, h.regs, h.pipes, fun i hi h0 => ?_⟩,
      fun _ _ _ => rfl, rfl, rfl⟩
    by_cases heq : (k.pool i).pagetable = (k.pool k.current_proc).pagetable
    · exact (h.image i hi h0).congr (heq ▸ hptes)
    · exact (h.image i hi h0).congr (hw.others _ ⟨i, hi, rfl, h0⟩ heq).2
  · unfold uvmcopy uvmcopyLoop
    rw [if_neg hsz, Runs.pure_iff]
    refine ⟨fun hc => absurd hc (by decide), fun _ => ?_⟩
    rw [runs_onMm, memmove, Runs.modify_iff]
    have heta : Function.update k.pool k.current_proc { k.pool k.current_proc with
        sz := (k.pool k.current_proc).sz } = k.pool := Function.update_eq_self _ _
    rw [heta]
    have htf := (h.frames _ hcur).aligned
    have h₁ :=
      h.writeRegs hcur hne (SameOn.store (o := 0)
        (l := k.mm.mem.load (k.pool k.current_proc).trapframe
      TRAPFRAME_REGS) htf (by rw [Bytes.length_load]; decide))
    rw [Nat.add_zero] at h₁
    generalize hmem : k.mm.mem.store (k.pool k.current_proc).trapframe
      (k.mm.mem.load (k.pool k.current_proc).trapframe TRAPFRAME_REGS) = mem at h₁ ⊢
    have hloop : Runs (fun _ => True) (Prog.forUp (dupFile k.current_proc k.current_proc) 0 FD_MAX)
        { k with mm := { k.mm with mem := mem } }
        (fun _ k' => PagesOk lk k' P l ∧ Others k k' ∧ k'.pipes = k.pipes ∧
        k'.current_proc = k.current_proc ∧
          (k'.pool k.current_proc).pagetable ≠ 0 ∧
          (k'.pool k.current_proc).trapframe = (k.pool k.current_proc).trapframe) := by
      refine Runs.forUp (fun _ k' => PagesOk lk k' P l ∧ Others k k' ∧ k'.pipes = k.pipes ∧
        k'.current_proc = k.current_proc ∧ (k'.pool k.current_proc).pagetable ≠ 0 ∧
        (k'.pool k.current_proc).trapframe = (k.pool k.current_proc).trapframe) ?_
        ⟨h₁, fun _ _ _ => rfl, rfl, rfl, hne, rfl⟩
      rintro fd k₂ _ _ ⟨h₂, hoth, hpipes, hcur₂, hroot₂, htf₂⟩
      unfold dupFile
      rw [Runs.bind_iff, runs_getProc]
      split
      · exact ⟨h₂, hoth, hpipes, hcur₂, hroot₂, htf₂⟩
      · rw [Runs.bind_iff, runs_getFile, Runs.when_iff]
        refine ⟨fun _ => ?_, fun _ => ⟨h₂, hoth, hpipes, hcur₂, hroot₂, htf₂⟩⟩
        rw [Runs.bind_iff, runs_setFile, Runs.bind_iff, runs_getProc, runs_setProc]
        refine ⟨?_, fun j hj hl => ?_, hpipes, hcur₂, ?_, ?_⟩
        · exact h₂.setFiles _ _
        · dsimp only
          rw [Function.update_of_ne hj]
          exact hoth j hj hl
        · dsimp only
          rw [Function.update_self]
          exact hroot₂
        · dsimp only
          rw [Function.update_self]
          exact htf₂
    apply hloop.imp
    rintro _ k₂ ⟨h₂, hoth, hpipes, hcur₂, hroot₂, htf₂⟩
    have h₃ := h₂.writeRegs hcur hroot₂ (SameOn.put64 (o := 112) (v := 0) (htf₂ ▸ htf) (by decide))
    rw [runs_onMm, storePte, Runs.modify_iff]
    rw [htf₂] at h₃
    refine ⟨⟨l, ?_⟩, fun j hj hl => ?_, hpipes, hcur₂⟩
    · have hlive₂ : ¬ Dead (k₂.pool k.current_proc) := fun hc => hroot₂ ((h₂.rooted _ hcur).mpr hc)
      refine PagesOk.setProc h₃ ?_ ?_ ?_ ⟨fun hc => absurd hc not_dead_runnable,
        fun hc => absurd hc hlive₂⟩
      · rfl
      · rfl
      · rfl
    · dsimp only
      rw [Function.update_of_ne hj]
      exact hoth j hj hl

theorem fork_runs (h : PagesOk lk k P l) (hcur : k.current_proc < NPROC)
    (hlive : ¬ Dead (k.pool k.current_proc)) :
    Runs (fun _ => True) (fork lk) k (fun _ k' => (∃ l', PagesOk lk k' P l') ∧ Others k k' ∧
      k'.pipes = k.pipes ∧ k'.current_proc = k.current_proc) := by
  cases hslot : freeSlot k.pool with
  | some np => exact h.fork_new hcur hlive hslot
  | none => exact h.fork_self hcur hlive hslot

/-! ## The end of an address space -/

/-- A process without an address space: its pages are free, but for that of the
saved registers. -/
theorem leave {q : proc} (h : PagesOk lk k P l) (hi : i < NPROC) (hne : (k.pool i).pagetable ≠ 0)
    (hgone : Gone lk (Root k) (Reserved k P) (k.pool i).pagetable (k.pool i).sz k.mm l k'.mm l₁)
    (hpool : k'.pool = Function.update k.pool i q) (hroot : q.pagetable = 0)
    (htf : q.trapframe = (k.pool i).trapframe) (hdead : Dead q) : PagesOk lk k' P l₁ := by
  have hnew : k'.pool i = q := by
    rw [hpool, Function.update_self]
  have hother : ∀ j ≠ i, k'.pool j = k.pool j := by
    intro j hj
    rw [hpool, Function.update_of_ne hj]
  have htfs : ∀ j, (k'.pool j).trapframe = (k.pool j).trapframe := by
    intro j
    by_cases hj : j = i
    · rw [hj, hnew, htf]
    · rw [hother j hj]
  refine ⟨hgone.spaces.congr ?_ ?_, fun j hj => ?_, fun j hj j' hj' h0 heq => ?_, fun j hj => ?_,
    fun j hj j' hj' => ?_, fun j hj => ?_, fun j hj h0 => ?_⟩
  · rintro r ⟨j, hj, hr, h0⟩
    by_cases hji : j = i
    · subst hji
      rw [hnew, hroot] at hr
      exact absurd hr.symm h0
    · rw [hother j hji] at hr
      refine ⟨⟨j, hj, hr, h0⟩, fun heq => hji ?_⟩
      exact h.own j hj i hi (by rwa [hr]) (hr.trans heq)
  · rintro a (ha | ⟨j, hj, h0, rfl⟩)
    · exact Or.inl (Or.inl ha)
    · rw [htfs]
      by_cases hji : j = i
      · subst hji
        exact Or.inr ⟨trapframePage, npages_trapframe (h.image j hi hne).size, h.maps_tf hi hne⟩
      · rw [hother j hji] at h0
        exact Or.inl (Or.inr ⟨j, hj, h0, rfl⟩)
  · by_cases hji : j = i
    · subst hji
      rw [hnew]
      exact ⟨fun _ => hdead, fun _ => hroot⟩
    · rw [hother j hji]
      exact h.rooted j hj
  · by_cases hji : j = i
    · subst hji
      rw [hnew] at h0
      exact absurd hroot h0
    · by_cases hji' : j' = i
      · subst hji'
        rw [hnew, hroot] at heq
        exact absurd heq h0
      · rw [hother j hji] at h0 heq
        rw [hother j' hji'] at heq
        exact h.own j hj j' hj' h0 heq
  · rw [htfs]
    exact h.frames j hj
  · rw [htfs, htfs]
    exact h.regs j hj j' hj'
  · rw [htfs]
    exact h.pipes j hj
  · by_cases hji : j = i
    · subst hji
      rw [hnew] at h0
      exact absurd hroot h0
    · rw [hother j hji] at h0 ⊢
      refine (h.image j hj h0).congr (hgone.others _ ⟨j, hj, rfl, h0⟩ fun heq => hji ?_).2
      exact h.own j hj i hi h0 heq

end PagesOk

end ThuKernel
