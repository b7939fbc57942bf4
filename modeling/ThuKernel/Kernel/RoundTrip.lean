-- Building address spaces and taking them down, in any order and any number:
-- what `proc_freepagetable` gives back is what building took.
import ThuKernel.Kernel.Image
import ThuKernel.Vm.Uvmcopy

namespace ThuKernel

/-! ## What an address space owns -/

variable {lk : Link} {E : Stop → Prop} {s s₁ s₂ : Mm} {r tf a n q : Nat} {R X T : Nat → Prop}
variable {l l₁ l₂ : List Nat}

theorem Loaded.congr (h : Loaded lk s.mem r tf n) (hsame : SamePtes r s s₁)
    (hn : n ≤ trapframePage) :
    Loaded lk s₁.mem r tf n := by
  have hbelow : ∀ q < n, q < 512 ^ 3 := by
    intro q hq
    unfold trapframePage at hn
    omega
  refine ⟨?_, ?_, fun q hq => ?_, fun q hq hle h1 h2 => ?_⟩
  · rw [hsame _ (by decide), h.trampoline]
  · rw [hsame _ (by decide), h.trapframe]
  · rw [hsame q (hbelow q hq)]
    exact h.pages q hq
  · rw [hsame q hq, h.rest q hq hle h1 h2]

/-- Which pages of the allocator are mapped. -/
theorem Loaded.mapsTo_iff (h : Loaded lk s.mem r tf n) (hn : n ≤ trapframePage)
    (htf : IsFrame lk tf) :
    MapsTo lk s.mem r q a ↔ (q = trapframePage ∧ a = tf) ∨ (q < n ∧ frameAt s.mem r q = a) := by
  constructor
  · intro hm
    by_cases h1 : q = trampolinePage
    · have hf := hm.frame
      unfold frameAt at hf
      rw [h1, h.trampoline, (leafPte_decode lk.aligned (by decide)).1,
        Nat.mod_eq_of_lt htf.trampoline.below] at hf
      have := hm.alloc
      rw [← hf] at this
      exact absurd this trampoline_not_frame
    · by_cases h2 : q = trapframePage
      · have hf := hm.frame
        unfold frameAt at hf
        rw [h2, h.trapframe, (leafPte_decode htf.aligned (by decide)).1,
          Nat.mod_eq_of_lt htf.isPage.below] at hf
        exact Or.inl ⟨h2, hf.symm⟩
      · by_cases h3 : q < n
        · exact Or.inr ⟨h3, hm.frame⟩
        · have := hm.mapped
          rw [IsMapped, h.rest q hm.limit (by omega) h1 h2, Nat.zero_testBit] at this
          cases this
  · rintro (⟨rfl, rfl⟩ | ⟨hq, rfl⟩)
    · exact mapsTo_trapframe htf h.trapframe
    · obtain ⟨h1, h2, _⟩ := (h.pages q hq).decode
      unfold trapframePage at hn
      exact ⟨by omega, h1, rfl, h2⟩

/-- `proc_freepagetable` can free it. -/
theorem Loaded.freeable {sz : Nat} (h : Loaded lk s.mem r tf (npages sz)) (htf : IsFrame lk tf) :
    Freeable lk s.mem r sz := by
  refine ⟨⟨?_, ?_, fun hc => by cases hc⟩, ⟨?_, ?_, fun hc => by cases hc⟩, fun q hq => ?_⟩
  · unfold IsMapped
    rw [h.trampoline, leafPte_valid]
  · rw [h.trampoline, (leafPte_decode lk.aligned (by decide)).2]
    decide
  · unfold IsMapped
    rw [h.trapframe, leafPte_valid]
  · rw [h.trapframe, (leafPte_decode htf.aligned (by decide)).2]
    decide
  · obtain ⟨h1, h2, h3⟩ := (h.pages q hq).decode
    exact ⟨h1, by rw [h3]; decide, fun _ => h2⟩

/-- A page table without user pages. -/
theorem NewImage.loaded {s' : Mm} {l' : List Nat} (h : NewImage lk R X tf s l r s' l') :
    Loaded lk s'.mem r tf 0 := by
  refine ⟨?_, ?_, fun q hq => absurd hq (Nat.not_lt_zero q), fun q hq _ h1 h2 => ?_⟩
  · rw [h.ptes _ (by decide), procPtes, if_pos rfl]
  · rw [h.ptes _ (by decide), procPtes, if_neg (by decide), if_pos rfl]
  · rw [h.ptes q hq, procPtes_user h1 h2]

/-- The pages of the new table came from the free list, but for that of the
saved registers. -/
theorem NewImage.owned {s' : Mm} {l' : List Nat} (h : NewImage lk R X tf s l r s' l')
    (htf : IsFrame lk tf) (a : Nat) : a ∈ l' ∨ Owns lk s'.mem r a ↔ a ∈ l ∨ a = tf := by
  have hmaps : (∃ q, MapsTo lk s'.mem r q a) ↔ a = tf := by
    constructor
    · rintro ⟨q, hq⟩
      rcases (h.loaded.mapsTo_iff (Nat.zero_le _) htf).mp hq with ⟨_, hq⟩ | ⟨hq, _⟩
      · exact hq
      · exact absurd hq (Nat.not_lt_zero q)
    · rintro rfl
      exact ⟨trapframePage, mapsTo_trapframe htf h.loaded.trapframe⟩
  unfold Owns
  rw [hmaps, h.pages a, or_assoc]

/-! ## Building and taking down -/

/-- An address space that was built: its table, the page of the saved
registers, the size, and the pages that building took. -/
structure Task where
  root : Nat
  tf : Nat
  sz : Nat
  taken : Nat → Prop

/-- `proc_pagetable` and `loader`: the table and the size. -/
def loadTask (lk : Link) (tf : Nat) (app : App) : Prog Mm (Nat × Nat) := do
  let pagetable ← proc_pagetable lk tf
  if pagetable = 0 then Prog.panic ""
  else do
    let sz ← bin_loader app.start app.stop pagetable tf
    pure (pagetable, sz)

/-- `proc_pagetable` and `uvmcopy`. The size is set when all pages were copied. -/
def copyTask (lk : Link) (tf old sz : Nat) : Prog Mm (Nat × Nat) := do
  let pagetable ← proc_pagetable lk tf
  if pagetable = 0 then Prog.panic ""
  else do
    let r ← uvmcopy lk old pagetable sz
    pure (pagetable, if r < 0 then 0 else sz)

/-- The page is on the free list. -/
def IsFree (lk : Link) (s : Mm) (a : Nat) : Prop := ∃ l, FreeList lk s l ∧ a ∈ l

/-- The memory, the address spaces, and the pages that other code took. -/
structure Machine where
  mm : Mm
  tasks : List Task
  held : Nat → Prop

/-- A page of the saved registers that no address space uses. -/
def Machine.Idle (m : Machine) (tf : Nat) : Prop := ∀ t ∈ m.tasks, t.tf ≠ tf

/-- A page that user code, the trap code or the code that holds it may write. -/
def Machine.Writable (m : Machine) (T : Nat → Prop) (a : Nat) : Prop :=
  T a ∨ m.held a ∨ ∃ t ∈ m.tasks, ∃ q < npages t.sz, frameAt m.mm.mem t.root q = a

/-- One step. The pages `T` are those of the saved registers. -/
inductive Machine.Step (lk : Link) (T : Nat → Prop) : Machine → Machine → Prop
  | load {m : Machine} {mm : Mm} {tf root sz : Nat} (app : App) : T tf → m.Idle tf →
      loadTask lk tf app m.mm = .ok ((root, sz), mm) →
      Step lk T m ⟨mm, ⟨root, tf, sz, fun a => IsFree lk m.mm a ∧ ¬ IsFree lk mm a⟩ :: m.tasks,
        m.held⟩
  | copy {m : Machine} {mm : Mm} {tf root sz : Nat} {parent : Task} : parent ∈ m.tasks → T tf →
      m.Idle tf → copyTask lk tf parent.root parent.sz m.mm = .ok ((root, sz), mm) →
      Step lk T m ⟨mm, ⟨root, tf, sz, fun a => IsFree lk m.mm a ∧ ¬ IsFree lk mm a⟩ :: m.tasks,
        m.held⟩
  | teardown {m : Machine} {mm : Mm} {t : Task} : t ∈ m.tasks →
      proc_freepagetable lk t.root t.sz m.mm = .ok ((), mm) →
      Step lk T m ⟨mm, m.tasks.filter (·.root ≠ t.root), m.held⟩
  | kalloc {m : Machine} {mm : Mm} {r : Nat} : ThuKernel.kalloc m.mm = .ok (r, mm) → r ≠ 0 →
      Step lk T m ⟨mm, m.tasks, fun a => m.held a ∨ a = r⟩
  | kfree {m : Machine} {mm : Mm} {pa : Nat} : m.held pa →
      ThuKernel.kfree lk pa m.mm = .ok ((), mm) →
      Step lk T m ⟨mm, m.tasks, fun a => m.held a ∧ a ≠ pa⟩
  | write {m : Machine} {mem : Bytes} : SameOn PGSIZE (fun a => ¬ m.Writable T a) m.mm.mem mem →
      Step lk T m ⟨{ m.mm with mem := mem }, m.tasks, m.held⟩

/-- A built address space, as the memory has it. -/
structure TaskOk (lk : Link) (T : Nat → Prop) (mem : Bytes) (t : Task) : Prop where
  loaded : Loaded lk mem t.root t.tf (npages t.sz)
  size : t.sz ≤ TRAPFRAME
  tf : T t.tf
  taken : ∀ a, t.taken a ↔ Owns lk mem t.root a ∧ a ≠ t.tf

/-- The tables of the address spaces. -/
def Machine.Root (m : Machine) (r : Nat) : Prop := ∃ t ∈ m.tasks, t.root = r

/-- The pages that are neither free nor of an address space. -/
def Machine.Kept (m : Machine) (T : Nat → Prop) (a : Nat) : Prop := (T a ∧ m.Idle a) ∨ m.held a

/-- Every page has one use: it is free, or of one address space, or kept. -/
structure Machine.Ok (lk : Link) (T : Nat → Prop) (m : Machine) : Prop where
  spaces : ∃ l, Spaces lk m.mm m.Root l (m.Kept T)
  tasks : ∀ t ∈ m.tasks, TaskOk lk T m.mm.mem t
  distinct : ∀ t ∈ m.tasks, ∀ t' ∈ m.tasks, t.root = t'.root → t = t'
  frames : ∀ a, T a → IsFrame lk a
  apart : ∀ a, T a → ¬ m.held a

theorem FreeList.unique (h : FreeList lk s l) (h' : FreeList lk s l₁) : l = l₁ := by
  have hchain : ∀ (l l₁ : List Nat) (head : Nat), Chain s.mem head l → Chain s.mem head l₁ →
      l = l₁ := by
    intro l
    induction l with
    | nil =>
      intro l₁ head h1 h2
      exact (h2.head_eq_zero_iff.mp h1).symm
    | cons b l ih =>
      rintro l₁ head ⟨rfl, hne, h1⟩ h2
      cases l₁ with
      | nil => exact absurd h2 hne
      | cons c l₁ =>
        obtain ⟨rfl, _, h3⟩ := h2
        rw [ih l₁ _ h1 h3]
  exact hchain l l₁ _ h.chain h'.chain

theorem isFree_iff (h : FreeList lk s l) : IsFree lk s a ↔ a ∈ l := by
  constructor
  · rintro ⟨l', h', ha⟩
    rwa [h.unique h']
  · intro ha
    exact ⟨l, h, ha⟩

/-! ## What building does -/

/-- A new address space of size `sz`. -/
structure Built (lk : Link) (R X : Nat → Prop) (tf r sz : Nat) (s : Mm) (l : List Nat) (s' : Mm)
    (l' : List Nat) : Prop where
  spaces : Spaces lk s' (fun p => R p ∨ p = r) l' (fun a => X a ∧ a ≠ tf)
  fresh : ¬ R r
  loaded : Loaded lk s'.mem r tf (npages sz)
  size : sz ≤ TRAPFRAME
  others : AllSame R s s'
  owned : ∀ a, a ∈ l' ∨ Owns lk s'.mem r a ↔ a ∈ l ∨ a = tf
  same : SameOn PGSIZE (fun a => a ∉ l ∧ a ≠ tf) s.mem s'.mem

/-- The table was made, and then it was filled. -/
theorem NewImage.built {sz : Nat} (h : NewImage lk R X tf s l r s₁ l₁) (htf : IsFrame lk tf)
    (h' : Within lk (fun p => R p ∨ p = r) (fun a => X a ∧ a ≠ tf) r s₁ l₁ s₂ l₂)
    (hloaded : Loaded lk s₂.mem r tf (npages sz)) (hsize : sz ≤ TRAPFRAME) :
    Built lk R X tf r sz s l s₂ l₂ := by
  obtain ⟨hpages, hmem⟩ := moved_nil.mp h'.moved
  refine ⟨h'.spaces, h.fresh, hloaded, hsize, h.others.trans (h'.others.all h.fresh),
    fun a => ?_, ?_⟩
  · rw [hpages a, h.owned htf a]
  · apply h.same.trans (hmem.mono _)
    rintro a ⟨h1, h2⟩ hc
    rcases (h.owned htf a).mp hc with hc | hc
    · exact h1 hc
    · exact h2 hc

/-- The number of pages that `loadTask` needs: three tables for the trampoline,
the pages of the image and of the stack, and the tables above them. -/
def loadPagesNeeded (app : App) : Nat :=
  3 + (imagePages app.start app.stop + 1 + tablesFor (imagePages app.start app.stop + 1))

theorem npages_mul {m : Nat} (hm : m * PGSIZE ≤ MAXVA) : npages (m * PGSIZE) = m := by
  have hmax := MAXVA_eq
  unfold npages PGROUNDUP
  rw [Nat.mul_div_cancel _ (by decide)]
  simp only [PGSIZE_eq] at *
  omega

theorem loadTask_runs (hs : Spaces lk s R l X) (htf : X tf) (app : App) :
    Runs (fun _ => l.length < loadPagesNeeded app) (loadTask lk tf app) s (fun r s' =>
      (r.1 ≠ 0 ∧ r.2 = (imagePages app.start app.stop + 1) * PGSIZE) ∧ ∃ l',
        Built lk R X tf r.1 r.2 s l s' l' ∧ l.length ≤ l'.length + loadPagesNeeded app) := by
  have hframe := (hs.kept tf htf).1
  have hmax := MAXVA_eq
  unfold loadTask
  rw [Runs.bind_iff]
  apply (proc_pagetable_runs hs htf).mono
  · rintro e ⟨_, rfl⟩
    unfold loadPagesNeeded
    rw [List.length_nil]
    omega
  rintro r s₁ (⟨rfl, l₁, h₁⟩ | ⟨hr, l₁, h₁⟩)
  · rw [if_pos rfl, Runs.panic_iff]
    have := h₁.few
    unfold loadPagesNeeded
    omega
  rw [if_neg hr, Runs.bind_iff]
  apply (bin_loader_runs h₁.spaces (Or.inr rfl) app.below hframe h₁.ptes).mono
  · intro e he
    have := h₁.count
    unfold loadPagesNeeded
    omega
  rintro sz s₂ ⟨rfl, hloaded, l₂, h₂⟩
  have hle := @imagePages_le app.start _ app.below
  have hbound : (imagePages app.start app.stop + 1) * PGSIZE ≤ TRAPFRAME := by
    rw [trapframe_page, trapframePage]
    simp only [PGSIZE_eq]
    omega
  rw [Runs.pure_iff]
  refine ⟨⟨hr, rfl⟩, l₂, h₁.built hframe h₂.toWithin ?_ hbound, ?_⟩
  · rw [npages_mul (hbound.trans trapframe_in.le)]
    exact hloaded
  · have hcount₁ := h₁.count
    have hcount₂ := h₂.count
    unfold loadPagesNeeded
    omega

/-- A copy of an entry that `loader` made is one. -/
theorem CopiedPage.isUserPte {mem mem' : Bytes} {old new : Nat}
    (h : CopiedPage lk mem mem' old new q)
    (hold : IsUserPte lk (pteAt mem old q)) : IsUserPte lk (pteAt mem' new q) := by
  refine ⟨frameAt mem' new q, h.frame, ?_⟩
  rw [h.pte, hold.decode.2.2]
  unfold leafPte
  rw [Nat.or_assoc, Nat.or_assoc, Nat.or_self, ← Nat.or_assoc]

theorem copyTask_runs {old sz : Nat} (hs : Spaces lk s R l X) (htf : X tf) (hold : R old)
    (hsize : sz ≤ TRAPFRAME) {tf' : Nat} (hloaded : Loaded lk s.mem old tf' (npages sz)) :
    Runs (fun _ => l.length < 3) (copyTask lk tf old sz) s (fun r s' =>
      r.1 ≠ 0 ∧ ∃ l', Built lk R X tf r.1 r.2 s l s' l') := by
  have hframe := (hs.kept tf htf).1
  have hnp := npages_trapframe hsize
  have hlimit : ∀ q < npages sz, q < 512 ^ 3 ∧ q ≠ trampolinePage ∧ q ≠ trapframePage := by
    intro q hq
    unfold trapframePage at hnp
    unfold trampolinePage trapframePage
    omega
  unfold copyTask
  rw [Runs.bind_iff]
  apply (proc_pagetable_runs hs htf).mono
  · rintro e ⟨_, rfl⟩
    decide
  rintro r s₁ (⟨rfl, l₁, h₁⟩ | ⟨hr, l₁, h₁⟩)
  · rw [if_pos rfl, Runs.panic_iff]
    exact h₁.few
  rw [if_neg hr, Runs.bind_iff]
  have hne : old ≠ r := by
    rintro rfl
    exact h₁.fresh hold
  have hloaded₁ := hloaded.congr (h₁.others old hold).2 hnp
  have hzero : ∀ q < npages sz, pteAt s₁.mem r q = 0 := by
    intro q hq
    obtain ⟨h1, h2, h3⟩ := hlimit q hq
    exact h₁.loaded.rest q h1 (Nat.zero_le q) h2 h3
  apply (uvmcopy_runs h₁.spaces (Or.inl hold) (Or.inr rfl) hne (hsize.trans trapframe_in.le)
    hzero).mono
  · rintro e ⟨q, hq, hno, _⟩
    exact absurd (hloaded₁.pages q hq).decode.1 hno
  rintro ret s₂ ⟨l₂, hresult⟩
  rw [Runs.pure_iff]
  refine ⟨hr, l₂, ?_⟩
  rcases hresult.result with rfl | rfl
  · rw [if_neg (by decide)]
    obtain ⟨hcopies, _, _⟩ := hresult.copied rfl
    refine h₁.built hframe hcopies.toWithin ⟨?_, ?_, fun q hq => ?_, fun q hq hle h1 h2 => ?_⟩ hsize
    · rw [hcopies.rest _ (by decide) (by unfold trapframePage at hnp; unfold trampolinePage; omega)]
      exact h₁.loaded.trampoline
    · rw [hcopies.rest _ (by decide) hnp]
      exact h₁.loaded.trapframe
    · exact (hcopies.pages q hq).isUserPte (hloaded₁.pages q hq)
    · rw [hcopies.rest q hq hle]
      exact h₁.loaded.rest q hq (Nat.zero_le q) h1 h2
  · rw [if_pos (by decide)]
    obtain ⟨hback, _⟩ := hresult.failed rfl
    refine h₁.built hframe hback.toWithin ?_ (Nat.zero_le _)
    rw [npages_zero]
    exact h₁.loaded.congr hback.ptes (Nat.zero_le _)

/-! ## Every step keeps the uses apart -/

theorem TaskOk.congr {mm mm' : Mm} {t : Task} (h : TaskOk lk T mm.mem t)
    (hsame : SameTables t.root mm mm' ∧ SamePtes t.root mm mm') : TaskOk lk T mm'.mem t := by
  refine ⟨h.loaded.congr hsame.2 (npages_trapframe h.size), h.size, h.tf, fun a => ?_⟩
  rw [h.taken a, hsame.1.owns hsame.2 a]

namespace Machine

variable {m m' : Machine} {mm : Mm} {t : Task}

/-- The pages that take part. -/
def Has (lk : Link) (m : Machine) (a : Nat) : Prop :=
  IsFree lk m.mm a ∨ (∃ t ∈ m.tasks, t.taken a) ∨ m.held a

/-- The kernel at its start: no address space, and the pages `T` of the saved
registers are not free. -/
structure Booted (lk : Link) (T : Nat → Prop) (m : Machine) : Prop where
  tasks : m.tasks = []
  held : ∀ a, ¬ m.held a
  free : ∃ l, FreeList lk m.mm l ∧ ∀ a, T a → IsFrame lk a ∧ a ∉ l

theorem Booted.ok (h : Booted lk T m) : m.Ok lk T := by
  obtain ⟨l, hfree, hT⟩ := h.free
  have hnone : ∀ t, t ∉ m.tasks := by
    intro t ht
    rw [h.tasks] at ht
    cases ht
  refine ⟨⟨l, hfree, ?_, ?_, ?_⟩, fun t ht => absurd ht (hnone t), fun t ht => absurd ht (hnone t),
    fun a ha => (hT a ha).1, fun a _ => h.held a⟩
  · rintro r ⟨t, ht, _⟩
    exact absurd ht (hnone t)
  · rintro r r' a ⟨t, ht, _⟩
    exact absurd ht (hnone t)
  · rintro a (⟨ha, _⟩ | ha)
    · refine ⟨(hT a ha).1, (hT a ha).2, ?_⟩
      rintro r ⟨t, ht, _⟩
      exact absurd ht (hnone t)
    · exact absurd ha (h.held a)

/-- A page of saved registers is mapped by its address space only. -/
theorem Ok.maps_tf (h : m.Ok lk T) (ht : t ∈ m.tasks) :
    MapsTo lk m.mm.mem t.root trapframePage t.tf :=
  mapsTo_trapframe (h.frames _ (h.tasks t ht).tf) (h.tasks t ht).loaded.trapframe

/-- A page of saved registers is never free, and never a table. -/
theorem Ok.tf_apart (h : m.Ok lk T) (hs : Spaces lk m.mm m.Root l (m.Kept T)) (ha : T a) :
    a ∉ l ∧ ∀ r, m.Root r → ¬ TableOf m.mm.mem r a := by
  by_cases hidle : m.Idle a
  · obtain ⟨_, h2, h3⟩ := hs.kept a (Or.inl ⟨ha, hidle⟩)
    exact ⟨h2, fun r hr hc => h3 r hr (Or.inl hc)⟩
  · unfold Idle at hidle
    push Not at hidle
    obtain ⟨t, ht, rfl⟩ := hidle
    obtain ⟨h1, h2⟩ := hs.trapframe_apart ⟨t, ht, rfl⟩ (h.maps_tf ht)
    exact ⟨h2, h1⟩

theorem Ok.writable_apart (h : m.Ok lk T) (hs : Spaces lk m.mm m.Root l (m.Kept T))
    (ha : m.Writable T a) : a ∉ l ∧ ∀ r, m.Root r → ¬ TableOf m.mm.mem r a := by
  rcases ha with ha | ha | ⟨t, ht, q, hq, rfl⟩
  · exact h.tf_apart hs ha
  · obtain ⟨_, h2, h3⟩ := hs.kept a (Or.inr ha)
    exact ⟨h2, fun r hr hc => h3 r hr (Or.inl hc)⟩
  · have hok := h.tasks t ht
    have hroot : m.Root t.root := ⟨t, ht, rfl⟩
    have hmaps := (hok.loaded.mapsTo_iff (npages_trapframe hok.size) (h.frames _ hok.tf)).mpr
      (Or.inr ⟨hq, rfl⟩)
    refine ⟨(hs.space _ hroot).unfree _ _ hmaps, fun r hr hc => ?_⟩
    have heq := hs.apart r t.root _ hr hroot (Or.inl hc) (Or.inr ⟨q, hmaps⟩)
    subst heq
    exact (hs.space _ hroot).unmixed _ _ hmaps hc

/-- A new address space joins the others. -/
theorem Ok.built {sz : Nat} (h : m.Ok lk T) (hs : Spaces lk m.mm m.Root l (m.Kept T)) (htf : T tf)
    (hidle : m.Idle tf) (hb : Built lk m.Root (m.Kept T) tf r sz m.mm l mm l₁) :
    Ok lk T ⟨mm, ⟨r, tf, sz, fun a => IsFree lk m.mm a ∧ ¬ IsFree lk mm a⟩ :: m.tasks, m.held⟩ ∧
      ∀ a, Has lk ⟨mm, ⟨r, tf, sz, fun a => IsFree lk m.mm a ∧ ¬ IsFree lk mm a⟩ :: m.tasks,
        m.held⟩ a ↔
        Has lk m a := by
  have hframe := h.frames tf htf
  have hin : (fun p => m.Root p ∨ p = r) r := Or.inr rfl
  have hspace := hb.spaces.space r hin
  have htfmaps := mapsTo_trapframe hframe hb.loaded.trapframe
  have htaken : ∀ a, (IsFree lk m.mm a ∧ ¬ IsFree lk mm a) ↔ Owns lk mm.mem r a ∧ a ≠ tf := by
    intro a
    rw [isFree_iff hs.free, isFree_iff hb.spaces.free]
    constructor
    · rintro ⟨h1, h2⟩
      refine ⟨((hb.owned a).mpr (Or.inl h1)).resolve_left h2, ?_⟩
      rintro rfl
      exact (hs.kept a (Or.inl ⟨htf, hidle⟩)).2.1 h1
    · rintro ⟨h1, h2⟩
      exact ⟨((hb.owned a).mp (Or.inr h1)).resolve_right h2, fun hc => hspace.unowned hc h1⟩
  have hfresh : ∀ t ∈ m.tasks, t.root ≠ r := fun t ht hc => hb.fresh ⟨t, ht, hc⟩
  refine ⟨⟨⟨l₁, hb.spaces.congr ?_ ?_⟩, fun t ht => ?_, fun t ht t' ht' heq => ?_,
    h.frames, h.apart⟩, fun a => ?_⟩
  · rintro p ⟨t, ht, rfl⟩
    rcases List.mem_cons.mp ht with rfl | ht
    · exact Or.inr rfl
    · exact Or.inl ⟨t, ht, rfl⟩
  · rintro a (⟨ha, hi⟩ | ha)
    · refine ⟨Or.inl ⟨ha, fun t ht => hi t (List.mem_cons_of_mem _ ht)⟩, ?_⟩
      exact (hi _ (List.mem_cons_self ..)).symm
    · refine ⟨Or.inr ha, ?_⟩
      rintro rfl
      exact h.apart a htf ha
  · rcases List.mem_cons.mp ht with rfl | ht
    · exact ⟨hb.loaded, hb.size, htf, htaken⟩
    · exact (h.tasks t ht).congr (hb.others t.root ⟨t, ht, rfl⟩)
  · rcases List.mem_cons.mp ht with rfl | ht
    · rcases List.mem_cons.mp ht' with rfl | ht'
      · rfl
      · exact absurd heq.symm (hfresh t' ht')
    · rcases List.mem_cons.mp ht' with rfl | ht'
      · exact absurd heq (hfresh t ht)
      · exact h.distinct t ht t' ht' heq
  · have hback : IsFree lk mm a → IsFree lk m.mm a := by
      rw [isFree_iff hs.free, isFree_iff hb.spaces.free]
      intro ha
      refine ((hb.owned a).mp (Or.inl ha)).resolve_right ?_
      rintro rfl
      exact hspace.unfree _ _ htfmaps ha
    constructor
    · rintro (ha | ⟨t, ht, ha⟩ | ha)
      · exact Or.inl (hback ha)
      · rcases List.mem_cons.mp ht with rfl | ht
        · exact Or.inl ha.1
        · exact Or.inr (Or.inl ⟨t, ht, ha⟩)
      · exact Or.inr (Or.inr ha)
    · rintro (ha | ⟨t, ht, ha⟩ | ha)
      · by_cases hc : IsFree lk mm a
        · exact Or.inl hc
        · exact Or.inr (Or.inl ⟨_, List.mem_cons_self .., ha, hc⟩)
      · exact Or.inr (Or.inl ⟨t, List.mem_cons_of_mem _ ht, ha⟩)
      · exact Or.inr (Or.inr ha)

/-- Taking an address space down frees what it took, and only that. -/
theorem Ok.teardown_runs (h : m.Ok lk T) (ht : t ∈ m.tasks) :
    Runs E (proc_freepagetable lk t.root t.sz) m.mm (fun _ mm =>
      Ok lk T ⟨mm, m.tasks.filter (·.root ≠ t.root), m.held⟩ ∧
      ∀ a, IsFree lk mm a ↔ IsFree lk m.mm a ∨ t.taken a) := by
  obtain ⟨l, hs⟩ := h.spaces
  have hok := h.tasks t ht
  have hframe := h.frames _ hok.tf
  have hnp := npages_trapframe hok.size
  have hroot : m.Root t.root := ⟨t, ht, rfl⟩
  apply (proc_freepagetable_runs hs hroot hok.size).mono
  · intro e he
    exact absurd (hok.loaded.freeable hframe) he
  rintro _ mm ⟨_, l₁, hgone⟩
  have hmaps := fun q a => hok.loaded.mapsTo_iff hnp hframe (q := q) (a := a)
  refine ⟨⟨⟨l₁, hgone.spaces.congr ?_ ?_⟩, fun t' ht' => ?_, fun t₁ ht₁ t₂ ht₂ => ?_,
    h.frames, h.apart⟩, fun a => ?_⟩
  · rintro p ⟨t', ht', rfl⟩
    rw [List.mem_filter, decide_eq_true_iff] at ht'
    exact ⟨⟨t', ht'.1, rfl⟩, ht'.2⟩
  · rintro a (⟨ha, hi⟩ | ha)
    · by_cases hidle : m.Idle a
      · exact Or.inl (Or.inl ⟨ha, hidle⟩)
      · unfold Idle at hidle
        push Not at hidle
        obtain ⟨t', ht', rfl⟩ := hidle
        have hsame : t'.root = t.root := by
          by_contra hc
          apply hi t' _ rfl
          rw [List.mem_filter, decide_eq_true_iff]
          exact ⟨ht', hc⟩
        rw [h.distinct t' ht' t ht hsame]
        exact Or.inr ⟨trapframePage, hnp, h.maps_tf ht⟩
    · exact Or.inl (Or.inr ha)
  · rw [List.mem_filter, decide_eq_true_iff] at ht'
    exact (h.tasks t' ht'.1).congr (hgone.others t'.root ⟨t', ht'.1, rfl⟩ ht'.2)
  · exact h.distinct t₁ (List.mem_filter.mp ht₁).1 t₂ (List.mem_filter.mp ht₂).1
  · rw [isFree_iff hgone.spaces.free, isFree_iff hs.free, hgone.pages a, hok.taken a]
    have howns : (TableOf m.mm.mem t.root a ∨ ∃ q < npages t.sz, MapsTo lk m.mm.mem t.root q a) ↔
        Owns lk m.mm.mem t.root a ∧ a ≠ t.tf := by
      constructor
      · rintro (ha | ⟨q, hq, ha⟩)
        · refine ⟨Or.inl ha, ?_⟩
          rintro rfl
          exact (hs.space _ hroot).unmixed _ _ (h.maps_tf ht) ha
        · refine ⟨Or.inr ⟨q, ha⟩, ?_⟩
          rintro rfl
          have := (hs.space _ hroot).unshared q trapframePage _ ha (h.maps_tf ht)
          omega
      · rintro ⟨ha | ⟨q, ha⟩, hne⟩
        · exact Or.inl ha
        · rcases (hmaps q a).mp ha with ⟨_, hc⟩ | ⟨hq, _⟩
          · exact absurd hc hne
          · exact Or.inr ⟨q, hq, ha⟩
    rw [howns]

theorem Ok.idle_kept (_ : m.Ok lk T) {tf : Nat} (htf : T tf) (hidle : m.Idle tf) : m.Kept T tf :=
  Or.inl ⟨htf, hidle⟩

theorem Ok.load_runs (h : m.Ok lk T) (hs : Spaces lk m.mm m.Root l (m.Kept T)) (htf : T tf)
    (hidle : m.Idle tf) (app : App) :
    Runs (fun _ => l.length < loadPagesNeeded app) (loadTask lk tf app) m.mm (fun r mm =>
      ∃ l', Built lk m.Root (m.Kept T) tf r.1 r.2 m.mm l mm l') :=
  (loadTask_runs hs (h.idle_kept htf hidle) app).imp fun _ _ ⟨_, l', hb, _⟩ => ⟨l', hb⟩

theorem Ok.copy_runs (h : m.Ok lk T) (hs : Spaces lk m.mm m.Root l (m.Kept T)) (htf : T tf)
    (hidle : m.Idle tf) (ht : t ∈ m.tasks) :
    Runs (fun _ => l.length < 3) (copyTask lk tf t.root t.sz) m.mm (fun r mm =>
      ∃ l', Built lk m.Root (m.Kept T) tf r.1 r.2 m.mm l mm l') :=
  (copyTask_runs hs (h.idle_kept htf hidle) ⟨t, ht, rfl⟩ (h.tasks t ht).size
    (h.tasks t ht).loaded).imp
    fun _ _ hr => hr.2

theorem Ok.step (h : m.Ok lk T) (hstep : Step lk T m m') :
    m'.Ok lk T ∧ ∀ a, m'.Has lk a ↔ m.Has lk a := by
  obtain ⟨l, hs⟩ := h.spaces
  cases hstep with
  | load app htf hidle hrun =>
    obtain ⟨l', hb⟩ := (h.load_runs hs htf hidle app).of_ok hrun
    exact h.built hs htf hidle hb
  | copy ht htf hidle hrun =>
    obtain ⟨l', hb⟩ := (h.copy_runs hs htf hidle ht).of_ok hrun
    exact h.built hs htf hidle hb
  | @teardown mm t ht hrun =>
    obtain ⟨hok, hfree⟩ := (h.teardown_runs (E := fun _ => True) ht).of_ok hrun
    refine ⟨hok, fun a => ?_⟩
    unfold Has
    rw [hfree a]
    constructor
    · rintro ((ha | ha) | ⟨t', ht', ha⟩ | ha)
      · exact Or.inl ha
      · exact Or.inr (Or.inl ⟨t, ht, ha⟩)
      · exact Or.inr (Or.inl ⟨t', (List.mem_filter.mp ht').1, ha⟩)
      · exact Or.inr (Or.inr ha)
    · rintro (ha | ⟨t', ht', ha⟩ | ha)
      · exact Or.inl (Or.inl ha)
      · by_cases hsame : t'.root = t.root
        · rw [h.distinct t' ht' t ht hsame] at ha
          exact Or.inl (Or.inr ha)
        · refine Or.inr (Or.inl ⟨t', ?_, ha⟩)
          rw [List.mem_filter, decide_eq_true_iff]
          exact ⟨ht', hsame⟩
      · exact Or.inr (Or.inr ha)
  | @kalloc mm r hrun hr =>
    rcases (hs.kalloc_runs (E := fun _ => True)).of_ok hrun with ⟨_, h0, _⟩ |
      ⟨_, l', hl, h₁, hsame, _, _, hX, hno⟩
    · exact absurd h0 hr
    refine ⟨⟨⟨l', h₁.congr (fun p hp => hp) ?_⟩, fun t ht => ?_, h.distinct, h.frames, ?_⟩,
      fun a => ?_⟩
    · rintro a (ha | ha | ha)
      · exact Or.inl (Or.inl ha)
      · exact Or.inl (Or.inr ha)
      · exact Or.inr ha
    · exact (h.tasks t ht).congr (hsame t.root ⟨t, ht, rfl⟩)
    · rintro a ha (hc | rfl)
      · exact h.apart a ha hc
      · have := (h.tf_apart hs ha).1
        rw [hl] at this
        exact this (List.mem_cons_self ..)
    · unfold Has
      dsimp only
      rw [isFree_iff hs.free, isFree_iff h₁.free, hl, List.mem_cons]
      constructor
      · rintro (ha | ha | ha | ha)
        · exact Or.inl (Or.inr ha)
        · exact Or.inr (Or.inl ha)
        · exact Or.inr (Or.inr ha)
        · exact Or.inl (Or.inl ha)
      · rintro ((ha | ha) | ha | ha)
        · exact Or.inr (Or.inr (Or.inr ha))
        · exact Or.inl ha
        · exact Or.inr (Or.inl ha)
        · exact Or.inr (Or.inr (Or.inl ha))
  | @kfree mm pa hpa hrun =>
    obtain ⟨h₁, hsame, _⟩ := (hs.kfree_runs (E := fun _ => True) (Or.inr hpa)).of_ok hrun
    refine ⟨⟨⟨pa :: l, h₁.congr (fun p hp => hp) ?_⟩, fun t ht => ?_, h.distinct, h.frames,
      fun a ha hc => h.apart a ha hc.1⟩, fun a => ?_⟩
    · rintro a (ha | ⟨ha, hne⟩)
      · refine ⟨Or.inl ha, ?_⟩
        rintro rfl
        exact h.apart a ha.1 hpa
      · exact ⟨Or.inr ha, hne⟩
    · exact (h.tasks t ht).congr (hsame t.root ⟨t, ht, rfl⟩)
    · unfold Has
      dsimp only
      rw [isFree_iff hs.free, isFree_iff h₁.free, List.mem_cons]
      constructor
      · rintro ((rfl | ha) | ha | ha)
        · exact Or.inr (Or.inr hpa)
        · exact Or.inl ha
        · exact Or.inr (Or.inl ha)
        · exact Or.inr (Or.inr ha.1)
      · rintro (ha | ha | ha)
        · exact Or.inl (Or.inr ha)
        · exact Or.inr (Or.inl ha)
        · by_cases hpa' : a = pa
          · exact Or.inl (Or.inl hpa')
          · exact Or.inr (Or.inr ⟨ha, hpa'⟩)
  | @write mem hsame =>
    have hkeep : ∀ r a, m.Root r → TableOf m.mm.mem r a → ¬ m.Writable T a :=
      fun r a hr ha hc => (h.writable_apart hs hc).2 r hr ha
    have hfree : FreeList lk { m.mm with mem := mem } l :=
      hs.free.same (fun a ha hc => (h.writable_apart hs hc).1 ha) hsame rfl
    obtain ⟨h₁, hall⟩ := hs.frame hsame hkeep hfree (fun a ha r hr => (hs.space r hr).unowned ha)
      hs.kept
    refine ⟨⟨⟨l, h₁⟩, fun t ht => (h.tasks t ht).congr (hall t.root ⟨t, ht, rfl⟩),
      h.distinct, h.frames, h.apart⟩, fun a => ?_⟩
    unfold Has
    dsimp only
    rw [isFree_iff hs.free, isFree_iff h₁.free]

theorem Booted.run (h : Booted lk T m) (hrun : Relation.ReflTransGen (Step lk T) m m') :
    m'.Ok lk T ∧ ∀ a, m'.Has lk a ↔ IsFree lk m.mm a := by
  induction hrun with
  | refl =>
    refine ⟨h.ok, fun a => ?_⟩
    unfold Has
    constructor
    · rintro (ha | ⟨t, ht, _⟩ | ha)
      · exact ha
      · rw [h.tasks] at ht
        cases ht
      · exact absurd ha (h.held a)
    · exact Or.inl
  | tail _ hstep ih =>
    obtain ⟨hok, hhas⟩ := ih.1.step hstep
    exact ⟨hok, fun a => (hhas a).trans (ih.2 a)⟩

end Machine

/-- In every run, building panics only when there are fewer free pages than it
needs, and taking an address space down never does. It frees the pages that
building took, which were not free; so when all is taken down, the free pages
are those of the start. The trampoline and the pages of the saved registers are
never free. -/
theorem taking_down_frees_what_building_took {m₀ m : Machine} (hboot : m₀.Booted lk T)
    (hrun : Relation.ReflTransGen (Machine.Step lk T) m₀ m) :
    (∀ l, FreeList lk m.mm l → ∀ tf, T tf → m.Idle tf →
      (∀ app, Runs (fun _ => l.length < loadPagesNeeded app) (loadTask lk tf app) m.mm fun _ _ =>
      True) ∧
      ∀ t ∈ m.tasks, Runs (fun _ => l.length < 3) (copyTask lk tf t.root t.sz) m.mm fun _ _ =>
      True) ∧
    (∀ t ∈ m.tasks, (∀ a, t.taken a → ¬ IsFree lk m.mm a) ∧
      Runs (fun _ => False) (proc_freepagetable lk t.root t.sz) m.mm fun _ mm =>
        ∀ a, IsFree lk mm a ↔ IsFree lk m.mm a ∨ t.taken a) ∧
    (m.tasks = [] → (∀ a, ¬ m.held a) → ∀ a, IsFree lk m.mm a ↔ IsFree lk m₀.mm a) ∧
    ¬ IsFree lk m.mm lk.trampoline ∧ ∀ tf, T tf → ¬ IsFree lk m.mm tf := by
  obtain ⟨hok, hhas⟩ := hboot.run hrun
  obtain ⟨l, hs⟩ := hok.spaces
  refine ⟨fun l' hl' tf htf hidle => ?_, fun t ht => ⟨fun a ha => ?_, ?_⟩,
    fun htasks hheld a => ?_, ?_, fun tf htf => ?_⟩
  · rw [hl'.unique hs.free]
    refine ⟨fun app => ?_, fun t ht => ?_⟩
    · exact (hok.load_runs hs htf hidle app).imp fun _ _ _ => trivial
    · exact (hok.copy_runs hs htf hidle ht).imp fun _ _ _ => trivial
  · rw [isFree_iff hs.free]
    intro hc
    exact (hs.space t.root ⟨t, ht, rfl⟩).unowned hc (((hok.tasks t ht).taken a).mp ha).1
  · exact (hok.teardown_runs ht).imp fun _ _ hr => hr.2
  · rw [← hhas a]
    unfold Machine.Has
    constructor
    · exact Or.inl
    · rintro (ha | ⟨t, ht, _⟩ | ha)
      · exact ha
      · rw [htasks] at ht
        cases ht
      · exact absurd ha (hheld a)
  · rw [isFree_iff hs.free]
    intro hc
    exact trampoline_not_frame (hs.free.frames _ hc)
  · rw [isFree_iff hs.free]
    exact (hok.tf_apart hs htf).1

/-! ## One address space, with pages and without -/

section OneTask

/-- A memory whose free pages are those of the list. -/
def freePages (lk : Link) : List Nat → Mm
  | [] => ⟨fun _ => 0, 0⟩
  | pa :: l => (kfree lk pa).final (freePages lk l)

theorem freePages_freeList {l : List Nat} (hframes : ∀ a ∈ l, IsFrame lk a) (hnodup : l.Nodup) :
    FreeList lk (freePages lk l) l := by
  induction l with
  | nil => exact ⟨rfl, List.nodup_nil, fun a ha => by cases ha⟩
  | cons pa l ih =>
    obtain ⟨hnot, hrest⟩ := List.nodup_cons.mp hnodup
    have hpa := hframes pa (List.mem_cons_self ..)
    have hfree := ih (fun a ha => hframes a (List.mem_cons_of_mem _ ha)) hrest
    have hrun : Runs (fun _ => False) (kfree lk pa) (freePages lk l)
        (fun _ s' => FreeList lk s' (pa :: l)) :=
      (kfree_runs hfree fun _ => hnot).mono (fun e he => he hpa) fun _ s' h => h.2.1
    unfold freePages
    unfold Runs at hrun
    cases hf : kfree lk pa (freePages lk l) with
    | error e =>
      rw [hf] at hrun
      exact hrun.elim
    | ok r =>
      rw [hf] at hrun
      unfold Prog.final
      rw [hf]
      exact hrun

/-- An application of one page at address 0. -/
def onePageApp : App := ⟨CStr.ofBytes (fun _ => 0) 0 1, 0, PGSIZE, by decide, by decide⟩

/-- Seven free pages, and the page of the saved registers at page 1. -/
def sevenPages : Machine :=
  ⟨freePages pageLink [0x2000, 0x3000, 0x4000, 0x5000, 0x6000, 0x7000, 0x8000], [], fun _ => False⟩

theorem sevenPages_booted : sevenPages.Booted pageLink (· = 0x1000) := by
  refine ⟨rfl, fun _ h => h, _, freePages_freeList (by decide) (by decide), ?_⟩
  rintro a rfl
  exact ⟨⟨by decide, by decide, by decide⟩, by decide⟩

/-- What `loadTask` leaves of the seven pages. -/
def oneTaskMm : Mm := (loadTask pageLink 0x1000 onePageApp).final sevenPages.mm

theorem loadTask_returns : (loadTask pageLink 0x1000 onePageApp).returns sevenPages.mm = true := by
  have hok := sevenPages_booted.ok
  obtain ⟨l, hs⟩ := hok.spaces
  have hidle : sevenPages.Idle 0x1000 := fun t ht => by cases ht
  have hl : l = [0x2000, 0x3000, 0x4000, 0x5000, 0x6000, 0x7000, 0x8000] :=
    hs.free.unique (freePages_freeList (by decide) (by decide))
  have henough : ¬ l.length < loadPagesNeeded onePageApp := by
    rw [hl]
    decide
  obtain ⟨r, mm, hf, _⟩ := (loadTask_runs hs (hok.idle_kept rfl hidle) onePageApp).exists_ok
    fun _ => henough
  exact Prog.returns_of_ok hf

/-- An address space is built of the seven pages. -/
theorem taking_down_frees_what_building_took_seven_pages : ∃ root sz,
    Runs (fun _ => False) (proc_freepagetable pageLink root sz) oneTaskMm fun _ mm =>
      ∀ a, IsFree pageLink mm a ↔ IsFree pageLink oneTaskMm a ∨
        (IsFree pageLink sevenPages.mm a ∧ ¬ IsFree pageLink oneTaskMm a) := by
  obtain ⟨⟨root, sz⟩, h⟩ := Prog.returns_iff.mp loadTask_returns
  have hstep := @Machine.Step.load pageLink (· = 0x1000) _ _ _ _ _ onePageApp rfl
    (fun t ht => by cases ht) h
  have hrun := (taking_down_frees_what_building_took sevenPages_booted
    (Relation.ReflTransGen.single hstep)).2.1 _ (List.mem_cons_self ..)
  exact ⟨root, sz, hrun.2⟩

/-- No free page. -/
def noPages : Machine := ⟨freePages pageLink [], [], fun _ => False⟩

theorem noPages_booted : noPages.Booted pageLink (· = 0x1000) := by
  refine ⟨rfl, fun _ h => h, [], freePages_freeList (by decide) (by decide), ?_⟩
  rintro a rfl
  exact ⟨⟨by decide, by decide, by decide⟩, by decide⟩

/-- Without a free page, building panics. -/
theorem building_panics_without_a_page :
    ¬ ∀ (lk : Link) (T : Nat → Prop) (m₀ m : Machine), m₀.Booted lk T →
      Relation.ReflTransGen (Machine.Step lk T) m₀ m → ∀ tf, T tf → m.Idle tf → ∀ app,
        Runs (fun _ => False) (loadTask lk tf app) m.mm fun _ _ => True := by
  intro hall
  have h := hall pageLink (· = 0x1000) noPages noPages noPages_booted
    Relation.ReflTransGen.refl 0x1000 rfl (fun t ht => by cases ht) onePageApp
  exact h

end OneTask

end ThuKernel
