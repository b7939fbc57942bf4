-- The page table of the kernel, which vm.c makes at boot: the devices, the text
-- and the memory behind it at their own addresses, and the trampoline at the top.
import ThuKernel.Kernel.RoundTrip

namespace ThuKernel

def VIRTIO0 : Nat := 0x10001000
def PLIC : Nat := 0x0c000000

def kvmmap (kpgtbl va pa sz perm : Nat) : Prog Mm Unit := do
  let r ← mappages kpgtbl va sz pa perm
  Prog.when (r ≠ 0) (Prog.panic "kvmmap")

/-- With no page for it, the table is at the null pointer. -/
def kvmmake (lk : Link) (e_text : Nat) : Prog Mm Nat := do
  let kpgtbl ← kalloc
  if kpgtbl = 0 then Prog.fault "null pointer"
  else do
    memset kpgtbl 0 PGSIZE
    -- virtio mmio disk interface
    kvmmap kpgtbl VIRTIO0 VIRTIO0 PGSIZE (PTE_R ||| PTE_W)
    -- PLIC
    kvmmap kpgtbl PLIC PLIC 0x400000 (PTE_R ||| PTE_W)
    -- map kernel text executable and read-only.
    kvmmap kpgtbl KERNBASE KERNBASE (e_text - KERNBASE) (PTE_R ||| PTE_X)
    -- map kernel data and the physical RAM we'll make use of.
    kvmmap kpgtbl e_text e_text (PHYSTOP - e_text) (PTE_R ||| PTE_W)
    kvmmap kpgtbl TRAMPOLINE lk.trampoline PGSIZE (PTE_R ||| PTE_X)
    pure kpgtbl

/-- What kernel.ld says of the text: it comes first, has the trampoline page, and
ends at a page. -/
structure TextEnd (lk : Link) (e_text : Nat) : Prop where
  aligned : e_text % PGSIZE = 0
  first : KERNBASE ≤ lk.trampoline
  trampoline : lk.trampoline < e_text
  inside : e_text ≤ lk.ekernel
  memory : lk.ekernel < PHYSTOP

/-- The pages that the kernel may write to: the devices, and all memory behind
the text. -/
def Writable (e_text q : Nat) : Prop :=
  q = VIRTIO0 / PGSIZE ∨ (PLIC / PGSIZE ≤ q ∧ q < PLIC / PGSIZE + 1024) ∨
    (e_text / PGSIZE ≤ q ∧ q < PHYSTOP / PGSIZE)

instance (e_text q : Nat) : Decidable (Writable e_text q) := by
  unfold Writable
  infer_instance

/-- The entry of a page number in the table of the kernel. -/
def kernelPte (lk : Link) (e_text q : Nat) : Nat :=
  if Writable e_text q then leafPte (q * PGSIZE) (PTE_R ||| PTE_W)
  else if KERNBASE / PGSIZE ≤ q ∧ q < e_text / PGSIZE then leafPte (q * PGSIZE) (PTE_R ||| PTE_X)
  else if q = trampolinePage then leafPte lk.trampoline (PTE_R ||| PTE_X)
  else 0

/-- The tables that `n` pages from `v` on may need, all in one gigabyte. -/
def rangeTables (v n : Nat) : Nat := 2 + ((v + n - 1) / 512 - v / 512)

/-- The pages that `kvmmake` may take, its first table among them. -/
def kvmTables : Nat := 74

variable {lk : Link} {E : Stop → Prop} {s s' : Mm} {root v n pa perm e_text : Nat} {l l' : List Nat}

/-! ## A range of pages -/

/-- With a page for each table, pages that are not mapped yet are all mapped. -/
theorem mappagesLoop_all (hperm : perm < 2 ^ 64) (fuel v n pa : Nat) (hfuel : n ≤ fuel) (hn : 0 < n)
    (hend : (v + n) * PGSIZE ≤ MAXVA) (hblock : (v + n - 1) / 512 / 512 = v / 512 / 512)
    (hs : Space lk s root l) (hnew : ∀ i < n, ¬ IsMapped s.mem root (v + i))
    (hlen : missing s.mem root v 2 + ((v + n - 1) / 512 - v / 512) ≤ l.length) :
    Runs E (mappagesLoop root perm ((v + n - 1) * PGSIZE) fuel (v * PGSIZE) (pa % 2 ^ 64)) s
    (fun r s' => r = 0 ∧
      ∃ l', Space lk s' root l' ∧ l.length ≤
      l'.length + (missing s.mem root v 2 + ((v + n - 1) / 512 - v / 512))) := by
  induction fuel generalizing s l v n pa with
  | zero => omega
  | succ fuel ih =>
    have hmax := MAXVA_eq
    have hva : v * PGSIZE < MAXVA := by
      rw [PGSIZE_eq] at *
      omega
    have hvpn : v * PGSIZE / PGSIZE = v := Nat.mul_div_cancel v (by decide)
    have hlt := vpn_lt hva
    rw [hvpn] at hlt
    unfold mappagesLoop
    apply (walk_runs hva hs).bind
    rintro r s₁ ⟨l₁, hs₁, _, hsame, hr, hnone, hcount, _⟩
    rw [hvpn] at hr hnone hcount
    cases r with
    | none =>
      have := (hnone rfl).2
      omega
    | some pte =>
      have hfirst := hnew 0 hn
      rw [Nat.add_zero] at hfirst
      unfold IsMapped at hfirst
      have hw : PA2PTE (pa % 2 ^ 64) ||| perm ||| PTE_V = leafPte pa perm := rfl
      dsimp only
      rw [Runs.bind_iff, Runs.get_iff, get64_slot hr.symm, hsame v hlt, if_neg hfirst,
        Runs.bind_iff, storePte, Runs.modify_iff, hw]
      obtain ⟨hs₂, _, _, hpte₂⟩ := hs₁.store hlt hr.symm (leafPte_lt pa hperm)
      have hmem₂ : ({ s₁ with mem := s₁.mem.put64 pte (leafPte pa perm) } : Mm).mem =
          s₁.mem.put64 pte (leafPte pa perm) := rfl
      generalize ({ s₁ with mem := s₁.mem.put64 pte (leafPte pa perm) } : Mm) = s₂ at hs₂ hmem₂ ⊢
      rw [← hmem₂] at hpte₂
      split
      · rw [Runs.pure_iff]
        refine ⟨rfl, l₁, hs₂, ?_⟩
        omega
      · rename_i hmore
        have hn2 : 1 < n := by
          rw [PGSIZE_eq] at hmore
          by_contra hc
          apply hmore
          rw [show v + n - 1 = v by omega]
        -- The next page is in the same block, or one table is missing at most.
        have hthis : IsMapped s₂.mem root v := by
          unfold IsMapped
          rw [hpte₂ v hlt, if_pos rfl]
          exact leafPte_valid pa perm
        have hnext : missing s₂.mem root (v + 1) 2 ≤ (v + 1) / 512 - v / 512 := by
          by_cases hsame : (v + 1) / 512 = v / 512
          · rw [missing_of_block hthis hsame]
            exact Nat.zero_le _
          · have := missing_of_upper hthis (v := v + 1) (by omega)
            omega
        have hlast : v + 1 + (n - 1) - 1 = v + n - 1 := by omega
        have hih := ih (v + 1) (n - 1) (pa % 2 ^ 64 + PGSIZE) (by omega) (by omega)
          (by rwa [show v + 1 + (n - 1) = v + n by omega]) (by rw [hlast]; omega) hs₂
          (fun i hi => ?_) (by rw [hlast]; omega)
        · rw [hlast, Nat.add_mul, Nat.one_mul] at hih
          apply hih.imp
          rintro r s₃ ⟨rfl, l₃, hs₃, hcount₃⟩
          refine ⟨rfl, l₃, hs₃, ?_⟩
          omega
        · have hnot := hnew (i + 1) (by omega)
          have hq : v + 1 + i < 512 ^ 3 := by
            rw [PGSIZE_eq] at hend
            omega
          unfold IsMapped at hnot ⊢
          rwa [hpte₂ _ hq, if_neg (by omega), hsame _ hq, show v + 1 + i = v + (i + 1) by omega]

/-- One range of the table of the kernel. -/
theorem kvmmap_runs (hs : Space lk s root l) (hperm : perm < 1024) (hpa : pa < 2 ^ 64) (hn : 0 < n)
    (hend : v + n ≤ 2 ^ 26) (hblock : (v + n - 1) / 512 / 512 = v / 512 / 512)
    (hnew : ∀ i < n, ¬ IsMapped s.mem root (v + i)) (hlen : rangeTables v n ≤ l.length) :
    Runs E (kvmmap root (v * PGSIZE) pa (n * PGSIZE) perm) s (fun _ s' =>
      ∃ l', Space lk s' root l' ∧
      l.length ≤ l'.length + rangeTables v n ∧ Grows root s s' l l' ∧
      ∀ q < 512 ^ 3, pteAt s'.mem root q =
        if v ≤ q ∧ q < v + n then leafPte (pa + (q - v) * PGSIZE) perm else pteAt s.mem
          root q) := by
  have hmax := MAXVA_eq
  have hmiss := missing_le s.mem root v 2
  have hbig : perm < 2 ^ 64 := hperm.trans (by decide)
  have hstop : PGROUNDDOWN ((v * PGSIZE + n * PGSIZE + 2 ^ 64 - 1) % 2 ^ 64) =
      (v + n - 1) * PGSIZE := by
    unfold PGROUNDDOWN
    simp only [PGSIZE_eq]
    omega
  have hstart : PGROUNDDOWN (v * PGSIZE) = v * PGSIZE := by
    unfold PGROUNDDOWN
    rw [Nat.mul_div_cancel v (by decide)]
  have hpages : (v * PGSIZE + n * PGSIZE - 1) / PGSIZE - v * PGSIZE / PGSIZE + 1 = n := by
    simp only [PGSIZE_eq]
    omega
  have hsize : 0 < n * PGSIZE := Nat.mul_pos hn (by decide)
  have htop : v * PGSIZE + n * PGSIZE ≤ MAXVA := by
    simp only [PGSIZE_eq]
    omega
  have hmaps := @mappages_runs lk E s root pa perm l (v * PGSIZE) (n * PGSIZE) hbig
    hpa hsize htop hs
  unfold rangeTables at hlen ⊢
  have hall := @mappagesLoop_all lk E s root perm l hbig (MAXVA / PGSIZE + 1) v n pa
    (by rw [hmax, PGSIZE_eq]; omega) hn (by rwa [Nat.add_mul]) hblock hs hnew (by omega)
  unfold kvmmap mappages at *
  rw [hstop, hstart, hpages] at hmaps
  rw [Nat.mod_eq_of_lt hpa] at hall
  rw [hstop, hstart, Runs.bind_iff]
  apply (hmaps.and hall).mono (fun _ he => he.1)
  rintro r s₁ ⟨⟨l₁, m, hs₁, h⟩, rfl, l₂, hs₂, hcount⟩
  obtain rfl := hs₁.free.unique hs₂.free
  rw [Prog.when, if_neg (by decide), Runs.pure_iff]
  refine ⟨l₁, hs₁, by omega, h.grows, fun q hq => ?_⟩
  have hm : m = n := by
    rcases h.result with ⟨_, hm⟩ | ⟨hc, _⟩
    · exact hm
    · cases hc
  rw [h.pte q hq, Nat.mul_div_cancel v (by decide), hm]

/-! ## The table -/

/-- The table while `kvmmake` fills it: its pages come from the free ones `l₀`,
at most `m` of them, and no other page is touched. -/
structure Filling (lk : Link) (s₀ : Mm) (l₀ : List Nat) (root : Nat) (f : Nat → Nat) (m : Nat)
    (s : Mm) (l : List Nat) : Prop where
  space : Space lk s root l
  pages : ∀ a, TableOf s.mem root a ∨ a ∈ l ↔ a ∈ l₀
  count : l₀.length ≤ l.length + m
  same : SameOn PGSIZE (· ∉ l₀) s₀.mem s.mem
  ptes : ∀ q < 512 ^ 3, pteAt s.mem root q = f q

theorem Filling.kvmmap_runs {s₀ : Mm} {l₀ : List Nat} {f : Nat → Nat} {m : Nat}
    (h : Filling lk s₀ l₀ root f m s l) (hperm : perm < 1024) (hpa : pa < 2 ^ 64) (hn : 0 < n)
    (hend : v + n ≤ 2 ^ 26) (hblock : (v + n - 1) / 512 / 512 = v / 512 / 512)
    (hnew : ∀ q, v ≤ q → q < v + n → f q = 0) (hlen : m + rangeTables v n ≤ l₀.length) :
    Runs E (kvmmap root (v * PGSIZE) pa (n * PGSIZE) perm) s (fun _ s' =>
      ∃ l', Filling lk s₀ l₀ root
      (fun q => if v ≤ q ∧ q < v + n then leafPte (pa + (q - v) * PGSIZE) perm else f q)
      (m + rangeTables v n) s' l') := by
  have hcount := h.count
  have hun : ∀ i < n, ¬ IsMapped s.mem root (v + i) := by
    intro i hi
    unfold IsMapped
    rw [h.ptes _ (by omega), hnew _ (by omega) (by omega), Nat.zero_testBit]
    decide
  apply (ThuKernel.kvmmap_runs h.space hperm hpa hn hend hblock hun (by omega)).imp
  rintro _ s' ⟨l', hs', hcount', hgrow, hptes⟩
  obtain ⟨new, hl, htables⟩ := hgrow.taken
  have hpages : ∀ a, TableOf s'.mem root a ∨ a ∈ l' ↔ a ∈ l₀ := by
    intro a
    rw [← h.pages, htables, hl, List.mem_append, or_assoc]
  refine ⟨l', hs',
    hpages, by omega, h.same.trans (hgrow.same.mono fun a ha hc => ?_), fun q hq => ?_⟩
  · exact ha ((hpages a).mp (Or.inl hc))
  · rw [hptes q hq, h.ptes q hq]

/-- The ranges that `kvmmake` maps, one on top of the other. -/
theorem kernelPte_eq {e : Nat} (h1 : 524800 < e) (h2 : e ≤ 557056) (q : Nat) :
    kernelPte lk (e * PGSIZE) q =
    if trampolinePage ≤ q ∧ q < trampolinePage + 1 then
      leafPte (lk.trampoline + (q - trampolinePage) * PGSIZE) (PTE_R ||| PTE_X)
    else if e ≤ q ∧ q < e + (557056 - e) then leafPte (e * PGSIZE + (q - e) * PGSIZE)
      (PTE_R ||| PTE_W)
    else if 524800 ≤ q ∧ q < 524800 + (e - 524800) then leafPte (KERNBASE + (q - 524800) * PGSIZE)
      (PTE_R ||| PTE_X)
    else if 49152 ≤ q ∧ q < 49152 + 1024 then leafPte (PLIC + (q - 49152) * PGSIZE)
      (PTE_R ||| PTE_W)
    else if 65537 ≤ q ∧ q < 65537 + 1 then leafPte (VIRTIO0 + (q - 65537) * PGSIZE)
      (PTE_R ||| PTE_W)
    else 0 := by
  have hdiv : e * PGSIZE / PGSIZE = e := Nat.mul_div_cancel e (by decide)
  have htop : trampolinePage = 2 ^ 26 - 1 := rfl
  have hvirtio : VIRTIO0 / PGSIZE = 65537 := by decide
  have hplic : PLIC / PGSIZE = 49152 := by decide
  have hbase : KERNBASE / PGSIZE = 524800 := by decide
  have hstop : PHYSTOP / PGSIZE = 557056 := by decide
  have hb : KERNBASE = 524800 * 4096 := by decide
  have hp : PLIC = 49152 * 4096 := by decide
  have hv : VIRTIO0 = 65537 * 4096 := by decide
  have hw : Writable (e * PGSIZE) q ↔ q = 65537 ∨ (49152 ≤ q ∧ q < 49152 + 1024) ∨
      (e ≤ q ∧ q < 557056) := by
    unfold Writable
    rw [hdiv, hvirtio, hplic, hstop]
  unfold kernelPte
  simp only [hw]
  rw [hdiv, hbase, hb, hp, hv, PGSIZE_eq]
  by_cases ht : q = trampolinePage
  · rw [if_neg (by omega), if_neg (by omega), if_pos ht, if_pos (by omega), ht, Nat.sub_self,
      Nat.zero_mul, Nat.add_zero]
  rw [if_neg (by omega : ¬ (trampolinePage ≤ q ∧ q < trampolinePage + 1)), if_neg ht]
  by_cases hram : e ≤ q ∧ q < 557056
  · rw [if_pos (Or.inr (Or.inr hram)), if_pos (by omega), ← Nat.add_mul, Nat.add_sub_of_le hram.1]
  rw [if_neg (by omega : ¬ (e ≤ q ∧ q < e + (557056 - e)))]
  by_cases htext : 524800 ≤ q ∧ q < e
  · rw [if_neg (by omega), if_pos htext, if_pos (by omega), ← Nat.add_mul,
      Nat.add_sub_of_le htext.1]
  rw [if_neg htext, if_neg (by omega : ¬ (524800 ≤ q ∧ q < 524800 + (e - 524800)))]
  by_cases hdev : 49152 ≤ q ∧ q < 49152 + 1024
  · rw [if_pos (Or.inr (Or.inl hdev)), if_pos hdev, ← Nat.add_mul, Nat.add_sub_of_le hdev.1]
  rw [if_neg hdev]
  by_cases hdisk : q = 65537
  · rw [if_pos (Or.inl hdisk), if_pos (by omega), ← Nat.add_mul, Nat.add_sub_of_le (by omega)]
  rw [if_neg (by omega), if_neg (by omega)]

/-- The first table is a page of zeros. -/
theorem Filling.start {s₁ : Mm} (hfree : FreeList lk s (root :: l)) (hfree₁ : FreeList lk s₁ l)
    (hsame : SameOn PGSIZE (· ≠ root) s.mem s₁.mem) :
    Filling lk s (root :: l) root (fun _ => 0) 1 { s₁ with mem := s₁.mem.fill root PGSIZE 0 }
    l := by
  have hframe := hfree.frames root (List.mem_cons_self ..)
  have hnew := (List.nodup_cons.mp hfree.nodup).1
  have hfill : SameOn PGSIZE (· ≠ root) s₁.mem (s₁.mem.fill root PGSIZE 0) :=
    SameOn.fill hframe.aligned (Nat.le_refl _)
  have hfree₂ : FreeList lk { s₁ with mem := s₁.mem.fill root PGSIZE 0 } l := by
    refine hfree₁.same (fun a ha => ?_) hfill rfl
    rintro rfl
    exact hnew ha
  have hempty : Empty (s₁.mem.fill root PGSIZE 0) root := by
    refine ⟨hframe.isPage, fun i hi => get64_fill_zero ?_⟩
    simp only [PGSIZE_eq]
    omega
  refine ⟨⟨hfree₂, hempty.pageTable, fun a ha hta => ?_⟩, fun a => ?_, Nat.le_refl _,
    (hsame.trans hfill).mono fun a ha => ?_, fun q _ => hempty.pteAt q⟩
  · rw [hempty.tableOf] at hta
    exact hnew (hta ▸ ha)
  · rw [hempty.tableOf, List.mem_cons]
  · rintro rfl
    exact ha (List.mem_cons_self ..)

theorem kvmmake_runs (ht : TextEnd lk e_text) (hfree : FreeList lk s l)
    (hlen : kvmTables ≤ l.length) :
    Runs E (kvmmake lk e_text) s (fun root s' => root ≠ 0 ∧
      ∃ l', Filling lk s l root (kernelPte lk e_text) kvmTables s' l') := by
  have h74 : kvmTables = 74 := rfl
  have htop : trampolinePage = 2 ^ 26 - 1 := rfl
  obtain ⟨e, rfl⟩ : ∃ e, e_text = e * PGSIZE :=
    ⟨_, (Nat.div_mul_cancel (Nat.dvd_of_mod_eq_zero ht.aligned)).symm⟩
  have he : 524800 < e ∧ e < 557056 := by
    have h1 := ht.first
    have h2 := ht.trampoline
    have h3 := ht.inside
    have h4 := ht.memory
    unfold KERNBASE at h1
    unfold PHYSTOP at h4
    rw [PGSIZE_eq] at *
    omega
  have hvirtio : VIRTIO0 = 65537 * PGSIZE := by decide
  have hplic : PLIC = 49152 * PGSIZE := by decide
  have hbase : KERNBASE = 524800 * PGSIZE := by decide
  have hmb : 0x400000 = 1024 * PGSIZE := by decide
  have htext : e * PGSIZE - KERNBASE = (e - 524800) * PGSIZE := by
    rw [hbase, Nat.sub_mul]
  have hram : PHYSTOP - e * PGSIZE = (557056 - e) * PGSIZE := by
    rw [Nat.sub_mul]
    rfl
  unfold kvmmake
  apply (kalloc_runs hfree).bind
  rintro root s₁ (⟨rfl, _⟩ | ⟨l₁, rfl, hfree₁, hsame₁⟩)
  · rw [List.length_nil] at hlen
    omega
  have hframe := hfree.frames root (List.mem_cons_self ..)
  rw [if_neg hframe.ne_zero, Runs.bind_iff, memset, Runs.modify_iff]
  have h₀ := Filling.start hfree hfree₁ hsame₁
  rw [List.length_cons] at hlen
  rw [hvirtio, hplic, htext, hbase, hram, hmb, trampoline_page]
  have hone : (1 * PGSIZE) = PGSIZE := Nat.one_mul _
  have h1 := @Filling.kvmmap_runs lk E _ root 65537 1 (65537 * PGSIZE) (PTE_R ||| PTE_W) _ _ _ _ _
    h₀ (by decide) (by decide)
    (by decide) (by decide) (by decide) (fun _ _ _ => rfl)
    (by unfold rangeTables; rw [List.length_cons]; omega)
  rw [hone] at h1
  apply h1.bind
  rintro _ s₂ ⟨l₂, h₂⟩
  apply (h₂.kvmmap_runs (v := 49152) (n := 1024) (by decide) (by decide) (by decide) (by decide)
    (by decide) 
    (fun q h1 h2 => by rw [if_neg (by omega)])
    (by unfold rangeTables; rw [List.length_cons]; omega)).bind
  rintro _ s₃ ⟨l₃, h₃⟩
  apply (h₃.kvmmap_runs (v := 524800) (n := e - 524800) (by decide) (by decide) (by omega)
    (by omega) (by omega)  (fun q h1 h2 => by rw [if_neg (by omega), if_neg (by omega)])
    (by unfold rangeTables; rw [List.length_cons]; omega)).bind
  rintro _ s₄ ⟨l₄, h₄⟩
  apply (h₄.kvmmap_runs (v := e) (n := 557056 - e) (by decide) (by rw [PGSIZE_eq]; omega) (by omega)
    (by omega) (by omega)
    (fun q h1 h2 => by rw [if_neg (by omega), if_neg (by omega), if_neg (by omega)])
    (by unfold rangeTables; rw [List.length_cons]; omega)).bind
  rintro _ s₅ ⟨l₅, h₅⟩
  have hlast := @Filling.kvmmap_runs lk E _ root trampolinePage 1 lk.trampoline (PTE_R ||| PTE_X) _
    _ _ _ _ h₅ (by decide)
    (by have := ht.trampoline; rw [PGSIZE_eq] at this; omega) (by decide) (by decide) (by decide)
    (fun q h1 h2 => by rw [if_neg (by omega), if_neg (by omega), if_neg (by omega),
    if_neg (by omega)])
    (by unfold rangeTables; rw [List.length_cons]; omega)
  rw [hone] at hlast
  apply hlast.bind
  rintro _ s₆ ⟨l₆, h₆⟩
  rw [Runs.pure_iff]
  refine ⟨hframe.ne_zero, l₆, h₆.space, h₆.pages, ?_, h₆.same, fun q hq => ?_⟩
  · have := h₆.count
    unfold rangeTables at this
    omega
  · rw [h₆.ptes q hq, kernelPte_eq he.1 (by omega), hbase, hplic, hvirtio]

/-! ## What the kernel sees -/

/-- Where a kernel address leads, and the flags of its page. -/
def kernelMap (lk : Link) (e_text va : Nat) : Option (Nat × Nat) :=
  if Writable e_text (va / PGSIZE) then some (PGROUNDDOWN va, PTE_R ||| PTE_W ||| PTE_V)
  else if KERNBASE / PGSIZE ≤ va / PGSIZE ∧ va / PGSIZE < e_text / PGSIZE then some (PGROUNDDOWN va,
    PTE_R ||| PTE_X ||| PTE_V)
  else if va / PGSIZE = trampolinePage then some (lk.trampoline, PTE_R ||| PTE_X ||| PTE_V)
  else none

theorem kernelMap_eq {mem : Bytes} {va : Nat} (hva : va < MAXVA) (hlt : lk.trampoline < 2 ^ 64)
    (h : pteAt mem root (va / PGSIZE) = kernelPte lk e_text (va / PGSIZE)) :
    translate mem root va = kernelMap lk e_text va := by
  have hmax := MAXVA_eq
  have hleaf : ∀ {pa perm : Nat}, pa % PGSIZE = 0 → pa < 2 ^ 64 → perm < 1024 →
      pteAt mem root (va / PGSIZE) = leafPte pa perm →
      translate mem root va = some (pa, perm ||| PTE_V) := by
    intro pa perm hpage hpa hperm hpte
    obtain ⟨hfound, hflags⟩ := leafPte_decode hpage hperm
    rw [translate_eq, hpte, if_pos (leafPte_valid pa perm), hfound, hflags, Nat.mod_eq_of_lt hpa]
  have hdown : va / PGSIZE * PGSIZE % PGSIZE = 0 := Nat.mul_mod_left ..
  have hsmall : va / PGSIZE * PGSIZE < 2 ^ 64 := (Nat.div_mul_le_self ..).trans_lt (by omega)
  unfold kernelPte at h
  unfold kernelMap PGROUNDDOWN
  split
  · rename_i hw
    rw [if_pos hw] at h
    exact hleaf hdown hsmall (by decide) h
  rename_i hw
  rw [if_neg hw] at h
  split
  · rename_i htext
    rw [if_pos htext] at h
    exact hleaf hdown hsmall (by decide) h
  rename_i htext
  rw [if_neg htext] at h
  split
  · rename_i htop
    rw [if_pos htop] at h
    exact hleaf lk.aligned hlt (by decide) h
  · rename_i htop
    rw [if_neg htop] at h
    rw [translate_eq, h, Nat.zero_testBit, if_neg (by decide)]

theorem Filling.kernelMap (ht : TextEnd lk e_text) {l₀ : List Nat} {m : Nat} {s₀ : Mm}
    (h : Filling lk s₀ l₀ root (kernelPte lk e_text) m s l) {va : Nat} (hva : va < MAXVA) :
    translate s.mem root va = ThuKernel.kernelMap lk e_text va := by
  have h1 := ht.trampoline
  have h2 := ht.inside
  have h3 := ht.memory
  unfold PHYSTOP at h3
  exact kernelMap_eq hva (by omega) (h.ptes _ (vpn_lt hva))

/-- No page is for both data and code, and no address leads to the text to write
it. -/
theorem kernelMap_write (ht : TextEnd lk e_text) {va pa flags : Nat}
    (h : kernelMap lk e_text va = some (pa, flags))
    (hw : flags.testBit 2 = true) : flags.testBit 3 = false ∧ (pa < KERNBASE ∨ e_text ≤ pa) := by
  have hrx : (PTE_R ||| PTE_X ||| PTE_V).testBit 2 = false := by decide
  have hb : KERNBASE = 524800 * 4096 := by decide
  have hp : PLIC / PGSIZE = 49152 := by decide
  have hv : VIRTIO0 / PGSIZE = 65537 := by decide
  have haligned := ht.aligned
  unfold kernelMap at h
  split at h
  · rename_i hin
    obtain ⟨rfl, rfl⟩ := Prod.mk.injEq .. ▸ Option.some.inj h
    refine ⟨by decide, ?_⟩
    unfold Writable at hin
    rw [hp, hv] at hin
    unfold PGROUNDDOWN
    rw [PGSIZE_eq] at *
    omega
  · split at h
    · obtain ⟨_, rfl⟩ := Prod.mk.injEq .. ▸ Option.some.inj h
      rw [hrx] at hw
      cases hw
    · split at h
      · obtain ⟨_, rfl⟩ := Prod.mk.injEq .. ▸ Option.some.inj h
        rw [hrx] at hw
        cases hw
      · cases h

/-- A page of the allocator is where its address says. -/
theorem kernelMap_frame (ht : TextEnd lk e_text) {a o : Nat} (ha : IsFrame lk a) (ho : o < PGSIZE) :
    kernelMap lk e_text (a + o) = some (a, PTE_R ||| PTE_W ||| PTE_V) := by
  have h1 := ha.aligned
  have h2 := ha.above
  have h3 := ha.below
  have h4 := ht.inside
  have hstop : PHYSTOP = 557056 * 4096 := by decide
  rw [PGSIZE_eq] at h1 ho
  have hw : Writable e_text ((a + o) / PGSIZE) := by
    refine Or.inr (Or.inr ?_)
    rw [hstop, PGSIZE_eq]
    omega
  have hdown : PGROUNDDOWN (a + o) = a := by
    unfold PGROUNDDOWN
    rw [PGSIZE_eq]
    omega
  unfold kernelMap
  rw [if_pos hw, hdown]

/-- With a page for each table, `kvmmake` returns a table that maps the devices, the
text and all memory behind it to themselves, and the trampoline. The text is never
for writing, and data never for running. Each page that `kalloc` may hand out is at its own
address. Only free pages are used. -/
theorem the_kernel_maps_memory_to_itself (ht : TextEnd lk e_text) (hfree : FreeList lk s l)
    (hlen : kvmTables ≤ l.length) :
    ∃ root s', kvmmake lk e_text s = .ok (root, s') ∧
    (∀ va < MAXVA, translate s'.mem root va = kernelMap lk e_text va) ∧
      (∀ va < MAXVA, ∀ pa flags, translate s'.mem root va = some (pa, flags) →
      flags.testBit 2 = true →
        flags.testBit 3 = false ∧ (pa < KERNBASE ∨ e_text ≤ pa)) ∧
      (∀ a, IsFrame lk a → ∀ o < PGSIZE, translate s'.mem root (a + o) =
      some (a, PTE_R ||| PTE_W ||| PTE_V)) ∧
      (∃ l', FreeList lk s' l' ∧ l.length ≤ l'.length + kvmTables ∧ ∀ a, TableOf s'.mem root a ∨
      a ∈ l' ↔ a ∈ l) ∧
      SameOn PGSIZE (· ∉ l) s.mem s'.mem := by
  obtain ⟨root, s', hok, _, l', h⟩ :=
    (kvmmake_runs (E := fun _ => False) ht hfree hlen).exists_ok fun _ hc => hc
  refine ⟨root, s', hok, fun va => h.kernelMap ht, fun va hva pa flags hfound => ?_,
    fun a ha o ho => ?_, ⟨l', h.space.free, h.count, h.pages⟩, h.same⟩
  · rw [h.kernelMap ht hva] at hfound
    exact kernelMap_write ht hfound
  · have hbelow := ha.below
    have hva : a + o < MAXVA := by
      rw [MAXVA_eq]
      rw [PGSIZE_eq] at ho
      unfold PHYSTOP at hbelow
      omega
    rw [h.kernelMap ht hva, kernelMap_frame ht ha ho]

section Small

theorem kernbase_aligned : KERNBASE % PGSIZE = 0 := by decide

theorem smallLink_inside : KERNBASE < KERNBASE + 0x3000 := by decide

/-- A kernel of three pages, the trampoline in the first. -/
def smallLink : Link := ⟨KERNBASE + 0x3000, KERNBASE, [], kernbase_aligned, smallLink_inside⟩

theorem smallLink_text : TextEnd smallLink (KERNBASE + 0x1000) :=
  ⟨by decide, by decide, by decide, by decide, by decide⟩

def eightyPages : List Nat := (List.range 80).map fun i => KERNBASE + 0x3000 + i * 0x1000

theorem eightyPages_free : FreeList smallLink (freePages smallLink eightyPages) eightyPages := by
  refine freePages_freeList (fun a ha => ?_) (by decide)
  obtain ⟨i, hi, rfl⟩ := List.mem_map.mp ha
  have hlt := List.mem_range.mp hi
  have hbase : KERNBASE = 0x80200000 := rfl
  have hstop : PHYSTOP = 0x88000000 := by decide
  have hend : smallLink.ekernel = KERNBASE + 0x3000 := rfl
  refine ⟨?_, ?_, ?_⟩
  · rw [PGSIZE_eq]
    omega
  · omega
  · omega

theorem the_kernel_maps_memory_to_itself_small : ∃ root s',
    kvmmake smallLink (KERNBASE + 0x1000) (freePages smallLink eightyPages) = .ok (root, s') ∧
      translate s'.mem root (KERNBASE + 0x3000) = some (KERNBASE + 0x3000,
        PTE_R ||| PTE_W ||| PTE_V) := by
  obtain ⟨root, s', hok, _, _, hframes, _⟩ :=
    the_kernel_maps_memory_to_itself smallLink_text eightyPages_free (by decide)
  exact ⟨root, s', hok, hframes (KERNBASE + 0x3000) ⟨by decide, by decide, by decide⟩ 0 (by decide)⟩

end Small

end ThuKernel
