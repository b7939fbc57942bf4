-- The code between the user and the kernel (trampoline.S) and between two
-- processes (switch.S), and which words it saves and restores.
import ThuKernel.Lib.Asm
import ThuKernel.Vm.Riscv

namespace ThuKernel.Trap

/-! ## struct trapframe and struct context -/

/-- Where `struct trapframe` has the registers of the user. -/
def trapframeRegs : List (Reg × Nat) :=
  [(.ra, 40), (.sp, 48), (.gp, 56), (.tp, 64), (.t0, 72), (.t1, 80), (.t2, 88),
    (.s0, 96), (.s1, 104),
    (.a0, 112), (.a1, 120), (.a2, 128), (.a3, 136), (.a4, 144), (.a5, 152), (.a6, 160),
    (.a7, 168), (.s2, 176),
    (.s3, 184), (.s4, 192), (.s5, 200), (.s6, 208), (.s7, 216), (.s8, 224), (.s9, 232), (.s10, 240),
    (.s11, 248), (.t3, 256), (.t4, 264), (.t5, 272), (.t6, 280)]

/-- The other fields of `struct trapframe`. -/
def KERNEL_SATP : Nat := 0
def KERNEL_SP : Nat := 8
def KERNEL_TRAP : Nat := 16
def EPC : Nat := 24
def KERNEL_HARTID : Nat := 32

/-- Where `struct context` has the registers that a function keeps. -/
def contextRegs : List (Reg × Nat) :=
  [(.ra, 0), (.sp, 8), (.s0, 16), (.s1, 24), (.s2, 32), (.s3, 40), (.s4, 48), (.s5, 56),
    (.s6, 64), (.s7, 72), (.s8, 80), (.s9, 88), (.s10, 96), (.s11, 104)]

/-! ## The code -/

def uservec : List Instr :=
  [.csrrw .a0 .sscratch .a0, .sd .ra 40 .a0, .sd .sp 48 .a0, .sd .gp 56 .a0, .sd .tp 64 .a0,
    .sd .t0 72 .a0,
    .sd .t1 80 .a0, .sd .t2 88 .a0, .sd .s0 96 .a0, .sd .s1 104 .a0, .sd .a1 120 .a0,
    .sd .a2 128 .a0,
    .sd .a3 136 .a0, .sd .a4 144 .a0, .sd .a5 152 .a0, .sd .a6 160 .a0, .sd .a7 168 .a0,
    .sd .s2 176 .a0,
    .sd .s3 184 .a0, .sd .s4 192 .a0, .sd .s5 200 .a0, .sd .s6 208 .a0, .sd .s7 216 .a0,
    .sd .s8 224 .a0,
    .sd .s9 232 .a0, .sd .s10 240 .a0, .sd .s11 248 .a0, .sd .t3 256 .a0, .sd .t4 264 .a0,
    .sd .t5 272 .a0,
    .sd .t6 280 .a0, .csrr .t0 .sscratch, .sd .t0 112 .a0, .csrr .t1 .sepc, .sd .t1 24 .a0,
    .ld .sp 8 .a0,
    .ld .tp 32 .a0, .ld .t0 16 .a0, .ld .t1 0 .a0, .csrw .satp .t1, .sfence_vma, .jr .t0]

def userret : List Instr :=
  [.csrw .satp .a1, .sfence_vma, .ld .t0 112 .a0, .csrw .sscratch .t0, .ld .ra 40 .a0,
    .ld .sp 48 .a0,
    .ld .gp 56 .a0, .ld .tp 64 .a0, .ld .t0 72 .a0, .ld .t1 80 .a0, .ld .t2 88 .a0, .ld .s0 96 .a0,
    .ld .s1 104 .a0, .ld .a1 120 .a0, .ld .a2 128 .a0, .ld .a3 136 .a0, .ld .a4 144 .a0,
    .ld .a5 152 .a0,
    .ld .a6 160 .a0, .ld .a7 168 .a0, .ld .s2 176 .a0, .ld .s3 184 .a0, .ld .s4 192 .a0,
    .ld .s5 200 .a0,
    .ld .s6 208 .a0, .ld .s7 216 .a0, .ld .s8 224 .a0, .ld .s9 232 .a0, .ld .s10 240 .a0,
    .ld .s11 248 .a0,
    .ld .t3 256 .a0, .ld .t4 264 .a0, .ld .t5 272 .a0, .ld .t6 280 .a0,
    .csrrw .a0 .sscratch .a0, .sret]

def swtch : List Instr :=
  [.sd .ra 0 .a0, .sd .sp 8 .a0, .sd .s0 16 .a0, .sd .s1 24 .a0, .sd .s2 32 .a0, .sd .s3 40 .a0,
    .sd .s4 48 .a0,
    .sd .s5 56 .a0, .sd .s6 64 .a0, .sd .s7 72 .a0, .sd .s8 80 .a0, .sd .s9 88 .a0, .sd .s10 96 .a0,
    .sd .s11 104 .a0, .ld .ra 0 .a1, .ld .sp 8 .a1, .ld .s0 16 .a1, .ld .s1 24 .a1, .ld .s2 32 .a1,
    .ld .s3 40 .a1, .ld .s4 48 .a1, .ld .s5 56 .a1, .ld .s6 64 .a1, .ld .s7 72 .a1, .ld .s8 80 .a1,
    .ld .s9 88 .a1, .ld .s10 96 .a1, .ld .s11 104 .a1, .ret]

/-! ## What the code does -/

/-- The registers of the user but for `a0`, which holds the address meanwhile. -/
def savedRegs : List (Reg × Nat) := trapframeRegs.erase (.a0, 112)

/-- What is left when these are saved: `a0` and `sepc`, and the way into the
kernel. -/
def enterKernel : List Instr :=
  [.csrr .t0 .sscratch, .sd .t0 112 .a0, .csrr .t1 .sepc, .sd .t1 EPC .a0, .ld .sp KERNEL_SP .a0,
    .ld .tp KERNEL_HARTID .a0, .ld .t0 KERNEL_TRAP .a0, .ld .t1 KERNEL_SATP .a0, .csrw .satp .t1,
    .sfence_vma, .jr .t0]

theorem uservec_eq : uservec = .csrrw .a0 .sscratch .a0 :: (saves savedRegs .a0 ++ enterKernel) :=
  rfl

theorem userret_eq : userret = .csrw .satp .a1 :: .sfence_vma :: .ld .t0 112 .a0 :: .csrw
    .sscratch .t0 ::
    (loads savedRegs .a0 ++ [.csrrw .a0 .sscratch .a0, .sret]) := rfl

theorem swtch_eq : swtch = saves contextRegs .a0 ++ (loads contextRegs .a1 ++ [.ret]) := rfl

theorem savedRegs_nodup : (savedRegs.map Prod.fst).Nodup ∧ (savedRegs.map Prod.snd).Nodup := by
    decide

theorem contextRegs_nodup : (contextRegs.map Prod.fst).Nodup ∧
    (contextRegs.map Prod.snd).Nodup := by decide

/-- Every register has a place. -/
theorem trapframeRegs_all (r : Reg) : ∃ off, (r, off) ∈ trapframeRegs := by
  have hall : ∀ r, ((trapframeRegs.find? fun x => x.1 == r).map Prod.fst) = some r := by
    intro r
    cases r <;> rfl
  obtain ⟨x, hx, hr⟩ := Option.map_eq_some_iff.mp (hall r)
  refine ⟨x.2, ?_⟩
  rw [← hr]
  exact List.mem_of_find?_eq_some hx

variable {tr : Translation} {m m' : Hart} {pa : Nat} {va : Word}

/-- The 288 bytes of a trap frame are at `pa`, and are mapped at `va`. -/
def FrameAt (tr : Translation) (satp va : Word) (pa : Nat) : Prop :=
  ∀ off < 288, tr satp (va + BitVec.ofNat 64 off) = some (pa + off)

/-- The registers of the user and the place where it stands are in the frame. -/
structure Saved (m : Hart) (regs : Reg → Word) (pc : Word) (pa : Nat) : Prop where
  regs : ∀ x ∈ trapframeRegs, m.mem (pa + x.2) = regs x.1
  epc : m.mem (pa + EPC) = pc

/-- `uservec` saves the registers, and goes on in the kernel. -/
structure Entered (m m' : Hart) (pa : Nat) : Prop where
  saved : Saved m' m.regs (m.csr .sepc) pa
  others : ∀ a, a < pa + EPC ∨ pa + 288 ≤ a → m'.mem a = m.mem a
  satp : m'.csr .satp = m.mem (pa + KERNEL_SATP)
  pc : m'.pc = m.mem (pa + KERNEL_TRAP)

theorem enterKernel_runs (h : FrameAt tr (m.csr .satp) (m.regs .a0) pa) :
    ∃ m', execAll tr enterKernel m = some m' ∧
      m'.mem = Function.update (Function.update m.mem (pa + 112) (m.csr .sscratch)) (pa + EPC)
      (m.csr .sepc) ∧
      m'.csr .satp = m'.mem (pa + KERNEL_SATP) ∧ m'.pc = m'.mem (pa + KERNEL_TRAP) := by
  have h112 := h 112 (by decide)
  have hepc := h EPC (by decide)
  have hsp := h KERNEL_SP (by decide)
  have htp := h KERNEL_HARTID (by decide)
  have htrap := h KERNEL_TRAP (by decide)
  have hsatp := h KERNEL_SATP (by decide)
  unfold enterKernel
  simp [execAll, Instr.exec, h112, hepc, hsp, htp, htrap, hsatp]

theorem uservec_enters (h : FrameAt tr (m.csr .satp) (m.csr .sscratch) pa) :
    ∃ m', execAll tr uservec m = some m' ∧ Entered m m' pa := by
  have hoff : ∀ x ∈ savedRegs, x.2 < 288 ∧ x.1 ≠ .a0 ∧ EPC < x.2 ∧ x.2 ≠ 112 := by decide
  obtain ⟨m₁, hm₁⟩ : ∃ m₁, (Instr.csrrw .a0 .sscratch .a0).exec tr m = some m₁ := ⟨_, rfl⟩
  have ha0 : m₁.regs .a0 = m.csr .sscratch ∧ m₁.csr .sscratch = m.regs .a0 := by
    cases hm₁
    dsimp only
    rw [Function.update_self, Function.update_self]
    exact ⟨rfl, rfl⟩
  have hcsr : ∀ c ≠ .sscratch, m₁.csr c = m.csr c := by
    cases hm₁
    exact fun c hc => Function.update_of_ne hc _ _
  have hregs : ∀ r ≠ .a0, m₁.regs r = m.regs r := by
    cases hm₁
    exact fun r hr => Function.update_of_ne hr _ _
  have hmem : m₁.mem = m.mem := by
    cases hm₁
    rfl
  have hframe : FrameAt tr (m₁.csr .satp) (m₁.regs .a0) pa := by
    rw [ha0.1, hcsr .satp (by decide)]
    exact h
  have hreach : Reaches tr m₁ .a0 pa savedRegs := fun x hx => hframe x.2 (hoff x hx).1
  obtain ⟨row, hrow, hin, hout⟩ := execAll_saves (c := enterKernel) hreach savedRegs_nodup.2
  have hframe' : FrameAt tr (Hart.csr { m₁ with mem := row } .satp)
      (Hart.regs { m₁ with mem := row } .a0) pa :=
    hframe
  obtain ⟨m', hlast, hmem', hsatp, hpc⟩ := enterKernel_runs hframe'
  have hother : ∀ a, a < pa + EPC ∨ pa + 288 ≤ a → m'.mem a = m.mem a := by
    intro a ha
    have h112 : a ≠ pa + 112 := by
      unfold EPC at ha
      omega
    have hepc : a ≠ pa + EPC := by
      unfold EPC at *
      omega
    rw [hmem', Function.update_of_ne hepc, Function.update_of_ne h112, ← hmem]
    apply hout
    intro x hx
    have := hoff x hx
    omega
  refine ⟨m', ?_, ⟨⟨fun x hx => ?_, ?_⟩, hother, ?_, ?_⟩⟩
  · rw [uservec_eq, execAll_cons hm₁, hrow, hlast]
  · rw [hmem']
    by_cases hx0 : x = (.a0, 112)
    · rw [hx0, Function.update_of_ne (by unfold EPC; omega), Function.update_self]
      exact ha0.2
    · have hx := (List.mem_erase_of_ne hx0).mpr hx
      have hne := hoff x hx
      rw [Function.update_of_ne (by omega), Function.update_of_ne (by omega)]
      exact (hin x hx).trans (hregs _ hne.2.1)
  · rw [hmem', Function.update_self]
    exact hcsr .sepc (by decide)
  · rw [hsatp]
    exact hother _ (Or.inl (by unfold KERNEL_SATP EPC; omega))
  · rw [hpc]
    exact hother _ (Or.inl (by unfold KERNEL_TRAP EPC; omega))

/-- `userret` takes the registers from the frame. -/
structure Left (m m' : Hart) (pa : Nat) : Prop where
  regs : ∀ x ∈ trapframeRegs, m'.regs x.1 = m.mem (pa + x.2)
  mem : m'.mem = m.mem
  sscratch : m'.csr .sscratch = m.regs .a0
  satp : m'.csr .satp = m.regs .a1
  pc : m'.pc = m.csr .sepc

theorem userret_leaves (h : FrameAt tr (m.regs .a1) (m.regs .a0) pa) :
    ∃ m', execAll tr userret m = some m' ∧ Left m m' pa := by
  have hoff : ∀ x ∈ savedRegs, x.2 < 288 := by decide
  have hkeys : .a0 ∉ savedRegs.map Prod.fst := by decide
  obtain ⟨csr, hcsr⟩ : ∃ csr, csr = Function.update (Function.update m.csr .satp (m.regs .a1))
      .sscratch (m.mem (pa + 112)) := ⟨_, rfl⟩
  have hsatp : csr .satp = m.regs .a1 := by
    rw [hcsr, Function.update_of_ne (by decide), Function.update_self]
  have hsepc : csr .sepc = m.csr .sepc := by
    rw [hcsr, Function.update_of_ne (by decide), Function.update_of_ne (by decide)]
  have hscratch : csr .sscratch = m.mem (pa + 112) := by
    rw [hcsr, Function.update_self]
  obtain ⟨regs₁, hregs₁⟩ : ∃ regs₁, regs₁ = Function.update m.regs .t0 (m.mem (pa + 112)) :=
    ⟨_, rfl⟩
  have ha0 : regs₁ .a0 = m.regs .a0 := by
    rw [hregs₁, Function.update_of_ne (by decide)]
  have hstart : execAll tr userret m =
      execAll tr (loads savedRegs .a0 ++ [.csrrw .a0 .sscratch .a0, .sret])
      { m with regs := regs₁, csr := csr } := by
    have h112 : tr (Function.update m.csr .satp (m.regs .a1) .satp)
        (m.regs .a0 + BitVec.ofNat 64 112) = some (pa + 112) := by
      rw [Function.update_self]
      exact h 112 (by decide)
    rw [userret_eq, execAll_cons rfl, execAll_cons rfl, execAll_cons (exec_ld h112),
      execAll_cons rfl, hregs₁, hcsr]
    dsimp only
    rw [Function.update_self]
  have hreach : Reaches tr { m with regs := regs₁, csr := csr } .a0 pa savedRegs := by
    intro x hx
    dsimp only
    rw [hsatp, ha0]
    exact h x.2 (hoff x hx)
  obtain ⟨regs, hrow, hin, hout⟩ :=
    execAll_loads (c := [.csrrw .a0 .sscratch .a0, .sret]) hreach hkeys savedRegs_nodup.1
  refine ⟨⟨Function.update regs .a0 (csr .sscratch), Function.update csr .sscratch (regs .a0),
    m.csr .sepc, m.mem⟩, ?_, fun x hx => ?_, rfl, ?_, ?_, rfl⟩
  · rw [hstart, hrow, execAll_cons rfl, execAll_cons rfl]
    dsimp only
    rw [Function.update_of_ne (by decide), hsepc]
    rfl
  · dsimp only
    by_cases hx0 : x = (.a0, 112)
    · rw [hx0, Function.update_self]
      exact hscratch
    · have hx := (List.mem_erase_of_ne hx0).mpr hx
      have hne : x.1 ≠ .a0 := fun hc => hkeys (hc ▸ List.mem_map.mpr ⟨x, hx, rfl⟩)
      rw [Function.update_of_ne hne]
      exact hin x hx
  · dsimp only
    rw [Function.update_self, hout _ hkeys]
    exact ha0
  · dsimp only
    rw [Function.update_of_ne (by decide)]
    exact hsatp

/-- `swtch` saves the registers that a function keeps, and takes others. -/
structure Switched (m m' : Hart) (old new : Nat) : Prop where
  saved : ∀ x ∈ contextRegs, m'.mem (old + x.2) = m.regs x.1
  others : ∀ a, a < old ∨ old + 112 ≤ a → m'.mem a = m.mem a
  regs : ∀ x ∈ contextRegs, m'.regs x.1 = m'.mem (new + x.2)
  csr : m'.csr = m.csr
  pc : m'.pc = m'.regs .ra

theorem swtch_switches {old new : Nat}
    (hold : ∀ off < 112, tr (m.csr .satp) (m.regs .a0 + BitVec.ofNat 64 off) =
    some (old + off)) (hnew : ∀ off < 112, tr (m.csr .satp) (m.regs .a1 + BitVec.ofNat 64 off) =
      some (new + off)) :
    ∃ m', execAll tr swtch m = some m' ∧ Switched m m' old new := by
  have hoff : ∀ x ∈ contextRegs, x.2 < 112 := by decide
  have hkeys : .a1 ∉ contextRegs.map Prod.fst := by decide
  obtain ⟨mem, hstores, hin, hout⟩ := execAll_saves (m := m) (c := loads contextRegs .a1 ++ [.ret])
    (fun x hx => hold x.2 (hoff x hx)) contextRegs_nodup.2
  obtain ⟨regs, hloads, htaken, _⟩ := execAll_loads (m := { m with mem := mem }) (c := [.ret])
    (fun x hx => hnew x.2 (hoff x hx)) hkeys contextRegs_nodup.1
  refine ⟨{ m with mem := mem, regs := regs, pc := regs .ra }, ?_, hin, fun a ha => ?_,
    htaken, rfl, rfl⟩
  · rw [swtch_eq, hstores, hloads]
    rfl
  · apply hout
    intro x hx
    have := hoff x hx
    omega

end ThuKernel.Trap
