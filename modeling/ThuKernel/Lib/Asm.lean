-- Straight-line machine code over the general registers of RISC-V: a row of
-- stores to a page, a row of loads from it, and what they leave.
import Mathlib.Logic.Function.Basic
import Mathlib.Data.List.Nodup

namespace ThuKernel

abbrev Word := BitVec 64

/-- The general registers, but for the one that is always zero. -/
inductive Reg where
  | ra | sp | gp | tp | t0 | t1 | t2 | s0 | s1 | a0 | a1 | a2 | a3 | a4 | a5 | a6 | a7
  | s2 | s3 | s4 | s5 | s6 | s7 | s8 | s9 | s10 | s11 | t3 | t4 | t5 | t6
  deriving DecidableEq, Repr

inductive Csr where
  | sscratch
  | sepc
  | satp
  deriving DecidableEq, Repr

inductive Instr where
  | sd (r : Reg) (off : Nat) (base : Reg)
  | ld (r : Reg) (off : Nat) (base : Reg)
  | csrrw (rd : Reg) (c : Csr) (rs : Reg)
  | csrr (rd : Reg) (c : Csr)
  | csrw (c : Csr) (rs : Reg)
  | sfence_vma
  | jr (r : Reg)
  | ret
  | sret
  deriving DecidableEq, Repr

/-- Memory is kept in words, by the physical address of each. -/
structure Hart where
  regs : Reg → Word
  csr : Csr → Word
  pc : Word
  mem : Nat → Word

/-- The physical address of a virtual one, under the page table in `satp`. -/
abbrev Translation := Word → Word → Option Nat

/-- One instruction. There is no next machine after a page fault. -/
def Instr.exec (tr : Translation) (m : Hart) : Instr → Option Hart
  | .sd r off base => do
    let pa ← tr (m.csr .satp) (m.regs base + BitVec.ofNat 64 off)
    pure { m with mem := Function.update m.mem pa (m.regs r) }
  | .ld r off base => do
    let pa ← tr (m.csr .satp) (m.regs base + BitVec.ofNat 64 off)
    pure { m with regs := Function.update m.regs r (m.mem pa) }
  | .csrrw rd c rs => some { m with
      regs := Function.update m.regs rd (m.csr c)
      csr := Function.update m.csr c (m.regs rs) }
  | .csrr rd c => some { m with regs := Function.update m.regs rd (m.csr c) }
  | .csrw c rs => some { m with csr := Function.update m.csr c (m.regs rs) }
  | .sfence_vma => some m
  | .jr r => some { m with pc := m.regs r }
  | .ret => some { m with pc := m.regs .ra }
  | .sret => some { m with pc := m.csr .sepc }

/-- Instructions one after the other. -/
def execAll (tr : Translation) : List Instr → Hart → Option Hart
  | [], m => some m
  | i :: is, m => do
    let m ← i.exec tr m
    execAll tr is m

section exec

variable {tr : Translation} {m m' : Hart} {r base : Reg} {off pa : Nat} {i : Instr} {c : List Instr}

theorem exec_sd (h : tr (m.csr .satp) (m.regs base + BitVec.ofNat 64 off) = some pa) :
    (Instr.sd r off base).exec tr m = some
    { m with mem := Function.update m.mem pa (m.regs r) } := by
  show (tr _ _).bind _ = _
  rw [h]
  rfl

theorem exec_ld (h : tr (m.csr .satp) (m.regs base + BitVec.ofNat 64 off) = some pa) :
    (Instr.ld r off base).exec tr m = some
    { m with regs := Function.update m.regs r (m.mem pa) } := by
  show (tr _ _).bind _ = _
  rw [h]
  rfl

theorem execAll_cons (h : i.exec tr m = some m') : execAll tr (i :: c) m = execAll tr c m' := by
  show (i.exec tr m).bind _ = _
  rw [h]
  rfl

end exec

/-! ## Many updates of one function -/

/-- The values of a list of pairs are written one after the other. -/
def updates {α β : Type} [DecidableEq α] (f : α → β) (l : List (α × β)) : α → β :=
  l.foldl (fun f x => Function.update f x.1 x.2) f

section updates

variable {α β : Type} [DecidableEq α] {f : α → β} {l : List (α × β)} {a : α} {b : β}

theorem updates_cons (x : α × β) : updates f (x :: l) = updates (Function.update f x.1 x.2) l := rfl

theorem updates_other (h : a ∉ l.map Prod.fst) : updates f l a = f a := by
  induction l generalizing f with
  | nil => rfl
  | cons x l ih =>
    rw [List.map_cons, List.mem_cons, not_or] at h
    rw [updates_cons, ih h.2, Function.update_of_ne h.1]

theorem updates_mem (hnodup : (l.map Prod.fst).Nodup) (h : (a, b) ∈ l) : updates f l a = b := by
  induction l generalizing f with
  | nil => cases h
  | cons x l ih =>
    rw [List.map_cons, List.nodup_cons] at hnodup
    rw [updates_cons]
    rcases List.mem_cons.mp h with rfl | h
    · rw [updates_other hnodup.1, Function.update_self]
    · exact ih hnodup.2 h

end updates

/-! ## Rows of stores and loads -/

variable {tr : Translation} {m : Hart} {base : Reg} {pa : Nat} {l : List (Reg × Nat)}
  {c : List Instr}

def saves (l : List (Reg × Nat)) (base : Reg) : List Instr := l.map fun x => .sd x.1 x.2 base

def loads (l : List (Reg × Nat)) (base : Reg) : List Instr := l.map fun x => .ld x.1 x.2 base

/-- The offsets from the register `base` are on the page at `pa`. -/
def Reaches (tr : Translation) (m : Hart) (base : Reg) (pa : Nat) (l : List (Reg × Nat)) : Prop :=
  ∀ x ∈ l, tr (m.csr .satp) (m.regs base + BitVec.ofNat 64 x.2) = some (pa + x.2)

theorem execAll_saves_updates (h : Reaches tr m base pa l) : execAll tr (saves l base ++ c) m =
    execAll tr c { m with mem := updates m.mem (l.map fun x => (pa + x.2, m.regs x.1)) } := by
  induction l generalizing m with
  | nil => rfl
  | cons x l ih =>
    have hx := exec_sd (r := x.1) (h x (List.mem_cons_self ..))
    refine (execAll_cons hx).trans (ih fun y hy => ?_)
    exact h y (List.mem_cons_of_mem _ hy)

theorem execAll_loads_updates (h : Reaches tr m base pa l) (hbase : base ∉ l.map Prod.fst) :
    execAll tr (loads l base ++ c) m =
      execAll tr c { m with regs := updates m.regs (l.map fun x => (x.1, m.mem (pa + x.2))) } := by
  induction l generalizing m with
  | nil => rfl
  | cons x l ih =>
    have hx := exec_ld (r := x.1) (h x (List.mem_cons_self ..))
    rw [List.map_cons, List.mem_cons, not_or] at hbase
    refine (execAll_cons hx).trans (ih (fun y hy => ?_) hbase.2)
    dsimp only
    rw [Function.update_of_ne hbase.1]
    exact h y (List.mem_cons_of_mem _ hy)

/-- A row of stores to different words puts each register in its place. -/
theorem execAll_saves (h : Reaches tr m base pa l) (hnodup : (l.map Prod.snd).Nodup) :
    ∃ mem, execAll tr (saves l base ++ c) m = execAll tr c { m with mem } ∧
      (∀ x ∈ l, mem (pa + x.2) = m.regs x.1) ∧ ∀ a, (∀ x ∈ l, a ≠ pa + x.2) → mem a = m.mem a := by
  refine ⟨_, execAll_saves_updates h, fun x hx => updates_mem ?_ (List.mem_map.mpr ⟨x, hx, rfl⟩),
    fun a ha =>
    updates_other fun hc => ?_⟩
  · have hplaces := hnodup.map fun a b (hab : pa + a = pa + b) => Nat.add_left_cancel hab
    rw [List.map_map] at hplaces
    rwa [List.map_map]
  · obtain ⟨y, hy, rfl⟩ := List.mem_map.mp hc
    obtain ⟨x, hx, rfl⟩ := List.mem_map.mp hy
    exact ha x hx rfl

/-- A row of loads to different registers takes each from its place. -/
theorem execAll_loads (h : Reaches tr m base pa l) (hbase : base ∉ l.map Prod.fst)
    (hnodup : (l.map Prod.fst).Nodup) : ∃ regs, execAll tr (loads l base ++ c) m =
    execAll tr c { m with regs } ∧
      (∀ x ∈ l, regs x.1 = m.mem (pa + x.2)) ∧ ∀ r ∉ l.map Prod.fst, regs r = m.regs r := by
  have hkeys : (l.map fun x => (x.1, m.mem (pa + x.2))).map Prod.fst = l.map Prod.fst := by
    rw [List.map_map]
    rfl
  refine ⟨_, execAll_loads_updates h hbase,
    fun x hx => updates_mem ?_ (List.mem_map.mpr ⟨x, hx, rfl⟩), fun r hr =>
    updates_other ?_⟩
  · rwa [hkeys]
  · rwa [hkeys]

end ThuKernel
