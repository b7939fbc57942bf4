-- The page table macros of riscv.h and the address map of memory_layout.h.
import ThuKernel.Lib.Str

namespace ThuKernel

def PGSIZE : Nat := 4096
def PGSHIFT : Nat := 12

/-- `PGROUNDUP`, on 64-bit numbers. -/
def PGROUNDUP (sz : Nat) : Nat := (sz + PGSIZE - 1) % 2 ^ 64 / PGSIZE * PGSIZE
def PGROUNDDOWN (a : Nat) : Nat := a / PGSIZE * PGSIZE

def PTE_V : Nat := 1 <<< 0
def PTE_R : Nat := 1 <<< 1
def PTE_W : Nat := 1 <<< 2
def PTE_X : Nat := 1 <<< 3
def PTE_U : Nat := 1 <<< 4

/-- Shifts a physical address to the right place for a PTE. -/
def PA2PTE (pa : Nat) : Nat := (pa >>> 12) <<< 10
def PTE2PA (pte : Nat) : Nat := (pte >>> 10) <<< 12 % 2 ^ 64
def PTE_FLAGS (pte : Nat) : Nat := pte &&& 0x3FF

def PXMASK : Nat := 0x1FF
def PXSHIFT (level : Nat) : Nat := PGSHIFT + 9 * level

/-- The 9-bit page table index of `va` at a level. -/
def PX (level va : Nat) : Nat := va >>> PXSHIFT level &&& PXMASK

@[irreducible] def MAXVA : Nat := 1 <<< (9 + 9 + 9 + 12 - 1)

def KERNBASE : Nat := 0x80200000
def PHYSTOP : Nat := 0x80000000 + 128 * 1024 * 1024
@[irreducible] def TRAMPOLINE : Nat := MAXVA - PGSIZE
@[irreducible] def TRAPFRAME : Nat := TRAMPOLINE - PGSIZE

theorem MAXVA_eq : MAXVA = 2 ^ 38 := by
  unfold MAXVA
  rfl

theorem TRAMPOLINE_eq : TRAMPOLINE = (2 ^ 26 - 1) * PGSIZE := by
  unfold TRAMPOLINE
  rw [MAXVA_eq]
  rfl

theorem TRAPFRAME_eq : TRAPFRAME = (2 ^ 26 - 2) * PGSIZE := by
  unfold TRAPFRAME
  rw [TRAMPOLINE_eq]
  rfl

/-- An application: its image lies inside the kernel. -/
structure App where
  name : CStr
  start : Nat
  stop : Nat
  le : start ≤ stop
  below : stop ≤ PHYSTOP

/-- What the linker decides: the end of the kernel, the trampoline page, which
lies inside the kernel, and the applications. -/
structure Link where
  ekernel : Nat
  trampoline : Nat
  apps : List App
  aligned : trampoline % PGSIZE = 0
  inside : trampoline < ekernel

theorem Link.zero_aligned : 0 % PGSIZE = 0 := by decide

theorem Link.zero_inside : 0 < PGSIZE := by decide

end ThuKernel
