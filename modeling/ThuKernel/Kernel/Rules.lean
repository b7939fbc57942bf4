-- The steps of the kernel code as rules: what each access to the state gives
-- to the code behind it.
import ThuKernel.Kernel.FileCalls
import ThuKernel.Kernel.Proc
import ThuKernel.Vm.Copy

namespace ThuKernel

variable {E : Stop → Prop} {k : Kernel} {α : Type}

theorem runs_onMm {f : Prog Mm α} {Q : α → Kernel → Prop} :
    Runs E (onMm f) k Q ↔ Runs E f k.mm (fun a m => Q a { k with mm := m }) :=
  Runs.on_iff

theorem runs_onFs {f : Prog Fs α} {Q : α → Kernel → Prop} :
    Runs E (onFs f) k Q ↔ Runs E f k.fs (fun a s => Q a { k with fs := s }) :=
  Runs.on_iff

@[simp] theorem runs_curr_proc {Q : proc → Kernel → Prop} :
    Runs E curr_proc k Q ↔ Q (k.pool k.current_proc) k := Iff.rfl

@[simp] theorem runs_modifyCurr {f : proc → proc} {Q : Unit → Kernel → Prop} :
    Runs E (modifyCurr f) k Q ↔ Q () { k with
      pool := Function.update k.pool k.current_proc (f (k.pool k.current_proc)) } := Iff.rfl

@[simp] theorem runs_getProc {i : Nat} {Q : proc → Kernel → Prop} :
    Runs E (getProc i) k Q ↔ Q (k.pool i) k := Iff.rfl

@[simp] theorem runs_setProc {i : Nat} {p : proc} {Q : Unit → Kernel → Prop} :
    Runs E (setProc i p) k Q ↔ Q () { k with pool := Function.update k.pool i p } := Iff.rfl

@[simp] theorem runs_getFile {f : Nat} {Q : file → Kernel → Prop} :
    Runs E (getFile f) k Q ↔ Q (k.filepool f) k := Iff.rfl

@[simp] theorem runs_setFile {f : Nat} {x : file} {Q : Unit → Kernel → Prop} :
    Runs E (setFile f x) k Q ↔ Q () { k with filepool := Function.update k.filepool f x } := Iff.rfl

@[simp] theorem runs_getPipe {pi : Nat} {Q : pipe → Kernel → Prop} :
    Runs E (getPipe pi) k Q ↔ Q (k.pipes pi) k := Iff.rfl

@[simp] theorem runs_setPipe {pi : Nat} {x : pipe} {Q : Unit → Kernel → Prop} :
    Runs E (setPipe pi x) k Q ↔ Q () { k with pipes := Function.update k.pipes pi x } := Iff.rfl

theorem runs_deref {x : Option Nat} {Q : Nat → Kernel → Prop} (hE : ∀ why, E (.fault why))
    (h : ∀ i, x = some i → Q i k) : Runs E (deref x) k Q := by
  cases x with
  | none => exact hE _
  | some i => exact h i rfl

theorem runs_fileAt {fd : Int} {Q : Nat → Kernel → Prop} (hE : ∀ why, E (.fault why))
    (h : ∀ f, 0 ≤ fd → fd < FD_MAX → (k.pool k.current_proc).files fd.toNat = some f → Q f k) :
    Runs E (fileAt fd) k Q := by
  unfold fileAt
  split
  · rename_i hfd
    rw [Runs.bind_iff, runs_curr_proc]
    exact runs_deref hE fun f hf => h f hfd.1 hfd.2 hf
  · exact hE _

theorem fileAt_ok {fd : Int} {f : Nat} (h0 : 0 ≤ fd) (hlt : fd < FD_MAX)
    (hfile : (k.pool k.current_proc).files fd.toNat = some f) :
    fileAt fd k = .ok (f, k) := by
  unfold fileAt
  rw [if_pos ⟨h0, hlt⟩]
  change deref ((k.pool k.current_proc).files fd.toNat) k = _
  rw [hfile]
  rfl

theorem freeSlot_some {np : Nat} (h : freeSlot k.pool = some np) : (k.pool np).state = .UNUSED := by
  unfold freeSlot at h
  have := List.find?_some h
  exact beq_iff_eq.mp this

theorem freeSlot_lt {np : Nat} (h : freeSlot k.pool = some np) : np < NPROC := by
  unfold freeSlot at h
  exact List.mem_range.mp (List.mem_of_find?_eq_some h)

end ThuKernel
