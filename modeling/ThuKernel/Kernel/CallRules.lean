-- The functions of file.c, pipe.c and proc.c as rules: for each of them, when
-- it runs to a given end, in terms of the functions that it calls.
import ThuKernel.Kernel.MemCalls
import ThuKernel.Kernel.Rules
import ThuKernel.Vm.Alloc

namespace ThuKernel

variable {lk : Link} {E : Stop → Prop} {k : Kernel} {Q : Unit → Kernel → Prop}
variable {files : Nat → Option Nat} {a f : Nat}

/-! ## Files -/

theorem runs_filealloc {Q : Option Nat → Kernel → Prop} :
    Runs E filealloc k Q ↔ (freeFile k.filepool = none → Q none k) ∧
      ∀ f, freeFile k.filepool = some f → Q (some f) { k with
        filepool := Function.update k.filepool f { k.filepool f with ref := 1 } } := by
  unfold filealloc
  rw [Runs.bind_iff, Runs.get_iff]
  cases freeFile k.filepool with
  | none => simp
  | some f => simp

theorem runs_filealloc_some {Q : Option Nat → Kernel → Prop} (h : freeFile k.filepool = some f) :
    Runs E filealloc k Q ↔ Q (some f) { k with
      filepool := Function.update k.filepool f { k.filepool f with ref := 1 } } := by
  rw [runs_filealloc, h]
  simp

theorem runs_filealloc_none {Q : Option Nat → Kernel → Prop} (h : freeFile k.filepool = none) :
    Runs E filealloc k Q ↔ Q none k := by
  rw [runs_filealloc, h]
  simp

/-- The first free descriptor. -/
def firstFd (files : Nat → Option Nat) : Option Nat :=
  ((List.range FD_MAX).drop 3).find? fun i => (files i).isNone

theorem firstFd_some (h : firstFd files = some a) : 3 ≤ a ∧ a < FD_MAX ∧ files a = none := by
  have hin : ∀ fd ∈ (List.range FD_MAX).drop 3, 3 ≤ fd ∧ fd < FD_MAX := by decide
  obtain ⟨h3, hmax⟩ := hin a (List.mem_of_find?_eq_some h)
  exact ⟨h3, hmax, by simpa using List.find?_some h⟩

theorem firstFd_none (h : firstFd files = none) (h3 : 3 ≤ a) (hmax : a < FD_MAX) :
    files a ≠ none := by
  have hmem : ∀ fd < FD_MAX, 3 ≤ fd → fd ∈ (List.range FD_MAX).drop 3 := by decide
  intro hc
  apply List.find?_eq_none.mp h a (hmem a hmax h3)
  rw [hc]
  rfl

/-- The files of a process with file `f` at the descriptor `fd`, if there is one. -/
def putFd (files : Nat → Option Nat) (fd : Option Nat) (f : Nat) : Nat → Option Nat :=
  match fd with
  | none => files
  | some i => Function.update files i (some f)

/-- The process with a file at its first free descriptor, if any. -/
def withFd (k : Kernel) (f : Nat) : Kernel :=
  { k with pool := Function.update k.pool k.current_proc { k.pool k.current_proc with
      files := putFd (k.pool k.current_proc).files (firstFd (k.pool k.current_proc).files) f } }

theorem withFd_none (h : firstFd (k.pool k.current_proc).files = none) : withFd k f = k := by
  unfold withFd putFd
  rw [h]
  dsimp only
  rw [Function.update_eq_self]

theorem withFd_some (h : firstFd (k.pool k.current_proc).files = some a) : withFd k f = { k with
    pool := Function.update k.pool k.current_proc { k.pool k.current_proc with
      files := Function.update (k.pool k.current_proc).files a (some f) } } := by
  unfold withFd putFd
  rw [h]

theorem runs_fdalloc {Q : Option Nat → Kernel → Prop} :
    Runs E (fdalloc f) k Q ↔ Q (firstFd (k.pool k.current_proc).files) (withFd k f) := by
  cases h : firstFd (k.pool k.current_proc).files with
  | none =>
    rw [withFd_none h]
    unfold firstFd at h
    unfold fdalloc
    simp [h]
  | some a =>
    rw [withFd_some h]
    unfold firstFd at h
    unfold fdalloc
    simp [h]

/-- What `p->files[fd] = 0` leaves of a process. -/
def dropFd (p : proc) (fd : Option Nat) : proc :=
  match fd with
  | some i => { p with files := Function.update p.files i none }
  | none => { p with exit_code := 0 }

theorem runs_clearFd (fd : Option Nat) : Runs E (clearFd fd) k Q ↔ Q () { k with
    pool := Function.update k.pool k.current_proc (dropFd (k.pool k.current_proc) fd) } := by
  unfold clearFd dropFd
  cases fd with
  | none => rw [runs_modifyCurr]
  | some i => rw [runs_modifyCurr]

/-- A pipe without the end `writable`. -/
def pipe.shut (x : pipe) (writable : Bool) : pipe :=
  if writable then { x with writeopen := false } else { x with readopen := false }

/-- `pipeclose` gives the page back with the second end. -/
theorem runs_pipeclose {pi : Nat} {writable : Bool} {y : pipe}
    (hy : (k.pipes pi).shut writable = y) : Runs E (pipeclose lk pi writable) k Q ↔
      (y.readopen = false ∧ y.writeopen = false → Runs E (onMm (kfree lk pi))
        { k with pipes := Function.update k.pipes pi y } Q) ∧
      (¬ (y.readopen = false ∧ y.writeopen = false) →
        Q () { k with pipes := Function.update k.pipes pi y }) := by
  subst hy
  unfold pipeclose
  rw [Runs.bind_iff, runs_getPipe, Runs.bind_iff, runs_setPipe, Runs.when_iff]
  rfl

/-- The last reference of a pipe shuts an end, and that of an inode is put. -/
theorem runs_closeLast {x : file} : Runs E (closeLast lk x) k Q ↔ (x.type = .FD_NONE → Q () k) ∧
    (x.type = .FD_PIPE → Runs E (pipeclose lk x.pipe x.writable) k Q) ∧
    (x.type = .FD_INODE → (x.ip = none → E (.fault "null pointer")) ∧
      ∀ ip, x.ip = some ip → Runs E (onFs (iput ip)) k Q) := by
  unfold closeLast
  cases x.type with
  | FD_NONE => simp
  | FD_PIPE => simp
  | FD_INODE =>
    unfold deref
    cases x.ip with
    | none => simp
    | some ip => simp

/-- A file that is in no use. -/
def file.closed (x : file) : file :=
  { x with off := 0, readable := false, writable := false, ref := 0, type := .FD_NONE }

@[simp] theorem file.closed_type (x : file) : x.closed.type = .FD_NONE := rfl

@[simp] theorem file.closed_ref (x : file) : x.closed.ref = 0 := rfl

/-- `fileclose` takes a reference, and closes the file with the last one. -/
theorem runs_fileclose {f : Nat} {x : file} (hx : k.filepool f = x) :
    Runs E (fileclose lk f) k Q ↔ (x.ref < 1 → E (.panic "fileclose")) ∧
      (1 < x.ref → Q () { k with
        filepool := Function.update k.filepool f { x with ref := x.ref - 1 } }) ∧
      (x.ref = 1 → Runs E (closeLast lk x)
        { k with filepool := Function.update k.filepool f { x with ref := x.ref - 1 } } fun _ k' =>
          Q () { k' with filepool := Function.update k'.filepool f (k'.filepool f).closed }) := by
  subst hx
  unfold fileclose
  rw [Runs.bind_iff, runs_getFile]
  split
  · rw [Runs.panic_iff]
    exact ⟨fun h => ⟨fun _ => h, fun _ => by omega, fun _ => by omega⟩, fun h => h.1 ‹_›⟩
  · rw [Runs.bind_iff, runs_setFile, Runs.when_iff, Runs.bind_iff]
    constructor
    · rintro ⟨hlast, hmore⟩
      exact ⟨fun _ => by omega, fun _ => hmore (by omega), fun _ => hlast (by omega)⟩
    · rintro ⟨_, hmore, hlast⟩
      exact ⟨fun _ => hlast (by omega), fun _ => hmore (by omega)⟩

/-! ## Pipes -/

/-- A pipe with both ends and no bytes. -/
def emptyPipe : pipe :=
  { data := fun _ => 0, nread := 0, nwrite := 0, readopen := true, writeopen := true }

/-- The file as an end of the pipe on the page `pi`. -/
def file.onPipe (x : file) (pi : Nat) (writable : Bool) : file :=
  { x with type := .FD_PIPE, readable := !writable, writable, pipe := pi }

@[simp] theorem file.onPipe_type (x : file) (pi : Nat) (writable : Bool) :
    (x.onPipe pi writable).type = .FD_PIPE := rfl

@[simp] theorem file.onPipe_ref (x : file) (pi : Nat) (writable : Bool) :
    (x.onPipe pi writable).ref = x.ref := rfl

@[simp] theorem file.onPipe_pipe (x : file) (pi : Nat) (writable : Bool) :
    (x.onPipe pi writable).pipe = pi := rfl

@[simp] theorem file.onPipe_writable (x : file) (pi : Nat) (writable : Bool) :
    (x.onPipe pi writable).writable = writable := rfl

/-- `pipealloc` takes a page, and stores to two files. -/
theorem runs_pipealloc {f0 f1 : Option Nat} {Q : Int → Kernel → Prop} :
    Runs E (pipealloc f0 f1) k Q ↔ Runs E (onMm kalloc) k fun pi k₁ => (pi = 0 → Q (-1) k₁) ∧
      (pi ≠ 0 → Runs E (onMm (memset pi 0 PGSIZE)) k₁ fun _ k₂ =>
        (f0 = none ∨ f1 = none → E (.fault "null pointer")) ∧
        ∀ a b files, f0 = some a → f1 = some b →
          Function.update k₂.filepool a ((k₂.filepool a).onPipe pi false) = files →
          Q 0 { k₂ with
            pipes := Function.update k₂.pipes pi emptyPipe
            filepool := Function.update files b ((files b).onPipe pi true) }) := by
  unfold pipealloc
  rw [Runs.bind_iff]
  apply Runs.congr
  intro pi k₁
  split
  · simp [*]
  · rw [Runs.bind_iff]
    simp only [*, not_false_eq_true, forall_true_left, false_implies, true_and, ne_eq]
    apply Runs.congr
    intro _ k₂
    rw [Runs.bind_iff, runs_setPipe]
    unfold deref
    cases f0 with
    | none => simp
    | some a =>
      cases f1 with
      | none => simp
      | some b =>
        simp
        rfl

/-- The end of `sys_pipe`: the descriptors stay, or all is undone. -/
def pipeUndo (lk : Link) (f0 f1 : Nat) (fd0 fd1 : Option Nat) (r : Int) : Prog Kernel Int :=
  if r < 0 then do
    fileclose lk f0
    fileclose lk f1
    clearFd fd0
    clearFd fd1
    pure (-1)
  else pure 0

/-- The rest of `sys_pipe`, from the first `fdalloc` on. -/
def pipeFds (lk : Link) (f0 f1 fdarray : Nat) : Prog Kernel Int := do
  let fd0 ← fdalloc f0
  let fd1 ← fdalloc f1
  let p ← curr_proc
  let r0 ← onMm (copyout p.pagetable fdarray (u64Bytes (fdValue fd0)))
  let r1 ← if r0 < 0 then pure (-1)
    else onMm (copyout p.pagetable (fdarray + 8) (u64Bytes (fdValue fd1)))
  pipeUndo lk f0 f1 fd0 fd1 r1

/-- `sys_pipe` stores the second number when it has stored the first. -/
theorem runs_pipeFds {f0 f1 fdarray : Nat} {Q : Int → Kernel → Prop} :
    Runs E (pipeFds lk f0 f1 fdarray) k Q ↔
      Runs E (fdalloc f0) k fun fd0 k₁ => Runs E (fdalloc f1) k₁ fun fd1 k₂ =>
        ∀ root, (k₂.pool k₂.current_proc).pagetable = root →
          Runs E (onMm (copyout root fdarray (u64Bytes (fdValue fd0)))) k₂ fun r0 k₃ =>
            (r0 < 0 → Runs E (pipeUndo lk f0 f1 fd0 fd1 (-1)) k₃ Q) ∧
            (¬ r0 < 0 → Runs E (onMm (copyout root (fdarray + 8) (u64Bytes (fdValue fd1)))) k₃
              fun r1 k₄ => Runs E (pipeUndo lk f0 f1 fd0 fd1 r1) k₄ Q) := by
  unfold pipeFds
  simp only [Runs.bind_iff, runs_curr_proc, forall_eq']
  apply Runs.congr
  intro fd0 k₁
  apply Runs.congr
  intro fd1 k₂
  apply Runs.congr
  intro r0 k₃
  split
  · simp [*]
  · simp [*]

/-- `sys_pipe` takes two files and a page before it looks for descriptors. -/
theorem runs_sys_pipe {fdarray : Nat} {Q : Int → Kernel → Prop} :
    Runs E (sys_pipe lk fdarray) k Q ↔ Runs E filealloc k fun f0 k₁ =>
      Runs E filealloc k₁ fun f1 k₂ => Runs E (pipealloc f0 f1) k₂ fun r k₃ => (r < 0 → Q (-1) k₃) ∧
        (¬ r < 0 → (f0 = none ∨ f1 = none → E (.fault "null pointer")) ∧
          ∀ a, f0 = some a → ∀ b, f1 = some b → Runs E (pipeFds lk a b fdarray) k₃ Q) := by
  unfold sys_pipe
  rw [Runs.bind_iff]
  apply Runs.congr
  intro f0 k₁
  rw [Runs.bind_iff]
  apply Runs.congr
  intro f1 k₂
  rw [Runs.bind_iff]
  apply Runs.congr
  intro r k₃
  split
  · simp [*]
  · unfold deref
    cases f0 with
    | none => simp [*]
    | some a =>
      cases f1 with
      | none => simp [*]
      | some b =>
        simp only [*, pure_bind, not_false_eq_true, false_implies, true_and, forall_true_left,
          reduceCtorEq, or_self, Option.some.injEq, forall_eq']
        rfl

/-! ## Processes -/

/-- The process that `allocproc` makes of slot `np`. -/
def newProc (k : Kernel) (np root : Nat) : proc :=
  { k.pool np with
    pid := k.PID, state := .USED, sz := 0, exit_code := -1, parent := none, ustack :=
      0, pagetable := root
    prio := 16, pass := INT_MAX / 16 }

/-- `allocproc` takes a slot, a page table and the page of the saved registers. -/
theorem runs_allocproc {Q : Option Nat → Kernel → Prop} :
    Runs E (allocproc lk) k Q ↔ (freeSlot k.pool = none → Q none k) ∧
      ∀ np, freeSlot k.pool = some np →
        Runs E (proc_pagetable lk (k.pool np).trapframe) k.mm fun root s =>
        (root = 0 → E (.panic "")) ∧
          (root ≠ 0 → Q (some np) { k with
            mm := { s with mem := s.mem.fill (k.pool np).trapframe PGSIZE 0 }
            PID := k.PID + 1
            pool := Function.update k.pool np (newProc k np root) }) := by
  unfold allocproc
  rw [Runs.bind_iff, Runs.get_iff]
  cases freeSlot k.pool with
  | none => simp
  | some np =>
    dsimp only
    rw [Runs.bind_iff, Runs.set_iff, Runs.bind_iff, runs_setProc, Runs.bind_iff, runs_getProc,
      Runs.bind_iff, runs_onMm]
    simp only [Function.update_self, Option.some.injEq, reduceCtorEq, false_implies,
      true_and, forall_eq']
    apply Runs.congr
    intro root s
    rw [Runs.bind_iff, runs_setProc]
    dsimp only
    rw [Function.update_idem]
    split
    · simp [*]
    · rw [Runs.bind_iff, runs_onMm, memset, Runs.modify_iff, Runs.pure_iff]
      simp only [*, false_implies, true_and, ne_eq, not_false_eq_true, forall_true_left]
      rfl

theorem runs_allocproc_full {Q : Option Nat → Kernel → Prop} (h : freeSlot k.pool = none) :
    Runs E (allocproc lk) k Q ↔ Q none k := by
  rw [runs_allocproc, h]
  simp

/-- `fork` fills slot `np`, which is the caller's own when none is free. -/
theorem runs_fork {Q : Int → Kernel → Prop} : Runs E (fork lk) k Q ↔
    Runs E (allocproc lk) k fun r k₁ => ∀ i, k.current_proc = i → ∀ np, r.getD i = np →
      ∀ p, k₁.pool i = p → ∀ q, k₁.pool np = q →
      Runs E (onMm (uvmcopy lk p.pagetable q.pagetable p.sz)) k₁ fun r k₂ => (r < 0 → Q q.pid k₂) ∧
        (¬ r < 0 → Runs E (onMm (memmove q.trapframe p.trapframe TRAPFRAME_REGS))
          { k₂ with pool := Function.update k₂.pool np { q with sz := p.sz } } fun _ k₃ =>
          Runs E (Prog.forUp (dupFile i np) 0 FD_MAX) k₃ fun _ k₄ =>
            Runs E (onMm (storePte (q.trapframe + 112) 0)) k₄ fun _ k₅ =>
              Q (k₅.pool np).pid { k₅ with
              pool := Function.update k₅.pool np { k₅.pool np with
                parent := some i, state := .RUNNABLE } }) := by
  unfold fork
  rw [Runs.bind_iff, Runs.get_iff, Runs.bind_iff]
  apply Runs.congr
  intro r k₁
  dsimp only
  simp only [forall_eq']
  rw [Runs.bind_iff, runs_getProc, Runs.bind_iff, runs_getProc, Runs.bind_iff]
  apply Runs.congr
  intro r' k₂
  split
  · simp [*]
  · simp [*]

/-- `spawn` makes a process that may run before it looks for the application. -/
theorem runs_spawn {name : CStr} {Q : Int → Kernel → Prop} : Runs E (spawn lk name) k Q ↔
    Runs E (allocproc lk) k fun r k₁ => (r = none → E (.panic "allocproc\n")) ∧
      ∀ np k₂, r = some np → { k₁ with pool := Function.update k₁.pool np { k₁.pool np with
          parent := some k.current_proc, state := .RUNNABLE } } = k₂ →
        (get_id_by_name lk name = none → Q (-1) k₂) ∧
        ∀ id, get_id_by_name lk name = some id →
          Runs E (loader lk id np) k₂ fun _ k₃ => Q (k₁.pool np).pid k₃ := by
  unfold spawn
  rw [Runs.bind_iff, Runs.get_iff, Runs.bind_iff]
  apply Runs.congr
  intro r k₁
  cases r with
  | none => simp
  | some np =>
    cases get_id_by_name lk name with
    | none => simp
    | some id => simp

/-- `freeproc` gives the pages back, and closes the files of the slot. -/
theorem runs_freeproc {i : Nat} : Runs E (freeproc lk i) k Q ↔
    Runs E (Prog.when ((k.pool i).pagetable ≠ 0)
      (onMm (proc_freepagetable lk (k.pool i).pagetable (k.pool i).sz))) k fun _ k₁ =>
        Runs E (closeFiles lk i) { k₁ with pool := Function.update k₁.pool i { k₁.pool i with
          pagetable := 0, state := .UNUSED } } Q := by
  unfold freeproc
  simp only [Runs.bind_iff, runs_getProc, runs_setProc]

/-- `exit` leaves a zombie to a parent, and a free slot where there is none. -/
theorem runs_exit {code : Int} : Runs E (exit lk code) k Q ↔
    Runs E (freeproc lk k.current_proc) { k with
      pool := Function.update k.pool k.current_proc { k.pool k.current_proc with exit_code := code }
        } fun _ k₁ =>
        ((k₁.pool k₁.current_proc).parent.isSome = true → Q () { k₁ with
          pool := Function.update k₁.pool k₁.current_proc { k₁.pool k₁.current_proc with
            state := .ZOMBIE } }) ∧
        (¬ (k₁.pool k₁.current_proc).parent.isSome = true → Q () k₁) := by
  unfold exit
  simp only [Runs.bind_iff, runs_modifyCurr, Runs.get_iff, runs_curr_proc, Runs.when_iff]

end ThuKernel
