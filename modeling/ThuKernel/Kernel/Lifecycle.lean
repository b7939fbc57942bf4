-- The life of a slot of the table of processes: what each call does to the
-- states, the numbers, the parents and the mailboxes of the processes.
import ThuKernel.Kernel.FileRefs
import ThuKernel.Kernel.Mail

namespace ThuKernel

/-- The same process, in a state of the same kind, with the same mails. -/
structure Kept (p p' : proc) : Prop where
  unused : p'.state = .UNUSED ↔ p.state = .UNUSED
  zombie : p'.state = .ZOMBIE ↔ p.state = .ZOMBIE
  pid : p'.pid = p.pid
  parent : p'.parent = p.parent
  mailbox : p'.mailbox = p.mailbox

variable {lk : Link} {E : Stop → Prop} {k k₁ k' : Kernel} {p p' : proc} {i np : Nat}

namespace Kept

theorem refl : Kept p p := ⟨Iff.rfl, Iff.rfl, rfl, rfl, rfl⟩

theorem trans {p'' : proc} (h : Kept p p') (h' : Kept p' p'') : Kept p p'' :=
  ⟨h'.unused.trans h.unused, h'.zombie.trans h.zombie, h'.pid.trans h.pid, h'.parent.trans h.parent,
    h'.mailbox.trans h.mailbox⟩

theorem dead (h : Kept p p') : Dead p' ↔ Dead p := or_congr h.unused h.zombie

end Kept

/-- No process changes but in other fields. -/
structure AllKept (k k' : Kernel) : Prop where
  pool : ∀ j, Kept (k.pool j) (k'.pool j)
  code : ∀ j, (k'.pool j).exit_code = (k.pool j).exit_code
  current : k'.current_proc = k.current_proc
  next : k'.PID = k.PID

namespace AllKept

theorem refl : AllKept k k := ⟨fun _ => Kept.refl, fun _ => rfl, rfl, rfl⟩

theorem trans (h : AllKept k k₁) (h' : AllKept k₁ k') : AllKept k k' :=
  ⟨fun j => (h.pool j).trans (h'.pool j), fun j => (h'.code j).trans (h.code j),
    h'.current.trans h.current, h'.next.trans h.next⟩

theorem setProc (h : Kept (k.pool i) p) (hcode : p.exit_code = (k.pool i).exit_code) :
    AllKept k { k with pool := Function.update k.pool i p } := by
  refine ⟨fun j => ?_, fun j => ?_, rfl, rfl⟩
  · dsimp only
    by_cases hj : j = i
    · rw [hj, Function.update_self]
      exact h
    · rw [Function.update_of_ne hj]
      exact Kept.refl
  · dsimp only
    by_cases hj : j = i
    · rw [hj, Function.update_self]
      exact hcode
    · rw [Function.update_of_ne hj]

theorem onMm {α : Type} (g : Prog Mm α) :
    Runs (fun _ => True) (ThuKernel.onMm g) k (fun _ k' => AllKept k k' ∧ k'.pool = k.pool) := by
  rw [runs_onMm]
  exact Runs.of_forall fun _ _ _ => ⟨⟨fun _ => Kept.refl, fun _ => rfl, rfl, rfl⟩, rfl⟩

end AllKept

/-! ## Calls that keep the processes -/

/-- A program that changes no process. -/
def KeepsPool {α : Type} (f : Prog Kernel α) : Prop :=
  ∀ k, Runs (fun _ => True) f k (fun _ k' => k'.pool = k.pool ∧ k'.current_proc = k.current_proc ∧
    k'.PID = k.PID)

theorem fileclose_keepsPool (f : Nat) : KeepsPool (fileclose lk f) := by
  intro k
  have hlast : ∀ x k, Runs (fun _ => True) (closeLast lk x) k (fun _ k' => k'.pool = k.pool ∧
      k'.current_proc = k.current_proc ∧ k'.PID = k.PID) := by
    intro x k
    rw [runs_closeLast]
    refine ⟨fun _ => ⟨rfl, rfl, rfl⟩, fun _ => ?_, fun _ => ⟨fun _ => trivial, fun ip _ => ?_⟩⟩
    · rw [runs_pipeclose rfl, runs_onMm]
      exact ⟨fun _ => Runs.of_forall fun _ _ _ => ⟨rfl, rfl, rfl⟩, fun _ => ⟨rfl, rfl, rfl⟩⟩
    · rw [runs_onFs]
      exact Runs.of_forall fun _ _ _ => ⟨rfl, rfl, rfl⟩
  rw [runs_fileclose rfl]
  exact ⟨fun _ => trivial, fun _ => ⟨rfl, rfl, rfl⟩, fun _ => (hlast _ _).imp fun _ _ h₁ => h₁⟩

theorem closeFiles_kept : Runs (fun _ => True) (closeFiles lk i) k (fun _ k' => AllKept k k') := by
  refine Runs.forUp (fun _ k' => AllKept k k') ?_ AllKept.refl
  rintro fd k₁ _ _ h₁
  rw [Runs.bind_iff, runs_getProc]
  cases (k₁.pool i).files fd with
  | none => exact h₁
  | some f =>
    apply (fileclose_keepsPool f k₁).bind
    rintro _ k₂ ⟨hpool, hcur, hnext⟩
    rw [Runs.bind_iff, runs_getProc, runs_setProc]
    have h₂ : AllKept k₁ k₂ :=
      ⟨fun j => by rw [hpool]; exact Kept.refl, fun j => by rw [hpool], hcur, hnext⟩
    exact (h₁.trans h₂).trans (AllKept.setProc ⟨Iff.rfl, Iff.rfl, rfl, rfl, rfl⟩ rfl)

/-! ## New processes -/

/-- A new process in the slot `np`, with the mails that the slot had. -/
structure Created (k k' : Kernel) (np : Nat) : Prop where
  slot : freeSlot k.pool = some np
  pid : (k'.pool np).pid = k.PID
  live : ¬ Dead (k'.pool np)
  parent : (k'.pool np).parent = none ∨ (k'.pool np).parent = some k.current_proc
  mailbox : (k'.pool np).mailbox = (k.pool np).mailbox
  others : ∀ j ≠ np, Kept (k.pool j) (k'.pool j)
  code : ∀ j ≠ np, (k'.pool j).exit_code = (k.pool j).exit_code
  current : k'.current_proc = k.current_proc
  next : k'.PID = k.PID + 1

namespace Created

theorem kept (h : Created k k₁ np) (h' : AllKept k₁ k') : Created k k' np := by
  have hnp := h'.pool np
  refine ⟨h.slot, hnp.pid.trans h.pid, fun hc => h.live (hnp.dead.mp hc), ?_,
    hnp.mailbox.trans h.mailbox,
    fun j hj => (h.others j hj).trans (h'.pool j), fun j hj => (h'.code j).trans (h.code j hj),
    h'.current.trans h.current, h'.next.trans h.next⟩
  rw [hnp.parent]
  exact h.parent

theorem ne_current (h : Created k k' np) (hlive : ¬ Dead (k.pool k.current_proc)) :
    k.current_proc ≠ np := by
  intro hc
  rw [hc] at hlive
  exact hlive (Or.inl (freeSlot_some h.slot))

/-- The new process gets its parent, and may run. -/
theorem adopt (h : Created k k₁ np) {q : proc} (hq : q = k₁.pool np) :
    Created k { k₁ with pool := Function.update k₁.pool np { q with
      parent := some k.current_proc, state := .RUNNABLE } } np := by
  subst hq
  refine ⟨h.slot, ?_, ?_, ?_, ?_, fun j hj => ?_, fun j hj => ?_, h.current, h.next⟩
  · dsimp only
    rw [Function.update_self]
    exact h.pid
  · dsimp only
    rw [Function.update_self]
    rintro (hc | hc)
    · cases hc
    · cases hc
  · dsimp only
    rw [Function.update_self]
    exact Or.inr rfl
  · dsimp only
    rw [Function.update_self]
    exact h.mailbox
  · dsimp only
    rw [Function.update_of_ne hj]
    exact h.others j hj
  · dsimp only
    rw [Function.update_of_ne hj]
    exact h.code j hj

end Created

theorem allocproc_created : Runs (fun _ => True) (allocproc lk) k (fun r k' =>
    (r = none ∧ freeSlot k.pool = none ∧ k' = k) ∨ ∃ np, r = some np ∧ Created k k' np ∧
      (k'.pool np).parent = none) := by
  rw [runs_allocproc]
  refine ⟨fun hfull => Or.inl ⟨rfl, hfull, rfl⟩, fun np hslot => Runs.of_forall fun root s _ => ?_⟩
  refine ⟨fun _ => trivial, fun _ => Or.inr ⟨np, rfl, ?_⟩⟩
  have hp : Function.update k.pool np (newProc k np root) np = newProc k np root :=
    Function.update_self ..
  refine ⟨⟨hslot, ?_, ?_, ?_, ?_, fun j hj => ?_, fun j hj => ?_, rfl, rfl⟩, ?_⟩
  · dsimp only
    rw [hp]
    rfl
  · dsimp only
    rw [hp]
    rintro (hc | hc)
    · cases hc
    · cases hc
  · dsimp only
    rw [hp]
    exact Or.inl rfl
  · dsimp only
    rw [hp]
    rfl
  · dsimp only
    rw [Function.update_of_ne hj]
    exact Kept.refl
  · dsimp only
    rw [Function.update_of_ne hj]
  · dsimp only
    rw [hp]
    rfl

theorem dupFile_kept {fd : Nat} :
    Runs (fun _ => True) (dupFile i np fd) k (fun _ k' => AllKept k k') := by
  unfold dupFile
  rw [Runs.bind_iff, runs_getProc]
  split
  · exact AllKept.refl
  · rw [Runs.bind_iff, runs_getFile, Runs.when_iff]
    refine ⟨fun _ => ?_, fun _ => AllKept.refl⟩
    rw [Runs.bind_iff, runs_setFile, Runs.bind_iff, runs_getProc, runs_setProc]
    have h₁ : ∀ filepool, AllKept k { k with filepool := filepool } :=
      fun _ => ⟨fun _ => Kept.refl, fun _ => rfl, rfl, rfl⟩
    exact (h₁ _).trans (AllKept.setProc ⟨Iff.rfl, Iff.rfl, rfl, rfl, rfl⟩ rfl)

/-- No slot is free, and the process may have become its own parent. -/
structure SelfForked (k k' : Kernel) : Prop where
  full : freeSlot k.pool = none
  others : ∀ j ≠ k.current_proc, Kept (k.pool j) (k'.pool j)
  pid : (k'.pool k.current_proc).pid = (k.pool k.current_proc).pid
  dead : Dead (k'.pool k.current_proc) → Dead (k.pool k.current_proc)
  parent : (k'.pool k.current_proc).parent = (k.pool k.current_proc).parent ∨
    (k'.pool k.current_proc).parent = some k.current_proc
  mailbox : (k'.pool k.current_proc).mailbox = (k.pool k.current_proc).mailbox
  code : ∀ j, (k'.pool j).exit_code = (k.pool j).exit_code
  current : k'.current_proc = k.current_proc
  next : k'.PID = k.PID

theorem SelfForked.kept (hfull : freeSlot k.pool = none) (h : AllKept k k') : SelfForked k k' :=
  ⟨hfull, fun j _ => h.pool j, (h.pool _).pid, (h.pool _).dead.mp, Or.inl (h.pool _).parent,
    (h.pool _).mailbox, h.code, h.current, h.next⟩

theorem SelfForked.adopt (hfull : freeSlot k.pool = none) (h : AllKept k k') :
    SelfForked k
    { k' with pool := Function.update k'.pool k.current_proc { k'.pool k.current_proc with
      parent := some k.current_proc, state := .RUNNABLE } } := by
  refine ⟨hfull, fun j hj => ?_, ?_, fun hc => ?_, Or.inr ?_, ?_, fun j => ?_, h.current, h.next⟩
  · dsimp only
    rw [Function.update_of_ne hj]
    exact h.pool j
  · dsimp only
    rw [Function.update_self]
    exact (h.pool _).pid
  · dsimp only at hc
    rw [Function.update_self] at hc
    rcases hc with hc | hc
    · cases hc
    · cases hc
  · dsimp only
    rw [Function.update_self]
  · dsimp only
    rw [Function.update_self]
    exact (h.pool _).mailbox
  · dsimp only
    by_cases hj : j = k.current_proc
    · rw [hj, Function.update_self]
      exact h.code _
    · rw [Function.update_of_ne hj]
      exact h.code j

/-- A `fork` takes a slot, or leaves the table as it is but for the parent of
the caller. -/
theorem fork_created : Runs (fun _ => True) (fork lk) k (fun r k' =>
    (∃ np, Created k k' np ∧ r = k.PID) ∨ (SelfForked k k' ∧ r = (k.pool k.current_proc).pid)) := by
  rw [runs_fork]
  apply allocproc_created.imp
  rintro r k₁ hr _ rfl np hnp _ rfl _ rfl
  apply (AllKept.onMm _).imp
  rintro ret k₂ ⟨h₂, hpool₂⟩
  rw [← hpool₂]
  constructor
  · intro _
    rcases hr with ⟨rfl, hfull, rfl⟩ | ⟨np', rfl, hnew, _⟩
    · refine Or.inr ⟨SelfForked.kept hfull h₂, ?_⟩
      rw [hpool₂, ← hnp]
      rfl
    · refine Or.inl ⟨np', hnew.kept h₂, ?_⟩
      rw [hpool₂, ← hnp, Option.getD_some, hnew.pid]
  · intro _
    have h₃ : AllKept k₂ { k₂ with pool := Function.update k₂.pool np { k₂.pool np with
        sz := (k₂.pool k.current_proc).sz } } :=
      AllKept.setProc ⟨Iff.rfl, Iff.rfl, rfl, rfl, rfl⟩ rfl
    apply (AllKept.onMm _).imp
    rintro _ k₄ ⟨h₄, _⟩
    have hloop : Runs (fun _ => True) (Prog.forUp (dupFile k.current_proc np) 0 FD_MAX) k₄
        (fun _ k' => AllKept k₁ k') := by
      refine Runs.forUp (fun _ k' => AllKept k₁ k') ?_ (h₂.trans (h₃.trans h₄))
      intro fd k₅ _ _ h₅
      exact dupFile_kept.imp fun _ k₆ h₆ => h₅.trans h₆
    apply hloop.imp
    rintro _ k₅ h₅
    apply (AllKept.onMm _).imp
    rintro _ k₆ ⟨h₆, _⟩
    have h₆ := h₅.trans h₆
    rcases hr with ⟨rfl, hfull, rfl⟩ | ⟨np', rfl, hnew, _⟩
    · rw [Option.getD_none] at hnp
      subst hnp
      exact Or.inr ⟨SelfForked.adopt hfull h₆, by rw [(h₆.pool _).pid]⟩
    · rw [Option.getD_some] at hnp
      subst hnp
      have hnew := hnew.kept h₆
      exact Or.inl ⟨np', hnew.adopt rfl, by rw [hnew.pid]⟩

theorem loader_kept {id : Nat} :
    Runs (fun _ => True) (loader lk id i) k (fun _ k' => AllKept k k') := by
  unfold loader
  split
  · trivial
  · rw [Runs.bind_iff, runs_getProc]
    apply (AllKept.onMm _).bind
    rintro sz k₁ ⟨h₁, _⟩
    rw [Runs.bind_iff, runs_getProc, runs_setProc]
    exact h₁.trans (AllKept.setProc ⟨Iff.rfl, Iff.rfl, rfl, rfl, rfl⟩ rfl)

theorem spawn_created (name : CStr) : Runs (fun _ => True) (spawn lk name) k (fun r k' =>
    ∃ np, Created k k' np ∧ (r = k.PID ∨ r = -1)) := by
  rw [runs_spawn]
  apply allocproc_created.imp
  rintro r k₁ (⟨rfl, _, _⟩ | ⟨np, rfl, hnew, _⟩)
  · exact ⟨fun _ => trivial, fun _ _ hc => by cases hc⟩
  · refine ⟨fun _ => trivial, ?_⟩
    rintro _ _ ⟨⟩ rfl
    have hadopt := hnew.adopt rfl
    refine ⟨fun _ => ⟨np, hadopt, Or.inr rfl⟩, fun id _ => ?_⟩
    apply loader_kept.imp
    rintro _ k₂ h₂
    exact ⟨np, hadopt.kept h₂, Or.inl (by rw [hnew.pid])⟩

/-! ## The end of a process -/

/-- Process `i` goes over to the state `s`, and leaves the rest of its slot. -/
structure Ended (k k' : Kernel) (i : Nat) (s : procstate) : Prop where
  state : (k'.pool i).state = s
  pid : (k'.pool i).pid = (k.pool i).pid
  parent : (k'.pool i).parent = (k.pool i).parent
  mailbox : (k'.pool i).mailbox = (k.pool i).mailbox
  others : ∀ j ≠ i, Kept (k.pool j) (k'.pool j)
  code : ∀ j ≠ i, (k'.pool j).exit_code = (k.pool j).exit_code
  current : k'.current_proc = k.current_proc
  next : k'.PID = k.PID

namespace Ended

variable {s : procstate}

theorem after (h : AllKept k k₁) (h' : Ended k₁ k' i s) : Ended k k' i s :=
  ⟨h'.state, h'.pid.trans (h.pool i).pid, h'.parent.trans (h.pool i).parent,
    h'.mailbox.trans (h.pool i).mailbox,
    fun j hj => (h.pool j).trans (h'.others j hj), fun j hj => (h'.code j hj).trans (h.code j),
    h'.current.trans h.current, h'.next.trans h.next⟩

/-- Only the state of one process is written. -/
theorem set {q : proc} (hq : q.state = s ∧ q.pid = (k.pool i).pid ∧ q.parent = (k.pool i).parent ∧
    q.mailbox = (k.pool i).mailbox) :
    Ended k { k with pool := Function.update k.pool i q } i s := by
  obtain ⟨h1, h2, h3, h4⟩ := hq
  have hself : Function.update k.pool i q i = q := Function.update_self _ _ _
  refine ⟨?_, ?_, ?_, ?_, fun j hj => ?_, fun j hj => ?_, rfl, rfl⟩
  · dsimp only
    rw [hself, h1]
  · dsimp only
    rw [hself, h2]
  · dsimp only
    rw [hself, h3]
  · dsimp only
    rw [hself, h4]
  · dsimp only
    rw [Function.update_of_ne hj]
    exact Kept.refl
  · dsimp only
    rw [Function.update_of_ne hj]

/-- The state of the process is written a second time. -/
theorem trans {s' : procstate} (h : Ended k k₁ i s') (h' : Ended k₁ k' i s) : Ended k k' i s :=
  ⟨h'.state, h'.pid.trans h.pid, h'.parent.trans h.parent, h'.mailbox.trans h.mailbox,
    fun j hj => (h.others j hj).trans (h'.others j hj),
    fun j hj => (h'.code j hj).trans (h.code j hj),
    h'.current.trans h.current, h'.next.trans h.next⟩

theorem kept (h : Ended k k₁ i .UNUSED) (h' : AllKept k₁ k') : Ended k k' i .UNUSED :=
  ⟨(h'.pool i).unused.mpr h.state, (h'.pool i).pid.trans h.pid, (h'.pool i).parent.trans h.parent,
    (h'.pool i).mailbox.trans h.mailbox, fun j hj => (h.others j hj).trans (h'.pool j),
    fun j hj => (h'.code j).trans (h.code j hj), h'.current.trans h.current, h'.next.trans h.next⟩

end Ended

theorem freeproc_ended : Runs (fun _ => True) (freeproc lk i) k (fun _ k' => Ended k k' i .UNUSED ∧
    (k'.pool i).exit_code = (k.pool i).exit_code) := by
  rw [runs_freeproc]
  have hfree : Runs (fun _ => True) (Prog.when ((k.pool i).pagetable ≠ 0)
      (onMm (proc_freepagetable lk (k.pool i).pagetable (k.pool i).sz))) k
      (fun _ k' => AllKept k k') :=
    Runs.when_iff.mpr ⟨fun _ => (AllKept.onMm _).imp fun _ _ h => h.1, fun _ => AllKept.refl⟩
  apply hfree.imp
  rintro _ k₁ h₁
  apply closeFiles_kept.imp
  rintro _ k₂ h₂
  have hset : Ended k₁ { k₁ with pool := Function.update k₁.pool i { k₁.pool i with
      pagetable := 0, state := .UNUSED } } i .UNUSED := Ended.set ⟨rfl, rfl, rfl, rfl⟩
  refine ⟨(Ended.after h₁ hset).kept h₂, ?_⟩
  rw [h₂.code]
  dsimp only
  rw [Function.update_self]
  exact h₁.code i

/-- A process that exits is a zombie just when it has a parent. -/
theorem exit_ended (code : Int) : Runs (fun _ => True) (exit lk code) k (fun _ k' =>
    Ended k k' k.current_proc (if (k.pool k.current_proc).parent.isSome then .ZOMBIE else .UNUSED) ∧
    (k'.pool k.current_proc).exit_code = code) := by
  rw [runs_exit]
  have h₁ :
    Ended k { k with pool := Function.update k.pool k.current_proc { k.pool k.current_proc with
      exit_code := code } } k.current_proc (k.pool k.current_proc).state :=
        Ended.set ⟨rfl, rfl, rfl, rfl⟩
  apply freeproc_ended.imp
  rintro _ k₂ ⟨h₂, hcode⟩
  have h₂ := h₁.trans h₂
  dsimp only at hcode
  rw [Function.update_self] at hcode
  rw [h₂.current, h₂.parent]
  refine ⟨fun hparent => ?_, fun hparent => ?_⟩
  · rw [if_pos hparent]
    have hset : Ended k₂ { k₂ with
      pool := Function.update k₂.pool k₂.current_proc { k₂.pool k₂.current_proc with
        state := .ZOMBIE } } k₂.current_proc .ZOMBIE := Ended.set ⟨rfl, rfl, rfl, rfl⟩
    rw [h₂.current] at hset
    refine ⟨h₂.trans hset, ?_⟩
    dsimp only
    rw [Function.update_self]
    exact hcode
  · rw [if_neg hparent]
    exact ⟨h₂, hcode⟩

/-! ## Waiting -/

/-- What a scan of `wait` does: a zombie of the caller goes and its code is
stored, or nothing. -/
inductive Waited (k k' : Kernel) (pid : Int) (code : Nat) : WaitScan → Prop
  | reaped (j : Nat) (hj : j < NPROC) (hkid : isKid k.current_proc pid (k.pool j) = true)
      (hzombie : (k.pool j).state = .ZOMBIE) (hended : Ended k k' j .UNUSED)
      (hcode : k'.mm.mem = k.mm.mem.put32 code (BitVec.ofInt 32 (k.pool j).exit_code).toNat) :
      Waited k k' pid code (.ret (k.pool j).pid)
  | nobody (hkept : AllKept k k') : Waited k k' pid code (.ret (-1))
  | later (hkept : ¬ Dead (k.pool k.current_proc) → AllKept k k') : Waited k k' pid code .yield

theorem storeCode_kept (code : Nat) (exit_code : Int) :
    Runs (fun _ => True) (storeCode code exit_code) k (fun _ k' => AllKept k k' ∧
      k'.mm.mem = k.mm.mem.put32 code (BitVec.ofInt 32 exit_code).toNat) := by
  unfold storeCode
  split
  · trivial
  · rw [runs_onMm, Runs.modify_iff]
    exact ⟨⟨fun _ => Kept.refl, fun _ => rfl, rfl, rfl⟩, rfl⟩

theorem waitTurn_waited (pid : Int) (code : Nat) :
    Runs (fun _ => True) (waitTurn pid code) k (fun r k' => Waited k k' pid code r) := by
  unfold waitTurn
  rw [Runs.bind_iff, Runs.get_iff]
  dsimp only
  split
  · rename_i j hj
    have hfound := List.find?_some hj
    rw [Bool.and_eq_true, beq_iff_eq] at hfound
    rw [Runs.bind_iff, runs_getProc, Runs.bind_iff, runs_setProc]
    apply (storeCode_kept _ _).bind
    rintro _ k₁ ⟨h₁, hmem⟩
    have hended :
      Ended k { k with pool := Function.update k.pool j { k.pool j with state := .UNUSED } }
      j .UNUSED :=
      Ended.set ⟨rfl, rfl, rfl, rfl⟩
    exact .reaped j (List.mem_range.mp (List.mem_of_find?_eq_some hj)) hfound.1 hfound.2
      (hended.kept h₁) hmem
  · split
    · rw [Runs.bind_iff, runs_modifyCurr, Runs.pure_iff]
      apply Waited.later
      intro hlive
      refine AllKept.setProc ⟨?_, ?_, rfl, rfl, rfl⟩ rfl
      · exact ⟨fun hc => (by cases hc), fun hc => absurd (Or.inl hc) hlive⟩
      · exact ⟨fun hc => (by cases hc), fun hc => absurd (Or.inr hc) hlive⟩
    · exact .nobody AllKept.refl

end ThuKernel
