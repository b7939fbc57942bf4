-- The scheduler and the switches between processes, and what each call does to
-- the states of the slots.
import ThuKernel.Kernel.Lifecycle

namespace ThuKernel.Scheduler

/-! ## scheduler, sched and yield -/

/-- `&idle` as a value of `current_proc`: no slot of the table. -/
def idle : Nat := NPROC

/-- `sched`, up to the switch. -/
def sched : Prog Kernel Unit := do
  let p ← curr_proc
  if p.state = .RUNNING then Prog.panic "sched running"
  else modify fun k => k.switch idle

def yield : Prog Kernel Unit := do
  modifyCurr fun p => { p with state := .RUNNABLE }
  sched

/-- Whose code the processor runs: `none` is the scheduler. The other two are
the variables of `scheduler`. -/
structure Cpu where
  k : Kernel
  runs : Option Nat
  p : Nat
  all_done : Bool

/-- One turn of the loops of `scheduler`: a look at one slot, or the end of a
round. -/
def scheduler : Prog Cpu Unit := do
  let s ← get
  if s.p < NPROC then
    if (s.k.pool s.p).state = .RUNNABLE then
      set { s with
        all_done := false
        k := { s.k with
          pool := Function.update s.k.pool s.p { s.k.pool s.p with state := .RUNNING }
          current_proc := s.p }
        runs := some s.p }
    else set { s with p := s.p + 1 }
  else if s.all_done then Prog.panic "all apps over\n"
  else set { s with p := 0, all_done := true }

/-- The calls that change the table. `wait` is one turn of its loop; `sched_yield` is
that of the timer, of the call of this name, and of the loops of the pipes. -/
inductive ProcCall where
  | sched_yield
  | fork
  | spawn (name : Bytes) (va : Nat)
  | exec (name : Bytes) (va : Nat)
  | wait (pid : Int) (code : Nat)
  | exit (code : Int)

/-- A call, up to its return to the user or to its switch to the scheduler. -/
def ProcCall.run (lk : Link) : ProcCall → Prog Kernel WaitScan
  | .sched_yield => do
    yield
    pure .yield
  | .fork => .ret <$> sys_clone lk
  | .spawn name va => .ret <$> sys_spawn lk name va
  | .exec name va => .ret <$> sys_exec lk name va
  | .wait pid code => do
    let r ← waitTurn pid code
    Prog.when (r = .yield) sched
    pure r
  | .exit code => do
    let _ ← sys_exit lk code
    sched
    pure .yield

/-- The same slot for the scheduler: its state and number, and what a slot
without a process has. -/
structure Same (p p' : proc) : Prop where
  state : p'.state = p.state
  pid : p'.pid = p.pid
  bare : Dead p → p'.pagetable = p.pagetable ∧ ∀ fd < FD_MAX, p'.files fd = p.files fd

/-- A step: a turn of the scheduler, a call of the process that runs, or anything
else that it does, which leaves the table alone. -/
inductive CpuStep (lk : Link) : Cpu → Cpu → Prop
  | turn {s s' : Cpu} (hruns : s.runs = none) (hrun : scheduler s = .ok ((), s')) : CpuStep lk s s'
  | call {s : Cpu} {k' : Kernel} {v : Int} (p : Nat) (call : ProcCall) (hruns : s.runs = some p)
      (hrun : call.run lk s.k = .ok (.ret v, k')) : CpuStep lk s { s with k := k' }
  | leave {s : Cpu} {k' : Kernel} (p : Nat) (call : ProcCall) (hruns : s.runs = some p)
      (hrun : call.run lk s.k = .ok (.yield, k')) :
      CpuStep lk s { s with k := k', runs := none, p := s.p + 1 }
  | other {s : Cpu} {k' : Kernel} (hsame : ∀ j, Same (s.k.pool j) (k'.pool j))
      (hcur : k'.current_proc = s.k.current_proc)
      (hnext : k'.PID = s.k.PID) : CpuStep lk s { s with k := k' }

variable {lk : Link} {E : Stop → Prop} {k k₁ k' : Kernel} {p p' : proc} {i np : Nat}

/-! ## What a call does to the table -/

namespace Same

theorem refl : Same p p := ⟨rfl, rfl, fun _ => ⟨rfl, fun _ _ => rfl⟩⟩

theorem dead (h : Same p p') : Dead p' ↔ Dead p := by
  unfold Dead
  rw [h.state]

theorem trans {p'' : proc} (h : Same p p') (h' : Same p' p'') : Same p p'' := by
  refine ⟨h'.state.trans h.state, h'.pid.trans h.pid, fun hd => ?_⟩
  have hb := h.bare hd
  have hb' := h'.bare (h.dead.mpr hd)
  exact ⟨hb'.1.trans hb.1, fun fd hfd => (hb'.2 fd hfd).trans (hb.2 fd hfd)⟩

/-- A live process may change all but its state and number. -/
theorem of_live (hlive : ¬ Dead p) (hstate : p'.state = p.state) (hpid : p'.pid = p.pid) :
    Same p p' :=
  ⟨hstate, hpid, fun hd => absurd hd hlive⟩

end Same

/-- No slot changes. -/
structure Quiet (k k' : Kernel) : Prop where
  pool : ∀ j, Same (k.pool j) (k'.pool j)
  current : k'.current_proc = k.current_proc
  next : k'.PID = k.PID

namespace Quiet

theorem refl : Quiet k k := ⟨fun _ => Same.refl, rfl, rfl⟩

theorem trans (h : Quiet k k₁) (h' : Quiet k₁ k') : Quiet k k' :=
  ⟨fun j => (h.pool j).trans (h'.pool j), h'.current.trans h.current, h'.next.trans h.next⟩

theorem of_pool (hpool : k'.pool = k.pool) (hcur : k'.current_proc = k.current_proc)
    (hnext : k'.PID = k.PID) :
    Quiet k k' := by
  refine ⟨fun j => ?_, hcur, hnext⟩
  rw [hpool]
  exact Same.refl

theorem setProc (h : Same (k.pool i) p) :
    Quiet k { k with pool := Function.update k.pool i p } := by
  refine ⟨fun j => ?_, rfl, rfl⟩
  dsimp only
  by_cases hj : j = i
  · rw [hj, Function.update_self]
    exact h
  · rw [Function.update_of_ne hj]
    exact Same.refl

theorem onMm {α : Type} (g : Prog Mm α) :
    Runs (fun _ => True) (ThuKernel.onMm g) k (fun _ k' => Quiet k k' ∧ k'.pool = k.pool) := by
  rw [runs_onMm]
  exact Runs.of_forall fun _ _ _ => ⟨of_pool rfl rfl rfl, rfl⟩

end Quiet

/-- One slot changes. -/
structure Only (i : Nat) (k k' : Kernel) : Prop where
  others : ∀ j ≠ i, Same (k.pool j) (k'.pool j)
  current : k'.current_proc = k.current_proc

namespace Only

theorem set : Only i k { k with pool := Function.update k.pool i p } := by
  refine ⟨fun j hj => ?_, rfl⟩
  dsimp only
  rw [Function.update_of_ne hj]
  exact Same.refl

theorem trans (h : Only i k k₁) (h' : Only i k₁ k') : Only i k k' :=
  ⟨fun j hj => (h.others j hj).trans (h'.others j hj), h'.current.trans h.current⟩

end Only

theorem Quiet.only (h : Quiet k k') (i : Nat) : Only i k k' := ⟨fun j _ => h.pool j, h.current⟩

/-- A free slot is taken by a new process. -/
structure Taken (np : Nat) (k k' : Kernel) : Prop where
  only : Only np k k'
  range : np < NPROC
  free : (k.pool np).state = .UNUSED
  state : (k'.pool np).state = .USED ∨ (k'.pool np).state = .RUNNABLE
  pid : (k'.pool np).pid = k.PID
  next : k'.PID = k.PID + 1

/-- A slot goes out of use, and has nothing any more. -/
structure Bared (i : Nat) (k k' : Kernel) : Prop where
  only : Only i k k'
  dead : Dead (k'.pool i)
  pid : (k'.pool i).pid = (k.pool i).pid
  pagetable : (k'.pool i).pagetable = 0
  files : ∀ fd < FD_MAX, (k'.pool i).files fd = none
  next : k'.PID = k.PID

/-- What a call does to the table: nothing, a free slot is taken, a zombie goes, or
the caller offers the processor. -/
inductive Event (k k' : Kernel) : Prop
  | quiet (h : Quiet k k')
  | taken (np : Nat) (h : Taken np k k')
  | reaped (j : Nat) (h : Only j k k') (hzombie : (k.pool j).state = .ZOMBIE)
      (hstate : (k'.pool j).state = .UNUSED)
      (hpid : (k'.pool j).pid = (k.pool j).pid)
      (hpagetable : (k'.pool j).pagetable = (k.pool j).pagetable)
      (hfiles : ∀ fd < FD_MAX, (k'.pool j).files fd = (k.pool j).files fd) (hnext : k'.PID = k.PID)
  | offered (h : Only k.current_proc k k') (hstate : (k'.pool k.current_proc).state = .RUNNABLE)
      (hpid : (k'.pool k.current_proc).pid = (k.pool k.current_proc).pid) (hnext : k'.PID = k.PID)

theorem Event.current (h : Event k k') : k'.current_proc = k.current_proc := by
  cases h with
  | quiet h => exact h.current
  | taken np h => exact h.only.current
  | reaped j h => exact h.current
  | offered h => exact h.current

namespace Taken

theorem live (h : Taken np k k') : ¬ Dead (k'.pool np) := by
  rintro (hc | hc)
  · rcases h.state with hs | hs
    · cases hc.symm.trans hs
    · cases hc.symm.trans hs
  · rcases h.state with hs | hs
    · cases hc.symm.trans hs
    · cases hc.symm.trans hs

theorem quiet (h : Taken np k k₁) (h' : Quiet k₁ k') : Taken np k k' := by
  refine ⟨h.only.trans (h'.only np), h.range, h.free, ?_, (h'.pool np).pid.trans h.pid,
    h'.next.trans h.next⟩
  rw [(h'.pool np).state]
  exact h.state

theorem after (h : Quiet k k₁) (h' : Taken np k₁ k') : Taken np k k' := by
  refine ⟨(h.only np).trans h'.only, h'.range, ?_, h'.state, ?_, ?_⟩
  · rw [← (h.pool np).state]
    exact h'.free
  · rw [← h.next]
    exact h'.pid
  · rw [← h.next]
    exact h'.next

/-- The new process may run. -/
theorem runnable (h : Taken np k k₁) {q : proc} (hq : q = k₁.pool np) (parent : Option Nat) :
    Taken np k
    { k₁ with pool := Function.update k₁.pool np { q with parent, state := .RUNNABLE } } := by
  subst hq
  refine ⟨h.only.trans Only.set, h.range, h.free, Or.inr ?_, ?_, h.next⟩
  · dsimp only
    rw [Function.update_self]
  · dsimp only
    rw [Function.update_self]
    exact h.pid

end Taken

/-! ## The calls -/

theorem copyinName_quiet (name : Bytes) (va : Nat) :
    Runs (fun _ => True) (copyinName name va) k (fun _ k' => Quiet k k') := by
  unfold copyinName
  rw [Runs.bind_iff, runs_curr_proc, Runs.bind_iff, runs_onMm]
  exact Runs.of_forall fun _ _ _ => Quiet.of_pool rfl rfl rfl

theorem allocproc_taken : Runs (fun _ => True) (allocproc lk) k (fun r k' =>
    (r = none ∧ k' = k) ∨ ∃ np, r = some np ∧ Taken np k k') := by
  rw [runs_allocproc]
  refine ⟨fun _ => Or.inl ⟨rfl, rfl⟩, fun np hslot => Runs.of_forall fun root s _ =>
    ⟨fun _ => trivial, fun _ => ?_⟩⟩
  refine Or.inr ⟨np, rfl, ⟨⟨fun j hj => ?_, rfl⟩, freeSlot_lt hslot, freeSlot_some hslot,
    Or.inl ?_, ?_, rfl⟩⟩
  · dsimp only
    rw [Function.update_of_ne hj]
    exact Same.refl
  · dsimp only
    rw [Function.update_self]
    rfl
  · dsimp only
    rw [Function.update_self]
    rfl

theorem dupFile_quiet {fd : Nat} (hlive : ¬ Dead (k.pool np)) :
    Runs (fun _ => True) (dupFile i np fd) k (fun _ k' => Quiet k k') := by
  unfold dupFile
  rw [Runs.bind_iff, runs_getProc]
  split
  · exact Quiet.refl
  · rw [Runs.bind_iff, runs_getFile, Runs.when_iff]
    refine ⟨fun _ => ?_, fun _ => Quiet.refl⟩
    rw [Runs.bind_iff, runs_setFile, Runs.bind_iff, runs_getProc, runs_setProc]
    have h₁ : ∀ filepool, Quiet k { k with filepool := filepool } :=
      fun _ => Quiet.of_pool rfl rfl rfl
    refine (h₁ _).trans (Quiet.setProc ?_)
    exact Same.of_live hlive rfl rfl

theorem loader_quiet {id : Nat} (hlive : ¬ Dead (k.pool i)) :
    Runs (fun _ => True) (loader lk id i) k (fun _ k' => Quiet k k') := by
  unfold loader
  split
  · trivial
  · rw [Runs.bind_iff, runs_getProc]
    apply (Quiet.onMm _).bind
    rintro sz k₁ ⟨h₁, hpool⟩
    rw [Runs.bind_iff, runs_getProc, runs_setProc]
    refine h₁.trans (Quiet.setProc (Same.of_live ?_ rfl rfl))
    rw [hpool]
    exact hlive

/-- A `fork` takes a slot, or leaves the table as it is; without a free slot, it
may offer the processor. -/
theorem fork_event (hlive : ¬ Dead (k.pool k.current_proc)) :
    Runs (fun _ => True) (fork lk) k (fun _ k' => Event k k') := by
  rw [runs_fork]
  apply allocproc_taken.imp
  rintro r k₁ hr _ rfl _ rfl _ rfl _ rfl
  have hnp : ¬ Dead (k₁.pool (r.getD k.current_proc)) := by
    rcases hr with ⟨rfl, rfl⟩ | ⟨np, rfl, htaken⟩
    · exact hlive
    · exact htaken.live
  apply (Quiet.onMm _).imp
  rintro ret k₂ ⟨h₂, hpool₂⟩
  constructor
  · intro _
    rcases hr with ⟨rfl, rfl⟩ | ⟨np, rfl, htaken⟩
    · exact .quiet h₂
    · exact .taken np (htaken.quiet h₂)
  · intro _
    have h₃ :
      Quiet k₂
      { k₂ with
        pool := Function.update k₂.pool (r.getD k.current_proc)
          { k₁.pool (r.getD k.current_proc) with
        sz := (k₁.pool k.current_proc).sz } } := by
      rw [← hpool₂]
      refine Quiet.setProc (Same.of_live ?_ rfl rfl)
      rw [hpool₂]
      exact hnp
    apply (Quiet.onMm _).imp
    rintro _ k₄ ⟨h₄, _⟩
    have hloop : Runs (fun _ => True)
        (Prog.forUp (dupFile k.current_proc (r.getD k.current_proc)) 0 FD_MAX) k₄
        (fun _ k' => Quiet k₁ k') := by
      refine Runs.forUp (fun _ k' => Quiet k₁ k') ?_ (h₂.trans (h₃.trans h₄))
      intro fd k₅ _ _ h₅
      refine (dupFile_quiet ?_).imp fun _ k₆ h₆ => h₅.trans h₆
      rwa [(h₅.pool _).dead]
    apply hloop.imp
    rintro _ k₅ h₅
    apply (Quiet.onMm _).imp
    rintro _ k₆ ⟨h₆, _⟩
    have h₆ := h₅.trans h₆
    rcases hr with ⟨rfl, rfl⟩ | ⟨np, rfl, htaken⟩
    · refine .offered ⟨((h₆.only k₁.current_proc).trans Only.set).others, h₆.current⟩ ?_ ?_ h₆.next
      · dsimp only
        rw [Option.getD_none, Function.update_self]
      · dsimp only
        rw [Option.getD_none, Function.update_self]
        exact (h₆.pool _).pid
    · exact .taken np ((htaken.quiet h₆).runnable rfl _)

theorem spawn_event (name : CStr) :
    Runs (fun _ => True) (spawn lk name) k (fun _ k' => ∃ np, Taken np k k') := by
  rw [runs_spawn]
  apply allocproc_taken.imp
  rintro r k₁ (⟨rfl, _⟩ | ⟨np, rfl, htaken⟩)
  · exact ⟨fun _ => trivial, fun _ _ hc => by cases hc⟩
  · refine ⟨fun _ => trivial, ?_⟩
    rintro _ _ ⟨⟩ rfl
    have htaken := htaken.runnable rfl (some k.current_proc)
    refine ⟨fun _ => ⟨np, htaken⟩, fun id _ => ?_⟩
    exact (loader_quiet htaken.live).imp fun _ k₂ h₂ => ⟨np, htaken.quiet h₂⟩

theorem exec_quiet (name : CStr) (hlive : ¬ Dead (k.pool k.current_proc)) :
    Runs (fun _ => True) (exec lk name) k (fun _ k' => Quiet k k') := by
  unfold exec
  split
  · exact Quiet.refl
  · rw [Runs.bind_iff, runs_curr_proc]
    apply (Quiet.onMm _).bind
    rintro _ k₁ ⟨h₁, _⟩
    apply (Quiet.onMm _).bind
    rintro pagetable k₂ ⟨h₂, _⟩
    have h₂ := h₁.trans h₂
    have hlive₂ : ¬ Dead (k₂.pool k₂.current_proc) := by
      rw [h₂.current, (h₂.pool _).dead]
      exact hlive
    rw [Runs.bind_iff, runs_modifyCurr]
    have h₃ :
      Quiet k₂
      { k₂ with pool := Function.update k₂.pool k₂.current_proc { k₂.pool k₂.current_proc with
        sz := 0, pagetable := pagetable } } := Quiet.setProc (Same.of_live hlive₂ rfl rfl)
    split
    · trivial
    · rw [Runs.bind_iff, Runs.get_iff]
      apply (loader_quiet ?_).bind
      · rintro _ k₄ h₄
        exact (h₂.trans h₃).trans h₄
      · rwa [(h₃.pool _).dead]

/-! ## The end of a process -/

theorem closeFiles_bared : Runs (fun _ => True) (closeFiles lk i) k (fun _ k' => Only i k k' ∧
    (k'.pool i).state = (k.pool i).state ∧ (k'.pool i).pid = (k.pool i).pid ∧
    (k'.pool i).pagetable = (k.pool i).pagetable ∧ (k'.pool i).parent = (k.pool i).parent ∧
    k'.PID = k.PID ∧ ∀ fd < FD_MAX, (k'.pool i).files fd = none) := by
  refine (Runs.forUp (fun n k' => Only i k k' ∧ (k'.pool i).state = (k.pool i).state ∧
    (k'.pool i).pid = (k.pool i).pid ∧ (k'.pool i).pagetable = (k.pool i).pagetable ∧
    (k'.pool i).parent = (k.pool i).parent ∧ k'.PID = k.PID ∧
    ∀ fd < n, (k'.pool i).files fd = none) ?_ ?_)
  · rintro fd k₁ _ _ ⟨honly, hstate, hpid, hpagetable, hparent, hnext, hfiles⟩
    rw [Runs.bind_iff, runs_getProc]
    cases hfd : (k₁.pool i).files fd with
    | none =>
      refine ⟨honly, hstate, hpid, hpagetable, hparent, hnext, fun n hn => ?_⟩
      by_cases hnfd : n = fd
      · rw [hnfd, hfd]
      · exact hfiles n (by omega)
    | some f =>
      apply (fileclose_keepsPool f k₁).bind
      rintro _ k₂ ⟨hpool, hcur, hnext₂⟩
      rw [Runs.bind_iff, runs_getProc, runs_setProc, hpool]
      refine ⟨⟨fun j hj => ?_, hcur.trans honly.current⟩, ?_, ?_, ?_, ?_, hnext₂.trans hnext,
        fun n hn => ?_⟩
      · dsimp only
        rw [Function.update_of_ne hj]
        exact honly.others j hj
      · dsimp only
        rw [Function.update_self]
        exact hstate
      · dsimp only
        rw [Function.update_self]
        exact hpid
      · dsimp only
        rw [Function.update_self]
        exact hpagetable
      · dsimp only
        rw [Function.update_self]
        exact hparent
      · dsimp only
        rw [Function.update_self]
        dsimp only
        by_cases hnfd : n = fd
        · rw [hnfd, Function.update_self]
        · rw [Function.update_of_ne hnfd]
          exact hfiles n (by omega)
  · exact ⟨Quiet.refl.only i, rfl, rfl, rfl, rfl, rfl,
      fun fd hfd => absurd hfd (Nat.not_lt_zero fd)⟩

theorem freeproc_bared : Runs (fun _ => True) (freeproc lk i) k (fun _ k' => Bared i k k') := by
  rw [runs_freeproc]
  have hfree : Runs (fun _ => True) (Prog.when ((k.pool i).pagetable ≠ 0)
      (onMm (proc_freepagetable lk (k.pool i).pagetable (k.pool i).sz))) k
      (fun _ k' => Quiet k k') :=
    Runs.when_iff.mpr ⟨fun _ => (Quiet.onMm _).imp fun _ _ h => h.1, fun _ => Quiet.refl⟩
  apply hfree.imp
  rintro _ k₁ h₁
  apply closeFiles_bared.imp
  rintro _ k₂ ⟨honly, hstate, hpid, hpagetable, _, hnext, hfiles⟩
  dsimp only at hstate hpid hpagetable hnext
  rw [Function.update_self] at hstate hpid hpagetable
  exact ⟨((h₁.only i).trans Only.set).trans honly, Or.inl hstate, hpid.trans (h₁.pool i).pid,
    hpagetable, hfiles, hnext.trans h₁.next⟩

theorem exit_bared (code : Int) :
    Runs (fun _ => True) (exit lk code) k (fun _ k' => Bared k.current_proc k k') := by
  rw [runs_exit]
  apply freeproc_bared.imp
  rintro _ k₂ h₂
  have hpid := h₂.pid
  dsimp only at hpid
  rw [Function.update_self] at hpid
  have hbared : Bared k.current_proc k k₂ :=
    ⟨Only.set.trans h₂.only, h₂.dead, hpid, h₂.pagetable, h₂.files, h₂.next⟩
  have hcur : k₂.current_proc = k.current_proc := hbared.only.current
  refine ⟨fun _ => ?_, fun _ => hbared⟩
  have hset : Only k₂.current_proc k₂
      { k₂ with pool := Function.update k₂.pool k₂.current_proc { k₂.pool k₂.current_proc with
      state := .ZOMBIE } } := Only.set
  rw [hcur] at hset ⊢
  refine ⟨hbared.only.trans hset, Or.inr ?_, ?_, ?_, ?_, hbared.next⟩
  · dsimp only
    rw [Function.update_self]
  · dsimp only
    rw [Function.update_self]
    exact hpid
  · dsimp only
    rw [Function.update_self]
    exact hbared.pagetable
  · dsimp only
    rw [Function.update_self]
    exact hbared.files

/-! ## Waiting -/

theorem storeCode_quiet (code : Nat) (exit_code : Int) :
    Runs (fun _ => True) (storeCode code exit_code) k (fun _ k' => Quiet k k' ∧
      k'.pool = k.pool) := by
  unfold storeCode
  split
  · trivial
  · exact Quiet.onMm _

/-- A scan that returns takes a zombie or nothing; one that does not offers the
processor. -/
theorem waitTurn_event (pid : Int) (code : Nat) :
    Runs (fun _ => True) (waitTurn pid code) k (fun _ k' => Event k k') := by
  unfold waitTurn
  rw [Runs.bind_iff, Runs.get_iff]
  dsimp only
  split
  · rename_i j hj
    have hfound := List.find?_some hj
    rw [Bool.and_eq_true, beq_iff_eq] at hfound
    rw [Runs.bind_iff, runs_getProc, Runs.bind_iff, runs_setProc]
    apply (storeCode_quiet _ _).bind
    rintro _ k₁ ⟨h₁, hpool⟩
    rw [Runs.pure_iff]
    refine .reaped j (Only.set.trans (h₁.only j)) hfound.2 ?_ ?_ ?_ (fun fd _ => ?_) h₁.next
    · rw [hpool]
      dsimp only
      rw [Function.update_self]
    · rw [hpool]
      dsimp only
      rw [Function.update_self]
    · rw [hpool]
      dsimp only
      rw [Function.update_self]
    · rw [hpool]
      dsimp only
      rw [Function.update_self]
  · split
    · rw [Runs.bind_iff, runs_modifyCurr, Runs.pure_iff]
      refine .offered Only.set ?_ ?_ rfl
      · dsimp only
        rw [Function.update_self]
      · dsimp only
        rw [Function.update_self]
    · exact .quiet Quiet.refl

/-! ## Every call -/

theorem runs_sched : Runs (fun _ => True) sched k (fun _ k' => k' = k.switch idle ∧
    (k.pool k.current_proc).state ≠ .RUNNING) := by
  unfold sched
  rw [Runs.bind_iff, runs_curr_proc]
  split
  · trivial
  · rename_i hne
    exact ⟨rfl, hne⟩

/-- A call that returns makes one event; a call that leaves has made one or has
ended its process before `sched`. -/
def Outcome (k : Kernel) (r : WaitScan) (k' : Kernel) : Prop :=
  match r with
  | .ret _ => Event k k'
  | .yield => ∃ k₁, (Event k k₁ ∨
    Bared k.current_proc k k₁) ∧ (k₁.pool k.current_proc).state ≠ .RUNNING ∧ k' = k₁.switch idle

theorem ProcCall.run_outcome (call : ProcCall) (hlive : ¬ Dead (k.pool k.current_proc)) :
    Runs (fun _ => True) (call.run lk) k (fun r k' => Outcome k r k') := by
  cases call with
  | sched_yield =>
    show Runs _ (do yield; pure WaitScan.yield) _ _
    unfold yield
    rw [Runs.bind_iff, Runs.bind_iff, runs_modifyCurr]
    apply runs_sched.imp
    rintro _ k' ⟨rfl, hne⟩
    refine ⟨_, Or.inl (.offered Only.set ?_ ?_ rfl), hne, rfl⟩
    · dsimp only
      rw [Function.update_self]
    · dsimp only
      rw [Function.update_self]
  | fork =>
    apply Runs.map_iff.mpr
    exact (fork_event hlive).imp fun _ _ h => h
  | spawn name va =>
    apply Runs.map_iff.mpr
    apply (copyinName_quiet name va).bind
    rintro name k₁ h₁
    apply (spawn_event name).imp
    rintro _ k' ⟨np, h⟩
    exact .taken np (.after h₁ h)
  | exec name va =>
    apply Runs.map_iff.mpr
    apply (copyinName_quiet name va).bind
    rintro name k₁ h₁
    refine (exec_quiet name ?_).imp fun _ _ h => .quiet (h₁.trans h)
    rwa [h₁.current, (h₁.pool _).dead]
  | wait pid code =>
    apply (waitTurn_event pid code).bind
    intro r k₁ h₁
    rw [Runs.bind_iff, Runs.when_iff]
    cases r with
    | ret v => exact ⟨fun hc => (by cases hc), fun _ => h₁⟩
    | yield =>
      refine ⟨fun _ => ?_, fun hc => absurd rfl hc⟩
      apply runs_sched.imp
      rintro _ k' ⟨rfl, hne⟩
      rw [h₁.current] at hne
      exact ⟨k₁, Or.inl h₁, hne, rfl⟩
  | exit code =>
    show Runs _ (do let _ ← sys_exit lk code; sched; pure WaitScan.yield) _ _
    unfold sys_exit
    rw [Runs.bind_iff]
    apply (exit_bared code).bind
    rintro _ k₁ h₁
    rw [Runs.pure_iff, Runs.bind_iff]
    apply runs_sched.imp
    rintro _ k' ⟨rfl, hne⟩
    rw [h₁.only.current] at hne
    exact ⟨k₁, Or.inr h₁, hne, rfl⟩

end ThuKernel.Scheduler
