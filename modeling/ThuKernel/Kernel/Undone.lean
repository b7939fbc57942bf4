-- What `fork` and `spawn` leave behind when they fail. Neither of them undoes
-- what it did: the slot of the child stays taken.
import ThuKernel.Kernel.Fork
import ThuKernel.Kernel.Lifecycle

namespace ThuKernel

variable {lk : Link} {k k' : Kernel} {name : CStr}

/-! ## fork -/

/-- The process table is full, or memory runs out at a page of `uvmcopy`. -/
def ForkFails (lk : Link) (k : Kernel) : Prop :=
  freeSlot k.pool = none ∨ ∃ np k₁ m, allocproc lk k = .ok (some np, k₁) ∧
    uvmcopy lk (k₁.pool k.current_proc).pagetable (k₁.pool np).pagetable
    (k₁.pool k.current_proc).sz k₁.mm =
      .ok (-1, m)

/-- What a call that failed has to leave: the table of processes, the entries of
their page tables, the references of the files and the free pages. -/
structure Unchanged (lk : Link) (k k' : Kernel) : Prop where
  pool : ∀ i, k'.pool i = k.pool i
  tables : ∀ i, ¬ Dead (k.pool i) → SamePtes (k.pool i).pagetable k.mm k'.mm
  refs : ∀ f, (k'.filepool f).ref = (k.filepool f).ref
  free : ∀ a, IsFree lk k'.mm a ↔ IsFree lk k.mm a

/-- `fork` returns the number of a process, also when it failed. -/
theorem fork_nonneg : Runs (fun _ => True) (fork lk) k (fun r _ => 0 ≤ r) := by
  rw [runs_fork]
  refine Runs.of_forall fun r k₁ _ _ _ _ _ _ _ _ _ => Runs.of_forall fun copied k₂ _ => ?_
  refine ⟨fun _ => Int.natCast_nonneg _, fun _ => ?_⟩
  refine Runs.of_forall fun _ k₃ _ => Runs.of_forall fun _ k₄ _ => Runs.of_forall fun _ k₅ _ => ?_
  exact Int.natCast_nonneg _

/-- A `fork` that fails returns the number of a process: it never returns -1
with all as before. -/
theorem a_failed_fork_is_never_undone (_h : ForkFails lk k) :
    ¬ Runs (fun _ => False) (fork lk) k (fun r k' => r = -1 ∧ Unchanged lk k k') := by
  intro hundone
  obtain ⟨r, _, _, hnonneg, hr, _⟩ := (fork_nonneg.and hundone).exists_ok fun e he => he.2
  omega

/-! ## spawn -/

/-- The caller would wait for process `j`. -/
def IsKid (k : Kernel) (j : Nat) : Prop :=
  j < NPROC ∧ (k.pool j).state ≠ .UNUSED ∧ (k.pool j).parent = some k.current_proc

/-- What a `spawn` that failed has to leave: the free slots, the free pages, and
the processes that the caller may wait for. -/
structure SpawnUndone (lk : Link) (k k' : Kernel) : Prop where
  slots : ∀ i, (k.pool i).state = .UNUSED → (k'.pool i).state = .UNUSED
  free : ∀ a, IsFree lk k'.mm a ↔ IsFree lk k.mm a
  kids : ∀ j, IsKid k' j → IsKid k j

/-- A `spawn` of no application makes a process all the same. -/
theorem spawn_leaves_kid (hname : get_id_by_name lk name = none) :
    Runs (fun _ => True) (spawn lk name) k (fun r k' => r = -1 ∧ ∃ np, freeSlot k.pool = some np ∧
      (k'.pool np).state = .RUNNABLE ∧ IsKid k' np) := by
  rw [runs_spawn]
  apply allocproc_created.imp
  rintro r k₁ (⟨rfl, _, rfl⟩ | ⟨np, rfl, hc, _⟩)
  · exact ⟨fun _ => trivial, fun _ _ hc => by cases hc⟩
  · refine ⟨fun _ => trivial, ?_⟩
    rintro _ _ ⟨⟩ rfl
    refine ⟨fun _ => ?_, fun id hid => by rw [hname] at hid; cases hid⟩
    have hnp :
        (Function.update k₁.pool np { k₁.pool np with
          parent := some k.current_proc
          state := .RUNNABLE }) np =
        { k₁.pool np with parent := some k.current_proc, state := .RUNNABLE } :=
        Function.update_self _ _ _
    refine ⟨rfl, np, hc.slot, ?_, freeSlot_lt hc.slot, ?_, ?_⟩
    · dsimp only
      rw [hnp]
    · dsimp only
      rw [hnp]
      exact fun h => by cases h
    · dsimp only
      rw [hnp, hc.current]

/-- A `spawn` that does not find its application never undoes what it did: its
slot is taken for ever, by a process that may run. -/
theorem a_failed_spawn_is_never_undone (hname : get_id_by_name lk name = none) :
    ¬ Runs (fun _ => False) (spawn lk name) k (fun r k' => r = -1 ∧ SpawnUndone lk k k') := by
  intro hundone
  obtain ⟨r, k', _, ⟨_, np, hslot, hstate, _⟩, _, hsame⟩ :=
    ((spawn_leaves_kid hname).and hundone).exists_ok fun e he => he.2
  rw [hsame.slots np (freeSlot_some hslot)] at hstate
  cases hstate

/-! ## A full table, and an unknown name -/

section Failing

theorem onePageKernel_full : freeSlot onePageKernel.pool = none := by
  unfold freeSlot
  decide +kernel

/-- In a table without a free slot. -/
theorem a_failed_fork_is_never_undone_full : ¬ Runs (fun _ => False) (fork noLink) onePageKernel
    (fun r k' => r = -1 ∧ Unchanged noLink onePageKernel k') :=
  a_failed_fork_is_never_undone (Or.inl onePageKernel_full)

theorem a_full_table_gives_a_pid : ¬ ∀ (lk : Link) (k : Kernel), ForkFails lk k →
    Runs (fun _ => False) (fork lk) k (fun r k' => r = -1 ∧ Unchanged lk k k') := by
  intro hall
  obtain ⟨r, _, _, hnonneg, hr, _⟩ :=
    (fork_nonneg.and (hall noLink onePageKernel (Or.inl onePageKernel_full))).exists_ok fun e he =>
      he.2
  omega

/-- The name `a`. -/
def unknownName : CStr := CStr.ofBytes (zeros.store 0 [97, 0]) 0 PATH_SIZE

theorem unknownName_none : get_id_by_name pageLink unknownName = none := rfl

/-- A process that runs, free slots and twenty free pages. -/
def freeSlotsKernel : Kernel := forkKernel (freePages pageLink twentyPages) 0 0

theorem spawn_returns : (spawn pageLink unknownName).returns freeSlotsKernel = true := by
    decide +kernel

/-- When there is no application at all. -/
theorem a_failed_spawn_is_never_undone_unknown :
    ¬ Runs (fun _ => False) (spawn pageLink unknownName) freeSlotsKernel
    (fun r k' => r = -1 ∧ SpawnUndone pageLink freeSlotsKernel k') :=
  a_failed_spawn_is_never_undone unknownName_none

/-- The call returns -1, and the slot of the child is in use. -/
theorem an_unknown_name_takes_a_slot :
    ¬ ∀ (lk : Link) (k : Kernel) (name : CStr), get_id_by_name lk name = none →
    Runs (fun _ => False) (spawn lk name) k (fun r k' => r = -1 ∧ SpawnUndone lk k k') := by
  intro hall
  obtain ⟨r, hrun⟩ := Prog.returns_iff.mp spawn_returns
  obtain ⟨_, np, hslot, hstate, _⟩ := (spawn_leaves_kid unknownName_none).of_ok hrun
  have hsame := ((hall pageLink freeSlotsKernel unknownName unknownName_none).of_ok hrun).2
  rw [hsame.slots np (freeSlot_some hslot)] at hstate
  cases hstate

end Failing

end ThuKernel
