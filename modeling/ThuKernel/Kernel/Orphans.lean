-- Processes that outlive the process that made them: the slot of the parent is
-- free, and may go to another process.
import ThuKernel.Kernel.Families
import ThuKernel.Kernel.Fork

namespace ThuKernel

variable {lk : Link} {E : Stop → Prop} {k k' : Kernel} {i np r root tf m : Nat} {R X : Nat → Prop}
variable {s s₁ : Mm} {l l₁ : List Nat}

/-! ## A process without files exits -/

theorem closeFiles_none (h : ∀ fd, (k.pool i).files fd = none) :
    Runs E (closeFiles lk i) k (fun _ k' => k' = k) := by
  refine Runs.forUp (fun _ k' => k' = k) ?_ rfl
  rintro fd k₁ _ _ rfl
  rw [Runs.bind_iff, runs_getProc, h fd]
  exact rfl

/-- The slot of a process after its exit. -/
def exited (p : proc) (code : Int) : proc :=
  { p with
    exit_code := code
    pagetable := 0
    state := if p.parent.isSome then .ZOMBIE else .UNUSED }

/-- A process with an address space that can be freed, and with no file. -/
structure Exiting (lk : Link) (k : Kernel) (R X : Nat → Prop) (l : List Nat) : Prop where
  spaces : Spaces lk k.mm R l X
  root : R (k.pool k.current_proc).pagetable
  nonzero : (k.pool k.current_proc).pagetable ≠ 0
  size : (k.pool k.current_proc).sz ≤ TRAPFRAME
  freeable : Freeable lk k.mm.mem (k.pool k.current_proc).pagetable (k.pool k.current_proc).sz
  files : ∀ fd, (k.pool k.current_proc).files fd = none

theorem Exiting.exit_runs (h : Exiting lk k R X l) (code : Int) :
    Runs E (exit lk code) k (fun _ k' => ∃ mm l', k' = { k with
      mm := mm, pool := Function.update k.pool k.current_proc
        (exited (k.pool k.current_proc) code) } ∧
      Gone lk R X (k.pool k.current_proc).pagetable (k.pool k.current_proc).sz k.mm l mm l') := by
  rw [runs_exit, runs_freeproc, Runs.when_iff]
  dsimp only
  rw [Function.update_self]
  refine ⟨fun _ => ?_, fun hc => absurd h.nonzero hc⟩
  rw [runs_onMm]
  apply (proc_freepagetable_runs h.spaces h.root h.size).mono
  · intro e he
    exact absurd h.freeable he
  rintro _ mm ⟨_, l', hgone⟩
  dsimp only
  rw [Function.update_self, Function.update_idem]
  apply (closeFiles_none fun fd => ?_).imp
  · rintro _ _ rfl
    dsimp only
    rw [Function.update_self]
    refine ⟨fun hparent => ?_, fun hparent => ⟨mm, l', ?_, hgone⟩⟩
    · refine ⟨mm, l', ?_, hgone⟩
      rw [Function.update_idem, exited, if_pos hparent]
    · rw [exited, if_neg hparent]
  · dsimp only
    rw [Function.update_self]
    exact h.files fd

/-! ## A loaded process forks -/

/-- A copy of a loaded address space is one. -/
theorem Child.loaded (h : Child lk R X tf r m root s l s₁ l₁) (hm : m ≤ trapframePage) {tf' : Nat}
    (hl : Loaded lk s.mem r tf' m) : Loaded lk s₁.mem root tf m := by
  refine ⟨?_, ?_, fun q hq => (h.pages q hq).isUserPte (hl.pages q hq), fun q hq hle h1 h2 => ?_⟩
  · rw [h.rest _ (by decide) (hm.trans (by decide)), procPtes, if_pos rfl]
  · rw [h.rest _ (by decide) hm, procPtes, if_neg (by decide), if_pos rfl]
  · rw [h.rest q hq hle, procPtes_user h1 h2]

/-- The current process was loaded, has no file, and runs. Slot `np` is free. -/
structure Alone (lk : Link) (k : Kernel) (R X : Nat → Prop) (l : List Nat) (np : Nat) : Prop where
  spaces : Spaces lk k.mm R l X
  root : R (k.pool k.current_proc).pagetable
  nonzero : (k.pool k.current_proc).pagetable ≠ 0
  slot : freeSlot k.pool = some np
  kept : X (k.pool np).trapframe
  live : ¬ Dead (k.pool k.current_proc)
  size : (k.pool k.current_proc).sz ≤ TRAPFRAME
  nonempty : (k.pool k.current_proc).sz ≠ 0
  frame : IsFrame lk (k.pool k.current_proc).trapframe
  loaded : Loaded lk k.mm.mem (k.pool k.current_proc).pagetable (k.pool k.current_proc).trapframe
    (npages (k.pool k.current_proc).sz)
  files : ∀ fd, (k.pool k.current_proc).files fd = none
  nofiles : ∀ fd, (k.pool np).files fd = none

namespace Alone

theorem forking (h : Alone lk k R X l np) : Forking lk k R X l np :=
  ⟨h.spaces, h.root, h.slot, h.kept, fun hc => h.live (Or.inl hc), h.size, h.loaded.trampoline,
    h.loaded.trapframe, h.frame, fun _ hq h1 h2 hm => (loaded_users h.loaded hq h1 h2 hm).1⟩

/-- With enough memory, `fork` makes a child of it. -/
theorem fork_runs (h : Alone lk k R X l np)
    (hlen : 3 + (npages (k.pool k.current_proc).sz +
    tablesFor (npages (k.pool k.current_proc).sz)) ≤ l.length) :
    Runs (fun _ => False) (fork lk) k (fun _ k' => Created k k' np ∧ ∃ root l',
      Child lk R X (k.pool np).trapframe (k.pool k.current_proc).pagetable
      (npages (k.pool k.current_proc).sz) root
        k.mm l k'.mm l' ∧ NewChild lk k k' np root (k.pool k.current_proc).sz) := by
  have hmapped : ∀ q < npages (k.pool k.current_proc).sz,
      IsMapped k.mm.mem (k.pool k.current_proc).pagetable q :=
      fun q hq => (h.loaded.pages q hq).decode.1
  have hboth := (ThuKernel.fork_runs h.forking rfl rfl).and (@fork_created lk k)
  apply hboth.mono
  · rintro e ⟨hfew | ⟨q, hq, hun, _⟩, _⟩
    · omega
    · exact hun (hmapped q hq)
  rintro ret k' ⟨⟨hret, _, root, l', m, hchild, hcase⟩, hcreated⟩
  refine ⟨?_, ?_⟩
  · rcases hcreated with ⟨np', hnew, _⟩ | ⟨hself, _⟩
    · have hslot := hnew.slot
      rw [h.slot] at hslot
      cases hslot
      exact hnew
    · have hfull := hself.full
      rw [h.slot] at hfull
      cases hfull
  · rcases hcase with ⟨rfl, _, hnew, _⟩ | ⟨_, _, v, hv, _, hfew⟩
    · exact ⟨root, l', hchild, hnew⟩
    · have := tablesFor_mono (v := v + 1) hv
      omega

end Alone

/-! ## The first process leaves its child behind -/

theorem freeSlot_eq (hnp : np < NPROC) (h : (k.pool np).state = .UNUSED)
    (hbefore : ∀ j < np, (k.pool j).state ≠ .UNUSED) : freeSlot k.pool = some np := by
  unfold freeSlot
  rw [List.find?_range_eq_some]
  refine ⟨beq_iff_eq.mpr h, List.mem_range.mpr hnp, fun j hj => ?_⟩
  rw [Bool.not_eq_true', beq_eq_false_iff_ne]
  exact hbefore j hj

/-- A `fork` that does not stop is a call that returns. -/
theorem runs_forkCall {Q : Int → Kernel → Prop} (hrun : Runs (fun _ => False) (fork lk) k Q) :
    ∃ r a k', Q a k' ∧ LifeCall.fork.run lk k = .ok (r, k') := by
  have hcall : Runs (fun _ => False) (LifeCall.fork.run lk) k fun _ k' => ∃ a, Q a k' :=
    Runs.map_iff.mpr (hrun.imp fun a _ ha => ⟨a, ha⟩)
  obtain ⟨r, k', hcall, a, ha⟩ := hcall.exists_ok fun _ he => he
  exact ⟨r, a, k', ha, hcall⟩

theorem runs_exitCall {code : Int} {Q : Unit → Kernel → Prop}
    (hrun : Runs (fun _ => False) (exit lk code) k Q) :
    ∃ r k', Q () k' ∧ (LifeCall.exit code).run lk k = .ok (r, k') := by
  have hcall : Runs (fun _ => False) ((LifeCall.exit code).run lk) k fun _ k' => Q () k' :=
    Runs.map_iff.mpr (Runs.bind_iff.mpr (hrun.imp fun _ _ ha => ha))
  obtain ⟨r, k', hcall, ha⟩ := hcall.exists_ok fun _ he => he
  exact ⟨r, k', ha, hcall⟩

/-- The child that was made may exit. -/
theorem Alone.child_exiting {root : Nat} (h : Alone lk k R X l np)
    (hchild : Child lk R X (k.pool np).trapframe (k.pool k.current_proc).pagetable
      (npages (k.pool k.current_proc).sz) root k.mm l k'.mm l₁)
    (hnew : NewChild lk k k' np root (k.pool k.current_proc).sz) :
    Exiting lk (k'.switch np) (fun p => R p ∨ p = root) (fun a => X a ∧ a ≠ (k.pool np).trapframe)
    l₁ := by
  obtain ⟨q', hpool, hroot, hsz, htf, _⟩ := hnew.pool
  have hnp := npages_trapframe h.size
  have hone : k'.pool np = q' := by
    rw [hpool, Function.update_self]
  refine ⟨hchild.spaces, ?_, ?_, ?_, ?_, ?_⟩
  · dsimp only [Kernel.switch]
    rw [hone, hroot]
    exact Or.inr rfl
  · dsimp only [Kernel.switch]
    rw [hone, hroot]
    exact (hchild.space.tables root (tableOf_root _ _)).ne_zero
  · dsimp only [Kernel.switch]
    rw [hone, hsz]
    exact h.size
  · dsimp only [Kernel.switch]
    rw [hone, hroot, hsz]
    exact (hchild.loaded hnp h.loaded).freeable (h.spaces.kept _ h.kept).1
  · dsimp only [Kernel.switch]
    rw [hnew.files h.files]
    exact h.nofiles

/-- The first process, and no other. -/
def lifeKernel (mm : Mm) (root sz : Nat) : Kernel :=
  { forkKernel mm root sz with
    pool := fun i => { (forkKernel mm root sz).pool i with
      pid := if i = 0 then 1 else 0
      trapframe := if i < 2 then (i + 1) * 0x1000 else (i + 0x15) * 0x1000 } }

theorem lifeKernel_boots (mm : Mm) (root sz : Nat) : LifeBoot (lifeKernel mm root sz) := by
  have hother : ∀ j ≠ 0, ((lifeKernel mm root sz).pool j).state = .UNUSED ∧
      ((lifeKernel mm root sz).pool j).pid = 0 := by
    intro j hj
    unfold lifeKernel forkKernel
    dsimp only
    rw [if_neg hj, if_neg hj]
    exact ⟨rfl, rfl⟩
  refine ⟨⟨0, by decide, ?_, Nat.le_refl 1, Nat.lt_succ_self 1, hother⟩, fun j => ?_, fun j => ?_⟩
  · rintro (hc | hc)
    · cases hc
    · cases hc
  · unfold lifeKernel forkKernel
    dsimp only
    split
    · rfl
    · rfl
  · unfold lifeKernel forkKernel
    dsimp only
    split
    · exact Mailbox.zero_empty
    · exact Mailbox.zero_empty

theorem lifeKernel_alone :
    ∃ mm root sz l, Alone pageLink ((lifeKernel mm root sz).switch 0) (· = root)
    (· = 0x2000) l 1 ∧ 3 + (npages sz + tablesFor (npages sz)) ≤ l.length := by
  obtain ⟨mm, root, sz, l, hs, hloaded, hnp, hsz, hlen⟩ := onePageApp_loaded
  have hroot := (hs.space root rfl).tables root (tableOf_root _ _)
  have hslot : freeSlot (lifeKernel mm root sz).pool = some 1 := by
    apply freeSlot_eq (by decide) rfl
    intro j hj
    rw [Nat.lt_one_iff.mp hj]
    show procstate.RUNNING ≠ .UNUSED
    decide
  have htf : ((lifeKernel mm root sz).pool 0).trapframe = 0x1000 := by
    unfold lifeKernel
    dsimp only
    rw [if_pos (by decide)]
  refine ⟨mm, root, sz, l, ⟨hs, rfl, hroot.ne_zero, hslot, ?_, ?_, hsz, ?_, ?_, ?_, fun _ => ?_,
    fun _ => ?_⟩, ?_⟩
  · unfold lifeKernel forkKernel
    dsimp only [Kernel.switch]
    rw [if_pos (by decide)]
  · show ¬ (procstate.RUNNING = .UNUSED ∨ procstate.RUNNING = .ZOMBIE)
    decide
  · show sz ≠ 0
    rintro rfl
    rw [npages_zero] at hnp
    cases hnp
  · dsimp only [Kernel.switch]
    rw [htf]
    exact ⟨by decide, by decide, by decide⟩
  · dsimp only [Kernel.switch]
    rw [htf]
    exact hnp ▸ hloaded
  · rfl
  · rfl
  · rw [hnp]
    have hseven : 3 + (2 + tablesFor 2) = 7 := by decide
    omega

/-- The first process makes a child, and the child exits. -/
theorem child_calls (code : Int) : ∃ (k k₁ k₂ : Kernel) (r₁ r₂ : WaitScan), LifeBoot k ∧
    ¬ Dead (k.pool 0) ∧
    LifeCall.fork.run pageLink (k.switch 0) = .ok (r₁, k₁) ∧ ¬ Dead (k₁.pool 1) ∧
    (∀ c, (k₁.pool c).parent ≠ some 1) ∧ (LifeCall.exit code).run pageLink (k₁.switch 1) = .ok
    (r₂, k₂) ∧
    ¬ Dead (k₂.pool 0) ∧ (k₂.pool 1).state = .ZOMBIE ∧ (k₁.pool 1).pid = 2 ∧ (k₂.pool 1).pid = 2 ∧
    (k₂.pool 1).parent = some 0 := by
  obtain ⟨mm, root, sz, l, halone, hlen⟩ := lifeKernel_alone
  have hboot := lifeKernel_boots mm root sz
  obtain ⟨r₁, _, k₁, ⟨hcreated, root', l', hchild, hnew⟩, hfork⟩ :=
    runs_forkCall (halone.fork_runs hlen)
  have hexiting := halone.child_exiting hchild hnew
  have hparent : (k₁.pool 1).parent = some 0 := hnew.parent halone.nonempty
  have hnone : ∀ c, (k₁.pool c).parent ≠ some 1 := by
    intro c hc
    by_cases hc1 : c = 1
    · rw [hc1, hparent] at hc
      cases hc
    · rw [(hcreated.others c hc1).parent] at hc
      cases (hboot.parent c).symm.trans hc
  obtain ⟨r₂, k₂, ⟨mm₂, l₂, hk₂, _⟩, hexit⟩ := runs_exitCall (hexiting.exit_runs code)
  have hzero : k₂.pool 0 = k₁.pool 0 := by
    rw [hk₂]
    dsimp only [Kernel.switch]
    rw [Function.update_of_ne (by decide)]
  have hone : k₂.pool 1 = exited (k₁.pool 1) code := by
    rw [hk₂]
    dsimp only [Kernel.switch]
    rw [Function.update_self]
  refine ⟨_, k₁, k₂, r₁, r₂, hboot, halone.live, hfork, hcreated.live, hnone, hexit, ?_, ?_,
    hcreated.pid, ?_, ?_⟩
  · rw [hzero, (hcreated.others 0 (by decide)).dead]
    exact halone.live
  · rw [hone, exited, hparent]
    rfl
  · rw [hone]
    exact hcreated.pid
  · rw [hone]
    exact hparent

end ThuKernel
