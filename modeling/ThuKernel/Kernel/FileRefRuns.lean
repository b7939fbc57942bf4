-- The references of the open files over runs: the calls on processes, and
-- which calls keep the counts.
import Mathlib.Algebra.Order.BigOperators.Group.Finset
import ThuKernel.Kernel.Coherence
import ThuKernel.Kernel.FileRefs

namespace ThuKernel

/-- `ref` is the number of descriptors, for every file. -/
def Counted (k : Kernel) : Prop := ∀ f, (k.filepool f).ref = descriptors k.pool f

/-- No process runs but those in use. -/
def nobody : Nat → Prop := fun _ => False

variable {lk : Link} {E : Stop → Prop} {k k₁ k' : Kernel} {d : Nat → Int} {i np : Nat}

/-- A process has each descriptor at most once, so an `int` holds `ref`. -/
theorem Counted.ref_le (h : Counted k) (f : Nat) : (k.filepool f).ref ≤ NPROC * FD_MAX := by
  have hone : ∀ files : Nat → Option Nat, fdsOf files f ≤ FD_MAX := by
    intro files
    refine (Finset.sum_le_card_nsmul _ _ 1 fun fd _ => ?_).trans_eq (by simp)
    split
    · exact le_refl _
    · decide
  rw [h f]
  exact (Finset.sum_le_card_nsmul _ _ (FD_MAX : Int) fun i _ => hone _).trans_eq (by simp)

theorem not_dead {p : proc} (h : p.state ≠ .UNUSED) (h' : p.state ≠ .ZOMBIE) : ¬ Dead p := by
  rintro (hc | hc)
  · exact h hc
  · exact h' hc

theorem not_dead_runnable {p : proc} (h : p.state = .RUNNABLE := by rfl) : ¬ Dead p := by
  apply not_dead
  · rw [h]
    decide
  · rw [h]
    decide

namespace Tally

/-! ## New processes -/

theorem alive (h : Tally nobody d k) : ¬ Dead (k.pool k.current_proc) := fun hc => h.live hc

theorem allocproc_runs (h : Tally nobody d k) :
    Runs (fun _ => True) (allocproc lk) k (fun r k' => r = freeSlot k.pool ∧
      k'.current_proc = k.current_proc ∧ Tally nobody d k' ∧ (r = none → k' = k) ∧
      ∀ np, r = some np → np < NPROC ∧ np ≠ k.current_proc ∧ ¬ Dead (k'.pool np) ∧
        ∀ fd < FD_MAX, (k'.pool np).files fd = none) := by
  rw [runs_allocproc]
  constructor
  · intro hslot
    exact ⟨hslot.symm, rfl, h, fun _ => rfl, fun np hnp => by cases hnp⟩
  · intro np hslot
    have hunused := freeSlot_some hslot
    have hnone : ∀ fd < FD_MAX, (k.pool np).files fd = none := by
      rcases h.cleared np (Or.inl hunused) with hc | hc
      · exact hc.elim
      · exact hc
    have hne : np ≠ k.current_proc := by
      rintro rfl
      exact h.alive (Or.inl hunused)
    have hused : ∀ {p : proc}, p.state = .USED → ¬ Dead p := by
      intro p hp
      apply not_dead
      · rw [hp]
        decide
      · rw [hp]
        decide
    refine Runs.of_forall fun root s _ => ⟨fun _ => trivial, fun _ => ?_⟩
    have h₁ := h.setProc (i := np) (p := newProc k np root) rfl (fun hc => absurd hc (hused rfl))
    refine ⟨hslot.symm, rfl, h₁.same (fun _ => rfl) (fun _ => rfl) (fun _ hd => hd) rfl,
      fun hc => (by cases hc), fun np' hnp' => ?_⟩
    cases hnp'
    dsimp only
    rw [Function.update_self]
    exact ⟨freeSlot_lt hslot, hne, hused rfl, hnone⟩

/-- One turn over the files of a process that is copied to another one. -/
theorem dupFile_runs {fd : Nat} (h : Tally nobody 0 k) (hnp : np < NPROC)
    (hlive : ¬ Dead (k.pool np)) (hfd : fd < FD_MAX) (hnone : (k.pool np).files fd = none) :
    Runs E (dupFile i np fd) k (fun _ k' => Tally nobody 0 k' ∧ k'.current_proc = k.current_proc ∧
      ¬ Dead (k'.pool np) ∧ ∀ fd' ≠ fd, (k'.pool np).files fd' = (k.pool np).files fd') := by
  unfold dupFile
  rw [Runs.bind_iff, runs_getProc]
  split
  · exact ⟨h, rfl, hlive, fun _ _ => rfl⟩
  · rename_i f _
    rw [Runs.bind_iff, runs_getFile, Runs.when_iff]
    refine ⟨fun _ => ?_, fun _ => ⟨h, rfl, hlive, fun _ _ => rfl⟩⟩
    rw [Runs.bind_iff, runs_setFile, Runs.bind_iff, runs_getProc, runs_setProc]
    have h₁ := h.setFile (f := f) { k.filepool f with ref := (k.filepool f).ref + 1 }
    have hone : (fun j => if j = f then (k.filepool f).ref + 1 - (k.filepool f).ref else 0) =
        one f := by
      funext j
      unfold one only
      rw [add_sub_cancel_left]
    rw [hone] at h₁
    have h₂ := h₁.setFd hnp hfd (some f) (p := { k.pool np with
      files := Function.update (k.pool np).files fd (some f) }) rfl (fun hc => absurd hc hlive)
    rw [hnone, ones_none, ones_some, add_zero, zero_add, sub_self] at h₂
    refine ⟨h₂, rfl, ?_, fun fd' hne => ?_⟩
    · dsimp only
      rw [Function.update_self]
      exact hlive
    · dsimp only
      rw [Function.update_self]
      exact Function.update_of_ne hne _ _

end Tally

/-! ## A fork without a free slot -/

theorem AddrSpace.spaces {s : Mm} {r : Nat} {l : List Nat} (h : AddrSpace lk s r l []) :
    Spaces lk s (· = r) l nobody := by
  refine ⟨h.space.free, ?_, ?_, fun a ha => ha.elim⟩
  · rintro _ rfl
    exact h
  · rintro _ _ a rfl rfl _ _
    rfl

/-- `fork` does not count a file twice: there is a slot, or the copy of the
process onto itself fails, or there is no file to count. -/
def ForkKeepsCount (lk : Link) (k : Kernel) : Prop :=
  freeSlot k.pool ≠ none ∨
    (0 < (k.pool k.current_proc).sz ∧
    ∃ l, AddrSpace lk k.mm (k.pool k.current_proc).pagetable l []) ∨
    ∀ fd < FD_MAX, (k.pool k.current_proc).files fd = none

namespace Tally

theorem fork_runs (h : Tally nobody 0 k) (hok : ForkKeepsCount lk k) :
    Runs (fun _ => True) (fork lk) k (fun _ k' => Tally nobody 0 k') := by
  rw [runs_fork]
  apply (h.allocproc_runs).imp
  rintro r k₁ ⟨hr, hcur₁, h₁, hsame₁, hnew⟩ _ rfl _ rfl _ rfl _ rfl
  cases r with
  | some np =>
    obtain ⟨hlt, hne, hlive, hnone⟩ := hnew np rfl
    rw [Option.getD_some]
    apply (h₁.onMm _).imp
    rintro r k₂ ⟨h₂, hk₂⟩
    refine ⟨fun _ => h₂, fun _ => ?_⟩
    have hpool₂ : k₂.pool = k₁.pool := by rw [hk₂]
    rw [← hpool₂] at hlive hnone
    rw [← hpool₂]
    have h₃ := h₂.setProc (i := np) (p := { k₂.pool np with sz := (k₂.pool k.current_proc).sz }) rfl
      (fun hc => hc)
    apply (h₃.onMm _).imp
    rintro _ k₄ ⟨h₄, hk₄⟩
    have hp₄ : k₄.pool np = { k₂.pool np with sz := (k₂.pool k.current_proc).sz } := by
      rw [hk₄]
      exact Function.update_self _ _ _
    -- Before turn `fd`, the descriptors of the child from `fd` on are free.
    refine (Runs.forUp (fun fd k' => Tally nobody 0 k' ∧ ¬ Dead (k'.pool np) ∧
      ∀ fd', fd ≤ fd' → fd' < FD_MAX → (k'.pool np).files fd' = none) ?_ ?_).imp ?_
    · rintro fd k₅ _ hfd ⟨h₅, hlive₅, hnone₅⟩
      rw [Nat.zero_add] at hfd
      apply (h₅.dupFile_runs hlt hlive₅ hfd (hnone₅ fd (Nat.le_refl _) hfd)).imp
      rintro _ k₆ ⟨h₆, _, hlive₆, hrest₆⟩
      refine ⟨h₆, hlive₆, fun fd' hle hlt' => ?_⟩
      rw [hrest₆ fd' (by omega)]
      exact hnone₅ fd' (by omega) hlt'
    · refine ⟨h₄, ?_, fun fd' _ hfd' => ?_⟩
      · rw [hp₄]
        exact hlive
      · rw [hp₄]
        exact hnone fd' hfd'
    · rintro _ k₆ ⟨h₆, _⟩
      apply (h₆.onMm _).imp
      rintro _ k₇ ⟨h₇, _⟩
      exact h₇.setProc rfl fun hc => absurd hc not_dead_runnable
  | none =>
    obtain rfl := hsame₁ rfl
    rw [Option.getD_none]
    rcases hok with hslot | ⟨hsz, l, haddr⟩ | hnone
    · exact absurd hr.symm hslot
    · rw [runs_onMm]
      apply (uvmcopy_self_runs haddr.spaces rfl hsz).mono
      · intro _ _
        trivial
      · rintro _ m ⟨rfl, _⟩
        exact ⟨fun _ => h.same (fun _ => rfl) (fun _ => rfl) (fun _ hd => hd) rfl,
          fun hc => absurd (by decide) hc⟩
    · apply (h.onMm _).imp
      rintro r k₂ ⟨h₂, hk₂⟩
      refine ⟨fun _ => h₂, fun _ => ?_⟩
      have hpool₂ : k₂.pool = k₁.pool := by rw [hk₂]
      rw [← hpool₂] at hnone ⊢
      have h₃ := h₂.setProc (i := k₁.current_proc) (p := { k₂.pool k₁.current_proc with
        sz := (k₂.pool k₁.current_proc).sz }) rfl (fun hc => hc)
      apply (h₃.onMm _).imp
      rintro _ k₄ ⟨h₄, hk₄⟩
      refine (Runs.forUp (fun _ k' => Tally nobody 0 k' ∧
        ∀ fd < FD_MAX, (k'.pool k₁.current_proc).files fd = none) ?_ ?_).imp ?_
      · rintro fd k₅ _ hfd ⟨h₅, hnone₅⟩
        rw [Nat.zero_add] at hfd
        unfold dupFile
        rw [Runs.bind_iff, runs_getProc, hnone₅ fd hfd]
        exact ⟨h₅, hnone₅⟩
      · refine ⟨h₄, fun fd hfd => ?_⟩
        rw [hk₄]
        dsimp only
        rw [Function.update_self]
        exact hnone fd hfd
      · rintro _ k₆ ⟨h₆, _⟩
        apply (h₆.onMm _).imp
        rintro _ k₇ ⟨h₇, _⟩
        exact h₇.setProc rfl fun hc => absurd hc not_dead_runnable

/-! ## The other calls on processes -/

theorem loader_runs (h : Tally nobody 0 k) (id i : Nat) :
    Runs (fun _ => True) (loader lk id i) k (fun _ k' => Tally nobody 0 k') := by
  unfold loader
  split
  · trivial
  · rw [Runs.bind_iff, runs_getProc]
    apply (h.onMm _).bind
    rintro sz k₁ ⟨h₁, _⟩
    rw [Runs.bind_iff, runs_getProc, runs_setProc]
    exact h₁.setProc rfl fun hc => hc

theorem spawn_runs (h : Tally nobody 0 k) (name : CStr) :
    Runs (fun _ => True) (spawn lk name) k (fun _ k' => Tally nobody 0 k') := by
  rw [runs_spawn]
  apply (h.allocproc_runs).imp
  rintro r k₁ ⟨_, _, h₁, _, _⟩
  refine ⟨fun _ => trivial, ?_⟩
  rintro np _ _ rfl
  have h₂ := h₁.setProc (i := np) (p := { k₁.pool np with
    parent := some k.current_proc, state := .RUNNABLE }) rfl fun hc => absurd hc not_dead_runnable
  exact ⟨fun _ => h₂, fun id _ => (h₂.loader_runs id np).imp fun _ _ h₃ => h₃⟩

theorem exec_runs (h : Tally nobody 0 k) (name : CStr) :
    Runs (fun _ => True) (exec lk name) k (fun _ k' => Tally nobody 0 k') := by
  unfold exec
  cases get_id_by_name lk name with
  | none => exact h
  | some id =>
    dsimp only
    rw [Runs.bind_iff, runs_curr_proc]
    apply (h.onMm _).bind
    rintro _ k₁ ⟨h₁, _⟩
    apply (h₁.onMm _).bind
    rintro pagetable k₂ ⟨h₂, _⟩
    rw [Runs.bind_iff, runs_modifyCurr]
    split
    · trivial
    · rw [Runs.bind_iff, Runs.get_iff]
      have h₃ := h₂.setProc (i := k₂.current_proc) (p := { k₂.pool k₂.current_proc with
        sz := 0, pagetable := pagetable }) rfl fun hc => hc
      apply (h₃.loader_runs id _).bind
      intro _ k₄ h₄
      exact h₄

/-! ## The end of a process -/

/-- A process of its own that is about to exit. -/
theorem leaving (h : Tally nobody d k) (i : Nat) : Tally (· = i) d k := by
  refine ⟨h.surplus, fun j hj => ?_, h.current, fun hc => absurd hc h.alive⟩
  rcases h.cleared j hj with hc | hc
  · exact hc.elim
  · exact Or.inr hc

theorem setOwn (h : Tally (· = k.current_proc) d k) {p : proc}
    (hp : p.files = (k.pool k.current_proc).files) :
    Tally (· = k.current_proc) d { k with pool := Function.update k.pool k.current_proc p } := by
  refine ⟨fun f => ?_, fun j hj => ?_, h.current, fun _ => rfl⟩
  · have := h.surplus f
    unfold ThuKernel.surplus at *
    dsimp only
    rwa [descriptors_update h.current, hp, sub_add_cancel]
  · dsimp only at hj ⊢
    by_cases hji : j = k.current_proc
    · exact Or.inl hji
    · rw [Function.update_of_ne hji] at hj ⊢
      exact h.cleared j hj

/-- The loop over the files of a process that exits. -/
theorem closeFiles_runs (h : Tally (· = k.current_proc) 0 k) :
    Runs (fun _ => True) (closeFiles lk k.current_proc) k (fun _ k' =>
      Tally (· = k.current_proc) 0 k' ∧
      k'.current_proc = k.current_proc ∧ ∀ fd < FD_MAX, (k'.pool k.current_proc).files fd =
      none) := by
  -- After turn `fd`, the descriptors below `fd` are free.
  refine (Runs.forUp (fun fd k' => Tally (· = k.current_proc) 0 k' ∧
    k'.current_proc = k.current_proc ∧
    ∀ fd' < fd, (k'.pool k.current_proc).files fd' = none) ?_ ?_).imp ?_
  · rintro fd k₁ _ hfd ⟨h₁, hcur₁, hnone₁⟩
    rw [Nat.zero_add] at hfd
    rw [Runs.bind_iff, runs_getProc]
    have hbelow : ∀ {files : Nat → Option Nat}, (∀ fd' < fd, files fd' = none) → files fd = none →
        ∀ fd' < fd + 1, files fd' = none := by
      intro files hlt heq fd' hfd'
      rcases Nat.lt_succ_iff_lt_or_eq.mp hfd' with hc | rfl
      · exact hlt fd' hc
      · exact heq
    cases hf : (k₁.pool k.current_proc).files fd with
    | none => exact ⟨h₁, hcur₁, hbelow hnone₁ hf⟩
    | some f =>
      dsimp only
      apply (h₁.fileclose_runs f).bind
      rintro _ k₂ ⟨h₂, hpool₂, hcur₂⟩
      rw [Runs.bind_iff, runs_getProc, runs_setProc, hpool₂]
      have h₃ := h₂.setFd h.current hfd none (p := { k₂.pool k.current_proc with
        files := Function.update (k₂.pool k.current_proc).files fd none }) rfl fun _ => rfl
      rw [hpool₂, hf, ones_some, ones_none, sub_zero, sub_add_cancel] at h₃
      refine ⟨h₃, hcur₂.trans hcur₁, ?_⟩
      dsimp only
      rw [Function.update_self]
      apply hbelow
      · intro fd' hfd'
        dsimp only
        rw [Function.update_of_ne (Nat.ne_of_lt hfd')]
        exact hnone₁ fd' hfd'
      · exact Function.update_self _ _ _
  · exact ⟨h, rfl, fun fd' hfd' => absurd hfd' (Nat.not_lt_zero _)⟩
  · rintro _ k' ⟨h', hcur', hnone'⟩
    exact ⟨h', hcur', hnone'⟩

theorem freeproc_runs (h : Tally (· = k.current_proc) 0 k) :
    Runs (fun _ => True) (freeproc lk k.current_proc) k (fun _ k' =>
      Tally (· = k.current_proc) 0 k' ∧
      k'.current_proc = k.current_proc ∧ ∀ fd < FD_MAX, (k'.pool k.current_proc).files fd =
      none) := by
  rw [runs_freeproc]
  have hfree : Runs (fun _ => True) (Prog.when ((k.pool k.current_proc).pagetable ≠ 0)
      (ThuKernel.onMm (proc_freepagetable lk (k.pool k.current_proc).pagetable
      (k.pool k.current_proc).sz))) k
      (fun _ k' => Tally (· = k.current_proc) 0 k' ∧ k' = { k with mm := k'.mm }) :=
    Runs.when_iff.mpr ⟨fun _ => h.onMm _, fun _ => ⟨h, rfl⟩⟩
  apply hfree.imp
  rintro _ k₁ ⟨h₁, hk₁⟩
  have hcur₁ : k₁.current_proc = k.current_proc := by rw [hk₁]
  rw [← hcur₁] at h₁ ⊢
  have h₂ := h₁.setOwn (p := { k₁.pool k₁.current_proc with pagetable := 0, state := .UNUSED }) rfl
  apply h₂.closeFiles_runs.imp
  rintro _ k₃ ⟨h₃, hcur₃, hnone₃⟩
  exact ⟨h₃, hcur₃, hnone₃⟩

/-- When the process that exits has no file left, nothing is left to close. -/
theorem left (h : Tally (· = i) 0 k) (hnone : ∀ fd < FD_MAX, (k.pool i).files fd = none) :
    Counted k ∧ Cleared k := by
  constructor
  · intro f
    exact sub_eq_zero.mp (h.surplus f)
  · intro j hj
    rcases h.cleared j hj with rfl | hc
    · exact hnone
    · exact hc

theorem exit_runs (h : Tally nobody 0 k) (code : Int) :
    Runs (fun _ => True) (exit lk code) k (fun _ k' => Counted k' ∧ Cleared k') := by
  rw [runs_exit]
  have h₁ := (h.leaving _).setOwn (p := { k.pool k.current_proc with exit_code := code }) rfl
  apply h₁.freeproc_runs.imp
  rintro _ k₂ ⟨h₂, hcur₂, hnone₂⟩
  dsimp only at h₂ hcur₂ hnone₂
  rw [← hcur₂] at h₂ hnone₂
  refine ⟨fun _ => ?_, fun _ => h₂.left hnone₂⟩
  have h₃ := h₂.setOwn (p := { k₂.pool k₂.current_proc with state := .ZOMBIE }) rfl
  apply h₃.left
  intro fd hfd
  dsimp only
  rw [Function.update_self]
  exact hnone₂ fd hfd

theorem copyinName_runs (h : Tally nobody 0 k) (name : Bytes) (va : Nat) :
    Runs (fun _ => True) (copyinName name va) k (fun _ k' => Tally nobody 0 k') := by
  unfold copyinName
  rw [Runs.bind_iff, runs_curr_proc]
  apply (h.onMm _).bind
  rintro _ k₁ ⟨h₁, _⟩
  exact h₁

theorem counted (h : Tally nobody 0 k) : Counted k ∧ Cleared k := by
  constructor
  · intro f
    exact sub_eq_zero.mp (h.surplus f)
  · intro i hi
    rcases h.cleared i hi with hc | hc
    · exact hc.elim
    · exact hc

end Tally

/-! ## Between two calls -/

/-- No file is in use, and no process has one. -/
structure NoFiles (k : Kernel) : Prop where
  free : ∀ f, (k.filepool f).ref = 0
  fds : ∀ p fd, (k.pool p).files fd = none

theorem NoFiles.counted (h : NoFiles k) : Counted k ∧ Cleared k := by
  constructor
  · intro f
    rw [h.free f]
    apply Eq.symm
    apply Finset.sum_eq_zero
    intro i _
    exact fdsOf_none (fun fd _ => h.fds i fd) f
  · intro i _ fd _
    exact h.fds i fd

/-- Between two calls, in a process that goes on. -/
theorem Tally.start (h : Counted k) (h' : Cleared k) {p : Nat} (hp : p < NPROC)
    (hlive : ¬ Dead (k.pool p)) :
    Tally nobody 0 (k.switch p) :=
  ⟨fun f => sub_eq_zero.mpr (h f), fun i hi => Or.inr (h' i hi), hp, hlive⟩

theorem descriptors_eq_zero {pool : Nat → proc} {f : Nat} :
    descriptors pool f = 0 ↔ ∀ i < NPROC, ∀ fd < FD_MAX, (pool i).files fd ≠ some f := by
  unfold descriptors fdsOf
  have hnonneg : ∀ i fd, (0 : Int) ≤ if (pool i).files fd = some f then 1 else 0 := by
    intro i fd
    split
    · decide
    · decide
  rw [Finset.sum_eq_zero_iff_of_nonneg fun i _ => Finset.sum_nonneg fun fd _ => hnonneg i fd]
  apply forall_congr'
  intro i
  rw [Finset.mem_range, Finset.sum_eq_zero_iff_of_nonneg fun fd _ => hnonneg i fd]
  apply imp_congr_right
  intro _
  apply forall_congr'
  intro fd
  rw [Finset.mem_range]
  apply imp_congr_right
  intro _
  split
  · rename_i hf
    exact ⟨fun hc => absurd hc (by decide), fun hc => absurd hf hc⟩
  · rename_i hf
    exact ⟨fun _ => hf, fun _ => rfl⟩

/-- What a `pipe` leaves is nothing, exactly if the counts are right. -/
theorem Tally.counted_iff {d : Nat → Int} (h : Tally nobody d k) : Counted k ↔ d = 0 := by
  constructor
  · intro hc
    funext f
    rw [← h.surplus f]
    exact sub_eq_zero.mpr (hc f)
  · rintro rfl
    exact h.counted.1

theorem onePageKernel_noFiles : NoFiles onePageKernel := ⟨fun _ => rfl, fun _ _ => rfl⟩

theorem onePageKernel_live : ¬ Dead (onePageKernel.pool 0) := by
  apply not_dead
  · decide
  · decide

end ThuKernel
