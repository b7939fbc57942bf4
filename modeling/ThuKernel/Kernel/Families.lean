-- Parents and children over runs: which processes `wait` reports, and when a
-- zombie still has a parent to wait for it.
import ThuKernel.Kernel.LifeRuns

namespace ThuKernel

variable {lk : Link} {k k' : Kernel} {h : History} {i : Nat} {call : LifeCall}
  {r : WaitScan} {np : Nat}

theorem History.created_note (h : History) (k : Kernel) (call : LifeCall) (r : WaitScan)
    {x : Nat × Nat} (hx : x ∈ h.created) : x ∈ (h.note k call r).created := by
  unfold History.note
  split
  · split
    · exact List.mem_cons_of_mem _ hx
    · exact hx
  · split
    · exact List.mem_cons_of_mem _ hx
    · exact hx
  · split
    · exact hx
    · exact hx
  · exact hx

/-- A new process is noted with the process that made it. -/
theorem History.note_created (h : History) (hslot : freeSlot k.pool = some np)
    (hcall : call = .fork ∨ ∃ name va, call = .spawn name va) :
    ((k.pool k.current_proc).pid, k.PID) ∈ (h.note k call r).created := by
  have hsome : (freeSlot k.pool).isSome := by
    rw [hslot]
    rfl
  rcases hcall with rfl | ⟨name, va, rfl⟩
  · unfold History.note
    rw [if_pos hsome]
    exact List.mem_cons_self ..
  · unfold History.note
    rw [if_pos hsome]
    exact List.mem_cons_self ..

theorem isKid_iff {pid : Int} {q : proc} :
    isKid i pid q = true ↔ q.state ≠ .UNUSED ∧ q.parent = some i ∧
    (pid ≤ 0 ∨ (q.pid : Int) = pid) := by
  unfold isKid
  rw [Bool.and_eq_true, Bool.and_eq_true, Bool.or_eq_true, bne_iff_ne, beq_iff_eq,
    decide_eq_true_iff, beq_iff_eq, and_assoc]

/-! ## Children -/

/-- A slot is taken only when it is the parent of no process in use. -/
def TakesNoParent (k : Kernel) : LifeCall → Prop
  | .fork | .spawn .. => ∀ np, freeSlot k.pool = some np → ∀ c, (k.pool c).state ≠ .UNUSED →
      (k.pool c).parent ≠ some np
  | _ => True

/-- The parent of a process is the one that made it, or itself. -/
def Kin (k : Kernel) (h : History) : Prop := ∀ c j, (k.pool c).state ≠ .UNUSED →
  (k.pool c).parent = some j → j = c ∨ ((k.pool j).pid, (k.pool c).pid) ∈ h.created

namespace Kin

theorem shrink {h' : History} (hk : Kin k h) (hs : Shrinks k k')
    (hcreated : ∀ x ∈ h.created, x ∈ h'.created) :
    Kin k' h' := by
  intro c j hc hj
  rw [hs.pid, hs.pid]
  rcases hs.parent c with hp | hp
  · rw [hp] at hj
    rcases hk c j (hs.used c hc) hj with heq | hmem
    · exact Or.inl heq
    · exact Or.inr (hcreated _ hmem)
  · rw [hp] at hj
    cases hj
    exact Or.inl rfl

theorem created {h' : History} (hk : Kin k h) (hnew : Created k k' np)
    (hlive : ¬ Dead (k.pool k.current_proc))
    (hok : ∀ c, (k.pool c).state ≠ .UNUSED → (k.pool c).parent ≠ some np)
    (hcreated : ∀ x ∈ h.created, x ∈ h'.created)
    (hnote : ((k.pool k.current_proc).pid, k.PID) ∈ h'.created) : Kin k' h' := by
  have hne := hnew.ne_current hlive
  intro c j hc hj
  by_cases hcn : c = np
  · subst hcn
    rcases hnew.parent with hp | hp
    · rw [hp] at hj
      cases hj
    · rw [hp] at hj
      cases hj
      rw [(hnew.others _ hne).pid, hnew.pid]
      exact Or.inr hnote
  · have hkept := hnew.others c hcn
    have hc := mt hkept.unused.mpr hc
    rw [hkept.parent] at hj
    have hjn : j ≠ np := by
      rintro rfl
      exact hok c hc hj
    rw [hkept.pid, (hnew.others j hjn).pid]
    rcases hk c j hc hj with heq | hmem
    · exact Or.inl heq
    · exact Or.inr (hcreated _ hmem)

/-- Every step keeps the children. -/
theorem step {s s' : Kernel × History} (hnum : Numbered s.1) (hk : Kin s.1 s.2)
    (hs : LifeStep lk TakesNoParent s s') : Kin s'.1 s'.2 := by
  cases hs with
  | @call k k' h p call r hp hlive hok hrun =>
    have hchange := (LifeCall.run_changes (hnum.switch p).boxes call).of_ok hrun
    have hcreated : ∀ x ∈ h.created, x ∈ (h.note (k.switch p) call r).created :=
      fun x hx => h.created_note _ call r hx
    have hk : Kin (k.switch p) h := hk
    rcases hchange.cases hlive with ⟨np, hnew, hcall⟩ | hs
    · refine hk.created hnew hlive ?_ hcreated (History.note_created _ hnew.slot hcall)
      rcases hcall with rfl | ⟨name, va, rfl⟩
      · exact hok np hnew.slot
      · exact hok np hnew.slot
    · exact hk.shrink hs hcreated
  | other hkept hnext => exact hk.shrink (.kept hkept hnext) fun x hx => hx

end Kin

/-! ## Zombies -/

/-- A process exits only when it is the parent of no process in use. -/
def LeavesNoChild (k : Kernel) : LifeCall → Prop
  | .exit _ => ∀ c, (k.pool c).state ≠ .UNUSED → (k.pool c).parent ≠ some k.current_proc
  | _ => True

/-- Each process in use with a parent has a live one, the one that made it or
itself, and a zombie has a parent. -/
structure Cared (k : Kernel) (h : History) : Prop where
  live : ∀ c j, (k.pool c).state ≠ .UNUSED → (k.pool c).parent = some j → ¬ Dead (k.pool j)
  kin : Kin k h
  zombie : ∀ c, (k.pool c).state = .ZOMBIE → (k.pool c).parent ≠ none

/-- The processes that die are no parents, and those that become zombies have a
parent. -/
structure Orderly (k k' : Kernel) : Prop where
  dead : ∀ j, Dead (k'.pool j) → Dead (k.pool j) ∨
    ∀ c, (k.pool c).state ≠ .UNUSED → (k.pool c).parent ≠ some j
  self : ∀ c, Dead (k'.pool c) → (k'.pool c).parent = (k.pool c).parent
  zombie : ∀ c, (k'.pool c).state = .ZOMBIE → (k.pool c).state = .ZOMBIE ∨ (k.pool c).parent ≠ none

namespace Orderly

theorem kept (hkept : ∀ j, Kept (k.pool j) (k'.pool j)) : Orderly k k' :=
  ⟨fun j hj => Or.inl ((hkept j).dead.mp hj), fun c _ => (hkept c).parent,
    fun c hc => Or.inl ((hkept c).zombie.mp hc)⟩

theorem mailed (m : Mailbox) (mm : Mm) : Orderly k ({ k with mm := mm }.setMailbox i m) := by
  have hstate : ∀ j, (({ k with mm := mm }.setMailbox i m).pool j).state = (k.pool j).state ∧
      (({ k with mm := mm }.setMailbox i m).pool j).parent = (k.pool j).parent := by
    intro j
    rw [Kernel.setMailbox_pool]
    split
    · rename_i hj
      rw [hj]
      exact ⟨rfl, rfl⟩
    · exact ⟨rfl, rfl⟩
  refine ⟨fun j hj => Or.inl ?_, fun c _ => (hstate c).2, fun c hc => Or.inl ?_⟩
  · unfold Dead at *
    rwa [(hstate j).1] at hj
  · rwa [(hstate c).1] at hc

/-- A process that exits leaves no child, and a zombie that is waited for was
dead before. -/
theorem ended {s : procstate} (h : Ended k k' i s)
    (hdead : Dead (k.pool i) ∨ ∀ c, (k.pool c).state ≠ .UNUSED → (k.pool c).parent ≠ some i)
    (hs : s = .ZOMBIE → (k.pool i).parent ≠ none) : Orderly k k' := by
  refine ⟨of_slot i (fun _ => hdead) fun j hj hd => Or.inl ((h.others j hj).dead.mp hd),
    of_slot i (fun _ => h.parent) fun j hj _ => (h.others j hj).parent,
    of_slot i (fun hz => Or.inr (hs ?_)) fun j hj hz => Or.inl ((h.others j hj).zombie.mp hz)⟩
  rw [← h.state, hz]

theorem selfForked (h : SelfForked k k') (hlive : ¬ Dead (k.pool k.current_proc)) :
    Orderly k k' := by
  refine ⟨of_slot k.current_proc (fun hd => absurd (h.dead hd) hlive) fun j hj hd =>
      Or.inl ((h.others j hj).dead.mp hd),
    of_slot k.current_proc (fun hd => absurd (h.dead hd) hlive) fun j hj _ =>
    (h.others j hj).parent,
    of_slot k.current_proc (fun hz => absurd (h.dead (Or.inr hz)) hlive) fun j hj hz =>
      Or.inl ((h.others j hj).zombie.mp hz)⟩

end Orderly

/-- A call that leaves no child is orderly, but for a new process. -/
theorem Change.orderly (h : Change k k' call r) (hlive : ¬ Dead (k.pool k.current_proc))
    (hok : LeavesNoChild k call) : (∃ np, Created k k' np) ∨ Orderly k k' := by
  cases h with
  | fork np hnew => exact Or.inl ⟨np, hnew⟩
  | forkSelf hself => exact Or.inr (.selfForked hself hlive)
  | spawn np hnew => exact Or.inl ⟨np, hnew⟩
  | exit hended =>
    refine Or.inr (.ended hended (Or.inr hok) fun hz hc => ?_)
    rw [hc] at hz
    cases hz
  | wait hw =>
    cases hw with
    | reaped j hj hkid hzombie hended =>
      exact Or.inr (.ended hended (Or.inl (Or.inr hzombie)) fun hz => by cases hz)
    | nobody hkept => exact Or.inr (.kept hkept.pool)
    | later hkept => exact Or.inr (.kept (hkept hlive).pool)
  | noProc hnone hk =>
    rw [hk]
    exact Or.inr (.kept fun _ => Kept.refl)
  | mailwrite i m hi hk =>
    rw [hk]
    exact Or.inr (.mailed m k.mm)
  | mailread mm m hk =>
    rw [hk]
    exact Or.inr (.mailed m mm)

namespace Cared

theorem shrink {h' : History} (hc : Cared k h) (hs : Shrinks k k') (ho : Orderly k k')
    (hcreated : ∀ x ∈ h.created, x ∈ h'.created) : Cared k' h' := by
  refine ⟨fun c j hused hj hd => ?_, hc.kin.shrink hs hcreated, fun c hz => ?_⟩
  · have hparent : (k.pool c).parent = some j := by
      rcases hs.parent c with hp | hp
      · rw [← hp, hj]
      · rw [hp] at hj
        cases hj
        rw [← ho.self c hd, hp]
    rcases ho.dead j hd with hdead | hno
    · exact hc.live c j (hs.used c hused) hparent hdead
    · exact hno c (hs.used c hused) hparent
  · rw [ho.self c (Or.inr hz)]
    rcases ho.zombie c hz with hzombie | hparent
    · exact hc.zombie c hzombie
    · exact hparent

theorem created {h' : History} (hc : Cared k h) (hnew : Created k k' np)
    (hlive : ¬ Dead (k.pool k.current_proc)) (hcreated : ∀ x ∈ h.created, x ∈ h'.created)
    (hnote : ((k.pool k.current_proc).pid, k.PID) ∈ h'.created) : Cared k' h' := by
  have hne := hnew.ne_current hlive
  have hunused : Dead (k.pool np) := Or.inl (freeSlot_some hnew.slot)
  -- The free slot is the parent of nobody: all parents live.
  have hnoparent : ∀ c, (k.pool c).state ≠ .UNUSED → (k.pool c).parent ≠ some np :=
    fun c hused hp => hc.live c np hused hp hunused
  refine ⟨of_slot np (fun j hused hj => ?_) fun c hcn j hused hj => ?_,
    hc.kin.created hnew hlive hnoparent hcreated hnote,
    of_slot np (fun hz => absurd (Or.inr hz) hnew.live) fun c hcn hz => ?_⟩
  · rcases hnew.parent with hp | hp
    · rw [hp] at hj
      cases hj
    · rw [hp] at hj
      cases hj
      rwa [(hnew.others _ hne).dead]
  · have hkept := hnew.others c hcn
    rw [hkept.parent] at hj
    have hused := mt hkept.unused.mpr hused
    have hjn : j ≠ np := by
      rintro rfl
      exact hnoparent c hused hj
    rw [(hnew.others j hjn).dead]
    exact hc.live c j hused hj
  · rw [(hnew.others c hcn).parent]
    exact hc.zombie c ((hnew.others c hcn).zombie.mp hz)

theorem step {s s' : Kernel × History} (hnum : Numbered s.1) (hc : Cared s.1 s.2)
    (hs : LifeStep lk LeavesNoChild s s') : Cared s'.1 s'.2 := by
  cases hs with
  | @call k k' h p call r hp hlive hok hrun =>
    have hchange := (LifeCall.run_changes (hnum.switch p).boxes call).of_ok hrun
    have hcreated : ∀ x ∈ h.created, x ∈ (h.note (k.switch p) call r).created :=
      fun x hx => h.created_note _ call r hx
    have hc : Cared (k.switch p) h := ⟨hc.live, hc.kin, hc.zombie⟩
    rcases hchange.cases hlive with ⟨np, hnew, hcall⟩ | hs
    · exact hc.created hnew hlive hcreated (h.note_created hnew.slot hcall)
    · rcases hchange.orderly hlive hok with ⟨np, hnew⟩ | ho
      · exact absurd (freeSlot_some hnew.slot) (hs.used np fun hc => hnew.live (Or.inl hc))
      · exact hc.shrink hs ho hcreated
  | other hkept hnext => exact hc.shrink (.kept hkept hnext) (.kept hkept) fun x hx => hx

end Cared

/-- The parent of a zombie can wait for it by its number. -/
theorem Numbered.can_wait (hnum : Numbered k) {j code : Nat} (hz : (k.pool i).state = .ZOMBIE)
    (hparent : (k.pool i).parent = some j) (hcode : PGSIZE ≤ code) :
    ∃ k', (LifeCall.wait (k.pool i).pid code).run lk (k.switch j) = .ok (.ret (k.pool i).pid, k') ∧
      (k'.pool i).state = .UNUSED := by
  have hused : (k.pool i).state ≠ .UNUSED := by
    rw [hz]
    decide
  have h1 := hnum.positive i hused
  have hfind : (List.range NPROC).find? (fun c => isKid j (k.pool i).pid (k.pool c) &&
      (k.pool c).state == .ZOMBIE) = some i := by
    have hi : isKid j (k.pool i).pid (k.pool i) && (k.pool i).state == .ZOMBIE := by
      rw [Bool.and_eq_true, isKid_iff, beq_iff_eq]
      exact ⟨⟨hused, hparent, Or.inr rfl⟩, hz⟩
    have hsome : ((List.range NPROC).find? (fun c => isKid j (k.pool i).pid (k.pool c) &&
        (k.pool c).state == .ZOMBIE)).isSome := by
      rw [List.find?_isSome]
      exact ⟨i, List.mem_range.mpr (hnum.range i hused), hi⟩
    obtain ⟨c, hc⟩ := Option.isSome_iff_exists.mp hsome
    have hfound := List.find?_some hc
    rw [Bool.and_eq_true, isKid_iff] at hfound
    -- No other process has the number.
    rcases hfound.1.2.2 with hle | heq
    · omega
    · rw [hc, hnum.distinct i c h1 (by omega)]
  have hrun : Runs (fun _ => False) (waitTurn (k.pool i).pid code) (k.switch j) (fun r k' =>
      r = .ret (k.pool i).pid ∧ (k'.pool i).state = .UNUSED) := by
    unfold waitTurn
    rw [Runs.bind_iff, Runs.get_iff]
    dsimp only [Kernel.switch]
    rw [hfind]
    dsimp only
    rw [Runs.bind_iff, runs_getProc, Runs.bind_iff, runs_setProc]
    unfold storeCode
    rw [if_neg (by omega), Runs.bind_iff, runs_onMm, Runs.modify_iff, Runs.pure_iff]
    dsimp only
    rw [Function.update_self]
    exact ⟨rfl, rfl⟩
  obtain ⟨r, k', hok, rfl, hstate⟩ := hrun.exists_ok fun _ h => h
  exact ⟨k', hok, hstate⟩

end ThuKernel
