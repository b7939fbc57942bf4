-- Exit codes over runs: what `exit` was called with, which numbers `wait` has
-- returned, and that each code is handed over once.
import ThuKernel.Kernel.Orphans

namespace ThuKernel

variable {lk : Link} {E : Stop → Prop} {k k' : Kernel} {i np : Nat} {call : LifeCall} {r : WaitScan}

/-- The address of `*code`: where the user has it, when its page is mapped. -/
theorem waitCode_eq {va : Nat} (hva : va < 2 ^ 64) :
    waitCode va k = .ok (userAddr k.mm.mem (k.pool k.current_proc).pagetable va, k) := by
  have hrun : Runs (fun _ => False) (waitCode va) k (fun code k' =>
      code = userAddr k.mm.mem (k.pool k.current_proc).pagetable va ∧ k' = k) := by
    unfold waitCode
    rw [Runs.bind_iff, runs_curr_proc, runs_onMm, runs_useraddr hva]
    exact ⟨rfl, rfl⟩
  obtain ⟨_, _, hok, rfl, rfl⟩ := hrun.exists_ok fun _ h => h
  exact hok

/-! ## What has happened -/

/-- The numbers of the processes that have exited with their codes, and the
numbers that `wait` has returned. -/
structure Ledger where
  exited : List (Nat × Int)
  reaped : List Int

def Ledger.note (l : Ledger) (k : Kernel) : LifeCall → WaitScan → Ledger
  | .exit code, _ => { l with exited := ((k.pool k.current_proc).pid, code) :: l.exited }
  | .wait .., .ret r => if r = -1 then l else { l with reaped := r :: l.reaped }
  | _, _ => l

/-- A step of the machine: a call of a live process, or anything else, which
keeps the processes and the codes of the zombies. -/
inductive StatusStep (lk : Link) : Kernel × Ledger → Kernel × Ledger → Prop
  | call {k k' : Kernel} {l : Ledger} (p : Nat) (call : LifeCall) (r : WaitScan) (hp : p < NPROC)
      (hlive : ¬ Dead (k.pool p)) (hrun : call.run lk (k.switch p) = .ok (r, k')) :
      StatusStep lk (k, l) (k', l.note (k.switch p) call r)
  | other {k k' : Kernel} {l : Ledger} (hkept : ∀ j, Kept (k.pool j) (k'.pool j))
      (hcode : ∀ j, (k.pool j).state = .ZOMBIE → (k'.pool j).exit_code = (k.pool j).exit_code)
      (hnext : k'.PID = k.PID) : StatusStep lk (k, l) (k', l)

/-- A step of the life of the processes. -/
theorem StatusStep.numbered {s s' : Kernel × Ledger} (h : StatusStep lk s s')
    (hnum : Numbered s.1) :
    Numbered s'.1 := by
  cases h with
  | call p call r hp hlive hrun =>
    have hstep : LifeStep lk (fun _ _ => True) (_, ⟨[], []⟩) _ :=
      .call p call r hp hlive trivial hrun
    exact hnum.step hstep
  | other hkept _ hnext =>
    have hstep : LifeStep lk (fun _ _ => True) (_, ⟨[], []⟩) _ := .other hkept hnext
    exact hnum.step hstep

/-! ## The invariant -/

/-- A slot whose process goes on, or stays a zombie with its code. -/
structure Lives (p p' : proc) : Prop where
  unused : p'.state = .UNUSED ↔ p.state = .UNUSED
  zombie : p'.state = .ZOMBIE ↔ p.state = .ZOMBIE
  pid : p'.pid = p.pid
  code : p.state = .ZOMBIE → p'.exit_code = p.exit_code

theorem lives_setMailbox (i : Nat) (m : Mailbox) {mm : Mm} (j : Nat) :
    Lives (k.pool j) (({ k with mm := mm }.setMailbox i m).pool j) := by
  rw [Kernel.setMailbox_pool]
  split
  · rename_i hj
    rw [hj]
    exact ⟨Iff.rfl, Iff.rfl, rfl, fun _ => rfl⟩
  · exact ⟨Iff.rfl, Iff.rfl, rfl, fun _ => rfl⟩

theorem Lives.dead {p p' : proc} (h : Lives p p') : Dead p' ↔ Dead p := or_congr h.unused h.zombie

theorem Kept.lives {p p' : proc} (h : Kept p p') (hcode : p'.exit_code = p.exit_code) :
    Lives p p' :=
  ⟨h.unused, h.zombie, h.pid, fun _ => hcode⟩

/-- Each zombie has exited with its code, a process that has exited is dead, and
the slot of one that was waited for is free. -/
structure Told (k : Kernel) (l : Ledger) : Prop where
  zombie : ∀ i, (k.pool i).state = .ZOMBIE → ((k.pool i).pid, (k.pool i).exit_code) ∈ l.exited
  below : ∀ x ∈ l.exited, x.1 < k.PID
  dead : ∀ x ∈ l.exited, ∀ i, (k.pool i).pid = x.1 → Dead (k.pool i)
  reaped : ∀ r ∈ l.reaped, ∃ x ∈ l.exited, r = x.1 ∧ ∀ i, (k.pool i).pid = x.1 →
    (k.pool i).state = .UNUSED
  once : (l.exited.map Prod.fst).Nodup
  distinct : l.reaped.Nodup

namespace Told

variable {l : Ledger}

theorem lives (h : Told k l) (hs : ∀ j, Lives (k.pool j) (k'.pool j)) (hnext : k'.PID = k.PID) :
    Told k' l := by
  refine ⟨fun i hi => ?_, fun x hx => ?_, fun x hx i hi => ?_, fun r hr => ?_, h.once, h.distinct⟩
  · have hz := (hs i).zombie.mp hi
    rw [(hs i).pid, (hs i).code hz]
    exact h.zombie i hz
  · rw [hnext]
    exact h.below x hx
  · rw [(hs i).pid] at hi
    exact (hs i).dead.mpr (h.dead x hx i hi)
  · obtain ⟨x, hx, hrx, hfree⟩ := h.reaped r hr
    refine ⟨x, hx, hrx, fun i hi => ?_⟩
    rw [(hs i).pid] at hi
    exact (hs i).unused.mpr (hfree i hi)

theorem switch (h : Told k l) (p : Nat) : Told (k.switch p) l :=
  ⟨h.zombie, h.below, h.dead, h.reaped, h.once, h.distinct⟩

theorem created (h : Told k l) (hnew : Created k k' np) : Told k' l := by
  have hs : ∀ j ≠ np, Lives (k.pool j) (k'.pool j) :=
    fun j hj => (hnew.others j hj).lives (hnew.code j hj)
  -- The number of the new process is larger than those of the others.
  have hfresh : ∀ x ∈ l.exited, (k'.pool np).pid ≠ x.1 := by
    intro x hx
    rw [hnew.pid]
    exact (h.below x hx).ne'
  refine ⟨of_slot np (fun hz => absurd (Or.inr hz) hnew.live) fun j hj hz => ?_, fun x hx => ?_,
    fun x hx => ?_, fun r hr => ?_, h.once, h.distinct⟩
  · have hz := (hs j hj).zombie.mp hz
    rw [(hs j hj).pid, (hs j hj).code hz]
    exact h.zombie j hz
  · rw [hnew.next]
    exact (h.below x hx).trans (Nat.lt_succ_self _)
  · refine of_slot np (fun hc => absurd hc (hfresh x hx)) fun j hj hpid => ?_
    rw [(hs j hj).pid] at hpid
    exact (hs j hj).dead.mpr (h.dead x hx j hpid)
  · obtain ⟨x, hx, hrx, hfree⟩ := h.reaped r hr
    refine ⟨x, hx, hrx, of_slot np (fun hc => absurd hc (hfresh x hx)) fun j hj hpid => ?_⟩
    rw [(hs j hj).pid] at hpid
    exact (hs j hj).unused.mpr (hfree j hpid)

/-- A process exits: it is noted, since it has not exited before. -/
theorem exit {s : procstate} {code : Int} (h : Told k l) (hnum : Numbered k)
    (hlive : ¬ Dead (k.pool i)) (hended : Ended k k' i s) (hs : s = .UNUSED ∨ s = .ZOMBIE)
    (hcode : (k'.pool i).exit_code = code) :
    Told k' { l with exited := ((k.pool i).pid, code) :: l.exited } := by
  have hkept : ∀ j ≠ i, Lives (k.pool j) (k'.pool j) := fun j hj =>
    (hended.others j hj).lives (hended.code j hj)
  have hpid : 1 ≤ (k.pool i).pid := hnum.positive i fun hc => hlive (Or.inl hc)
  have hnew : ∀ x ∈ l.exited, (k.pool i).pid ≠ x.1 := fun x hx hc => hlive (h.dead x hx i hc)
  have hdead : Dead (k'.pool i) := by
    unfold Dead
    rw [hended.state]
    exact hs
  refine ⟨of_slot i (fun _ => ?_) fun j hj hz => ?_, ?_, ?_, fun r hr => ?_, ?_, h.distinct⟩
  · rw [hended.pid, hcode]
    exact List.mem_cons_self ..
  · have hz := (hkept j hj).zombie.mp hz
    rw [(hkept j hj).pid, (hkept j hj).code hz]
    exact List.mem_cons_of_mem _ (h.zombie j hz)
  · rw [hended.next]
    exact List.forall_mem_cons.mpr ⟨hnum.below i, h.below⟩
  · refine List.forall_mem_cons.mpr ⟨of_slot i (fun _ => hdead) fun j hj hc => ?_, fun x hx =>
      of_slot i (fun _ => hdead) fun j hj hc => ?_⟩
    · rw [(hkept j hj).pid] at hc
      exact absurd (hnum.distinct i j hpid hc.symm).symm hj
    · rw [(hkept j hj).pid] at hc
      exact (hkept j hj).dead.mpr (h.dead x hx j hc)
  · obtain ⟨x, hx, hrx, hfree⟩ := h.reaped r hr
    refine ⟨x, List.mem_cons_of_mem _ hx, hrx, of_slot i (fun hc => ?_) fun j hj hc => ?_⟩
    · rw [hended.pid] at hc
      exact absurd hc (hnew x hx)
    · rw [(hkept j hj).pid] at hc
      exact (hkept j hj).unused.mpr (hfree j hc)
  · rw [List.map_cons, List.nodup_cons]
    refine ⟨fun hmem => ?_, h.once⟩
    obtain ⟨x, hx, hc⟩ := List.mem_map.mp hmem
    exact hnew x hx hc.symm

/-- A zombie is waited for: it has exited with its code, and was not waited for
before. -/
theorem reap (h : Told k l) (hnum : Numbered k) (hz : (k.pool i).state = .ZOMBIE)
    (hended : Ended k k' i .UNUSED) : ((k.pool i).pid : Int) ∉ l.reaped ∧
    Told k' { l with reaped := (k.pool i).pid :: l.reaped } := by
  have hkept : ∀ j ≠ i, Lives (k.pool j) (k'.pool j) := fun j hj =>
    (hended.others j hj).lives (hended.code j hj)
  have hused : (k.pool i).state ≠ .UNUSED := by
    rw [hz]
    decide
  have hpid := hnum.positive i hused
  have hnot : ((k.pool i).pid : Int) ∉ l.reaped := by
    intro hr
    obtain ⟨x, _, hrx, hfree⟩ := h.reaped _ hr
    exact hused (hfree i (by omega))
  have hfree : ∀ j, (k'.pool j).pid = (k.pool i).pid → (k'.pool j).state = .UNUSED := by
    refine of_slot i (fun _ => hended.state) fun j hj hc => ?_
    rw [(hkept j hj).pid] at hc
    exact absurd (hnum.distinct i j hpid hc.symm).symm hj
  refine ⟨hnot, of_slot i (fun hc => ?_) fun j hj hc => ?_, ?_, fun x hx =>
    of_slot i (fun _ => Or.inl hended.state) fun j hj hc => ?_, ?_, h.once,
      List.nodup_cons.mpr ⟨hnot, h.distinct⟩⟩
  · rw [hended.state] at hc
    cases hc
  · have hz := (hkept j hj).zombie.mp hc
    rw [(hkept j hj).pid, (hkept j hj).code hz]
    exact h.zombie j hz
  · rw [hended.next]
    exact h.below
  · rw [(hkept j hj).pid] at hc
    exact (hkept j hj).dead.mpr (h.dead x hx j hc)
  · refine List.forall_mem_cons.mpr ⟨⟨_, h.zombie i hz, rfl, hfree⟩, fun r hr => ?_⟩
    obtain ⟨x, hx, hrx, hbefore⟩ := h.reaped r hr
    refine ⟨x, hx, hrx, of_slot i (fun _ => hended.state) fun j hj hc => ?_⟩
    rw [(hkept j hj).pid] at hc
    exact (hkept j hj).unused.mpr (hbefore j hc)

theorem of_change (h : Told k l) (hnum : Numbered k) (hlive : ¬ Dead (k.pool k.current_proc))
    (hchange : Change k k' call r) : Told k' (l.note k call r) := by
  cases hchange with
  | fork np hnew => exact h.created hnew
  | forkSelf hself =>
    refine h.lives (of_slot k.current_proc ⟨?_, ?_, hself.pid, fun _ => hself.code _⟩ fun j hj =>
      (hself.others j hj).lives (hself.code j)) hself.next
    · exact ⟨fun hc => absurd (hself.dead (Or.inl hc)) hlive, fun hc => absurd (Or.inl hc) hlive⟩
    · exact ⟨fun hc => absurd (hself.dead (Or.inr hc)) hlive, fun hc => absurd (Or.inr hc) hlive⟩
  | spawn np hnew => exact h.created hnew
  | exit hended hcode =>
    refine h.exit hnum hlive hended ?_ hcode
    split
    · exact Or.inr rfl
    · exact Or.inl rfl
  | wait hw =>
    cases hw with
    | reaped j hj hkid hz hended hcode =>
      dsimp only [Ledger.note]
      rw [if_neg (by omega)]
      exact (h.reap hnum hz hended).2
    | nobody hkept => exact h.lives (fun j => (hkept.pool j).lives (hkept.code j)) hkept.next
    | later hkept =>
      exact h.lives (fun j => ((hkept hlive).pool j).lives ((hkept hlive).code j))
        (hkept hlive).next
  | noProc hnone hk =>
    rw [hk]
    exact h
  | mailwrite i m hi hk =>
    rw [hk]
    exact h.lives (lives_setMailbox i m) rfl
  | mailread mm m hk =>
    rw [hk]
    exact h.lives (lives_setMailbox _ m) rfl

/-- Every step keeps what was told. -/
theorem step {s s' : Kernel × Ledger} (h : Told s.1 s.2) (hnum : Numbered s.1)
    (hs : StatusStep lk s s') :
    Told s'.1 s'.2 := by
  cases hs with
  | @call k k' l p call r hp hlive hrun =>
    have hchange := (LifeCall.run_changes (hnum.switch p).boxes call).of_ok hrun
    exact (h.switch p).of_change (hnum.switch p) hlive hchange
  | other hkept hcode hnext =>
    exact h.lives (fun j => ⟨(hkept j).unused, (hkept j).zombie, (hkept j).pid, hcode j⟩) hnext

theorem run {l' : Ledger} (hboot : LifeBoot k)
    (hrun : Relation.ReflTransGen (StatusStep lk) (k, ⟨[], []⟩) (k', l')) : Numbered k' ∧
    Told k' l' := by
  have hstart : Told k ⟨[], []⟩ := by
    obtain ⟨⟨i, _, hlive, _, _, hrest⟩, _, _⟩ := hboot
    refine ⟨of_slot i (fun hz => absurd (Or.inr hz) hlive) fun j hj hz => ?_, fun x hx => ?_,
      fun x hx => ?_, fun r hr => ?_, List.nodup_nil, List.nodup_nil⟩
    · rw [(hrest j hj).1] at hz
      cases hz
    · cases hx
    · cases hx
    · cases hr
  generalize hs : (k, (⟨[], []⟩ : Ledger)) = s at hrun
  generalize hs' : (k', l') = s' at hrun
  have hend : Numbered s'.1 ∧ Told s'.1 s'.2 := by
    induction hrun generalizing k' l' with
    | refl =>
      rw [← hs]
      exact ⟨hboot.numbered, hstart⟩
    | tail _ hlast ih =>
      obtain ⟨hnum, h⟩ := ih rfl
      exact ⟨hlast.numbered hnum, h.step hnum hlast⟩
  rw [← hs'] at hend
  exact hend

end Told

/-- In every run, each process exits once, and each `wait` that does not fail
returns the number of a process that has exited, which no `wait` has returned
before, and stores its code. For an address of the user on one page, that is
where the user has `*code`. -/
theorem a_code_is_handed_over_once {l' : Ledger} (hboot : LifeBoot k)
    (hrun : Relation.ReflTransGen (StatusStep lk) (k, ⟨[], []⟩) (k', l')) :
    (l'.exited.map Prod.fst).Nodup ∧ l'.reaped.Nodup ∧ (∀ r ∈ l'.reaped, ∃ x ∈ l'.exited, r = x.1) ∧
    ∀ p, ¬ Dead (k'.pool p) → ∀ (pid : Int) (code : Nat) (c : Int) (k'' : Kernel),
      (LifeCall.wait pid code).run lk (k'.switch p) = .ok (.ret c, k'') → c ≠ -1 →
      c ∉ l'.reaped ∧ ∃ x ∈ l'.exited, c = x.1 ∧
        k''.mm.mem = k'.mm.mem.put32 code (BitVec.ofInt 32 x.2).toNat ∧
        k''.mm.mem.get32 code = (BitVec.ofInt 32 x.2).toNat ∧
        ∀ va < 2 ^ 64, va % PGSIZE + 4 ≤ PGSIZE →
        waitCode va (k'.switch p) = .ok (code, k'.switch p) →
          ∀ u < 4, userAddr k'.mm.mem (k'.pool p).pagetable (va + u) = code + u := by
  obtain ⟨hnum, h⟩ := Told.run hboot hrun
  refine ⟨h.once, h.distinct, fun r hr => ?_, fun p hlive pid code c k'' hwait hc => ?_⟩
  · obtain ⟨x, hx, hrx, _⟩ := h.reaped r hr
    exact ⟨x, hx, hrx⟩
  · have hw := (waitTurn_waited (k := k'.switch p) pid code).of_ok hwait
    cases hw with
    | reaped j hj hkid hz hended hcode =>
      refine ⟨((h.switch p).reap (hnum.switch p) hz hended).1, _, h.zombie j hz, rfl, hcode, ?_, ?_⟩
      · rw [hcode, Bytes.get32_put32 (BitVec.isLt _)]
        rfl
      · intro va hva hpage haddr u hu
        rw [waitCode_eq hva] at haddr
        cases haddr
        exact userAddr_add hva (by omega)
    | nobody hkept => exact absurd rfl hc

/-- The child exits with 1234, and the first process waits for it. -/
theorem a_code_is_handed_over_once_to_the_parent : ∃ (k' k'' : Kernel),
    (LifeCall.wait 2 PGSIZE).run pageLink (k'.switch 0) = .ok (.ret 2, k'') ∧
    k''.mm.mem.get32 PGSIZE = 1234 := by
  obtain ⟨k, k₁, k₂, r₁, r₂, hboot, hlive, hrun₁, hlive₁, _, hrun₂, hlive₂, hz, hpid₁, hpid,
    hparent⟩ := child_calls 1234
  have hstep₁ : StatusStep pageLink (k, ⟨[], []⟩) (k₁, ⟨[], []⟩) :=
    .call 0 .fork r₁ (by decide) hlive hrun₁
  have hstep₂ : StatusStep pageLink (k₁, ⟨[], []⟩) (k₂, ⟨[((k₁.pool 1).pid, 1234)], []⟩) :=
    .call 1 (.exit 1234) r₂ (by decide) hlive₁ hrun₂
  have hrun := (Relation.ReflTransGen.single hstep₁).tail hstep₂
  obtain ⟨hnum, _⟩ := Told.run hboot hrun
  obtain ⟨k₃, hwait, _⟩ := @Numbered.can_wait pageLink _ _ hnum _ _ hz hparent (Nat.le_refl PGSIZE)
  rw [hpid] at hwait
  obtain ⟨_, x, hx, _, _, hcode, _⟩ :=
    (a_code_is_handed_over_once hboot hrun).2.2.2 0 hlive₂ 2 PGSIZE 2 k₃ hwait (by decide)
  rw [List.mem_singleton.mp hx] at hcode
  exact ⟨k₂, k₃, hwait, hcode⟩

end ThuKernel
