-- Runs of the scheduler: what the table of processes is like in every state, and
-- that each process that is ready gets its turn.
import ThuKernel.Kernel.Scheduler
import ThuKernel.Kernel.LifeRuns

namespace ThuKernel.Scheduler

variable {lk : Link} {k k' : Kernel} {s s' s₀ s₁ s₂ s₃ : Cpu} {i np p q : Nat}

/-! ## One turn of the scheduler -/

/-- The scheduler sends the process in slot `q` to the processor. -/
def Cpu.dispatch (s : Cpu) (q : Nat) : Cpu :=
  { s with
    all_done := false
    k := { s.k with
      pool := Function.update s.k.pool q { s.k.pool q with state := .RUNNING }
      current_proc := q }
    runs := some q }

def Dispatches (q : Nat) (s s' : Cpu) : Prop :=
  s.runs = none ∧ s.p = q ∧ q < NPROC ∧ (s.k.pool q).state = .RUNNABLE ∧ s' = s.dispatch q

theorem scheduler_cases (hruns : s.runs = none) (hrun : scheduler s = .ok ((), s')) :
    Dispatches s.p s s' ∨ (s.p < NPROC ∧ (s.k.pool s.p).state ≠ .RUNNABLE ∧
      s' = { s with p := s.p + 1 }) ∨
      (NPROC ≤ s.p ∧ s' = { s with p := 0, all_done := true }) := by
  have h : Runs (fun _ => True) scheduler s (fun _ s' => Dispatches s.p s s' ∨
      (s.p < NPROC ∧ (s.k.pool s.p).state ≠ .RUNNABLE ∧ s' = { s with p := s.p + 1 }) ∨
      (NPROC ≤ s.p ∧ s' = { s with p := 0, all_done := true })) := by
    unfold scheduler
    rw [Runs.bind_iff, Runs.get_iff]
    split
    · rename_i hlt
      split
      · rename_i hready
        exact Or.inl ⟨hruns, rfl, hlt, hready, rfl⟩
      · rename_i hnot
        exact Or.inr (Or.inl ⟨hlt, hnot, rfl⟩)
    · rename_i hlt
      split
      · trivial
      · exact Or.inr (Or.inr ⟨Nat.le_of_not_lt hlt, rfl⟩)
  exact h.of_ok hrun

/-! ## The slots -/

/-- A slot without a process has no page table and no file, and numbers are given
out once. -/
structure Slots (k : Kernel) : Prop where
  bare : ∀ i, Dead (k.pool i) → (k.pool i).pagetable = 0 ∧ ∀ fd < FD_MAX, (k.pool i).files fd = none
  below : ∀ i, (k.pool i).pid < k.PID
  positive : ∀ i, (k.pool i).state ≠ .UNUSED → 1 ≤ (k.pool i).pid
  distinct : ∀ i j, 1 ≤ (k.pool i).pid → (k.pool i).pid = (k.pool j).pid → i = j

namespace Slots

/-- All numbers stay, and no slot comes into use. -/
theorem keep (h : Slots k) (hpid : ∀ j, (k'.pool j).pid = (k.pool j).pid) (hnext : k'.PID = k.PID)
    (hused : ∀ j, (k'.pool j).state ≠ .UNUSED → (k.pool j).state ≠ .UNUSED)
    (hbare : ∀ j, Dead (k'.pool j) → (k'.pool j).pagetable = 0 ∧
    ∀ fd < FD_MAX, (k'.pool j).files fd = none) :
    Slots k' := by
  refine ⟨hbare, fun j => ?_, fun j hj => ?_, fun a b h1 hab => ?_⟩
  · rw [hpid, hnext]
    exact h.below j
  · rw [hpid]
    exact h.positive j (hused j hj)
  · rw [hpid] at h1 hab
    rw [hpid] at hab
    exact h.distinct a b h1 hab

theorem bare_of_same (h : Slots k) {j : Nat} (hs : Same (k.pool j) (k'.pool j))
    (hd : Dead (k'.pool j)) :
    (k'.pool j).pagetable = 0 ∧ ∀ fd < FD_MAX, (k'.pool j).files fd = none := by
  have hd := hs.dead.mp hd
  have hb := h.bare j hd
  refine ⟨(hs.bare hd).1.trans hb.1, fun fd hfd => ?_⟩
  rw [(hs.bare hd).2 fd hfd]
  exact hb.2 fd hfd

theorem quiet (h : Slots k) (hs : ∀ j, Same (k.pool j) (k'.pool j)) (hnext : k'.PID = k.PID) :
    Slots k' := by
  refine h.keep (fun j => (hs j).pid) hnext (fun j hj => ?_) fun j hd => h.bare_of_same (hs j) hd
  rwa [(hs j).state] at hj

/-- One slot that was in use changes, and keeps its number. -/
theorem only (h : Slots k) (ho : Only i k k') (hused : (k.pool i).state ≠ .UNUSED)
    (hpid : (k'.pool i).pid = (k.pool i).pid) (hnext : k'.PID = k.PID)
    (hbare : Dead (k'.pool i) → (k'.pool i).pagetable = 0 ∧
    ∀ fd < FD_MAX, (k'.pool i).files fd = none) :
    Slots k' := by
  refine h.keep (of_slot i hpid fun j hj => (ho.others j hj).pid) hnext
    (of_slot i (fun _ => hused) fun j hj hu => ?_)
    (of_slot i hbare fun j hj hd => h.bare_of_same (ho.others j hj) hd)
  rwa [(ho.others j hj).state] at hu

theorem taken (h : Slots k) (ht : Taken np k k') : Slots k' := by
  have hfresh : ∀ j, k.PID ≠ (k.pool j).pid := fun j => (h.below j).ne'
  have hpid : ∀ j ≠ np, (k'.pool j).pid = (k.pool j).pid := fun j hj => (ht.only.others j hj).pid
  refine ⟨of_slot np (fun hd => absurd hd ht.live) fun j hj hd =>
    h.bare_of_same (ht.only.others j hj) hd,
    of_slot np ?_ fun j hj => ?_, of_slot np (fun _ => ?_) fun j hj hu => ?_, fun a b h1 hab => ?_⟩
  · rw [ht.pid, ht.next]
    exact Nat.lt_succ_self _
  · rw [hpid j hj, ht.next]
    exact (h.below j).trans (Nat.lt_succ_self _)
  · rw [ht.pid]
    have := h.below np
    omega
  · rw [hpid j hj]
    rw [(ht.only.others j hj).state] at hu
    exact h.positive j hu
  · by_cases ha : a = np
    · by_cases hb : b = np
      · rw [ha, hb]
      · rw [ha, ht.pid, hpid b hb] at hab
        exact absurd hab (hfresh b)
    · rw [hpid a ha] at h1 hab
      by_cases hb : b = np
      · rw [hb, ht.pid] at hab
        exact absurd hab.symm (hfresh a)
      · rw [hpid b hb] at hab
        exact h.distinct a b h1 hab

theorem event (h : Slots k) (he : Event k k') (hlive : ¬ Dead (k.pool k.current_proc)) :
    Slots k' := by
  cases he with
  | quiet hq => exact h.quiet hq.pool hq.next
  | taken np ht => exact h.taken ht
  | reaped j ho hzombie hstate hpid hpagetable hfiles hnext =>
    refine h.only ho (by rw [hzombie]; decide) hpid hnext fun _ => ?_
    have hb := h.bare j (Or.inr hzombie)
    refine ⟨hpagetable.trans hb.1, fun fd hfd => ?_⟩
    rw [hfiles fd hfd]
    exact hb.2 fd hfd
  | offered ho hstate hpid hnext =>
    refine h.only ho (fun hc => hlive (Or.inl hc)) hpid hnext fun hd => ?_
    rcases hd with hd | hd
    · cases hd.symm.trans hstate
    · cases hd.symm.trans hstate

theorem bared (h : Slots k) (hb : Bared k.current_proc k k')
    (hlive : ¬ Dead (k.pool k.current_proc)) : Slots k' :=
  h.only hb.only (fun hc => hlive (Or.inl hc)) hb.pid hb.next fun _ => ⟨hb.pagetable, hb.files⟩

end Slots

/-! ## The states -/

/-- An event changes the state of the caller only to RUNNABLE, and makes no other
slot RUNNING. -/
structure Steady (k k' : Kernel) : Prop where
  running : ∀ j, (k'.pool j).state = .RUNNING → (k.pool j).state = .RUNNING
  self : (k'.pool k.current_proc).state = (k.pool k.current_proc).state ∨
    (k'.pool k.current_proc).state = .RUNNABLE
  ready : ∀ j ≠ k.current_proc, (k.pool j).state = .RUNNABLE → (k'.pool j).state = .RUNNABLE

/-- The caller goes on. -/
theorem Steady.live (h : Steady k k') (hlive : ¬ Dead (k.pool k.current_proc)) :
    ¬ Dead (k'.pool k.current_proc) := by
  unfold Dead at *
  rcases h.self with hs | hs
  · rwa [hs]
  · rw [hs]
    decide

theorem Event.steady (h : Event k k') (hlive : ¬ Dead (k.pool k.current_proc)) : Steady k k' := by
  have hrest : ∀ {j}, Same (k.pool j) (k'.pool j) → (k'.pool j).state = .RUNNING →
      (k.pool j).state = .RUNNING := by
    intro j hs hr
    rwa [hs.state] at hr
  have hready : ∀ {j}, Same (k.pool j) (k'.pool j) → (k.pool j).state = .RUNNABLE →
      (k'.pool j).state = .RUNNABLE := by
    intro j hs hr
    rwa [hs.state]
  cases h with
  | quiet hq =>
    exact ⟨fun j => hrest (hq.pool j), Or.inl (hq.pool _).state, fun j _ => hready (hq.pool j)⟩
  | taken np ht =>
    have hne : k.current_proc ≠ np := fun hc => hlive (Or.inl (hc ▸ ht.free))
    refine ⟨of_slot np (fun hr => ?_) fun j hj => hrest (ht.only.others j hj),
      Or.inl (ht.only.others _ hne).state,
      of_slot np (fun _ hr => ?_) fun j hj _ => hready (ht.only.others j hj)⟩
    · rcases ht.state with hs | hs
      · cases hr.symm.trans hs
      · cases hr.symm.trans hs
    · cases hr.symm.trans ht.free
  | reaped j ho hzombie hstate =>
    have hne : k.current_proc ≠ j := fun hc => hlive (Or.inr (hc ▸ hzombie))
    refine ⟨of_slot j (fun hr => ?_) fun i hi => hrest (ho.others i hi),
      Or.inl (ho.others _ hne).state,
      of_slot j (fun _ hr => ?_) fun i hi _ => hready (ho.others i hi)⟩
    · cases hr.symm.trans hstate
    · cases hr.symm.trans hzombie
  | offered ho hstate =>
    refine ⟨of_slot _ (fun hr => ?_) fun j hj => hrest (ho.others j hj), Or.inr hstate,
      fun j hj => hready (ho.others j hj)⟩
    cases hr.symm.trans hstate

/-! ## The table in every state -/

/-- A RUNNING slot is the one that runs. What runs is the process of
`current_proc`, which is RUNNING, or RUNNABLE when a `fork` without a free slot
copied the process onto itself. -/
structure Table (s : Cpu) : Prop where
  slots : Slots s.k
  running : ∀ j, (s.k.pool j).state = .RUNNING → s.runs = some j
  current : ∀ p, s.runs = some p → s.k.current_proc = p ∧ p < NPROC ∧
    ((s.k.pool p).state = .RUNNING ∨ (s.k.pool p).state = .RUNNABLE)
  idle : s.runs = none → s.k.current_proc = idle

theorem Table.live (h : Table s) (hruns : s.runs = some p) :
    ¬ Dead (s.k.pool s.k.current_proc) := by
  obtain ⟨hcur, _, hstate⟩ := h.current p hruns
  rw [hcur]
  rintro (hd | hd)
  · rcases hstate with hs | hs
    · cases hd.symm.trans hs
    · cases hd.symm.trans hs
  · rcases hstate with hs | hs
    · cases hd.symm.trans hs
    · cases hd.symm.trans hs

/-- The step to the state in which another process may be chosen. -/
theorem Table.left (h : Table s) (hruns : s.runs = some p) (hslots : Slots k')
    (hrunning : ∀ j, (k'.pool j).state = .RUNNING → (s.k.pool j).state = .RUNNING)
    (hself : (k'.pool s.k.current_proc).state ≠ .RUNNING) (n : Nat) :
    Table { s with k := k'.switch Scheduler.idle, runs := none, p := n } := by
  refine ⟨⟨hslots.bare, hslots.below, hslots.positive, hslots.distinct⟩, fun j hj => ?_,
    fun p hp => (by cases hp), fun _ => rfl⟩
  have hj' : (k'.pool j).state = .RUNNING := hj
  have := h.running j (hrunning j hj')
  rw [hruns] at this
  cases this
  rw [(h.current p hruns).1] at hself
  exact absurd hj' hself

theorem Cpu.dispatch_pool (s : Cpu) (q j : Nat) : (s.dispatch q).k.pool j =
    if j = q then { s.k.pool q with state := .RUNNING } else s.k.pool j := by
  show Function.update s.k.pool q _ j = _
  split
  · rename_i hj
    rw [hj, Function.update_self]
  · rename_i hj
    rw [Function.update_of_ne hj]

theorem Table.dispatch (h : Table s) (hd : Dispatches q s s') : Table s' := by
  obtain ⟨hruns, _, hlt, hready, rfl⟩ := hd
  have hpool := s.dispatch_pool q
  have hself : ((s.dispatch q).k.pool q).state = .RUNNING := by rw [hpool, if_pos rfl]
  have hnone : ∀ j, (s.k.pool j).state ≠ .RUNNING := by
    intro j hj
    have := h.running j hj
    rw [hruns] at this
    cases this
  refine ⟨h.slots.keep (of_slot q ?_ fun j hj => ?_) rfl (of_slot q (fun _ => ?_) fun j hj hu => ?_)
      (of_slot q (fun hdead => ?_) fun j hj hdead => ?_),
    of_slot q (fun _ => rfl) fun j hj hr => ?_, fun p hp => ?_, fun hc => by cases hc⟩
  · rw [hpool, if_pos rfl]
  · rw [hpool, if_neg hj]
  · rw [hready]
    decide
  · rwa [hpool, if_neg hj] at hu
  · rcases hdead with hc | hc
    · cases hc.symm.trans hself
    · cases hc.symm.trans hself
  · rw [hpool, if_neg hj] at hdead ⊢
    exact h.slots.bare j hdead
  · rw [hpool, if_neg hj] at hr
    exact absurd hr (hnone j)
  · cases hp
    exact ⟨rfl, hlt, Or.inl hself⟩

/-- Every step keeps the table. -/
theorem Table.step (h : Table s) (hs : CpuStep lk s s') : Table s' := by
  cases hs with
  | turn hruns hrun =>
    rcases scheduler_cases hruns hrun with hd | ⟨_, _, rfl⟩ | ⟨_, rfl⟩
    · exact h.dispatch hd
    · exact ⟨h.slots, h.running, h.current, h.idle⟩
    · exact ⟨h.slots, h.running, h.current, h.idle⟩
  | call p call hruns hrun =>
    have hlive := h.live hruns
    have he : Event s.k _ := (call.run_outcome hlive).of_ok hrun
    have hst := he.steady hlive
    have hself := hst.self
    obtain ⟨hcur, hlt, hstate⟩ := h.current p hruns
    refine ⟨h.slots.event he hlive, fun j hj => h.running j (hst.running j hj), fun q hq => ?_,
      fun hc => ?_⟩
    · cases hruns.symm.trans hq
      rw [hcur] at hself
      refine ⟨he.current.trans hcur, hlt, ?_⟩
      rcases hself with hsame | hready
      · dsimp only
        rw [hsame]
        exact hstate
      · exact Or.inr hready
    · cases hruns.symm.trans hc
  | leave p call hruns hrun =>
    have hlive := h.live hruns
    obtain ⟨k₁, he, hne, rfl⟩ := (call.run_outcome hlive).of_ok hrun
    rcases he with he | hb
    · exact h.left hruns (h.slots.event he hlive) (he.steady hlive).running hne _
    · refine h.left hruns (h.slots.bared hb hlive)
        (of_slot _ (fun hr => absurd hr hne) fun j hj hr => ?_) hne _
      rwa [(hb.only.others j hj).state] at hr
  | other hsame hcur hnext =>
    refine ⟨h.slots.quiet hsame hnext, fun j hj => h.running j ?_, fun p hp => ?_,
      fun hc => hcur.trans (h.idle hc)⟩
    · rwa [← (hsame j).state]
    · obtain ⟨hcur', hlt, hstate⟩ := h.current p hp
      refine ⟨hcur.trans hcur', hlt, ?_⟩
      dsimp only
      rw [(hsame p).state]
      exact hstate

/-- The first process has been made, and the scheduler starts. -/
structure Boot (s : Cpu) : Prop where
  idle : s.runs = none ∧ s.k.current_proc = idle ∧ s.p = 0
  first : ∃ i < NPROC, (s.k.pool i).state = .RUNNABLE ∧ 1 ≤ (s.k.pool i).pid ∧
    (s.k.pool i).pid < s.k.PID ∧
    ∀ j ≠ i, (s.k.pool j).state = .UNUSED ∧ (s.k.pool j).pid = 0 ∧ (s.k.pool j).pagetable = 0 ∧
      ∀ fd < FD_MAX, (s.k.pool j).files fd = none

theorem Boot.table (h : Boot s) : Table s := by
  obtain ⟨⟨hruns, hcur, _⟩, i, hi, hready, h1, hlt, hrest⟩ := h
  have hpid : ∀ j, 1 ≤ (s.k.pool j).pid → j = i := by
    intro j hj
    by_contra hji
    rw [(hrest j hji).2.1] at hj
    omega
  refine ⟨⟨of_slot i (fun hd => ?_) fun j hj _ => (hrest j hj).2.2, of_slot i hlt fun j hj => ?_,
      of_slot i (fun _ => h1) fun j hj hu => absurd (hrest j hj).1 hu, fun a b ha hab => ?_⟩,
    of_slot i (fun hr => ?_) fun j hj hr => ?_, fun p hp => ?_, fun _ => hcur⟩
  · rcases hd with hd | hd
    · cases hd.symm.trans hready
    · cases hd.symm.trans hready
  · rw [(hrest j hj).2.1]
    omega
  · rw [hpid a ha, hpid b (by omega)]
  · cases hr.symm.trans hready
  · cases hr.symm.trans (hrest j hj).1
  · cases hruns.symm.trans hp

theorem Boot.run (h : Boot s) (hrun : Relation.ReflTransGen (CpuStep lk) s s') : Table s' := by
  induction hrun with
  | refl => exact h.table
  | tail _ hlast ih => exact ih.step hlast

/-- The scheduler comes to slot `q` before it comes to slot `p` again. -/
def Ahead (p q : Nat) (s : Cpu) : Prop :=
  (p < q ∧ s.p ≤ q ∧ (p < s.p ∨ (s.p = p ∧ s.runs.isSome))) ∨
  (q < p ∧ (s.p ≤ q ∨ p < s.p ∨ (s.p = p ∧ s.runs.isSome)))

/-- The process in slot `q` is ready since the one in slot `p` got its turn. -/
structure Waiting (p q : Nat) (s : Cpu) : Prop where
  ready : (s.k.pool q).state = .RUNNABLE
  off : s.runs ≠ some q
  current : ∀ r, s.runs = some r → s.k.current_proc = r ∧ s.p = r ∧ ¬ Dead (s.k.pool r)
  ahead : Ahead p q s

namespace Waiting

/-- The scheduler goes on to the next slot, after one that was not `q`. -/
theorem ahead_succ (h : Ahead p q s) (hpq : s.p ≠ q) (n : Cpu) (hn : n.p = s.p + 1) :
    Ahead p q n := by
  rcases h with ⟨hlt, hle, hafter⟩ | ⟨hlt, hcase⟩
  · refine Or.inl ⟨hlt, by omega, Or.inl ?_⟩
    rcases hafter with hafter | ⟨hc, _⟩
    · omega
    · omega
  · refine Or.inr ⟨hlt, ?_⟩
    rcases hcase with hbefore | hafter | ⟨hc, _⟩
    · left
      omega
    · right
      left
      omega
    · right
      left
      omega

/-- Every step gives `q` its turn, or leaves it waiting. -/
theorem step (h : Waiting p q s) (hq : q < NPROC) (hs : CpuStep lk s s') :
    Dispatches q s s' ∨ Waiting p q s' := by
  cases hs with
  | turn hruns hrun =>
    rcases scheduler_cases hruns hrun with hd | ⟨hlt, hnot, rfl⟩ | ⟨hle, rfl⟩
    · by_cases hpq : s.p = q
      · rw [hpq] at hd
        exact Or.inl hd
      · right
        obtain ⟨_, _, _, _, rfl⟩ := hd
        refine ⟨?_, fun hc => hpq (Option.some.inj hc), fun r hr => ?_, ?_⟩
        · rw [s.dispatch_pool, if_neg (Ne.symm hpq)]
          exact h.ready
        · cases hr
          refine ⟨rfl, rfl, ?_⟩
          rw [s.dispatch_pool, if_pos rfl]
          rintro (hc | hc)
          · cases hc
          · cases hc
        · rcases h.ahead with ⟨hpq', hle, hafter⟩ | ⟨hpq', hcase⟩
          · exact Or.inl ⟨hpq', hle, hafter.imp_right fun hc => ⟨hc.1, rfl⟩⟩
          · exact Or.inr ⟨hpq', hcase.imp_right (Or.imp_right fun hc => ⟨hc.1, rfl⟩)⟩
    · right
      have hpq : s.p ≠ q := by
        rintro rfl
        exact hnot h.ready
      exact ⟨h.ready, h.off, fun r hr => (by cases hruns.symm.trans hr),
        ahead_succ h.ahead hpq _ rfl⟩
    · right
      refine ⟨h.ready, h.off, fun r hr => (by cases hruns.symm.trans hr), ?_⟩
      rcases h.ahead with ⟨hlt, hpq, _⟩ | ⟨hlt, _⟩
      · omega
      · exact Or.inr ⟨hlt, Or.inl (Nat.zero_le q)⟩
  | call r call hruns hrun =>
    right
    obtain ⟨hcur, hsp, hlive⟩ := h.current r hruns
    rw [← hcur] at hlive
    have he : Event s.k _ := (call.run_outcome hlive).of_ok hrun
    have hst := he.steady hlive
    have hq' : q ≠ s.k.current_proc := by
      rintro rfl
      exact h.off (hcur.symm ▸ hruns)
    refine ⟨hst.ready q hq' h.ready, h.off, fun r' hr' => ?_, h.ahead⟩
    cases hruns.symm.trans hr'
    refine ⟨he.current.trans hcur, hsp, ?_⟩
    have hlive' := hst.live hlive
    rwa [hcur] at hlive'
  | leave r call hruns hrun =>
    right
    obtain ⟨hcur, hsp, hlive⟩ := h.current r hruns
    rw [← hcur] at hlive
    obtain ⟨k₁, he, _, rfl⟩ := (call.run_outcome hlive).of_ok hrun
    have hq' : q ≠ s.k.current_proc := by
      rintro rfl
      exact h.off (hcur.symm ▸ hruns)
    have hpq : s.p ≠ q := by
      rintro rfl
      exact h.off (hsp.symm ▸ hruns)
    refine ⟨?_, fun hc => (by cases hc), fun r' hr' => (by cases hr'), ahead_succ h.ahead hpq _ rfl⟩
    rcases he with he | hb
    · exact (he.steady hlive).ready q hq' h.ready
    · show (k₁.pool q).state = _
      rw [(hb.only.others q hq').state]
      exact h.ready
  | other hsame hcur hnext =>
    right
    refine ⟨?_, h.off, fun r hr => ?_, h.ahead⟩
    · dsimp only
      rw [(hsame q).state]
      exact h.ready
    · obtain ⟨hcur', hsp, hlive⟩ := h.current r hr
      refine ⟨hcur.trans hcur', hsp, ?_⟩
      rwa [(hsame r).dead]

end Waiting

section TwoTasks

theorem Dispatches.step (h : Dispatches q s s') : CpuStep lk s s' := by
  obtain ⟨hruns, rfl, hlt, hready, rfl⟩ := h
  refine .turn hruns ?_
  have hrun : Runs (fun _ => False) scheduler s (fun _ s' => s' = s.dispatch s.p) := by
    unfold scheduler
    rw [Runs.bind_iff, Runs.get_iff, if_pos hlt, if_pos hready]
    exact rfl
  obtain ⟨_, _, hok, rfl⟩ := hrun.exists_ok fun _ he => he
  exact hok

end TwoTasks

end ThuKernel.Scheduler
