-- Runs of the calls on processes, with what has happened so far: which process
-- made which, and which mails were sent. Numbers are never used twice.
import ThuKernel.Kernel.Lifecycle
import ThuKernel.Kernel.MailLaws

namespace ThuKernel

/-! ## The calls -/

/-- A system call on processes and mails. `wait` is one scan, with the address
of `*code`. -/
inductive LifeCall where
  | fork
  | spawn (name : Bytes) (va : Nat)
  | exit (code : Int)
  | wait (pid : Int) (code : Nat)
  | mailwrite (pid : Int) (buf : Nat) (len : Int)
  | mailread (buf : Nat) (len : Int)

def LifeCall.run (lk : Link) : LifeCall → Prog Kernel WaitScan
  | .fork => .ret <$> sys_clone lk
  | .spawn name va => .ret <$> sys_spawn lk name va
  | .exit code => .ret <$> sys_exit lk code
  | .wait pid code => waitTurn pid code
  | .mailwrite pid buf len => .ret <$> sys_mailwrite pid buf len
  | .mailread buf len => .ret <$> sys_mailread buf len

/-- The pairs of a process and one that it made, and the mails that were sent
with the number that each was sent to. -/
structure History where
  created : List (Nat × Nat)
  sent : List (Int × List Byte)

/-- What a call of the current process adds to the history. -/
def History.note (h : History) (k : Kernel) : LifeCall → WaitScan → History
  | .fork, _ | .spawn .., _ =>
    if (freeSlot k.pool).isSome then
      { h with created := ((k.pool k.current_proc).pid, k.PID) :: h.created }
    else h
  | .mailwrite pid buf len, .ret r =>
    if 0 < r then
      { h with
        sent := (pid, userBytes k.mm.mem (k.pool k.current_proc).pagetable buf
          (min len.toNat MAIL_SIZE)) ::
        h.sent }
    else h
  | _, _ => h

/-- A step of the machine: a call of a live process that `ok` allows, or
anything else, which keeps the processes. -/
inductive LifeStep (lk : Link) (ok : Kernel → LifeCall → Prop) :
    Kernel × History → Kernel × History → Prop
  | call {k k' : Kernel} {h : History} (p : Nat) (call : LifeCall) (r : WaitScan) (hp : p < NPROC)
      (hlive : ¬ Dead (k.pool p)) (hok : ok (k.switch p) call)
      (hrun : call.run lk (k.switch p) = .ok (r, k')) :
      LifeStep lk ok (k, h) (k', h.note (k.switch p) call r)
  | other {k k' : Kernel} {h : History} (hkept : ∀ j, Kept (k.pool j) (k'.pool j))
      (hnext : k'.PID = k.PID) :
      LifeStep lk ok (k, h) (k', h)

variable {lk : Link} {E : Stop → Prop} {k k₁ k' : Kernel} {i j np : Nat} {call : LifeCall}
  {r : WaitScan}

/-- What a call does to the table of processes. -/
inductive Change (k k' : Kernel) : LifeCall → WaitScan → Prop
  | fork {r : WaitScan} (np : Nat) (h : Created k k' np) : Change k k' .fork r
  | forkSelf {r : WaitScan} (h : SelfForked k k') : Change k k' .fork r
  | spawn {name : Bytes} {va : Nat} {r : WaitScan} (np : Nat) (h : Created k k' np) :
      Change k k' (.spawn name va) r
  | exit {code : Int} {r : WaitScan} (h : Ended k k' k.current_proc
      (if (k.pool k.current_proc).parent.isSome then .ZOMBIE else .UNUSED))
      (hcode : (k'.pool k.current_proc).exit_code = code) : Change k k' (.exit code) r
  | wait {pid : Int} {code : Nat} {r : WaitScan} (h : Waited k k' pid code r) :
      Change k k' (.wait pid code) r
  | noProc {pid : Int} {buf : Nat} {len : Int} (h : get_proc k.pool pid = none) (hk : k' = k) :
      Change k k' (.mailwrite pid buf len) (.ret (-1))
  | mailwrite {pid : Int} {buf : Nat} {len : Int} {r : Int} (i : Nat) (m : Mailbox)
      (hi : get_proc k.pool pid = some i) (hk : k' = k.setMailbox i m) (hok : m.Ok)
      (hstep : 0 ≤ len → Mails.write (k.pool i).mailbox.queue len.toNat
        (readable k.mm.mem (k.pool k.current_proc).pagetable buf (min len.toNat MAIL_SIZE)) =
        (r, m.queue))
      (hneg : len < 0 → r = -1 ∧ m.queue = (k.pool i).mailbox.queue) :
      Change k k' (.mailwrite pid buf len) (.ret r)
  | mailread {buf : Nat} {len : Int} {r : Int} (mm : Mm) (m : Mailbox)
      (hk : k' = { k with mm := mm }.setMailbox k.current_proc m) (hok : m.Ok)
      (hqueue : m.queue = (k.pool k.current_proc).mailbox.queue ∨
        ∃ l, (k.pool k.current_proc).mailbox.queue = l :: m.queue)
      (hread : 0 < r → ∃ l, (k.pool k.current_proc).mailbox.queue = l :: m.queue ∧
        copyout (k.pool k.current_proc).pagetable buf (l.take len.toNat) k.mm = .ok (0, mm)) :
      Change k k' (.mailread buf len) (.ret r)

theorem copyinName_kept (name : Bytes) (va : Nat) :
    Runs (fun _ => True) (copyinName name va) k (fun _ k' => k'.pool = k.pool ∧
      k'.current_proc = k.current_proc ∧ k'.PID = k.PID) := by
  unfold copyinName
  rw [Runs.bind_iff, runs_curr_proc, Runs.bind_iff, runs_onMm]
  exact Runs.of_forall fun _ _ _ => ⟨rfl, rfl, rfl⟩

theorem Created.congr (hpool : k₁.pool = k.pool) (hcur : k₁.current_proc = k.current_proc)
    (hnext : k₁.PID = k.PID) (h : Created k₁ k' np) : Created k k' np := by
  obtain ⟨h1, h2, h3, h4, h5, h6, h7, h8, h9⟩ := h
  rw [hpool] at h1 h5 h6 h7
  rw [hnext] at h2 h9
  rw [hcur] at h4 h8
  exact ⟨h1, h2, h3, h4, h5, h6, h7, h8, h9⟩

/-- The number of a process is that of `get_proc`. -/
theorem get_proc_some {pool : Nat → proc} {pid : Int} (h : get_proc pool pid = some i) :
    i < NPROC ∧ ((pool i).pid : Int) = pid := by
  unfold get_proc at h
  have hpid := List.find?_some h
  exact ⟨List.mem_range.mp (List.mem_of_find?_eq_some h), beq_iff_eq.mp hpid⟩

theorem get_proc_none {pool : Nat → proc} {pid : Int} (h : get_proc pool pid = none)
    (hi : i < NPROC) :
    ((pool i).pid : Int) ≠ pid := by
  unfold get_proc at h
  intro hc
  exact List.find?_eq_none.mp h i (List.mem_range.mpr hi) (beq_iff_eq.mpr hc)

/-- Every call of a process is one of these changes. -/
theorem LifeCall.run_changes (hbox : ∀ i, (k.pool i).mailbox.Ok) (call : LifeCall) :
    Runs (fun _ => True) (call.run lk) k (fun r k' => Change k k' call r) := by
  cases call with
  | fork =>
    apply Runs.map_iff.mpr
    apply fork_created.imp
    rintro r k' (⟨np, h, _⟩ | ⟨h, _⟩)
    · exact .fork np h
    · exact .forkSelf h
  | spawn name va =>
    apply Runs.map_iff.mpr
    apply (copyinName_kept name va).bind
    rintro name k₁ ⟨hpool, hcur, hnext⟩
    apply (spawn_created name).imp
    rintro r k' ⟨np, h, _⟩
    exact .spawn np (h.congr hpool hcur hnext)
  | exit code =>
    apply Runs.map_iff.mpr
    apply (exit_ended code).bind
    rintro _ k' ⟨h, hcode⟩
    exact .exit h hcode
  | wait pid code =>
    apply (waitTurn_waited pid code).imp
    intro r k' h
    exact .wait h
  | mailwrite pid buf len =>
    apply Runs.map_iff.mpr
    show Runs _ (do let k ← get; _) _ _
    rw [Runs.bind_iff, Runs.get_iff]
    cases hi : get_proc k.pool pid with
    | none => exact .noProc hi rfl
    | some i =>
      apply (mail_write_runs (fun _ => trivial) (hbox i) buf len).imp
      rintro r k' ⟨m, hk, hok, hstep, hneg⟩
      exact .mailwrite i m hi hk hok hstep hneg
  | mailread buf len =>
    apply Runs.map_iff.mpr
    apply (mail_read_runs (fun _ => trivial) (hbox _) buf len).imp
    rintro r k' ⟨mm, m, hk, hok, hstep, hread, hneg⟩
    refine .mailread mm m hk hok ?_ hread
    by_cases hlen : 0 ≤ len
    · exact Mails.read_queue (hstep hlen)
    · exact Or.inl (hneg (by omega)).2

/-- Slots go out of use, a process may become its own parent, and the rest stays. -/
structure Shrinks (k k' : Kernel) : Prop where
  used : ∀ i, (k'.pool i).state ≠ .UNUSED → (k.pool i).state ≠ .UNUSED
  pid : ∀ i, (k'.pool i).pid = (k.pool i).pid
  parent : ∀ i, (k'.pool i).parent = (k.pool i).parent ∨ (k'.pool i).parent = some i
  next : k'.PID = k.PID

/-- What holds of the slot `i` and of all others. -/
theorem of_slot {P : Nat → Prop} (i : Nat) (h : P i) (hrest : ∀ j ≠ i, P j) (j : Nat) : P j := by
  by_cases hj : j = i
  · rw [hj]
    exact h
  · exact hrest j hj

namespace Shrinks

theorem kept (hkept : ∀ j, Kept (k.pool j) (k'.pool j)) (hnext : k'.PID = k.PID) : Shrinks k k' :=
  ⟨fun i hi => mt (hkept i).unused.mpr hi, fun i => (hkept i).pid,
    fun i => Or.inl (hkept i).parent, hnext⟩

theorem ended {s : procstate} (h : Ended k k' i s) (hused : (k.pool i).state ≠ .UNUSED) :
    Shrinks k k' := by
  refine ⟨of_slot i (fun _ => hused) fun j hj => mt (h.others j hj).unused.mpr,
    of_slot i h.pid fun j hj => (h.others j hj).pid, of_slot i (Or.inl h.parent) fun j hj => ?_,
    h.next⟩
  exact Or.inl (h.others j hj).parent

theorem selfForked (h : SelfForked k k') (hlive : ¬ Dead (k.pool k.current_proc)) :
    Shrinks k k' := by
  refine ⟨of_slot k.current_proc (fun _ hc => hlive (Or.inl hc)) fun j hj =>
    mt (h.others j hj).unused.mpr, of_slot k.current_proc h.pid fun j hj => (h.others j hj).pid,
    of_slot k.current_proc h.parent fun j hj => ?_, h.next⟩
  exact Or.inl (h.others j hj).parent

theorem mailed (m : Mailbox) (mm : Mm) : Shrinks k ({ k with mm := mm }.setMailbox i m) := by
  have hpool := Kernel.setMailbox_pool { k with mm := mm } i
  refine ⟨of_slot i (fun hi => ?_) fun j hj hi => ?_, of_slot i ?_ fun j hj => ?_,
    of_slot i (Or.inl ?_) fun j hj => Or.inl ?_, rfl⟩
  · rw [hpool, if_pos rfl] at hi
    exact hi
  · rw [hpool, if_neg hj] at hi
    exact hi
  · rw [hpool, if_pos rfl]
  · rw [hpool, if_neg hj]
  · rw [hpool, if_pos rfl]
  · rw [hpool, if_neg hj]

end Shrinks

/-- A call makes a process, or only lets slots go. -/
theorem Change.cases (h : Change k k' call r) (hlive : ¬ Dead (k.pool k.current_proc)) :
    (∃ np, Created k k' np ∧ (call = .fork ∨ ∃ name va, call = .spawn name va)) ∨ Shrinks k k' := by
  cases h with
  | fork np hnew => exact Or.inl ⟨np, hnew, Or.inl rfl⟩
  | forkSelf hself => exact Or.inr (.selfForked hself hlive)
  | spawn np hnew => exact Or.inl ⟨np, hnew, Or.inr ⟨_, _, rfl⟩⟩
  | exit hended => exact Or.inr (.ended hended fun hc => hlive (Or.inl hc))
  | wait hw =>
    cases hw with
    | reaped j hj hkid hzombie hended => exact Or.inr (.ended hended (by rw [hzombie]; decide))
    | nobody hkept => exact Or.inr (.kept hkept.pool hkept.next)
    | later hkept => exact Or.inr (.kept (hkept hlive).pool (hkept hlive).next)
  | noProc hnone hk =>
    rw [hk]
    exact Or.inr (.kept (fun _ => Kept.refl) rfl)
  | mailwrite i m hi hk =>
    rw [hk]
    exact Or.inr (.mailed m k.mm)
  | mailread mm m hk =>
    rw [hk]
    exact Or.inr (.mailed m mm)

/-- A call keeps mailboxes well formed. -/
theorem Change.boxes (h : Change k k' call r) (hlive : ¬ Dead (k.pool k.current_proc))
    (hbox : ∀ i, (k.pool i).mailbox.Ok) : ∀ i, (k'.pool i).mailbox.Ok := by
  have hsame : ∀ {j}, (k'.pool j).mailbox = (k.pool j).mailbox → (k'.pool j).mailbox.Ok := by
    intro j hj
    rw [hj]
    exact hbox j
  cases h with
  | fork np hnew =>
    exact of_slot np (hsame hnew.mailbox) fun j hj => hsame (hnew.others j hj).mailbox
  | forkSelf hself =>
    exact of_slot _ (hsame hself.mailbox) fun j hj => hsame (hself.others j hj).mailbox
  | spawn np hnew =>
    exact of_slot np (hsame hnew.mailbox) fun j hj => hsame (hnew.others j hj).mailbox
  | exit hended =>
    exact of_slot _ (hsame hended.mailbox) fun j hj => hsame (hended.others j hj).mailbox
  | wait hw =>
    cases hw with
    | reaped j hj hkid hzombie hended =>
      exact of_slot _ (hsame hended.mailbox) fun j hj => hsame (hended.others j hj).mailbox
    | nobody hkept => exact fun j => hsame (hkept.pool j).mailbox
    | later hkept => exact fun j => hsame ((hkept hlive).pool j).mailbox
  | noProc hnone hk =>
    rw [hk]
    exact hbox
  | mailwrite i m hi hk hok =>
    intro j
    rw [hk, Kernel.setMailbox_pool]
    split
    · exact hok
    · exact hbox j
  | mailread mm m hk hok =>
    intro j
    rw [hk, Kernel.setMailbox_pool]
    split
    · exact hok
    · exact hbox j

/-! ## Numbers -/

/-- What holds of the table of processes in every state: each slot in use is one
of the table, numbers are given out once, and mailboxes are well formed. -/
structure Numbered (k : Kernel) : Prop where
  range : ∀ i, (k.pool i).state ≠ .UNUSED → i < NPROC
  below : ∀ i, (k.pool i).pid < k.PID
  positive : ∀ i, (k.pool i).state ≠ .UNUSED → 1 ≤ (k.pool i).pid
  distinct : ∀ i j, 1 ≤ (k.pool i).pid → (k.pool i).pid = (k.pool j).pid → i = j
  boxes : ∀ i, (k.pool i).mailbox.Ok

namespace Numbered

theorem shrink (h : Numbered k) (hs : Shrinks k k') (hboxes : ∀ i, (k'.pool i).mailbox.Ok) :
    Numbered k' := by
  refine ⟨fun i hi => h.range i (hs.used i hi), fun i => ?_, fun i hi => ?_,
    fun i j h1 hij => ?_, hboxes⟩
  · rw [hs.pid, hs.next]
    exact h.below i
  · rw [hs.pid]
    exact h.positive i (hs.used i hi)
  · rw [hs.pid] at h1 hij
    rw [hs.pid] at hij
    exact h.distinct i j h1 hij

theorem created (h : Numbered k) (hnew : Created k k' np) (hboxes : ∀ i, (k'.pool i).mailbox.Ok) :
    Numbered k' := by
  have hold : ∀ i, (k'.pool i).pid = if i = np then k.PID else (k.pool i).pid := by
    intro i
    split
    · rename_i hi
      rw [hi, hnew.pid]
    · rename_i hi
      exact (hnew.others i hi).pid
  have hfresh : ∀ i, k.PID ≠ (k.pool i).pid := fun i => (h.below i).ne'
  refine ⟨of_slot np (fun _ => freeSlot_lt hnew.slot) fun i hi hu =>
    h.range i (mt (hnew.others i hi).unused.mpr hu), fun i => ?_, fun i hi => ?_,
      fun i j h1 hij => ?_, hboxes⟩
  · rw [hold, hnew.next]
    split
    · omega
    · exact (h.below i).trans (Nat.lt_succ_self _)
  · rw [hold]
    split
    · have := h.below np
      omega
    · rename_i hin
      exact h.positive i (mt (hnew.others i hin).unused.mpr hi)
  · rw [hold, hold] at hij
    rw [hold] at h1
    split at hij
    · rename_i hin
      split at hij
      · rename_i hjn
        rw [hin, hjn]
      · exact absurd hij (hfresh j)
    · rename_i hin
      split at hij
      · exact absurd hij.symm (hfresh i)
      · rw [if_neg hin] at h1
        exact h.distinct i j h1 hij

theorem switch (h : Numbered k) (p : Nat) : Numbered (k.switch p) :=
  ⟨h.range, h.below, h.positive, h.distinct, h.boxes⟩

/-- Every step keeps the numbers. -/
theorem step {ok : Kernel → LifeCall → Prop} {s s' : Kernel × History} (h : Numbered s.1)
    (hs : LifeStep lk ok s s') : Numbered s'.1 := by
  cases hs with
  | call p call r hp hlive hok hrun =>
    have hchange := (LifeCall.run_changes (h.switch p).boxes call).of_ok hrun
    have hboxes := hchange.boxes hlive (h.switch p).boxes
    rcases hchange.cases hlive with ⟨np, hnew, _⟩ | hs
    · exact (h.switch p).created hnew hboxes
    · exact (h.switch p).shrink hs hboxes
  | other hkept hnext =>
    refine h.shrink (.kept hkept hnext) fun i => ?_
    rw [(hkept i).mailbox]
    exact h.boxes i

end Numbered

/-- The table of processes when the first process has been made. -/
structure LifeBoot (k : Kernel) : Prop where
  first : ∃ i < NPROC, ¬ Dead (k.pool i) ∧ 1 ≤ (k.pool i).pid ∧ (k.pool i).pid < k.PID ∧
    ∀ j ≠ i, (k.pool j).state = .UNUSED ∧ (k.pool j).pid = 0
  parent : ∀ i, (k.pool i).parent = none
  boxes : ∀ i, (k.pool i).mailbox.Empty

theorem LifeBoot.numbered (h : LifeBoot k) : Numbered k := by
  obtain ⟨⟨i, hi, hlive, h1, hlt, hrest⟩, _, hboxes⟩ := h
  refine ⟨fun j hj => ?_, fun j => ?_, fun j hj => ?_, fun j j' hj hjj' => ?_,
    fun j => (hboxes j).ok⟩
  · by_cases hji : j = i
    · rw [hji]
      exact hi
    · exact absurd (hrest j hji).1 hj
  · by_cases hji : j = i
    · rw [hji]
      exact hlt
    · rw [(hrest j hji).2]
      omega
  · by_cases hji : j = i
    · rw [hji]
      exact h1
    · exact absurd (hrest j hji).1 hj
  · have hone : ∀ a, 1 ≤ (k.pool a).pid → a = i := by
      intro a ha
      by_contra hai
      rw [(hrest a hai).2] at ha
      omega
    rw [hone j hj, hone j' (by omega)]

/-- What holds at the start and is kept by each step holds in every run, with
the numbers. -/
theorem LifeBoot.run {ok : Kernel → LifeCall → Prop} {h h' : History} (I : Kernel → History → Prop)
    (hboot : LifeBoot k) (hI : I k h)
    (hstep : ∀ s s', Numbered s.1 → I s.1 s.2 → LifeStep lk ok s s' → I s'.1 s'.2)
    (hrun : Relation.ReflTransGen (LifeStep lk ok) (k, h) (k', h')) : Numbered k' ∧ I k' h' := by
  generalize hs : (k, h) = s at hrun
  generalize hs' : (k', h') = s' at hrun
  have hend : Numbered s'.1 ∧ I s'.1 s'.2 := by
    induction hrun generalizing k' h' with
    | refl =>
      rw [← hs]
      exact ⟨hboot.numbered, hI⟩
    | tail _ hlast ih =>
      obtain ⟨hnum, hI⟩ := ih rfl
      exact ⟨hnum.step hlast, hstep _ _ hnum hI hlast⟩
  rw [← hs'] at hend
  exact hend

end ThuKernel
