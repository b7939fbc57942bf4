-- Mails over runs in which slots are used again: who gets the mails that were
-- sent to a process.
import ThuKernel.Kernel.LifeRuns
import ThuKernel.Kernel.MailBounds

namespace ThuKernel

variable {lk : Link} {k k' : Kernel} {h h' : History} {i np : Nat} {call : LifeCall} {r : WaitScan}

/-- The mails that wait for the process in slot `i`. -/
def Kernel.queue (k : Kernel) (i : Nat) : List (List Byte) := (k.pool i).mailbox.queue

/-- The bytes that `mail_write` reads before it fails. A negative length is a
huge one, so the copy goes on behind the mail. -/
def mailSource (len : Int) : Nat := if len < 0 then MAIL_SIZE + 1 else min len.toNat MAIL_SIZE

/-- A mail of `len` bytes cannot come in: the mailbox is full, or the source
cannot be read. -/
def MailBlocked (k : Kernel) (i buf : Nat) (len : Int) : Prop :=
  (k.queue i).length = 16 ∨
    (len ≠ 0 ∧ readable k.mm.mem (k.pool k.current_proc).pagetable buf (mailSource len) = none)

/-- A new process gets a slot without mails. No mail comes in for a process that
is dead, and none of a negative length for any process. -/
def MailsApart (k : Kernel) : LifeCall → Prop
  | .fork | .spawn .. => ∀ np, freeSlot k.pool = some np → k.queue np = []
  | .mailwrite pid buf len =>
    ∀ i, get_proc k.pool pid = some i → Dead (k.pool i) ∨ len < 0 → MailBlocked k i buf len
  | _ => True

/-- A copy of a mail that goes on behind the mail. -/
def pastMail : Stop := .fault "mails: out of range"

/-- A step of the machine, also one whose copy goes on behind the mail. Such a
copy of `mail_read` shows the caller what lies there, and one of `mail_write`
may leave anything there. Both calls return -1. A process whose `wait` has no
place for the exit code is ended, after the zombie went. -/
inductive MailStep (lk : Link) (ok : Kernel → LifeCall → Prop) :
    Kernel × History → Kernel × History → Prop
  | life {s s' : Kernel × History} (h : LifeStep lk ok s s') : MailStep lk ok s s'
  | reveal {k : Kernel} {h : History} {mm : Mm} (p buf : Nat) (len : Int) (hp : p < NPROC)
      (hlive : ¬ Dead (k.pool p)) (hrun : sys_mailread buf len (k.switch p) = .error pastMail) :
      MailStep lk ok (k, h) ({ k.switch p with mm := mm }, h)
  | outside {k k' : Kernel} {h : History} (p : Nat) (pid : Int) (buf : Nat) (len : Int)
      (hp : p < NPROC) (hlive : ¬ Dead (k.pool p)) (hok : ok (k.switch p) (.mailwrite pid buf len))
      (hrun : sys_mailwrite pid buf len (k.switch p) = .error pastMail) : MailStep lk ok
      (k, h) (k', h)
  | reap {k : Kernel} {h : History} (i : Nat) (hzombie : (k.pool i).state = .ZOMBIE) :
      MailStep lk ok (k, h)
      ({ k with pool := Function.update k.pool i { k.pool i with state := .UNUSED } }, h)

/-- Each mail that waits was sent to the number of the process it waits for. -/
def Sent (k : Kernel) (h : History) : Prop :=
  ∀ i, ∀ l ∈ k.queue i, (((k.pool i).pid : Int), l) ∈ h.sent

theorem History.sent_note (h : History) (k : Kernel) (call : LifeCall) (r : WaitScan)
    {x : Int × List Byte} (hx : x ∈ h.sent) : x ∈ (h.note k call r).sent := by
  unfold History.note
  split
  · split
    · exact hx
    · exact hx
  · split
    · exact hx
    · exact hx
  · split
    · exact List.mem_cons_of_mem _ hx
    · exact hx
  · exact hx

namespace Sent

/-- The mailboxes and the numbers stay, or the mailboxes get emptier. -/
theorem fewer (hs : Sent k h) (hsent : ∀ x ∈ h.sent, x ∈ h'.sent)
    (hkept : ∀ i, (∀ l ∈ k'.queue i, l ∈ k.queue i) ∧
    ((k'.queue i) ≠ [] → (k'.pool i).pid = (k.pool i).pid)) :
    Sent k' h' := by
  intro i l hl
  obtain ⟨hsub, hpid⟩ := hkept i
  rw [hpid (List.ne_nil_of_mem hl)]
  exact hsent _ (hs i l (hsub l hl))

theorem kept (hs : Sent k h) (hsent : ∀ x ∈ h.sent, x ∈ h'.sent)
    (hkept : ∀ i, Kept (k.pool i) (k'.pool i)) :
    Sent k' h' := by
  refine hs.fewer hsent fun i => ⟨fun l hl => ?_, fun _ => (hkept i).pid⟩
  unfold Kernel.queue at *
  rwa [(hkept i).mailbox] at hl

theorem ended {s : procstate} (hs : Sent k h) (hsent : ∀ x ∈ h.sent, x ∈ h'.sent)
    (hended : Ended k k' i s) :
    Sent k' h' := by
  refine hs.fewer hsent (of_slot i ⟨fun l hl => ?_, fun _ => hended.pid⟩ fun j hj =>
    ⟨fun l hl => ?_, fun _ => (hended.others j hj).pid⟩)
  · unfold Kernel.queue at *
    rwa [hended.mailbox] at hl
  · unfold Kernel.queue at *
    rwa [(hended.others j hj).mailbox] at hl

theorem selfForked (hs : Sent k h) (hsent : ∀ x ∈ h.sent, x ∈ h'.sent) (hself : SelfForked k k') :
    Sent k' h' := by
  refine hs.fewer hsent (of_slot k.current_proc ⟨fun l hl => ?_, fun _ => hself.pid⟩ fun j hj =>
    ⟨fun l hl => ?_, fun _ => (hself.others j hj).pid⟩)
  · unfold Kernel.queue at *
    rwa [hself.mailbox] at hl
  · unfold Kernel.queue at *
    rwa [(hself.others j hj).mailbox] at hl

/-- A new process has no mail. -/
theorem created (hs : Sent k h) (hsent : ∀ x ∈ h.sent, x ∈ h'.sent) (hnew : Created k k' np)
    (hempty : k.queue np = []) : Sent k' h' := by
  have hqueue : k'.queue np = [] := by
    unfold Kernel.queue
    rw [hnew.mailbox]
    exact hempty
  refine hs.fewer hsent (of_slot np ⟨fun l hl => ?_, fun hne => absurd hqueue hne⟩ fun j hj =>
    ⟨fun l hl => ?_, fun _ => (hnew.others j hj).pid⟩)
  · rw [hqueue] at hl
    cases hl
  · unfold Kernel.queue at *
    rwa [(hnew.others j hj).mailbox] at hl

theorem setMailbox_queue (mm : Mm) (m : Mailbox) (j : Nat) :
    ({ k with mm := mm }.setMailbox i m).queue j = (if j = i then m.queue else k.queue j) ∧
      (({ k with mm := mm }.setMailbox i m).pool j).pid = (k.pool j).pid := by
  unfold Kernel.queue
  rw [Kernel.setMailbox_pool]
  split
  · rename_i hj
    rw [hj]
    exact ⟨rfl, rfl⟩
  · exact ⟨rfl, rfl⟩

theorem change (hs : Sent k h) (hchange : Change k k' call r)
    (hlive : ¬ Dead (k.pool k.current_proc))
    (hok : MailsApart k call) : Sent k' (h.note k call r) := by
  have hsent : ∀ x ∈ h.sent, x ∈ (h.note k call r).sent := fun x hx => h.sent_note k call r hx
  cases hchange with
  | fork np hnew => exact hs.created hsent hnew (hok np hnew.slot)
  | forkSelf hself => exact hs.selfForked hsent hself
  | spawn np hnew => exact hs.created hsent hnew (hok np hnew.slot)
  | exit hended => exact hs.ended hsent hended
  | wait hw =>
    cases hw with
    | reaped j _ _ _ hended => exact hs.ended hsent hended
    | nobody hkept => exact hs.kept hsent hkept.pool
    | later hkept => exact hs.kept hsent (hkept hlive).pool
  | noProc _ hk =>
    rw [hk]
    exact hs.kept hsent fun _ => Kept.refl
  | @mailwrite pid buf len r i m hi hk hbox hstep hneg =>
    have hqueue := setMailbox_queue (k := k) (i := i) k.mm m
    -- The mail that came in is the one that was sent.
    have hm : ∀ l ∈ m.queue, l ∈ k.queue i ∨
        (pid, l) ∈ (h.note k (.mailwrite pid buf len) (.ret r)).sent := by
      intro l hl
      by_cases hlen : 0 ≤ len
      · rcases Mails.write_queue (hstep hlen) with ⟨hq, _⟩ | ⟨l', hsrc, hq, hr⟩
        · rw [hq] at hl
          exact Or.inl hl
        · rw [hq, List.mem_append, List.mem_singleton] at hl
          refine hl.imp id fun hll => ?_
          have h1 :=
            (hbox.sizes l'
              (by rw [hq]; exact List.mem_append_right _ (List.mem_singleton_self _))).1
          unfold readable at hsrc
          split at hsrc
          · cases hsrc
            unfold History.note
            dsimp only
            rw [if_pos (by omega), hll]
            exact List.mem_cons_self ..
          · cases hsrc
      · rw [(hneg (by omega)).2] at hl
        exact Or.inl hl
    rw [hk]
    intro j l hl
    rw [(hqueue j).1] at hl
    rw [(hqueue j).2]
    split at hl
    · rename_i hj
      rw [hj]
      rcases hm l hl with hold | hnew
      · exact hsent _ (hs i l hold)
      · rw [(get_proc_some hi).2]
        exact hnew
    · exact hsent _ (hs j l hl)
  | mailread mm m hk hbox hq =>
    have hqueue := setMailbox_queue (k := k) (i := k.current_proc) mm m
    rw [hk]
    refine hs.fewer hsent fun j => ⟨fun l hl => ?_, fun _ => (hqueue j).2⟩
    rw [(hqueue j).1] at hl
    split at hl
    · rename_i hj
      rw [hj]
      unfold Kernel.queue
      rcases hq with hq | ⟨l', hq⟩
      · rwa [← hq]
      · rw [hq]
        exact List.mem_cons_of_mem _ hl
    · exact hl

theorem life {s s' : Kernel × History} (hnum : Numbered s.1) (hs : Sent s.1 s.2)
    (hstep : LifeStep lk MailsApart s s') :
    Sent s'.1 s'.2 := by
  cases hstep with
  | @call k k' h p call r hp hlive hok hrun =>
    have hchange := (LifeCall.run_changes (hnum.switch p).boxes call).of_ok hrun
    exact Sent.change (k := k.switch p) hs hchange hlive hok
  | other hkept hnext => exact hs.kept (fun _ hx => hx) hkept

end Sent

/-! ## Copies that go on behind the mail -/

/-- A blocked write stays inside the mailbox. -/
theorem MailBlocked.inside {buf : Nat} {len : Int} (hbox : (k.pool i).mailbox.Ok)
    (h : MailBlocked k i buf len) :
    WritesInside k i buf len := by
  refine mail_write_inside_iff.mpr ?_
  by_cases hneg : len < 0
  · rcases h with hfull | ⟨_, hsrc⟩
    · exact Or.inl (hbox.full_iff.mpr hfull)
    · unfold readable mailSource at hsrc
      rw [if_pos hneg] at hsrc
      split at hsrc
      · cases hsrc
      · rename_i hall
        push Not at hall
        obtain ⟨u, hu, hno⟩ := hall
        exact Or.inr (Or.inr ⟨u, Nat.le_of_lt_succ hu, hno⟩)
  · exact Or.inr (Or.inl (by omega))

/-- A write that is allowed returns. -/
theorem MailsApart.returns {pid : Int} {buf : Nat} {len : Int} (hbox : ∀ i, (k.pool i).mailbox.Ok)
    (hok : MailsApart k (.mailwrite pid buf len)) : ∃ r k', sys_mailwrite pid buf len k =
    .ok (r, k') := by
  have hruns : Runs (fun _ => False) (sys_mailwrite pid buf len) k fun _ _ => True := by
    unfold sys_mailwrite
    rw [Runs.bind_iff, Runs.get_iff]
    cases hi : get_proc k.pool pid with
    | none => trivial
    | some i =>
      have hinside : WritesInside k i buf len := by
        by_cases hneg : len < 0
        · exact (hok i hi (Or.inr hneg)).inside (hbox i)
        · exact mail_write_inside_iff.mpr (Or.inr (Or.inl (by omega)))
      exact hinside.imp fun _ _ _ => trivial
  obtain ⟨r, k', hrun, _⟩ := hruns.exists_ok fun _ he => he
  exact ⟨r, k', hrun⟩

theorem Ended.unused (k : Kernel) (i : Nat) :
    Ended k { k with pool := Function.update k.pool i { k.pool i with state := .UNUSED } }
    i .UNUSED := by
  refine ⟨?_, ?_, ?_, ?_, fun j hj => ?_, fun j hj => ?_, rfl, rfl⟩
  · dsimp only
    rw [Function.update_self]
  · dsimp only
    rw [Function.update_self]
  · dsimp only
    rw [Function.update_self]
  · dsimp only
    rw [Function.update_self]
  · dsimp only
    rw [Function.update_of_ne hj]
    exact Kept.refl
  · dsimp only
    rw [Function.update_of_ne hj]

/-- What holds of the numbers and the mails is kept by every step that is allowed. -/
theorem MailStep.keeps {s s' : Kernel × History} (hnum : Numbered s.1) (hs : Sent s.1 s.2)
    (hstep : MailStep lk MailsApart s s') : Numbered s'.1 ∧ Sent s'.1 s'.2 := by
  cases hstep with
  | life h => exact ⟨hnum.step h, hs.life hnum h⟩
  | reveal p => exact ⟨⟨hnum.range, hnum.below, hnum.positive, hnum.distinct, hnum.boxes⟩, hs⟩
  | outside p pid buf len hp hlive hok hrun =>
    obtain ⟨r, k', hreturns⟩ := hok.returns (hnum.switch p).boxes
    rw [hrun] at hreturns
    cases hreturns
  | @reap k h i hzombie =>
    have hended := Ended.unused k i
    refine ⟨hnum.shrink (.ended hended fun hc => ?_) (of_slot i ?_ fun j hj => ?_),
      hs.ended (fun _ hx => hx) hended⟩
    · rw [hzombie] at hc
      cases hc
    · rw [hended.mailbox]
      exact hnum.boxes i
    · rw [(hended.others j hj).mailbox]
      exact hnum.boxes j

theorem LifeBoot.mails {h₀ : History} (hboot : LifeBoot k)
    (hrun : Relation.ReflTransGen (MailStep lk MailsApart) (k, h₀) (k', h')) : Numbered k' ∧
    Sent k' h' := by
  have hstart : Sent k h₀ := by
    intro i l hl
    rw [Kernel.queue, (hboot.boxes i).queue] at hl
    cases hl
  have hend : ∀ s', Relation.ReflTransGen (MailStep lk MailsApart) (k, h₀) s' → Numbered s'.1 ∧
      Sent s'.1 s'.2 := by
    intro s' hrun
    induction hrun with
    | refl => exact ⟨hboot.numbered, hstart⟩
    | tail _ hlast ih => exact hlast.keeps ih.1 ih.2
  exact hend _ hrun

section FirstMail

end FirstMail

end ThuKernel
