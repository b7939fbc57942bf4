-- A mailbox is a queue of at most 16 mails of 1 to 256 bytes: what each call
-- does to it, and what holds over runs of the calls.
import ThuKernel.Kernel.Coherence
import ThuKernel.Kernel.Mail
import ThuKernel.Kernel.Rules
import ThuKernel.Lib.Slots
import ThuKernel.Vm.CopyLaws

namespace ThuKernel

/-! ## The queue -/

namespace Mails

/-- A mail of `len` bytes comes in, with the bytes that the source has, if it
has all of them. -/
def write (q : List (List Byte)) (len : Nat) (src : Option (List Byte)) : Int × List (List Byte) :=
  if q.length = 16 then (-1, q)
  else if len = 0 then (0, q)
  else match src with
    | none => (-1, q)
    | some l => (l.length, q ++ [l])

/-- The oldest mail goes out, if the destination takes its first bytes. -/
def read (q : List (List Byte)) (len : Nat) (takes : List Byte → Bool) : Int × List (List Byte) :=
  match q with
  | [] => (-1, [])
  | l :: rest =>
    if len = 0 then (0, l :: rest)
    else if takes (l.take len) then ((l.take len).length, rest) else (-1, l :: rest)

theorem read_queue {q q' : List (List Byte)} {len : Nat} {takes : List Byte → Bool} {r : Int}
    (h : read q len takes = (r, q')) : q' = q ∨ ∃ l, q = l :: q' := by
  unfold read at h
  split at h
  · cases h
    exact Or.inl rfl
  · split at h
    · cases h
      exact Or.inl rfl
    · split at h
      · cases h
        exact Or.inr ⟨_, rfl⟩
      · cases h
        exact Or.inl rfl

theorem write_queue {q q' : List (List Byte)} {len : Nat} {src : Option (List Byte)} {r : Int}
    (h : write q len src = (r, q')) : (q' = q ∧ r ≤ 0) ∨ ∃ l, src = some l ∧ q' = q ++ [l] ∧
    r = l.length := by
  unfold write at h
  split at h
  · cases h
    exact Or.inl ⟨rfl, by decide⟩
  · split at h
    · cases h
      exact Or.inl ⟨rfl, by decide⟩
    · split at h
      · cases h
        exact Or.inl ⟨rfl, by decide⟩
      · cases h
        exact Or.inr ⟨_, rfl, rfl, rfl⟩

/-- A call with its result. -/
inductive Event where
  | write (len : Nat) (src : Option (List Byte)) (r : Int)
  | read (len : Nat) (takes : List Byte → Bool) (r : Int)

/-- The runs of the queue. -/
inductive Run (q : List (List Byte)) : List Event → List (List Byte) → Prop
  | start : Run q [] q
  | write {es q' q''} {len : Nat} {src : Option (List Byte)} {r : Int} (h : Run q es q')
      (hstep : Mails.write q' len src = (r, q'')) : Run q (es ++ [.write len src r]) q''
  | read {es q' q''} {len : Nat} {takes : List Byte → Bool} {r : Int} (h : Run q es q')
      (hstep : Mails.read q' len takes = (r, q'')) : Run q (es ++ [.read len takes r]) q''

end Mails

/-! ## The mailbox -/

namespace Mailbox

/-- The mail in a slot of the ring. -/
def mail (m : Mailbox) (i : Nat) : List Byte := (m.mails i).load 0 (m.len i).toNat

/-- The mails in a mailbox, oldest first. -/
def queue (m : Mailbox) : List (List Byte) := Slots.contents MAILS m.mail m.head m.tail

structure Ok (m : Mailbox) : Prop where
  head : m.head < MAILS
  tail : m.tail < MAILS
  sizes : ∀ l ∈ m.queue, 1 ≤ l.length ∧ l.length ≤ MAIL_SIZE

structure Empty (m : Mailbox) : Prop where
  head : m.head < MAILS
  tail : m.tail = m.head

variable {m : Mailbox}

theorem Empty.queue (h : m.Empty) : m.queue = [] := by
  unfold Mailbox.queue
  rw [h.tail]
  exact Slots.contents_empty h.head

theorem Empty.ok (h : m.Empty) : m.Ok := by
  refine ⟨h.head, h.tail ▸ h.head, fun l hl => ?_⟩
  rw [h.queue] at hl
  cases hl

namespace Ok

theorem empty_iff (h : m.Ok) : m.tail = m.head ↔ m.queue = [] :=
  (Slots.contents_eq_nil h.head h.tail).symm

theorem full_iff (h : m.Ok) : (1 + m.tail) % MAILS = m.head ↔ m.queue.length = 16 := by
  rw [Slots.full_iff h.head h.tail, queue, Slots.length_contents]
  unfold MAILS
  omega

theorem mail_update (len : Int) (mail : Bytes) :
    ({ m with len := Function.update m.len m.tail len
              mails := Function.update m.mails m.tail mail } : Mailbox).mail =
      Function.update m.mail m.tail (mail.load 0 len.toNat) := by
  funext i
  unfold Mailbox.mail
  dsimp only
  by_cases hi : i = m.tail
  · subst hi
    rw [Function.update_self, Function.update_self, Function.update_self]
  · rw [Function.update_of_ne hi, Function.update_of_ne hi, Function.update_of_ne hi]

/-- A write into the free slot is not seen. -/
theorem stale (h : m.Ok) (len : Int) (mail : Bytes) :
    ({ m with len := Function.update m.len m.tail len
              mails := Function.update m.mails m.tail mail } : Mailbox).Ok ∧
    ({ m with len := Function.update m.len m.tail len
              mails := Function.update m.mails m.tail mail } : Mailbox).queue = m.queue := by
  have hqueue : ({ m with len := Function.update m.len m.tail len
                          mails := Function.update m.mails m.tail mail } : Mailbox).queue =
                            m.queue := by
    unfold queue
    rw [mail_update]
    exact Slots.contents_stale h.head h.tail _
  refine ⟨⟨h.head, h.tail, ?_⟩, hqueue⟩
  rw [hqueue]
  exact h.sizes

theorem put (h : m.Ok) (hroom : (1 + m.tail) % MAILS ≠ m.head) {len : Int} {mail : Bytes}
    (h1 : 1 ≤ len) (h2 : len ≤ MAIL_SIZE) :
    ({ m with len := Function.update m.len m.tail len
              mails := Function.update m.mails m.tail mail
              tail := (1 + m.tail) % MAILS } : Mailbox).Ok ∧
    ({ m with len := Function.update m.len m.tail len
              mails := Function.update m.mails m.tail mail
              tail := (1 + m.tail) % MAILS } : Mailbox).queue =
                m.queue ++ [mail.load 0 len.toNat] := by
  have hqueue : ({ m with len := Function.update m.len m.tail len
                          mails := Function.update m.mails m.tail mail
                          tail := (1 + m.tail) % MAILS } : Mailbox).queue =
      m.queue ++ [mail.load 0 len.toNat] := by
    have hput := @Slots.contents_put _ _ _ _ (Function.update m.mail m.tail (mail.load 0 len.toNat))
      h.head h.tail hroom
    rw [Slots.contents_stale h.head h.tail, Function.update_self, ← mail_update] at hput
    exact hput
  refine ⟨⟨h.head, Nat.mod_lt _ (by decide), fun l hl => ?_⟩, hqueue⟩
  rw [hqueue] at hl
  rcases List.mem_append.mp hl with hl | hl
  · exact h.sizes l hl
  · rw [List.mem_singleton.mp hl, Bytes.length_load]
    omega

theorem take (h : m.Ok) (hne : m.tail ≠ m.head) :
    m.queue = m.mail m.head :: ({ m with head := (1 + m.head) % MAILS } : Mailbox).queue ∧
    ({ m with head := (1 + m.head) % MAILS } : Mailbox).Ok := by
  have hqueue : m.queue = m.mail m.head ::
      ({ m with head := (1 + m.head) % MAILS } : Mailbox).queue :=
    Slots.contents_take h.head h.tail hne
  refine ⟨hqueue, Nat.mod_lt _ (by decide), h.tail, fun l hl => ?_⟩
  apply h.sizes
  rw [hqueue]
  exact List.mem_cons_of_mem _ hl

end Ok

end Mailbox

/-! ## The calls -/

variable {E : Stop → Prop} {k k' : Kernel} {i : Nat}

/-- The bytes at a user address, if all of them are mapped. -/
def readable (mem : Bytes) (pagetable va n : Nat) : Option (List Byte) :=
  if ∀ u < n, Mapped mem pagetable (va + u) then some (userBytes mem pagetable va n) else none

/-- `copyout` can put the bytes there. -/
def accepts (mm : Mm) (pagetable va : Nat) (l : List Byte) : Bool :=
  match copyout pagetable va l mm with
  | .ok (r, _) => r == 0
  | .error _ => false

/-- The kernel with another mailbox of process `i`. -/
def Kernel.setMailbox (k : Kernel) (i : Nat) (m : Mailbox) : Kernel :=
  { k with pool := Function.update k.pool i { k.pool i with mailbox := m } }

@[simp] theorem Kernel.setMailbox_self (k : Kernel) (i : Nat) (m : Mailbox) :
    ((k.setMailbox i m).pool i).mailbox = m := by
  unfold Kernel.setMailbox
  dsimp only
  rw [Function.update_self]

theorem Kernel.setMailbox_pool (k : Kernel) (i j : Nat) (m : Mailbox) :
    (k.setMailbox i m).pool j = if j = i then { k.pool i with mailbox := m } else k.pool j := by
  unfold Kernel.setMailbox
  dsimp only
  split
  · rename_i hj
    rw [hj, Function.update_self]
  · rename_i hj
    rw [Function.update_of_ne hj]

theorem Kernel.setMailbox_twice (k : Kernel) (i : Nat) (m m' : Mailbox) :
    (k.setMailbox i m).setMailbox i m' = k.setMailbox i m' := by
  unfold Kernel.setMailbox
  dsimp only
  rw [Function.update_self, Function.update_idem]

theorem Kernel.setMailbox_pagetable (k : Kernel) (i j : Nat) (m : Mailbox) :
    ((k.setMailbox i m).pool j).pagetable = (k.pool j).pagetable := by
  unfold Kernel.setMailbox
  dsimp only
  by_cases hj : j = i
  · rw [hj, Function.update_self]
  · rw [Function.update_of_ne hj]

theorem Kernel.setMailbox_eq (k : Kernel) (i : Nat) : k.setMailbox i (k.pool i).mailbox = k := by
  unfold Kernel.setMailbox
  rw [Function.update_eq_self]

theorem runs_setMailbox {m : Mailbox} {Q : Unit → Kernel → Prop} :
    Runs E (setMailbox i m) k Q ↔ Q () (k.setMailbox i m) := Iff.rfl

theorem copySize_of_nonneg {len : Int} (h : 0 ≤ len) : copySize len = len.toNat := if_neg (by omega)

theorem copySize_of_neg {len : Int} (h : len < 0) : 2 ^ 63 ≤ copySize len := by
  unfold copySize
  rw [if_pos h]
  omega

/-- A copy of a negative length fails. -/
theorem CopiedIn.fails {s : Mm} {pagetable va n : Nat} {r : Int × List Byte} (hn : 2 ^ 63 ≤ n)
    (h : CopiedIn s pagetable va n r) : r.1 = -1 := by
  rcases h.result with ⟨_, hlen⟩ | ⟨hret, _⟩
  · have := mapped_range_le h.mapped
    omega
  · exact hret

theorem copyinMail_runs (hE : ∀ why, E (.fault why)) (pagetable buf : Nat) (mail : Bytes)
    (len : Int) :
    Runs E (copyinMail pagetable buf mail len) k (fun r k' => k' = k ∧
      ((r.1 = 0 ∧ 0 ≤ len ∧ readable k.mm.mem pagetable buf len.toNat =
      some (r.2.load 0 len.toNat)) ∨
        (r.1 = -1 ∧ (0 ≤ len → readable k.mm.mem pagetable buf len.toNat = none)))) := by
  unfold copyinMail
  rw [Runs.bind_iff, runs_onMm]
  apply (copyin_runs pagetable buf (copySize len)).imp
  rintro ⟨ret, bytes⟩ m ⟨rfl, hin⟩
  dsimp only
  split
  · exact hE _
  · rw [Runs.pure_iff]
    refine ⟨rfl, ?_⟩
    by_cases hneg : len < 0
    · exact Or.inr ⟨hin.fails (copySize_of_neg hneg), fun hc => absurd hneg (by omega)⟩
    · obtain ⟨hbytes, hmapped, hresult⟩ := hin
      rw [copySize_of_nonneg (by omega)] at hresult
      unfold readable
      rcases hresult with ⟨hret, hlen⟩ | ⟨hret, hlen, hno⟩
      · refine Or.inl ⟨hret, by omega, ?_⟩
        dsimp only at hlen hbytes hmapped
        rw [← hlen, Bytes.load_store, ← hbytes, if_pos hmapped]
      · exact Or.inr ⟨hret, fun _ => if_neg fun hall => hno (hall _ hlen)⟩

/-- A copy of a negative length fails, or leaves the mail. -/
theorem copyoutMail_fails (hE : ∀ why, E (.fault why)) (pagetable buf : Nat) (mail : Bytes)
    {len : Int} (h : len < 0) :
    Runs E (copyoutMail pagetable buf mail len) k (fun r k' => r = -1 ∧
      ∃ mm, k' = { k with mm := mm }) := by
  have hsize := copySize_of_neg h
  unfold copyoutMail
  dsimp only
  rw [if_neg (by unfold MAIL_SIZE; omega), Runs.bind_iff, runs_onMm]
  apply (copyin_runs pagetable buf (copySize len)).imp
  rintro ⟨ret, bytes⟩ m ⟨rfl, hin⟩
  dsimp only
  split
  · exact hE _
  · rw [runs_onMm]
    have hlong : 2 ^ 38 < (mail.load 0 (copySize len)).length := by
      rw [Bytes.length_load]
      omega
    exact (copyout_fails hlong).imp fun r mm hr => ⟨hr, mm, rfl⟩

/-- A write does to the mailbox what it does to the queue. -/
theorem mail_write_runs (hE : ∀ why, E (.fault why)) (hok : (k.pool i).mailbox.Ok) (buf : Nat)
    (len : Int) :
    Runs E (mail_write i buf len) k (fun r k' => ∃ m, k' = k.setMailbox i m ∧ m.Ok ∧
      (0 ≤ len → Mails.write (k.pool i).mailbox.queue len.toNat
        (readable k.mm.mem (k.pool k.current_proc).pagetable buf (min len.toNat MAIL_SIZE)) =
        (r, m.queue)) ∧
      (len < 0 → r = -1 ∧ m.queue = (k.pool i).mailbox.queue)) := by
  have hstay : k = k.setMailbox i (k.pool i).mailbox := (k.setMailbox_eq i).symm
  unfold mail_write Mails.write
  rw [Runs.bind_iff, runs_getProc]
  dsimp only
  split
  · rename_i hfull
    rw [Runs.pure_iff, if_pos (hok.full_iff.mp hfull)]
    exact ⟨_, hstay, hok, fun _ => rfl, fun _ => ⟨rfl, rfl⟩⟩
  · rename_i hroom
    rw [if_neg (mt hok.full_iff.mpr hroom)]
    split
    · rename_i hzero
      rw [Runs.pure_iff, hzero]
      exact ⟨_, hstay, hok, fun _ => rfl, fun hc => absurd hc (by decide)⟩
    · rename_i hne
      have hlen : ∀ n : Int, n = (if (MAIL_SIZE : Int) < len then (MAIL_SIZE : Int) else len) →
          n ≤ MAIL_SIZE ∧ (0 ≤ len → 1 ≤ n ∧ n.toNat = min len.toNat MAIL_SIZE) ∧
          (len < 0 → n < 0) := by
        intro n hn
        unfold MAIL_SIZE at *
        split at hn
        · omega
        · omega
      generalize hn : (if (MAIL_SIZE : Int) < len then (MAIL_SIZE : Int) else len) = n
      obtain ⟨hmax, hpos, hneg⟩ := hlen n hn.symm
      rw [Runs.bind_iff, runs_setMailbox, Runs.bind_iff, runs_curr_proc,
        Kernel.setMailbox_pagetable]
      apply (copyinMail_runs hE _ _ _ _).bind
      rintro ⟨ret, mail⟩ k₁ ⟨rfl, hret⟩
      dsimp only at hret ⊢
      rw [Runs.bind_iff, runs_setMailbox, Kernel.setMailbox_twice]
      rcases hret with ⟨rfl, hnonneg, hread⟩ | ⟨rfl, hread⟩
      · have h0 : 0 ≤ len := by omega
        obtain ⟨h1, hmin⟩ := hpos h0
        obtain ⟨hput, hqueue⟩ := @Mailbox.Ok.put _ hok hroom _ mail h1 hmax
        rw [if_neg (by decide), Runs.bind_iff, runs_setMailbox, Kernel.setMailbox_twice,
          Runs.pure_iff]
        refine ⟨_, rfl, hput, fun _ => ?_, fun hc => absurd h0 (by omega)⟩
        have hread : readable k.mm.mem (k.pool k.current_proc).pagetable buf
            (min len.toNat MAIL_SIZE) = some (mail.load 0 n.toNat) := by
          rw [← hmin]
          exact hread
        rw [if_neg (by omega), hread, hqueue]
        refine Prod.ext ?_ rfl
        dsimp only
        rw [Bytes.length_load]
        omega
      · obtain ⟨hstale, hqueue⟩ := hok.stale n mail
        rw [if_pos rfl, Runs.pure_iff]
        refine ⟨_, rfl, hstale, fun h0 => ?_, fun _ => ⟨rfl, hqueue⟩⟩
        obtain ⟨h1, hmin⟩ := hpos h0
        have hread : readable k.mm.mem (k.pool k.current_proc).pagetable buf
            (min len.toNat MAIL_SIZE) = none := by
          rw [← hmin]
          exact hread (by omega)
        rw [if_neg (by omega), hread, hqueue]

theorem accepts_iff {mm : Mm} {pagetable va : Nat} {l : List Byte} (hs : Separate mm.mem pagetable)
    (hl : l.length ≤ 2 ^ 63) :
    accepts mm pagetable va l = true ↔ ∀ u < l.length, Mapped mm.mem pagetable (va + u) := by
  obtain ⟨r, mm', hrun, h⟩ := (@copyout_separate (fun _ => False) _ _ va _ hs hl).exists_ok
    fun _ h => h
  unfold accepts
  rw [hrun, ← h.iff]
  exact beq_iff_eq

/-- A read does to the mailbox what it does to the queue, and `copyout` has
copied what it returns. -/
theorem mail_read_runs (hE : ∀ why, E (.fault why)) (hok : (k.pool k.current_proc).mailbox.Ok)
    (buf : Nat) (len : Int) :
    Runs E (mail_read buf len) k (fun r k' => ∃ mm m,
      k' = { k with mm := mm }.setMailbox k.current_proc m ∧ m.Ok ∧
      (0 ≤ len → Mails.read (k.pool k.current_proc).mailbox.queue len.toNat
        (accepts k.mm (k.pool k.current_proc).pagetable buf) = (r, m.queue)) ∧
      (0 < r → ∃ l, (k.pool k.current_proc).mailbox.queue = l :: m.queue ∧
        copyout (k.pool k.current_proc).pagetable buf (l.take len.toNat) k.mm = .ok (0, mm)) ∧
      (len < 0 → r = -1 ∧ m.queue = (k.pool k.current_proc).mailbox.queue)) := by
  have hstay : k = { k with mm := k.mm }.setMailbox k.current_proc
      (k.pool k.current_proc).mailbox :=
    (k.setMailbox_eq _).symm
  unfold mail_read
  rw [Runs.bind_iff, runs_curr_proc]
  dsimp only
  split
  · rename_i hempty
    rw [Runs.pure_iff, hok.empty_iff.mp hempty]
    exact ⟨_, _, hstay, hok,
      fun _ => by rw [hok.empty_iff.mp hempty]; rfl, fun hc => absurd hc (by decide),
      fun _ => ⟨rfl, hok.empty_iff.mp hempty⟩⟩
  · rename_i hne
    obtain ⟨hqueue, htake⟩ := hok.take hne
    split
    · rename_i hzero
      rw [Runs.pure_iff, hzero]
      refine ⟨_, _, hstay, hok, fun _ => ?_, fun hc => absurd hc (by decide),
        fun hc => absurd hc (by decide)⟩
      rw [hqueue]
      rfl
    · rename_i hlen
      generalize hm : (k.pool k.current_proc).mailbox = m at *
      obtain ⟨h1, _⟩ := hok.sizes (m.mail m.head) (by rw [hqueue]; exact List.mem_cons_self ..)
      have hsize : (m.mail m.head).length = (m.len m.head).toNat := Bytes.length_load _ _ _
      generalize hn : (if m.len m.head < len then m.len m.head else len) = n
      have hneg : len < 0 → n < 0 := by
        intro hc
        split at hn
        · omega
        · omega
      have hpos : 0 ≤ len → 1 ≤ n ∧ n.toNat = min len.toNat (m.len m.head).toNat := by
        intro hc
        split at hn
        · omega
        · omega
      by_cases h0 : 0 ≤ len
      · unfold copyoutMail
        obtain ⟨h1, hmin⟩ := hpos h0
        have hbytes : (m.mails m.head).load 0 n.toNat = (m.mail m.head).take len.toNat := by
          rw [hmin, Mailbox.mail, Bytes.take_load]
        have hsize' := @copySize_of_nonneg n (by omega)
        dsimp only
        rw [hsize', if_pos (by omega), hbytes, Runs.bind_iff, runs_onMm]
        have hlength : ((m.mail m.head).take len.toNat).length = n.toNat := by
          rw [← hbytes, Bytes.length_load]
        obtain ⟨ret, mm, hcopy, hret, _⟩ := (copyout_runs (E := fun _ => False) (s := k.mm)
          (k.pool k.current_proc).pagetable buf
          ((m.mail m.head).take len.toNat)).exists_ok fun _ h => h
        unfold Runs
        rw [hcopy]
        dsimp only
        rcases hret with rfl | rfl
        · have hacc : accepts k.mm (k.pool k.current_proc).pagetable buf
              ((m.mail m.head).take len.toNat) = true := by
            unfold accepts
            rw [hcopy]
            rfl
          refine ⟨mm, _, rfl, htake, fun _ => ?_, fun _ => ⟨_, hqueue, hcopy⟩,
            fun hc => absurd h0 (by omega)⟩
          rw [hqueue, Mails.read, if_neg (by omega), if_pos hacc, hlength]
          refine Prod.ext ?_ rfl
          dsimp only
          omega
        · have hacc : accepts k.mm (k.pool k.current_proc).pagetable buf
              ((m.mail m.head).take len.toNat) = false := by
            unfold accepts
            rw [hcopy]
            rfl
          refine ⟨mm, m, ?_, hok, fun _ => ?_, fun hc => absurd hc (by decide),
            fun hc => absurd h0 (by omega)⟩
          · rw [← hm]
            exact (Kernel.setMailbox_eq _ _).symm
          · rw [hqueue, Mails.read, if_neg (by omega), if_neg (by rw [hacc]; decide)]
      · apply (copyoutMail_fails hE _ _ _ (hneg (by omega))).bind
        rintro _ k₁ ⟨rfl, mm, rfl⟩
        rw [if_pos rfl, Runs.pure_iff]
        have hstay : { k with mm := mm } = { k with mm := mm }.setMailbox k.current_proc m := by
          rw [← hm]
          exact (Kernel.setMailbox_eq _ _).symm
        exact ⟨mm, m, hstay, hok, fun hc => absurd hc h0, fun hc => absurd hc (by decide),
          fun _ => ⟨rfl, rfl⟩⟩

/-! ## Runs -/

/-- Runs of the kernel as the mailbox of process `i` sees them: writes by any
process, reads by process `i`, and steps that leave the mailbox alone. -/
inductive MailRun (i : Nat) (k : Kernel) : List Mails.Event → Kernel → Prop
  | start : MailRun i k [] k
  | write {es k' k''} (p buf len : Nat) {r : Int} (h : MailRun i k es k')
      (hcall : mail_write i buf len (k'.switch p) = .ok (r, k'')) :
      MailRun i k (es ++ [.write len
        (readable k'.mm.mem (k'.pool p).pagetable buf (min len MAIL_SIZE)) r]) k''
  | read {es k' k''} (buf len : Nat) {r : Int} (h : MailRun i k es k')
      (hcall : mail_read buf len (k'.switch i) = .ok (r, k'')) :
      MailRun i k (es ++ [.read len (accepts k'.mm (k'.pool i).pagetable buf) r]) k''
  | other {es k' k''} (h : MailRun i k es k') (hbox : (k''.pool i).mailbox = (k'.pool i).mailbox) :
      MailRun i k es k''

theorem MailRun.refines {es : List Mails.Event} (hempty : (k.pool i).mailbox.Empty)
    (h : MailRun i k es k') :
    (k'.pool i).mailbox.Ok ∧ Mails.Run [] es (k'.pool i).mailbox.queue := by
  induction h with
  | start =>
    rw [hempty.queue]
    exact ⟨hempty.ok, .start⟩
  | write p buf len h hcall ih =>
    obtain ⟨hok, hrun⟩ := ih
    obtain ⟨m, rfl, hok', hstep, _⟩ :=
      (mail_write_runs (E := fun _ => True) (k := Kernel.switch _ p) (fun _ => trivial) hok buf
        len).of_ok hcall
    rw [Kernel.setMailbox_self]
    exact ⟨hok', .write hrun (hstep (Int.natCast_nonneg _))⟩
  | read buf len h hcall ih =>
    obtain ⟨hok, hrun⟩ := ih
    obtain ⟨mm, m, rfl, hok', hstep, _⟩ :=
      (mail_read_runs (E := fun _ => True) (k := Kernel.switch _ i) (fun _ => trivial) hok buf
        len).of_ok hcall
    rw [Kernel.switch, Kernel.setMailbox_self]
    exact ⟨hok', .read hrun (hstep (Int.natCast_nonneg _))⟩
  | other h hbox ih =>
    rw [hbox]
    exact ih

/-- A mailbox that starts empty is a queue of at most 16 mails of 1 to 256 bytes,
over every run. A read copies the first bytes of the oldest mail to the process.
If no user page of the process holds one of its tables, the copy succeeds just
when all of the destination is mapped, and the bytes are then there. -/
theorem a_mailbox_is_a_queue {es : List Mails.Event} (hempty : (k.pool i).mailbox.Empty)
    (h : MailRun i k es k') :
    Mails.Run [] es (k'.pool i).mailbox.queue ∧
      (k'.pool i).mailbox.queue.length ≤ 16 ∧
      (∀ l ∈ (k'.pool i).mailbox.queue, 1 ≤ l.length ∧ l.length ≤ MAIL_SIZE) ∧
      (∀ (buf len : Nat) (r : Int) (k'' : Kernel), mail_read buf len (k'.switch i) = .ok (r, k'') →
      0 < r →
        ∃ l, (k'.pool i).mailbox.queue = l :: (k''.pool i).mailbox.queue ∧
          copyout (k'.pool i).pagetable buf (l.take len) k'.mm = .ok (0, k''.mm) ∧
          (Separate k'.mm.mem (k'.pool i).pagetable →
            userBytes k''.mm.mem (k'.pool i).pagetable buf (l.take len).length = l.take len)) ∧
      ∀ (buf : Nat) (l : List Byte), Separate k'.mm.mem (k'.pool i).pagetable →
      l.length ≤ MAIL_SIZE →
        (accepts k'.mm (k'.pool i).pagetable buf l = true ↔
          ∀ u < l.length, Mapped k'.mm.mem (k'.pool i).pagetable (buf + u)) := by
  have hsmall : ∀ {l : List Byte}, l.length ≤ MAIL_SIZE → l.length ≤ 2 ^ 63 := by
    intro l hl
    unfold MAIL_SIZE at hl
    omega
  obtain ⟨hok, hrun⟩ := h.refines hempty
  refine ⟨hrun, ?_, hok.sizes, fun buf len r k'' hcall hpos => ?_,
    fun buf l hs hl => accepts_iff hs (hsmall hl)⟩
  · rw [Mailbox.queue, Slots.length_contents]
    have : Fifo.used MAILS (k'.pool i).mailbox.head (k'.pool i).mailbox.tail < MAILS :=
      Nat.mod_lt _ (by decide)
    unfold MAILS at *
    omega
  · obtain ⟨mm, m, rfl, _, _, hread, _⟩ :=
      (mail_read_runs (E := fun _ => True) (k := k'.switch i) (fun _ => trivial) hok buf len).of_ok
        hcall
    obtain ⟨l, hqueue, hcopy⟩ := hread hpos
    refine ⟨l, ?_, hcopy, fun hs => ?_⟩
    · rw [Kernel.switch, Kernel.setMailbox_self]
      exact hqueue
    · have hl : (l.take len).length ≤ MAIL_SIZE := by
        have := (hok.sizes l
          (by rw [show (k'.pool i).mailbox.queue = _ from hqueue]; exact List.mem_cons_self ..)).2
        rw [List.length_take]
        omega
      exact ((copyout_separate (E := fun _ => False) hs (hsmall hl)).of_ok hcopy).userBytes rfl

theorem Mailbox.zero_empty : Mailbox.zero.Empty := ⟨by decide, rfl⟩

/-- A process writes two bytes to itself. -/
theorem mail_write_returns : (mail_write 0 0 (2 : Nat)).returns (onePageKernel.switch 0) =
    true := by decide +kernel

theorem a_mailbox_is_a_queue_after_a_mail :
    (((mail_write 0 0 (2 : Nat)).final (onePageKernel.switch 0)).pool 0).mailbox.queue.length ≤
    16 := by
  obtain ⟨_, hcall⟩ := Prog.returns_iff.mp mail_write_returns
  exact (a_mailbox_is_a_queue (i := 0) (k := onePageKernel) Mailbox.zero_empty
    (MailRun.start.write 0 0 2 hcall)).2.1

end ThuKernel
