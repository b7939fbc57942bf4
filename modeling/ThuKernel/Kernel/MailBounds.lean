-- How far the copies of mails reach: which bytes `mail_write` stores, and which
-- ones `mail_read` shows, for every length that a caller may pass.
import ThuKernel.Kernel.MailLaws

namespace ThuKernel

variable {E : Stop → Prop} {k k' : Kernel} {mbox : Mailbox} {mail : Bytes} {root buf i n p : Nat}
  {len : Int}

/-! ## What stays inside -/

/-- At most 256 bytes were stored, all of them in the slot at the tail. Besides,
the length of that slot and the tail were set. -/
def InSlot (k : Kernel) (i : Nat) (k' : Kernel) : Prop :=
  ∃ m bytes, k' = k.setMailbox i m ∧ bytes.length ≤ MAIL_SIZE ∧ m.head = (k.pool i).mailbox.head ∧
    (∀ j ≠ (k.pool i).mailbox.tail, m.len j = (k.pool i).mailbox.len j) ∧
    m.mails = Function.update (k.pool i).mailbox.mails (k.pool i).mailbox.tail
      (((k.pool i).mailbox.mails (k.pool i).mailbox.tail).store 0 bytes)

/-- `mail_write` stores at most 256 bytes, all of them in the slot at the tail.
Besides, it sets the length of that slot and the tail. -/
def WritesInside (k : Kernel) (i buf : Nat) (len : Int) : Prop :=
  Runs (fun _ => False) (mail_write i buf len) k fun _ k' => ∃ m bytes, k' = k.setMailbox i m ∧
    bytes.length ≤ MAIL_SIZE ∧ m.head = (k.pool i).mailbox.head ∧
    (∀ j ≠ (k.pool i).mailbox.tail, m.len j = (k.pool i).mailbox.len j) ∧
    m.mails = Function.update (k.pool i).mailbox.mails (k.pool i).mailbox.tail
      (((k.pool i).mailbox.mails (k.pool i).mailbox.tail).store 0 bytes)

/-- The mailboxes have the same mail at the head, and may differ in all other
bytes of the mails. -/
structure SameMail (m m' : Mailbox) : Prop where
  head : m'.head = m.head
  tail : m'.tail = m.tail
  len : m'.len = m.len
  bytes : ∀ u < (m.len m.head).toNat, m'.mails m.head u = m.mails m.head u

/-- The bytes of a mail that the slot at the head has. -/
def Mailbox.headSize (m : Mailbox) : Nat := min (m.len m.head).toNat MAIL_SIZE

/-- `mail_read` copies to the user at most the bytes of the mail at the head, and
no other byte of the mails has a part in what the user gets. Besides, it sets the
head. -/
def ReadsInside (k : Kernel) (buf : Nat) (len : Int) : Prop :=
  ∃ c ≤ (k.pool k.current_proc).mailbox.headSize, ∀ m',
    SameMail (k.pool k.current_proc).mailbox m' →
    Runs (fun _ => False) (mail_read buf len) (k.setMailbox k.current_proc m') fun _ k' =>
      (∃ head, k' = { k with mm := k'.mm }.setMailbox k.current_proc { m' with head := head }) ∧
      (∀ u < c, userByte k'.mm.mem (k.pool k.current_proc).pagetable (buf + u) =
        (k.pool k.current_proc).mailbox.mails (k.pool k.current_proc).mailbox.head u) ∧
      ∀ x, (∀ u < c, x ≠ userAddr k.mm.mem (k.pool k.current_proc).pagetable (buf + u)) →
        k'.mm.mem x = k.mm.mem x

/-! ## The copies -/

theorem runs_copyinMail {Q : Int × Bytes → Kernel → Prop}
    (hp : UpTo (fun u => Mapped k.mm.mem root (buf + u)) (copySize len) p) :
    Runs E (copyinMail root buf mail len) k Q ↔
    if MAIL_SIZE < p then E (.fault "mails: out of range")
      else Q (if p = copySize len then 0 else -1, mail.store 0 (userBytes k.mm.mem root buf p))
        k := by
  obtain ⟨r, mm, hrun, rfl, rfl⟩ := (copyin_upTo (E := fun _ => False) hp).exists_ok fun _ h => h
  unfold copyinMail
  rw [Runs.bind_iff, runs_onMm, Runs.ok_iff hrun]
  dsimp only
  rw [length_userBytes]
  by_cases hsize : MAIL_SIZE < p
  · rw [if_pos hsize, if_pos hsize]
    rfl
  · rw [if_neg hsize, if_neg hsize]
    rfl

/-- The bytes before the first one that is not mapped go to the user, if these
are not more than a mail has. -/
theorem copyoutMail_runs (hs : Separate k.mm.mem root)
    (hp : UpTo (fun u => Mapped k.mm.mem root (buf + u)) (copySize len) p) (hsize : p ≤ MAIL_SIZE) :
    Runs E (copyoutMail root buf mail len) k fun _ k' => ∃ mm, k' = { k with mm := mm } ∧
      CopiedOut k.mm root buf (mail.load 0 p) 0 mm := by
  have hcopy : Runs E (copyout root buf (mail.load 0 (copySize len))) k.mm fun _ mm =>
      CopiedOut k.mm root buf (mail.load 0 p) 0 mm := by
    have hsrc : UpTo (fun u => Mapped k.mm.mem root (buf + u)) (mail.load 0 (copySize len)).length
        p := by
      rwa [Bytes.length_load]
    apply (copyout_upTo hs hsrc).imp
    rintro r mm ⟨_, h⟩
    rwa [Bytes.take_load, Nat.min_eq_left hp.le] at h
  have hout : Runs E (onMm (copyout root buf (mail.load 0 (copySize len)))) k fun _ k' =>
      ∃ mm, k' = { k with mm := mm } ∧ CopiedOut k.mm root buf (mail.load 0 p) 0 mm := by
    rw [runs_onMm]
    exact hcopy.imp fun r mm h => ⟨mm, rfl, h⟩
  unfold copyoutMail
  dsimp only
  split
  · exact hout
  · rw [Runs.bind_iff, runs_onMm]
    apply (copyin_upTo hp).imp
    rintro r mm ⟨rfl, rfl⟩
    dsimp only
    rw [length_userBytes, if_neg (by omega)]
    exact hout

/-- A copy of more bytes than a mail has leaves it. -/
theorem copyoutMail_leaves {Q : Int → Kernel → Prop}
    (hp : UpTo (fun u => Mapped k.mm.mem root (buf + u)) (copySize len) p) (hsize : MAIL_SIZE < p) :
    ¬ Runs (fun _ => False) (copyoutMail root buf mail len) k Q := by
  obtain ⟨r, mm, hrun, rfl, rfl⟩ := (copyin_upTo (E := fun _ => False) hp).exists_ok fun _ h => h
  have hle := hp.le
  unfold copyoutMail
  dsimp only
  rw [if_neg (by omega), Runs.bind_iff, runs_onMm, Runs.ok_iff hrun]
  dsimp only
  rw [length_userBytes, if_pos hsize]
  exact id

/-- At most `n` of the bytes are mapped, just when some byte up to `n` is not. -/
theorem UpTo.le_iff {q : Nat → Prop} {len m : Nat} (h : UpTo q len m) (hn : n < len) :
    m ≤ n ↔ ∃ u ≤ n, ¬ q u := by
  constructor
  · intro hle
    exact ⟨m, hle, h.stop (by omega)⟩
  · rintro ⟨u, hu, hno⟩
    by_contra hc
    exact hno (h.all u (by omega))

theorem Kernel.setMailbox_current (k : Kernel) (i : Nat) (m : Mailbox) :
    (k.setMailbox i m).current_proc = k.current_proc := rfl

/-! ## Writing -/

/-- The length that `mail_write` passes on. -/
theorem copySize_clamp {n : Int}
    (hn : n = if (MAIL_SIZE : Int) < len then (MAIL_SIZE : Int) else len) :
    (0 ≤ len → copySize n ≤ MAIL_SIZE) ∧ (len < 0 → 2 ^ 63 ≤ copySize n) := by
  unfold MAIL_SIZE at *
  constructor
  · intro h
    have h0 : 0 ≤ n ∧ n ≤ 256 := by
      split at hn
      · omega
      · omega
    rw [copySize_of_nonneg h0.1]
    omega
  · intro h
    rw [if_neg (by omega)] at hn
    rw [hn]
    exact copySize_of_neg h

/-- The call stores in the slot at the tail, or copies on behind it. -/
theorem mail_write_stores_iff : Runs E (mail_write i buf len) k (fun _ k' => InSlot k i k') ↔
    ((1 + (k.pool i).mailbox.tail) % MAILS = (k.pool i).mailbox.head ∨ 0 ≤ len ∨
      ∃ u ≤ MAIL_SIZE, ¬ Mapped k.mm.mem (k.pool k.current_proc).pagetable (buf + u)) ∨
    E (.fault "mails: out of range") := by
  have hstay : InSlot k i k := by
    refine ⟨_, [], (k.setMailbox_eq i).symm, Nat.zero_le _, rfl, fun _ _ => rfl, ?_⟩
    rw [Bytes.store_nil, Function.update_eq_self]
  unfold mail_write
  rw [Runs.bind_iff, runs_getProc]
  dsimp only
  by_cases hfull : (1 + (k.pool i).mailbox.tail) % MAILS = (k.pool i).mailbox.head
  · rw [if_pos hfull, Runs.pure_iff]
    exact iff_of_true hstay (Or.inl (Or.inl hfull))
  · rw [if_neg hfull]
    by_cases hzero : len = 0
    · rw [if_pos hzero, Runs.pure_iff]
      exact iff_of_true hstay (Or.inl (Or.inr (Or.inl (by omega))))
    · rw [if_neg hzero]
      generalize hn : (if (MAIL_SIZE : Int) < len then (MAIL_SIZE : Int) else len) = n
      obtain ⟨hpos, hneg⟩ := copySize_clamp hn.symm
      obtain ⟨p, hp⟩ :=
        UpTo.exists (fun u => Mapped k.mm.mem (k.pool k.current_proc).pagetable (buf + u))
          (copySize n)
      have hinside : p ≤ MAIL_SIZE ↔ 0 ≤ len ∨
          ∃ u ≤ MAIL_SIZE, ¬ Mapped k.mm.mem (k.pool k.current_proc).pagetable (buf + u) := by
        by_cases h0 : 0 ≤ len
        · exact iff_of_true (hp.le.trans (hpos h0)) (Or.inl h0)
        · have hhuge := hneg (by omega)
          rw [hp.le_iff (by unfold MAIL_SIZE; omega)]
          exact ⟨Or.inr, fun h => h.resolve_left h0⟩
      rw [Runs.bind_iff, runs_setMailbox, Runs.bind_iff, runs_curr_proc,
        Kernel.setMailbox_pagetable, Runs.bind_iff,
        Kernel.setMailbox_current, runs_copyinMail (k := k.setMailbox i _) hp, or_iff_right hfull,
        ← hinside]
      by_cases hsize : MAIL_SIZE < p
      · rw [if_pos hsize]
        exact (or_iff_right (by omega)).symm
      · rw [if_neg hsize]
        refine iff_of_true ?_ (Or.inl (by omega))
        rw [Runs.bind_iff, runs_setMailbox, Kernel.setMailbox_twice]
        have hbytes : (userBytes k.mm.mem (k.pool k.current_proc).pagetable buf p).length ≤
            MAIL_SIZE := by
          rw [length_userBytes]
          omega
        by_cases hfails : (if p = copySize n then (0 : Int) else -1) = -1
        · rw [if_pos hfails, Runs.pure_iff]
          exact ⟨_, _, rfl, hbytes, rfl, fun j hj => Function.update_of_ne hj _ _, rfl⟩
        · rw [if_neg hfails, Runs.bind_iff, runs_setMailbox, Kernel.setMailbox_twice, Runs.pure_iff]
          exact ⟨_, _, rfl, hbytes, rfl, fun j hj => Function.update_of_ne hj _ _, rfl⟩

theorem mail_write_inside_iff : WritesInside k i buf len ↔
    (1 + (k.pool i).mailbox.tail) % MAILS = (k.pool i).mailbox.head ∨ 0 ≤ len ∨
      ∃ u ≤ MAIL_SIZE, ¬ Mapped k.mm.mem (k.pool k.current_proc).pagetable (buf + u) :=
  mail_write_stores_iff.trans (or_iff_left id)

/-- When the copy of `mail_read` stays inside. -/
def ReadFits (k : Kernel) (buf : Nat) (len : Int) : Prop :=
  let m := (k.pool k.current_proc).mailbox
  let n := if m.len m.head < len then m.len m.head else len
  m.tail = m.head ∨ len = 0 ∨ (0 ≤ n ∧ n ≤ MAIL_SIZE) ∨
    ∃ u ≤ m.headSize, ¬ Mapped k.mm.mem (k.pool k.current_proc).pagetable (buf + u)

/-- A call that returns at once. -/
theorem mail_read_stays {m : Mailbox} (hm : (k.pool k.current_proc).mailbox = m)
    (h : m.tail = m.head ∨ len = 0) :
    Runs E (mail_read buf len) k fun _ k' => k' = k := by
  unfold mail_read
  rw [Runs.bind_iff, runs_curr_proc]
  dsimp only
  rw [hm]
  by_cases hempty : m.tail = m.head
  · rw [if_pos hempty]
    rfl
  · rw [if_neg hempty, if_pos (h.resolve_left hempty)]
    rfl

/-- A call that copies. -/
theorem runs_mail_read {m : Mailbox} {Q : Int → Kernel → Prop}
    (hm : (k.pool k.current_proc).mailbox = m) (hne : m.tail ≠ m.head) (hlen : len ≠ 0) {n : Int}
    (hn : n = if m.len m.head < len then m.len m.head else len) :
    Runs E (mail_read buf len) k Q ↔
      Runs E (copyoutMail (k.pool k.current_proc).pagetable buf (m.mails m.head) n) k fun ret k₁ =>
        if ret = -1 then Q (-1) k₁
        else Q n (k₁.setMailbox k₁.current_proc { m with head := (1 + m.head) % MAILS }) := by
  unfold mail_read
  rw [Runs.bind_iff, runs_curr_proc]
  dsimp only
  rw [hm, if_neg hne, if_neg hlen, ← hn, Runs.bind_iff]
  apply Runs.congr
  intro ret k₁
  split
  · exact Runs.pure_iff
  · rw [Runs.bind_iff, Runs.get_iff, Runs.bind_iff, runs_setMailbox, Runs.pure_iff]

/-- The bytes that a copy puts in place are all that changes. -/
theorem reads_copied {m m' : Mailbox} {head : Nat} {mm : Mm}
    (hsame : SameMail m m') (hp : p ≤ (m.len m.head).toNat)
    (hcopied : CopiedOut k.mm (k.pool k.current_proc).pagetable buf
    ((m'.mails m.head).load 0 p) 0 mm)
    (hk : k' = { k with mm := mm }.setMailbox k.current_proc { m' with head := head }) :
    (∃ head, k' = { k with mm := k'.mm }.setMailbox k.current_proc { m' with head := head }) ∧
      (∀ u < p, userByte k'.mm.mem (k.pool k.current_proc).pagetable (buf + u) = m.mails m.head u) ∧
      ∀ x, (∀ u < p, x ≠ userAddr k.mm.mem (k.pool k.current_proc).pagetable (buf + u)) →
      k'.mm.mem x = k.mm.mem x := by
  subst hk
  refine ⟨⟨head, rfl⟩, fun u hu => ?_, fun x hx => ?_⟩
  · have hat := hcopied.bytes rfl u (by rwa [Bytes.length_load])
    rw [Bytes.getElem?_load hu, Nat.zero_add, hsame.bytes u (by omega)] at hat
    have hbyte := Option.some.inj hat
    unfold userByte userAddr
    rw [← hbyte]
    change mm.mem (userPage mm.mem _ _ + _) = _
    rw [hcopied.pages]
    rfl
  · exact hcopied.frame x fun u hu _ => hx u (by rwa [Bytes.length_load] at hu)

theorem ReadFits.inside (hs : Separate k.mm.mem (k.pool k.current_proc).pagetable)
    (h : ReadFits k buf len) :
    ReadsInside k buf len := by
  unfold ReadFits at h
  generalize hm : (k.pool k.current_proc).mailbox = m at h
  dsimp only at h
  generalize hn : (if m.len m.head < len then m.len m.head else len) = n at h
  by_cases hstay : m.tail = m.head ∨ len = 0
  · refine ⟨0, Nat.zero_le _, fun m' hm' => ?_⟩
    rw [hm] at hm' ⊢
    apply (mail_read_stays (Kernel.setMailbox_self k _ m') (by rwa [hm'.head, hm'.tail])).imp
    rintro r _ rfl
    exact ⟨⟨m'.head, rfl⟩, fun u hu => absurd hu (Nat.not_lt_zero u), fun _ _ => rfl⟩
  · obtain ⟨hempty, hzero⟩ := not_or.mp hstay
    have hfits := (h.resolve_left hempty).resolve_left hzero
    obtain ⟨p, hp⟩ :=
      UpTo.exists (fun u => Mapped k.mm.mem (k.pool k.current_proc).pagetable (buf + u))
        (copySize n)
    have hle : p ≤ m.headSize := by
      unfold Mailbox.headSize at *
      rcases hfits with ⟨h0, hmax⟩ | ⟨u, hu, hhole⟩
      · have hsize := hp.le
        rw [copySize_of_nonneg h0] at hsize
        split at hn
        · omega
        · omega
      · by_contra hc
        exact hhole (hp.all u (by omega))
    have hsize : p ≤ MAIL_SIZE ∧ p ≤ (m.len m.head).toNat := by
      unfold Mailbox.headSize at hle
      omega
    refine ⟨p, by rw [hm]; exact hle, fun m' hm' => ?_⟩
    rw [hm] at hm' ⊢
    have hn' : n = if m'.len m'.head < len then m'.len m'.head else len := by
      rw [hm'.head, hm'.len]
      exact hn.symm
    rw [runs_mail_read (Kernel.setMailbox_self k _ m') (by rw [hm'.head, hm'.tail]; exact hempty)
      hzero hn', Kernel.setMailbox_current, Kernel.setMailbox_pagetable]
    apply (copyoutMail_runs (k := k.setMailbox k.current_proc m') hs hp hsize.1).imp
    rintro ret _ ⟨mm, rfl, hcopied⟩
    rw [hm'.head] at hcopied
    split
    · have hk : ({ k.setMailbox k.current_proc m' with mm := mm } : Kernel) =
          { k with mm := mm }.setMailbox k.current_proc { m' with head := m'.head } := rfl
      exact reads_copied hm' hsize.2 hcopied hk
    · exact reads_copied hm' hsize.2 hcopied
        (Kernel.setMailbox_twice { k with mm := mm } k.current_proc m'
        { m' with head := (1 + m'.head) % MAILS })

/-- A byte that is not `a`. -/
theorem exists_byte_ne (a : Byte) : ∃ b : Byte, b ≠ a := by
  by_cases h : a = 0
  · exact ⟨1, by rw [h]; decide⟩
  · exact ⟨0, fun hc => h hc.symm⟩

/-- A read that goes on behind the mail shows another byte of the slot, or leaves
the slot. -/
theorem ReadsInside.fits (hs : Separate k.mm.mem (k.pool k.current_proc).pagetable)
    (h : ReadsInside k buf len) :
    ReadFits k buf len := by
  obtain ⟨c, hc, h⟩ := h
  by_contra hno
  unfold ReadFits at hno
  generalize hm : (k.pool k.current_proc).mailbox = m at *
  dsimp only at hno
  generalize hn : (if m.len m.head < len then m.len m.head else len) = n at *
  simp only [not_or, not_exists, not_and, not_not] at hno
  obtain ⟨hempty, hzero, hbig, hall⟩ := hno
  have hsize : MAIL_SIZE < copySize n := by
    by_cases h0 : 0 ≤ n
    · rw [copySize_of_nonneg h0]
      have := hbig h0
      omega
    · have := @copySize_of_neg n (by omega)
      unfold MAIL_SIZE
      omega
  obtain ⟨p, hp⟩ :=
    UpTo.exists (fun u => Mapped k.mm.mem (k.pool k.current_proc).pagetable (buf + u)) (copySize n)
  have hmin : m.headSize ≤ MAIL_SIZE := Nat.min_le_right _ _
  have hlong : m.headSize < p := by
    by_contra hc
    exact hp.stop (by omega) (hall p (by omega))
  -- The slot has another byte behind the mail.
  obtain ⟨b, hb⟩ :=
    exists_byte_ne (k.mm.mem (userAddr k.mm.mem (k.pool k.current_proc).pagetable
      (buf + m.headSize)))
  let m' : Mailbox :=
    { m with
      mails := Function.update m.mails m.head fun u =>
        if u = m.headSize then b else m.mails m.head u }
  have hother : m'.mails m.head m.headSize = b := by simp [m']
  by_cases hleave : MAIL_SIZE < p
  · have hrun := h m ⟨rfl, rfl, rfl, fun _ _ => rfl⟩
    rw [runs_mail_read (Kernel.setMailbox_self k _ m) hempty hzero hn.symm,
      Kernel.setMailbox_pagetable] at hrun
    exact copyoutMail_leaves (k := k.setMailbox k.current_proc m) hp hleave hrun
  · have hmail : m.headSize = (m.len m.head).toNat := by
      unfold Mailbox.headSize at *
      omega
    have hsame : SameMail m m' := by
      refine ⟨rfl, rfl, rfl, fun u hu => ?_⟩
      have hne : u ≠ m.headSize := by omega
      simp [m', hne]
    have hrun := h m' hsame
    rw [runs_mail_read (Kernel.setMailbox_self k _ m') hempty hzero hn.symm,
      Kernel.setMailbox_pagetable] at hrun
    have hcopy := @copyoutMail_runs (fun _ => True) (k.setMailbox k.current_proc m')
      (m'.mails m'.head) _ _ _ _ hs hp (by omega)
    obtain ⟨ret, _, _, hout, mm, rfl, hcopied⟩ := (hrun.and hcopy).exists_ok fun _ he => he.1
    have hframe : mm.mem (userAddr k.mm.mem (k.pool k.current_proc).pagetable (buf + m.headSize)) =
        k.mm.mem (userAddr k.mm.mem (k.pool k.current_proc).pagetable (buf + m.headSize)) := by
      have hx : ∀ u < c, userAddr k.mm.mem (k.pool k.current_proc).pagetable (buf + m.headSize) ≠
          userAddr k.mm.mem (k.pool k.current_proc).pagetable (buf + u) := by
        intro u hu heq
        have := hs.userAddr_inj (hall m.headSize (Nat.le_refl _)) heq
        unfold MAIL_SIZE at hmin
        omega
      split at hout
      · exact hout.2.2 _ hx
      · exact hout.2.2 _ hx
    have hat := hcopied.bytes rfl m.headSize (by rwa [Bytes.length_load])
    rw [Bytes.getElem?_load hlong, Nat.zero_add] at hat
    exact hb ((hother.symm.trans (Option.some.inj hat).symm).trans hframe)

/-! ## The mail copies -/

/-- The copies of mails stay inside one slot, for a write: when the mailbox is
full, the length is not negative, or one of the first 257 bytes of the buffer is
not mapped; for a read: when the mailbox is empty, the length is 0, the smaller
of the length and that of the mail is one of a mail, or one of the bytes of the
buffer up to the end of the mail is not mapped. -/
theorem mail_copies_stay_inside (hs : Separate k.mm.mem (k.pool k.current_proc).pagetable) :
    (WritesInside k i buf len ↔
      (1 + (k.pool i).mailbox.tail) % MAILS = (k.pool i).mailbox.head ∨ 0 ≤ len ∨
        ∃ u ≤ MAIL_SIZE, ¬ Mapped k.mm.mem (k.pool k.current_proc).pagetable (buf + u)) ∧
    (ReadsInside k buf len ↔ ReadFits k buf len) :=
  ⟨mail_write_inside_iff, ⟨ReadsInside.fits hs, ReadFits.inside hs⟩⟩

/-- A process with a page of its own at the address 0. -/
def ownPageKernel : Kernel := { onePageKernel with mm := ⟨oneEntry (PA2PTE 0x4000 ||| 0x1f), 0⟩ }

theorem ownPageKernel_separate :
    Separate ownPageKernel.mm.mem (ownPageKernel.pool ownPageKernel.current_proc).pagetable :=
  (userTable_oneEntry (by decide) (by decide)).separate
    (tablesApart_oneEntry (by decide) (by decide))

theorem mail_copies_stay_inside_of_two_bytes :
    (WritesInside ownPageKernel 0 0 2 ↔
      (1 + (ownPageKernel.pool 0).mailbox.tail) % MAILS = (ownPageKernel.pool 0).mailbox.head ∨
      (0 : Int) ≤ 2 ∨
        ∃ u ≤ MAIL_SIZE, ¬ Mapped ownPageKernel.mm.mem
        (ownPageKernel.pool ownPageKernel.current_proc).pagetable (0 + u)) ∧
    (ReadsInside ownPageKernel 0 2 ↔ ReadFits ownPageKernel 0 2) :=
  mail_copies_stay_inside ownPageKernel_separate

/-- A mail of -1 bytes, from a page that is mapped. -/
theorem a_negative_mail_leaves_its_slot : ¬ ∀ (k : Kernel) (i buf : Nat) (len : Int),
    Separate k.mm.mem (k.pool k.current_proc).pagetable → WritesInside k i buf len ∧
    ReadsInside k buf len := by
  intro hall
  have hwrite := mail_write_inside_iff.mp (hall ownPageKernel 0 0 (-1) ownPageKernel_separate).1
  rcases hwrite with hfull | hneg | ⟨u, hu, hhole⟩
  · exact absurd hfull (by decide)
  · exact absurd hneg (by decide)
  · have hmapped : UserMapped (oneEntry (PA2PTE 0x4000 ||| 0x1f)) 0x1000 (0 + u) := by
      unfold MAIL_SIZE at hu
      exact userMapped_oneEntry (by decide) (by decide) (by decide) (by rw [PGSIZE_eq]; omega)
    exact hhole ((mapped_iff (userTable_oneEntry (by decide) (by decide)).nonzero).mpr hmapped)

end ThuKernel
