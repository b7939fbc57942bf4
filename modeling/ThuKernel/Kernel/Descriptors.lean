-- Descriptors that the user makes up: which of the calls that take one refuse
-- it, and which of them use an entry of the table that is not there.
import ThuKernel.Kernel.Balance
import ThuKernel.Kernel.Coherence
import ThuKernel.Vm.CopyStr

namespace ThuKernel

variable {lk : Link} {E : Stop → Prop} {k : Kernel} {mem : Bytes} {root va max : Nat}

/-- A call that takes a descriptor, with the 64-bit registers that hold its
arguments. -/
inductive FdCall where
  | read (str : Bytes) (fd va len : Nat)
  | write (fd va len : Nat)
  | close (fd : Nat)
  | fstat (sst : Bytes) (fd st : Nat)

/-- The descriptor is an `int`, but for `fstat`. -/
def FdCall.call : FdCall → FileCall
  | .read str fd va len => .read str (toInt fd) va len
  | .write fd va len => .write (toInt fd) va len
  | .close fd => .close (toInt fd)
  | .fstat sst fd st => .fstat sst fd st

/-- The descriptor `fd` of the current process is open, as file `f`. -/
def OpenFd (k : Kernel) (fd : Int) (f : Nat) : Prop :=
  3 ≤ fd ∧ fd < FD_MAX ∧ (k.pool k.current_proc).files fd.toNat = some f

/-- The descriptor of the call is not one of the console that the call knows,
and it is not open, or not on an inode for `fstat`. -/
def FdCall.Bad (k : Kernel) : FdCall → Prop
  | .read _ fd _ _ => toInt fd ≠ 0 ∧ ∀ f, ¬ OpenFd k (toInt fd) f
  | .write fd _ _ => ¬ (0 ≤ toInt fd ∧ toInt fd ≤ 2) ∧ ∀ f, ¬ OpenFd k (toInt fd) f
  | .close fd => toInt fd ≠ 0 ∧ ∀ f, ¬ OpenFd k (toInt fd) f
  | .fstat _ fd _ => ∀ f, OpenFd k fd f → (k.filepool f).type ≠ .FD_INODE

/-- The call returns -1, and nothing has changed. -/
def FdCall.Refused (lk : Link) (k : Kernel) (c : FdCall) : Prop :=
  Runs (fun _ => False) (c.call.run lk) k fun r k' => r = .ret (-1) ∧ k' = k

/-- A string copy of at most `max` bytes meets a byte that is not mapped. -/
def Unreadable (mem : Bytes) (root va max : Nat) : Prop :=
  ∃ n < max, NoNul mem root va n ∧ (∀ u < n, Mapped mem root (va + u)) ∧ ¬ Mapped mem root (va + n)

/-- What the calls check: `write` and `fstat` have an upper bound, and a negative
descriptor of `write` is the console, which refuses a string that it cannot
read. -/
def FdCall.Checked (k : Kernel) : FdCall → Prop
  | .write fd va len => 15 < toInt fd ∨
      (toInt fd < 0 ∧ Unreadable k.mm.mem (k.pool k.current_proc).pagetable va (min len PATH_SIZE))
  | .fstat _ fd _ => FD_MAX ≤ fd
  | .read _ _ _ _ => False
  | .close _ => False

/-! ## The parts of the calls -/

theorem CopiedStr.unreadable_iff {s : Mm} {r : Int × List Byte} (h : CopiedStr s root va max 0 r) :
    r.1 = -1 ↔ Unreadable s.mem root va max := by
  constructor
  · intro hr
    rcases h.result with ⟨n, _, hc, _⟩ | ⟨hc, _⟩ | ⟨_, hlt, hno, hstop⟩
    · omega
    · omega
    · exact ⟨_, hlt, hno, h.mapped, hstop⟩
  · rintro ⟨n, hn, hno, _, hstop⟩
    rcases h.result with ⟨m, _, _, hlen, _, hzero⟩ | ⟨_, hlen, _⟩ | ⟨hr, _⟩
    · -- The copy ended with a NUL before the byte, or the byte was mapped.
      by_cases hle : n ≤ m
      · exact absurd (h.mapped n (by omega)) hstop
      · exact absurd hzero (hno m (by omega))
    · exact absurd (h.mapped n (by omega)) hstop
    · exact hr

/-- The console refuses a string just when it cannot read it. -/
theorem console_write_runs (len : Nat) : Runs E (console_write va len) k (fun r k' => k' = k ∧
    (r = -1 ↔ Unreadable k.mm.mem (k.pool k.current_proc).pagetable va (min len PATH_SIZE))) := by
  unfold console_write
  rw [Runs.bind_iff, runs_curr_proc, Runs.bind_iff, runs_onMm]
  apply (copyinstr_copies _ _ _).imp
  rintro ⟨r, bytes⟩ m ⟨rfl, hcopied⟩
  exact ⟨rfl, hcopied.unreadable_iff⟩

/-- A descriptor that is not open leads to no file. -/
theorem fileAt_stops {fd : Int} (hlow : ∀ fd < 3, (k.pool k.current_proc).files fd = none)
    (hno : ∀ f, ¬ OpenFd k fd f) {Q : Nat → Kernel → Prop} : Runs (fun _ => True)
    (fileAt fd) k Q := by
  apply runs_fileAt (fun _ => trivial)
  intro f h0 hmax hf
  by_cases h3 : 3 ≤ fd
  · exact absurd ⟨h3, hmax, hf⟩ (hno f)
  · rw [hlow fd.toNat (by omega)] at hf
    cases hf

/-- `fstat` keeps a reference to the root directory. -/
theorem sys_fstat_changes (sst : Bytes) {fd : Nat} (st : Nat) (hfd : ¬ FD_MAX ≤ fd) :
    Runs (fun _ => True) (sys_fstat sst fd st) k (fun _ k' => k' ≠ k) := by
  have hmore : ∀ {s' : Fs} {dp : Nat} {k' : Kernel}, Moves (one dp) k.fs s' → k'.fs = s' →
      k' ≠ k := by
    rintro s' dp k' hm rfl rfl
    have href := hm.ref dp
    unfold one only at href
    rw [if_pos rfl] at href
    omega
  unfold sys_fstat
  rw [if_neg hfd, Runs.bind_iff, runs_onFs]
  apply (root_dir_moves k.fs).mono (fun _ _ => trivial)
  rintro dp s₁ ⟨h1, _⟩
  unfold statInode
  simp only [Runs.bind_iff]
  apply runs_fileAt (fun _ => trivial)
  intro f _ _ _
  rw [runs_getFile]
  apply runs_deref (fun _ => trivial)
  intro ip _
  rw [runs_onFs, runs_getInode, runs_onFs]
  apply (countLinks_quiet dp _ s₁).mono (fun _ _ => trivial)
  intro r s₂ h2
  cases r with
  | none => exact hmore (h1.quiet h2) rfl
  | some nlink =>
    dsimp only
    rw [Runs.bind_iff, runs_onFs, runs_getInode]
    split
    · exact hmore (h1.quiet h2) rfl
    · rw [Runs.bind_iff, runs_curr_proc, Runs.bind_iff, runs_onMm]
      apply Runs.of_forall
      rintro r m _
      split
      · exact hmore (h1.quiet h2) rfl
      · exact hmore (h1.quiet h2) rfl

/-- A call that cannot end as it has to is not refused. -/
theorem FdCall.not_refused {c : FdCall}
    (h : Runs (fun _ => True) (c.call.run lk) k (fun r k' => ¬ (r = .ret (-1) ∧ k' = k))) :
    ¬ c.Refused lk k := by
  intro hrefused
  obtain ⟨_, _, _, hboth, hno⟩ := (hrefused.and h).exists_ok fun e he => he.1
  exact hno hboth

/-- A call with a descriptor that is not good returns -1 with nothing changed
just when it checks for it: `write` and `fstat` refuse large numbers only, `read`
and `close` refuse none. No file is ever at the descriptors below 3. -/
theorem a_bad_descriptor_is_refused (hlow : ∀ fd < 3, (k.pool k.current_proc).files fd = none)
    (c : FdCall) (hbad : c.Bad k) : c.Refused lk k ↔ c.Checked k := by
  cases c with
  | read str fd va len =>
    obtain ⟨h0, hno⟩ := hbad
    refine iff_of_false (FdCall.not_refused ?_) not_false
    unfold FdCall.call FileCall.run sys_read
    dsimp only
    rw [if_neg h0]
    exact Runs.bind_iff.mpr (fileAt_stops hlow hno)
  | close fd =>
    obtain ⟨h0, hno⟩ := hbad
    refine iff_of_false (FdCall.not_refused ?_) not_false
    unfold FdCall.call FileCall.run sys_close
    dsimp only
    rw [if_neg h0]
    exact Runs.map_iff.mpr (Runs.bind_iff.mpr (fileAt_stops hlow hno))
  | write fd va len =>
    obtain ⟨hconsole, hno⟩ := hbad
    unfold FdCall.Checked
    dsimp only
    by_cases hbig : 15 < toInt fd
    · refine iff_of_true ?_ (Or.inl hbig)
      unfold FdCall.Refused FdCall.call FileCall.run sys_write
      dsimp only
      rw [if_pos hbig]
      exact ⟨rfl, rfl⟩
    · by_cases hneg : toInt fd < 0
      · -- The console takes it.
        have hwrite : ∀ {E : Stop → Prop}, Runs E ((FdCall.write fd va len).call.run lk) k
            (fun r k' => k' = k ∧
            (r = .ret (-1) ↔ Unreadable k.mm.mem (k.pool k.current_proc).pagetable va
            (min len PATH_SIZE))) := by
          intro E
          unfold FdCall.call FileCall.run sys_write
          dsimp only
          rw [if_neg hbig, if_pos (by omega), Runs.map_iff]
          apply (console_write_runs len).imp
          rintro r k' ⟨hk', hr⟩
          exact ⟨hk', by rw [← hr, Outcome.ret.injEq]⟩
        constructor
        · intro hrefused
          obtain ⟨_, _, _, ⟨hr, _⟩, _, hiff⟩ :=
            (hrefused.and (hwrite (E := fun _ => True))).exists_ok fun e he => he.1
          exact Or.inr ⟨hneg, hiff.mp hr⟩
        · rintro (hc | ⟨_, hun⟩)
          · exact absurd hc hbig
          · exact hwrite.imp fun r k' h => ⟨h.2.mpr hun, h.1⟩
      · refine iff_of_false (FdCall.not_refused ?_) fun hc => ?_
        · unfold FdCall.call FileCall.run sys_write
          dsimp only
          rw [if_neg hbig, if_neg (by omega)]
          exact Runs.bind_iff.mpr (fileAt_stops hlow hno)
        · rcases hc with hc | ⟨hc, _⟩
          · exact hbig hc
          · exact hneg hc
  | fstat sst fd st =>
    unfold FdCall.Checked
    dsimp only
    by_cases hbig : FD_MAX ≤ fd
    · refine iff_of_true ?_ hbig
      unfold FdCall.Refused FdCall.call FileCall.run sys_fstat
      dsimp only
      rw [if_pos hbig]
      exact ⟨rfl, rfl⟩
    · refine iff_of_false (FdCall.not_refused ?_) hbig
      unfold FdCall.call FileCall.run
      dsimp only
      rw [Runs.map_iff]
      exact (sys_fstat_changes sst st hbig).imp fun _ _ hne h => hne h.2

/-! ## An empty slot -/

section Empty

/-- Number 16 is out of the range that `write` checks. -/
theorem a_bad_descriptor_is_refused_sixteen :
    (FdCall.write 16 0 0).Refused noLink onePageKernel ↔
    (FdCall.write 16 0 0).Checked onePageKernel :=
  a_bad_descriptor_is_refused (fun _ _ => rfl) _ ⟨by decide, fun f hf => by cases hf.2.2⟩

/-- A process without files reads from descriptor 3. -/
theorem a_read_from_an_empty_slot_is_not_refused :
    ¬ ∀ (lk : Link) (k : Kernel), (∀ fd < 3, (k.pool k.current_proc).files fd = none) →
      ∀ c : FdCall, c.Bad k → c.Refused lk k := by
  intro hall
  have hrefused := hall noLink onePageKernel (fun _ _ => rfl) (.read zeros 3 0 0)
    ⟨by decide, fun f hf => by cases hf.2.2⟩
  refine FdCall.not_refused ?_ hrefused
  unfold FdCall.call FileCall.run sys_read
  dsimp only
  rw [if_neg (by decide)]
  exact Runs.bind_iff.mpr (fileAt_stops (fun _ _ => rfl) fun f hf => by cases hf.2.2)

end Empty

end ThuKernel
