-- Reading from the console: the characters go through a buffer of 200 bytes on
-- the kernel stack, but the length of the copy is the one that the user gave.
import ThuKernel.Kernel.MailBounds

namespace ThuKernel

/-- `sizeof(str)` in `console_read`. -/
def STR_SIZE : Nat := 200

/-- The loop of `console_read`, from index `i` on: `getchar` are the results of
`console_getchar`. -/
def getchars (getchar : Nat → Int) : (n i : Nat) → (str : Bytes) → Bytes
  | 0, _, str => str
  | n + 1, i, str => getchars getchar n (i + 1) (Function.update str i (BitVec.ofInt 8 (getchar i)))

/-- `read` on descriptor 0, with what is on the kernel stack before. -/
def readConsole (getchar : Nat → Int) (va len : Nat) (stack : Bytes) : Prog Kernel Outcome :=
  sys_read (getchars getchar (min len STR_SIZE) 0 stack) 0 va len

variable {E : Stop → Prop} {k k' : Kernel} {s s' s'' : Mm} {root va len p : Nat} {src : List Byte}
variable {getchar : Nat → Int} {stack : Bytes}

/-- `n` characters are at the address, and nothing else has changed. -/
structure Typed (k k' : Kernel) (getchar : Nat → Int) (va n : Nat) : Prop where
  bytes : ∀ u < n, userByte k'.mm.mem (k.pool k.current_proc).pagetable (va + u) =
    BitVec.ofInt 8 (getchar u)
  frame : ∀ x, (∀ u < n, x ≠ userAddr k.mm.mem (k.pool k.current_proc).pagetable (va + u)) →
    k'.mm.mem x = k.mm.mem x
  rest : k' = { k with mm := k'.mm }

/-- Whatever is on the stack, the call has one result. If the buffer is mapped,
this is the number of characters that are stored; if not, it is -1. -/
def ConsoleFine (k : Kernel) (getchar : Nat → Int) (va len : Nat) : Prop :=
  ∃ r k', (∀ stack, readConsole getchar va len stack k = .ok (.ret r, k')) ∧
    ((∀ u < len, Mapped k.mm.mem (k.pool k.current_proc).pagetable (va + u)) →
      ∃ n : Nat, r = n ∧ n ≤ min len STR_SIZE ∧ Typed k k' getchar va n) ∧
    ((∃ u < len, ¬ Mapped k.mm.mem (k.pool k.current_proc).pagetable (va + u)) →
    r % 2 ^ 64 = -1 % 2 ^ 64)

/-! ## The copy -/

/-- The characters, and behind them what was on the stack. -/
theorem getchars_apply (getchar : Nat → Int) (n i : Nat) (str : Bytes) (u : Nat) :
    getchars getchar n i str u =
    if i ≤ u ∧ u < i + n then BitVec.ofInt 8 (getchar u) else str u := by
  induction n generalizing i str with
  | zero => rw [getchars, if_neg (by omega)]
  | succ n ih =>
    rw [getchars, ih]
    by_cases hu : u = i
    · rw [if_neg (by omega), if_pos (by omega), hu, Function.update_self]
    · rw [Function.update_of_ne hu]
      by_cases hin : i + 1 ≤ u ∧ u < i + 1 + n
      · rw [if_pos hin, if_pos (by omega)]
      · rw [if_neg hin, if_neg (by omega)]

/-- The result of a copy is one. -/
theorem CopiedOut.unique {mem mem' : Bytes} {free : Nat} (h : CopiedOut s root va src 0 ⟨mem, free⟩)
    (h' : CopiedOut s root va src 0 ⟨mem', free⟩) : mem = mem' := by
  funext x
  by_cases hx : ∃ u < src.length, Mapped s.mem root (va + u) ∧ x = userAddr s.mem root (va + u)
  · obtain ⟨u, hu, _, rfl⟩ := hx
    exact Option.some.inj ((h.bytes rfl u hu).trans (h'.bytes rfl u hu).symm)
  · have hframe : ∀ u < src.length, Mapped s.mem root (va + u) → x ≠ userAddr s.mem root (va + u) :=
      fun u hu hm hc => hx ⟨u, hu, hm, hc⟩
    exact (h.frame x hframe).trans (h'.frame x hframe).symm

/-- The call returns the length, whatever `copyout` says. -/
theorem readConsole_eq (hs : Separate k.mm.mem (k.pool k.current_proc).pagetable)
    (hp : UpTo (fun u => Mapped k.mm.mem (k.pool k.current_proc).pagetable (va + u)) len p)
    (stack : Bytes) :
    ∃ mem, readConsole getchar va len stack k =
    .ok (.ret len, { k with mm := ⟨mem, k.mm.freelist⟩ }) ∧
      CopiedOut k.mm (k.pool k.current_proc).pagetable va
        ((getchars getchar (min len STR_SIZE) 0 stack).load 0 p) 0 ⟨mem, k.mm.freelist⟩ := by
  have hcopy :=
    (@copyout_upTo (fun _ => False) _ _ _ ((getchars getchar (min len STR_SIZE) 0 stack).load 0 len)
      _
    hs (by rwa [Bytes.length_load])).and (copyout_runs (E := fun _ => False) _ _ _)
  obtain ⟨r, mm, hrun, ⟨_, hcopied⟩, _, hfree⟩ := hcopy.exists_ok fun _ he => he.1
  rw [Bytes.take_load, Nat.min_eq_left hp.le] at hcopied
  refine ⟨mm.mem, ?_, by rwa [← hfree]⟩
  have hread : Runs (fun _ => False) (readConsole getchar va len stack) k fun r k' =>
      r = .ret len ∧ k' = { k with mm := mm } := by
    unfold readConsole sys_read console_read
    rw [if_pos rfl, Runs.map_iff, Runs.bind_iff, runs_curr_proc, Runs.bind_iff, runs_onMm,
      Runs.ok_iff hrun, Runs.pure_iff]
    exact ⟨rfl, rfl⟩
  obtain ⟨r, k', hok, rfl, rfl⟩ := hread.exists_ok fun _ h => h
  rw [hok, ← hfree]

/-- What the user gets of `str`, when this is not more than the characters. -/
theorem typed_of_copied {mem : Bytes} (hsize : p ≤ min len STR_SIZE)
    (h : CopiedOut k.mm (k.pool k.current_proc).pagetable va
      ((getchars getchar (min len STR_SIZE) 0 stack).load 0 p) 0 ⟨mem, k.mm.freelist⟩) :
    Typed k { k with mm := ⟨mem, k.mm.freelist⟩ } getchar va p := by
  refine ⟨fun u hu => ?_, fun x hx => h.frame x fun u hu _ =>
    hx u (by rwa [Bytes.length_load] at hu), rfl⟩
  have hat := h.bytes rfl u (by rwa [Bytes.length_load])
  rw [Bytes.getElem?_load hu, Nat.zero_add, getchars_apply, if_pos (by omega)] at hat
  have hpage := h.pages (PGROUNDDOWN ((va + u) % 2 ^ 64))
  unfold userByte userAddr
  dsimp only at hpage ⊢
  rw [hpage]
  exact Option.some.inj hat

/-! ## When the call is fine -/

/-- `read` on descriptor 0 reports what it stored just when all bytes are mapped
and at most 200; or when the length is `(uint64)-1`, and one of the first 201
bytes is not mapped. -/
theorem console_read_reports_what_it_stored
    (hs : Separate k.mm.mem (k.pool k.current_proc).pagetable)
    (hlen : len < 2 ^ 64) : ConsoleFine k getchar va len ↔
      (len ≤ STR_SIZE ∧ ∀ u < len, Mapped k.mm.mem (k.pool k.current_proc).pagetable (va + u)) ∨
      (len = 2 ^ 64 - 1 ∧ ∃ u ≤ STR_SIZE, ¬ Mapped k.mm.mem (k.pool k.current_proc).pagetable
      (va + u)) := by
  obtain ⟨p, hp⟩ :=
    UpTo.exists (fun u => Mapped k.mm.mem (k.pool k.current_proc).pagetable (va + u)) len
  constructor
  · rintro ⟨r, k', hall, hmapped, hhole⟩
    obtain ⟨mem, hrun, hcopied⟩ := @readConsole_eq _ _ _ _ getchar hs hp fun _ => 0
    obtain ⟨mem', hrun', hcopied'⟩ := @readConsole_eq _ _ _ _ getchar hs hp fun _ => 1
    rw [hall] at hrun hrun'
    cases hrun
    have hmem : mem = mem' := by
      cases hrun'
      rfl
    by_cases hm : ∀ u < len, Mapped k.mm.mem (k.pool k.current_proc).pagetable (va + u)
    · obtain ⟨n, hn, hmin, _⟩ := hmapped hm
      exact Or.inl ⟨by omega, hm⟩
    · push Not at hm
      have hfails := hhole hm
      refine Or.inr ⟨by omega, ?_⟩
      rw [← hp.le_iff (by unfold STR_SIZE; omega)]
      -- The byte 200 would be one of the stack.
      by_contra hc
      have hat := hcopied.bytes rfl STR_SIZE (by rw [Bytes.length_load]; omega)
      have hat' := hcopied'.bytes rfl STR_SIZE (by rw [Bytes.length_load]; omega)
      rw [Bytes.getElem?_load (by omega), getchars_apply, if_neg (by omega)] at hat hat'
      rw [← hmem, hat] at hat'
      exact absurd hat' (by decide)
  · intro h
    have hsize : p ≤ min len STR_SIZE := by
      rcases h with ⟨hle, _⟩ | ⟨hmax, hhole⟩
      · have := hp.le
        omega
      · rw [← hp.le_iff (by unfold STR_SIZE; omega)] at hhole
        have := hp.le
        omega
    obtain ⟨mem, hrun, hcopied⟩ := @readConsole_eq _ _ _ _ getchar hs hp fun _ => 0
    refine ⟨len, _, fun stack => ?_, fun hm => ⟨p, ?_, hsize, typed_of_copied hsize hcopied⟩,
      fun hm => ?_⟩
    · obtain ⟨mem', hrun', hcopied'⟩ := @readConsole_eq _ _ _ _ getchar hs hp stack
      have hload : (getchars getchar (min len STR_SIZE) 0 stack).load 0 p =
          (getchars getchar (min len STR_SIZE) 0 fun _ => 0).load 0 p := by
        apply Bytes.load_congr
        intro u hu
        rw [getchars_apply, getchars_apply, if_pos (by omega), if_pos (by omega)]
      rw [hload] at hcopied'
      rw [hrun', hcopied'.unique hcopied]
    · rw [hp.all_iff.mp hm]
    · rcases h with ⟨_, hall⟩ | ⟨hmax, _⟩
      · obtain ⟨u, hu, hno⟩ := hm
        exact absurd (hall u hu) hno
      · omega

theorem console_read_reports_what_it_stored_of_three : ConsoleFine ownPageKernel (fun _ => 97) 0 3 ↔
    (3 ≤ STR_SIZE ∧ ∀ u < 3, Mapped ownPageKernel.mm.mem
    (ownPageKernel.pool ownPageKernel.current_proc).pagetable (0 + u)) ∨
    (3 = 2 ^ 64 - 1 ∧ ∃ u ≤ STR_SIZE,
      ¬ Mapped ownPageKernel.mm.mem (ownPageKernel.pool ownPageKernel.current_proc).pagetable
      (0 + u)) :=
  console_read_reports_what_it_stored ownPageKernel_separate (by decide)

/-- A read of one byte to an address that is not mapped. -/
theorem console_read_of_no_buffer_reports_a_byte :
    ¬ ∀ (k : Kernel) (getchar : Nat → Int) (va len : Nat),
    Separate k.mm.mem (k.pool k.current_proc).pagetable → len < 2 ^ 64 →
    ConsoleFine k getchar va len := by
  intro hall
  obtain ⟨r, k', hrun, _, hhole⟩ :=
    hall ownPageKernel (fun _ => 97) (2 ^ 38) 1 ownPageKernel_separate (by decide)
  have hno : ¬ Mapped ownPageKernel.mm.mem (ownPageKernel.pool ownPageKernel.current_proc).pagetable
      (2 ^ 38 + 0) :=
    not_mapped_top _ _
  have hp : UpTo (fun u => Mapped ownPageKernel.mm.mem
      (ownPageKernel.pool ownPageKernel.current_proc).pagetable (2 ^ 38 + u)) 1 0 :=
    ⟨Nat.zero_le 1, fun u hu => absurd hu (Nat.not_lt_zero u), fun _ => hno⟩
  obtain ⟨mem, hrun', _⟩ := @readConsole_eq _ _ _ _ (fun _ => 97) ownPageKernel_separate hp fun _ =>
    0
  rw [hrun] at hrun'
  cases hrun'
  exact absurd (hhole ⟨0, by decide, hno⟩) (by decide)

end ThuKernel
