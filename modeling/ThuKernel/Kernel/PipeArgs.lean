-- Pipe calls with bad arguments, over runs: which calls and which turns of them
-- stop the machine, and that every other one moves just the bytes that it counts.
import ThuKernel.Kernel.PipeEndRuns

namespace ThuKernel

variable {lk : Link} {E : Stop → Prop} {k k' : Kernel} {s s₀ : PipeSys} {p pi addr n w r size : Nat}

/-- The descriptor `fd` of process `p` is one of a pipe. -/
structure PipeAt (k : Kernel) (p : Nat) (fd : Int) (pi : Nat) : Prop where
  range : 3 ≤ fd ∧ fd < FD_MAX
  file : ∃ f, (k.pool p).files fd.toNat = some f ∧ (k.filepool f).type = .FD_PIPE ∧
    (k.filepool f).pipe = pi

/-! ## One turn, and the bytes that it needs -/

/-- The turn that `c` stands for copies `len` bytes at the address `va`. -/
inductive NextChunk (x : pipe) : PipeCall → (va len : Nat) → Prop
  | write (pi addr n w : Nat) (hw : w < n) (hopen : x.readopen = true)
      (hroom : x.nwrite ≠ (x.nread + PIPESIZE) % 2 ^ 32) :
      NextChunk x (.write pi addr n w) (addr + w) (writeSize x n w)
  | read (pi addr n r size : Nat) (hr : r < n) (hsize : size ≠ 0) (hsome : x.nread ≠ x.nwrite) :
      NextChunk x (.read pi addr n r size) (addr + r) (readSize x n r)

/-- All bytes that the next turn of process `p` copies are mapped. -/
def PipeCall.Ready (c : PipeCall) (s : PipeSys) (p : Nat) : Prop :=
  ∀ va len, NextChunk (s.k.pipes c.page) c va len →
    ∀ u < len, Mapped s.k.mm.mem (s.k.pool p).pagetable (va + u)

/-- What a turn of process `p` has to do: it returns -1 or the number of bytes
that the call moved, it waits, or it moves the bytes that come next. -/
inductive TurnFine (s : PipeSys) (p : Nat) : PipeCall → Turn → Kernel → Prop
  | ret (c : PipeCall) (r : Int) (k' : Kernel) (hr : r = -1 ∨ r = (s.moved p).length)
      (hsame : k'.pipes = s.k.pipes ∧ k'.mm = s.k.mm) : TurnFine s p c (.ret r) k'
  | yield (c : PipeCall) (k' : Kernel) (hsame : k'.pipes = s.k.pipes ∧ k'.mm = s.k.mm) :
      TurnFine s p c (.yield c) k'
  | start (pi addr n size : Nat) (k' : Kernel) (hsame : k'.pipes = s.k.pipes ∧ k'.mm = s.k.mm) :
      TurnFine s p (.wait pi addr n) (.next (.read pi addr n 0 size)) k'
  | write (pi addr n w : Nat) (l : List Byte) (k' : Kernel) (hw : w = (s.moved p).length ∧
      w + l.length ≤ n)
      (hbytes : l = userBytes s.k.mm.mem (s.k.pool p).pagetable (addr + w) l.length)
      (hdata : (k'.pipes pi).contents = (s.k.pipes pi).contents ++ l)
      (hcount : (k'.pipes pi).nwrite = ((s.k.pipes pi).nwrite + l.length) % 2 ^ 32 ∧
        (k'.pipes pi).nread = (s.k.pipes pi).nread)
      (hrest : ∀ pi', pi' ≠ pi → k'.pipes pi' = s.k.pipes pi') (hmm : k'.mm = s.k.mm) :
      TurnFine s p (.write pi addr n w) (.next (.write pi addr n (w + l.length))) k'
  | read (pi addr n r size : Nat) (l : List Byte) (k' : Kernel) (hr : r = (s.moved p).length ∧
      r + l.length ≤ n)
      (hbytes : userBytes k'.mm.mem (s.k.pool p).pagetable (addr + r) l.length = l)
      (hdata : (s.k.pipes pi).contents = l ++ (k'.pipes pi).contents)
      (hcount : (k'.pipes pi).nread = ((s.k.pipes pi).nread + l.length) % 2 ^ 32 ∧
        (k'.pipes pi).nwrite = (s.k.pipes pi).nwrite)
      (hrest : ∀ pi', pi' ≠ pi → k'.pipes pi' = s.k.pipes pi') :
      TurnFine s p (.read pi addr n r size) (.next (.read pi addr n (r + l.length) l.length)) k'

/-! ## The turns of the loops -/

/-- A turn of `pipewrite` stops just when a byte that it copies is not mapped. -/
theorem pipewriteTurn_exact (hs : PipesOk s) (hc : s.calls p = some (.write pi addr n w)) :
    Runs (fun _ => ¬ (PipeCall.write pi addr n w).Ready s p) (pipewriteTurn pi addr n w)
    (s.k.switch p)
      (fun t k' => (PipeCall.write pi addr n w).Ready s p ∧
      TurnFine s p (.write pi addr n w) t k') := by
  obtain ⟨hmoved, hwn⟩ := hs.counted p _ hc
  have hok := hs.ok pi
  obtain ⟨h1, h2, h3⟩ := hok.writeSize_le (n := n) (w := w)
  unfold pipewriteTurn
  split
  · rename_i hw
    rw [Runs.bind_iff, runs_getPipe]
    change Runs _ (if (s.k.pipes pi).readopen = false then _ else _) (s.k.switch p) _
    split
    · rename_i hclosed
      refine ⟨fun va len hcopy => ?_, .ret _ _ _ (Or.inl rfl) ⟨rfl, rfl⟩⟩
      cases hcopy with
      | write _ _ _ _ _ hopen =>
        have hc : (s.k.pipes pi).readopen = true := hopen
        rw [hc] at hclosed
        cases hclosed
    · rename_i hopen
      split
      · rename_i hfull
        rw [runs_yield]
        refine ⟨fun va len hcopy => ?_, .yield _ _ ⟨rfl, rfl⟩⟩
        cases hcopy with
        | write _ _ _ _ _ _ hroom => exact absurd hfull hroom
      · rename_i hroom
        have hcopies : NextChunk (s.k.pipes pi) (.write pi addr n w) (addr + w)
            (writeSize (s.k.pipes pi) n w) :=
          .write pi addr n w hw (by simpa using hopen) hroom
        rw [Runs.bind_iff, runs_curr_proc, Runs.bind_iff, runs_onMm]
        refine (copyin_runs _ _ _).imp ?_
        rintro ⟨e, l⟩ m ⟨rfl, hin⟩
        rcases hin.result with ⟨he, hl⟩ | ⟨he, hl, hno⟩
        · dsimp only at he hl ⊢
          rw [if_neg (by omega), Runs.bind_iff, runs_setPipe, Runs.pure_iff, ← hl]
          rw [show writeSize (s.k.pipes pi) n w = l.length from hl.symm] at h1 h2 h3
          refine ⟨fun va len hcopy u hu => ?_, ?_⟩
          · cases hcopy with
            | write => exact hin.mapped u (hl.symm ▸ hu)
          · refine .write pi addr n w l _ ⟨hmoved.symm, by omega⟩ hin.bytes ?_ ?_
              (fun pi' hne => ?_) rfl
            · dsimp only
              rw [Function.update_self]
              exact (hok.put h2 h3).2
            · dsimp only
              rw [Function.update_self]
              exact ⟨rfl, rfl⟩
            · exact Function.update_of_ne hne _ _
        · dsimp only at he hl hno ⊢
          rw [if_pos (by omega)]
          exact fun hready => hno (hready _ _ hcopies _ hl)
  · rename_i hw
    refine ⟨fun va len hcopy => ?_, .ret _ _ _ (Or.inr (by rw [hmoved])) ⟨rfl, rfl⟩⟩
    cases hcopy with
    | write _ _ _ _ hlt => exact absurd hlt hw

theorem pipewaitTurn_fine :
    Runs E (pipewaitTurn pi addr n) (s.k.switch p) (TurnFine s p (.wait pi addr n)) := by
  apply (pipewaitTurn_runs n).imp
  rintro t k' ht
  cases ht with
  | empty => exact .yield _ _ ⟨rfl, rfl⟩
  | closed => exact .ret _ _ _ (Or.inl rfl) ⟨rfl, rfl⟩
  | copy => exact .start _ _ _ _ _ ⟨rfl, rfl⟩

/-- A turn of `piperead` stops just when a byte that it copies has no place. -/
theorem pipereadTurn_exact (hs : PipesOk s) (hc : s.calls p = some (.read pi addr n r size))
    (hsep : Separate s.k.mm.mem (s.k.pool p).pagetable) :
    Runs (fun _ => ¬ (PipeCall.read pi addr n r size).Ready s p) (pipereadTurn pi addr n r size)
    (s.k.switch p)
      (fun t k' => (PipeCall.read pi addr n r size).Ready s p ∧
      TurnFine s p (.read pi addr n r size) t k') := by
  obtain ⟨hmoved, hrn⟩ := hs.counted p _ hc
  have hok := hs.ok pi
  obtain ⟨h1, h2, h3⟩ := hok.readSize_le (n := n) (r := r)
  unfold pipereadTurn
  split
  · rename_i hr
    rw [Runs.bind_iff, runs_getPipe]
    change Runs _ (if (s.k.pipes pi).nread = (s.k.pipes pi).nwrite then _ else _) (s.k.switch p) _
    split
    · rename_i hempty
      refine ⟨fun va len hcopy => ?_, .ret _ _ _ (Or.inr (by rw [hmoved])) ⟨rfl, rfl⟩⟩
      cases hcopy with
      | read _ _ _ _ _ _ _ hsome => exact absurd hempty hsome
    · rename_i hsome
      have hcopies : NextChunk (s.k.pipes pi) (.read pi addr n r size) (addr + r)
          (readSize (s.k.pipes pi) n r) :=
        .read pi addr n r size hr.1 hr.2 hsome
      obtain ⟨h4, h5⟩ := hok.take h2 h3
      rw [Runs.bind_iff, runs_curr_proc, Runs.bind_iff, runs_onMm,
        show (s.k.switch p).pipes = s.k.pipes from rfl]
      generalize hl : (s.k.pipes pi).data.load ((s.k.pipes pi).nread % PIPESIZE)
        (readSize (s.k.pipes pi) n r) = l
      have hlen : readSize (s.k.pipes pi) n r = l.length := by rw [← hl, Bytes.length_load]
      rw [hl] at h5
      rw [hlen] at h1 h2 h4 h5 hcopies
      rw [hlen]
      have hshort : l.length ≤ 2 ^ 63 := by
        have := hok.used
        unfold PIPESIZE at this
        omega
      refine (copyout_separate hsep hshort).imp ?_
      rintro e m hout
      rcases hout.result with ⟨rfl, hmap⟩ | ⟨rfl, u, hu, hno⟩
      · rw [if_neg (by decide), Runs.bind_iff, runs_setPipe, Runs.pure_iff]
        refine ⟨fun va len hcopy u hu => ?_, ?_⟩
        · cases hcopy with
          | read =>
            have hu' : u < readSize (s.k.pipes pi) n r := hu
            exact hmap u (hlen ▸ hu')
        · refine .read pi addr n r size l _ ⟨hmoved.symm, by omega⟩ (hout.userBytes rfl) ?_ ?_
            fun pi' hne => ?_
          · dsimp only
            rw [Function.update_self]
            exact h5
          · dsimp only
            rw [Function.update_self]
            exact ⟨rfl, rfl⟩
          · exact Function.update_of_ne hne _ _
      · rw [if_pos (by decide)]
        exact fun hready => hno (hready _ _ hcopies u hu)
  · rename_i hr
    refine ⟨fun va len hcopy => ?_, .ret _ _ _ (Or.inr (by rw [hmoved])) ⟨rfl, rfl⟩⟩
    cases hcopy with
    | read _ _ _ _ _ hlt hsize => exact absurd ⟨hlt, hsize⟩ hr

/-! ## The calls and their turns -/

/-- What a process may do next with a pipe: start a call on one of its
descriptors, or take a turn of the call that it is in. -/
inductive PipeAttempt where
  | write (p : Nat) (fd : Int) (va len : Nat)
  | read (p : Nat) (str : Bytes) (fd : Int) (va len : Nat)
  | turn (p : Nat)

namespace PipeAttempt

def Enabled (s : PipeSys) : PipeAttempt → Prop
  | .write p fd _ _ => s.calls p = none ∧ ∃ pi, PipeAt s.k p fd pi
  | .read p _ fd _ _ => s.calls p = none ∧ ∃ pi, PipeAt s.k p fd pi
  | .turn p => (s.calls p).isSome

/-- The machine goes on: a call returns an error or starts with nothing moved,
and a turn does what it has to. -/
def Fine (s : PipeSys) : PipeAttempt → Prop
  | .write p fd va len => Runs (fun _ => False) (sys_write fd va len) (s.k.switch p) fun o k₁ =>
      (o = .ret (-1) ∧ k₁ = s.k.switch p) ∨ ∃ pi n, o = .pipewrite pi va n ∧
        Runs (fun _ => False) (pipewrite pi va n) k₁ fun c k' => c = .write pi va n.toNat 0 ∧
        k' = s.k.switch p
  | .read p str fd va len =>
    Runs (fun _ => False) (sys_read str fd va len) (s.k.switch p) fun o k₁ =>
      (o = .ret (-1) ∧ k₁ = s.k.switch p) ∨ ∃ pi n, o = .piperead pi va n ∧
        Runs (fun _ => False) (piperead pi va n) k₁ fun c k' => c = .wait pi va n.toNat ∧
        k' = s.k.switch p
  | .turn p => ∀ c, s.calls p = some c → Runs (fun _ =>
    False) c.turn (s.k.switch p) (TurnFine s p c)

/-- The length is positive as an `int`, and the bytes of the turn are mapped. -/
def Careful (s : PipeSys) : PipeAttempt → Prop
  | .write _ _ _ len => 0 < toInt len
  | .read _ _ _ _ len => 0 < toInt len
  | .turn p => ∀ c, s.calls p = some c → c.Ready s p

end PipeAttempt

theorem runs_fileAt_pipe {fd : Int} {Q : Nat → Kernel → Prop} (h : PipeAt k k.current_proc fd pi) :
    Runs E (fileAt fd) k Q ↔ ∃ f, (k.pool k.current_proc).files fd.toNat = some f ∧
    (k.filepool f).type = .FD_PIPE ∧
      (k.filepool f).pipe = pi ∧ Q f k := by
  obtain ⟨⟨h3, hmax⟩, f, hf, htype, hpipe⟩ := h
  unfold fileAt
  rw [if_pos ⟨by omega, hmax⟩, Runs.bind_iff, runs_curr_proc, hf]
  unfold deref
  rw [Runs.pure_iff]
  constructor
  · exact fun hQ => ⟨f, rfl, htype, hpipe, hQ⟩
  · rintro ⟨g, hg, _, _, hQ⟩
    rwa [Option.some.inj hg]

theorem runs_sys_write_pipe {fd : Int} {va len : Nat} {Q : Outcome → Kernel → Prop}
    (h : PipeAt k k.current_proc fd pi) : Runs E (sys_write fd va len) k Q ↔
    Q (.pipewrite pi va (toInt len)) k := by
  obtain ⟨h3, hmax⟩ := h.range
  have h16 : FD_MAX = 16 := rfl
  unfold sys_write
  rw [if_neg (by omega), if_neg (by omega), Runs.bind_iff, runs_fileAt_pipe h]
  constructor
  · rintro ⟨f, _, htype, hpipe, hQ⟩
    rw [Runs.bind_iff, runs_getFile, htype, hpipe] at hQ
    exact hQ
  · obtain ⟨f, hf, htype, hpipe⟩ := h.file
    intro hQ
    refine ⟨f, hf, htype, hpipe, ?_⟩
    rw [Runs.bind_iff, runs_getFile, htype, hpipe]
    exact hQ

theorem runs_sys_read_pipe {fd : Int} {str : Bytes} {va len : Nat} {Q : Outcome → Kernel → Prop}
    (h : PipeAt k k.current_proc fd pi) : Runs E (sys_read str fd va len) k Q ↔
    Q (.piperead pi va (toInt len)) k := by
  obtain ⟨h3, hmax⟩ := h.range
  unfold sys_read
  rw [if_neg (by omega), Runs.bind_iff, runs_fileAt_pipe h]
  constructor
  · rintro ⟨f, _, htype, hpipe, hQ⟩
    rw [Runs.bind_iff, runs_getFile, htype, hpipe] at hQ
    exact hQ
  · obtain ⟨f, hf, htype, hpipe⟩ := h.file
    intro hQ
    refine ⟨f, hf, htype, hpipe, ?_⟩
    rw [Runs.bind_iff, runs_getFile, htype, hpipe]
    exact hQ

/-- A turn does what it has to just when its bytes are mapped. -/
theorem turn_fine_iff (hs : PipesOk s) {c : PipeCall} (hc : s.calls p = some c)
    (hsep : Separate s.k.mm.mem (s.k.pool p).pagetable) :
    Runs (fun _ => False) c.turn (s.k.switch p) (TurnFine s p c) ↔ c.Ready s p := by
  have hexact : Runs (fun _ => ¬ c.Ready s p) c.turn (s.k.switch p) (fun t k' => c.Ready s p ∧
      TurnFine s p c t k') := by
    cases c with
    | write pi addr n w => exact pipewriteTurn_exact hs hc
    | read pi addr n r size => exact pipereadTurn_exact hs hc hsep
    | wait pi addr n =>
      refine pipewaitTurn_fine.imp fun t k' ht => ⟨fun va len hcopy => ?_, ht⟩
      cases hcopy
  constructor
  · intro hfine
    obtain ⟨_, _, _, _, hready, _⟩ := (hfine.and hexact).exists_ok fun e he => he.1
    exact hready
  · intro hready
    exact hexact.mono (fun _ he => he hready) fun _ _ h => h.2

/-- In every state that a run reaches, a call on a pipe starts just when its
length is positive as an `int`, and a turn of a call does what it has to just
when the bytes that it copies are mapped. Every other one stops the machine. -/
theorem a_pipe_call_goes_on_with_good_arguments (hstart : PipeStart s₀)
    (hrun : Relation.ReflTransGen (PipeStep lk) s₀ s)
    (hsep : ∀ p c, s.calls p = some c → Separate s.k.mm.mem (s.k.pool p).pagetable)
    (a : PipeAttempt) (ha : a.Enabled s) : a.Fine s ↔ a.Careful s := by
  have hs := PipesOk.run hstart hrun
  cases a with
  | write p fd va len =>
    obtain ⟨_, pi, hat⟩ := ha
    have hat' : PipeAt (s.k.switch p) (s.k.switch p).current_proc fd pi := ⟨hat.range, hat.file⟩
    unfold PipeAttempt.Fine PipeAttempt.Careful
    dsimp only
    rw [runs_sys_write_pipe hat']
    constructor
    · rintro (⟨hc, _⟩ | ⟨pi', n, heq, hruns⟩)
      · cases hc
      · cases heq
        by_contra hc
        unfold pipewrite at hruns
        rw [if_pos (by omega)] at hruns
        exact hruns
    · intro hpos
      refine Or.inr ⟨pi, toInt len, rfl, ?_⟩
      unfold pipewrite
      rw [if_neg (by omega), Runs.pure_iff]
      exact ⟨rfl, rfl⟩
  | read p str fd va len =>
    obtain ⟨_, pi, hat⟩ := ha
    have hat' : PipeAt (s.k.switch p) (s.k.switch p).current_proc fd pi := ⟨hat.range, hat.file⟩
    unfold PipeAttempt.Fine PipeAttempt.Careful
    dsimp only
    rw [runs_sys_read_pipe hat']
    constructor
    · rintro (⟨hc, _⟩ | ⟨pi', n, heq, hruns⟩)
      · cases hc
      · cases heq
        by_contra hc
        unfold piperead at hruns
        rw [if_pos (by omega)] at hruns
        exact hruns
    · intro hpos
      refine Or.inr ⟨pi, toInt len, rfl, ?_⟩
      unfold piperead
      rw [if_neg (by omega), Runs.pure_iff]
      exact ⟨rfl, rfl⟩
  | turn p =>
    constructor
    · exact fun hfine c hc => (turn_fine_iff hs hc (hsep p c hc)).mp (hfine c hc)
    · exact fun hcareful c hc => (turn_fine_iff hs hc (hsep p c hc)).mpr (hcareful c hc)

/-! ## A write of two bytes, and one of none -/

section Arguments

/-- A process is about to put two bytes of its page into a pipe. -/
def writingPipes : PipeSys := emptyPipes.entered (.write 0 0 2 0)

theorem writingPipes_ready : (PipeCall.write 0 0 2 0).Ready writingPipes 0 := by
  intro va len hcopy
  have hmapped : ∀ u < 2, Mapped writingPipes.k.mm.mem (writingPipes.k.pool 0).pagetable
      (0 + 0 + u) := by decide +kernel
  have hsize : writeSize (writingPipes.k.pipes 0) 2 0 = 2 := by decide
  cases hcopy with
  | write =>
    change ∀ u < writeSize (writingPipes.k.pipes 0) 2 0, _
    rw [hsize]
    exact hmapped

/-- The turn that copies them does what it has to. -/
theorem a_pipe_call_goes_on_with_good_arguments_of_two_bytes :
    (PipeAttempt.turn 0).Fine writingPipes := by
  have hrun : Relation.ReflTransGen (PipeStep noLink) emptyPipes writingPipes :=
    .single (.enterWrite 0 0 0 2 _ rfl rfl)
  have hsep : Separate (onePage [104, 105]) 0x1000 := separate_onePage (by decide)
  have hready : (PipeAttempt.turn 0).Careful writingPipes := by
    rintro c ⟨⟩
    exact writingPipes_ready
  exact (a_pipe_call_goes_on_with_good_arguments emptyPipes_start hrun (fun _ _ _ => hsep) (.turn 0)
    rfl).mpr hready

/-- The descriptor 3 of a process is a pipe. -/
def pipeAtThree : PipeSys :=
  { emptyPipes with
    k := { emptyPipes.k with
      filepool := fun _ => ⟨.FD_PIPE, 1, false, true, 0, none, 0⟩
      pool := fun i =>
        { emptyPipes.k.pool i with files := fun fd => if fd = 3 then some 0 else none } } }

theorem pipeAtThree_start : PipeStart pipeAtThree :=
  ⟨fun _ => rfl, fun _ => ⟨rfl, rfl⟩, fun _ => rfl, fun _ => rfl⟩

/-- Its process writes no byte to it. -/
theorem a_write_of_nothing_stops_the_machine : ¬ ∀ (lk : Link) (s₀ s : PipeSys), PipeStart s₀ →
    Relation.ReflTransGen (PipeStep lk) s₀ s →
    (∀ p c, s.calls p = some c → Separate s.k.mm.mem (s.k.pool p).pagetable) →
    ∀ a : PipeAttempt, a.Enabled s → a.Fine s := by
  intro hall
  have hat : PipeAt pipeAtThree.k 0 3 0 := ⟨by decide, 0, rfl, rfl, rfl⟩
  have hfine := hall noLink _ _ pipeAtThree_start .refl (fun _ _ hc => by cases hc) (.write 0 3 0 0)
    ⟨rfl, 0, hat⟩
  unfold PipeAttempt.Fine at hfine
  dsimp only at hfine
  have hat' : PipeAt (pipeAtThree.k.switch 0) (pipeAtThree.k.switch 0).current_proc 3 0 :=
    ⟨hat.range, hat.file⟩
  rw [runs_sys_write_pipe hat'] at hfine
  rcases hfine with ⟨hc, _⟩ | ⟨pi, n, heq, hruns⟩
  · cases hc
  · cases heq
    exact hruns

end Arguments

end ThuKernel
