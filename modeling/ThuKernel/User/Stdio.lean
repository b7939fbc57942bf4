-- The standard output of user programs (lib/stdio.c): a buffer of 256 bytes in
-- the memory of the process, which the kernel prints 200 bytes of at a time.
import ThuKernel.Kernel.Ownership
import ThuKernel.Vm.CopyStr

namespace ThuKernel

def LINE_WIDTH : Nat := 256

/-- The character `'\n'`. -/
def newline : Byte := 10

/-- The kernel with the memory of the process, `buffer_len`, and what the
console has printed. The buffer itself is in the memory. -/
structure Stdio where
  k : Kernel
  buffer_len : Nat
  console : List Byte

/-- The page table of the process. -/
def Stdio.root (s : Stdio) : Nat := (s.k.pool s.k.current_proc).pagetable

namespace Stdio

def onKernel {α : Type} (f : Prog Kernel α) : Prog Stdio α :=
  Prog.on Stdio.k (fun k s => { s with k := k }) f

/-- A store of the program. -/
def storeByte (va : Nat) (c : Byte) : Prog Stdio Unit := do
  let s ← get
  if Mapped s.k.mm.mem s.root va then
    set { s with
      k := { s.k with
        mm := { s.k.mm with mem := s.k.mm.mem.store (userAddr s.k.mm.mem s.root va) [c] } } }
  else Prog.fault "page fault"

/-- What `console_write` passes to `console_putchar`. -/
def console_chars (va len : Nat) : Prog Kernel (List Byte) := do
  let p ← curr_proc
  let (size, str) ← onMm (copyinstr p.pagetable va (min len PATH_SIZE))
  pure (str.take size.toNat)

/-- `write(stdout, va, len)`, which is `console_write` in the kernel. -/
def write (va len : Nat) : Prog Stdio Int := do
  let chars ← onKernel (console_chars va len)
  let r ← onKernel (console_write va len)
  modify fun s => { s with console := s.console ++ chars }
  pure r

def write_buffer (buffer : Nat) : Prog Stdio Int := do
  let s ← get
  if s.buffer_len = 0 then pure 0
  else write buffer s.buffer_len

def clear_buffer : Prog Stdio Unit := modify fun s => { s with buffer_len := 0 }

/-- `fflush(1)`. -/
def fflush (buffer : Nat) : Prog Stdio Int := do
  let r ← write_buffer buffer
  clear_buffer
  pure (if 0 ≤ r then 0 else r)

/-- The loop of `out(stdout, s, l)`, with `ret` characters printed so far. -/
def outLoop (buffer : Nat) : List Byte → (ret : Int) → Prog Stdio Int
  | [], ret => pure ret
  | c :: s, ret => do
    let t ← get
    storeByte (buffer + t.buffer_len) c
    modify fun t => { t with buffer_len := t.buffer_len + 1 }
    let t ← get
    if t.buffer_len = LINE_WIDTH ∨ c = newline then do
      let r ← write_buffer buffer
      clear_buffer
      if r < 0 then pure r
      else do
        -- The buffer was cleared: no count is below its length.
        let t ← get
        if r < t.buffer_len then pure (ret + r) else outLoop buffer s (ret + r)
    else outLoop buffer s ret

def out (buffer : Nat) (s : List Byte) : Prog Stdio Int := outLoop buffer s 0

/-- What a program does last: `fflush(1)`, or `exit` up to its system call. -/
inductive Finish where
  | fflush
  | exit

def Finish.run (buffer : Nat) : Finish → Prog Stdio Unit
  | .fflush => do
    let _ ← Stdio.fflush buffer
  | .exit => do
    let _ ← write_buffer buffer
    clear_buffer

/-- The calls of `out`, one after the other, and the end. -/
def session (buffer : Nat) (finish : Finish) : List (List Byte) → Prog Stdio Unit
  | [] => finish.run buffer
  | s :: calls => do
    let _ ← out buffer s
    session buffer finish calls

/-! ## What is printed -/

/-- What is printed of `s`, and what stays in a buffer that starts as `p`. -/
def feed : (p s : List Byte) → List Byte × List Byte
  | p, [] => ([], p)
  | p, c :: s =>
    if p.length + 1 = LINE_WIDTH ∨ c = newline then
      ((p ++ [c]).take PATH_SIZE ++ (feed [] s).1, (feed [] s).2)
    else feed (p ++ [c]) s

/-- What is printed in the end. -/
def printed (p s : List Byte) : List Byte := (feed p s).1 ++ (feed p s).2.take PATH_SIZE

/-- Every line has at most 200 bytes with its end, when `n` bytes of the first
one came before. -/
def LinesFit : (n : Nat) → List Byte → Prop
  | _, [] => True
  | n, c :: s => n + 1 ≤ PATH_SIZE ∧ LinesFit (if c = newline then 0 else n + 1) s

instance decidableLinesFit : (n : Nat) → (l : List Byte) → Decidable (LinesFit n l)
  | _, [] => isTrue trivial
  | n, c :: s =>
    have := decidableLinesFit (if c = newline then 0 else n + 1) s
    inferInstanceAs (Decidable (n + 1 ≤ PATH_SIZE ∧ LinesFit (if c = newline then 0 else n + 1) s))

theorem feed_cons (p s : List Byte) (c : Byte) : feed p (c :: s) =
    if p.length + 1 = LINE_WIDTH ∨ c = newline then
      ((p ++ [c]).take PATH_SIZE ++ (feed [] s).1, (feed [] s).2)
    else feed (p ++ [c]) s := rfl

theorem feed_append (p s t : List Byte) :
    feed p (s ++ t) = ((feed p s).1 ++ (feed (feed p s).2 t).1, (feed (feed p s).2 t).2) := by
  induction s generalizing p with
  | nil => simp [feed]
  | cons c s ih =>
    rw [List.cons_append, feed_cons, feed_cons]
    split
    · rw [ih, List.append_assoc]
    · exact ih _

/-- Nothing is printed that was not written. -/
theorem length_printed_le (p s : List Byte) : (printed p s).length ≤ p.length + s.length := by
  unfold printed
  induction s generalizing p with
  | nil =>
    simp only [feed, List.nil_append, List.length_take, List.length_nil]
    omega
  | cons c s ih =>
    unfold feed
    split
    · have := ih []
      simp only [List.length_append, List.length_take, List.length_cons, List.length_nil] at this ⊢
      omega
    · have := ih (p ++ [c])
      simp only [List.length_append, List.length_cons, List.length_nil] at this ⊢
      omega

/-- All is printed just when every line fits. -/
theorem printed_eq_iff (p s : List Byte) :
    printed p s = p ++ s ↔ p.length ≤ PATH_SIZE ∧ LinesFit p.length s := by
  induction s generalizing p with
  | nil =>
    unfold printed feed LinesFit
    rw [List.nil_append, List.append_nil, and_true]
    constructor
    · intro heq
      have := congrArg List.length heq
      rw [List.length_take] at this
      omega
    · exact List.take_of_length_le
  | cons c s ih =>
    unfold LinesFit
    by_cases hflush : p.length + 1 = LINE_WIDTH ∨ c = newline
    · have hprinted : printed p (c :: s) = (p ++ [c]).take PATH_SIZE ++ printed [] s := by
        unfold printed
        rw [feed, if_pos hflush, List.append_assoc]
      have hlen : (p ++ [c]).length = p.length + 1 := by simp
      rw [hprinted, show p ++ c :: s = (p ++ [c]) ++ s by simp]
      constructor
      · intro heq
        -- Both parts are as long as they can be.
        have h1 := length_printed_le [] s
        have h2 := congrArg List.length heq
        simp only [List.length_append, List.length_take, hlen, List.length_nil] at h1 h2
        have hfits : p.length + 1 ≤ PATH_SIZE := by omega
        rw [List.take_of_length_le (by omega)] at heq
        have hrest := (ih []).mp (List.append_cancel_left heq)
        have hc : c = newline := by
          rcases hflush with hc | hc
          · unfold LINE_WIDTH PATH_SIZE at *
            omega
          · exact hc
        rw [if_pos hc]
        exact ⟨by omega, hfits, hrest.2⟩
      · rintro ⟨_, hfits, hrest⟩
        have hc : c = newline := by
          rcases hflush with hc | hc
          · unfold LINE_WIDTH PATH_SIZE at *
            omega
          · exact hc
        rw [if_pos hc] at hrest
        rw [List.take_of_length_le (by omega), (ih []).mpr ⟨Nat.zero_le _, hrest⟩]
        rfl
    · have hprinted : printed p (c :: s) = printed (p ++ [c]) s := by
        unfold printed
        rw [feed, if_neg hflush]
      rw [hprinted, show p ++ c :: s = (p ++ [c]) ++ s by simp, ih, if_neg (fun hc =>
        hflush (Or.inr hc))]
      simp only [List.length_append, List.length_cons, List.length_nil]
      constructor
      · rintro ⟨h1, h2⟩
        exact ⟨by omega, h1, h2⟩
      · rintro ⟨_, h1, h2⟩
        exact ⟨h1, h2⟩

/-! ## The buffer in memory -/

/-- The buffer at `buffer` is on pages of the process, which hold no table, and
has the bytes `p`. -/
structure Buffered (buffer : Nat) (p : List Byte) (s : Stdio) : Prop where
  separate : Separate s.k.mm.mem s.root
  mapped : ∀ i < LINE_WIDTH, Mapped s.k.mm.mem s.root (buffer + i)
  bytes : userBytes s.k.mm.mem s.root buffer p.length = p
  nonzero : ∀ c ∈ p, c ≠ 0
  len : s.buffer_len = p.length
  room : p.length < LINE_WIDTH

variable {E : Stop → Prop} {buffer : Nat} {p : List Byte} {s : Stdio} {c : Byte}

theorem runs_onKernel {α : Type} {f : Prog Kernel α} {Q : α → Stdio → Prop} :
    Runs E (onKernel f) s Q ↔ Runs E f s.k (fun a k => Q a { s with k := k }) := Runs.on_iff

/-- One more byte in the buffer. -/
theorem storeByte_runs (h : Buffered buffer p s) :
    Runs E (storeByte (buffer + p.length) c) s (fun _ s' => s'.console = s.console ∧
      s'.buffer_len = p.length ∧
      Separate s'.k.mm.mem s'.root ∧ (∀ i < LINE_WIDTH, Mapped s'.k.mm.mem s'.root (buffer + i)) ∧
      userBytes s'.k.mm.mem s'.root buffer (p.length + 1) = p ++ [c]) := by
  have hmapped := h.mapped p.length h.room
  unfold storeByte
  rw [Runs.bind_iff, Runs.get_iff, if_pos hmapped, Runs.set_iff]
  have haddr : userAddr s.k.mm.mem s.root (buffer + p.length) =
      userPage s.k.mm.mem s.root (PGROUNDDOWN ((buffer + p.length) % 2 ^ 64)) +
      (buffer + p.length) % PGSIZE := rfl
  have hpage := isPage_userPage s.k.mm.mem s.root (PGROUNDDOWN ((buffer + p.length) % 2 ^ 64))
  obtain ⟨hsep, hpages⟩ :=
    h.separate.write hmapped (SameOn.store (o := (buffer + p.length) % PGSIZE) (l := [c])
    hpage.aligned (Nat.mod_lt _ (by decide)))
  rw [← haddr] at hsep hpages
  have haddrs : ∀ a, userAddr (s.k.mm.mem.store (userAddr s.k.mm.mem s.root (buffer + p.length))
      [c]) s.root a =
      userAddr s.k.mm.mem s.root a := by
    intro a
    exact congrArg (· + a % PGSIZE) (hpages _)
  refine ⟨rfl, h.len, hsep, fun i hi => ?_, ?_⟩
  · have := h.mapped i hi
    unfold Mapped at this ⊢
    dsimp only [root] at this hpages ⊢
    rwa [hpages]
  · change userBytes (s.k.mm.mem.store (userAddr s.k.mm.mem s.root (buffer + p.length)) [c])
      s.root buffer (p.length + 1) = p ++ [c]
    rw [userBytes_add]
    congr 1
    · refine Eq.trans ?_ h.bytes
      unfold userBytes
      apply List.map_congr_left
      intro i hi
      have hi := List.mem_range.mp hi
      have hroom := h.room
      rw [haddrs]
      apply Bytes.store_outside
      have hne : userAddr s.k.mm.mem s.root (buffer + i) ≠
          userAddr s.k.mm.mem s.root (buffer + p.length) := by
        intro hc
        have := h.separate.userAddr_inj (h.mapped i (by omega)) hc
        unfold LINE_WIDTH at hroom
        omega
      rw [List.length_singleton]
      omega
    · unfold userBytes
      simp only [List.range_one, List.map_cons, List.map_nil, Nat.add_zero]
      rw [haddrs, Bytes.store_inside (Nat.le_refl _) (by simp)]
      simp

/-- A string of mapped bytes without a NUL is copied up to its `max` bytes. -/
theorem copyinstr_full {root va max : Nat} {m : Mm}
    (hmapped : ∀ u < max, Mapped m.mem root (va + u))
    (hno : NoNul m.mem root va max) : Runs E (copyinstr root va max) m (fun r m' => m' = m ∧
      r = (((max : Nat) : Int), userBytes m.mem root va max)) := by
  apply (copyinstr_copies root va max).imp
  rintro r m' ⟨rfl, hbytes, _, hend⟩
  refine ⟨rfl, ?_⟩
  rcases hend with ⟨n, hn, _, _, _, hzero⟩ | ⟨hr, hlen, _⟩ | ⟨_, hlt, _, hun⟩
  · exact absurd hzero (hno n hn)
  · rw [hlen] at hbytes
    rw [Nat.zero_add] at hr
    exact Prod.ext hr hbytes
  · exact absurd (hmapped _ hlt) hun

/-- A part of the buffer has no NUL. -/
theorem Buffered.noNul {n : Nat} {mem : Bytes} {root : Nat}
    (hbytes : userBytes mem root buffer p.length = p) (hnonzero : ∀ c ∈ p, c ≠ 0)
    (hn : n ≤ p.length) : NoNul mem root buffer n := by
  intro u hu
  apply hnonzero
  rw [← hbytes]
  exact List.mem_map.mpr ⟨u, List.mem_range.mpr (by omega), rfl⟩

theorem take_userBytes {mem : Bytes} {root n m : Nat} :
    (userBytes mem root buffer n).take m = userBytes mem root buffer (min m n) := by
  unfold userBytes
  rw [← List.map_take, List.take_range]

/-- What the process has in its buffer when it writes it. -/
structure Full (buffer : Nat) (p : List Byte) (s : Stdio) : Prop where
  mapped : ∀ i < LINE_WIDTH, Mapped s.k.mm.mem s.root (buffer + i)
  bytes : userBytes s.k.mm.mem s.root buffer p.length = p
  nonzero : ∀ c ∈ p, c ≠ 0
  len : s.buffer_len = p.length
  room : p.length ≤ LINE_WIDTH

theorem Buffered.full (h : Buffered buffer p s) : Full buffer p s :=
  ⟨h.mapped, h.bytes, h.nonzero, h.len, h.room.le⟩

/-- The kernel prints the first 200 bytes of the buffer, and says so. -/
theorem write_buffer_runs (h : Full buffer p s) : Runs E (write_buffer buffer) s (fun r s' =>
    0 ≤ r ∧ s' = { s with console := s.console ++ p.take PATH_SIZE }) := by
  unfold write_buffer
  rw [Runs.bind_iff, Runs.get_iff]
  split
  · rename_i hzero
    rw [h.len] at hzero
    rw [List.length_eq_zero_iff.mp hzero, Runs.pure_iff, List.take_nil, List.append_nil]
    exact ⟨le_refl 0, rfl⟩
  · have hmin : min s.buffer_len PATH_SIZE ≤ p.length := by
      rw [h.len]
      omega
    have hroom := h.room
    have hcopy : ∀ {E' : Stop → Prop},
        Runs E' (copyinstr s.root buffer (min s.buffer_len PATH_SIZE)) s.k.mm
        (fun r m' => m' = s.k.mm ∧ r = (((min s.buffer_len PATH_SIZE : Nat) : Int),
        p.take PATH_SIZE)) := by
      intro E'
      apply (copyinstr_full (fun u hu => h.mapped u (by omega))
        (Buffered.noNul h.bytes h.nonzero hmin)).imp
      rintro r m' ⟨rfl, rfl⟩
      refine ⟨rfl, ?_⟩
      have htake := @take_userBytes buffer s.k.mm.mem s.root p.length PATH_SIZE
      rw [h.bytes] at htake
      rw [htake, h.len, Nat.min_comm PATH_SIZE]
    have hlen : (p.take PATH_SIZE).length = min s.buffer_len PATH_SIZE := by
      rw [List.length_take, h.len, Nat.min_comm]
    have hall : (p.take PATH_SIZE).take (min s.buffer_len PATH_SIZE) = p.take PATH_SIZE :=
      List.take_of_length_le hlen.le
    unfold write console_chars console_write
    rw [Runs.bind_iff, runs_onKernel, Runs.bind_iff, runs_curr_proc, Runs.bind_iff, runs_onMm]
    apply hcopy.imp
    rintro _ _ ⟨rfl, rfl⟩
    rw [Runs.pure_iff, Runs.bind_iff, runs_onKernel, Runs.bind_iff, runs_curr_proc,
      Runs.bind_iff, runs_onMm]
    apply hcopy.imp
    rintro _ _ ⟨rfl, rfl⟩
    dsimp only
    rw [Runs.pure_iff, Runs.bind_iff, Runs.modify_iff, Runs.pure_iff, Int.toNat_natCast, hall]
    exact ⟨Int.natCast_nonneg _, rfl⟩

/-- The loop of `out` prints what `feed` says. -/
theorem outLoop_runs (h : Buffered buffer p s) {str : List Byte} (hstr : ∀ c ∈ str, c ≠ 0)
    (ret : Int) :
    Runs E (outLoop buffer str ret) s (fun _ s' => Buffered buffer (feed p str).2 s' ∧
      s'.console = s.console ++ (feed p str).1) := by
  induction str generalizing p s ret with
  | nil =>
    refine ⟨h, ?_⟩
    unfold feed
    rw [List.append_nil]
  | cons c str ih =>
    have hlen : (p ++ [c]).length = p.length + 1 := by simp
    have hroom := h.room
    have hnonzero : ∀ b ∈ p ++ [c], b ≠ 0 := by
      intro b hb
      rcases List.mem_append.mp hb with hb | hb
      · exact h.nonzero b hb
      · rw [List.mem_singleton.mp hb]
        exact hstr c (List.mem_cons_self ..)
    unfold outLoop
    rw [Runs.bind_iff, Runs.get_iff, h.len]
    apply (storeByte_runs h).bind
    rintro _ s₁ ⟨hconsole₁, hlen₁, hsep₁, hmapped₁, hbytes₁⟩
    rw [Runs.bind_iff, Runs.modify_iff, Runs.bind_iff, Runs.get_iff]
    dsimp only
    rw [hlen₁]
    have hfull : Full buffer (p ++ [c]) { s₁ with buffer_len := p.length + 1 } :=
      ⟨hmapped₁, by rw [hlen]; exact hbytes₁, hnonzero, hlen.symm, by rw [hlen]; exact hroom⟩
    unfold feed
    split
    · apply (write_buffer_runs hfull).bind
      rintro r s₂ ⟨hr, rfl⟩
      unfold clear_buffer
      rw [Runs.bind_iff, Runs.modify_iff, if_neg (by omega), Runs.bind_iff, Runs.get_iff]
      dsimp only
      rw [if_neg (by omega)]
      have hempty : Buffered buffer []
          { s₁ with buffer_len := 0, console := s₁.console ++ (p ++ [c]).take PATH_SIZE } :=
        ⟨hsep₁, hmapped₁, rfl, fun b hb => absurd hb List.not_mem_nil, rfl, by decide⟩
      apply (ih hempty (fun b hb => hstr b (List.mem_cons_of_mem _ hb)) _).imp
      rintro _ s' ⟨h', hconsole'⟩
      refine ⟨h', ?_⟩
      rw [hconsole', hconsole₁, List.append_assoc]
    · rename_i hno
      have hmore : Buffered buffer (p ++ [c]) { s₁ with buffer_len := p.length + 1 } := by
        refine ⟨hsep₁, hmapped₁, hfull.bytes, hnonzero, hlen.symm, ?_⟩
        rw [hlen]
        exact lt_of_le_of_ne hroom fun hc => hno (Or.inl hc)
      apply (ih hmore (fun b hb => hstr b (List.mem_cons_of_mem _ hb)) ret).imp
      rintro _ s' ⟨h', hconsole'⟩
      exact ⟨h', by rw [hconsole', hconsole₁]⟩

theorem finish_runs (h : Buffered buffer p s) (finish : Finish) :
    Runs E (finish.run buffer) s (fun _ s' => s'.console = s.console ++ p.take PATH_SIZE) := by
  cases finish with
  | fflush =>
    unfold Finish.run fflush
    rw [Runs.bind_iff]
    apply (write_buffer_runs h.full).bind
    rintro r s₁ ⟨_, rfl⟩
    exact rfl
  | exit =>
    unfold Finish.run
    apply (write_buffer_runs h.full).bind
    rintro r s₁ ⟨_, rfl⟩
    exact rfl

theorem session_runs (h : Buffered buffer p s) (finish : Finish) {calls : List (List Byte)}
    (hcalls : ∀ str ∈ calls, ∀ c ∈ str, c ≠ 0) : Runs E (session buffer finish calls) s (fun _ s' =>
      s'.console = s.console ++ printed p calls.flatten) := by
  induction calls generalizing p s with
  | nil => exact finish_runs h finish
  | cons str calls ih =>
    unfold session out
    apply (outLoop_runs h (hcalls str (List.mem_cons_self ..)) 0).bind
    rintro _ s₁ ⟨h₁, hconsole₁⟩
    apply (ih h₁ fun t ht => hcalls t (List.mem_cons_of_mem _ ht)).imp
    intro _ s' hconsole'
    rw [hconsole', hconsole₁]
    unfold printed
    rw [List.flatten_cons, feed_append, List.append_assoc, List.append_assoc]

/-- What a program writes to its standard output is printed, all of it and in
order, just when no line of it has more than 200 bytes. -/
theorem output_is_printed_when_its_lines_fit (h : Buffered buffer [] s) (finish : Finish)
    {calls : List (List Byte)} (hcalls : ∀ str ∈ calls, ∀ c ∈ str, c ≠ 0) :
    Runs (fun _ => False) (session buffer finish calls) s
        (fun _ s' => s'.console = s.console ++ calls.flatten) ↔ LinesFit 0 calls.flatten := by
  have hrun := session_runs (E := fun _ => False) h finish hcalls
  have hiff := printed_eq_iff [] calls.flatten
  rw [List.nil_append, List.length_nil, and_iff_right (Nat.zero_le _)] at hiff
  rw [← show _ ↔ LinesFit 0 calls.flatten from hiff]
  constructor
  · intro hprints
    obtain ⟨_, s', hok, hconsole⟩ := (hrun.and hprints).exists_ok fun e he => he.1
    rw [hconsole.1] at hconsole
    exact List.append_cancel_left hconsole.2
  · intro heq
    rwa [heq] at hrun

/-! ## A line of 201 bytes -/

section LongLine

/-- A process that was just loaded, with its buffer at address 0. -/
theorem loaded_buffered : ∃ mm root sz, Buffered 0 [] ⟨forkKernel mm root sz, 0, []⟩ := by
  obtain ⟨mm, root, sz, l, hs, hloaded, _⟩ := onePageApp_loaded
  have hframe : IsFrame pageLink 0x1000 := ⟨by decide, by decide, by decide⟩
  refine ⟨mm, root, sz, (hs.space root rfl).separate (hloaded.userFrames hframe),
    fun i hi => ?_, rfl, fun c hc => absurd hc List.not_mem_nil, rfl, by decide⟩
  apply hloaded.mapped (by rw [MAXVA_eq]; decide)
  unfold LINE_WIDTH at hi
  rw [PGSIZE_eq]
  omega

/-- Two calls that make a line of 200 bytes. -/
theorem output_is_printed_when_its_lines_fit_200 : ∃ s : Stdio, Runs (fun _ => False)
    (session 0 .fflush [List.replicate 100 65, List.replicate 99 65 ++ [newline]]) s (fun _ s' =>
      s'.console = s.console ++ (List.replicate 100 65 ++
        (List.replicate 99 65 ++ [newline]))) := by
  obtain ⟨mm, root, sz, h⟩ := loaded_buffered
  have hcalls : ∀ str ∈ [List.replicate 100 (65 : Byte), List.replicate 99 65 ++ [newline]],
      ∀ c ∈ str, c ≠ 0 := by
    simp [newline]
  have hiff := output_is_printed_when_its_lines_fit h .fflush hcalls
  simp only [List.flatten_cons, List.flatten_nil, List.append_nil] at hiff
  exact ⟨_, hiff.mpr (by decide +kernel)⟩

/-- Of a line of 201 bytes, the last one is lost. -/
theorem a_long_line_is_cut :
    ¬ ∀ (buffer : Nat) (s : Stdio) (finish : Finish) (calls : List (List Byte)),
    Buffered buffer [] s → (∀ str ∈ calls, ∀ c ∈ str, c ≠ 0) →
    Runs (fun _ => False) (session buffer finish calls) s (fun _ s' =>
      s'.console = s.console ++ calls.flatten) := by
  intro hall
  obtain ⟨mm, root, sz, h⟩ := loaded_buffered
  have hcalls : ∀ str ∈ [List.replicate 201 (65 : Byte)], ∀ c ∈ str, c ≠ 0 := by
    intro str hstr c hc
    rw [List.mem_singleton.mp hstr] at hc
    rw [List.eq_of_mem_replicate hc]
    decide
  obtain ⟨_, _, _, hprinted, hconsole⟩ :=
    ((session_runs (E := fun _ => False) h .fflush hcalls).and
      (hall 0 _ .fflush _ h hcalls)).exists_ok fun e he => he.1
  rw [hprinted] at hconsole
  have hfit := ((printed_eq_iff [] _).mp (List.append_cancel_left hconsole)).2
  exact absurd hfit (by decide +kernel)

end LongLine

end Stdio

end ThuKernel
