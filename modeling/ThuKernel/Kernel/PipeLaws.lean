-- Pipes over runs: any number of processes in the loops of pipe.c, a turn of
-- any of them at a time. A pipe is a bounded queue of bytes.
import ThuKernel.Kernel.Pipe
import ThuKernel.Kernel.CallRules
import ThuKernel.Lib.Fifo
import ThuKernel.Vm.CopyLaws
import Mathlib.Logic.Relation

namespace ThuKernel

/-! ## One pipe -/

/-- What is in a pipe, oldest first. -/
def pipe.contents (x : pipe) : List Byte :=
  Fifo.contents PIPESIZE (2 ^ 32) x.data x.nread x.nwrite

/-- `nwrite - nread`, on 32-bit numbers. -/
def pipe.used (x : pipe) : Nat := Fifo.used (2 ^ 32) x.nread x.nwrite

structure PipeOk (x : pipe) : Prop where
  nread : x.nread < 2 ^ 32
  nwrite : x.nwrite < 2 ^ 32
  used : x.used ≤ PIPESIZE

variable {x : pipe} {n w r size : Nat}

theorem PipeOk.empty_iff (hx : PipeOk x) : x.nread = x.nwrite ↔ x.used = 0 :=
  (Fifo.used_eq_zero hx.nread hx.nwrite).symm

/-- A chunk of a write fits into the pipe and up to the end of the ring. -/
theorem PipeOk.writeSize_le (hx : PipeOk x) :
    writeSize x n w ≤ n - w ∧ x.used + writeSize x n w ≤ PIPESIZE ∧
      x.nwrite % PIPESIZE + writeSize x n w ≤ PIPESIZE := by
  obtain ⟨h1, h2, h3⟩ := hx
  unfold writeSize pipe.used Fifo.used PIPESIZE at *
  omega

/-- A chunk of a read is in the pipe and before the end of the ring. -/
theorem PipeOk.readSize_le (hx : PipeOk x) :
    readSize x n r ≤ n - r ∧ readSize x n r ≤ x.used ∧
      x.nread % PIPESIZE + readSize x n r ≤ PIPESIZE := by
  obtain ⟨h1, h2, h3⟩ := hx
  unfold readSize pipe.used Fifo.used PIPESIZE at *
  omega

/-- The pipe after bytes went in at the write counter. -/
def pipe.put (x : pipe) (l : List Byte) : pipe :=
  { x with data := x.data.store (x.nwrite % PIPESIZE) l, nwrite := (x.nwrite + l.length) % 2 ^ 32 }

/-- The pipe after bytes came out at the read counter. -/
def pipe.take (x : pipe) (size : Nat) : pipe := { x with nread := (x.nread + size) % 2 ^ 32 }

theorem PipeOk.put (hx : PipeOk x) {l : List Byte} (hroom : x.used + l.length ≤ PIPESIZE)
    (hend : x.nwrite % PIPESIZE + l.length ≤ PIPESIZE) :
    PipeOk (x.put l) ∧ (x.put l).contents = x.contents ++ l := by
  refine ⟨⟨hx.nread, Nat.mod_lt _ (by omega), ?_⟩, ?_⟩
  · have hused := Fifo.used_put (n := l.length) hx.nread hx.nwrite (by
      unfold pipe.used PIPESIZE at hroom
      omega)
    exact hused.trans_le hroom
  · exact Fifo.contents_put (by decide) hx.nread hx.nwrite hroom (by decide) hend

theorem PipeOk.take (hx : PipeOk x) (h : size ≤ x.used)
    (hend : x.nread % PIPESIZE + size ≤ PIPESIZE) :
    PipeOk (x.take size) ∧
      x.contents = x.data.load (x.nread % PIPESIZE) size ++ (x.take size).contents := by
  refine ⟨⟨Nat.mod_lt _ (by omega), hx.nwrite, ?_⟩, ?_⟩
  · have hused := Fifo.used_take hx.nread hx.nwrite h
    exact hused.trans_le ((Nat.sub_le _ _).trans hx.used)
  · exact Fifo.contents_take (by decide) hx.nread hx.nwrite h hend

theorem pipe.length_contents (x : pipe) : x.contents.length = x.used := Fifo.length_contents

/-! ## One turn -/

section Turns

variable {E : Stop → Prop} {k : Kernel} {pi addr : Nat}

/-- The kernel after a process called `yield`. -/
def yielded (k : Kernel) : Kernel :=
  let p := { k.pool k.current_proc with state := .RUNNABLE }
  { k with pool := Function.update k.pool k.current_proc p }

theorem runs_yield {α : Type} {f : Prog Kernel α} {Q : α → Kernel → Prop} :
    Runs E (do yield; f) k Q ↔ Runs E f (yielded k) Q := by
  rw [Runs.bind_iff]
  unfold yield
  rw [runs_modifyCurr]
  rfl

/-- What a turn of `pipewrite` may do. -/
inductive WriteTurn (k : Kernel) (pi addr n w : Nat) : Turn → Kernel → Prop
  | closed (h : (k.pipes pi).readopen = false) : WriteTurn k pi addr n w (.ret (-1)) k
  | full : WriteTurn k pi addr n w (.yield (.write pi addr n w)) (yielded k)
  | done (h : ¬ w < n) : WriteTurn k pi addr n w (.ret w) k
  | copy (hw : w < n) (l : List Byte) (hl : l.length = writeSize (k.pipes pi) n w)
      (hbytes : l = userBytes k.mm.mem (k.pool k.current_proc).pagetable (addr + w) l.length) :
      WriteTurn k pi addr n w (.next (.write pi addr n (w + l.length)))
        { k with pipes := Function.update k.pipes pi ((k.pipes pi).put l) }

theorem pipewriteTurn_runs (hE : E (.panic "copyin")) (n w : Nat) :
    Runs E (pipewriteTurn pi addr n w) k (WriteTurn k pi addr n w) := by
  unfold pipewriteTurn
  split
  · rename_i hw
    rw [Runs.bind_iff, runs_getPipe]
    split
    · exact .closed ‹_›
    · split
      · exact runs_yield.mpr (Runs.pure_iff.mpr .full)
      · rw [Runs.bind_iff, runs_curr_proc, Runs.bind_iff, runs_onMm]
        refine (copyin_runs _ _ _).imp ?_
        rintro ⟨r, l⟩ m ⟨rfl, hc⟩
        rcases hc.result with ⟨h1, h2⟩ | ⟨h1, _⟩
        · dsimp only at h1 h2 ⊢
          rw [if_neg (by omega), Runs.bind_iff, runs_setPipe, Runs.pure_iff, ← h2]
          exact .copy hw l h2 hc.bytes
        · dsimp only at h1 ⊢
          rw [if_pos (by omega)]
          exact hE
  · exact .done ‹_›

/-- What a turn of the first loop of `piperead` may do. -/
inductive WaitTurn (k : Kernel) (pi addr n : Nat) : Turn → Kernel → Prop
  | empty : WaitTurn k pi addr n (.yield (.wait pi addr n)) (yielded k)
  | closed (h1 : (k.pipes pi).nread = (k.pipes pi).nwrite) (h2 : (k.pipes pi).writeopen = false) :
      WaitTurn k pi addr n (.ret (-1)) k
  | copy : WaitTurn k pi addr n (.next (.read pi addr n 0 (2 ^ 64 - 1))) k

theorem pipewaitTurn_runs (n : Nat) : Runs E (pipewaitTurn pi addr n) k (WaitTurn k pi addr n) := by
  unfold pipewaitTurn
  rw [Runs.bind_iff, runs_getPipe]
  split
  · split
    · exact runs_yield.mpr (Runs.pure_iff.mpr .empty)
    · rename_i h1 h2
      exact .closed h1 (by simpa using h2)
  · exact .copy

/-- What a turn of the second loop of `piperead` may do. -/
inductive ReadTurn (k : Kernel) (pi addr n r : Nat) : Turn → Kernel → Prop
  | done : ReadTurn k pi addr n r (.ret r) k
  | copy (hr : r < n) (l : List Byte) (m : Mm)
      (hl : l = (k.pipes pi).data.load ((k.pipes pi).nread % PIPESIZE) (readSize (k.pipes pi) n r))
      (hout : copyout (k.pool k.current_proc).pagetable (addr + r) l k.mm = .ok (0, m)) :
      ReadTurn k pi addr n r (.next (.read pi addr n (r + l.length) l.length))
        { k with mm := m, pipes := Function.update k.pipes pi ((k.pipes pi).take l.length) }

theorem pipereadTurn_runs (hE : E (.panic "copyout")) (n r size : Nat) :
    Runs E (pipereadTurn pi addr n r size) k (ReadTurn k pi addr n r) := by
  unfold pipereadTurn
  split
  · rename_i hr
    rw [Runs.bind_iff, runs_getPipe]
    split
    · exact .done
    · rw [Runs.bind_iff, runs_curr_proc, Runs.bind_iff, runs_onMm]
      generalize hl : (k.pipes pi).data.load ((k.pipes pi).nread % PIPESIZE)
        (readSize (k.pipes pi) n r) = l
      have hlen : readSize (k.pipes pi) n r = l.length := by rw [← hl, Bytes.length_load]
      have hc := copyout_runs (E := fun _ => False) (s := k.mm) (k.pool k.current_proc).pagetable
        (addr + r) l
      unfold Runs
      cases hout : copyout (k.pool k.current_proc).pagetable (addr + r) l k.mm with
      | error e => exact (hc.of_error hout).elim
      | ok res =>
        obtain ⟨e, m⟩ := res
        rcases (hc.of_ok hout).1 with rfl | rfl
        · rw [hlen]
          exact .copy hr.1 l m hl.symm hout
        · exact hE
  · exact .done

end Turns

/-! ## Runs -/

/-- The kernel, the processes that are in a loop of pipe.c, what each of their
calls moved so far, and what went into and came out of each pipe. -/
structure PipeSys where
  k : Kernel
  calls : Nat → Option PipeCall
  moved : Nat → List Byte
  accepted : Nat → List Byte
  delivered : Nat → List Byte

def Turn.call : Turn → Option PipeCall
  | .ret _ => none
  | .yield c => some c
  | .next c => some c

namespace PipeSys

variable (s : PipeSys)

/-- The bytes that process `p` moves in a turn, from what the turn reports:
those of its own buffer, or those at the read counter of the pipe. -/
def bytes (p : Nat) (c : PipeCall) (t : Turn) : List Byte :=
  match c, t with
  | .write _ addr _ w, .next (.write _ _ _ w') =>
    userBytes s.k.mm.mem (s.k.pool p).pagetable (addr + w) (w' - w)
  | .read pi _ _ r _, .next (.read _ _ _ r' _) =>
    (s.k.pipes pi).data.load ((s.k.pipes pi).nread % PIPESIZE) (r' - r)
  | _, _ => []

/-- `l` grows at index `i`. -/
def grow (f : Nat → List Byte) (i : Nat) (l : List Byte) : Nat → List Byte :=
  Function.update f i (f i ++ l)

/-- The system after a turn of process `p`. -/
def after (p : Nat) (c : PipeCall) (t : Turn) (k' : Kernel) : PipeSys where
  k := k'
  calls := Function.update s.calls p t.call
  moved := grow s.moved p (s.bytes p c t)
  accepted :=
    match c with
    | .write pi _ _ _ => grow s.accepted pi (s.bytes p c t)
    | _ => s.accepted
  delivered :=
    match c with
    | .read pi _ _ _ _ => grow s.delivered pi (s.bytes p c t)
    | _ => s.delivered

end PipeSys

/-- A step of the machine. A process may be switched away after every turn: the
kernel does so at `yield` only, so its runs are among these. `other` is
anything else, such as a change of the user pages. -/
inductive PipeStep (lk : Link) : PipeSys → PipeSys → Prop
  | enterWrite {s : PipeSys} {k' : Kernel} (p pi addr : Nat) (n : Int) (c : PipeCall)
      (hfree : s.calls p = none) (hrun : pipewrite pi addr n (s.k.switch p) = .ok (c, k')) :
      PipeStep lk s { s with
        k := k', calls := Function.update s.calls p (some c), moved :=
          Function.update s.moved p [] }
  | enterRead {s : PipeSys} {k' : Kernel} (p pi addr : Nat) (n : Int) (c : PipeCall)
      (hfree : s.calls p = none) (hrun : piperead pi addr n (s.k.switch p) = .ok (c, k')) :
      PipeStep lk s { s with
        k := k', calls := Function.update s.calls p (some c), moved :=
          Function.update s.moved p [] }
  | turn {s : PipeSys} {k' : Kernel} (p : Nat) (c : PipeCall) (t : Turn)
      (hc : s.calls p = some c) (hrun : c.turn (s.k.switch p) = .ok (t, k')) :
      PipeStep lk s (s.after p c t k')
  | make {s : PipeSys} {k' : Kernel} (f0 f1 : Option Nat)
      (hrun : pipealloc f0 f1 s.k = .ok (0, k')) :
      -- the page of the new pipe is the first free one
      PipeStep lk s { s with
        k := k'
        accepted := Function.update s.accepted s.k.mm.freelist []
        delivered := Function.update s.delivered s.k.mm.freelist [] }
  | close {s : PipeSys} {k' : Kernel} (pi : Nat) (writable : Bool)
      (hrun : pipeclose lk pi writable s.k = .ok ((), k')) : PipeStep lk s { s with k := k' }
  | other {s : PipeSys} {k' : Kernel} (h : k'.pipes = s.k.pipes) : PipeStep lk s { s with k := k' }

/-- No process is in a pipe call, and nothing was written yet. -/
structure PipeStart (s : PipeSys) : Prop where
  calls : ∀ p, s.calls p = none
  pipes : ∀ pi, (s.k.pipes pi).nread = 0 ∧ (s.k.pipes pi).nwrite = 0
  accepted : ∀ pi, s.accepted pi = []
  delivered : ∀ pi, s.delivered pi = []

/-- A call has moved as many bytes as its counter says. -/
def PipeCall.Counted (moved : List Byte) : PipeCall → Prop
  | .write _ _ n w => moved.length = w ∧ w ≤ n
  | .wait _ _ _ => moved = []
  | .read _ _ n r _ => moved.length = r ∧ r ≤ n

/-- The invariant: what went into a pipe is what came out of it, and then what
is in it. -/
structure PipesOk (s : PipeSys) : Prop where
  ok : ∀ pi, PipeOk (s.k.pipes pi)
  queue : ∀ pi, s.accepted pi = s.delivered pi ++ (s.k.pipes pi).contents
  counted : ∀ p c, s.calls p = some c → c.Counted (s.moved p)

theorem pipealloc_runs {k : Kernel} (f0 f1 : Option Nat) :
    Runs (fun _ => True) (pipealloc f0 f1) k (fun r k' => r = 0 →
      k'.pipes = Function.update k.pipes k.mm.freelist ⟨fun _ => 0, 0, 0, true, true⟩) := by
  rw [runs_pipealloc, runs_onMm]
  refine runs_kalloc.mpr ⟨fun _ => ⟨fun _ => by simp, fun hc => absurd rfl hc⟩, fun h => ?_⟩
  refine ⟨fun hc => absurd hc h, fun _ => ?_⟩
  rw [runs_onMm, memset, Runs.modify_iff]
  exact ⟨fun _ => trivial, fun a b files _ _ _ _ => rfl⟩

/-- Closing an end changes neither the bytes nor the counters. -/
theorem pipeclose_runs {lk : Link} {k : Kernel} (pi : Nat) (writable : Bool) :
    Runs (fun _ => True) (pipeclose lk pi writable) k (fun _ k' => ∃ y,
      k'.pipes = Function.update k.pipes pi y ∧ y.data = (k.pipes pi).data ∧
        y.nread = (k.pipes pi).nread ∧ y.nwrite = (k.pipes pi).nwrite) := by
  generalize hy : (k.pipes pi).shut writable = y
  have hsame : y.data = (k.pipes pi).data ∧ y.nread = (k.pipes pi).nread ∧
      y.nwrite = (k.pipes pi).nwrite := by
    subst hy
    unfold pipe.shut
    split
    · exact ⟨rfl, rfl, rfl⟩
    · exact ⟨rfl, rfl, rfl⟩
  rw [runs_pipeclose hy, runs_onMm]
  exact ⟨fun _ => runs_kfree.mpr ⟨fun _ => trivial, fun _ => ⟨y, rfl, hsame⟩⟩,
    fun _ => ⟨y, rfl, hsame⟩⟩

section Steps

variable {lk : Link} {s : PipeSys} {k' : Kernel} {p : Nat}

/-- A pipe and its two streams changed, the others are as they were. -/
theorem queue_update {pipes : Nat → pipe} {accepted delivered : Nat → List Byte}
    (hok : ∀ pi, PipeOk (pipes pi)) (hq : ∀ pi, accepted pi = delivered pi ++ (pipes pi).contents)
    (pi : Nat) {x : pipe} {a d : List Byte} (hx : PipeOk x) (ha : a = d ++ x.contents) :
    (∀ i, PipeOk (Function.update pipes pi x i)) ∧
      ∀ i, Function.update accepted pi a i =
        Function.update delivered pi d i ++ (Function.update pipes pi x i).contents := by
  refine ⟨fun i => ?_, fun i => ?_⟩
  · by_cases hi : i = pi
    · subst hi
      rw [Function.update_self]
      exact hx
    · rw [Function.update_of_ne hi]
      exact hok i
  · by_cases hi : i = pi
    · subst hi
      simp only [Function.update_self]
      exact ha
    · simp only [Function.update_of_ne hi]
      exact hq i

theorem counted_update {calls : Nat → Option PipeCall} {moved : Nat → List Byte}
    (hc : ∀ q c, calls q = some c → c.Counted (moved q)) {call : Option PipeCall} {l : List Byte}
    (hp : ∀ c, call = some c → c.Counted l) :
    ∀ q c, Function.update calls p call q = some c →
      c.Counted (Function.update moved p l q) := by
  intro q c hq
  by_cases hqp : q = p
  · subst hqp
    rw [Function.update_self] at hq ⊢
    exact hp c hq
  · rw [Function.update_of_ne hqp] at hq ⊢
    exact hc q c hq

theorem grow_nil (f : Nat → List Byte) (i : Nat) : PipeSys.grow f i [] = f := by
  unfold PipeSys.grow
  rw [List.append_nil, Function.update_eq_self]

/-- A turn that moves nothing. -/
theorem PipesOk.idle (h : PipesOk s) {c : PipeCall} {t : Turn} (hk : k'.pipes = s.k.pipes)
    (hbytes : s.bytes p c t = [])
    (hcount : ∀ c', t.call = some c' → c'.Counted (s.moved p)) : PipesOk (s.after p c t k') := by
  refine ⟨fun pi => ?_, fun pi => ?_, ?_⟩
  · show PipeOk (k'.pipes pi)
    rw [hk]
    exact h.ok pi
  · show (s.after p c t k').accepted pi = (s.after p c t k').delivered pi ++ (k'.pipes pi).contents
    have ha : (s.after p c t k').accepted = s.accepted := by
      cases c <;> simp only [PipeSys.after, hbytes, grow_nil]
    have hd : (s.after p c t k').delivered = s.delivered := by
      cases c <;> simp only [PipeSys.after, hbytes, grow_nil]
    rw [ha, hd, hk]
    exact h.queue pi
  · simp only [PipeSys.after, hbytes, grow_nil]
    have hc := counted_update (p := p) h.counted hcount
    rwa [Function.update_eq_self] at hc

theorem PipesOk.write_turn (h : PipesOk s) {pi addr n w : Nat} {t : Turn}
    (hc : s.calls p = some (.write pi addr n w)) (ht : WriteTurn (s.k.switch p) pi addr n w t k') :
    PipesOk (s.after p (.write pi addr n w) t k') := by
  have hcount := h.counted p _ hc
  cases ht with
  | closed _ => exact h.idle rfl rfl fun _ he => by cases he
  | full => exact h.idle rfl rfl fun _ he => by cases he; exact hcount
  | done _ => exact h.idle rfl rfl fun _ he => by cases he
  | copy hw l hl hbytes =>
    have hb : s.bytes p (.write pi addr n w) (.next (.write pi addr n (w + l.length))) = l := by
      unfold PipeSys.bytes
      dsimp only
      rw [Nat.add_sub_cancel_left]
      exact hbytes.symm
    obtain ⟨h1, h2, h3⟩ := (h.ok pi).writeSize_le (n := n) (w := w)
    rw [show writeSize (s.k.pipes pi) n w = l.length from hl.symm] at h1 h2 h3
    obtain ⟨h4, h5⟩ := (h.ok pi).put h2 h3
    obtain ⟨h6, h7⟩ := queue_update h.ok h.queue pi (a := s.accepted pi ++ l) (d := s.delivered pi)
      h4 (by rw [h5, h.queue pi, List.append_assoc])
    rw [Function.update_eq_self] at h7
    refine ⟨h6, ?_, ?_⟩
    · simp only [PipeSys.after, hb]
      exact h7
    · simp only [PipeSys.after, hb]
      refine counted_update h.counted fun c he => ?_
      cases he
      obtain ⟨h8, h9⟩ := hcount
      exact ⟨by rw [List.length_append, h8], by omega⟩

theorem PipesOk.read_turn (h : PipesOk s) {pi addr n r size : Nat} {t : Turn}
    (hc : s.calls p = some (.read pi addr n r size))
    (ht : ReadTurn (s.k.switch p) pi addr n r t k') :
    PipesOk (s.after p (.read pi addr n r size) t k') := by
  have hcount := h.counted p _ hc
  cases ht with
  | done => exact h.idle rfl rfl fun _ he => by cases he
  | copy hr l m hl hout =>
    have hlen : l.length = readSize (s.k.pipes pi) n r := by
      rw [hl, Bytes.length_load]
      rfl
    have hb : s.bytes p (.read pi addr n r size) (.next (.read pi addr n (r + l.length) l.length))
        = l := by
      unfold PipeSys.bytes
      dsimp only
      rw [Nat.add_sub_cancel_left, hlen]
      exact hl.symm
    obtain ⟨h1, h2, h3⟩ := (h.ok pi).readSize_le (n := n) (r := r)
    rw [← hlen] at h1 h2 h3
    obtain ⟨h4, h5⟩ := (h.ok pi).take h2 h3
    obtain ⟨h6, h7⟩ := queue_update h.ok h.queue pi (a := s.accepted pi) (d := s.delivered pi ++ l)
      h4 (by
        rw [h.queue pi, h5, List.append_assoc, hlen]
        exact congrArg _ (congrArg (· ++ _) hl.symm))
    rw [Function.update_eq_self] at h7
    refine ⟨h6, ?_, ?_⟩
    · simp only [PipeSys.after, hb]
      exact h7
    · simp only [PipeSys.after, hb]
      refine counted_update h.counted fun c he => ?_
      cases he
      obtain ⟨h8, h9⟩ := hcount
      exact ⟨by rw [List.length_append, h8], by omega⟩

theorem PipesOk.wait_turn (h : PipesOk s) {pi addr n : Nat} {t : Turn}
    (hc : s.calls p = some (.wait pi addr n)) (ht : WaitTurn (s.k.switch p) pi addr n t k') :
    PipesOk (s.after p (.wait pi addr n) t k') := by
  have hcount := h.counted p _ hc
  cases ht with
  | empty => exact h.idle rfl rfl fun _ he => by cases he; exact hcount
  | closed _ _ => exact h.idle rfl rfl fun _ he => by cases he
  | copy =>
    refine h.idle rfl rfl fun _ he => ?_
    cases he
    exact ⟨by rw [hcount]; rfl, Nat.zero_le _⟩

/-- Each step keeps the queues. -/
theorem PipesOk.step {s' : PipeSys} (h : PipesOk s) (hs : PipeStep lk s s') : PipesOk s' := by
  cases hs with
  | enterWrite p pi addr n c hfree hrun =>
    unfold pipewrite at hrun
    split at hrun
    · cases hrun
    · cases hrun
      exact ⟨h.ok, h.queue, counted_update h.counted fun c he => by
        cases he; exact ⟨rfl, Nat.zero_le _⟩⟩
  | enterRead p pi addr n c hfree hrun =>
    unfold piperead at hrun
    split at hrun
    · cases hrun
    · cases hrun
      exact ⟨h.ok, h.queue, counted_update h.counted fun c he => by cases he; rfl⟩
  | turn p c t hc hrun =>
    cases c with
    | write pi addr n w =>
      exact h.write_turn hc ((pipewriteTurn_runs (E := fun _ => True) trivial n w).of_ok hrun)
    | wait pi addr n =>
      exact h.wait_turn hc ((pipewaitTurn_runs (E := fun _ => True) n).of_ok hrun)
    | read pi addr n r size =>
      exact h.read_turn hc ((pipereadTurn_runs (E := fun _ => True) trivial n r size).of_ok hrun)
  | make f0 f1 hrun =>
    have hp := (pipealloc_runs f0 f1).of_ok hrun rfl
    obtain ⟨h1, h2⟩ := queue_update h.ok h.queue s.k.mm.freelist (a := []) (d := [])
      (x := ⟨fun _ => 0, 0, 0, true, true⟩) ⟨by decide, by decide, by decide⟩ rfl
    rw [← hp] at h1 h2
    exact ⟨h1, h2, h.counted⟩
  | close pi writable hrun =>
    obtain ⟨y, hy, h1, h2, h3⟩ := (pipeclose_runs pi writable).of_ok hrun
    have hcont : y.contents = (s.k.pipes pi).contents := by
      unfold pipe.contents
      rw [h1, h2, h3]
    have hok : PipeOk y := by
      have := h.ok pi
      refine ⟨h2 ▸ this.nread, h3 ▸ this.nwrite, ?_⟩
      unfold pipe.used
      rw [h2, h3]
      exact this.used
    obtain ⟨h4, h5⟩ := queue_update h.ok h.queue pi (a := s.accepted pi) (d := s.delivered pi)
      hok (by rw [hcont]; exact h.queue pi)
    rw [Function.update_eq_self, Function.update_eq_self] at h5
    rw [← hy] at h4 h5
    exact ⟨h4, h5, h.counted⟩
  | other hpipes => exact ⟨fun pi => by rw [hpipes]; exact h.ok pi,
      fun pi => by rw [hpipes]; exact h.queue pi, h.counted⟩

theorem PipesOk.start (h : PipeStart s) : PipesOk s := by
  refine ⟨fun pi => ?_, fun pi => ?_, fun p c hc => ?_⟩
  · obtain ⟨h1, h2⟩ := h.pipes pi
    refine ⟨by rw [h1]; decide, by rw [h2]; decide, ?_⟩
    unfold pipe.used
    rw [h1, h2]
    decide
  · obtain ⟨h1, h2⟩ := h.pipes pi
    rw [h.accepted pi, h.delivered pi]
    unfold pipe.contents
    rw [h1, h2]
    rfl
  · rw [h.calls p] at hc
    cases hc

/-- The queues are kept in every state that a run reaches. -/
theorem PipesOk.run {s₀ : PipeSys} (hstart : PipeStart s₀)
    (hrun : Relation.ReflTransGen (PipeStep lk) s₀ s) :
    PipesOk s := by
  induction hrun with
  | refl => exact PipesOk.start hstart
  | tail _ hstep ih => exact ih.step hstep

/-- What a call of pipe.c promises when it returns. -/
def PipeCall.Promise (s : PipeSys) (p : Nat) (r : Int) : PipeCall → Prop
  | .write _ _ n _ => r = n → (s.moved p).length = n
  | .wait pi _ _ => r = -1 →
    (s.k.pipes pi).contents = [] ∧ (s.k.pipes pi).writeopen = false
  | .read _ _ _ _ _ => r ≠ -1 ∧ r = (s.moved p).length

/-- What comes out of a pipe is a prefix of what went in, at most `PIPESIZE`
bytes are on the way, and the counters are that far apart. A write returns its
size only when all its bytes went in, and a read returns -1 only from an empty
pipe with no write end. The bytes that came out are those that a turn hands
to the buffer of its process. -/
theorem a_pipe_is_a_bounded_queue {s₀ : PipeSys} (hstart : PipeStart s₀)
    (hrun : Relation.ReflTransGen (PipeStep lk) s₀ s) :
    (∀ pi, s.delivered pi <+: s.accepted pi ∧
      ((s.k.pipes pi).nwrite + 2 ^ 32 - (s.k.pipes pi).nread) % 2 ^ 32 ≤ PIPESIZE ∧
      ((s.k.pipes pi).nwrite + 2 ^ 32 - (s.k.pipes pi).nread) % 2 ^ 32 =
        (s.accepted pi).length - (s.delivered pi).length) ∧
    (∀ p c r k', s.calls p = some c → c.turn (s.k.switch p) = .ok (.ret r, k') →
      c.Promise s p r) ∧
    ∀ p pi addr n r size c k', s.calls p = some (.read pi addr n r size) →
      pipereadTurn pi addr n r size (s.k.switch p) = .ok (.next c, k') →
      copyout (s.k.pool p).pagetable (addr + r)
        (s.bytes p (.read pi addr n r size) (.next c)) s.k.mm = .ok (0, k'.mm) := by
  have h := PipesOk.run hstart hrun
  refine ⟨fun pi => ⟨⟨_, (h.queue pi).symm⟩, (h.ok pi).used, ?_⟩, ?_, ?_⟩
  · rw [h.queue pi, List.length_append, pipe.length_contents, Nat.add_sub_cancel_left]
    rfl
  · intro p c r k' hc hturn
    have hcount := h.counted p c hc
    cases c with
    | write pi addr n w =>
      have ht := (pipewriteTurn_runs (E := fun _ => True) trivial n w).of_ok hturn
      obtain ⟨h1, h2⟩ := hcount
      intro hr
      cases ht with
      | closed _ => omega
      | done hw => omega
    | wait pi addr n =>
      have ht := (pipewaitTurn_runs (E := fun _ => True) n).of_ok hturn
      intro _
      cases ht with
      | closed h1 h2 =>
        refine ⟨List.length_eq_zero_iff.mp ?_, h2⟩
        rw [pipe.length_contents]
        exact (h.ok pi).empty_iff.mp h1
    | read pi addr n r' size =>
      have ht := (pipereadTurn_runs (E := fun _ => True) trivial n r' size).of_ok hturn
      obtain ⟨h1, _⟩ := hcount
      cases ht with
      | done => exact ⟨by omega, by rw [h1]⟩
  · intro p pi addr n r size c k' _ hturn
    have ht := (pipereadTurn_runs (E := fun _ => True) trivial n r size).of_ok hturn
    cases ht with
    | copy hr l m hl hout =>
      have hb : s.bytes p (.read pi addr n r size)
          (.next (.read pi addr n (r + l.length) l.length)) = l := by
        unfold PipeSys.bytes
        dsimp only
        rw [Nat.add_sub_cancel_left, hl, Bytes.length_load]
        rfl
      rw [hb]
      exact hout

end Steps

section TwoBytes

/-- Open pipes with nothing in them, and no process in a call. There is one user page. -/
def emptyPipes : PipeSys where
  k :=
    { mm := ⟨onePage [104, 105], 0⟩
      fs := ⟨⟨0, 0, 0, 0, 0, 0⟩, ⟨fun _ => ⟨false, 0, 0, 0, 0, 0, fun _ => 0⟩, fun _ _ => 0⟩,
        fun _ => ⟨0, 0, 0, false, 0, 0, fun _ => 0⟩⟩
      filepool := fun _ => ⟨.FD_NONE, 0, false, false, 0, none, 0⟩
      pipes := fun _ => ⟨fun _ => 0, 0, 0, true, true⟩
      pool := fun _ => ⟨.RUNNING, 1, 0x1000, 0, 0, 4096, none, 0, fun _ => none, .zero, 16, 6250⟩
      current_proc := 0
      PID := 2 }
  calls _ := none
  moved _ := []
  accepted _ := []
  delivered _ := []

/-- Process 0 calls `pipewrite` or `piperead`, and is at `c`. -/
def PipeSys.entered (s : PipeSys) (c : PipeCall) : PipeSys :=
  { s with
    k := s.k.switch 0
    calls := Function.update s.calls 0 (some c)
    moved := Function.update s.moved 0 [] }

/-- Process 0 takes a turn, if its call has one that returns. -/
def PipeSys.turned (s : PipeSys) : Option PipeSys := do
  let c ← s.calls 0
  match c.turn (s.k.switch 0) with
  | .ok (t, k') => some (s.after 0 c t k')
  | .error _ => none

theorem PipeSys.turned_step {lk : Link} {s s' : PipeSys} (h : s.turned = some s') :
    PipeStep lk s s' := by
  unfold turned at h
  cases hc : s.calls 0 with
  | none =>
    rw [hc] at h
    cases h
  | some c =>
    rw [hc] at h
    cases hrun : c.turn (s.k.switch 0) with
    | error e =>
      rw [Option.bind_eq_bind, Option.bind_some, hrun] at h
      cases h
    | ok r =>
      rw [Option.bind_eq_bind, Option.bind_some, hrun] at h
      cases h
      exact .turn 0 c r.1 hc hrun

/-- The process has written its two bytes. -/
def writtenPipes : Option PipeSys :=
  (emptyPipes.entered (.write 0 0 2 0)).turned.bind PipeSys.turned

/-- The process has read one of them back, to address 16. -/
def readPipes : Option PipeSys :=
  writtenPipes.bind fun s => (s.entered (.wait 0 16 1)).turned.bind PipeSys.turned

theorem emptyPipes_start : PipeStart emptyPipes :=
  ⟨fun _ => rfl, fun _ => ⟨rfl, rfl⟩, fun _ => rfl, fun _ => rfl⟩

theorem readPipes_run {lk : Link} {s : PipeSys} (h : readPipes = some s) :
    Relation.ReflTransGen (PipeStep lk) emptyPipes s := by
  unfold readPipes at h
  obtain ⟨s₂, hwritten, h⟩ := Option.bind_eq_some_iff.mp h
  obtain ⟨s₃, hwait, hcopy⟩ := Option.bind_eq_some_iff.mp h
  unfold writtenPipes at hwritten
  obtain ⟨s₁, hput, hdone⟩ := Option.bind_eq_some_iff.mp hwritten
  have hfree : s₂.calls 0 = none := by
    have hcalls : (writtenPipes.map fun s => (s.calls 0).isNone) = some true := by decide +kernel
    rw [writtenPipes, hwritten] at hcalls
    exact Option.isNone_iff_eq_none.mp (Option.some.inj hcalls)
  have hstart : PipeStep lk emptyPipes (emptyPipes.entered (.write 0 0 2 0)) :=
    .enterWrite 0 0 0 2 _ rfl rfl
  have hread : PipeStep lk s₂ (s₂.entered (.wait 0 16 1)) := .enterRead 0 0 16 1 _ hfree rfl
  exact .tail
    (.tail (.tail (.tail (.tail (.single hstart) (PipeSys.turned_step hput))
    (PipeSys.turned_step hdone)) hread)
    (PipeSys.turned_step hwait)) (PipeSys.turned_step hcopy)

theorem readPipes_returns : readPipes.isSome = true := by decide +kernel

theorem readPipes_moved : (readPipes.map fun s => (s.accepted 0, s.delivered 0)) =
    some ([104, 105], [104]) := by
  decide +kernel

/-- Two bytes went in and one came out: one byte is on the way. -/
theorem a_pipe_is_a_bounded_queue_of_two_bytes :
    ∃ s, readPipes = some s ∧ s.accepted 0 = [104, 105] ∧
    s.delivered 0 = [104] ∧ s.delivered 0 <+: s.accepted 0 ∧
    ((s.k.pipes 0).nwrite + 2 ^ 32 - (s.k.pipes 0).nread) % 2 ^ 32 = 1 := by
  obtain ⟨s, hs⟩ := Option.isSome_iff_exists.mp readPipes_returns
  have hmoved := readPipes_moved
  rw [hs] at hmoved
  obtain ⟨hin, hout⟩ := Prod.mk.inj (Option.some.inj hmoved)
  obtain ⟨hpre, _, hcount⟩ := (a_pipe_is_a_bounded_queue emptyPipes_start
    (@readPipes_run ⟨4096, 0, [], Link.zero_aligned, Link.zero_inside⟩ s hs)).1 0
  refine ⟨s, hs, hin, hout, hpre, ?_⟩
  rw [hcount, hin, hout]
  rfl

end TwoBytes

end ThuKernel
