-- The loops of pipe.c, one turn at a time: a process gives up the processor
-- in the middle of a transfer, when the pipe is full or empty.
import ThuKernel.Kernel.File

namespace ThuKernel

/-- Where a process stands in `pipewrite`, in the first loop of `piperead`, or
in the second one. -/
inductive PipeCall where
  | write (pi addr n w : Nat)
  | wait (pi addr n : Nat)
  | read (pi addr n r size : Nat)
  deriving DecidableEq, Repr

/-- How a turn of a loop ends: the function returns, the process calls `yield`
and stays where it was, or it goes on to the next turn. -/
inductive Turn where
  | ret (r : Int)
  | yield (c : PipeCall)
  | next (c : PipeCall)
  deriving DecidableEq, Repr

def pipewrite (pi addr : Nat) (n : Int) : Prog Kernel PipeCall :=
  if n ≤ 0 then Prog.panic "invalid read num" else pure (.write pi addr n.toNat 0)

def piperead (pi addr : Nat) (n : Int) : Prog Kernel PipeCall :=
  if n ≤ 0 then Prog.panic "invalid read num" else pure (.wait pi addr n.toNat)

/-- `MIN(MIN(n - w, pi->nread + PIPESIZE - pi->nwrite), PIPESIZE - (pi->nwrite % PIPESIZE))`,
on 32-bit numbers. -/
def writeSize (x : pipe) (n w : Nat) : Nat :=
  min (min (n - w) ((x.nread + PIPESIZE + (2 ^ 32 - x.nwrite)) % 2 ^ 32))
    (PIPESIZE - x.nwrite % PIPESIZE)

/-- `MIN(MIN(n - r, pi->nwrite - pi->nread), PIPESIZE - (pi->nread % PIPESIZE))`. -/
def readSize (x : pipe) (n r : Nat) : Nat :=
  min (min (n - r) ((x.nwrite + (2 ^ 32 - x.nread)) % 2 ^ 32)) (PIPESIZE - x.nread % PIPESIZE)

/-- `yield` marks the process as runnable, and another one is chosen. -/
def yield : Prog Kernel Unit := modifyCurr fun p => { p with state := .RUNNABLE }

/-- A turn of the loop of `pipewrite`. -/
def pipewriteTurn (pi addr n w : Nat) : Prog Kernel Turn := do
  if w < n then do
    let x ← getPipe pi
    if x.readopen = false then pure (.ret (-1))
    else if x.nwrite = (x.nread + PIPESIZE) % 2 ^ 32 then do
      yield
      pure (.yield (.write pi addr n w))
    else do
      let size := writeSize x n w
      let p ← curr_proc
      let (r, bytes) ← onMm (copyin p.pagetable (addr + w) size)
      if r < 0 then Prog.panic "copyin"
      else do
        setPipe pi { x with
          data := x.data.store (x.nwrite % PIPESIZE) bytes, nwrite := (x.nwrite + size) % 2 ^ 32 }
        pure (.next (.write pi addr n (w + size)))
  else pure (.ret w)

/-- A turn of the loop of `piperead` that waits for a byte. -/
def pipewaitTurn (pi addr n : Nat) : Prog Kernel Turn := do
  let x ← getPipe pi
  if x.nread = x.nwrite then
    if x.writeopen then do
      yield
      pure (.yield (.wait pi addr n))
    else pure (.ret (-1))
  -- `size` starts as -1.
  else pure (.next (.read pi addr n 0 (2 ^ 64 - 1)))

/-- A turn of the loop of `piperead` that copies. -/
def pipereadTurn (pi addr n r size : Nat) : Prog Kernel Turn := do
  if r < n ∧ size ≠ 0 then do
    let x ← getPipe pi
    if x.nread = x.nwrite then pure (.ret r)
    else do
      let size := readSize x n r
      let p ← curr_proc
      let e ← onMm (copyout p.pagetable (addr + r) (x.data.load (x.nread % PIPESIZE) size))
      if e < 0 then Prog.panic "copyout"
      else do
        setPipe pi { x with nread := (x.nread + size) % 2 ^ 32 }
        pure (.next (.read pi addr n (r + size) size))
  else pure (.ret r)

def PipeCall.turn : PipeCall → Prog Kernel Turn
  | .write pi addr n w => pipewriteTurn pi addr n w
  | .wait pi addr n => pipewaitTurn pi addr n
  | .read pi addr n r size => pipereadTurn pi addr n r size

end ThuKernel
