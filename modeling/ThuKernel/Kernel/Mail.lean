-- The mailboxes of proc.c with their system calls, and `wait`, one scan of
-- the table of processes at a time.
import ThuKernel.Kernel.MemCalls

namespace ThuKernel

/-! ## Mails -/

/-- Mails in the ring of a mailbox, and bytes in a mail. -/
def MAILS : Nat := 17
def MAIL_SIZE : Nat := 256

/-- The first process with the number `pid`, in whatever state. -/
def get_proc (pool : Nat → proc) (pid : Int) : Option Nat :=
  (List.range NPROC).find? fun i => ((pool i).pid : Int) == pid

def setMailbox (i : Nat) (mbox : Mailbox) : Prog Kernel Unit := do
  let p ← getProc i
  setProc i { p with mailbox := mbox }

/-- The length of a copy is a `uint64`. A negative `int` becomes a huge one, with
the same low 31 bits. -/
def copySize (len : Int) : Nat :=
  if len < 0 then 2 ^ 64 - 2 ^ 31 + (len % 2 ^ 31).toNat else len.toNat

/-- The bytes go to the current process. A copy of more bytes than a mail has
stays in the mail only if it fails early enough. The model stops where it goes on
behind the mail: what lies there is no part of it. -/
def copyoutMail (pagetable buf : Nat) (mail : Bytes) (len : Int) : Prog Kernel Int := do
  let n := copySize len
  if n ≤ MAIL_SIZE then onMm (copyout pagetable buf (mail.load 0 n))
  else do
    let (_, mapped) ← onMm (copyin pagetable buf n)
    if MAIL_SIZE < mapped.length then Prog.fault "mails: out of range"
    else onMm (copyout pagetable buf (mail.load 0 n))

/-- The bytes come from the current process. With an error, some may have come
all the same. The model stops where they go on behind the mail. -/
def copyinMail (pagetable buf : Nat) (mail : Bytes) (len : Int) : Prog Kernel (Int × Bytes) := do
  let (ret, bytes) ← onMm (copyin pagetable buf (copySize len))
  if MAIL_SIZE < bytes.length then Prog.fault "mails: out of range"
  else pure (ret, mail.store 0 bytes)

/-- The oldest mail of the current process. -/
def mail_read (buf : Nat) (len : Int) : Prog Kernel Int := do
  let p ← curr_proc
  let mbox := p.mailbox
  if mbox.tail = mbox.head then pure (-1)
  else if len = 0 then pure 0
  else do
    let len := if mbox.len mbox.head < len then mbox.len mbox.head else len
    let ret ← copyoutMail p.pagetable buf (mbox.mails mbox.head) len
    if ret = -1 then pure (-1)
    else do
      let k ← get
      setMailbox k.current_proc { mbox with head := (1 + mbox.head) % MAILS }
      pure len

/-- A mail of the current process to process `i`. -/
def mail_write (i buf : Nat) (len : Int) : Prog Kernel Int := do
  let q ← getProc i
  let mbox := q.mailbox
  if (1 + mbox.tail) % MAILS = mbox.head then pure (-1)
  else if len = 0 then pure 0
  else do
    let len : Int := if MAIL_SIZE < len then MAIL_SIZE else len
    let mbox := { mbox with len := Function.update mbox.len mbox.tail len }
    setMailbox i mbox
    let p ← curr_proc
    let (ret, mail) ← copyinMail p.pagetable buf (mbox.mails mbox.tail) len
    let mbox := { mbox with mails := Function.update mbox.mails mbox.tail mail }
    setMailbox i mbox
    if ret = -1 then pure (-1)
    else do
      setMailbox i { mbox with tail := (1 + mbox.tail) % MAILS }
      pure len

def sys_mailread (buf : Nat) (len : Int) : Prog Kernel Int := mail_read buf len

def sys_mailwrite (pid : Int) (buf : Nat) (len : Int) : Prog Kernel Int := do
  let k ← get
  match get_proc k.pool pid with
  | none => pure (-1)
  | some i => mail_write i buf len

/-! ## Waiting -/

/-- How a scan ends: the function returns, or the process yields and scans
again. -/
inductive WaitScan where
  | ret (r : Int)
  | yield
  deriving DecidableEq, Repr

/-- The processes that a `wait` of process `i` looks at. -/
def isKid (i : Nat) (pid : Int) (np : proc) : Bool :=
  np.state != .UNUSED && np.parent == some i && (decide (pid ≤ 0) || (np.pid : Int) == pid)

/-- `*code = np->exit_code`. The kernel has no page at the address 0. -/
def storeCode (code : Nat) (exit_code : Int) : Prog Kernel Unit :=
  if code < PGSIZE then Prog.fault "wait: no page"
  else onMm (modify fun s => { s with mem := s.mem.put32 code (BitVec.ofInt 32 exit_code).toNat })

/-- One turn of the loop of `wait`: the first child that is a zombie goes. -/
def waitTurn (pid : Int) (code : Nat) : Prog Kernel WaitScan := do
  let k ← get
  let i := k.current_proc
  match (List.range NPROC).find? fun j => isKid i pid (k.pool j) && (k.pool j).state == .ZOMBIE with
  | some j => do
    let np ← getProc j
    setProc j { np with state := .UNUSED }
    storeCode code np.exit_code
    pure (.ret np.pid)
  | none =>
    if (List.range NPROC).any fun j => isKid i pid (k.pool j) then do
      modifyCurr fun p => { p with state := .RUNNABLE }
      pure .yield
    else pure (.ret (-1))

/-- `sys_wait`, up to the loop: the address of `*code`. -/
def waitCode (va : Nat) : Prog Kernel Nat := do
  let p ← curr_proc
  onMm (useraddr p.pagetable va)

end ThuKernel
