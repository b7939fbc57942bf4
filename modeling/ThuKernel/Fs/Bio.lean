-- The buffer cache of bio.c, as a list of buffers with two pointers each,
-- over a disk that the virtio driver reads and writes a whole block at a time.
import ThuKernel.Lib.Prog
import ThuKernel.Lib.Ring
import ThuKernel.Fs.Layout

namespace ThuKernel

structure buf where
  valid : Bool
  dev : Nat
  blockno : Nat
  refcnt : Int
  prev : Nat
  next : Nat
  data : Bytes

/-- `bcache` and the disk. Buffer `NBUF` is `bcache.head`. -/
structure Bio where
  buf : Nat → buf
  disk : Nat → Bytes

/-- `&bcache.head` -/
def HEAD : Nat := NBUF

namespace Bio

variable (s : Bio)

def next (b : Nat) : Nat := (s.buf b).next
def prev (b : Nat) : Nat := (s.buf b).prev

def set (b : Nat) (x : ThuKernel.buf) : Bio := { s with buf := Function.update s.buf b x }

def setNext (b n : Nat) : Bio := s.set b { s.buf b with next := n }
def setPrev (b n : Nat) : Bio := s.set b { s.buf b with prev := n }
def setRefcnt (b : Nat) (r : Int) : Bio := s.set b { s.buf b with refcnt := r }
def setData (b : Nat) (d : Bytes) : Bio := s.set b { s.buf b with data := d }

/-- `b->next->prev = b->prev; b->prev->next = b->next;` -/
def unlink (b : Nat) : Bio :=
  let s := s.setPrev (s.next b) (s.prev b)
  s.setNext (s.prev b) (s.next b)

/-- `b->next = bcache.head.next; b->prev = &bcache.head;
bcache.head.next->prev = b; bcache.head.next = b;` -/
def pushFront (b : Nat) : Bio :=
  let s := s.setNext b (s.next HEAD)
  let s := s.setPrev b HEAD
  let s := s.setPrev (s.next HEAD) b
  s.setNext HEAD b

/-- `virtio_disk_rw(b, R)`: the device fills `b->data`. -/
def diskRead (b : Nat) : Bio := s.setData b (s.disk (s.buf b).blockno)

/-- `virtio_disk_rw(b, W)`: the device stores `b->data`. -/
def diskWrite (b : Nat) : Bio :=
  { s with disk := Function.update s.disk (s.buf b).blockno (s.buf b).data }

/-- `b->refcnt--`, and a buffer that is in no use goes to the head of the
most-recently-used list. -/
def release (b : Nat) : Bio :=
  let s := s.setRefcnt b ((s.buf b).refcnt - 1)
  if (s.buf b).refcnt = 0 then (s.unlink b).pushFront b else s

end Bio

/-! ## The functions of bio.c -/

/-- Every buffer starts as zeros, and joins the list at the front. -/
def binit (disk : Nat → Bytes) : Bio :=
  let zero : buf :=
    { valid := false
      dev := 0
      blockno := 0
      refcnt := 0
      prev := 0
      next := 0
      data := fun _ => 0 }
  let s : Bio := { buf := fun _ => zero, disk }
  let s := (s.setPrev HEAD HEAD).setNext HEAD HEAD
  (List.range NBUF).foldl (fun s b => s.pushFront b) s

def bget (dev blockno : Nat) : Prog Bio Nat := do
  let s ← get
  -- Is the block already cached?
  match firstAlong s.next (fun b => (s.buf b).dev == dev && (s.buf b).blockno == blockno)
      HEAD (NBUF + 1) (s.next HEAD) with
  | none => Prog.fault "bget: the list has no end"
  | some (some b) => do
    set (s.setRefcnt b ((s.buf b).refcnt + 1))
    pure b
  | some none =>
    -- Recycle the least recently used unused buffer.
    match firstAlong s.prev (fun b => (s.buf b).refcnt == 0) HEAD (NBUF + 1) (s.prev HEAD) with
    | none => Prog.fault "bget: the list has no end"
    | some (some b) => do
      set (s.set b { s.buf b with dev, blockno, valid := false, refcnt := 1 })
      pure b
    | some none => Prog.panic "bget: no buffers"

def bread (dev blockno : Nat) : Prog Bio Nat := do
  let b ← bget dev blockno
  let s ← get
  if (s.buf b).valid then pure b
  else do
    let t := s.diskRead b
    set (t.set b { t.buf b with valid := true })
    pure b

def bwrite (b : Nat) : Prog Bio Unit := modify fun s => s.diskWrite b

def brelse (b : Nat) : Prog Bio Unit := modify fun s => s.release b

end ThuKernel
