-- The driver of the disk (virtio_disk.c), cut where other requests, the device
-- and its interrupt may come in between, and the device at the other end.
import ThuKernel.Lib.Prog
import ThuKernel.Fs.Layout
import Mathlib.Logic.Function.Basic

namespace ThuKernel.Virtio

/-- The number of descriptors. -/
def NUM : Nat := 8

def VRING_DESC_F_NEXT : Nat := 1
def VRING_DESC_F_WRITE : Nat := 2
def VIRTIO_BLK_T_IN : Nat := 0
def VIRTIO_BLK_T_OUT : Nat := 1

/-- What a descriptor points to: `&disk.ops[i]`, the data of a buffer, or
`&disk.info[i].status`. -/
inductive Addr where
  | null
  | ops (i : Nat)
  | data (b : Nat)
  | status (i : Nat)

structure virtq_desc where
  addr : Addr
  len : Nat
  flags : Nat
  next : Nat

structure virtio_blk_req where
  type : Nat
  reserved : Nat
  sector : Nat

/-- One of the two rings: the counter of the side that adds to it, and the heads
of chains. -/
structure virtq where
  idx : Nat
  ring : Nat → Nat

/-- The buffer and the status of the chain that starts at a descriptor. -/
structure Info where
  b : Option Nat
  status : Nat

/-- A buffer, as far as the driver goes: `disk` is set while the disk owns it. -/
structure buf where
  blockno : Nat
  disk : Bool

structure Disk where
  desc : Nat → virtq_desc
  avail : virtq
  used : virtq
  free : Nat → Bool
  used_idx : Nat
  info : Nat → Info
  ops : Nat → virtio_blk_req
  bufs : Nat → buf

/-! ## Descriptors -/

def setDesc (i : Nat) (x : virtq_desc) : Prog Disk Unit :=
  modify fun d => { d with desc := Function.update d.desc i x }

def setInfo (i : Nat) (x : Info) : Prog Disk Unit :=
  modify fun d => { d with info := Function.update d.info i x }

def setFree (i : Nat) (x : Bool) : Prog Disk Unit :=
  modify fun d => { d with free := Function.update d.free i x }

def setBuf (b : Nat) (disk : Bool) : Prog Disk Unit :=
  modify fun d => { d with bufs := Function.update d.bufs b { d.bufs b with disk } }

/-- The first free descriptor. -/
def alloc_desc : Prog Disk (Option Nat) := do
  let d ← get
  match (List.range NUM).find? d.free with
  | none => pure none
  | some i => do
    setFree i false
    pure (some i)

def free_desc (i : Nat) : Prog Disk Unit := do
  let d ← get
  if NUM ≤ i then Prog.panic "free_desc 1"
  else if d.free i then Prog.panic "free_desc 2"
  else do
    setDesc i ⟨.null, 0, 0, 0⟩
    setFree i true

/-- No descriptor is freed twice, so the loop ends within `NUM` turns. -/
def freeChainLoop : (fuel i : Nat) → Prog Disk Unit
  | 0, _ => Prog.fault "free_chain: does not end"
  | n + 1, i => do
    let d ← get
    let flag := (d.desc i).flags
    let nxt := (d.desc i).next
    free_desc i
    Prog.when (flag &&& VRING_DESC_F_NEXT ≠ 0) (freeChainLoop n nxt)

def free_chain (i : Nat) : Prog Disk Unit := freeChainLoop (NUM + 1) i

/-- The loop of `alloc3_desc` from turn `i`, with `n` turns to go. -/
def alloc3Loop : (n i : Nat) → (idx : Nat → Nat) → Prog Disk (Option (Nat → Nat))
  | 0, _, idx => pure (some idx)
  | n + 1, i, idx => do
    match ← alloc_desc with
    | none => do
      Prog.forUp (fun j => free_desc (idx j)) 0 i
      pure none
    | some x => alloc3Loop n (i + 1) (Function.update idx i x)

def alloc3_desc : Prog Disk (Option (Nat → Nat)) := alloc3Loop 3 0 fun _ => 0

/-! ## Requests -/

/-- `virtio_disk_rw`, from the descriptors to `disk.info[idx[0]].b = b`. -/
def format (idx : Nat → Nat) (b : Nat) (write : Bool) : Prog Disk Unit := do
  let d ← get
  let sector := (d.bufs b).blockno * (BSIZE / 512) % 2 ^ 32
  let buf0 : virtio_blk_req := ⟨if write then VIRTIO_BLK_T_OUT else VIRTIO_BLK_T_IN, 0, sector⟩
  modify fun d => { d with ops := Function.update d.ops (idx 0) buf0 }
  setDesc (idx 0) ⟨.ops (idx 0), 16, VRING_DESC_F_NEXT, idx 1⟩
  setDesc (idx 1) ⟨.data b, BSIZE, (if write then 0 else VRING_DESC_F_WRITE) ||| VRING_DESC_F_NEXT,
    idx 2⟩
  let d ← get
  setInfo (idx 0) { d.info (idx 0) with status := 0xfb }
  setDesc (idx 2) ⟨.status (idx 0), 1, VRING_DESC_F_WRITE, 0⟩
  setBuf b true
  let d ← get
  setInfo (idx 0) { d.info (idx 0) with b := some b }

/-- The head goes into the ring, and then the counter is one up. -/
def publish (idx : Nat → Nat) : Prog Disk Unit := do
  modify fun d =>
    { d with
      avail := { d.avail with ring := Function.update d.avail.ring (d.avail.idx % NUM) (idx 0) } }
  modify fun d => { d with avail := { d.avail with idx := (d.avail.idx + 1) % 2 ^ 16 } }

/-- `virtio_disk_rw` after the wait. -/
def finish (idx : Nat → Nat) : Prog Disk Unit := do
  let d ← get
  setInfo (idx 0) { d.info (idx 0) with b := none }
  free_chain (idx 0)

/-- One turn of the loop of `virtio_disk_intr`. Returns the buffer that the disk
is done with. -/
def intrTurn : Prog Disk Nat := do
  let d ← get
  let id := d.used.ring (d.used_idx % NUM)
  if (d.info id).status ≠ 0 then Prog.panic "virtio_disk_intr status"
  else match (d.info id).b with
    | none => Prog.fault "null pointer"
    | some b => do
      setBuf b false
      modify fun d => { d with used_idx := (d.used_idx + 1) % 2 ^ 16 }
      pure b

/-- The loop of `virtio_disk_intr`. -/
def intrLoop : (fuel : Nat) → Prog Disk Unit
  | 0 => pure ()
  | n + 1 => do
    let d ← get
    if d.used_idx = d.used.idx then pure ()
    else do
      let _ ← intrTurn
      intrLoop n

/-- `used_idx` counts modulo 2 ^ 16, so it meets the other counter in fewer turns. -/
def virtio_disk_intr : Prog Disk Unit := intrLoop (2 ^ 16)

/-! ## The device -/

/-- The buffer that the device finds in a chain. -/
def Disk.carried (d : Disk) (head : Nat) : Option Nat :=
  match (d.desc (d.desc head).next).addr with
  | .data b => some b
  | _ => none

/-- The device is done with a chain: the last descriptor says where the status
goes, and the head goes into the used ring. -/
def Disk.complete (d : Disk) (head : Nat) : Disk :=
  let last := d.desc (d.desc (d.desc head).next).next
  let info := match last.addr with
    | .status i => Function.update d.info i { d.info i with status := 0 }
    | _ => d.info
  { d with
    info
    used := ⟨(d.used.idx + 1) % 2 ^ 16, Function.update d.used.ring (d.used.idx % NUM) head⟩ }

/-! ## The system -/

/-- Where a requester is. -/
inductive Phase where
  | idle
  | starting (b : Nat) (write : Bool)
  | formatting (idx : Nat → Nat) (b : Nat) (write : Bool)
  | publishing (idx : Nat → Nat) (b : Nat)
  | waiting (idx : Nat → Nat) (b : Nat)

/-- The driver with its requesters, and the device with the counter up to which
it has seen the avail ring and the chains that it works on. What has happened is
kept in three lists of buffers: those handed to the disk, those whose chain the
device has completed, and those that the handler has given back. -/
structure System where
  disk : Disk
  phase : Nat → Phase
  seen : Nat
  working : List Nat
  asked : List Nat
  served : List Nat
  told : List Nat

/-- After `virtio_disk_init`. -/
def start (blockno : Nat → Nat) (ops : Nat → virtio_blk_req) : System where
  disk :=
    { desc := fun _ => ⟨.null, 0, 0, 0⟩
      avail := ⟨0, fun _ => 0⟩
      used := ⟨0, fun _ => 0⟩
      free := fun i => decide (i < NUM)
      used_idx := 0
      info := fun _ => ⟨none, 0⟩
      ops
      bufs := fun b => ⟨blockno b, false⟩ }
  phase := fun _ => .idle
  seen := 0
  working := []
  asked := []
  served := []
  told := []

/-- A step of a requester, of the handler or of the device. A request that `ok`
allows is formatted. -/
inductive Step (ok : Disk → Nat → Prop) : System → System → Prop
  | call {s : System} (r b blockno : Nat) (write : Bool) (h : s.phase r = .idle) :
      Step ok s { s with
        disk := { s.disk with bufs := Function.update s.disk.bufs b { s.disk.bufs b with blockno } }
        phase := Function.update s.phase r (.starting b write) }
  | alloc {s : System} {d : Disk} (r b : Nat) (write : Bool) (idx : Nat → Nat)
      (h : s.phase r = .starting b write) (hrun : alloc3_desc s.disk = .ok (some idx, d)) :
      Step ok s { s with disk := d, phase := Function.update s.phase r (.formatting idx b write) }
  | retry {s : System} {d : Disk} (r b : Nat) (write : Bool) (h : s.phase r = .starting b write)
      (hrun : alloc3_desc s.disk = .ok (none, d)) : Step ok s { s with disk := d }
  | format {s : System} {d : Disk} (r b : Nat) (write : Bool) (idx : Nat → Nat)
      (h : s.phase r = .formatting idx b write) (hok : ok s.disk b)
      (hrun : format idx b write s.disk = .ok ((), d)) :
      Step ok s { s with
        disk := d
        phase := Function.update s.phase r (.publishing idx b)
        asked := s.asked ++ [b] }
  | publish {s : System} {d : Disk} (r b : Nat) (idx : Nat → Nat) (h : s.phase r =
      .publishing idx b)
      (hrun : publish idx s.disk = .ok ((), d)) :
      Step ok s { s with disk := d, phase := Function.update s.phase r (.waiting idx b) }
  | finish {s : System} {d : Disk} (r b : Nat) (idx : Nat → Nat) (h : s.phase r = .waiting idx b)
      (hdone : (s.disk.bufs b).disk = false) (hrun : finish idx s.disk = .ok ((), d)) :
      Step ok s { s with disk := d, phase := Function.update s.phase r .idle }
  | intr {s : System} {d : Disk} (b : Nat) (h : s.disk.used_idx ≠ s.disk.used.idx)
      (hrun : intrTurn s.disk = .ok (b, d)) : Step ok s { s with disk := d, told := s.told ++ [b] }
  | take {s : System} (h : s.seen ≠ s.disk.avail.idx) :
      Step ok s { s with
        seen := (s.seen + 1) % 2 ^ 16
        working := s.disk.avail.ring (s.seen % NUM) :: s.working }
  | complete {s : System} (head : Nat) (h : head ∈ s.working) :
      Step ok s { s with
        disk := s.disk.complete head
        working := s.working.erase head
        served := s.served ++ (s.disk.carried head).toList }

end ThuKernel.Virtio
