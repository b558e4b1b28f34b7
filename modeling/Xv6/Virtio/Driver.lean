import Mathlib
import Xv6.Lib.Run

namespace Xv6.Virtio

open Function

/-- `NUM`: the number of descriptors, and the size of the rings. -/
abbrev num : Nat := 8

/-- What a descriptor points at. -/
inductive Addr
  | null
  | ops (i : Nat)
  /-- the data of a buffer -/
  | data (b : Nat)
  | status (i : Nat)
  deriving DecidableEq

def vringDescFNext : BitVec 16 := 1
def vringDescFWrite : BitVec 16 := 2

/-- `struct virtq_desc`. -/
structure Desc where
  addr : Addr
  len : Nat
  flags : BitVec 16
  next : Nat
  deriving DecidableEq

def Desc.zero : Desc := ⟨.null, 0, 0, 0⟩

/-- `struct virtio_blk_req`; `type` is `VIRTIO_BLK_T_OUT` for a write. -/
structure BlkReq where
  write : Bool
  sector : Nat
  deriving DecidableEq

/-- `disk`, with the `disk` fields of the buffers. -/
structure Driver where
  desc : Nat → Desc
  free : Nat → Bool
  ops : Nat → BlkReq
  /-- `disk.info[i].b` -/
  infoB : Nat → Option Nat
  /-- `disk.info[i].status` -/
  infoStatus : Nat → Nat
  /-- `disk.avail->ring` -/
  availRing : Nat → Nat
  /-- `disk.avail->idx` -/
  availIdx : BitVec 16
  /-- `disk.used_idx` -/
  usedIdx : BitVec 16
  /-- `b->disk` -/
  bdisk : Nat → Bool

/-- Driver code; an error is a panic. -/
abbrev M := StateT Driver (Except String)

def allocDesc : M (Option Nat) := do
  let d ← get
  match (List.range num).find? d.free with
  | none => return none
  | some i =>
    set { d with free := update d.free i false }
    return some i

def freeDesc (i : Nat) : M Unit := do
  let d ← get
  if i ≥ num then throw "free_desc 1"
  if d.free i then throw "free_desc 2"
  set { d with desc := update d.desc i .zero, free := update d.free i true }

/-- `free_chain`; a chain is no longer than the table. -/
def freeChain : (fuel : Nat) → (i : Nat) → M Unit
  | 0, _ => throw "free_chain"
  | fuel + 1, i => do
    let d := (← get).desc i
    freeDesc i
    if d.flags &&& vringDescFNext ≠ 0 then freeChain fuel d.next

def alloc3Desc : M (Option (Nat × Nat × Nat)) := do
  match ← allocDesc with
  | none => return none
  | some i0 =>
    match ← allocDesc with
    | none =>
      freeDesc i0
      return none
    | some i1 =>
      match ← allocDesc with
      | none =>
        freeDesc i0
        freeDesc i1
        return none
      | some i2 => return some (i0, i1, i2)

/-- `virtio_disk_rw` once it has its descriptors: it formats them and hands the chain to the device. -/
def Driver.publish (d : Driver) (b blockno : Nat) (write : Bool) (i0 i1 i2 : Nat) : Driver :=
  let desc := update d.desc i0 ⟨.ops i0, 16, vringDescFNext, i1⟩
  let desc := update desc i1 ⟨.data b, 1024, (if write then 0 else vringDescFWrite) ||| vringDescFNext, i2⟩
  let desc := update desc i2 ⟨.status i0, 1, vringDescFWrite, 0⟩
  { d with
    ops := update d.ops i0 ⟨write, blockno * 2 % 2 ^ 32⟩
    desc := desc
    infoStatus := update d.infoStatus i0 0xff
    bdisk := update d.bdisk b true
    infoB := update d.infoB i0 (some b)
    availRing := update d.availRing (d.availIdx.toNat % num) i0
    availIdx := d.availIdx + 1 }

/-- `virtio_disk_rw` under the lock up to its second `sleep`, or to the first one if there are not
enough descriptors. -/
def submit (b blockno : Nat) (write : Bool) : M (Option (Nat × Nat × Nat)) := do
  match ← alloc3Desc with
  | none => return none
  | some (i0, i1, i2) =>
    modify (·.publish b blockno write i0 i1 i2)
    return some (i0, i1, i2)

/-- `virtio_disk_rw` after a wakeup from its second `sleep`: whether it returns. -/
def collect (b i0 : Nat) : M Bool := do
  let d ← get
  if d.bdisk b then return false
  set { d with infoB := update d.infoB i0 none }
  freeChain num i0
  return true

/-- One round of the loop of `virtio_disk_intr`: the chain that is done and its buffer. -/
def handleUsed (ring : Nat → Nat) : M (Nat × Nat) := do
  let d ← get
  let id := ring (d.usedIdx.toNat % num)
  if d.infoStatus id ≠ 0 then throw "virtio_disk_intr status"
  match d.infoB id with
  | none => throw "null pointer"
  | some b =>
    set { d with bdisk := update d.bdisk b false, usedIdx := d.usedIdx + 1 }
    return (id, b)

/-- The disk: the used ring, how far it has come in the avail ring, and the chains it works on. -/
structure Device where
  usedRing : Nat → Nat
  /-- `disk.used->idx` -/
  usedIdx : BitVec 16
  lastAvail : BitVec 16
  busy : List Nat

/-- A call of `virtio_disk_rw`. -/
structure Call where
  b : Nat
  blockno : Nat
  write : Bool
  /-- `idx`, once the request is published -/
  chain : Option (Nat × Nat × Nat)
  /-- history: the device has completed the request -/
  done : Bool
  deriving DecidableEq

structure State where
  drv : Driver
  dev : Device
  call : Nat → Option Call
  /-- `virtio_disk_intr` has the lock -/
  intr : Bool
  panicked : Option String
  /-- history: the chains that the device has put in the used ring -/
  completed : List Nat
  /-- history: the chains that `virtio_disk_intr` has taken from it, and the buffers it found -/
  handled : List (Nat × Nat)

/-- After `virtio_disk_init`. -/
def boot : State where
  drv :=
    { desc := fun _ => .zero, free := fun _ => true, ops := fun _ => ⟨false, 0⟩, infoB := fun _ => none,
      infoStatus := fun _ => 0, availRing := fun _ => 0, availIdx := 0, usedIdx := 0, bdisk := fun _ => false }
  dev := { usedRing := fun _ => 0, usedIdx := 0, lastAvail := 0, busy := [] }
  call := fun _ => none
  intr := false
  panicked := none
  completed := []
  handled := []

inductive Event
  /-- process `p` calls `virtio_disk_rw` -/
  | call (p b blockno : Nat) (write : Bool)
  /-- it runs with the lock until it sleeps -/
  | submit (p : Nat)
  /-- it runs again after a wakeup -/
  | collect (p : Nat)
  /-- `virtio_disk_intr` gets the lock -/
  | intr
  /-- the next round of its loop, or its end -/
  | handle
  /-- the device takes the next chain from the avail ring -/
  | take
  /-- the device completes a chain -/
  | complete (h : Nat)
  deriving DecidableEq

namespace State

def run {α : Type} (s : State) (m : M α) (k : α → Driver → State) : State :=
  match m s.drv with
  | .ok (a, d) => k a d
  | .error e => { s with panicked := some e }

/-- The device writes the status where the last descriptor of the chain says. -/
def statusOf (d : Driver) (h : Nat) : Nat → Nat :=
  match (d.desc (d.desc (d.desc h).next).next).addr with
  | .status i => update d.infoStatus i 0
  | _ => d.infoStatus

def markDone (call : Nat → Option Call) (h : Nat) (p : Nat) : Option Call :=
  (call p).map fun c => if c.chain.map (·.1) = some h then { c with done := true } else c

end State

/-- One step; `virtio_disk_rw` and `virtio_disk_intr` run under `vdisk_lock`, the device does not. A caller
holds the sleep-lock of its buffer, so no other call is for that buffer. -/
inductive Step : State → Event → State → Prop
  | call {s : State} {p b blockno : Nat} {write : Bool} (hp : s.call p = none)
      (hb : ∀ q c, s.call q = some c → c.b ≠ b) :
      Step s (.call p b blockno write) { s with call := update s.call p (some ⟨b, blockno, write, none, false⟩) }
  | submit {s : State} {p : Nat} {c : Call} (hfree : s.intr = false) (hp : s.call p = some c) (hc : c.chain = none) :
      Step s (.submit p) (s.run (submit c.b c.blockno c.write) fun idx d =>
        { s with drv := d, call := update s.call p (some { c with chain := idx }) })
  | collect {s : State} {p : Nat} {c : Call} {i0 i1 i2 : Nat} (hfree : s.intr = false) (hp : s.call p = some c)
      (hc : c.chain = some (i0, i1, i2)) :
      Step s (.collect p) (s.run (collect c.b i0) fun back d =>
        { s with drv := d, call := if back then update s.call p none else s.call })
  | intr {s : State} (hfree : s.intr = false) : Step s .intr { s with intr := true }
  | handle {s : State} (hintr : s.intr = true) (hmore : s.drv.usedIdx ≠ s.dev.usedIdx) :
      Step s .handle (s.run (handleUsed s.dev.usedRing) fun x d => { s with drv := d, handled := s.handled ++ [x] })
  | leave {s : State} (hintr : s.intr = true) (hnone : s.drv.usedIdx = s.dev.usedIdx) :
      Step s .handle { s with intr := false }
  | take {s : State} (hmore : s.dev.lastAvail ≠ s.drv.availIdx) :
      Step s .take { s with
        dev := { s.dev with
          busy := s.drv.availRing (s.dev.lastAvail.toNat % num) :: s.dev.busy
          lastAvail := s.dev.lastAvail + 1 } }
  | complete {s : State} {h : Nat} (hbusy : h ∈ s.dev.busy) :
      Step s (.complete h) { s with
        drv := { s.drv with infoStatus := State.statusOf s.drv h }
        dev := { s.dev with
          busy := s.dev.busy.erase h
          usedRing := update s.dev.usedRing (s.dev.usedIdx.toNat % num) h
          usedIdx := s.dev.usedIdx + 1 }
        call := State.markDone s.call h
        completed := s.completed ++ [h] }

end Xv6.Virtio
