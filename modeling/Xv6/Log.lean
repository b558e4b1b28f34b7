import Mathlib.Logic.Function.Basic
import Mathlib.Data.List.Basic
import Xv6.Lib.Run

namespace Xv6.Log

/-- Most blocks one file system operation may write. -/
def maxOpBlocks : Nat := 10

def logSize : Nat := maxOpBlocks * 3

/-- `log.start` and `log.size`; the header is the first block of the area. -/
structure Geom where
  start : Nat
  size : Nat

def Geom.Area (g : Geom) (b : Nat) : Prop := g.start ≤ b ∧ b < g.start + g.size

instance (g : Geom) (b : Nat) : Decidable (g.Area b) := inferInstanceAs (Decidable (_ ∧ _))

variable {β : Type}

/-- The disk as the log sees it: the header block, whose first `n` entries are `head`,
and the contents of every other block. -/
structure Disk (β : Type) where
  head : List Nat
  block : Nat → β

def Disk.write (d : Disk β) (b : Nat) (v : β) : Disk β :=
  { d with block := Function.update d.block b v }

/-- The loop of `install_trans`, from entry `tail` on, when every block is read from the disk. -/
def installTrans (g : Geom) : Disk β → Nat → List Nat → Disk β
  | d, _, [] => d
  | d, tail, b :: rest => installTrans g (d.write b (d.block (g.start + tail + 1))) (tail + 1) rest

/-- `read_head`, `install_trans(1)`, then `write_head` with an empty header. -/
def recoverFromLog (g : Geom) (d : Disk β) : Disk β :=
  { installTrans g d 0 d.head with head := [] }

/-- Where `commit` or `recover_from_log` stands between two disk writes. -/
inductive Pc
  | idle
  | writeLog (tail : Nat)
  | installTrans (tail : Nat)
  | committed
  | recover (tail : Nat)
  deriving DecidableEq

/-- The machine: the disk, and everything a crash loses. -/
structure State (β : Type) where
  disk : Disk β
  /-- valid buffers of the block cache -/
  cache : Nat → Option β
  pinned : Nat → Bool
  /-- process and block for each buffer that is locked and modified but not yet logged -/
  held : List (Nat × Nat)
  /-- `log.lh.block[0..log.lh.n)` -/
  lh : List Nat
  outstanding : Nat
  committing : Bool
  pc : Pc
  /-- processes between their `begin_op` and `end_op` -/
  ops : List Nat

/-- Memory right after `read_head` in the `recover_from_log` of a boot. -/
def boot (d : Disk β) : State β where
  disk := d
  cache := fun _ => none
  pinned := fun _ => false
  held := []
  lh := d.head
  outstanding := 0
  committing := false
  pc := .recover 0
  ops := []

namespace State

def bread (s : State β) (b : Nat) : β := (s.cache b).getD (s.disk.block b)

def setCache (s : State β) (b : Nat) (v : Option β) : State β :=
  { s with cache := Function.update s.cache b v }

def bwrite (s : State β) (b : Nat) (v : β) : State β :=
  { s.setCache b (some v) with disk := s.disk.write b v }

def writeHead (s : State β) : State β := { s with disk := { s.disk with head := s.lh } }

def bunpin (s : State β) (b : Nat) : State β :=
  { s with pinned := Function.update s.pinned b false }

def fillRelease (s : State β) (b : Nat) (v : β) : State β :=
  { s.setCache b (some v) with held := s.held.filter (·.2 ≠ b) }

def FreeFor (s : State β) (p b : Nat) : Prop := ∀ x ∈ s.held, x.2 = b → x.1 = p

instance (s : State β) (p b : Nat) : Decidable (s.FreeFor p b) :=
  inferInstanceAs (Decidable (∀ x ∈ s.held, _))

/-- `begin_op`; a process that fails the admission test sleeps. -/
def beginOp (s : State β) (p : Nat) : Option (State β) :=
  if s.committing then none
  else if s.lh.length + (s.outstanding + 1) * maxOpBlocks > logSize then none
  else some { s with outstanding := s.outstanding + 1, ops := p :: s.ops }

/-- `end_op` up to the point where the last operation enters `commit`. -/
def endOp (s : State β) (p : Nat) : Except String (State β) :=
  let s := { s with outstanding := s.outstanding - 1, ops := s.ops.erase p }
  if s.committing then .error "log.committing"
  else if s.outstanding = 0 then
    .ok { s with committing := true, pc := if 0 < s.lh.length then .writeLog 0 else .committed }
  else .ok s

/-- `log_write`: both limits are tested before absorption is considered. -/
def logWrite (g : Geom) (s : State β) (b : Nat) : Except String (State β) :=
  if logSize ≤ s.lh.length ∨ g.size - 1 ≤ s.lh.length then .error "too big a transaction"
  else if s.outstanding < 1 then .error "log_write outside of trans"
  else if b ∈ s.lh then .ok s
  else .ok { s with lh := s.lh ++ [b], pinned := Function.update s.pinned b true }

end State

/-- One step of the machine: a call, a step of the block cache, one disk write of `commit`
or of recovery, or a crash. -/
inductive Ev (β : Type)
  /-- `begin_op` that returns -/
  | beginOp (p : Nat)
  /-- `p` changes a buffer it holds -/
  | modify (p b : Nat) (v : β)
  /-- `p` makes its last change to a buffer, calls `log_write` and `brelse` -/
  | logWrite (p b : Nat) (v : β)
  | endOp (p : Nat)
  /-- some process reads a block into the cache -/
  | bread (b : Nat)
  /-- the cache recycles an unpinned buffer that nobody holds -/
  | evict (b : Nat)
  /-- next block of `write_log` -/
  | writeLog
  /-- first `write_head` of `commit` -/
  | writeHead
  /-- next block of `install_trans(0)` -/
  | install
  /-- second `write_head` of `commit` -/
  | eraseHead
  /-- the end of `end_op` after `commit` -/
  | wakeup
  /-- next block of `install_trans(1)` -/
  | recoverBlock
  /-- `write_head` of `recover_from_log` -/
  | recoverHead
  /-- power loss and reboot -/
  | crash

def State.up (s : State β) : Bool :=
  match s.pc with
  | .recover _ => false
  | _ => true

/-- The calls of a process that is inside an operation. A panic stops the machine. -/
def opStep (g : Geom) (s : State β) : Ev β → Option (State β)
  | .modify p b v =>
    if p ∈ s.ops ∧ s.FreeFor p b ∧ ¬ g.Area b then
      some { s.setCache b (some v) with held := (p, b) :: s.held }
    else none
  | .logWrite p b v =>
    if p ∈ s.ops ∧ s.FreeFor p b ∧ ¬ g.Area b then
      (State.logWrite g (s.fillRelease b v) b).toOption
    else none
  | .endOp p => if p ∈ s.ops ∧ ∀ x ∈ s.held, x.1 ≠ p then (s.endOp p).toOption else none
  | _ => none

/-- One disk write of `commit` or of `recover_from_log`, in the order the code issues them. -/
def diskStep (g : Geom) (s : State β) : Ev β → Option (State β)
  | .writeLog =>
    match s.pc with
    | .writeLog t => do
      let b ← s.lh[t]?
      some { s.bwrite (g.start + t + 1) (s.bread b) with pc := .writeLog (t + 1) }
    | _ => none
  | .writeHead =>
    match s.pc with
    | .writeLog t => if t = s.lh.length then some { s.writeHead with pc := .installTrans 0 } else none
    | _ => none
  | .install =>
    match s.pc with
    | .installTrans t => do
      let b ← s.lh[t]?
      some { (s.bwrite b (s.bread (g.start + t + 1))).bunpin b with pc := .installTrans (t + 1) }
    | _ => none
  | .eraseHead =>
    match s.pc with
    | .installTrans t =>
      if t = s.lh.length then some { ({ s with lh := [] } : State β).writeHead with pc := .committed }
      else none
    | _ => none
  | .recoverBlock =>
    match s.pc with
    | .recover t => do
      let b ← s.lh[t]?
      some { s.bwrite b (s.bread (g.start + t + 1)) with pc := .recover (t + 1) }
    | _ => none
  | .recoverHead =>
    match s.pc with
    | .recover t =>
      if t = s.lh.length then some { ({ s with lh := [] } : State β).writeHead with pc := .idle }
      else none
    | _ => none
  | _ => none

def step (g : Geom) (s : State β) : Ev β → Option (State β)
  | .beginOp p => if s.up ∧ p ∉ s.ops then s.beginOp p else none
  | .modify p b v => opStep g s (.modify p b v)
  | .logWrite p b v => opStep g s (.logWrite p b v)
  | .endOp p => opStep g s (.endOp p)
  | .bread b => some (s.setCache b (some (s.bread b)))
  | .evict b =>
    if s.pinned b = false ∧ ∀ x ∈ s.held, x.2 ≠ b then some (s.setCache b none) else none
  | .wakeup => if s.pc = .committed then some { s with committing := false, pc := .idle } else none
  | .crash => some (boot s.disk)
  | e => diskStep g s e

end Xv6.Log
