import Xv6.Lib.LinkedRing
import Xv6.Log

namespace Xv6.Bio

open Function
open Log (Geom maxOpBlocks logSize)

abbrev nbuf : Nat := 30
abbrev rootdev : Nat := 1

/-- `bcache.head` as a node of the list. -/
abbrev head : Nat := nbuf

variable {α : Type}

/-- `struct buf` without its links; of the sleep-lock only whether it is locked. -/
structure Buf (α : Type) where
  valid : Bool
  dev : Nat
  blockno : Nat
  refcnt : Nat
  data : α
  locked : Bool

structure Cache (α : Type) where
  buf : Nat → Buf α
  /-- the links of the buffers and of `bcache.head` -/
  next : Nat → Nat
  prev : Nat → Nat

namespace Cache

def setBuf (c : Cache α) (i : Nat) (b : Buf α) : Cache α := { c with buf := update c.buf i b }

/-- The four assignments that put a buffer behind `bcache.head`. -/
def pushFront (c : Cache α) (i : Nat) : Cache α :=
  { c with
    next := update (update c.next i (c.next head)) head i
    prev := update (update c.prev i head) (c.next head) i }

/-- `b->next->prev = b->prev; b->prev->next = b->next`. -/
def unlink (c : Cache α) (i : Nat) : Cache α :=
  let prev := update c.prev (c.next i) (c.prev i)
  { c with prev := prev, next := update c.next (prev i) (c.next i) }

/-- `binit`, over memory that is zero but for the data `x`. -/
def binit (x : α) : Cache α :=
  (List.range nbuf).foldl pushFront
    { buf := fun _ => ⟨false, 0, 0, 0, x, false⟩, next := fun _ => head, prev := fun _ => head }

/-- The first loop of `bget`: the buffer that caches the block. -/
def cached (c : Cache α) (dev blockno : Nat) : Option Nat :=
  LinkedRing.scan c.next head (fun i => (c.buf i).dev = dev ∧ (c.buf i).blockno = blockno) (nbuf + 1) (c.next head)

/-- The second loop of `bget`: the least recently used buffer that is not in use. -/
def unused (c : Cache α) : Option Nat :=
  LinkedRing.scan c.prev head (fun i => (c.buf i).refcnt = 0) (nbuf + 1) (c.prev head)

def incr (c : Cache α) (i : Nat) : Cache α := c.setBuf i { c.buf i with refcnt := (c.buf i).refcnt + 1 }

def decr (c : Cache α) (i : Nat) : Cache α := c.setBuf i { c.buf i with refcnt := (c.buf i).refcnt - 1 }

/-- `bget` up to its `acquiresleep`; `none` is `panic("bget: no buffers")`. -/
def bget (c : Cache α) (dev blockno : Nat) : Option (Nat × Cache α) :=
  match c.cached dev blockno with
  | some i => some (i, c.incr i)
  | none =>
    match c.unused with
    | some i =>
      some (i, c.setBuf i { c.buf i with dev := dev, blockno := blockno, valid := false, refcnt := 1 })
    | none => none

def setLocked (c : Cache α) (i : Nat) (locked : Bool) : Cache α := c.setBuf i { c.buf i with locked := locked }

def setData (c : Cache α) (i : Nat) (x : α) : Cache α := c.setBuf i { c.buf i with data := x }

/-- `bread` once it has the lock: the contents come from the disk if they are not there yet. -/
def fill (c : Cache α) (disk : Nat → α) (i : Nat) : Cache α :=
  if (c.buf i).valid then c
  else c.setBuf i { c.buf i with data := disk (c.buf i).blockno, valid := true }

/-- `brelse` after its `releasesleep`. -/
def drop (c : Cache α) (i : Nat) : Cache α :=
  let c := c.decr i
  if (c.buf i).refcnt = 0 then (c.unlink i).pushFront i else c

end Cache

/-- Where the use of a buffer stands, from `bget` to the end of `brelse`. -/
inductive Stage
  /-- in `acquiresleep` -/
  | waits
  /-- `bget` has returned, `bread` has not -/
  | got
  | holds
  /-- in `brelse`, after `releasesleep` -/
  | leaves
  deriving DecidableEq

/-- A call of `bread(dev, blockno)`, to the end of the `brelse` of the buffer. -/
structure Use where
  buf : Nat
  dev : Nat
  blockno : Nat
  stage : Stage
  deriving DecidableEq

/-- Who calls `bread`: the processes, each buffer they use under a number of its own, and the two
variables of the commit. -/
inductive User
  | proc (n : Nat)
  | lbuf
  | dbuf
  deriving DecidableEq

/-- What the functions under `commit` do to buffers. -/
inductive Instr
  | bread (u : User) (blockno : Nat)
  | memmove (dst src : User)
  /-- the header is copied into the buffer -/
  | putHead (u : User)
  | bwrite (u : User)
  | bunpin (u : User)
  | brelse (u : User)
  /-- `log.lh.n = 0` -/
  | clear
  deriving DecidableEq

/-- The parts of `commit`: one round of the loop of `write_log` or of `install_trans`, or one call
of `write_head`. -/
inductive Part
  | writeLog (tail : Nat)
  | writeHead
  | installTrans (tail : Nat)
  | clear
  | eraseHead
  /-- `commit` has returned -/
  | done
  deriving DecidableEq

def writeHeadCode (g : Geom) : List Instr := [.bread .lbuf g.start, .putHead .lbuf, .bwrite .lbuf, .brelse .lbuf]

def Part.code (g : Geom) (lh : List Nat) : Part → List Instr
  | .writeLog tail =>
    [.bread .lbuf (g.start + tail + 1), .bread .dbuf (lh.getD tail 0), .memmove .lbuf .dbuf, .bwrite .lbuf,
      .brelse .dbuf, .brelse .lbuf]
  | .writeHead => writeHeadCode g
  | .installTrans tail =>
    [.bread .lbuf (g.start + tail + 1), .bread .dbuf (lh.getD tail 0), .memmove .dbuf .lbuf, .bwrite .dbuf,
      .bunpin .dbuf, .brelse .lbuf, .brelse .dbuf]
  | .clear => [.clear]
  | .eraseHead => writeHeadCode g
  | .done => []

/-- What comes after a part, for `n` logged blocks; the commit ends after `done`. -/
def Part.next (n : Nat) : Part → Option Part
  | .writeLog tail => some (if tail + 1 < n then .writeLog (tail + 1) else .writeHead)
  | .writeHead => some (.installTrans 0)
  | .installTrans tail => some (if tail + 1 < n then .installTrans (tail + 1) else .clear)
  | .clear => some .eraseHead
  | .eraseHead => some .done
  | .done => none

structure Pc where
  part : Part
  k : Nat
  deriving DecidableEq

structure State (α : Type) where
  cache : Cache α
  disk : Nat → α
  use : User → Option Use
  /-- buffers changed and since then neither logged nor written, with the operation that changed them -/
  dirty : List (User × Option Nat)
  /-- `log.lh.block[0..log.lh.n)` -/
  lh : List Nat
  /-- operations between `begin_op` and `end_op`; `log.outstanding` is their number -/
  ops : List Nat
  /-- where `commit` stands, if `log.committing` -/
  commit : Option Pc
  /-- history: how many blocks of `lh` this commit has installed and unpinned -/
  installed : Nat
  /-- history: what was last stored in each block of the device -/
  mem : Nat → α

/-- After `binit` and the recovery, with the disk `d`. -/
def boot (d : Nat → α) : State α where
  cache := Cache.binit (d 0)
  disk := d
  use := fun _ => none
  dirty := []
  lh := []
  ops := []
  commit := none
  installed := 0
  mem := d

inductive Event (α : Type)
  | bget (n dev blockno : Nat)
  /-- `acquiresleep` gets the lock -/
  | acquire (u : User)
  /-- `bread` returns -/
  | fill (u : User)
  | modify (n op : Nat) (x : α)
  | logWrite (n : Nat)
  /-- `brelse` up to `releasesleep` -/
  | brelse (n : Nat)
  /-- the rest of `brelse` -/
  | drop (u : User)
  | beginOp (op : Nat)
  | endOp (op : Nat)
  | commit

namespace State

def pins (s : State α) : List Nat := s.lh.drop s.installed

def held (s : State α) (u : User) : Option Use := (s.use u).filter (·.stage = .holds)

def bget (s : State α) (u : User) (dev blockno : Nat) : Option (State α) :=
  match s.use u, s.cache.bget dev blockno with
  | none, some (i, c) => some { s with cache := c, use := update s.use u (some ⟨i, dev, blockno, .waits⟩) }
  | _, _ => none

def acquire (s : State α) (u : User) : Option (State α) :=
  match s.use u with
  | some ⟨i, dev, blockno, .waits⟩ =>
    if (s.cache.buf i).locked then none
    else some { s with cache := s.cache.setLocked i true, use := update s.use u (some ⟨i, dev, blockno, .got⟩) }
  | _ => none

def fill (s : State α) (u : User) : Option (State α) :=
  match s.use u with
  | some ⟨i, dev, blockno, .got⟩ =>
    some { s with cache := s.cache.fill s.disk i, use := update s.use u (some ⟨i, dev, blockno, .holds⟩) }
  | _ => none

def store (s : State α) (u : User) (op : Option Nat) (x : α) : Option (State α) :=
  match s.held u with
  | some p =>
    some { s with
      cache := s.cache.setData p.buf x
      mem := update s.mem (s.cache.buf p.buf).blockno x
      dirty := (u, op) :: s.dirty }
  | none => none

def clean (s : State α) (u : User) : State α := { s with dirty := s.dirty.filter (·.1 ≠ u) }

/-- `log_write`, on the device of the log; its panics are no steps. -/
def logWrite (g : Geom) (s : State α) (u : User) : Option (State α) :=
  match s.held u with
  | some p =>
    let blockno := (s.cache.buf p.buf).blockno
    if p.dev ≠ rootdev ∨ s.lh.length ≥ logSize ∨ s.lh.length + 1 ≥ g.size ∨ s.ops = [] then none
    else if blockno ∈ s.lh then some (s.clean u)
    else some { s.clean u with lh := s.lh ++ [blockno], cache := s.cache.incr p.buf }
  | none => none

def releasesleep (s : State α) (u : User) : Option (State α) :=
  match s.held u with
  | some p =>
    some { s with cache := s.cache.setLocked p.buf false, use := update s.use u (some { p with stage := .leaves }) }
  | none => none

def drop (s : State α) (u : User) : Option (State α) :=
  match s.use u with
  | some ⟨i, _, _, .leaves⟩ => some { s with cache := s.cache.drop i, use := update s.use u none }
  | _ => none

def bwrite (s : State α) (u : User) : Option (State α) :=
  match s.held u with
  | some p =>
    some { s.clean u with disk := update s.disk (s.cache.buf p.buf).blockno (s.cache.buf p.buf).data }
  | none => none

def bunpin (s : State α) (u : User) : Option (State α) :=
  match s.held u with
  | some p => some { s with cache := s.cache.decr p.buf, installed := s.installed + 1 }
  | none => none

/-- The next instruction may run: the `bread` or `brelse` before it has returned. -/
def Settled (s : State α) (u : User) : Prop := ∀ p ∈ s.use u, p.stage = .holds

instance (s : State α) (u : User) : Decidable (s.Settled u) :=
  inferInstanceAs (Decidable (∀ p ∈ s.use u, _))

def instr (putHead : List Nat → α → α) (s : State α) : Instr → Option (State α)
  | .bread u blockno => s.bget u rootdev blockno
  | .memmove dst src =>
    match s.held src with
    | some p => s.store dst none (s.cache.buf p.buf).data
    | none => none
  | .putHead u =>
    match s.held u with
    | some p => s.store u none (putHead s.lh (s.cache.buf p.buf).data)
    | none => none
  | .bwrite u => s.bwrite u
  | .bunpin u => s.bunpin u
  | .brelse u => s.releasesleep u
  | .clear => some { s with lh := [], installed := 0 }

def commitStep (g : Geom) (putHead : List Nat → α → α) (s : State α) : Option (State α) :=
  match s.commit with
  | none => none
  | some pc =>
    if s.Settled .lbuf ∧ s.Settled .dbuf then
      match (pc.part.code g s.lh)[pc.k]? with
      | some i => (s.instr putHead i).map fun t => { t with commit := some { pc with k := pc.k + 1 } }
      | none => some { s with commit := (pc.part.next s.lh.length).map (⟨·, 0⟩) }
    else none

/-- `begin_op`; a process that does not pass the test sleeps. -/
def beginOp (s : State α) (op : Nat) : Option (State α) :=
  if s.commit.isSome ∨ s.lh.length + (s.ops.length + 1) * maxOpBlocks > logSize ∨ op ∈ s.ops then none
  else some { s with ops := op :: s.ops }

/-- `end_op`, by a process that has logged what it changed. -/
def endOp (s : State α) (op : Nat) : Option (State α) :=
  if op ∉ s.ops ∨ ∃ x ∈ s.dirty, x.2 = some op then none
  else
    let ops := s.ops.erase op
    if ops = [] then
      some { s with ops := ops, commit := some ⟨if s.lh = [] then .done else .writeLog 0, 0⟩ }
    else some { s with ops := ops }

/-- One step. A process changes a buffer only while it holds it and its operation is open, and gives it
back only after `log_write`. -/
def step (g : Geom) (putHead : List Nat → α → α) (s : State α) : Event α → Option (State α)
  | .bget n dev blockno => s.bget (.proc n) dev blockno
  | .acquire u => s.acquire u
  | .fill u => s.fill u
  | .modify n op x =>
    if op ∈ s.ops ∧ ∀ p ∈ s.use (.proc n), p.dev = rootdev then s.store (.proc n) (some op) x else none
  | .logWrite n => s.logWrite g (.proc n)
  | .brelse n => if ∃ x ∈ s.dirty, x.1 = .proc n then none else s.releasesleep (.proc n)
  | .drop u => s.drop u
  | .beginOp op => s.beginOp op
  | .endOp op => s.endOp op
  | .commit => s.commitStep g putHead

end State

end Xv6.Bio
