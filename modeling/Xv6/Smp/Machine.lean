import Mathlib
import Xv6.Lib.Run

/-!
The kernel threads of `proc.c`, `pipe.c`, `consoleread` and `sys_sleep` on any number of CPUs.

A thread is the scheduler of a CPU or the kernel thread of a process. Each has a control point (`Pc`),
`next` gives the action it takes there and where it goes on, and `step` lets one CPU perform one action:
an acquire or a release, an assignment to a shared field, a test, or `swtch`. A spinlock that is held is
waited for by taking no step. A panic stops the machine: it has no step.
-/

namespace Xv6.Smp

open Transition Function

abbrev Slot := Fin 64

/-- The slot of the `i`-th turn of a loop over `proc[NPROC]`. -/
def slot? (i : Nat) : Option Slot := if h : i < 64 then some ⟨i, h⟩ else none

scoped instance slots : NeZero 64 := ⟨by decide⟩

def initproc : Slot := 0

def pipesize : Nat := 512

inductive ProcState
  | unused
  | used
  | sleeping
  | runnable
  | running
  | zombie
  deriving DecidableEq

/-- What a driver or another kernel module sleeps on, with a lock of its own. -/
inductive Dev
  | ticks
  | cons
  | other (n : Nat)
  deriving DecidableEq

inductive Lock
  | wait
  | proc (p : Slot)
  | pipe (pi : Nat)
  | dev (d : Dev)
  deriving DecidableEq

inductive Chan
  | proc (p : Slot)
  | nread (pi : Nat)
  | nwrite (pi : Nat)
  | dev (d : Dev)
  deriving DecidableEq

structure Proc where
  state : ProcState
  chan : Option Chan
  killed : Bool
  xstate : Int
  pid : Int
  parent : Option Slot
  sz : Nat
  pagetable : Bool
  trapframe : Bool
  deriving DecidableEq

def Proc.free : Proc := ⟨.unused, none, false, 0, 0, none, 0, false, false⟩

/-- `sent` and `got` record the bytes appended and consumed so far, each with the number of the call
that did it. -/
structure Pipe where
  data : Nat → UInt8
  nread : BitVec 32
  nwrite : BitVec 32
  readopen : Bool
  writeopen : Bool
  sent : List (Nat × UInt8)
  got : List (Nat × UInt8)

/-- The arguments and the loop counter of a `pipewrite`: `buf` are the `n` bytes at `addr`. A negative
`n` does what `n = 0` does. `id` is the number of the call. -/
structure Write where
  pi : Nat
  buf : List UInt8
  i : Nat
  id : Nat
  deriving DecidableEq

/-- The arguments and the loop counter of a `piperead`. -/
structure Read where
  pi : Nat
  n : Nat
  i : Nat
  id : Nat
  deriving DecidableEq

/-- The calls of `sleep`, with what the caller needs when it goes on. -/
inductive Site
  | wait (addr : Nat)
  | pipewrite (w : Write)
  | piperead (r : Read)
  | consoleread (target n : Nat)
  | sysSleep (ticks0 : BitVec 32) (n : Nat)
  /-- a sleep that `kill` does not end, as in `acquiresleep` or `begin_op` -/
  | block (d : Dev)
  deriving DecidableEq

def Site.lock : Site → Lock
  | .wait _ => .wait
  | .pipewrite w => .pipe w.pi
  | .piperead r => .pipe r.pi
  | .consoleread _ _ => .dev .cons
  | .sysSleep _ _ => .dev .ticks
  | .block d => .dev d

def Site.chan (p : Slot) : Site → Chan
  | .wait _ => .proc p
  | .pipewrite w => .nwrite w.pi
  | .piperead r => .nread r.pi
  | .consoleread _ _ => .dev .cons
  | .sysSleep _ _ => .dev .ticks
  | .block d => .dev d

/-- The control points. `k` is where a subroutine or an interrupt returns to. -/
inductive Pc
  -- scheduler
  | loop (i : Nat)
  | check (q : Slot)
  | setCpu (q : Slot)
  | enter (q : Slot)
  | clearCpu (q : Slot)
  | unlock (q : Slot)
  -- user space, the return of a system call, the end of a process
  | user
  | ret (v : Int)
  | dead
  -- forkret and yield
  | forkret
  | yieldAcq (k : Pc)
  | yieldSet (k : Pc)
  | yieldSwtch (k : Pc)
  | yieldRel (k : Pc)
  -- sleep
  | sleepAcq (σ : Site)
  | sleepRel (σ : Site)
  | sleepChan (σ : Site)
  | sleepSet (σ : Site)
  | sleepSwtch (σ : Site)
  | sleepTidy (σ : Site)
  | sleepUnlock (σ : Site)
  | sleepLock (σ : Site)
  -- wakeup
  | wake (ch : Chan) (i : Nat) (k : Pc)
  | wakeTest (ch : Chan) (q : Slot) (k : Pc)
  | wakeRel (ch : Chan) (q : Slot) (k : Pc)
  -- kill, setkilled, killed
  | kill (pid : Int) (i : Nat)
  | killTest (pid : Int) (q : Slot)
  | killRel (pid : Int) (q : Slot)
  | killNext (pid : Int) (q : Slot)
  | setkilledAcq
  | setkilledSet
  | setkilledRel
  | killedAcq (σ : Site)
  | killedRead (σ : Site)
  | killedRel (σ : Site) (k : Bool)
  -- release of the lock of a call that returns -1
  | fail (l : Lock)
  -- fork, with allocproc
  | fork (i : Nat)
  | forkTest (q : Slot)
  | forkNext (q : Slot)
  | forkPid (q : Slot)
  | forkUsed (q : Slot)
  | forkTrapframe (q : Slot)
  | forkPagetable (q : Slot)
  | forkContext (q : Slot)
  | forkCopy (q : Slot)
  | forkFree (q : Slot)
  | forkFail (q : Slot)
  | forkSz (q : Slot)
  | forkRel (q : Slot) (pid : Int)
  | forkWait (q : Slot) (pid : Int)
  | forkParent (q : Slot) (pid : Int)
  | forkUnwait (q : Slot) (pid : Int)
  | forkAcq (q : Slot) (pid : Int)
  | forkRunnable (q : Slot) (pid : Int)
  | forkUnlock (q : Slot) (pid : Int)
  -- exit, with reparent
  | exit (status : Int)
  | reparent (status : Int) (i : Nat)
  | exitAcq (status : Int)
  | exitStatus (status : Int)
  | exitZombie (status : Int)
  | exitRel
  | exitSwtch
  -- wait
  | wait (addr : Nat)
  | waitScan (addr : Nat) (i : Nat) (havekids : Bool)
  | waitTest (addr : Nat) (q : Slot)
  | waitNext (addr : Nat) (q : Slot)
  | waitFail (q : Slot)
  | waitFree (q : Slot)
  | waitRel (q : Slot) (pid : Int)
  | waitUnwait (pid : Int)
  -- pipewrite, piperead, pipeclose
  | pipewrite (w : Write)
  | writeLoop (w : Write)
  | writeFull (w : Write)
  | writePut (w : Write)
  | writeRel (w : Write)
  | piperead (r : Read)
  | readWait (r : Read)
  | readLoop (r : Read)
  | readGet (r : Read)
  | readOut (r : Read)
  | readRel (r : Read)
  | pipeclose (pi : Nat) (writable : Bool)
  | closeEnd (pi : Nat) (writable : Bool)
  | closeRel (pi : Nat)
  -- consoleread, sys_sleep, other sleeps
  | consoleread (n : Nat)
  | consLoop (target n : Nat)
  | consGet (target n : Nat)
  | sysSleep (n : Nat)
  | ticksRead (n : Nat)
  | ticksLoop (ticks0 : BitVec 32) (n : Nat)
  | block (d : Dev)
  | blockLoop (d : Dev)
  | devRel (d : Dev) (v : Int)
  -- a driver or another module makes progress and wakes those who wait for it
  | notify (d : Dev) (k : Pc)
  | notifySet (d : Dev) (k : Pc)
  | notifyRel (d : Dev) (k : Pc)
  deriving DecidableEq

/-- Where the caller of `sleep` goes on when `sleep` returns: it tests its condition again. -/
def Site.resume : Site → Pc
  | .wait addr => .waitScan addr 0 false
  | .pipewrite w => .writeLoop w
  | .piperead r => .readWait r
  | .consoleread t n => .consLoop t n
  | .sysSleep t n => .ticksLoop t n
  | .block d => .blockLoop d

/-- Where the caller of `killed` goes on when it is not killed. -/
def Site.alive : Site → Pc
  | .pipewrite w => .writeFull w
  | σ => .sleepAcq σ

inductive Upd
  | state (v : ProcState)
  | chan (v : Option Chan)
  /-- the critical section of `kill` -/
  | kill
  | killed
  | xstate (v : Int)
  | parent (v : Option Slot)
  | pid (v : Int)
  | trapframe
  | pagetable
  | sz (v : Nat)
  /-- `freeproc` -/
  | free
  deriving DecidableEq

def Upd.apply : Upd → Proc → Proc
  | .state v, p => { p with state := v }
  | .chan v, p => { p with chan := v }
  | .kill, p => { p with killed := true, state := if p.state = .sleeping then .runnable else p.state }
  | .killed, p => { p with killed := true }
  | .xstate v, p => { p with xstate := v }
  | .parent v, p => { p with parent := v }
  | .pid v, p => { p with pid := v }
  | .trapframe, p => { p with trapframe := true }
  | .pagetable, p => { p with pagetable := true }
  | .sz v, p => { p with sz := v }
  | .free, _ => .free

inductive Act
  | skip
  | acquire (l : Lock)
  | release (l : Lock)
  | set (q : Slot) (u : Upd)
  /-- `allocpid` for the slot, with `pid_lock` taken and released -/
  | allocpid (q : Slot)
  /-- `allocproc` sets up the context to start at `forkret` -/
  | context (q : Slot)
  /-- `p->state = ZOMBIE`, by the process that passed `status` to `exit` -/
  | zombie (q : Slot) (status : Int)
  /-- `freeproc` in `wait` -/
  | reap (q : Slot)
  /-- `c->proc = v` -/
  | cpuProc (v : Option Slot)
  /-- `swtch` from the scheduler to a process -/
  | swtchTo (q : Slot)
  /-- `swtch` from a process to the scheduler -/
  | swtch
  | put (w : Write) (b : UInt8)
  | get (r : Read)
  | close (pi : Nat) (writable : Bool)
  | device (d : Dev) (v : BitVec 32)
  | consGet
  deriving DecidableEq

structure Exit where
  birth : Nat
  pid : Int
  status : Int
  deriving DecidableEq

/-- `cur c` is the process on whose kernel stack CPU `c` runs, none for its scheduler; `cpuProc` is
`c->proc`. `saved p` says that `p->context` can be switched to. `created`, `birth`, `exits` and `reaped`
number the processes in the order of `allocpid` and record what was passed to `exit` and what `wait`
returned; `calls` numbers the calls of `pipewrite` and `piperead`. -/
structure State (C : Type*) where
  proc : Slot → Proc
  lock : Lock → Option C
  cpuProc : C → Option Slot
  cur : C → Option Slot
  ppc : Slot → Pc
  spc : C → Pc
  saved : Slot → Bool
  nextpid : BitVec 32
  pipe : Nat → Pipe
  ticks : BitVec 32
  consR : BitVec 32
  consW : BitVec 32
  created : Nat
  birth : Slot → Nat
  exits : List Exit
  reaped : List Exit
  calls : Nat

variable {C : Type*} [DecidableEq C]

def State.pc (s : State C) (c : C) : Pc :=
  match s.cur c with
  | none => s.spc c
  | some p => s.ppc p

def Pipe.empty (pi : Pipe) : Prop := pi.nread = pi.nwrite

def Pipe.full (pi : Pipe) : Prop := pi.nwrite = pi.nread + BitVec.ofNat 32 pipesize

instance (pi : Pipe) : Decidable pi.empty := inferInstanceAs (Decidable (_ = _))

instance (pi : Pipe) : Decidable pi.full := inferInstanceAs (Decidable (_ = _))

/-- The next action of a thread at a control point and where it goes on. `me` is `myproc()`, none in a
scheduler. `o` stands for what the model leaves open: a nonzero `o` lets an allocation or a copy
succeed, a condition hold or a device make progress. -/
def next (s : State C) (me : Option Slot) (o : Nat) : Pc → Option (Act × Pc)
  | .loop i =>
    match slot? i with
    | some q => some (.acquire (.proc q), .check q)
    | none => some (.skip, .loop 0)
  | .check q =>
    if (s.proc q).state = .runnable then some (.set q (.state .running), .setCpu q) else some (.skip, .unlock q)
  | .setCpu q => some (.cpuProc (some q), .enter q)
  | .enter q => some (.swtchTo q, .clearCpu q)
  | .clearCpu q => some (.cpuProc none, .unlock q)
  | .unlock q => some (.release (.proc q), .loop (q + 1))
  | .user => none
  | .ret _ => some (.skip, .user)
  -- "zombie exit"
  | .dead => none
  | .forkret => me.map fun p => (.release (.proc p), .user)
  | .yieldAcq k => me.map fun p => (.acquire (.proc p), .yieldSet k)
  | .yieldSet k => me.map fun p => (.set p (.state .runnable), .yieldSwtch k)
  | .yieldSwtch k => me.map fun _ => (.swtch, .yieldRel k)
  | .yieldRel k => me.map fun p => (.release (.proc p), k)
  | .sleepAcq σ => me.map fun p => (.acquire (.proc p), .sleepRel σ)
  | .sleepRel σ => me.map fun _ => (.release σ.lock, .sleepChan σ)
  | .sleepChan σ => me.map fun p => (.set p (.chan (some (σ.chan p))), .sleepSet σ)
  | .sleepSet σ => me.map fun p => (.set p (.state .sleeping), .sleepSwtch σ)
  | .sleepSwtch σ => me.map fun _ => (.swtch, .sleepTidy σ)
  | .sleepTidy σ => me.map fun p => (.set p (.chan none), .sleepUnlock σ)
  | .sleepUnlock σ => me.map fun p => (.release (.proc p), .sleepLock σ)
  | .sleepLock σ => some (.acquire σ.lock, σ.resume)
  | .wake ch i k =>
    match slot? i with
    | some q => if me = some q then some (.skip, .wake ch (i + 1) k) else some (.acquire (.proc q), .wakeTest ch q k)
    | none => some (.skip, k)
  | .wakeTest ch q k =>
    if (s.proc q).state = .sleeping ∧ (s.proc q).chan = some ch then
      some (.set q (.state .runnable), .wakeRel ch q k)
    else some (.skip, .wakeRel ch q k)
  | .wakeRel ch q k => some (.release (.proc q), .wake ch (q + 1) k)
  | .kill pid i =>
    match slot? i with
    | some q => some (.acquire (.proc q), .killTest pid q)
    | none => some (.skip, .ret (-1))
  | .killTest pid q =>
    if (s.proc q).pid = pid then some (.set q .kill, .killRel pid q) else some (.skip, .killNext pid q)
  | .killRel _ q => some (.release (.proc q), .ret 0)
  | .killNext pid q => some (.release (.proc q), .kill pid (q + 1))
  | .setkilledAcq => me.map fun p => (.acquire (.proc p), .setkilledSet)
  | .setkilledSet => me.map fun p => (.set p .killed, .setkilledRel)
  | .setkilledRel => me.map fun p => (.release (.proc p), .user)
  | .killedAcq σ => me.map fun p => (.acquire (.proc p), .killedRead σ)
  | .killedRead σ => me.map fun p => (.skip, .killedRel σ (s.proc p).killed)
  | .killedRel σ k => me.map fun p => (.release (.proc p), if k then .fail σ.lock else σ.alive)
  | .fail l => some (.release l, .ret (-1))
  | .fork i =>
    match slot? i with
    | some q => some (.acquire (.proc q), .forkTest q)
    | none => some (.skip, .ret (-1))
  | .forkTest q => if (s.proc q).state = .unused then some (.skip, .forkPid q) else some (.skip, .forkNext q)
  | .forkNext q => some (.release (.proc q), .fork (q + 1))
  | .forkPid q => some (.allocpid q, .forkUsed q)
  | .forkUsed q => some (.set q (.state .used), .forkTrapframe q)
  | .forkTrapframe q => if o ≠ 0 then some (.set q .trapframe, .forkPagetable q) else some (.skip, .forkFree q)
  | .forkPagetable q => if o ≠ 0 then some (.set q .pagetable, .forkContext q) else some (.skip, .forkFree q)
  | .forkContext q => some (.context q, .forkCopy q)
  -- uvmcopy
  | .forkCopy q => if o ≠ 0 then some (.skip, .forkSz q) else some (.skip, .forkFree q)
  | .forkFree q => some (.set q .free, .forkFail q)
  | .forkFail q => some (.release (.proc q), .ret (-1))
  | .forkSz q => me.map fun p => (.set q (.sz (s.proc p).sz), .forkRel q (s.proc q).pid)
  | .forkRel q pid => some (.release (.proc q), .forkWait q pid)
  | .forkWait q pid => some (.acquire .wait, .forkParent q pid)
  | .forkParent q pid => me.map fun p => (.set q (.parent (some p)), .forkUnwait q pid)
  | .forkUnwait q pid => some (.release .wait, .forkAcq q pid)
  | .forkAcq q pid => some (.acquire (.proc q), .forkRunnable q pid)
  | .forkRunnable q pid => some (.set q (.state .runnable), .forkUnlock q pid)
  | .forkUnlock q pid => some (.release (.proc q), .ret pid)
  | .exit v => some (.acquire .wait, .reparent v 0)
  | .reparent v i =>
    match slot? i with
    | some q =>
      if me.isSome ∧ (s.proc q).parent = me then
        some (.set q (.parent (some initproc)), .wake (.proc initproc) 0 (.reparent v (i + 1)))
      else some (.skip, .reparent v (i + 1))
    | none =>
      -- no process sleeps on the address 0 that `wakeup` gets from a process without a parent
      match me.bind fun p => (s.proc p).parent with
      | some r => some (.skip, .wake (.proc r) 0 (.exitAcq v))
      | none => some (.skip, .exitAcq v)
  | .exitAcq v => me.map fun p => (.acquire (.proc p), .exitStatus v)
  | .exitStatus v => me.map fun p => (.set p (.xstate v), .exitZombie v)
  | .exitZombie v => me.map fun p => (.zombie p v, .exitRel)
  | .exitRel => some (.release .wait, .exitSwtch)
  | .exitSwtch => me.map fun _ => (.swtch, .dead)
  | .wait addr => some (.acquire .wait, .waitScan addr 0 false)
  | .waitScan addr i havekids =>
    match slot? i with
    | some q =>
      if me.isSome ∧ (s.proc q).parent = me then some (.acquire (.proc q), .waitTest addr q)
      else some (.skip, .waitScan addr (i + 1) havekids)
    | none => some (.skip, if havekids then .killedAcq (.wait addr) else .fail .wait)
  | .waitTest addr q =>
    if (s.proc q).state = .zombie then
      if addr ≠ 0 ∧ o = 0 then some (.skip, .waitFail q) else some (.skip, .waitFree q)
    else some (.skip, .waitNext addr q)
  | .waitNext addr q => some (.release (.proc q), .waitScan addr (q + 1) true)
  | .waitFail q => some (.release (.proc q), .fail .wait)
  | .waitFree q => some (.reap q, .waitRel q (s.proc q).pid)
  | .waitRel q pid => some (.release (.proc q), .waitUnwait pid)
  | .waitUnwait pid => some (.release .wait, .ret pid)
  | .pipewrite w => some (.acquire (.pipe w.pi), .writeLoop w)
  | .writeLoop w =>
    if w.i < w.buf.length then
      if (s.pipe w.pi).readopen then some (.skip, .killedAcq (.pipewrite w)) else some (.skip, .fail (.pipe w.pi))
    else some (.skip, .wake (.nread w.pi) 0 (.writeRel w))
  | .writeFull w =>
    if (s.pipe w.pi).full then some (.skip, .wake (.nread w.pi) 0 (.sleepAcq (.pipewrite w)))
    else some (.skip, .writePut w)
  -- copyin
  | .writePut w =>
    if o ≠ 0 then some (.put w (w.buf.getD w.i 0), .writeLoop { w with i := w.i + 1 })
    else some (.skip, .wake (.nread w.pi) 0 (.writeRel w))
  | .writeRel w => some (.release (.pipe w.pi), .ret w.i)
  | .piperead r => some (.acquire (.pipe r.pi), .readWait r)
  | .readWait r =>
    if (s.pipe r.pi).empty ∧ (s.pipe r.pi).writeopen then some (.skip, .killedAcq (.piperead r))
    else some (.skip, .readLoop r)
  | .readLoop r =>
    if r.i < r.n ∧ ¬ (s.pipe r.pi).empty then some (.skip, .readGet r)
    else some (.skip, .wake (.nwrite r.pi) 0 (.readRel r))
  | .readGet r => some (.get r, .readOut r)
  -- copyout
  | .readOut r =>
    if o ≠ 0 then some (.skip, .readLoop { r with i := r.i + 1 })
    else some (.skip, .wake (.nwrite r.pi) 0 (.readRel r))
  | .readRel r => some (.release (.pipe r.pi), .ret r.i)
  | .pipeclose pi writable => some (.acquire (.pipe pi), .closeEnd pi writable)
  | .closeEnd pi writable =>
    some (.close pi writable, .wake (if writable then .nread pi else .nwrite pi) 0 (.closeRel pi))
  | .closeRel pi => some (.release (.pipe pi), .ret 0)
  | .consoleread n => some (.acquire (.dev .cons), .consLoop n n)
  | .consLoop target n =>
    if 0 < n then
      if s.consR = s.consW then some (.skip, .killedAcq (.consoleread target n)) else some (.skip, .consGet target n)
    else some (.skip, .devRel .cons target)
  -- end of file or a failed copy, the end of a line, any other character
  | .consGet target n =>
    match o with
    | 0 => some (.consGet, .devRel .cons (target - n))
    | 1 => some (.consGet, .devRel .cons (target - (n - 1 : Nat)))
    | _ => some (.consGet, .consLoop target (n - 1))
  | .sysSleep n => some (.acquire (.dev .ticks), .ticksRead n)
  | .ticksRead n => some (.skip, .ticksLoop s.ticks n)
  | .ticksLoop t n =>
    if (s.ticks - t).toNat < n then some (.skip, .killedAcq (.sysSleep t n)) else some (.skip, .devRel .ticks 0)
  | .block d => some (.acquire (.dev d), .blockLoop d)
  | .blockLoop d => if o = 0 then some (.skip, .sleepAcq (.block d)) else some (.skip, .devRel d 0)
  | .devRel d v => some (.release (.dev d), .ret v)
  | .notify d k => some (.acquire (.dev d), .notifySet d k)
  | .notifySet d k => some (.device d (BitVec.ofNat 32 o), .wake (.dev d) 0 (.notifyRel d k))
  | .notifyRel d k => some (.release (.dev d), k)

def Pipe.put (pi : Pipe) (id : Nat) (b : UInt8) : Pipe :=
  { pi with
    data := update pi.data (pi.nwrite.toNat % pipesize) b
    nwrite := pi.nwrite + 1
    sent := pi.sent ++ [(id, b)] }

def Pipe.get (pi : Pipe) (id : Nat) : Pipe :=
  { pi with
    nread := pi.nread + 1
    got := pi.got ++ [(id, pi.data (pi.nread.toNat % pipesize))] }

def Pipe.close (pi : Pipe) (writable : Bool) : Pipe :=
  if writable then { pi with writeopen := false } else { pi with readopen := false }

def State.exitOf (s : State C) (q : Slot) : Exit := ⟨s.birth q, (s.proc q).pid, (s.proc q).xstate⟩

/-- The effect of an action of the thread `me` on CPU `c`. -/
def Act.run (c : C) (me : Option Slot) (s : State C) : Act → Option (State C)
  | .skip => some s
  | .acquire l => if s.lock l = none then some { s with lock := update s.lock l (some c) } else none
  | .release l => some { s with lock := update s.lock l none }
  | .set q u => some { s with proc := update s.proc q (u.apply (s.proc q)) }
  | .allocpid q => some { s with
      proc := update s.proc q ((Upd.pid s.nextpid.toInt).apply (s.proc q))
      nextpid := s.nextpid + 1
      created := s.created + 1
      birth := update s.birth q s.created }
  | .context q => some { s with
      ppc := update s.ppc q .forkret
      saved := update s.saved q true }
  | .zombie q status => some { s with
      proc := update s.proc q ((Upd.state .zombie).apply (s.proc q))
      exits := s.exits ++ [⟨s.birth q, (s.proc q).pid, status⟩] }
  | .reap q => some { s with
      proc := update s.proc q (Upd.free.apply (s.proc q))
      reaped := s.reaped ++ [s.exitOf q] }
  | .cpuProc v => some { s with cpuProc := update s.cpuProc c v }
  | .swtchTo q => some { s with
      cur := update s.cur c (some q)
      saved := update s.saved q false }
  | .swtch => me.map fun p => { s with
      cur := update s.cur c none
      saved := update s.saved p true }
  | .put w b => some { s with pipe := update s.pipe w.pi ((s.pipe w.pi).put w.id b) }
  | .get r => some { s with pipe := update s.pipe r.pi ((s.pipe r.pi).get r.id) }
  | .close pi writable => some { s with pipe := update s.pipe pi ((s.pipe pi).close writable) }
  | .device .ticks _ => some { s with ticks := s.ticks + 1 }
  | .device .cons v => some { s with consW := v }
  | .device (.other _) _ => some s
  | .consGet => some { s with consR := s.consR + 1 }

/-- The thread that was at work on CPU `c` goes on at `k`. -/
def State.goto (s : State C) (c : C) (me : Option Slot) (k : Pc) : State C :=
  match me with
  | none => { s with spc := update s.spc c k }
  | some p => { s with ppc := update s.ppc p k }

/-- The locks that a thread holds at a control point. -/
def Pc.held (me : Option Slot) : Pc → List Lock
  | .loop _ | .user | .ret _ | .sleepLock _ | .kill _ _ | .setkilledAcq | .fork _ | .exit _ | .wait _
  | .forkWait _ _ | .forkAcq _ _ | .pipewrite _ | .piperead _ | .pipeclose _ _ | .consoleread _ | .sysSleep _
  | .block _ => []
  | .check q | .setCpu q | .enter q | .clearCpu q | .unlock q | .killTest _ q | .killRel _ q | .killNext _ q
  | .forkTest q | .forkNext q | .forkPid q | .forkUsed q | .forkTrapframe q | .forkPagetable q | .forkContext q
  | .forkCopy q | .forkFree q | .forkFail q | .forkSz q | .forkRel q _ | .forkRunnable q _ | .forkUnlock q _ =>
    [.proc q]
  | .dead | .forkret | .sleepChan _ | .sleepSet _ | .sleepSwtch _ | .sleepTidy _ | .sleepUnlock _
  | .setkilledSet | .setkilledRel | .exitSwtch => (me.map Lock.proc).toList
  | .yieldAcq k => k.held me
  | .yieldSet k | .yieldSwtch k | .yieldRel k => (me.map Lock.proc).toList ++ k.held me
  | .sleepAcq σ | .killedAcq σ => [σ.lock]
  | .sleepRel σ | .killedRead σ | .killedRel σ _ => (me.map Lock.proc).toList ++ [σ.lock]
  | .wake _ _ k => k.held me
  | .wakeTest _ q k | .wakeRel _ q k => .proc q :: k.held me
  | .fail l => [l]
  | .forkParent _ _ | .forkUnwait _ _ | .reparent _ _ | .exitAcq _ | .waitScan _ _ _ | .waitUnwait _ => [.wait]
  | .exitStatus _ | .exitZombie _ | .exitRel => (me.map Lock.proc).toList ++ [.wait]
  | .waitTest _ q | .waitNext _ q | .waitFail q | .waitFree q | .waitRel q _ => [.proc q, .wait]
  | .writeLoop w | .writeFull w | .writePut w | .writeRel w => [.pipe w.pi]
  | .readWait r | .readLoop r | .readGet r | .readOut r | .readRel r => [.pipe r.pi]
  | .closeEnd pi _ | .closeRel pi => [.pipe pi]
  | .consLoop _ _ | .consGet _ _ => [.dev .cons]
  | .ticksRead _ | .ticksLoop _ _ => [.dev .ticks]
  | .blockLoop d | .devRel d _ => [.dev d]
  | .notify _ k => k.held me
  | .notifySet d k | .notifyRel d k => .dev d :: k.held me

/-- A system call or a trap from user space. -/
inductive Call
  | fork
  | exit (status : Int)
  | wait (addr : Nat)
  | kill (pid : Int)
  | pipewrite (pi : Nat) (buf : List UInt8)
  | piperead (pi n : Nat)
  | pipeclose (pi : Nat) (writable : Bool)
  | consoleread (n : Nat)
  | sysSleep (n : Nat)
  | setkilled
  | block (d : Dev)
  | notify (d : Dev)
  deriving DecidableEq

def Call.isExit : Call → Bool
  | .exit _ => true
  | _ => false

/-- The entry of a call, with `id` the number of the call. What `exit` does before it takes `wait_lock`
is a sequence of other calls here. -/
def Call.entry (id : Nat) : Call → Pc
  | .fork => .fork 0
  | .exit status => .exit status
  | .wait addr => .wait addr
  | .kill pid => .kill pid 0
  | .pipewrite pi buf => .pipewrite ⟨pi, buf, 0, id⟩
  | .piperead pi n => .piperead ⟨pi, n, 0, id⟩
  | .pipeclose pi writable => .pipeclose pi writable
  | .consoleread n => .consoleread n
  | .sysSleep n => .sysSleep n
  | .setkilled => .setkilledAcq
  | .block d => .block d
  | .notify d => .notify d .user

inductive Ev (C : Type*)
  /-- the thread on the CPU takes its next step -/
  | run (c : C) (o : Nat)
  /-- the process on the CPU enters the kernel from user space -/
  | call (c : C) (f : Call)
  /-- a timer interrupt makes the process on the CPU yield -/
  | timer (c : C)
  /-- a device interrupt on the CPU -/
  | intr (c : C) (d : Dev)
  deriving DecidableEq

/-- A spinlock keeps the interrupts of its CPU off. -/
def step (s : State C) : Ev C → Option (State C)
  | .run c o =>
    (next s (s.cur c) o (s.pc c)).bind fun (a, k) => (a.run c (s.cur c) s).map fun t => t.goto c (s.cur c) k
  | .call c f =>
    match s.cur c with
    | none => none
    | some p =>
      -- `exit` panics in init
      if s.ppc p = .user ∧ ¬ (p = initproc ∧ f.isExit) then
        some ({ s with calls := s.calls + 1 }.goto c (some p) (f.entry s.calls))
      else none
  | .timer c =>
    match s.cur c with
    | none => none
    | some p => if (s.ppc p).held (some p) = [] then some (s.goto c (some p) (.yieldAcq (s.ppc p))) else none
  | .intr c d =>
    if (s.pc c).held (s.cur c) = [] then some (s.goto c (s.cur c) (.notify d (s.pc c))) else none

def Pipe.fresh : Pipe := ⟨fun _ => 0, 0, 0, true, true, [], []⟩

/-- After `userinit`: init is `RUNNABLE` and has not run, and every CPU starts its scheduler. -/
def booted : State C where
  proc p := if p = initproc then ⟨.runnable, none, false, 0, 1, none, 4096, true, true⟩ else .free
  lock _ := none
  cpuProc _ := none
  cur _ := none
  ppc p := if p = initproc then .forkret else .dead
  spc _ := .loop 0
  saved p := decide (p = initproc)
  nextpid := 2
  pipe _ := .fresh
  ticks := 0
  consR := 0
  consW := 0
  created := 1
  birth _ := 0
  exits := []
  reaped := []
  calls := 0

end Xv6.Smp
