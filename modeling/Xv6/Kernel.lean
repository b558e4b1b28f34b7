import Xv6.Memory
import Xv6.Sysfile

namespace Xv6

open Fs (put)

abbrev nproc : Nat := 64
abbrev nofile : Nat := 16
abbrev nfile : Nat := 100
abbrev ndev : Int := 10

inductive FileType
  | none
  | pipe
  | inode
  | device
  deriving DecidableEq

/-- `struct file`; `pipe` is the address of the pipe's page and `ip` an index into the inode table. -/
structure File where
  type : FileType
  ref : Int
  readable : Bool
  writable : Bool
  pipe : Nat
  ip : Nat
  off : Nat
  major : Int

structure Pipe where
  readopen : Bool
  writeopen : Bool
  deriving DecidableEq

inductive ProcState
  | unused
  | used
  | runnable
  | zombie
  deriving DecidableEq

/-- `struct proc`. The kernel has no field `guard`: it records which page `exec` left without `PTE_U`
below the stack, and which page of a child is a copy of it. -/
structure Proc where
  state : ProcState
  pid : Nat
  parent : Option Nat
  sz : Nat
  pagetable : Nat
  trapframe : Nat
  ofile : Nat → Option Nat
  cwd : Option Nat
  guard : Option Nat

def Proc.empty : Proc := ⟨.unused, 0, none, 0, 0, 0, fun _ => none, none, none⟩

def File.empty : File := ⟨.none, 0, false, false, 0, 0, 0, 0⟩

/-- The kernel between system calls that run one at a time. `pipe` gives the pipe in a page that
`pipealloc` took and `pipeclose` has not freed. -/
structure Kernel where
  fs : Fs.State
  mem : Vm.Mem
  file : Nat → File
  pipe : Nat → Option Pipe
  proc : Nat → Proc
  nextpid : Nat

abbrev initproc : Nat := 0

/-- A fault of the file system, of virtual memory, or of the rest of the kernel. -/
inductive KFault
  | fs (e : Fault)
  | vm (e : Fault)
  | kernel (e : Fault)
  deriving DecidableEq

abbrev K := StateT Kernel (Except KFault)

def onFs {α : Type} (m : Fs.M α) : K α := fun s =>
  match m s.fs with
  | .ok (a, fs) => .ok (a, { s with fs := fs })
  | .error e => .error (.fs e)

def onMem {α : Type} (m : Vm.M α) : K α := fun s =>
  match m s.mem with
  | .ok (a, mem) => .ok (a, { s with mem := mem })
  | .error e => .error (.vm e)

def panic {α : Type} (msg : String) : K α := throw (.kernel (.panic msg))

def setFile (f : Nat) (v : File) : K Unit := modify fun s => { s with file := put s.file f v }

def setPipe (pa : Nat) (v : Option Pipe) : K Unit := modify fun s => { s with pipe := put s.pipe pa v }

def setProc (p : Nat) (v : Proc) : K Unit := modify fun s => { s with proc := put s.proc p v }

section Wp

open Prog

variable {α : Type} {E : KFault → Prop} {s : Kernel} {Q : α → Kernel → Prop}

theorem wp_onFs {m : Fs.M α} :
    wp (onFs m) Q E s ↔ wp m (fun a fs => Q a { s with fs := fs }) (fun e => E (.fs e)) s.fs := by
  constructor
  · rintro ⟨h⟩
    refine ⟨?_⟩
    unfold onFs at h
    cases hm : m s.fs <;> simpa [hm] using h
  · rintro ⟨h⟩
    refine ⟨?_⟩
    unfold onFs
    cases hm : m s.fs <;> simpa [hm] using h

theorem wp_onMem {m : Vm.M α} :
    wp (onMem m) Q E s ↔ wp m (fun a mem => Q a { s with mem := mem }) (fun e => E (.vm e)) s.mem := by
  constructor
  · rintro ⟨h⟩
    refine ⟨?_⟩
    unfold onMem at h
    cases hm : m s.mem <;> simpa [hm] using h
  · rintro ⟨h⟩
    refine ⟨?_⟩
    unfold onMem
    cases hm : m s.mem <;> simpa [hm] using h

@[simp]
theorem wp_panic {msg : String} : wp (panic msg) Q E s ↔ E (.kernel (.panic msg)) := wp_throw

section
variable {Q : Unit → Kernel → Prop}

@[simp]
theorem wp_setFile {f : Nat} {v : File} : wp (setFile f v) Q E s ↔ Q () { s with file := put s.file f v } := wp_modify

@[simp]
theorem wp_setPipe {pa : Nat} {v : Option Pipe} :
    wp (setPipe pa v) Q E s ↔ Q () { s with pipe := put s.pipe pa v } := wp_modify

@[simp]
theorem wp_setProc {p : Nat} {v : Proc} : wp (setProc p v) Q E s ↔ Q () { s with proc := put s.proc p v } := wp_modify

end

end Wp

def setFd (p fd : Nat) (f : Option Nat) : K Unit := do
  let s ← get
  setProc p { s.proc p with ofile := put (s.proc p).ofile fd f }

@[simp]
theorem wp_setFd {E : KFault → Prop} {s : Kernel} {Q : Unit → Kernel → Prop} {p fd : Nat} {f : Option Nat} :
    Prog.wp (setFd p fd f) Q E s ↔
      Q () { s with proc := put s.proc p { s.proc p with ofile := put (s.proc p).ofile fd f } } := by
  unfold setFd
  rw [Prog.wp_bind, Prog.wp_get, wp_setProc]

def filealloc : K (Option Nat) := do
  let s ← get
  match (List.range nfile).find? fun f => (s.file f).ref == 0 with
  | none => return none
  | some f =>
    setFile f { s.file f with ref := 1 }
    return some f

def filedup (f : Nat) : K Unit := do
  let s ← get
  if (s.file f).ref < 1 then panic "filedup"
  setFile f { s.file f with ref := (s.file f).ref + 1 }

def Pipe.closeEnd (pi : Pipe) (writable : Bool) : Pipe :=
  if writable then { pi with writeopen := false } else { pi with readopen := false }

def pipeclose (pa : Nat) (writable : Bool) : K Unit := do
  let s ← get
  match s.pipe pa with
  -- the page is no longer a pipe
  | none => panic "pipeclose"
  | some pi =>
    let pi := pi.closeEnd writable
    if !pi.readopen ∧ !pi.writeopen then
      setPipe pa none
      onMem (Vm.kfree pa)
    else setPipe pa (some pi)

def fileclose (f : Nat) : K Unit := do
  let s ← get
  let ff := s.file f
  if ff.ref < 1 then panic "fileclose"
  if ff.ref - 1 > 0 then setFile f { ff with ref := ff.ref - 1 }
  else
    setFile f { ff with ref := 0, type := .none }
    match ff.type with
    | .pipe => pipeclose ff.pipe ff.writable
    | .inode | .device =>
      onFs Fs.beginOp
      onFs (Fs.iput ff.ip)
      onFs Fs.endOp
    | .none => return

def pipealloc : K (Option (Nat × Nat)) := do
  let some f0 ← filealloc
    | return none
  let some f1 ← filealloc
    | fileclose f0; return none
  let some pa ← onMem Vm.kalloc
    | fileclose f0; fileclose f1; return none
  setPipe pa (some ⟨true, true⟩)
  let s ← get
  setFile f0 { s.file f0 with type := .pipe, readable := true, writable := false, pipe := pa }
  let s ← get
  setFile f1 { s.file f1 with type := .pipe, readable := false, writable := true, pipe := pa }
  return some (f0, f1)

/-- `argfd`: the descriptor and its file. -/
def argfd (p : Nat) (fd : Int) : K (Option (Nat × Nat)) := do
  if fd < 0 ∨ fd ≥ nofile then return none
  return ((← get).proc p).ofile fd.toNat |>.map fun f => (fd.toNat, f)

def fdalloc (p f : Nat) : K (Option Nat) := do
  let s ← get
  match (List.range nofile).find? fun fd => ((s.proc p).ofile fd).isNone with
  | none => return none
  | some fd =>
    setFd p fd (some f)
    return some fd

def sysDup (p : Nat) (fd : Int) : K Int := do
  let some (_, f) ← argfd p fd
    | return -1
  let some fd ← fdalloc p f
    | return -1
  filedup f
  return fd

def sysClose (p : Nat) (fd : Int) : K Int := do
  let some (fd, f) ← argfd p fd
    | return -1
  setFd p fd none
  fileclose f
  return 0

def sysPipe (p fdarray : Nat) : K Int := do
  let some (rf, wf) ← pipealloc
    | return -1
  let some fd0 ← fdalloc p rf
    | fileclose rf; fileclose wf; return -1
  let some fd1 ← fdalloc p wf
    | setFd p fd0 none; fileclose rf; fileclose wf; return -1
  let pagetable := ((← get).proc p).pagetable
  let copied ← onMem do
    if ← Vm.copyout pagetable fdarray 4 then Vm.copyout pagetable (Vm.uint64 (fdarray + 4)) 4 else return false
  if copied then return 0
  setFd p fd0 none
  setFd p fd1 none
  fileclose rf
  fileclose wf
  return -1

def cwd (p : Nat) : K Nat := do
  match ((← get).proc p).cwd with
  | some k => return k
  -- a null pointer
  | none => panic "cwd"

def sysLink (p : Nat) (old new : Option (List Fs.Byte)) : K Int := do
  match old, new with
  | some old, some new =>
    let dir ← cwd p
    if ← onFs (Fs.link dir old new) then return 0 else return -1
  | _, _ => return -1

def sysUnlink (p : Nat) (path : Option (List Fs.Byte)) : K Int := do
  match path with
  | none => return -1
  | some path =>
    let dir ← cwd p
    if ← onFs (Fs.unlink dir path) then return 0 else return -1

def sysMkdir (p : Nat) (path : Option (List Fs.Byte)) : K Int := do
  let dir ← cwd p
  if ← onFs (Fs.mknod dir path Fs.tDir 0 0) then return 0 else return -1

def sysMknod (p : Nat) (path : Option (List Fs.Byte)) (major minor : Int) : K Int := do
  let dir ← cwd p
  if ← onFs (Fs.mknod dir path Fs.tDevice major minor) then return 0 else return -1

def oWronly : BitVec 32 := 1
def oRdwr : BitVec 32 := 2
def oCreate : BitVec 32 := 0x200
def oTrunc : BitVec 32 := 0x400

def openInode (p : Nat) (path : List Fs.Byte) (omode : BitVec 32) : K (Option Nat) := do
  let dir ← cwd p
  onFs do
    if omode &&& oCreate ≠ 0 then Fs.create dir path Fs.tFile 0 0
    else
      match ← Fs.namei dir path with
      | none => return none
      | some k =>
        Fs.ilock k
        let ip ← Fs.inode k
        if ip.din.type = Fs.tDir ∧ omode ≠ 0 then
          Fs.iunlockput k
          return none
        return some k

def sysOpen (p : Nat) (path : Option (List Fs.Byte)) (omode : BitVec 32) : K Int := do
  let some path := path
    | return -1
  onFs Fs.beginOp
  let some k ← openInode p path omode
    | onFs Fs.endOp; return -1
  let ip ← onFs (Fs.inode k)
  let fail : K Int := do
    onFs (Fs.iunlockput k)
    onFs Fs.endOp
    return -1
  if ip.din.type = Fs.tDevice ∧ (ip.din.major < 0 ∨ ip.din.major ≥ ndev) then fail
  else
    match ← filealloc with
    | none => fail
    | some f =>
      match ← fdalloc p f with
      | none =>
        fileclose f
        fail
      | some fd =>
        let s ← get
        let v := s.file f
        let v := if ip.din.type = Fs.tDevice then { v with type := .device, major := ip.din.major }
          else { v with type := .inode, off := 0 }
        setFile f { v with
          ip := k, readable := omode &&& oWronly = 0, writable := omode &&& oWronly ≠ 0 ∨ omode &&& oRdwr ≠ 0 }
        if omode &&& oTrunc ≠ 0 ∧ ip.din.type = Fs.tFile then onFs (Fs.itrunc k)
        onFs (Fs.iunlock k)
        onFs Fs.endOp
        return fd

def sysChdir (p : Nat) (path : Option (List Fs.Byte)) : K Int := do
  onFs Fs.beginOp
  match path with
  | none => onFs Fs.endOp; return -1
  | some path =>
    let dir ← cwd p
    match ← onFs (Fs.namei dir path) with
    | none => onFs Fs.endOp; return -1
    | some k =>
      onFs (Fs.ilock k)
      let ip ← onFs (Fs.inode k)
      if ip.din.type ≠ Fs.tDir then
        onFs (Fs.iunlockput k)
        onFs Fs.endOp
        return -1
      onFs (Fs.iunlock k)
      onFs (Fs.iput dir)
      onFs Fs.endOp
      let s ← get
      setProc p { s.proc p with cwd := some k }
      return 0

/-- The loop of `filewrite` on an inode: a transaction for every `max` bytes at most. -/
def writeChunks (f : Nat) (src : Nat → Fs.Source) (n : Nat) : (fuel i : Nat) → K Nat
  | 0, i => return i
  | fuel + 1, i => do
    if i < n then
      let n1 := min (n - i) 3072
      onFs Fs.beginOp
      let v := (← get).file f
      onFs (Fs.ilock v.ip)
      let r ← onFs (Fs.writei v.ip (src i) v.off n1)
      if r > 0 then
        let s ← get
        setFile f { s.file f with off := Fs.uint (v.off + r.toNat) }
      onFs (Fs.iunlock v.ip)
      onFs Fs.endOp
      if r ≠ n1 then return i else writeChunks f src n fuel (i + n1)
    else return i

/-- `sys_write`; `src i` is what `copyin` finds from byte `i` on, and `other` what a pipe or a device
returns, which changes nothing here. -/
def sysWrite (p : Nat) (fd : Int) (src : Nat → Fs.Source) (n other : Int) : K Int := do
  let some (_, f) ← argfd p fd
    | return -1
  let v := (← get).file f
  if !v.writable then return -1
  match v.type with
  | .pipe | .device => return other
  | .none => panic "filewrite"
  | .inode =>
    let i ← writeChunks f src n.toNat n.toNat 0
    return if (i : Int) = n then n else -1

def freeproc (p : Nat) : K Unit := do
  let v := (← get).proc p
  if v.trapframe ≠ 0 then onMem (Vm.kfree v.trapframe)
  if v.pagetable ≠ 0 then onMem (Vm.procFreepagetable v.pagetable v.sz)
  setProc p { v with trapframe := 0, pagetable := 0, sz := 0, pid := 0, parent := none, state := .unused }

def allocproc : K (Option Nat) := do
  let s ← get
  match (List.range nproc).find? fun p => (s.proc p).state = .unused with
  | none => return none
  | some p =>
    setProc p { s.proc p with pid := s.nextpid, state := .used }
    modify fun s => { s with nextpid := s.nextpid + 1 }
    match ← onMem Vm.kalloc with
    | none =>
      let s ← get
      setProc p { s.proc p with trapframe := 0 }
      freeproc p
      return none
    | some tf =>
      let s ← get
      setProc p { s.proc p with trapframe := tf }
      match ← onMem (Vm.procPagetable tf) with
      | none =>
        let s ← get
        setProc p { s.proc p with pagetable := 0 }
        freeproc p
        return none
      | some pagetable =>
        let s ← get
        setProc p { s.proc p with pagetable := pagetable }
        return some p

def dupLoop (p np : Nat) : K Unit :=
  (List.range nofile).forM fun fd => do
    match ((← get).proc p).ofile fd with
    | none => return
    | some f =>
      filedup f
      setFd np fd (some f)

def sysFork (p : Nat) : K Int := do
  match ← allocproc with
  | none => return -1
  | some np =>
    let s ← get
    if ← onMem (Vm.uvmcopy (s.proc p).pagetable (s.proc np).pagetable (s.proc p).sz) then
      let s ← get
      setProc np { s.proc np with sz := (s.proc p).sz, guard := (s.proc p).guard }
      dupLoop p np
      let dir ← cwd p
      let dir ← onFs (Fs.idup dir)
      let s ← get
      setProc np { s.proc np with cwd := some dir, parent := some p, state := .runnable }
      return (s.proc np).pid
    else
      freeproc np
      return -1

def sysExit (p : Nat) : K Int := do
  if p = initproc then panic "init exiting"
  (List.range nofile).forM fun fd => do
    match ((← get).proc p).ofile fd with
    | none => return
    | some f =>
      fileclose f
      setFd p fd none
  onFs Fs.beginOp
  let dir ← cwd p
  onFs (Fs.iput dir)
  onFs Fs.endOp
  modify fun s =>
    { s with proc := fun q =>
        if (s.proc q).parent = some p then { s.proc q with parent := some initproc } else s.proc q }
  let s ← get
  setProc p { s.proc p with cwd := none, state := .zombie }
  return 0

/-- `wait`; a process with children but no zombie sleeps until a child exits. -/
def sysWait (p addr : Nat) : K Int := do
  let s ← get
  match (List.range nproc).find? fun q => (s.proc q).parent = some p ∧ (s.proc q).state = .zombie with
  | some q =>
    if addr ≠ 0 then
      if !(← onMem (Vm.copyout (s.proc p).pagetable addr 4)) then return -1
    freeproc q
    return (s.proc q).pid
  | none =>
    if (List.range nproc).any fun q => (s.proc q).parent = some p then throw (.kernel .sleep)
    else return -1

def sysSbrk (p : Nat) (n : Int) : K Int := do
  let v := (← get).proc p
  if n > 0 then
    match ← onMem (Vm.uvmalloc v.pagetable v.sz (Vm.uint64 (v.sz + n.toNat)) Vm.pteW) with
    | 0 => return -1
    | sz => setProc p { v with sz := sz }
  else if n < 0 then
    let sz ← onMem (Vm.uvmdealloc v.pagetable v.sz (((v.sz : Int) + n) % 2 ^ 64).toNat)
    setProc p { v with sz := sz }
  return v.sz

end Xv6
