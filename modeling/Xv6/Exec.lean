import Xv6.Kernel

namespace Xv6

def get64 (b : Fs.Block) (o : Nat) : Nat := Fs.get32 b o + 2 ^ 32 * Fs.get32 b (o + 4)

/-- `struct proghdr`, as far as `exec` reads it. -/
structure Proghdr where
  type : Nat
  flags : Nat
  off : Nat
  vaddr : Nat
  filesz : Nat
  memsz : Nat

def proghdrOf (b : Fs.Block) : Proghdr :=
  ⟨Fs.get32 b 0, Fs.get32 b 4, get64 b 8, get64 b 16, get64 b 32, get64 b 40⟩

def elfMagic : Nat := 0x464C457F

def flags2perm (flags : Nat) : BitVec 10 :=
  (if flags.testBit 0 then Vm.pteX else 0) ||| (if flags.testBit 1 then Vm.pteW else 0)

/-- `loadseg`, without the bytes it moves. -/
def loadseg (pagetable va k offset sz : Nat) : (fuel i : Nat) → K Bool
  | 0, _ => return true
  | fuel + 1, i => do
    if i < sz then
      let pa ← onMem (Vm.walkaddr pagetable (Vm.uint64 (va + i)))
      if pa = 0 then panic "loadseg: address should exist"
      let n := min (sz - i) Vm.pgsize
      let (m, _) ← onFs (Fs.readi k (Fs.uint (offset + i)) n)
      if m ≠ n then return false
      loadseg pagetable va k offset sz fuel (i + Vm.pgsize)
    else return true

/-- The program headers from number `i` on: the size reached and whether all could be loaded. -/
def loadLoop (pagetable k : Nat) : (count off sz : Nat) → K (Bool × Nat)
  | 0, _, sz => return (true, sz)
  | count + 1, off, sz => do
    let (n, b) ← onFs (Fs.readi k off 56)
    if n ≠ 56 then return (false, sz)
    let ph := proghdrOf b
    if ph.type ≠ 1 then loadLoop pagetable k count (Fs.uint (off + 56)) sz
    else if ph.memsz < ph.filesz then return (false, sz)
    else if Vm.uint64 (ph.vaddr + ph.memsz) < ph.vaddr then return (false, sz)
    else if ph.vaddr % Vm.pgsize ≠ 0 then return (false, sz)
    else
      match ← onMem (Vm.uvmalloc pagetable sz (ph.vaddr + ph.memsz) (flags2perm ph.flags)) with
      | 0 => return (false, sz)
      | sz + 1 =>
        if ← loadseg pagetable ph.vaddr k (Fs.uint ph.off) (Fs.uint ph.filesz) (Fs.uint ph.filesz) 0 then
          loadLoop pagetable k count (Fs.uint (off + 56)) (sz + 1)
        else return (false, sz + 1)

/-- The argument strings, given by their lengths, go onto the stack; the final stack pointer. -/
def pushArgs (pagetable stackbase : Nat) : List Nat → Nat → K (Option Nat)
  | [], sp => return some sp
  | n :: args, sp => do
    let sp := Vm.uint64 (sp + 2 ^ 64 - (n + 1))
    let sp := sp - sp % 16
    if sp < stackbase then return none
    if ← onMem (Vm.copyout pagetable sp (n + 1)) then pushArgs pagetable stackbase args sp
    else return none

/-- The stack of the new image, from the size `sz` of the loaded program: the new size, and whether
the arguments fit. -/
def buildStack (pagetable sz : Nat) (args : List Nat) : K (Bool × Nat) := do
  let sz := Vm.pgroundup sz
  match ← onMem (Vm.uvmalloc pagetable sz (sz + 2 * Vm.pgsize) Vm.pteW) with
  | 0 => return (false, sz)
  | sz + 1 =>
    let sz := sz + 1
    onMem (Vm.uvmclear pagetable (sz - 2 * Vm.pgsize))
    let stackbase := sz - Vm.pgsize
    match ← pushArgs pagetable stackbase args sz with
    | none => return (false, sz)
    | some sp =>
      let sp := Vm.uint64 (sp + 2 ^ 64 - (args.length + 1) * 8)
      let sp := sp - sp % 16
      if sp < stackbase then return (false, sz)
      let copied ← onMem (Vm.copyout pagetable sp ((args.length + 1) * 8))
      return (copied, sz)

def exec (p : Nat) (path : List Fs.Byte) (args : List Nat) : K Int := do
  onFs Fs.beginOp
  let dir ← cwd p
  let some k ← onFs (Fs.namei dir path)
    | onFs Fs.endOp; return -1
  onFs (Fs.ilock k)
  let unlock : K Unit := do
    onFs (Fs.iunlockput k)
    onFs Fs.endOp
  let (n, elf) ← onFs (Fs.readi k 0 64)
  if n ≠ 64 ∨ Fs.get32 elf 0 ≠ elfMagic then
    unlock
    return -1
  let tf := ((← get).proc p).trapframe
  match ← onMem (Vm.procPagetable tf) with
  | none =>
    unlock
    return -1
  | some pagetable =>
    let (loaded, sz) ← loadLoop pagetable k (Fs.get16 elf 56) (Fs.uint (get64 elf 32)) 0
    if !loaded then
      onMem (Vm.procFreepagetable pagetable sz)
      unlock
      return -1
    unlock
    let (built, sz) ← buildStack pagetable sz args
    if !built then
      onMem (Vm.procFreepagetable pagetable sz)
      return -1
    let old := (← get).proc p
    setProc p { old with pagetable := pagetable, sz := sz, guard := some (sz / Vm.pgsize - 2) }
    onMem (Vm.procFreepagetable old.pagetable old.sz)
    return args.length

/-- The argument fetch of `sys_exec` into fresh pages: the lengths of the strings, `none` for a bad
string; `ended` tells whether a null pointer follows the last one. -/
def fetchArgs (ended : Bool) : (slots : Nat) → List (Option Nat) → List Nat → K (Bool × List Nat)
  | 0, _, pages => return (false, pages)
  | _ + 1, [], pages => return (ended, pages)
  | slots + 1, arg :: args, pages => do
    match ← onMem Vm.kalloc with
    | none => return (false, pages)
    | some page =>
      if arg.isNone then return (false, pages ++ [page])
      fetchArgs ended slots args (pages ++ [page])

def sysExec (p : Nat) (path : Option (List Fs.Byte)) (argv : List (Option Nat)) (ended : Bool) : K Int := do
  let some path := path
    | return -1
  let (fetched, pages) ← fetchArgs ended 32 argv []
  let ret ← if fetched then exec p path (argv.filterMap id) else pure (-1)
  pages.forM fun page => onMem (Vm.kfree page)
  return ret

inductive Call
  | open (path : Option (List Fs.Byte)) (omode : BitVec 32)
  | write (fd : Int) (src : Nat → Fs.Source) (n other : Int)
  | link (old new : Option (List Fs.Byte))
  | unlink (path : Option (List Fs.Byte))
  | mkdir (path : Option (List Fs.Byte))
  | mknod (path : Option (List Fs.Byte)) (major minor : Int)
  | chdir (path : Option (List Fs.Byte))
  | close (fd : Int)
  | dup (fd : Int)
  | pipe (fdarray : Nat)
  | fork
  | exec (path : Option (List Fs.Byte)) (argv : List (Option Nat)) (ended : Bool)
  | exit
  | wait (addr : Nat)
  | sbrk (n : Int)

def syscall (p : Nat) : Call → K Int
  | .open path omode => sysOpen p path omode
  | .write fd src n other => sysWrite p fd src n other
  | .link old new => sysLink p old new
  | .unlink path => sysUnlink p path
  | .mkdir path => sysMkdir p path
  | .mknod path major minor => sysMknod p path major minor
  | .chdir path => sysChdir p path
  | .close fd => sysClose p fd
  | .dup fd => sysDup p fd
  | .pipe fdarray => sysPipe p fdarray
  | .fork => sysFork p
  | .exec path argv ended => sysExec p path argv ended
  | .exit => sysExit p
  | .wait addr => sysWait p addr
  | .sbrk n => sysSbrk p n

/-- What can happen between two system-call boundaries: a call by a process that runs, or a store by
its user code into one of its own writable pages. -/
inductive Ev
  | call (p : Nat) (c : Call)
  | store (p va i : Nat) (v : Vm.Pte)

def Running (s : Kernel) (p : Nat) : Prop := p < nproc ∧ (s.proc p).state = .runnable

instance (s : Kernel) (p : Nat) : Decidable (Running s p) := inferInstanceAs (Decidable (_ ∧ _))

/-- A store of user code: the hardware walks the page table and checks the entry. -/
def userStore (pagetable va i : Nat) (v : Vm.Pte) : Vm.M Unit := do
  if va < Vm.maxva then
    match ← Vm.walk pagetable va false with
    | none => return
    | some (page, j) =>
      let e ← Vm.pte page j
      if e.has Vm.pteV ∧ e.has Vm.pteU ∧ e.has Vm.pteW then Vm.setPte e.pa i v

/-- One event; a call that panics or sleeps reaches no boundary. -/
def step (s : Kernel) : Ev → Option Kernel
  | .call p c =>
    if Running s p then
      match syscall p c s with
      | .ok (_, s') => some s'
      | .error _ => none
    else none
  | .store p va i v =>
    if Running s p ∧ i < 512 then
      match onMem (userStore (s.proc p).pagetable va i v) s with
      | .ok (_, s') => some s'
      | .error _ => none
    else none

end Xv6
