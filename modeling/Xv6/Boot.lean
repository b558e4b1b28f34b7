import Xv6.Exec

namespace Xv6

/-- What the kernel takes pages for as it boots and never gives back: the nodes of its own page
table, the kernel stacks, and the queues of the disk driver. -/
inductive KernelUse
  | node (i : Nat)
  | kstack (p : Nat)
  | virtio (i : Nat)
  deriving DecidableEq

/-- Where the linker puts the kernel, and what the kernel needs pages for, in the order in which it
asks for them. The mappings of the kernel's page table do not matter to any process. -/
structure Machine extends Vm.Layout where
  uses : List KernelUse
  loaded : 0x80000000 ≤ kend
  fits : kend ≤ Vm.phystop

def freerange : (fuel : Nat) → (p : Nat) → Vm.M Unit
  | 0, _ => return
  | fuel + 1, p => do
    if p + Vm.pgsize ≤ Vm.phystop then
      Vm.kfree p
      freerange fuel (p + Vm.pgsize)

def kinit : Vm.M Unit := do
  let m ← get
  freerange (Vm.phystop / Vm.pgsize) (Vm.pgroundup m.kend)

/-- The allocations of `kvmmake`, `proc_mapstacks` and `virtio_disk_init`. -/
def takePages : List KernelUse → Vm.M (List (KernelUse × Nat))
  | [] => return []
  | use :: uses => do
    match ← Vm.kalloc with
    | none => Vm.panic "kalloc"
    | some pa =>
      let pages ← takePages uses
      return (use, pa) :: pages

def userinit : K Unit := do
  match ← allocproc with
  -- a null pointer
  | none => panic "userinit"
  | some p =>
    let s ← get
    onMem (Vm.uvmfirst (s.proc p).pagetable)
    setProc p { s.proc p with sz := Vm.pgsize }
    match ← onFs (Fs.namei 0 [47]) with
    | none => panic "userinit: no root"
    | some k =>
      let s ← get
      setProc p { s.proc p with cwd := some k, state := .runnable }

/-- The kernel before `main` runs, with the file system of `disk` mounted. -/
def Machine.bare (mc : Machine) (sb : Fs.Superblock) (disk : Fs.Disk) : Kernel where
  fs := Fs.mount sb disk
  mem := ⟨mc.toLayout, fun _ _ => .zero, []⟩
  file := fun _ => .empty
  pipe := fun _ => none
  proc := fun _ => .empty
  nextpid := 1

/-- `main`; the pages that stay with the kernel. -/
def boot (uses : List KernelUse) : K (List (KernelUse × Nat)) := do
  onMem kinit
  let pages ← onMem (takePages uses)
  userinit
  return pages

end Xv6
