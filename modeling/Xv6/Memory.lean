import Xv6.Inode

namespace Xv6.Vm

open Fs (put)

abbrev pgsize : Nat := 4096
abbrev phystop : Nat := 0x88000000
abbrev maxva : Nat := 2 ^ 38
abbrev trampoline : Nat := maxva - pgsize
abbrev trapframe : Nat := trampoline - pgsize

def uint64 (n : Nat) : Nat := n % 2 ^ 64

def pgroundup (n : Nat) : Nat := uint64 (n + (pgsize - 1)) / pgsize * pgsize

def pgrounddown (n : Nat) : Nat := n / pgsize * pgsize

/-- A 64-bit page-table entry, split at bit 10. -/
structure Pte where
  ppn : Nat
  flags : BitVec 10
  deriving DecidableEq

def pteV : BitVec 10 := 1
def pteR : BitVec 10 := 2
def pteW : BitVec 10 := 4
def pteX : BitVec 10 := 8
def pteU : BitVec 10 := 16

def Pte.zero : Pte := ⟨0, 0⟩

def Pte.pa (pte : Pte) : Nat := pte.ppn * pgsize

def Pte.has (pte : Pte) (flag : BitVec 10) : Bool := pte.flags &&& flag ≠ 0

/-- `PA2PTE(pa) | flags`. -/
def pa2pte (pa : Nat) (flags : BitVec 10) : Pte := ⟨pa / pgsize, flags⟩

/-- `PX(level, va)`. -/
def px (level va : Nat) : Nat := va / 2 ^ (12 + 9 * level) % 512

/-- Where the linker puts the symbol `end` and the trampoline code. -/
structure Layout where
  kend : Nat
  tramp : Nat

/-- Physical memory: the words of each page, read as page-table entries, and the free list, which
the kernel links through the free pages. -/
structure Mem where
  layout : Layout
  heap : Nat → Nat → Pte
  freelist : List Nat

abbrev Mem.kend (m : Mem) : Nat := m.layout.kend

abbrev Mem.tramp (m : Mem) : Nat := m.layout.tramp

abbrev M := StateT Mem (Except Fault)

def panic {α : Type} (msg : String) : M α := throw (.panic msg)

def kfree (pa : Nat) : M Unit := do
  let m ← get
  if pa % pgsize ≠ 0 ∨ pa < m.kend ∨ pa ≥ phystop then panic "kfree"
  set { m with freelist := pa :: m.freelist }

def kalloc : M (Option Nat) := do
  let m ← get
  match m.freelist with
  | [] => return none
  | r :: rest =>
    set { m with freelist := rest }
    return some r

/-- `freemem`: an `int`. -/
def freemem (m : Mem) : Int := ((m.freelist.length : Int) * 4096).bmod (2 ^ 32)

def pte (page i : Nat) : M Pte := return (← get).heap page i

def setPte (page i : Nat) (v : Pte) : M Unit :=
  modify fun m => { m with heap := put m.heap page (put (m.heap page) i v) }

/-- `memset(page, 0, PGSIZE)`. -/
def clearPage (page : Nat) : M Unit :=
  modify fun m => { m with heap := put m.heap page fun _ => .zero }

/-- The loop of `walk` from `level` down: the page that holds the entry. -/
def walkLoop (va : Nat) (alloc : Bool) : (level : Nat) → (pagetable : Nat) → M (Option Nat)
  | 0, pagetable => return some pagetable
  | level + 1, pagetable => do
    let e ← pte pagetable (px (level + 1) va)
    if e.has pteV then walkLoop va alloc level e.pa
    else if !alloc then return none
    else
      match ← kalloc with
      | none => return none
      | some page =>
        clearPage page
        setPte pagetable (px (level + 1) va) (pa2pte page pteV)
        walkLoop va alloc level page

/-- The address of the entry for `va`: its page and index. -/
def walk (pagetable va : Nat) (alloc : Bool) : M (Option (Nat × Nat)) := do
  if va ≥ maxva then panic "walk"
  return (← walkLoop va alloc 2 pagetable).map fun page => (page, px 0 va)

def walkaddr (pagetable va : Nat) : M Nat := do
  if va ≥ maxva then return 0
  match ← walk pagetable va false with
  | none => return 0
  | some (page, i) =>
    let e ← pte page i
    if !e.has pteV then return 0
    if !e.has pteU then return 0
    return e.pa

def mapLoop (pagetable : Nat) (perm : BitVec 10) : (npages a pa : Nat) → M Bool
  | 0, _, _ => return true
  | npages + 1, a, pa => do
    match ← walk pagetable a true with
    | none => return false
    | some (page, i) =>
      let e ← pte page i
      if e.has pteV then panic "mappages: remap"
      setPte page i (pa2pte pa (perm ||| pteV))
      mapLoop pagetable perm npages (uint64 (a + pgsize)) (uint64 (pa + pgsize))

def mappages (pagetable va size pa : Nat) (perm : BitVec 10) : M Bool := do
  if va % pgsize ≠ 0 then panic "mappages: va not aligned"
  if size % pgsize ≠ 0 then panic "mappages: size not aligned"
  if size = 0 then panic "mappages: size"
  mapLoop pagetable perm (size / pgsize) va pa

def unmapLoop (pagetable : Nat) (doFree : Bool) : (npages a : Nat) → M Unit
  | 0, _ => return
  | npages + 1, a => do
    match ← walk pagetable a false with
    | none => panic "uvmunmap: walk"
    | some (page, i) =>
      let e ← pte page i
      if !e.has pteV then panic "uvmunmap: not mapped"
      if e.flags = pteV then panic "uvmunmap: not a leaf"
      if doFree then kfree e.pa
      setPte page i .zero
      unmapLoop pagetable doFree npages (a + pgsize)

def uvmunmap (pagetable va npages : Nat) (doFree : Bool) : M Unit := do
  if va % pgsize ≠ 0 then panic "uvmunmap: not aligned"
  unmapLoop pagetable doFree npages va

def uvmcreate : M (Option Nat) := do
  match ← kalloc with
  | none => return none
  | some page =>
    clearPage page
    return some page

def uvmdealloc (pagetable oldsz newsz : Nat) : M Nat := do
  if newsz ≥ oldsz then return oldsz
  if pgroundup newsz < pgroundup oldsz then
    uvmunmap pagetable (pgroundup newsz) ((pgroundup oldsz - pgroundup newsz) / pgsize) true
  return newsz

/-- The loop of `uvmalloc`; on failure the pages from `oldsz` on are given back. -/
def allocLoop (pagetable oldsz newsz : Nat) (xperm : BitVec 10) : (fuel a : Nat) → M Bool
  | 0, _ => return true
  | fuel + 1, a => do
    if a < newsz then
      match ← kalloc with
      | none =>
        let _ ← uvmdealloc pagetable a oldsz
        return false
      | some page =>
        if ← mappages pagetable a pgsize page (pteR ||| pteU ||| xperm) then
          allocLoop pagetable oldsz newsz xperm fuel (a + pgsize)
        else
          kfree page
          let _ ← uvmdealloc pagetable a oldsz
          return false
    else return true

def uvmalloc (pagetable oldsz newsz : Nat) (xperm : BitVec 10) : M Nat := do
  if newsz < oldsz then return oldsz
  let oldsz := pgroundup oldsz
  if ← allocLoop pagetable oldsz newsz xperm (newsz / pgsize + 1) oldsz then return newsz
  else return 0

/-- `freewalk`; a table is at most `depth` levels deep. -/
def freewalk : (depth : Nat) → (pagetable : Nat) → M Unit
  | 0, _ => throw .sleep
  | depth + 1, pagetable => do
    (List.range 512).forM fun i => do
      let e ← pte pagetable i
      if e.has pteV then
        if e.has (pteR ||| pteW ||| pteX) then panic "freewalk: leaf"
        freewalk depth e.pa
        setPte pagetable i .zero
    kfree pagetable

def uvmfree (pagetable sz : Nat) : M Unit := do
  if sz > 0 then uvmunmap pagetable 0 (pgroundup sz / pgsize) true
  freewalk 3 pagetable

def copyLoop (old new sz : Nat) : (fuel i : Nat) → M Bool
  | 0, _ => return true
  | fuel + 1, i => do
    if i < sz then
      match ← walk old i false with
      | none => panic "uvmcopy: pte should exist"
      | some (page, j) =>
        let e ← pte page j
        if !e.has pteV then panic "uvmcopy: page not present"
        match ← kalloc with
        | none =>
          uvmunmap new 0 (i / pgsize) true
          return false
        | some mem =>
          if ← mappages new i pgsize mem e.flags then copyLoop old new sz fuel (i + pgsize)
          else
            kfree mem
            uvmunmap new 0 (i / pgsize) true
            return false
    else return true

def uvmcopy (old new sz : Nat) : M Bool := copyLoop old new sz (sz / pgsize + 1) 0

def uvmclear (pagetable va : Nat) : M Unit := do
  match ← walk pagetable va false with
  | none => panic "uvmclear"
  | some (page, i) =>
    let e ← pte page i
    setPte page i { e with flags := e.flags &&& ~~~ pteU }

/-- `copyout`, without the bytes it moves. -/
def copyoutLoop (pagetable : Nat) : (fuel dstva len : Nat) → M Bool
  | 0, _, _ => return true
  | fuel + 1, dstva, len => do
    if len > 0 then
      let va0 := pgrounddown dstva
      if va0 ≥ maxva then return false
      match ← walk pagetable va0 false with
      | none => return false
      | some (page, i) =>
        let e ← pte page i
        if !e.has pteW then return false
        let pa0 ← walkaddr pagetable va0
        if pa0 = 0 then return false
        let n := min (pgsize - (dstva - va0)) len
        copyoutLoop pagetable fuel (va0 + pgsize) (len - n)
    else return true

def copyout (pagetable dstva len : Nat) : M Bool := copyoutLoop pagetable len dstva len

/-- `uvmfirst`. The kernel checks neither allocation; a machine without room for its first page does
not get past this point here. -/
def uvmfirst (pagetable : Nat) : M Unit := do
  match ← kalloc with
  | none => panic "uvmfirst: no memory"
  | some mem =>
    if ← mappages pagetable 0 pgsize mem (pteW ||| pteR ||| pteX ||| pteU) then return
    else panic "uvmfirst: no memory"

/-- `proc_pagetable` for a process with the trapframe page `tf`. -/
def procPagetable (tf : Nat) : M (Option Nat) := do
  match ← uvmcreate with
  | none => return none
  | some pagetable =>
    let tramp := (← get).tramp
    if ← mappages pagetable trampoline pgsize tramp (pteR ||| pteX) then
      if ← mappages pagetable trapframe pgsize tf (pteR ||| pteW) then return some pagetable
      else
        uvmunmap pagetable trampoline 1 false
        uvmfree pagetable 0
        return none
    else
      uvmfree pagetable 0
      return none

def procFreepagetable (pagetable sz : Nat) : M Unit := do
  uvmunmap pagetable trampoline 1 false
  uvmunmap pagetable trapframe 1 false
  uvmfree pagetable sz

end Xv6.Vm
