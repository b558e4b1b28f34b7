import Xv6.Disk
import Xv6.Lib.Prog

namespace Xv6

inductive Fault
  | panic (msg : String)
  /-- the process sleeps on something that it alone could provide -/
  | sleep
  deriving DecidableEq

namespace Fs

structure Inode where
  inum : Nat
  ref : Int
  valid : Bool
  locked : Bool
  din : Dinode

def Inode.empty : Inode := ⟨0, 0, false, false, .zero⟩

/-- The file system between and inside transactions. `disk` is what `bread` returns; `lh` are the
blocks logged by the open transaction and `commits` the disks at the past ends of transactions. -/
structure State where
  sb : Superblock
  disk : Disk
  itable : Nat → Inode
  outstanding : Nat
  lh : List Nat
  commits : List Disk

def mount (sb : Superblock) (disk : Disk) : State := ⟨sb, disk, fun _ => .empty, 0, [], []⟩

abbrev M := StateT State (Except Fault)

def panic {α : Type} (msg : String) : M α := throw (.panic msg)

def beginOp : M Unit := do
  let s ← get
  if s.lh.length + (s.outstanding + 1) * 10 > 30 then throw .sleep
  set { s with outstanding := s.outstanding + 1 }

/-- `end_op`; the last operation commits. -/
def endOp : M Unit := do
  let s ← get
  if s.outstanding = 1 then
    set { s with outstanding := 0, lh := [], commits := s.disk :: s.commits }
  else
    set { s with outstanding := s.outstanding - 1 }

def logWrite (b : Nat) : M Unit := do
  let s ← get
  if s.lh.length ≥ 30 ∨ s.lh.length ≥ s.sb.nlog - 1 then panic "too big a transaction"
  if s.outstanding < 1 then panic "log_write outside of trans"
  set { s with lh := if b ∈ s.lh then s.lh else s.lh ++ [b] }

def bwrite (b : Nat) (v : Block) : M Unit :=
  modify fun s => { s with disk := put s.disk b v }

def bzero (b : Nat) : M Unit := do
  bwrite b fun _ => 0
  logWrite b

def balloc : M Nat := do
  let s ← get
  match (List.range s.sb.size).find? fun b => !s.disk.bit s.sb b with
  | none => return 0
  | some b =>
    set { s with disk := s.disk.setBit s.sb b true }
    logWrite (s.sb.bblock b)
    bzero b
    return b

def bfree (b : Nat) : M Unit := do
  let s ← get
  if !s.disk.bit s.sb b then panic "freeing free block"
  set { s with disk := s.disk.setBit s.sb b false }
  logWrite (s.sb.bblock b)

def setInode (k : Nat) (ip : Inode) : M Unit :=
  modify fun s => { s with itable := put s.itable k ip }

def inode (k : Nat) : M Inode := return (← get).itable k

def addRef (k : Nat) (n : Int) : M Unit := do
  let ip ← inode k
  setInode k { ip with ref := ip.ref + n }

def invalidate (k : Nat) : M Unit := do
  let ip ← inode k
  setInode k { ip with valid := false }

def iget (inum : Nat) : M Nat := do
  let s ← get
  match (List.range ninode).find? fun k => 0 < (s.itable k).ref && (s.itable k).inum == inum with
  | some k =>
    addRef k 1
    return k
  | none =>
    match (List.range ninode).find? fun k => (s.itable k).ref == 0 with
    | none => panic "iget: no inodes"
    | some k =>
      setInode k { s.itable k with inum := inum, ref := 1, valid := false }
      return k

def ialloc (type : Int) : M (Option Nat) := do
  let s ← get
  match (List.range s.sb.ninodes).find? fun i => i != 0 && (s.disk.dinode s.sb i).type == 0 with
  | none => return none
  | some i =>
    set { s with disk := s.disk.setDinode s.sb i { Dinode.zero with type := type } }
    logWrite (s.sb.iblock i)
    return some (← iget i)

def iupdate (k : Nat) : M Unit := do
  let s ← get
  let ip := s.itable k
  set { s with disk := s.disk.setDinode s.sb ip.inum ip.din }
  logWrite (s.sb.iblock ip.inum)

def idup (k : Nat) : M Nat := do
  addRef k 1
  return k

def ilock (k : Nat) : M Unit := do
  let ip ← inode k
  if ip.ref < 1 then panic "ilock"
  if ip.locked then throw .sleep
  setInode k { ip with locked := true }
  if !ip.valid then
    let s ← get
    setInode k { ip with locked := true, valid := true, din := s.disk.dinode s.sb ip.inum }
    if (s.disk.dinode s.sb ip.inum).type = 0 then panic "ilock: no type"

def iunlock (k : Nat) : M Unit := do
  let ip ← inode k
  if !ip.locked ∨ ip.ref < 1 then panic "iunlock"
  setInode k { ip with locked := false }

def setDin (k : Nat) (f : Dinode → Dinode) : M Unit := do
  let ip ← inode k
  setInode k { ip with din := f ip.din }

def setAddr (k i a : Nat) : M Unit :=
  setDin k fun d => { d with addrs := put d.addrs i a }

def Disk.entry (d : Disk) (b j : Nat) : Nat := get32 (d b) (4 * j)

/-- The block in `addrs[i]`, allocated if there is none; 0 if the disk is full. -/
def bmapSlot (k i : Nat) : M Nat := do
  let ip ← inode k
  if ip.din.addrs i = 0 then
    let addr ← balloc
    if addr ≠ 0 then setAddr k i addr
    return addr
  else return ip.din.addrs i

/-- The block in entry `j` of the indirect block `addr`, allocated if there is none. -/
def bmapEntry (addr j : Nat) : M Nat := do
  let s ← get
  if s.disk.entry addr j = 0 then
    let b ← balloc
    if b ≠ 0 then
      let s ← get
      bwrite addr (splice (s.disk addr) (4 * j) 4 (byteOf b))
      logWrite addr
    return b
  else return s.disk.entry addr j

def bmap (k bn : Nat) : M Nat := do
  if bn < ndirect then bmapSlot k bn
  else if bn - ndirect < nindirect then
    let addr ← bmapSlot k ndirect
    if addr = 0 then return 0
    bmapEntry addr (bn - ndirect)
  else panic "bmap: out of range"

def itrunc (k : Nat) : M Unit := do
  (List.range ndirect).forM fun i => do
    let ip ← inode k
    if ip.din.addrs i ≠ 0 then
      bfree (ip.din.addrs i)
      setAddr k i 0
  let ip ← inode k
  let addr := ip.din.addrs ndirect
  if addr ≠ 0 then
    let d := (← get).disk
    (List.range nindirect).forM fun j => do
      if d.entry addr j ≠ 0 then bfree (d.entry addr j)
    bfree addr
    setAddr k ndirect 0
  setDin k fun d => { d with size := 0 }
  iupdate k

def iput (k : Nat) : M Unit := do
  let ip ← inode k
  if ip.ref = 1 ∧ ip.valid ∧ ip.din.nlink = 0 then
    -- the lock is free, or this would not be the last reference
    if ip.locked then throw .sleep
    itrunc k
    setDin k fun d => { d with type := 0 }
    iupdate k
    invalidate k
  addRef k (-1)

def iunlockput (k : Nat) : M Unit := do
  iunlock k
  iput k

def readLoop (k n : Nat) : (fuel tot off : Nat) → (Nat → Byte) → M (Nat × (Nat → Byte))
  | 0, tot, _, dst => return (tot, dst)
  | fuel + 1, tot, off, dst => do
    if tot < n then
      let addr ← bmap k (off / bsize)
      if addr = 0 then return (tot, dst)
      let m := min (n - tot) (bsize - off % bsize)
      let data := (← get).disk addr
      readLoop k n fuel (tot + m) (off + m) (splice dst tot m fun i => data (off % bsize + i))
    else return (tot, dst)

def uint (n : Nat) : Nat := n % 2 ^ 32

/-- `readi` into a kernel buffer, with the bytes read. -/
def readi (k off n : Nat) : M (Nat × (Nat → Byte)) := do
  let ip ← inode k
  if off > ip.din.size ∨ uint (off + n) < off then return (0, fun _ => 0)
  let n := if off + n > ip.din.size then ip.din.size - off else n
  readLoop k n n 0 off fun _ => 0

/-- What `either_copyin` leaves in the buffer for the `m` bytes at `tot`, and whether it succeeds. -/
abbrev Source := (tot m : Nat) → Bool × (Nat → Byte)

def Source.kernel (f : Nat → Byte) : Source := fun tot _ => (true, fun i => f (tot + i))

/-- The loop of `writei`: bytes written and the final offset. -/
def writeLoop (k n : Nat) (src : Source) : (fuel tot off : Nat) → M (Nat × Nat)
  | 0, tot, off => return (tot, off)
  | fuel + 1, tot, off => do
    if tot < n then
      let addr ← bmap k (off / bsize)
      if addr = 0 then return (tot, off)
      let m := min (n - tot) (bsize - off % bsize)
      let (ok, data) := src tot m
      let d := (← get).disk
      bwrite addr (splice (d addr) (off % bsize) m data)
      if !ok then return (tot, off)
      logWrite addr
      writeLoop k n src fuel (tot + m) (off + m)
    else return (tot, off)

def writei (k : Nat) (src : Source) (off n : Nat) : M Int := do
  let ip ← inode k
  if off > ip.din.size ∨ uint (off + n) < off then return -1
  if off + n > maxfile * bsize then return -1
  let (tot, off) ← writeLoop k n src n 0 off
  setDin k fun d => if off > d.size then { d with size := off } else d
  iupdate k
  return tot

section Wp

open Prog

variable {s : State} {E : Fault → Prop} {Q : Unit → State → Prop} {k : Nat}

@[simp]
theorem wp_panic {α : Type} {Q : α → State → Prop} {msg : String} : wp (panic msg) Q E s ↔ E (.panic msg) :=
  wp_throw

@[simp]
theorem wp_inode {Q : Inode → State → Prop} : wp (inode k) Q E s ↔ Q (s.itable k) s := by
  simp only [inode, wp_bind, wp_get, wp_pure]

@[simp]
theorem wp_setInode {ip : Inode} :
    wp (setInode k ip) Q E s ↔ Q () { s with itable := put s.itable k ip } := wp_modify

@[simp]
theorem wp_addRef {n : Int} : wp (addRef k n) Q E s ↔
    Q () { s with itable := put s.itable k { s.itable k with ref := (s.itable k).ref + n } } := by
  simp only [addRef, wp_bind, wp_inode, wp_setInode]

@[simp]
theorem wp_invalidate : wp (invalidate k) Q E s ↔
    Q () { s with itable := put s.itable k { s.itable k with valid := false } } := by
  simp only [invalidate, wp_bind, wp_inode, wp_setInode]

@[simp]
theorem wp_setDin {f : Dinode → Dinode} : wp (setDin k f) Q E s ↔
    Q () { s with itable := put s.itable k { s.itable k with din := f (s.itable k).din } } := by
  simp only [setDin, wp_bind, wp_inode, wp_setInode]

@[simp]
theorem wp_bwrite {b : Nat} {v : Block} :
    wp (bwrite b v) Q E s ↔ Q () { s with disk := put s.disk b v } := wp_modify

end Wp

end Fs

end Xv6
