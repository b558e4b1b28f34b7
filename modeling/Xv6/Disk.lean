import Mathlib

namespace Xv6.Fs

abbrev Byte := BitVec 8

/-- The contents of a disk block, or of a buffer in memory, by byte offset. -/
abbrev Block := Nat → Byte

abbrev Disk := Nat → Block

def put {α : Type} (f : Nat → α) (k : Nat) (v : α) : Nat → α := fun i => if i = k then v else f i

section Put

variable {α : Type} (f : Nat → α) (k : Nat) (v : α)

@[simp]
theorem put_same : put f k v k = v := if_pos rfl

@[simp]
theorem put_ne {i : Nat} (h : i ≠ k) : put f k v i = f i := if_neg h

@[simp]
theorem put_put (w : α) : put (put f k v) k w = put f k w := by
  funext i
  by_cases hi : i = k <;> simp [put, hi]

theorem put_eq_self : put f k (f k) = f := by
  funext i
  by_cases hi : i = k <;> simp [put, hi]

end Put

abbrev bsize : Nat := 1024
abbrev ndirect : Nat := 12
abbrev nindirect : Nat := 256
abbrev maxfile : Nat := ndirect + nindirect
abbrev ipb : Nat := 16
abbrev bpb : Nat := 8192
abbrev dirsiz : Nat := 14
abbrev ninode : Nat := 50
abbrev rootino : Nat := 1
abbrev tDir : Int := 1
abbrev tFile : Int := 2
abbrev tDevice : Int := 3

structure Superblock where
  size : Nat
  ninodes : Nat
  nlog : Nat
  logstart : Nat
  inodestart : Nat
  bmapstart : Nat
  deriving DecidableEq

def Superblock.iblock (sb : Superblock) (i : Nat) : Nat := i / ipb + sb.inodestart

def Superblock.bblock (sb : Superblock) (b : Nat) : Nat := b / bpb + sb.bmapstart

/-- `memmove(b + o, f, n)`. -/
def splice (b : Block) (o n : Nat) (f : Nat → Byte) : Block :=
  fun i => if o ≤ i ∧ i < o + n then f (i - o) else b i

def byteOf (v i : Nat) : Byte := BitVec.ofNat 8 (v / 256 ^ i)

def get16 (b : Block) (o : Nat) : Nat := (b o).toNat + 256 * (b (o + 1)).toNat

def get32 (b : Block) (o : Nat) : Nat := get16 b o + 65536 * get16 b (o + 2)

def toShort (v : Int) : Int := (v + 32768) % 65536 - 32768

def ofShort (v : Int) : Nat := (v % 65536).toNat

structure Dinode where
  type : Int
  major : Int
  minor : Int
  nlink : Int
  size : Nat
  addrs : Nat → Nat

def Dinode.zero : Dinode := ⟨0, 0, 0, 0, 0, fun _ => 0⟩

def Dinode.bytes (d : Dinode) (i : Nat) : Byte :=
  if i < 2 then byteOf (ofShort d.type) i
  else if i < 4 then byteOf (ofShort d.major) (i - 2)
  else if i < 6 then byteOf (ofShort d.minor) (i - 4)
  else if i < 8 then byteOf (ofShort d.nlink) (i - 6)
  else if i < 12 then byteOf d.size (i - 8)
  else byteOf (d.addrs ((i - 12) / 4)) ((i - 12) % 4)

def dinodeAt (b : Block) (o : Nat) : Dinode where
  type := toShort (get16 b o)
  major := toShort (get16 b (o + 2))
  minor := toShort (get16 b (o + 4))
  nlink := toShort (get16 b (o + 6))
  size := get32 b (o + 8)
  addrs := fun k => if k ≤ ndirect then get32 b (o + 12 + 4 * k) else 0

def bitAt (b : Block) (bi : Nat) : Bool := (b (bi / 8)).getLsbD (bi % 8)

def setBitAt (b : Block) (bi : Nat) (v : Bool) : Block :=
  let m : Byte := 1#8 <<< (bi % 8)
  put b (bi / 8) (if v then b (bi / 8) ||| m else b (bi / 8) &&& ~~~ m)

section Access

variable (sb : Superblock) (d : Disk)

def Disk.dinode (i : Nat) : Dinode := dinodeAt (d (sb.iblock i)) (64 * (i % ipb))

def Disk.setDinode (i : Nat) (din : Dinode) : Disk :=
  put d (sb.iblock i) (splice (d (sb.iblock i)) (64 * (i % ipb)) 64 din.bytes)

def Disk.bit (b : Nat) : Bool := bitAt (d (sb.bblock b)) (b % bpb)

def Disk.setBit (b : Nat) (v : Bool) : Disk :=
  put d (sb.bblock b) (setBitAt (d (sb.bblock b)) (b % bpb) v)

end Access

end Xv6.Fs
