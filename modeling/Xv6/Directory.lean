import Xv6.Inode

namespace Xv6.Fs

abbrev Name := List Byte

def slash : Byte := 47
def dot : Name := [46]
def dotdot : Name := [46, 46]

/-- The name in a directory entry: at most `DIRSIZ` bytes, ended by a zero byte if shorter. -/
def direntName (de : Nat → Byte) : Name :=
  ((List.range dirsiz).map fun i => de (2 + i)).takeWhile (· ≠ 0)

def dirent (inum : Nat) (name : Name) (i : Nat) : Byte :=
  if i < 2 then byteOf inum i else name.getD (i - 2) 0

def lookupLoop (k : Nat) (name : Name) : (fuel off : Nat) → M (Option (Nat × Nat))
  | 0, _ => return none
  | fuel + 1, off => do
    let ip ← inode k
    if off < ip.din.size then
      let (n, de) ← readi k off 16
      if n ≠ 16 then panic "dirlookup read"
      if get16 de 0 ≠ 0 ∧ direntName de = name then
        return some (← iget (get16 de 0), off)
      else lookupLoop k name fuel (off + 16)
    else return none

def dirlookup (k : Nat) (name : Name) : M (Option (Nat × Nat)) := do
  let ip ← inode k
  if ip.din.type ≠ tDir then panic "dirlookup not DIR"
  lookupLoop k name (ip.din.size / 16 + 1) 0

def emptyLoop (k : Nat) : (fuel off : Nat) → M Nat
  | 0, off => return off
  | fuel + 1, off => do
    let ip ← inode k
    if off < ip.din.size then
      let (n, de) ← readi k off 16
      if n ≠ 16 then panic "dirlink read"
      if get16 de 0 = 0 then return off
      else emptyLoop k fuel (off + 16)
    else return off

def dirlink (k : Nat) (name : Name) (inum : Nat) : M Bool := do
  if let some (j, _) ← dirlookup k name then
    iput j
    return false
  let ip ← inode k
  let off ← emptyLoop k (ip.din.size / 16 + 1) 0
  let n ← writei k (.kernel (dirent inum name)) off 16
  return n = 16

/-- The next path element and the rest of the path after the slashes that follow it. -/
def skipelem (path : List Byte) : Option (Name × List Byte) :=
  match path.dropWhile (· = slash) with
  | [] => none
  | p => some ((p.takeWhile (· ≠ slash)).take dirsiz, (p.dropWhile (· ≠ slash)).dropWhile (· = slash))

/-- The loop of `namex`; with `parent` it stops at the last element and returns its name. -/
def namexLoop (parent : Bool) : (fuel : Nat) → (k : Nat) → List Byte → M (Option (Nat × Name))
  | 0, k, _ => return some (k, [])
  | fuel + 1, k, path =>
    match skipelem path with
    | none =>
      if parent then do
        iput k
        return none
      else return some (k, [])
    | some (name, rest) => do
      ilock k
      let ip ← inode k
      if ip.din.type ≠ tDir then
        iunlockput k
        return none
      if parent ∧ rest = [] then
        iunlock k
        return some (k, name)
      match ← dirlookup k name with
      | none =>
        iunlockput k
        return none
      | some (next, _) =>
        iunlockput k
        namexLoop parent fuel next rest

def namexStart (cwd : Nat) (path : List Byte) : M Nat :=
  if path.head? = some slash then iget rootino else idup cwd

def namex (cwd : Nat) (path : List Byte) (parent : Bool) : M (Option (Nat × Name)) := do
  let k ← namexStart cwd path
  namexLoop parent (path.length + 1) k path

def namei (cwd : Nat) (path : List Byte) : M (Option Nat) := do
  return (← namex cwd path false).map Prod.fst

def nameiparent (cwd : Nat) (path : List Byte) : M (Option (Nat × Name)) := namex cwd path true

end Xv6.Fs
