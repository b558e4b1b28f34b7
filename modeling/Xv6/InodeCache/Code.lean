import Xv6.Disk

/-!
The inodes in memory and the dinodes on disk while any number of processes make file system calls at the same
time. A call is a tree of the steps that others can see. What it finds in data blocks, in the free map and in user
memory has no part in the fields of inodes and is left to chance (`choose`), as are the names of directory entries:
a lookup can find any inode number.
-/

namespace Xv6.InodeCache

open Function

abbrev bsize : Nat := 1024
abbrev ndirect : Nat := 12
abbrev nindirect : Nat := 256
abbrev maxfile : Nat := ndirect + nindirect
abbrev ipb : Nat := 16
abbrev rootino : Nat := 1
abbrev tdir : Int := 1
abbrev tfile : Int := 2
abbrev tdevice : Int := 3
abbrev ndev : Int := 10

abbrev desize : Nat := 16

/-- The fields of a dinode, of which an entry of the table has a copy. -/
structure Dinode where
  type : Int
  major : Int
  minor : Int
  nlink : Int
  size : Nat
  addrs : Nat → Nat

def Dinode.zero : Dinode := ⟨0, 0, 0, 0, 0, fun _ => 0⟩

abbrev Slot := Nat

/-- The rest of a call of a process. -/
inductive Code
  | done (cwd : Slot)
  | exited
  | panic
  | iget (inum : Nat) (k : Slot → Code)
  | idup (ip : Slot) (k : Code)
  /-- `acquiresleep` in `ilock` -/
  | acquire (ip : Slot) (k : Code)
  /-- the rest of `ilock` -/
  | load (ip : Slot) (k : Code)
  | read (ip : Slot) (k : Dinode → Code)
  /-- stores to fields of the entry -/
  | set (ip : Slot) (f : Dinode → Dinode) (k : Code)
  | iupdate (ip : Slot) (k : Code)
  /-- `ip->valid = 0` -/
  | invalidate (ip : Slot) (k : Code)
  | release (ip : Slot) (k : Code)
  /-- the test of `iput`, and `acquiresleep` if it holds -/
  | last (ip : Slot) (k : Bool → Code)
  /-- `ip->ref--` -/
  | deref (ip : Slot) (k : Code)
  /-- the loop of `ialloc` up to its `iget` -/
  | ialloc (type : Int) (k : Option Nat → Code)
  | choose (k : Nat → Code)
  /-- a file structure takes over the reference -/
  | install (ip : Slot) (k : Code)

def ilock (ip : Slot) (k : Code) : Code := .acquire ip (.load ip k)

def setAddr (i addr : Nat) (v : Dinode) : Dinode := { v with addrs := update v.addrs i addr }

def setSize (n : Nat) (v : Dinode) : Dinode := { v with size := n }

def setType (t : Int) (v : Dinode) : Dinode := { v with type := t }

def setLink (n : Int) (v : Dinode) : Dinode := { v with nlink := n }

def addLink (n : Int) (v : Dinode) : Dinode := { v with nlink := Fs.toShort (v.nlink + n) }

def itruncLoop (ip : Slot) (k : Code) : List Nat → Code
  | [] => k
  | i :: is => .read ip fun v =>
    if v.addrs i ≠ 0 then .set ip (setAddr i 0) (itruncLoop ip k is) else itruncLoop ip k is

def itrunc (ip : Slot) (k : Code) : Code := itruncLoop ip (.set ip (setSize 0) (.iupdate ip k)) (List.range (ndirect + 1))

def iput (ip : Slot) (k : Code) : Code :=
  .last ip fun free =>
    if free then itrunc ip <| .set ip (setType 0) <| .iupdate ip <| .invalidate ip <| .release ip <| .deref ip k
    else .deref ip k

def iunlockput (ip : Slot) (k : Code) : Code := .release ip (iput ip k)

/-- `bmap`: whether there is a block. -/
def bmap (ip : Slot) (bn : Nat) (k : Bool → Code) : Code :=
  .read ip fun v =>
    if bn < ndirect then
      if v.addrs bn = 0 then .choose fun addr => if addr = 0 then k false else .set ip (setAddr bn addr) (k true)
      else k true
    else if bn - ndirect < nindirect then
      -- the entry of the indirect block, or a new block for it
      let entry : Code := .choose fun addr => if addr = 0 then k false else k true
      if v.addrs ndirect = 0 then .choose fun addr => if addr = 0 then k false else .set ip (setAddr ndirect addr) entry
      else entry
    else .panic

def chunk (off n : Nat) : Nat := min n (bsize - off % bsize)

theorem chunk_pos (off : Nat) {n : Nat} (h : n ≠ 0) : 0 < chunk off n := by
  have := Nat.mod_lt off (show 0 < bsize by decide)
  unfold chunk
  omega

def readLoop (ip : Slot) (k : Int → Code) (off n tot : Nat) : Code :=
  if _h : n = 0 then k tot
  else bmap ip (off / bsize) fun found =>
    if found then .choose fun copied =>
      if copied = 0 then k (-1) else readLoop ip k (off + chunk off n) (n - chunk off n) (tot + chunk off n)
    else k tot
termination_by n
decreasing_by have := chunk_pos off _h; omega

def readi (ip : Slot) (off n : Nat) (k : Int → Code) : Code :=
  .read ip fun v =>
    if off > v.size ∨ 2 ^ 32 ≤ off + n then k 0 else readLoop ip k off (min n (v.size - off)) 0

def writeLoop (ip : Slot) (k : Nat → Int → Code) (off n tot : Nat) : Code :=
  if _h : n = 0 then k off tot
  else bmap ip (off / bsize) fun found =>
    if found then .choose fun copied =>
      if copied = 0 then k off tot else writeLoop ip k (off + chunk off n) (n - chunk off n) (tot + chunk off n)
    else k off tot
termination_by n
decreasing_by have := chunk_pos off _h; omega

def writei (ip : Slot) (off n : Nat) (k : Int → Code) : Code :=
  .read ip fun v =>
    if off > v.size ∨ 2 ^ 32 ≤ off + n then k (-1)
    else if off + n > maxfile * bsize then k (-1)
    else writeLoop ip (fun off tot => .read ip fun v =>
      if off > v.size then .set ip (setSize off) (.iupdate ip (k tot)) else .iupdate ip (k tot)) off n 0

def entries (size : Nat) : Nat := (size + desize - 1) / desize

/-- The loop of `dirlookup`: each entry may be the one. -/
def dirlookupLoop (dp : Slot) (k : Option (Slot × Nat) → Code) : Nat → Nat → Code
  | 0, _ => k none
  | n + 1, off => readi dp off desize fun r =>
    if r ≠ desize then .panic
    else .choose fun inum => if inum = 0 then dirlookupLoop dp k n (off + desize) else .iget inum fun ip => k (some (ip, off))

def dirlookup (dp : Slot) (k : Option (Slot × Nat) → Code) : Code :=
  .read dp fun v => if v.type ≠ tdir then .panic else dirlookupLoop dp k (entries v.size) 0

/-- The loop of `dirlink` for a free entry, and that of `isdirempty` for one in use. -/
def scanLoop (dp : Slot) (k : Bool → Nat → Code) : Nat → Nat → Code
  | 0, off => k false off
  | n + 1, off => readi dp off desize fun r =>
    if r ≠ desize then .panic
    else .choose fun hit => if hit = 0 then scanLoop dp k n (off + desize) else k true off

def dirlink (dp : Slot) (k : Bool → Code) : Code :=
  dirlookup dp fun found =>
    match found with
    | some (ip, _) => iput ip (k false)
    | none => .read dp fun v => scanLoop dp (fun _ off => writei dp off desize fun r => k (r = desize)) (entries v.size) 0

/-- Whether a path begins with a slash, and the number of its elements. -/
structure Path where
  absolute : Bool
  elems : Nat

def namexLoop (parent : Bool) (k : Option Slot → Code) : Nat → Slot → Code
  | 0, ip => if parent then iput ip (k none) else k (some ip)
  | n + 1, ip =>
    ilock ip <| .read ip fun v =>
      if v.type ≠ tdir then iunlockput ip (k none)
      else if parent ∧ n = 0 then .release ip (k (some ip))
      else dirlookup ip fun found =>
        match found with
        | none => iunlockput ip (k none)
        | some (next, _) => iunlockput ip (namexLoop parent k n next)

def namex (parent : Bool) (cwd : Slot) (path : Path) (k : Option Slot → Code) : Code :=
  if path.absolute then .iget rootino fun ip => namexLoop parent k path.elems ip
  else .idup cwd (namexLoop parent k path.elems cwd)

def setNew (major minor : Int) (v : Dinode) : Dinode := { v with major := major, minor := minor, nlink := 1 }

/-- `create`: the locked inode. -/
def create (cwd : Slot) (path : Path) (type major minor : Int) (k : Option Slot → Code) : Code :=
  namex true cwd path fun found =>
    match found with
    | none => k none
    | some dp =>
      ilock dp <| dirlookup dp fun found =>
        match found with
        | some (ip, _) =>
          iunlockput dp <| ilock ip <| .read ip fun v =>
            if type = tfile ∧ (v.type = tfile ∨ v.type = tdevice) then k (some ip) else iunlockput ip (k none)
        | none =>
          .ialloc type fun found =>
            match found with
            | none => iunlockput dp (k none)
            | some inum => .iget inum fun ip =>
              let fail : Code := .set ip (setLink 0) <| .iupdate ip <| iunlockput ip <| iunlockput dp <| k none
              let finish : Code := dirlink dp fun ok =>
                if ok then
                  if type = tdir then .set dp (addLink 1) <| .iupdate dp <| iunlockput dp <| k (some ip)
                  else iunlockput dp <| k (some ip)
                else fail
              ilock ip <| .set ip (setNew major minor) <| .iupdate ip <|
                if type = tdir then dirlink ip fun ok => if ok then dirlink ip fun ok => if ok then finish else fail else fail
                else finish

def sysLink (cwd : Slot) (old new : Path) : Code :=
  namex false cwd old fun found =>
    match found with
    | none => .done cwd
    | some ip =>
      ilock ip <| .read ip fun v =>
        if v.type = tdir then iunlockput ip (.done cwd)
        else
          let bad : Code := ilock ip <| .set ip (addLink (-1)) <| .iupdate ip <| iunlockput ip (.done cwd)
          .set ip (addLink 1) <| .iupdate ip <| .release ip <| namex true cwd new fun found =>
            match found with
            | none => bad
            | some dp => ilock dp <| dirlink dp fun ok => if ok then iunlockput dp (iput ip (.done cwd)) else iunlockput dp bad

/-- `sys_unlink`; whether the last element of the path is `.` or `..` is left to chance. -/
def sysUnlink (cwd : Slot) (path : Path) : Code :=
  namex true cwd path fun found =>
    match found with
    | none => .done cwd
    | some dp =>
      ilock dp <| .choose fun dots =>
        if dots ≠ 0 then iunlockput dp (.done cwd)
        else dirlookup dp fun found =>
          match found with
          | none => iunlockput dp (.done cwd)
          | some (ip, off) =>
            ilock ip <| .read ip fun v =>
              if v.nlink < 1 then .panic
              else
                let finish : Code := iunlockput dp <| .set ip (addLink (-1)) <| .iupdate ip <| iunlockput ip (.done cwd)
                let remove : Code := writei dp off desize fun r =>
                  if r ≠ desize then .panic
                  else if v.type = tdir then .set dp (addLink (-1)) <| .iupdate dp finish
                  else finish
                if v.type = tdir then
                  scanLoop ip (fun used _ => if used then iunlockput ip (iunlockput dp (.done cwd)) else remove)
                    (entries v.size - 2) (2 * desize)
                else remove

/-- `sys_open` from the locked inode on. -/
def openInode (cwd ip : Slot) (trunc : Bool) : Code :=
  .read ip fun v =>
    if v.type = tdevice ∧ (v.major < 0 ∨ v.major ≥ ndev) then iunlockput ip (.done cwd)
    else .choose fun file =>
      if file = 0 then iunlockput ip (.done cwd)
      else .install ip <| if trunc ∧ v.type = tfile then itrunc ip (.release ip (.done cwd)) else .release ip (.done cwd)

def sysOpen (cwd : Slot) (path : Path) (creating rdonly trunc : Bool) : Code :=
  if creating then create cwd path tfile 0 0 fun found =>
    match found with
    | none => .done cwd
    | some ip => openInode cwd ip trunc
  else namex false cwd path fun found =>
    match found with
    | none => .done cwd
    | some ip =>
      ilock ip <| .read ip fun v =>
        if v.type = tdir ∧ ¬ rdonly then iunlockput ip (.done cwd) else openInode cwd ip trunc

/-- `sys_mkdir` and `sys_mknod` -/
def sysMknod (cwd : Slot) (path : Path) (type major minor : Int) : Code :=
  create cwd path type major minor fun found =>
    match found with
    | none => .done cwd
    | some ip => iunlockput ip (.done cwd)

def sysChdir (cwd : Slot) (path : Path) : Code :=
  namex false cwd path fun found =>
    match found with
    | none => .done cwd
    | some ip =>
      ilock ip <| .read ip fun v =>
        if v.type ≠ tdir then iunlockput ip (.done cwd) else .release ip <| iput cwd (.done ip)

def readAll (ip : Slot) (k : Code) : List (Nat × Nat) → Code
  | [] => k
  | (off, n) :: reads => readi ip off n fun r => if r = n then readAll ip k reads else k

def exec (cwd : Slot) (path : Path) (reads : List (Nat × Nat)) : Code :=
  namex false cwd path fun found =>
    match found with
    | none => .done cwd
    | some ip => ilock ip (readAll ip (iunlockput ip (.done cwd)) reads)

def fileread (cwd ip : Slot) (n : Nat) : Code :=
  ilock ip <| .choose fun off => readi ip off n fun _ => .release ip (.done cwd)

/-- `((MAXOPBLOCKS-1-1-2) / 2) * BSIZE` -/
abbrev maxwrite : Nat := 3072

def filewrite (cwd ip : Slot) (n : Nat) : Code :=
  if _h : n = 0 then .done cwd
  else ilock ip <| .choose fun off => writei ip off (min n maxwrite) fun r => .release ip <|
    if r ≠ (min n maxwrite : Nat) then .done cwd else filewrite cwd ip (n - min n maxwrite)
termination_by n
decreasing_by
  have : 0 < maxwrite := by decide
  omega

def filestat (cwd ip : Slot) : Code := ilock ip <| .read ip fun _ => .release ip (.done cwd)

def fileclose (cwd ip : Slot) : Code := iput ip (.done cwd)

def exit (cwd : Slot) : Code := iput cwd .exited

end Xv6.InodeCache
