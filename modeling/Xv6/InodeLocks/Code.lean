import Xv6.Disk

/-!
The locks and references of inodes while any number of processes make file system calls at the same time. A
call is a tree of the steps that others can see: each one is done under `itable.lock` or under the sleep-lock of
the inode it touches. What does not bear on locks (whether an argument can be fetched, a block allocated, a file
structure found) is left to chance.
-/

namespace Xv6.InodeLocks

inductive Kind
  | free
  | dir
  | file
  | device
  deriving DecidableEq

abbrev Name := List (BitVec 8)

def dot : Name := [46]
def dotdot : Name := [46, 46]

/-- `.` or `..`. -/
def Dot (name : Name) : Prop := name = dot ∨ name = dotdot

instance (name : Name) : Decidable (Dot name) := inferInstanceAs (Decidable (_ ∨ _))

/-- A directory entry; a free slot has inode number 0. -/
structure Dirent where
  name : Name
  inum : Nat
  deriving DecidableEq

structure Node where
  type : Kind
  nlink : Int
  ents : List Dirent

def Node.free : Node := ⟨.free, 0, []⟩

def Node.find (n : Node) (name : Name) : Option Dirent := n.ents.find? fun x => x.inum ≠ 0 ∧ x.name = name

def fill (x : Dirent) : List Dirent → List Dirent
  | [] => [x]
  | y :: ys => if y.inum = 0 then x :: ys else y :: fill x ys

def clear (name : Name) : List Dirent → List Dirent
  | [] => []
  | y :: ys => if y.inum ≠ 0 ∧ y.name = name then ⟨[], 0⟩ :: ys else y :: clear name ys

/-- The rest of a call of a process. -/
inductive Code
  | done (cwd : Nat)
  | panic
  /-- `iget` and `idup` -/
  | iget (i : Nat) (k : Code)
  /-- `acquiresleep` in `ilock` -/
  | acquire (i : Nat) (k : Code)
  /-- the rest of `ilock` -/
  | load (i : Nat) (k : Code)
  | read (i : Nat) (k : Node → Code)
  | write (i : Nat) (f : Node → Node) (k : Code)
  | release (i : Nat) (k : Code)
  /-- the test of `iput`; if it holds, the inode is locked and freed -/
  | last (i : Nat) (k : Bool → Code)
  /-- `ip->ref--` -/
  | deref (i : Nat) (k : Code)
  | ialloc (type : Kind) (k : Option Nat → Code)
  | choose (k : Bool → Code)
  /-- a file structure takes over the reference -/
  | install (i : Nat) (k : Code)

def ilock (i : Nat) (k : Code) : Code := .acquire i (.load i k)

def iput (i : Nat) (k : Code) : Code :=
  .last i fun freed => if freed then .release i (.deref i k) else .deref i k

def iunlockput (i : Nat) (k : Code) : Code := .release i (iput i k)

def dirlookup (d : Nat) (name : Name) (k : Option Nat → Code) : Code :=
  .read d fun n =>
    if n.type = .dir then
      match n.find name with
      | none => k none
      | some x => .iget x.inum (k (some x.inum))
    else .panic

/-- `dirlink`: an entry of that name is an error, and the disk may be full. -/
def dirlink (d : Nat) (name : Name) (c : Nat) (k : Bool → Code) : Code :=
  dirlookup d name fun found =>
    match found with
    | some i => iput i (k false)
    | none => .choose fun room =>
      if room then .write d (fun n => { n with ents := fill ⟨name, c⟩ n.ents }) (k true) else k false

/-- The loop of `namex`: the elements that are left and, for `nameiparent`, the last one. -/
def namexLoop (parent : Bool) : List Name → Nat → (Option (Nat × Name) → Code) → Code
  | [], ip, k => if parent then iput ip (k none) else k (some (ip, []))
  | name :: path, ip, k =>
    ilock ip (.read ip fun n =>
      if n.type ≠ .dir then iunlockput ip (k none)
      else if parent ∧ path = [] then .release ip (k (some (ip, name)))
      else dirlookup ip name fun next =>
        match next with
        | none => iunlockput ip (k none)
        | some next => iunlockput ip (namexLoop parent path next k))

def rootino : Nat := 1

structure Path where
  absolute : Bool
  elems : List Name

def namex (parent : Bool) (cwd : Nat) (path : Path) (k : Option (Nat × Name) → Code) : Code :=
  let ip := if path.absolute then rootino else cwd
  .iget ip (namexLoop parent path.elems ip k)

def addLink (n : Int) (x : Node) : Node := { x with nlink := Fs.toShort (x.nlink + n) }

def create (cwd : Nat) (path : Path) (type : Kind) (k : Option Nat → Code) : Code :=
  namex true cwd path fun found =>
    match found with
    | none => k none
    | some (dp, name) =>
      ilock dp <| dirlookup dp name fun found =>
        match found with
        | some ip =>
          iunlockput dp <| ilock ip <| .read ip fun n =>
            if type = .file ∧ (n.type = .file ∨ n.type = .device) then k (some ip) else iunlockput ip (k none)
        | none =>
          .ialloc type fun found =>
            match found with
            | none => iunlockput dp (k none)
            | some ip =>
              let fail : Code := .write ip (fun x => { x with nlink := 0 }) (iunlockput ip (iunlockput dp (k none)))
              let finish : Code := dirlink dp name ip fun linked =>
                if linked then
                  if type = .dir then .write dp (addLink 1) (iunlockput dp (k (some ip))) else iunlockput dp (k (some ip))
                else fail
              .iget ip <| ilock ip <| .write ip (fun x => { x with nlink := 1 }) <|
                if type = .dir then
                  dirlink ip dot ip fun ok => if ok then dirlink ip dotdot dp fun ok => if ok then finish else fail else fail
                else finish

def sysLink (cwd : Nat) (old new : Path) : Code :=
  namex false cwd old fun found =>
    match found with
    | none => .done cwd
    | some (ip, _) =>
      ilock ip <| .read ip fun n =>
        if n.type = .dir then iunlockput ip (.done cwd)
        else
          let bad : Code := ilock ip <| .write ip (addLink (-1)) <| iunlockput ip (.done cwd)
          .write ip (addLink 1) <| .release ip <| namex true cwd new fun found =>
            match found with
            | none => bad
            | some (dp, name) =>
              ilock dp <| dirlink dp name ip fun linked =>
                if linked then iunlockput dp (iput ip (.done cwd)) else iunlockput dp bad

def isdirempty (n : Node) : Bool := (n.ents.drop 2).all fun x => x.inum = 0

def sysUnlink (cwd : Nat) (path : Path) : Code :=
  namex true cwd path fun found =>
    match found with
    | none => .done cwd
    | some (dp, name) =>
      ilock dp <|
        if Dot name then iunlockput dp (.done cwd)
        else dirlookup dp name fun found =>
          match found with
          | none => iunlockput dp (.done cwd)
          | some ip =>
            ilock ip <| .read ip fun n =>
              if n.nlink < 1 then .panic
              else if n.type = .dir ∧ ¬ isdirempty n then iunlockput ip (iunlockput dp (.done cwd))
              else
                let rest : Code := iunlockput dp <| .write ip (addLink (-1)) <| iunlockput ip (.done cwd)
                .write dp (fun x => { x with ents := clear name x.ents }) <|
                  if n.type = .dir then .write dp (addLink (-1)) rest else rest

def sysChdir (cwd : Nat) (path : Path) : Code :=
  namex false cwd path fun found =>
    match found with
    | none => .done cwd
    | some (ip, _) =>
      ilock ip <| .read ip fun n =>
        if n.type ≠ .dir then iunlockput ip (.done cwd)
        else .release ip <| iput cwd (.done ip)

/-- `sys_open` from the locked inode on. -/
def openInode (cwd ip : Nat) : Code :=
  .choose fun ok => if ok then .install ip (.release ip (.done cwd)) else iunlockput ip (.done cwd)

def sysOpen (cwd : Nat) (path : Path) (creating rdonly : Bool) : Code :=
  if creating then create cwd path .file fun found =>
    match found with
    | none => .done cwd
    | some ip => openInode cwd ip
  else namex false cwd path fun found =>
    match found with
    | none => .done cwd
    | some (ip, _) =>
      ilock ip <| .read ip fun n =>
        if n.type = .dir ∧ ¬ rdonly then iunlockput ip (.done cwd) else openInode cwd ip

def sysMknod (cwd : Nat) (path : Path) (type : Kind) : Code :=
  create cwd path type fun found =>
    match found with
    | none => .done cwd
    | some ip => iunlockput ip (.done cwd)

/-- `fileread` and `filewrite` on inode `ip`: a write may change what the inode holds, but not the entries of a directory. -/
def fileAccess (cwd ip : Nat) : Code := ilock ip (.release ip (.done cwd))

def closeLast (cwd ip : Nat) : Code := iput ip (.done cwd)

end Xv6.InodeLocks
