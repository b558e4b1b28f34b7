import Xv6.Directory

namespace Xv6.Fs

/-- `ip->nlink += d; iupdate(ip)`. -/
def addLink (k : Nat) (d : Int) : M Unit := do
  setDin k fun din => { din with nlink := toShort (din.nlink + d) }
  iupdate k

/-- The middle of `sys_link`: the entry `new` for inode `k`. -/
def linkEntry (cwd : Nat) (new : List Byte) (k : Nat) : M Bool := do
  match ← nameiparent cwd new with
  | none => return false
  | some (dp, name) =>
    ilock dp
    let ip ← inode k
    let linked ← dirlink dp name ip.inum
    iunlockput dp
    return linked

/-- The part of `sys_link` after the arguments are fetched. -/
def link (cwd : Nat) (old new : List Byte) : M Bool := do
  beginOp
  match ← namei cwd old with
  | none =>
    endOp
    return false
  | some k =>
    ilock k
    let ip ← inode k
    if ip.din.type = tDir then
      iunlockput k
      endOp
      return false
    else
      addLink k 1
      iunlock k
      if ← linkEntry cwd new k then
        iput k
        endOp
        return true
      else
        ilock k
        addLink k (-1)
        iunlockput k
        endOp
        return false

def isdiremptyLoop (k : Nat) : (fuel off : Nat) → M Bool
  | 0, _ => return true
  | fuel + 1, off => do
    let ip ← inode k
    if off < ip.din.size then
      let (n, de) ← readi k off 16
      if n ≠ 16 then panic "isdirempty: readi"
      if get16 de 0 ≠ 0 then return false
      else isdiremptyLoop k fuel (off + 16)
    else return true

def isdirempty (k : Nat) : M Bool := do
  let ip ← inode k
  isdiremptyLoop k (ip.din.size / 16 + 1) 32

/-- Whether `sys_unlink` may remove the inode: not a directory with entries. -/
def removable (k : Nat) : M Bool := do
  let ip ← inode k
  if ip.din.type = tDir then isdirempty k else return true

/-- The end of `sys_unlink`: the entry of `k` at `off` in `dp` goes. -/
def unlinkEntry (dp k off : Nat) : M Unit := do
  let n ← writei dp (.kernel fun _ => 0) off 16
  if n ≠ 16 then panic "unlink: writei"
  let ip ← inode k
  if ip.din.type = tDir then addLink dp (-1)
  iunlockput dp
  addLink k (-1)
  iunlockput k

/-- `sys_unlink` from where the parent directory is locked. -/
def unlinkIn (dp : Nat) (name : Name) : M Bool := do
  if name = dot ∨ name = dotdot then
    iunlockput dp
    return false
  else
    match ← dirlookup dp name with
    | none =>
      iunlockput dp
      return false
    | some (k, off) =>
      ilock k
      let ip ← inode k
      if ip.din.nlink < 1 then panic "unlink: nlink < 1"
      if ← removable k then
        unlinkEntry dp k off
        return true
      else
        iunlockput k
        iunlockput dp
        return false

/-- The part of `sys_unlink` after the argument is fetched. -/
def unlink (cwd : Nat) (path : List Byte) : M Bool := do
  beginOp
  match ← nameiparent cwd path with
  | none =>
    endOp
    return false
  | some (dp, name) =>
    ilock dp
    let removed ← unlinkIn dp name
    endOp
    return removed

def createDots (dp k : Nat) (type : Int) : M Bool := do
  if type = tDir then
    let ip ← inode k
    if ← dirlink k dot ip.inum then
      let parent ← inode dp
      dirlink k dotdot parent.inum
    else return false
  else return true

/-- The entries of `create`: those of a new directory, then the one in `dp`. -/
def createEntries (dp k : Nat) (name : Name) (type : Int) : M Bool := do
  if ← createDots dp k type then
    let ip ← inode k
    dirlink dp name ip.inum
  else return false

/-- `create` for a name that is not in `dp`. -/
def createNew (dp : Nat) (name : Name) (type major minor : Int) : M (Option Nat) := do
  match ← ialloc type with
  | none =>
    iunlockput dp
    return none
  | some k =>
    ilock k
    setDin k fun d => { d with major := toShort major, minor := toShort minor, nlink := 1 }
    iupdate k
    if ← createEntries dp k name type then
      if type = tDir then addLink dp 1
      iunlockput dp
      return some k
    else
      setDin k fun d => { d with nlink := 0 }
      iupdate k
      iunlockput k
      iunlockput dp
      return none

/-- The new or the existing inode, locked. -/
def create (cwd : Nat) (path : List Byte) (type major minor : Int) : M (Option Nat) := do
  match ← nameiparent cwd path with
  | none => return none
  | some (dp, name) =>
    ilock dp
    match ← dirlookup dp name with
    | none => createNew dp name type major minor
    | some (k, _) =>
      iunlockput dp
      ilock k
      let ip ← inode k
      if type = tFile ∧ (ip.din.type = tFile ∨ ip.din.type = tDevice) then return some k
      else
        iunlockput k
        return none

/-- `sys_mkdir` and `sys_mknod`; `none` is a bad path argument. -/
def mknod (cwd : Nat) (path : Option (List Byte)) (type major minor : Int) : M Bool := do
  beginOp
  match path with
  | none =>
    endOp
    return false
  | some path =>
    match ← create cwd path type major minor with
    | none =>
      endOp
      return false
    | some k =>
      iunlockput k
      endOp
      return true

end Xv6.Fs
