import Xv6.Inode

namespace Xv6.Mkfs

open Fs (Byte Block Disk Superblock put splice byteOf get16 get32 bsize ndirect nindirect maxfile ipb bpb dirsiz rootino)

/-- The byte order of the host that runs mkfs. -/
inductive Order
  | little
  | big
  deriving DecidableEq

/-- The `ushort` at `o` in the memory of the host. -/
def host16 : Order → Block → Nat → Nat
  | .little, b, o => get16 b o
  | .big, b, o => (b (o + 1)).toNat + 256 * (b o).toNat

def host32 : Order → Block → Nat → Nat
  | .little, b, o => get32 b o
  | .big, b, o => host16 .big b (o + 2) + 65536 * host16 .big b o

/-- Byte `i` of a value of `n` bytes in the memory of the host. -/
def hostByte : Order → (n v i : Nat) → Byte
  | .little, _, v, i => byteOf v i
  | .big, n, v, i => byteOf v (n - 1 - i)

def xshort (e : Order) (x : Nat) : Nat := host16 e (byteOf x) 0

def xint (e : Order) (x : Nat) : Nat := host32 e (byteOf x) 0

abbrev fssize : Nat := 2000
abbrev ninodes : Nat := 200
abbrev nlog : Nat := 30
abbrev nbitmap : Nat := fssize / bpb + 1
abbrev ninodeblocks : Nat := ninodes / ipb + 1
abbrev nmeta : Nat := 2 + nlog + ninodeblocks + nbitmap

/-- The global `sb`, whose fields are already in the byte order of the disk. -/
def sb (e : Order) : Superblock where
  size := xint e fssize
  ninodes := xint e ninodes
  nlog := xint e nlog
  logstart := xint e 2
  inodestart := xint e (2 + nlog)
  bmapstart := xint e (2 + nlog + ninodeblocks)

/-- The fields of `sb` in order, the magic number first. -/
def sbWord (e : Order) : Nat → Nat
  | 0 => 0x10203040
  | 1 => (sb e).size
  | 2 => xint e (fssize - nmeta)
  | 3 => (sb e).ninodes
  | 4 => (sb e).nlog
  | 5 => (sb e).logstart
  | 6 => (sb e).inodestart
  | 7 => (sb e).bmapstart
  | _ => 0

def sbBlock (e : Order) : Block := fun i => if i < 32 then hostByte e 4 (sbWord e (i / 4)) (i % 4) else 0

/-- The kernel's `readsb`. -/
def readsb (d : Disk) : Superblock where
  size := get32 (d 1) 4
  ninodes := get32 (d 1) 12
  nlog := get32 (d 1) 16
  logstart := get32 (d 1) 20
  inodestart := get32 (d 1) 24
  bmapstart := get32 (d 1) 28

/-- `struct dinode` in the memory of the host. -/
structure Raw where
  type : Nat
  major : Nat
  minor : Nat
  nlink : Nat
  size : Nat
  addrs : Nat → Nat

def Raw.zero : Raw := ⟨0, 0, 0, 0, 0, fun _ => 0⟩

def Raw.bytes (e : Order) (d : Raw) (i : Nat) : Byte :=
  if i < 2 then hostByte e 2 d.type i
  else if i < 4 then hostByte e 2 d.major (i - 2)
  else if i < 6 then hostByte e 2 d.minor (i - 4)
  else if i < 8 then hostByte e 2 d.nlink (i - 6)
  else if i < 12 then hostByte e 4 d.size (i - 8)
  else hostByte e 4 (d.addrs ((i - 12) / 4)) ((i - 12) % 4)

def rawAt (e : Order) (b : Block) (o : Nat) : Raw where
  type := host16 e b o
  major := host16 e b (o + 2)
  minor := host16 e b (o + 4)
  nlink := host16 e b (o + 6)
  size := host32 e b (o + 8)
  addrs := fun k => if k ≤ ndirect then host32 e b (o + 12 + 4 * k) else 0

/-- The image file, by blocks, with its length, and the two counters. -/
structure Image where
  disk : Disk
  len : Nat
  freeinode : Nat
  freeblock : Nat

inductive Stop
  | assert (cond : String)
  | die (msg : String)
  deriving DecidableEq

abbrev M := StateT Image (Except Stop)

/-- Where `lseek(fsfd, sec * BSIZE, 0)` goes: the product is a `uint`. -/
def sector (sec : Nat) : Nat := sec * bsize % 2 ^ 32 / bsize

def wsect (sec : Nat) (buf : Block) : M Unit :=
  modify fun s => { s with disk := put s.disk (sector sec) buf, len := max s.len (sector sec + 1) }

def rsect (sec : Nat) : M Block := do
  let s ← get
  -- at the end of the file `read` returns 0
  if s.len ≤ sector sec then throw (.die "read")
  return s.disk (sector sec)

/-- `IBLOCK(inum, sb)`. -/
def iblock (e : Order) (inum : Nat) : Nat := (inum / ipb + (sb e).inodestart) % 2 ^ 32

def winode (e : Order) (inum : Nat) (ip : Raw) : M Unit := do
  let buf ← rsect (iblock e inum)
  wsect (iblock e inum) (splice buf (64 * (inum % ipb)) 64 (ip.bytes e))

def rinode (e : Order) (inum : Nat) : M Raw := do
  let buf ← rsect (iblock e inum)
  return rawAt e buf (64 * (inum % ipb))

def ialloc (e : Order) (type : Nat) : M Nat := do
  let s ← get
  let inum := s.freeinode
  set { s with freeinode := inum + 1 }
  winode e inum { Raw.zero with type := xshort e type, nlink := xshort e 1, size := xint e 0 }
  return inum

/-- `freeblock++`. -/
def nextBlock : M Nat := do
  let s ← get
  set { s with freeblock := s.freeblock + 1 }
  return s.freeblock

def addrFor (e : Order) (din : Raw) (j : Nat) : M Raw := do
  if xint e (din.addrs j) = 0 then
    let b ← nextBlock
    return { din with addrs := put din.addrs j (xint e b) }
  else return din

/-- A new block goes into entry `j` of the indirect block in sector `a`, unless there is one; the entry. -/
def entryFor (e : Order) (a j : Nat) : M Nat := do
  let indirect ← rsect a
  if host32 e indirect (4 * j) = 0 then
    let b ← nextBlock
    wsect a (splice indirect (4 * j) 4 (hostByte e 4 (xint e b)))
    return xint e (xint e b)
  else return xint e (host32 e indirect (4 * j))

/-- The block number of file block `fbn`, and the inode with the addresses that it needed. -/
def blockFor (e : Order) (din : Raw) (fbn : Nat) : M (Raw × Nat) := do
  if fbn < ndirect then
    let din ← addrFor e din fbn
    return (din, xint e (din.addrs fbn))
  else
    let din ← addrFor e din ndirect
    let x ← entryFor e (xint e (din.addrs ndirect)) (fbn - ndirect)
    return (din, x)

/-- The loop of `iappend` for the bytes `p` from `off` on: the inode and the final offset. -/
def appendLoop (e : Order) : (fuel : Nat) → Raw → (off : Nat) → List Byte → M (Raw × Nat)
  | 0, din, off, _ => return (din, off)
  | fuel + 1, din, off, p => do
    if 0 < p.length then
      let fbn := off / bsize
      if ¬ fbn < maxfile then throw (.assert "fbn < MAXFILE")
      let (din, x) ← blockFor e din fbn
      let n1 := min p.length ((fbn + 1) * bsize - off)
      let buf ← rsect x
      wsect x (splice buf (off - fbn * bsize) n1 fun i => p.getD i 0)
      appendLoop e fuel din (off + n1) (p.drop n1)
    else return (din, off)

def iappend (e : Order) (inum : Nat) (p : List Byte) : M Unit := do
  let din ← rinode e inum
  let (din, off) ← appendLoop e p.length din (xint e din.size) p
  winode e inum { din with size := xint e off }

/-- The bitmap block with the first `used` bits set. -/
def usedBits (used : Nat) : Block := (List.range used).foldl (fun buf i => Fs.setBitAt buf i true) fun _ => 0

def balloc (e : Order) (used : Nat) : M Unit := do
  if ¬ used < bpb then throw (.assert "used < BPB")
  wsect (sb e).bmapstart (usedBits used)

def dirent (e : Order) (inum : Nat) (name : List Byte) : List Byte :=
  [hostByte e 2 (xshort e inum) 0, hostByte e 2 (xshort e inum) 1] ++ (name ++ List.replicate dirsiz 0).take dirsiz

/-- The image once all blocks are zeroed and the superblock is written. -/
def start (e : Order) : Image := ⟨put (fun _ _ => 0) 1 (sbBlock e), fssize, 1, nmeta⟩

/-- An argument of mkfs: its path and what the reads from it return, if it can be opened. -/
structure Arg where
  path : List Byte
  reads : Option (List (List Byte))

/-- `argv[i]` without a leading `user/`. -/
def Arg.shortname (arg : Arg) : List Byte :=
  if arg.path.take 5 = [117, 115, 101, 114, 47] then arg.path.drop 5 else arg.path

/-- The name in the directory: a leading `_` is dropped. -/
def Arg.name (arg : Arg) : List Byte := if arg.shortname.head? = some 95 then arg.shortname.drop 1 else arg.shortname

def addFile (e : Order) (arg : Arg) : M Unit := do
  if (47 : Byte) ∈ arg.shortname then throw (.assert "index(shortname, '/') == 0")
  match arg.reads with
  | none => throw (.die "open")
  | some reads =>
    if ¬ arg.name.length ≤ dirsiz then throw (.assert "strlen(shortname) <= DIRSIZ")
    let inum ← ialloc e 2
    iappend e rootino (dirent e inum arg.name)
    reads.forM (iappend e inum)

def main (e : Order) (args : List Arg) : M Unit := do
  let root ← ialloc e 1
  if root ≠ rootino then throw (.assert "rootino == ROOTINO")
  iappend e root (dirent e root [46])
  iappend e root (dirent e root [46, 46])
  args.forM (addFile e)
  let din ← rinode e root
  let off := (xint e din.size / bsize + 1) * bsize
  winode e root { din with size := xint e off }
  balloc e (← get).freeblock

end Xv6.Mkfs
