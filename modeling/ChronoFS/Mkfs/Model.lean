import ChronoFS.Kernel.Sysfile

/-!
# `mkfs.c`: the program that makes a disk image

`mkfs` writes an image of `FSSIZE` blocks: the super block, the root directory, one file for each
argument and the free map. It allocates inodes and blocks by counting up. The state is the image
file and the two counters; the functions are those of the source, in its order. Where the program
stops early, an assertion has failed or a block past the end of the image was read.

`xint` and `xshort` put numbers into the byte order of the disk; a `Dinode` and a `Dirent` hold the
numbers themselves and are laid out in that order when they are written. An argument is a name and
the file's contents, in the pieces in which `read` delivers them.
-/

namespace ChronoFS

open Function (update)

/-! ## The super block -/

/-- The block that `mkfs` writes for a super block; the two journal fields stay `0`. -/
def Superblock.toBlock (sb : Superblock) : Block :=
  ((((((Block.zero.setWord 0 (.ofNat sb.size)).setWord 1 (.ofNat sb.nblocks)).setWord 2
    (.ofNat sb.ninodes)).setWord 3 (.ofNat sb.nlog)).setWord 4 (.ofNat sb.logstart)).setWord 5
    (.ofNat sb.inodestart)).setWord 6 (.ofNat sb.bmapstart)

namespace Mkfs

/-- `NINODES`. -/
abbrev NINODES : ℕ := 200

/-- `nbitmap`. -/
abbrev nbitmap : ℕ := FSSIZE / (BSIZE * 8) + 1

/-- `ninodeblocks`. -/
abbrev ninodeblocks : ℕ := NINODES / IPB + 1

/-- `nlog`. -/
abbrev nlog : ℕ := LOGSIZE

/-- `nmeta`: the number of meta blocks (boot, sb, log, inode, bitmap). -/
abbrev nmeta : ℕ := 2 + nlog + ninodeblocks + nbitmap

/-- `sb`, as `main` fills it in. -/
abbrev sb : Superblock := .mkfs

/-- The program with its image file. -/
structure State where
  /-- The image. -/
  disk : ℕ → Block
  /-- `freeinode`. -/
  freeinode : ℕ
  /-- `freeblock`. -/
  freeblock : ℕ

/-- Why the program stops early. -/
inductive Stop
  /-- An assertion fails. -/
  | assertion
  /-- A block cannot be read, since it is past the end of the image. -/
  | read
  deriving DecidableEq, Repr

/-- A function of the program. -/
abbrev MkfsM := EStateM Stop State

/-- `rsect`. -/
def rsect (sec : ℕ) : MkfsM Block := do
  let s ← get
  if sec < FSSIZE then return s.disk sec else throw .read

/-- `wsect`. -/
def wsect (sec : ℕ) (buf : Block) : MkfsM Unit :=
  modify fun s => { s with disk := update s.disk sec buf }

/-- `winode`. -/
def winode (inum : ℕ) (ip : Dinode) : MkfsM Unit := do
  let buf ← rsect (sb.iblock inum)
  wsect (sb.iblock inum) (buf.putDinode (inum % IPB) ip)

/-- `rinode`. -/
def rinode (inum : ℕ) : MkfsM Dinode := do
  let buf ← rsect (sb.iblock inum)
  return buf.getDinode (inum % IPB)

/-- `freeinode++`. -/
def nextInode : MkfsM ℕ := do
  let s ← get
  modify fun s => { s with freeinode := s.freeinode + 1 }
  return s.freeinode

/-- `freeblock++`. -/
def nextBlock : MkfsM UInt32 := do
  let s ← get
  modify fun s => { s with freeblock := s.freeblock + 1 }
  return .ofNat s.freeblock

/-- `ialloc`. -/
def ialloc (type : Int16) : MkfsM ℕ := do
  let inum ← nextInode
  winode inum { Dinode.zero with type, nlink := 1 }
  return inum

/-- `balloc`: the free map with the first `used` blocks marked. -/
def balloc (used : ℕ) : MkfsM Unit := do
  if used < BSIZE * 8 then
    wsect sb.bmapstart ((List.range used).foldl Block.setBit .zero)
  else throw .assertion

/-- `iappend`: the indirect block of the file, allocated if necessary. -/
def appendIndirect (din : Dinode) : MkfsM Dinode := do
  if din.indirect = 0 then
    let b ← nextBlock
    return { din with indirect := b }
  else return din

/-- `iappend`: the disk block `x` of block `fbn` of the file, allocated if necessary. -/
def appendBlock (din : Dinode) (fbn : ℕ) : MkfsM (Dinode × UInt32) := do
  if h : fbn < NDIRECT then
    if din.addrs ⟨fbn, h⟩ = 0 then
      let b ← nextBlock
      return ({ din with addrs := update din.addrs ⟨fbn, h⟩ b }, b)
    else return (din, din.addrs ⟨fbn, h⟩)
  else
    let din ← appendIndirect din
    let indirect ← rsect din.indirect.toNat
    if indirect.word (fbn - NDIRECT) = 0 then
      let b ← nextBlock
      wsect din.indirect.toNat (indirect.setWord (fbn - NDIRECT) b)
      return (din, b)
    else return (din, indirect.word (fbn - NDIRECT))

/-- The loop of `iappend`: its passes are the parts of the byte range in each block, as those of
`writei` are. -/
def appendChunks : List Chunk → List UInt8 → Dinode → MkfsM Dinode
  | [], _, din => return din
  | c :: cs, p, din => do
    if c.bn < MAXFILE then
      let (din, x) ← appendBlock din c.bn
      let buf ← rsect x.toNat
      wsect x.toNat (buf.put c.start c.len fun j => p.getD j 0)
      appendChunks cs (p.drop c.len) din
    else throw .assertion

/-- `iappend`. -/
def iappend (inum : ℕ) (p : List UInt8) : MkfsM Unit := do
  let din ← rinode inum
  let off := din.size.toNat
  let din ← appendChunks (chunks off p.length) p din
  winode inum { din with size := .ofNat (off + p.length) }

/-- An argument of the program: a file. -/
structure Input where
  /-- Its name. -/
  name : List UInt8
  /-- What the calls of `read` return, in order. -/
  pieces : List (List UInt8)
  deriving DecidableEq

/-- The contents of the file. -/
def Input.bytes (f : Input) : List UInt8 := f.pieces.flatten

/-- The character `_`. -/
abbrev UNDERSCORE : UInt8 := 95

/-- The name that the file gets, without a leading `_`. -/
def Input.stored (f : Input) : List UInt8 :=
  if f.name.head? = some UNDERSCORE then f.name.tail else f.name

/-- One pass of the loop of `main` over the files. -/
def addFile (rootino : ℕ) (f : Input) : MkfsM Unit := do
  if SLASH ∈ f.name then throw .assertion
  else
    let inum ← ialloc T_FILE
    iappend rootino (Dirent.bytes ⟨.ofNat inum, f.stored⟩)
    f.pieces.forM (iappend inum)

/-- `main`: fix size of root inode dir. -/
def fixRoot (rootino : ℕ) : MkfsM Unit := do
  let din ← rinode rootino
  winode rootino { din with size := .ofNat ((din.size.toNat / BSIZE + 1) * BSIZE) }

/-- `main`, from the super block on. -/
def main (files : List Input) : MkfsM Unit := do
  wsect 1 sb.toBlock
  let rootino ← ialloc T_DIR
  if rootino = ROOTINO then
    iappend rootino (Dirent.bytes ⟨.ofNat rootino, DOT⟩)
    iappend rootino (Dirent.bytes ⟨.ofNat rootino, DOTDOT⟩)
    files.forM (addFile rootino)
    fixRoot rootino
    let s ← get
    balloc s.freeblock
  else throw .assertion

/-- The program at the start: the image is full of zeroes. -/
def start : State := ⟨fun _ => .zero, 1, nmeta⟩

end Mkfs

end ChronoFS
