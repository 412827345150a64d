import ChronoFS.Fs.Gc

/-!
# `fs.c`: blocks, inodes and their contents

The functions from `bzero` to `writei`, in the order of the source. An `int` that is `-1` on failure
is an `Option`. The loops of `readi` and `writei` run over the list of pieces that the byte range
falls into, one per block (`chunks`).
-/

namespace ChronoFS

open Function (update)

/-! ## Blocks -/

/-- `bzero`. -/
def bzero (b : ℕ) : FsM Unit := logWrite b .zero

/-- The first block that the free map marks free: `b + bi` of the two loops of `balloc`. -/
def Fs.freeBlock (s : Fs) : Option ℕ :=
  (List.range s.sb.size).find? fun b => !(s.disk (s.sb.bblock b)).bit (b % BPB)

/-- `balloc`: allocate a zeroed disk block. -/
def balloc : FsM UInt32 := do
  let s ← get
  match s.freeBlock with
  | none => throw (.panic .ballocOut)
  | some b =>
    logWrite (s.sb.bblock b) ((s.disk (s.sb.bblock b)).setBit (b % BPB))
    bzero b
    return .ofNat b

/-- `bfree`: free a disk block. -/
def bfree (b : UInt32) : FsM Unit := do
  let s ← get
  let bp ← bread (s.sb.bblock b.toNat)
  if bp.bit (b.toNat % BPB) then logWrite (s.sb.bblock b.toNat) (bp.clearBit (b.toNat % BPB))
  else throw (.panic .bfreeFree)

/-! ## Inodes -/

/-- The disk inode `i`, `*((struct dinode*)bp->data + i%IPB)`. -/
def Fs.dinode (s : Fs) (i : ℕ) : Dinode := (s.disk (s.sb.iblock i)).getDinode (i % IPB)

/-- The slot that holds inode `inum` of `dev`, if it is cached. -/
def Fs.cachedSlot (s : Fs) (dev inum : UInt32) : Option Slot :=
  (List.finRange NINODE).find? fun k =>
    0 < (s.icache k).ref ∧ (s.icache k).dev = dev ∧ (s.icache k).inum = inum

/-- The first slot that is not in use. -/
def Fs.emptySlot (s : Fs) : Option Slot :=
  (List.finRange NINODE).find? fun k => (s.icache k).ref = 0

/-- `iget`. -/
def iget (dev inum : UInt32) : FsM Slot := do
  let s ← get
  match s.cachedSlot dev inum with
  | some k =>
    setInode k fun ip => { ip with ref := ip.ref + 1 }
    return k
  | none =>
    match s.emptySlot with
    | none => throw (.panic .igetNoInodes)
    | some k =>
      setInode k fun ip => { ip with dev, inum, ref := 1, valid := false }
      return k

/-- The first free inode: the loop of `ialloc`. -/
def Fs.freeInode (s : Fs) : Option ℕ :=
  (List.range' 1 (s.sb.ninodes - 1)).find? fun i => (s.dinode i).type = 0

/-- `ialloc`: allocate an inode of the given type. -/
def ialloc (dev : UInt32) (type : Int16) : FsM Slot := do
  let s ← get
  match s.freeInode with
  | none => throw (.panic .iallocNoInodes)
  | some i =>
    logWrite (s.sb.iblock i) ((s.disk (s.sb.iblock i)).putDinode (i % IPB)
      { Dinode.zero with type, createTime := s.ticks })
    iget dev (.ofNat i)

/-- `iupdate`: copy a modified in-memory inode to disk. -/
def iupdate (k : Slot) : FsM Unit := do
  uses k
  let s ← get
  let ip ← inode k
  let bp ← bread (s.sb.iblock ip.inum.toNat)
  logWrite (s.sb.iblock ip.inum.toNat) (bp.putDinode (ip.inum.toNat % IPB) ip.din)

/-- `idup`. -/
def idup (k : Slot) : FsM Slot := do
  setInode k fun ip => { ip with ref := ip.ref + 1 }
  return k

/-- `ilock`: lock the given inode, reading it from disk if necessary. -/
def ilock (k : Slot) : FsM Unit := do
  let ip ← inode k
  if ip.ref < 1 then throw (.panic .ilock)
  else
    acquiresleep k
    let s ← get
    let ip ← inode k
    if ip.valid then return
    else
      let din := s.dinode ip.inum.toNat
      setInode k fun ip => { ip with valid := true, din }
      if din.type = 0 then throw (.panic .ilockNoType) else return

/-- `iunlock`. -/
def iunlock (k : Slot) : FsM Unit := do
  let ip ← inode k
  if !ip.locked || ip.ref < 1 then throw (.panic .iunlock)
  else releasesleep k

/-! ## Inode content -/

/-- The indirect block of the inode, allocated if necessary. -/
def indirectBlock (k : Slot) : FsM UInt32 := do
  let ip ← inode k
  if ip.din.indirect = 0 then
    let addr ← balloc
    setDin k fun d => { d with indirect := addr }
    return addr
  else return ip.din.indirect

/-- `bmap`: the disk block address of the `bn`th block of the inode, allocated if necessary. -/
def bmap (k : Slot) (bn : ℕ) : FsM UInt32 := do
  if h : bn < NDIRECT then
    let ip ← inode k
    if ip.din.addrs ⟨bn, h⟩ = 0 then
      let addr ← balloc
      setDin k fun d => { d with addrs := update d.addrs ⟨bn, h⟩ addr }
      return addr
    else return ip.din.addrs ⟨bn, h⟩
  else if bn - NDIRECT < NINDIRECT then
    let ind ← indirectBlock k
    let bp ← bread ind.toNat
    if bp.word (bn - NDIRECT) = 0 then
      let addr ← balloc
      logWrite ind.toNat (bp.setWord (bn - NDIRECT) addr)
      return addr
    else return bp.word (bn - NDIRECT)
  else throw (.panic .bmapRange)

/-- How `itrunc` and `sys_version_restore` give a data block back: a block of the reference-count
table is freed when its count reaches zero, any other at once. -/
def releaseBlock (addr : UInt32) : FsM Unit := do
  let tracked ← brefIsTracked addr
  if tracked then
    let count ← brefDec addr
    if count = 0 then bfree addr else return
  else bfree addr

/-- One pass of the loop of `itrunc` and `sys_version_restore` over the direct blocks. -/
def freeDirect (k : Slot) (i : Fin NDIRECT) : FsM Unit := do
  let ip ← inode k
  if ip.din.addrs i ≠ 0 then
    releaseBlock (ip.din.addrs i)
    setDin k fun d => { d with addrs := update d.addrs i 0 }
  else return

/-- `itrunc`, from `if(ip->indirect)` to the end of that block. -/
def freeIndirect (k : Slot) : FsM Unit := do
  let ip ← inode k
  if ip.din.indirect ≠ 0 then
    let bp ← bread ip.din.indirect.toNat
    (List.range NINDIRECT).forM fun j => do
      if bp.word j ≠ 0 then bfree (bp.word j) else return
    bfree ip.din.indirect
    setDin k fun d => { d with indirect := 0 }
  else return

/-- `itrunc`: truncate inode (discard contents). -/
def itrunc (k : Slot) : FsM Unit := do
  (List.finRange NDIRECT).forM (freeDirect k)
  freeIndirect k
  setDin k fun d => { d with size := 0 }
  iupdate k

/-- History: the chain from `head` is given up, unless an entry of `deleted_files` has it. -/
def Fs.giveUp (s : Fs) (head : UInt32) : Fs :=
  if head = 0 ∨ ∃ e, (s.deleted e).valid ∧ (s.deleted e).versionHead = head then s
  else { s with lost := head :: s.lost }

/-- `iput`: truncate and free an inode that has no links and no other references. -/
def ifree (k : Slot) : FsM Unit := do
  itrunc k
  setDin k fun d => { d with type := 0 }
  iupdate k
  modify fun s => s.giveUp (s.icache k).din.versionHead
  setInode k fun ip => { ip with valid := false }

/-- `iput`, between `acquiresleep` and `releasesleep`. -/
def ifreeLast (k : Slot) : FsM Unit := do
  let ip ← inode k
  if ip.valid ∧ ip.din.nlink = 0 ∧ ip.ref = 1 then ifree k else return

/-- `iput`: drop a reference to an in-memory inode. -/
def iput (k : Slot) : FsM Unit := do
  acquiresleep k
  ifreeLast k
  releasesleep k
  setInode k fun ip => { ip with ref := ip.ref - 1 }

/-- `iunlockput`: unlock, then put. -/
def iunlockput (k : Slot) : FsM Unit := do
  iunlock k
  iput k

/-- `struct stat`. -/
structure Stat where
  /-- Type of file. -/
  type : Int16
  /-- File system's disk device. -/
  dev : UInt32
  /-- Inode number. -/
  ino : UInt32
  /-- Number of links to file. -/
  nlink : Int16
  /-- Size of file in bytes. -/
  size : UInt32
  deriving DecidableEq

/-- `stati`: copy stat information from inode. -/
def stati (k : Slot) : FsM Stat := do
  uses k
  let ip ← inode k
  return ⟨ip.din.type, ip.dev, ip.inum, ip.din.nlink, ip.din.size⟩

/-! ## Devices -/

/-- The major device number of the console. -/
abbrev CONSOLE : Int16 := 1

/-- The device has functions in `devsw`. `consoleinit` is the only one to set some. -/
def devsw (major : Int16) : Bool := major == CONSOLE

/-- `consoleread`: the inode is unlocked while the process waits for input. -/
def consoleread (k : Slot) (n : ℕ) : FsM (Option (List UInt8)) := do
  iunlock k
  let s ← get
  match s.io with
  | [] => throw .sleep
  | line :: rest =>
    modify fun s => { s with io := rest }
    ilock k
    return line.map (·.take n)

/-- `consolewrite`. -/
def consolewrite (k : Slot) (n : ℕ) : FsM (Option ℕ) := do
  iunlock k
  ilock k
  return some n

/-! ## `readi` and `writei` -/

/-- The part of a byte range that falls into one block. -/
structure Chunk where
  /-- The block of the file. -/
  bn : ℕ
  /-- Where the part begins in the block. -/
  start : ℕ
  /-- Its length. -/
  len : ℕ
  deriving DecidableEq

/-- `chunks` with a bound on the number of parts. -/
def chunksUpTo : ℕ → ℕ → ℕ → List Chunk
  | 0, _, _ => []
  | bound + 1, off, n =>
    if n = 0 then []
    else
      let m := min n (BSIZE - off % BSIZE)
      ⟨off / BSIZE, off % BSIZE, m⟩ :: chunksUpTo bound (off + m) (n - m)

/-- The passes of the loops of `readi` and `writei` over `n` bytes from `off`. Each takes at least
a byte, so there are at most `n`. -/
def chunks (off n : ℕ) : List Chunk := chunksUpTo n off n

/-- The loop of `readi`. -/
def readChunks (k : Slot) : List Chunk → FsM (List UInt8)
  | [] => return []
  | c :: cs => do
    let addr ← bmap k c.bn
    let bp ← bread addr.toNat
    let rest ← readChunks k cs
    return (List.range c.len).map (fun j => bp.get (c.start + j)) ++ rest

/-- `readi`: read data from inode. -/
def readi (k : Slot) (off n : UInt32) : FsM (Option (List UInt8)) := do
  uses k
  let ip ← inode k
  if ip.din.type = T_DEV then
    if ip.din.major < 0 ∨ ip.din.major ≥ .ofNat NDEV ∨ !devsw ip.din.major then return none
    else consoleread k n.toNat
  else if off > ip.din.size ∨ off + n < off then return none
  else
    let n := if off + n > ip.din.size then ip.din.size - off else n
    let bytes ← readChunks k (chunks off.toNat n.toNat)
    return some bytes

/-- The loop of `writei`. -/
def writeChunks (k : Slot) : List Chunk → List UInt8 → FsM Unit
  | [], _ => return
  | c :: cs, src => do
    let addr ← bmap k c.bn
    let bp ← bread addr.toNat
    logWrite addr.toNat (bp.put c.start c.len fun j => src.getD j 0)
    writeChunks k cs (src.drop c.len)

/-- The end of `writei`: the size grows to `off`, the end of what was written. -/
def growSize (k : Slot) (n off : UInt32) : FsM Unit := do
  let ip ← inode k
  if n > 0 ∧ off > ip.din.size then
    setDin k fun d => { d with size := off }
    iupdate k
  else return

/-- `writei`: write data to inode. -/
def writei (k : Slot) (src : List UInt8) (off : UInt32) : FsM (Option ℕ) := do
  uses k
  let n : UInt32 := .ofNat src.length
  let ip ← inode k
  if ip.din.type = T_DEV then
    if ip.din.major < 0 ∨ ip.din.major ≥ .ofNat NDEV ∨ !devsw ip.din.major then return none
    else consolewrite k n.toNat
  else if off > ip.din.size ∨ off + n < off then return none
  else if (off + n).toNat > MAXFILE * BSIZE then return none
  else
    writeChunks k (chunks off.toNat n.toNat) src
    growSize k n (off + n)
    return some n.toNat

end ChronoFS
