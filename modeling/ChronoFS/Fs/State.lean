import ChronoFS.Fs.Format
import ChronoFS.Lib.Wp
import Mathlib.Logic.Function.Basic

/-!
# The state of the file system and how its code can stop

System calls run one at a time. `Fs.disk` is the disk as the kernel sees it, through the buffer
cache and the log: the committed transactions, then what the running operation stored. (That
`bread` gives this is the subject of `ChronoFS.Bio.Coherence`.) A program of `fs.c` is an `FsM`: it
returns, or halts with the state it halted in.

The last three fields of `Fs` and `ops` are history variables: no function reads them to decide what
to do.
-/

namespace ChronoFS

open Function (update)

/-- The calls of `panic` in the file system. -/
inductive Panic
  | tooBig | outsideTrans
  | ballocOut | bfreeFree
  | iallocNoInodes | igetNoInodes
  | ilock | ilockNoType | iunlock
  | bmapRange
  | dirlookupNotDir | dirlookupRead | dirlinkRead | dirlink
  | isdiremptyReadi | unlinkNlink | unlinkWritei
  | createIalloc | createDots | createDirlink
  | filedup | fileclose | fileread | filewrite | shortFilewrite
  | initExiting
  deriving DecidableEq, Repr

/-- Why a call does not return. -/
inductive Halt
  /-- The kernel panics. -/
  | panic (p : Panic)
  /-- The process sleeps, and no other runs to wake it: it waits for a lock that it holds itself,
  for space in the log, or for input. -/
  | sleep
  /-- The kernel follows a null pointer. -/
  | fault
  /-- A loop does not end. -/
  | spin
  deriving DecidableEq, Repr

/-- A slot of the inode cache, `&icache.inode[k]`. -/
abbrev Slot := Fin NINODE

/-- `struct inode`: the in-memory copy of an inode. -/
structure Inode where
  /-- Device number. -/
  dev : UInt32
  /-- Inode number. -/
  inum : UInt32
  /-- Reference count. -/
  ref : ℤ
  /-- Whether the process that runs holds `ip->lock`. -/
  locked : Bool
  /-- Whether the inode has been read from disk. -/
  valid : Bool
  /-- The copy of the disk inode. -/
  din : Dinode

/-- `struct block_refcount`, without `checksum`, which nothing reads. -/
structure BlockRefcount where
  /-- Block number. -/
  blockNum : UInt32
  /-- Reference count. -/
  refcount : UInt32
  /-- Is this entry valid? -/
  valid : Bool

/-- `struct deleted_entry`. -/
structure DeletedEntry where
  /-- Original filename. -/
  name : List UInt8
  /-- Inode number. -/
  inum : UInt32
  /-- Head of version chain. -/
  versionHead : UInt32
  /-- When it was deleted. -/
  deleteTime : UInt32
  /-- Is this entry valid? -/
  valid : Bool

/-- `struct snapshot_metadata`, with the fields that `snapshot_create` sets. -/
structure Snapshot where
  /-- Is this snapshot valid? -/
  valid : Bool
  /-- When snapshot was created. -/
  timestamp : UInt32
  /-- User-provided name. -/
  name : List UInt8
  /-- Unique ID. -/
  id : UInt32

/-- A version that `version_create` made: the block of its node, and what the node and its data
blocks held when `version_create` returned. -/
structure Version where
  /-- The block of the version node. -/
  node : UInt32
  /-- The contents of that block. -/
  block : Block
  /-- The contents of the data blocks, in order. -/
  data : List Block

/-- The file system: the disk, `log.c`, `fs.c` and `gc.c`. -/
structure Fs where
  /-- The disk, as the kernel sees it. -/
  disk : ℕ → Block
  /-- The super block. -/
  sb : Superblock
  /-- `log.size`. -/
  logSize : ℕ
  /-- `log.lh`: the blocks that the current transaction logged. -/
  lh : List ℕ
  /-- `log.outstanding`. -/
  outstanding : ℕ
  /-- `icache.inode`. -/
  icache : Slot → Inode
  /-- `refcount_table.entries`, up to the last entry that was ever used. -/
  refcounts : List BlockRefcount
  /-- `deleted_files`. -/
  deleted : Fin MAX_DELETED_FILES → DeletedEntry
  /-- `snapshots`. -/
  snapshots : Fin MAX_SNAPSHOTS → Snapshot
  /-- `ticks`. -/
  ticks : UInt32
  /-- What the console and the pipes are going to deliver; `none` if the reader is killed. -/
  io : List (Option (List UInt8))
  /-- The blocks that each finished operation logged, the latest first. -/
  ops : List (List ℕ)
  /-- Every version that was made, the oldest first. -/
  versions : List Version
  /-- The heads of the version chains that the kernel gave up, the latest first. -/
  lost : List UInt32
  /-- Whether an inode was ever used without its lock. -/
  unlocked : Bool

/-- A program of the file system. -/
abbrev FsM := EStateM Halt Fs

/-! ## `log.c`, for calls that run one at a time -/

/-- `begin_op`. -/
def beginOp : FsM Unit := do
  let s ← get
  if s.lh.length + (s.outstanding + 1) * MAXOPBLOCKS > LOGSIZE then throw .sleep
  else modify fun s => { s with outstanding := s.outstanding + 1 }

/-- `end_op`: the last outstanding operation commits, which empties the log. -/
def endOp : FsM Unit :=
  modify fun s =>
    if s.outstanding - 1 = 0 then { s with outstanding := 0, lh := [], ops := s.lh :: s.ops }
    else { s with outstanding := s.outstanding - 1 }

/-- `bread`. -/
def bread (b : ℕ) : FsM Block := do
  let s ← get
  return s.disk b

/-- The caller stores `data` in the buffer of block `b` and calls `log_write` on it. -/
def logWrite (b : ℕ) (data : Block) : FsM Unit := do
  modify fun s => { s with disk := update s.disk b data }
  let s ← get
  if s.lh.length ≥ LOGSIZE ∨ s.lh.length ≥ s.logSize - 1 then throw (.panic .tooBig)
  else if s.outstanding < 1 then throw (.panic .outsideTrans)
  else modify fun s => { s with lh := if b ∈ s.lh then s.lh else s.lh ++ [b] }

/-! ## Access to the inode cache -/

/-- The inode in slot `k`. -/
def inode (k : Slot) : FsM Inode := do
  let s ← get
  return s.icache k

/-- An assignment to fields of the inode in slot `k`. -/
def setInode (k : Slot) (f : Inode → Inode) : FsM Unit :=
  modify fun s => { s with icache := update s.icache k (f (s.icache k)) }

/-- History: the inode in slot `k` is used. -/
def Fs.use (s : Fs) (k : Slot) : Fs :=
  if (s.icache k).locked then s else { s with unlocked := true }

/-- History: a function that needs the lock of the inode in slot `k` begins. -/
def uses (k : Slot) : FsM Unit := modify fun s => s.use k

/-- An assignment to the fields that are a copy of the disk inode. -/
def setDin (k : Slot) (f : Dinode → Dinode) : FsM Unit := do
  uses k
  setInode k fun ip => { ip with din := f ip.din }

/-- `acquiresleep(&ip->lock)`. -/
def acquiresleep (k : Slot) : FsM Unit := do
  let ip ← inode k
  if ip.locked then throw .sleep
  else setInode k fun ip => { ip with locked := true }

/-- `releasesleep(&ip->lock)`. -/
def releasesleep (k : Slot) : FsM Unit := setInode k fun ip => { ip with locked := false }

end ChronoFS
