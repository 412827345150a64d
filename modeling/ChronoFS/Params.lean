import Mathlib.Data.Nat.Notation

/-!
# The constants of `param.h`, `fs.h`, `file.h`, `stat.h` and `fcntl.h`
-/

namespace ChronoFS

/-! ## `param.h` -/

/-- Maximum number of processes. -/
abbrev NPROC : ℕ := 64
/-- Open files per process. -/
abbrev NOFILE : ℕ := 16
/-- Open files per system. -/
abbrev NFILE : ℕ := 100
/-- Maximum number of active i-nodes. -/
abbrev NINODE : ℕ := 50
/-- Maximum major device number. -/
abbrev NDEV : ℕ := 10
/-- Device number of the file system root disk. -/
abbrev ROOTDEV : UInt32 := 1
/-- Maximum number of blocks any FS op writes. -/
abbrev MAXOPBLOCKS : ℕ := 10
/-- Maximum number of data blocks in the on-disk log. -/
abbrev LOGSIZE : ℕ := MAXOPBLOCKS * 3
/-- Size of the disk block cache. -/
abbrev NBUF : ℕ := MAXOPBLOCKS * 3
/-- Size of the file system in blocks. -/
abbrev FSSIZE : ℕ := 1000

/-! ## `fs.h` -/

/-- Root i-number. -/
abbrev ROOTINO : ℕ := 1
/-- Block size in bytes. -/
abbrev BSIZE : ℕ := 512
/-- Data block slots of a version node. -/
abbrev VNODE_DATA_BLOCKS : ℕ := 10
/-- Direct block slots of an inode. -/
abbrev NDIRECT : ℕ := 10
/-- Entries of an indirect block. -/
abbrev NINDIRECT : ℕ := BSIZE / 4
/-- Largest file, in blocks. -/
abbrev MAXFILE : ℕ := NDIRECT + NINDIRECT
/-- Bytes of an on-disk inode, `sizeof(struct dinode)`. -/
abbrev DINODE_SIZE : ℕ := 64
/-- Inodes per block. -/
abbrev IPB : ℕ := BSIZE / DINODE_SIZE
/-- Bitmap bits per block. -/
abbrev BPB : ℕ := BSIZE * 8
/-- Bytes of a directory entry's name. -/
abbrev DIRSIZ : ℕ := 14
/-- Bytes of a directory entry, `sizeof(struct dirent)`. -/
abbrev DIRENT_SIZE : ℕ := 16
/-- Slots of the table of deleted files. -/
abbrev MAX_DELETED_FILES : ℕ := 32
/-- Slots of the snapshot table. -/
abbrev MAX_SNAPSHOTS : ℕ := 100
/-- Slots of the reference-count table (`gc.c`). -/
abbrev MAX_REFCOUNT_ENTRIES : ℕ := 10000

/-! ## `stat.h` and `fcntl.h` -/

/-- A directory. -/
abbrev T_DIR : Int16 := 1
/-- A regular file. -/
abbrev T_FILE : Int16 := 2
/-- A device. -/
abbrev T_DEV : Int16 := 3

/-- Open for reading only. -/
abbrev O_RDONLY : UInt32 := 0x000
/-- Open for writing only. -/
abbrev O_WRONLY : UInt32 := 0x001
/-- Open for reading and writing. -/
abbrev O_RDWR : UInt32 := 0x002
/-- Create the file if it does not exist. -/
abbrev O_CREATE : UInt32 := 0x200

/-! ## Instances -/

instance : @NeZero ℕ Zero.ofOfNat0 NPROC := ⟨by decide⟩

instance : LawfulBEq (Fin NDIRECT) := inferInstance

end ChronoFS
