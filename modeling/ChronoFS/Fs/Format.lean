import ChronoFS.Block
import Mathlib.Data.List.TakeWhile
import Mathlib.Tactic

/-!
# The on-disk format of `fs.h`

Inodes, directory entries and version nodes are C structures that lie in blocks as bytes. Each has
a Lean structure with the same fields, a `byte` function that lays it out, and a reader. That a
structure is read back as it was written, and that writing one inode leaves the other inodes of its
block alone, are the theorems `getDinode_putDinode`, `getDinode_putDinode_ne` and
`getVnode_putVnode`.
-/

namespace ChronoFS

open Bytes

/-! ## The super block -/

/-- `struct superblock`, without the two journal fields, which nothing reads. -/
structure Superblock where
  /-- Size of file system image (blocks). -/
  size : ℕ
  /-- Number of data blocks. -/
  nblocks : ℕ
  /-- Number of inodes. -/
  ninodes : ℕ
  /-- Number of log blocks. -/
  nlog : ℕ
  /-- Block number of first log block. -/
  logstart : ℕ
  /-- Block number of first inode block. -/
  inodestart : ℕ
  /-- Block number of first free map block. -/
  bmapstart : ℕ
  deriving DecidableEq

namespace Superblock

/-- `IBLOCK(i, sb)`: the block containing inode `i`. -/
def iblock (sb : Superblock) (i : ℕ) : ℕ := i / IPB + sb.inodestart

/-- `BBLOCK(b, sb)`: the block of the free map containing the bit for block `b`. -/
def bblock (sb : Superblock) (b : ℕ) : ℕ := b / BPB + sb.bmapstart

/-- The first block after the boot block, super block, log, inodes and free map. -/
def dataStart (sb : Superblock) : ℕ := sb.size - sb.nblocks

/-- The block is a data block. -/
def Area (sb : Superblock) (b : ℕ) : Prop := sb.dataStart ≤ b ∧ b < sb.size

instance (sb : Superblock) : DecidablePred sb.Area := fun b =>
  inferInstanceAs (Decidable (sb.dataStart ≤ b ∧ b < sb.size))

/-- The areas of the disk follow each other as `mkfs` lays them out. -/
structure Valid (sb : Superblock) : Prop where
  /-- The log comes after the boot block and the super block. -/
  log : 2 ≤ sb.logstart
  /-- The inodes come after the log. -/
  inode : sb.logstart + sb.nlog ≤ sb.inodestart
  /-- The free map comes after the inodes. -/
  bmap : sb.iblock sb.ninodes < sb.bmapstart
  /-- The data blocks come after the free map. -/
  data : sb.bblock sb.size < sb.dataStart
  /-- They end with the disk. -/
  nblocks : sb.nblocks ≤ sb.size
  /-- A block number fits in an `int`. -/
  size : sb.size < 2 ^ 31
  /-- There is a root inode. -/
  root : ROOTINO < sb.ninodes
  /-- An inode number fits in the `ushort` of a directory entry. -/
  ninodes : sb.ninodes ≤ 2 ^ 16

/-- The super block that `mkfs` writes: `FSSIZE` blocks, `NINODES = 200` inodes. -/
def mkfs : Superblock where
  size := FSSIZE
  nblocks := FSSIZE - (2 + LOGSIZE + (200 / IPB + 1) + (FSSIZE / (BSIZE * 8) + 1))
  ninodes := 200
  nlog := LOGSIZE
  logstart := 2
  inodestart := 2 + LOGSIZE
  bmapstart := 2 + LOGSIZE + (200 / IPB + 1)

theorem mkfs_valid : mkfs.Valid := by
  constructor <;> decide

end Superblock

/-! ## Inodes -/

/-- `struct dinode`. -/
@[ext]
structure Dinode where
  /-- File type; `0` if the inode is free. -/
  type : Int16
  /-- Major device number (`T_DEV` only). -/
  major : Int16
  /-- Minor device number (`T_DEV` only). -/
  minor : Int16
  /-- Number of links to inode in file system. -/
  nlink : Int16
  /-- Size of file (bytes). -/
  size : UInt32
  /-- Data block addresses. -/
  addrs : Fin NDIRECT → UInt32
  /-- The block with the addresses of the further data blocks. -/
  indirect : UInt32
  /-- Creation timestamp. -/
  createTime : UInt32
  /-- The block of the newest version node. -/
  versionHead : UInt32
  deriving DecidableEq

namespace Dinode

/-- `memset(dip, 0, sizeof(*dip))`. -/
def zero : Dinode := ⟨0, 0, 0, 0, 0, fun _ => 0, 0, 0, 0⟩

/-- Byte `j` of the structure. -/
def byte (d : Dinode) (j : ℕ) : UInt8 :=
  if j < 2 then byte16 d.type.toUInt16 j
  else if j < 4 then byte16 d.major.toUInt16 (j - 2)
  else if j < 6 then byte16 d.minor.toUInt16 (j - 4)
  else if j < 8 then byte16 d.nlink.toUInt16 (j - 6)
  else if j < 12 then byte32 d.size (j - 8)
  else if h : j < 52 then
    byte32 (d.addrs ⟨(j - 12) / 4, by simp only [NDIRECT]; omega⟩) ((j - 12) % 4)
  else if j < 56 then byte32 d.indirect (j - 52)
  else if j < 60 then byte32 d.createTime (j - 56)
  else byte32 d.versionHead (j - 60)

end Dinode

namespace Block

/-- `*((struct dinode*)data + k)`. -/
def getDinode (b : Block) (k : ℕ) : Dinode where
  type := (le16 b.get (DINODE_SIZE * k)).toInt16
  major := (le16 b.get (DINODE_SIZE * k + 2)).toInt16
  minor := (le16 b.get (DINODE_SIZE * k + 4)).toInt16
  nlink := (le16 b.get (DINODE_SIZE * k + 6)).toInt16
  size := le32 b.get (DINODE_SIZE * k + 8)
  addrs j := le32 b.get (DINODE_SIZE * k + (12 + 4 * j))
  indirect := le32 b.get (DINODE_SIZE * k + 52)
  createTime := le32 b.get (DINODE_SIZE * k + 56)
  versionHead := le32 b.get (DINODE_SIZE * k + 60)

/-- `*((struct dinode*)data + k) = d`. -/
def putDinode (b : Block) (k : ℕ) (d : Dinode) : Block :=
  b.put (DINODE_SIZE * k) DINODE_SIZE d.byte

theorem get_putDinode (b : Block) {k j : ℕ} (d : Dinode) (hk : k < IPB) (hj : j < DINODE_SIZE) :
    (b.putDinode k d).get (DINODE_SIZE * k + j) = d.byte j := by
  simp only [IPB, BSIZE, DINODE_SIZE] at hk hj
  rw [putDinode, get_put_of_mem b _ (by omega) (by simp only [DINODE_SIZE]; omega)
    (by simp only [BSIZE, DINODE_SIZE]; omega)]
  congr 1
  omega

/-- A 16-bit field of an inode is read back. -/
theorem half_putDinode (b : Block) {k o : ℕ} (d : Dinode) (hk : k < IPB) (ho : o + 2 ≤ DINODE_SIZE)
    (v : UInt16) (h : ∀ j < 2, d.byte (o + j) = byte16 v j) :
    le16 (b.putDinode k d).get (DINODE_SIZE * k + o) = v := by
  apply le16_byte16
  intro j hj
  rw [Nat.add_assoc, get_putDinode b d hk (by omega)]
  exact h j hj

/-- A 32-bit field of an inode is read back. -/
theorem word_putDinode (b : Block) {k o : ℕ} (d : Dinode) (hk : k < IPB) (ho : o + 4 ≤ DINODE_SIZE)
    (v : UInt32) (h : ∀ j < 4, d.byte (o + j) = byte32 v j) :
    le32 (b.putDinode k d).get (DINODE_SIZE * k + o) = v := by
  apply le32_byte32
  intro j hj
  rw [Nat.add_assoc, get_putDinode b d hk (by omega)]
  exact h j hj

/-- An inode is read back as it was written. -/
theorem getDinode_putDinode (b : Block) {k : ℕ} (d : Dinode) (hk : k < IPB) :
    (b.putDinode k d).getDinode k = d := by
  have half := fun {o : ℕ} => half_putDinode (o := o) b d hk
  have word := fun {o : ℕ} => word_putDinode (o := o) b d hk
  have htype := half (o := 0) (by decide) d.type.toUInt16 (by
    intro j hj; interval_cases j <;> rfl)
  have hmajor := half (o := 2) (by decide) d.major.toUInt16 (by
    intro j hj; interval_cases j <;> rfl)
  have hminor := half (o := 4) (by decide) d.minor.toUInt16 (by
    intro j hj; interval_cases j <;> rfl)
  have hnlink := half (o := 6) (by decide) d.nlink.toUInt16 (by
    intro j hj; interval_cases j <;> rfl)
  have hsize := word (o := 8) (by decide) d.size (by intro j hj; interval_cases j <;> rfl)
  have hindirect := word (o := 52) (by decide) d.indirect (by
    intro j hj; interval_cases j <;> rfl)
  have htime := word (o := 56) (by decide) d.createTime (by
    intro j hj; interval_cases j <;> rfl)
  have hhead := word (o := 60) (by decide) d.versionHead (by
    intro j hj; interval_cases j <;> rfl)
  have haddrs : ∀ i : Fin NDIRECT,
      le32 (b.putDinode k d).get (DINODE_SIZE * k + (12 + 4 * i)) = d.addrs i := by
    intro i
    have hi : i.val < 10 := i.isLt
    refine word (by simp only [DINODE_SIZE]; omega) _ fun j hj => ?_
    unfold Dinode.byte
    rw [if_neg (by omega), if_neg (by omega), if_neg (by omega), if_neg (by omega),
      if_neg (by omega), dif_pos (by omega)]
    congr 2
    · apply Fin.ext
      dsimp only
      omega
    · omega
  unfold getDinode
  rw [Nat.add_zero] at htype
  rw [htype, hmajor, hminor, hnlink, hsize, hindirect, htime, hhead, funext haddrs]
  simp only [Int16.toInt16_toUInt16]

/-- An inode is made of its own bytes. -/
theorem getDinode_congr {b b' : Block} {k : ℕ}
    (h : ∀ j < DINODE_SIZE, b'.get (DINODE_SIZE * k + j) = b.get (DINODE_SIZE * k + j)) :
    b'.getDinode k = b.getDinode k := by
  have half : ∀ o, o + 2 ≤ DINODE_SIZE →
      le16 b'.get (DINODE_SIZE * k + o) = le16 b.get (DINODE_SIZE * k + o) := by
    intro o ho
    apply le16_congr
    intro j hj
    rw [Nat.add_assoc]
    exact h _ (by omega)
  have word : ∀ o, o + 4 ≤ DINODE_SIZE →
      le32 b'.get (DINODE_SIZE * k + o) = le32 b.get (DINODE_SIZE * k + o) := by
    intro o ho
    apply le32_congr
    intro j hj
    rw [Nat.add_assoc]
    exact h _ (by omega)
  have haddrs : ∀ i : Fin NDIRECT, le32 b'.get (DINODE_SIZE * k + (12 + 4 * i)) =
      le32 b.get (DINODE_SIZE * k + (12 + 4 * i)) := by
    intro i
    have hi : i.val < 10 := i.isLt
    exact word _ (by simp only [DINODE_SIZE]; omega)
  unfold getDinode
  have htype := half 0 (by decide)
  rw [Nat.add_zero] at htype
  rw [htype, half 2 (by decide), half 4 (by decide), half 6 (by decide), word 8 (by decide),
    word 52 (by decide), word 56 (by decide), word 60 (by decide), funext haddrs]

/-- Writing an inode leaves the other inodes of the block alone. -/
theorem getDinode_putDinode_ne (b : Block) {k k' : ℕ} (d : Dinode) (h : k' ≠ k) :
    (b.putDinode k d).getDinode k' = b.getDinode k' := by
  apply getDinode_congr
  intro j hj
  apply get_put_of_not_mem
  simp only [DINODE_SIZE] at *
  omega

@[simp]
theorem getDinode_zero (k : ℕ) : zero.getDinode k = Dinode.zero := by
  have half : ∀ o, le16 zero.get o = 0 := fun o => by simp [le16]
  have word : ∀ o, le32 zero.get o = 0 := fun o => by simp [le32]
  unfold getDinode
  simp only [half, word]
  rfl

end Block

/-! ## Version nodes -/

/-- `struct version_node`. -/
@[ext]
structure VersionNode where
  /-- When this version was created. -/
  timestamp : UInt32
  /-- Block number of previous version (`0` if first). -/
  prevVersion : UInt32
  /-- Data blocks for this version. -/
  dataBlocks : Fin VNODE_DATA_BLOCKS → UInt32
  /-- Number of blocks used. -/
  nblocks : UInt32
  /-- File size at this version. -/
  fileSize : UInt32
  /-- Reference count. -/
  refcount : UInt32
  /-- Optional description. -/
  description : Fin 32 → UInt8
  /-- Simple integrity check. -/
  checksum : UInt32
  /-- ID of snapshot this version belongs to (`0` if none). -/
  snapshotId : UInt32

/-- `sizeof(struct version_node)`. -/
abbrev VNODE_SIZE : ℕ := 100

namespace VersionNode

/-- Byte `j` of the structure. -/
def byte (v : VersionNode) (j : ℕ) : UInt8 :=
  if j < 4 then byte32 v.timestamp j
  else if j < 8 then byte32 v.prevVersion (j - 4)
  else if h : j < 48 then
    byte32 (v.dataBlocks ⟨(j - 8) / 4, by simp only [VNODE_DATA_BLOCKS]; omega⟩) ((j - 8) % 4)
  else if j < 52 then byte32 v.nblocks (j - 48)
  else if j < 56 then byte32 v.fileSize (j - 52)
  else if j < 60 then byte32 v.refcount (j - 56)
  else if h : j < 92 then v.description ⟨j - 60, by omega⟩
  else if j < 96 then byte32 v.checksum (j - 92)
  else byte32 v.snapshotId (j - 96)

end VersionNode

namespace Block

/-- `*(struct version_node*)data`. -/
def getVnode (b : Block) : VersionNode where
  timestamp := le32 b.get 0
  prevVersion := le32 b.get 4
  dataBlocks j := le32 b.get (8 + 4 * j)
  nblocks := le32 b.get 48
  fileSize := le32 b.get 52
  refcount := le32 b.get 56
  description j := b.get (60 + j)
  checksum := le32 b.get 92
  snapshotId := le32 b.get 96

/-- `*(struct version_node*)data = v`. -/
def putVnode (b : Block) (v : VersionNode) : Block := b.put 0 VNODE_SIZE v.byte

/-- A version node is read back as it was written. -/
theorem getVnode_putVnode (b : Block) (v : VersionNode) : (b.putVnode v).getVnode = v := by
  have hget : ∀ j < VNODE_SIZE, (b.putVnode v).get j = v.byte j := by
    intro j hj
    rw [putVnode, get_put_of_mem b _ (by omega) (by omega) (by simp only [VNODE_SIZE, BSIZE] at *
                                                               omega), Nat.sub_zero]
  have word : ∀ (o : ℕ) (x : UInt32), o + 4 ≤ VNODE_SIZE →
      (∀ j < 4, v.byte (o + j) = byte32 x j) → le32 (b.putVnode v).get o = x := by
    intro o x ho hx
    apply le32_byte32
    intro j hj
    rw [hget _ (by omega)]
    exact hx j hj
  have htime := word 0 v.timestamp (by decide) (by intro j hj; interval_cases j <;> rfl)
  have hprev := word 4 v.prevVersion (by decide) (by intro j hj; interval_cases j <;> rfl)
  have hn := word 48 v.nblocks (by decide) (by intro j hj; interval_cases j <;> rfl)
  have hsize := word 52 v.fileSize (by decide) (by intro j hj; interval_cases j <;> rfl)
  have hcount := word 56 v.refcount (by decide) (by intro j hj; interval_cases j <;> rfl)
  have hsum := word 92 v.checksum (by decide) (by intro j hj; interval_cases j <;> rfl)
  have hid := word 96 v.snapshotId (by decide) (by intro j hj; interval_cases j <;> rfl)
  have hdata : ∀ i : Fin VNODE_DATA_BLOCKS,
      le32 (b.putVnode v).get (8 + 4 * i) = v.dataBlocks i := by
    intro i
    have hi : i.val < 10 := i.isLt
    refine word _ _ (by simp only [VNODE_SIZE]; omega) fun j hj => ?_
    unfold VersionNode.byte
    rw [if_neg (by omega), if_neg (by omega), dif_pos (by omega)]
    congr 2
    · apply Fin.ext
      dsimp only
      omega
    · omega
  have hdesc : ∀ i : Fin 32, (b.putVnode v).get (60 + i) = v.description i := by
    intro i
    have hi := i.isLt
    rw [hget _ (by simp only [VNODE_SIZE]; omega)]
    unfold VersionNode.byte
    rw [if_neg (by omega), if_neg (by omega), dif_neg (by omega), if_neg (by omega),
      if_neg (by omega), if_neg (by omega), dif_pos (by omega)]
    congr 1
    apply Fin.ext
    dsimp only
    omega
  unfold getVnode
  rw [htime, hprev, hn, hsize, hcount, hsum, hid, funext hdata, funext hdesc]

end Block

/-! ## Directory entries -/

/-- The string that the first `DIRSIZ` bytes of a buffer hold: what `strncmp`, `strncpy` and a
directory entry's `name` go by. -/
def cname (l : List UInt8) : List UInt8 := (l.take DIRSIZ).takeWhile (· ≠ 0)

/-- `namecmp(s, t) == 0`. -/
def namecmp (s t : List UInt8) : Bool := cname s == cname t

/-- `struct dirent`. -/
structure Dirent where
  /-- The inode number; `0` if the entry is free. -/
  inum : UInt16
  /-- The name, `DIRSIZ` bytes padded with zeroes. -/
  name : List UInt8

namespace Dirent

/-- Byte `j` of the structure, with the name as `strncpy` stores it. -/
def byte (de : Dirent) (j : ℕ) : UInt8 :=
  if j < 2 then byte16 de.inum j else (cname de.name).getD (j - 2) 0

/-- The bytes of the structure. -/
def bytes (de : Dirent) : List UInt8 := (List.range DIRENT_SIZE).map de.byte

/-- The structure at offset `o` of a sequence of bytes. -/
def read (f : ℕ → UInt8) (o : ℕ) : Dirent where
  inum := le16 f o
  name := (List.range DIRSIZ).map fun j => f (o + 2 + j)

/-- The structure depends on its `DIRENT_SIZE` bytes. -/
theorem read_congr {f g : ℕ → UInt8} {o o' : ℕ} (h : ∀ j < DIRENT_SIZE, f (o + j) = g (o' + j)) :
    read f o = read g o' := by
  have hinum : le16 f o = le16 g o' := by
    have h0 := h 0 (by decide)
    have h1 := h 1 (by decide)
    unfold le16
    rw [h1, ← Nat.add_zero o, ← Nat.add_zero o', h0]
  have hname : (List.range DIRSIZ).map (fun j => f (o + 2 + j)) =
      (List.range DIRSIZ).map fun j => g (o' + 2 + j) := by
    refine List.map_congr_left fun j hj => ?_
    have := List.mem_range.mp hj
    rw [Nat.add_assoc, Nat.add_assoc]
    exact h (2 + j) (by simp only [DIRSIZ, DIRENT_SIZE] at *; omega)
  unfold read
  rw [hinum, hname]

/-- A string of at most `DIRSIZ` bytes is what its padded buffer holds. -/
theorem cname_pad {l : List UInt8} (hlen : l.length ≤ DIRSIZ) (hne : ∀ c ∈ l, c ≠ 0) :
    cname ((List.range DIRSIZ).map fun j => l.getD j 0) = l := by
  have hpad : (List.range DIRSIZ).map (fun j => l.getD j 0) =
      l ++ List.replicate (DIRSIZ - l.length) 0 := by
    refine List.ext_getElem? fun j => ?_
    by_cases hj : j < DIRSIZ
    · rw [List.getElem?_map, List.getElem?_range hj]
      by_cases hl : j < l.length
      · rw [List.getElem?_append_left hl, List.getElem?_eq_getElem hl]
        simp [hl]
      · rw [List.getElem?_append_right (by omega), List.getElem?_replicate, if_pos (by omega)]
        simp [hl]
    · rw [List.getElem?_eq_none (by simpa using hj), List.getElem?_eq_none (by simp; omega)]
  have hall : ∀ c ∈ l, decide (c ≠ 0) = true := fun c hc => decide_eq_true (hne c hc)
  unfold cname
  rw [hpad, List.take_of_length_le (by simp; omega), List.takeWhile_append_of_pos hall,
    List.takeWhile_replicate]
  simp

/-- An entry is read back with the inode and the name that were written. -/
theorem read_bytes (de : Dirent) :
    (read (fun j => de.bytes.getD j 0) 0).inum = de.inum ∧
      cname (read (fun j => de.bytes.getD j 0) 0).name = cname de.name := by
  have hget : ∀ j < DIRENT_SIZE, de.bytes.getD j 0 = de.byte j := by
    intro j hj
    unfold bytes
    rw [List.getD_eq_getElem?_getD, List.getElem?_map, List.getElem?_range hj]
    rfl
  have hread : read (fun j => de.bytes.getD j 0) 0 = read de.byte 0 :=
    read_congr fun j hj => by rw [Nat.zero_add]; exact hget j hj
  rw [hread]
  refine ⟨?_, ?_⟩
  · refine le16_byte16 _ _ _ fun k hk => ?_
    show de.byte (0 + k) = _
    unfold byte
    rw [Nat.zero_add, if_pos hk]
  · have hname : (read de.byte 0).name =
        (List.range DIRSIZ).map fun j => (cname de.name).getD j 0 := by
      refine List.map_congr_left fun j _ => ?_
      unfold byte
      rw [if_neg (by omega)]
      congr 1
      omega
    rw [hname]
    refine cname_pad ?_ fun c hc => ?_
    · unfold cname
      exact (List.takeWhile_prefix _).length_le.trans (List.length_take_le ..)
    · have := List.mem_takeWhile_imp hc
      simpa using this

theorem length_bytes (de : Dirent) : de.bytes.length = DIRENT_SIZE := by
  unfold bytes
  rw [List.length_map, List.length_range]

end Dirent

end ChronoFS
