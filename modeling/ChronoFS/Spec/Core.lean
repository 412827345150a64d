import ChronoFS.Spec.View
import ChronoFS.Kernel.Sysfile
import ChronoFS.Lib.Ownership

/-!
# The invariant of the file system

`Core` relates the free map, the inodes on disk, the inode cache, the data blocks and the version
nodes. It is stated over `lg`, the inodes as the kernel sees them: the cached copy where there is a
valid one, the disk's otherwise.

A function that changes an inode passes through states in which the in-memory inode and the disk
disagree, or in which the inode refers to blocks that are free. Three parameters of `Core` cover
these. `w` is the inode that is being changed: nothing is said about its contents, `lg` is what it
is still counted as owning, and `hand` are the blocks that the function has taken from it or
allocated for it. `fr` is an inode that `ialloc` has just made. Between system calls there is none
of these (`Inv`).

The parameter `st` says whether files may have holes. A directory never has one, nor have the direct
blocks of any file. If `st` is set, no file has one, and then the cached inodes agree with the disk
exactly (`Sync`).
-/

namespace ChronoFS

open Bytes
open Function

/-! ## Inodes and their blocks -/

/-- The block that holds block `bn` of the file, or `0`. -/
def Dinode.map (blk : ℕ → Block) (d : Dinode) (bn : ℕ) : ℕ :=
  if h : bn < NDIRECT then (d.addrs ⟨bn, h⟩).toNat
  else if bn < MAXFILE ∧ d.indirect ≠ 0 then
    ((blk d.indirect.toNat).word (bn - NDIRECT)).toNat
  else 0

/-- The contents of block `bn` of the file. -/
def Dinode.content (blk : ℕ → Block) (d : Dinode) (bn : ℕ) : Block :=
  if d.map blk bn = 0 then .zero else blk (d.map blk bn)

/-- Every block of the file below its size has an address. -/
def Dinode.NoHoles (blk : ℕ → Block) (d : Dinode) : Prop :=
  ∀ bn, bn * BSIZE < d.size.toNat → d.map blk bn ≠ 0

/-- The inode `a` is `d` with some block addresses still missing. -/
structure Below (a d : Dinode) : Prop where
  /-- The other fields are the same. -/
  rest : { a with addrs := d.addrs, indirect := d.indirect } = d
  /-- A direct address is missing or the same. -/
  addrs : ∀ j, a.addrs j = 0 ∨ a.addrs j = d.addrs j
  /-- So is the address of the indirect block. -/
  indirect : a.indirect = 0 ∨ a.indirect = d.indirect

/-- The inode has no holes: no file has when `st` is set, and no directory ever. -/
def Full (st : Bool) (d : Dinode) : Prop := st = true ∨ d.type = T_DIR

/-- The disk's copy `a` of a cached inode `d`: the same, if the inode has no holes. -/
structure Sync (st : Bool) (a d : Dinode) : Prop where
  /-- An inode without holes is on disk as it is in memory. -/
  exact : Full st d → a = d
  /-- Any inode is, up to blocks that filled a hole. -/
  below : Below a d
  /-- There is no hole among the direct blocks. -/
  direct : ∀ j : Fin NDIRECT, j * BSIZE < d.size.toNat → a.addrs j = d.addrs j

theorem Sync.refl (st : Bool) (d : Dinode) : Sync st d d :=
  ⟨fun _ => rfl, ⟨rfl, fun _ => .inr rfl, .inr rfl⟩, fun _ _ => rfl⟩

/-! ## Versions -/

namespace Version

/-- The version node. -/
def vnode (v : Version) : VersionNode := v.block.getVnode

/-- The number of its data blocks. -/
def nblocks (v : Version) : ℕ := v.vnode.nblocks.toNat

/-- The version before it. -/
def prev (v : Version) : UInt32 := v.vnode.prevVersion

/-- What its data block `k` holds. -/
def content (v : Version) (k : ℕ) : Block := v.data.getD k .zero

end Version

/-- Following `prev_version` from `head` meets the versions `c` and ends. -/
def Linked : UInt32 → List Version → Prop
  | head, [] => head = 0
  | head, v :: c => head = v.node ∧ Linked v.prev c

/-- The versions from `head`, the newest first, are among `vs`, in the order of their creation. -/
def Chain (vs : List Version) (head : UInt32) (c : List Version) : Prop :=
  Linked head c ∧ c.reverse.Sublist vs

/-! ## Owners -/

/-- Who can own a block. -/
inductive Owner
  /-- Block `bn` of the file `i`: a direct address, or an entry of the indirect block. -/
  | data (i bn : ℕ)
  /-- The indirect block of the file `i`. -/
  | indirect (i : ℕ)
  /-- The node of version `n`. -/
  | vnode (n : ℕ)
  /-- Data block `k` of version `n`. -/
  | vdata (n k : ℕ)
  deriving DecidableEq

/-- The block of version data `k`, or `0`. -/
def Version.dataBlock (v : Version) (k : ℕ) : ℕ :=
  if h : k < VNODE_DATA_BLOCKS then
    if k < v.nblocks then (v.vnode.dataBlocks ⟨k, h⟩).toNat else 0
  else 0

/-- The block of an owner, or `0`. -/
def refs (lg : ℕ → Dinode) (blk : ℕ → Block) (vs : List Version) : Owner → ℕ
  | .data i bn => (lg i).map blk bn
  | .indirect i => (lg i).indirect.toNat
  | .vnode n => (vs[n]?.map fun v => v.node.toNat).getD 0
  | .vdata n k => (vs[n]?.map fun v => v.dataBlock k).getD 0

/-! ## Directories -/

/-- Every entry of the directory block names an inode of the disk, or none. -/
def DirBlock (n : ℕ) (b : Block) : Prop :=
  ∀ e, (e + 1) * DIRENT_SIZE ≤ BSIZE → (Dirent.read b.get (e * DIRENT_SIZE)).inum.toNat < n

/-- The first entry of the directory block is `.`, for the inode `i`. -/
def HasDot (i : ℕ) (b : Block) : Prop :=
  (Dirent.read b.get 0).inum.toNat = i ∧ i ≠ 0 ∧ namecmp DOT (Dirent.read b.get 0).name

/-! ## The invariant -/

/-- A version of the inode `i`, which now is `d`, can be restored. -/
structure VersionFor (st : Bool) (n : ℕ) (blk : ℕ → Block) (i : ℕ) (d : Dinode) (v : Version) :
    Prop where
  /-- A version of a directory is a directory. -/
  dir : d.type = T_DIR → DIRENT_SIZE ≤ v.vnode.fileSize.toNat ∧ 0 < v.nblocks ∧
    HasDot i (v.content 0) ∧ ∀ k < v.nblocks, DirBlock n (v.content k)
  /-- It is made of whole entries. -/
  aligned : d.type = T_DIR → v.vnode.fileSize.toNat % DIRENT_SIZE = 0
  /-- It has all its direct blocks. -/
  direct : ∀ bn < NDIRECT, bn * BSIZE < v.vnode.fileSize.toNat → bn < v.nblocks
  /-- A file without holes still has the other blocks of its versions. -/
  full : Full st d → ∀ bn, NDIRECT ≤ bn → bn * BSIZE < v.vnode.fileSize.toNat → d.map blk bn ≠ 0

/-- What is known about the inode `i`, which is `d`. -/
structure NodeOk (st : Bool) (n : ℕ) (blk : ℕ → Block) (vs : List Version) (fr : Option ℕ) (i : ℕ)
    (d : Dinode) : Prop where
  /-- The entries of a directory name inodes. -/
  dir : d.type = T_DIR → ∀ bn, d.map blk bn ≠ 0 → DirBlock n (blk (d.map blk bn))
  /-- A directory that is not being made begins with `.`. -/
  dot : d.type = T_DIR → fr ≠ some i →
    DIRENT_SIZE ≤ d.size.toNat ∧ d.map blk 0 ≠ 0 ∧ HasDot i (blk (d.map blk 0))
  /-- A directory is made of whole entries. -/
  aligned : d.type = T_DIR → d.size.toNat % DIRENT_SIZE = 0
  /-- A file is not larger than its block addresses allow. -/
  bound : d.size.toNat ≤ MAXFILE * BSIZE
  /-- There are no holes among the direct blocks, and none at all if the inode has no holes. -/
  holes : ∀ bn, bn < NDIRECT ∨ Full st d → bn * BSIZE < d.size.toNat → d.map blk bn ≠ 0
  /-- The version chain ends, and its versions can be restored. -/
  chain : ∃ c, Chain vs d.versionHead c ∧ ∀ v ∈ c, VersionFor st n blk i d v

theorem NodeOk.noHoles {st : Bool} {n : ℕ} {blk : ℕ → Block} {vs : List Version} {fr : Option ℕ}
    {i : ℕ} {d : Dinode} (h : NodeOk st n blk vs fr i d) (hfull : Full st d) : d.NoHoles blk :=
  fun bn hbn => h.holes bn (.inr hfull) hbn

/-- The slot is in use and holds an inode. -/
def Inode.Live (ip : Inode) : Prop := 0 < ip.ref ∧ ip.valid = true

/-- The inode cache, the inodes on disk and the inodes as the kernel sees them. -/
structure CacheOk (st : Bool) (w fr : Option ℕ) (n : ℕ) (dinode : ℕ → Dinode)
    (icache : Slot → Inode) (lg : ℕ → Dinode) : Prop where
  /-- Reference counts are not negative. -/
  nonneg : ∀ k, 0 ≤ (icache k).ref
  /-- There is one disk. -/
  dev : ∀ k, 0 < (icache k).ref → (icache k).dev = ROOTDEV
  /-- A slot in use is for an inode of that disk. -/
  inum : ∀ k, 0 < (icache k).ref → (icache k).inum.toNat < n
  /-- No two slots in use are for the same inode. -/
  uniq : ∀ k k', 0 < (icache k).ref → 0 < (icache k').ref →
    (icache k).inum = (icache k').inum → k = k'
  /-- The kernel sees a cached inode, which is in use. -/
  cached : ∀ k, (icache k).Live → w ≠ some (icache k).inum.toNat →
    lg (icache k).inum.toNat = (icache k).din ∧
      Sync st (dinode (icache k).inum.toNat) (icache k).din ∧ (icache k).din.type ≠ 0
  /-- It sees the disk's copy of any other inode, which has links if it is in use. -/
  uncached : ∀ i, (∀ k, (icache k).Live → (icache k).inum.toNat ≠ i) →
    lg i = dinode i ∧ ((lg i).type ≠ 0 → fr ≠ some i → (lg i).nlink ≠ 0)
  /-- An inode that is being changed is cached. -/
  window : ∀ i, w = some i → ∃ k, (icache k).Live ∧ (icache k).inum.toNat = i

/-- The versions are as `version_create` left them. -/
structure VersionsOk (blk : ℕ → Block) (vs : List Version) : Prop where
  /-- A version has a node. -/
  ne : ∀ v ∈ vs, v.node ≠ 0
  /-- It has its data blocks. -/
  dataNe : ∀ v ∈ vs, ∀ k < v.nblocks, v.dataBlock k ≠ 0
  /-- The version node is the same. -/
  node : ∀ v ∈ vs, blk v.node.toNat = v.block
  /-- It has at most `VNODE_DATA_BLOCKS` blocks. -/
  nblocks : ∀ v ∈ vs, v.nblocks ≤ VNODE_DATA_BLOCKS
  /-- Its data blocks are the same. -/
  data : ∀ v ∈ vs, ∀ k < v.nblocks, blk (v.dataBlock k) = v.content k
  /-- Every version has all its direct blocks. -/
  direct : ∀ v ∈ vs, ∀ bn < NDIRECT, bn * BSIZE < v.vnode.fileSize.toNat → bn < v.nblocks
  /-- It is not larger than a file can be. -/
  bound : ∀ v ∈ vs, v.vnode.fileSize.toNat ≤ MAXFILE * BSIZE

/-- The version is on the chain from `head`. -/
def Reaches (vs : List Version) (head : UInt32) (v : Version) : Prop :=
  ∃ c, Chain vs head c ∧ v ∈ c

/-- The version is on the chain of an inode in use, of a deleted file, or of one that was given
up. -/
def Found (lg : ℕ → Dinode) (deleted : Fin MAX_DELETED_FILES → DeletedEntry) (lost : List UInt32)
    (vs : List Version) (v : Version) : Prop :=
  (∃ i, (lg i).type ≠ 0 ∧ Reaches vs (lg i).versionHead v) ∨
    (∃ e, (deleted e).valid ∧ Reaches vs (deleted e).versionHead v) ∨
    ∃ h ∈ lost, Reaches vs h v

/-- The invariant, while the inode `w` is being changed, the inode `fr` is being made, and the
blocks `hand` are neither owned nor free. -/
structure Core (st : Bool) (w fr : Option ℕ) (lg : ℕ → Dinode) (hand : List ℕ) (s : Fs) :
    Prop where
  /-- The areas of the disk do not overlap. -/
  layout : s.sb.Valid
  /-- The blocks before the data blocks are marked used. -/
  metaUsed : ∀ b < s.sb.dataStart, s.view.used b = true
  /-- The inode cache agrees with the disk. -/
  cache : CacheOk st w fr s.sb.ninodes s.view.dinode s.icache lg
  /-- Every block has at most one owner. -/
  own : Own (refs lg s.view.block s.versions) hand s.view.used s.sb.Area
  /-- The inodes in use are well formed. -/
  node : ∀ i, w ≠ some i → (lg i).type ≠ 0 →
    NodeOk st s.sb.ninodes s.view.block s.versions fr i (lg i)
  /-- The versions are unchanged. -/
  vers : VersionsOk s.view.block s.versions
  /-- The version chains of deleted files end. -/
  deleted : ∀ e, (s.deleted e).valid = true →
    ∃ c, Chain s.versions (s.deleted e).versionHead c
  /-- Only data blocks of versions are in the reference-count table. -/
  tracked : ∀ e ∈ s.refcounts, e.valid = true → e.blockNum.toNat ∈ hand ∨
    ∃ n k, refs lg s.view.block s.versions (.vdata n k) = e.blockNum.toNat ∧ e.blockNum ≠ 0
  /-- Every version is on some chain. -/
  found : ∀ v ∈ s.versions, Found lg s.deleted s.lost s.versions v

/-- The invariant between system calls. -/
def Inv (st : Bool) (s : Fs) : Prop := ∃ lg, Core st none none lg [] s

end ChronoFS
