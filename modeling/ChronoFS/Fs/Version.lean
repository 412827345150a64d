import ChronoFS.Fs.Dir

/-!
# `fs.c`: versions, snapshots and deleted files
-/

namespace ChronoFS

open Function (update)

/-- `get_timestamp`. -/
def getTimestamp : FsM UInt32 := do
  let s ← get
  return s.ticks

/-! ## Versions -/

/-- The loop of `version_create` over the direct blocks: copy each to a new block, and record the
new block in the version node. -/
def copyBlocks (k : Slot) : List (Fin NDIRECT) → VersionNode → FsM VersionNode
  | [], vnode => return vnode
  | i :: is, vnode => do
    let ip ← inode k
    if ip.din.addrs i = 0 then copyBlocks k is vnode
    else
      let newblock ← balloc
      if newblock = 0 then copyBlocks k is vnode
      else
        let src ← bread (ip.din.addrs i).toNat
        logWrite newblock.toNat src
        brefInc newblock
        copyBlocks k is { vnode with
          dataBlocks := fun j =>
            if j.val = vnode.nblocks.toNat then newblock else vnode.dataBlocks j
          nblocks := vnode.nblocks + 1 }

/-- The description of a version: at most 31 bytes, then zeroes. -/
def describe (description : List UInt8) : Fin 32 → UInt8 := fun j =>
  (description.take 31).getD j 0

/-- History: the version in block `node`, as the disk has it now. -/
def Fs.version (s : Fs) (node : UInt32) : Version where
  node := node
  block := s.disk node.toNat
  data := (List.finRange VNODE_DATA_BLOCKS).filterMap fun j =>
    let v := (s.disk node.toNat).getVnode
    if j.val < v.nblocks.toNat then some (s.disk (v.dataBlocks j).toNat) else none

/-- `version_create`: create a new version node for a file. The block number of the version node,
or `0` on failure. -/
def versionCreate (k : Slot) (description : List UInt8) (snapshotId : UInt32) : FsM UInt32 := do
  uses k
  let vblock ← balloc
  if vblock = 0 then return 0
  else
    let bp ← bread vblock.toNat
    let timestamp ← getTimestamp
    let ip ← inode k
    let vnode : VersionNode := {
      timestamp
      prevVersion := ip.din.versionHead
      dataBlocks := fun _ => 0
      nblocks := 0
      fileSize := ip.din.size
      refcount := 1
      description := describe description
      checksum := 0
      snapshotId }
    let vnode ← copyBlocks k (List.finRange NDIRECT) vnode
    let checksum := vnode.timestamp + vnode.fileSize + vnode.nblocks
    logWrite vblock.toNat (bp.putVnode { vnode with checksum })
    setDin k fun d => { d with versionHead := vblock }
    iupdate k
    modify fun s => { s with versions := s.versions ++ [s.version vblock] }
    return vblock

/-- `version_get`: get a version node by block number. -/
def versionGet (vblock : UInt32) : FsM (Option VersionNode) := do
  if vblock = 0 then return none
  else
    let bp ← bread vblock.toNat
    return some bp.getVnode

/-- `struct version_info`. -/
structure VersionInfo where
  /-- Version number. -/
  versionNum : ℕ
  /-- When created. -/
  timestamp : UInt32
  /-- File size at this version. -/
  fileSize : UInt32
  /-- Number of blocks. -/
  blockCount : UInt32
  /-- Optional description. -/
  description : Fin 32 → UInt8
  deriving DecidableEq

/-- The loop of `version_list`, with room for `max` more entries. -/
def versionListLoop : ℕ → ℕ → UInt32 → FsM (List VersionInfo)
  | 0, _, _ => return []
  | max + 1, count, vblock => do
    let v ← versionGet vblock
    match v with
    | none => return []
    | some v =>
      let rest ← versionListLoop max (count + 1) v.prevVersion
      return ⟨count, v.timestamp, v.fileSize, v.nblocks, v.description⟩ :: rest

/-- `version_list`: list all versions of a file. -/
def versionList (k : Slot) (max : ℤ) : FsM (List VersionInfo) := do
  uses k
  let ip ← inode k
  versionListLoop max.toNat 0 ip.din.versionHead

/-! ## Snapshots -/

/-- `snapshot_create`: the id of the snapshot, or `-1` if the table is full. -/
def snapshotCreate (name : List UInt8) : FsM ℤ := do
  let s ← get
  match (List.finRange MAX_SNAPSHOTS).find? fun i => !(s.snapshots i).valid with
  | none => return -1
  | some i =>
    let timestamp ← getTimestamp
    modify fun s =>
      { s with snapshots := update s.snapshots i ⟨true, timestamp, name, .ofNat (i + 1)⟩ }
    return i + 1

/-! ## Deleted files -/

/-- `add_deleted_file`: a full table is left alone. -/
def addDeletedFile (name : List UInt8) (inum versionHead : UInt32) : FsM Unit := do
  let s ← get
  match (List.finRange MAX_DELETED_FILES).find? fun i => !(s.deleted i).valid with
  | none => return
  | some i =>
    let deleteTime ← getTimestamp
    modify fun s =>
      { s with deleted := update s.deleted i ⟨name, inum, versionHead, deleteTime, true⟩ }

/-- `find_deleted_file`. -/
def Fs.findDeletedFile (s : Fs) (name : List UInt8) : Option (Fin MAX_DELETED_FILES) :=
  (List.finRange MAX_DELETED_FILES).find? fun i =>
    (s.deleted i).valid && namecmp (s.deleted i).name name

/-- `recover_deleted_file`: the version chain of the file, which leaves the table; `0` if there is
none. -/
def recoverDeletedFile (name : List UInt8) : FsM UInt32 := do
  let s ← get
  match s.findDeletedFile name with
  | none => return 0
  | some i =>
    modify fun s =>
      { s with
        deleted := update s.deleted i { s.deleted i with valid := false }
        lost := (s.deleted i).versionHead :: s.lost }
    return (s.deleted i).versionHead

end ChronoFS
