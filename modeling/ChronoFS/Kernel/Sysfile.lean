import ChronoFS.Kernel.File

/-!
# `sysfile.c`: the file-system system calls

A call's arguments are an `Option`: `none` is a failed `argstr`, `argint` or `argptr`. The calls that
touch neither the file table nor the processes are programs of the file system and take
`myproc()->cwd` as an argument; the others take the process.
-/

namespace ChronoFS

open Function (update)

/-- The path `.`. -/
abbrev DOT : List UInt8 := [46]

/-- The path `..`. -/
abbrev DOTDOT : List UInt8 := [46, 46]

/-! ## Names -/

/-- `ip->nlink += n; iupdate(ip)`. -/
def addLinks (k : Slot) (n : Int16) : FsM Unit := do
  setDin k fun d => { d with nlink := d.nlink + n }
  iupdate k

/-- `iunlockput(ip); end_op(); return -1`: how most calls give up. -/
def putFail (k : Slot) : FsM ℤ := do
  iunlockput k
  endOp
  return -1

/-- `sys_link`, from `bad`. -/
def linkBad (ip : Slot) : FsM ℤ := do
  ilock ip
  addLinks ip (-1)
  putFail ip

/-- `sys_link`: create the path `new` as a link to the same inode as `old`. -/
def sysLink (cwd : Option Slot) : Option (List UInt8 × List UInt8) → FsM ℤ
  | none => return -1
  | some (old, new) => do
    beginOp
    let r ← namei cwd old
    match r with
    | none =>
      endOp
      return -1
    | some ip =>
      ilock ip
      let i ← inode ip
      if i.din.type = T_DIR then putFail ip
      else
        addLinks ip 1
        iunlock ip
        let r ← nameiparent cwd new
        match r with
        | none => linkBad ip
        | some (dp, name) =>
          ilock dp
          let i ← inode ip
          let d ← inode dp
          if d.dev ≠ i.dev then
            iunlockput dp
            linkBad ip
          else
            let ok ← dirlink dp name i.inum
            iunlockput dp
            if ok then
              iput ip
              endOp
              return 0
            else linkBad ip

/-- `isdirempty`: is the directory empty except for `.` and `..`? -/
def isdirempty (dp : Slot) : FsM Bool := do
  let ip ← inode dp
  let r ← direntScan dp .isdiremptyReadi (fun de => de.inum != 0)
    (direntOffsets (2 * DIRENT_SIZE) ip.din.size.toNat)
  return r.isNone

/-- `sys_unlink`: if the file has versions, track it before deletion. -/
def trackDeleted (ip : Slot) (name : List UInt8) : FsM Unit := do
  let i ← inode ip
  if i.din.type = T_FILE ∧ i.din.versionHead ≠ 0 then
    addDeletedFile name i.inum i.din.versionHead
  else return

/-- `sys_unlink`: a directory that goes takes its `..` with it. -/
def dropDotDot (dp ip : Slot) : FsM Unit := do
  let i ← inode ip
  if i.din.type = T_DIR then addLinks dp (-1) else return

/-- `sys_unlink`, once the entry of `ip` at `off` is to be removed. -/
def unlinkEntry (dp ip : Slot) (name : List UInt8) (off : ℕ) : FsM ℤ := do
  trackDeleted ip name
  let w ← writei dp (List.replicate DIRENT_SIZE 0) (.ofNat off)
  if w ≠ some DIRENT_SIZE then throw (.panic .unlinkWritei)
  else
    dropDotDot dp ip
    iunlockput dp
    addLinks ip (-1)
    iunlockput ip
    endOp
    return 0

/-- The test of `sys_unlink` that keeps a directory with entries from being removed. -/
def canUnlink (ip : Slot) : FsM Bool := do
  let i ← inode ip
  if i.din.type = T_DIR then isdirempty ip else return true

/-- `sys_unlink`. -/
def sysUnlink (cwd : Option Slot) : Option (List UInt8) → FsM ℤ
  | none => return -1
  | some path => do
    beginOp
    let r ← nameiparent cwd path
    match r with
    | none =>
      endOp
      return -1
    | some (dp, name) =>
      ilock dp
      if namecmp name DOT ∨ namecmp name DOTDOT then putFail dp
      else
        let found ← dirlookup dp name
        match found with
        | none => putFail dp
        | some (ip, off) =>
          ilock ip
          let i ← inode ip
          if i.din.nlink < 1 then throw (.panic .unlinkNlink)
          else
            let ok ← canUnlink ip
            if ok then unlinkEntry dp ip name off
            else
              iunlockput ip
              putFail dp

/-- `create`: make the `.` and `..` entries of a new directory. -/
def createDots (dp ip : Slot) (type : Int16) : FsM Unit := do
  if type = T_DIR then
    addLinks dp 1
    let i ← inode ip
    let ok ← dirlink ip DOT i.inum
    if ok then
      let d ← inode dp
      let ok ← dirlink ip DOTDOT d.inum
      if ok then return else throw (.panic .createDots)
    else throw (.panic .createDots)
  else return

/-- `create`, once the name is known to be new. -/
def createNew (dp : Slot) (name : List UInt8) (type major minor : Int16) :
    FsM (Option Slot) := do
  let d ← inode dp
  let ip ← ialloc d.dev type
  ilock ip
  setDin ip fun d => { d with major, minor, nlink := 1 }
  iupdate ip
  createDots dp ip type
  let i ← inode ip
  let ok ← dirlink dp name i.inum
  if ok then
    iunlockput dp
    return some ip
  else throw (.panic .createDirlink)

/-- `create`: the inode is returned locked. -/
def create (cwd : Option Slot) (path : List UInt8) (type major minor : Int16) :
    FsM (Option Slot) := do
  let r ← nameiparent cwd path
  match r with
  | none => return none
  | some (dp, name) =>
    ilock dp
    let found ← dirlookup dp name
    match found with
    | none => createNew dp name type major minor
    | some (ip, _) =>
      iunlockput dp
      ilock ip
      let i ← inode ip
      if type = T_FILE ∧ i.din.type = T_FILE then return some ip
      else
        iunlockput ip
        return none

/-- `sys_mkdir` and `sys_mknod`: `create`, then put the inode. -/
def createPut (cwd : Option Slot) (type : Int16) : Option (List UInt8 × Int16 × Int16) → FsM ℤ
  | none => do
    beginOp
    endOp
    return -1
  | some (path, major, minor) => do
    beginOp
    let r ← create cwd path type major minor
    match r with
    | none =>
      endOp
      return -1
    | some ip =>
      iunlockput ip
      endOp
      return 0

/-- `sys_mkdir`. -/
def sysMkdir (cwd : Option Slot) (path : Option (List UInt8)) : FsM ℤ :=
  createPut cwd T_DIR (path.map (·, 0, 0))

/-- `sys_mknod`. -/
def sysMknod (cwd : Option Slot) (args : Option (List UInt8 × Int16 × Int16)) : FsM ℤ :=
  createPut cwd T_DEV args

/-! ## Versions -/

/-- `sys_version_create`. -/
def sysVersionCreate (cwd : Option Slot) : Option (List UInt8 × List UInt8) → FsM ℤ
  | none => return -1
  | some (path, desc) => do
    beginOp
    let r ← namei cwd path
    match r with
    | none =>
      endOp
      return -1
    | some ip =>
      ilock ip
      let vblock ← versionCreate ip desc 0
      iunlockput ip
      endOp
      return if vblock = 0 then -1 else 0

/-- `sys_version_list`. -/
def sysVersionList (cwd : Option Slot) :
    Option (List UInt8 × ℤ) → FsM (Option (List VersionInfo))
  | none => return none
  | some (path, max) => do
    beginOp
    let r ← namei cwd path
    match r with
    | none =>
      endOp
      return none
    | some ip =>
      ilock ip
      let infos ← versionList ip max
      iunlockput ip
      endOp
      return some infos

/-- `sys_snapshot_create`. -/
def sysSnapshotCreate : Option (List UInt8) → FsM ℤ
  | none => return -1
  | some name => snapshotCreate name

/-- The loop of `sys_recover_file` and `sys_version_restore` that copies the blocks of a version to
new blocks of the inode; `false` if it stops for want of a block. -/
def copyBack (k : Slot) (v : VersionNode) : List (Fin NDIRECT) → FsM Bool
  | [] => return true
  | i :: is => do
    if i.val < v.nblocks.toNat then
      let newblock ← balloc
      if newblock = 0 then return false
      else
        let src ← bread (v.dataBlocks i).toNat
        logWrite newblock.toNat src
        setDin k fun d => { d with addrs := update d.addrs i newblock }
        copyBack k v is
    else return true

/-- `sys_recover_file`, from the directory entry on. -/
def recoverLink (cwd : Option Slot) (name : List UInt8) (ip : Slot) : FsM ℤ := do
  iupdate ip
  let dot ← namei cwd DOT
  match dot with
  | none => throw .fault
  | some dp =>
    let i ← inode ip
    let ok ← dirlink dp name i.inum
    if ok then
      iunlockput ip
      endOp
      return 0
    else
      setDin ip fun d => { d with nlink := 0 }
      iupdate ip
      putFail ip

/-- `sys_recover_file`, for the version chain `vhead`. -/
def recoverVersion (cwd : Option Slot) (name : List UInt8) (vhead : UInt32) : FsM ℤ := do
  beginOp
  let ip ← ialloc ROOTDEV T_FILE
  ilock ip
  setDin ip fun d => { d with type := T_FILE, nlink := 1 }
  let v ← versionGet vhead
  match v with
  | none => recoverLink cwd name ip
  | some v =>
    setDin ip fun d => { d with size := v.fileSize, versionHead := 0 }
    let ok ← copyBack ip v (List.finRange NDIRECT)
    if ok then recoverLink cwd name ip else putFail ip

/-- `sys_recover_file`. -/
def sysRecoverFile (cwd : Option Slot) : Option (List UInt8) → FsM ℤ
  | none => return -1
  | some name => do
    let vhead ← recoverDeletedFile name
    if vhead = 0 then return -1 else recoverVersion cwd name vhead

/-- `sys_version_restore`, once the target version is found. -/
def restoreVersion (k : Slot) (v : VersionNode) : FsM ℤ := do
  (List.finRange NDIRECT).forM (freeDirect k)
  setDin k fun d => { d with size := v.fileSize }
  let _ ← copyBack k v (List.finRange NDIRECT)
  iupdate k
  iunlockput k
  endOp
  return 0

/-- `sys_version_restore`: walk the version chain to find the target version. -/
def restoreWalk (k : Slot) (versionNum : ℤ) : ℕ → UInt32 → ℕ → FsM ℤ
  | 0, _, _ => throw .spin
  | bound + 1, vblock, currentVersion => do
    let v ← versionGet vblock
    match v with
    | none => putFail k
    | some v =>
      if currentVersion = versionNum then restoreVersion k v
      else restoreWalk k versionNum bound v.prevVersion (currentVersion + 1)

/-- `sys_version_restore`. A chain of different blocks is no longer than the disk. -/
def sysVersionRestore (cwd : Option Slot) : Option (List UInt8 × ℤ) → FsM ℤ
  | none => return -1
  | some (path, versionNum) => do
    beginOp
    let r ← namei cwd path
    match r with
    | none =>
      endOp
      return -1
    | some ip =>
      ilock ip
      let s ← get
      let i ← inode ip
      restoreWalk ip versionNum (s.sb.size + 1) i.din.versionHead 0

/-! ## File descriptors -/

/-- `argfd`: the file of a descriptor. -/
def argfd (p : ProcNo) (fd : ℤ) : KM (Option (Fin NOFILE × FileNo)) := do
  let pr ← proc p
  if h : 0 ≤ fd ∧ fd < NOFILE then
    let i : Fin NOFILE := ⟨fd.toNat, by omega⟩
    return (pr.ofile i).map (i, ·)
  else return none

/-- `fdalloc`: allocate a file descriptor for the given file. -/
def fdalloc (p : ProcNo) (f : FileNo) : KM (Option (Fin NOFILE)) := do
  let pr ← proc p
  match (List.finRange NOFILE).find? fun fd => pr.ofile fd = none with
  | none => return none
  | some fd =>
    setProc p fun pr => { pr with ofile := update pr.ofile fd (some f) }
    return some fd

/-- `sys_dup`. -/
def sysDup (p : ProcNo) (fd : ℤ) : KM ℤ := do
  let r ← argfd p fd
  match r with
  | none => return -1
  | some (_, f) =>
    let r ← fdalloc p f
    match r with
    | none => return -1
    | some fd =>
      filedup f
      return fd

/-- `sys_read`: `n` is not negative, as `argptr` has checked. -/
def sysRead (p : ProcNo) : Option (ℤ × UInt32) → KM (Option (List UInt8))
  | none => return none
  | some (fd, n) => do
    let r ← argfd p fd
    match r with
    | none => return none
    | some (_, f) => fileread f n

/-- `sys_write`. -/
def sysWrite (p : ProcNo) : Option (ℤ × List UInt8) → KM (Option ℕ)
  | none => return none
  | some (fd, src) => do
    let r ← argfd p fd
    match r with
    | none => return none
    | some (_, f) => filewrite f src

/-- `sys_close`. -/
def sysClose (p : ProcNo) (fd : ℤ) : KM ℤ := do
  let r ← argfd p fd
  match r with
  | none => return -1
  | some (i, f) =>
    setProc p fun pr => { pr with ofile := update pr.ofile i none }
    fileclose f
    return 0

/-- `sys_fstat`. -/
def sysFstat (p : ProcNo) : Option ℤ → KM (Option Stat)
  | none => return none
  | some fd => do
    let r ← argfd p fd
    match r with
    | none => return none
    | some (_, f) => filestat f

/-- `sys_open`, from `filealloc` on. -/
def openFile (p : ProcNo) (ip : Slot) (omode : UInt32) : KM ℤ := do
  let r ← filealloc
  match r with
  | none => putFail ip
  | some f =>
    let r ← fdalloc p f
    match r with
    | none =>
      fileclose f
      putFail ip
    | some fd =>
      iunlock ip
      endOp
      setFile f fun file => { file with
        type := .inode ip
        off := 0
        readable := omode &&& O_WRONLY == 0
        writable := omode &&& O_WRONLY != 0 || omode &&& O_RDWR != 0 }
      return fd

/-- `sys_open`. -/
def sysOpen (p : ProcNo) : Option (List UInt8 × UInt32) → KM ℤ
  | none => return -1
  | some (path, omode) => do
    let pr ← proc p
    beginOp
    if omode &&& O_CREATE ≠ 0 then
      let r ← create pr.cwd path T_FILE 0 0
      match r with
      | none =>
        endOp
        return -1
      | some ip => openFile p ip omode
    else
      let r ← namei pr.cwd path
      match r with
      | none =>
        endOp
        return -1
      | some ip =>
        ilock ip
        let i ← inode ip
        if i.din.type = T_DIR ∧ omode ≠ O_RDONLY then putFail ip
        else openFile p ip omode

/-- `iput(curproc->cwd)`. -/
def iputCwd : Option Slot → FsM Unit
  | none => throw .fault
  | some k => iput k

/-- `sys_chdir`. -/
def sysChdir (p : ProcNo) (path : Option (List UInt8)) : KM ℤ := do
  let pr ← proc p
  beginOp
  match path with
  | none =>
    endOp
    return -1
  | some path =>
    let r ← namei pr.cwd path
    match r with
    | none =>
      endOp
      return -1
    | some ip =>
      ilock ip
      let i ← inode ip
      if i.din.type ≠ T_DIR then putFail ip
      else
        iunlock ip
        iputCwd pr.cwd
        endOp
        setProc p fun pr => { pr with cwd := some ip }
        return 0

/-- `pipealloc`, from `bad`. -/
def pipeBad (f0 f1 : Option FileNo) : KM (Option (FileNo × FileNo)) := do
  match f0 with
  | none => return none
  | some f0 =>
    fileclose f0
    match f1 with
    | none => return none
    | some f1 =>
      fileclose f1
      return none

/-- `pipealloc`: `mem` says whether `kalloc` gives a page. -/
def pipealloc (mem : Bool) : KM (Option (FileNo × FileNo)) := do
  let f0 ← filealloc
  match f0 with
  | none => pipeBad none none
  | some f0 =>
    let f1 ← filealloc
    match f1 with
    | none => pipeBad (some f0) none
    | some f1 =>
      if mem then
        setFile f0 fun file => { file with type := .pipe, readable := true, writable := false }
        setFile f1 fun file => { file with type := .pipe, readable := false, writable := true }
        return some (f0, f1)
      else pipeBad (some f0) (some f1)

/-- `sys_pipe`. -/
def sysPipe (p : ProcNo) : Option Bool → KM (Option (Fin NOFILE × Fin NOFILE))
  | none => return none
  | some mem => do
    let r ← pipealloc mem
    match r with
    | none => return none
    | some (rf, wf) =>
      let r ← fdalloc p rf
      match r with
      | none =>
        fileclose rf
        fileclose wf
        return none
      | some fd0 =>
        let r ← fdalloc p wf
        match r with
        | none =>
          setProc p fun pr => { pr with ofile := update pr.ofile fd0 none }
          fileclose rf
          fileclose wf
          return none
        | some fd1 => return some (fd0, fd1)

end ChronoFS
