import ChronoFS.Fs.Version

/-!
# `file.c`: open files

`Kernel` adds the file table and the processes to the file system. A program of the kernel is a
`KM`; a program of the file system runs in it on the part that is its own.
-/

namespace ChronoFS

open Function (update)

/-- An entry of the file table, `&ftable.file[f]`. -/
abbrev FileNo := Fin NFILE

/-- An entry of the process table, `&ptable.proc[p]`. -/
abbrev ProcNo := Fin NPROC

/-- `f->type`, with `f->ip` where it means something. -/
inductive FdType
  /-- `FD_NONE`. -/
  | none
  /-- `FD_PIPE`. -/
  | pipe
  /-- `FD_INODE`. -/
  | inode (ip : Slot)
  deriving DecidableEq

/-- `struct file`. -/
structure File where
  /-- What the file is. -/
  type : FdType
  /-- Reference count. -/
  ref : ℤ
  /-- It may be read. -/
  readable : Bool
  /-- It may be written. -/
  writable : Bool
  /-- The offset of the next read or write. -/
  off : UInt32

/-- `p->state`, as far as the calls that are modelled set it. -/
inductive ProcState
  | unused | runnable | zombie
  deriving DecidableEq

/-- `struct proc`, as far as the file system is concerned. -/
structure Proc where
  /-- Process state. -/
  state : ProcState
  /-- Parent process. -/
  parent : Option ProcNo
  /-- Open files. -/
  ofile : Fin NOFILE → Option FileNo
  /-- Current directory. -/
  cwd : Option Slot

/-- The file system, the file table and the processes. -/
structure Kernel where
  /-- The file system. -/
  fs : Fs
  /-- `ftable.file`. -/
  ftable : FileNo → File
  /-- `ptable.proc`. -/
  proc : ProcNo → Proc

/-- A program of the kernel. -/
abbrev KM := EStateM Halt Kernel

/-- The file system's programs run in the kernel. -/
instance : MonadLift FsM KM where
  monadLift m := zoom Kernel.fs (fun t s => { s with fs := t }) m

/-- The entry `f` of the file table. -/
def file (f : FileNo) : KM File := do
  let s ← get
  return s.ftable f

/-- An assignment to fields of the entry `f` of the file table. -/
def setFile (f : FileNo) (g : File → File) : KM Unit :=
  modify fun s => { s with ftable := update s.ftable f (g (s.ftable f)) }

/-- The process `p`. -/
def proc (p : ProcNo) : KM Proc := do
  let s ← get
  return s.proc p

/-- An assignment to fields of the process `p`. -/
def setProc (p : ProcNo) (g : Proc → Proc) : KM Unit :=
  modify fun s => { s with proc := update s.proc p (g (s.proc p)) }

/-- `filealloc`: allocate a file structure. -/
def filealloc : KM (Option FileNo) := do
  let s ← get
  match (List.finRange NFILE).find? fun f => (s.ftable f).ref = 0 with
  | none => return none
  | some f =>
    setFile f fun file => { file with ref := 1 }
    return some f

/-- `filedup`: increment ref count for file `f`. -/
def filedup (f : FileNo) : KM Unit := do
  let ff ← file f
  if ff.ref < 1 then throw (.panic .filedup)
  else setFile f fun file => { file with ref := file.ref + 1 }

/-- `fileclose`: decrement ref count, close when it reaches 0. Closing a pipe does not concern the
file system. -/
def fileclose (f : FileNo) : KM Unit := do
  let ff ← file f
  if ff.ref < 1 then throw (.panic .fileclose)
  else if ff.ref - 1 > 0 then setFile f fun file => { file with ref := file.ref - 1 }
  else
    setFile f fun file => { file with ref := 0, type := .none }
    match ff.type with
    | .inode ip =>
      beginOp
      iput ip
      endOp
    | .pipe | .none => return

/-- `filestat`: get metadata about file `f`. -/
def filestat (f : FileNo) : KM (Option Stat) := do
  let ff ← file f
  match ff.type with
  | .inode ip =>
    ilock ip
    let st ← stati ip
    iunlock ip
    return some st
  | .pipe | .none => return none

/-- What a pipe delivers; `none` if the process is killed, or if there is no reader. -/
def pipeIO : FsM (Option (List UInt8)) := do
  let s ← get
  match s.io with
  | [] => throw .sleep
  | x :: rest =>
    modify fun s => { s with io := rest }
    return x

/-- `f->off += r`, if `r` is not `-1`. -/
def advance (f : FileNo) : Option ℕ → KM Unit
  | some r => setFile f fun file => { file with off := file.off + .ofNat r }
  | none => return

/-- `fileread`: read from file `f`. -/
def fileread (f : FileNo) (n : UInt32) : KM (Option (List UInt8)) := do
  let ff ← file f
  if !ff.readable then return none
  else
    match ff.type with
    | .pipe => do
      let x ← pipeIO
      return x.map (·.take n.toNat)
    | .inode ip =>
      ilock ip
      let r ← readi ip ff.off n
      advance f (r.map List.length)
      iunlock ip
      return r
    | .none => throw (.panic .fileread)

/-- `((MAXOPBLOCKS-1-1-2) / 2) * 512`: the most that `filewrite` writes in one transaction. -/
abbrev WRITE_MAX : ℕ := (MAXOPBLOCKS - 1 - 1 - 2) / 2 * 512

/-- The loop of `filewrite` over an inode, a few blocks at a time; `false` when a `writei` fails.
Each pass takes at least a byte. -/
def filewriteLoop (f : FileNo) (ip : Slot) : ℕ → List UInt8 → KM Bool
  | _, [] => return true
  | 0, _ :: _ => return false
  | bound + 1, src => do
    beginOp
    ilock ip
    let ff ← file f
    let r ← writei ip (src.take WRITE_MAX) ff.off
    advance f r
    iunlock ip
    endOp
    match r with
    | none => return false
    | some r =>
      if r ≠ (src.take WRITE_MAX).length then throw (.panic .shortFilewrite)
      else filewriteLoop f ip bound (src.drop WRITE_MAX)

/-- `filewrite`: write to file `f`. -/
def filewrite (f : FileNo) (src : List UInt8) : KM (Option ℕ) := do
  let ff ← file f
  if !ff.writable then return none
  else
    match ff.type with
    | .pipe => do
      let x ← pipeIO
      return x.map fun _ => src.length
    | .inode ip =>
      let done ← filewriteLoop f ip src.length src
      return if done then some src.length else none
    | .none => throw (.panic .filewrite)

end ChronoFS
