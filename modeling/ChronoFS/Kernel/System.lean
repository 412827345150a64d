import ChronoFS.Kernel.Proc
import ChronoFS.Lib.Run

/-!
# System calls in sequence

`Call` lists the system calls that concern the file system, with their arguments, and `syscall` runs
one. `Step` is a system call that returns, made by a process that exists, or the passing of time and
the arrival of input. `Run Step` is then any sequence of system calls of any processes.
-/

namespace ChronoFS

/-- A system call and its arguments. -/
inductive Call
  | fork (mem : Bool)
  | exit
  | wait (killed : Bool)
  | exec (args : Option (List UInt8 × List Bool × Bool))
  | dup (fd : ℤ)
  | read (args : Option (ℤ × UInt32))
  | write (args : Option (ℤ × List UInt8))
  | close (fd : ℤ)
  | fstat (fd : Option ℤ)
  | link (args : Option (List UInt8 × List UInt8))
  | unlink (path : Option (List UInt8))
  | open (args : Option (List UInt8 × UInt32))
  | mkdir (path : Option (List UInt8))
  | mknod (args : Option (List UInt8 × Int16 × Int16))
  | chdir (path : Option (List UInt8))
  | pipe (mem : Option Bool)
  | versionCreate (args : Option (List UInt8 × List UInt8))
  | versionList (args : Option (List UInt8 × ℤ))
  | versionRestore (args : Option (List UInt8 × ℤ))
  | recoverFile (name : Option (List UInt8))
  | snapshotCreate (name : Option (List UInt8))
  | snapshotRestore

/-- What a system call returns, with what it stores in the memory of the process. -/
inductive Reply
  /-- The return value. -/
  | int (r : ℤ)
  /-- The bytes read; `none` is `-1`. -/
  | bytes (r : Option (List UInt8))
  /-- The number of bytes written; `none` is `-1`. -/
  | count (r : Option ℕ)
  /-- The metadata of a file; `none` is `-1`. -/
  | stat (r : Option Stat)
  /-- The two ends of a pipe; `none` is `-1`. -/
  | fds (r : Option (Fin NOFILE × Fin NOFILE))
  /-- The versions of a file; `none` is `-1`. -/
  | versions (r : Option (List VersionInfo))
  deriving DecidableEq

/-- The system call `c` of process `p`. -/
def syscall (p : ProcNo) (c : Call) : KM Reply := do
  let pr ← proc p
  match c with
  | .fork mem => return .int (← fork p mem)
  | .exit => do
    exit p
    return .int 0
  | .wait killed => return .int (← wait p killed)
  | .exec args => return .int (← exec pr.cwd args)
  | .dup fd => return .int (← sysDup p fd)
  | .read args => return .bytes (← sysRead p args)
  | .write args => return .count (← sysWrite p args)
  | .close fd => return .int (← sysClose p fd)
  | .fstat fd => return .stat (← sysFstat p fd)
  | .link args => return .int (← sysLink pr.cwd args)
  | .unlink path => return .int (← sysUnlink pr.cwd path)
  | .open args => return .int (← sysOpen p args)
  | .mkdir path => return .int (← sysMkdir pr.cwd path)
  | .mknod args => return .int (← sysMknod pr.cwd args)
  | .chdir path => return .int (← sysChdir p path)
  | .pipe mem => return .fds (← sysPipe p mem)
  | .versionCreate args => return .int (← sysVersionCreate pr.cwd args)
  | .versionList args => return .versions (← sysVersionList pr.cwd args)
  | .versionRestore args => return .int (← sysVersionRestore pr.cwd args)
  | .recoverFile name => return .int (← sysRecoverFile pr.cwd name)
  | .snapshotCreate name => return .int (← sysSnapshotCreate name)
  | .snapshotRestore => return .int (-1)

/-- What can happen between two states of the kernel. -/
inductive Event
  /-- Process `p` makes the system call `c`. -/
  | call (p : ProcNo) (c : Call)
  /-- Time passes, and input arrives. -/
  | world (ticks : UInt32) (io : List (Option (List UInt8)))

/-- The system call returns, or the world changes. -/
def Step (s : Kernel) : Event → Kernel → Prop
  | .call p c, s' => (s.proc p).state = .runnable ∧ ∃ r, syscall p c s = .ok r s'
  | .world ticks io, s' => s' = { s with fs := { s.fs with ticks, io } }

end ChronoFS
