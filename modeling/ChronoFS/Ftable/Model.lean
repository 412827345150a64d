import ChronoFS.Kernel.Proc
import ChronoFS.Lib.Interleave

/-!
# The file table under interleaved calls

`open`, `pipe`, `dup`, `close`, `fork` and `exit` as programs of atomic actions. An action is a
section under `ftable.lock`, under the lock of a pipe or under `ptable.lock`, or an access of a
process to its own descriptor table. Whether a path leads to an inode and whether `kalloc` and
`copyuvm` succeed is up to the environment. A page of a pipe is known by the number of pipes made
before it. Every process may exit, init too.

The inode that a file refers to and what `read` and `write` do to a file are in `Kernel/File.lean`
and `Pipe/Model.lean`.
-/

namespace ChronoFS.Ftable

open Function (update)

/-- `f->type`, with `f->pipe` and `f->writable` where they mean something to `fileclose`. -/
inductive FileType
  /-- `FD_NONE`. -/
  | none
  /-- `FD_PIPE`. -/
  | pipe (j : ℕ) (writable : Bool)
  /-- `FD_INODE`. -/
  | inode
  deriving DecidableEq

/-- `struct pipe`, as far as its ends are concerned, and how often its page has been freed. -/
structure PipeEnds where
  /-- Read fd is still open. -/
  readopen : Bool
  /-- Write fd is still open. -/
  writeopen : Bool
  /-- How often the page has been passed to `kfree`. -/
  freed : ℕ
  deriving DecidableEq

/-- An end of a pipe is open. -/
def PipeEnds.isOpen (e : PipeEnds) (writable : Bool) : Bool :=
  if writable then e.writeopen else e.readopen

/-- `p->state`, as far as the descriptor tables are concerned: a slot is free again when its process
has exited. -/
inductive Status
  | unused | embryo | live
  deriving DecidableEq

/-- The file table, the pipes and the descriptor tables. -/
structure Shared where
  /-- `f->ref`. -/
  ref : FileNo → ℤ
  /-- `f->type`. -/
  type : FileNo → FileType
  /-- `p->ofile`. -/
  ofile : ProcNo → Fin NOFILE → Option FileNo
  /-- The slots of the process table. -/
  status : ProcNo → Status
  /-- The pipes. -/
  pipe : ℕ → PipeEnds
  /-- How many pipes have been made. -/
  npipes : ℕ
  /-- The kernel has panicked. -/
  halted : Option Panic

/-- The atomic actions. -/
inductive Act
  /-- `argfd`: read a descriptor. -/
  | argfd (fd : Fin NOFILE)
  /-- `fdalloc`. -/
  | fdalloc (f : FileNo)
  /-- `myproc()->ofile[fd] = 0`. -/
  | clearfd (fd : Fin NOFILE)
  /-- `create` or `namei`, up to the locked inode. -/
  | namei
  /-- `filealloc`. -/
  | filealloc
  /-- `filedup`. -/
  | filedup (f : FileNo)
  /-- `fileclose`, up to its last `release`. -/
  | fileclose (f : FileNo)
  /-- `f->type = FD_INODE` and what follows. -/
  | setinode (f : FileNo)
  /-- `kalloc` in `pipealloc`, and what follows. -/
  | kalloc (rf wf : FileNo)
  /-- `pipeclose`. -/
  | pipeclose (j : ℕ) (writable : Bool)
  /-- `allocproc`. -/
  | allocproc
  /-- `copyuvm`. -/
  | copyuvm
  /-- `np->state = UNUSED` in `fork`. -/
  | freeproc (np : ProcNo)
  /-- `np->ofile[i] = filedup(curproc->ofile[i])`. -/
  | dupfile (np : ProcNo) (fd : Fin NOFILE) (f : FileNo)
  /-- `np->state = RUNNABLE`. -/
  | runnable (np : ProcNo)
  /-- `exit` from its `acquire` on. -/
  | zombie
  deriving DecidableEq

/-- What the actions answer. -/
@[reducible]
def Act.Resp : Act → Type
  | .argfd _ => Option FileNo
  | .fdalloc _ => Option (Fin NOFILE)
  | .filealloc => Option FileNo
  | .fileclose _ => Option FileType
  | .namei | .copyuvm => Bool
  | .kalloc .. => Option ℕ
  | .allocproc => Option ProcNo
  | _ => Unit

/-- The actions and their answers. -/
abbrev sig : Sig := ⟨Act, Act.Resp⟩

/-! ## What the actions do -/

namespace Shared

/-- Change the entry of `p`'s descriptor table. -/
def setfd (s : Shared) (p : ProcNo) (fd : Fin NOFILE) (v : Option FileNo) : Shared :=
  { s with ofile := update s.ofile p (update (s.ofile p) fd v) }

/-- The first descriptor of `p` that is free. -/
def freefd (s : Shared) (p : ProcNo) : Option (Fin NOFILE) :=
  (List.finRange NOFILE).find? fun fd => s.ofile p fd = none

/-- The first file that is free. -/
def freefile (s : Shared) : Option FileNo :=
  (List.finRange NFILE).find? fun f => s.ref f = 0

/-- `filedup`. -/
def filedup (s : Shared) (f : FileNo) : Shared :=
  if s.ref f < 1 then { s with halted := some .filedup }
  else { s with ref := update s.ref f (s.ref f + 1) }

/-- `fileclose`, up to its last `release`: the copy `ff` of the file, if that was the last
reference. -/
def fileclose (s : Shared) (f : FileNo) : Option FileType × Shared :=
  if s.ref f < 1 then (none, { s with halted := some .fileclose })
  else if s.ref f - 1 > 0 then (none, { s with ref := update s.ref f (s.ref f - 1) })
  else (some (s.type f),
    { s with ref := update s.ref f 0, type := update s.type f .none })

/-- The part of `pipealloc` after `kalloc` has succeeded. -/
def pipealloc (s : Shared) (rf wf : FileNo) : Shared :=
  { s with
    pipe := update s.pipe s.npipes { readopen := true, writeopen := true, freed := 0 }
    npipes := s.npipes + 1
    type := update (update s.type rf (.pipe s.npipes false)) wf (.pipe s.npipes true) }

/-- A pipe after `pipeclose` of one of its ends. -/
def pipeclosed (e : PipeEnds) (writable : Bool) : PipeEnds :=
  let e := if writable then { e with writeopen := false } else { e with readopen := false }
  if e.readopen = false ∧ e.writeopen = false then { e with freed := e.freed + 1 } else e

end Shared

/-- What an action of `p` can do and answer. -/
def sem (p : ProcNo) (a : Act) (s : Shared) (r : a.Resp) (s' : Shared) : Prop :=
  s.halted = none ∧ match a, r with
  | .argfd fd, r => r = s.ofile p fd ∧ s' = s
  | .fdalloc f, r => r = s.freefd p ∧ s' = match s.freefd p with
    | some fd => s.setfd p fd (some f)
    | none => s
  | .clearfd fd, _ => s' = s.setfd p fd none
  | .namei, _ => s' = s
  | .filealloc, r => r = s.freefile ∧ s' = match s.freefile with
    | some f => { s with ref := update s.ref f 1 }
    | none => s
  | .filedup f, _ => s' = s.filedup f
  | .fileclose f, r => (r, s') = s.fileclose f
  | .setinode f, _ => s' = { s with type := update s.type f .inode }
  | .kalloc rf wf, r => r = none ∧ s' = s ∨ r = some s.npipes ∧ s' = s.pipealloc rf wf
  | .pipeclose j writable, _ =>
    s' = { s with pipe := update s.pipe j (Shared.pipeclosed (s.pipe j) writable) }
  | .allocproc, r => match r with
    | none => s' = s
    | some np => s.status np = .unused ∧ s' = { s with status := update s.status np .embryo }
  | .copyuvm, _ => s' = s
  | .freeproc np, _ => s' = { s with status := update s.status np .unused }
  | .dupfile np fd f, _ => s' = (s.filedup f).setfd np fd (some f)
  | .runnable np, _ => s' = { s with status := update s.status np .live }
  | .zombie, _ => s' = { s with status := update s.status p .unused }

/-! ## The calls -/

/-- The programs of the file table. -/
abbrev FileM := Prog sig

/-- An action as a program. -/
abbrev act (a : Act) : FileM a.Resp := Prog.call (S := sig) a

/-- `fileclose`; what it does to an inode is not seen here. -/
def fileclose (f : FileNo) : FileM Unit := do
  let ff ← act (.fileclose f)
  match ff with
  | some (.pipe j writable) => act (.pipeclose j writable)
  | _ => return

/-- `sys_open`. -/
def sysOpen : FileM ℤ := do
  let found ← act .namei
  match (found : Bool) with
  | false => return -1
  | true =>
    let f ← act .filealloc
    match f with
    | none => return -1
    | some f =>
      let fd ← act (.fdalloc f)
      match fd with
      | none =>
        fileclose f
        return -1
      | some fd =>
        act (.setinode f)
        return fd.val

/-- `pipealloc`. -/
def pipealloc : FileM (Option (FileNo × FileNo)) := do
  let f0 ← act .filealloc
  match f0 with
  | none => return none
  | some f0 =>
    let f1 ← act .filealloc
    match f1 with
    | none =>
      fileclose f0
      return none
    | some f1 =>
      let p ← act (.kalloc f0 f1)
      match p with
      | none =>
        fileclose f0
        fileclose f1
        return none
      | some _ => return some (f0, f1)

/-- `sys_pipe`; `good` says whether the argument is an address that the process may write. -/
def sysPipe (good : Bool) : FileM ℤ :=
  match good with
  | false => return -1
  | true => do
    let files ← pipealloc
    match files with
    | none => return -1
    | some (rf, wf) =>
      let fd0 ← act (.fdalloc rf)
      match fd0 with
      | none =>
        fileclose rf
        fileclose wf
        return -1
      | some fd0 =>
        let fd1 ← act (.fdalloc wf)
        match fd1 with
        | none =>
          act (.clearfd fd0)
          fileclose rf
          fileclose wf
          return -1
        | some _ => return 0

/-- `sys_dup`; `fd` is the argument, if it is the number of a descriptor. -/
def sysDup (fd : Option (Fin NOFILE)) : FileM ℤ :=
  match fd with
  | none => return -1
  | some fd => do
    let f ← act (.argfd fd)
    match f with
    | none => return -1
    | some f =>
      let fd ← act (.fdalloc f)
      match fd with
      | none => return -1
      | some fd =>
        act (.filedup f)
        return fd.val

/-- `sys_close`. -/
def sysClose (fd : Option (Fin NOFILE)) : FileM ℤ :=
  match fd with
  | none => return -1
  | some fd => do
    let f ← act (.argfd fd)
    match f with
    | none => return -1
    | some f =>
      act (.clearfd fd)
      fileclose f
      return 0

/-- The loop of `fork` over the descriptors. -/
def dupFiles (np : ProcNo) : List (Fin NOFILE) → FileM Unit
  | [] => return
  | fd :: fds => do
    let f ← act (.argfd fd)
    match f with
    | some f =>
      act (.dupfile np fd f)
      dupFiles np fds
    | none => dupFiles np fds

/-- `fork`. -/
def fork : FileM ℤ := do
  let np ← act .allocproc
  match np with
  | none => return -1
  | some np =>
    let copied ← act .copyuvm
    match (copied : Bool) with
    | false =>
      act (.freeproc np)
      return -1
    | true =>
      dupFiles np (List.finRange NOFILE)
      act (.runnable np)
      return np.val + 1

/-- The loop of `exit` over the descriptors. -/
def closeFiles : List (Fin NOFILE) → FileM Unit
  | [] => return
  | fd :: fds => do
    let f ← act (.argfd fd)
    match f with
    | some f =>
      fileclose f
      act (.clearfd fd)
      closeFiles fds
    | none => closeFiles fds

/-- `exit`. -/
def exit : FileM ℤ := do
  closeFiles (List.finRange NOFILE)
  act .zombie
  return 0

/-- The calls. -/
inductive Call
  | open
  | pipe (good : Bool)
  | dup (fd : Option (Fin NOFILE))
  | close (fd : Option (Fin NOFILE))
  | fork
  | exit

/-- The program of a call. -/
def Call.code : Call → FileM ℤ
  | .open => sysOpen
  | .pipe good => sysPipe good
  | .dup fd => sysDup fd
  | .close fd => sysClose fd
  | .fork => ChronoFS.Ftable.fork
  | .exit => ChronoFS.Ftable.exit

/-- The processes, their calls and the file table. -/
def system : System sig Shared ProcNo Call ℤ where
  code := Call.code
  sem := sem
  ready s p := s.halted = none ∧ s.status p = .live

/-- The file table after `userinit`: init has no open files. -/
def boot : Shared where
  ref _ := 0
  type _ := .none
  ofile _ _ := none
  status p := if p = INITPROC then .live else .unused
  pipe _ := { readopen := false, writeopen := false, freed := 0 }
  npipes := 0
  halted := none

/-- No call is in progress. -/
def Config.boot : Config sig Shared ProcNo ℤ where
  shared := Ftable.boot
  prog _ := none
  start _ := Ftable.boot
  steps _ := []

end ChronoFS.Ftable
