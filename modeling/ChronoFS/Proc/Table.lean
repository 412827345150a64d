import ChronoFS.Kernel.Proc
import ChronoFS.Lib.Run

/-!
# The process table of `proc.c` as a transition system

Processes run `fork`, `exit`, `wait`, `kill`, `sleep` and `yield` in any interleaving. Each event of
`Event` is one step: a section of `proc.c` under `ptable.lock`, or one of the stores that `fork` and
`allocproc` make to the new process without the lock. `Code` says where in `fork` or in a sleep a
process is between two of its steps.

Any number of processes may run at once. Memory is not modelled: whether `kalloc` and `copyuvm`
succeed is part of the event. The file table and the inode of the current directory, which `fork`
and `exit` also change, are those of `Kernel/Proc.lean`.
-/

namespace ChronoFS.Ptable

open Function (update)

/-- `enum procstate`. -/
inductive State
  | unused | embryo | sleeping | runnable | running | zombie
  deriving DecidableEq

/-- The address a process sleeps on: a process, which `wait` uses, or some other object. -/
inductive Chan
  | proc (p : ProcNo)
  | other (a : ℕ)
  deriving DecidableEq

/-- `struct proc`, as far as exiting, waiting and killing are concerned. -/
structure Entry where
  /-- Process state. -/
  state : State
  /-- Process ID. -/
  pid : UInt32
  /-- Parent process. -/
  parent : Option ProcNo
  /-- If non-zero, sleeping on chan. -/
  chan : Option Chan
  /-- If non-zero, have been killed. -/
  killed : Bool

/-- Where a process is in the kernel. -/
inductive Code
  /-- Outside `fork` and `sleep`. -/
  | idle
  /-- In `allocproc` for `np`, about to allocate the kernel stack. -/
  | stack (np : ProcNo)
  /-- In `fork`, about to copy the memory for `np`. -/
  | copy (np : ProcNo)
  /-- In `fork`, having filled in `np`, about to make it `RUNNABLE`. -/
  | ready (np : ProcNo)
  /-- In the `sleep` of `wait`. -/
  | wait
  /-- In some other call of `sleep`. -/
  | asleep
  deriving DecidableEq

/-- The new process that a process in `fork` is making. -/
def Code.child : Code → Option ProcNo
  | .stack np | .copy np | .ready np => some np
  | _ => none

/-- `ptable`, `nextpid`, and where each process is. -/
structure Table where
  /-- `ptable.proc`. -/
  proc : ProcNo → Entry
  /-- `nextpid`. -/
  nextpid : UInt32
  /-- Where each process is. -/
  code : ProcNo → Code

/-- What one pass of `wait` over the table ends with. -/
inductive WaitResult
  /-- It frees the slot `q` and returns the pid it held. -/
  | reaped (q : ProcNo) (pid : UInt32)
  /-- It returns -1. -/
  | failed
  /-- It goes to sleep. -/
  | sleeps
  deriving DecidableEq

namespace Table

/-- Change the entry of `p`. -/
def set (s : Table) (p : ProcNo) (f : Entry → Entry) : Table :=
  { s with proc := update s.proc p (f (s.proc p)) }

/-- Process `p` goes on to `c`. -/
def goto (s : Table) (p : ProcNo) (c : Code) : Table :=
  { s with code := update s.code p c }

/-- The first slot, in the order of the table, with a property. -/
def first (s : Table) (P : Entry → Bool) : Option ProcNo :=
  (List.finRange NPROC).find? fun p => P (s.proc p)

/-- `allocproc` up to its `release`: the slot found, and the table. -/
def allocproc (s : Table) : Option (ProcNo × Table) :=
  (s.first fun e => e.state = .unused).map fun np =>
    (np, { s.set np fun e => { e with state := .embryo, pid := s.nextpid } with
      nextpid := s.nextpid + 1 })

/-- `wakeup1`. -/
def wakeup1 (s : Table) (chan : Option Chan) : Table :=
  { s with proc := fun p =>
      if (s.proc p).state = .sleeping ∧ (s.proc p).chan = chan
      then { s.proc p with state := .runnable } else s.proc p }

/-- The loop of `exit` that passes the abandoned children of `p` to init. -/
def abandon (p : ProcNo) (s : Table) (q : ProcNo) : Table :=
  if (s.proc q).parent = some p then
    let s := s.set q fun e => { e with parent := some INITPROC }
    if (s.proc q).state = .zombie then s.wakeup1 (some (.proc INITPROC)) else s
  else s

/-- `exit` from its `acquire` on. -/
def exit (s : Table) (p : ProcNo) : Table :=
  let s := s.wakeup1 ((s.proc p).parent.map .proc)
  let s := (List.finRange NPROC).foldl (abandon p) s
  s.set p fun e => { e with state := .zombie }

/-- The part of `sleep` that goes to sleep on `chan`. -/
def sleep (s : Table) (p : ProcNo) (chan : Chan) : Table :=
  s.set p fun e => { e with chan := some chan, state := .sleeping }

/-- The end of `sleep`. -/
def tidy (s : Table) (p : ProcNo) : Table :=
  s.set p fun e => { e with chan := none }

/-- One pass of `wait` over the table. -/
def wait (s : Table) (p : ProcNo) : WaitResult × Table :=
  match s.first fun e => e.parent = some p ∧ e.state = .zombie with
  | some q =>
    (.reaped q (s.proc q).pid, (s.set q fun e =>
      { e with pid := 0, parent := none, killed := false, state := .unused }).goto p .idle)
  | none =>
    if (∀ q, (s.proc q).parent ≠ some p) ∨ (s.proc p).killed then (.failed, s.goto p .idle)
    else (.sleeps, (s.sleep p (.proc p)).goto p .wait)

/-- `kill`. -/
def kill (s : Table) (pid : UInt32) : ℤ × Table :=
  match s.first fun e => e.pid = pid with
  | some q => (0, s.set q fun e =>
      { e with killed := true, state := if e.state = .sleeping then .runnable else e.state })
  | none => (-1, s)

end Table

/-- The steps of the processes. -/
inductive Event
  /-- `p` calls `fork`, whose `allocproc` finds a slot and gives it a pid, or finds none. -/
  | allocproc (p : ProcNo) (r : Option (ProcNo × UInt32))
  /-- There is no memory for the kernel stack: `fork` returns -1. -/
  | nostack (p : ProcNo)
  /-- `allocproc` returns. -/
  | stack (p : ProcNo)
  /-- There is no memory for the copy: `fork` returns -1. -/
  | nocopy (p : ProcNo)
  /-- The memory is copied, and `np->parent` is set. -/
  | copy (p : ProcNo)
  /-- The new process becomes `RUNNABLE`, and `fork` returns its pid. -/
  | ready (p : ProcNo) (pid : UInt32)
  /-- `p` exits. -/
  | exit (p : ProcNo)
  /-- `p` looks for an exited child, having called `wait` or having been woken in it. -/
  | wait (p : ProcNo) (r : WaitResult)
  /-- `p` calls `kill`. -/
  | kill (p : ProcNo) (pid : UInt32) (r : ℤ)
  /-- `p` goes to sleep outside `wait`. -/
  | sleep (p : ProcNo) (a : ℕ)
  /-- `p`, having been woken and chosen to run, leaves that `sleep`. -/
  | awake (p : ProcNo)
  /-- `wakeup` on a channel. -/
  | wakeup (chan : Chan)
  /-- `p` gives up the CPU. -/
  | yield (p : ProcNo)
  /-- The scheduler chooses `p`. -/
  | schedule (p : ProcNo)
  deriving DecidableEq

namespace Table

/-- `p` is running, at `c`. -/
def At (s : Table) (p : ProcNo) (c : Code) : Prop :=
  (s.proc p).state = .running ∧ s.code p = c

instance (s : Table) (p : ProcNo) (c : Code) : Decidable (s.At p c) :=
  inferInstanceAs (Decidable (_ ∧ _))

/-- The table as `p` finds it when it starts a pass of `wait`. -/
def enter (s : Table) (p : ProcNo) : Table :=
  if s.code p = .wait then s.tidy p else s

/-- What `fork` does when it cannot go on: the slot is `UNUSED` again. -/
def unfork (s : Table) (p np : ProcNo) : Table :=
  (s.set np fun e => { e with state := .unused }).goto p .idle

/-- The state an event leads to, where it can happen with the result it names. -/
def step (s : Table) : Event → Option Table
  | .allocproc p none => if s.At p .idle ∧ s.allocproc.isNone then some s else none
  | .allocproc p (some (np, pid)) =>
    match s.allocproc with
    | some (q, s') =>
      if s.At p .idle ∧ q = np ∧ s.nextpid = pid then some (s'.goto p (.stack np)) else none
    | none => none
  | .nostack p =>
    match s.code p with
    | .stack np => if (s.proc p).state = .running then some (s.unfork p np) else none
    | _ => none
  | .stack p =>
    match s.code p with
    | .stack np => if (s.proc p).state = .running then some (s.goto p (.copy np)) else none
    | _ => none
  | .nocopy p =>
    match s.code p with
    | .copy np => if (s.proc p).state = .running then some (s.unfork p np) else none
    | _ => none
  | .copy p =>
    match s.code p with
    | .copy np =>
      if (s.proc p).state = .running then
        some ((s.set np fun e => { e with parent := some p }).goto p (.ready np))
      else none
    | _ => none
  | .ready p pid =>
    match s.code p with
    | .ready np =>
      if (s.proc p).state = .running ∧ (s.proc np).pid = pid then
        some ((s.set np fun e => { e with state := .runnable }).goto p .idle)
      else none
    | _ => none
  -- init panics instead
  | .exit p => if s.At p .idle ∧ p ≠ INITPROC then some (s.exit p) else none
  | .wait p r =>
    if (s.At p .idle ∨ s.At p .wait) ∧ ((s.enter p).wait p).1 = r then
      some ((s.enter p).wait p).2
    else none
  | .kill p pid r => if s.At p .idle ∧ (s.kill pid).1 = r then some (s.kill pid).2 else none
  | .sleep p a =>
    if s.At p .idle then some ((s.sleep p (.other a)).goto p .asleep) else none
  | .awake p =>
    if s.At p .asleep then some ((s.tidy p).goto p .idle) else none
  | .wakeup chan => some (s.wakeup1 (some chan))
  | .yield p =>
    if (s.proc p).state = .running then some (s.set p fun e => { e with state := .runnable })
    else none
  | .schedule p =>
    if (s.proc p).state = .runnable then some (s.set p fun e => { e with state := .running })
    else none

/-- The table before `userinit`. -/
def empty : Table where
  proc _ := { state := .unused, pid := 0, parent := none, chan := none, killed := false }
  nextpid := 1
  code _ := .idle

/-- The table `userinit` leaves: `initproc` is the slot that `allocproc` finds first. -/
def boot : Table :=
  match empty.allocproc with
  | some (p, s) => s.set p fun e => { e with state := .runnable }
  | none => empty

end Table

/-- A step of the process table. -/
def Step (s : Table) (e : Event) (s' : Table) : Prop := s.step e = some s'

end ChronoFS.Ptable
