import ChronoFS.Lib.RingBuffer
import ChronoFS.Lib.Run

/-!
# A pipe of `pipe.c` as a transition system

Any number of processes call `pipewrite` and `piperead` on one pipe, its ends are closed, and
processes are killed, in any interleaving. A step of a process in `pipewrite` or `piperead` is the
section it runs under `p->lock`: from the call, or from where `sleep` returns, to the next `sleep`
or to the return. `kill` does not take `p->lock`, so a process may also be killed during its
section, after it has looked at `killed`; such a `kill` does not wake it, as it is still `RUNNING`.

When both ends are closed the page of the pipe is freed, and nothing more happens to the pipe.
-/

namespace ChronoFS.Pipe

open Function (update)

/-- `PIPESIZE`. -/
abbrev PIPESIZE : ℕ := 512

/-- The two channels of a pipe. -/
inductive Chan
  /-- `&p->nread`, on which readers sleep. -/
  | nread
  /-- `&p->nwrite`, on which writers sleep. -/
  | nwrite
  deriving DecidableEq

/-- Where a process is with respect to the pipe. -/
inductive Pos
  /-- In no call. -/
  | out
  /-- In `pipewrite` of the bytes `src`, the first `i` of which are stored. -/
  | writing (src : List UInt8) (i : ℕ)
  /-- In `piperead` of up to `n` bytes. -/
  | reading (n : ℕ)
  deriving DecidableEq

/-- `struct pipe`, and the processes. -/
structure State where
  /-- `data`, `nread` and `nwrite`. -/
  buf : RingBuffer UInt8 PIPESIZE
  /-- Read fd is still open. -/
  readopen : Bool
  /-- Write fd is still open. -/
  writeopen : Bool
  /-- Where each process is. -/
  pos : ℕ → Pos
  /-- The channel of the pipe a process is `SLEEPING` on. -/
  asleep : ℕ → Option Chan
  /-- The process has been killed. -/
  killed : ℕ → Bool

namespace State

/-- `wakeup`. -/
def wakeup (s : State) (c : Chan) : State :=
  { s with asleep := fun p => if s.asleep p = some c then none else s.asleep p }

/-- `sleep`. -/
def sleep (s : State) (p : ℕ) (c : Chan) : State :=
  { s with asleep := update s.asleep p (some c) }

/-- Process `p` goes on to `c`. -/
def goto (s : State) (p : ℕ) (c : Pos) : State :=
  { s with pos := update s.pos p c }

/-- The section of `pipewrite` that starts with the byte `i`: the state it leaves, the bytes it
stores, and what the call returns, unless it sleeps. -/
def pipewrite (s : State) (p : ℕ) (src : List UInt8) (i : ℕ) : State × List UInt8 × Option ℤ :=
  let left := src.drop i
  let (buf, k) := s.buf.fill left
  let s := { s with buf := buf }
  if k = left.length then ((s.wakeup .nread).goto p .out, left.take k, some src.length)
  else if s.readopen = false ∨ s.killed p then (s.goto p .out, left.take k, some (-1))
  else (((s.wakeup .nread).sleep p .nwrite).goto p (.writing src (i + k)), left.take k, none)

/-- A section of `piperead`. -/
def piperead (s : State) (p : ℕ) (n : ℕ) : State × List UInt8 × Option ℤ :=
  if s.buf.Empty ∧ s.writeopen then
    if s.killed p then (s.goto p .out, [], some (-1)) else (s.sleep p .nread, [], none)
  else
    let (buf, bytes) := s.buf.drain n
    ((State.wakeup { s with buf := buf } .nwrite).goto p .out, bytes, some bytes.length)

/-- `pipeclose`. -/
def pipeclose (s : State) (writable : Bool) : State :=
  if writable then State.wakeup { s with writeopen := false } .nread
  else State.wakeup { s with readopen := false } .nwrite

/-- `kill`, for a process that is in no section. -/
def kill (s : State) (p : ℕ) : State :=
  { s with killed := update s.killed p true, asleep := update s.asleep p none }

/-- The process is killed during its section. -/
def strike (s : State) (p : ℕ) (struck : Bool) : State :=
  if struck then { s with killed := update s.killed p true } else s

/-- The page of the pipe has been freed. -/
def Freed (s : State) : Prop := s.readopen = false ∧ s.writeopen = false

instance (s : State) : Decidable s.Freed := inferInstanceAs (Decidable (_ ∧ _))

end State

/-- The steps of the processes. -/
inductive Event
  /-- `p` calls `pipewrite`. -/
  | write (p : ℕ) (src : List UInt8)
  /-- `p` calls `piperead`. -/
  | read (p : ℕ) (n : ℕ)
  /-- `p` runs a section of `pipewrite`: the bytes it stores, what it returns if it does not sleep,
  and whether it is killed late in the section. -/
  | wrote (p : ℕ) (bytes : List UInt8) (r : Option ℤ) (struck : Bool)
  /-- `p` runs a section of `piperead`: the bytes it takes, and the same. -/
  | got (p : ℕ) (bytes : List UInt8) (r : Option ℤ) (struck : Bool)
  /-- An end is closed. -/
  | close (writable : Bool)
  /-- `p` is killed. -/
  | kill (p : ℕ)
  deriving DecidableEq

/-- The state an event leads to, where it can happen with the result it names. -/
def State.step (s : State) : Event → Option State
  | .write p src => if s.pos p = .out then some (s.goto p (.writing src 0)) else none
  | .read p n => if s.pos p = .out then some (s.goto p (.reading n)) else none
  | .wrote p bytes r struck =>
    match s.pos p with
    | .writing src i =>
      if ¬ s.Freed ∧ s.asleep p = none ∧ (s.pipewrite p src i).2 = (bytes, r) then
        some ((s.pipewrite p src i).1.strike p struck)
      else none
    | _ => none
  | .got p bytes r struck =>
    match s.pos p with
    | .reading n =>
      if ¬ s.Freed ∧ s.asleep p = none ∧ (s.piperead p n).2 = (bytes, r) then
        some ((s.piperead p n).1.strike p struck)
      else none
    | _ => none
  | .close writable =>
    -- each end is closed once
    if (if writable then s.writeopen else s.readopen) then some (s.pipeclose writable) else none
  | .kill p => some (s.kill p)

/-- A step of the pipe. -/
def Step (s : State) (e : Event) (s' : State) : Prop := s.step e = some s'

/-- A pipe as `pipealloc` leaves it, whatever the page holds. -/
structure Fresh (s : State) : Prop where
  /-- Nothing has been read. -/
  nread : s.buf.nread = 0
  /-- Nothing has been written. -/
  nwrite : s.buf.nwrite = 0
  /-- Both ends are open. -/
  readopen : s.readopen = true
  /-- Both ends are open. -/
  writeopen : s.writeopen = true
  /-- Nobody uses it. -/
  pos : ∀ p, s.pos p = .out
  /-- Nobody sleeps on it. -/
  asleep : ∀ p, s.asleep p = none

/-- A fresh pipe on a page of zeros. -/
def State.zero : State where
  buf := { data := fun _ => 0, nread := 0, nwrite := 0 }
  readopen := true
  writeopen := true
  pos _ := .out
  asleep _ := none
  killed _ := false

theorem State.fresh_zero : Fresh State.zero :=
  ⟨rfl, rfl, rfl, rfl, fun _ => rfl, fun _ => rfl⟩

end ChronoFS.Pipe
