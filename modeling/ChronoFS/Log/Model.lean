import ChronoFS.Block
import ChronoFS.Lib.Run
import Mathlib.Logic.Function.Basic

/-!
# The redo log of `log.c` as a transition system

Processes run `begin_op`, `log_write` and `end_op` in any interleaving, one of them runs `commit`,
and the machine may crash between any two disk writes and run `recover_from_log`, which may crash
again. Each event of `Event` is one step: a section of `log.c` under `log.lock`, one iteration of a
loop that writes a block, the unlocked checks of `log_write`, or a crash.

The buffer cache of `bio.c` is a partial map from block numbers to buffers. A buffer may be read in
or recycled at any time, but `B_DIRTY` pins it (`bget`). A disk write of one block is atomic.

The fields from `nextOp` on are history variables: no step reads them to decide what the code does.
-/

namespace ChronoFS.Log

open Function

/-- The panics of `log.c`. -/
inductive Panic
  | tooBig
  | outsideTrans
  | committing
  deriving DecidableEq, Repr

/-- A cached buffer: its data, and whether `B_DIRTY` is set. -/
structure Buf where
  /-- `b->data`. -/
  data : Block
  /-- `b->flags & B_DIRTY`. -/
  dirty : Bool

/-- A `log_write`: the operation that made it, the block, and what the caller stored in it. -/
structure Write where
  /-- The `begin_op`/`end_op` section. -/
  op : ℕ
  /-- `b->blockno`. -/
  block : UInt32
  /-- `b->data`. -/
  data : Block

/-- Where a process is with respect to the log. -/
inductive Pos
  /-- Outside any FS operation. -/
  | out
  /-- Between its `begin_op` and its `end_op`, having called `log_write` on `calls`. -/
  | inOp (op : ℕ) (calls : List UInt32)
  /-- In `log_write` on `b`, past the checks made before `acquire(&log.lock)`. -/
  | inLogWrite (op : ℕ) (calls : List UInt32) (b : UInt32)
  /-- In the `commit` of its `end_op`. -/
  | inCommit

/-- Where `commit` or `recover_from_log` is. -/
inductive Phase
  /-- Neither is running. -/
  | running
  /-- In `write_log`, about to do iteration `tail`, or to leave the loop. -/
  | writeLog (tail : ℕ)
  /-- In `install_trans` of `commit`. -/
  | installTrans (tail : ℕ)
  /-- `commit` is done; `end_op` has yet to clear `log.committing`. -/
  | committed
  /-- The machine has just booted; `recover_from_log` is about to run. -/
  | booted
  /-- In `install_trans` of `recover_from_log`. -/
  | recovering (tail : ℕ)

/-- The disk, the buffer cache, `struct log`, and the processes. -/
structure State where
  /-- What the disk holds. -/
  disk : ℕ → Block
  /-- The buffer cache. -/
  cache : ℕ → Option Buf
  /-- `log.start`. -/
  start : ℕ
  /-- `log.size`. -/
  size : ℕ
  /-- `log.lh`: `block[0]` to `block[n - 1]`. -/
  lh : List UInt32
  /-- `log.outstanding`. -/
  outstanding : ℕ
  /-- `log.committing`. -/
  committing : Bool
  /-- The program counter of `commit` and `recover_from_log`. -/
  phase : Phase
  /-- The program counters of the processes. -/
  pos : ℕ → Pos
  /-- How many operations have begun. -/
  nextOp : ℕ
  /-- Every `log_write` made so far, the latest first. -/
  made : List Write
  /-- The `log_write`s since the log was last emptied, in order. -/
  cur : List Write
  /-- The transactions whose first `write_head` completed, in order, each with its `log_write`s. -/
  trans : List (List Write)

/-! ## The header block -/

/-- `write_head`'s stores into the header block: `hb->n`, then `hb->block[i]` for `i < n`. -/
def putHead (b : Block) (lh : List UInt32) : Block :=
  (List.range lh.length).foldl (fun b i => b.setWord (i + 1) (lh.getD i 0))
    (b.setWord 0 (.ofNat lh.length))

/-- `read_head`'s loads from the header block. `n` is an `int`, so a negative one loads nothing. -/
def getHead (b : Block) : List UInt32 :=
  (List.range (b.word 0).toInt32.toInt.toNat).map fun i => b.word (i + 1)

/-! ## Reading and writing blocks -/

/-- `bread`: the cached data, or the disk's. -/
def bread (s : State) (b : ℕ) : Block :=
  match s.cache b with
  | some buf => buf.data
  | none => s.disk b

/-- `bwrite`: the block is on disk, and its buffer is valid and no longer dirty. -/
def bwrite (s : State) (b : ℕ) (data : Block) : State :=
  { s with disk := update s.disk b data, cache := update s.cache b (some ⟨data, false⟩) }

/-- `read_head`. -/
def readHead (s : State) : State := { s with lh := getHead (bread s s.start) }

/-- `write_head`. -/
def writeHead (s : State) : State := bwrite s s.start (putHead (bread s s.start) s.lh)

/-- Iteration `tail` of `write_log`: copy the cached block to the log. -/
def writeLogAt (s : State) (tail : ℕ) : State :=
  bwrite s (s.start + tail + 1) (bread s (s.lh.getD tail 0).toNat)

/-- Iteration `tail` of `install_trans`: copy the log block to its home. -/
def installAt (s : State) (tail : ℕ) : State :=
  bwrite s (s.lh.getD tail 0).toNat (bread s (s.start + tail + 1))

/-- `install_trans`. -/
def installTrans (s : State) : State := (List.range s.lh.length).foldl installAt s

/-- `recover_from_log`, run to its end. -/
def recoverFromLog (s : State) : State :=
  writeHead { installTrans (readHead s) with lh := [] }

/-- A crash: the disk survives; the cache, `struct log` and the processes do not. -/
def crash (s : State) : State :=
  { s with
    cache := fun _ => none, lh := [], outstanding := 0, committing := false,
    phase := .booted, pos := fun _ => .out, cur := [] }

/-! ## The steps -/

/-- `log_write`'s scan for `b` and its store: absorbed if `b` is already there. -/
def absorb (lh : List UInt32) (b : UInt32) : List UInt32 := if b ∈ lh then lh else lh ++ [b]

/-- What can happen. -/
inductive Event
  /-- `begin_op` of process `p` gets past its loop. -/
  | beginOp (p : ℕ)
  /-- `log_write(b)` of process `p`, up to `acquire(&log.lock)`. -/
  | logWriteCheck (p : ℕ) (b : UInt32)
  /-- The locked part of that `log_write`; `data` is what the caller stored in the buffer. -/
  | logWrite (p : ℕ) (data : Block)
  /-- `end_op` of process `p`, up to its first `release(&log.lock)`. -/
  | endOp (p : ℕ)
  /-- One iteration of `write_log`. -/
  | writeLog
  /-- The first `write_head` of `commit`: the real commit. -/
  | writeHead
  /-- One iteration of `commit`'s `install_trans`. -/
  | installTrans
  /-- The second `write_head` of `commit`, which empties the log. -/
  | eraseHead
  /-- The last part of the `end_op` of process `p`: `log.committing = 0`. -/
  | finish (p : ℕ)
  /-- A buffer is read in. -/
  | load (b : ℕ)
  /-- A clean buffer is recycled. -/
  | evict (b : ℕ)
  /-- A crash. -/
  | crash
  /-- `read_head` of `recover_from_log`. -/
  | recoverHead
  /-- One iteration of `recover_from_log`'s `install_trans`. -/
  | recoverInstall
  /-- The `write_head` of `recover_from_log`. -/
  | recoverErase

/-- What a step does: nothing yet, a panic, or a new state. -/
inductive Outcome
  /-- The process sleeps, or is not at this point of its program. -/
  | blocked
  /-- The kernel panics. -/
  | panic (p : Panic)
  /-- The step is done. -/
  | ok (s : State)

/-- `begin_op`: sleep while a commit runs or while the log might run out of space. -/
def beginOp (s : State) (p : ℕ) : Outcome :=
  match s.phase, s.pos p with
  | .booted, _ | .recovering _, _ => .blocked
  | _, .out =>
    if s.committing then .blocked
    else if s.lh.length + (s.outstanding + 1) * MAXOPBLOCKS > LOGSIZE then .blocked
    else .ok { s with
      outstanding := s.outstanding + 1, pos := update s.pos p (.inOp s.nextOp []),
      nextOp := s.nextOp + 1 }
  | _, _ => .blocked

/-- The checks that `log_write` makes before it takes the lock. -/
def logWriteCheck (s : State) (p : ℕ) (b : UInt32) : Outcome :=
  match s.pos p with
  | .inOp op calls =>
    if s.lh.length ≥ LOGSIZE ∨ s.lh.length ≥ s.size - 1 then .panic .tooBig
    else if s.outstanding < 1 then .panic .outsideTrans
    else .ok { s with pos := update s.pos p (.inLogWrite op (absorb calls b) b) }
  | _ => .blocked

/-- The locked part of `log_write`: record the block and pin its buffer. -/
def logWrite (s : State) (p : ℕ) (data : Block) : Outcome :=
  match s.pos p with
  | .inLogWrite op calls b =>
    .ok { s with
      lh := absorb s.lh b, cache := update s.cache b.toNat (some ⟨data, true⟩),
      pos := update s.pos p (.inOp op calls),
      made := ⟨op, b, data⟩ :: s.made, cur := s.cur ++ [⟨op, b, data⟩] }
  | _ => .blocked

/-- `end_op`: commit if this was the last outstanding operation. `commit` skips an empty log. -/
def endOp (s : State) (p : ℕ) : Outcome :=
  match s.pos p with
  | .inOp _ _ =>
    if s.committing then .panic .committing
    else if s.outstanding - 1 = 0 then
      .ok { s with
        outstanding := 0, committing := true, pos := update s.pos p .inCommit,
        phase := if s.lh.length > 0 then .writeLog 0 else .committed }
    else .ok { s with outstanding := s.outstanding - 1, pos := update s.pos p .out }
  | _ => .blocked

/-- One step. -/
def step (s : State) : Event → Outcome
  | .beginOp p => beginOp s p
  | .logWriteCheck p b => logWriteCheck s p b
  | .logWrite p data => logWrite s p data
  | .endOp p => endOp s p
  | .writeLog =>
    match s.phase with
    | .writeLog t =>
      if t < s.lh.length then .ok { writeLogAt s t with phase := .writeLog (t + 1) }
      else .blocked
    | _ => .blocked
  | .writeHead =>
    match s.phase with
    | .writeLog t =>
      if t < s.lh.length then .blocked
      else .ok { Log.writeHead s with
        phase := .installTrans 0, trans := s.trans ++ [s.cur], cur := [] }
    | _ => .blocked
  | .installTrans =>
    match s.phase with
    | .installTrans t =>
      if t < s.lh.length then .ok { installAt s t with phase := .installTrans (t + 1) }
      else .blocked
    | _ => .blocked
  | .eraseHead =>
    match s.phase with
    | .installTrans t =>
      if t < s.lh.length then .blocked
      else .ok { Log.writeHead { s with lh := [] } with phase := .committed }
    | _ => .blocked
  | .finish p =>
    match s.phase, s.pos p with
    | .committed, .inCommit =>
      .ok { s with committing := false, phase := .running, pos := update s.pos p .out }
    | _, _ => .blocked
  | .load b =>
    match s.cache b with
    | none => .ok { s with cache := update s.cache b (some ⟨s.disk b, false⟩) }
    | some _ => .blocked
  | .evict b =>
    match s.cache b with
    | some ⟨_, false⟩ => .ok { s with cache := update s.cache b none }
    | _ => .blocked
  | .crash => .ok (Log.crash s)
  | .recoverHead =>
    match s.phase with
    | .booted => .ok { readHead s with phase := .recovering 0 }
    | _ => .blocked
  | .recoverInstall =>
    match s.phase with
    | .recovering t =>
      if t < s.lh.length then .ok { installAt s t with phase := .recovering (t + 1) }
      else .blocked
    | _ => .blocked
  | .recoverErase =>
    match s.phase with
    | .recovering t =>
      if t < s.lh.length then .blocked
      else .ok { Log.writeHead { s with lh := [] } with phase := .running }
    | _ => .blocked

/-- The kernel just after the machine is switched on, over the disk `d`. -/
def boot (d : ℕ → Block) (start size : ℕ) : State where
  disk := d
  cache := fun _ => none
  start := start
  size := size
  lh := []
  outstanding := 0
  committing := false
  phase := .booted
  pos := fun _ => .out
  nextOp := 0
  made := []
  cur := []
  trans := []

end ChronoFS.Log
