import ChronoFS.Bio.Model
import ChronoFS.Lib.Chain

/-!
# The disk driver as a transition system

`idestart`, `ideintr` and `iderw` of `ide.c`, by any number of clients and with the interrupts of the
device in any order. The requests are in a queue linked by `qnext`, whose first buffer is the active
request: the device has got its command, and the interrupt that ends it is handled by `ideintr`. The
device may end a read with `IDE_DF` or `IDE_ERR` in its status, and it has no data then.

A step is a section under `idelock`, or what a client does with a buffer outside of the driver: `bget`
takes a buffer for another block, and the client that holds the sleep lock modifies the data.
-/

namespace ChronoFS.Ide

open Function (update)
open Bio (BufNo Buf)

/-- `SECTOR_SIZE`. -/
abbrev SECTOR_SIZE : ℕ := 512

/-- The panics of the driver. -/
inductive Panic
  /-- `"incorrect blockno"`. -/
  | blockno
  /-- `"iderw: buf not locked"`. -/
  | notLocked
  /-- `"iderw: nothing to do"`. -/
  | nothingToDo
  /-- `"iderw: ide disk 1 not present"`. -/
  | noDisk1
  deriving DecidableEq

/-- A command of the device, with the drive and the sector of its registers. -/
inductive Command
  /-- `IDE_CMD_READ`. -/
  | read (drive : UInt32) (sector : ℕ)
  /-- `IDE_CMD_WRITE`, and the data that is written after it. -/
  | write (drive : UInt32) (sector : ℕ) (data : Block)

/-- The driver, the device, the buffers and the clients. -/
structure State (U : Type) where
  /-- The buffers. -/
  buf : BufNo → Buf U
  /-- `qnext` of the buffers. -/
  qnext : BufNo → Option BufNo
  /-- `idequeue`. -/
  idequeue : Option BufNo
  /-- `havedisk1`. -/
  havedisk1 : Bool
  /-- What the drives have. -/
  disk : UInt32 → ℕ → Block
  /-- The command that the device is at. -/
  active : Option Command
  /-- The buffers that `idestart` has been called for, in the order of the calls. -/
  started : List BufNo
  /-- The buffer that a client in `iderw` sleeps on. -/
  sleeping : U → Option BufNo
  /-- The kernel has panicked. -/
  halted : Option Panic

/-- What happens in a step. -/
inductive Event (U : Type)
  /-- `bget` takes a buffer for a block. -/
  | bget (b : BufNo) (dev : UInt32) (blockno : ℕ)
  /-- `acquiresleep`. -/
  | acquire (u : U) (b : BufNo)
  /-- The client changes the data of its buffer, and may set `B_DIRTY`. -/
  | modify (u : U) (b : BufNo) (data : Block) (dirty : Bool)
  /-- `releasesleep`. -/
  | release (u : U) (b : BufNo)
  /-- `iderw`, up to the first `sleep`. -/
  | iderw (u : U) (b : BufNo)
  /-- The interrupt of the device for the first request of the queue. -/
  | intr (b : Option BufNo) (err : Bool)
  /-- `iderw` returns. -/
  | wake (u : U) (b : BufNo)

/-- The drive of a device. -/
def drive (dev : UInt32) : UInt32 := dev &&& 1

/-- The sector that the registers have for a block. -/
def sector (blockno : ℕ) : ℕ := blockno * (BSIZE / SECTOR_SIZE) % 2 ^ 28

/-- A block that `idestart` takes is its own sector. -/
theorem sector_eq {blockno : ℕ} (h : blockno < FSSIZE) : sector blockno = blockno := by
  have hone : BSIZE / SECTOR_SIZE = 1 := by decide
  have hsmall : FSSIZE < 2 ^ 28 := by decide
  unfold sector
  rw [hone, Nat.mul_one, Nat.mod_eq_of_lt (h.trans hsmall)]

namespace State

variable {U : Type}

/-- `panic`. -/
def panic (s : State U) (p : Panic) : State U := { s with halted := some p }

/-- Change a buffer. -/
def setBuf (s : State U) (b : BufNo) (f : Buf U) : State U := { s with buf := update s.buf b f }

/-- What the disk has for the block of a buffer. -/
def content (s : State U) (b : BufNo) : Block := s.disk (drive (s.buf b).dev) (s.buf b).blockno

/-- The command that `idestart` gives the device. -/
def command (s : State U) (b : BufNo) : Command :=
  if (s.buf b).dirty then
    .write (drive (s.buf b).dev) (sector (s.buf b).blockno) (s.buf b).data
  else .read (drive (s.buf b).dev) (sector (s.buf b).blockno)

/-- `idestart`. -/
def idestart (s : State U) (b : BufNo) : State U :=
  if FSSIZE ≤ (s.buf b).blockno then s.panic .blockno
  else { s with active := some (s.command b), started := s.started ++ [b] }

/-- The device ends its command: a write goes to the disk. -/
def finish (s : State U) : State U :=
  match s.active with
  | some (.write d n data) =>
    { s with disk := update s.disk d (update (s.disk d) n data), active := none }
  | _ => { s with active := none }

/-- What `insl` reads from the device, at the end of a read without an error. -/
def transferred (s : State U) : Block :=
  match s.active with
  | some (.read d n) => s.disk d n
  | _ => Block.zero

/-- The buffer that `ideintr` leaves; `err` is that `idewait(1)` is `-1`. -/
def completed (s : State U) (b : BufNo) (err : Bool) : Buf U :=
  { s.buf b with
    data := if !(s.buf b).dirty && !err then s.transferred else (s.buf b).data
    valid := true
    dirty := false }

/-- `ideintr`, at the end of the command of the device. -/
def ideintr (s : State U) (err : Bool) : State U :=
  match s.idequeue with
  | none => s.finish
  | some b =>
    let s₁ := { s.finish.setBuf b (s.completed b err) with idequeue := s.qnext b }
    match s.qnext b with
    | none => s₁
    | some c => s₁.idestart c

/-- The queue with one more request. -/
def append (s : State U) (b : BufNo) : State U :=
  let qnext := update s.qnext b none
  match s.idequeue with
  | none => { s with qnext := qnext, idequeue := some b }
  | some a => { s with qnext := update qnext (walk qnext NBUF a) (some b) }

section Equations

variable {s : State U} {a b c : BufNo} {err : Bool}

theorem append_empty (h : s.idequeue = none) :
    s.append b = { s with qnext := update s.qnext b none, idequeue := some b } := by
  unfold append
  rw [h]

theorem append_queue (h : s.idequeue = some a) :
    s.append b = { s with
      qnext := update (update s.qnext b none) (walk (update s.qnext b none) NBUF a) (some b) } := by
  unfold append
  simp only [h]

theorem ideintr_none (h : s.idequeue = none) : s.ideintr err = s.finish := by
  unfold ideintr
  rw [h]

theorem ideintr_last (h : s.idequeue = some b) (hnext : s.qnext b = none) :
    s.ideintr err = { s.finish.setBuf b (s.completed b err) with idequeue := none } := by
  unfold ideintr
  rw [h]
  simp only [hnext]

theorem ideintr_next (h : s.idequeue = some b) (hnext : s.qnext b = some c) :
    s.ideintr err =
      State.idestart { s.finish.setBuf b (s.completed b err) with idequeue := some c } c := by
  unfold ideintr
  rw [h]
  simp only [hnext]

end Equations

variable [DecidableEq U]

/-- `iderw`, up to the first `sleep`. -/
def iderw (s : State U) (u : U) (b : BufNo) : State U :=
  if (s.buf b).lock ≠ some u then s.panic .notLocked
  else if (s.buf b).valid ∧ !(s.buf b).dirty then s.panic .nothingToDo
  else if (s.buf b).dev ≠ 0 ∧ !s.havedisk1 then s.panic .noDisk1
  else
    let s₁ := s.append b
    let s₂ := if s₁.idequeue = some b then s₁.idestart b else s₁
    { s₂ with sleeping := update s₂.sleeping u (some b) }

/-- Before the first request: no buffer is used. -/
def init (havedisk1 : Bool) (disk : UInt32 → ℕ → Block) : State U where
  buf _ := ⟨false, false, 0, 0, none, 0, Block.zero⟩
  qnext _ := none
  idequeue := none
  havedisk1 := havedisk1
  disk := disk
  active := none
  started := []
  sleeping _ := none
  halted := none

end State

variable {U : Type} [DecidableEq U]

/-- A step. A client that sleeps in `iderw` does nothing else, and only a read fails. -/
inductive Step : State U → Event U → State U → Prop
  /-- A buffer that nobody uses is taken for another block. -/
  | bget {s : State U} {b : BufNo} (dev : UInt32) (blockno : ℕ) (halted : s.halted = none)
      (lock : (s.buf b).lock = none) (dirty : (s.buf b).dirty = false) :
      Step s (.bget b dev blockno) (s.setBuf b
        { s.buf b with dev := dev, blockno := blockno, valid := false, dirty := false })
  /-- The sleep lock is free. -/
  | acquire {s : State U} {u : U} {b : BufNo} (halted : s.halted = none)
      (awake : s.sleeping u = none) (lock : (s.buf b).lock = none) :
      Step s (.acquire u b) (s.setBuf b { s.buf b with lock := some u })
  /-- The client has the sleep lock. -/
  | modify {s : State U} {u : U} {b : BufNo} (data : Block) (dirty : Bool)
      (halted : s.halted = none) (awake : s.sleeping u = none)
      (lock : (s.buf b).lock = some u) :
      Step s (.modify u b data dirty) (s.setBuf b
        { s.buf b with data := data, dirty := (s.buf b).dirty || dirty })
  /-- The client has the sleep lock. -/
  | release {s : State U} {u : U} {b : BufNo} (halted : s.halted = none)
      (awake : s.sleeping u = none) (lock : (s.buf b).lock = some u) :
      Step s (.release u b) (s.setBuf b { s.buf b with lock := none })
  /-- The client has the sleep lock. -/
  | iderw {s : State U} {u : U} {b : BufNo} (halted : s.halted = none)
      (awake : s.sleeping u = none) (lock : (s.buf b).lock = some u) :
      Step s (.iderw u b) (s.iderw u b)
  /-- The device ends what it is at. -/
  | intr {s : State U} {err : Bool} (halted : s.halted = none)
      (read : err = true → ∃ d n, s.active = some (.read d n)) :
      Step s (.intr s.idequeue err) (s.ideintr err)
  /-- The flags are `B_VALID` alone. -/
  | wake {s : State U} {u : U} {b : BufNo} (halted : s.halted = none)
      (asleep : s.sleeping u = some b)
      (flags : (s.buf b).valid = true ∧ (s.buf b).dirty = false) :
      Step s (.wake u b) { s with sleeping := update s.sleeping u none }

end ChronoFS.Ide
