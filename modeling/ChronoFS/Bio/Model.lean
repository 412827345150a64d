import ChronoFS.Block
import ChronoFS.Lib.Links
import ChronoFS.Lib.Run

/-!
# The buffer cache as a transition system

`bread`, `bwrite` and `brelse` of `bio.c` with `iderw` of `memide.c`, and what `log_write` does to a
buffer, by any number of clients in any interleaving. A client is a process in one use of a buffer,
from its call of `bread` to its `brelse`; a process that has two buffers at a time, as in
`write_log`, is two clients. `commit` and recovery use the cache by the same calls.

A step is a section under `bcache.lock`, `acquiresleep`, `releasesleep`, or an access to a buffer by
the client that holds its sleep lock: `bget` is two steps, `bread` a third one, and `brelse` is two
steps. The header of the log, which `log_write` changes too, is in `Log/Model.lean`.
-/

namespace ChronoFS.Bio

open Function (update)

/-- A buffer. -/
abbrev BufNo := Fin NBUF

/-- A node of the list of buffers; `none` is `bcache.head`. -/
abbrev Node := Option BufNo

/-- The panics of the cache and of the disk. -/
inductive Panic
  /-- `"bget: no buffers"`. -/
  | bget
  /-- `"bwrite"`. -/
  | bwrite
  /-- `"brelse"`. -/
  | brelse
  /-- `"iderw: buf not locked"`. -/
  | notLocked
  /-- `"iderw: nothing to do"`. -/
  | nothingToDo
  /-- `"iderw: request not for disk 1"`. -/
  | notDisk1
  /-- `"iderw: block out of range"`. -/
  | outOfRange
  deriving DecidableEq

/-- Where a client is. -/
inductive Client
  /-- In no use of a buffer. -/
  | idle
  /-- In `bget` for a block: it has the buffer, and waits for the sleep lock. -/
  | waiting (b : BufNo) (blockno : ℕ)
  /-- In `bread`, with the sleep lock. -/
  | locked (b : BufNo) (blockno : ℕ)
  /-- After `bread`; it may have modified the data since it last logged or wrote the buffer. -/
  | holding (b : BufNo) (blockno : ℕ) (modified : Bool)
  /-- In `brelse`, after `releasesleep`. -/
  | releasing (b : BufNo) (blockno : ℕ)
  deriving DecidableEq

/-- The buffer and the block of a use. -/
def Client.use : Client → Option (BufNo × ℕ)
  | .idle => none
  | .waiting b n | .locked b n | .holding b n _ | .releasing b n => some (b, n)

/-- The buffer whose sleep lock the client holds. -/
def Client.lock : Client → Option BufNo
  | .locked b _ | .holding b _ _ => some b
  | _ => none

/-- `struct buf`. -/
structure Buf (U : Type) where
  /-- `flags & B_VALID`. -/
  valid : Bool
  /-- `flags & B_DIRTY`. -/
  dirty : Bool
  /-- `dev`. -/
  dev : UInt32
  /-- `blockno`. -/
  blockno : ℕ
  /-- The client that holds `lock`. -/
  lock : Option U
  /-- `refcnt`. -/
  refcnt : ℕ
  /-- `data`. -/
  data : Block

/-- `bcache`, the disk and the clients. -/
structure Cache (U : Type) where
  /-- `bcache.buf`. -/
  buf : BufNo → Buf U
  /-- `prev` and `next`. -/
  links : Links Node
  /-- `memdisk`. -/
  disk : ℕ → Block
  /-- Where the clients are. -/
  client : U → Client
  /-- The kernel has panicked. -/
  halted : Option Panic

namespace Cache

variable {U : Type} [DecidableEq U]

/-- Change a buffer. -/
def setBuf (s : Cache U) (b : BufNo) (f : Buf U) : Cache U := { s with buf := update s.buf b f }

/-- The client goes on. -/
def goto (s : Cache U) (u : U) (c : Client) : Cache U := { s with client := update s.client u c }

/-- `panic`. -/
def panic (s : Cache U) (p : Panic) : Cache U := { s with halted := some p }

/-- The first loop of `bget`: the block is cached. -/
def cached (s : Cache U) (blockno : ℕ) : Option Node :=
  Links.scan s.links.next none (fun n => n.any fun b =>
    (s.buf b).dev = ROOTDEV && (s.buf b).blockno = blockno) (NBUF + 1) none

/-- The second loop of `bget`: the buffer is not in use. -/
def unused (s : Cache U) : Option Node :=
  Links.scan s.links.prev none (fun n => n.any fun b =>
    (s.buf b).refcnt = 0 && !(s.buf b).dirty) (NBUF + 1) none

/-- `bget`, up to `acquiresleep`. -/
def bget (s : Cache U) (u : U) (blockno : ℕ) : Cache U :=
  match s.cached blockno with
  | some (some b) =>
    (s.setBuf b { s.buf b with refcnt := (s.buf b).refcnt + 1 }).goto u (.waiting b blockno)
  | _ =>
    match s.unused with
    | some (some b) =>
      (s.setBuf b { s.buf b with
        dev := ROOTDEV, blockno := blockno, valid := false, dirty := false, refcnt := 1 }).goto u
          (.waiting b blockno)
    | _ => s.panic .bget

/-- `acquiresleep`, when the lock is free. -/
def acquire (s : Cache U) (u : U) (b : BufNo) (blockno : ℕ) : Cache U :=
  (s.setBuf b { s.buf b with lock := some u }).goto u (.locked b blockno)

/-- `iderw`, on a disk of `disksize` blocks. -/
def iderw (s : Cache U) (disksize : ℕ) (u : U) (b : BufNo) : Cache U :=
  if (s.buf b).lock ≠ some u then s.panic .notLocked
  else if (s.buf b).valid ∧ (s.buf b).dirty = false then s.panic .nothingToDo
  else if (s.buf b).dev ≠ ROOTDEV then s.panic .notDisk1
  else if disksize ≤ (s.buf b).blockno then s.panic .outOfRange
  else if (s.buf b).dirty then
    { s.setBuf b { s.buf b with dirty := false, valid := true } with
      disk := update s.disk (s.buf b).blockno (s.buf b).data }
  else s.setBuf b { s.buf b with data := s.disk (s.buf b).blockno, valid := true }

/-- `bread`, after `bget`. -/
def bread (s : Cache U) (disksize : ℕ) (u : U) (b : BufNo) (blockno : ℕ) : Cache U :=
  let s := if (s.buf b).valid then s else s.iderw disksize u b
  if s.halted = none then s.goto u (.holding b blockno false) else s

/-- The client modifies the data. -/
def modify (s : Cache U) (u : U) (b : BufNo) (blockno : ℕ) (d : Block) : Cache U :=
  (s.setBuf b { s.buf b with data := d }).goto u (.holding b blockno true)

/-- `log_write`. -/
def logWrite (s : Cache U) (u : U) (b : BufNo) (blockno : ℕ) : Cache U :=
  (s.setBuf b { s.buf b with dirty := true }).goto u (.holding b blockno false)

/-- `bwrite`. -/
def bwrite (s : Cache U) (disksize : ℕ) (u : U) (b : BufNo) (blockno : ℕ) : Cache U :=
  if (s.buf b).lock ≠ some u then s.panic .bwrite
  else
    let s := (s.setBuf b { s.buf b with dirty := true }).iderw disksize u b
    if s.halted = none then s.goto u (.holding b blockno false) else s

/-- `brelse`, up to `releasesleep`. -/
def unlock (s : Cache U) (u : U) (b : BufNo) (blockno : ℕ) : Cache U :=
  if (s.buf b).lock ≠ some u then s.panic .brelse
  else (s.setBuf b { s.buf b with lock := none }).goto u (.releasing b blockno)

/-- `brelse`, from `acquire(&bcache.lock)` on. -/
def brelse (s : Cache U) (u : U) (b : BufNo) : Cache U :=
  let s := s.setBuf b { s.buf b with refcnt := (s.buf b).refcnt - 1 }
  let s := if (s.buf b).refcnt = 0 then
      { s with links := (s.links.unlink (some b)).pushFront none (some b) }
    else s
  s.goto u .idle

/-- `binit`, on a disk with the given contents. -/
def binit (disk : ℕ → Block) : Cache U where
  buf _ := { valid := false, dirty := false, dev := 0, blockno := 0, lock := none, refcnt := 0,
             data := .zero }
  links := (List.finRange NBUF).foldl (fun k b => k.pushFront none (some b))
    ⟨fun _ => none, fun _ => none⟩
  disk := disk
  client _ := .idle
  halted := none

end Cache

/-- The steps of the clients. -/
inductive Event (U : Type)
  /-- `bget` finds or recycles a buffer for a block. -/
  | bget (u : U) (blockno : ℕ)
  /-- The client gets the sleep lock of its buffer. -/
  | acquire (u : U)
  /-- `bread` of a block returns data. -/
  | bread (u : U) (blockno : ℕ) (data : Block)
  /-- The client modifies the data. -/
  | modify (u : U) (data : Block)
  /-- `log_write` of a block with data. -/
  | logWrite (u : U) (blockno : ℕ) (data : Block)
  /-- `bwrite` of a block with data. -/
  | bwrite (u : U) (blockno : ℕ) (data : Block)
  /-- The client gives back the sleep lock. -/
  | unlock (u : U)
  /-- `brelse` returns. -/
  | brelse (u : U)
  /-- `bread` or `bwrite` panics. -/
  | panic (u : U)

/-- A step of a client, on a disk of `disksize` blocks. A client that has modified the data logs or
writes the buffer before it releases it. -/
inductive Step {U : Type} [DecidableEq U] (disksize : ℕ) : Cache U → Event U → Cache U → Prop
  | bget {s : Cache U} {u : U} (blockno : ℕ) (hhalt : s.halted = none)
      (h : s.client u = .idle) : Step disksize s (.bget u blockno) (s.bget u blockno)
  | acquire {s : Cache U} {u : U} {b : BufNo} {n : ℕ} (hhalt : s.halted = none)
      (h : s.client u = .waiting b n) (hlock : (s.buf b).lock = none) :
      Step disksize s (.acquire u) (s.acquire u b n)
  | bread {s : Cache U} {u : U} {b : BufNo} {n : ℕ} (hhalt : s.halted = none)
      (h : s.client u = .locked b n) (hret : (s.bread disksize u b n).halted = none) :
      Step disksize s (.bread u n ((s.bread disksize u b n).buf b).data) (s.bread disksize u b n)
  | breadPanic {s : Cache U} {u : U} {b : BufNo} {n : ℕ} (hhalt : s.halted = none)
      (h : s.client u = .locked b n) (hret : (s.bread disksize u b n).halted ≠ none) :
      Step disksize s (.panic u) (s.bread disksize u b n)
  | modify {s : Cache U} {u : U} {b : BufNo} {n : ℕ} {m : Bool} (d : Block)
      (hhalt : s.halted = none) (h : s.client u = .holding b n m) :
      Step disksize s (.modify u d) (s.modify u b n d)
  | logWrite {s : Cache U} {u : U} {b : BufNo} {n : ℕ} {m : Bool} (hhalt : s.halted = none)
      (h : s.client u = .holding b n m) :
      Step disksize s (.logWrite u n (s.buf b).data) (s.logWrite u b n)
  | bwrite {s : Cache U} {u : U} {b : BufNo} {n : ℕ} {m : Bool} (hhalt : s.halted = none)
      (h : s.client u = .holding b n m) (hret : (s.bwrite disksize u b n).halted = none) :
      Step disksize s (.bwrite u n (s.buf b).data) (s.bwrite disksize u b n)
  | bwritePanic {s : Cache U} {u : U} {b : BufNo} {n : ℕ} {m : Bool} (hhalt : s.halted = none)
      (h : s.client u = .holding b n m) (hret : (s.bwrite disksize u b n).halted ≠ none) :
      Step disksize s (.panic u) (s.bwrite disksize u b n)
  | unlock {s : Cache U} {u : U} {b : BufNo} {n : ℕ} (hhalt : s.halted = none)
      (h : s.client u = .holding b n false) : Step disksize s (.unlock u) (s.unlock u b n)
  | brelse {s : Cache U} {u : U} {b : BufNo} {n : ℕ} (hhalt : s.halted = none)
      (h : s.client u = .releasing b n) : Step disksize s (.brelse u) (s.brelse u b)

end ChronoFS.Bio
