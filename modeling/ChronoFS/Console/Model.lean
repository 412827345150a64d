import ChronoFS.Lib.RingBuffer
import ChronoFS.Lib.Run

/-!
# The console input of `console.c`

The characters that are typed go into a ring buffer with three indices. From `r` to `w` are the bytes of
lines that readers may have, and from `w` to `e` the line that is still edited. `consoleintr` takes
the characters of one interrupt, and `consoleread` hands out bytes; both hold `cons.lock`. A process in
`consoleread` gives the lock up only while it sleeps, so a step of a process is its section from the call,
or from where `sleep` returns, to the next `sleep` or to the return.

What is printed is left out, as is `procdump`, and no process is killed.
-/

namespace ChronoFS.Console

open Function (update)

/-- `INPUT_BUF`. -/
abbrev INPUT_BUF : ℕ := 128

/-- `C(x)`: Control-x. -/
def C (x : Char) : UInt8 := .ofNat (x.toNat - '@'.toNat)

/-- A newline. -/
abbrev NL : UInt8 := 10

/-- A carriage return. -/
abbrev CR : UInt8 := 13

/-- The character `\x7f`. -/
abbrev DEL : UInt8 := 127

/-- `input`. -/
structure Input where
  /-- `buf`, with the read index `r` and the edit index `e`. -/
  buf : RingBuffer UInt8 INPUT_BUF
  /-- The write index. -/
  w : UInt32

namespace Input

/-- `input.r`. -/
abbrev r (i : Input) : UInt32 := i.buf.nread

/-- `input.e`. -/
abbrev e (i : Input) : UInt32 := i.buf.nwrite

/-- The bytes that readers may have, from `r` to `w`. -/
def pending (i : Input) : List UInt8 := i.buf.content.take (i.w - i.r).toNat

/-- The line that is edited, from `w` to `e`. -/
def edited (i : Input) : List UInt8 := i.buf.content.drop (i.w - i.r).toNat

/-- The loop for Control-U, which `n` passes end. -/
def killLine : (n : ℕ) → Input → Input
  | 0, i => i
  | n + 1, i =>
    if i.e ≠ i.w ∧ i.buf.back ≠ NL then killLine n { i with buf := i.buf.unpush } else i

/-- A character goes into the line, which is let out when it ends or when the buffer is full. -/
def put (i : Input) (c : UInt8) : Input × List UInt8 :=
  let i := { i with buf := i.buf.push c }
  if c = NL ∨ c = C 'D' ∨ i.e = i.r + .ofNat INPUT_BUF then ({ i with w := i.e }, i.edited)
  else (i, [])

/-- One character of `consoleintr`, with the bytes that it lets readers have, if any. -/
def intr (i : Input) (c : UInt8) : Input × List UInt8 :=
  if c = C 'P' then (i, [])
  else if c = C 'U' then (i.killLine (i.e - i.w).toNat, [])
  else if c = C 'H' ∨ c = DEL then
    if i.e ≠ i.w then ({ i with buf := i.buf.unpush }, []) else (i, [])
  else if c ≠ 0 ∧ (i.e - i.r).toNat < INPUT_BUF then i.put (if c = CR then NL else c)
  else (i, [])

/-- `consoleintr`, for the characters of one interrupt. -/
def consoleintr (i : Input) : List UInt8 → Input × List UInt8
  | [] => (i, [])
  | c :: cs => (consoleintr (i.intr c).1 cs).map id ((i.intr c).2 ++ ·)

end Input

/-- Where a process in `consoleread` is. -/
structure Reading where
  /-- `target`. -/
  target : ℕ
  /-- `n`. -/
  n : ℕ
  /-- The bytes that are in `dst` already. -/
  dst : List UInt8

/-- What a section of `consoleread` does. -/
structure Section where
  /-- The input after it. -/
  input : Input
  /-- The bytes that it took out. -/
  taken : List UInt8
  /-- The bytes in `dst`. -/
  dst : List UInt8
  /-- `n`, if it ends in `sleep`. -/
  asleep : Option ℕ

/-- The loop of `consoleread`, up to the next `sleep` or the return. -/
def consoleread (target : ℕ) : (n : ℕ) → Input → List UInt8 → Section
  | 0, i, dst => ⟨i, [], dst, none⟩
  | n + 1, i, dst =>
    if i.r = i.w then ⟨i, [], dst, some (n + 1)⟩
    else
      let c := i.buf.front
      let j := { i with buf := i.buf.pop }
      if c = C 'D' then
        -- save ^D for next time, to make sure the caller gets a 0-byte result
        if n + 1 < target then ⟨{ j with buf := { j.buf with nread := j.buf.nread - 1 } }, [], dst, none⟩
        else ⟨j, [c], dst, none⟩
      else if c = NL then ⟨j, [c], dst ++ [c], none⟩
      else
        let s := consoleread target n j (dst ++ [c])
        { s with taken := c :: s.taken }

/-- The console and the processes. -/
structure State where
  /-- The input. -/
  input : Input
  /-- The processes in `consoleread`. -/
  reading : ℕ → Option Reading
  /-- A process is `SLEEPING` on `&input.r`. -/
  asleep : ℕ → Bool

/-- The console after it has started. -/
def init : State := ⟨⟨⟨fun _ => 0, 0, 0⟩, 0⟩, fun _ => none, fun _ => false⟩

/-- What happens. -/
inductive Event
  /-- `consoleintr` with these characters, which let readers have these bytes. -/
  | intr (cs bytes : List UInt8)
  /-- Process `p` calls `consoleread` for `n` bytes. -/
  | call (p n : ℕ)
  /-- It runs a section of it, which takes bytes out and then sleeps. -/
  | sleep (p : ℕ) (taken : List UInt8)
  /-- It runs a section of it, which takes bytes out, and returns with bytes in `dst`. -/
  | ret (p : ℕ) (taken dst : List UInt8)

/-- A step. -/
inductive Step : State → Event → State → Prop
  /-- An interrupt; bytes for readers come with `wakeup`. -/
  | intr (s : State) (cs : List UInt8) : Step s (.intr cs (s.input.consoleintr cs).2)
      { s with
        input := (s.input.consoleintr cs).1
        asleep := if (s.input.consoleintr cs).2 = [] then s.asleep else fun _ => false }
  /-- A call with `n > 0`. -/
  | call (s : State) (p n : ℕ) (hp : s.reading p = none) (hn : 0 < n) :
      Step s (.call p n) { s with reading := update s.reading p (some ⟨n, n, []⟩) }
  /-- A section that ends in `sleep`. -/
  | sleep (s : State) (p : ℕ) (x : Reading) (n : ℕ) (hp : s.reading p = some x)
      (hawake : s.asleep p = false) (hn : (consoleread x.target x.n s.input x.dst).asleep = some n) :
      Step s (.sleep p (consoleread x.target x.n s.input x.dst).taken)
        { input := (consoleread x.target x.n s.input x.dst).input
          reading := update s.reading p
            (some { x with n, dst := (consoleread x.target x.n s.input x.dst).dst })
          asleep := update s.asleep p true }
  /-- A section that ends in the return. -/
  | ret (s : State) (p : ℕ) (x : Reading) (hp : s.reading p = some x) (hawake : s.asleep p = false)
      (hn : (consoleread x.target x.n s.input x.dst).asleep = none) :
      Step s (.ret p (consoleread x.target x.n s.input x.dst).taken
          (consoleread x.target x.n s.input x.dst).dst)
        { s with
          input := (consoleread x.target x.n s.input x.dst).input
          reading := update s.reading p none }

end ChronoFS.Console
