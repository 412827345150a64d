import ChronoFS.Kernel.Sysfile

/-!
# `proc.c` and `exec.c`, as far as the file system is concerned

Memory is not modelled: whether an allocation of pages succeeds is an argument.
-/

namespace ChronoFS

open Function (update)
open Bytes

/-- `initproc`. -/
abbrev INITPROC : ProcNo := 0

/-- The loop of `fork` over the open files. -/
def dupFiles (p np : ProcNo) (i : Fin NOFILE) : KM Unit := do
  let pr ← proc p
  match pr.ofile i with
  | none => return
  | some f =>
    filedup f
    setProc np fun pr => { pr with ofile := update pr.ofile i (some f) }

/-- `idup(curproc->cwd)`. -/
def idupCwd : Option Slot → FsM Slot
  | none => throw .fault
  | some k => idup k

/-- `fork`: `mem` says whether there is memory for the kernel stack and the copy of the image. -/
def fork (p : ProcNo) (mem : Bool) : KM ℤ := do
  let s ← get
  match (List.finRange NPROC).find? fun np => (s.proc np).state = .unused with
  | none => return -1
  | some np =>
    if mem then
      setProc np fun pr => { pr with parent := some p }
      (List.finRange NOFILE).forM (dupFiles p np)
      let pr ← proc p
      let cwd ← idupCwd pr.cwd
      setProc np fun pr => { pr with cwd := some cwd, state := .runnable }
      return np
    else return -1

/-- The loop of `exit` over the open files. -/
def closeFile (p : ProcNo) (fd : Fin NOFILE) : KM Unit := do
  let pr ← proc p
  match pr.ofile fd with
  | none => return
  | some f =>
    fileclose f
    setProc p fun pr => { pr with ofile := update pr.ofile fd none }

/-- `exit`. -/
def exit (p : ProcNo) : KM Unit := do
  if p = INITPROC then throw (.panic .initExiting)
  else
    (List.finRange NOFILE).forM (closeFile p)
    let pr ← proc p
    beginOp
    iputCwd pr.cwd
    endOp
    setProc p fun pr => { pr with cwd := none, state := .zombie }
    -- pass abandoned children to init
    modify fun s => { s with proc := fun q =>
      if (s.proc q).parent = some p then { s.proc q with parent := some INITPROC } else s.proc q }

/-- `wait`: without an exited child the process sleeps; `killed` is the flag of the process. -/
def wait (p : ProcNo) (killed : Bool) : KM ℤ := do
  let s ← get
  match (List.finRange NPROC).find? fun q =>
      (s.proc q).parent = some p ∧ (s.proc q).state = .zombie with
  | some q =>
    setProc q fun pr => { pr with parent := none, state := .unused }
    return q
  | none =>
    if killed ∨ ∀ q, (s.proc q).parent ≠ some p then return -1 else throw .sleep

/-! ## `exec.c` -/

/-- `ELF_MAGIC`. -/
abbrev ELF_MAGIC : UInt32 := 0x464C457F

/-- `sizeof(struct elfhdr)`. -/
abbrev ELFHDR_SIZE : ℕ := 52

/-- `sizeof(struct proghdr)`. -/
abbrev PROGHDR_SIZE : ℕ := 32

/-- `PGSIZE`. -/
abbrev PGSIZE : ℕ := 4096

/-- `loaduvm`: read a segment page by page; `false` on a short read. The pages exist, since
`allocuvm` has made them. -/
def loaduvm (ip : Slot) (offset sz : UInt32) : List ℕ → FsM Bool
  | [] => return true
  | i :: is => do
    let n := min (sz.toNat - i) PGSIZE
    let r ← readi ip (offset + .ofNat i) (.ofNat n)
    if r.map List.length = some n then loaduvm ip offset sz is else return false

/-- The loop of `exec` over the program headers; `false` is `goto bad`. `mem` says which calls of
`allocuvm` succeed. -/
def loadProgram (ip : Slot) (mem : List Bool) : ℕ → UInt32 → FsM Bool
  | 0, _ => return true
  | phnum + 1, off => do
    let r ← readi ip off (.ofNat PROGHDR_SIZE)
    match r with
    | none => return false
    | some bytes =>
      let ph := le32 fun j => bytes.getD j 0
      if bytes.length ≠ PROGHDR_SIZE then return false
      else if ph 0 ≠ 1 then loadProgram ip mem phnum (off + .ofNat PROGHDR_SIZE)
      else if ph 20 < ph 16 ∨ ph 8 + ph 20 < ph 8 ∨ mem.head? ≠ some true ∨
          (ph 8).toNat % PGSIZE ≠ 0 then return false
      else
        let ok ← loaduvm ip (ph 4) (ph 16)
          ((List.range (((ph 16).toNat + (PGSIZE - 1)) / PGSIZE)).map (· * PGSIZE))
        if ok then loadProgram ip mem.tail phnum (off + .ofNat PROGHDR_SIZE) else return false

/-- `exec`, between `ilock` and `iunlockput`: check the header and load the program. -/
def loadElf (ip : Slot) (mem : List Bool) : FsM Bool := do
  let r ← readi ip 0 (.ofNat ELFHDR_SIZE)
  match r with
  | none => return false
  | some bytes =>
    let elf := fun j => bytes.getD j 0
    if bytes.length ≠ ELFHDR_SIZE ∨ le32 elf 0 ≠ ELF_MAGIC ∨ mem.head? ≠ some true then return false
    else loadProgram ip mem.tail (le16 elf 44).toNat (le32 elf 28)

/-- `exec`: `args` says whether the stack and the arguments fit. -/
def exec (cwd : Option Slot) : Option (List UInt8 × List Bool × Bool) → FsM ℤ
  | none => return -1
  | some (path, mem, args) => do
    beginOp
    let r ← namei cwd path
    match r with
    | none =>
      endOp
      return -1
    | some ip =>
      ilock ip
      let ok ← loadElf ip mem
      if ok then
        iunlockput ip
        endOp
        return if args then 0 else -1
      else putFail ip

end ChronoFS
