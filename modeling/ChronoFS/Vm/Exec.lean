import ChronoFS.Vm.Model

/-!
# `growproc` of `proc.c` and `exec.c`

A process has a page directory, a size, a name and a trap frame, of which `exec` sets two registers.
`growproc` and `exec` are given the current process and return it as they leave it, with the result of
the call. The file is locked while `exec` reads it, so it is its contents. Where the source jumps to
`bad`, the parts of `exec` return `none`.
-/

namespace ChronoFS.Vm

open Bytes

/-- A process, as far as its memory is concerned. -/
structure Proc where
  /-- `pgdir`. -/
  pgdir : ℕ
  /-- `sz`. -/
  sz : ℕ
  /-- `tf->eip`. -/
  eip : UInt32
  /-- `tf->esp`. -/
  esp : ℕ
  /-- `name`. -/
  name : List UInt8
  deriving DecidableEq

/-- An integer as a `uint`. -/
def uint (x : ℤ) : ℕ := (x % WORD).toNat

/-- `growproc`. -/
def growproc (curproc : Proc) (n : ℤ) : VmM (Proc × ℤ) := do
  let sz := curproc.sz
  if 0 < n then
    let sz ← allocuvm curproc.pgdir sz (uint (sz + n))
    if sz = 0 then return (curproc, -1) else return ({ curproc with sz }, 0)
  else if n < 0 then
    let sz ← deallocuvm curproc.pgdir sz (uint (sz + n))
    if sz = 0 then return (curproc, -1) else return ({ curproc with sz }, 0)
  else return ({ curproc with sz }, 0)

/-! ## `elf.h` -/

/-- `ELF_MAGIC`. -/
abbrev ELF_MAGIC : UInt32 := 0x464C457F
/-- `ELF_PROG_LOAD`. -/
abbrev ELF_PROG_LOAD : UInt32 := 1
/-- `sizeof(struct elfhdr)`. -/
abbrev ELFHDR_SIZE : ℕ := 52
/-- `sizeof(struct proghdr)`. -/
abbrev PROGHDR_SIZE : ℕ := 32
/-- Maximum number of `exec` arguments. -/
abbrev MAXARG : ℕ := 32

/-- `struct elfhdr`, the fields that `exec` reads. -/
structure Elfhdr where
  /-- `magic`. -/
  magic : UInt32
  /-- `entry`. -/
  entry : UInt32
  /-- `phoff`. -/
  phoff : UInt32
  /-- `phnum`. -/
  phnum : UInt16

/-- `struct proghdr`, the fields that `exec` reads. -/
structure Proghdr where
  /-- `type`. -/
  type : UInt32
  /-- `off`. -/
  off : UInt32
  /-- `vaddr`. -/
  vaddr : UInt32
  /-- `filesz`. -/
  filesz : UInt32
  /-- `memsz`. -/
  memsz : UInt32

/-- The header in the bytes of the file. -/
def Elfhdr.ofBytes (l : List UInt8) : Elfhdr :=
  let f := fun j => l.getD j 0
  ⟨le32 f 0, le32 f 24, le32 f 28, le16 f 44⟩

/-- A program header in its bytes. -/
def Proghdr.ofBytes (l : List UInt8) : Proghdr :=
  let f := fun j => l.getD j 0
  ⟨le32 f 0, le32 f 4, le32 f 8, le32 f 16, le32 f 20⟩

/-- `readi` of a structure of `n` bytes, or `none` if there are not so many. -/
def readStruct (ip : File) (off n : ℕ) : Option (List UInt8) :=
  (readi ip off n).filter fun bytes => bytes.length = n

/-! ## `exec` -/

/-- One pass of the loop over the program headers: the new size. -/
def loadSegment (pgdir : ℕ) (ip : File) (ph : Proghdr) (sz : ℕ) : VmM (Option ℕ) := do
  if ph.type ≠ ELF_PROG_LOAD then return some sz
  else if ph.memsz < ph.filesz then return none
  else if ph.vaddr + ph.memsz < ph.vaddr then return none
  else
    let sz ← allocuvm pgdir sz (ph.vaddr + ph.memsz).toNat
    if sz = 0 then return none
    else if ph.vaddr.toNat % PGSIZE ≠ 0 then return none
    else
      let r ← loaduvm pgdir ph.vaddr.toNat ip ph.off.toNat ph.filesz.toNat
      if r < 0 then return none else return some sz

/-- The loop over the program headers, of which `left` are left. -/
def loadSegments (pgdir : ℕ) (ip : File) : (left off sz : ℕ) → VmM (Option ℕ)
  | 0, _, sz => return some sz
  | left + 1, off, sz => do
    match readStruct ip off PROGHDR_SIZE with
    | none => return none
    | some bytes =>
      match ← loadSegment pgdir ip (.ofBytes bytes) sz with
      | none => return none
      | some sz => loadSegments pgdir ip left ((off + PROGHDR_SIZE) % WORD) sz

/-- The two pages for the stack, of which the first is made inaccessible. -/
@[irreducible]
def allocStack (pgdir sz : ℕ) : VmM (Option ℕ) := do
  let sz := PGROUNDUP sz
  let sz ← allocuvm pgdir sz ((sz + 2 * PGSIZE) % WORD)
  if sz = 0 then return none
  else
    clearpteu pgdir (uint (sz - 2 * PGSIZE))
    return some sz

/-- Where a string is put on the stack: `(sp - (strlen(s) + 1)) & ~3`. -/
def pushed (sp : ℕ) (s : List UInt8) : ℕ := uint (sp - (s.length + 1)) / 4 * 4

/-- The loop that pushes the argument strings; `ustack` holds the pointers to those pushed. -/
def pushStrings (pgdir : ℕ) : (argv : List (List UInt8)) → (sp : ℕ) → (ustack : List ℕ) →
    VmM (Option (ℕ × List ℕ))
  | [], sp, ustack => return some (sp, ustack)
  | s :: argv, sp, ustack => do
    if MAXARG ≤ ustack.length then return none
    else
      let sp := pushed sp s
      let r ← copyout pgdir sp (s ++ [0])
      if r < 0 then return none else pushStrings pgdir argv sp (ustack ++ [sp])

/-- The bytes of an array of `uint`. -/
def wordBytes (l : List ℕ) : List UInt8 := l.flatMap fun w => (List.range 4).map (byte32 (.ofNat w))

/-- The words of `ustack` for the pointers to the strings: fake return PC, `argc`, `argv` pointer, the
pointers and `0`. -/
def ustackWords (sp : ℕ) (ptrs : List ℕ) : List ℕ :=
  [0xffffffff, ptrs.length, uint (sp - (ptrs.length + 1) * 4)] ++ ptrs ++ [0]

/-- Push the argument strings and the rest of the stack: the new `sp`. -/
def pushArgs (pgdir : ℕ) (argv : List (List UInt8)) (sp : ℕ) : VmM (Option ℕ) := do
  match ← pushStrings pgdir argv sp [] with
  | none => return none
  | some (sp, ptrs) =>
    let sp' := uint (sp - (3 + ptrs.length + 1) * 4)
    let r ← copyout pgdir sp' (wordBytes (ustackWords sp ptrs))
    if r < 0 then return none else return some sp'

/-- The part of the path after the last slash. -/
def lastComponent (path : List UInt8) : List UInt8 := (path.reverse.takeWhile (· ≠ 47)).reverse

/-- The new image in the page directory: its size and `sp`. -/
def buildImage (pgdir : ℕ) (ip : File) (elf : Elfhdr) (argv : List (List UInt8)) :
    VmM (Option (ℕ × ℕ)) := do
  match ← loadSegments pgdir ip elf.phnum.toNat elf.phoff.toNat 0 with
  | none => return none
  | some sz =>
    match ← allocStack pgdir sz with
    | none => return none
    | some sz =>
      match ← pushArgs pgdir argv sz with
      | none => return none
      | some sp => return some (sz, sp)

/-- `exec` of the file that `namei` finds. -/
def exec (curproc : Proc) (ip : Option File) (path : List UInt8) (argv : List (List UInt8)) :
    VmM (Proc × ℤ) := do
  match ip with
  | none => return (curproc, -1)
  | some ip =>
    match readStruct ip 0 ELFHDR_SIZE with
    | none => return (curproc, -1)
    | some bytes =>
      let elf := Elfhdr.ofBytes bytes
      if elf.magic ≠ ELF_MAGIC then return (curproc, -1)
      else
        match ← setupkvm with
        | none => return (curproc, -1)
        | some pgdir =>
          match ← buildImage pgdir ip elf argv with
          | none =>
            freevm pgdir
            return (curproc, -1)
          | some (sz, sp) =>
            freevm curproc.pgdir
            return (⟨pgdir, sz, elf.entry, sp, (lastComponent path).take 15⟩, 0)

end ChronoFS.Vm
