import ChronoFS.Lib.Bytes
import Mathlib.Logic.Function.Basic

/-!
# `kalloc.c` and `vm.c`: physical pages, page tables and user memory

Physical memory is a sequence of pages. `kalloc` and `kfree` manage those between the end of the kernel
and `PHYSTOP`; a page directory and the page tables that it lists are such pages, and so are the pages
of a user program. The functions are those of the source, in its order, on a state that holds the
contents of all pages and the free list.

A page is named by its number, the physical address divided by `PGSIZE`: `V2P` and `P2V` convert between
two names of one page, and a pointer that `kalloc` returns is the number of a page. A virtual address is
a `uint`, a number below `WORD`, and arithmetic on it wraps. A page table entry is a word of 32 bits in
its page, and is read and written as the record `Pte` of the bits that are used. The free list is
threaded through the free pages in the source; here it is a list.
-/

namespace ChronoFS.Vm

open Bytes
open Function (update)

/-! ## `memlayout.h` and `mmu.h` -/

/-- The number of values of a `uint`. -/
abbrev WORD : ℕ := 0x100000000
/-- Bytes mapped by a page. -/
abbrev PGSIZE : ℕ := 4096
/-- Entries of a page directory. -/
abbrev NPDENTRIES : ℕ := 1024
/-- Entries of a page table. -/
abbrev NPTENTRIES : ℕ := 1024
/-- Start of extended memory. -/
abbrev EXTMEM : ℕ := 0x100000
/-- Top of physical memory. -/
abbrev PHYSTOP : ℕ := 0xE000000
/-- Other devices are at high addresses. -/
abbrev DEVSPACE : ℕ := 0xFE000000
/-- First kernel virtual address. -/
abbrev KERNBASE : ℕ := 0x80000000
/-- Address where the kernel is linked. -/
abbrev KERNLINK : ℕ := KERNBASE + EXTMEM

/-- `PDX(va)`: page directory index. -/
def PDX (va : ℕ) : ℕ := va / (PGSIZE * NPTENTRIES) % NPDENTRIES

/-- `PTX(va)`: page table index. -/
def PTX (va : ℕ) : ℕ := va / PGSIZE % NPTENTRIES

/-- `PGADDR(d, 0, 0)`: the first address of a directory index. -/
def PGADDR (d : ℕ) : ℕ := d * (PGSIZE * NPTENTRIES) % WORD

/-- `PGROUNDUP(sz)`. -/
def PGROUNDUP (sz : ℕ) : ℕ := (sz + (PGSIZE - 1)) % WORD / PGSIZE * PGSIZE

/-- `PGROUNDDOWN(a)`. -/
def PGROUNDDOWN (a : ℕ) : ℕ := a / PGSIZE * PGSIZE

/-! ## Pages -/

/-- The contents of a page. -/
@[ext]
structure Page where
  /-- Its bytes, of which there are `PGSIZE`. -/
  byte : ℕ → UInt8

/-- A page table entry, or an entry of a page directory. -/
@[ext]
structure Pte where
  /-- `PTE_ADDR`, as the number of a page. -/
  frame : ℕ
  /-- `PTE_P`. -/
  present : Bool
  /-- `PTE_W`. -/
  writable : Bool
  /-- `PTE_U`. -/
  user : Bool
  deriving DecidableEq

namespace Pte

/-- The entry `0`. -/
def zero : Pte := ⟨0, false, false, false⟩

/-- The word of an entry. -/
def toWord (e : Pte) : UInt32 :=
  .ofNat (e.frame * PGSIZE + e.present.toNat + 2 * e.writable.toNat + 4 * e.user.toNat)

/-- The entry of a word. -/
def ofWord (w : UInt32) : Pte where
  frame := w.toNat / PGSIZE
  present := w.toNat.testBit 0
  writable := w.toNat.testBit 1
  user := w.toNat.testBit 2

end Pte

namespace Page

/-- `memset(v, c, PGSIZE)`. -/
def fill (c : UInt8) : Page := ⟨fun _ => c⟩

/-- `memmove(v + off, f, len)`. -/
def put (p : Page) (off len : ℕ) (f : ℕ → UInt8) : Page :=
  ⟨fun i => if off ≤ i ∧ i < off + len then f (i - off) else p.byte i⟩

/-- Entry `k` of the page, read as a page table. -/
def pte (p : Page) (k : ℕ) : Pte := .ofWord (le32 p.byte (4 * k))

/-- The page with entry `k` of the page table replaced. -/
def setPte (p : Page) (k : ℕ) (e : Pte) : Page := p.put (4 * k) 4 (byte32 e.toWord)

end Page

/-- The symbols of `kernel.ld`, as numbers of pages. -/
structure Ld where
  /-- `data`: the kernel's text and read-only data are before it. -/
  data : ℕ
  /-- `end`: the first page after the kernel. -/
  «end» : ℕ
  /-- The kernel's text is at `KERNLINK`. -/
  text_lt_data : EXTMEM / PGSIZE < data
  /-- The data is followed by the end. -/
  data_le_end : data ≤ «end»
  /-- The kernel leaves some of the physical memory. -/
  end_lt_phystop : «end» < PHYSTOP / PGSIZE

/-- Physical memory. -/
structure Mem where
  /-- Where the kernel is. -/
  ld : Ld
  /-- The contents of each page. -/
  page : ℕ → Page
  /-- `kmem.freelist`. -/
  freelist : List ℕ

/-- The ways in which the kernel stops. -/
inductive Panic
  /-- `"kfree"`. -/
  | kfree
  /-- `"remap"`. -/
  | remap
  /-- `"PHYSTOP too high"`. -/
  | phystop
  /-- `"loaduvm: addr must be page aligned"`. -/
  | loaduvmAligned
  /-- `"loaduvm: address should exist"`. -/
  | loaduvmExist
  /-- `"freevm: no pgdir"`. -/
  | freevm
  /-- `"clearpteu"`. -/
  | clearpteu
  /-- `*pte` is read where `walkpgdir` has returned `0`. -/
  | nullPte
  deriving DecidableEq

/-- A function of the kernel. -/
abbrev VmM := EStateM Panic Mem

/-- The page in the state. -/
def getPage (f : ℕ) : VmM Page := do
  let m ← get
  return m.page f

/-- A page of the state is changed. -/
def setPage (f : ℕ) (p : Page) : VmM Unit := modify fun m => { m with page := update m.page f p }

/-! ## `kalloc.c` -/

/-- `kfree`. -/
def kfree (v : ℕ) : VmM Unit := do
  let m ← get
  if v < m.ld.end ∨ PHYSTOP / PGSIZE ≤ v then throw .kfree
  else
    -- fill with junk to catch dangling refs
    setPage v (.fill 1)
    modify fun m => { m with freelist := v :: m.freelist }

/-- `kalloc`. -/
def kalloc : VmM (Option ℕ) := do
  let m ← get
  match m.freelist with
  | [] => return none
  | r :: next =>
    set { m with freelist := next }
    return some r

/-! ## Page tables -/

/-- `walkpgdir`: the address of the entry for `va`, as the page table and the index in it. -/
def walkpgdir (pgdir va : ℕ) (alloc : Bool) : VmM (Option (ℕ × ℕ)) := do
  let dir ← getPage pgdir
  let pde := dir.pte (PDX va)
  if pde.present then return some (pde.frame, PTX va)
  else if alloc = false then return none
  else
    match ← kalloc with
    | none => return none
    | some pgtab =>
      setPage pgtab (.fill 0)
      let dir ← getPage pgdir
      setPage pgdir (dir.setPte (PDX va) ⟨pgtab, true, true, true⟩)
      return some (pgtab, PTX va)

/-- `*pte`. -/
def getPte (pte : ℕ × ℕ) : VmM Pte := do
  let tab ← getPage pte.1
  return tab.pte pte.2

/-- `*pte = e`. -/
def setPte (pte : ℕ × ℕ) (e : Pte) : VmM Unit := do
  let tab ← getPage pte.1
  setPage pte.1 (tab.setPte pte.2 e)

/-- The permissions of a mapping. -/
structure Perm where
  /-- `PTE_W`. -/
  writable : Bool
  /-- `PTE_U`. -/
  user : Bool

/-- The loop of `mappages`, with `left` pages after the one at `a`. -/
def mapLoop (pgdir : ℕ) (perm : Perm) : (left a pa : ℕ) → VmM ℤ
  | left, a, pa => do
    match ← walkpgdir pgdir a true with
    | none => return -1
    | some pte =>
      let old ← getPte pte
      if old.present then throw .remap
      else
        setPte pte ⟨pa, true, perm.writable, perm.user⟩
        match left with
        | 0 => return 0
        | left + 1 => mapLoop pgdir perm left ((a + PGSIZE) % WORD) (pa + 1)

/-- `mappages`. -/
def mappages (pgdir va size pa : ℕ) (perm : Perm) : VmM ℤ :=
  let a := PGROUNDDOWN va
  let last := PGROUNDDOWN ((va + size + WORD - 1) % WORD)
  mapLoop pgdir perm ((last + WORD - a) % WORD / PGSIZE) a pa

/-- The loop of `deallocuvm`; each pass moves `a` up by a page at least. -/
def deallocLoop (pgdir oldsz : ℕ) : (fuel a : ℕ) → VmM Unit
  | 0, _ => return
  | fuel + 1, a => do
    if a < oldsz then
      match ← walkpgdir pgdir a false with
      | none => deallocLoop pgdir oldsz fuel (PGADDR (PDX a + 1))
      | some pte =>
        let e ← getPte pte
        if e.present then
          if e.frame = 0 then throw .kfree
          else
            kfree e.frame
            setPte pte .zero
        deallocLoop pgdir oldsz fuel ((a + PGSIZE) % WORD)
    else return

/-- `deallocuvm`. -/
def deallocuvm (pgdir oldsz newsz : ℕ) : VmM ℕ := do
  if oldsz ≤ newsz then return oldsz
  else
    deallocLoop pgdir oldsz (oldsz / PGSIZE + 1) (PGROUNDUP newsz)
    return newsz

/-- `freevm`. -/
def freevm (pgdir : ℕ) : VmM Unit := do
  if pgdir = 0 then throw .freevm
  else
    let _ ← deallocuvm pgdir KERNBASE 0
    (List.range NPDENTRIES).forM fun i => do
      let dir ← getPage pgdir
      let pde := dir.pte i
      if pde.present then kfree pde.frame
    kfree pgdir

/-- A line of `kmap`. -/
structure Kmap where
  /-- `virt`. -/
  virt : ℕ
  /-- `phys_start`, as the number of a page. -/
  physStart : ℕ
  /-- `phys_end - phys_start`, a `uint`. -/
  size : ℕ
  /-- `perm & PTE_W`. -/
  writable : Bool

/-- `kmap`: the kernel's mappings, which are present in every process's page table. -/
def kmap (ld : Ld) : List Kmap :=
  [⟨KERNBASE, 0, EXTMEM, true⟩,
    ⟨KERNLINK, EXTMEM / PGSIZE, ld.data * PGSIZE - EXTMEM, false⟩,
    ⟨KERNBASE + ld.data * PGSIZE, ld.data, PHYSTOP - ld.data * PGSIZE, true⟩,
    ⟨DEVSPACE, DEVSPACE / PGSIZE, WORD - DEVSPACE, true⟩]

/-- The loop of `setupkvm`. -/
def mapKernel (pgdir : ℕ) : List Kmap → VmM (Option ℕ)
  | [] => return some pgdir
  | k :: ks => do
    let r ← mappages pgdir k.virt k.size k.physStart ⟨k.writable, false⟩
    if r < 0 then
      freevm pgdir
      return none
    else mapKernel pgdir ks

/-- `setupkvm`. -/
def setupkvm : VmM (Option ℕ) := do
  match ← kalloc with
  | none => return none
  | some pgdir =>
    setPage pgdir (.fill 0)
    if DEVSPACE < KERNBASE + PHYSTOP then throw .phystop
    else
      let m ← get
      mapKernel pgdir (kmap m.ld)

/-! ## User memory -/

/-- The loop of `allocuvm`, with `left` pages to allocate from `a` on. -/
def allocLoop (pgdir oldsz newsz : ℕ) : (left a : ℕ) → VmM ℕ
  | 0, _ => return newsz
  | left + 1, a => do
    match ← kalloc with
    | none =>
      let _ ← deallocuvm pgdir newsz oldsz
      return 0
    | some mem =>
      setPage mem (.fill 0)
      let r ← mappages pgdir a PGSIZE mem ⟨true, true⟩
      if r < 0 then
        let _ ← deallocuvm pgdir newsz oldsz
        kfree mem
        return 0
      else allocLoop pgdir oldsz newsz left ((a + PGSIZE) % WORD)

/-- `allocuvm`. -/
def allocuvm (pgdir oldsz newsz : ℕ) : VmM ℕ := do
  if KERNBASE ≤ newsz then return 0
  else if newsz < oldsz then return oldsz
  else
    let a := PGROUNDUP oldsz
    allocLoop pgdir oldsz newsz ((newsz - a + (PGSIZE - 1)) / PGSIZE) a

/-- A regular file that is locked. -/
structure File where
  /-- Its contents. -/
  bytes : List UInt8
  /-- The size of a file is a `uint`. -/
  small : bytes.length < WORD

/-- `readi` of a regular file: the bytes that it copies, or `none` where it returns `-1`. -/
def readi (ip : File) (off n : ℕ) : Option (List UInt8) :=
  if ip.bytes.length < off ∨ WORD ≤ off + n then none else some ((ip.bytes.drop off).take n)

/-- The loop of `loaduvm`, with `left` pages to load from `addr + i` on. -/
def loadLoop (pgdir addr : ℕ) (ip : File) (offset sz : ℕ) : (left i : ℕ) → VmM ℤ
  | 0, _ => return 0
  | left + 1, i => do
    match ← walkpgdir pgdir ((addr + i) % WORD) false with
    | none => throw .loaduvmExist
    | some pte =>
      let e ← getPte pte
      let n := min (sz - i) PGSIZE
      match readi ip ((offset + i) % WORD) n with
      | none => return -1
      | some bytes =>
        let p ← getPage e.frame
        setPage e.frame (p.put 0 bytes.length fun j => bytes.getD j 0)
        if bytes.length ≠ n then return -1
        else loadLoop pgdir addr ip offset sz left (i + PGSIZE)

/-- `loaduvm`. -/
def loaduvm (pgdir addr : ℕ) (ip : File) (offset sz : ℕ) : VmM ℤ := do
  if addr % PGSIZE ≠ 0 then throw .loaduvmAligned
  else loadLoop pgdir addr ip offset sz ((sz + (PGSIZE - 1)) / PGSIZE) 0

/-- `clearpteu`. -/
def clearpteu (pgdir uva : ℕ) : VmM Unit := do
  match ← walkpgdir pgdir uva false with
  | none => throw .clearpteu
  | some pte =>
    let e ← getPte pte
    setPte pte { e with user := false }

/-- `uva2ka`: the page of a user address. -/
def uva2ka (pgdir uva : ℕ) : VmM (Option ℕ) := do
  match ← walkpgdir pgdir uva false with
  | none => throw .nullPte
  | some pte =>
    let e ← getPte pte
    if e.present = false then return none
    else if e.user = false then return none
    else return some e.frame

/-- The loop of `copyout`; each pass copies a byte at least. -/
def copyoutLoop (pgdir : ℕ) : (fuel va : ℕ) → List UInt8 → VmM ℤ
  | 0, _, _ => return 0
  | fuel + 1, va, buf => do
    if buf = [] then return 0
    else
      let va0 := PGROUNDDOWN va
      match ← uva2ka pgdir va0 with
      | none => return -1
      | some pa0 =>
        let n := min (PGSIZE - (va - va0)) buf.length
        let p ← getPage pa0
        setPage pa0 (p.put (va - va0) n fun j => buf.getD j 0)
        copyoutLoop pgdir fuel ((va0 + PGSIZE) % WORD) (buf.drop n)

/-- `copyout`. -/
def copyout (pgdir va : ℕ) (p : List UInt8) : VmM ℤ := copyoutLoop pgdir p.length va p

end ChronoFS.Vm
