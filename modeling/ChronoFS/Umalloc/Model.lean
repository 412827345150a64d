import ChronoFS.Lib.RingList
import Mathlib

/-!
# The memory allocator of user programs

`free`, `morecore` and `malloc` of `umalloc.c`. An address is a number of units of the size of a header,
since all blocks are aligned to headers; `mem` has what is at an address, read as a header. `sbrk`
is a parameter that may look at the whole heap. Loops have a number of passes that they may make, and a
result is `none` if it was too small.
-/

namespace ChronoFS.Umalloc

open Function (update)

/-- `sizeof(Header)`. -/
abbrev HEADER : ℕ := 8

/-- `Header`. -/
structure Header where
  /-- `s.ptr`. -/
  ptr : ℕ
  /-- `s.size`. -/
  size : ℕ

/-- What is at the addresses. -/
abbrev Mem := ℕ → Header

/-- A block that the program has got. -/
structure Live where
  /-- The address of its header. -/
  addr : ℕ
  /-- Its units, with the header. -/
  units : ℕ
  /-- What the program has asked for. -/
  nbytes : ℕ

/-- The heap of a program. -/
structure Heap where
  /-- The memory. -/
  mem : Mem
  /-- `freep`; `none` is the null pointer. -/
  freep : Option ℕ
  /-- The blocks that the program has got and not freed. -/
  live : List Live
  /-- What `sbrk` has returned: the first address and the number of units of each region. -/
  regions : List (ℕ × ℕ)

/-- The loop of `free` stops at `p`. -/
def stops (mem : Mem) (bp p : ℕ) : Bool :=
  (p < bp && bp < (mem p).ptr) || ((mem p).ptr ≤ p && (p < bp || bp < (mem p).ptr))

/-- `free` joins the block with the one after it, or lets it point there. -/
def joinUpper (mem : Mem) (bp p : ℕ) : Mem :=
  if bp + (mem bp).size = (mem p).ptr then
    update mem bp ⟨(mem (mem p).ptr).ptr, (mem bp).size + (mem (mem p).ptr).size⟩
  else update mem bp ⟨(mem p).ptr, (mem bp).size⟩

/-- `free` joins the block with the one before it, or lets that one point to it. -/
def joinLower (mem : Mem) (bp p : ℕ) : Mem :=
  if p + (mem p).size = bp then update mem p ⟨(mem bp).ptr, (mem p).size + (mem bp).size⟩
  else update mem p ⟨bp, (mem p).size⟩

namespace Heap

/-- `free`, for the block whose header is at `bp`. -/
def freeAt (s : Heap) (fuel bp : ℕ) : Option Heap :=
  match s.freep with
  | none => none
  | some f =>
    match RingList.find (fun p => (s.mem p).ptr) (stops s.mem bp) fuel f with
    | none => none
    | some p => some { s with mem := joinLower (joinUpper s.mem bp p) bp p, freep := some p }

/-- `free`. -/
def free (s : Heap) (fuel ap : ℕ) : Option Heap := s.freeAt fuel (ap - 1)

/-- `morecore`, with what it returns. -/
def morecore (s : Heap) (sbrk : Heap → ℕ → Option ℕ) (fuel nu : ℕ) : Option (Option ℕ × Heap) :=
  let nu := if nu < 4096 then 4096 else nu
  match sbrk s (nu * HEADER % 2 ^ 32) with
  | none => some (none, s)
  | some hp =>
    let s₁ := { s with
      mem := update s.mem hp { s.mem hp with size := nu }
      regions := (hp, nu * HEADER % 2 ^ 32 / HEADER) :: s.regions }
    match s₁.freeAt fuel hp with
    | none => none
    | some s₂ => some (s₂.freep, s₂)

/-- `malloc` takes the block at `p`, or the end of it. -/
def take (s : Heap) (nbytes nunits prevp p : ℕ) : Option ℕ × Heap :=
  if (s.mem p).size = nunits then
    (some (p + 1), { s with
      mem := update s.mem prevp { s.mem prevp with ptr := (s.mem p).ptr }
      freep := some prevp
      live := ⟨p, nunits, nbytes⟩ :: s.live })
  else
    let rest := (s.mem p).size - nunits
    let mem := update s.mem p { s.mem p with size := rest }
    (some (p + rest + 1), { s with
      mem := update mem (p + rest) { mem (p + rest) with size := nunits }
      freep := some prevp
      live := ⟨p + rest, nunits, nbytes⟩ :: s.live })

/-- The loop of `malloc`. -/
def mallocLoop (sbrk : Heap → ℕ → Option ℕ) (nbytes nunits : ℕ) :
    (fuel : ℕ) → (s : Heap) → (prevp p : ℕ) → Option (Option ℕ × Heap)
  | 0, _, _, _ => none
  | fuel + 1, s, prevp, p =>
    if nunits ≤ (s.mem p).size then some (s.take nbytes nunits prevp p)
    else if s.freep = some p then
      match s.morecore sbrk fuel nunits with
      | none => none
      | some (none, s₁) => some (none, s₁)
      | some (some q, s₁) => mallocLoop sbrk nbytes nunits fuel s₁ q (s₁.mem q).ptr
    else mallocLoop sbrk nbytes nunits fuel s p (s.mem p).ptr

/-- The units of a block for `nbytes` bytes. -/
def nunits (nbytes : ℕ) : ℕ := (nbytes + HEADER - 1) % 2 ^ 32 / HEADER + 1

/-- `malloc`; `base` is the address of the block with this name. -/
def malloc (s : Heap) (base : ℕ) (sbrk : Heap → ℕ → Option ℕ) (fuel nbytes : ℕ) :
    Option (Option ℕ × Heap) :=
  match s.freep with
  | some prevp => mallocLoop sbrk nbytes (nunits nbytes) fuel s prevp (s.mem prevp).ptr
  | none =>
    let s₁ := { s with mem := update s.mem base ⟨base, 0⟩, freep := some base }
    mallocLoop sbrk nbytes (nunits nbytes) fuel s₁ base (s₁.mem base).ptr

end Heap

/-- `sbrk` returns addresses after `base` and after what it has returned before, or fails. -/
def Fresh (base : ℕ) (sbrk : Heap → ℕ → Option ℕ) : Prop :=
  ∀ s n a, sbrk s n = some a → base < a ∧ ∀ r ∈ s.regions, r.1 + r.2 ≤ a

/-- What the program does. -/
inductive Event
  /-- `malloc`, with what it returns. -/
  | malloc (nbytes : ℕ) (ap : Option ℕ)
  /-- `free` of a block that it has. -/
  | free (b : Live)
  /-- It writes into its blocks. -/
  | store

/-- A step of a program that uses the allocator as it should. -/
inductive Step (base : ℕ) : Heap → Event → Heap → Prop
  /-- `malloc`. -/
  | malloc {s s' : Heap} {sbrk : Heap → ℕ → Option ℕ} {fuel nbytes : ℕ} {ap : Option ℕ} :
      nbytes < 2 ^ 30 → Fresh base sbrk → s.malloc base sbrk fuel nbytes = some (ap, s') →
      Step base s (.malloc nbytes ap) s'
  /-- `free` of a block that the program has. -/
  | free {s s' : Heap} {fuel : ℕ} {b : Live} {l₁ l₂ : List Live} : s.live = l₁ ++ b :: l₂ →
      s.free fuel (b.addr + 1) = some s' → Step base s (.free b) { s' with live := l₁ ++ l₂ }
  /-- What is in the blocks, after their headers, is the program's. -/
  | store {s : Heap} {mem : Mem} :
      (∀ u, (∀ b ∈ s.live, u ≤ b.addr ∨ b.addr + b.units ≤ u) → mem u = s.mem u) →
      Step base s .store { s with mem := mem }

/-- Before the first call. -/
def Heap.init (mem : Mem) : Heap := ⟨mem, none, [], []⟩

end ChronoFS.Umalloc
