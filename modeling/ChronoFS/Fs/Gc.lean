import ChronoFS.Fs.State

/-!
# The reference-count table of `gc.c`
-/

namespace ChronoFS

/-- The entry is valid and is for block `b`. -/
def BlockRefcount.covers (b : UInt32) (e : BlockRefcount) : Bool := e.valid && e.blockNum == b

/-- `bref_is_tracked`. -/
def brefIsTracked (b : UInt32) : FsM Bool := do
  let s ← get
  return s.refcounts.any (·.covers b)

/-- The first entry that satisfies `p`, with `f` applied to it, if there is one. -/
def modifyFirst {α : Type} (p : α → Bool) (f : α → α) : List α → Option (List α)
  | [] => none
  | a :: l => if p a then some (f a :: l) else (modifyFirst p f l).map (a :: ·)

/-- `bref_inc`: `bref_find_or_create`, then the increment. A full table is left alone. -/
def brefInc (b : UInt32) : FsM Unit :=
  modify fun s =>
    let fresh : BlockRefcount := ⟨b, 1, true⟩
    match modifyFirst (·.covers b) (fun e => { e with refcount := e.refcount + 1 }) s.refcounts with
    | some l => { s with refcounts := l }
    | none =>
      match modifyFirst (fun e => !e.valid) (fun _ => fresh) s.refcounts with
      | some l => { s with refcounts := l }
      | none =>
        if s.refcounts.length < MAX_REFCOUNT_ENTRIES then
          { s with refcounts := s.refcounts ++ [fresh] }
        else s

/-- The entry after `bref_dec`: it is marked invalid when its count reaches zero. -/
def BlockRefcount.dec (e : BlockRefcount) : BlockRefcount :=
  let count := if e.refcount > 0 then e.refcount - 1 else e.refcount
  { e with refcount := count, valid := count != 0 }

/-- `bref_dec`. -/
def brefDec (b : UInt32) : FsM UInt32 := do
  let s ← get
  match s.refcounts.find? (·.covers b) with
  | none => return 0
  | some e =>
    modify fun s =>
      { s with refcounts := (modifyFirst (·.covers b) .dec s.refcounts).getD s.refcounts }
    return e.dec.refcount

end ChronoFS
