import ChronoFS.Fs.Inode

/-!
# `fs.c`: directories and paths

A directory is a file of `struct dirent`s. `dirlookup`, `dirlink` and `isdirempty` (of `sysfile.c`)
each read its entries in turn until one passes a test; `direntScan` is that loop. A C string is the
list of its bytes before the terminating zero.
-/

namespace ChronoFS

/-- The offsets of the entries of a directory of `size` bytes, from `start`. -/
def direntOffsets (start size : ℕ) : List ℕ :=
  (List.range ((size - start + (DIRENT_SIZE - 1)) / DIRENT_SIZE)).map (start + DIRENT_SIZE * ·)

/-- Read entry after entry until one passes the test; a short read is the panic `p`. -/
def direntScan (dp : Slot) (p : Panic) (test : Dirent → Bool) :
    List ℕ → FsM (Option (ℕ × Dirent))
  | [] => return none
  | off :: offs => do
    let r ← readi dp (.ofNat off) (.ofNat DIRENT_SIZE)
    match r with
    | none => throw (.panic p)
    | some bytes =>
      if bytes.length ≠ DIRENT_SIZE then throw (.panic p)
      else
        let de := Dirent.read (fun j => bytes.getD j 0) 0
        if test de then return some (off, de) else direntScan dp p test offs

/-- `dirlookup`: look for a directory entry; with the inode, the byte offset of the entry. -/
def dirlookup (dp : Slot) (name : List UInt8) : FsM (Option (Slot × ℕ)) := do
  uses dp
  let ip ← inode dp
  if ip.din.type ≠ T_DIR then throw (.panic .dirlookupNotDir)
  else
    let r ← direntScan dp .dirlookupRead (fun de => de.inum != 0 && namecmp name de.name)
      (direntOffsets 0 ip.din.size.toNat)
    match r with
    | none => return none
    | some (off, de) =>
      let k ← iget ip.dev de.inum.toUInt32
      return some (k, off)

/-- `dirlink`: write a new directory entry into the directory; `false` if the name is present. -/
def dirlink (dp : Slot) (name : List UInt8) (inum : UInt32) : FsM Bool := do
  uses dp
  let present ← dirlookup dp name
  match present with
  | some (ip, _) =>
    iput ip
    return false
  | none =>
    let ip ← inode dp
    let r ← direntScan dp .dirlinkRead (fun de => de.inum == 0)
      (direntOffsets 0 ip.din.size.toNat)
    -- without a free entry, the loop leaves `off` at the first multiple of the entry size
    -- that is not below the size
    let off := match r with
      | some (off, _) => off
      | none => DIRENT_SIZE * (direntOffsets 0 ip.din.size.toNat).length
    let w ← writei dp (Dirent.bytes ⟨inum.toUInt16, name⟩) (.ofNat off)
    if w = some DIRENT_SIZE then return true else throw (.panic .dirlink)

/-! ## Paths -/

/-- The character `/`. -/
abbrev SLASH : UInt8 := 47

/-- `skipelem`: the next path element, cut to `DIRSIZ` bytes, and the path that follows it. -/
def skipelem (path : List UInt8) : Option (List UInt8 × List UInt8) :=
  match path.dropWhile (· = SLASH) with
  | [] => none
  | c :: cs =>
    some (((c :: cs).takeWhile (· ≠ SLASH)).take DIRSIZ,
      ((c :: cs).dropWhile (· ≠ SLASH)).dropWhile (· = SLASH))

/-- The loop of `namex`, from the inode `ip`. Each pass shortens the path, so that the length of the
path bounds the passes. -/
def namexLoop (nameiparent : Bool) :
    ℕ → Slot → List UInt8 → List UInt8 → FsM (Option (Slot × List UInt8))
  | 0, _, _, _ => throw .spin
  | bound + 1, ip, name, path =>
    match skipelem path with
    | none =>
      if nameiparent then do
        iput ip
        return none
      else return some (ip, name)
    | some (name, path) => do
      ilock ip
      let i ← inode ip
      if i.din.type ≠ T_DIR then
        iunlockput ip
        return none
      else if nameiparent ∧ path = [] then
        -- stop one level early
        iunlock ip
        return some (ip, name)
      else
        let next ← dirlookup ip name
        iunlockput ip
        match next with
        | none => return none
        | some (next, _) => namexLoop nameiparent bound next name path

/-- `namex`: look up and return the inode for a path name, or the inode for the parent and the
final path element. `cwd` is `myproc()->cwd`. -/
def namex (cwd : Option Slot) (path : List UInt8) (nameiparent : Bool) :
    FsM (Option (Slot × List UInt8)) := do
  if path.head? = some SLASH then
    let ip ← iget ROOTDEV (.ofNat ROOTINO)
    namexLoop nameiparent (path.length + 1) ip [] path
  else
    match cwd with
    | none => throw .fault
    | some k =>
      let ip ← idup k
      namexLoop nameiparent (path.length + 1) ip [] path

/-- `namei`. -/
def namei (cwd : Option Slot) (path : List UInt8) : FsM (Option Slot) := do
  let r ← namex cwd path false
  return r.map Prod.fst

/-- `nameiparent`. -/
def nameiparent (cwd : Option Slot) (path : List UInt8) : FsM (Option (Slot × List UInt8)) :=
  namex cwd path true

end ChronoFS
