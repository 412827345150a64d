import ChronoFS.Spec.Names
import ChronoFS.File.Write
import ChronoFS.Lib.SlotMap

/-!
# The entries of one directory

A directory by itself, without the rest of the file system: `DirOk` says that its blocks are its own
and that it is made of whole entries without holes. `Fs.entries` reads it as a table of slots: an
entry with inode number `0` is free, any other holds its name, up to the first zero of `DIRSIZ`
bytes, and its inode number.

`writei` of one entry changes one slot of that table, or adds one at its end
(`EntryWritten.getElem?_entries`). An entry never crosses a block, so that `writei` needs at most one
new data block, and a new indirect block for it. The entry is written if the log has room and there
are blocks (`DirOk.wp_writei`); each of these may instead be left open, if any halt is acceptable.
-/

namespace ChronoFS

open Function

variable {s s' s'' : Fs} {k dp : Slot} {b bn n off : ℕ} {src : List UInt8}
  {E : Halt → Fs → Prop}

/-! ## The directory as a table -/

/-- The directory in slot `dp` has its blocks to itself and is made of whole entries. -/
structure DirOk (dp : Slot) (s : Fs) : Prop where
  /-- Its blocks are its own. -/
  owns : OwnsBlocks dp s
  /-- It is an inode of the disk. -/
  inum : (s.icache dp).inum.toNat < s.sb.ninodes
  /-- The slot is in use. -/
  ref : 0 < (s.icache dp).ref
  /-- It is a directory. -/
  type : (s.icache dp).din.type = T_DIR
  /-- It is made of whole entries. -/
  aligned : (s.icache dp).din.size.toNat % DIRENT_SIZE = 0
  /-- It is not larger than its block addresses allow. -/
  bound : (s.icache dp).din.size.toNat ≤ MAXFILE * BSIZE
  /-- It has no holes. -/
  noHoles : (s.icache dp).din.NoHoles s.view.block

/-- A directory of a file system that satisfies the invariant. -/
theorem Core.dirOk {st : Bool} {fr : Option ℕ} {lg : ℕ → Dinode} {hand : List ℕ}
    (h : Core st none fr lg hand s) (hlive : (s.icache dp).Live)
    (htype : (s.icache dp).din.type = T_DIR) (ha : s.Audited dp) : DirOk dp s := by
  have hnode := h.node_of_live hlive
  exact ⟨(h.openWin hlive ha).owns, h.cache.inum dp hlive.1, hlive.1, htype, hnode.aligned htype,
    hnode.bound, h.noHoles_dir hlive htype⟩

/-- The slot that an entry is: free if its inode number is `0`. -/
def Dirent.slot (de : Dirent) : Option (List UInt8 × UInt16) :=
  if de.inum = 0 then none else some (cname de.name, de.inum)

/-- The table that the directory in slot `dp` is. -/
def Fs.entries (s : Fs) (dp : Slot) : SlotMap (List UInt8) UInt16 :=
  (List.range ((s.icache dp).din.size.toNat / DIRENT_SIZE)).map fun e =>
    (s.dirent dp (DIRENT_SIZE * e)).slot

theorem length_entries (s : Fs) (dp : Slot) :
    (s.entries dp).length = (s.icache dp).din.size.toNat / DIRENT_SIZE := by
  unfold Fs.entries
  rw [List.length_map, List.length_range]

theorem getElem?_entries (s : Fs) (dp : Slot) (e : ℕ) :
    (s.entries dp)[e]? = if e < (s.icache dp).din.size.toNat / DIRENT_SIZE then
      some (s.dirent dp (DIRENT_SIZE * e)).slot else none := by
  unfold Fs.entries
  rw [List.getElem?_map]
  by_cases he : e < (s.icache dp).din.size.toNat / DIRENT_SIZE
  · rw [List.getElem?_range he, if_pos he]
    rfl
  · rw [List.getElem?_eq_none (by rw [List.length_range]; omega), if_neg he]
    rfl

/-- The table depends on the size and the bytes of the directory. -/
theorem entries_congr (hsize : (s'.icache dp).din.size = (s.icache dp).din.size)
    (hbytes : ∀ x, s'.byteAt dp x = s.byteAt dp x) : s'.entries dp = s.entries dp := by
  unfold Fs.entries Fs.dirent
  rw [hsize]
  simp only [hbytes]

/-! ## Writing an entry -/

/-- From `s` to `s'`, the bytes `src` were written as the entry at `off`. -/
structure EntryWritten (dp : Slot) (src : List UInt8) (off : ℕ) (s s' : Fs) : Prop where
  /-- The directory is well formed. -/
  ok : DirOk dp s'
  /-- Only its in-memory copy and the disk have changed. -/
  within : Within dp s s'
  /-- The size covers the entry. -/
  size : (s'.icache dp).din.size.toNat = max (s.icache dp).din.size.toNat (off + DIRENT_SIZE)
  /-- The bytes of the entry are those written, the others are the same. -/
  byteAt : ∀ x, s'.byteAt dp x =
    if off ≤ x ∧ x < off + DIRENT_SIZE then src.getD (x - off) 0 else s.byteAt dp x

/-- The write changes one slot of the table. -/
theorem EntryWritten.getElem?_entries {e : ℕ} (hw : EntryWritten dp src (DIRENT_SIZE * e) s s')
    (h : DirOk dp s) (he : DIRENT_SIZE * e ≤ (s.icache dp).din.size.toNat) (j : ℕ) :
    (s'.entries dp)[j]? = if j = e then
      some (Dirent.read (fun x => src.getD x 0) 0).slot else (s.entries dp)[j]? := by
  have hsize := hw.size
  have haligned := h.aligned
  rw [ChronoFS.getElem?_entries, ChronoFS.getElem?_entries]
  by_cases hj : j = e
  · -- the entry is whole, and its bytes are those written
    subst hj
    have hread : s'.dirent dp (DIRENT_SIZE * j) = Dirent.read (fun x => src.getD x 0) 0 := by
      refine Dirent.read_congr fun x hx => ?_
      rw [Nat.zero_add, hw.byteAt, if_pos (by omega), Nat.add_sub_cancel_left]
    rw [if_pos rfl, if_pos (by simp only [DIRENT_SIZE] at *; omega), hread]
  · have hread : s'.dirent dp (DIRENT_SIZE * j) = s.dirent dp (DIRENT_SIZE * j) := by
      refine Dirent.read_congr fun x hx => ?_
      rw [Nat.zero_add, hw.byteAt, if_neg]
      simp only [DIRENT_SIZE] at *
      omega
    have hlt : j < (s'.icache dp).din.size.toNat / DIRENT_SIZE ↔
        j < (s.icache dp).din.size.toNat / DIRENT_SIZE := by
      simp only [DIRENT_SIZE] at *
      omega
    rw [if_neg hj, hread]
    simp only [hlt]

/-- A write of whole entries inside the directory or at its end. -/
theorem FileWritten.entry (hw : FileWritten dp src off DIRENT_SIZE s s') (h : DirOk dp s)
    (hoff : off % DIRENT_SIZE = 0) : EntryWritten dp src off s s' := by
  have hsize := hw.size
  refine ⟨⟨hw.ok.owns (hw.within.audited h.owns.audited), hw.ok.inum, ?_, hw.type.trans h.type, ?_,
    hw.ok.bound, hw.noHoles h.noHoles⟩, hw.within, hw.size, hw.byteAt⟩
  · rw [hw.within.ref]
    exact h.ref
  · have haligned := h.aligned
    simp only [DIRENT_SIZE] at *
    omega

/-- `writei` of one entry inside the directory or at its end. -/
theorem DirOk.wp_writei {Q : Option ℕ → Fs → Prop} (h : DirOk dp s)
    (hsrc : src.length = DIRENT_SIZE) (hoff : off % DIRENT_SIZE = 0)
    (hle : off ≤ (s.icache dp).din.size.toNat) (hroom : s.Room 7 ∨ ∀ e s', E e s')
    (hfree : s.needs dp (off / BSIZE) ≤ s.freeBlocks.card ∨ ∀ e s', E e s')
    (hno : MAXFILE * BSIZE < off + DIRENT_SIZE → Q none s)
    (hok : ∀ s', EntryWritten dp src off s s' → Q (some DIRENT_SIZE) s') :
    wp (writei dp src (.ofNat off)) Q E s := by
  have htoNat : (UInt32.ofNat off).toNat = off :=
    UInt32.toNat_ofNat_of_lt (lt_of_le_of_lt hle (s.icache dp).din.size.toNat_lt)
  -- an entry lies in one block
  have hone : ∀ x, Touched off DIRENT_SIZE x ↔ x = off / BSIZE := fun x =>
    touched_one (by decide) (by simp only [DIRENT_SIZE, BSIZE] at *; omega)
  have hcost : s.logCost dp off DIRENT_SIZE ≤ 4 := by
    have htouched : touched off DIRENT_SIZE = {off / BSIZE} := by
      ext x
      rw [mem_touched, hone, Finset.mem_singleton]
    have hun : (s.unmapped dp off DIRENT_SIZE).card ≤ (touched off DIRENT_SIZE).card :=
      Finset.card_filter_le ..
    have hind := indirectCost_le_two s dp
    unfold Fs.logCost
    rw [htouched, Finset.card_singleton] at *
    omega
  have hfile : FileOk dp s := ⟨h.owns.layout, h.owns.metaUsed, h.owns.own, h.inum, h.bound⟩
  refine hfile.wp_writei h.owns.audited (by rw [h.type]; decide) ?_ (by rw [hsrc]; decide)
    (fun e s' hfull => ?_) (fun s' hlack _ _ => ?_) (fun hbig => ?_) fun s' hw => ?_
  · rw [UInt32.le_iff_toNat_le, htoNat]
    exact hle
  · rw [htoNat, hsrc] at hfull
    exact hroom.elim (fun hr => absurd (hr.mono (by omega)) hfull) fun hE => hE e s'
  · rw [htoNat, hsrc, lacks_one hone] at hlack
    exact hfree.elim (fun hf => absurd hlack (Nat.not_lt.mpr hf)) fun hE => hE _ s'
  · rw [htoNat, hsrc] at hbig
    exact hno hbig
  · rw [htoNat, hsrc] at hw
    rw [hsrc]
    exact hok s' (hw.entry h hoff)

end ChronoFS
