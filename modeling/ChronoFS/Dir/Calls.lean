import ChronoFS.Dir.Entries

/-!
# `dirlookup` and `dirlink` on the table of a directory

`dirlookup` finds the first entry with the name, which is `SlotMap.index`, and takes a reference to
its inode with `iget`. `dirlink` drops that reference again if the name is there, and otherwise
writes the entry that `SlotMap.put` changes. Zeroing an entry, as `sys_unlink` does, is
`SlotMap.clear`.

Both calls depend on the inode cache when the name is there: `iget` needs the inode's slot or a free
one (`Fs.igetSlot`), and the `iput` in `dirlink` takes the lock of that slot, which the caller may
hold (`DirOk.wp_dirlink_present`).
-/

namespace ChronoFS

open Function

variable {s s' s'' : Fs} {k dp : Slot} {e off : ℕ} {name : List UInt8} {dev inum : UInt32}
  {E : Halt → Fs → Prop}

/-! ## Reading the table -/

theorem holds_slot (name : List UInt8) (de : Dirent) :
    SlotMap.holds (cname name) de.slot = nameTest name de := by
  unfold Dirent.slot nameTest namecmp
  by_cases h0 : de.inum = 0
  · rw [if_pos h0, h0]
    rfl
  · rw [if_neg h0, bne_iff_ne.mpr h0, Bool.true_and, Bool.eq_iff_iff, SlotMap.holds_iff, beq_iff_eq]
    constructor
    · rintro ⟨v, hv⟩
      exact (congrArg Prod.fst (Option.some.inj hv)).symm
    · intro heq
      exact ⟨de.inum, by rw [heq]⟩

theorem isNone_slot (de : Dirent) : de.slot.isNone = (de.inum == 0) := by
  unfold Dirent.slot
  by_cases h0 : de.inum = 0
  · rw [if_pos h0, h0]
    rfl
  · rw [if_neg h0, beq_eq_false_iff_ne.mpr h0]
    rfl

/-- The slot of a name is the first entry that passes the test of `dirlookup`. -/
theorem index_entries (s : Fs) (dp : Slot) (name : List UInt8) :
    (s.entries dp).index (cname name) =
      (List.range ((s.icache dp).din.size.toNat / DIRENT_SIZE)).find? fun e =>
        nameTest name (s.dirent dp (DIRENT_SIZE * e)) := by
  unfold SlotMap.index Fs.entries
  rw [SlotMap.findIdx?_map_range]
  simp only [holds_slot]

/-- The slot for a new name is the first that passes the test of `dirlink`, or a new one. -/
theorem putIndex_entries (s : Fs) (dp : Slot) :
    (s.entries dp).putIndex =
      ((List.range ((s.icache dp).din.size.toNat / DIRENT_SIZE)).find? fun e =>
        (s.dirent dp (DIRENT_SIZE * e)).inum == 0).getD
          ((s.icache dp).din.size.toNat / DIRENT_SIZE) := by
  unfold SlotMap.putIndex
  rw [length_entries]
  unfold Fs.entries
  rw [SlotMap.findIdx?_map_range]
  simp only [isNone_slot]

/-- What is in the slot of a name. -/
theorem slot_of_index (h : (s.entries dp).index (cname name) = some e) :
    (s.dirent dp (DIRENT_SIZE * e)).slot = some (cname name, (s.dirent dp (DIRENT_SIZE * e)).inum) ∧
      DIRENT_SIZE * (e + 1) ≤ (s.icache dp).din.size.toNat ∧
      (s.entries dp).get (cname name) = some (s.dirent dp (DIRENT_SIZE * e)).inum := by
  obtain ⟨v, hv⟩ := SlotMap.getElem?_of_index h
  have hget : (s.entries dp).get (cname name) = some v := by
    unfold SlotMap.get
    rw [h, Option.bind_some, hv]
    rfl
  rw [getElem?_entries] at hv
  split at hv
  · rename_i hlt
    have hslot := Option.some.inj hv
    have hinum : (s.dirent dp (DIRENT_SIZE * e)).inum = v := by
      unfold Dirent.slot at hslot
      split at hslot
      · cases hslot
      · exact (Prod.mk.inj (Option.some.inj hslot)).2
    refine ⟨by rw [hslot, hinum], ?_, by rw [hget, hinum]⟩
    simp only [DIRENT_SIZE] at *
    omega
  · cases hv

/-- A name of the map is in a slot. -/
theorem index_of_get {i : UInt16} (h : (s.entries dp).get (cname name) = some i) :
    ∃ e, (s.entries dp).index (cname name) = some e ∧ (s.dirent dp (DIRENT_SIZE * e)).inum = i := by
  cases hi : (s.entries dp).index (cname name) with
  | none =>
    rw [SlotMap.index_eq_none_iff_get.mp hi] at h
    nomatch h
  | some e =>
    obtain ⟨-, -, hget⟩ := slot_of_index hi
    exact ⟨e, rfl, Option.some.inj (hget.symm.trans h)⟩

theorem direntOffsets_aligned {size : ℕ} (h : size % DIRENT_SIZE = 0) :
    direntOffsets 0 size = (List.range (size / DIRENT_SIZE)).map (DIRENT_SIZE * ·) := by
  have hlen : (size - 0 + (DIRENT_SIZE - 1)) / DIRENT_SIZE = size / DIRENT_SIZE := by
    simp only [DIRENT_SIZE] at *
    omega
  unfold direntOffsets
  rw [hlen]
  simp only [Nat.zero_add]

/-- Reading entry after entry finds the first that passes the test, and changes nothing. -/
theorem DirOk.direntScan (h : DirOk dp s) (p : Panic) (test : Dirent → Bool) :
    direntScan dp p test (direntOffsets 0 (s.icache dp).din.size.toNat) s =
      .ok (((List.range ((s.icache dp).din.size.toNat / DIRENT_SIZE)).find? fun e =>
        test (s.dirent dp (DIRENT_SIZE * e))).map fun e =>
          (DIRENT_SIZE * e, s.dirent dp (DIRENT_SIZE * e))) s := by
  have hsize := (s.icache dp).din.size.toNat_lt
  -- every entry is whole, so no read is short
  have hwhole : ¬ ∃ off ∈ direntOffsets 0 (s.icache dp).din.size.toNat,
      (s.icache dp).din.size.toNat < off + DIRENT_SIZE := by
    rintro ⟨off, hoff, hshort⟩
    rw [direntOffsets_aligned h.aligned] at hoff
    obtain ⟨e, he, rfl⟩ := List.mem_map.mp hoff
    have := List.mem_range.mp he
    simp only [DIRENT_SIZE] at *
    omega
  have hscan := direntScan_spec (E := fun _ _ => False) (p := p) h.owns h.type h.noHoles test
    (direntOffsets 0 (s.icache dp).din.size.toNat)
    (fun off hoff => (direntOffsets_lt 0 (by decide) hsize hoff).1) hwhole
  obtain ⟨r, s1, hrun, rfl, hr, -⟩ := hscan.returns
  rw [hrun, hr, direntOffsets_aligned h.aligned, List.find?_map, Option.map_map]
  rfl

/-! ## Taking and dropping a reference -/

/-- The slot that `iget` returns: the inode's, or the first free one. -/
def Fs.igetSlot (s : Fs) (dev inum : UInt32) : Option Slot :=
  (s.cachedSlot dev inum).or s.emptySlot

/-- From `s` to `s'`, a reference to the inode `inum` was taken, in slot `k`. -/
structure Got (dev inum : UInt32) (k : Slot) (s s' : Fs) : Prop where
  /-- Only the cache has changed. -/
  rest : s' = { s with icache := s'.icache }
  /-- The slot is for the inode. -/
  dev : (s'.icache k).dev = dev
  /-- Its number is `inum`. -/
  inum : (s'.icache k).inum = inum
  /-- It has one more reference. -/
  ref : (s'.icache k).ref = (s.icache k).ref + 1
  /-- A slot in use has not changed otherwise. -/
  used : 0 < (s.icache k).ref → s'.icache k = { s.icache k with ref := (s.icache k).ref + 1 }
  /-- Nor have the other slots. -/
  other : ∀ j, j ≠ k → s'.icache j = s.icache j
  /-- A slot that was not in use holds no copy of the inode yet. -/
  fresh : ¬ 0 < (s.icache k).ref → (s.icache k).ref = 0 ∧ (s'.icache k).valid = false
  /-- The lock is as it was. -/
  locked : (s'.icache k).locked = (s.icache k).locked

/-- `iget` returns the slot, or panics. -/
theorem wp_iget {Q : Slot → Fs → Prop}
    (hok : ∀ k s', s.igetSlot dev inum = some k → Got dev inum k s s' → Q k s')
    (hno : s.igetSlot dev inum = none → E (.panic .igetNoInodes) s) : wp (iget dev inum) Q E s := by
  unfold Fs.igetSlot at hok hno
  unfold iget
  rw [wp_bind, wp_get]
  cases hhit : s.cachedSlot dev inum with
  | some k =>
    have hk := List.find?_some hhit
    simp only [decide_eq_true_eq] at hk
    obtain ⟨hpos, hdev, hinum⟩ := hk
    rw [wp_bind, wp_setInode, wp_pure]
    refine hok k _ (by rw [hhit, Option.some_or]) ⟨rfl, ?_, ?_, ?_, fun _ => setSlot_self ..,
      fun j hj => setSlot_of_ne _ _ hj, fun hno => absurd hpos hno, ?_⟩
    · rw [setSlot_self]
      exact hdev
    · rw [setSlot_self]
      exact hinum
    · rw [setSlot_self]
    · rw [setSlot_self]
  | none =>
    rw [hhit, Option.none_or] at hno
    simp only [hhit, Option.none_or] at hok
    cases hempty : s.emptySlot with
    | some k =>
      have hzero : (s.icache k).ref = 0 := by simpa using List.find?_some hempty
      rw [wp_bind, wp_setInode, wp_pure]
      refine hok k _ hempty ⟨rfl, ?_, ?_, ?_, fun hpos => by omega,
        fun j hj => setSlot_of_ne _ _ hj, fun _ => ⟨hzero, ?_⟩, ?_⟩
      · rw [setSlot_self]
      · rw [setSlot_self]
      · rw [setSlot_self, hzero]
        rfl
      · rw [setSlot_self]
      · rw [setSlot_self]
    | none => exact hno hempty

/-- From `s` to `s'`, nothing has changed but slots of the inode cache that are not in use. -/
structure Unchanged (s s' : Fs) : Prop where
  /-- Only the cache has changed. -/
  rest : s' = { s with icache := s'.icache }
  /-- The slots in use are the same. -/
  used : ∀ j, 0 < (s.icache j).ref → s'.icache j = s.icache j
  /-- So are the reference counts. -/
  ref : ∀ j, (s'.icache j).ref = (s.icache j).ref

/-- The reference is dropped again: the inode has another, or was never loaded, and so is not
freed. The lock must not be taken. -/
theorem Got.wp_iput {Q : Unit → Fs → Prop} (h : Got dev inum k s s')
    (hok : (s.icache k).locked = false → ∀ s'', Unchanged s s'' → Q () s'')
    (hsleep : (s.icache k).locked = true → E .sleep s') : wp (iput k) Q E s' := by
  unfold iput
  rw [wp_bind]
  refine wp_acquiresleep (fun hl => hsleep (h.locked.symm.trans hl)) fun hfree => ?_
  have hfree' : (s.icache k).locked = false := h.locked.symm.trans hfree
  have hkeep : ¬ ((s'.icache k).valid = true ∧ (s'.icache k).din.nlink = 0 ∧
      (s'.icache k).ref = 1) := by
    rintro ⟨hvalid, -, hone⟩
    by_cases hpos : 0 < (s.icache k).ref
    · rw [h.ref] at hone
      omega
    · rw [(h.fresh hpos).2] at hvalid
      nomatch hvalid
  unfold ifreeLast releasesleep
  rw [wp_bind, wp_bind, wp_inode, setSlot_self, if_neg hkeep, wp_pure, wp_bind, wp_setInode,
    wp_setInode, setSlot_setSlot, setSlot_setSlot, setSlot_self, setSlot_self]
  refine hok hfree' _ ⟨?_, fun j hj => ?_, fun j => ?_⟩
  · rw [h.rest]
    rfl
  · by_cases hjk : j = k
    · subst hjk
      rw [setSlot_self, h.used hj]
      show { s.icache j with ref := (s.icache j).ref + 1 - 1, locked := false } = s.icache j
      rw [Int.add_sub_cancel, ← hfree']
    · rw [setSlot_of_ne _ _ hjk]
      exact h.other j hjk
  · by_cases hjk : j = k
    · subst hjk
      rw [setSlot_self]
      show (s'.icache j).ref - 1 = _
      rw [h.ref]
      omega
    · rw [setSlot_of_ne _ _ hjk, h.other j hjk]

/-! ## What is the same directory -/

/-- From `s` to `s'`, the directory in slot `dp` is left alone: its inode but for the references and
the lock, its blocks and what the free map says of them. Anything else may change. -/
structure Aside (dp : Slot) (s s' : Fs) : Prop where
  /-- The super block is the same. -/
  sb : s'.sb = s.sb
  /-- So is the inode. -/
  slot : s'.icache dp =
    { s.icache dp with ref := (s'.icache dp).ref, locked := (s'.icache dp).locked }
  /-- The slot is still in use. -/
  ref : 0 < (s'.icache dp).ref
  /-- The inode may still be used. -/
  audited : s'.Audited dp
  /-- The blocks before the data blocks are marked used. -/
  metaUsed : ∀ b < s.sb.dataStart, s'.view.used b = true
  /-- The blocks of the directory are the same, and marked used. -/
  blocks : ∀ o, s.blockOf dp o ≠ 0 → s'.view.block (s.blockOf dp o) =
    s.view.block (s.blockOf dp o) ∧ s'.view.used (s.blockOf dp o) = true

theorem Aside.din (h : Aside dp s s') : (s'.icache dp).din = (s.icache dp).din := by rw [h.slot]

/-- The directory is the same. -/
theorem Aside.dir (h : Aside dp s s') (hdir : DirOk dp s) :
    DirOk dp s' ∧ s'.entries dp = s.entries dp := by
  have hdin := h.din
  have hmap : ∀ bn, s'.map dp bn = s.map dp bn := by
    intro bn
    unfold Fs.map
    rw [hdin]
    exact map_congr fun h0 => (h.blocks none (toNat_ne_zero.mpr h0)).1
  have hblocks : s'.blockOf dp = s.blockOf dp := by
    funext o
    cases o with
    | none =>
      show (s'.icache dp).din.indirect.toNat = _
      rw [hdin]
      rfl
    | some bn => exact hmap bn
  have hcontent : ∀ bn, s'.content dp bn = s.content dp bn := by
    intro bn
    by_cases h0 : s.map dp bn = 0
    · rw [content_of_not_map h0, content_of_not_map ((hmap bn).trans h0)]
    · rw [content_of_map h0, content_of_map (by rw [hmap]; exact h0), hmap]
      exact (h.blocks (some bn) h0).1
  constructor
  · refine ⟨⟨h.sb ▸ hdir.owns.layout, ?_, h.audited, ?_⟩, ?_, h.ref, ?_, ?_, ?_, ?_⟩
    · rw [h.sb]
      exact h.metaUsed
    · rw [hblocks, h.sb]
      exact ⟨hdir.owns.own.inArea, fun o ho => (h.blocks o ho).2, hdir.owns.own.inj,
        by nofun, List.nodup_nil⟩
    · rw [h.slot, h.sb]
      exact hdir.inum
    · rw [hdin]
      exact hdir.type
    · rw [hdin]
      exact hdir.aligned
    · rw [hdin]
      exact hdir.bound
    · intro bn hbn
      rw [hdin] at hbn
      have hne : s.map dp bn ≠ 0 := hdir.noHoles bn hbn
      rw [← hmap] at hne
      exact hne
  · exact entries_congr (by rw [hdin]) fun x => congrArg (Block.get · _) (hcontent _)

/-- A change of the inode cache that keeps the directory's slot. -/
theorem DirOk.aside (hdir : DirOk dp s) (hrest : s' = { s with icache := s'.icache })
    (hslot : s'.icache dp = { s.icache dp with ref := (s'.icache dp).ref })
    (href : 0 < (s'.icache dp).ref) : Aside dp s s' := by
  have hview : s'.view = s.view := by
    rw [hrest]
    rfl
  refine ⟨by rw [hrest], ?_, href, ?_, ?_, fun o ho => ?_⟩
  · rw [hslot]
  · have hflag : s'.unlocked = s.unlocked := by rw [hrest]
    unfold Fs.Audited
    rw [hslot, hflag]
    exact hdir.owns.audited
  · rw [hview]
    exact hdir.owns.metaUsed
  · rw [hview]
    exact ⟨rfl, hdir.owns.own.isUsed o ho⟩

theorem Got.aside (h : Got dev inum k s s') (hdir : DirOk dp s) : Aside dp s s' := by
  have hpos := hdir.ref
  by_cases hk : dp = k
  · subst hk
    refine hdir.aside h.rest (by rw [h.used hpos]) ?_
    rw [h.ref]
    omega
  · refine hdir.aside h.rest (by rw [h.other dp hk]) ?_
    rw [h.other dp hk]
    exact hpos

theorem Unchanged.aside (h : Unchanged s s') (hdir : DirOk dp s) : Aside dp s s' := by
  have hslot := h.used dp hdir.ref
  refine hdir.aside h.rest (by rw [hslot]) ?_
  rw [hslot]
  exact hdir.ref

/-! ## The two calls -/

/-- `dirlookup` returns the slot of the name's inode and the offset of its entry. -/
theorem DirOk.wp_dirlookup {Q : Option (Slot × ℕ) → Fs → Prop} (h : DirOk dp s) :
    wp (dirlookup dp name) Q E s ↔
      match (s.entries dp).index (cname name) with
      | none => Q none s
      | some e => wp (iget (s.icache dp).dev (s.dirent dp (DIRENT_SIZE * e)).inum.toUInt32)
          (fun k s' => Q (some (k, DIRENT_SIZE * e)) s') E s := by
  have hscan := h.direntScan .dirlookupRead fun de => de.inum != 0 && namecmp name de.name
  have hindex := index_entries s dp name
  unfold nameTest at hindex
  rw [← hindex] at hscan
  unfold dirlookup
  rw [wp_bind, wp_uses h.owns.audited, wp_bind, wp_inode, if_neg (not_not.mpr h.type), wp_bind,
    wp_iff_of_ok hscan]
  cases (s.entries dp).index (cname name) with
  | none => exact Iff.rfl
  | some e =>
    dsimp only [Option.map_some]
    rw [wp_bind]
    exact Iff.rfl

/-- `dirlink` of a name that is there: the reference that `dirlookup` took is dropped. -/
theorem DirOk.wp_dirlink_present {Q : Bool → Fs → Prop} (h : DirOk dp s)
    (hi : (s.entries dp).index (cname name) = some e) :
    wp (dirlink dp name inum) Q E s ↔
      wp (iget (s.icache dp).dev (s.dirent dp (DIRENT_SIZE * e)).inum.toUInt32)
        (fun k s' => wp (iput k) (fun _ s'' => Q false s'') E s') E s := by
  unfold dirlink
  rw [wp_bind, wp_uses h.owns.audited, wp_bind, h.wp_dirlookup, hi]
  dsimp only
  simp only [wp_bind, wp_pure]

/-- A directory has room for one more entry: there is a free one, or it can grow. -/
def Fs.HasRoom (s : Fs) (dp : Slot) : Prop :=
  DIRENT_SIZE * ((s.entries dp).putIndex + 1) ≤ MAXFILE * BSIZE

/-- There are free blocks for one more entry. -/
def Fs.HasBlocks (s : Fs) (dp : Slot) : Prop :=
  s.needs dp (DIRENT_SIZE * (s.entries dp).putIndex / BSIZE) ≤ s.freeBlocks.card

theorem DirOk.putIndex_le (h : DirOk dp s) :
    DIRENT_SIZE * (s.entries dp).putIndex ≤ (s.icache dp).din.size.toNat := by
  have hle : (s.entries dp).putIndex ≤ (s.icache dp).din.size.toNat / DIRENT_SIZE := by
    rw [putIndex_entries]
    cases hfind : (List.range ((s.icache dp).din.size.toNat / DIRENT_SIZE)).find? fun e =>
        (s.dirent dp (DIRENT_SIZE * e)).inum == 0 with
    | none => exact le_rfl
    | some e => exact (List.mem_range.mp (List.mem_of_find?_eq_some hfind)).le
  have := h.aligned
  simp only [DIRENT_SIZE] at *
  omega

/-- `dirlink` of a new name writes its entry. -/
theorem DirOk.wp_dirlink_absent {Q : Bool → Fs → Prop} (h : DirOk dp s)
    (hi : (s.entries dp).index (cname name) = none) (hfits : s.HasRoom dp ∨ ∀ e s', E e s')
    (hroom : s.Room 7 ∨ ∀ e s', E e s') (hfree : s.HasBlocks dp ∨ ∀ e s', E e s')
    (hok : ∀ s', EntryWritten dp (Dirent.bytes ⟨inum.toUInt16, name⟩)
      (DIRENT_SIZE * (s.entries dp).putIndex) s s' → Q true s') :
    wp (dirlink dp name inum) Q E s := by
  have hscan := h.direntScan .dirlinkRead fun de => de.inum == 0
  have hput := putIndex_entries s dp
  have hwrite : wp (do
      let w ← writei dp (Dirent.bytes ⟨inum.toUInt16, name⟩)
        (.ofNat (DIRENT_SIZE * (s.entries dp).putIndex))
      if w = some DIRENT_SIZE then return true else throw (.panic .dirlink) : FsM Bool) Q E s := by
    rw [wp_bind]
    refine h.wp_writei (Dirent.length_bytes _) (Nat.mul_mod_right ..) h.putIndex_le hroom hfree
      (fun hbig => ?_) fun s' hw => ?_
    · refine hfits.elim (fun hf => ?_) fun hE => hE _ _
      unfold Fs.HasRoom at hf
      rw [Nat.mul_add] at hf
      omega
    · rw [if_pos rfl, wp_pure]
      exact hok s' hw
  unfold dirlink
  rw [wp_bind, wp_uses h.owns.audited, wp_bind, h.wp_dirlookup, hi]
  dsimp only
  rw [wp_bind, wp_inode, wp_bind, wp_iff_of_ok hscan, direntOffsets_aligned h.aligned,
    List.length_map, List.length_range]
  -- both ways of finding the offset are `SlotMap.putIndex`
  rw [hput] at hwrite
  cases hfind : (List.range ((s.icache dp).din.size.toNat / DIRENT_SIZE)).find? fun e =>
      (s.dirent dp (DIRENT_SIZE * e)).inum == 0 with
  | none =>
    rw [hfind] at hwrite
    exact hwrite
  | some e =>
    rw [hfind] at hwrite
    exact hwrite

/-- `sys_unlink`, where it overwrites the entry with zeroes. -/
def zeroEntry (dp : Slot) (off : ℕ) : FsM Unit := do
  let w ← writei dp (List.replicate DIRENT_SIZE 0) (.ofNat off)
  if w ≠ some DIRENT_SIZE then throw (.panic .unlinkWritei) else return

/-- An entry of the directory is there, and so is its block. -/
theorem DirOk.wp_zeroEntry {Q : Unit → Fs → Prop} (h : DirOk dp s)
    (he : DIRENT_SIZE * (e + 1) ≤ (s.icache dp).din.size.toNat)
    (hroom : s.Room 7 ∨ ∀ e s', E e s')
    (hok : ∀ s', EntryWritten dp (List.replicate DIRENT_SIZE 0) (DIRENT_SIZE * e) s s' → Q () s') :
    wp (zeroEntry dp (DIRENT_SIZE * e)) Q E s := by
  rw [Nat.mul_add, Nat.mul_one] at he
  have hbound := h.bound
  have hneeds : s.needs dp (DIRENT_SIZE * e / BSIZE) = 0 := by
    refine if_pos (h.noHoles _ ?_)
    have := Nat.div_mul_le_self (DIRENT_SIZE * e) BSIZE
    simp only [DIRENT_SIZE] at *
    omega
  unfold zeroEntry
  rw [wp_bind]
  refine h.wp_writei (List.length_replicate ..) (Nat.mul_mod_right ..) (by omega) hroom
    (.inl (by rw [hneeds]; exact Nat.zero_le _)) (fun hbig => by omega) fun s' hw => ?_
  rw [if_neg (not_not.mpr rfl), wp_pure]
  exact hok s' hw

/-! ## The table afterwards -/

/-- Writing the entry of a name puts the name into the table. -/
theorem EntryWritten.entries_put {i : UInt16} (h : DirOk dp s) (hi : i ≠ 0)
    (hw : EntryWritten dp (Dirent.bytes ⟨i, name⟩) (DIRENT_SIZE * (s.entries dp).putIndex) s s') :
    s'.entries dp = (s.entries dp).put (cname name) i := by
  have hslot : (Dirent.read (fun x => (Dirent.bytes ⟨i, name⟩).getD x 0) 0).slot =
      some (cname name, i) := by
    obtain ⟨hinum, hname⟩ := Dirent.read_bytes ⟨i, name⟩
    unfold Dirent.slot
    rw [hinum, hname, if_neg hi]
  refine List.ext_getElem? fun j => ?_
  rw [hw.getElem?_entries h h.putIndex_le, hslot, SlotMap.getElem?_put]

/-- Zeroing an entry frees its slot. -/
theorem EntryWritten.entries_clear (h : DirOk dp s)
    (he : DIRENT_SIZE * (e + 1) ≤ (s.icache dp).din.size.toNat)
    (hw : EntryWritten dp (List.replicate DIRENT_SIZE 0) (DIRENT_SIZE * e) s s') :
    s'.entries dp = (s.entries dp).clear e := by
  have hslot : (Dirent.read (fun x => (List.replicate DIRENT_SIZE (0 : UInt8)).getD x 0) 0).slot =
      none := by decide
  refine List.ext_getElem? fun j => ?_
  rw [hw.getElem?_entries h (by rw [Nat.mul_add] at he; omega), hslot, SlotMap.getElem?_clear,
    length_entries]
  by_cases hj : j = e
  · rw [if_pos hj, if_pos ⟨hj.symm, by simp only [DIRENT_SIZE] at *; omega⟩]
  · rw [if_neg hj, if_neg fun hc => hj hc.1.symm]

end ChronoFS
