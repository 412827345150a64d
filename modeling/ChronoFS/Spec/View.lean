import ChronoFS.Fs.Inode
import Mathlib.Tactic

/-!
# What a disk says

The kernel reads the disk in three ways: as a free map, as a table of inodes and as data blocks.
`View` is these three functions. They live in different areas of the disk, so that a write changes
one of them in one place and leaves the other two alone: `View.of_area`, `View.of_dinode`,
`View.of_setBit` and `View.of_clearBit`. All later proofs speak of the view and never of the bytes
of an inode block or of the free map.

The rules `wp_logWrite`, `wp_balloc` and `wp_bfree` say what the functions that write blocks do to
the view, and when they halt.
-/

namespace ChronoFS

open Function

/-- What a disk says about each block and each inode. -/
@[ext]
structure View where
  /-- The free map marks the block used. -/
  used : ℕ → Bool
  /-- The inodes; all zeroes past the last one. -/
  dinode : ℕ → Dinode
  /-- The data blocks; all zeroes elsewhere. -/
  block : ℕ → Block

namespace View

/-- The view with data block `b` replaced. -/
def setBlock (w : View) (b : ℕ) (x : Block) : View := { w with block := update w.block b x }

/-- The view with inode `i` replaced. -/
def setDinode (w : View) (i : ℕ) (d : Dinode) : View := { w with dinode := update w.dinode i d }

/-- The view with block `b` marked used or free. -/
def setUsed (w : View) (b : ℕ) (x : Bool) : View := { w with used := update w.used b x }

/-- The view of a disk with the given layout. -/
def of (sb : Superblock) (disk : ℕ → Block) : View where
  used b := decide (b < sb.size) && (disk (sb.bblock b)).bit (b % BPB)
  dinode i := if i < sb.ninodes then (disk (sb.iblock i)).getDinode (i % IPB) else .zero
  block b := if sb.Area b then disk b else .zero

variable {sb : Superblock} {disk : ℕ → Block} {b i : ℕ}

theorem iblock_lt (hv : sb.Valid) (hi : i < sb.ninodes) : sb.iblock i < sb.bmapstart := by
  have hle : i / IPB ≤ sb.ninodes / IPB := Nat.div_le_div_right (Nat.le_of_lt hi)
  have := hv.bmap
  unfold Superblock.iblock at *
  omega

theorem bblock_lt (hv : sb.Valid) (hb : b < sb.size) : sb.bblock b < sb.dataStart := by
  have hle : b / BPB ≤ sb.size / BPB := Nat.div_le_div_right (Nat.le_of_lt hb)
  have := hv.data
  unfold Superblock.bblock at *
  omega

theorem le_bblock (sb : Superblock) (b : ℕ) : sb.bmapstart ≤ sb.bblock b :=
  Nat.le_add_left _ _

/-- An inode block is neither a data block nor part of the free map. -/
theorem iblock_ne (hv : sb.Valid) (hi : i < sb.ninodes) (hb : b < sb.size) :
    sb.iblock i < sb.dataStart ∧ sb.bblock b ≠ sb.iblock i := by
  have h1 := iblock_lt hv hi
  have h2 := bblock_lt hv hb
  have h3 := le_bblock sb b
  omega

/-- A data block is not block 0. -/
theorem area_ne_zero (hv : sb.Valid) (hb : sb.Area b) : b ≠ 0 := by
  have := hv.data
  have := hb.1
  omega

theorem area_lt (hv : sb.Valid) (hb : sb.Area b) : b < 2 ^ 32 := by
  have := hv.size
  have := hb.2
  omega

/-- A block number survives being stored. -/
theorem toNat_ofNat_area (hv : sb.Valid) (hb : sb.Area b) : (UInt32.ofNat b).toNat = b :=
  UInt32.toNat_ofNat_of_lt (area_lt hv hb)

theorem block_of_area (hb : sb.Area b) : (of sb disk).block b = disk b := if_pos hb

/-- A write to a data block. -/
theorem of_area (hv : sb.Valid) (hb : sb.Area b) (v : Block) :
    of sb (update disk b v) = (of sb disk).setBlock b v := by
  obtain ⟨hstart, hlt⟩ := hb
  ext1
  · -- the free map lies before the data blocks
    funext c
    dsimp only [of, setBlock, setDinode, setUsed]
    by_cases hc : c < sb.size
    · have := bblock_lt hv hc
      rw [update_of_ne (by omega)]
    · simp [hc]
  · -- and so do the inodes
    funext i
    dsimp only [of, setBlock, setDinode, setUsed]
    by_cases hi : i < sb.ninodes
    · have := (iblock_ne hv hi hlt).1
      rw [update_of_ne (by omega)]
    · simp [hi]
  · funext c
    dsimp only [of, setBlock, setDinode, setUsed]
    by_cases hc : c = b
    · subst hc
      rw [update_self, update_self, if_pos ⟨hstart, hlt⟩]
    · rw [update_of_ne hc, update_of_ne hc]

/-- A write of one inode. -/
theorem of_dinode (hv : sb.Valid) (hi : i < sb.ninodes) (d : Dinode) :
    of sb (update disk (sb.iblock i) ((disk (sb.iblock i)).putDinode (i % IPB) d)) =
      (of sb disk).setDinode i d := by
  have hmod : ∀ j, j % IPB < IPB := fun j => Nat.mod_lt _ (by decide)
  ext1
  · funext c
    dsimp only [of, setBlock, setDinode, setUsed]
    by_cases hc : c < sb.size
    · rw [update_of_ne (iblock_ne hv hi hc).2]
    · simp [hc]
  · funext j
    dsimp only [of, setBlock, setDinode, setUsed]
    by_cases hji : j = i
    · subst hji
      rw [update_self, update_self, if_pos hi, Block.getDinode_putDinode _ _ (hmod j)]
    · rw [update_of_ne hji]
      by_cases hj : j < sb.ninodes
      · rw [if_pos hj, if_pos hj]
        by_cases hblk : sb.iblock j = sb.iblock i
        · -- another inode of the same block
          have hne : j % IPB ≠ i % IPB := by
            intro heq
            apply hji
            unfold Superblock.iblock at hblk
            have hdiv : j / IPB = i / IPB := by omega
            rw [← Nat.div_add_mod j IPB, ← Nat.div_add_mod i IPB, hdiv, heq]
          rw [hblk, update_self, Block.getDinode_putDinode_ne _ _ hne]
        · rw [update_of_ne hblk]
      · rw [if_neg hj, if_neg hj]
  · funext c
    dsimp only [of, setBlock, setDinode, setUsed]
    by_cases hc : sb.Area c
    · have h1 := (iblock_ne hv hi hc.2).1
      have h2 := hc.1
      rw [if_pos hc, if_pos hc, update_of_ne (by omega)]
    · rw [if_neg hc, if_neg hc]

/-- A write of one bit of the free map, by a function that changes that bit only. -/
theorem of_bit (hv : sb.Valid) (hb : b < sb.size) (x : Bool) (blk : Block)
    (hbit : ∀ j, blk.bit j = if j = b % BPB then x else (disk (sb.bblock b)).bit j) :
    of sb (update disk (sb.bblock b) blk) =
      (of sb disk).setUsed b x := by
  have hlt := bblock_lt hv hb
  ext1
  · funext c
    dsimp only [of, setBlock, setDinode, setUsed]
    by_cases hcb : c = b
    · subst hcb
      rw [update_self, update_self, hbit, if_pos rfl, decide_eq_true hb, Bool.true_and]
    · rw [update_of_ne hcb]
      by_cases hblk : sb.bblock c = sb.bblock b
      · -- another bit of the same block
        have hne : c % BPB ≠ b % BPB := by
          intro heq
          apply hcb
          unfold Superblock.bblock at hblk
          have hdiv : c / BPB = b / BPB := by omega
          rw [← Nat.div_add_mod c BPB, ← Nat.div_add_mod b BPB, hdiv, heq]
        rw [hblk, update_self, hbit, if_neg hne]
      · rw [update_of_ne hblk]
  · funext i
    dsimp only [of, setBlock, setDinode, setUsed]
    by_cases hi : i < sb.ninodes
    · rw [if_pos hi, if_pos hi, update_of_ne (iblock_ne hv hi hb).2.symm]
    · rw [if_neg hi, if_neg hi]
  · funext c
    dsimp only [of, setBlock, setDinode, setUsed]
    by_cases hc : sb.Area c
    · have := hc.1
      rw [if_pos hc, if_pos hc, update_of_ne (by omega)]
    · rw [if_neg hc, if_neg hc]

theorem of_setBit (hv : sb.Valid) (hb : b < sb.size) :
    of sb (update disk (sb.bblock b) ((disk (sb.bblock b)).setBit (b % BPB))) =
      (of sb disk).setUsed b true := by
  refine of_bit hv hb _ _ fun j => ?_
  rw [Block.bit_setBit _ (Nat.mod_lt _ (by decide))]
  by_cases h : j = b % BPB
  · simp [h]
  · rw [if_neg h, decide_eq_false (Ne.symm h), Bool.or_false]

theorem of_clearBit (hv : sb.Valid) (hb : b < sb.size) :
    of sb (update disk (sb.bblock b) ((disk (sb.bblock b)).clearBit (b % BPB))) =
      (of sb disk).setUsed b false := by
  refine of_bit hv hb _ _ fun j => ?_
  rw [Block.bit_clearBit _ (Nat.mod_lt _ (by decide))]
  by_cases h : j = b % BPB
  · simp [h]
  · rw [if_neg h, decide_eq_false (Ne.symm h), Bool.not_false, Bool.and_true]

end View

/-! ## Writing blocks -/

/-- The view of the file system's disk. -/
def Fs.view (s : Fs) : View := .of s.sb s.disk

/-- The file system after a `log_write` of `v` to block `b`. -/
def Fs.wrote (s : Fs) (b : ℕ) (v : Block) : Fs :=
  { s with disk := update s.disk b v, lh := if b ∈ s.lh then s.lh else s.lh ++ [b] }

/-- An operation is running, and the log has room for `n` more blocks. -/
def Fs.Room (s : Fs) (n : ℕ) : Prop :=
  s.lh.length + n ≤ LOGSIZE ∧ s.lh.length + n ≤ s.logSize - 1 ∧ 1 ≤ s.outstanding

/-- The two panics of `log_write`. -/
def Halt.Log (e : Halt) : Prop := e = .panic .tooBig ∨ e = .panic .outsideTrans

instance : DecidablePred Halt.Log := fun e =>
  inferInstanceAs (Decidable (e = .panic .tooBig ∨ e = .panic .outsideTrans))

/-- The file system after `balloc` has given block `b` away. -/
def Fs.alloc (s : Fs) (b : ℕ) : Fs :=
  (s.wrote (s.sb.bblock b) ((s.disk (s.sb.bblock b)).setBit (b % BPB))).wrote b .zero

/-- The file system after `bfree` has freed block `b`. -/
def Fs.free (s : Fs) (b : ℕ) : Fs :=
  s.wrote (s.sb.bblock b) ((s.disk (s.sb.bblock b)).clearBit (b % BPB))

/-- The file system after inode `i` has been written to disk. -/
def Fs.wroteDinode (s : Fs) (i : ℕ) (d : Dinode) : Fs :=
  s.wrote (s.sb.iblock i) ((s.disk (s.sb.iblock i)).putDinode (i % IPB) d)

section

variable {s s' : Fs} {α : Type} {E : Halt → Fs → Prop} {b : ℕ} {v : Block}

theorem view_wrote (hv : s.sb.Valid) (hb : s.sb.Area b) :
    (s.wrote b v).view = s.view.setBlock b v :=
  View.of_area hv hb v

theorem view_wroteDinode {i : ℕ} (hv : s.sb.Valid) (hi : i < s.sb.ninodes) (d : Dinode) :
    (s.wroteDinode i d).view = s.view.setDinode i d :=
  View.of_dinode hv hi d

theorem view_alloc (hv : s.sb.Valid) (hb : s.sb.Area b) :
    (s.alloc b).view = (s.view.setUsed b true).setBlock b .zero := by
  have h1 : (s.wrote (s.sb.bblock b) ((s.disk (s.sb.bblock b)).setBit (b % BPB))).view =
      s.view.setUsed b true := View.of_setBit hv hb.2
  rw [← h1]
  exact view_wrote (s := s.wrote _ _) hv hb

theorem view_free (hv : s.sb.Valid) (hb : b < s.sb.size) :
    (s.free b).view = s.view.setUsed b false :=
  View.of_clearBit hv hb

theorem disk_eq_block (hb : s.sb.Area b) : s.disk b = s.view.block b :=
  (View.block_of_area hb).symm

theorem dinode_eq_view {i : ℕ} (hi : i < s.sb.ninodes) : s.dinode i = s.view.dinode i :=
  (if_pos hi).symm

theorem length_wrote_le (s : Fs) (b : ℕ) (v : Block) :
    (s.wrote b v).lh.length ≤ s.lh.length + 1 := by
  unfold Fs.wrote
  dsimp only
  split
  · omega
  · rw [List.length_append, List.length_singleton]

theorem room_wrote {n : ℕ} (h : s.Room (n + 1)) : (s.wrote b v).Room n := by
  have := length_wrote_le s b v
  obtain ⟨h1, h2, h3⟩ := h
  refine ⟨?_, ?_, h3⟩
  · omega
  · change (s.wrote b v).lh.length + n ≤ s.logSize - 1
    omega

theorem Fs.Room.mono {n m : ℕ} (h : s.Room m) (hn : n ≤ m) : s.Room n := by
  obtain ⟨h1, h2, h3⟩ := h
  exact ⟨by omega, by omega, h3⟩

/-! ## What is in the log -/

/-- From `s` to `s'`, the blocks `X` were logged. -/
structure Logged (X : ℕ → Prop) (s s' : Fs) : Prop where
  /-- The size of the log is the same. -/
  logSize : s'.logSize = s.logSize
  /-- So is the number of operations. -/
  outstanding : s'.outstanding = s.outstanding
  /-- No block is in the log twice. -/
  nodup : s.lh.Nodup → s'.lh.Nodup
  /-- The blocks in the log are those that were there and the new ones. -/
  mem : ∀ x, x ∈ s'.lh ↔ x ∈ s.lh ∨ X x

theorem Logged.refl (s : Fs) : Logged (fun _ => False) s s :=
  ⟨rfl, rfl, id, fun _ => by rw [or_false]⟩

theorem Logged.trans {X Y : ℕ → Prop} {s'' : Fs} (h : Logged X s s') (h' : Logged Y s' s'') :
    Logged (fun x => X x ∨ Y x) s s'' := by
  refine ⟨h'.logSize.trans h.logSize, h'.outstanding.trans h.outstanding,
    fun hnd => h'.nodup (h.nodup hnd), fun x => ?_⟩
  rw [h'.mem, h.mem, or_assoc]

theorem Logged.congr {X Y : ℕ → Prop} (h : Logged X s s') (hXY : ∀ x, Y x ↔ X x) :
    Logged Y s s' :=
  ⟨h.logSize, h.outstanding, h.nodup, fun x => by rw [h.mem, hXY]⟩

theorem logged_wrote (s : Fs) (b : ℕ) (v : Block) : Logged (fun x => x = b) s (s.wrote b v) := by
  refine ⟨rfl, rfl, fun hnd => ?_, fun x => ?_⟩
  · unfold Fs.wrote
    dsimp only
    by_cases hb : b ∈ s.lh
    · rw [if_pos hb]
      exact hnd
    · rw [if_neg hb]
      refine List.nodup_append.mpr ⟨hnd, List.nodup_singleton b, fun a ha c hc => ?_⟩
      rw [List.mem_singleton.mp hc]
      rintro rfl
      exact hb ha
  · unfold Fs.wrote
    dsimp only
    by_cases hb : b ∈ s.lh
    · rw [if_pos hb]
      refine ⟨.inl, fun hx => hx.elim id ?_⟩
      rintro rfl
      exact hb
    · rw [if_neg hb, List.mem_append, List.mem_singleton]

theorem logged_alloc (s : Fs) (b : ℕ) : Logged (fun x => x = s.sb.bblock b ∨ x = b) s (s.alloc b) :=
  (logged_wrote ..).trans (logged_wrote ..)

/-! ## Rules -/

theorem wp_logWrite {Q : Unit → Fs → Prop} (hok : Q () (s.wrote b v))
    (hlog : ∀ e s', e.Log → ¬ s.Room 1 → E e s') : wp (logWrite b v) Q E s := by
  unfold logWrite
  rw [wp_bind, wp_modify, wp_bind, wp_get, wp_ite]
  refine ⟨fun hfull => ?_, fun hfits => ?_⟩
  · rw [wp_throw]
    refine hlog _ _ (.inl rfl) fun hroom => ?_
    obtain ⟨h1, h2, -⟩ := hroom
    dsimp only at hfull
    omega
  · rw [wp_ite]
    refine ⟨fun hout => ?_, fun _ => ?_⟩
    · rw [wp_throw]
      refine hlog _ _ (.inr rfl) fun hroom => ?_
      have := hroom.2.2
      dsimp only at hout
      omega
    · rw [wp_modify]
      exact hok

/-- `balloc` gives a free data block away and fills it with zeroes, or panics because there is none
or because the log is full. -/
theorem wp_balloc {Q : UInt32 → Fs → Prop}
    (hmeta : ∀ b < s.sb.dataStart, s.view.used b = true)
    (hok : ∀ b, s.sb.Area b → s.view.used b = false → Q (.ofNat b) (s.alloc b))
    (hout : (∀ b, s.sb.Area b → s.view.used b = true) → E (.panic .ballocOut) s)
    (hlog : ∀ e s', e.Log → ¬ s.Room 2 → E e s') : wp balloc Q E s := by
  have hused : ∀ b < s.sb.size, s.view.used b = (s.disk (s.sb.bblock b)).bit (b % BPB) := by
    intro b hb
    change (decide (b < s.sb.size) && _) = _
    rw [decide_eq_true hb, Bool.true_and]
  unfold balloc
  rw [wp_bind, wp_get]
  cases hfree : s.freeBlock with
  | none =>
    refine hout fun b hb => ?_
    have := List.find?_eq_none.mp hfree b (List.mem_range.mpr hb.2)
    rw [hused b hb.2]
    simpa using this
  | some b =>
    have hlt : b < s.sb.size := List.mem_range.mp (List.mem_of_find?_eq_some hfree)
    have hbit : s.view.used b = false := by
      rw [hused b hlt]
      simpa using List.find?_some hfree
    have harea : s.sb.Area b := by
      refine ⟨?_, hlt⟩
      by_contra hlow
      rw [hmeta b (by omega)] at hbit
      cases hbit
    dsimp only
    rw [wp_bind]
    refine wp_logWrite ?_ fun e s' he hr => hlog e s' he fun h => hr (h.mono (by omega))
    rw [wp_bind]
    unfold bzero
    refine wp_logWrite ?_ fun e s' he hr => hlog e s' he fun h => hr (room_wrote h)
    rw [wp_pure]
    exact hok b harea hbit

/-- `bfree` frees a used block, and panics on a free one. -/
theorem wp_bfree {Q : Unit → Fs → Prop} {b : UInt32} (hb : b.toNat < s.sb.size)
    (hok : s.view.used b.toNat = true → Q () (s.free b.toNat))
    (hfree : s.view.used b.toNat = false → E (.panic .bfreeFree) s)
    (hlog : ∀ e s', e.Log → ¬ s.Room 1 → E e s') : wp (bfree b) Q E s := by
  have hused : s.view.used b.toNat = (s.disk (s.sb.bblock b.toNat)).bit (b.toNat % BPB) := by
    change (decide (b.toNat < s.sb.size) && _) = _
    rw [decide_eq_true hb, Bool.true_and]
  unfold bfree bread
  rw [wp_bind, wp_get, wp_bind, wp_bind, wp_get, wp_pure, wp_ite]
  refine ⟨fun hset => ?_, fun hclear => ?_⟩
  · exact wp_logWrite (hok (hused.trans hset)) hlog
  · rw [wp_throw]
    apply hfree
    rw [hused]
    simpa using hclear

/-- The inode in slot `k` may be used: it is locked, or some use without a lock has been noted
already. -/
def Fs.Audited (s : Fs) (k : Slot) : Prop := (s.icache k).locked = true ∨ s.unlocked = true

/-- Such a use leaves no trace. -/
theorem Fs.Audited.use_eq {k : Slot} (h : s.Audited k) : s.use k = s := by
  unfold Fs.use
  by_cases hl : (s.icache k).locked = true
  · rw [if_pos hl]
  · rw [if_neg hl, ← h.resolve_left hl]

theorem wp_uses {Q : Unit → Fs → Prop} {k : Slot} (h : s.Audited k) :
    wp (uses k) Q E s ↔ Q () s := by
  have hmodify : wp (uses k) Q E s ↔ Q () (s.use k) := Iff.rfl
  rw [hmodify, h.use_eq]

/-- `iupdate` writes the in-memory inode to disk. -/
theorem wp_iupdate {Q : Unit → Fs → Prop} {k : Slot} (ha : s.Audited k)
    (hok : Q () (s.wroteDinode (s.icache k).inum.toNat (s.icache k).din))
    (hlog : ∀ e s', e.Log → ¬ s.Room 1 → E e s') : wp (iupdate k) Q E s := by
  unfold iupdate inode bread
  rw [wp_bind, wp_uses ha, wp_bind, wp_get, wp_bind, wp_bind, wp_get, wp_pure, wp_bind, wp_bind,
    wp_get, wp_pure]
  exact wp_logWrite hok hlog

end

end ChronoFS
