import ChronoFS.Spec.Cache

/-!
# The blocks of an inode that is being changed

`Win` is the state in which a function works on the inode in slot `k`: it is loaded, the invariant
holds but for the inode itself, and the inode counts as owning what its in-memory copy says. `bmap`
keeps it. It may add blocks to the inode, one for the data and one for the indirect block; each is
full of zeroes, so that the contents of the file are what they were (`bmap_spec`).
-/

namespace ChronoFS

open Function

variable {st : Bool} {w fr : Option ℕ} {lg lg' lg'' : ℕ → Dinode} {hand : List ℕ} {s s' s'' : Fs}
  {k : Slot} {i b bn n : ℕ} {E : Halt → Fs → Prop} {H : Slot → ℤ × ℤ}

/-! ## The contents of a cached inode -/

/-- The block that holds block `bn` of the inode in slot `k`, or `0`. -/
def Fs.map (s : Fs) (k : Slot) (bn : ℕ) : ℕ := (s.icache k).din.map s.view.block bn

/-- The contents of block `bn` of the inode in slot `k`. -/
def Fs.content (s : Fs) (k : Slot) (bn : ℕ) : Block := (s.icache k).din.content s.view.block bn

/-- Byte `x` of the inode `d`. -/
def Dinode.byteAt (blk : ℕ → Block) (d : Dinode) (x : ℕ) : UInt8 :=
  (d.content blk (x / BSIZE)).get (x % BSIZE)

/-- Byte `x` of the inode in slot `k`. -/
def Fs.byteAt (s : Fs) (k : Slot) (x : ℕ) : UInt8 := (s.content k (x / BSIZE)).get (x % BSIZE)

theorem content_of_map (h : s.map k bn ≠ 0) : s.content k bn = s.view.block (s.map k bn) := if_neg h

theorem content_of_not_map (h : s.map k bn = 0) : s.content k bn = .zero := if_pos h

/-! ## States of one change -/

/-- The inode in slot `k` is being changed, and counts as what its in-memory copy says. -/
structure Win (st : Bool) (fr : Option ℕ) (lg : ℕ → Dinode) (hand : List ℕ) (k : Slot) (s : Fs) :
    Prop where
  /-- The inode is loaded. -/
  live : (s.icache k).Live
  /-- The invariant holds but for the inode. -/
  core : Core st (some (s.icache k).inum.toNat) fr lg hand s
  /-- It counts as what it is in memory. -/
  eq : lg (s.icache k).inum.toNat = (s.icache k).din
  /-- The inode may be used. -/
  audited : s.Audited k

/-- From `s` to `s'`, only the in-memory copy of the inode in slot `k`, the disk, the log and the
reference-count table changed. -/
structure Within (k : Slot) (s s' : Fs) : Prop where
  /-- The rest of the file system. -/
  rest : s'.rest = s.rest
  /-- The slot. -/
  self : s'.icache k = { s.icache k with din := (s'.icache k).din }
  /-- The other slots. -/
  other : ∀ j, j ≠ k → s'.icache j = s.icache j

namespace Within

theorem refl (k : Slot) (s : Fs) : Within k s s := ⟨rfl, rfl, fun _ _ => rfl⟩

theorem trans (h : Within k s s') (h' : Within k s' s'') : Within k s s'' := by
  refine ⟨h'.rest.trans h.rest, ?_, fun j hj => (h'.other j hj).trans (h.other j hj)⟩
  rw [h'.self, h.self]

variable (h : Within k s s')
include h

theorem inum : (s'.icache k).inum = (s.icache k).inum := by rw [h.self]

theorem ref : (s'.icache k).ref = (s.icache k).ref := by rw [h.self]

theorem valid : (s'.icache k).valid = (s.icache k).valid := by rw [h.self]

theorem live : (s'.icache k).Live ↔ (s.icache k).Live := by
  unfold Inode.Live
  rw [h.ref, h.valid]

theorem hold : s'.hold = s.hold := by
  funext j
  unfold Fs.hold
  by_cases hj : j = k
  · subst hj
    rw [h.self]
    rfl
  · rw [h.other j hj]

/-- A change that keeps the type of the inode keeps every slot. -/
theorem steady (htype : (s'.icache k).din.type = (s.icache k).din.type) : Steady H s s' := by
  refine ⟨h.rest, fun j _ => ?_⟩
  by_cases hj : j = k
  · subst hj
    refine ⟨by rw [h.self], h.inum, fun hv => ⟨h.valid.trans hv, htype⟩⟩
  · rw [h.other j hj]
    exact .refl _

theorem sb : s'.sb = s.sb := (congrArg Fs.sb h.rest :)

theorem versions : s'.versions = s.versions := (congrArg Fs.versions h.rest :)

theorem audited (ha : s.Audited k) : s'.Audited k := by
  have hflag : s'.unlocked = s.unlocked := (congrArg Fs.unlocked h.rest :)
  unfold Fs.Audited
  rw [h.self, hflag]
  exact ha

end Within

theorem Below.refl (d : Dinode) : Below d d := ⟨rfl, fun _ => .inr rfl, .inr rfl⟩

theorem Below.trans {a c d : Dinode} (h : Below a c) (h' : Below c d) : Below a d := by
  refine ⟨?_, fun j => ?_, ?_⟩
  · rw [← h'.rest, ← h.rest]
  · rcases h.addrs j with h0 | heq
    · exact .inl h0
    · rw [heq]
      exact h'.addrs j
  · rcases h.indirect with h0 | heq
    · exact .inl h0
    · rw [heq]
      exact h'.indirect

namespace Below

variable {a d : Dinode} (h : Below a d)
include h

theorem type : d.type = a.type := (congrArg Dinode.type h.rest :).symm

theorem size : d.size = a.size := (congrArg Dinode.size h.rest :).symm

theorem nlink : d.nlink = a.nlink := (congrArg Dinode.nlink h.rest :).symm

theorem versionHead : d.versionHead = a.versionHead := (congrArg Dinode.versionHead h.rest :).symm

end Below

/-- Block `b` belongs to the file in slot `k`. -/
def Fs.owns (s : Fs) (k : Slot) (b : ℕ) : Prop :=
  b ≠ 0 ∧ ((∃ bn, s.map k bn = b) ∨ (s.icache k).din.indirect.toNat = b)

/-- From `s` to `s'`, the blocks in use that do not belong to the file in slot `k` stay as they are,
and do not come to belong to it. -/
def Framed (k : Slot) (s s' : Fs) : Prop :=
  ∀ b, s.view.used b = true → ¬ s.owns k b →
    s'.view.block b = s.view.block b ∧ s'.view.used b = true ∧ ¬ s'.owns k b

theorem Framed.refl (k : Slot) (s : Fs) : Framed k s s := fun _ hb hk => ⟨rfl, hb, hk⟩

theorem Framed.trans (h : Framed k s s') (h' : Framed k s' s'') : Framed k s s'' := by
  intro b hb hk
  obtain ⟨hblk, hb', hk'⟩ := h b hb hk
  obtain ⟨hblk', hb'', hk''⟩ := h' b hb' hk'
  exact ⟨hblk'.trans hblk, hb'', hk''⟩

/-- From `s` to `s'`, the inode in slot `k` may have gained blocks. Data blocks may have been
written. -/
structure Grown (k : Slot) (lg : ℕ → Dinode) (s : Fs) (lg' : ℕ → Dinode) (s' : Fs) : Prop where
  /-- Nothing else changed. -/
  within : Within k s s'
  /-- The inodes on disk are the same. -/
  dinode : s'.view.dinode = s.view.dinode
  /-- The inode has the addresses that it had. -/
  below : Below (s.icache k).din (s'.icache k).din
  /-- So it has the blocks that it had. -/
  map : ∀ bn, s.map k bn ≠ 0 → s'.map k bn = s.map k bn
  /-- The other inodes count as before. -/
  others : ∀ j, j ≠ (s.icache k).inum.toNat → lg' j = lg j
  /-- The blocks of others are as before. -/
  frame : Framed k s s'

theorem Grown.refl (k : Slot) (lg : ℕ → Dinode) (s : Fs) : Grown k lg s lg s :=
  ⟨.refl k s, rfl, .refl _, fun _ _ => rfl, fun _ _ => rfl, .refl k s⟩

theorem Grown.trans (h : Grown k lg s lg' s') (h' : Grown k lg' s' lg'' s'') :
    Grown k lg s lg'' s'' := by
  refine ⟨h.within.trans h'.within, h'.dinode.trans h.dinode, h.below.trans h'.below,
    fun bn hbn => ?_, fun j hj => ?_, h.frame.trans h'.frame⟩
  · have heq := h.map bn hbn
    exact (h'.map bn (heq ▸ hbn)).trans heq
  · rw [← h.within.inum] at hj
    rw [h'.others j hj]
    rw [h.within.inum] at hj
    exact h.others j hj

/-! ## A fresh block -/

/-- A free block is not in the reference-count table. -/
theorem Core.fresh_untracked (h : Core st w fr lg hand s) (hb : s.sb.Area b)
    (hfree : s.view.used b = false) :
    ∀ e ∈ s.refcounts, e.valid = true → e.blockNum.toNat ≠ b := by
  obtain ⟨hno, hmem⟩ := h.own.fresh (View.area_ne_zero h.layout hb) hfree
  intro e he hv heq
  rcases h.tracked e he hv with hm | ⟨m, j, hmj, -⟩
  · exact hmem (heq ▸ hm)
  · exact hno _ (hmj.trans heq)

/-- Allocating a block changes no other. -/
theorem block_alloc_of_ne (h : s.sb.Valid) (hb : s.sb.Area b) {x : ℕ} (hx : x ≠ b) :
    (s.alloc b).view.block x = s.view.block x := by
  rw [view_alloc h hb]
  exact update_of_ne hx ..

theorem block_alloc_self (h : s.sb.Valid) (hb : s.sb.Area b) :
    (s.alloc b).view.block b = .zero := by
  rw [view_alloc h hb]
  exact update_self ..

theorem dinode_alloc (h : s.sb.Valid) (hb : s.sb.Area b) :
    (s.alloc b).view.dinode = s.view.dinode := by
  rw [view_alloc h hb]
  rfl

/-- The view does not depend on the cache. -/
theorem view_setSlot (s : Fs) (k : Slot) (ip : Inode) : (s.setSlot k ip).view = s.view := rfl

theorem used_alloc_of_used (h : s.sb.Valid) (hb : s.sb.Area b) {x : ℕ} (hx : s.view.used x = true) :
    (s.alloc b).view.used x = true := by
  rw [view_alloc h hb]
  by_cases hxb : x = b
  · rw [hxb]
    exact update_self ..
  · exact (update_of_ne hxb ..).trans hx

theorem within_setDin (s s' : Fs) (hrest : s'.rest = s.rest) (hic : s'.icache = s.icache)
    (k : Slot) (d : Dinode) : Within k s (s'.setSlot k { s.icache k with din := d }) := by
  refine ⟨hrest, ?_, fun j hj => ?_⟩
  · rw [setSlot_self]
  · rw [setSlot_of_ne _ _ hj, hic]

/-- A slot may be used as long as it stays locked. -/
theorem Fs.Audited.setSlot (h : s.Audited k) {ip : Inode} (hl : ip.locked = (s.icache k).locked) :
    (s.setSlot k ip).Audited k := by
  unfold Fs.Audited
  rw [setSlot_self, hl]
  exact h

/-- The in-memory copy is set to what the inode has come to count as. -/
theorem Core.win (h : Core st (some i) fr lg hand s') (hlive : (s.icache k).Live)
    (hi : (s.icache k).inum.toNat = i) (hic : s'.icache = s.icache) (ha : s'.Audited k) (d : Dinode)
    (hd : lg i = d) : Win st fr lg hand k (s'.setSlot k { s.icache k with din := d }) := by
  refine ⟨?_, ?_, ?_, ha.setSlot (by rw [hic])⟩
  · rw [setSlot_self]
    exact hlive
  · rw [setSlot_self, hi, ← hic]
    exact h.setDin (by rw [hic, hi]) d
  · rw [setSlot_self, hi]
    exact hd

/-! ## The blocks of one file -/

/-- The blocks of the file in slot `k`: the one that holds its block `bn`, and its indirect block. -/
def Fs.blockOf (s : Fs) (k : Slot) : Option ℕ → ℕ
  | some bn => s.map k bn
  | none => (s.icache k).din.indirect.toNat

/-- The blocks of the file in slot `k` are distinct data blocks, and marked used. -/
structure OwnsBlocks (k : Slot) (s : Fs) : Prop where
  /-- The areas of the disk do not overlap. -/
  layout : s.sb.Valid
  /-- The blocks before the data blocks are marked used. -/
  metaUsed : ∀ b < s.sb.dataStart, s.view.used b = true
  /-- The inode may be used. -/
  audited : s.Audited k
  /-- No two blocks of the file are the same. -/
  own : Own (s.blockOf k) [] s.view.used s.sb.Area

/-- From `s` to `s'`, the file in slot `k` may have gained blocks of zeroes. -/
structure Gains (k : Slot) (s s' : Fs) : Prop where
  /-- Its blocks are still its own. -/
  owns : OwnsBlocks k s'
  /-- Nothing else changed. -/
  within : Within k s s'
  /-- The inodes on disk are the same. -/
  dinode : s'.view.dinode = s.view.dinode
  /-- The inode has the addresses that it had. -/
  below : Below (s.icache k).din (s'.icache k).din
  /-- So it has the blocks that it had. -/
  map : ∀ bn, s.map k bn ≠ 0 → s'.map k bn = s.map k bn
  /-- The blocks of others are as before. -/
  frame : Framed k s s'
  /-- The contents are the same. -/
  content : ∀ bn, s'.content k bn = s.content k bn

/-- From `s` to `s'`, the file in slot `k` has gained the block `o` of it. -/
structure GainsOne (o : Option ℕ) (k : Slot) (s s' : Fs) : Prop extends Gains k s s' where
  /-- It has gained no other. -/
  one : ∀ o', o' ≠ o → s'.blockOf k o' = s.blockOf k o'

theorem Gains.refl (h : OwnsBlocks k s) : Gains k s s :=
  ⟨h, .refl k s, rfl, .refl _, fun _ _ => rfl, .refl k s, fun _ => rfl⟩

theorem Gains.trans (h : Gains k s s') (h' : Gains k s' s'') : Gains k s s'' := by
  refine ⟨h'.owns, h.within.trans h'.within, h'.dinode.trans h.dinode, h.below.trans h'.below,
    fun bn hbn => ?_, h.frame.trans h'.frame, fun bn => (h'.content bn).trans (h.content bn)⟩
  have heq := h.map bn hbn
  exact (h'.map bn (heq ▸ hbn)).trans heq

/-- A file's own blocks are those that belong to it. -/
theorem blockOf_ne (hnot : ¬ s.owns k b) (h0 : b ≠ 0) (o : Option ℕ) : s.blockOf k o ≠ b := by
  rintro rfl
  cases o with
  | none => exact hnot ⟨h0, .inr rfl⟩
  | some bn => exact hnot ⟨h0, .inl ⟨bn, rfl⟩⟩

namespace OwnsBlocks

variable (h : OwnsBlocks k s)
include h

/-- A data block of the file is where a data block can be. -/
theorem map_area (hbn : s.map k bn ≠ 0) : s.sb.Area (s.map k bn) := h.own.inArea (some bn) hbn

theorem indirect_area (h0 : (s.icache k).din.indirect ≠ 0) :
    s.sb.Area (s.icache k).din.indirect.toNat :=
  h.own.inArea none (toNat_ne_zero.mpr h0)

/-- A data block of the file is not its indirect block. -/
theorem map_ne_indirect (hbn : s.map k bn ≠ 0) :
    s.map k bn ≠ (s.icache k).din.indirect.toNat := by
  intro heq
  have hsame := h.own.inj (some bn) none hbn heq
  nomatch hsame

theorem map_inj {bn' : ℕ} (hbn : s.map k bn ≠ 0) (heq : s.map k bn = s.map k bn') : bn = bn' :=
  Option.some.inj (h.own.inj (some bn) (some bn') hbn heq)

section Fresh

variable (hb : s.sb.Area b) (hfree : s.view.used b = false)
include hb hfree

/-- A free block is not one of the file. -/
theorem fresh (o : Option ℕ) : s.blockOf k o ≠ b :=
  (h.own.fresh (View.area_ne_zero h.layout hb) hfree).1 o

/-- Allocating a block leaves the file alone. -/
theorem map_alloc (bn : ℕ) : (s.alloc b).map k bn = s.map k bn :=
  map_congr fun _ => block_alloc_of_ne h.layout hb (h.fresh hb hfree none)

/-- The block that is allocated is in hand. -/
theorem own_alloc : Own ((s.alloc b).blockOf k) [b] (s.alloc b).view.used s.sb.Area := by
  have hblocks : (s.alloc b).blockOf k = s.blockOf k := by
    funext o
    cases o with
    | none => rfl
    | some bn => exact h.map_alloc hb hfree bn
  have hused : (s.alloc b).view.used = update s.view.used b true := by
    rw [view_alloc h.layout hb]
    rfl
  rw [hblocks, hused]
  exact h.own.alloc (View.area_ne_zero h.layout hb) hb hfree

/-- The file gains the block `b`: it belongs to one owner from now on, and the others keep theirs. -/
theorem gain {o : Option ℕ} (hs : s'.view.used = (s.alloc b).view.used)
    (hdinode : s'.view.dinode = s.view.dinode) (hwithin : Within k s s')
    (hbelow : Below (s.icache k).din (s'.icache k).din) (hself : s'.blockOf k o = b)
    (hz : s.blockOf k o = 0) (hother : ∀ o', o' ≠ o → s'.blockOf k o' = s.blockOf k o')
    (hblk : ∀ x, x ≠ b → s.blockOf k none ≠ x → s'.view.block x = s.view.block x)
    (hzero : s'.view.block b = .zero) : GainsOne o k s s' := by
  have hne : ∀ x, s.view.used x = true → x ≠ b := by
    rintro x hx rfl
    rw [hx] at hfree
    nomatch hfree
  have hmap : ∀ bn, s.map k bn ≠ 0 → s'.map k bn = s.map k bn := by
    intro bn hbn
    refine hother (some bn) ?_
    rintro rfl
    exact hbn hz
  have hown : Own (s'.blockOf k) [] s'.view.used s.sb.Area := by
    rw [hs]
    refine (h.own_alloc hb hfree).attach (o := o) (fun o' ho' => ?_) hself
    rw [hother o' ho']
    cases o' with
    | none => rfl
    | some bn => exact (h.map_alloc hb hfree bn).symm
  refine ⟨⟨⟨hwithin.sb ▸ h.layout, ?_, hwithin.audited h.audited, hwithin.sb ▸ hown⟩, hwithin,
    hdinode, hbelow, hmap, ?_, ?_⟩, hother⟩
  · intro x hx
    rw [hs]
    exact used_alloc_of_used h.layout hb (h.metaUsed x (hwithin.sb ▸ hx))
  · -- a block of another file is not the new one, and not one of this file
    intro x hx hnot
    by_cases h0 : x = 0
    · have hblk0 : ∀ t : Fs, t.sb = s.sb → t.view.block 0 = .zero := fun t ht =>
        block_zero (ht ▸ h.layout)
      rw [h0, hblk0 s' hwithin.sb, hblk0 s rfl, hs]
      exact ⟨rfl, used_alloc_of_used h.layout hb (h0 ▸ hx), fun hc => hc.1 rfl⟩
    · refine ⟨hblk x (hne x hx) (blockOf_ne hnot h0 none), ?_, ?_⟩
      · rw [hs]
        exact used_alloc_of_used h.layout hb hx
      · have hall : ∀ o', s'.blockOf k o' ≠ x := by
          intro o'
          by_cases ho : o' = o
          · rw [ho, hself]
            exact (hne x hx).symm
          · rw [hother o' ho]
            exact blockOf_ne hnot h0 o'
        rintro ⟨-, ⟨bn, hbn⟩ | hind⟩
        · exact hall (some bn) hbn
        · exact hall none hind
  · intro bn
    by_cases h0 : s.map k bn = 0
    · rw [content_of_not_map h0]
      by_cases ho : some bn = o
      · -- the new block is full of zeroes
        have hmapb : s'.map k bn = b := by
          rw [← hself, ← ho]
          rfl
        rw [content_of_map (by rw [hmapb]; exact View.area_ne_zero h.layout hb), hmapb, hzero]
      · exact content_of_not_map ((hother (some bn) ho).trans h0)
    · rw [content_of_map h0, content_of_map (by rw [hmap bn h0]; exact h0), hmap bn h0]
      exact hblk _ (h.fresh hb hfree (some bn)) (h.map_ne_indirect h0).symm

/-- A file without direct block `j` gains one. -/
theorem fillDirect {j : Fin NDIRECT} (hz : (s.icache k).din.addrs j = 0) :
    GainsOne (some j.val) k s ((s.alloc b).setSlot k
      { s.icache k with din := (s.icache k).din.setAddr j (.ofNat b) }) := by
  refine h.gain hb hfree (o := some j.val) (by rw [view_setSlot])
    (by rw [view_setSlot, dinode_alloc h.layout hb]) (within_setDin s (s.alloc b) rfl rfl k _)
    ?_ ?_ ?_ ?_ ?_ (by rw [view_setSlot, block_alloc_self h.layout hb])
  · rw [setSlot_self]
    refine ⟨rfl, fun j' => ?_, .inr rfl⟩
    by_cases hj : j' = j
    · exact .inl (hj ▸ hz)
    · exact .inr (update_of_ne hj ..).symm
  · show Dinode.map _ _ _ = b
    rw [setSlot_self, view_setSlot]
    exact (map_setAddr_self ..).trans (View.toNat_ofNat_area h.layout hb)
  · show Dinode.map _ _ _ = 0
    rw [map_of_lt _ _ j.isLt, hz]
    rfl
  · rintro (_ | bn) ho
    · show (Dinode.indirect (Inode.din (Fs.icache _ k))).toNat = _
      rw [setSlot_self]
      rfl
    · show Dinode.map _ _ _ = _
      rw [setSlot_self, view_setSlot]
      refine (map_setAddr_of_ne _ _ fun heq => ho (congrArg some heq)).trans ?_
      exact h.map_alloc hb hfree bn
  · intro x hx _
    rw [view_setSlot]
    exact block_alloc_of_ne h.layout hb hx

/-- A file without an indirect block gains one. -/
theorem fillIndirect (hz : (s.icache k).din.indirect = 0) :
    GainsOne none k s ((s.alloc b).setSlot k
      { s.icache k with din := (s.icache k).din.setIndirect (.ofNat b) }) := by
  have hb' := View.toNat_ofNat_area h.layout hb
  refine h.gain hb hfree (o := none) (by rw [view_setSlot])
    (by rw [view_setSlot, dinode_alloc h.layout hb]) (within_setDin s (s.alloc b) rfl rfl k _)
    ?_ ?_ ?_ ?_ ?_ (by rw [view_setSlot, block_alloc_self h.layout hb])
  · rw [setSlot_self]
    exact ⟨rfl, fun _ => .inr rfl, .inl hz⟩
  · show (Dinode.indirect (Inode.din (Fs.icache _ k))).toNat = b
    rw [setSlot_self]
    exact hb'
  · show (s.icache k).din.indirect.toNat = 0
    rw [hz]
    rfl
  · rintro (_ | bn) ho
    · exact absurd rfl ho
    · show Dinode.map _ _ _ = _
      rw [setSlot_self, view_setSlot]
      refine (map_setIndirect hz ?_ bn).trans (h.map_alloc hb hfree bn)
      rw [hb', block_alloc_self h.layout hb]
  · intro x hx _
    rw [view_setSlot]
    exact block_alloc_of_ne h.layout hb hx

/-- A file with an empty entry in its indirect block gains a block there. -/
theorem fillEntry {j c : ℕ} (hc : (s.icache k).din.indirect.toNat = c)
    (h0 : (s.icache k).din.indirect ≠ 0) (hj : j < NINDIRECT) (hz : (s.view.block c).word j = 0) :
    GainsOne (some (NDIRECT + j)) k s
        ((s.alloc b).wrote c ((s.view.block c).setWord j (.ofNat b))) ∧
      ((s.alloc b).wrote c ((s.view.block c).setWord j (.ofNat b))).map k (NDIRECT + j) = b := by
  have hcb : c ≠ b := hc ▸ h.fresh hb hfree none
  have hblkc := block_alloc_of_ne h.layout hb hcb
  have hview : ((s.alloc b).wrote c ((s.view.block c).setWord j (.ofNat b))).view =
      (s.alloc b).view.setBlock c ((s.view.block c).setWord j (.ofNat b)) :=
    view_wrote (s := s.alloc b) h.layout (hc ▸ h.indirect_area h0)
  have hblk : ((s.alloc b).wrote c ((s.view.block c).setWord j (.ofNat b))).view.block c =
      ((s.alloc b).view.block c).setWord j (.ofNat b) := by
    rw [hview, hblkc]
    exact update_self ..
  obtain ⟨hself, hother⟩ := map_setWord (d := (s.icache k).din) (s.alloc b).view.block hc h0 hj hblk
  have hself : ((s.alloc b).wrote c ((s.view.block c).setWord j (.ofNat b))).map k (NDIRECT + j) =
      b := hself.trans (View.toNat_ofNat_area h.layout hb)
  refine ⟨h.gain hb hfree (o := some (NDIRECT + j)) ?_ ?_ ⟨rfl, rfl, fun _ _ => rfl⟩ (.refl _)
    hself ?_ ?_ ?_ ?_, hself⟩
  · rw [hview]
    rfl
  · rw [hview]
    exact dinode_alloc h.layout hb
  · show Dinode.map _ _ _ = 0
    rw [map_of_ge _ _ (Nat.le_add_right _ _), hc, Nat.add_sub_cancel_left, hz]
    simp
  · rintro (_ | bn) ho
    · rfl
    · exact (hother bn fun heq => ho (congrArg some heq)).trans (h.map_alloc hb hfree bn)
  · intro x hx hxc
    rw [hview]
    refine (update_of_ne (fun heq => hxc ?_) ..).trans (block_alloc_of_ne h.layout hb hx)
    rw [heq]
    exact hc
  · rw [hview]
    exact (update_of_ne hcb.symm ..).trans (block_alloc_self h.layout hb)

end Fresh

end OwnsBlocks

/-! ## `bmap` -/

/-- From `s` to `s'`, the inode in slot `k` may have gained blocks of zeroes. -/
structure Filled (st : Bool) (fr : Option ℕ) (hand : List ℕ) (k : Slot) (lg : ℕ → Dinode) (s : Fs)
    (lg' : ℕ → Dinode) (s' : Fs) : Prop where
  /-- The inode is still being changed. -/
  win : Win st fr lg' hand k s'
  /-- It only gained blocks. -/
  grown : Grown k lg s lg' s'
  /-- Its contents are the same. -/
  content : ∀ bn, s'.content k bn = s.content k bn

/-- A slot that holds what its inode counts as owns the blocks of the inode. -/
theorem Core.own_file (h : Core st w fr lg hand s)
    (heq : lg (s.icache k).inum.toNat = (s.icache k).din) :
    Own (s.blockOf k) [] s.view.used s.sb.Area := by
  have hblocks : s.blockOf k = fun o => refs lg s.view.block s.versions
      (o.elim (.indirect (s.icache k).inum.toNat) (.data (s.icache k).inum.toNat)) := by
    funext o
    cases o with
    | none =>
      show (s.icache k).din.indirect.toNat = (lg _).indirect.toNat
      rw [heq]
    | some bn =>
      show (s.icache k).din.map s.view.block bn = (lg _).map s.view.block bn
      rw [heq]
  rw [hblocks]
  refine h.own.comap fun o o' heq => ?_
  cases o <;> cases o' <;> simp_all

/-- The slot and its file, in the terms of what the inode counts as. -/
theorem Win.map_eq (h : Win st fr lg hand k s) (bn : ℕ) :
    s.map k bn = (lg (s.icache k).inum.toNat).map s.view.block bn := by
  rw [h.eq]
  rfl

/-- The inode as the owner of its blocks. -/
theorem Win.owns (h : Win st fr lg hand k s) : OwnsBlocks k s :=
  ⟨h.core.layout, h.core.metaUsed, h.audited, h.core.own_file h.eq⟩

/-- The inode has gained blocks, and counts as having them. -/
theorem Gains.filled (hgain : Gains k s s') (hwin : Win st fr lg' hand k s')
    (hothers : ∀ j, j ≠ (s.icache k).inum.toNat → lg' j = lg j) :
    Filled st fr hand k lg s lg' s' :=
  ⟨hwin, ⟨hgain.within, hgain.dinode, hgain.below, hgain.map, hothers, hgain.frame⟩, hgain.content⟩

/-- An inode without direct block `j` gains one. -/
theorem Win.fillDirect (h : Win st fr lg hand k s) {j : Fin NDIRECT}
    (hz : (s.icache k).din.addrs j = 0) (hb : s.sb.Area b) (hfree : s.view.used b = false) :
    Filled st fr hand k lg s
      (update lg (s.icache k).inum.toNat ((s.icache k).din.setAddr j (.ofNat b)))
      ((s.alloc b).setSlot k
        { s.icache k with din := (s.icache k).din.setAddr j (.ofNat b) }) := by
  have hcore := (h.core.alloc hb hfree).attachDirect j (h.core.fresh_untracked hb hfree)
  rw [h.eq] at hcore
  exact (h.owns.fillDirect hb hfree hz).filled
    (hcore.win h.live rfl rfl h.audited _ (update_self ..)) fun j' hj' => update_of_ne hj' ..

/-- An inode without an indirect block gains one. -/
theorem Win.fillIndirect (h : Win st fr lg hand k s) (hz : (s.icache k).din.indirect = 0)
    (hb : s.sb.Area b) (hfree : s.view.used b = false) :
    Filled st fr hand k lg s
      (update lg (s.icache k).inum.toNat ((s.icache k).din.setIndirect (.ofNat b)))
      ((s.alloc b).setSlot k
        { s.icache k with din := (s.icache k).din.setIndirect (.ofNat b) }) := by
  have hcore := (h.core.alloc hb hfree).attachIndirect (by rw [h.eq]; exact hz)
    (block_alloc_self h.core.layout hb) (h.core.fresh_untracked hb hfree)
  rw [h.eq] at hcore
  exact (h.owns.fillIndirect hb hfree hz).filled
    (hcore.win h.live rfl rfl h.audited _ (update_self ..)) fun j' hj' => update_of_ne hj' ..

/-- An inode with an empty entry in its indirect block gains a block there. -/
theorem Win.fillEntry (h : Win st fr lg hand k s) {j c : ℕ} (hc : (s.icache k).din.indirect.toNat = c)
    (h0 : (s.icache k).din.indirect ≠ 0) (hj : j < NINDIRECT) (hz : (s.view.block c).word j = 0)
    (hb : s.sb.Area b) (hfree : s.view.used b = false) :
    Filled st fr hand k lg s lg
        ((s.alloc b).wrote c ((s.view.block c).setWord j (.ofNat b))) ∧
      ((s.alloc b).wrote c ((s.view.block c).setWord j (.ofNat b))).map k (NDIRECT + j) = b := by
  have hlg : (lg (s.icache k).inum.toNat).indirect.toNat = c := by
    rw [h.eq]
    exact hc
  have hlg0 : (lg (s.icache k).inum.toNat).indirect ≠ 0 := by
    rw [h.eq]
    exact h0
  have hcb : c ≠ b := hc ▸ h.owns.fresh hb hfree none
  have hcore := (h.core.alloc hb hfree).attachEntry hlg hlg0 hj (h.core.fresh_untracked hb hfree)
  rw [block_alloc_of_ne h.core.layout hb hcb] at hcore
  obtain ⟨hgain, hself⟩ := h.owns.fillEntry hb hfree hc h0 hj hz
  exact ⟨hgain.filled ⟨h.live, hcore, h.eq, h.audited⟩ fun _ _ => rfl, hself⟩

theorem Filled.refl (h : Win st fr lg hand k s) : Filled st fr hand k lg s lg s :=
  ⟨h, .refl .., fun _ => rfl⟩

theorem Filled.trans (h : Filled st fr hand k lg s lg' s')
    (h' : Filled st fr hand k lg' s' lg'' s'') : Filled st fr hand k lg s lg'' s'' :=
  ⟨h'.win, h.grown.trans h'.grown, fun bn => (h'.content bn).trans (h.content bn)⟩

/-- What `balloc` can halt with. -/
theorem benign_ballocOut : (Halt.panic .ballocOut).Benign := ⟨by decide, by decide⟩

theorem indirectBlock_spec (h : Win st fr lg hand k s) (hE : ∀ e s', e.Benign → E e s') :
    wp (indirectBlock k) (fun a s' => ∃ lg', Filled st fr hand k lg s lg' s' ∧
      a = (s'.icache k).din.indirect ∧ a ≠ 0 ∧
      ((s.icache k).din.indirect ≠ 0 → s' = s ∧ lg' = lg)) E s := by
  unfold indirectBlock
  rw [wp_bind, wp_inode, wp_ite]
  refine ⟨fun hz => ?_, fun h0 => ?_⟩
  · rw [wp_bind]
    refine wp_balloc h.core.metaUsed (fun b hb hfree => ?_)
      (fun _ => hE _ _ benign_ballocOut) fun e s' he _ => hE e s' he.benign
    rw [wp_bind, wp_setDin (s := s.alloc b) h.audited, wp_pure]
    refine ⟨_, h.fillIndirect hz hb hfree, ?_, ?_, fun h0 => absurd hz h0⟩
    · rw [setSlot_self]
    · intro heq
      have := congrArg UInt32.toNat heq
      rw [View.toNat_ofNat_area h.core.layout hb] at this
      exact View.area_ne_zero h.core.layout hb this
  · rw [wp_pure]
    exact ⟨lg, .refl h, rfl, h0, fun _ => ⟨rfl, rfl⟩⟩

/-- `bmap` returns the block, which the inode may have gained. -/
theorem bmap_spec (h : Win st fr lg hand k s) (hE : ∀ e s', e.Benign → E e s') :
    wp (bmap k bn) (fun a s' => ∃ lg', Filled st fr hand k lg s lg' s' ∧
      a.toNat = s'.map k bn ∧ s'.map k bn ≠ 0 ∧ (s.map k bn ≠ 0 → s' = s ∧ lg' = lg)) E s := by
  unfold bmap
  by_cases hbn : bn < NDIRECT
  · rw [dif_pos hbn, wp_bind, wp_inode, wp_ite]
    have hmap : s.map k bn = ((s.icache k).din.addrs ⟨bn, hbn⟩).toNat := map_of_lt _ _ hbn
    refine ⟨fun hz => ?_, fun h0 => ?_⟩
    · rw [wp_bind]
      refine wp_balloc h.core.metaUsed (fun b hb hfree => ?_)
        (fun _ => hE _ _ benign_ballocOut) fun e s' he _ => hE e s' he.benign
      rw [wp_bind, wp_setDin (s := s.alloc b) h.audited, wp_pure]
      have hself : ((s.alloc b).setSlot k
          { s.icache k with din := (s.icache k).din.setAddr ⟨bn, hbn⟩ (.ofNat b) }).map k bn =
          (UInt32.ofNat b).toNat := by
        unfold Fs.map
        rw [setSlot_self]
        exact map_setAddr_self _ ⟨bn, hbn⟩ _
      refine ⟨_, h.fillDirect hz hb hfree, hself.symm, ?_, fun h0 => ?_⟩
      · change ((s.alloc b).setSlot k
          { s.icache k with din := (s.icache k).din.setAddr ⟨bn, hbn⟩ (.ofNat b) }).map k bn ≠ 0
        rw [hself, View.toNat_ofNat_area h.core.layout hb]
        exact View.area_ne_zero h.core.layout hb
      · rw [hmap, hz] at h0
        exact absurd rfl h0
    · rw [wp_pure]
      exact ⟨lg, .refl h, hmap.symm, hmap ▸ toNat_ne_zero.mpr h0, fun _ => ⟨rfl, rfl⟩⟩
  · rw [dif_neg hbn, wp_ite]
    refine ⟨fun hin => ?_, fun _ => ?_⟩
    · refine wp_of_spec (indirectBlock_spec h hE) (fun _ _ => id) ?_
      rintro ind s1 ⟨lg1, hfill, rfl, h0, hsame⟩
      have hwin := hfill.win
      have hblk : s1.disk (s1.icache k).din.indirect.toNat =
          s1.view.block (s1.icache k).din.indirect.toNat := disk_eq_block (hwin.owns.indirect_area h0)
      have hbn' : NDIRECT + (bn - NDIRECT) = bn := by omega
      have hmap : s1.map k bn = ((s1.view.block (s1.icache k).din.indirect.toNat).word
          (bn - NDIRECT)).toNat := by
        refine (map_of_ge _ _ (Nat.not_lt.mp hbn)).trans (if_pos ⟨?_, h0⟩)
        simp only [MAXFILE]
        omega
      -- if the block was there, so was the indirect block
      have hold : s.map k bn ≠ 0 → s1 = s ∧ lg1 = lg := by
        intro hne
        refine hsame fun hz => hne ?_
        refine (map_of_ge _ _ (Nat.not_lt.mp hbn)).trans (if_neg fun hc => hc.2 hz)
      unfold bread
      rw [wp_bind, wp_bind, wp_get, wp_pure, hblk, wp_ite]
      refine ⟨fun hz => ?_, fun hne => ?_⟩
      · rw [wp_bind]
        refine wp_balloc hwin.core.metaUsed (fun b hb hfree => ?_)
          (fun _ => hE _ _ benign_ballocOut) fun e s' he _ => hE e s' he.benign
        rw [wp_bind]
        refine wp_logWrite ?_ fun e s' he _ => hE e s' he.benign
        rw [wp_pure]
        obtain ⟨hfill', hself⟩ := hwin.fillEntry rfl h0 hin hz hb hfree
        rw [hbn'] at hself
        refine ⟨lg1, hfill.trans hfill', ?_, ?_, fun hne => ?_⟩
        · rw [hself]
          exact View.toNat_ofNat_area hwin.core.layout hb
        · rw [hself]
          exact View.area_ne_zero hwin.core.layout hb
        · obtain ⟨rfl, -⟩ := hold hne
          rw [hmap, hz] at hne
          exact absurd rfl hne
      · rw [wp_pure]
        exact ⟨lg1, hfill, hmap.symm, hmap ▸ toNat_ne_zero.mpr hne, hold⟩
    · rw [wp_throw]
      exact hE _ _ ⟨by decide, by decide⟩

end ChronoFS
