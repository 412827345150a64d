import ChronoFS.Mkfs.Model
import ChronoFS.Spec.Content

/-!
# What `iappend` leaves on the image

`mkfs` gives blocks away in order, so the blocks below `freeblock` are those that have an owner, and
each has one (`Placed`). The files hold the bytes that were appended to them, and are zero after
them (`Holds`); that is also what the kernel finds there, since both say what a block of a file is by
`Dinode.map`. A pass of the loop of `iappend` takes a new block if the file ends at the end of a
block, and another one for the indirect block if the file is as long as its direct blocks
(`wp_appendBlock`). How many blocks a file has is then given by its length (`blocksFor`), and this
decides whether the image is large enough (`wp_appendChunks`).
-/

namespace ChronoFS.Mkfs

open Function

variable {lg lg' lg'' : ℕ → Dinode} {c : ℕ → List UInt8} {s s' s'' : State} {o : Owner}
  {i b bn fbn off n : ℕ} {p : List UInt8} {E : Stop → State → Prop}

/-! ## Blocks with one owner -/

/-- What the image says. -/
def State.view (s : State) : View := .of .mkfs s.disk

/-- The image with block `b` replaced. -/
def State.put (s : State) (b : ℕ) (v : Block) : State := { s with disk := update s.disk b v }

/-- The state after `freeblock++`. -/
def State.bump (s : State) : State := { s with freeblock := s.freeblock + 1 }

theorem view_bump (s : State) : s.bump.view = s.view := rfl

theorem view_put (hb : Superblock.mkfs.Area b) (v : Block) :
    (s.put b v).view = s.view.setBlock b v :=
  View.of_area Superblock.mkfs_valid hb v

theorem disk_put_self (s : State) (b : ℕ) (v : Block) : (s.put b v).disk b = v := by
  show update s.disk b v b = v
  rw [update_self]

theorem disk_eq_block (hb : Superblock.mkfs.Area b) : s.disk b = s.view.block b :=
  (View.block_of_area hb).symm

/-- The inodes `lg` own the blocks below `freeblock`, each of which has one owner. -/
structure Placed (lg : ℕ → Dinode) (s : State) : Prop where
  /-- Blocks are given away from the first data block on. -/
  lower : Superblock.mkfs.dataStart ≤ s.freeblock
  /-- The image is large enough for them. -/
  upper : s.freeblock ≤ FSSIZE
  /-- The other blocks have not been written. -/
  zero : ∀ b, s.freeblock ≤ b → s.view.block b = .zero
  /-- A block has at most one owner. -/
  own : Own (refs lg s.view.block []) [] (fun b => decide (b < s.freeblock)) Superblock.mkfs.Area
  /-- It has one. -/
  full : ∀ b, Superblock.mkfs.Area b → b < s.freeblock → ∃ o, refs lg s.view.block [] o = b

/-- From `s` to `s'`, block `fbn` of the file `i` may have been allocated, with the indirect block for
it. -/
structure Given (i fbn : ℕ) (lg lg' : ℕ → Dinode) (s s' : State) : Prop where
  /-- Every block in use has one owner. -/
  placed : Placed lg' s'
  /-- The inode has the addresses that it had. -/
  below : Below (lg i) (lg' i)
  /-- The other inodes are the same. -/
  others : ∀ j, j ≠ i → lg' j = lg j
  /-- The other blocks are where they were. -/
  map : ∀ j bn, j ≠ i ∨ bn ≠ fbn → (lg' j).map s'.view.block bn = (lg j).map s.view.block bn
  /-- All files hold what they held. -/
  content : ∀ j bn, (lg' j).content s'.view.block bn = (lg j).content s.view.block bn
  /-- The blocks before the data blocks are the same. -/
  frame : ∀ b < Superblock.mkfs.dataStart, s'.disk b = s.disk b
  /-- So is the number of inodes. -/
  freeinode : s'.freeinode = s.freeinode

theorem Given.refl (h : Placed lg s) (i fbn : ℕ) : Given i fbn lg lg s s :=
  ⟨h, .refl _, fun _ _ => rfl, fun _ _ _ => rfl, fun _ _ => rfl, fun _ _ => rfl, rfl⟩

theorem Given.trans (h : Given i fbn lg lg' s s') (h' : Given i fbn lg' lg'' s' s'') :
    Given i fbn lg lg'' s s'' :=
  ⟨h'.placed, h.below.trans h'.below, fun j hj => (h'.others j hj).trans (h.others j hj),
    fun j bn hne => (h'.map j bn hne).trans (h.map j bn hne),
    fun j bn => (h'.content j bn).trans (h.content j bn),
    fun b hb => (h'.frame b hb).trans (h.frame b hb), h'.freeinode.trans h.freeinode⟩

namespace Placed

variable (h : Placed lg s)
include h

theorem area (hlt : s.freeblock < FSSIZE) : Superblock.mkfs.Area s.freeblock := ⟨h.lower, hlt⟩

/-- The number of the next block survives being stored. -/
theorem toNat_freeblock : (UInt32.ofNat s.freeblock).toNat = s.freeblock := by
  have := h.upper
  refine UInt32.toNat_ofNat_of_lt (lt_of_le_of_lt this ?_)
  decide

theorem freeblock_ne_zero : s.freeblock ≠ 0 := by
  have hlow := h.lower
  have hpos : 0 < Superblock.mkfs.dataStart := by decide
  omega

/-- The next block has no owner. -/
theorem fresh (o : Owner) : refs lg s.view.block [] o ≠ s.freeblock :=
  (h.own.fresh h.freeblock_ne_zero (decide_eq_false (lt_irrefl _))).1 o

/-- A block with an owner is a data block, and has been given away. -/
theorem lt_freeblock (ho : refs lg s.view.block [] o ≠ 0) :
    Superblock.mkfs.Area (refs lg s.view.block [] o) ∧ refs lg s.view.block [] o < s.freeblock :=
  ⟨h.own.inArea o ho, of_decide_eq_true (h.own.isUsed o ho)⟩

/-- A data block of a file is not an indirect block. -/
theorem map_ne_indirect (hbn : (lg i).map s.view.block bn ≠ 0) (j : ℕ) :
    (lg j).indirect.toNat ≠ (lg i).map s.view.block bn := by
  intro heq
  have hsame := h.own.inj (.data i bn) (.indirect j) hbn heq.symm
  nomatch hsame

/-- The next block goes to the owner `o`, of the file `i`. -/
theorem given (hlt : s.freeblock < FSSIZE) (ho : o = .data i fbn ∨ o = .indirect i)
    (hfb : s'.freeblock = s.freeblock + 1) (hfi : s'.freeinode = s.freeinode)
    (hframe : ∀ b < Superblock.mkfs.dataStart, s'.disk b = s.disk b)
    (hbelow : Below (lg i) (lg' i)) (hothers : ∀ j, j ≠ i → lg' j = lg j)
    (hself : refs lg' s'.view.block [] o = s.freeblock) (hz : refs lg s.view.block [] o = 0)
    (hother : ∀ o', o' ≠ o → refs lg' s'.view.block [] o' = refs lg s.view.block [] o')
    (hblk : ∀ x, (∀ j, (lg j).indirect.toNat ≠ x) → s'.view.block x = s.view.block x) :
    Given i fbn lg lg' s s' := by
  -- the blocks that are not given away are no indirect blocks
  have hfree : ∀ x, s.freeblock ≤ x → s'.view.block x = .zero := by
    intro x hx
    refine (hblk x fun j heq => ?_).trans (h.zero x hx)
    have hne : refs lg s.view.block [] (.indirect j) ≠ 0 := by
      show (lg j).indirect.toNat ≠ 0
      have := h.freeblock_ne_zero
      omega
    have hlt' : (lg j).indirect.toNat < s.freeblock := (h.lt_freeblock hne).2
    omega
  have hmap : ∀ j bn, Owner.data j bn ≠ o →
      (lg' j).map s'.view.block bn = (lg j).map s.view.block bn := fun j bn hne => hother _ hne
  refine ⟨⟨?_, ?_, fun x hx => hfree x (by omega), ?_, fun x hx hxlt => ?_⟩, hbelow, hothers,
    fun j bn hne => hmap j bn ?_, fun j bn => ?_, hframe, hfi⟩
  · have := h.lower
    omega
  · omega
  · -- the block is allocated and given to its owner
    have hused : (fun b => decide (b < s'.freeblock)) =
        update (fun b => decide (b < s.freeblock)) s.freeblock true := by
      funext x
      rw [hfb]
      by_cases hx : x = s.freeblock
      · rw [hx, update_self]
        simp
      · rw [update_of_ne hx]
        simp only [decide_eq_decide]
        omega
    rw [hused]
    exact (h.own.alloc h.freeblock_ne_zero (h.area hlt) (decide_eq_false (lt_irrefl _))).attach
      (fun o' ho' => hother o' ho') hself
  · by_cases hnew : x = s.freeblock
    · exact ⟨o, hself.trans hnew.symm⟩
    · obtain ⟨o', ho'⟩ := h.full x hx (by omega)
      refine ⟨o', (hother o' ?_).trans ho'⟩
      rintro rfl
      have hpos := hx.1
      have hstart : 0 < Superblock.mkfs.dataStart := by decide
      omega
  · rcases ho with rfl | rfl
    · rintro ⟨⟩
      rcases hne with hne | hne <;> exact hne rfl
    · nofun
  · unfold Dinode.content
    by_cases hnew : Owner.data j bn = o
    · -- the new block is full of zeroes
      have hnewmap : (lg' j).map s'.view.block bn = s.freeblock :=
        (congrArg (refs lg' s'.view.block []) hnew).trans hself
      have holdmap : (lg j).map s.view.block bn = 0 :=
        (congrArg (refs lg s.view.block []) hnew).trans hz
      rw [hnewmap, holdmap, if_neg h.freeblock_ne_zero, if_pos rfl]
      exact hfree _ le_rfl
    · rw [hmap j bn hnew]
      by_cases h0 : (lg j).map s.view.block bn = 0
      · rw [if_pos h0, if_pos h0]
      · rw [if_neg h0, if_neg h0]
        exact hblk _ (h.map_ne_indirect h0)

/-- A direct block is allocated. -/
theorem giveDirect (hlt : s.freeblock < FSSIZE) {j : Fin NDIRECT} (hz : (lg i).addrs j = 0) :
    Given i j lg (update lg i ((lg i).setAddr j (.ofNat s.freeblock))) s s.bump := by
  refine h.given hlt (o := .data i j) (.inl rfl) rfl rfl (fun _ _ => rfl) ?_
    (fun j' hj' => update_of_ne hj' ..) ?_ ?_ (fun o' ho' => refs_setAddr _ ho') fun _ _ => rfl
  · rw [update_self]
    refine ⟨rfl, fun j' => ?_, .inr rfl⟩
    by_cases hj : j' = j
    · exact .inl (hj ▸ hz)
    · exact .inr (update_of_ne hj ..).symm
  · rw [refs_update_data, map_setAddr_self, h.toNat_freeblock]
  · show (lg i).map s.view.block j = 0
    rw [map_of_lt _ _ j.isLt, hz]
    rfl

/-- The indirect block is allocated. -/
theorem giveIndirect (hlt : s.freeblock < FSSIZE) (hz : (lg i).indirect = 0) (fbn : ℕ) :
    Given i fbn lg (update lg i ((lg i).setIndirect (.ofNat s.freeblock))) s s.bump := by
  refine h.given hlt (o := .indirect i) (.inr rfl) rfl rfl (fun _ _ => rfl) ?_
    (fun j' hj' => update_of_ne hj' ..) ?_ ?_ (fun o' ho' => refs_setIndirect hz ?_ ho')
    fun _ _ => rfl
  · rw [update_self]
    exact ⟨rfl, fun _ => .inr rfl, .inl hz⟩
  · rw [refs_update_indirect]
    exact h.toNat_freeblock
  · show (lg i).indirect.toNat = 0
    rw [hz]
    rfl
  · rw [h.toNat_freeblock, view_bump]
    exact h.zero _ le_rfl

/-- An entry of the indirect block is allocated. -/
theorem giveEntry (hlt : s.freeblock < FSSIZE) {j : ℕ} (h0 : (lg i).indirect ≠ 0)
    (hj : j < NINDIRECT) (hz : (s.view.block (lg i).indirect.toNat).word j = 0) :
    Given i (NDIRECT + j) lg lg s (s.bump.put (lg i).indirect.toNat
      ((s.view.block (lg i).indirect.toNat).setWord j (.ofNat s.freeblock))) ∧
    (lg i).map (s.bump.put (lg i).indirect.toNat ((s.view.block (lg i).indirect.toNat).setWord j
      (.ofNat s.freeblock))).view.block (NDIRECT + j) = s.freeblock := by
  have harea : Superblock.mkfs.Area (lg i).indirect.toNat :=
    (h.lt_freeblock (o := .indirect i) (toNat_ne_zero.mpr h0)).1
  have hview : (s.bump.put (lg i).indirect.toNat ((s.view.block (lg i).indirect.toNat).setWord j
      (.ofNat s.freeblock))).view = s.view.setBlock (lg i).indirect.toNat
        ((s.view.block (lg i).indirect.toNat).setWord j (.ofNat s.freeblock)) := view_put harea _
  have hblk : (s.bump.put (lg i).indirect.toNat ((s.view.block (lg i).indirect.toNat).setWord j
      (.ofNat s.freeblock))).view.block (lg i).indirect.toNat =
        (s.view.block (lg i).indirect.toNat).setWord j (.ofNat s.freeblock) := by
    rw [hview]
    exact update_self ..
  have hsame : ∀ x, (lg i).indirect.toNat ≠ x → (s.bump.put (lg i).indirect.toNat
      ((s.view.block (lg i).indirect.toNat).setWord j (.ofNat s.freeblock))).view.block x =
        s.view.block x := by
    intro x hx
    rw [hview]
    exact update_of_ne hx.symm ..
  obtain ⟨hself, hother⟩ := map_setWord s.view.block rfl h0 hj hblk
  have hself' := hself.trans h.toNat_freeblock
  refine ⟨h.given hlt (o := .data i (NDIRECT + j)) (.inl rfl) rfl rfl (fun b hb => ?_) (.refl _)
    (fun _ _ => rfl) hself' ?_ (fun o' ho' => ?_) fun x hx => hsame x (hx i), hself'⟩
  · refine update_of_ne ?_ ..
    have := harea.1
    omega
  · show (lg i).map s.view.block (NDIRECT + j) = 0
    rw [map_of_ge _ _ (Nat.le_add_right ..), Nat.add_sub_cancel_left, hz]
    simp
  · cases o' with
    | data j' bn =>
      by_cases hj' : j' = i
      · subst hj'
        exact hother bn fun heq => ho' (by rw [heq])
      · -- the indirect block of another file is another block
        refine map_congr fun h0' => hsame _ fun heq => hj' ?_
        have := h.own.inj (.indirect i) (.indirect j') (toNat_ne_zero.mpr h0) heq
        exact (Owner.indirect.inj this).symm
    | indirect j' => rfl
    | vnode n => rfl
    | vdata n k => rfl

/-- A data block of a file is written. -/
theorem write (hbn : (lg i).map s.view.block bn ≠ 0) (v : Block) :
    Placed lg (s.put ((lg i).map s.view.block bn) v) ∧
      (∀ j bn', (lg j).map (s.put ((lg i).map s.view.block bn) v).view.block bn' =
        (lg j).map s.view.block bn') ∧
      (lg i).content (s.put ((lg i).map s.view.block bn) v).view.block bn = v ∧
      (∀ j bn', j ≠ i ∨ bn' ≠ bn →
        (lg j).content (s.put ((lg i).map s.view.block bn) v).view.block bn' =
          (lg j).content s.view.block bn') ∧
      ∀ b < Superblock.mkfs.dataStart, (s.put ((lg i).map s.view.block bn) v).disk b = s.disk b := by
  obtain ⟨harea, hlt⟩ := h.lt_freeblock (o := .data i bn) hbn
  have hview : (s.put ((lg i).map s.view.block bn) v).view =
      s.view.setBlock ((lg i).map s.view.block bn) v := view_put harea v
  have hne : ∀ x, x ≠ (lg i).map s.view.block bn →
      (s.put ((lg i).map s.view.block bn) v).view.block x = s.view.block x := by
    intro x hx
    rw [hview]
    exact update_of_ne hx ..
  have hmap : ∀ j bn', (lg j).map (s.put ((lg i).map s.view.block bn) v).view.block bn' =
      (lg j).map s.view.block bn' := fun j bn' =>
    map_congr fun _ => hne _ (h.map_ne_indirect hbn j)
  have hrefs : refs lg (s.put ((lg i).map s.view.block bn) v).view.block [] =
      refs lg s.view.block [] := refs_congr fun j _ => hne _ (h.map_ne_indirect hbn j)
  refine ⟨⟨h.lower, h.upper, fun x hx => ?_, ?_, ?_⟩, hmap, ?_, fun j bn' hdiff => ?_,
    fun x hx => ?_⟩
  · rw [hne x]
    · exact h.zero x hx
    · have hlt' : (lg i).map s.view.block bn < s.freeblock := hlt
      change s.freeblock ≤ x at hx
      omega
  · rw [hrefs]
    exact h.own
  · rw [hrefs]
    exact h.full
  · unfold Dinode.content
    rw [hmap, if_neg hbn, hview]
    exact update_self ..
  · unfold Dinode.content
    rw [hmap]
    by_cases h0 : (lg j).map s.view.block bn' = 0
    · rw [if_pos h0, if_pos h0]
    · rw [if_neg h0, if_neg h0]
      refine hne _ fun heq => ?_
      have hsame := h.own.inj (.data j bn') (.data i bn) h0 heq
      obtain ⟨rfl, rfl⟩ := Owner.data.inj hsame
      rcases hdiff with hd | hd <;> exact hd rfl
  · refine update_of_ne ?_ ..
    have hlow : Superblock.mkfs.dataStart ≤ (lg i).map s.view.block bn := harea.1
    omega

end Placed

/-! ## Rules for the functions on the image -/

theorem wp_rsect {sec : ℕ} {Q : Block → State → Prop} (hok : sec < FSSIZE → Q (s.disk sec) s)
    (hread : FSSIZE ≤ sec → E .read s) : wp (rsect sec) Q E s := by
  unfold rsect
  rw [wp_bind, wp_get, wp_ite]
  exact ⟨hok, fun h => hread (Nat.not_lt.mp h)⟩

theorem wp_wsect {sec : ℕ} {buf : Block} {Q : Unit → State → Prop} :
    wp (wsect sec buf) Q E s ↔ Q () (s.put sec buf) := Iff.rfl

theorem wp_nextBlock {Q : UInt32 → State → Prop} :
    wp nextBlock Q E s ↔ Q (.ofNat s.freeblock) s.bump := Iff.rfl

/-! ## One block -/

/-- The blocks of the file `i` are those for `off` bytes. -/
structure Ends (lg : ℕ → Dinode) (s : State) (i off : ℕ) : Prop where
  /-- It has the blocks that hold the bytes. -/
  map : ∀ bn, (lg i).map s.view.block bn ≠ 0 ↔ bn * BSIZE < off
  /-- It has an indirect block if the direct ones do not suffice. -/
  indirect : (lg i).indirect ≠ 0 ↔ NDIRECT * BSIZE < off

/-- How many blocks are allocated when a byte is appended to a file of `off` bytes. -/
def newBlocks (off : ℕ) : ℕ :=
  if off % BSIZE ≠ 0 then 0 else if off = NDIRECT * BSIZE then 2 else 1

/-- A file of which more bytes of the last block are used. -/
theorem Ends.extend {m : ℕ} (h : Ends lg s i (off + 1)) (hpos : 0 < m)
    (hm : off % BSIZE + m ≤ BSIZE) : Ends lg s i (off + m) := by
  refine ⟨fun bn => (h.map bn).trans ?_, h.indirect.trans ?_⟩
  · simp only [BSIZE] at *
    omega
  · simp only [NDIRECT, BSIZE] at *
    omega

/-- After the block for the next byte is there, the file has the blocks for it. -/
theorem Given.ends (h : Given i (off / BSIZE) lg lg' s s') (he : Ends lg s i off)
    (hne : (lg' i).map s'.view.block (off / BSIZE) ≠ 0)
    (hind : (lg' i).indirect ≠ 0 ↔ NDIRECT * BSIZE ≤ off) : Ends lg' s' i (off + 1) := by
  refine ⟨fun bn => ?_, hind.trans Nat.lt_succ_iff.symm⟩
  by_cases hbn : bn = off / BSIZE
  · rw [hbn]
    refine iff_of_true hne ?_
    have := Nat.div_mul_le_self off BSIZE
    omega
  · rw [h.map i bn (.inr hbn), he.map]
    simp only [BSIZE] at *
    omega

/-- `iappend` finds or allocates the block for the next byte. The number of a block that is past the
end of the image is found out when the block is read. -/
theorem Placed.wp_appendBlock {Q : Dinode × UInt32 → State → Prop} (h : Placed lg s)
    (he : Ends lg s i off) (hmax : off / BSIZE < MAXFILE)
    (hout : FSSIZE < s.freeblock + newBlocks off → ∀ s', E .read s')
    (hbig : FSSIZE < s.freeblock + newBlocks off → ∀ din x s', FSSIZE ≤ x.toNat → Q (din, x) s')
    (hok : ∀ lg' s' x, Given i (off / BSIZE) lg lg' s s' → Ends lg' s' i (off + 1) →
      x.toNat = (lg' i).map s'.view.block (off / BSIZE) →
      s'.freeblock = s.freeblock + newBlocks off → Q (lg' i, x) s') :
    wp (appendBlock (lg i) (off / BSIZE)) Q E s := by
  have hdiv := Nat.div_add_mod off BSIZE
  have hmap := he.map (off / BSIZE)
  have hupper := h.upper
  -- the block is there if the last block is not full
  have hfull : (lg i).map s.view.block (off / BSIZE) = 0 ↔ off % BSIZE = 0 := by
    rw [← not_iff_not, ← ne_eq, hmap]
    simp only [BSIZE] at *
    omega
  unfold appendBlock
  by_cases hd : off / BSIZE < NDIRECT
  · -- a direct block
    rw [dif_pos hd]
    have haddr : (lg i).map s.view.block (off / BSIZE) =
        ((lg i).addrs ⟨off / BSIZE, hd⟩).toNat := map_of_lt _ _ hd
    have hlow : ¬ NDIRECT * BSIZE ≤ off := by
      rw [← Nat.le_div_iff_mul_le (by decide)]
      exact Nat.not_le.mpr hd
    have hind : ¬ (lg i).indirect ≠ 0 := by
      rw [he.indirect]
      omega
    rw [wp_ite]
    refine ⟨fun hz => ?_, fun hne => ?_⟩
    · have hz' : off % BSIZE = 0 := by
        rw [← hfull, haddr, hz]
        rfl
      have hnew : newBlocks off = 1 := by
        unfold newBlocks
        rw [if_neg (not_not.mpr hz'), if_neg (by omega)]
      rw [hnew] at hout hbig hok
      rw [wp_bind, wp_nextBlock, wp_pure]
      by_cases hlt : s.freeblock < FSSIZE
      · have hself : (update lg i ((lg i).setAddr ⟨off / BSIZE, hd⟩ (.ofNat s.freeblock)) i) =
            (lg i).setAddr ⟨off / BSIZE, hd⟩ (.ofNat s.freeblock) := update_self ..
        have hgiven := h.giveDirect hlt (j := ⟨off / BSIZE, hd⟩) hz
        have hblock : ((lg i).setAddr ⟨off / BSIZE, hd⟩ (.ofNat s.freeblock)).map s.bump.view.block
            (off / BSIZE) = (UInt32.ofNat s.freeblock).toNat := map_setAddr_self ..
        have hq := hok _ s.bump (.ofNat s.freeblock) hgiven (hgiven.ends he ?_ ?_) ?_ rfl
        · rw [hself] at hq
          exact hq
        · rw [hself, hblock, h.toNat_freeblock]
          exact h.freeblock_ne_zero
        · rw [hself]
          exact iff_of_false hind hlow
        · rw [hself, hblock]
      · exact hbig (by omega) _ _ _ (by rw [h.toNat_freeblock]; omega)
    · have hne' : (lg i).map s.view.block (off / BSIZE) ≠ 0 := by
        rw [haddr]
        exact toNat_ne_zero.mpr hne
      have hnew : newBlocks off = 0 := by
        unfold newBlocks
        rw [if_pos fun hz => hne' (hfull.mpr hz)]
      have hgiven := Given.refl h i (off / BSIZE)
      rw [wp_pure]
      exact hok lg s _ hgiven (hgiven.ends he hne' (iff_of_false hind hlow)) haddr.symm
        (by rw [hnew]; rfl)
  · -- an entry of the indirect block
    have hhigh : NDIRECT * BSIZE ≤ off := by
      rw [← Nat.le_div_iff_mul_le (by decide)]
      exact Nat.not_lt.mp hd
    have hin : off / BSIZE - NDIRECT < NINDIRECT := by
      simp only [MAXFILE] at hmax
      omega
    have hbn : NDIRECT + (off / BSIZE - NDIRECT) = off / BSIZE := by omega
    rw [dif_neg hd, wp_bind]
    -- the indirect block is there now
    have hrest : ∀ {lg1 s1}, Given i (off / BSIZE) lg lg1 s s1 → (lg1 i).indirect ≠ 0 →
        s1.freeblock = s.freeblock + (if off = NDIRECT * BSIZE then 1 else 0) →
        (lg1 i).map s1.view.block (off / BSIZE) = (lg i).map s.view.block (off / BSIZE) →
        wp (do
          let indirect ← rsect (lg1 i).indirect.toNat
          if indirect.word (off / BSIZE - NDIRECT) = 0 then
            let b ← nextBlock
            wsect (lg1 i).indirect.toNat (indirect.setWord (off / BSIZE - NDIRECT) b)
            return (lg1 i, b)
          else return (lg1 i, indirect.word (off / BSIZE - NDIRECT))) Q E s1 := by
      intro lg1 s1 hg h0 hfb hsame
      have hp := hg.placed
      obtain ⟨harea, -⟩ := hp.lt_freeblock (o := .indirect i) (toNat_ne_zero.mpr h0)
      have hblk : s1.disk (lg1 i).indirect.toNat = s1.view.block (lg1 i).indirect.toNat :=
        disk_eq_block harea
      have hword : (lg1 i).map s1.view.block (off / BSIZE) =
          ((s1.view.block (lg1 i).indirect.toNat).word (off / BSIZE - NDIRECT)).toNat :=
        (map_of_ge _ _ (Nat.not_lt.mp hd)).trans (if_pos ⟨hmax, h0⟩)
      rw [wp_bind]
      refine wp_rsect (fun _ => ?_) fun hge => absurd harea.2 (Nat.not_lt.mpr hge)
      rw [hblk, wp_ite]
      refine ⟨fun hz => ?_, fun hne => ?_⟩
      · have hz' : off % BSIZE = 0 := by
          rw [← hfull, ← hsame, hword, hz]
          rfl
        have hnew : newBlocks off = (if off = NDIRECT * BSIZE then 1 else 0) + 1 := by
          unfold newBlocks
          rw [if_neg (not_not.mpr hz')]
          split_ifs <;> rfl
        rw [wp_bind, wp_nextBlock, wp_bind, wp_wsect, wp_pure]
        by_cases hlt : s1.freeblock < FSSIZE
        · obtain ⟨hgiven, hself⟩ := hp.giveEntry hlt h0 hin hz
          rw [hbn] at hgiven hself
          have hall := hg.trans hgiven
          refine hok lg1 _ _ hall (hall.ends he ?_ (iff_of_true h0 hhigh)) ?_ ?_
          · rw [hself]
            exact hp.freeblock_ne_zero
          · rw [hself]
            exact hp.toNat_freeblock
          · show s1.freeblock + 1 = _
            rw [hnew, hfb]
            omega
        · refine hbig (by omega) _ _ _ ?_
          rw [hp.toNat_freeblock]
          omega
      · have hne' : (lg1 i).map s1.view.block (off / BSIZE) ≠ 0 := by
          rw [hword]
          exact toNat_ne_zero.mpr hne
        have hz' : off % BSIZE ≠ 0 := fun hz => hne' (hsame.trans (hfull.mpr hz))
        have hnot : off ≠ NDIRECT * BSIZE := by
          rintro rfl
          exact hz' (Nat.mul_mod_left ..)
        rw [wp_pure]
        refine hok lg1 s1 _ hg (hg.ends he hne' (iff_of_true h0 hhigh)) hword.symm ?_
        rw [hfb, if_neg hnot]
        unfold newBlocks
        rw [if_pos hz']
    unfold appendIndirect
    rw [wp_ite]
    refine ⟨fun hz => ?_, fun h0 => ?_⟩
    · -- the direct blocks are just full
      have heq : off = NDIRECT * BSIZE := by
        by_contra hne
        exact he.indirect.mpr (by omega) hz
      have hnew : newBlocks off = 2 := by
        unfold newBlocks
        rw [if_neg (by rw [heq]; decide), if_pos heq]
      rw [wp_bind, wp_nextBlock, wp_pure]
      by_cases hlt : s.freeblock < FSSIZE
      · have hself : (update lg i ((lg i).setIndirect (.ofNat s.freeblock)) i) =
            (lg i).setIndirect (.ofNat s.freeblock) := update_self ..
        have hgiven := h.giveIndirect hlt hz (off / BSIZE)
        have hne : (UInt32.ofNat s.freeblock) ≠ 0 := by
          rw [← toNat_ne_zero, h.toNat_freeblock]
          exact h.freeblock_ne_zero
        have hq := hrest hgiven (by rw [hself]; exact hne) (by rw [if_pos heq]; rfl) (by
          rw [hself]
          refine map_setIndirect hz ?_ _
          rw [h.toNat_freeblock, view_bump]
          exact h.zero _ le_rfl)
        rw [hself] at hq
        exact hq
      · rw [wp_bind]
        refine wp_rsect (fun hlt' => absurd hlt' ?_) fun _ => hout (by omega) _
        show ¬ (UInt32.ofNat s.freeblock).toNat < FSSIZE
        rw [h.toNat_freeblock]
        exact hlt
    · have hne : off ≠ NDIRECT * BSIZE := by
        have := he.indirect.mp h0
        omega
      rw [wp_pure]
      exact hrest (.refl h i _) h0 (by rw [if_neg hne]; rfl) rfl

/-! ## The loop of `iappend` -/

/-- How many blocks a file of `n` bytes has, with the indirect block. -/
def blocksFor (n : ℕ) : ℕ := (n + (BSIZE - 1)) / BSIZE + if NDIRECT * BSIZE < n then 1 else 0

theorem blocksFor_add {m : ℕ} (hpos : 0 < m) (hm : off % BSIZE + m ≤ BSIZE) :
    blocksFor (off + m) = blocksFor off + newBlocks off := by
  have hdiv := Nat.div_add_mod off BSIZE
  unfold blocksFor newBlocks
  simp only [NDIRECT, BSIZE] at *
  split_ifs <;> omega

/-- From `s` to `s'`, `n` bytes of `p` were appended to the file `i`, which had `off` bytes. -/
structure Appended (i off n : ℕ) (p : List UInt8) (lg lg' : ℕ → Dinode) (s s' : State) : Prop where
  /-- Every block in use has one owner. -/
  placed : Placed lg' s'
  /-- The file has the blocks that it needs. -/
  ends : Ends lg' s' i (off + n)
  /-- The inode has the addresses that it had. -/
  below : Below (lg i) (lg' i)
  /-- The other inodes are the same. -/
  others : ∀ j, j ≠ i → lg' j = lg j
  /-- Their blocks are where they were. -/
  map : ∀ j, j ≠ i → ∀ bn, (lg' j).map s'.view.block bn = (lg j).map s.view.block bn
  /-- They hold what they held. -/
  content : ∀ j, j ≠ i → ∀ bn, (lg' j).content s'.view.block bn = (lg j).content s.view.block bn
  /-- The bytes of the file are those that were there and those appended. -/
  bytes : ∀ x, ((lg' i).content s'.view.block (x / BSIZE)).get (x % BSIZE) =
    if off ≤ x ∧ x < off + n then p.getD (x - off) 0
    else ((lg i).content s.view.block (x / BSIZE)).get (x % BSIZE)
  /-- The blocks before the data blocks are the same. -/
  frame : ∀ b < Superblock.mkfs.dataStart, s'.disk b = s.disk b
  /-- So is the number of inodes. -/
  freeinode : s'.freeinode = s.freeinode
  /-- The blocks are given away as they are needed. -/
  freeblock : s'.freeblock + blocksFor off = s.freeblock + blocksFor (off + n)

theorem Appended.refl (h : Placed lg s) (he : Ends lg s i off) (p : List UInt8) :
    Appended i off 0 p lg lg s s :=
  ⟨h, he, .refl _, fun _ _ => rfl, fun _ _ _ => rfl, fun _ _ _ => rfl,
    fun _ => (if_neg (by omega)).symm, fun _ _ => rfl, rfl, rfl⟩

/-- The bytes are appended in two parts. -/
theorem Appended.append {m : ℕ} (h : Appended i off n p lg lg' s s')
    (h' : Appended i (off + n) m (p.drop n) lg' lg'' s' s'') :
    Appended i off (n + m) p lg lg'' s s'' := by
  refine ⟨h'.placed, Nat.add_assoc off n m ▸ h'.ends, h.below.trans h'.below,
    fun j hj => (h'.others j hj).trans (h.others j hj),
    fun j hj bn => (h'.map j hj bn).trans (h.map j hj bn),
    fun j hj bn => (h'.content j hj bn).trans (h.content j hj bn), fun x => ?_,
    fun b hb => (h'.frame b hb).trans (h.frame b hb), h'.freeinode.trans h.freeinode, ?_⟩
  · rw [h'.bytes, h.bytes]
    by_cases h1 : off ≤ x ∧ x < off + n
    · rw [if_neg (by omega), if_pos h1, if_pos (by omega)]
    · rw [if_neg h1]
      by_cases h2 : off ≤ x ∧ x < off + (n + m)
      · rw [if_pos (by omega), if_pos h2, List.getD_eq_getElem?_getD, List.getElem?_drop,
          List.getD_eq_getElem?_getD]
        congr 2
        omega
      · rw [if_neg (by omega), if_neg h2]
  · have h1 := h.freeblock
    have h2 := h'.freeblock
    rw [Nat.add_assoc] at h2
    omega

/-- One pass of the loop, after its block was found. -/
theorem Given.append (h : Given i (off / BSIZE) lg lg' s s') (he : Ends lg' s' i (off + 1))
    (hfb : s'.freeblock = s.freeblock + newBlocks off) (hpos : 0 < n) (hm : off % BSIZE + n ≤ BSIZE)
    {v : Block} (hv : v = ((lg' i).content s'.view.block (off / BSIZE)).put (off % BSIZE) n
      fun j => p.getD j 0) :
    Appended i off n p lg lg' s (s'.put ((lg' i).map s'.view.block (off / BSIZE)) v) := by
  have hne : (lg' i).map s'.view.block (off / BSIZE) ≠ 0 := by
    rw [he.map]
    have := Nat.div_mul_le_self off BSIZE
    omega
  obtain ⟨hplaced, hmap, hself, hother, hframe⟩ := h.placed.write hne v
  refine ⟨hplaced, ?_, h.below, h.others, fun j hj bn => ?_, fun j hj bn => ?_, fun x => ?_,
    fun b hb => (hframe b hb).trans (h.frame b hb), h.freeinode, ?_⟩
  · refine Ends.extend ⟨fun bn => ?_, he.indirect⟩ hpos hm
    rw [hmap]
    exact he.map bn
  · exact (hmap j bn).trans (h.map j bn (.inl hj))
  · exact (hother j bn (.inl hj)).trans (h.content j bn)
  · have hold : ∀ bn, (lg' i).content s'.view.block bn = (lg i).content s.view.block bn := h.content i
    rw [get_put_block (hself.trans hv) (fun bn hbn => hother i bn (.inr hbn)) hm, hold]
  · show s'.freeblock + _ = _
    rw [hfb, blocksFor_add hpos hm]
    omega

/-- The loop of `iappend` appends the bytes if they fit into the largest file and into the image. -/
theorem Placed.wp_appendChunks {Q : Dinode → State → Prop} (h : Placed lg s) (he : Ends lg s i off)
    {bound : ℕ} (hbound : n ≤ bound)
    (hfail : MAXFILE * BSIZE < off + n ∨ FSSIZE + blocksFor off < s.freeblock + blocksFor (off + n) →
      ∀ e s', E e s')
    (hok : ∀ lg' s', Appended i off n p lg lg' s s' → Q (lg' i) s') :
    wp (appendChunks (chunksUpTo bound off n) p (lg i)) Q E s := by
  induction bound generalizing off n p lg s with
  | zero =>
    obtain rfl : n = 0 := by omega
    exact hok lg s (.refl h he p)
  | succ bound ih =>
    unfold chunksUpTo
    by_cases hz : n = 0
    · rw [if_pos hz]
      subst hz
      exact hok lg s (.refl h he p)
    · rw [if_neg hz]
      dsimp only
      generalize hm : min n (BSIZE - off % BSIZE) = m
      have hlt : off % BSIZE < BSIZE := Nat.mod_lt _ (by decide)
      have hpos : 0 < m := by omega
      have hin : off % BSIZE + m ≤ BSIZE := by omega
      have hsum : off + m + (n - m) = off + n := by omega
      have hadd := blocksFor_add hpos hin
      -- what is left needs no fewer blocks than none
      have hmono : blocksFor (off + m) ≤ blocksFor (off + n) := by
        unfold blocksFor
        have : (off + m + (BSIZE - 1)) / BSIZE ≤ (off + n + (BSIZE - 1)) / BSIZE :=
          Nat.div_le_div_right (by omega)
        split_ifs <;> omega
      unfold appendChunks
      dsimp only
      rw [wp_ite]
      refine ⟨fun hmax => ?_, fun hmax => hfail (.inl ?_) _ _⟩
      · rw [wp_bind]
        refine h.wp_appendBlock he hmax (fun hbig => hfail (.inr (by omega)) _)
          (fun hbig din x s' hx => ?_) fun lg1 s1 x hgiven hends hx hfb => ?_
        · -- the block is past the end of the image
          rw [wp_bind]
          exact wp_rsect (fun hlt => absurd hlt (Nat.not_lt.mpr hx))
            fun _ => hfail (.inr (by omega)) _ _
        · have hne : (lg1 i).map s1.view.block (off / BSIZE) ≠ 0 := by
            rw [hends.map]
            have := Nat.div_mul_le_self off BSIZE
            omega
          obtain ⟨harea, -⟩ := hgiven.placed.lt_freeblock (o := .data i (off / BSIZE)) hne
          have hblk : s1.disk x.toNat = (lg1 i).content s1.view.block (off / BSIZE) := by
            unfold Dinode.content
            rw [hx, if_neg hne]
            exact disk_eq_block harea
          dsimp only
          rw [wp_bind]
          refine wp_rsect (fun _ => ?_) fun hge => ?_
          · rw [hblk, hx, wp_bind, wp_wsect]
            have hone := hgiven.append (p := p) hends hfb hpos hin rfl
            have hcount := hone.freeblock
            refine ih hone.placed hone.ends (by omega) (fun hbad => hfail ?_) fun lg2 s2 hrest => ?_
            · rw [hsum] at hbad
              exact hbad.imp_right fun hlt => by omega
            · have hall := hone.append hrest
              rw [show m + (n - m) = n by omega] at hall
              exact hok lg2 s2 hall
          · rw [hx] at hge
            exact absurd harea.2 (Nat.not_lt.mpr hge)
      · have hge := Nat.not_lt.mp hmax
        rw [Nat.le_div_iff_mul_le (by decide)] at hge
        omega

end ChronoFS.Mkfs
