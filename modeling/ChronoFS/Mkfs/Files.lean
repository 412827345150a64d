import ChronoFS.Mkfs.Layout
import ChronoFS.Lib.Count

/-!
# The image that `mkfs` writes

`Written n c s` is the image after the inodes below `n` were allocated and the bytes `c i` were
appended to each inode `i`: every block has one owner, every file has the blocks that its bytes need
and holds these bytes, and as many blocks are given away as all files need. `ialloc` and `iappend` keep
it, with one more inode or longer contents. So after the loop of `main` over its arguments the contents
are `contents files`: the entries of the root directory, and the bytes of each file (`main_spec`). `main`
gets there if the files fit (`Fits`), and if there are no more of them than inodes.
-/

namespace ChronoFS.Mkfs

open Function

variable {lg lg' : ℕ → Dinode} {c : ℕ → List UInt8} {s s' : State} {i n : ℕ} {p bytes : List UInt8}
  {E : Stop → State → Prop}

/-! ## Inodes on the image -/

/-- The type of inode `i`: the first one is the root directory. -/
def typeOf (i : ℕ) : Int16 := if i = ROOTINO then T_DIR else T_FILE

/-- Inode `i` of a file of `n` bytes, but for its block addresses. -/
def blank (i n : ℕ) : Dinode := { Dinode.zero with type := typeOf i, nlink := 1, size := .ofNat n }

/-- An inode without its block addresses. -/
def bare (d : Dinode) : Dinode := { d with addrs := fun _ => 0, indirect := 0 }

/-- The file `i` of the image holds the bytes. -/
structure Holds (i : ℕ) (bytes : List UInt8) (s : State) : Prop where
  /-- Its inode says how many there are. -/
  inode : bare (s.view.dinode i) = blank i bytes.length
  /-- They fit into the largest file. -/
  small : bytes.length ≤ MAXFILE * BSIZE
  /-- It has the blocks for them. -/
  ends : Ends s.view.dinode s i bytes.length
  /-- They are in these blocks. -/
  byteAt : ∀ x, (s.view.dinode i).byteAt s.view.block x = bytes.getD x 0

/-- A file that was not touched holds what it held. -/
theorem Holds.congr (h : Holds i bytes s) (hdin : s'.view.dinode i = s.view.dinode i)
    (hmap : ∀ bn, (s.view.dinode i).map s'.view.block bn = (s.view.dinode i).map s.view.block bn)
    (hcont : ∀ bn, (s.view.dinode i).content s'.view.block bn =
      (s.view.dinode i).content s.view.block bn) : Holds i bytes s' := by
  refine ⟨hdin ▸ h.inode, h.small, ⟨fun bn => ?_, ?_⟩, fun x => ?_⟩
  · rw [hdin, hmap]
    exact h.ends.map bn
  · rw [hdin]
    exact h.ends.indirect
  · rw [hdin, ← h.byteAt x]
    unfold Dinode.byteAt
    rw [hcont]

/-- The inodes below `n` are allocated and hold the bytes `c`. -/
structure Written (n : ℕ) (c : ℕ → List UInt8) (s : State) : Prop where
  /-- There are as many inodes. -/
  few : n ≤ NINODES
  /-- Every block in use has one owner. -/
  placed : Placed s.view.dinode s
  /-- The inodes hold the bytes. -/
  holds : ∀ i, 0 < i → i < n → Holds i (c i) s
  /-- The others are free. -/
  free : ∀ i, i = 0 ∨ n ≤ i → s.view.dinode i = .zero ∧ c i = []
  /-- Blocks are given away as the files need them. -/
  freeblock : s.freeblock = Superblock.mkfs.dataStart + ∑ i ∈ Finset.range n, blocksFor (c i).length
  /-- Before the inodes there are the super block and an empty log. -/
  front : ∀ b < Superblock.mkfs.inodestart, s.disk b = if b = 1 then sb.toBlock else .zero

/-- Files with the contents `c` below inode `n` fit on the image. -/
structure Fits (n : ℕ) (c : ℕ → List UInt8) : Prop where
  /-- Each is at most as large as the largest file. -/
  each : ∀ i < n, (c i).length ≤ MAXFILE * BSIZE
  /-- There are blocks for all of them. -/
  total : Superblock.mkfs.dataStart + ∑ i ∈ Finset.range n, blocksFor (c i).length ≤ FSSIZE

instance (n : ℕ) (c : ℕ → List UInt8) : Decidable (Fits n c) :=
  decidable_of_iff (_ ∧ _) ⟨fun h => ⟨h.1, h.2⟩, fun h => ⟨h.each, h.total⟩⟩

theorem blocksFor_mono {a b : ℕ} (h : a ≤ b) : blocksFor a ≤ blocksFor b := by
  unfold blocksFor
  simp only [NDIRECT, BSIZE]
  split_ifs <;> omega

/-- Shorter files fit where longer ones do. -/
theorem Fits.mono {m : ℕ} {c' : ℕ → List UInt8} (h : Fits m c') (hn : n ≤ m)
    (hc : ∀ i, (c i).length ≤ (c' i).length) : Fits n c := by
  refine ⟨fun i hi => (hc i).trans (h.each i (by omega)), le_trans ?_ h.total⟩
  have hsub : Finset.range n ⊆ Finset.range m := Finset.range_subset_range.mpr hn
  have hsum := Finset.sum_le_sum fun i (_ : i ∈ Finset.range n) => blocksFor_mono (hc i)
  have hmore := Finset.sum_le_sum_of_subset (f := fun i => blocksFor (c' i).length) hsub
  omega

/-- The blocks that hold the inodes. -/
theorem iblock_lt (hi : i < NINODES) : sb.iblock i < sb.bmapstart :=
  View.iblock_lt Superblock.mkfs_valid hi

theorem bmapstart_lt : sb.bmapstart < FSSIZE := by decide

theorem iblock_lt_fssize (hi : i < NINODES) : sb.iblock i < FSSIZE := (iblock_lt hi).trans bmapstart_lt

theorem wp_rinode {Q : Dinode → State → Prop} (hi : i < NINODES) :
    wp (rinode i) Q E s ↔ Q (s.view.dinode i) s := by
  have hlt := iblock_lt_fssize hi
  have hdin : s.view.dinode i = (s.disk (sb.iblock i)).getDinode (i % IPB) := if_pos hi
  unfold rinode rsect
  rw [wp_bind, wp_bind, wp_get, if_pos hlt, wp_pure, wp_pure, hdin]

/-- The image after inode `i` was written. -/
def State.setInode (s : State) (i : ℕ) (d : Dinode) : State :=
  s.put (sb.iblock i) ((s.disk (sb.iblock i)).putDinode (i % IPB) d)

theorem view_setInode (hi : i < NINODES) (d : Dinode) :
    (s.setInode i d).view = s.view.setDinode i d := View.of_dinode Superblock.mkfs_valid hi d

theorem disk_setInode {b : ℕ} (hb : b < Superblock.mkfs.inodestart) (d : Dinode) :
    (s.setInode i d).disk b = s.disk b :=
  update_of_ne (Nat.ne_of_lt (lt_of_lt_of_le hb (Nat.le_add_left ..))) ..

theorem wp_winode {Q : Unit → State → Prop} (hlt : sb.iblock i < FSSIZE) (d : Dinode) :
    wp (winode i d) Q E s ↔ Q () (s.setInode i d) := by
  unfold winode rsect
  rw [wp_bind, wp_bind, wp_get, if_pos hlt, wp_pure, wp_wsect]
  rfl

/-- The inodes depend on the blocks that hold them. -/
theorem dinode_congr (h : ∀ j < NINODES, s'.disk (sb.iblock j) = s.disk (sb.iblock j)) :
    s'.view.dinode = s.view.dinode := by
  funext j
  show (if j < NINODES then _ else _) = if j < NINODES then _ else _
  by_cases hj : j < NINODES
  · rw [if_pos hj, if_pos hj]
    exact congrArg (fun b : Block => b.getDinode (j % IPB)) (h j hj)
  · rw [if_neg hj, if_neg hj]

/-- The files depend on the data blocks. -/
theorem block_congr (h : ∀ b, Superblock.mkfs.Area b → s'.disk b = s.disk b) :
    s'.view.block = s.view.block := by
  funext b
  show (if Superblock.mkfs.Area b then _ else _) = if Superblock.mkfs.Area b then _ else _
  by_cases hb : Superblock.mkfs.Area b
  · rw [if_pos hb, if_pos hb, h b hb]
  · rw [if_neg hb, if_neg hb]

/-- The owners of the blocks depend on the data blocks. -/
theorem Placed.congr (h : Placed lg s) (hblk : s'.view.block = s.view.block)
    (hfb : s'.freeblock = s.freeblock) : Placed lg s' := by
  refine ⟨hfb ▸ h.lower, hfb ▸ h.upper, fun b hb => ?_, ?_, ?_⟩
  · rw [hblk]
    exact h.zero b (hfb ▸ hb)
  · rw [hblk, hfb]
    exact h.own
  · rw [hblk, hfb]
    exact h.full

/-- An inode that keeps its addresses keeps its blocks. -/
theorem Placed.relabel {d : Dinode} (h : Placed lg s) (haddrs : d.addrs = (lg i).addrs)
    (hind : d.indirect = (lg i).indirect) (hblk : s'.view.block = s.view.block)
    (hfb : s'.freeblock = s.freeblock) : Placed (update lg i d) s' := by
  have hrefs : refs (update lg i d) s.view.block [] = refs lg s.view.block [] :=
    refs_relabel _ _ haddrs hind
  have hsame : Placed (update lg i d) s := by
    refine ⟨h.lower, h.upper, h.zero, ?_, ?_⟩
    · rw [hrefs]
      exact h.own
    · rw [hrefs]
      exact h.full
  exact hsame.congr hblk hfb

/-! ## `ialloc` and `iappend` -/

/-- An inode without addresses has no blocks. -/
theorem map_of_no_addrs {blk : ℕ → Block} {d : Dinode} {bn : ℕ} (haddrs : ∀ j, d.addrs j = 0)
    (hind : d.indirect = 0) : d.map blk bn = 0 := by
  unfold Dinode.map
  by_cases hbn : bn < NDIRECT
  · rw [dif_pos hbn, haddrs]
    rfl
  · rw [dif_neg hbn, if_neg fun hc => hc.2 hind]

theorem Written.wp_ialloc {Q : ℕ → State → Prop} (h : Written n c s) (hnext : s.freeinode = n)
    (hpos : 0 < n) (hfew : n + 1 ≤ NINODES)
    (hok : ∀ s', Written (n + 1) c s' → s'.freeinode = n + 1 → Q n s') :
    wp (ialloc (typeOf n)) Q E s := by
  obtain ⟨hzero, hnil⟩ := h.free n (.inr le_rfl)
  unfold ialloc nextInode
  rw [wp_bind, wp_bind, wp_get, wp_bind, wp_modify, wp_pure, hnext, wp_bind, wp_winode (iblock_lt_fssize hfew),
    wp_pure]
  generalize hs1 : { s with freeinode := n + 1 } = s1
  have hview1 : s1.view = s.view := by
    rw [← hs1]
    rfl
  have hview := view_setInode (s := s1) hfew { Dinode.zero with type := typeOf n, nlink := 1 }
  rw [hview1] at hview
  have hdin : (s1.setInode n { Dinode.zero with type := typeOf n, nlink := 1 }).view.dinode =
      update s.view.dinode n { Dinode.zero with type := typeOf n, nlink := 1 } := by
    rw [hview]
    rfl
  have hblk : (s1.setInode n { Dinode.zero with type := typeOf n, nlink := 1 }).view.block =
      s.view.block := by
    rw [hview]
    rfl
  have hfb : (s1.setInode n { Dinode.zero with type := typeOf n, nlink := 1 }).freeblock =
      s.freeblock := by
    rw [← hs1]
    rfl
  have hfi : (s1.setInode n { Dinode.zero with type := typeOf n, nlink := 1 }).freeinode = n + 1 := by
    rw [← hs1]
    rfl
  refine hok _ ⟨hfew, ?_, fun i hi hin => ?_, fun i hi => ?_, ?_, fun b hb => ?_⟩ hfi
  · rw [hdin]
    exact h.placed.relabel (by rw [hzero]) (by rw [hzero]) hblk hfb
  · by_cases hi' : i = n
    · subst hi'
      have hself : (s1.setInode i { Dinode.zero with type := typeOf i, nlink := 1 }).view.dinode i =
          { Dinode.zero with type := typeOf i, nlink := 1 } := by
        rw [hdin, update_self]
      have hmap' : ∀ bn, ({ Dinode.zero with type := typeOf i, nlink := 1 } : Dinode).map s.view.block
          bn = 0 := fun bn => map_of_no_addrs (fun _ => rfl) rfl
      rw [hnil]
      refine ⟨?_, Nat.zero_le _, ⟨fun bn => ?_, ?_⟩, fun x => ?_⟩
      · rw [hself]
        rfl
      · rw [hself, hblk, hmap']
        simp
      · rw [hself]
        simp [Dinode.zero]
      · rw [hself, hblk]
        unfold Dinode.byteAt Dinode.content
        rw [hmap', if_pos rfl, List.getD_nil]
        exact Block.get_zero _
    · refine (h.holds i hi (by omega)).congr ?_ (fun bn => by rw [hblk]) fun bn => by rw [hblk]
      rw [hdin, update_of_ne hi']
  · obtain ⟨hz, hc⟩ := h.free i (by omega)
    refine ⟨?_, hc⟩
    rw [hdin, update_of_ne (by omega)]
    exact hz
  · rw [hfb, h.freeblock, Finset.sum_range_succ, hnil]
    rfl
  · rw [disk_setInode hb, ← h.front b hb, ← hs1]

/-- The contents after bytes are appended to one file. -/
def appendTo (c : ℕ → List UInt8) (i : ℕ) (p : List UInt8) : ℕ → List UInt8 :=
  update c i (c i ++ p)

theorem appendTo_self (c : ℕ → List UInt8) (i : ℕ) (p : List UInt8) : appendTo c i p i = c i ++ p :=
  update_self ..

theorem appendTo_of_ne {j : ℕ} (hj : j ≠ i) (c : ℕ → List UInt8) (p : List UInt8) :
    appendTo c i p j = c j := update_of_ne hj ..

/-- The blocks that all files need after bytes are appended to one. -/
theorem sum_appendTo (hi : i < n) :
    (∑ j ∈ Finset.range n, blocksFor (appendTo c i p j).length) + blocksFor (c i).length =
      (∑ j ∈ Finset.range n, blocksFor (c j).length) + blocksFor ((c i).length + p.length) := by
  have hsum := sum_update_of_mem (Finset.mem_range.mpr hi) (fun l : List UInt8 => blocksFor l.length)
    c (c i ++ p)
  rw [List.length_append] at hsum
  exact hsum

/-- A file has as many blocks as an inode has addresses. -/
theorem Ends.small {off : ℕ} (h : Ends lg s i off) : off ≤ MAXFILE * BSIZE := by
  by_contra hbig
  have hne := (h.map MAXFILE).mpr (by omega)
  rw [map_of_ge _ _ (by decide), if_neg fun hc => lt_irrefl _ hc.1] at hne
  exact hne rfl

/-- Bytes of a list that was appended to. -/
theorem getD_append (l p : List UInt8) (x : ℕ) : (l ++ p).getD x 0 =
    if l.length ≤ x ∧ x < l.length + p.length then p.getD (x - l.length) 0 else l.getD x 0 := by
  by_cases hx : x < l.length
  · rw [if_neg (by omega), List.getD_append _ _ _ _ hx]
  · rw [List.getD_append_right _ _ _ _ (by omega)]
    by_cases hx' : x < l.length + p.length
    · rw [if_pos ⟨by omega, hx'⟩]
    · rw [if_neg (by omega), List.getD_eq_default _ _ (by omega), List.getD_eq_default _ _ (by omega)]

/-- The inode that `iappend` writes. -/
def grown (d : Dinode) (n : ℕ) : Dinode := { d with size := .ofNat n }

theorem map_grown (blk : ℕ → Block) (d : Dinode) (n bn : ℕ) : (grown d n).map blk bn = d.map blk bn :=
  rfl

/-- The image after `iappend`: its inodes are those with which `iappend` worked. -/
theorem Appended.dinode {off : ℕ} (h : Appended i off n p s.view.dinode lg' s s') (hi : i < NINODES)
    (m : ℕ) : (s'.setInode i (grown (lg' i) m)).view.dinode = update lg' i (grown (lg' i) m) := by
  rw [view_setInode hi]
  show update s'.view.dinode i _ = _
  have hsame : s'.view.dinode = s.view.dinode := by
    refine dinode_congr fun j hj => h.frame _ ?_
    have hlt := iblock_lt hj
    have hdata : sb.bmapstart ≤ Superblock.mkfs.dataStart := by decide
    omega
  rw [hsame]
  funext j
  by_cases hj : j = i
  · rw [hj, update_self, update_self]
  · rw [update_of_ne hj, update_of_ne hj, h.others j hj]

/-- The file to which bytes were appended holds them after those that it held. -/
theorem Appended.holds (h : Appended i bytes.length p.length p s.view.dinode lg' s s')
    (hold : Holds i bytes s) (hi : i < NINODES) :
    Holds i (bytes ++ p) (s'.setInode i (grown (lg' i) (bytes.length + p.length))) := by
  have hblk : (s'.setInode i (grown (lg' i) (bytes.length + p.length))).view.block =
      s'.view.block := by
    rw [view_setInode hi]
    rfl
  have hself : (s'.setInode i (grown (lg' i) (bytes.length + p.length))).view.dinode i =
      grown (lg' i) (bytes.length + p.length) := by
    rw [h.dinode hi, update_self]
  refine ⟨?_, ?_, ⟨fun bn => ?_, ?_⟩, fun x => ?_⟩
  · -- the fields other than the size and the addresses have not changed
    have hbare : bare (lg' i) = bare (s.view.dinode i) := by
      rw [← h.below.rest]
      rfl
    rw [hself, List.length_append]
    show grown (bare (lg' i)) _ = _
    rw [hbare, hold.inode]
    rfl
  · rw [List.length_append]
    exact h.ends.small
  · rw [hself, hblk, map_grown, List.length_append]
    exact h.ends.map bn
  · rw [hself, List.length_append]
    exact h.ends.indirect
  · rw [hself, hblk, getD_append, ← hold.byteAt x]
    exact h.bytes x

/-- After `iappend` the image is written with the longer contents. -/
theorem Written.append (h : Written n c s) (hpos : 0 < i) (hi : i < n)
    (happ : Appended i (c i).length p.length p s.view.dinode lg' s s') :
    Written n (appendTo c i p) (s'.setInode i (grown (lg' i) ((c i).length + p.length))) := by
  have hin : i < NINODES := lt_of_lt_of_le hi h.few
  have hblk : (s'.setInode i (grown (lg' i) ((c i).length + p.length))).view.block =
      s'.view.block := by
    rw [view_setInode hin]
    rfl
  have hother : ∀ j, j ≠ i → (s'.setInode i (grown (lg' i) ((c i).length + p.length))).view.dinode j =
      s.view.dinode j := by
    intro j hj
    rw [happ.dinode hin, update_of_ne hj]
    exact happ.others j hj
  refine ⟨h.few, ?_, fun j hjpos hj => ?_, fun j hj => ?_, ?_,
    fun b hb => ?_⟩
  · rw [happ.dinode hin]
    exact happ.placed.relabel rfl rfl hblk rfl
  · by_cases hji : j = i
    · rw [hji]
      rw [appendTo_self]
      exact happ.holds (h.holds i hpos hi) hin
    · rw [appendTo_of_ne hji]
      refine (h.holds j hjpos hj).congr (hother j hji) (fun bn => ?_) fun bn => ?_
      · rw [hblk, ← happ.map j hji bn, happ.others j hji]
      · rw [hblk, ← happ.content j hji bn, happ.others j hji]
  · obtain ⟨hz, hc⟩ := h.free j hj
    have hji : j ≠ i := by omega
    rw [hother j hji, appendTo_of_ne hji]
    exact ⟨hz, hc⟩
  · have hsum := sum_appendTo (c := c) (p := p) hi
    have hcount := happ.freeblock
    have hfb := h.freeblock
    show s'.freeblock = _
    omega
  · have hdata : Superblock.mkfs.inodestart ≤ Superblock.mkfs.dataStart := by decide
    rw [disk_setInode hb, happ.frame b (by omega)]
    exact h.front b hb

theorem Written.wp_iappend {Q : Unit → State → Prop} (h : Written n c s) (hpos : 0 < i) (hi : i < n)
    (hfail : ¬ Fits n (appendTo c i p) → ∀ e s', E e s')
    (hok : ∀ s', Written n (appendTo c i p) s' → s'.freeinode = s.freeinode → Q () s') :
    wp (iappend i p) Q E s := by
  have hfile := h.holds i hpos hi
  have hin : i < NINODES := lt_of_lt_of_le hi h.few
  have hsize : (s.view.dinode i).size.toNat = (c i).length := by
    have heq : (s.view.dinode i).size = .ofNat (c i).length := congrArg Dinode.size hfile.inode
    rw [heq]
    refine UInt32.toNat_ofNat_of_lt (lt_of_le_of_lt hfile.small ?_)
    decide
  unfold iappend
  rw [wp_bind, wp_rinode hin, hsize, wp_bind]
  refine h.placed.wp_appendChunks (p := p) hfile.ends le_rfl (fun hbad => hfail fun hfits => ?_)
    fun lg' s1 happ => ?_
  · have hsum := sum_appendTo (c := c) (p := p) hi
    have hfb := h.freeblock
    have heach := hfits.each i hi
    have htotal := hfits.total
    rw [appendTo_self, List.length_append] at heach
    omega
  · rw [wp_winode (iblock_lt_fssize hin)]
    exact hok _ (h.append hpos hi happ) happ.freeinode

/-- Bytes are appended in two parts. -/
theorem appendTo_appendTo (c : ℕ → List UInt8) (i : ℕ) (p q : List UInt8) :
    appendTo (appendTo c i p) i q = appendTo c i (p ++ q) := by
  unfold appendTo
  rw [update_self, List.append_assoc, Function.update_idem]

theorem appendTo_nil (c : ℕ → List UInt8) (i : ℕ) : appendTo c i [] = c := by
  unfold appendTo
  rw [List.append_nil, Function.update_eq_self]

/-- A part of the bytes makes no longer files than all of them. -/
theorem length_appendTo_le {p q : List UInt8} (hpq : p.length ≤ q.length) (j : ℕ) :
    (appendTo c i p j).length ≤ (appendTo c i q j).length := by
  by_cases hj : j = i
  · rw [hj, appendTo_self, appendTo_self, List.length_append, List.length_append]
    omega
  · rw [appendTo_of_ne hj, appendTo_of_ne hj]

/-- `iappend` for each piece of a file. -/
theorem Written.wp_pieces {Q : Unit → State → Prop} {l : List (List UInt8)} (h : Written n c s)
    (hpos : 0 < i) (hi : i < n) (hfail : ¬ Fits n (appendTo c i l.flatten) → ∀ e s', E e s')
    (hok : ∀ s', Written n (appendTo c i l.flatten) s' → s'.freeinode = s.freeinode → Q () s') :
    wp (l.forM (iappend i)) Q E s := by
  refine wp_forM (fun done s' => Written n (appendTo c i done.flatten) s' ∧
    s'.freeinode = s.freeinode) ⟨?_, rfl⟩ (fun done p rest s1 hl hdone => ?_)
    fun s' hs' => hok s' hs'.1 hs'.2
  · rw [List.flatten_nil, appendTo_nil]
    exact h
  · obtain ⟨hdone, hfree⟩ := hdone
    refine hdone.wp_iappend hpos hi (fun hbad => hfail fun hfits => hbad ?_)
      fun s2 hs2 hf2 => ⟨?_, hf2.trans hfree⟩
    · rw [appendTo_appendTo]
      refine hfits.mono le_rfl (length_appendTo_le ?_)
      rw [hl, List.flatten_append, List.flatten_cons, List.length_append, List.length_append,
        List.length_append]
      omega
    · rw [appendTo_appendTo] at hs2
      rw [List.flatten_append, List.flatten_cons, List.flatten_nil, List.append_nil]
      exact hs2

/-! ## The loop over the files -/

/-- The entries of the root directory. -/
def rootEntries (files : List Input) : List Dirent :=
  ⟨.ofNat ROOTINO, DOT⟩ :: ⟨.ofNat ROOTINO, DOTDOT⟩ ::
    files.mapIdx fun j f => ⟨.ofNat (j + 2), f.stored⟩

/-- What each inode holds. -/
def contents (files : List Input) : ℕ → List UInt8
  | 0 => []
  | 1 => (rootEntries files).flatMap Dirent.bytes
  | j + 2 => (files[j]?.map Input.bytes).getD []

theorem rootEntries_snoc (files : List Input) (f : Input) : rootEntries (files ++ [f]) =
    rootEntries files ++ [⟨.ofNat (files.length + 2), f.stored⟩] := by
  unfold rootEntries
  rw [List.mapIdx_append]
  simp

/-- The contents with one more file: its entry, and its bytes. -/
theorem contents_snoc (files : List Input) (f : Input) : contents (files ++ [f]) =
    appendTo (appendTo (contents files) ROOTINO
      (Dirent.bytes ⟨.ofNat (files.length + 2), f.stored⟩)) (files.length + 2) f.bytes := by
  funext i
  match i with
  | 0 => rfl
  | 1 =>
    rw [appendTo_of_ne (by omega), appendTo_self]
    show (rootEntries (files ++ [f])).flatMap Dirent.bytes = _
    rw [rootEntries_snoc, List.flatMap_append, List.flatMap_singleton]
    rfl
  | j + 2 =>
    have hroot : j + 2 ≠ ROOTINO := by
      unfold ROOTINO
      omega
    show ((files ++ [f])[j]?.map Input.bytes).getD [] = _
    by_cases hj : j = files.length
    · rw [hj, appendTo_self, appendTo_of_ne (hj ▸ hroot), List.getElem?_concat_length]
      show f.bytes = (files[files.length]?.map Input.bytes).getD [] ++ f.bytes
      rw [List.getElem?_eq_none le_rfl]
      rfl
    · rw [appendTo_of_ne (by omega), appendTo_of_ne hroot, List.getElem?_append]
      show _ = (files[j]?.map Input.bytes).getD []
      by_cases hlt : j < files.length
      · rw [if_pos hlt]
      · rw [if_neg hlt, List.getElem?_eq_none (by simp; omega), List.getElem?_eq_none (by omega)]

/-- The files fit on the image, and have names without slashes. -/
structure Accepted (files : List Input) : Prop where
  /-- A name is not a path. -/
  names : ∀ f ∈ files, SLASH ∉ f.name
  /-- There is space for the files and the root directory. -/
  fits : Fits (files.length + 2) (contents files)

instance (files : List Input) : Decidable (Accepted files) :=
  decidable_of_iff (_ ∧ _) ⟨fun h => ⟨h.1, h.2⟩, fun h => ⟨h.names, h.fits⟩⟩

theorem length_le_appendTo (c : ℕ → List UInt8) (i : ℕ) (p : List UInt8) (j : ℕ) :
    (c j).length ≤ (appendTo c i p j).length := by
  have hle := length_appendTo_le (c := c) (i := i) (p := []) (q := p) (Nat.zero_le _) j
  rw [appendTo_nil] at hle
  exact hle

/-- With more files the contents are longer. -/
theorem length_contents_le (files rest : List Input) (i : ℕ) :
    (contents files i).length ≤ (contents (files ++ rest) i).length := by
  induction rest generalizing files with
  | nil => rw [List.append_nil]
  | cons f rest ih =>
    have hone : (contents files i).length ≤ (contents (files ++ [f]) i).length := by
      rw [contents_snoc]
      exact (length_le_appendTo _ _ _ i).trans (length_le_appendTo _ _ _ i)
    have hrest := ih (files ++ [f])
    rw [List.append_assoc, List.singleton_append] at hrest
    exact hone.trans hrest

/-- One pass of the loop adds a file to the image. -/
theorem Written.wp_addFile {Q : Unit → State → Prop} {files : List Input} {f : Input}
    (h : Written (files.length + 2) (contents files) s) (hnext : s.freeinode = files.length + 2)
    (hfew : files.length + 3 ≤ NINODES)
    (hfail : SLASH ∈ f.name ∨ ¬ Fits (files.length + 3) (contents (files ++ [f])) → ∀ e s', E e s')
    (hok : ∀ s', Written (files.length + 3) (contents (files ++ [f])) s' →
      s'.freeinode = files.length + 3 → Q () s') :
    wp (addFile ROOTINO f) Q E s := by
  unfold addFile
  rw [wp_ite]
  refine ⟨fun hslash => hfail (.inl hslash) _ _, fun _ => ?_⟩
  have htype : typeOf (files.length + 2) = T_FILE := if_neg (by unfold ROOTINO; omega)
  rw [wp_bind, ← htype]
  refine h.wp_ialloc hnext (by omega) hfew fun s1 h1 hf1 => ?_
  rw [wp_bind]
  rw [contents_snoc] at hfail hok
  refine h1.wp_iappend (by decide) (by unfold ROOTINO; omega)
    (fun hbad => hfail (.inr fun hfits => hbad ?_)) fun s2 h2 hf2 => ?_
  · exact hfits.mono le_rfl (length_le_appendTo _ _ _)
  · exact h2.wp_pieces (by omega) (by omega) (fun hbad => hfail (.inr hbad))
      fun s3 h3 hf3 => hok s3 h3 (hf3.trans (hf2.trans hf1))

/-- The loop over the files. -/
theorem Written.wp_addFiles {Q : Unit → State → Prop} {files : List Input}
    (h : Written 2 (contents []) s) (hnext : s.freeinode = 2) (hfew : files.length + 2 ≤ NINODES)
    (hfail : ¬ Accepted files → ∀ e s', E e s')
    (hok : ∀ s', Written (files.length + 2) (contents files) s' → s'.freeinode = files.length + 2 →
      Q () s') : wp (files.forM (addFile ROOTINO)) Q E s := by
  refine wp_forM (fun done s => Written (done.length + 2) (contents done) s ∧
    s.freeinode = done.length + 2) ⟨h, hnext⟩ (fun done f rest s1 hl hdone => ?_)
    fun s' hs' => hok s' hs'.1 hs'.2
  obtain ⟨hdone, hfree⟩ := hdone
  have hlen : files.length = done.length + (rest.length + 1) := by
    rw [hl, List.length_append, List.length_cons]
  refine hdone.wp_addFile hfree (by omega) (fun hbad => hfail fun hacc => ?_) fun s2 h2 hf2 => ?_
  · rcases hbad with hslash | hfits
    · exact hacc.names f (by rw [hl]; simp) hslash
    · refine hfits (hacc.fits.mono (by omega) fun i => ?_)
      have hle := length_contents_le (done ++ [f]) rest i
      rw [List.append_assoc, List.singleton_append, ← hl] at hle
      exact hle
  · rw [List.length_append]
    exact ⟨h2, hf2⟩

end ChronoFS.Mkfs
