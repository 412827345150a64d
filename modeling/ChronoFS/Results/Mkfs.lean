import ChronoFS.Mkfs.Image

/-!
# The limits of `mkfs`

`mkfs` counts inodes and blocks up and never compares the counters with the numbers of inodes and blocks
of the image, but for the assertion on the free map. A block past the end of the image is found out when
it is read. An inode past the last one is not, as long as the block that would hold it is there: the
first of them are in the last block of inodes, the next ones in the free map and the data blocks.
-/

namespace ChronoFS.Mkfs

open Function

variable {files : List Input} {s w : State} {i : ℕ}

/-- Inode `i`, where `mkfs` puts it. -/
def State.inode (s : State) (i : ℕ) : Dinode := (s.disk (sb.iblock i)).getDinode (i % IPB)

/-- The block numbers in an inode, and in its indirect block, are on the image. -/
structure OnImage (disk : ℕ → Block) (d : Dinode) : Prop where
  /-- The direct blocks. -/
  addrs : ∀ j, (d.addrs j).toNat < FSSIZE
  /-- The indirect block. -/
  indirect : d.indirect.toNat < FSSIZE
  /-- The blocks that it lists. -/
  entries : d.indirect ≠ 0 → ∀ j < NINDIRECT, ((disk d.indirect.toNat).word j).toNat < FSSIZE

/-- The image keeps the limits: each inode that was allocated, and so each that was written, is one of
the `NINODES` inodes, is in a block before the free map, and refers to blocks of the image. -/
structure Limits (s : State) : Prop where
  /-- The inode number. -/
  inum : ∀ i, 0 < i → i < s.freeinode → i < NINODES
  /-- The block to which `winode` writes it. -/
  block : ∀ i, 0 < i → i < s.freeinode → sb.iblock i < sb.bmapstart
  /-- The blocks of the file. -/
  refs : ∀ i, 0 < i → i < s.freeinode → OnImage s.disk (s.inode i)

/-- A file whose blocks have been given away refers to blocks of the image. -/
theorem Placed.onImage {lg : ℕ → Dinode} (h : Placed lg s) (i : ℕ) : OnImage s.view.block (lg i) := by
  have hlt : ∀ o, ChronoFS.refs lg s.view.block [] o < FSSIZE := by
    intro o
    by_cases ho : ChronoFS.refs lg s.view.block [] o = 0
    · rw [ho]
      decide
    · exact (h.lt_freeblock ho).1.2
  refine ⟨fun j => ?_, hlt (.indirect i), fun hind j hj => ?_⟩
  · rw [← map_of_lt s.view.block (lg i) j.isLt]
    exact hlt (.data i j)
  · have hmap : (lg i).map s.view.block (NDIRECT + j) =
        ((s.view.block (lg i).indirect.toNat).word j).toNat := by
      rw [map_of_ge _ _ (Nat.le_add_right ..), if_pos ⟨Nat.add_lt_add_left hj _, hind⟩,
        Nat.add_sub_cancel_left]
    rw [← hmap]
    exact hlt (.data i (NDIRECT + j))

/-- The image of files that have an inode each keeps the limits. -/
theorem limits_finish {n : ℕ} {c : ℕ → List UInt8} (h : Written n c w) (hnext : w.freeinode = n) :
    Limits (finish w) := by
  have hfree : (finish w).freeinode = n := hnext
  have hinum : ∀ i, i < (finish w).freeinode → i < NINODES := by
    intro i hi
    rw [hfree] at hi
    exact lt_of_lt_of_le hi h.few
  refine ⟨fun i _ hi => hinum i hi, fun i _ hi => iblock_lt (hinum i hi), fun i _ hi => ?_⟩
  have hinode : (finish w).inode i = (finish w).view.dinode i := (if_pos (hinum i hi)).symm
  -- only the size of the root has changed
  have haddrs : ((finish w).inode i).addrs = (w.view.dinode i).addrs ∧
      ((finish w).inode i).indirect = (w.view.dinode i).indirect := by
    rw [hinode, dinode_finish]
    by_cases hroot : i = ROOTINO
    · rw [hroot, update_self]
      exact ⟨rfl, rfl⟩
    · rw [update_of_ne hroot]
      exact ⟨rfl, rfl⟩
  have hon := h.placed.onImage i
  refine ⟨?_, ?_, ?_⟩
  · rw [haddrs.1]
    exact hon.addrs
  · rw [haddrs.2]
    exact hon.indirect
  · rw [haddrs.2]
    intro hind
    have harea : Superblock.mkfs.Area (w.view.dinode i).indirect.toNat :=
      (h.placed.lt_freeblock (o := .indirect i) (toNat_ne_zero.mpr hind)).1
    rw [disk_eq_block harea, block_finish]
    exact hon.entries hind

/-- `mkfs` fails an assertion, or exits with an error. -/
def Stops (files : List Input) : Prop := ∃ e s, main files start = .error e s

/-- `mkfs` keeps its limits exactly if it stops or there are at most as many files as there are inodes
for them. -/
theorem mkfs_limits (files : List Input) :
    (Stops files ∨ ∃ s, main files start = .ok () s ∧ Limits s) ↔
      Stops files ∨ files.length + 2 ≤ NINODES := by
  refine or_congr_right' fun hgoes => ?_
  constructor
  · rintro ⟨s, hs, hlim⟩
    have hfree := (main_freeinode files).ok hs
    have hlast := hlim.inum (files.length + 1) (by omega) (by omega)
    omega
  · intro hfew
    cases hs : main files start with
    | ok a s =>
      obtain ⟨w, hw, hfree, rfl⟩ := (main_spec hfew).ok hs
      exact ⟨finish w, rfl, limits_finish hw hfree⟩
    | error e s => exact absurd ⟨e, s, hs⟩ hgoes

/-! ## One file too many -/

/-- The inode after the last one is in a block without other inodes. -/
theorem Written.setInode_past {n : ℕ} {c : ℕ → List UInt8} (h : Written n c s) (d : Dinode) :
    Written n c (s.setInode NINODES d) := by
  have hdisk : ∀ b, b ≠ sb.iblock NINODES → (s.setInode NINODES d).disk b = s.disk b :=
    fun b hb => update_of_ne hb ..
  have hdin : (s.setInode NINODES d).view.dinode = s.view.dinode := by
    refine dinode_congr fun i hi => hdisk _ fun heq => ?_
    have hlt : i / IPB < NINODES / IPB := Nat.div_lt_of_lt_mul (lt_of_lt_of_le hi (by decide))
    exact Nat.ne_of_lt hlt (Nat.add_right_cancel heq)
  have hblk : (s.setInode NINODES d).view.block = s.view.block := by
    have hlow : sb.iblock NINODES < Superblock.mkfs.dataStart := by decide
    exact block_congr fun b hb => hdisk b (Nat.ne_of_gt (lt_of_lt_of_le hlow hb.1))
  refine ⟨h.few, ?_, fun i hpos hi => ?_, ?_, h.freeblock, fun b hb => ?_⟩
  · rw [hdin]
    exact h.placed.congr hblk rfl
  · exact (h.holds i hpos hi).congr (by rw [hdin]) (fun _ => by rw [hblk]) fun _ => by rw [hblk]
  · rw [hdin]
    exact h.free
  · rw [disk_setInode hb]
    exact h.front b hb

/-- With one file more than there are inodes for, `main` still gets to the end. -/
theorem main_past {f : Input} (hlen : files.length + 2 = NINODES) (hacc : Accepted files)
    (hname : SLASH ∉ f.name) (hempty : f.pieces = [])
    (hfits : Fits NINODES (appendTo (contents files) ROOTINO
      (Dirent.bytes ⟨.ofNat NINODES, f.stored⟩))) :
    wp (main (files ++ [f])) (fun _ _ => True) (fun _ _ => False) start := by
  refine wp_main fun s hs hnext => ?_
  rw [List.forM_eq_forM, List.forM_append, wp_bind]
  refine hs.wp_addFiles hnext hlen.le (fun hbad => absurd hacc hbad) fun w hw hfree => ?_
  rw [hlen] at hw hfree
  rw [List.forM_cons, wp_bind]
  unfold addFile ialloc nextInode
  rw [if_neg hname, wp_bind, wp_bind, wp_bind, wp_get, wp_bind, wp_modify, wp_pure, hfree, wp_bind,
    wp_winode (by decide), wp_pure, wp_bind, hempty]
  -- the inode is written, and is no inode of the image
  have hw' : Written NINODES (contents files) { w with freeinode := NINODES + 1 } :=
    ⟨hw.few, hw.placed.congr rfl rfl, fun i hpos hi => (hw.holds i hpos hi).congr rfl (fun _ => rfl)
      fun _ => rfl, hw.free, hw.freeblock, hw.front⟩
  refine (hw'.setInode_past _).wp_iappend (by decide) (by decide) (fun hbad => absurd hfits hbad)
    fun s' hs' _ => ?_
  exact ⟨hs'.freeblock_lt, trivial⟩

/-- So the limits are not kept. -/
theorem main_past_limits {f : Input} (hlen : files.length + 2 = NINODES) (hacc : Accepted files)
    (hname : SLASH ∉ f.name) (hempty : f.pieces = [])
    (hfits : Fits NINODES (appendTo (contents files) ROOTINO
      (Dirent.bytes ⟨.ofNat NINODES, f.stored⟩))) :
    ¬ (Stops (files ++ [f]) ∨ ∃ s, main (files ++ [f]) start = .ok () s ∧ Limits s) := by
  obtain ⟨a, s, hs, -⟩ := (main_past hlen hacc hname hempty hfits).returns
  rintro (⟨e, s', hs'⟩ | ⟨s', hs', hlim⟩)
  · rw [hs] at hs'
    nomatch hs'
  · have hfree := (main_freeinode (files ++ [f])).ok hs'
    rw [List.length_append, List.length_singleton] at hfree
    exact lt_irrefl _ (hlim.inum NINODES (by decide) (by omega))

/-- 199 empty files. -/
def manyFiles : List Input :=
  (List.range 199).map fun j => ⟨[.ofNat (97 + j / 26), .ofNat (97 + j % 26)], []⟩

/-- The last of 199 files gets the inode 200, of 200. -/
theorem mkfs_manyFiles :
    ¬ (Stops manyFiles ∨ ∃ s, main manyFiles start = .ok () s ∧ Limits s) := by
  have hsplit : manyFiles.take 198 ++ [⟨[104, 113], []⟩] = manyFiles := by decide +kernel
  rw [← hsplit]
  apply main_past_limits
  · decide +kernel
  · decide +kernel
  · decide
  · rfl
  · decide +kernel

end ChronoFS.Mkfs
