import ChronoFS.Mkfs.Files

/-!
# What `mkfs` leaves on the disk

`main` starts from an image of zeroes, makes the root directory, adds the files, rounds the size of the
root directory up and writes the free map. With at most as many files as there are inodes, it gets to
the end exactly if it accepts them, and the image is then the written one with the last two changes
(`main_spec`). Whatever the number of files, `main` allocates one inode for each (`main_freeinode`).
-/

namespace ChronoFS

open Function

namespace Mkfs

variable {c : ℕ → List UInt8} {s w : State} {i n : ℕ} {files : List Input}

/-! ## The two ends of `main` -/

/-- The image at the start, with its super block. -/
theorem written_start : Written 1 (fun _ => []) (start.put 1 sb.toBlock) := by
  have hlow : ∀ b, b ≠ 1 → (start.put 1 sb.toBlock).disk b = .zero := fun b hb => update_of_ne hb ..
  have hdin : ∀ i, (start.put 1 sb.toBlock).view.dinode i = .zero := by
    intro i
    show (if i < Superblock.mkfs.ninodes then _ else _) = _
    split
    · have hinode : Superblock.mkfs.inodestart ≤ Superblock.mkfs.iblock i := Nat.le_add_left ..
      have hstart : 1 < Superblock.mkfs.inodestart := by decide
      rw [hlow _ (by omega)]
      exact Block.getDinode_zero _
    · rfl
  have hblk : ∀ b, (start.put 1 sb.toBlock).view.block b = .zero := by
    intro b
    show (if Superblock.mkfs.Area b then _ else _) = _
    split
    · rename_i harea
      have hdata : 1 < Superblock.mkfs.dataStart := by decide
      have := harea.1
      exact hlow b (by omega)
    · rfl
  have hrefs : ∀ o, refs (start.put 1 sb.toBlock).view.dinode (start.put 1 sb.toBlock).view.block [] o
      = 0 := by
    intro o
    cases o with
    | data i bn =>
      show Dinode.map _ _ _ = 0
      rw [hdin]
      exact map_of_no_addrs (fun _ => rfl) rfl
    | indirect i =>
      show ((start.put 1 sb.toBlock).view.dinode i).indirect.toNat = 0
      rw [hdin]
      rfl
    | vnode n => rfl
    | vdata n k => rfl
  have hown : Own (refs (start.put 1 sb.toBlock).view.dinode (start.put 1 sb.toBlock).view.block []) []
      (fun b => decide (b < (start.put 1 sb.toBlock).freeblock)) Superblock.mkfs.Area :=
    ⟨fun o ho => absurd (hrefs o) ho, fun o ho => absurd (hrefs o) ho,
      fun o _ ho => absurd (hrefs o) ho, fun _ hb => (nomatch hb), List.nodup_nil⟩
  refine ⟨by decide, ⟨le_rfl, by decide, fun b _ => hblk b, hown, fun b hb hlt => ?_⟩,
    fun i hi hlt => by omega, fun i _ => ⟨hdin i, rfl⟩, rfl, fun b hb => ?_⟩
  · exact absurd hb.1 (Nat.not_le.mpr hlt)
  · by_cases hb1 : b = 1
    · rw [if_pos hb1, hb1]
      exact disk_put_self ..
    · rw [if_neg hb1]
      exact hlow b hb1

/-- The size of the root directory at the end. -/
def fixed (n : ℕ) : ℕ := (n / BSIZE + 1) * BSIZE

/-- The last two changes: the size of the root directory, and the free map. -/
def finish (w : State) : State :=
  (w.setInode ROOTINO (grown (w.view.dinode ROOTINO) (fixed (w.view.dinode ROOTINO).size.toNat))).put
    sb.bmapstart ((List.range w.freeblock).foldl Block.setBit .zero)

/-- Writing the free map leaves the inodes alone. -/
theorem dinode_putMap (s : State) (v : Block) : (s.put sb.bmapstart v).view.dinode = s.view.dinode :=
  dinode_congr fun _ hi => update_of_ne (Nat.ne_of_lt (iblock_lt hi)) ..

/-- It leaves the data blocks alone. -/
theorem block_putMap (s : State) (v : Block) : (s.put sb.bmapstart v).view.block = s.view.block := by
  have hlow : sb.bmapstart < Superblock.mkfs.dataStart := by decide
  exact block_congr fun b hb => update_of_ne (Nat.ne_of_gt (lt_of_lt_of_le hlow hb.1)) ..

theorem dinode_finish (w : State) : (finish w).view.dinode = update w.view.dinode ROOTINO
    (grown (w.view.dinode ROOTINO) (fixed (w.view.dinode ROOTINO).size.toNat)) := by
  unfold finish
  rw [dinode_putMap, view_setInode (by decide)]
  rfl

theorem block_finish (w : State) : (finish w).view.block = w.view.block := by
  unfold finish
  rw [block_putMap, view_setInode (by decide)]
  rfl

/-- `main` before and after its loop over the files. -/
theorem wp_main {Q : Unit → State → Prop} {E : Stop → State → Prop}
    (h : ∀ s, Written 2 (contents []) s → s.freeinode = 2 →
      wp (files.forM (addFile ROOTINO)) (fun _ w => w.freeblock < BSIZE * 8 ∧ Q () (finish w)) E s) :
    wp (main files) Q E start := by
  have hfits : Fits 2 (contents []) := by decide
  have hcont : contents [] = appendTo (appendTo (fun _ => []) ROOTINO
      (Dirent.bytes ⟨.ofNat ROOTINO, DOT⟩)) ROOTINO (Dirent.bytes ⟨.ofNat ROOTINO, DOTDOT⟩) := by
    rw [appendTo_appendTo]
    funext i
    match i with
    | 0 => rfl
    | 1 => rfl
    | j + 2 => rfl
  rw [hcont] at h hfits
  unfold main
  rw [wp_bind, wp_wsect, wp_bind]
  refine written_start.wp_ialloc rfl (by decide) (by decide) fun s1 h1 hf1 => ?_
  rw [if_pos rfl, wp_bind]
  refine h1.wp_iappend (by decide) (by decide) (fun hbad => absurd ?_ hbad) fun s2 h2 hf2 => ?_
  · exact hfits.mono le_rfl (length_le_appendTo _ _ _)
  rw [wp_bind]
  refine h2.wp_iappend (by decide) (by decide) (fun hbad => absurd hfits hbad) fun s3 h3 hf3 => ?_
  refine wp_of_spec (h s3 h3 (hf3.trans (hf2.trans hf1))) (fun _ _ => id) fun _ w hw => ?_
  unfold fixRoot balloc
  rw [wp_bind, wp_bind, wp_rinode (by decide), wp_winode (iblock_lt_fssize (by decide)), wp_bind, wp_get]
  show wp (if w.freeblock < BSIZE * 8 then _ else _) _ _ _
  rw [if_pos hw.1, wp_wsect]
  exact hw.2

/-- The free map has a bit for every block. -/
theorem Written.freeblock_lt (h : Written n c w) : w.freeblock < BSIZE * 8 :=
  lt_of_le_of_lt h.placed.upper (by decide)

/-- With no more files than inodes, `main` gets to the end unless it does not accept the files. -/
theorem main_spec (hfew : files.length + 2 ≤ NINODES) :
    wp (main files) (fun _ s => ∃ w, Written (files.length + 2) (contents files) w ∧
      w.freeinode = files.length + 2 ∧ s = finish w) (fun _ _ => ¬ Accepted files) start :=
  wp_main fun _ hs hnext => hs.wp_addFiles hnext hfew (fun hbad _ _ => hbad) fun w hw hfree =>
    ⟨hw.freeblock_lt, w, hw, hfree, rfl⟩

/-! ## How many inodes are allocated -/

/-- The program leaves `freeinode` alone. -/
def KeepsFreeinode {α : Type} (m : MkfsM α) : Prop :=
  Keeps (fun s s' : State => s'.freeinode = s.freeinode) (fun _ => True) m

section Freeinode

variable {α β : Type} {m : MkfsM α} {f : α → MkfsM β}

theorem KeepsFreeinode.bind (hm : KeepsFreeinode m) (hf : ∀ a, KeepsFreeinode (f a)) :
    KeepsFreeinode (m >>= f) := keeps_bind (fun _ _ _ h h' => h'.trans h) hm hf

theorem KeepsFreeinode.pure (a : α) : KeepsFreeinode (Pure.pure a) := fun _ => rfl

theorem KeepsFreeinode.ite {c : Prop} [Decidable c] {m' : MkfsM α} (hm : KeepsFreeinode m)
    (hm' : KeepsFreeinode m') : KeepsFreeinode (if c then m else m') := keeps_ite hm hm'

theorem rsect_keeps (sec : ℕ) : KeepsFreeinode (rsect sec) := fun _ =>
  wp_rsect (fun _ => rfl) fun _ => trivial

theorem wsect_keeps (sec : ℕ) (buf : Block) : KeepsFreeinode (wsect sec buf) := fun _ => rfl

theorem nextBlock_keeps : KeepsFreeinode nextBlock := fun _ => rfl

theorem winode_keeps (inum : ℕ) (ip : Dinode) : KeepsFreeinode (winode inum ip) :=
  (rsect_keeps _).bind fun _ => wsect_keeps _ _

theorem rinode_keeps (inum : ℕ) : KeepsFreeinode (rinode inum) :=
  (rsect_keeps _).bind fun _ => .pure _

theorem appendBlock_keeps (din : Dinode) (fbn : ℕ) : KeepsFreeinode (appendBlock din fbn) := by
  unfold appendBlock
  split
  · exact .ite (nextBlock_keeps.bind fun _ => .pure _) (.pure _)
  · have hind : KeepsFreeinode (appendIndirect din) :=
      .ite (nextBlock_keeps.bind fun _ => .pure _) (.pure _)
    refine hind.bind fun _ => (rsect_keeps _).bind fun _ => .ite ?_ (.pure _)
    exact nextBlock_keeps.bind fun _ => (wsect_keeps _ _).bind fun _ => .pure _

theorem appendChunks_keeps (cs : List Chunk) (p : List UInt8) (din : Dinode) :
    KeepsFreeinode (appendChunks cs p din) := by
  induction cs generalizing p din with
  | nil => exact .pure _
  | cons c cs ih =>
    unfold appendChunks
    refine .ite ((appendBlock_keeps _ _).bind fun _ => ?_) (keeps_throw trivial)
    exact (rsect_keeps _).bind fun _ => (wsect_keeps _ _).bind fun _ => ih _ _

theorem iappend_keeps (inum : ℕ) (p : List UInt8) : KeepsFreeinode (iappend inum p) :=
  (rinode_keeps _).bind fun _ => (appendChunks_keeps _ _ _).bind fun _ => winode_keeps _ _

end Freeinode

/-- `ialloc` takes one inode. -/
theorem ialloc_freeinode (type : Int16) (s : State) :
    wp (ialloc type) (fun _ s' => s'.freeinode = s.freeinode + 1) (fun _ _ => True) s := by
  unfold ialloc nextInode
  rw [wp_bind, wp_bind, wp_get, wp_bind, wp_modify, wp_pure]
  exact wp_of_spec (winode_keeps _ _ _) (fun _ _ _ => trivial) fun _ _ h => h

/-- One pass of the loop takes one inode. -/
theorem addFile_freeinode (rootino : ℕ) (f : Input) (s : State) :
    wp (addFile rootino f) (fun _ s' => s'.freeinode = s.freeinode + 1) (fun _ _ => True) s := by
  unfold addFile
  rw [wp_ite]
  refine ⟨fun _ => trivial, fun _ => ?_⟩
  refine wp_of_spec (ialloc_freeinode _ s) (fun _ _ _ => trivial) fun inum s1 h1 => ?_
  refine wp_of_spec (iappend_keeps _ _ s1) (fun _ _ _ => trivial) fun _ s2 h2 => ?_
  refine wp_forM (fun _ s' => s'.freeinode = s.freeinode + 1) (h2.trans h1)
    (fun _ p _ s3 _ h3 => ?_) fun _ h => h
  exact wp_mono (iappend_keeps inum p s3) (fun _ _ h => h.trans h3) fun _ _ _ => trivial

/-- If `main` gets to the end, it has allocated an inode for each file, after that of the root. -/
theorem main_freeinode (files : List Input) :
    wp (main files) (fun _ s => s.freeinode = files.length + 2) (fun _ _ => True) start := by
  unfold main
  refine wp_of_spec (wsect_keeps _ _ start) (fun _ _ _ => trivial) fun _ s0 h0 => ?_
  refine wp_of_spec (ialloc_freeinode _ s0) (fun _ _ _ => trivial) fun rootino s1 h1 => ?_
  rw [h0] at h1
  rw [wp_ite]
  refine ⟨fun _ => ?_, fun _ => trivial⟩
  refine wp_of_spec (iappend_keeps _ _ s1) (fun _ _ _ => trivial) fun _ s2 h2 => ?_
  refine wp_of_spec (iappend_keeps _ _ s2) (fun _ _ _ => trivial) fun _ s3 h3 => ?_
  have hloop : wp (files.forM (addFile rootino)) (fun _ s => s.freeinode = files.length + 2)
      (fun _ _ => True) s3 := by
    refine wp_forM (fun done s => s.freeinode = done.length + 2) ?_ (fun done f _ s4 _ h4 => ?_)
      fun _ h => h
    · exact h3.trans (h2.trans h1)
    · refine wp_mono (addFile_freeinode rootino f s4) (fun _ s' h => ?_) fun _ _ _ => trivial
      rw [h, h4, List.length_append, List.length_singleton, Nat.add_right_comm]
  refine wp_of_spec hloop (fun _ _ _ => trivial) fun _ s4 h4 => ?_
  have hfix : KeepsFreeinode (fixRoot rootino) := (rinode_keeps _).bind fun _ => winode_keeps _ _
  refine wp_of_spec (hfix s4) (fun _ _ _ => trivial) fun _ s5 h5 => ?_
  rw [wp_bind, wp_get]
  unfold balloc
  rw [wp_ite]
  exact ⟨fun _ => h5.trans h4, fun _ => trivial⟩

end Mkfs

end ChronoFS
