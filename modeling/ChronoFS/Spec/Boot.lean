import ChronoFS.Spec.Steps

/-!
# From boot on

`boot` is the kernel as the first process finds it, on a disk with the super block `sb`. If the disk is a
well-formed image (`Image`), as `mkfs` writes one, the invariant holds at boot, and so it holds after
any sequence of system calls (`Reached.run`).
-/

namespace ChronoFS

open Function

variable {sb : Superblock} {disk : ℕ → Block} {st : Bool} {leak : List Slot} {s s' : Kernel}
  {es : List Event} {e : Event}

/-! ## The first process -/

/-- A slot of the inode cache before it is first used. -/
def Inode.empty : Inode := ⟨0, 0, 0, false, false, .zero⟩

/-- The kernel after `iinit`, `initlog` and `userinit`: the first process has no files, and its current
directory is the root, which `namei("/")` has got from `iget`. -/
def boot (sb : Superblock) (disk : ℕ → Block) : Kernel where
  fs :=
    { disk
      sb
      logSize := sb.nlog
      lh := []
      outstanding := 0
      icache := fun k =>
        if k = 0 then { Inode.empty with dev := ROOTDEV, inum := .ofNat ROOTINO, ref := 1 } else .empty
      refcounts := []
      deleted := fun _ => ⟨[], 0, 0, 0, false⟩
      snapshots := fun _ => ⟨false, 0, [], 0⟩
      ticks := 0
      io := []
      ops := []
      versions := []
      lost := []
      unlocked := false }
  ftable := fun _ => ⟨.none, 0, false, false, 0⟩
  proc := fun p =>
    if p = INITPROC then ⟨.runnable, none, fun _ => none, some 0⟩ else ⟨.unused, none, fun _ => none, none⟩

/-- The disk is a well-formed image without versions. -/
structure Image (sb : Superblock) (disk : ℕ → Block) : Prop where
  /-- The areas of the disk do not overlap. -/
  layout : sb.Valid
  /-- The log has `LOGSIZE` blocks. -/
  nlog : sb.nlog = LOGSIZE
  /-- The blocks before the data blocks are marked used. -/
  metaUsed : ∀ b < sb.dataStart, (View.of sb disk).used b = true
  /-- Every block has at most one owner, is a data block and is marked used. -/
  own : Own (refs (View.of sb disk).dinode (View.of sb disk).block []) [] (View.of sb disk).used sb.Area
  /-- An inode in use has links. -/
  links : ∀ i, ((View.of sb disk).dinode i).type ≠ 0 → ((View.of sb disk).dinode i).nlink ≠ 0
  /-- There are no versions yet. -/
  heads : ∀ i, ((View.of sb disk).dinode i).type ≠ 0 → ((View.of sb disk).dinode i).versionHead = 0
  /-- No file has a hole. -/
  noHoles : ∀ i, ((View.of sb disk).dinode i).type ≠ 0 →
    ((View.of sb disk).dinode i).NoHoles (View.of sb disk).block
  /-- A directory is made of whole entries, the first of which is `.`. -/
  dot : ∀ i, ((View.of sb disk).dinode i).type = T_DIR →
    ((View.of sb disk).dinode i).size.toNat % DIRENT_SIZE = 0 ∧
      DIRENT_SIZE ≤ ((View.of sb disk).dinode i).size.toNat ∧
      HasDot i ((View.of sb disk).block (((View.of sb disk).dinode i).map (View.of sb disk).block 0))
  /-- The entries of a directory name inodes of the disk. -/
  entries : ∀ i, ((View.of sb disk).dinode i).type = T_DIR → ∀ bn,
    ((View.of sb disk).dinode i).map (View.of sb disk).block bn ≠ 0 →
      DirBlock sb.ninodes ((View.of sb disk).block
        (((View.of sb disk).dinode i).map (View.of sb disk).block bn))
  /-- The root is a directory. -/
  root : ((View.of sb disk).dinode ROOTINO).type = T_DIR

/-- No slot is loaded yet. -/
theorem boot_not_live (sb : Superblock) (disk : ℕ → Block) (k : Slot) :
    ¬ ((boot sb disk).fs.icache k).Live := by
  rintro ⟨-, hv⟩
  change (if k = 0 then _ else _ : Inode).valid = true at hv
  split at hv <;> nomatch hv

/-- The only slot in use is that of the root. -/
theorem boot_ref {sb : Superblock} {disk : ℕ → Block} {k : Slot}
    (h : 0 < ((boot sb disk).fs.icache k).ref) :
    k = 0 ∧ ((boot sb disk).fs.icache k).dev = ROOTDEV ∧
      ((boot sb disk).fs.icache k).inum.toNat = ROOTINO := by
  by_cases hk : k = 0
  · subst hk
    exact ⟨rfl, rfl, rfl⟩
  · have hempty : (boot sb disk).fs.icache k = .empty := if_neg hk
    rw [hempty] at h
    exact absurd h (by decide)

theorem Image.node (h : Image sb disk) {i : ℕ} (hi : ((View.of sb disk).dinode i).type ≠ 0) :
    NodeOk st sb.ninodes (View.of sb disk).block [] none i ((View.of sb disk).dinode i) where
  dir := h.entries i
  dot := fun hdir _ => by
    obtain ⟨-, hsize, hdot⟩ := h.dot i hdir
    refine ⟨hsize, h.noHoles i hi 0 ?_, hdot⟩
    rw [Nat.zero_mul]
    exact lt_of_lt_of_le (by decide) hsize
  aligned := fun hdir => (h.dot i hdir).1
  bound := by
    -- the block after the last that an inode can have would be a hole
    by_contra hlt
    have hne := h.noHoles i hi MAXFILE (Nat.not_le.mp hlt)
    unfold Dinode.map at hne
    rw [dif_neg (by decide), if_neg fun hc => absurd hc.1 (lt_irrefl _)] at hne
    exact hne rfl
  holes := fun bn _ hbn => h.noHoles i hi bn hbn
  chain := ⟨[], ⟨h.heads i hi, List.nil_sublist _⟩, by nofun⟩

theorem Image.core (h : Image sb disk) :
    Core st none none (View.of sb disk).dinode [] (boot sb disk).fs where
  layout := h.layout
  metaUsed := h.metaUsed
  cache :=
    { nonneg := fun k => by
        change 0 ≤ (if k = 0 then _ else _ : Inode).ref
        split <;> decide
      dev := fun k hk => (boot_ref hk).2.1
      inum := fun k hk => by
        rw [(boot_ref hk).2.2]
        exact h.layout.root
      uniq := fun k k' hk hk' _ => (boot_ref hk).1.trans (boot_ref hk').1.symm
      cached := fun k hk => absurd hk (boot_not_live sb disk k)
      uncached := fun i _ => ⟨rfl, fun htype _ => h.links i htype⟩
      window := by nofun }
  own := h.own
  node := fun i _ hi => h.node hi
  vers := ⟨by nofun, by nofun, by nofun, by nofun, by nofun, by nofun, by nofun⟩
  deleted := by nofun
  tracked := by nofun
  found := by nofun

theorem boot_users (sb : Superblock) (disk : ℕ → Block) : (boot sb disk).users = aRef 0 := by
  unfold Kernel.users
  have hfile : ∑ f, ((boot sb disk).ftable f).holds = 0 := Finset.sum_eq_zero fun _ _ => rfl
  rw [hfile, zero_add, Finset.sum_eq_single INITPROC]
  · exact Proc.holds_some rfl
  · intro q _ hq
    exact Proc.holds_none (by
      have : (boot sb disk).proc q = ⟨.unused, none, fun _ => none, none⟩ := if_neg hq
      rw [this])
  · intro hq
    exact absurd (Finset.mem_univ _) hq

theorem Image.inv (h : Image sb disk) : KInv st [] (boot sb disk) where
  inv := ⟨_, h.core⟩
  quiet := ⟨rfl, rfl⟩
  hold := by
    rw [boot_users, holds_nil, add_zero]
    funext k
    show ((if k = 0 then { Inode.empty with dev := ROOTDEV, inum := .ofNat ROOTINO, ref := 1 }
      else Inode.empty).ref, Inode.lockBit (if k = 0 then
        { Inode.empty with dev := ROOTDEV, inum := .ofNat ROOTINO, ref := 1 } else Inode.empty)) = _
    by_cases hk : k = 0
    · rw [hk]
      rfl
    · rw [if_neg hk, aRef, Pi.single_eq_of_ne hk]
      rfl
  ref := fun _ => le_refl _
  closed := fun _ _ => rfl
  opened := by simp [boot]
  cwd := fun p hp => by
    by_cases hinit : p = INITPROC
    · subst hinit
      exact absurd rfl hp
    · have : (boot sb disk).proc p = ⟨.unused, none, fun _ => none, none⟩ := if_neg hinit
      rw [this]

/-! ## Runs -/

/-- The invariant, with what never changes after boot. -/
structure Reached (st : Bool) (leak : List Slot) (sb : Superblock) (s : Kernel) : Prop where
  /-- The invariant holds. -/
  inv : KInv st leak s
  /-- The super block is that of the disk. -/
  sb : s.fs.sb = sb
  /-- The log has `LOGSIZE` blocks. -/
  logSize : s.fs.logSize = LOGSIZE

theorem Image.reached (h : Image sb disk) : Reached st [] sb (boot sb disk) := ⟨h.inv, rfl, h.nlog⟩

theorem Reached.done (h : Reached st leak sb s) {leak' : List Slot} (hd : Done st leak' s s') :
    Reached st leak' sb s' :=
  ⟨hd.inv, hd.sb.trans h.sb, hd.logSize.trans h.logSize⟩

theorem Reached.step (h : Reached st leak sb s) (hs : Step s e s')
    (hsmall : st = true → ∀ p c, e = .call p c → Recoverable s.fs c) :
    ∃ leak', Reached st leak' sb s' :=
  (hs.done h.inv hsmall).imp fun _ hd => h.done hd

/-- The invariant holds after any sequence of system calls. -/
theorem Reached.run (h : ∃ leak, Reached false leak sb s) (hrun : Run Step s es s') :
    ∃ leak, Reached false leak sb s' :=
  hrun.invariant (I := fun s => ∃ leak, Reached false leak sb s)
    (fun _ _ _ ⟨_, hr⟩ hstep => hr.step hstep (by nofun)) h

/-- The system calls `cs` in order, each by its process; `none` if one does not return. -/
def Kernel.calls : Kernel → List (ProcNo × Call) → Option Kernel
  | s, [] => some s
  | s, (p, c) :: cs =>
    if (s.proc p).state = .runnable then
      match syscall p c s with
      | .ok _ s' => s'.calls cs
      | .error _ _ => none
    else none

theorem calls_append (s : Kernel) (cs cs' : List (ProcNo × Call)) :
    s.calls (cs ++ cs') = (s.calls cs).bind fun s' => s'.calls cs' := by
  induction cs generalizing s with
  | nil => rfl
  | cons x cs ih =>
    rw [List.cons_append, Kernel.calls, Kernel.calls]
    split
    · split
      · exact ih _
      · rfl
    · rfl

theorem run_of_calls {cs : List (ProcNo × Call)} (h : s.calls cs = some s') :
    Run Step s (cs.map fun x => .call x.1 x.2) s' := by
  induction cs generalizing s with
  | nil =>
    obtain rfl : s = s' := Option.some.inj h
    exact .nil s
  | cons x cs ih =>
    unfold Kernel.calls at h
    split at h
    · rename_i hrunnable
      split at h
      · rename_i r s1 hcall
        exact .cons ⟨hrunnable, r, hcall⟩ (ih h)
      · nomatch h
    · nomatch h

/-! ## An image -/

/-- An image with two files. The root directory is in block 59. The file `f`, inode 2, has eleven blocks of
zeroes, ten direct ones from block 60 on and block 71, which is in the indirect block 70. The file `g`,
inode 3, is empty. -/
def fileImage : ℕ → Block := fun b =>
  if b = 32 then ((Block.zero.putDinode 1 root).putDinode 2 file).putDinode 3 empty
  else if b = 58 then .ofFn fun j => if j < 9 then 255 else 0
  else if b = 59 then .ofFn fun j =>
    (Dirent.bytes ⟨1, DOT⟩ ++ Dirent.bytes ⟨1, DOTDOT⟩ ++ Dirent.bytes ⟨2, [102]⟩ ++
      Dirent.bytes ⟨3, [103]⟩).getD j 0
  else if b = 70 then Block.zero.setWord 0 71
  else .zero
where
  /-- The root directory. -/
  root : Dinode :=
    { Dinode.zero with type := T_DIR, nlink := 1, size := 512, addrs := fun j => if j = 0 then 59 else 0 }
  /-- The file `f`. -/
  file : Dinode :=
    { Dinode.zero with
      type := T_FILE, nlink := 1, size := 5632, addrs := fun j => .ofNat (60 + j), indirect := 70 }
  /-- The file `g`. -/
  empty : Dinode := { Dinode.zero with type := T_FILE, nlink := 1 }

theorem fileImage_dinode (i : ℕ) : (View.of .mkfs fileImage).dinode i =
    if i = 1 then fileImage.root else if i = 2 then fileImage.file else
      if i = 3 then fileImage.empty else .zero := by
  by_cases hi : i < Superblock.mkfs.ninodes
  · have hview : (View.of .mkfs fileImage).dinode i =
        (fileImage (Superblock.mkfs.iblock i)).getDinode (i % IPB) := if_pos hi
    rw [hview]
    by_cases hfirst : i < IPB
    · -- the inodes of the first block
      have hblock : Superblock.mkfs.iblock i = 32 := by
        unfold Superblock.iblock
        rw [Nat.div_eq_of_lt hfirst]
        rfl
      have himage : fileImage 32 = ((Block.zero.putDinode 1 fileImage.root).putDinode 2
        fileImage.file).putDinode 3 fileImage.empty := rfl
      rw [hblock, himage, Nat.mod_eq_of_lt hfirst]
      by_cases h3 : i = 3
      · rw [h3, Block.getDinode_putDinode _ _ (by decide)]
        rfl
      · rw [Block.getDinode_putDinode_ne _ _ h3, if_neg h3]
        by_cases h2 : i = 2
        · rw [h2, Block.getDinode_putDinode _ _ (by decide)]
          rfl
        · rw [Block.getDinode_putDinode_ne _ _ h2, if_neg h2]
          by_cases h1 : i = 1
          · rw [h1, Block.getDinode_putDinode _ _ (by decide), if_pos rfl]
          · rw [Block.getDinode_putDinode_ne _ _ h1, if_neg h1, Block.getDinode_zero]
    · -- the other blocks of inodes are empty
      have hzero : fileImage (Superblock.mkfs.iblock i) = .zero := by
        have hle : Superblock.mkfs.iblock i = i / 8 + 32 := rfl
        have hlt : i < 200 := hi
        have hge : 8 ≤ i := Nat.le_of_not_lt hfirst
        unfold fileImage
        rw [hle, if_neg (by omega), if_neg (by omega), if_neg (by omega), if_neg (by omega)]
      have hge : 8 ≤ i := Nat.le_of_not_lt hfirst
      rw [hzero, Block.getDinode_zero, if_neg (by omega), if_neg (by omega), if_neg (by omega)]
  · have hview : (View.of .mkfs fileImage).dinode i = .zero := if_neg hi
    have hge : 200 ≤ i := Nat.le_of_not_lt hi
    rw [hview, if_neg (by omega), if_neg (by omega), if_neg (by omega)]

/-- The owner of each block of the image that has one. -/
def fileImage.owner (b : ℕ) : Owner :=
  if b = 59 then .data 1 0 else if b = 70 then .indirect 2 else .data 2 (if b = 71 then 10 else b - 60)

theorem fileImage_map_root (bn : ℕ) : fileImage.root.map (View.of .mkfs fileImage).block bn =
    if bn = 0 then 59 else 0 := by
  unfold Dinode.map
  by_cases h : bn < NDIRECT
  · rw [dif_pos h]
    show (if (⟨bn, h⟩ : Fin NDIRECT) = 0 then (59 : UInt32) else 0).toNat = _
    by_cases h0 : bn = 0
    · subst h0
      rfl
    · rw [if_neg h0, if_neg (by simpa [Fin.ext_iff] using h0)]
      rfl
  · have h0 : bn ≠ 0 := by
      rintro rfl
      exact h (by decide)
    rw [dif_neg h, if_neg h0, if_neg fun hc => hc.2 rfl]

theorem fileImage_map_file (bn : ℕ) : fileImage.file.map (View.of .mkfs fileImage).block bn =
    if bn < NDIRECT then 60 + bn else if bn = NDIRECT then 71 else 0 := by
  unfold Dinode.map
  by_cases h : bn < NDIRECT
  · have hlt : bn < 10 := h
    rw [dif_pos h, if_pos h]
    exact UInt32.toNat_ofNat_of_lt' (show 60 + bn < 2 ^ 32 by omega)
  · rw [dif_neg h, if_neg h]
    have hblock : (View.of .mkfs fileImage).block 70 = Block.zero.setWord 0 71 := rfl
    by_cases hmax : bn < MAXFILE
    · rw [if_pos ⟨hmax, by decide⟩]
      show (((View.of .mkfs fileImage).block 70).word (bn - NDIRECT)).toNat = _
      rw [hblock]
      by_cases h0 : bn = NDIRECT
      · rw [if_pos h0, h0, Nat.sub_self, Block.word_setWord _ _ (by decide)]
        rfl
      · have hne : bn - NDIRECT ≠ 0 := by omega
        rw [if_neg h0, Block.word_setWord_ne _ _ hne, Block.word_zero]
        rfl
    · have hne : bn ≠ NDIRECT := by
        rintro rfl
        exact hmax (by decide)
      rw [if_neg fun hc => hmax hc.1, if_neg hne]

/-- Every block of the image has the owner that `fileImage.owner` gives. -/
theorem fileImage_refs (o : Owner)
    (h : refs (View.of .mkfs fileImage).dinode (View.of .mkfs fileImage).block [] o ≠ 0) :
    59 ≤ refs (View.of .mkfs fileImage).dinode (View.of .mkfs fileImage).block [] o ∧
      refs (View.of .mkfs fileImage).dinode (View.of .mkfs fileImage).block [] o ≤ 71 ∧
      fileImage.owner (refs (View.of .mkfs fileImage).dinode (View.of .mkfs fileImage).block [] o) = o := by
  -- the other inodes have no blocks
  have hfree : ∀ i blk bn, (if i = 3 then fileImage.empty else Dinode.zero).map blk bn = 0 := by
    intro i blk bn
    split <;> unfold Dinode.map <;> split <;> first | rfl | exact if_neg fun hc => hc.2 rfl
  cases o with
  | data i bn =>
    simp only [refs, fileImage_dinode] at h ⊢
    by_cases h1 : i = 1
    · subst h1
      simp only [if_pos, fileImage_map_root] at h ⊢
      by_cases h0 : bn = 0
      · subst h0
        decide
      · exact absurd (if_neg h0) h
    · by_cases h2 : i = 2
      · subst h2
        simp only [if_neg h1, if_pos, fileImage_map_file] at h ⊢
        by_cases hd : bn < NDIRECT
        · have hlt : bn < 10 := hd
          simp only [if_pos hd]
          refine ⟨by omega, by omega, ?_⟩
          unfold fileImage.owner
          rw [if_neg (by omega), if_neg (by omega), if_neg (by omega), Nat.add_sub_cancel_left]
        · simp only [if_neg hd] at h ⊢
          by_cases hn : bn = NDIRECT
          · subst hn
            decide
          · exact absurd (if_neg hn) h
      · rw [if_neg h1, if_neg h2, hfree] at h
        exact absurd rfl h
  | indirect i =>
    simp only [refs, fileImage_dinode] at h ⊢
    by_cases h1 : i = 1
    · subst h1
      exact absurd rfl h
    · by_cases h2 : i = 2
      · subst h2
        decide
      · rw [if_neg h1, if_neg h2] at h
        split at h <;> exact absurd rfl h
  | vnode n => exact absurd rfl h
  | vdata n k => exact absurd rfl h

/-- The inodes in use. -/
theorem fileImage_cases {i : ℕ} (hi : ((View.of .mkfs fileImage).dinode i).type ≠ 0) :
    i = 1 ∧ (View.of .mkfs fileImage).dinode i = fileImage.root ∨
      i = 2 ∧ (View.of .mkfs fileImage).dinode i = fileImage.file ∨
      i = 3 ∧ (View.of .mkfs fileImage).dinode i = fileImage.empty := by
  rw [fileImage_dinode] at hi ⊢
  by_cases h1 : i = 1
  · rw [if_pos h1]
    exact .inl ⟨h1, rfl⟩
  · by_cases h2 : i = 2
    · rw [if_neg h1, if_pos h2]
      exact .inr (.inl ⟨h2, rfl⟩)
    · by_cases h3 : i = 3
      · rw [if_neg h1, if_neg h2, if_pos h3]
        exact .inr (.inr ⟨h3, rfl⟩)
      · rw [if_neg h1, if_neg h2, if_neg h3] at hi
        exact absurd rfl hi

/-- The only directory is the root. -/
theorem fileImage_dir {i : ℕ} (hi : ((View.of .mkfs fileImage).dinode i).type = T_DIR) :
    i = 1 ∧ (View.of .mkfs fileImage).dinode i = fileImage.root := by
  rcases fileImage_cases (i := i) (by rw [hi]; decide) with hroot | ⟨-, hfile⟩ | ⟨-, hfile⟩
  · exact hroot
  · rw [hfile] at hi
    exact absurd hi (by decide)
  · rw [hfile] at hi
    exact absurd hi (by decide)

/-- The image is well formed. -/
theorem fileImage_image : Image .mkfs fileImage where
  layout := Superblock.mkfs_valid
  nlog := rfl
  metaUsed := by decide +kernel
  own :=
    { inArea := fun o ho => by
        obtain ⟨hle, hge, -⟩ := fileImage_refs o ho
        exact ⟨hle, lt_of_le_of_lt hge (by decide)⟩
      isUsed := fun o ho => by
        obtain ⟨hle, hge, -⟩ := fileImage_refs o ho
        have hused : ∀ b ≤ 71, (View.of .mkfs fileImage).used b = true := by decide +kernel
        exact hused _ hge
      inj := fun o o' ho heq => by
        obtain ⟨-, -, hown⟩ := fileImage_refs o ho
        obtain ⟨-, -, hown'⟩ := fileImage_refs o' (heq ▸ ho)
        rw [← hown, heq, hown']
      held := by nofun
      nodup := List.nodup_nil }
  links := fun i hi => by
    rcases fileImage_cases hi with ⟨-, h⟩ | ⟨-, h⟩ | ⟨-, h⟩ <;> rw [h] <;> decide
  heads := fun i hi => by
    rcases fileImage_cases hi with ⟨-, h⟩ | ⟨-, h⟩ | ⟨-, h⟩ <;> rw [h] <;> rfl
  noHoles := fun i hi bn hbn => by
    rcases fileImage_cases hi with ⟨-, h⟩ | ⟨-, h⟩ | ⟨-, h⟩ <;> rw [h] at hbn ⊢
    · have hsize : bn * 512 < 512 := hbn
      obtain rfl : bn = 0 := by omega
      rw [fileImage_map_root]
      decide
    · have hsize : bn * 512 < 5632 := hbn
      rw [fileImage_map_file]
      by_cases hd : bn < NDIRECT
      · rw [if_pos hd]
        omega
      · obtain rfl : bn = 10 := by
          have hge : 10 ≤ bn := Nat.le_of_not_lt hd
          omega
        decide
    · exact absurd hbn (Nat.not_lt_zero _)
  dot := fun i hi => by
    obtain ⟨rfl, h⟩ := fileImage_dir hi
    rw [h, fileImage_map_root]
    exact ⟨by decide, by decide, by decide +kernel, by decide, by decide +kernel⟩
  entries := fun i hi bn hbn => by
    obtain ⟨rfl, h⟩ := fileImage_dir hi
    rw [h, fileImage_map_root] at hbn ⊢
    by_cases h0 : bn = 0
    · rw [if_pos h0]
      have hentries : ∀ e < 32, (Dirent.read ((View.of .mkfs fileImage).block 59).get
          (e * DIRENT_SIZE)).inum.toNat < 200 := by decide +kernel
      intro e he
      have he' : (e + 1) * 16 ≤ 512 := he
      exact hentries e (by omega)
    · exact absurd (if_neg h0) hbn
  root := by
    rw [fileImage_dinode]
    rfl

end ChronoFS
