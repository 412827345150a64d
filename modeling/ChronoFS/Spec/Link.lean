import ChronoFS.Spec.Names

/-!
# Adding names

`dirlink` writes one entry: into a free entry, or at the end of the directory. The first entry of a
directory is `.`, which is not free, so it is never overwritten once the directory is made. The path
`.` therefore leads from a directory to itself (`namei_dot_spec`): the slot that `sys_recover_file`
gets from it is loaded, although that call does not lock it.

`ialloc` makes an inode that has no links yet. It is the inode `fr` of the invariant until it is
loaded and, if it is a directory, has its first entry (`Core.settle`).
-/

namespace ChronoFS

open Function

variable {st : Bool} {w fr : Option ℕ} {lg lg' lg'' : ℕ → Dinode} {hand : List ℕ} {s s' s'' : Fs}
  {k dp : Slot} {i b bn n : ℕ} {T : ℤ} {E : Halt → Fs → Prop} {H : Slot → ℤ × ℤ}
  {name : List UInt8}

/-! ## The first entry -/

theorem direntOffsets_pos {size : ℕ} (h : DIRENT_SIZE ≤ size) :
    ∃ offs, direntOffsets 0 size = 0 :: offs := by
  unfold direntOffsets
  obtain ⟨m, hm⟩ : ∃ m, (size - 0 + (DIRENT_SIZE - 1)) / DIRENT_SIZE = m + 1 := by
    refine ⟨(size - 0 + (DIRENT_SIZE - 1)) / DIRENT_SIZE - 1, ?_⟩
    simp only [DIRENT_SIZE] at *
    omega
  rw [hm, List.range_succ_eq_map, List.map_cons]
  exact ⟨_, rfl⟩

/-- A directory that is made begins with `.`, and looking it up finds that entry. -/
theorem Core.dot (h : Core st none fr lg hand s) (hk : (s.icache k).Live)
    (hdir : (s.icache k).din.type = T_DIR) (hfr : fr ≠ some (s.icache k).inum.toNat) :
    DIRENT_SIZE ≤ (s.icache k).din.size.toNat ∧
      (s.dirent k 0).inum.toNat = (s.icache k).inum.toNat ∧ (s.dirent k 0).inum ≠ 0 ∧
      s.lookup k DOT = some 0 := by
  obtain ⟨hsize, hmap, hinum, hne, hname⟩ := (h.node_of_live hk).dot hdir hfr
  have hblk : s.content k 0 = s.view.block ((s.icache k).din.map s.view.block 0) :=
    content_of_map hmap
  have hread : s.dirent k 0 = Dirent.read (s.content k 0).get 0 := dirent_eq s k rfl
  rw [← hblk, ← hread] at hinum hname
  have hne' : (s.dirent k 0).inum ≠ 0 := by
    intro h0
    rw [h0] at hinum
    exact hne hinum.symm
  refine ⟨hsize, hinum, hne', ?_⟩
  obtain ⟨offs, hoffs⟩ := direntOffsets_pos hsize
  have htest : nameTest DOT (s.dirent k 0) = true := by
    unfold nameTest
    rw [hname, Bool.and_true]
    exact bne_iff_ne.mpr hne'
  unfold Fs.lookup
  rw [hoffs]
  exact List.find?_cons_of_pos (p := fun off => nameTest DOT (s.dirent k off)) htest

theorem skipelem_dot : skipelem DOT = some (DOT, []) := by decide

/-- The path `.` leads from the current directory to itself. -/
theorem namei_dot_spec (h : Core st none none lg hand s) (hk : 0 < (s.icache k).ref)
    (hT : total s.hold + 1 ≤ T) :
    wp (namei (some k) DOT) (fun r s' => Named st lg hand s.hold r s s' ∧
      ∀ dp, r = some dp → dp = k ∧ (s'.icache k).Live ∧ (s'.icache k).din.type = T_DIR)
      (Halts T) s := by
  have hcwd : ∀ j, some k = some j → 0 < (s.icache j).ref := by
    rintro _ ⟨⟩
    exact hk
  have hnamed := namei_spec h hcwd hT DOT
  have hself : wp (namei (some k) DOT) (fun r s' => ∀ dp, r = some dp → dp = k ∧
      (s'.icache k).Live ∧ (s'.icache k).din.type = T_DIR) (fun _ _ => True) s := by
    unfold namei namex
    rw [wp_bind, if_neg (by decide)]
    dsimp only
    refine wp_of_spec (idup_spec (E := fun _ _ => True) h hk) (fun _ _ _ => trivial) ?_
    rintro ip s1 ⟨rfl, hlook1, hhold1, hclean1⟩
    have hpos1 : 0 < (s1.icache ip).ref := by
      rw [ref_of_hold hhold1]
      exact lt_of_lt_of_le hk (le_add_aRef s.hold ip ip)
    show wp (namexLoop false 2 ip [] DOT) _ _ s1
    unfold namexLoop
    rw [skipelem_dot]
    dsimp only
    rw [wp_bind]
    refine wp_ilock hlook1.core hpos1 (fun _ => trivial) (fun _ _ _ => trivial) ?_
    intro s2 hlook2 hhold2 hfree2 hlive2 _ hidle'
    rw [wp_bind, wp_inode, wp_ite]
    refine ⟨fun _ => ?_, fun hdir => ?_⟩
    · rw [wp_bind]
      refine wp_iunlockput_idle hlook2.core hlive2.1 (hidle' hclean1.idle (by simp))
        (fun _ => trivial) fun s3 _ _ _ => ?_
      rw [wp_pure, wp_pure]
      simp
    · have hdir' : (s2.icache ip).din.type = T_DIR := not_not.mp hdir
      obtain ⟨-, hinum, -, hlookup⟩ := hlook2.core.dot hlive2 hdir' (by simp)
      rw [if_neg (by simp)]
      refine wp_of_spec (dirlookup_spec hlook2.core hlive2 (audited_of_lock hhold2 hfree2) le_rfl DOT) (fun _ _ _ => trivial) ?_
      rintro r s3 ⟨-, hr, -, hsome⟩
      rw [hlookup] at hr
      obtain ⟨⟨next, off⟩, rfl, hoff⟩ := Option.map_eq_some_iff.mp hr
      obtain rfl : off = 0 := hoff
      have hup := hsome next 0 rfl
      -- the entry names the directory itself, which is cached
      have hpos3 : 0 < (s3.icache next).ref := by
        rw [ref_of_hold hup.hold, Pi.add_apply, aRef_self]
        have := hlook2.core.cache.nonneg next
        show 0 < (s2.icache next).ref + 1
        omega
      have hip3 : 0 < (s3.icache ip).ref := by
        rw [ref_of_hold hup.hold]
        exact lt_of_lt_of_le hlive2.1 (le_add_aRef s2.hold next ip)
      obtain rfl : next = ip := by
        refine hup.looked.core.cache.uniq next ip hpos3 hip3 (UInt32.toNat_inj.mp ?_)
        rw [hup.inum, hinum, (hup.looked.slot ip hlive2.1).2.1]
      have hslot3 := hup.self hlive2.1
      have hidle3 : Idle s3 next := by
        intro hone
        rw [hslot3] at hone
        have := hlive2.1
        dsimp only at hone
        omega
      rw [wp_bind]
      refine wp_iunlockput_idle hup.looked.core hip3 hidle3 (fun _ => trivial)
        fun s4 _ _ hic4 => ?_
      dsimp only
      unfold namexLoop
      show wp (pure (some (next, _))) _ _ s4
      rw [wp_pure, wp_pure]
      intro dp hdp
      have hslot4 : s4.icache next = { s2.icache next with locked := false } := by
        rw [hic4, update_self, hslot3]
        simp
      refine ⟨(Option.some.inj hdp).symm, ?_, ?_⟩
      · rw [hslot4]
        exact hlive2
      · rw [hslot4]
        exact hdir'
  exact wp_mono (wp_and hnamed hself) (fun _ _ hq => ⟨hq.1.1, hq.2⟩) fun _ _ he => he.1

/-! ## `dirlink` -/

/-- Where `dirlink` writes: at the first free entry, or at the end of the directory. -/
def Fs.linkOffset (s : Fs) (k : Slot) : ℕ :=
  ((direntOffsets 0 (s.icache k).din.size.toNat).find? fun off => (s.dirent k off).inum == 0).getD
    (DIRENT_SIZE * (direntOffsets 0 (s.icache k).din.size.toNat).length)

/-- Without a free entry, every entry is whole and the new one goes to the end. -/
theorem linkOffset_end {size : ℕ}
    (h : ∀ off ∈ direntOffsets 0 size, off + DIRENT_SIZE ≤ size) :
    DIRENT_SIZE * (direntOffsets 0 size).length = size := by
  have hlen : (direntOffsets 0 size).length = (size + (DIRENT_SIZE - 1)) / DIRENT_SIZE := by
    unfold direntOffsets
    rw [List.length_map, List.length_range, Nat.sub_zero]
  rw [hlen]
  by_cases hz : (size + (DIRENT_SIZE - 1)) / DIRENT_SIZE = 0
  · simp only [DIRENT_SIZE] at *
    omega
  · -- the last entry ends at the end
    have hlast := h (0 + DIRENT_SIZE * ((size + (DIRENT_SIZE - 1)) / DIRENT_SIZE - 1))
      (mem_direntOffsets.mpr ⟨_, by rw [Nat.sub_zero]; omega, rfl⟩)
    simp only [DIRENT_SIZE] at *
    omega

/-- What `dirlink` did with the name. -/
structure Entered (st : Bool) (fr : Option ℕ) (lg : ℕ → Dinode) (hand : List ℕ) (dp : Slot)
    (name : List UInt8) (inum : UInt32) (ok : Bool) (s s' : Fs) : Prop where
  /-- It was given a directory. -/
  dir : (s.icache dp).din.type = T_DIR
  /-- A name that is present is left alone. -/
  present : ok = false → s.lookup dp name ≠ none ∧ Looked st fr lg hand s.hold s s' ∧
    s'.hold = s.hold
  /-- Another one gets an entry. -/
  added : ok = true → s.lookup dp name = none ∧ ∃ lg',
    Wrote st fr hand dp (Dirent.bytes ⟨inum.toUInt16, name⟩) (s.linkOffset dp) lg s lg' s'

/-- The new entry is one that the directory may have. -/
theorem dirWrite_link (h : Core st none fr lg hand s) (hk : (s.icache dp).Live)
    (hdir : (s.icache dp).din.type = T_DIR) {inum : UInt32} (hi : inum.toNat < s.sb.ninodes)
    {off : ℕ} (hal : off % DIRENT_SIZE = 0)
    (hfree : off = 0 → DIRENT_SIZE ≤ (s.icache dp).din.size.toNat → (s.dirent dp 0).inum = 0) :
    DirWrite s.sb.ninodes fr (s.icache dp).inum.toNat
      (Dirent.bytes ⟨inum.toUInt16, name⟩) off where
  len := Dirent.length_bytes _
  aligned := hal
  inum := by
    rw [(Dirent.read_bytes _).1, UInt32.toNat_toUInt16]
    exact lt_of_le_of_lt (Nat.mod_le ..) hi
  first := by
    intro hfr
    obtain ⟨hsize, -, hne, -⟩ := h.dot hk hdir hfr
    by_contra hlt
    refine hne (hfree ?_ hsize)
    simp only [DIRENT_SIZE] at *
    omega

/-- The end of `dirlink`: the entry is written. -/
theorem dirlink_write_spec (h : Core st none fr lg hand s) (hk : (s.icache dp).Live)
    (ha : s.Audited dp) (hdir : (s.icache dp).din.type = T_DIR) {inum : UInt32} (hi : inum.toNat < s.sb.ninodes)
    (hnew : s.lookup dp name = none) {off : ℕ} (hoff : s.linkOffset dp = off) (hlt : off < 2 ^ 32)
    (hal : off % DIRENT_SIZE = 0)
    (hfree : off = 0 → DIRENT_SIZE ≤ (s.icache dp).din.size.toNat → (s.dirent dp 0).inum = 0) :
    wp (do
        let w ← writei dp (Dirent.bytes ⟨inum.toUInt16, name⟩) (.ofNat off)
        if w = some DIRENT_SIZE then return true else throw (.panic .dirlink))
      (fun ok s' => Entered st fr lg hand dp name inum ok s s') (Halts T) s := by
  have htoNat : (UInt32.ofNat off).toNat = off := UInt32.toNat_ofNat_of_lt hlt
  have hwrite : DirWrite s.sb.ninodes fr (s.icache dp).inum.toNat
      (Dirent.bytes ⟨inum.toUInt16, name⟩) off := dirWrite_link h hk hdir hi hal hfree
  refine wp_of_spec (writei_spec (E := Halts T) h hk ha (fun _ _ he => he.halts)
    (by rw [Dirent.length_bytes]; decide) (by rw [htoNat]; exact fun _ => hwrite))
    (fun _ _ => id) ?_
  rintro w s' ⟨-, hw⟩
  rw [wp_ite]
  refine ⟨fun hlen => ?_, fun _ => Halt.Benign.halts ⟨by decide, by decide⟩⟩
  rcases hw (by rw [hdir]; decide) with ⟨rfl, -⟩ | ⟨-, lg', hwrote⟩
  · cases hlen
  · rw [htoNat, ← hoff] at hwrote
    exact ⟨hdir, by nofun, fun _ => ⟨hnew, lg', hwrote⟩⟩

theorem dirlink_spec (h : Core st none fr lg hand s) (hk : (s.icache dp).Live)
    (ha : s.Audited dp) (hT : total s.hold ≤ T) {inum : UInt32} (hi : inum.toNat < s.sb.ninodes) (name : List UInt8) :
    wp (dirlink dp name inum)
      (fun ok s' => Entered st fr lg hand dp name inum ok s s') (Halts T) s := by
  unfold dirlink
  rw [wp_bind, wp_uses ha]
  refine wp_of_spec (dirlookup_spec h hk ha hT name) (fun _ _ => id) ?_
  rintro r s1 ⟨hdir, hr, hnone, hsome⟩
  rcases r with _ | ⟨ip, off⟩
  · -- the name is new
    obtain rfl := hnone rfl
    have hsize := (s1.icache dp).din.size.toNat_lt
    dsimp only
    rw [wp_bind, wp_inode]
    refine wp_of_spec (direntScan_spec (h.openWin hk ha).owns hdir (h.noHoles_dir hk hdir)
      (fun de => de.inum == 0) _ (fun off hoff => (direntOffsets_lt 0 (by decide) hsize hoff).1)
      fun _ => Halt.Benign.halts (e := .panic .dirlinkRead) ⟨by decide, by decide⟩)
      (fun _ _ => id) ?_
    rintro r s2 ⟨rfl, hfind, hend, -⟩
    rcases r with _ | ⟨off, de⟩
    · have heq := linkOffset_end (hend rfl)
      have hoff : s2.linkOffset dp =
          DIRENT_SIZE * (direntOffsets 0 (s2.icache dp).din.size.toNat).length := by
        unfold Fs.linkOffset
        rw [Option.map_eq_none_iff.mp hfind.symm]
        rfl
      refine dirlink_write_spec h hk ha hdir hi hr.symm hoff (by rw [heq]; exact hsize)
        (Nat.mul_mod_right ..) fun h0 hle => ?_
      dsimp only at h0
      rw [← heq, h0] at hle
      exact absurd hle (by decide)
    · obtain ⟨o, ho, heq⟩ := Option.map_eq_some_iff.mp hfind.symm
      obtain ⟨rfl, -⟩ := Prod.mk.inj heq
      obtain ⟨hlt, hal⟩ := direntOffsets_lt 0 (by decide) hsize (List.mem_of_find?_eq_some ho)
      have hoff : s2.linkOffset dp = o := by
        unfold Fs.linkOffset
        rw [ho]
        rfl
      refine dirlink_write_spec h hk ha hdir hi hr.symm hoff hlt hal fun h0 _ => ?_
      have htest := List.find?_some ho
      dsimp only at h0
      rw [h0] at htest
      exact beq_iff_eq.mp htest
  · -- the name is present
    have hup := hsome ip off rfl
    have hpos : 0 < (s1.icache ip).ref := by
      rw [ref_of_hold hup.hold, Pi.add_apply, aRef_self]
      have := h.cache.nonneg ip
      show 0 < (s.icache ip).ref + 1
      omega
    dsimp only
    rw [wp_bind]
    refine wp_iput_idle hup.looked.core hpos hup.clean.idle
      (fun _ => Halt.Benign.halts ⟨by decide, by decide⟩) fun s2 hlook2 hhold2 _ => ?_
    have hback : s1.hold - aRef ip = s.hold := by
      rw [hup.hold]
      abel
    rw [hback] at hlook2 hhold2
    rw [wp_pure]
    refine ⟨hdir, fun _ => ⟨?_, hup.looked.trans hlook2, hhold2⟩, by nofun⟩
    rw [← hr]
    nofun

/-- The directory after `dirlink`: looking the name up finds the new entry. -/
theorem Wrote.lookup {inum : UInt32}
    (hw : Wrote st fr hand dp (Dirent.bytes ⟨inum.toUInt16, name⟩) (s.linkOffset dp) lg s lg' s')
    (hnew : s.lookup dp name = none) (hal : (s.icache dp).din.size.toNat % DIRENT_SIZE = 0)
    (h0 : inum.toUInt16 ≠ 0) :
    s'.lookup dp name = some (s.linkOffset dp) ∧
      (s'.dirent dp (s.linkOffset dp)).inum = inum.toUInt16 := by
  have hlen := Dirent.length_bytes ⟨inum.toUInt16, name⟩
  have hbyte := hw.byteAt
  have hsize := hw.size
  rw [hlen] at hbyte hsize
  -- the new entry is at a multiple of the entry size, inside or at the end
  have hoff : s.linkOffset dp % DIRENT_SIZE = 0 ∧
      s.linkOffset dp ≤ (s.icache dp).din.size.toNat := by
    unfold Fs.linkOffset
    cases hfind : (direntOffsets 0 (s.icache dp).din.size.toNat).find?
        fun off => (s.dirent dp off).inum == 0 with
    | none =>
      rw [Option.getD_none]
      unfold direntOffsets
      rw [List.length_map, List.length_range]
      simp only [DIRENT_SIZE] at *
      omega
    | some off =>
      obtain ⟨e, he, rfl⟩ := mem_direntOffsets.mp (List.mem_of_find?_eq_some hfind)
      rw [Option.getD_some]
      simp only [DIRENT_SIZE] at *
      omega
  generalize s.linkOffset dp = off at *
  have hself : s'.dirent dp off =
      Dirent.read (fun j => (Dirent.bytes ⟨inum.toUInt16, name⟩).getD j 0) 0 := by
    refine Dirent.read_congr fun j hj => ?_
    rw [Nat.zero_add, hbyte, if_pos ⟨Nat.le_add_right .., Nat.add_lt_add_left hj off⟩,
      Nat.add_sub_cancel_left]
  have hothers : ∀ x, x % DIRENT_SIZE = 0 → x ≠ off → s'.dirent dp x = s.dirent dp x := by
    intro x hx hne
    refine Dirent.read_congr fun j hj => ?_
    rw [Nat.zero_add, hbyte, if_neg]
    simp only [DIRENT_SIZE] at *
    omega
  have hinum : (s'.dirent dp off).inum = inum.toUInt16 := by
    rw [hself]
    exact (Dirent.read_bytes _).1
  have htest : nameTest name (s'.dirent dp off) = true := by
    unfold nameTest namecmp
    rw [hinum, hself, (Dirent.read_bytes _).2, Bool.and_eq_true]
    exact ⟨bne_iff_ne.mpr h0, beq_self_eq_true _⟩
  refine ⟨?_, hinum⟩
  unfold Fs.lookup at hnew ⊢
  have hmem : off ∈ direntOffsets 0 (s'.icache dp).din.size.toNat := by
    refine mem_direntOffsets.mpr ⟨off / DIRENT_SIZE, ?_, ?_⟩
    · rw [hsize]
      simp only [DIRENT_SIZE] at *
      omega
    · simp only [DIRENT_SIZE] at *
      omega
  obtain ⟨x, hx⟩ : ∃ x, (direntOffsets 0 (s'.icache dp).din.size.toNat).find?
      (fun off => nameTest name (s'.dirent dp off)) = some x :=
    Option.isSome_iff_exists.mp (List.find?_isSome.mpr ⟨off, hmem, htest⟩)
  rw [hx]
  -- no other entry has the name
  by_contra hne
  obtain ⟨e, he, hex⟩ := mem_direntOffsets.mp (List.mem_of_find?_eq_some hx)
  have hxal : x % DIRENT_SIZE = 0 := by
    simp only [DIRENT_SIZE] at *
    omega
  have hxne : x ≠ off := fun heq => hne (heq ▸ rfl)
  have hxtest := List.find?_some hx
  rw [hothers x hxal hxne] at hxtest
  refine List.find?_eq_none.mp hnew x (mem_direntOffsets.mpr ⟨e, ?_, hex⟩) hxtest
  rw [hsize] at he
  simp only [DIRENT_SIZE] at *
  omega

/-- What another owner has does not belong to the file in slot `k`. -/
theorem Core.not_owns (h : Core st none fr lg hand s) (hk : (s.icache k).Live) {o : Owner}
    (ho : o.inode ≠ some (s.icache k).inum.toNat)
    (hne : refs lg s.view.block s.versions o ≠ 0) :
    ¬ s.owns k (refs lg s.view.block s.versions o) := by
  have hlg := (h.cache.cached k hk (by nofun)).1
  rintro ⟨-, ⟨bn, hbn⟩ | hind⟩
  · have heq : refs lg s.view.block s.versions o =
        refs lg s.view.block s.versions (.data (s.icache k).inum.toNat bn) := by
      rw [← hbn]
      show _ = (lg (s.icache k).inum.toNat).map s.view.block bn
      rw [hlg]
      rfl
    rw [h.own.inj o _ hne heq] at ho
    exact ho rfl
  · have heq : refs lg s.view.block s.versions o =
        refs lg s.view.block s.versions (.indirect (s.icache k).inum.toNat) := by
      rw [← hind]
      show _ = (lg (s.icache k).inum.toNat).indirect.toNat
      rw [hlg]
    rw [h.own.inj o _ hne heq] at ho
    exact ho rfl

/-- A block of a file depends on the indirect block and on itself. -/
theorem content_congr {blk blk' : ℕ → Block} {d : Dinode} {bn : ℕ}
    (hind : d.indirect ≠ 0 → blk' d.indirect.toNat = blk d.indirect.toNat)
    (hdata : d.map blk bn ≠ 0 → blk' (d.map blk bn) = blk (d.map blk bn)) :
    d.content blk' bn = d.content blk bn := by
  unfold Dinode.content
  rw [map_congr hind]
  split
  · rfl
  · rename_i hne
    exact hdata hne

/-- A change that leaves the blocks in use as they are leaves every file as it is. -/
theorem Core.content_old (h : Core st w fr lg hand s) {blk : ℕ → Block}
    (hold : ∀ b, s.view.used b = true → blk b = s.view.block b) (i bn : ℕ) :
    (lg i).content blk bn = (lg i).content s.view.block bn := by
  apply content_congr
  · exact fun h0 => hold _ (h.own.isUsed (.indirect i) (toNat_ne_zero.mpr h0))
  · exact fun hne => hold _ (h.own.isUsed (.data i bn) hne)

/-- What a directory has depends on its contents. -/
theorem lookup_congr {blk blk' : ℕ → Block} {d : Dinode}
    (h : ∀ bn, d.content blk' bn = d.content blk bn) (name : List UInt8) :
    d.lookup blk' name = d.lookup blk name := by
  unfold Dinode.lookup Dinode.dirent Dinode.byteAt
  simp only [h]

end ChronoFS
