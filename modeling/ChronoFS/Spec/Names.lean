import ChronoFS.Spec.Free

/-!
# Directories and paths

A directory has no holes, so reading its entries changes nothing. Looking up a name therefore only
takes references to inodes and gives them back (`namex_spec`): neither the disk nor what the kernel
sees of any inode changes, and no inode is freed on the way. A directory whose last link is gone is
still referred to by someone else, and an inode that nobody else refers to has just been loaded and
has links (`Idle`). The result is what the path names by the inodes and the blocks alone
(`Fs.resolve`).
-/

namespace ChronoFS

open Function

variable {st : Bool} {w fr : Option ℕ} {lg lg' lg'' : ℕ → Dinode} {hand : List ℕ} {s s' s'' : Fs}
  {k dp : Slot} {i b bn n : ℕ} {T : ℤ} {E : Halt → Fs → Prop} {H : Slot → ℤ × ℤ}
  {name : List UInt8}

/-! ## Entries -/

/-- The entry at offset `off` of the directory `d`. -/
def Dinode.dirent (blk : ℕ → Block) (d : Dinode) (off : ℕ) : Dirent :=
  Dirent.read (fun j => d.byteAt blk (off + j)) 0

/-- The entry at offset `off` of the directory in slot `k`. -/
def Fs.dirent (s : Fs) (k : Slot) (off : ℕ) : Dirent :=
  Dirent.read (fun j => s.byteAt k (off + j)) 0

/-- An entry of the directory is an entry of one of its blocks. -/
theorem dirent_eq (s : Fs) (k : Slot) {off : ℕ} (h : off % DIRENT_SIZE = 0) :
    s.dirent k off = Dirent.read (s.content k (off / BSIZE)).get
      (off % BSIZE / DIRENT_SIZE * DIRENT_SIZE) := by
  refine Dirent.read_congr fun j hj => ?_
  have hdiv := Nat.div_add_mod off BSIZE
  have hmod : off % BSIZE / DIRENT_SIZE * DIRENT_SIZE = off % BSIZE := by
    simp only [DIRENT_SIZE, BSIZE] at *
    omega
  have hlt : off % BSIZE + j < BSIZE := by
    simp only [DIRENT_SIZE, BSIZE] at *
    omega
  rw [hmod, content_get s k _ hlt, Nat.zero_add]
  congr 1
  rw [Nat.mul_comm]
  omega

/-- An entry of a directory names an inode of the disk, or none. -/
theorem Core.dirent_lt (h : Core st none fr lg hand s) (hk : (s.icache k).Live)
    (hdir : (s.icache k).din.type = T_DIR) {off : ℕ} (hoff : off % DIRENT_SIZE = 0) :
    (s.dirent k off).inum.toNat < s.sb.ninodes := by
  rw [dirent_eq s k hoff]
  refine h.dirBlock hk hdir _ _ ?_
  simp only [DIRENT_SIZE, BSIZE]
  omega

theorem getD_bytes (s : Fs) (k : Slot) (off : ℕ) {n j : ℕ} (hj : j < n) :
    (s.bytes k off n).getD j 0 = s.byteAt k (off + j) := by
  unfold Fs.bytes
  rw [List.getD_eq_getElem?_getD, List.getElem?_map, List.getElem?_range hj]
  rfl

theorem length_bytes (s : Fs) (k : Slot) (off n : ℕ) : (s.bytes k off n).length = n := by
  unfold Fs.bytes
  rw [List.length_map, List.length_range]

/-- The directory has no holes. -/
theorem Core.noHoles_dir (h : Core st none fr lg hand s) (hk : (s.icache k).Live)
    (hdir : (s.icache k).din.type = T_DIR) : (s.icache k).din.NoHoles s.view.block :=
  (h.node_of_live hk).noHoles (.inr hdir)

/-- Reading entry after entry finds the first that passes the test. -/
theorem direntScan_spec (h : OwnsBlocks k s) (hdir : (s.icache k).din.type = T_DIR)
    (hfull : (s.icache k).din.NoHoles s.view.block) {p : Panic}
    (test : Dirent → Bool) (offs : List ℕ) (hoffs : ∀ off ∈ offs, off < 2 ^ 32)
    (hp : (∃ off ∈ offs, (s.icache k).din.size.toNat < off + DIRENT_SIZE) → E (.panic p) s) :
    wp (direntScan k p test offs) (fun r s' => s' = s ∧
      r = (offs.find? fun off => test (s.dirent k off)).map (fun off => (off, s.dirent k off)) ∧
      (r = none → ∀ off ∈ offs, off + DIRENT_SIZE ≤ (s.icache k).din.size.toNat) ∧
      ∀ x, r = some x → x.1 + DIRENT_SIZE ≤ (s.icache k).din.size.toNat) E s := by
  induction offs with
  | nil =>
    refine ⟨rfl, rfl, fun _ off hoff => ?_, by nofun⟩
    cases hoff
  | cons off offs ih =>
    have hoff := hoffs off List.mem_cons_self
    have htoNat : (UInt32.ofNat off).toNat = off := UInt32.toNat_ofNat_of_lt hoff
    have hentry : (UInt32.ofNat DIRENT_SIZE).toNat = DIRENT_SIZE := rfl
    unfold direntScan
    rw [wp_bind]
    refine wp_readi_full h (by rw [hdir]; decide) hfull ?_
    by_cases hbad : UInt32.ofNat off > (s.icache k).din.size ∨
        UInt32.ofNat off + UInt32.ofNat DIRENT_SIZE < UInt32.ofNat off
    · rw [if_pos hbad]
      refine hp ⟨off, List.mem_cons_self, ?_⟩
      rw [gt_iff_lt, UInt32.lt_iff_toNat_lt, UInt32.lt_iff_toNat_lt, UInt32.toNat_add, htoNat,
        hentry] at hbad
      have := (s.icache k).din.size.toNat_lt
      simp only [DIRENT_SIZE] at *
      omega
    · rw [if_neg hbad]
      dsimp only
      rw [htoNat, length_bytes, wp_ite]
      refine ⟨fun hshort => hp ⟨off, List.mem_cons_self, ?_⟩, fun hlen => ?_⟩
      · rw [hentry] at hshort
        omega
      -- the entry lies below the size
      have hlen' : min (UInt32.ofNat DIRENT_SIZE).toNat ((s.icache k).din.size.toNat - off) =
          DIRENT_SIZE := not_not.mp hlen
      have hle : off + DIRENT_SIZE ≤ (s.icache k).din.size.toNat := by
        simp only [DIRENT_SIZE] at *
        omega
      have hread : Dirent.read (fun j => (s.bytes k off (min (UInt32.ofNat DIRENT_SIZE).toNat
          ((s.icache k).din.size.toNat - off))).getD j 0) 0 = s.dirent k off := by
        rw [hlen']
        refine Dirent.read_congr fun j hj => ?_
        rw [Nat.zero_add]
        exact getD_bytes s k off hj
      rw [hread, wp_ite]
      refine ⟨fun htest => ?_, fun htest => ?_⟩
      · rw [wp_pure, List.find?_cons_of_pos (p := fun off => test (s.dirent k off)) htest]
        refine ⟨rfl, rfl, by nofun, fun x hx => ?_⟩
        rw [← Option.some.inj hx]
        exact hle
      · refine wp_mono (ih (fun off' hoff' => hoffs off' (List.mem_cons_of_mem _ hoff')) ?_) ?_
          fun _ _ => id
        · rintro ⟨off', hoff', hshort⟩
          exact hp ⟨off', List.mem_cons_of_mem _ hoff', hshort⟩
        rintro r s' ⟨rfl, hr, hnone, hsome⟩
        refine ⟨rfl, ?_, fun hn off' hoff' => ?_, hsome⟩
        · rw [List.find?_cons_of_neg (p := fun off => test (s'.dirent k off)) htest]
          exact hr
        · rcases List.mem_cons.mp hoff' with rfl | hrest
          · exact hle
          · exact hnone hn off' hrest

theorem mem_direntOffsets {start size off : ℕ} :
    off ∈ direntOffsets start size ↔
      ∃ e < (size - start + (DIRENT_SIZE - 1)) / DIRENT_SIZE, start + DIRENT_SIZE * e = off := by
  unfold direntOffsets
  rw [List.mem_map]
  simp only [List.mem_range]

theorem direntOffsets_lt {size off : ℕ} (start : ℕ) (hstart : start % DIRENT_SIZE = 0)
    (hsize : size < 2 ^ 32) (h : off ∈ direntOffsets start size) :
    off < 2 ^ 32 ∧ off % DIRENT_SIZE = 0 := by
  obtain ⟨e, he, rfl⟩ := mem_direntOffsets.mp h
  simp only [DIRENT_SIZE] at *
  omega

/-! ## `dirlookup` -/

/-- The test of `dirlookup`. -/
def nameTest (name : List UInt8) (de : Dirent) : Bool := de.inum != 0 && namecmp name de.name

/-- The offset at which the directory `d` has the name, if it has it. -/
def Dinode.lookup (blk : ℕ → Block) (d : Dinode) (name : List UInt8) : Option ℕ :=
  (direntOffsets 0 d.size.toNat).find? fun off => nameTest name (d.dirent blk off)

/-- The offset at which the directory in slot `k` has the name, if it has it. -/
def Fs.lookup (s : Fs) (k : Slot) (name : List UInt8) : Option ℕ :=
  (direntOffsets 0 (s.icache k).din.size.toNat).find? fun off => nameTest name (s.dirent k off)

/-- What `dirlookup` leaves when it finds the name: a reference to the inode. -/
structure LookedUp (st : Bool) (fr : Option ℕ) (lg : ℕ → Dinode) (hand : List ℕ) (dp k : Slot)
    (off : ℕ) (s s' : Fs) : Prop where
  /-- Only the cache changed. -/
  looked : Looked st fr lg hand s.hold s s'
  /-- There is one reference more. -/
  hold : s'.hold = s.hold + aRef k
  /-- The slot is for the inode that the entry names. -/
  inum : (s'.icache k).inum.toNat = (s.dirent dp off).inum.toNat
  /-- If only the caller refers to it, it has not been loaded. -/
  clean : Clean s' k
  /-- The other slots are the same. -/
  other : ∀ j, j ≠ k → s'.icache j = s.icache j
  /-- A slot that was in use has one more reference. -/
  self : 0 < (s.icache k).ref →
    s'.icache k = { s.icache k with ref := (s.icache k).ref + 1 }
  /-- The entry lies below the size. -/
  below : off + DIRENT_SIZE ≤ (s.icache dp).din.size.toNat
  /-- It begins where an entry begins. -/
  aligned : off % DIRENT_SIZE = 0

theorem dirlookup_spec (h : Core st none fr lg hand s) (hk : (s.icache dp).Live)
    (ha : s.Audited dp) (hT : total s.hold ≤ T) (name : List UInt8) :
    wp (dirlookup dp name) (fun r s' => (s.icache dp).din.type = T_DIR ∧
      r.map Prod.snd = s.lookup dp name ∧ (r = none → s' = s) ∧
      ∀ k off, r = some (k, off) → LookedUp st fr lg hand dp k off s s') (Halts T) s := by
  unfold dirlookup
  rw [wp_bind, wp_uses ha, wp_bind, wp_inode, wp_ite]
  refine ⟨fun _ => Halt.Benign.halts ⟨by decide, by decide⟩, fun hdir => ?_⟩
  have hdir' : (s.icache dp).din.type = T_DIR := not_not.mp hdir
  have hsize := (s.icache dp).din.size.toNat_lt
  refine wp_of_spec (direntScan_spec (h.openWin hk ha).owns hdir' (h.noHoles_dir hk hdir')
    (nameTest name) _ (fun off hoff => (direntOffsets_lt 0 (by decide) hsize hoff).1)
    fun _ => Halt.Benign.halts (e := .panic .dirlookupRead) ⟨by decide, by decide⟩)
    (fun _ _ => id) ?_
  rintro r s1 ⟨rfl, hr, -, hbelow⟩
  cases r with
  | none =>
    rw [wp_pure]
    refine ⟨hdir', ?_, fun _ => rfl, by nofun⟩
    have hnone := (Option.map_eq_none_iff.mp hr.symm)
    exact hnone.symm
  | some x =>
    obtain ⟨off, de⟩ := x
    obtain ⟨off', hfind, heq⟩ := Option.map_eq_some_iff.mp hr.symm
    obtain ⟨rfl, rfl⟩ := Prod.mk.inj heq
    have hmem := List.mem_of_find?_eq_some hfind
    have hal := (direntOffsets_lt 0 (by decide) hsize hmem).2
    have hlt := h.dirent_lt hk hdir' hal
    have hcast : (s1.dirent dp off').inum.toUInt32.toNat = (s1.dirent dp off').inum.toNat :=
      UInt16.toNat_toUInt32 _
    dsimp only
    rw [h.cache.dev dp hk.1]
    refine wp_of_spec (iget_spec h (by rw [hcast]; exact hlt) hT) (fun _ _ => id) ?_
    rintro k s2 ⟨hlook, hhold, hinum, hclean, hother, hself⟩
    rw [wp_pure]
    refine ⟨hdir', hfind.symm, by nofun, fun k' o hko => ?_⟩
    obtain ⟨rfl, rfl⟩ := Prod.mk.inj (Option.some.inj hko)
    exact ⟨hlook, hhold, by rw [hinum, hcast], hclean, hother, hself, hbelow _ rfl, hal⟩

/-! ## Paths -/

/-- The inode that a path leads to from the inode `i`, or the inode of the parent and the final path
element, by the inodes `lg` and the blocks `blk`. -/
def resolve (lg : ℕ → Dinode) (blk : ℕ → Block) (par : Bool) :
    ℕ → ℕ → List UInt8 → List UInt8 → Option (ℕ × List UInt8)
  | 0, _, _, _ => none
  | bound + 1, i, name, path =>
    match skipelem path with
    | none => if par then none else some (i, name)
    | some (name, path) =>
      if (lg i).type ≠ T_DIR then none
      else if par ∧ path = [] then some (i, name)
      else
        match (lg i).lookup blk name with
        | none => none
        | some off => resolve lg blk par bound ((lg i).dirent blk off).inum.toNat name path

/-- Where a path leads from the current directory `cwd`. -/
def Fs.resolve (s : Fs) (cwd : Option Slot) (path : List UInt8) (par : Bool) :
    Option (ℕ × List UInt8) :=
  if path.head? = some SLASH then
    ChronoFS.resolve s.inodes s.view.block par (path.length + 1) ROOTINO [] path
  else
    match cwd with
    | none => none
    | some k =>
      ChronoFS.resolve s.inodes s.view.block par (path.length + 1) (s.icache k).inum.toNat [] path

/-- The inode that a path names. -/
def Fs.names (s : Fs) (cwd : Option Slot) (path : List UInt8) : Option ℕ :=
  (s.resolve cwd path false).map Prod.fst

/-- What looking up a path leaves: a reference to the inode it found, if it found one. -/
structure Named (st : Bool) (lg : ℕ → Dinode) (hand : List ℕ) (H : Slot → ℤ × ℤ) (r : Option Slot)
    (s s' : Fs) : Prop where
  /-- Only the cache changed. -/
  looked : Looked st none lg hand H s s'
  /-- There is one reference more. -/
  hold : s'.hold = H + (r.map aRef).getD 0
  /-- Dropping it again would lose nothing. -/
  idle : ∀ k, r = some k → Idle s' k

theorem ref_of_hold (h : s.hold = H) (k : Slot) : (s.icache k).ref = (H k).1 := by
  rw [← h]
  rfl

theorem lockBit_of_hold (h : s.hold = H) (k : Slot) : (s.icache k).lockBit = (H k).2 := by
  rw [← h]
  rfl

theorem le_add_aRef (H : Slot → ℤ × ℤ) (k j : Slot) : (H j).1 ≤ ((H + aRef k) j).1 := by
  have := aRef_nonneg k j
  rw [Pi.add_apply, Prod.fst_add]
  omega

/-- What the caller has just locked it may use. -/
theorem audited_of_lock (hhold : s'.hold = s.hold + aLock k) (hfree : (s.icache k).locked = false) :
    s'.Audited k := by
  have hbit : (s'.icache k).lockBit = 1 := by
    rw [lockBit_of_hold hhold, Pi.add_apply, Prod.snd_add]
    unfold aLock
    rw [Pi.single_eq_same]
    show (s.icache k).lockBit + 1 = 1
    unfold Inode.lockBit
    rw [hfree]
    rfl
  by_contra hne
  unfold Inode.lockBit at hbit
  rw [if_neg fun hl => hne (.inl hl)] at hbit
  cases hbit

/-- Whether a slot is idle depends on its references and its inode. -/
theorem Idle.congr (h : Idle s k) (hview : s'.view = s.view)
    (href : (s'.icache k).ref = (s.icache k).ref) (hinum : (s'.icache k).inum = (s.icache k).inum)
    (hvalid : (s'.icache k).valid = (s.icache k).valid)
    (hdin : (s'.icache k).din = (s.icache k).din) : Idle s' k := by
  unfold Idle
  rw [hview, href, hinum, hvalid, hdin]
  exact h

/-- The loop of `namex` takes a reference for each inode on the path and gives it back. -/
theorem namexLoop_spec (par : Bool) (hT : total H + 1 ≤ T) (hH : ∀ j, 0 ≤ (H j).1) (bound : ℕ)
    (ip : Slot) (name path : List UInt8) (h : Core st none none lg hand s)
    (hhold : s.hold = H + aRef ip) (hidle : Idle s ip) :
    wp (namexLoop par bound ip name path)
      (fun r s' => Named st lg hand H (r.map Prod.fst) s s' ∧
        r.map (fun x => ((s'.icache x.1).inum.toNat, x.2)) =
          resolve lg s.view.block par bound (s.icache ip).inum.toNat name path) (Halts T) s := by
  induction bound generalizing ip name path s with
  | zero => exact Halt.Benign.halts ⟨by decide, by decide⟩
  | succ bound ih =>
    have href : (s.icache ip).ref = (H ip).1 + 1 := by
      rw [ref_of_hold hhold, Pi.add_apply, aRef_self]
      rfl
    have hpos : 0 < (s.icache ip).ref := by
      have := hH ip
      omega
    have hback : s.hold - aRef ip = H := by
      rw [hhold, add_sub_cancel_right]
    unfold namexLoop resolve
    cases skipelem path with
    | none =>
      dsimp only
      rw [wp_ite]
      refine ⟨fun hpar => ?_, fun hpar => ?_⟩
      · rw [wp_bind]
        refine wp_iput_idle h hpos hidle (fun _ => Halt.Benign.halts ⟨by decide, by decide⟩)
          fun s1 hlook hhold1 _ => ?_
        rw [wp_pure]
        rw [hback] at hlook hhold1
        exact ⟨⟨hlook, hhold1.trans (add_zero H).symm, by nofun⟩, (if_pos hpar).symm⟩
      · rw [wp_pure]
        refine ⟨⟨.refl h, hhold, fun k hk => ?_⟩, (if_neg hpar).symm⟩
        rw [← Option.some.inj hk]
        exact hidle
    | some elem =>
      obtain ⟨name, path⟩ := elem
      dsimp only
      rw [wp_bind]
      refine wp_ilock h hpos (fun _ => Halt.Benign.halts ⟨by decide, by decide⟩)
        (fun _ _ _ => Halt.Benign.halts ⟨by decide, by decide⟩) ?_
      intro s1 hlook1 hhold1 hfree hlive1 hother1 hidle'
      have hidle1 : Idle s1 ip := hidle' hidle (by nofun)
      have hhold1' : s1.hold = H + aRef ip + aLock ip := by
        rw [hhold1, hhold]
      have hlookH1 : Looked st none lg hand H s s1 :=
        hlook1.anti fun j => by rw [hhold]; exact le_add_aRef H ip j
      have hback1 : s1.hold - aLock ip - aRef ip = H := by
        rw [hhold1']
        abel
      have hfloor1 : ∀ j, (H j).1 ≤ ((s1.hold - aRef ip) j).1 := by
        intro j
        have := aLock_fst ip j
        rw [hhold1']
        simp only [Pi.sub_apply, Pi.add_apply, Prod.fst_sub, Prod.fst_add]
        omega
      -- the inode on the path is the one that the slot holds
      have hinum1 : (s1.icache ip).inum = (s.icache ip).inum := (hlook1.slot ip hpos).2.1
      obtain ⟨hlg, -⟩ := hlook1.core.cache.cached ip hlive1 (by nofun)
      rw [hinum1] at hlg
      rw [wp_bind, wp_inode, wp_ite, hlg]
      refine ⟨fun hdir => ?_, fun hdir => ?_⟩
      · -- not a directory
        rw [wp_bind]
        refine wp_iunlockput_idle hlook1.core hlive1.1 hidle1
          (fun _ => Halt.Benign.halts ⟨by decide, by decide⟩) fun s2 hlook2 hhold2 _ => ?_
        rw [wp_pure, if_pos hdir]
        refine ⟨⟨hlookH1.trans (hlook2.anti hfloor1), ?_, by nofun⟩, rfl⟩
        rw [hhold2, hback1]
        exact (add_zero H).symm
      · rw [wp_ite, if_neg hdir]
        refine ⟨fun hlast => ?_, fun hlast => ?_⟩
        · -- the parent is found
          rw [wp_bind]
          refine wp_iunlock hlook1.core hlive1.1
            (fun _ => Halt.Benign.halts ⟨by decide, by decide⟩) fun s2 hlook2 hhold2 _ hidle2 => ?_
          rw [wp_pure, if_pos hlast]
          refine ⟨⟨hlookH1.trans (hlook2.anti fun j => ?_), ?_, fun k hk => ?_⟩, ?_⟩
          · refine (hfloor1 j).trans ?_
            have := aRef_nonneg ip j
            simp only [Pi.sub_apply, Prod.fst_sub]
            omega
          · rw [hhold2, hhold1', add_sub_cancel_right]
            rfl
          · rw [← Option.some.inj hk]
            exact hidle2 hidle1
          · rw [Option.map_some, (hlook2.slot ip hlive1.1).2.1, hinum1]
        · have hT1 : total s1.hold ≤ T := by
            rw [hhold1', total_add, total_add, total_aRef, total_aLock]
            omega
          refine wp_of_spec (dirlookup_spec hlook1.core hlive1 (audited_of_lock hhold1 hfree) hT1 name) (fun _ _ => id) ?_
          rintro r s2 ⟨-, hr, hnone, hsome⟩
          have hlookup : s1.lookup ip name = (s1.icache ip).din.lookup s.view.block name := by
            rw [← hlook1.view]
            rfl
          rw [hlookup] at hr
          rw [wp_bind, if_neg hlast, ← hr]
          cases r with
          | none =>
            obtain rfl := hnone rfl
            refine wp_iunlockput_idle hlook1.core hlive1.1 hidle1
              (fun _ => Halt.Benign.halts ⟨by decide, by decide⟩) fun s3 hlook3 hhold3 _ => ?_
            rw [wp_pure]
            refine ⟨⟨hlookH1.trans (hlook3.anti hfloor1), ?_, by nofun⟩, rfl⟩
            rw [hhold3, hback1]
            exact (add_zero H).symm
          | some x =>
            obtain ⟨next, off⟩ := x
            have hup := hsome next off rfl
            have hlook2 := hup.looked
            -- the directory is idle still, unless the name leads back to it
            have hidle2 : Idle s2 ip := by
              by_cases hn : next = ip
              · intro hone
                rw [hn] at hup
                rw [hup.self hlive1.1] at hone
                have := hlive1.1
                dsimp only at hone
                omega
              · have hsame := hup.other ip fun heq => hn heq.symm
                exact hidle1.congr hlook2.view (by rw [hsame]) (by rw [hsame]) (by rw [hsame])
                  (by rw [hsame])
            have hpos2 : 0 < (s2.icache ip).ref := by
              rw [ref_of_hold hup.hold]
              exact lt_of_lt_of_le hlive1.1 (le_add_aRef s1.hold next ip)
            refine wp_iunlockput_idle hlook2.core hpos2 hidle2
              (fun _ => Halt.Benign.halts ⟨by decide, by decide⟩) fun s3 hlook3 hhold3 hic3 => ?_
            dsimp only
            have hhold3' : s3.hold = H + aRef next := by
              rw [hhold3, hup.hold, hhold1']
              abel
            have hidle3 : Idle s3 next := by
              have hview : s3.view = s1.view := hlook3.view.trans hlook2.view
              by_cases hn : next = ip
              · rw [hn] at hup ⊢
                have hslot : s3.icache ip = { s1.icache ip with locked := false } := by
                  rw [hic3, update_self, hup.self hlive1.1]
                  simp
                exact hidle1.congr hview (by rw [hslot]) (by rw [hslot]) (by rw [hslot])
                  (by rw [hslot])
              · have hsame : s3.icache next = s2.icache next := by
                  rw [hic3, update_of_ne hn]
                exact hup.clean.idle.congr hlook3.view (by rw [hsame]) (by rw [hsame])
                  (by rw [hsame]) (by rw [hsame])
            have hlook : Looked st none lg hand H s s3 := by
              refine (hlookH1.trans (hlook2.anti fun j => ?_)).trans (hlook3.anti fun j => ?_)
              · refine (hfloor1 j).trans ?_
                have := aRef_nonneg ip j
                simp only [Pi.sub_apply, Prod.fst_sub]
                omega
              · refine (hfloor1 j).trans ?_
                rw [hup.hold]
                have := aRef_nonneg next j
                simp only [Pi.sub_apply, Pi.add_apply, Prod.fst_sub, Prod.fst_add]
                omega
            refine wp_mono (ih next name path hlook.core hhold3' hidle3) ?_ fun _ _ => id
            rintro r s4 ⟨hnamed, hres⟩
            refine ⟨⟨hlook.trans hnamed.looked, hnamed.hold, hnamed.idle⟩, ?_⟩
            have hnext : (s3.icache next).inum.toNat =
                ((s1.icache ip).din.dirent s.view.block off).inum.toNat := by
              have hpos3 : 0 < ((s2.hold - aRef ip) next).1 := by
                rw [hup.hold, hhold1']
                have h1 := hH next
                have h2 := aLock_fst ip next
                simp only [Pi.sub_apply, Pi.add_apply, Prod.fst_sub, Prod.fst_add, aRef_self]
                omega
              rw [(hlook3.slot next hpos3).2.1, hup.inum, ← hlook1.view]
              rfl
            rw [hlook.view] at hres
            rw [hres, hnext]
            rfl

/-- `namex` only takes references and gives them back. -/
theorem namex_spec {cwd : Option Slot} (h : Core st none none lg hand s)
    (hcwd : ∀ k, cwd = some k → 0 < (s.icache k).ref) (hT : total s.hold + 1 ≤ T)
    (path : List UInt8) (par : Bool) :
    wp (namex cwd path par)
      (fun r s' => Named st lg hand s.hold (r.map Prod.fst) s s' ∧
        r.map (fun x => ((s'.icache x.1).inum.toNat, x.2)) = s.resolve cwd path par) (Halts T) s := by
  unfold namex Fs.resolve
  rw [wp_ite, h.inodes]
  refine ⟨fun hslash => ?_, fun hslash => ?_⟩
  · -- from the root
    have hroot : (UInt32.ofNat ROOTINO).toNat < s.sb.ninodes := h.layout.root
    refine wp_of_spec (iget_spec h hroot (by omega)) (fun _ _ => id) ?_
    rintro ip s1 ⟨hlook, hhold, hinum, hclean, -, -⟩
    refine wp_mono (namexLoop_spec par hT (fun j => h.cache.nonneg j) _ ip [] path hlook.core hhold
      hclean.idle) ?_ fun _ _ => id
    rintro r s2 ⟨hnamed, hres⟩
    refine ⟨⟨hlook.trans hnamed.looked, hnamed.hold, hnamed.idle⟩, ?_⟩
    rw [hres, hlook.view, hinum, if_pos hslash]
    rfl
  · -- from the current directory
    cases cwd with
    | none => exact Halt.Benign.halts ⟨by decide, by decide⟩
    | some k =>
      dsimp only
      refine wp_of_spec (idup_spec h (hcwd k rfl)) (fun _ _ => id) ?_
      rintro ip s1 ⟨rfl, hlook, hhold, hclean⟩
      refine wp_mono (namexLoop_spec par hT (fun j => h.cache.nonneg j) _ ip [] path hlook.core hhold
        hclean.idle) ?_ fun _ _ => id
      rintro r s2 ⟨hnamed, hres⟩
      refine ⟨⟨hlook.trans hnamed.looked, hnamed.hold, hnamed.idle⟩, ?_⟩
      rw [hres, hlook.view, (hlook.slot ip (hcwd ip rfl)).2.1, if_neg hslash]

theorem namei_spec {cwd : Option Slot} (h : Core st none none lg hand s)
    (hcwd : ∀ k, cwd = some k → 0 < (s.icache k).ref) (hT : total s.hold + 1 ≤ T)
    (path : List UInt8) :
    wp (namei cwd path) (fun r s' => Named st lg hand s.hold r s s' ∧
      r.map (fun k => (s'.icache k).inum.toNat) = s.names cwd path) (Halts T) s := by
  unfold namei
  refine wp_of_spec (namex_spec h hcwd hT path false) (fun _ _ => id) ?_
  rintro r s' ⟨hnamed, hres⟩
  refine ⟨hnamed, ?_⟩
  unfold Fs.names
  rw [← hres, Option.map_map, Option.map_map]
  rfl

end ChronoFS
