import ChronoFS.Spec.Boot

/-!
# Calls that fail

A lone `link`, `unlink`, `mkdir` or `mknod` that returns `-1` leaves the tree as it was (`SameTree`).
Until such a call changes something, it only brings inodes into the cache. A slot that nobody else
refers to is then a copy of the disk's inode, which has links (`At.idle_of_same`), so that putting it
writes nothing.

`sys_link` is the one call that changes something and can fail later: it adds a link to the file
before it looks up the second path. `Linking` holds from there on; `linkBad` takes the link back.
-/

namespace ChronoFS

open Function

variable {st : Bool} {w : Option ℕ} {lg : ℕ → Dinode} {s₀ m s s' s'' s₁ : Fs} {k dp ip : Slot}
  {refs locks : List Slot} {i : ℕ} {T : ℤ} {E : Halt → Fs → Prop} {H : Slot → ℤ × ℤ}
  {cwd : Option Slot} {d : Dinode}

/-- The files, the directories, the free map and the table of deleted files are the same. -/
structure SameTree (s s' : Fs) : Prop where
  /-- Every inode: its type, its links, its size and its blocks. -/
  inodes : s'.inodes = s.inodes
  /-- The contents of the data blocks. -/
  block : s'.view.block = s.view.block
  /-- The free map. -/
  used : s'.view.used = s.view.used
  /-- The table of deleted files. -/
  deleted : s'.deleted = s.deleted

/-- The same of a call that may have changed the inode `w`, together with the inodes on disk. -/
structure SameBut (w : Option ℕ) (s s' : Fs) : Prop where
  /-- The other inodes. -/
  inodes : ∀ i, w ≠ some i → s'.inodes i = s.inodes i
  /-- Their copies on disk. -/
  dinode : ∀ i, w ≠ some i → s'.view.dinode i = s.view.dinode i
  /-- The contents of the data blocks. -/
  block : s'.view.block = s.view.block
  /-- The free map. -/
  used : s'.view.used = s.view.used
  /-- The table of deleted files. -/
  deleted : s'.deleted = s.deleted

theorem SameBut.refl (w : Option ℕ) (s : Fs) : SameBut w s s :=
  ⟨fun _ _ => rfl, fun _ _ => rfl, rfl, rfl, rfl⟩

theorem SameBut.trans (h : SameBut w s s') (h' : SameBut w s' s'') : SameBut w s s'' where
  inodes := fun i hi => (h'.inodes i hi).trans (h.inodes i hi)
  dinode := fun i hi => (h'.dinode i hi).trans (h.dinode i hi)
  block := h'.block.trans h.block
  used := h'.used.trans h.used
  deleted := h'.deleted.trans h.deleted

theorem SameBut.tree (h : SameBut none s s') : SameTree s s' :=
  ⟨funext fun i => h.inodes i (by nofun), h.block, h.used, h.deleted⟩

/-- Looking at inodes changes none. -/
theorem Peeked.sameBut (h : Peeked H s s') (w : Option ℕ) : SameBut w s s' where
  inodes := fun i _ => congrFun h.inodes i
  dinode := fun i _ => by rw [h.view]
  block := by rw [h.view]
  used := by rw [h.view]
  deleted := h.ordinary.deleted

theorem At.base_zero (h : At st none s₀ m (k :: refs) locks s) (hone : (s.icache k).ref = 1) :
    (s₀.icache k).ref = 0 := by
  have hcount := ref_of_hold h.hold (k := k)
  have hbase : 0 ≤ (s₀.icache k).ref := (h.base k).1
  have hmine := (holds_nonneg refs locks k).1
  rw [holds_ref, Pi.add_apply, Pi.add_apply, Prod.fst_add, Prod.fst_add, aRef_self] at hcount
  change _ = (s₀.icache k).ref + _ at hcount
  omega

/-- What the call refers to, but nobody else, was not in the cache when the call began. So it is the
disk's copy, and has links. -/
theorem At.loaded (h : At st none s₀ m refs locks s) (h0 : Core st none none lg [] s₀)
    (hsame : SameBut w s₀ s) (hw : w ≠ some (s.icache k).inum.toNat)
    (hfree : (s₀.icache k).ref = 0) (hlive : (s.icache k).Live) :
    (s.icache k).din = s.view.dinode (s.icache k).inum.toNat ∧ (s.icache k).din.nlink ≠ 0 := by
  obtain ⟨lg', hcore⟩ := h.core
  -- a slot that held the inode then would hold it still
  obtain ⟨hdisk, hlinks⟩ := h0.cache.uncached (s.icache k).inum.toNat fun j hj hinum => by
    have hslot := h.calm.slot j hj.1
    have hjk : j = k := hcore.cache.uniq j k (h.pos_of_base hj.1) hlive.1
      (UInt32.toNat_inj.mp (by rw [hslot.inum, hinum]))
    rw [hjk, Inode.Live, hfree] at hj
    exact absurd hj.1 (lt_irrefl _)
  have hdin : (s.icache k).din = lg (s.icache k).inum.toNat := by
    rw [hcore.din hlive, hsame.inodes _ hw, h0.inodes]
  have htype := (hcore.cache.cached k hlive (by nofun)).2.2
  rw [hdin] at htype ⊢
  exact ⟨by rw [hsame.dinode _ hw, hdisk], hlinks htype (by nofun)⟩

theorem At.idle_of_same (h : At st none s₀ m (k :: refs) locks s) (h0 : Core st none none lg [] s₀)
    (hsame : SameBut w s₀ s) (hw : w ≠ some (s.icache k).inum.toNat) : Idle s k :=
  fun hone hvalid => h.loaded h0 hsame hw (h.base_zero hone) ⟨by omega, hvalid⟩

/-- The call that began in `s₀` has added a link to the inode `i`, which is in slot `ip`, and has
changed nothing else. -/
structure Linking (ip : Slot) (i : ℕ) (s₀ s : Fs) : Prop where
  /-- The slot is for the inode. -/
  inum : (s.icache ip).inum.toNat = i
  /-- It has a link more. -/
  links : s.inodes i = { s₀.inodes i with nlink := (s₀.inodes i).nlink + 1 }
  /-- The rest is the same. -/
  same : SameBut (some i) s₀ s

theorem Linking.peek (h : Linking ip i s₀ s) (hp : Peeked H s s') (hpos : 0 < (H ip).1) :
    Linking ip i s₀ s' where
  inum := by rw [(hp.calm.slot ip hpos).inum, h.inum]
  links := by rw [hp.inodes, h.links]
  same := h.same.trans (hp.sameBut _)

/-- Writing the inode in slot `k` changes what the kernel sees of it. -/
theorem Core.inodes_commit {fr : Option ℕ} {hand : List ℕ} (h : Core st none fr lg hand s)
    (hk : (s.icache k).Live) (d : Dinode) (htype : d.type = (s.icache k).din.type)
    (hsize : d.size = (s.icache k).din.size) (haddrs : d.addrs = (s.icache k).din.addrs)
    (hind : d.indirect = (s.icache k).din.indirect)
    (hhead : d.versionHead = (s.icache k).din.versionHead) :
    (s.commit k d).inodes = update s.inodes (s.icache k).inum.toNat d := by
  rw [(h.commit hk d htype hsize haddrs hind hhead).inodes, h.inodes]

/-- The link is taken back. -/
theorem linkBad_failed (h : At st none (s.setOp 1 [] s.ops) m [ip] [] s₁)
    (hlink : Linking ip i (s.setOp 1 [] s.ops) s₁)
    (hone : (s.icache ip).ref = 0 → (s.inodes i).nlink ≠ 0) :
    wp (linkBad ip) (fun r s' => r = -1 → SameTree s s') (fun _ _ => True) s₁ := by
  unfold linkBad
  refine wp_of_spec (h.ilock (T := total s.hold + 2) h.pos) (fun _ _ _ => trivial) ?_
  rintro _ s2 ⟨h2, hpeek2, -⟩
  have hlink2 := hlink.peek hpeek2 h.pos
  obtain ⟨lg2, hcore2⟩ := h2.core
  have hlive2 := h2.live ip List.mem_cons_self
  have hdin2 : (s2.icache ip).din = { s.inodes i with nlink := (s.inodes i).nlink + 1 } := by
    rw [hcore2.din hlive2, hlink2.inum]
    exact hlink2.links
  have hback : { (s2.icache ip).din with nlink := (s2.icache ip).din.nlink + -1 } = s.inodes i := by
    rw [hdin2]
    show { s.inodes i with nlink := (s.inodes i).nlink + 1 + -1 } = s.inodes i
    rw [Int16.add_assoc]
    show { s.inodes i with nlink := (s.inodes i).nlink + 0 } = s.inodes i
    rw [Int16.add_zero]
  rw [wp_bind]
  unfold addLinks
  refine wp_commit (h2.audited List.mem_cons_self) ?_ fun _ _ _ _ => trivial
  have hkept := hcore2.commit_kept hlive2
    { (s2.icache ip).din with nlink := (s2.icache ip).din.nlink + -1 } rfl rfl rfl rfl rfl
  have hinodes := hcore2.inodes_commit hlive2
    { (s2.icache ip).din with nlink := (s2.icache ip).din.nlink + -1 } rfl rfl rfl rfl rfl
  have hview := view_commit hcore2.layout (hcore2.cache.inum ip hlive2.1)
    { (s2.icache ip).din with nlink := (s2.icache ip).din.nlink + -1 }
  have hslot : (s2.commit ip { (s2.icache ip).din with nlink := (s2.icache ip).din.nlink + -1 }).icache
      ip = { s2.icache ip with din := s.inodes i } := by
    rw [icache_commit, update_self, hback]
  have hdeleted : (s2.commit ip
      { (s2.icache ip).din with nlink := (s2.icache ip).din.nlink + -1 }).deleted = s.deleted :=
    hlink2.same.deleted
  have h3 := h2.kept hkept
  rw [hback] at hinodes hview hslot h3 hdeleted ⊢
  rw [hlink2.inum] at hinodes hview
  have htree : SameTree s (s2.commit ip (s.inodes i)) := by
    refine ⟨?_, ?_, ?_, hdeleted⟩
    · funext j
      rw [hinodes]
      by_cases hj : j = i
      · rw [hj, update_self]
      · rw [update_of_ne hj]
        exact hlink2.same.inodes j fun heq => hj (Option.some.inj heq).symm
    · rw [hview]
      exact hlink2.same.block
    · rw [hview]
      exact hlink2.same.used
  -- what is put is on disk as it is in memory
  have hidle : Idle (s2.commit ip (s.inodes i)) ip := by
    intro href _
    have hbase := h3.base_zero href
    rw [hslot, hview]
    refine ⟨?_, hone hbase⟩
    show s.inodes i = update s2.view.dinode i (s.inodes i) (s2.icache ip).inum.toNat
    rw [hlink2.inum, update_self]
  unfold putFail
  rw [wp_bind]
  refine h3.wp_iunlockput_idle hidle fun s4 h4 hpeek4 => ?_
  rw [wp_bind]
  refine h4.endOp fun _ _ _ => ?_
  have hsame4 := (hpeek4.sameBut none).tree
  exact ⟨hsame4.inodes.trans htree.inodes, hsame4.block.trans htree.block,
    hsame4.used.trans htree.used, hsame4.deleted.trans htree.deleted⟩

/-- Once the entry is to be removed, the call does not fail any more. -/
theorem unlinkEntry_zero (dp ip : Slot) (name : List UInt8) (off : ℕ) (t : Fs) :
    wp (unlinkEntry dp ip name off) (fun r _ => r = 0) (fun _ _ => True) t := by
  unfold unlinkEntry
  iterate 2 refine wp_bind_any fun _ _ => ?_
  rw [wp_ite]
  refine ⟨fun _ => trivial, fun _ => ?_⟩
  iterate 4 refine wp_bind_any fun _ _ => ?_
  exact wp_bind_any fun _ _ => rfl

/-- A call that holds nothing and has changed nothing gives up. -/
theorem At.wp_endFail (h : At st none (s.setOp 1 [] s.ops) m [] [] s₁)
    (hsame : SameBut none (s.setOp 1 [] s.ops) s₁) :
    wp (do ChronoFS.endOp; return (-1 : ℤ)) (fun r s' => r = -1 → SameTree s s') E s₁ := by
  rw [wp_bind]
  refine h.endOp fun _ _ _ => ?_
  have htree := hsame.tree
  exact ⟨htree.inodes, htree.block, htree.used, htree.deleted⟩

section Calls

variable (hcore : Core st none none lg [] s)

include hcore

/-- So does a call that holds one inode. -/
theorem At.wp_putFail (h : At st none (s.setOp 1 [] s.ops) m [k] [k] s₁)
    (hsame : SameBut none (s.setOp 1 [] s.ops) s₁) :
    wp (ChronoFS.putFail k) (fun r s' => r = -1 → SameTree s s') E s₁ := by
  unfold ChronoFS.putFail
  rw [wp_bind]
  refine h.wp_iunlockput_idle (h.idle_of_same (hcore.setOp 1 [] s.ops) hsame (by nofun))
    fun s2 h2 hpeek => ?_
  rw [wp_bind]
  refine h2.endOp fun _ _ _ => ?_
  have htree := (hsame.trans (hpeek.sameBut none)).tree
  exact ⟨htree.inodes, htree.block, htree.used, htree.deleted⟩

variable (hcwd : ∀ k, cwd = some k → 0 < (s.icache k).ref)

include hcwd

/-! ## `unlink` -/

theorem sysUnlink_failed (hq : s.Quiet) (path : Option (List UInt8)) :
    wp (sysUnlink cwd path) (fun r s' => r = -1 → SameTree s s') (fun _ _ => True) s := by
  have hcore0 := hcore.setOp 1 [] s.ops
  unfold sysUnlink
  split
  · exact fun _ => ⟨rfl, rfl, rfl, rfl⟩
  rename_i path
  rw [wp_bind]
  refine wp_beginOp hq ?_
  unfold nameiparent
  refine wp_of_spec ((At.begin hcore).namex (T := total s.hold + 2) hcwd
    (by simp [hold_setOp]) path true) (fun _ _ _ => trivial) ?_
  rintro r s₁ ⟨h1, hpeek1, -, -⟩
  have hsame1 := hpeek1.sameBut none
  rcases r with _ | ⟨dp, name⟩
  · exact h1.wp_endFail hsame1
  have h1' : At st none (s.setOp 1 [] s.ops) (s.setOp 1 [] s.ops) [dp] [] s₁ := h1
  refine wp_of_spec (h1'.ilock (T := total s.hold + 2) h1'.pos) (fun _ _ _ => trivial) ?_
  rintro _ s2 ⟨h2, hpeek2, -⟩
  have hsame2 := hsame1.trans (hpeek2.sameBut none)
  rw [wp_ite]
  refine ⟨fun _ => h2.wp_putFail hcore hsame2, fun _ => ?_⟩
  refine wp_of_spec (h2.dirlookup (T := total s.hold + 2) List.mem_cons_self
    (by simp [hold_setOp]) name) (fun _ _ _ => trivial) ?_
  rintro found s3 ⟨h3, hpeek3, -⟩
  have hsame3 := hsame2.trans (hpeek3.sameBut none)
  rcases found with _ | ⟨ip, off⟩
  · exact h3.wp_putFail hcore hsame3
  have h3' : At st none (s.setOp 1 [] s.ops) (s.setOp 1 [] s.ops) [ip, dp] [dp] s3 := h3
  refine wp_of_spec (h3'.ilock (T := total s.hold + 2) h3'.pos) (fun _ _ _ => trivial) ?_
  rintro _ s4 ⟨h4, hpeek4, -⟩
  have hsame4 := hsame3.trans (hpeek4.sameBut none)
  rw [wp_bind, wp_inode, wp_ite]
  refine ⟨fun _ => trivial, fun _ => ?_⟩
  refine wp_of_spec (canUnlink_spec (T := total s.hold + 2) h4 List.mem_cons_self)
    (fun _ _ _ => trivial) ?_
  rintro ok s5 rfl
  rw [wp_ite]
  refine ⟨fun _ => ?_, fun _ => ?_⟩
  · refine wp_mono (unlinkEntry_zero dp ip name off s5) (fun r _ hr hneg => ?_) fun _ _ => id
    rw [hr] at hneg
    exact absurd hneg (by decide)
  · -- a directory with entries: first it is put, then the one that it is in
    rw [wp_bind]
    refine h4.wp_iunlockput_idle (h4.idle_of_same hcore0 hsame4 (by nofun)) fun s6 h6 hpeek6 => ?_
    exact h6.wp_putFail hcore (hsame4.trans (hpeek6.sameBut none))

/-! ## `mkdir` and `mknod` -/

/-- `create` makes nothing if it returns nothing. -/
theorem create_failed (path : List UInt8) (type major minor : Int16) :
    wp (create cwd path type major minor) (fun r s' => r = none →
      At st none (s.setOp 1 [] s.ops) (s.setOp 1 [] s.ops) [] [] s' ∧
        SameBut none (s.setOp 1 [] s.ops) s') (fun _ _ => True) (s.setOp 1 [] s.ops) := by
  have hcore0 := hcore.setOp 1 [] s.ops
  unfold create nameiparent
  refine wp_of_spec ((At.begin hcore).namex (T := total s.hold + 2) hcwd
    (by simp [hold_setOp]) path true) (fun _ _ _ => trivial) ?_
  rintro r s₁ ⟨h1, hpeek1, -, -⟩
  have hsame1 := hpeek1.sameBut none
  rcases r with _ | ⟨dp, name⟩
  · exact fun _ => ⟨h1, hsame1⟩
  have h1' : At st none (s.setOp 1 [] s.ops) (s.setOp 1 [] s.ops) [dp] [] s₁ := h1
  refine wp_of_spec (h1'.ilock (T := total s.hold + 2) h1'.pos) (fun _ _ _ => trivial) ?_
  rintro _ s2 ⟨h2, hpeek2, -⟩
  have hsame2 := hsame1.trans (hpeek2.sameBut none)
  refine wp_of_spec (h2.dirlookup (T := total s.hold + 2) List.mem_cons_self
    (by simp [hold_setOp]) name) (fun _ _ _ => trivial) ?_
  rintro found s3 ⟨h3, hpeek3, -⟩
  have hsame3 := hsame2.trans (hpeek3.sameBut none)
  rcases found with _ | ⟨ip, off⟩
  · -- the name is new: an inode is returned, or the kernel panics
    dsimp only
    unfold createNew
    iterate 8 refine wp_bind_any fun _ _ => ?_
    rw [wp_ite]
    refine ⟨fun _ => ?_, fun _ => trivial⟩
    exact wp_bind_any fun _ _ => by nofun
  · have h3' : At st none (s.setOp 1 [] s.ops) (s.setOp 1 [] s.ops) [dp, ip] [dp] s3 :=
      h3.perm (List.Perm.swap ..) (List.Perm.refl _)
    dsimp only
    rw [wp_bind]
    refine h3'.wp_iunlockput_idle (h3'.idle_of_same hcore0 hsame3 (by nofun)) fun s4 h4 hpeek4 => ?_
    have hsame4 := hsame3.trans (hpeek4.sameBut none)
    refine wp_of_spec (h4.ilock (T := total s.hold + 2) h4.pos) (fun _ _ _ => trivial) ?_
    rintro _ s5 ⟨h5, hpeek5, -⟩
    have hsame5 := hsame4.trans (hpeek5.sameBut none)
    rw [wp_bind, wp_inode, wp_ite]
    refine ⟨fun _ => by rw [wp_pure]; nofun, fun _ => ?_⟩
    rw [wp_bind]
    refine h5.wp_iunlockput_idle (h5.idle_of_same hcore0 hsame5 (by nofun)) fun s6 h6 hpeek6 => ?_
    exact fun _ => ⟨h6, hsame5.trans (hpeek6.sameBut none)⟩

theorem createPut_failed (hq : s.Quiet) (type : Int16) (args : Option (List UInt8 × Int16 × Int16)) :
    wp (createPut cwd type args) (fun r s' => r = -1 → SameTree s s') (fun _ _ => True) s := by
  unfold createPut
  split
  · rw [wp_bind]
    refine wp_beginOp hq ?_
    exact (At.begin hcore).wp_endFail (.refl _ _)
  rename_i path major minor
  rw [wp_bind]
  refine wp_beginOp hq ?_
  refine wp_of_spec (create_failed hcore hcwd path type major minor) (fun _ _ => id)
    fun r s₁ hnone => ?_
  cases r with
  | none =>
    obtain ⟨h1, hsame1⟩ := hnone rfl
    exact h1.wp_endFail hsame1
  | some ip =>
    iterate 2 refine wp_bind_any fun _ _ => ?_
    rw [wp_pure]
    intro hneg
    exact absurd hneg (by decide)

/-! ## `link` -/

theorem sysLink_failed (hq : s.Quiet) (args : Option (List UInt8 × List UInt8)) :
    wp (sysLink cwd args) (fun r s' => r = -1 → SameTree s s') (fun _ _ => True) s := by
  have hcore0 := hcore.setOp 1 [] s.ops
  unfold sysLink
  split
  · exact fun _ => ⟨rfl, rfl, rfl, rfl⟩
  rename_i old new
  rw [wp_bind]
  refine wp_beginOp hq ?_
  refine wp_of_spec ((At.begin hcore).namei (T := total s.hold + 2) hcwd (by simp [hold_setOp]) old)
    (fun _ _ _ => trivial) ?_
  rintro r s₁ ⟨h1, hpeek1, -, -⟩
  have hsame1 := hpeek1.sameBut none
  cases r with
  | none => exact h1.wp_endFail hsame1
  | some ip =>
    have h1' : At st none (s.setOp 1 [] s.ops) (s.setOp 1 [] s.ops) [ip] [] s₁ := h1
    refine wp_of_spec (h1'.ilock (T := total s.hold + 2) h1'.pos) (fun _ _ _ => trivial) ?_
    rintro _ s2 ⟨h2, hpeek2, -⟩
    have hsame2 := hsame1.trans (hpeek2.sameBut none)
    rw [wp_bind, wp_inode, wp_ite]
    refine ⟨fun _ => h2.wp_putFail hcore hsame2, fun htype => ?_⟩
    -- the link is added
    obtain ⟨lg2, hcore2⟩ := h2.core
    have hlive2 := h2.live ip List.mem_cons_self
    generalize hi : (s2.icache ip).inum.toNat = i
    have hdin2 : (s2.icache ip).din = s.inodes i := by
      rw [hcore2.din hlive2, hi]
      exact hsame2.inodes i (by nofun)
    have hone : (s.icache ip).ref = 0 → (s.inodes i).nlink ≠ 0 := by
      intro hfree
      rw [← hdin2]
      exact (h2.loaded hcore0 hsame2 (by nofun) hfree hlive2).2
    rw [wp_bind]
    unfold addLinks
    refine wp_commit (h2.audited List.mem_cons_self) ?_ fun _ _ _ _ => trivial
    have hkept := hcore2.commit_kept hlive2
      { (s2.icache ip).din with nlink := (s2.icache ip).din.nlink + 1 } rfl rfl rfl rfl rfl
    have hinodes := hcore2.inodes_commit hlive2
      { (s2.icache ip).din with nlink := (s2.icache ip).din.nlink + 1 } rfl rfl rfl rfl rfl
    have hview := view_commit hcore2.layout (hcore2.cache.inum ip hlive2.1)
      { (s2.icache ip).din with nlink := (s2.icache ip).din.nlink + 1 }
    have hinum : ((s2.commit ip { (s2.icache ip).din with
        nlink := (s2.icache ip).din.nlink + 1 }).icache ip).inum.toNat = i := by
      rw [icache_commit, update_self]
      exact hi
    have h3 := h2.kept hkept
    rw [hi, hdin2] at hinodes hview
    rw [hdin2] at hinum h3 ⊢
    have hdeleted : (s2.commit ip
        { s.inodes i with nlink := (s.inodes i).nlink + 1 }).deleted = s.deleted := hsame2.deleted
    generalize s2.commit ip { s.inodes i with nlink := (s.inodes i).nlink + 1 } = s3 at *
    have hlink3 : Linking ip i (s.setOp 1 [] s.ops) s3 := by
      refine ⟨hinum, ?_, fun j hj => ?_, fun j hj => ?_, ?_, ?_, hdeleted⟩
      · rw [hinodes, update_self]
        rfl
      · rw [hinodes, update_of_ne fun heq => hj (congrArg some heq.symm)]
        exact hsame2.inodes j (by nofun)
      · rw [hview]
        exact (update_of_ne (fun heq => hj (congrArg some heq.symm)) ..).trans
          (hsame2.dinode j (by nofun))
      · rw [hview]
        exact hsame2.block
      · rw [hview]
        exact hsame2.used
    have hnodir : (s3.inodes i).type ≠ T_DIR := by
      rw [hinodes, update_self, ← hdin2]
      exact htype
    refine wp_of_spec (h3.iunlock (T := total s.hold + 2)) (fun _ _ _ => trivial) ?_
    rintro _ s4 ⟨h4, hpeek4⟩
    have hlink4 := hlink3.peek hpeek4 h3.pos
    unfold nameiparent
    refine wp_of_spec (h4.namex (T := total s.hold + 2) hcwd (by simp [hold_setOp]) new true)
      (fun _ _ _ => trivial) ?_
    rintro r s5 ⟨h5, hpeek5, -, -⟩
    have hlink5 := hlink4.peek hpeek5 h4.pos
    rcases r with _ | ⟨dp, name⟩
    · exact linkBad_failed h5 hlink5 hone
    have h5' : At st none (s.setOp 1 [] s.ops) (s.setOp 1 [] s.ops) [dp, ip] [] s5 := h5
    have hpos5 : 0 < (s5.hold ip).1 :=
      (h5'.perm (List.Perm.swap ..) (List.Perm.refl _) : At st none _ _ [ip, dp] [] s5).pos
    refine wp_of_spec (h5'.ilock (T := total s.hold + 2) h5'.pos) (fun _ _ _ => trivial) ?_
    rintro _ s6 ⟨h6, hpeek6, -⟩
    have hlink6 := hlink5.peek hpeek6 hpos5
    obtain ⟨lg6, hcore6⟩ := h6.core
    have hlive6 := h6.live dp List.mem_cons_self
    have hpos6 : 0 < (s6.icache ip).ref :=
      (h6.perm (List.Perm.swap ..) (List.Perm.refl _) : At st none _ _ [ip, dp] [dp] s6).pos
    rw [wp_bind, wp_inode, wp_bind, wp_inode, wp_ite]
    refine ⟨fun hdev => ?_, fun _ => ?_⟩
    · -- there is one device
      exact absurd ((hcore6.cache.dev dp hlive6.1).trans (hcore6.cache.dev ip hpos6).symm) hdev
    refine wp_of_spec (dirlink_spec (T := total s.hold + 2) hcore6 hlive6
      (h6.audited List.mem_cons_self) (by rw [h6.total]; simp [hold_setOp])
      (hcore6.cache.inum ip hpos6) name) (fun _ _ _ => trivial) fun ok s7 hent => ?_
    cases ok with
    | true =>
      iterate 3 refine wp_bind_any fun _ _ => ?_
      rw [wp_pure]
      intro hneg
      exact absurd hneg (by decide)
    | false =>
      -- the name is there; the directory is not the file
      obtain ⟨-, hlook, hhold⟩ := hent.present rfl
      have h7 := h6.next ⟨lg6, hlook.core⟩ hhold hlook.steady.calm (hlook.ordinary hcore6)
      have hlink7 := hlink6.peek (hlook.peeked hcore6) hpos6
      have hne : some i ≠ some (s7.icache dp).inum.toNat := by
        intro heq
        have hdir := hent.dir
        have hdp : (s7.icache dp).inum = (s6.icache dp).inum := (hlook.slot dp hlive6.1).2.1
        rw [hcore6.din hlive6, ← hdp, ← Option.some.inj heq, hlink6.links] at hdir
        rw [hlink3.links] at hnodir
        exact hnodir hdir
      rw [wp_bind]
      refine h7.wp_iunlockput_idle (h7.idle_of_same hcore0 hlink7.same hne) fun s8 h8 hpeek8 => ?_
      exact linkBad_failed h8 (hlink7.peek hpeek8 (h7.pos_sub List.mem_cons_self)) hone

end Calls

/-! ## The four calls -/

/-- The calls that only concern names. -/
def Call.OnNames : Call → Prop
  | .link _ | .unlink _ | .mkdir _ | .mknod _ => True
  | _ => False

section Kernel

variable {ks ks' : Kernel} {p : ProcNo} {c : Call} {sb : Superblock} {disk : ℕ → Block}
  {es : List Event} {leak leak' : List Slot} {name : List UInt8}

theorem failed_names_same (h : Inv st ks.fs) (hq : ks.fs.Quiet)
    (hcwd : ∀ k, (ks.proc p).cwd = some k → 0 < (ks.fs.icache k).ref) (hc : c.OnNames)
    (hcall : syscall p c ks = .ok (.int (-1)) ks') : SameTree ks.fs ks'.fs := by
  obtain ⟨lg, hcore⟩ := h
  have hfail : ∀ {m : FsM ℤ}, wp m (fun r t => r = -1 → SameTree ks.fs t) (fun _ _ => True) ks.fs →
      wp (do return Reply.int (← (liftM m : KM ℤ))) (fun r s' => r = .int (-1) →
        SameTree ks.fs s'.fs) (fun _ _ => True) ks := by
    intro m hm
    rw [wp_bind, wp_fs]
    exact wp_mono hm (fun r t ht hr => ht (Reply.int.inj hr)) fun _ _ => id
  have hwp : wp (syscall p c) (fun r s' => r = .int (-1) → SameTree ks.fs s'.fs)
      (fun _ _ => True) ks := by
    unfold syscall
    rw [wp_bind, wp_proc]
    cases c with
    | link args => exact hfail (sysLink_failed hcore hcwd hq args)
    | unlink path => exact hfail (sysUnlink_failed hcore hcwd hq path)
    | mkdir path => exact hfail (createPut_failed hcore hcwd hq T_DIR _)
    | mknod args => exact hfail (createPut_failed hcore hcwd hq T_DEV args)
    | _ => exact absurd hc id
  exact hwp.ok hcall rfl

/-- `link("f", "g")` fails, since there is a `g`. -/
theorem failed_names_link : ∃ s', syscall 0 (.link (some ([102], [103]))) (boot .mkfs fileImage) =
    .ok (.int (-1)) s' ∧ SameTree (boot .mkfs fileImage).fs s'.fs := by
  have heval : wp (syscall 0 (.link (some ([102], [103])))) (fun r _ => r = .int (-1))
      (fun _ _ => False) (boot .mkfs fileImage) := by
    decide +kernel
  obtain ⟨r, s', hcall, rfl⟩ := heval.returns
  have hinv : KInv true [] (boot .mkfs fileImage) := fileImage_image.inv
  exact ⟨s', hcall, failed_names_same (c := .link (some ([102], [103]))) hinv.inv hinv.quiet
    (fun k hk => hinv.cwd_pos hk) trivial hcall⟩

/-! ## `recover_file` -/

/-- The current directory of the process has an entry with the name. -/
def Kernel.InCwd (s : Kernel) (p : ProcNo) (name : List UInt8) : Prop :=
  ∃ k, (s.proc p).cwd = some k ∧
    (s.fs.inodes (s.fs.icache k).inum.toNat).lookup s.fs.view.block name ≠ none

/-- Every deleted file in the table has a version. -/
def Fs.DeletedHeads (t : Fs) : Prop :=
  ∀ e, (t.deleted e).valid = true → (t.deleted e).versionHead ≠ 0

theorem Fs.DeletedHeads.track (h : s.DeletedHeads) (name : List UInt8) (i : ℕ) :
    (s.track name i).DeletedHeads := by
  intro e he
  unfold Fs.track at he ⊢
  split at he
  · rename_i hc
    rw [if_pos hc]
    rcases addDeleted_deleted s name (.ofNat i) (s.inodes i).versionHead e with hsame | ⟨-, hnew⟩
    · rw [hsame] at he ⊢
      exact h e he
    · rw [hnew]
      exact hc.2
  · rename_i hc
    rw [if_neg hc]
    exact h e he

theorem Fs.DeletedHeads.takeDeleted (h : s.DeletedHeads) (e : Fin MAX_DELETED_FILES) :
    (s.takeDeleted e).DeletedHeads := by
  intro e' he'
  by_cases hee : e' = e
  · subst hee
    change (update s.deleted e' _ e').valid = true at he'
    rw [update_self] at he'
    nomatch he'
  · change (update s.deleted e _ e').versionHead ≠ 0
    change (update s.deleted e _ e').valid = true at he'
    rw [update_of_ne hee] at he' ⊢
    exact h e' he'

theorem Usual.deleted (h : Usual H s s') : s'.deleted = s.deleted := by
  rcases h with hord | ⟨i, m, hmake, hord⟩
  · exact hord.deleted
  · exact hord.deleted.trans hmake.deleted

/-- The table only gets files that have versions. -/
theorem Effect.deletedHeads {r : Reply} (he : Effect st leak p ks c r ks' leak')
    (h : ks.fs.DeletedHeads) : ks'.fs.DeletedHeads := by
  have hsame : ∀ {t t' : Fs}, t'.deleted = t.deleted → t.DeletedHeads → t'.DeletedHeads := by
    intro t t' heq ht
    unfold Fs.DeletedHeads
    rw [heq]
    exact ht
  cases he with
  | plain _ hp => exact hsame hp.usual.deleted h
  | watched _ hw => exact hsame hw.deleted h
  | saved _ _ hsaved => exact hsame hsaved.deleted h
  | reverted _ _ _ _ _ hrev => exact hsame hrev.deleted h
  | unlinked _ _ hord => exact hsame hord.deleted (h.track _ _)
  | forgot => exact h.takeDeleted _
  | recovered _ _ _ _ hout =>
    obtain ⟨m, hmake, hord⟩ := hout.made
    exact hsame (hord.deleted.trans hmake.deleted) (h.takeDeleted _)

theorem deletedHeads_run (hI : Image sb disk) (hrun : Run Step (boot sb disk) es ks) :
    (∃ leak, Reached false leak sb ks) ∧ ks.fs.DeletedHeads := by
  refine hrun.invariant (I := fun s => (∃ leak, Reached false leak sb s) ∧ s.fs.DeletedHeads)
    (fun s e s' hs hstep => ?_) ⟨⟨[], hI.reached⟩, by nofun⟩
  obtain ⟨⟨leak, hr⟩, hheads⟩ := hs
  refine ⟨hr.step hstep (by nofun), ?_⟩
  rcases hstep.effect hr.inv (by nofun) with ⟨p, c, r, leak', -, heff⟩ | ⟨⟨ticks, io, rfl⟩, -⟩
  · exact heff.deletedHeads hheads
  · obtain rfl : s' = { s with fs := { s.fs with ticks, io } } := hstep
    exact hheads

/-- If a deleted file has an entry in the table and its name is in use again, `recover_file` drops the
entry and returns `-1`. In every other case a call that returns `-1` has changed nothing. -/
theorem recover_failed_iff {r : ℤ} (hI : Image sb disk) (hrun : Run Step (boot sb disk) es ks)
    (hcall : syscall p (.recoverFile (some name)) ks = .ok (.int r) ks') :
    (r = -1 → SameTree ks.fs ks'.fs) ↔
      (ks.fs.findDeletedFile name = none ∨ ¬ ks.InCwd p name) := by
  obtain ⟨⟨leak, hr⟩, hheads⟩ := deletedHeads_run hI hrun
  have hcwd : ∀ k, (ks.proc p).cwd = some k → 0 < (ks.fs.icache k).ref :=
    fun k hk => hr.inv.cwd_pos hk
  obtain ⟨lg, hcore⟩ := hr.inv.inv
  -- what the call has done
  have hwp : wp (syscall p (.recoverFile (some name))) (fun r s' =>
      ks.fs.findDeletedFile name = none ∧ s' = ks ∨
        ∃ e k, ks.fs.findDeletedFile name = some e ∧ (ks.proc p).cwd = some k ∧
          s'.fs.deleted = (ks.fs.takeDeleted e).deleted ∧
          (r = .int 0 ∧ (ks.fs.inodes (ks.fs.icache k).inum.toNat).lookup ks.fs.view.block name = none ∨
            r = .int (-1) ∧
              (ks.fs.inodes (ks.fs.icache k).inum.toNat).lookup ks.fs.view.block name ≠ none))
      (KHalts (total ks.fs.hold + 2)) ks := by
    unfold syscall
    rw [wp_bind, wp_proc]
    dsimp only
    rw [wp_bind, wp_fs]
    unfold sysRecoverFile
    rw [wp_bind]
    refine wp_recoverDeletedFile (fun hnone => ?_) fun e he => ?_
    · rw [if_pos rfl]
      exact .inl ⟨hnone, rfl⟩
    · -- the entry has a version
      have hvalid : (ks.fs.deleted e).valid = true := by
        have := List.find?_some he
        rw [Bool.and_eq_true] at this
        exact this.1
      obtain ⟨c, hc⟩ := hcore.deleted e hvalid
      rw [if_neg (hheads e hvalid)]
      cases c with
      | nil => exact absurd hc.1 (hheads e hvalid)
      | cons v c =>
        refine wp_mono (recoverVersion_spec (s := ks.fs.takeDeleted e) ⟨lg, hcore.takeDeleted e⟩
          ⟨hr.inv.quiet.outstanding, hr.inv.quiet.lh⟩ hcwd (le_refl _) hc (by nofun) name) ?_
          fun _ _ => id
        rintro r t ⟨k, i, hk, -, hout⟩
        obtain ⟨m, hmake, hord⟩ := hout.made
        refine .inr ⟨e, k, he, hk, hord.deleted.trans hmake.deleted, ?_⟩
        rcases hout.result with ⟨rfl, -, hnone⟩ | ⟨rfl, hsome⟩
        · exact .inl ⟨rfl, hnone⟩
        · exact .inr ⟨rfl, hsome⟩
  rcases hwp.ok hcall with ⟨hnone, rfl⟩ | ⟨e, k, he, hk, hdel, ⟨hzero, hnone⟩ | ⟨hneg, hsome⟩⟩
  · -- nothing to recover
    exact ⟨fun _ => .inl hnone, fun _ _ => ⟨rfl, rfl, rfl, rfl⟩⟩
  · -- the file is recovered
    refine ⟨fun _ => .inr ?_, fun _ hr => ?_⟩
    · rintro ⟨k', hk', hsome⟩
      obtain rfl := Option.some.inj (hk.symm.trans hk')
      exact hsome hnone
    · rw [hr] at hzero
      exact absurd (Reply.int.inj hzero) (by decide)
  · -- the name is there, and the entry is gone
    refine ⟨fun hsame => ?_, fun hcond => ?_⟩
    · have hvalid : (ks.fs.deleted e).valid = true := by
        have := List.find?_some he
        rw [Bool.and_eq_true] at this
        exact this.1
      have hgone : (ks'.fs.deleted e).valid = false := by
        rw [hdel]
        show (update ks.fs.deleted e _ e).valid = false
        rw [update_self]
      rw [(hsame (Reply.int.inj hneg)).deleted, hvalid] at hgone
      nomatch hgone
    · rcases hcond with hnone | hout
      · rw [hnone] at he
        nomatch he
      · exact absurd ⟨k, hk, hsome⟩ hout

/-- The file `g` gets a version, is removed, and another `g` is made. -/
def fileImage.again : List (ProcNo × Call) :=
  [(0, .versionCreate (some ([103], []))), (0, .unlink (some [103])),
    (0, .open (some ([103], O_CREATE ||| O_RDWR)))]

/-- `recover_file` of `g` fails then, and the old `g` is no longer in the table. -/
theorem recover_drops_entry : ∃ s s', (boot .mkfs fileImage).calls fileImage.again = some s ∧
    syscall 0 (.recoverFile (some [103])) s = .ok (.int (-1)) s' ∧
    s.fs.findDeletedFile [103] ≠ none ∧ s'.fs.findDeletedFile [103] = none := by
  have heval : ((boot .mkfs fileImage).calls fileImage.again).map (fun s =>
      decide (wp (syscall 0 (.recoverFile (some [103]))) (fun r s' => r = .int (-1) ∧
        s.fs.findDeletedFile [103] ≠ none ∧ s'.fs.findDeletedFile [103] = none)
        (fun _ _ => False) s)) = some true := by
    decide +kernel
  obtain ⟨s, hs, hwp⟩ := Option.map_eq_some_iff.mp heval
  obtain ⟨r, s', hcall, rfl, hbefore, hafter⟩ := (of_decide_eq_true hwp).returns
  exact ⟨s, s', hs, hcall, hbefore, hafter⟩

/-- `recover_file` of a name that was never deleted changes nothing. -/
theorem recover_failed_absent : ∃ s', syscall 0 (.recoverFile (some [104])) (boot .mkfs fileImage) =
    .ok (.int (-1)) s' ∧ SameTree (boot .mkfs fileImage).fs s'.fs := by
  have heval : wp (syscall 0 (.recoverFile (some [104]))) (fun r _ => r = .int (-1))
      (fun _ _ => False) (boot .mkfs fileImage) := by
    decide +kernel
  obtain ⟨r, s', hcall, rfl⟩ := heval.returns
  exact ⟨s', hcall, (recover_failed_iff fileImage_image (.nil _) hcall).mpr
    (.inl (by decide +kernel)) rfl⟩

end Kernel

end ChronoFS
