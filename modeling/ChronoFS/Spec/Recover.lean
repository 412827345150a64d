import ChronoFS.Spec.VersionCalls

/-!
# `sys_recover_file`

The call takes the entry of a deleted file out of the table, makes an inode, fills it with copies of the
blocks of the newest version, and enters it in the current directory. It neither locks that directory nor
gives its reference back: the slot of the current directory stays in `leak`.

`Rebuilt` is what there is before the directory is looked up: a file like any other, except that a version
of more than `NDIRECT` blocks leaves it with holes.
-/

namespace ChronoFS

open Function

variable {st : Bool} {w fr : Option ℕ} {lg lg' lg₃ lg₄ : ℕ → Dinode} {hand : List ℕ}
  {s₀ m s s' s'' s₁ s₂ s₃ s₄ : Fs} {k dp ip : Slot} {refs locks leak : List Slot} {i n : ℕ} {T : ℤ}
  {E : Halt → Fs → Prop} {H H' : Slot → ℤ × ℤ} {cwd : Option Slot} {v : Version}
  {new : Fin NDIRECT → ℕ} {name : List UInt8} {e : Fin MAX_DELETED_FILES} {head : UInt32}
  {c : List Version} {t : UInt32}

/-! ## The table of deleted files -/

/-- The entry `e` leaves the table of deleted files. -/
def Fs.takeDeleted (s : Fs) (e : Fin MAX_DELETED_FILES) : Fs :=
  { s with
    deleted := update s.deleted e { s.deleted e with valid := false }
    lost := (s.deleted e).versionHead :: s.lost }

/-- The chain of an entry that leaves the table is given up. -/
theorem Core.takeDeleted (h : Core st w fr lg hand s) (e : Fin MAX_DELETED_FILES) :
    Core st w fr lg hand (s.takeDeleted e) := by
  refine ⟨h.layout, h.metaUsed, h.cache, h.own, h.node, h.vers, fun e' he' => ?_, h.tracked,
    fun v hv => ?_⟩
  · by_cases hee : e' = e
    · rw [hee] at he'
      simp [Fs.takeDeleted] at he'
    · have hsame : (s.takeDeleted e).deleted e' = s.deleted e' := update_of_ne hee ..
      rw [hsame] at he' ⊢
      exact h.deleted e' he'
  · rcases h.found v hv with hnode | ⟨e', he', hreach⟩ | ⟨x, hx, hreach⟩
    · exact .inl hnode
    · by_cases hee : e' = e
      · exact .inr (.inr ⟨_, List.mem_cons_self, hee ▸ hreach⟩)
      · have hsame : (s.takeDeleted e).deleted e' = s.deleted e' := update_of_ne hee ..
        exact .inr (.inl ⟨e', by rw [hsame]; exact he', by rw [hsame]; exact hreach⟩)
    · exact .inr (.inr ⟨x, List.mem_cons_of_mem _ hx, hreach⟩)

theorem wp_recoverDeletedFile {Q : UInt32 → Fs → Prop}
    (hnone : s.findDeletedFile name = none → Q 0 s)
    (hsome : ∀ e, s.findDeletedFile name = some e → Q (s.deleted e).versionHead (s.takeDeleted e)) :
    wp (recoverDeletedFile name) Q E s := by
  unfold recoverDeletedFile
  rw [wp_bind, wp_get]
  cases hfind : s.findDeletedFile name with
  | none => exact hnone hfind
  | some e =>
    rw [wp_bind, wp_modify]
    exact hsome e hfind

/-- The version with the node `head`. -/
def Fs.newest (s : Fs) (head : UInt32) : Option Version := s.versions.find? fun v => v.node = head

/-- The version that `sys_recover_file` takes. -/
def Fs.recovers (s : Fs) (name : List UInt8) : Option Version :=
  (s.findDeletedFile name).bind fun e => s.newest (s.deleted e).versionHead

/-- The first version of a chain is the one at its head. -/
theorem Core.newest (h : Core st w fr lg hand s) (hc : Chain s.versions head c) :
    s.newest head = c.head? := by
  unfold Fs.newest
  cases c with
  | nil =>
    have hz : head = 0 := hc.1
    rw [List.head?_nil, List.find?_eq_none]
    intro v hv
    rw [hz, decide_eq_true_eq]
    exact h.vers.ne v hv
  | cons v c =>
    have hv : v ∈ s.versions := hc.mem List.mem_cons_self
    obtain ⟨u, hu⟩ : ∃ u, s.versions.find? (fun u => decide (u.node = head)) = some u := by
      refine Option.isSome_iff_exists.mp (List.find?_isSome.mpr ⟨v, hv, ?_⟩)
      rw [decide_eq_true_eq]
      exact hc.1.1.symm
    have hnode : u.node = v.node := by
      have := List.find?_some hu
      rw [decide_eq_true_eq] at this
      exact this.trans hc.1.1
    rw [hu, h.version_ext (List.mem_of_find?_eq_some hu) hv hnode]
    rfl

/-! ## The new file -/

/-- The inode of a recovered file. -/
def Dinode.recovered (t : UInt32) (v : Version) (new : Fin NDIRECT → ℕ) : Dinode :=
  { Dinode.fresh T_FILE t with
    nlink := 1
    size := v.vnode.fileSize
    addrs := fun j => if j.val < v.nblocks then .ofNat (new j) else 0 }

theorem recovered_ne_dir : (Dinode.recovered t v new).type ≠ T_DIR :=
  show T_FILE ≠ T_DIR by decide

/-- What is known of the inode of a recovered file: it has no holes if its version fits into the direct
blocks. -/
theorem NodeOk.recovered {blk : ℕ → Block} {vs : List Version}
    (hnew : ∀ j : Fin NDIRECT, j.val < v.nblocks → (UInt32.ofNat (new j)).toNat ≠ 0)
    (hdirect : ∀ bn < NDIRECT, bn * BSIZE < v.vnode.fileSize.toNat → bn < v.nblocks)
    (hbound : v.vnode.fileSize.toNat ≤ MAXFILE * BSIZE)
    (hsmall : st = true → v.vnode.fileSize.toNat ≤ NDIRECT * BSIZE) :
    NodeOk st n blk vs fr i (.recovered t v new) where
  dir := fun hd => absurd hd recovered_ne_dir
  dot := fun hd => absurd hd recovered_ne_dir
  aligned := fun hd => absurd hd recovered_ne_dir
  bound := hbound
  holes := by
    intro bn hbn hlt
    have hlow : bn < NDIRECT := by
      rcases hbn with hbn | hst | hd
      · exact hbn
      · have hle := hsmall hst
        change bn * BSIZE < v.vnode.fileSize.toNat at hlt
        simp only [NDIRECT, BSIZE] at *
        omega
      · exact absurd hd recovered_ne_dir
    have hn := hdirect bn hlow hlt
    rw [map_of_lt _ _ hlow]
    change (if bn < v.nblocks then UInt32.ofNat (new ⟨bn, hlow⟩) else 0).toNat ≠ 0
    rw [if_pos hn]
    exact hnew ⟨bn, hlow⟩ hn
  chain := ⟨[], ⟨rfl, List.nil_sublist _⟩, by nofun⟩

/-- The operation that began in `s` has made inode `i`, in slot `k`, filled it with the version `v`, and
written it to the disk. -/
structure Rebuilt (st : Bool) (k : Slot) (i : ℕ) (v : Version) (new : Fin NDIRECT → ℕ) (s s' : Fs) :
    Prop where
  /-- The call holds the inode and its lock. -/
  held : At st none s s' [k] [k] s'
  /-- The slot is for the inode. -/
  inum : (s'.icache k).inum.toNat = i
  /-- It is not inode `0`. -/
  ne : i ≠ 0
  /-- The inode was free. -/
  making : Making s.hold i s s'
  /-- It is a file with the size and the blocks of the version. -/
  inodes : s'.inodes = update s.inodes i (.recovered s.ticks v new)
  /-- It is on the disk. -/
  dinode : s'.view.dinode i = .recovered s.ticks v new
  /-- The new blocks are different, and were free. -/
  fresh : ∀ j : Fin NDIRECT, j.val < v.nblocks → s.sb.Area (new j) ∧ s.view.used (new j) = false ∧
    s'.view.used (new j) = true ∧ ∀ j' : Fin NDIRECT, j'.val < v.nblocks → new j = new j' → j = j'
  /-- They are copies. -/
  data : ∀ j : Fin NDIRECT, j.val < v.nblocks → s'.view.block (new j) = v.content j
  /-- Blocks in use are as they were. -/
  old : ∀ b, s.view.used b = true → s'.view.block b = s.view.block b
  /-- The rest is the same. -/
  rest : s'.rest = s.rest
  /-- The blocks that are logged. -/
  logged : Logged (fun x => x = s.sb.iblock i ∨
    ∃ j : Fin NDIRECT, j.val < v.nblocks ∧ (x = s.sb.bblock (new j) ∨ x = new j)) s s'

/-- The copies of the version's blocks make the new inode a file. -/
theorem CopiedBack.rebuilt {d3 : Dinode} (h : Core st none none lg [] s)
    (hmade : Made st [] T_FILE k i lg s s₁)
    (hlook : Looked st (some i) (update lg i (.fresh T_FILE s.ticks)) [] s₁.hold s₁ s₂)
    (hhold : s₂.hold = s₁.hold + aLock k) (hlive : (s₂.icache k).Live)
    (hother : ∀ j, j ≠ k → s₂.icache j = s₁.icache j)
    (hd3 : d3 = { (s₂.icache k).din with
      type := T_FILE, nlink := 1, size := v.vnode.fileSize, versionHead := 0 })
    (hlg3 : ∀ j, j ≠ i → lg₃ j = lg j)
    (hc : CopiedBack st (some i) [] k v ((List.finRange NDIRECT).takeWhile (·.val < v.nblocks)) new
      lg₃ (s₂.setSlot k { s₂.icache k with din := d3 }) lg₄ s₄)
    (hv : v ∈ s.versions) (hsmall : st = true → v.vnode.fileSize.toNat ≤ NDIRECT * BSIZE) :
    Rebuilt st k i v new s (s₄.commit k (s₄.icache k).din) := by
  have h1 : At st (some i) s s₁ [k] [] s₁ :=
    (At.start h).stepRef hmade.looked.core hmade.hold hmade.calm
  have h2 := h1.lock hmade.looked.core hlook hhold hlive hother
  -- the slot is the new inode's all along
  have hinum2 : (s₂.icache k).inum = (s₁.icache k).inum := (hlook.slot k h1.pos).2.1
  have hin2 : (s₂.icache k).inum.toNat = i := by rw [hinum2, hmade.inum]
  have hin4 : (s₄.icache k).inum.toNat = i := by
    rw [hc.within.inum, setSlot_self]
    exact hin2
  have hdin2 := hmade.din hlook.core hlive hinum2
  have hdin4 : (s₄.icache k).din = .recovered s.ticks v new := by
    rw [hc.din, setSlot_self, hd3, hdin2]
    unfold Dinode.place Dinode.recovered
    congr 1
    funext j
    exact if_congr mem_places rfl rfl
  have hrest2 : s₂.rest = s.rest := hlook.steady.rest.trans hmade.looked.steady.rest
  have hrest4 : s₄.rest = s.rest := hc.within.rest.trans hrest2
  have hsb2 : s₂.sb = s.sb := (congrArg Fs.sb hrest2 :)
  have hsb4 : s₄.sb = s.sb := (congrArg Fs.sb hrest4 :)
  -- before the copies, the disk has the new inode and nothing else is changed
  have hwrote := view_wroteDinode h.layout hmade.lt (.fresh T_FILE s.ticks)
  have hview2 : s₂.view = (s.wroteDinode i (.fresh T_FILE s.ticks)).view := by
    rw [hlook.view, hmade.looked.view]
  have hblock2 : s₂.view.block = s.view.block := by
    rw [hview2, hwrote]
    rfl
  have hused2 : s₂.view.used = s.view.used := by
    rw [hview2, hwrote]
    rfl
  have hlt4 : (s₄.icache k).inum.toNat < s₄.sb.ninodes := by
    rw [hin4, hsb4]
    exact hmade.lt
  have hview' := view_commit hc.win.core.layout hlt4 (s₄.icache k).din
  have hnew : ∀ j : Fin NDIRECT, j.val < v.nblocks → s.sb.Area (new j) ∧
      s.view.used (new j) = false ∧ s₄.view.used (new j) = true ∧
      ∀ j' : Fin NDIRECT, j'.val < v.nblocks → new j = new j' → j = j' := by
    intro j hj
    obtain ⟨harea, hfree⟩ := hc.fresh j (mem_places.mpr hj)
    refine ⟨hsb2 ▸ harea, hused2 ▸ hfree, (hc.used _).mpr (.inr ⟨j, mem_places.mpr hj, rfl⟩), ?_⟩
    exact fun j' hj' => hc.inj j (mem_places.mpr hj) j' (mem_places.mpr hj')
  have hnode : NodeOk st s₄.sb.ninodes s₄.view.block s₄.versions (some i) (s₄.icache k).inum.toNat
      (s₄.icache k).din := by
    rw [hdin4]
    refine NodeOk.recovered (fun j hj => ?_) (h.vers.direct v hv) (h.vers.bound v hv) hsmall
    rw [View.toNat_ofNat_area h.layout (hnew j hj).1]
    exact View.area_ne_zero h.layout (hnew j hj).1
  have htype4 : (s₄.icache k).din.type ≠ 0 := by
    rw [hdin4]
    show T_FILE ≠ 0
    decide
  have hcore := hc.win.core.commitWin hc.win.live hc.win.eq htype4 hnode
  have hwithin : Within k s₂ (s₄.commit k (s₄.icache k).din) :=
    ((within_setDin s₂ s₂ rfl rfl k d3).trans hc.within).trans (within_commit ..)
  have hslot : (s₄.commit k (s₄.icache k).din).icache k = s₄.icache k := by
    rw [icache_commit, update_self]
  have hlive' : ((s₄.commit k (s₄.icache k).din).icache k).Live := by
    rw [hslot]
    exact hc.win.live
  have hcore' := hcore.settle hlive' (by rw [hslot, hin4]) fun hd => by
    rw [hslot, hdin4] at hd
    exact absurd hd recovered_ne_dir
  have htype : ((s₄.commit k (s₄.icache k).din).icache k).din.type = (s₂.icache k).din.type := by
    rw [hslot, hdin4, hdin2]
    rfl
  have hinodes : (s₄.commit k (s₄.icache k).din).inodes =
      update s.inodes i (.recovered s.ticks v new) := by
    rw [hcore'.inodes, h.inodes]
    funext j
    by_cases hj : j = i
    · rw [hj, update_self, ← hdin4, ← hc.win.eq, hin4]
    · rw [update_of_ne hj, hc.others j (by rw [setSlot_self, hin2]; exact hj), hlg3 j hj]
  have hmaking := hmade.making h
  refine ⟨h2.step ⟨lg₄, hcore'⟩ hwithin.hold (hwithin.steady htype).calm, by rw [hslot, hin4],
    hmade.ne, ⟨hmaking.free, ?_, fun j hj => ?_, fun j hj hvalid => ?_, ?_⟩, hinodes, ?_, ?_, ?_, ?_, ?_, ?_⟩
  · rw [hinodes, update_self]
    rfl
  · rw [hinodes, update_of_ne hj]
  · -- a slot that was loaded is for another inode
    have hpos : 0 < (s.icache j).ref := hj
    have hjk : j ≠ k := by
      rintro rfl
      refine hmade.other j ⟨hpos, hvalid⟩ ?_
      rw [← hmade.inum, (hmade.calm.slot j hj).inum]
    rw [hwithin.other j hjk, hother j hjk]
    exact hmaking.size j hj hvalid
  · exact (congrArg Fs.deleted ((within_commit s₄ k (s₄.icache k).din).rest.trans hrest4) :)
  · rw [hview', ← hin4, ← hdin4]
    exact update_self ..
  · intro j hj
    obtain ⟨harea, hfree, hused, hinj⟩ := hnew j hj
    refine ⟨harea, hfree, ?_, hinj⟩
    rw [hview']
    exact hused
  · intro j hj
    rw [hview']
    exact hc.data j (mem_places.mpr hj)
  · intro b hb
    rw [hview', ← hblock2]
    refine hc.old b ?_
    show s₂.view.used b = true
    rw [hused2]
    exact hb
  · exact (within_commit s₄ k (s₄.icache k).din).rest.trans hrest4
  · -- the new inode, the copies, and the inode again
    have hl1 : Logged (fun x => x = s.sb.iblock i) s (s.wroteDinode i (.fresh T_FILE s.ticks)) :=
      logged_wrote ..
    have hl2 : Logged (fun x => x = s.sb.iblock i) s s₂ :=
      ((hl1.trans hmade.looked.logged).trans hlook.logged).congr fun x => by simp
    have hl3 := hl2.setSlot k { s₂.icache k with din := d3 }
    refine ((hl3.trans hc.logged).trans (logged_commit s₄ k (s₄.icache k).din)).congr fun x => ?_
    rw [hin4, hsb4]
    change _ ↔ (x = s.sb.iblock i ∨ ∃ j ∈ _, x = s₂.sb.bblock (new j) ∨ x = new j) ∨ _
    rw [hsb2]
    constructor
    · rintro (hx | ⟨j, hj, hx⟩)
      · exact .inl (.inl hx)
      · exact .inl (.inr ⟨j, mem_places.mpr hj, hx⟩)
    · rintro ((hx | ⟨j, hj, hx⟩) | hx)
      · exact .inl hx
      · exact .inr ⟨j, mem_places.mp hj, hx⟩
      · exact .inl hx

/-! ## The entry in the current directory -/

/-- A use of an inode without its lock is noted. -/
def Fs.unlock (s : Fs) : Fs := { s with unlocked := true }

theorem Core.unlock (h : Core st w fr lg hand s) : Core st w fr lg hand s.unlock :=
  ⟨h.layout, h.metaUsed, h.cache, h.own, h.node, h.vers, h.deleted, h.tracked, h.found⟩

theorem At.unlock (h : At st fr s₀ m refs locks s) : At st fr s₀.unlock m refs locks s.unlock := by
  obtain ⟨lg, hcore⟩ := h.core
  have hcalm := h.calm
  have hsince := h.since
  exact ⟨⟨lg, hcore.unlock⟩, h.hold, h.base,
    ⟨hcalm.sb, hcalm.logSize, hcalm.outstanding, hcalm.ops, rfl, hcalm.versions, hcalm.slot⟩,
    ⟨hsince.node, hsince.size, hsince.deleted⟩, h.live⟩

/-- `dirlink` notes that it uses the directory before anything else. -/
theorem wp_dirlink_unlock {Q : Bool → Fs → Prop} {inum : UInt32}
    (hfree : (s.icache dp).locked = false) (h : wp (dirlink dp name inum) Q E s.unlock) :
    wp (dirlink dp name inum) Q E s := by
  have huse : s.use dp = s.unlock := by
    unfold Fs.use
    rw [hfree]
    rfl
  have huse' : s.unlock.use dp = s.unlock := by
    unfold Fs.use
    split <;> rfl
  unfold dirlink uses at h ⊢
  rw [wp_bind, wp_modify] at h ⊢
  rw [huse]
  rw [huse'] at h
  exact h

/-- What a call that recovers a file has done: inode `i` is a file with the size and the blocks of the
version `v`, and the directory `dir` has an entry for it. -/
structure Recovered (i dir : ℕ) (v : Version) (new : Fin NDIRECT → ℕ) (name : List UInt8) (s s' : Fs) :
    Prop where
  /-- The inode was free. -/
  free : (s.inodes i).type = 0
  /-- It is a file with the size and the blocks of the version. -/
  node : s'.inodes i = .recovered s.ticks v new
  /-- The blocks are copies. -/
  data : ∀ j : Fin NDIRECT, j.val < v.nblocks → s'.view.block (new j) = v.content j
  /-- The directory has an entry for it. -/
  entry : ∃ off, (s'.inodes dir).lookup s'.view.block name = some off ∧
    ((s'.inodes dir).dirent s'.view.block off).inum.toNat = i

/-- The file is entered in the directory, which leaves the file alone. -/
theorem Rebuilt.entered {inum : UInt32} (h : Rebuilt st ip i v new s s')
    (hcore : Core st none none lg [] s₁) (hinodes : s₁.inodes = s'.inodes) (hview : s₁.view = s'.view)
    (hdp : (s₁.icache dp).Live) (hdir : (s₁.icache dp).din.type = T_DIR) (hi : inum.toNat = i)
    (hnew : s₁.lookup dp name = none)
    (hw : Wrote st none [] dp (Dirent.bytes ⟨inum.toUInt16, name⟩) (s₁.linkOffset dp) lg s₁ lg' s₂)
    (hinodes2 : s''.inodes = s₂.inodes) (hview2 : s''.view = s₂.view) :
    Recovered i (s₁.icache dp).inum.toNat v new name s s'' := by
  obtain ⟨lg0, hcore0⟩ := h.held.core
  have hvalid : s.sb.Valid := h.held.calm.sb ▸ hcore0.layout
  have hlt : i < 2 ^ 16 := by
    have hlt := hcore0.cache.inum ip h.held.pos
    rw [h.inum] at hlt
    exact lt_of_lt_of_le hlt hcore0.layout.ninodes
  have hinum : inum.toUInt16.toNat = i := by
    rw [UInt32.toNat_toUInt16, hi]
    exact Nat.mod_eq_of_lt hlt
  have hnode1 : s₁.inodes i = .recovered s.ticks v new := by rw [hinodes, h.inodes, update_self]
  have hlgi : lg i = .recovered s.ticks v new := by rw [← hcore.inodes, hnode1]
  -- the file is not the directory
  have hne : i ≠ (s₁.icache dp).inum.toNat := by
    intro heq
    have hdin := hcore.din hdp
    rw [← heq, hnode1] at hdin
    rw [hdin] at hdir
    exact recovered_ne_dir hdir
  have hlive' : (s₂.icache dp).Live := hw.within.live.mpr hdp
  have hdin2 : (s₂.icache dp).din = s₂.inodes (s₁.icache dp).inum.toNat := by
    rw [hw.core.din hlive', hw.within.inum]
  obtain ⟨hlookup, hentry⟩ := hw.lookup hnew ((hcore.node_of_live hdp).aligned hdir) fun hz =>
    h.ne (by rw [← hinum, hz]; rfl)
  refine ⟨h.making.free, ?_, fun j hj => ?_, s₁.linkOffset dp, ?_, ?_⟩
  · rw [hinodes2, hw.core.inodes, hw.others i hne, hlgi]
  · obtain ⟨harea, -, hused, -⟩ := h.fresh j hj
    have hb : refs lg s₁.view.block s₁.versions (.data i j) = new j := by
      show (lg i).map s₁.view.block j = new j
      rw [hlgi, map_of_lt _ _ j.isLt]
      show (if j.val < v.nblocks then UInt32.ofNat (new j) else 0).toNat = new j
      rw [if_pos hj]
      exact View.toNat_ofNat_area hvalid harea
    have hnot := hcore.not_owns (o := .data i j) hdp (fun heq => hne (Option.some.inj heq))
      (by rw [hb]; exact View.area_ne_zero hvalid harea)
    rw [hb] at hnot
    rw [hview2, (hw.frame (new j) (by rw [hview]; exact hused) hnot).1, hview]
    exact h.data j hj
  · rw [hinodes2, hview2, ← hdin2]
    exact hlookup
  · rw [hinodes2, hview2, ← hdin2]
    change (s₂.dirent dp (s₁.linkOffset dp)).inum.toNat = i
    rw [hentry]
    exact hinum

/-- What `sys_recover_file` does with the version `v` and the new inode `i`: the file is entered in the
current directory `dir`, or the name is there and the file goes again. -/
structure RecoverOutcome (i dir : ℕ) (v : Version) (name : List UInt8) (r : ℤ) (s s' : Fs) :
    Prop where
  /-- A new inode is made, and nothing else out of the ordinary happens. -/
  made : ∃ m, Making s.hold i s m ∧ Ordinary s.hold m s'
  /-- The name is new or it is not. -/
  result : r = 0 ∧ (∃ new, Recovered i dir v new name s s') ∧
      (s.inodes dir).lookup s.view.block name = none ∨
    r = -1 ∧ (s.inodes dir).lookup s.view.block name ≠ none

/-- The directory that the file is entered in is as it was. -/
theorem Rebuilt.lookup (h : Rebuilt st ip i v new s s') (hinv : Core st none none lg [] s)
    (hcore : Core st none none lg' [] s₁)
    (hinodes : s₁.inodes = s'.inodes) (hview : s₁.view = s'.view) (hdp : (s₁.icache dp).Live)
    (hdir : (s₁.icache dp).din.type = T_DIR) (name : List UInt8) :
    s₁.lookup dp name =
      (s.inodes (s₁.icache dp).inum.toNat).lookup s.view.block name := by
  have hdin : (s₁.icache dp).din = s.inodes (s₁.icache dp).inum.toNat := by
    have heq := hcore.din hdp
    rw [hinodes, h.inodes] at heq
    by_cases hi : (s₁.icache dp).inum.toNat = i
    · rw [hi, update_self] at heq
      rw [heq] at hdir
      exact absurd hdir recovered_ne_dir
    · rw [heq, update_of_ne hi]
  show (s₁.icache dp).din.lookup s₁.view.block name = _
  rw [hdin, hview, hinv.inodes]
  exact lookup_congr (hinv.content_old h.old _) name

section Enter

variable (h : Rebuilt st ip i v new (s.setOp 1 [] s.ops) s') (hinv : Inv st s)

include h hinv

/-- The end of `sys_recover_file`: `dp` is the current directory, which the call may use. -/
theorem Rebuilt.enter_spec
    (h1 : At st none (s₀.setOp 1 [] s₀.ops) s' [dp, ip] [ip] s₁) (ha : s₁.Audited dp)
    (hinodes : s₁.inodes = s'.inodes) (hview : s₁.view = s'.view)
    (hslot : (s₁.icache ip).inum.toNat = i) (hhold : s₀.hold = s.hold) (hdp : (s₁.icache dp).Live)
    (hdir : (s₁.icache dp).din.type = T_DIR)
    (hT : total s.hold + 2 ≤ T) (name : List UInt8) :
    wp (do
        let ok ← dirlink dp name (s₁.icache ip).inum
        if ok then
          iunlockput ip
          endOp
          return 0
        else
          setDin ip fun d => { d with nlink := 0 }
          iupdate ip
          putFail ip)
      (fun r s'' => Ran st [dp] s₀ s'' ∧
        RecoverOutcome i (s₁.icache dp).inum.toNat v name r s s'') (Halts T) s₁ := by
  obtain ⟨lg1, hcore1⟩ := h1.core
  obtain ⟨lg0, hcore0⟩ := hinv
  have hlive := h1.live ip List.mem_cons_self
  have hlookup := h.lookup (hcore0.setOp 1 [] s.ops) hcore1 hinodes hview hdp hdir name
  have hmaking : Making s.hold i s s' := h.making.of_setOp
  refine wp_of_spec (dirlink_spec (T := T) hcore1 hdp ha ?_ (hcore1.cache.inum ip hlive.1) name)
    (fun _ _ => id) fun ok s₂ hent => ?_
  · rw [h1.total, hold_setOp, hhold, List.length_cons, List.length_singleton]
    omega
  rw [wp_ite]
  refine ⟨fun hok => ?_, fun hok => ?_⟩
  · obtain ⟨hnew, lg2, hw⟩ := hent.added hok
    have h2 := h1.kept (hw.kept hcore1 hdp)
    have h2' : At st none (s₀.setOp 1 [] s₀.ops) s' [ip, dp] [ip] s₂ :=
      h2.perm (List.Perm.swap ..) (List.Perm.refl _)
    -- the file is on the disk, and it has a link
    have hne : i ≠ (s₁.icache dp).inum.toNat := by
      intro heq
      have hdin := hcore1.din hdp
      rw [hinodes, h.inodes, ← heq, update_self] at hdin
      rw [hdin] at hdir
      exact recovered_ne_dir hdir
    have hlive2 := h2.live ip List.mem_cons_self
    have hinum2 : (s₂.icache ip).inum = (s₁.icache ip).inum := by
      rw [hw.within.other ip ?_]
      rintro rfl
      exact hne hslot.symm
    have hidle : Idle s₂ ip := by
      intro _ _
      rw [hw.core.din hlive2, hinum2, hslot, hw.core.inodes, hw.others i hne, ← hcore1.inodes,
        hinodes, h.inodes, update_self, hw.dinode i hne, hview, h.dinode]
      exact ⟨rfl, show (1 : Int16) ≠ 0 by decide⟩
    rw [wp_bind]
    refine h2'.wp_iunlockput_idle hidle fun s₃ h3 hpeek3 => ?_
    rw [wp_bind]
    refine h3.endOp fun hran hord => ⟨hran, ⟨s', hmaking, hhold ▸ hord⟩, .inl ⟨rfl, ⟨new, ?_⟩, ?_⟩⟩
    · have hrec := h.entered hcore1 hinodes hview hdp hdir hslot hnew hw
        (show (s₃.setOp 0 [] (s₃.lh :: s₃.ops)).inodes = _ from hpeek3.inodes) hpeek3.view
      exact ⟨hrec.free, hrec.node, hrec.data, hrec.entry⟩
    · rw [hlookup] at hnew
      exact hnew
  · have hpresent := hent.present (by simpa using hok)
    obtain ⟨hthere, hlook, hhold2⟩ := hpresent
    have h2 := h1.next ⟨lg1, hlook.core⟩ hhold2 hlook.steady.calm (hlook.ordinary hcore1)
    refine wp_commit_bind (h2.audited List.mem_cons_self) ?_ fun e s' he _ => he.benign.halts
    have hkept := hlook.core.commit_kept (h2.live ip List.mem_cons_self)
      { (s₂.icache ip).din with nlink := 0 } rfl rfl rfl rfl rfl
    have h3 := (h2.kept hkept).perm (List.Perm.swap dp ip []) (List.Perm.refl _)
    unfold putFail
    refine wp_of_spec h3.iunlockput (fun _ _ => id) ?_
    rintro _ s₄ ⟨h4, -⟩
    rw [wp_bind]
    refine h4.endOp fun hran hord => ⟨hran, ⟨s', hmaking, hhold ▸ hord⟩, .inr ⟨rfl, ?_⟩⟩
    rw [hlookup] at hthere
    exact hthere

/-- `sys_recover_file`, once the file is made. -/
theorem Rebuilt.link_spec (hcwd : ∀ k, cwd = some k → 0 < (s.icache k).ref)
    (hT : total s.hold + 2 ≤ T) (name : List UInt8) :
    wp (do
        let dot ← namei cwd DOT
        match dot with
        | none => throw .fault
        | some dp =>
          let i ← inode ip
          let ok ← dirlink dp name i.inum
          if ok then
            iunlockput ip
            endOp
            return 0
          else
            setDin ip fun d => { d with nlink := 0 }
            iupdate ip
            putFail ip)
      (fun r s'' => ∃ k, cwd = some k ∧ Ran st [k] s s'' ∧
        RecoverOutcome i (s.icache k).inum.toNat v name r s s'') (Halts T) s' := by
  have hfault : Halts T .fault s' := Halt.Benign.halts ⟨by decide, by decide⟩
  cases hk : cwd with
  | none => exact hfault
  | some k =>
    have hpos := hcwd k hk
    obtain ⟨lg', hcore'⟩ := h.held.core
    have hpos' : 0 < (s'.icache k).ref := h.held.pos_of_base hpos
    have htotal : total s'.hold = total s.hold + 1 := h.held.total
    refine wp_of_spec (wp_and
      (h.held.namei (T := T) (by rintro _ ⟨⟩; exact hpos)
        (by simp [hold_setOp]; omega) DOT)
      (namei_dot_spec (T := T) hcore' hpos' (by omega))) (fun _ _ he => he.1) ?_
    rintro r s₁ ⟨⟨h1, hpeek1, -, -⟩, -, hdot⟩
    cases r with
    | none => exact Halt.Benign.halts ⟨by decide, by decide⟩
    | some dp =>
      obtain ⟨rfl, hlive, hdir⟩ := hdot dp rfl
      have h1' : At st none (s.setOp 1 [] s.ops) s' [dp, ip] [ip] s₁ := h1
      have hslot : (s₁.icache ip).inum.toNat = i := by
        rw [(hpeek1.calm.slot ip h.held.pos).inum, h.inum]
      have hinum : (s₁.icache dp).inum = (s.icache dp).inum := (h1'.calm.slot dp hpos).inum
      dsimp only
      rw [wp_bind, wp_inode]
      by_cases hlocked : (s₁.icache dp).locked = true
      · refine wp_mono (h.enter_spec hinv h1' (.inl hlocked) hpeek1.inodes hpeek1.view hslot rfl
          hlive hdir hT name) (fun r s'' hp => ⟨dp, rfl, hp.1, ?_⟩) fun _ _ => id
        rw [← hinum]
        exact hp.2
      · -- the directory is used without its lock
        have hfree : (s₁.icache dp).locked = false := by simpa using hlocked
        rw [wp_bind]
        refine wp_dirlink_unlock hfree (wp_bind.mp ?_)
        have h₁'' : At st none (s.unlock.setOp 1 [] s.unlock.ops) s' [dp, ip] [ip] s₁.unlock :=
          h1'.unlock
        refine wp_mono (h.enter_spec hinv h₁'' (.inr rfl)
          hpeek1.inodes hpeek1.view hslot rfl hlive hdir hT name) (fun r s'' hp => ⟨dp, rfl, ?_, ?_⟩)
          fun _ _ => id
        · have hran := hp.1
          exact ⟨hran.inv, hran.hold, hran.sb, hran.logSize, hran.quiet, hran.versions, hran.slot,
            by nofun⟩
        · rw [← hinum]
          exact hp.2

end Enter

/-! ## The call -/

theorem recoverVersion_spec (h : Inv st s) (hq : s.Quiet)
    (hcwd : ∀ k, cwd = some k → 0 < (s.icache k).ref) (hT : total s.hold + 2 ≤ T)
    (hc : Chain s.versions head (v :: c))
    (hsmall : st = true → v.vnode.fileSize.toNat ≤ NDIRECT * BSIZE) (name : List UInt8) :
    wp (recoverVersion cwd name head) (fun r s' => ∃ k i, cwd = some k ∧ Ran st [k] s s' ∧
      RecoverOutcome i (s.icache k).inum.toNat v name r s s') (Halts T) s := by
  obtain ⟨lg, hcore⟩ := h
  have hcore0 := hcore.setOp 1 [] s.ops
  unfold recoverVersion
  rw [wp_bind]
  refine wp_beginOp hq ?_
  refine wp_of_spec (ialloc_spec (T := T) hcore0 (by rw [hold_setOp]; omega) T_FILE)
    (fun _ _ => id) ?_
  rintro ip s₁ ⟨i, hmade⟩
  have h1 : At st (some i) (s.setOp 1 [] s.ops) s₁ [ip] [] s₁ :=
    (At.start hcore0).stepRef hmade.looked.core hmade.hold hmade.calm
  rw [wp_bind]
  refine wp_ilock hmade.looked.core h1.pos (fun _ => Halt.Benign.halts ⟨by decide, by decide⟩)
    (fun _ _ _ => Halt.Benign.halts ⟨by decide, by decide⟩) ?_
  intro s₂ hlook hhold _ hlive hother _
  have h2 := h1.lock hmade.looked.core hlook hhold hlive hother
  have hinum : (s₂.icache ip).inum.toNat = i := by
    rw [(hlook.slot ip h1.pos).2.1, hmade.inum]
  have hdin := hmade.din hlook.core hlive (hlook.slot ip h1.pos).2.1
  have hrest2 : s₂.rest = (s.setOp 1 [] s.ops).rest :=
    hlook.steady.rest.trans hmade.looked.steady.rest
  have hvers2 : s₂.versions = s.versions := (congrArg Fs.versions hrest2 :)
  have hwin2 := hlook.core.openWin hlive (h2.audited List.mem_cons_self)
  -- the fields of the new inode are set one after the other
  rw [wp_bind, wp_setDin hwin2.audited]
  have hwin3 := hwin2.setDin { (s₂.icache ip).din with type := T_FILE, nlink := 1 } rfl rfl
    (fun _ => show T_FILE ≠ 0 by decide) rfl
  rw [wp_bind]
  refine wp_versionGet hwin3.core (c := v :: c) ?_ ?_
  · show Chain s₂.versions head (v :: c)
    rw [hvers2]
    exact hc
  dsimp only [List.head?_cons, Option.map_some]
  rw [wp_bind, wp_setDin hwin3.audited, setSlot_setSlot, setSlot_self]
  have hwin4 := hwin3.setDin { (s₂.icache ip).din with
    type := T_FILE, nlink := 1, size := v.vnode.fileSize, versionHead := 0 }
    (by rw [setSlot_self]) (by rw [setSlot_self]) (fun _ => show T_FILE ≠ 0 by decide)
    (by rw [setSlot_self, hdin]; rfl)
  rw [setSlot_self, setSlot_setSlot] at hwin4
  have hcopied := CopiedBack.nil hwin4 v
  have hv : v ∈ s.versions := hc.mem List.mem_cons_self
  refine wp_of_spec (hcopied.loop (l := List.finRange NDIRECT) (E := Halts T) ?_
    (List.nodup_finRange _) (fun _ _ _ _ _ _ _ => benign_ballocOut.halts)
    fun _ _ _ _ _ _ he _ _ _ => he.benign.halts) (fun _ _ => id) ?_
  · show v ∈ s₂.versions
    rw [hvers2]
    exact hv
  rintro _ s₄ ⟨rfl, new, lg₄, hcb⟩
  rw [if_pos rfl]
  rw [List.nil_append] at hcb
  unfold recoverLink
  rw [wp_bind]
  refine wp_iupdate hcb.win.audited ?_ fun e s' he _ => he.benign.halts
  rw [← commit_self]
  have hreb := hcb.rebuilt hcore0 hmade hlook hhold hlive hother rfl (fun j hj => ?_) hv hsmall
  · refine wp_mono (hreb.link_spec ⟨lg, hcore⟩ hcwd hT name) ?_ fun _ _ => id
    rintro r s' ⟨k, hk, hran, hout⟩
    exact ⟨k, i, hk, hran, hout⟩
  · rw [hinum, update_of_ne hj, update_of_ne hj, update_of_ne hj]

theorem sysRecoverFile_spec (h : Inv st s) (hq : s.Quiet)
    (hcwd : ∀ k, cwd = some k → 0 < (s.icache k).ref) (hT : total s.hold + 2 ≤ T)
    (args : Option (List UInt8))
    (hsmall : st = true → ∀ name v, args = some name → s.recovers name = some v →
      v.vnode.fileSize.toNat ≤ NDIRECT * BSIZE) :
    wp (sysRecoverFile cwd args) (fun r s' =>
      r = -1 ∧ (s' = s ∨ ∃ name e, args = some name ∧ s.findDeletedFile name = some e ∧
        s.recovers name = none ∧ s' = s.takeDeleted e) ∨
      ∃ name e v k i, args = some name ∧ s.findDeletedFile name = some e ∧
        s.recovers name = some v ∧ cwd = some k ∧ Ran st [k] s s' ∧
        RecoverOutcome i (s.icache k).inum.toNat v name r (s.takeDeleted e) s') (Halts T) s := by
  obtain ⟨lg, hcore⟩ := h
  unfold sysRecoverFile
  split
  · exact .inl ⟨rfl, .inl rfl⟩
  rename_i name
  rw [wp_bind]
  refine wp_recoverDeletedFile (fun _ => ?_) fun e he => ?_
  · rw [if_pos rfl]
    exact .inl ⟨rfl, .inl rfl⟩
  · obtain ⟨c, hc⟩ := hcore.deleted e (by
      have := List.find?_some he
      rw [Bool.and_eq_true] at this
      exact this.1)
    have hrec : s.recovers name = c.head? := by
      unfold Fs.recovers
      rw [he, Option.bind_some]
      exact hcore.newest hc
    rw [wp_ite]
    refine ⟨fun hz => ?_, fun hnz => ?_⟩
    · -- the entry has no versions
      refine .inl ⟨rfl, .inr ⟨name, e, rfl, he, ?_, rfl⟩⟩
      cases c with
      | nil => exact hrec
      | cons v c =>
        have hne := hcore.vers.ne v (hc.mem List.mem_cons_self)
        exact absurd (hc.1.1.symm.trans hz) hne
    · cases c with
      | nil => exact absurd hc.1 hnz
      | cons v c =>
        refine wp_mono (recoverVersion_spec (s := s.takeDeleted e) ⟨lg, hcore.takeDeleted e⟩
          ⟨hq.outstanding, hq.lh⟩ hcwd hT hc (fun hst => hsmall hst name v rfl hrec) name) ?_
          fun _ _ => id
        rintro r s' ⟨k, i, hk, hran, hout⟩
        refine .inr ⟨name, e, v, k, i, rfl, he, hrec, hk, ?_, hout⟩
        exact ⟨hran.inv, hran.hold, hran.sb, hran.logSize, hran.quiet, hran.versions, hran.slot,
          hran.unlocked⟩

end ChronoFS
