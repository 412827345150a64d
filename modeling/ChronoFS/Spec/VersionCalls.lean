import ChronoFS.Spec.Syscall

/-!
# The version calls

`sys_version_create`, `sys_version_list` and `sys_version_restore` look a path up, do their work on the
inode it names while it is locked, and put it. The inode is in use or has links, so that the last step
never frees it, and what each call does to the inodes and blocks can be said exactly: it does nothing
(`Watched`), it adds a version of one inode (`Saved`), or it puts one inode back to a version
(`Reverted`).
-/

namespace ChronoFS

open Function

variable {st : Bool} {w fr : Option ℕ} {lg lg' : ℕ → Dinode} {hand : List ℕ} {s₀ m s s' s'' : Fs}
  {k dp ip : Slot} {refs locks leak : List Slot} {i n : ℕ} {T : ℤ} {E : Halt → Fs → Prop}
  {H H' : Slot → ℤ × ℤ} {cwd : Option Slot} {v : Version} {new : Fin NDIRECT → ℕ} {num : ℤ}
  {path : List UInt8}

/-! ## What the calls do -/

/-- The kernel sees the same inodes, blocks, versions and deleted files. -/
structure Watched (s s' : Fs) : Prop where
  /-- The inodes. -/
  inodes : s'.inodes = s.inodes
  /-- The disk. -/
  view : s'.view = s.view
  /-- The versions. -/
  versions : s'.versions = s.versions
  /-- The deleted files. -/
  deleted : s'.deleted = s.deleted

/-- The version `v` of inode `i` is made. -/
structure Saved (i : ℕ) (desc : List UInt8) (v : Version) (s s' : Fs) : Prop where
  /-- The inode is allocated. -/
  type : (s.inodes i).type ≠ 0
  /-- The version is at the head of the inode's chain. -/
  inodes : s'.inodes = update s.inodes i { s.inodes i with versionHead := v.node }
  /-- It is added. -/
  versions : s'.versions = s.versions ++ [v]
  /-- It is the last one so far. -/
  prev : v.prev = (s.inodes i).versionHead
  /-- It has the size of the file. -/
  size : v.vnode.fileSize = (s.inodes i).size
  /-- It has the time. -/
  timestamp : v.vnode.timestamp = s.ticks
  /-- It has the description. -/
  description : v.vnode.description = describe desc
  /-- It has a block for each direct block of the file. -/
  nblocks : v.nblocks = (s.inodes i).present.length
  /-- These are copies. -/
  content : ∀ j, (hj : j < (s.inodes i).present.length) → v.content j =
    s.view.block ((s.inodes i).addrs ((s.inodes i).present.get ⟨j, hj⟩)).toNat
  /-- Blocks in use are as they were. -/
  old : ∀ b, s.view.used b = true → s'.view.block b = s.view.block b
  /-- No file is deleted. -/
  deleted : s'.deleted = s.deleted
  /-- The blocks that the operation logs. -/
  ops : ∃ lh, s'.ops = lh :: s.ops ∧ (s.sb.size ≤ BPB → lh.length = 3 + v.nblocks)

/-- Inode `i` is put back to the version `v`, whose blocks are copied to `new`. -/
structure Reverted (i : ℕ) (v : Version) (new : Fin NDIRECT → ℕ) (s s' : Fs) : Prop where
  /-- The inode is allocated. -/
  type : (s.inodes i).type ≠ 0
  /-- Its size and its direct blocks change. -/
  inodes : s'.inodes = update s.inodes i ((s.inodes i).restored v new)
  /-- The new blocks are different, and were free or the file's own. -/
  fresh : ∀ j : Fin NDIRECT, j.val < v.nblocks → new j ∈ s.avail (s.inodes i) ∧
    ∀ j' : Fin NDIRECT, j'.val < v.nblocks → new j = new j' → j = j'
  /-- The new blocks are copies. -/
  data : ∀ j : Fin NDIRECT, j.val < v.nblocks → s'.view.block (new j) = v.content j
  /-- Other blocks in use are as they were. -/
  old : ∀ b, s.view.used b = true → b ∉ s.avail (s.inodes i) → s'.view.block b = s.view.block b
  /-- The versions are the same. -/
  versions : s'.versions = s.versions
  /-- So are the deleted files. -/
  deleted : s'.deleted = s.deleted
  /-- The blocks that the operation logs. -/
  ops : ∃ lh, s'.ops = lh :: s.ops ∧ (s.sb.size ≤ BPB → lh.length = v.nblocks + 1 +
    if (∃ j, (s.inodes i).addrs j ≠ 0) ∨ 0 < v.nblocks then 1 else 0)

theorem Watched.refl (s : Fs) : Watched s s := ⟨rfl, rfl, rfl, rfl⟩

/-- An operation that only looks. -/
theorem Peeked.watched {n' : ℕ} {lh lh' : List ℕ} {ops ops' : List (List ℕ)}
    (h : Peeked H (s.setOp n lh ops) s') : Watched s (s'.setOp n' lh' ops') where
  inodes := h.inodes
  view := h.view
  versions := by
    rw [h.only]
    rfl
  deleted := by
    rw [h.only]
    rfl

/-- The kernel sees the copy of an inode that is loaded. -/
theorem Core.din (h : Core st none fr lg hand s) (hk : (s.icache k).Live) :
    (s.icache k).din = s.inodes (s.icache k).inum.toNat := by
  rw [h.inodes]
  exact (h.cache.cached k hk nofun).1.symm

/-- The number of blocks that an operation logs. -/
theorem Logged.length {X : ℕ → Prop} (h : Logged X s s') (hlh : s.lh = []) (S : Finset ℕ)
    (hS : ∀ x, x ∈ S ↔ X x) : s'.lh.length = S.card := by
  have hnd : s'.lh.Nodup := h.nodup (by rw [hlh]; exact List.nodup_nil)
  have heq : s'.lh.toFinset = S := by
    ext x
    rw [List.mem_toFinset, h.mem, hS, hlh]
    simp
  rw [← heq, List.toFinset_card_of_nodup hnd]

theorem Versioned.length {bs : List ℕ} (h : Core st none none lg hand s)
    (hk : (s.icache k).Live) (hv : Versioned st hand k v bs lg s s') (hlh : s.lh = [])
    (hsize : s.sb.size ≤ BPB) : s'.lh.length = 3 + v.nblocks := by
  have hlayout := h.layout
  have hinum := h.cache.inum k hk.1
  have hlt := View.iblock_lt hlayout hinum
  obtain ⟨hnd, harea⟩ := hv.fresh
  have hbig : ∀ b ∈ v.node.toNat :: bs, s.sb.dataStart ≤ b ∧ s.sb.bblock b = s.sb.bmapstart :=
    fun b hb => ⟨(harea b hb).1.1, bblock_of_size hsize (harea b hb).1.2⟩
  have hstart : s.sb.bmapstart < s.sb.dataStart := by
    have hb := hbig v.node.toNat List.mem_cons_self
    have := View.bblock_lt hlayout (harea v.node.toNat List.mem_cons_self).1.2
    omega
  rw [hv.logged.length hlh
    (insert s.sb.bmapstart (insert (s.sb.iblock (s.icache k).inum.toNat)
      (v.node.toNat :: bs).toFinset)) ?_,
    Finset.card_insert_of_notMem, Finset.card_insert_of_notMem, List.toFinset_card_of_nodup hnd,
    List.length_cons, hv.nblocks.2]
  · omega
  · intro hmem
    have := (hbig _ (List.mem_toFinset.mp hmem)).1
    omega
  · intro hmem
    rcases Finset.mem_insert.mp hmem with heq | hmem
    · omega
    · have := (hbig _ (List.mem_toFinset.mp hmem)).1
      omega
  · intro x
    rw [Finset.mem_insert, Finset.mem_insert, List.mem_toFinset]
    constructor
    · rintro (rfl | rfl | hx)
      · exact .inl ⟨_, List.mem_cons_self, .inl (hbig _ List.mem_cons_self).2.symm⟩
      · exact .inr rfl
      · exact .inl ⟨x, hx, .inr rfl⟩
    · rintro (⟨b, hb, rfl | rfl⟩ | rfl)
      · exact .inl (hbig b hb).2
      · exact .inr (.inr hb)
      · exact .inr (.inl rfl)

/-! ## The inode that a path names, locked -/

/-- The operation of a call that began in `s` holds inode `i`, in slot `k`, and its lock. -/
structure Opened (st : Bool) (i : ℕ) (k : Slot) (s s' : Fs) : Prop where
  /-- The call holds nothing else. -/
  held : At st none (s.setOp 1 [] s.ops) (s.setOp 1 [] s.ops) [k] [k] s'
  /-- The inode would not be lost. -/
  idle : Idle s' k
  /-- The slot is for the inode. -/
  inum : (s'.icache k).inum.toNat = i
  /-- The call has only looked so far. -/
  peeked : Peeked s.hold (s.setOp 1 [] s.ops) s'

namespace Opened

theorem live (h : Opened st i k s s') : (s'.icache k).Live := h.held.live k List.mem_cons_self

theorem audited (h : Opened st i k s s') : s'.Audited k := h.held.audited List.mem_cons_self

theorem inodes (h : Opened st i k s s') : s'.inodes = s.inodes := h.peeked.inodes

theorem view (h : Opened st i k s s') : s'.view = s.view := h.peeked.view

theorem lh (h : Opened st i k s s') : s'.lh = [] := h.peeked.lh

theorem din (h : Opened st i k s s') : (s'.icache k).din = s.inodes i := by
  obtain ⟨lg, hcore⟩ := h.held.core
  rw [hcore.din h.live, h.inodes, h.inum]

theorem type (h : Opened st i k s s') : (s.inodes i).type ≠ 0 := by
  obtain ⟨lg, hcore⟩ := h.held.core
  rw [← h.din]
  exact (hcore.cache.cached k h.live nofun).2.2

theorem rest (h : Opened st i k s s') : s'.rest = (s.setOp 1 [] s.ops).rest := by
  rw [h.peeked.only]
  rfl

theorem sb (h : Opened st i k s s') : s'.sb = s.sb := (congrArg Fs.sb h.rest :)

theorem versions (h : Opened st i k s s') : s'.versions = s.versions :=
  (congrArg Fs.versions h.rest :)

theorem deleted (h : Opened st i k s s') : s'.deleted = s.deleted := (congrArg Fs.deleted h.rest :)

theorem ticks (h : Opened st i k s s') : s'.ticks = s.ticks := (congrArg Fs.ticks h.rest :)

theorem ops (h : Opened st i k s s') : s'.ops = s.ops := (congrArg Fs.ops h.rest :)

end Opened

/-- The call locks what `namei` gave it. -/
theorem At.opened {Q : Unit → Fs → Prop}
    (h : At st none (s.setOp 1 [] s.ops) (s.setOp 1 [] s.ops) [k] [] s')
    (hpeek : Peeked s.hold (s.setOp 1 [] s.ops) s') (hidle : Idle s' k)
    (hres : some (s'.icache k).inum.toNat = s.names cwd path)
    (hsleep : (s'.icache k).locked = true → E .sleep s')
    (htype : ∀ s'', (s'.inodes (s'.icache k).inum.toNat).type = 0 → E (.panic .ilockNoType) s'')
    (hok : ∀ i s'', s.names cwd path = some i → Opened st i k s s'' → Q () s'') :
    wp (ChronoFS.ilock k) Q E s' := by
  refine h.wp_ilock h.pos hsleep htype fun s'' hat hpeek' hidle' => ?_
  have hinum : (s''.icache k).inum = (s'.icache k).inum := (hpeek'.calm.slot k h.pos).inum
  exact hok _ s'' hres.symm ⟨hat, hidle' hidle rfl, by rw [hinum], hpeek.trans (hpeek'.anti h.le)⟩

/-! ## `sys_version_create` -/

/-- A step of a call that changes one loaded inode, and leaves the rest to others. -/
theorem At.setDin {d : Dinode} (h : At st none s₀ m refs locks s)
    (hcore : Core st none none lg' [] s') (hic : s'.icache = update s.icache k
      { s.icache k with din := d }) (htype : d.type = (s.icache k).din.type)
    (hrest : { s'.rest with versions := s.versions } = s.rest) (hvers : s.versions <+: s'.versions) :
    At st none s₀ s' refs locks s' := by
  have hslot : ∀ j, (s'.icache j).ref = (s.icache j).ref ∧
      (s'.icache j).locked = (s.icache j).locked ∧ SameSlot (s.icache j) (s'.icache j) := by
    intro j
    rw [hic]
    by_cases hj : j = k
    · rw [hj, update_self]
      exact ⟨rfl, rfl, rfl, rfl, fun hvalid => ⟨hvalid, htype⟩⟩
    · rw [update_of_ne hj]
      exact ⟨rfl, rfl, .refl _⟩
  refine h.step ⟨_, hcore⟩ ?_ ⟨(congrArg Fs.sb hrest :), (congrArg Fs.logSize hrest :),
    (congrArg Fs.outstanding hrest :), (congrArg Fs.ops hrest :), (congrArg Fs.unlocked hrest :),
    hvers, fun j _ => (hslot j).2.2⟩
  funext j
  unfold Fs.hold Inode.lockBit
  rw [(hslot j).1, (hslot j).2.1]

/-- An inode that was just written to the disk and has links, or is in use, is not lost. -/
theorem Idle.of_written (h : Idle s k) {d : Dinode} (hic : s'.icache = update s.icache k
      { s.icache k with din := d })
    (hdinode : s'.view.dinode = update s.view.dinode (s.icache k).inum.toNat d)
    (hlinks : d.nlink = (s.icache k).din.nlink) : Idle s' k := by
  unfold Idle at *
  rw [hic, update_self, hdinode, update_self, hlinks]
  exact fun href hvalid => ⟨rfl, (h href hvalid).2⟩

/-- The version that the call makes. -/
theorem Opened.saved {bs : List ℕ} {desc : List UInt8} {s3 s4 : Fs} (h : Opened st i k s s')
    (hcore : Core st none none lg [] s') (hv : Versioned st [] k v bs lg s' s3)
    (hlabel : v.vnode.timestamp = s'.ticks ∧ v.vnode.description = describe desc)
    (hpeek : Peeked H s3 s4) : Saved i desc v s (s4.setOp 0 [] (s4.lh :: s4.ops)) where
  type := h.type
  inodes := by
    rw [inodes_setOp, hpeek.inodes, hv.core.inodes, ← hcore.inodes, h.inodes, h.din, h.inum]
  versions := by
    show s4.versions = _
    rw [hpeek.only, ← h.versions]
    exact hv.versions
  prev := by rw [hv.prev, h.din]
  size := by rw [hv.size, h.din]
  timestamp := by rw [hlabel.1, h.ticks]
  description := hlabel.2
  nblocks := by rw [hv.nblocks.1, h.din]
  content := by
    have := hv.content
    rw [h.din, h.view] at this
    exact this
  old := by
    intro b hb
    show s4.view.block b = _
    rw [hpeek.view, hv.old b (by rw [h.view]; exact hb), h.view]
  deleted := by
    show s4.deleted = _
    rw [hpeek.only, ← h.deleted]
    exact (congrArg Fs.deleted hv.rest :)
  ops := by
    refine ⟨s4.lh, ?_, fun hsize => ?_⟩
    · have hops : s4.ops = s.ops := by
        rw [hpeek.only, ← h.ops]
        exact (congrArg Fs.ops hv.rest :)
      show s4.lh :: s4.ops = _
      rw [hops]
    · rw [hpeek.lh]
      exact hv.length hcore h.live h.lh (by rw [h.sb]; exact hsize)

/-! ## `sys_version_restore` -/

theorem Opened.avail (h : Opened st i k s s') : s'.avail (s'.icache k).din = s.avail (s.inodes i) := by
  unfold Fs.avail
  rw [h.din, h.view, h.sb]

theorem Opened.began (h : Opened st i k s s') (hlog : s.logSize = LOGSIZE) (hsize : s.sb.size ≤ BPB) :
    s'.Began where
  lh := h.lh
  outstanding := h.held.calm.outstanding.ge
  logSize := h.held.calm.logSize.trans hlog
  size := by rw [h.sb]; exact hsize

/-- The number of blocks that restoring a version logs. -/
theorem Restored.length (h : Core st none none lg hand s) (hk : (s.icache k).Live)
    (hr : Restored st hand k v new lg s s') (hn : v.nblocks ≤ NDIRECT) (hlh : s.lh = [])
    (hsize : s.sb.size ≤ BPB) : s'.lh.length = v.nblocks + 1 +
      if (∃ j, (s.icache k).din.addrs j ≠ 0) ∨ 0 < v.nblocks then 1 else 0 := by
  have hlayout := h.layout
  have hlt := View.iblock_lt hlayout (h.cache.inum k hk.1)
  -- the blocks: the new ones, the inode's, and the free map if anything is freed or taken
  let news : Finset ℕ := (Finset.univ.filter fun j : Fin NDIRECT => j.val < v.nblocks).image new
  have hnews : ∀ b, b ∈ news ↔ ∃ j : Fin NDIRECT, j.val < v.nblocks ∧ new j = b := by
    intro b
    simp [news]
  have hcard : news.card = v.nblocks := by
    rw [Finset.card_image_of_injOn, Fin.card_filter_val_lt, min_eq_right hn]
    intro a ha b hb hab
    simp only [Finset.coe_filter, Finset.mem_univ, true_and, Set.mem_ofPred_eq] at ha hb
    exact (hr.fresh a ha).2 b hb hab
  have hnew : ∀ b ∈ news, s.sb.Area b := by
    intro b hb
    obtain ⟨j, hj, rfl⟩ := (hnews b).mp hb
    exact (mem_avail.mp (hr.fresh j hj).1).1
  have hdirect : ∀ j, (s.icache k).din.addrs j ≠ 0 → s.sb.Area ((s.icache k).din.addrs j).toNat :=
    fun j hj => (h.direct_used hk hj).1
  have hmap : ∀ b, s.sb.Area b → s.sb.bblock b = s.sb.bmapstart ∧ s.sb.bmapstart < s.sb.dataStart := by
    intro b hb
    have heq := bblock_of_size hsize hb.2
    exact ⟨heq, heq ▸ View.bblock_lt hlayout hb.2⟩
  have hinode : ∀ b ∈ news, b ≠ s.sb.iblock (s.icache k).inum.toNat := by
    intro b hb heq
    have h1 := (hnew b hb).1
    have h2 := (hmap b (hnew b hb)).2
    omega
  have hmem : s.sb.iblock (s.icache k).inum.toNat ∉ news := fun hb => hinode _ hb rfl
  split
  · rename_i hany
    have hstart : s.sb.bmapstart < s.sb.dataStart := by
      rcases hany with ⟨j, hj⟩ | hpos
      · exact (hmap _ (hdirect j hj)).2
      · exact (hmap _ (hnew _ ((hnews _).mpr ⟨⟨0, by decide⟩, hpos, rfl⟩))).2
    rw [hr.logged.length hlh
      (insert s.sb.bmapstart (insert (s.sb.iblock (s.icache k).inum.toNat) news)) ?_,
      Finset.card_insert_of_notMem, Finset.card_insert_of_notMem hmem, hcard]
    · intro hb
      rcases Finset.mem_insert.mp hb with heq | hb
      · omega
      · have := (hnew _ hb).1
        omega
    · intro x
      rw [Finset.mem_insert, Finset.mem_insert, hnews]
      constructor
      · rintro (rfl | rfl | ⟨j, hj, rfl⟩)
        · rcases hany with ⟨j, hj⟩ | hpos
          · exact .inl (.inl ⟨j, hj, (hmap _ (hdirect j hj)).1.symm⟩)
          · refine .inl (.inr ⟨⟨0, by decide⟩, hpos, .inl (hmap _ (hnew _ ?_)).1.symm⟩)
            exact (hnews _).mpr ⟨⟨0, by decide⟩, hpos, rfl⟩
        · exact .inr rfl
        · exact .inl (.inr ⟨j, hj, .inr rfl⟩)
      · rintro ((⟨j, hj, rfl⟩ | ⟨j, hj, rfl | rfl⟩) | rfl)
        · exact .inl (hmap _ (hdirect j hj)).1
        · exact .inl (hmap _ (hnew _ ((hnews _).mpr ⟨j, hj, rfl⟩))).1
        · exact .inr (.inr ⟨j, hj, rfl⟩)
        · exact .inr (.inl rfl)
  · rename_i hnone
    rw [not_or, not_exists, not_lt, Nat.le_zero] at hnone
    rw [hr.logged.length hlh (insert (s.sb.iblock (s.icache k).inum.toNat) news) ?_,
      Finset.card_insert_of_notMem hmem, hcard]
    intro x
    rw [Finset.mem_insert, hnews]
    constructor
    · rintro (rfl | ⟨j, hj, -⟩)
      · exact .inr rfl
      · rw [hnone.2] at hj
        exact absurd hj (Nat.not_lt_zero _)
    · rintro ((⟨j, hj, -⟩ | ⟨j, hj, -⟩) | rfl)
      · exact absurd hj (hnone.1 j)
      · rw [hnone.2] at hj
        exact absurd hj (Nat.not_lt_zero _)
      · exact .inl rfl

/-- The version that the call puts back. -/
theorem Opened.reverted {s3 s4 : Fs} (h : Opened st i k s s') (hcore : Core st none none lg [] s')
    (hv : v ∈ s'.versions) (hr : Restored st [] k v new lg s' s3) (hpeek : Peeked H s3 s4) :
    Reverted i v new s (s4.setOp 0 [] (s4.lh :: s4.ops)) where
  type := h.type
  inodes := by
    rw [inodes_setOp, hpeek.inodes, hr.core.inodes, ← hcore.inodes, h.inodes, h.din, h.inum]
  fresh := by
    have := hr.fresh
    rw [h.avail] at this
    exact this
  data := by
    intro j hj
    show s4.view.block _ = _
    rw [hpeek.view, hr.data j hj]
  old := by
    intro b hb hnot
    show s4.view.block b = _
    rw [hpeek.view, hr.old b (by rw [h.view]; exact hb) (by rw [h.avail]; exact hnot), h.view]
  versions := by
    show s4.versions = _
    rw [hpeek.only, ← h.versions]
    exact (congrArg Fs.versions hr.rest :)
  deleted := by
    show s4.deleted = _
    rw [hpeek.only, ← h.deleted]
    exact (congrArg Fs.deleted hr.rest :)
  ops := by
    refine ⟨s4.lh, ?_, fun hsize => ?_⟩
    · have hops : s4.ops = s.ops := by
        rw [hpeek.only, ← h.ops]
        exact (congrArg Fs.ops hr.rest :)
      show s4.lh :: s4.ops = _
      rw [hops]
    · rw [hpeek.lh, ← h.din]
      exact hr.length hcore h.live (hcore.vers.nblocks v hv) h.lh (by rw [h.sb]; exact hsize)

section Contents

variable {j bn : ℕ} (h : Reverted i v new s s') (hcore : Core st none none lg [] s)

include h hcore

/-- A block with another owner than a direct address of `i` is as it was. -/
theorem Reverted.block {o : Owner} (hne : ChronoFS.refs lg s.view.block s.versions o ≠ 0)
    (ho : ∀ j : Fin NDIRECT, o ≠ .data i j) :
    s'.view.block (ChronoFS.refs lg s.view.block s.versions o) =
      s.view.block (ChronoFS.refs lg s.view.block s.versions o) := by
  obtain ⟨hused, hnot⟩ := hcore.not_mem_avail hne ho
  apply h.old _ hused
  rw [hcore.inodes]
  exact hnot

end Contents

/-- What `sys_version_restore` does: with the number of a version of the inode it puts it back to that
version, and else it does nothing. -/
def RestoreOutcome (i : ℕ) (num r : ℤ) (s s' : Fs) : Prop :=
  ∃ c, Chain s.versions (s.inodes i).versionHead c ∧
    (r = -1 ∧ Watched s s' ∧ ¬ (0 ≤ num ∧ num < c.length) ∨
      r = 0 ∧ ∃ v new, 0 ≤ num ∧ (c)[num.toNat]? = some v ∧ Reverted i v new s s')

/-- There are too few blocks for the version with number `num` of inode `i`. -/
def Fs.Scarce (s : Fs) (i : ℕ) (num : ℤ) : Prop :=
  ∃ c v, Chain s.versions (s.inodes i).versionHead c ∧ 0 ≤ num ∧ (c)[num.toNat]? = some v ∧
    (s.avail (s.inodes i)).card < v.nblocks

/-- A call that has nothing to do gives up. -/
theorem Opened.wp_putFail {Q : ℤ → Fs → Prop} (h : Opened st i k s s')
    (hok : ∀ s'', Ran st [] s s'' → Watched s s'' → Q (-1) s'') : wp (putFail k) Q E s' := by
  unfold putFail
  rw [wp_bind]
  refine h.held.wp_iunlockput_idle h.idle fun s1 h1 hpeek1 => ?_
  rw [wp_bind]
  have hpeek : Peeked s.hold (s.setOp 1 [] s.ops) s1 :=
    h.peeked.trans (hpeek1.anti h.held.sub_aRef_le)
  exact h1.endOp fun hran _ => hok _ hran hpeek.watched

theorem Opened.wp_restoreWalk (h : Opened st i k s s') (num : ℤ)
    (hout : s.Scarce i num → ∀ s'', E (.panic .ballocOut) s'')
    (hlog : ¬ (s.logSize = LOGSIZE ∧ s.sb.size ≤ BPB) → ∀ e s'', e.Log → E e s'') :
    wp (restoreWalk k num (s'.sb.size + 1) (s'.icache k).din.versionHead 0)
      (fun r s'' => Ran st [] s s'' ∧ RestoreOutcome i num r s s'') E s' := by
  obtain ⟨lg, hcore⟩ := h.held.core
  obtain ⟨c, hchain, hfor⟩ := (hcore.node_of_live h.live).chain
  have hc : Chain s.versions (s.inodes i).versionHead c := by
    rw [← h.versions, ← h.din]
    exact hchain
  refine ChronoFS.wp_restoreWalk hcore hchain (Nat.lt_succ_of_le (hcore.chain_length hchain))
    (fun j v hj hnum => ?_) fun hne => h.wp_putFail fun s'' hran hw => ⟨hran, c, hc, .inl ⟨rfl, hw, ?_⟩⟩
  · rw [Nat.zero_add] at hnum
    have hcn : 0 ≤ num ∧ (c)[num.toNat]? = some v := by
      rw [← hnum]
      exact ⟨Int.natCast_nonneg j, hj⟩
    have hv : v ∈ c := List.mem_of_getElem? hj
    unfold restoreVersion
    refine wp_restore hcore h.live h.audited (hchain.mem hv) (hfor v hv) (fun new s3 hr => ?_)
      (fun hfew => hout ⟨c, v, hc, hcn.1, hcn.2, by rw [← h.avail]; exact hfew⟩)
      (fun hnot => hlog fun hstock => hnot (h.began hstock.1 hstock.2))
    have hrest : { s3.rest with versions := s'.versions } = s'.rest := by
      rw [hr.rest]
      rfl
    have hvers : s3.versions = s'.versions := (congrArg Fs.versions hr.rest :)
    have h3 := h.held.setDin hr.core hr.icache rfl hrest (hvers ▸ List.prefix_rfl)
    rw [wp_bind]
    refine h3.wp_iunlockput_idle (h.idle.of_written hr.icache hr.dinode rfl) fun s4 h4 hpeek4 => ?_
    rw [wp_bind]
    exact h4.endOp fun hran _ => ⟨hran, c, hc,
      .inr ⟨rfl, v, new, hcn.1, hcn.2, h.reverted hcore (hchain.mem hv) hr hpeek4⟩⟩
  · rintro ⟨hnn, hlt⟩
    refine hne num.toNat (by omega) ?_
    rw [Nat.zero_add]
    exact Int.toNat_of_nonneg hnn

section Calls

variable (h : Inv st s) (hq : s.Quiet) (hcwd : ∀ k, cwd = some k → 0 < (s.icache k).ref)
  (hT : total s.hold + 2 ≤ T)

include h hq hcwd hT

theorem sysVersionCreate_spec (args : Option (List UInt8 × List UInt8)) :
    wp (sysVersionCreate cwd args) (fun r s' => Ran st [] s s' ∧
      (r = -1 ∧ Watched s s' ∧ (∀ path desc, args = some (path, desc) → s.names cwd path = none) ∨
        r = 0 ∧ ∃ path desc i v, args = some (path, desc) ∧ s.names cwd path = some i ∧
          Saved i desc v s s')) (Halts T) s := by
  obtain ⟨lg, hcore⟩ := h
  unfold sysVersionCreate
  split
  · exact ⟨.refl ⟨lg, hcore⟩ hq, .inl ⟨rfl, .refl s, by nofun⟩⟩
  rename_i path desc
  rw [wp_bind]
  refine wp_beginOp hq ?_
  refine wp_of_spec ((At.begin hcore).namei hcwd (by simp [hold_setOp]; omega) path)
    (fun _ _ => id) ?_
  rintro r s1 ⟨h1, hpeek1, hres, hidle1⟩
  cases r with
  | none =>
    rw [wp_bind]
    refine h1.endOp fun hran _ => ⟨hran, .inl ⟨rfl, hpeek1.watched, fun path' desc' heq => ?_⟩⟩
    obtain ⟨rfl, -⟩ := Prod.mk.inj (Option.some.inj heq)
    exact hres.symm
  | some ip =>
    rw [wp_bind]
    refine At.opened h1 hpeek1 (hidle1 ip rfl) hres
      (fun _ => Halt.Benign.halts ⟨by decide, by decide⟩)
      (fun _ _ => Halt.Benign.halts ⟨by decide, by decide⟩) fun i s2 hi h2 => ?_
    obtain ⟨lg2, hcore2⟩ := h2.held.core
    refine wp_of_spec (versionCreate_spec hcore2 h2.live h2.audited (fun _ _ he => he.halts) desc 0)
      (fun _ _ => id) ?_
    rintro _ s3 ⟨v, bs, rfl, hlabel, hv⟩
    have h3 := h2.held.setDin hv.core hv.icache rfl hv.rest (hv.versions ▸ List.prefix_append ..)
    rw [wp_bind]
    refine h3.wp_iunlockput_idle (h2.idle.of_written hv.icache hv.dinode rfl) fun s4 h4 hpeek4 => ?_
    rw [wp_bind]
    exact h4.endOp fun hran _ =>
      ⟨hran, .inr ⟨if_neg hv.ne, path, desc, i, v, rfl, hi, h2.saved hcore2 hv hlabel hpeek4⟩⟩

theorem sysVersionList_spec (args : Option (List UInt8 × ℤ)) :
    wp (sysVersionList cwd args) (fun r s' => Ran st [] s s' ∧ Watched s s' ∧
      (r = none ∨ ∃ path max i c, args = some (path, max) ∧ s.names cwd path = some i ∧
        Chain s.versions (s.inodes i).versionHead c ∧
        r = some ((c.take max.toNat).mapIdx fun j v => v.info j))) (Halts T) s := by
  obtain ⟨lg, hcore⟩ := h
  unfold sysVersionList
  split
  · exact ⟨.refl ⟨lg, hcore⟩ hq, .refl s, .inl rfl⟩
  rename_i path max
  rw [wp_bind]
  refine wp_beginOp hq ?_
  refine wp_of_spec ((At.begin hcore).namei hcwd (by simp [hold_setOp]; omega) path)
    (fun _ _ => id) ?_
  rintro r s1 ⟨h1, hpeek1, hres, hidle1⟩
  cases r with
  | none =>
    rw [wp_bind]
    exact h1.endOp fun hran _ => ⟨hran, hpeek1.watched, .inl rfl⟩
  | some ip =>
    rw [wp_bind]
    refine At.opened h1 hpeek1 (hidle1 ip rfl) hres
      (fun _ => Halt.Benign.halts ⟨by decide, by decide⟩)
      (fun _ _ => Halt.Benign.halts ⟨by decide, by decide⟩) fun i s2 hi h2 => ?_
    obtain ⟨lg2, hcore2⟩ := h2.held.core
    obtain ⟨c, hchain, -⟩ := (hcore2.node_of_live h2.live).chain
    rw [wp_bind]
    refine wp_versionList hcore2 h2.audited hchain max ?_
    rw [wp_bind]
    refine h2.held.wp_iunlockput_idle h2.idle fun s3 h3 hpeek3 => ?_
    rw [wp_bind]
    refine h3.endOp fun hran _ =>
      ⟨hran, (h2.peeked.trans (hpeek3.anti h2.held.sub_aRef_le)).watched, .inr ?_⟩
    refine ⟨path, max, i, c, rfl, hi, ?_, rfl⟩
    rw [← h2.versions, ← h2.din]
    exact hchain

theorem sysVersionRestore_spec (args : Option (List UInt8 × ℤ)) :
    wp (sysVersionRestore cwd args) (fun r s' => Ran st [] s s' ∧
      (r = -1 ∧ Watched s s' ∧ (∀ path num, args = some (path, num) → s.names cwd path = none) ∨
        ∃ path num i, args = some (path, num) ∧ s.names cwd path = some i ∧
          RestoreOutcome i num r s s')) (Halts T) s := by
  obtain ⟨lg, hcore⟩ := h
  unfold sysVersionRestore
  split
  · exact ⟨.refl ⟨lg, hcore⟩ hq, .inl ⟨rfl, .refl s, by nofun⟩⟩
  rename_i path num
  rw [wp_bind]
  refine wp_beginOp hq ?_
  refine wp_of_spec ((At.begin hcore).namei hcwd (by simp [hold_setOp]; omega) path)
    (fun _ _ => id) ?_
  rintro r s1 ⟨h1, hpeek1, hres, hidle1⟩
  cases r with
  | none =>
    rw [wp_bind]
    refine h1.endOp fun hran _ => ⟨hran, .inl ⟨rfl, hpeek1.watched, fun path' num' heq => ?_⟩⟩
    obtain ⟨rfl, -⟩ := Prod.mk.inj (Option.some.inj heq)
    exact hres.symm
  | some ip =>
    rw [wp_bind]
    refine At.opened h1 hpeek1 (hidle1 ip rfl) hres
      (fun _ => Halt.Benign.halts ⟨by decide, by decide⟩)
      (fun _ _ => Halt.Benign.halts ⟨by decide, by decide⟩) fun i s2 hi h2 => ?_
    rw [wp_bind, wp_get, wp_bind, wp_inode]
    refine wp_mono (h2.wp_restoreWalk num (fun _ _ => benign_ballocOut.halts)
      fun _ _ _ he => he.benign.halts) (fun r s' hp => ⟨hp.1, .inr ⟨path, num, i, rfl, hi, hp.2⟩⟩)
      fun _ _ => id

end Calls

end ChronoFS
