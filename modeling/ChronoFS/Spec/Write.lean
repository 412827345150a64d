import ChronoFS.Spec.Content

/-!
# Functions that change an inode

`writei`, and the short sequences of `sysfile.c` that set a field of an inode and write it to disk.
Each begins and ends with the invariant. What it did to the file is in the statement: `Wrote` for
`writei`.
-/

namespace ChronoFS

open Function

variable {st : Bool} {w fr : Option ℕ} {lg lg' lg'' : ℕ → Dinode} {hand : List ℕ} {s s' s'' : Fs}
  {k : Slot} {i b bn n off : ℕ} {E : Halt → Fs → Prop} {H : Slot → ℤ × ℤ} {src : List UInt8}

/-! ## `writei` -/

theorem map_of_eq {blk : ℕ → Block} {d d' : Dinode} (haddrs : d'.addrs = d.addrs)
    (hind : d'.indirect = d.indirect) : d'.map blk bn = d.map blk bn := by
  unfold Dinode.map
  rw [haddrs, hind]

/-- There is an inode. -/
theorem ninodes_pos (h : s.sb.Valid) : 0 < s.sb.ninodes := lt_of_le_of_lt (Nat.zero_le _) h.root

/-- The blocks of a directory are directory blocks. -/
theorem Core.dirBlock (h : Core st none fr lg hand s) (hk : (s.icache k).Live)
    (hdir : (s.icache k).din.type = T_DIR) (bn : ℕ) : DirBlock s.sb.ninodes (s.content k bn) := by
  have hnode := h.node_of_live hk
  by_cases hz : s.map k bn = 0
  · rw [content_of_not_map hz]
    exact dirBlock_zero (ninodes_pos h.layout)
  · rw [content_of_map hz]
    exact hnode.dir hdir bn hz

/-- The inode after a write is well formed, with the size that the write gives it. -/
theorem Written.node (hw : Written st fr hand k src off n lg s lg' s')
    (h : Core st none fr lg hand s) (hk : (s.icache k).Live) (hn : n = src.length)
    (hoff : off ≤ (s.icache k).din.size.toNat)
    (hdir : (s.icache k).din.type = T_DIR →
      DirWrite s.sb.ninodes fr (s.icache k).inum.toNat src off) {d : Dinode}
    (haddrs : d.addrs = (s'.icache k).din.addrs) (hind : d.indirect = (s'.icache k).din.indirect)
    (htype : d.type = (s.icache k).din.type)
    (hhead : d.versionHead = (s.icache k).din.versionHead)
    (hsize : d.size.toNat = max (s.icache k).din.size.toNat (off + n))
    (hend : off + n ≤ MAXFILE * BSIZE) :
    NodeOk st s.sb.ninodes s'.view.block s.versions fr (s.icache k).inum.toNat d := by
  have hnode := h.node_of_live hk
  have hmap : ∀ bn, d.map s'.view.block bn = s'.map k bn := fun bn => map_of_eq haddrs hind
  have hkeep : ∀ bn, s.map k bn ≠ 0 → s'.map k bn ≠ 0 := by
    intro bn hbn
    rw [hw.grown.map bn hbn]
    exact hbn
  refine hnode.grow htype hhead (fun bn hbn => by rw [hmap]; exact hkeep bn hbn) ?_ ?_ ?_ ?_ ?_
  · intro hd bn hbn
    rw [hmap] at hbn ⊢
    rw [← content_of_map hbn]
    have hdw := hdir hd
    exact hw.dirBlock (hn.trans hdw.len) hdw (h.dirBlock hk hd) bn
  · intro hd hfr
    have hdw := hdir hd
    obtain ⟨hsz, hz, hdot⟩ := hnode.dot hd hfr
    have hz' := hkeep 0 hz
    rw [hmap, ← content_of_map hz']
    have hcont : s.content k 0 = s.view.block ((s.icache k).din.map s.view.block 0) :=
      content_of_map hz
    rw [← hcont] at hdot
    have hfirst := hdw.first hfr
    have hread := hw.dirent (e := 0) (hn.trans hdw.len) hdw.aligned 0 (by norm_num)
    have hne : ¬ 0 * BSIZE + 0 * DIRENT_SIZE = off := by
      rw [Nat.zero_mul, Nat.zero_mul]
      exact (Nat.lt_of_lt_of_le (by decide) hfirst).ne
    rw [if_neg hne] at hread
    refine ⟨by omega, hz', ?_⟩
    unfold HasDot at hdot ⊢
    rw [Nat.zero_mul] at hread
    rw [hread]
    exact hdot
  · intro hd
    have hdw := hdir hd
    have hal := hnode.aligned hd
    have hoffal := hdw.aligned
    have hlen := hdw.len
    simp only [DIRENT_SIZE] at *
    omega
  · rw [hsize]
    exact max_le hnode.bound hend
  · intro bn hfull hbn
    rw [hmap]
    by_cases hlow : bn * BSIZE < (s.icache k).din.size.toNat
    · exact hkeep bn (hnode.holes bn hfull hlow)
    · -- the block is past the old size, so it was written
      refine hw.mapped bn ⟨?_, ?_, ?_⟩
      · omega
      · simp only [BSIZE] at *
        omega
      · omega

/-- What a `writei` that succeeds does. -/
structure Wrote (st : Bool) (fr : Option ℕ) (hand : List ℕ) (k : Slot) (src : List UInt8) (off : ℕ)
    (lg : ℕ → Dinode) (s : Fs) (lg' : ℕ → Dinode) (s' : Fs) : Prop where
  /-- The invariant holds. -/
  core : Core st none fr lg' hand s'
  /-- Nothing else changed. -/
  within : Within k s s'
  /-- The other inodes count as before. -/
  others : ∀ j, j ≠ (s.icache k).inum.toNat → lg' j = lg j
  /-- The inode has the same type, links and versions. -/
  label : { (s'.icache k).din with
    size := (s.icache k).din.size
    addrs := (s.icache k).din.addrs
    indirect := (s.icache k).din.indirect } = (s.icache k).din
  /-- The size grows to the end of the range. -/
  size : (s'.icache k).din.size.toNat = max (s.icache k).din.size.toNat (off + src.length)
  /-- The bytes of the range are those of `src`, the others are the same. -/
  byteAt : ∀ x, s'.byteAt k x =
    if off ≤ x ∧ x < off + src.length then src.getD (x - off) 0 else s.byteAt k x
  /-- Every block of the range has an address. -/
  mapped : ∀ bn, Touched off src.length bn → s'.map k bn ≠ 0
  /-- The file has the blocks that it had. -/
  map : ∀ bn, s.map k bn ≠ 0 → s'.map k bn = s.map k bn
  /-- The blocks of others are as before. -/
  frame : Framed k s s'
  /-- So are the other inodes on disk. -/
  dinode : ∀ j, j ≠ (s.icache k).inum.toNat → s'.view.dinode j = s.view.dinode j

theorem Wrote.type (h : Wrote st fr hand k src off lg s lg' s') :
    (s'.icache k).din.type = (s.icache k).din.type := (congrArg Dinode.type h.label :)

theorem Wrote.versionHead (h : Wrote st fr hand k src off lg s lg' s') :
    (s'.icache k).din.versionHead = (s.icache k).din.versionHead :=
  (congrArg Dinode.versionHead h.label :)

theorem Wrote.kept (h : Wrote st fr hand k src off lg s lg' s') (hcore : Core st none fr lg hand s)
    (hk : (s.icache k).Live) : Kept st fr hand s s' := by
  refine ⟨⟨lg', h.core⟩, h.within.hold, h.within.steady h.type,
    h.within.ordinary hcore h.core hk h.others h.type h.versionHead ?_⟩
  rw [UInt32.le_iff_toNat_le, h.size]
  exact Nat.le_max_left ..

/-- The bytes of a file depend on its blocks, not on the rest of the inode. -/
theorem byteAt_commit (h : s.sb.Valid) (hi : (s.icache k).inum.toNat < s.sb.ninodes) {d : Dinode}
    (haddrs : d.addrs = (s.icache k).din.addrs) (hind : d.indirect = (s.icache k).din.indirect) :
    (∀ bn, (s.commit k d).map k bn = s.map k bn) ∧
      ∀ bn, (s.commit k d).content k bn = s.content k bn := by
  have hview := view_commit h hi d
  have hmap : ∀ bn, (s.commit k d).map k bn = s.map k bn := by
    intro bn
    unfold Fs.map
    rw [hview, icache_commit, update_self]
    exact map_of_eq haddrs hind
  refine ⟨hmap, fun bn => ?_⟩
  change (if (s.commit k d).map k bn = 0 then _ else
    (s.commit k d).view.block ((s.commit k d).map k bn)) = _
  rw [hmap, hview]
  rfl

theorem growSize_spec (h : Core st none fr lg hand s) (hk : (s.icache k).Live)
    (hE : ∀ e s', e.Benign → E e s') {off n : UInt32} (hn : n.toNat = src.length)
    (hoff : off.toNat ≤ (s.icache k).din.size.toNat)
    (hend : (off + n).toNat = off.toNat + n.toNat) (hmaxfile : off.toNat + n.toNat ≤ MAXFILE * BSIZE)
    (hdir : (s.icache k).din.type = T_DIR →
      DirWrite s.sb.ninodes fr (s.icache k).inum.toNat src off.toNat)
    (hw : Written st fr hand k src off.toNat n.toNat lg s lg' s') :
    wp (growSize k n (off + n)) (fun _ s'' => ∃ lg'',
      Wrote st fr hand k src off.toNat lg s lg'' s'') E s' := by
  have hwin := hw.win
  have hinum := hw.grown.within.inum
  have hsize := hw.grown.below.size
  obtain ⟨hlg, hsync, htype⟩ := h.cache.cached k hk (by nofun)
  unfold growSize
  rw [wp_bind, wp_inode, wp_ite]
  refine ⟨fun hgrow => ?_, fun hstay => ?_⟩
  · -- the size grows, and the inode goes to disk
    refine wp_commit hwin.audited ?_ fun e s' he _ => hE e s' he.benign
    have hgt : (s.icache k).din.size.toNat < off.toNat + n.toNat := by
      have := UInt32.lt_iff_toNat_lt.mp hgrow.2
      rw [hsize, hend] at this
      exact this
    have hlt := hwin.core.cache.inum k hwin.live.1
    obtain ⟨hmap, hcont⟩ := byteAt_commit (k := k)
      (d := { (s'.icache k).din with size := off + n }) hwin.core.layout hlt rfl rfl
    have hcore := hwin.commit { (s'.icache k).din with size := off + n } rfl rfl rfl (by
        change (s'.icache k).din.type ≠ 0
        rw [hw.grown.below.type]
        exact htype) (by
        rw [hinum, hw.grown.within.sb, hw.grown.within.versions]
        refine hw.node h hk hn hoff hdir rfl rfl hw.grown.below.type hw.grown.below.versionHead ?_
          hmaxfile
        change (off + n).toNat = _
        omega)
    refine ⟨_, hcore, hw.grown.within.trans (within_commit ..), fun j hj => ?_, ?_, ?_, fun x => ?_,
      fun bn hbn => ?_, fun bn hbn => ?_, hw.grown.frame.trans fun b hb hnot => ?_,
      fun j hj => ?_⟩
    · rw [hinum, update_of_ne hj]
      exact hw.grown.others j hj
    · rw [icache_commit, update_self]
      have := hw.grown.below.rest
      rw [← this]
    · rw [icache_commit, update_self]
      change (off + n).toNat = _
      omega
    · rw [← hn, ← hw.byteAt x]
      unfold Fs.byteAt
      rw [hcont]
    · rw [hmap]
      exact hw.mapped bn (hn ▸ hbn)
    · rw [hmap]
      exact hw.grown.map bn hbn
    · rw [view_commit hwin.core.layout hlt]
      refine ⟨rfl, hb, ?_⟩
      rintro ⟨h0, ⟨bn, hbn⟩ | hind⟩
      · exact hnot ⟨h0, .inl ⟨bn, (hmap bn).symm.trans hbn⟩⟩
      · rw [icache_commit, update_self] at hind
        exact hnot ⟨h0, .inr hind⟩
    · rw [view_commit hwin.core.layout hlt, ← hw.grown.dinode]
      exact update_of_ne (by rw [hinum]; exact hj) ..
  · rw [wp_pure]
    have hle : n.toNat = 0 ∨ off.toNat + n.toNat ≤ (s.icache k).din.size.toNat := by
      rw [hsize] at hstay
      by_contra hc
      rw [not_or] at hc
      refine hstay ⟨UInt32.lt_iff_toNat_lt.mpr (Nat.pos_of_ne_zero hc.1), ?_⟩
      refine UInt32.lt_iff_toNat_lt.mpr ?_
      rw [hend]
      omega
    have hmax : (s'.icache k).din.size.toNat =
        max (s.icache k).din.size.toNat (off.toNat + n.toNat) := by
      rw [hsize]
      omega
    have hcore : Core st none fr lg' hand s' := by
      by_cases hfull : Full st (s.icache k).din
      · -- every block of the range was there, and the copy has not changed
        have hnode := h.node_of_live hk
        obtain ⟨hdin, -, -⟩ := hw.same fun bn hbn =>
          hnode.noHoles hfull bn (by unfold Touched at hbn; omega)
        refine hwin.core.closeWindow hwin.live rfl hwin.eq ?_ ?_ ?_
        · rw [hw.grown.dinode, hinum, hdin]
          exact hsync
        · rw [hdin]
          exact htype
        · rw [hwin.eq, hinum, hw.grown.within.sb, hw.grown.within.versions]
          exact hw.node h hk hn hoff hdir rfl rfl hw.grown.below.type hw.grown.below.versionHead
            hmax hmaxfile
      · exact h.closeGrown hk hwin hw.grown hfull
    refine ⟨lg', hcore, hw.grown.within, hw.grown.others, ?_, ?_, ?_, ?_, hw.grown.map,
      hw.grown.frame, fun j _ => by rw [hw.grown.dinode]⟩
    · rw [← hw.grown.below.rest]
    · rw [← hn]
      exact hmax
    · rw [← hn]
      exact hw.byteAt
    · rw [← hn]
      exact hw.mapped

/-- `writei` keeps the invariant, and writes the bytes if it succeeds. -/
theorem writei_spec (h : Core st none fr lg hand s) (hk : (s.icache k).Live) (ha : s.Audited k)
    (hE : ∀ e s', e.Benign → E e s') {off : UInt32} (hlen : src.length < 2 ^ 32)
    (hdir : (s.icache k).din.type = T_DIR →
      DirWrite s.sb.ninodes fr (s.icache k).inum.toNat src off.toNat) :
    wp (writei k src off) (fun r s' => Kept st fr hand s s' ∧
      ((s.icache k).din.type ≠ T_DEV → r = none ∧ s' = s ∨
        r = some src.length ∧ ∃ lg', Wrote st fr hand k src off.toNat lg s lg' s')) E s := by
  have hn : (UInt32.ofNat src.length).toNat = src.length := UInt32.toNat_ofNat_of_lt hlen
  have hfail : Kept st fr hand s s ∧ ((s.icache k).din.type ≠ T_DEV → (none : Option ℕ) = none ∧ s = s ∨
      none = some src.length ∧ ∃ lg', Wrote st fr hand k src off.toNat lg s lg' s) :=
    ⟨.refl h, fun _ => .inl ⟨rfl, rfl⟩⟩
  unfold writei
  dsimp only
  rw [wp_bind, wp_uses ha, wp_bind, wp_inode, wp_ite]
  refine ⟨fun hdev => ?_, fun _ => ?_⟩
  · rw [wp_ite]
    refine ⟨fun _ => hfail, fun _ => ?_⟩
    exact wp_mono (consolewrite_spec h hk.1 hE _) (fun _ s' hs => ⟨hs, fun hd => absurd hdev hd⟩)
      fun _ _ => id
  · rw [wp_ite]
    refine ⟨fun _ => hfail, fun hgood => ?_⟩
    rw [wp_ite]
    refine ⟨fun _ => hfail, fun hfits => ?_⟩
    rw [not_or] at hgood
    have hoff : off.toNat ≤ (s.icache k).din.size.toNat := by
      have := hgood.1
      rw [gt_iff_lt, UInt32.lt_iff_toNat_lt] at this
      omega
    refine wp_of_spec (writeChunks_spec (h.openWin hk ha) hE le_rfl src) (fun _ _ => id) ?_
    rintro _ s1 ⟨lg1, hw⟩
    refine wp_of_spec (growSize_spec h hk hE hn hoff (toNat_add_of_not_lt hgood.2)
      (by rw [← toNat_add_of_not_lt hgood.2]; exact Nat.not_lt.mp hfits) hdir hw)
      (fun _ _ => id) ?_
    rintro _ s2 ⟨lg2, hwrote⟩
    rw [wp_pure, hn]
    exact ⟨hwrote.kept h hk, fun _ => .inr ⟨rfl, lg2, hwrote⟩⟩

/-! ## Changes to the other fields -/

/-- Fields of an inode other than its type, its size, its blocks and its versions are changed, and
the inode is written to disk. -/
theorem Core.commit (h : Core st none fr lg hand s) (hk : (s.icache k).Live) (d : Dinode)
    (htype : d.type = (s.icache k).din.type) (hsize : d.size = (s.icache k).din.size)
    (haddrs : d.addrs = (s.icache k).din.addrs) (hind : d.indirect = (s.icache k).din.indirect)
    (hhead : d.versionHead = (s.icache k).din.versionHead) :
    Core st none fr (update lg (s.icache k).inum.toNat d) hand (s.commit k d) := by
  obtain ⟨hlg, -, h0⟩ := h.cache.cached k hk (by nofun)
  have hnode := h.node_of_live hk
  have hmap : ∀ bn, d.map s.view.block bn = (s.icache k).din.map s.view.block bn :=
    fun bn => map_of_eq haddrs hind
  refine ((h.openWindow hk).relabel d (by rw [hlg]; exact haddrs) (by rw [hlg]; exact hind)
    (fun _ => htype ▸ h0) (by rw [hlg]; exact hhead)).commitWin hk (update_self ..) (htype ▸ h0) ?_
  refine hnode.grow htype hhead (fun bn hbn => by rw [hmap]; exact hbn) ?_ ?_
    (fun hd => hsize ▸ hnode.aligned hd) (hsize ▸ hnode.bound) fun bn hfull hbn => ?_
  · intro hd bn
    rw [hmap]
    exact hnode.dir hd bn
  · rw [hmap, hsize]
    exact hnode.dot
  · rw [hmap]
    rw [hsize] at hbn
    exact hnode.holes bn hfull hbn

theorem Core.commit_kept (h : Core st none fr lg hand s) (hk : (s.icache k).Live) (d : Dinode)
    (htype : d.type = (s.icache k).din.type) (hsize : d.size = (s.icache k).din.size)
    (haddrs : d.addrs = (s.icache k).din.addrs) (hind : d.indirect = (s.icache k).din.indirect)
    (hhead : d.versionHead = (s.icache k).din.versionHead) : Kept st fr hand s (s.commit k d) := by
  have hcore := h.commit hk d htype hsize haddrs hind hhead
  have hslot : ((s.commit k d).icache k).din = d := by rw [icache_commit, update_self]
  have htype' : ((s.commit k d).icache k).din.type = (s.icache k).din.type := by
    rw [hslot]
    exact htype
  refine ⟨⟨_, hcore⟩, (within_commit s k d).hold, (within_commit s k d).steady htype',
    (within_commit s k d).ordinary h hcore hk (fun j hj => update_of_ne hj ..) htype' ?_ ?_⟩
  · rw [hslot]
    exact hhead
  · rw [hslot, hsize]
    exact UInt32.le_refl _

/-- `ip->nlink += n; iupdate(ip)`. -/
theorem addLinks_spec (h : Core st none fr lg hand s) (hk : (s.icache k).Live) (ha : s.Audited k)
    (hE : ∀ e s', e.Benign → E e s') (n : Int16) :
    wp (addLinks k n) (fun _ s' => Kept st fr hand s s' ∧ Within k s s') E s := by
  unfold addLinks
  refine wp_commit ha ?_ fun e s' he _ => hE e s' he.benign
  exact ⟨h.commit_kept hk _ rfl rfl rfl rfl rfl, within_commit ..⟩

end ChronoFS
