import ChronoFS.Spec.Version

/-!
# `version_create`

The specification of `version_create` (`versionCreate_spec`): a version node follows the file's
latest one, with the file's size and a copy of each direct block that the file has, and the file is
otherwise the same. The copies are packed: block `j` of the version is the `j`th direct block that
is there. The blocks behind the indirect block are not copied.
-/

namespace ChronoFS

open Function

variable {st : Bool} {fr : Option ℕ} {lg lg' : ℕ → Dinode} {hand : List ℕ} {s s' : Fs}
  {k : Slot} {i b n : ℕ} {E : Halt → Fs → Prop} {d : Dinode} {blk : ℕ → Block}
  {vs : List Version} {v : Version}

/-- The direct blocks that are there, all of them. -/
def Dinode.present (d : Dinode) : List (Fin NDIRECT) := d.directs (List.finRange NDIRECT)

theorem length_present_le (d : Dinode) : d.present.length ≤ NDIRECT := by
  have := List.length_filter_le (fun j => decide (d.addrs j ≠ 0)) (List.finRange NDIRECT)
  rwa [List.length_finRange] at this

theorem addrs_present {j : Fin NDIRECT} (h : j ∈ d.present) : d.addrs j ≠ 0 := by
  simpa using (List.mem_filter.mp h).2

/-- If the first `m` direct blocks are there, they are the first that are there. -/
theorem getElem?_present {m : ℕ} (h : ∀ j : Fin NDIRECT, j.val < m → d.addrs j ≠ 0) {j : ℕ}
    (hj : j < m) (hlt : j < NDIRECT) : d.present[j]? = some ⟨j, hlt⟩ := by
  have hsplit : d.present = (List.finRange NDIRECT).take m ++
      d.directs ((List.finRange NDIRECT).drop m) := by
    unfold Dinode.present Dinode.directs
    conv_lhs => rw [← List.take_append_drop m (List.finRange NDIRECT), List.filter_append]
    congr 1
    refine List.filter_eq_self.mpr fun x hx => ?_
    obtain ⟨a, ha, rfl⟩ := List.mem_iff_getElem.mp hx
    rw [List.length_take, List.length_finRange] at ha
    rw [List.getElem_take, List.getElem_finRange]
    exact decide_eq_true (h _ (by show a < m; omega))
  have hlen : j < ((List.finRange NDIRECT).take m).length := by
    rw [List.length_take, List.length_finRange]
    omega
  rw [hsplit, List.getElem?_append_left hlen, List.getElem?_take, if_pos hj,
    List.getElem?_eq_getElem (by rw [List.length_finRange]; exact hlt), List.getElem_finRange]
  rfl

theorem lt_length_present {m : ℕ} (h : ∀ j : Fin NDIRECT, j.val < m → d.addrs j ≠ 0)
    (hm : m ≤ NDIRECT) : m ≤ d.present.length := by
  by_contra hlt
  have hj := getElem?_present h (not_le.mp hlt) (by omega)
  rw [List.getElem?_eq_none (le_refl _)] at hj
  cases hj

/-- A version whose blocks are copies of the file's direct blocks can be restored. -/
theorem VersionFor.of_copy (hnode : NodeOk st n blk vs none i d)
    (hsize : v.vnode.fileSize = d.size) (hn : v.nblocks = d.present.length)
    (hcontent : ∀ j, (hj : j < d.present.length) →
      v.content j = blk (d.addrs (d.present.get ⟨j, hj⟩)).toNat) :
    VersionFor st n blk i d v := by
  have hmap : ∀ j : Fin NDIRECT, d.map blk j = (d.addrs j).toNat := fun j => map_of_lt _ _ j.isLt
  have hcopy : ∀ j, (hj : j < d.present.length) →
      d.map blk (d.present.get ⟨j, hj⟩) ≠ 0 ∧
        v.content j = blk (d.map blk (d.present.get ⟨j, hj⟩)) := by
    intro j hj
    rw [hmap, hcontent j hj]
    exact ⟨toNat_ne_zero.mpr (addrs_present (List.get_mem _ _)), rfl⟩
  refine ⟨fun hdir => ?_, fun hdir => hsize ▸ hnode.aligned hdir, fun bn hlt hbn => ?_,
    fun hfull bn _ hbn => ?_⟩
  · obtain ⟨hle, hmap0, hdot⟩ := hnode.dot hdir (by nofun)
    have hfirst : ∀ j : Fin NDIRECT, j.val < 1 → d.addrs j ≠ 0 := by
      intro j hj
      have : d.map blk j = d.map blk 0 := by rw [Nat.lt_one_iff.mp hj]
      refine toNat_ne_zero.mp ?_
      rw [← hmap, this]
      exact hmap0
    have hpos : 0 < d.present.length := lt_length_present hfirst (by decide)
    have hget : d.present.get ⟨0, hpos⟩ = ⟨0, by decide⟩ := by
      have h0 := getElem?_present hfirst zero_lt_one (by decide)
      rw [List.getElem?_eq_getElem hpos] at h0
      exact Option.some.inj h0
    refine ⟨hsize ▸ hle, hn ▸ hpos, ?_, fun j hj => ?_⟩
    · have h0 := (hcopy 0 hpos).2
      rw [hget] at h0
      rw [h0]
      exact hdot
    · obtain ⟨hne, heq⟩ := hcopy j (hn ▸ hj)
      rw [heq]
      exact hnode.dir hdir _ hne
  · rw [hsize] at hbn
    rw [hn]
    refine lt_length_present (m := bn + 1) (fun j hj => toNat_ne_zero.mp ?_) hlt
    rw [← hmap]
    refine hnode.holes j (.inl j.isLt) (lt_of_le_of_lt ?_ hbn)
    exact Nat.mul_le_mul_right _ (Nat.lt_succ_iff.mp hj)
  · rw [hsize] at hbn
    exact hnode.holes bn (.inr hfull) hbn

/-- The file with its new version. -/
theorem NodeOk.push {vb : ℕ} {bs : List ℕ} (h : NodeOk st n blk vs fr i d)
    (hv : NewVersion st n blk i d vb bs v) :
    NodeOk st n blk (vs ++ [v]) fr i { d with versionHead := v.node } := by
  obtain ⟨c, hc, hall⟩ := h.chain
  refine ⟨h.dir, h.dot, h.aligned, h.bound, h.holes, v :: c, Chain.cons (hv.prev ▸ hc), fun u hu => ?_⟩
  rcases List.mem_cons.mp hu with rfl | hold
  · exact ⟨hv.ok.dir, hv.ok.aligned, hv.ok.direct, hv.ok.full⟩
  · exact ⟨(hall u hold).dir, (hall u hold).aligned, (hall u hold).direct, (hall u hold).full⟩

/-- What `version_create` did to the inode in slot `k`: the version `v`, with its data in the blocks
`bs`. -/
structure Versioned (st : Bool) (hand : List ℕ) (k : Slot) (v : Version) (bs : List ℕ)
    (lg : ℕ → Dinode) (s s' : Fs) : Prop where
  /-- The invariant holds. -/
  core : Core st none none
    (update lg (s.icache k).inum.toNat { (s.icache k).din with versionHead := v.node }) hand s'
  /-- The inode in memory differs in its version head. -/
  icache : s'.icache = update s.icache k
    { s.icache k with din := { (s.icache k).din with versionHead := v.node } }
  /-- So does the inode on disk. -/
  dinode : s'.view.dinode = update s.view.dinode (s.icache k).inum.toNat
    { (s.icache k).din with versionHead := v.node }
  /-- The version is recorded. -/
  versions : s'.versions = s.versions ++ [v]
  /-- Nothing else is changed, apart from the disk, the log and the reference-count table. -/
  rest : { s'.rest with versions := s.versions } = s.rest
  /-- The version has a node. -/
  ne : v.node ≠ 0
  /-- It follows the file's latest version. -/
  prev : v.prev = (s.icache k).din.versionHead
  /-- It has the file's size. -/
  size : v.vnode.fileSize = (s.icache k).din.size
  /-- It has as many blocks as the file has direct blocks. -/
  nblocks : v.nblocks = (s.icache k).din.present.length ∧ bs.length = v.nblocks
  /-- They are copies. -/
  content : ∀ j, (hj : j < (s.icache k).din.present.length) → v.content j =
    s.view.block ((s.icache k).din.addrs ((s.icache k).din.present.get ⟨j, hj⟩)).toNat
  /-- The blocks are different and were free. -/
  fresh : (v.node.toNat :: bs).Nodup ∧
    ∀ b ∈ v.node.toNat :: bs, s.sb.Area b ∧ s.view.used b = false
  /-- Blocks in use are not written. -/
  old : ∀ b, s.view.used b = true → s'.view.block b = s.view.block b
  /-- The new blocks are marked used. -/
  used : ∀ b, s'.view.used b = true ↔ s.view.used b = true ∨ b ∈ v.node.toNat :: bs
  /-- The new blocks, their bits in the free map and the inode are logged. -/
  logged : Logged (fun x => (∃ b ∈ v.node.toNat :: bs, x = s.sb.bblock b ∨ x = b) ∨
    x = s.sb.iblock (s.icache k).inum.toNat) s s'

/-- The node that `version_create` starts from. -/
def emptyNode (timestamp : UInt32) (d : Dinode) (description : List UInt8) (snapshotId : UInt32) :
    VersionNode where
  timestamp
  prevVersion := d.versionHead
  dataBlocks := fun _ => 0
  nblocks := 0
  fileSize := d.size
  refcount := 1
  description := describe description
  checksum := 0
  snapshotId

/-- The version that is read back from the blocks that the loop and the last write left. -/
theorem NewVersion.read {vb : ℕ} {bs : List ℕ} (hvb : (UInt32.ofNat vb).toNat = vb)
    (hbs : ∀ b ∈ bs, (UInt32.ofNat b).toNat = b) (hle : bs.length ≤ VNODE_DATA_BLOCKS)
    {node : VersionNode} {bp : Block} {ts : UInt32} {desc : List UInt8} {sid sum : UInt32}
    (hnode : node = { bs.foldl VersionNode.push (emptyNode ts d desc sid) with checksum := sum })
    (hblk : ∀ b ∈ vb :: bs, s.disk b = blk b) (hvnode : blk vb = bp.putVnode node) :
    let v := s.version (.ofNat vb)
    v.node.toNat = vb ∧ blk vb = v.block ∧ v.prev = d.versionHead ∧ v.vnode.fileSize = d.size ∧
      (v.vnode.timestamp = ts ∧ v.vnode.description = describe desc) ∧ v.nblocks = bs.length ∧ (∀ j, v.dataBlock j = bs.getD j 0) ∧
      ∀ j < bs.length, blk (bs.getD j 0) = v.content j := by
  intro v
  have hlen : bs.length < 2 ^ 32 := lt_of_le_of_lt hle (by decide)
  obtain ⟨hn, hdata, hprev, hsize⟩ := foldl_push bs (emptyNode ts d desc sid)
    (by show (0 : UInt32).toNat + bs.length < 2 ^ 32; simpa using hlen)
  have hzero : (emptyNode ts d desc sid).nblocks.toNat = 0 := rfl
  rw [hzero, Nat.zero_add] at hn
  have hblock : v.block = bp.putVnode node := by
    show s.disk (UInt32.ofNat vb).toNat = _
    rw [hvb, hblk vb List.mem_cons_self, hvnode]
  have hv : v.vnode = node := by
    show v.block.getVnode = node
    rw [hblock, Block.getVnode_putVnode]
  have hnb : v.nblocks = bs.length := by
    show v.vnode.nblocks.toNat = _
    rw [hv, hnode]
    exact hn
  have hdb : ∀ j : Fin VNODE_DATA_BLOCKS, j.val < bs.length →
      (v.vnode.dataBlocks j).toNat = bs.getD j 0 := by
    intro j hj
    have hj' := hdata j
    rw [hzero, if_neg (Nat.not_lt_zero _), Nat.zero_add, if_pos hj, Nat.sub_zero] at hj'
    rw [hv, hnode]
    show ((bs.foldl VersionNode.push (emptyNode ts d desc sid)).dataBlocks j).toNat = _
    rw [hj', hbs _ (getD_mem hj)]
  have hdblock : ∀ j, v.dataBlock j = bs.getD j 0 := by
    intro j
    unfold Version.dataBlock
    rw [hnb]
    by_cases hj : j < bs.length
    · rw [dif_pos (lt_of_lt_of_le hj hle), if_pos hj]
      exact hdb ⟨j, lt_of_lt_of_le hj hle⟩ hj
    · rw [List.getD_eq_default _ _ (not_lt.mp hj)]
      exact dite_eq_right_iff.mpr fun _ => if_neg hj
  refine ⟨hvb, ?_, ?_, ?_, ?_, hnb, hdblock, fun j hj => ?_⟩
  · rw [hblock, hvnode]
  · show v.vnode.prevVersion = _
    rw [hv, hnode]
    exact hprev
  · rw [hv, hnode]
    exact hsize
  · rw [hv, hnode]
    exact foldl_push_label bs (emptyNode ts d desc sid)
  · have hlt : j < VNODE_DATA_BLOCKS := lt_of_lt_of_le hj hle
    have hcontent : v.content j = s.disk (v.vnode.dataBlocks ⟨j, hlt⟩).toNat := by
      refine getD_filterMap_finRange VNODE_DATA_BLOCKS v.nblocks
        (fun i => s.disk (v.vnode.dataBlocks i).toNat) .zero hlt ?_
      rw [hnb]
      exact hj
    rw [hcontent, hdb ⟨j, hlt⟩ hj, hblk _ (List.mem_cons_of_mem _ (getD_mem hj))]

/-- The state after `version_create`, once the node is written. -/
def Fs.pushed (s : Fs) (k : Slot) (vb : ℕ) : Fs :=
  let s' := s.commit k { (s.icache k).din with versionHead := .ofNat vb }
  { s' with versions := s'.versions ++ [s'.version (.ofNat vb)] }

/-- The state once the node is written: the copies `bs` and the node `vb` are in hand. -/
structure Prepared (st : Bool) (hand : List ℕ) (k : Slot) (vb : ℕ) (bs : List ℕ) (x : Block)
    (lg : ℕ → Dinode) (s s' : Fs) : Prop where
  /-- The invariant holds. -/
  core : Core st none none lg (bs.reverse ++ vb :: hand) s'
  /-- The cache is the same. -/
  icache : s'.icache = s.icache
  /-- So is everything else that only `beginOp`, `endOp` and the like change. -/
  rest : s'.rest = s.rest
  /-- No inode is written. -/
  dinode : s'.view.dinode = s.view.dinode
  /-- The blocks are new. -/
  fresh : ∀ b ∈ vb :: bs, s.sb.Area b ∧ s.view.used b = false
  /-- Blocks in use are not written. -/
  old : ∀ b, s.view.used b = true → s'.view.block b = s.view.block b
  /-- The new blocks are marked used. -/
  used : ∀ b, s'.view.used b = true ↔ s.view.used b = true ∨ b ∈ vb :: bs
  /-- The node is in its block. -/
  node : s'.view.block vb = x
  /-- Each copy is one of a direct block. -/
  length : bs.length = (s.icache k).din.present.length
  /-- It holds what that block holds. -/
  data : ∀ j, (hj : j < (s.icache k).din.present.length) → s'.view.block (bs.getD j 0) =
    s.view.block ((s.icache k).din.addrs ((s.icache k).din.present.get ⟨j, hj⟩)).toNat
  /-- The node is not in the reference-count table. -/
  untracked : ∀ e ∈ s'.refcounts, e.valid = true → e.blockNum.toNat ≠ vb
  /-- The new blocks and their bits in the free map are logged. -/
  logged : Logged (fun y => ∃ b ∈ vb :: bs, y = s.sb.bblock b ∨ y = b) s s'

theorem Copied.prepared {vb : ℕ} {bs : List ℕ} {s2 : Fs} (h : Core st none none lg hand s)
    (hk : (s.icache k).Live) (hb : s.sb.Area vb) (hfree : s.view.used vb = false)
    (hc : Copied st none lg (vb :: hand) (s.icache k).din (List.finRange NDIRECT) bs (s.alloc vb) s2)
    (x : Block) : Prepared st hand k vb bs x lg s (s2.wrote vb x) := by
  have hsb : s2.sb = s.sb := hc.same.sb
  have hview : (s2.wrote vb x).view = s2.view.setBlock vb x :=
    view_wrote (hsb ▸ h.layout) (hsb ▸ hb)
  have hused1 : ∀ b, (s.alloc vb).view.used b = true ↔ s.view.used b = true ∨ b = vb :=
    used_alloc h.layout hb
  -- no copy is in the node's block
  have hbs : ∀ b ∈ bs, s.sb.Area b ∧ b ≠ vb ∧ s.view.used b = false := by
    intro b hmem
    obtain ⟨harea, hunused⟩ := hc.fresh b hmem
    refine ⟨harea, (ne_of_used ((hused1 vb).mpr (.inr rfl)) hunused).symm, ?_⟩
    by_contra hne
    rw [(hused1 b).mpr (.inl (Bool.not_eq_false _ ▸ hne))] at hunused
    cases hunused
  have hblock : ∀ b, b ≠ vb → (s2.wrote vb x).view.block b = s2.view.block b := by
    intro b hne
    rw [hview]
    exact update_of_ne hne ..
  have hold : ∀ b, s.view.used b = true → (s2.wrote vb x).view.block b = s.view.block b := by
    intro b hused
    have hne := ne_of_used hused hfree
    rw [hblock b hne, hc.old b ((hused1 b).mpr (.inl hused)), block_alloc_of_ne h.layout hb hne]
  have hlen : bs.length = (s.icache k).din.present.length := by
    have := congrArg List.length hc.data
    rwa [List.length_map, List.length_map] at this
  refine ⟨?_, hc.same.icache, hc.rest, ?_, ?_, hold, ?_, ?_, hlen, fun j hj => ?_, ?_, ?_⟩
  · exact hc.core.write x (.inl (List.mem_append_right _ List.mem_cons_self))
  · rw [hview]
    exact hc.dinode.trans (dinode_alloc h.layout hb)
  · intro b hmem
    rcases List.mem_cons.mp hmem with rfl | hrest
    · exact ⟨hb, hfree⟩
    · exact ⟨(hbs b hrest).1, (hbs b hrest).2.2⟩
  · intro b
    rw [hview]
    show s2.view.used b = true ↔ _
    rw [hc.used, hused1, List.mem_cons, or_assoc]
  · rw [hview]
    exact update_self ..
  · have hj' : j < bs.length := hlen ▸ hj
    have hget : (bs.map s2.view.block)[j]? = _ := congrArg (fun l => l[j]?) hc.data
    rw [List.getElem?_map, List.getElem?_map, List.getElem?_eq_getElem hj',
      List.getElem?_eq_getElem (by exact hj)] at hget
    have hsrc := (h.direct_used hk (addrs_present (List.get_mem _ ⟨j, hj⟩))).2
    rw [hblock _ (hbs _ (getD_mem hj')).2.1, List.getD_eq_getElem _ _ hj']
    exact (Option.some.inj hget).trans (block_alloc_of_ne h.layout hb (ne_of_used hsrc hfree))
  · intro e he hv
    rcases hc.tracks e he hv with ⟨e', he', hv', heq⟩ | hmem
    · rw [← heq]
      exact h.fresh_untracked hb hfree e' he' hv'
    · exact (hbs _ hmem).2.1
  · refine (((logged_alloc s vb).trans hc.logged).trans (logged_wrote s2 vb x)).congr fun y => ?_
    show (∃ b ∈ vb :: bs, _) ↔ ((y = s.sb.bblock vb ∨ y = vb) ∨
      ∃ b ∈ bs, y = s.sb.bblock b ∨ y = b) ∨ y = vb
    simp only [List.mem_cons, exists_eq_or_imp]
    exact ⟨.inl, fun hy => hy.elim id fun heq => .inl (.inr heq)⟩

/-- What the change of the version head adds. -/
theorem Prepared.versioned {vb : ℕ} {bs : List ℕ} {bp : Block} {node : VersionNode} {s3 : Fs}
    {ts : UInt32} {desc : List UInt8} {sid sum : UInt32} (h : Core st none none lg hand s)
    (hk : (s.icache k).Live) (hp : Prepared st hand k vb bs (bp.putVnode node) lg s s3)
    (hnode : node = { bs.foldl VersionNode.push (emptyNode ts (s.icache k).din desc sid) with
      checksum := sum }) :
    ∃ v, v.node = .ofNat vb ∧ (v.vnode.timestamp = ts ∧ v.vnode.description = describe desc) ∧
      Versioned st hand k v bs lg s (s3.pushed k vb) := by
  have hsb : s3.sb = s.sb := (congrArg Fs.sb hp.rest :)
  have hvs : s3.versions = s.versions := (congrArg Fs.versions hp.rest :)
  have hk3 : (s3.icache k).Live := by
    rw [hp.icache]
    exact hk
  have hlt := hp.core.cache.inum k hk3.1
  obtain ⟨hlg, -, htype⟩ := h.cache.cached k hk (by nofun)
  have htoNat : ∀ b ∈ vb :: bs, (UInt32.ofNat b).toNat = b := fun b hb =>
    View.toNat_ofNat_area h.layout (hp.fresh b hb).1
  have hold : ∀ j, (hj : j < (s.icache k).din.present.length) →
      s3.view.block ((s.icache k).din.addrs ((s.icache k).din.present.get ⟨j, hj⟩)).toNat =
        s.view.block ((s.icache k).din.addrs ((s.icache k).din.present.get ⟨j, hj⟩)).toNat :=
    fun j hj => hp.old _ (h.direct_used hk (addrs_present (List.get_mem _ ⟨j, hj⟩))).2
  have hsame : s3.icache k = s.icache k := by rw [hp.icache]
  unfold Fs.pushed
  dsimp only
  rw [hsame]
  generalize hd : { (s.icache k).din with versionHead := UInt32.ofNat vb } = d
  have hview := view_commit hp.core.layout hlt d
  -- the version as the disk has it after `iupdate`
  have hread := NewVersion.read (s := s3.commit k d)
    (htoNat vb List.mem_cons_self) (fun b hb => htoNat b (List.mem_cons_of_mem _ hb))
    (hp.length ▸ length_present_le _) hnode (fun b hb => by
      have harea : (s3.commit k d).sb.Area b := hsb ▸ (hp.fresh b hb).1
      rw [disk_eq_block harea, hview]
      rfl) hp.node
  have hvn : ((s3.commit k d).version (.ofNat vb)).node = .ofNat vb := rfl
  generalize (s3.commit k d).version (.ofNat vb) = v at hread hvn
  obtain ⟨hvb, hblock, hprev, hsize, hlabel, hnb, hdb, hcont⟩ := hread
  have hcopy : ∀ j, (hj : j < (s.icache k).din.present.length) → v.content j =
      s.view.block ((s.icache k).din.addrs ((s.icache k).din.present.get ⟨j, hj⟩)).toNat :=
    fun j hj => (hcont j (hp.length ▸ hj)).symm.trans (hp.data j hj)
  have hnode3 := hp.core.node_of_live hk3
  rw [hsame, hsb, hvs] at hnode3
  have hnew : NewVersion st s.sb.ninodes s3.view.block (s.icache k).inum.toNat (s.icache k).din
      vb bs v :=
    ⟨hvb, hblock, hprev, hnb, hp.length ▸ length_present_le _, hdb, hcont, hsize ▸ hnode3.bound,
      .of_copy hnode3 hsize (hnb.trans hp.length) fun j hj => (hcopy j hj).trans (hold j hj).symm⟩
  obtain ⟨c, hchain, -⟩ := hnode3.chain
  have hpush := (hp.core.openWindow hk3).push (v := v) (c := c) (by rw [hsame, hlg]; exact htype)
    (by rw [hsame, hlg, hsb]; exact hnew) hp.untracked (by rw [hsame, hlg, hvs]; exact hchain)
  rw [hsame, hlg, hvn, hd] at hpush
  -- the inode with its new head goes to disk
  have hok : NodeOk st s.sb.ninodes s3.view.block (s.versions ++ [v]) none
      (s.icache k).inum.toNat d := by
    rw [← hd, ← hvn]
    exact hnode3.push hnew
  have htyped : d.type ≠ 0 := by
    rw [← hd]
    exact htype
  have hinum : (s3.icache k).inum = (s.icache k).inum := by rw [hsame]
  rw [← hinum] at hpush
  generalize hs4 : { s3 with versions := s3.versions ++ [v] } = s4 at hpush
  have hinum4 : s4.icache k = s3.icache k := by rw [← hs4]
  rw [← hinum4] at hpush
  have hcore := hpush.commitWin (k := k) (d := d) (hinum4 ▸ hk3) (update_self ..) htyped (by
    rw [hinum4, ← hs4]
    show NodeOk st s3.sb.ninodes s3.view.block (s3.versions ++ [v]) none (s3.icache k).inum.toNat d
    rw [hsb, hvs, hsame]
    exact hok)
  have hfin : (s.versions ++ [v]) = s3.versions ++ [v] := by rw [hvs]
  refine ⟨v, hvn, hlabel, ?_, ?_, ?_, hfin.symm, ?_, ?_, hprev, hsize, ⟨hnb.trans hp.length, hnb.symm⟩,
    hcopy, ?_, ?_, ?_, ?_⟩
  · rw [hvn, hd, ← hinum, ← hinum4]
    subst hs4
    exact hcore
  · show (s3.commit k d).icache = _
    rw [icache_commit, hsame, hp.icache, hvn, hd]
  · show (s3.commit k d).view.dinode = _
    rw [hview, hinum, hvn, hd]
    exact congrArg (fun f => update f _ d) hp.dinode
  · show { s3.rest with versions := s.versions } = s.rest
    rw [hp.rest]
    rfl
  · rw [hvn]
    refine toNat_ne_zero.mp ?_
    rw [htoNat vb List.mem_cons_self]
    exact View.area_ne_zero h.layout (hp.fresh vb List.mem_cons_self).1
  · rw [hvb]
    refine ⟨?_, hp.fresh⟩
    have hnd := hp.core.own.nodup
    rw [List.nodup_append, List.nodup_reverse, List.nodup_cons] at hnd
    refine List.nodup_cons.mpr ⟨fun hmem => ?_, hnd.1⟩
    exact hnd.2.2 vb (List.mem_reverse.mpr hmem) vb List.mem_cons_self rfl
  · intro b hb
    show (s3.commit k d).view.block b = _
    rw [hview]
    exact hp.old b hb
  · intro b
    show (s3.commit k d).view.used b = true ↔ _
    rw [hview, hvb]
    exact hp.used b
  · have hlog := hp.logged.trans (logged_commit s3 k d)
    rw [hsb, hinum] at hlog
    rw [hvb]
    exact ⟨hlog.logSize, hlog.outstanding, hlog.nodup, hlog.mem⟩

theorem versionCreate_spec (h : Core st none none lg hand s) (hk : (s.icache k).Live)
    (ha : s.Audited k) (hE : ∀ e s', e.Benign → E e s') (desc : List UInt8) (sid : UInt32) :
    wp (versionCreate k desc sid) (fun r s' => ∃ v bs, r = v.node ∧
      (v.vnode.timestamp = s.ticks ∧ v.vnode.description = describe desc) ∧
      Versioned st hand k v bs lg s s') E s := by
  unfold versionCreate
  rw [wp_bind, wp_uses ha, wp_bind]
  refine wp_balloc h.metaUsed (fun vb hb hfree => ?_) (fun _ => hE _ _ benign_ballocOut)
    fun e s' he _ => hE e s' he.benign
  have htoNat := View.toNat_ofNat_area h.layout hb
  have hvb0 : UInt32.ofNat vb ≠ 0 := by
    refine toNat_ne_zero.mp ?_
    rw [htoNat]
    exact View.area_ne_zero h.layout hb
  rw [wp_ite]
  refine ⟨fun heq => absurd heq hvb0, fun _ => ?_⟩
  rw [wp_bind, wp_bread, wp_bind]
  show wp (bind (inode k) _) _ _ (s.alloc vb)
  rw [wp_bind, wp_inode]
  have hcore1 := h.alloc hb hfree
  have hk1 : ((s.alloc vb).icache k).Live := hk
  refine wp_of_spec (copyBlocks_spec hcore1 hk1 hE _ _) (fun _ _ => id) ?_
  rintro vnode s2 ⟨bs, hcopied, hvnode⟩
  have haud2 : s2.Audited k := by
    have hflag : s2.unlocked = s.unlocked := (congrArg Fs.unlocked hcopied.rest :)
    unfold Fs.Audited
    rw [hcopied.same.icache, hflag]
    exact ha
  rw [wp_bind, htoNat]
  refine wp_logWrite ?_ fun e s' he _ => hE e s' he.benign
  refine wp_commit_bind haud2 ?_ fun e s' he _ => hE e s' he.benign
  rw [wp_bind, wp_modify, wp_pure]
  have hprep := hcopied.prepared h hk hb hfree
    (Block.putVnode (s.alloc vb |>.disk vb) { vnode with
      checksum := vnode.timestamp + vnode.fileSize + vnode.nblocks })
  obtain ⟨v, hv, hlabel, hver⟩ := hprep.versioned h hk (by rw [hvnode]; rfl)
  exact ⟨v, bs, hv.symm, hlabel, hver⟩

end ChronoFS
