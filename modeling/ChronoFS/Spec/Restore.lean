import ChronoFS.Spec.VersionCreate

/-!
# Copying a version back

`sys_version_restore` and `sys_recover_file` copy the data blocks of a version to new blocks of an
inode. `CopiedBack` says what the loop leaves: block `j` of the version is in the block `new j`, which
was free, and block `j` of the inode has that address. A version is never read wrongly, since nothing
writes to its blocks (`VersionsOk`), and a new block is none of them. The loop halts only for want of
blocks or of space in the log; both cases say how far it came, so that a caller who knows that there is
enough of both knows that the loop ends.
-/

namespace ChronoFS

open Function

variable {st : Bool} {w fr : Option ℕ} {lg lg' lg₀ : ℕ → Dinode} {hand : List ℕ} {s s' s₀ : Fs}
  {k : Slot} {i b : ℕ} {T : ℤ} {E : Halt → Fs → Prop} {v : Version} {l js : List (Fin NDIRECT)}
  {new : Fin NDIRECT → ℕ}

/-- The inode with new addresses in the places `js`. -/
def Dinode.place (d : Dinode) (js : List (Fin NDIRECT)) (new : Fin NDIRECT → ℕ) : Dinode :=
  { d with addrs := fun j => if j ∈ js then .ofNat (new j) else d.addrs j }

theorem place_nil (d : Dinode) (new : Fin NDIRECT → ℕ) : d.place [] new = d := by
  unfold Dinode.place
  simp only [List.not_mem_nil, if_false]

theorem place_append (d : Dinode) (js : List (Fin NDIRECT)) (j : Fin NDIRECT)
    (new : Fin NDIRECT → ℕ) (b : ℕ) :
    d.place (js ++ [j]) (update new j b) = (d.place js new).setAddr j (.ofNat b) := by
  unfold Dinode.place Dinode.setAddr
  congr 1
  funext j'
  by_cases hjj : j' = j
  · rw [hjj, update_self, update_self, if_pos (List.mem_append_right _ (List.mem_singleton_self j))]
  · rw [update_of_ne hjj, update_of_ne hjj]
    simp only [List.mem_append, List.mem_singleton, hjj, or_false]

/-- The blocks `js` of the version `v` were copied to the blocks `new`. -/
structure CopiedBack (st : Bool) (fr : Option ℕ) (hand : List ℕ) (k : Slot) (v : Version)
    (js : List (Fin NDIRECT)) (new : Fin NDIRECT → ℕ) (lg : ℕ → Dinode) (s : Fs)
    (lg' : ℕ → Dinode) (s' : Fs) : Prop where
  /-- The inode is still being changed. -/
  win : Win st fr lg' hand k s'
  /-- Nothing else changed. -/
  within : Within k s s'
  /-- The inode has the new blocks. -/
  din : (s'.icache k).din = (s.icache k).din.place js new
  /-- The inodes on disk are the same. -/
  dinode : s'.view.dinode = s.view.dinode
  /-- Blocks in use are not written. -/
  old : ∀ b, s.view.used b = true → s'.view.block b = s.view.block b
  /-- The new blocks were free. -/
  fresh : ∀ j ∈ js, s.sb.Area (new j) ∧ s.view.used (new j) = false
  /-- They are different. -/
  inj : ∀ j ∈ js, ∀ j' ∈ js, new j = new j' → j = j'
  /-- They are marked used. -/
  used : ∀ b, s'.view.used b = true ↔ s.view.used b = true ∨ ∃ j ∈ js, new j = b
  /-- They hold what the version holds. -/
  data : ∀ j ∈ js, s'.view.block (new j) = v.content j
  /-- They and their bits in the free map were logged. -/
  logged : Logged (fun x => ∃ j ∈ js, x = s.sb.bblock (new j) ∨ x = new j) s s'
  /-- The other inodes count as before. -/
  others : ∀ j, j ≠ (s.icache k).inum.toNat → lg' j = lg j

theorem CopiedBack.nil (h : Win st fr lg hand k s) (v : Version) :
    CopiedBack st fr hand k v [] (fun _ => 0) lg s lg s where
  win := h
  within := .refl k s
  din := (place_nil ..).symm
  dinode := rfl
  old := fun _ _ => rfl
  fresh := by nofun
  inj := by nofun
  used := fun b => by simp
  data := by nofun
  logged := (Logged.refl s).congr fun x => by simp
  others := fun _ _ => rfl

/-- One pass of the loop. -/
theorem CopiedBack.step {j : Fin NDIRECT} (h : CopiedBack st fr hand k v js new lg₀ s₀ lg s)
    (hj : j ∉ js) (hb : s.sb.Area b) (hfree : s.view.used b = false) :
    CopiedBack st fr hand k v (js ++ [j]) (update new j b) lg₀ s₀
      (update lg (s.icache k).inum.toNat ((s.icache k).din.setAddr j (.ofNat b)))
      ((s.fill b (v.content j)).setSlot k
        { s.icache k with din := (s.icache k).din.setAddr j (.ofNat b) }) := by
  have hwin := h.win
  have hlayout := hwin.core.layout
  have hcore := ((hwin.core.alloc hb hfree).write (v.content j) (.inl List.mem_cons_self)).attachDirect
    j (hwin.core.fresh_untracked hb hfree)
  rw [hwin.eq] at hcore
  -- the block was free before the loop, and is none of those that the loop has filled
  have hold : s₀.view.used b = false ∧ ∀ j' ∈ js, new j' ≠ b := by
    have hnot : ¬ s.view.used b = true := by rw [hfree]; exact Bool.false_ne_true
    rw [h.used, not_or, not_exists] at hnot
    exact ⟨Bool.eq_false_iff.mpr hnot.1, fun j' hj' heq => hnot.2 j' ⟨hj', heq⟩⟩
  have hnew : ∀ j' ∈ js, update new j b j' = new j' := fun j' hj' =>
    update_of_ne (fun heq : j' = j => hj (heq ▸ hj')) ..
  have hsplit : ∀ P : Fin NDIRECT → Prop, (∀ j' ∈ js, P j') → P j → ∀ j' ∈ js ++ [j], P j' := by
    intro P hjs hP j' hj'
    rcases List.mem_append.mp hj' with hmem | hmem
    · exact hjs j' hmem
    · rw [List.mem_singleton.mp hmem]
      exact hP
  refine ⟨hcore.win hwin.live rfl rfl hwin.audited _ (update_self ..),
    h.within.trans (within_setDin s (s.fill b _) rfl rfl k _), ?_, ?_, fun c hc => ?_, ?_, ?_,
    fun c => ?_, ?_, ?_, fun j' hj' => ?_⟩
  · rw [setSlot_self, place_append, ← h.din]
  · rw [view_setSlot, dinode_fill hlayout hb]
    exact h.dinode
  · rw [view_setSlot, block_fill_of_ne hlayout hb _ (ne_of_used hc hold.1)]
    exact h.old c hc
  · refine hsplit _ (fun j' hj' => ?_) ?_
    · rw [hnew j' hj']
      exact h.fresh j' hj'
    · rw [update_self]
      exact ⟨h.within.sb ▸ hb, hold.1⟩
  · refine hsplit _ (fun j1 hj1 => hsplit _ (fun j2 hj2 => ?_) ?_) (hsplit _ (fun j2 hj2 => ?_) ?_)
    · rw [hnew j1 hj1, hnew j2 hj2]
      exact h.inj j1 hj1 j2 hj2
    · rw [hnew j1 hj1, update_self]
      exact fun heq => absurd heq (hold.2 j1 hj1)
    · rw [hnew j2 hj2, update_self]
      exact fun heq => absurd heq.symm (hold.2 j2 hj2)
    · exact fun _ => rfl
  · rw [view_setSlot, used_fill hlayout hb, h.used, or_assoc]
    refine or_congr_right ⟨?_, ?_⟩
    · rintro (⟨j', hj', rfl⟩ | rfl)
      · exact ⟨j', List.mem_append_left _ hj', hnew j' hj'⟩
      · exact ⟨j, List.mem_append_right _ (List.mem_singleton_self j), update_self ..⟩
    · rintro ⟨j', hj', rfl⟩
      revert j'
      refine hsplit _ (fun j' hj' => .inl ⟨j', hj', (hnew j' hj').symm⟩) (.inr (update_self ..))
  · refine hsplit _ (fun j' hj' => ?_) ?_
    · rw [hnew j' hj', view_setSlot, block_fill_of_ne hlayout hb _ (hold.2 j' hj')]
      exact h.data j' hj'
    · rw [update_self, view_setSlot]
      exact block_fill_self hlayout hb _
  · refine ((h.logged.trans (logged_fill s b (v.content j))).congr fun x => ?_).setSlot _ _
    rw [h.within.sb]
    constructor
    · rintro ⟨j', hj', hx⟩
      revert j'
      refine hsplit _ (fun j' hj' hx => .inl ⟨j', hj', hnew j' hj' ▸ hx⟩) fun hx => .inr ?_
      rwa [update_self] at hx
    · rintro (⟨j', hj', hx⟩ | hx)
      · exact ⟨j', List.mem_append_left _ hj', (hnew j' hj').symm ▸ hx⟩
      · refine ⟨j, List.mem_append_right _ (List.mem_singleton_self j), ?_⟩
        rw [update_self]
        exact hx
  · rw [update_of_ne (by rw [h.within.inum]; exact hj')]
    exact h.others j' hj'

/-- The data blocks of a version are in use, and hold what they held. -/
theorem Core.version_read (h : Core st w fr lg hand s) (hv : v ∈ s.versions) {j : Fin NDIRECT}
    (hj : j.val < v.nblocks) :
    s.sb.Area (v.vnode.dataBlocks j).toNat ∧ s.view.used (v.vnode.dataBlocks j).toNat = true ∧
      s.view.block (v.vnode.dataBlocks j).toNat = v.content j := by
  have hblock : v.dataBlock j = (v.vnode.dataBlocks j).toNat := by
    unfold Version.dataBlock
    rw [dif_pos j.isLt, if_pos hj]
  obtain ⟨n, -, hdata⟩ := refs_vnode lg s.view.block hv
  have href := hdata j
  rw [hblock] at href
  have hne : refs lg s.view.block s.versions (.vdata n j) ≠ 0 := by
    rw [href, ← hblock]
    exact h.vers.dataNe v hv j hj
  refine ⟨href ▸ h.own.inArea _ hne, href ▸ h.own.isUsed _ hne, ?_⟩
  rw [← hblock]
  exact h.vers.data v hv j hj

/-- The loop from any pass on. -/
theorem CopiedBack.loop (h : CopiedBack st fr hand k v js new lg₀ s₀ lg s) (hv : v ∈ s₀.versions)
    (hl : (js ++ l).Nodup)
    (hout : ∀ js' new' lg' s', CopiedBack st fr hand k v js' new' lg₀ s₀ lg' s' →
      js'.length < (js ++ l.takeWhile (·.val < v.nblocks)).length →
      (∀ b, s'.sb.Area b → s'.view.used b = true) → E (.panic .ballocOut) s')
    (hlog : ∀ e s'' js' new' lg' s', e.Log → CopiedBack st fr hand k v js' new' lg₀ s₀ lg' s' →
      js'.length < (js ++ l.takeWhile (·.val < v.nblocks)).length → ¬ s'.Room 3 → E e s'') :
    wp (copyBack k v.vnode l) (fun ok s' => ok = true ∧ ∃ new' lg',
      CopiedBack st fr hand k v (js ++ l.takeWhile (·.val < v.nblocks)) new' lg₀ s₀ lg' s') E s := by
  induction l generalizing js new lg s with
  | nil =>
    rw [List.takeWhile_nil, List.append_nil]
    exact ⟨rfl, new, lg, h⟩
  | cons j l ih =>
    unfold copyBack
    rw [wp_ite]
    refine ⟨fun hlt => ?_, fun hge => ?_⟩
    · -- block `j` of the version is copied
      have htake : (j :: l).takeWhile (·.val < v.nblocks) = j :: l.takeWhile (·.val < v.nblocks) :=
        List.takeWhile_cons_of_pos (decide_eq_true hlt)
      have happend : js ++ (j :: l).takeWhile (·.val < v.nblocks) =
          js ++ [j] ++ l.takeWhile (·.val < v.nblocks) := by
        rw [htake, List.append_assoc, List.singleton_append]
      rw [happend] at hout hlog
      have hshort : js.length < (js ++ [j] ++ l.takeWhile (·.val < v.nblocks)).length := by
        simp only [List.length_append, List.length_singleton]
        omega
      have hj : j ∉ js := fun hmem => (List.nodup_append.mp hl).2.2 j hmem j List.mem_cons_self rfl
      have hcore := h.win.core
      have hvs : v ∈ s.versions := h.within.versions ▸ hv
      obtain ⟨harea, hused, hcontent⟩ := hcore.version_read hvs hlt
      rw [wp_bind]
      refine wp_balloc hcore.metaUsed (fun b hb hfree => ?_) (fun hfull => hout _ _ _ _ h hshort hfull)
        fun e s' he hroom => hlog _ _ _ _ _ _ he h hshort fun hr => hroom (hr.mono (by decide))
      have htoNat := View.toNat_ofNat_area hcore.layout hb
      have hb0 : UInt32.ofNat b ≠ 0 := by
        refine toNat_ne_zero.mp ?_
        rw [htoNat]
        exact View.area_ne_zero hcore.layout hb
      rw [wp_ite]
      refine ⟨fun heq => absurd heq hb0, fun _ => ?_⟩
      have hread : (s.alloc b).disk (v.vnode.dataBlocks j).toNat = v.content j := by
        rw [← hcontent, ← block_alloc_of_ne hcore.layout hb (ne_of_used hused hfree)]
        exact disk_eq_block harea
      rw [wp_bind, wp_bread, hread, wp_bind, htoNat]
      refine wp_logWrite ?_ fun e s' he hroom => hlog _ _ _ _ _ _ he h hshort fun hr =>
        hroom (room_wrote (room_wrote hr))
      rw [wp_bind, wp_setDin (s := (s.alloc b).wrote b (v.content j)) h.win.audited, happend]
      exact ih (h.step hj hb hfree) (by rw [List.append_assoc]; exact hl) hout hlog
    · -- the version has no more blocks
      rw [wp_pure, List.takeWhile_cons_of_neg (by rw [decide_eq_true_iff]; exact hge), List.append_nil]
      exact ⟨rfl, new, lg, h⟩

/-- The places that the loop fills. -/
theorem mem_places {n : ℕ} {j : Fin NDIRECT} :
    j ∈ (List.finRange NDIRECT).takeWhile (·.val < n) ↔ j.val < n := by
  have hsorted : ∀ l : List (Fin NDIRECT), l.Pairwise (· < ·) →
      (j ∈ l.takeWhile (·.val < n) ↔ j ∈ l ∧ j.val < n) := by
    intro l hl
    induction l with
    | nil => simp
    | cons a l ih =>
      obtain ⟨ha, hl⟩ := List.pairwise_cons.mp hl
      by_cases hlt : a.val < n
      · rw [List.takeWhile_cons_of_pos (p := fun x : Fin NDIRECT => decide (x.val < n))
          (decide_eq_true hlt), List.mem_cons, List.mem_cons, ih hl]
        constructor
        · rintro (rfl | ⟨hmem, hj⟩)
          · exact ⟨.inl rfl, hlt⟩
          · exact ⟨.inr hmem, hj⟩
        · rintro ⟨rfl | hmem, hj⟩
          · exact .inl rfl
          · exact .inr ⟨hmem, hj⟩
      · -- what follows is larger
        rw [List.takeWhile_cons_of_neg (by rw [decide_eq_true_iff]; exact hlt)]
        constructor
        · intro hnil
          cases hnil
        · rintro ⟨hmem, hj⟩
          rcases List.mem_cons.mp hmem with rfl | hmem
          · exact absurd hj hlt
          · exact absurd (lt_trans (Fin.lt_def.mp (ha j hmem)) hj) hlt
  rw [hsorted _ (List.pairwise_lt_finRange _)]
  exact ⟨fun h => h.2, fun h => ⟨List.mem_finRange j, h⟩⟩

theorem length_places_le (n : ℕ) : ((List.finRange NDIRECT).takeWhile (·.val < n)).length ≤ n := by
  have hnodup : ((List.finRange NDIRECT).takeWhile (·.val < n)).Nodup :=
    (List.nodup_finRange _).sublist (List.takeWhile_sublist _)
  have hsub : (((List.finRange NDIRECT).takeWhile (·.val < n)).map Fin.val).toFinset ⊆
      Finset.range n := by
    intro x hx
    obtain ⟨j, hj, rfl⟩ := List.mem_map.mp (List.mem_toFinset.mp hx)
    exact Finset.mem_range.mpr (mem_places.mp hj)
  calc ((List.finRange NDIRECT).takeWhile (·.val < n)).length
      = (((List.finRange NDIRECT).takeWhile (·.val < n)).map Fin.val).toFinset.card := by
        rw [List.toFinset_card_of_nodup (hnodup.map Fin.val_injective), List.length_map]
    _ ≤ (Finset.range n).card := Finset.card_le_card hsub
    _ = n := Finset.card_range n

/-! ## `sys_version_restore` -/

/-- An operation has just begun, on a file system with one block of free map. -/
structure Fs.Began (s : Fs) : Prop where
  /-- Nothing is in the log. -/
  lh : s.lh = []
  /-- An operation is running. -/
  outstanding : 1 ≤ s.outstanding
  /-- The log has its size. -/
  logSize : s.logSize = LOGSIZE
  /-- The free map is one block. -/
  size : s.sb.size ≤ BPB

/-- After few blocks were logged there is room for more. -/
theorem Logged.roomOf {X : ℕ → Prop} (h : Logged X s s') (hb : s.Began) (S : Finset ℕ)
    (hS : ∀ x, X x → x ∈ S) {n : ℕ} (hcard : S.card + n ≤ LOGSIZE - 1) : s'.Room n := by
  have hnil := hb.lh
  have hlen : s'.lh.length ≤ S.card := by
    rw [← List.toFinset_card_of_nodup (h.nodup (by rw [hnil]; exact List.nodup_nil))]
    refine Finset.card_le_card fun x hx => ?_
    have hmem := (h.mem x).mp (List.mem_toFinset.mp hx)
    rw [hnil] at hmem
    exact hS x (hmem.resolve_left List.not_mem_nil)
  have hsize := hb.logSize
  refine ⟨?_, ?_, ?_⟩
  · omega
  · rw [h.logSize, hsize]
    omega
  · rw [h.outstanding]
    exact hb.outstanding

/-- There is one block of free map. -/
theorem bblock_of_size (h : s.sb.size ≤ BPB) (hb : b < s.sb.size) :
    s.sb.bblock b = s.sb.bmapstart := by
  unfold Superblock.bblock
  rw [Nat.div_eq_of_lt (lt_of_lt_of_le hb h), Nat.zero_add]

/-- The data blocks that are free once the direct blocks of the inode `d` are. -/
def Fs.avail (s : Fs) (d : Dinode) : Finset ℕ :=
  (Finset.range s.sb.size).filter fun b => s.sb.dataStart ≤ b ∧
    (s.view.used b = false ∨ ∃ j, d.addrs j ≠ 0 ∧ (d.addrs j).toNat = b)

/-- The inode `d` with the size and the blocks of the version `v`. -/
def Dinode.restored (d : Dinode) (v : Version) (new : Fin NDIRECT → ℕ) : Dinode :=
  { d with
    size := v.vnode.fileSize
    addrs := fun j => if j.val < v.nblocks then .ofNat (new j) else 0 }

/-- What the restoring of version `v` did to the inode in slot `k`. -/
structure Restored (st : Bool) (hand : List ℕ) (k : Slot) (v : Version) (new : Fin NDIRECT → ℕ)
    (lg : ℕ → Dinode) (s s' : Fs) : Prop where
  /-- The invariant holds. -/
  core : Core st none none
    (update lg (s.icache k).inum.toNat ((s.icache k).din.restored v new)) hand s'
  /-- The inode in memory has the version's size and new blocks. -/
  icache : s'.icache = update s.icache k
    { s.icache k with din := (s.icache k).din.restored v new }
  /-- So has the inode on disk. -/
  dinode : s'.view.dinode = update s.view.dinode (s.icache k).inum.toNat
    ((s.icache k).din.restored v new)
  /-- Nothing else is changed, apart from the disk and the log. -/
  rest : s'.rest = s.rest
  /-- The new blocks are data blocks that are different from each other and from the blocks that
  stay. -/
  fresh : ∀ j : Fin NDIRECT, j.val < v.nblocks → new j ∈ s.avail (s.icache k).din ∧
    ∀ j' : Fin NDIRECT, j'.val < v.nblocks → new j = new j' → j = j'
  /-- They hold what the version holds. -/
  data : ∀ j : Fin NDIRECT, j.val < v.nblocks → s'.view.block (new j) = v.content j
  /-- Blocks in use, other than those that the inode gave up, are not written. -/
  old : ∀ b, s.view.used b = true → b ∉ s.avail (s.icache k).din →
    s'.view.block b = s.view.block b
  /-- The free map, the new blocks and the inode are logged. -/
  logged : Logged (fun x =>
    ((∃ j, (s.icache k).din.addrs j ≠ 0 ∧ x = s.sb.bblock ((s.icache k).din.addrs j).toNat) ∨
      ∃ j : Fin NDIRECT, j.val < v.nblocks ∧ (x = s.sb.bblock (new j) ∨ x = new j)) ∨
    x = s.sb.iblock (s.icache k).inum.toNat) s s'

/-- The fields of an inode that own nothing are set. -/
theorem Win.setDin (h : Win st fr lg hand k s) (d : Dinode)
    (haddrs : d.addrs = (s.icache k).din.addrs) (hind : d.indirect = (s.icache k).din.indirect)
    (htype : (s.icache k).din.type ≠ 0 → d.type ≠ 0)
    (hhead : d.versionHead = (s.icache k).din.versionHead) :
    Win st fr (update lg (s.icache k).inum.toNat d) hand k
      (s.setSlot k { s.icache k with din := d }) :=
  (h.core.relabel d (by rw [h.eq]; exact haddrs) (by rw [h.eq]; exact hind)
    (by rw [h.eq]; exact htype) (by rw [h.eq]; exact hhead)).win h.live rfl rfl h.audited d
      (update_self ..)

/-- What is known of the restored inode. -/
theorem NodeOk.restored {n : ℕ} {blk blk' : ℕ → Block} {vs : List Version} {d : Dinode}
    (h : NodeOk st n blk vs none i d) (hv : VersionFor st n blk i d v)
    (hbound : v.vnode.fileSize.toNat ≤ MAXFILE * BSIZE)
    (hnew : ∀ j : Fin NDIRECT, j.val < v.nblocks → (UInt32.ofNat (new j)).toNat = new j ∧ new j ≠ 0)
    (hdata : ∀ j : Fin NDIRECT, j.val < v.nblocks → blk' (new j) = v.content j)
    (hmap : ∀ bn, NDIRECT ≤ bn → (d.restored v new).map blk' bn = d.map blk bn)
    (hold : ∀ bn, NDIRECT ≤ bn → d.map blk bn ≠ 0 → blk' (d.map blk bn) = blk (d.map blk bn)) :
    NodeOk st n blk' vs none i (d.restored v new) := by
  have hdirect : ∀ j : Fin NDIRECT, (d.restored v new).map blk' j =
      if j.val < v.nblocks then new j else 0 := by
    intro j
    rw [map_of_lt _ _ j.isLt]
    unfold Dinode.restored
    dsimp only
    split
    · exact (hnew j ‹_›).1
    · rfl
  have htype : (d.restored v new).type = d.type := rfl
  refine ⟨fun hdir bn hbn => ?_, fun hdir _ => ?_, hv.aligned, hbound, fun bn hf hbn => ?_, ?_⟩
  · by_cases hlt : bn < NDIRECT
    · have heq := hdirect ⟨bn, hlt⟩
      by_cases hn : bn < v.nblocks
      · rw [if_pos hn] at heq
        rw [heq, hdata ⟨bn, hlt⟩ hn]
        exact (hv.dir hdir).2.2.2 bn hn
      · rw [if_neg hn] at heq
        exact absurd heq hbn
    · rw [hmap bn (not_lt.mp hlt)] at hbn ⊢
      rw [hold bn (not_lt.mp hlt) hbn]
      exact h.dir hdir bn hbn
  · obtain ⟨hsize, hpos, hdot, -⟩ := hv.dir hdir
    have h0 := hdirect ⟨0, by decide⟩
    rw [if_pos hpos] at h0
    refine ⟨hsize, ?_, ?_⟩
    · rw [h0]
      exact (hnew ⟨0, by decide⟩ hpos).2
    · rw [h0, hdata ⟨0, by decide⟩ hpos]
      exact hdot
  · by_cases hlt : bn < NDIRECT
    · have hn := hv.direct bn hlt hbn
      rw [hdirect ⟨bn, hlt⟩, if_pos hn]
      exact (hnew ⟨bn, hlt⟩ hn).2
    · rw [hmap bn (not_lt.mp hlt)]
      exact hv.full (hf.resolve_left hlt) bn (not_lt.mp hlt) hbn
  · obtain ⟨c, hc, hall⟩ := h.chain
    refine ⟨c, hc, fun u hu => ⟨(hall u hu).dir, (hall u hu).aligned, (hall u hu).direct,
      fun hf bn hge hbn => ?_⟩⟩
    rw [hmap bn hge]
    exact (hall u hu).full hf bn hge hbn

/-- `iupdate` writes the in-memory copy as it is. -/
theorem commit_self (s : Fs) (k : Slot) :
    s.commit k (s.icache k).din = s.wroteDinode (s.icache k).inum.toNat (s.icache k).din := by
  unfold Fs.commit
  have : s.setSlot k { s.icache k with din := (s.icache k).din } = s := by
    unfold Fs.setSlot
    rw [Function.update_eq_self]
  rw [this]

theorem mem_avail {d : Dinode} : b ∈ s.avail d ↔ s.sb.Area b ∧
    (s.view.used b = false ∨ ∃ j, d.addrs j ≠ 0 ∧ (d.addrs j).toNat = b) := by
  unfold Fs.avail Superblock.Area
  rw [Finset.mem_filter, Finset.mem_range]
  tauto

/-- After the direct blocks are freed, these are the free data blocks. -/
theorem FreedDirect.free_iff (h : FreedDirect st fr hand k (List.finRange NDIRECT) lg s lg' s')
    (hb : s.sb.Area b) : s'.view.used b = false ↔ b ∈ s.avail (s.icache k).din := by
  rw [mem_avail, ← Bool.not_eq_true, h.used, not_and_or, Bool.not_eq_true]
  constructor
  · rintro (hfree | hdirect)
    · exact ⟨hb, .inl hfree⟩
    · push Not at hdirect
      obtain ⟨j, -, hne, heq⟩ := hdirect
      exact ⟨hb, .inr ⟨j, hne, heq⟩⟩
  · rintro ⟨-, hfree | ⟨j, hne, heq⟩⟩
    · exact .inl hfree
    · exact .inr fun hall => hall j (List.mem_finRange j) hne heq

/-- The restored inode, from its parts. -/
theorem place_clear (d : Dinode) (v : Version) (new : Fin NDIRECT → ℕ) :
    ({ d.clear (List.finRange NDIRECT) with size := v.vnode.fileSize }).place
      ((List.finRange NDIRECT).takeWhile (·.val < v.nblocks)) new = d.restored v new := by
  unfold Dinode.place Dinode.restored Dinode.clear
  congr 1
  funext j
  simp only [mem_places, List.mem_finRange, if_true]

/-- A block with another owner than a direct address of inode `i` is not among those that become free
when `i` is restored. -/
theorem Core.not_mem_avail (h : Core st w fr lg hand s) {o : Owner}
    (hne : refs lg s.view.block s.versions o ≠ 0) (ho : ∀ j : Fin NDIRECT, o ≠ .data i j) :
    s.view.used (refs lg s.view.block s.versions o) = true ∧
      refs lg s.view.block s.versions o ∉ s.avail (lg i) := by
  have hused := h.own.isUsed o hne
  refine ⟨hused, fun hmem => ?_⟩
  rcases (mem_avail.mp hmem).2 with hfree | ⟨j, -, heq⟩
  · rw [hused] at hfree
    nomatch hfree
  · have hdata : refs lg s.view.block s.versions (.data i j) = ((lg i).addrs j).toNat :=
      map_of_lt _ _ j.isLt
    rw [← hdata] at heq
    exact ho j (h.own.inj _ _ hne heq.symm)

/-- The blocks past the direct ones are not among those that become free. -/
theorem Core.indirect_kept (h : Core st none fr lg hand s) (hk : (s.icache k).Live) :
    ((s.icache k).din.indirect ≠ 0 →
      s.view.used (s.icache k).din.indirect.toNat = true ∧
        (s.icache k).din.indirect.toNat ∉ s.avail (s.icache k).din) ∧
    ∀ bn, NDIRECT ≤ bn → s.map k bn ≠ 0 →
      s.view.used (s.map k bn) = true ∧ s.map k bn ∉ s.avail (s.icache k).din := by
  obtain ⟨hlg, -⟩ := h.cache.cached k hk (by nofun)
  have hother : ∀ o, refs lg s.view.block s.versions o ≠ 0 →
      (∀ j : Fin NDIRECT, o ≠ .data (s.icache k).inum.toNat j) →
      s.view.used (refs lg s.view.block s.versions o) = true ∧
        refs lg s.view.block s.versions o ∉ s.avail (s.icache k).din := by
    intro o hne ho
    rw [← hlg]
    exact h.not_mem_avail hne ho
  have hmap : ∀ bn, refs lg s.view.block s.versions (.data (s.icache k).inum.toNat bn) =
      s.map k bn := by
    intro bn
    show (lg _).map _ _ = _
    rw [hlg]
    rfl
  constructor
  · intro hne
    have hind : refs lg s.view.block s.versions (.indirect (s.icache k).inum.toNat) =
        (s.icache k).din.indirect.toNat := by
      show (lg _).indirect.toNat = _
      rw [hlg]
    rw [← hind]
    exact hother _ (hind ▸ toNat_ne_zero.mpr hne) (by nofun)
  · intro bn hge hne
    rw [← hmap]
    refine hother _ (hmap bn ▸ hne) fun j heq => ?_
    obtain ⟨-, rfl⟩ := Owner.data.inj heq
    exact absurd j.isLt (not_lt.mpr hge)

/-- The parts of `sys_version_restore` together. -/
theorem CopiedBack.restored {s1 s3 : Fs} {lg1 lg3 : ℕ → Dinode} (h : Core st none none lg hand s)
    (hk : (s.icache k).Live) (hv : v ∈ s.versions)
    (hfor : VersionFor st s.sb.ninodes s.view.block (s.icache k).inum.toNat (s.icache k).din v)
    (hf : FreedDirect st none hand k (List.finRange NDIRECT) lg s lg1 s1)
    (hc : CopiedBack st none hand k v ((List.finRange NDIRECT).takeWhile (·.val < v.nblocks)) new
      (update lg1 (s1.icache k).inum.toNat { (s1.icache k).din with size := v.vnode.fileSize })
      (s1.setSlot k { s1.icache k with
        din := { (s1.icache k).din with size := v.vnode.fileSize } }) lg3 s3) :
    Restored st hand k v new lg s (s3.commit k (s3.icache k).din) := by
  have hwithin : Within k s s3 :=
    (hf.within.trans (within_setDin s1 s1 rfl rfl k _)).trans hc.within
  have hsb1 := hf.within.sb
  have hinum : (s3.icache k).inum = (s.icache k).inum := hwithin.inum
  have hdin : (s3.icache k).din = (s.icache k).din.restored v new := by
    rw [hc.din, setSlot_self, ← place_clear, hf.din]
  have hlt := hc.win.core.cache.inum k hc.win.live.1
  have hview := view_commit hc.win.core.layout hlt (s3.icache k).din
  -- the new blocks are free once the direct blocks are
  have hfresh : ∀ j : Fin NDIRECT, j.val < v.nblocks → new j ∈ s.avail (s.icache k).din ∧
      ∀ j' : Fin NDIRECT, j'.val < v.nblocks → new j = new j' → j = j' := by
    intro j hj
    obtain ⟨harea, hfree⟩ := hc.fresh j (mem_places.mpr hj)
    refine ⟨(hf.free_iff (hsb1 ▸ harea)).mp hfree, fun j' hj' => ?_⟩
    exact hc.inj j (mem_places.mpr hj) j' (mem_places.mpr hj')
  have hold : ∀ b, s.view.used b = true → b ∉ s.avail (s.icache k).din →
      s3.view.block b = s.view.block b := by
    intro b hused hnot
    rw [← hf.block]
    refine hc.old b ?_
    show s1.view.used b = true
    rw [hf.used]
    refine ⟨hused, fun j _ hne heq => hnot (mem_avail.mpr ⟨?_, .inr ⟨j, hne, heq⟩⟩)⟩
    exact heq ▸ (h.direct_used hk hne).1
  have hdata : ∀ j : Fin NDIRECT, j.val < v.nblocks → s3.view.block (new j) = v.content j :=
    fun j hj => hc.data j (mem_places.mpr hj)
  -- past the direct blocks the file is the same
  obtain ⟨hindirect, hpast⟩ := h.indirect_kept hk
  have hmap : ∀ bn, NDIRECT ≤ bn → ((s.icache k).din.restored v new).map s3.view.block bn =
      (s.icache k).din.map s.view.block bn := by
    intro bn hge
    rw [map_of_ge _ _ hge, map_of_ge _ _ hge]
    show (if bn < MAXFILE ∧ (s.icache k).din.indirect ≠ 0 then
      ((s3.view.block (s.icache k).din.indirect.toNat).word (bn - NDIRECT)).toNat else 0) = _
    by_cases hne : (s.icache k).din.indirect = 0
    · rw [if_neg fun hc => hc.2 hne, if_neg fun hc => hc.2 hne]
    · rw [hold _ (hindirect hne).1 (hindirect hne).2]
  have hnode : NodeOk st s3.sb.ninodes s3.view.block s3.versions none (s3.icache k).inum.toNat
      (s3.icache k).din := by
    rw [hwithin.sb, hwithin.versions, hinum, hdin]
    refine (h.node_of_live hk).restored hfor (h.vers.bound v hv) (fun j hj => ?_) hdata hmap
      fun bn hge hne => ?_
    · have harea := (mem_avail.mp (hfresh j hj).1).1
      exact ⟨View.toNat_ofNat_area h.layout harea, View.area_ne_zero h.layout harea⟩
    · exact hold _ (hpast bn hge hne).1 (hpast bn hge hne).2
  have htype : (s3.icache k).din.type ≠ 0 := by
    rw [hdin]
    exact (h.cache.cached k hk (by nofun)).2.2
  have hcore := hc.win.core.commitWin hc.win.live hc.win.eq htype hnode
  -- the inodes as the kernel sees them differ in this one
  have hlg : lg3 = update lg (s.icache k).inum.toNat ((s.icache k).din.restored v new) := by
    funext i
    by_cases hi : i = (s.icache k).inum.toNat
    · rw [hi, update_self, ← hdin, ← hinum]
      exact hc.win.eq
    · have hi1 : i ≠ (s1.icache k).inum.toNat := by rw [hf.within.inum]; exact hi
      rw [update_of_ne hi, hc.others i (by rw [setSlot_self]; exact hi1), update_of_ne hi1,
        hf.others i hi]
  refine ⟨hlg ▸ hcore, ?_, ?_, ?_, hfresh, fun j hj => ?_, fun b hused hnot => ?_, ?_⟩
  · rw [icache_commit, hdin]
    funext j
    by_cases hj : j = k
    · rw [hj, update_self, update_self, hwithin.self]
    · rw [update_of_ne hj, update_of_ne hj, hwithin.other j hj]
  · rw [hview, hinum, hdin]
    show update s3.view.dinode _ _ = _
    rw [hc.dinode, view_setSlot, hf.dinode]
  · show s3.rest = s.rest
    exact hwithin.rest
  · rw [hview]
    exact hdata j hj
  · rw [hview]
    exact hold b hused hnot
  · have hlog := (hf.logged.setSlot k { s1.icache k with
      din := { (s1.icache k).din with size := v.vnode.fileSize } }).trans hc.logged
    refine (hlog.trans (logged_commit s3 k _)).congr fun x => ?_
    rw [hwithin.sb, hinum]
    refine or_congr_left (or_congr ?_ ?_)
    · simp only [List.mem_finRange, true_and]
    · simp only [mem_places]
      show _ ↔ ∃ j : Fin NDIRECT, j.val < v.nblocks ∧ (x = s1.sb.bblock (new j) ∨ x = new j)
      rw [hsb1]

/-- The loop stops for want of blocks only if there are fewer than the version has. -/
theorem CopiedBack.avail_lt {s1 s2 : Fs} {lg1 lg2 : ℕ → Dinode} {ip : Inode}
    (hf : FreedDirect st fr hand k (List.finRange NDIRECT) lg s lg1 s1)
    (hc : CopiedBack st fr hand k v js new lg2 (s1.setSlot k ip) lg' s2)
    (hfull : ∀ b, s2.sb.Area b → s2.view.used b = true) :
    (s.avail (s.icache k).din).card ≤ js.length := by
  have hsub : s.avail (s.icache k).din ⊆ (js.map new).toFinset := by
    intro b hb
    have harea := (mem_avail.mp hb).1
    have hfree := (hf.free_iff harea).mpr hb
    have hused := hfull b (by rw [hc.within.sb]; exact hf.within.sb.symm ▸ harea)
    rw [hc.used, view_setSlot, hfree] at hused
    obtain ⟨j, hj, rfl⟩ := hused.resolve_left Bool.false_ne_true
    exact List.mem_toFinset.mpr (List.mem_map_of_mem hj)
  calc (s.avail (s.icache k).din).card
      ≤ (js.map new).toFinset.card := Finset.card_le_card hsub
    _ ≤ (js.map new).length := List.toFinset_card_le _
    _ = js.length := List.length_map ..

/-- What the restoring of a version logs, before it is done, is little. -/
theorem CopiedBack.room {s1 s2 : Fs} {lg1 lg2 : ℕ → Dinode} {ip : Inode} (hbegan : s.Began)
    (h : Core st none fr lg hand s) (hk : (s.icache k).Live)
    (hf : FreedDirect st fr hand k l lg s lg1 s1)
    (hc : CopiedBack st fr hand k v js new lg2 (s1.setSlot k ip) lg' s2)
    (hlen : js.length ≤ NDIRECT) : s2.Room 3 := by
  have hlog := (hf.logged.setSlot k ip).trans hc.logged
  refine hlog.roomOf hbegan (insert s.sb.bmapstart (js.map new).toFinset) ?_ ?_
  · rintro x (⟨j, -, hne, rfl⟩ | ⟨j, hj, rfl | rfl⟩)
    · rw [bblock_of_size hbegan.size (h.direct_used hk hne).1.2]
      exact Finset.mem_insert_self ..
    · have hsb : (s1.setSlot k ip).sb = s.sb := hf.within.sb
      have hb := (hc.fresh j hj).1.2
      rw [hsb] at hb ⊢
      rw [bblock_of_size hbegan.size hb]
      exact Finset.mem_insert_self ..
    · exact Finset.mem_insert_of_mem (List.mem_toFinset.mpr (List.mem_map_of_mem hj))
  · have h1 := Finset.card_insert_le s.sb.bmapstart (js.map new).toFinset
    have h2 := List.toFinset_card_le (js.map new)
    rw [List.length_map] at h2
    simp only [NDIRECT, LOGSIZE, MAXOPBLOCKS] at *
    omega

/-- `sys_version_restore`, up to the `iupdate`, and what follows it. -/
theorem wp_restore {α : Type} {Q : α → Fs → Prop} {m : FsM α} (h : Core st none none lg hand s)
    (hk : (s.icache k).Live) (ha : s.Audited k) (hv : v ∈ s.versions)
    (hfor : VersionFor st s.sb.ninodes s.view.block (s.icache k).inum.toNat (s.icache k).din v)
    (hok : ∀ new s', Restored st hand k v new lg s s' → wp m Q E s')
    (hout : (s.avail (s.icache k).din).card < v.nblocks → ∀ s', E (.panic .ballocOut) s')
    (hlog : ¬ s.Began → ∀ e s', e.Log → E e s') :
    wp (do
        (List.finRange NDIRECT).forM (freeDirect k)
        setDin k fun d => { d with size := v.vnode.fileSize }
        let _ ← copyBack k v.vnode (List.finRange NDIRECT)
        iupdate k
        m) Q E s := by
  have hwin := h.openWin hk ha
  rw [wp_bind]
  refine wp_mono (freeDirect_loop hwin ?_) ?_ fun _ _ => id
  · -- the log has room for the free map
    intro e s' l lg' s'' he hf hroom
    refine hlog (fun hbegan => hroom ?_) e s' he
    refine (hf.logged.roomOf hbegan {s.sb.bmapstart} ?_
      (by rw [Finset.card_singleton]; decide) : s''.Room 1)
    rintro x ⟨j, -, hne, rfl⟩
    rw [bblock_of_size hbegan.size (h.direct_used hk hne).1.2]
    exact Finset.mem_singleton_self _
  rintro _ s1 ⟨lg1, hf⟩
  rw [wp_bind, wp_setDin hf.win.audited]
  have hwin2 := hf.win.setDin { (s1.icache k).din with size := v.vnode.fileSize } rfl rfl id rfl
  have hv2 : v ∈ s1.versions := hf.within.versions ▸ hv
  have hplaces := length_places_le v.nblocks
  have hlen : ((List.finRange NDIRECT).takeWhile (·.val < v.nblocks)).length ≤ NDIRECT :=
    (List.takeWhile_sublist _).length_le.trans (by rw [List.length_finRange])
  refine wp_of_spec ((CopiedBack.nil hwin2 v).loop hv2 (List.nodup_finRange _)
    (fun js new lg' s' hc hshort hfull => ?_) fun e s'' js new lg' s' he hc hshort hroom => ?_)
    (fun _ _ => id) ?_
  · rw [List.nil_append] at hshort
    exact hout (by have := hc.avail_lt hf hfull; omega) s'
  · rw [List.nil_append] at hshort
    exact hlog (fun hbegan => hroom (hc.room hbegan h hk hf (by omega))) e s'' he
  rintro _ s3 ⟨-, new, lg3, hc⟩
  rw [List.nil_append] at hc
  rw [wp_bind]
  refine wp_iupdate hc.win.audited ?_ fun e s' he hroom => ?_
  · rw [← commit_self]
    exact hok new _ (hc.restored h hk hv hfor hf)
  · refine hlog (fun hbegan => hroom ?_) e s' he
    exact (hc.room hbegan h hk hf hlen).mono (by decide)

end ChronoFS
