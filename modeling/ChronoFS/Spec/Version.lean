import ChronoFS.Spec.Create

/-!
# Creating versions

`version_create` takes new blocks, one for the version node and one for each direct block of the
file, copies the direct blocks and fills in the node. Until the node is the head of the file's chain
the new blocks are the caller's (`hand` of the invariant); then they belong to the version
(`Core.push`), and nothing that the kernel does afterwards touches them.
-/

namespace ChronoFS

open Function

variable {st : Bool} {w fr : Option ℕ} {lg lg' : ℕ → Dinode} {hand : List ℕ} {s s' s'' : Fs}
  {k : Slot} {i b : ℕ} {T : ℤ} {E : Halt → Fs → Prop}

theorem wp_bread {Q : Block → Fs → Prop} : wp (bread b) Q E s ↔ Q (s.disk b) s := Iff.rfl

/-! ## The reference-count table -/

theorem mem_modifyFirst {α : Type} {p : α → Bool} {f : α → α} {l l' : List α}
    (h : modifyFirst p f l = some l') :
    ∀ a ∈ l', a ∈ l ∨ ∃ a0 ∈ l, p a0 = true ∧ a = f a0 := by
  induction l generalizing l' with
  | nil => cases h
  | cons a0 l ih =>
    unfold modifyFirst at h
    by_cases hp : p a0 = true
    · rw [if_pos hp] at h
      obtain rfl := Option.some.inj h
      intro a ha
      rcases List.mem_cons.mp ha with rfl | hrest
      · exact .inr ⟨a0, List.mem_cons_self, hp, rfl⟩
      · exact .inl (List.mem_cons_of_mem _ hrest)
    · rw [if_neg hp] at h
      obtain ⟨l1, hl1, rfl⟩ := Option.map_eq_some_iff.mp h
      intro a ha
      rcases List.mem_cons.mp ha with rfl | hrest
      · exact .inl List.mem_cons_self
      · rcases ih hl1 a hrest with hin | ⟨a1, ha1, hp1, heq⟩
        · exact .inl (List.mem_cons_of_mem _ hin)
        · exact .inr ⟨a1, List.mem_cons_of_mem _ ha1, hp1, heq⟩

/-- Every valid entry of the table is for a block that had one before, or for a block of `bs`. -/
def TracksMore (bs : List ℕ) (l l' : List BlockRefcount) : Prop :=
  ∀ e ∈ l', e.valid = true →
    (∃ e' ∈ l, e'.valid = true ∧ e'.blockNum = e.blockNum) ∨ e.blockNum.toNat ∈ bs

theorem TracksMore.refl (l : List BlockRefcount) : TracksMore [] l l :=
  fun e he hv => .inl ⟨e, he, hv, rfl⟩

theorem TracksMore.trans {bs bs' : List ℕ} {l l' l'' : List BlockRefcount}
    (h : TracksMore bs l l') (h' : TracksMore bs' l' l'') : TracksMore (bs ++ bs') l l'' := by
  intro e he hv
  rcases h' e he hv with ⟨e1, he1, hv1, heq1⟩ | hmem
  · rw [← heq1]
    exact (h e1 he1 hv1).imp id (List.mem_append_left _)
  · exact .inr (List.mem_append_right _ hmem)

/-- `bref_inc` changes the table for its own block only. -/
theorem wp_brefInc {Q : Unit → Fs → Prop} {a : UInt32}
    (hok : ∀ l, TracksMore [a.toNat] s.refcounts l → Q () { s with refcounts := l }) :
    wp (brefInc a) Q E s := by
  unfold brefInc
  rw [wp_modify]
  dsimp only
  have hself : a.toNat ∈ [a.toNat] := List.mem_cons_self
  split
  · rename_i l hl
    refine hok l fun e he hv => ?_
    rcases mem_modifyFirst hl e he with hin | ⟨e0, -, hp, rfl⟩
    · exact .inl ⟨e, hin, hv, rfl⟩
    · unfold BlockRefcount.covers at hp
      rw [Bool.and_eq_true] at hp
      refine .inr ?_
      rw [← beq_iff_eq.mp hp.2] at hself ⊢
      exact hself
  · split
    · rename_i l hl
      refine hok l fun e he hv => ?_
      rcases mem_modifyFirst hl e he with hin | ⟨e0, -, -, rfl⟩
      · exact .inl ⟨e, hin, hv, rfl⟩
      · exact .inr hself
    · split
      · refine hok _ fun e he hv => ?_
        rcases List.mem_append.mp he with hin | hnew
        · exact .inl ⟨e, hin, hv, rfl⟩
        · rw [List.mem_singleton.mp hnew]
          exact .inr hself
      · exact hok s.refcounts fun e he hv => .inl ⟨e, he, hv, rfl⟩

/-- Blocks in hand may enter the table. -/
theorem Core.track (h : Core st w fr lg hand s) {l : List BlockRefcount} {bs : List ℕ}
    (hl : TracksMore bs s.refcounts l) (hbs : ∀ b ∈ bs, b ∈ hand) :
    Core st w fr lg hand { s with refcounts := l } :=
  { h with
    tracked := fun e he hv => by
      rcases hl e he hv with ⟨e', he', hv', heq⟩ | hmem
      · rw [← heq]
        exact h.tracked e' he' hv'
      · exact .inl (hbs _ hmem) }

/-! ## The copies -/

/-- The version node with one more data block. -/
def VersionNode.push (v : VersionNode) (b : ℕ) : VersionNode :=
  { v with
    dataBlocks := fun j => if j.val = v.nblocks.toNat then .ofNat b else v.dataBlocks j
    nblocks := v.nblocks + 1 }

/-- The direct blocks that the inode has, among those in the list. -/
def Dinode.directs (d : Dinode) (l : List (Fin NDIRECT)) : List (Fin NDIRECT) :=
  l.filter fun j => d.addrs j ≠ 0

/-- What the loop of `version_create` did: the blocks `bs` are copies of the direct blocks. -/
structure Copied (st : Bool) (fr : Option ℕ) (lg : ℕ → Dinode) (hand : List ℕ) (d : Dinode)
    (l : List (Fin NDIRECT)) (bs : List ℕ) (s s' : Fs) : Prop where
  /-- The invariant holds, with the copies in hand. -/
  core : Core st none fr lg (bs.reverse ++ hand) s'
  /-- The cache, the versions and the deleted files are the same. -/
  same : SameMeta s s'
  /-- So is everything else that only `beginOp`, `endOp` and the like change. -/
  rest : s'.rest = s.rest
  /-- No inode is written. -/
  dinode : s'.view.dinode = s.view.dinode
  /-- Blocks in use are not written. -/
  old : ∀ b, s.view.used b = true → s'.view.block b = s.view.block b
  /-- The copies are new data blocks. -/
  fresh : ∀ b ∈ bs, s.sb.Area b ∧ s.view.used b = false
  /-- They are marked used. -/
  used : ∀ b, s'.view.used b = true ↔ s.view.used b = true ∨ b ∈ bs
  /-- Each holds what a direct block holds. -/
  data : bs.map s'.view.block = (d.directs l).map fun j => s.view.block (d.addrs j).toNat
  /-- Only they enter the reference-count table. -/
  tracks : TracksMore bs s.refcounts s'.refcounts
  /-- They and their bits in the free map are logged. -/
  logged : Logged (fun x => ∃ b ∈ bs, x = s.sb.bblock b ∨ x = b) s s'

theorem Copied.nil (h : Core st none fr lg hand s) (d : Dinode) :
    Copied st fr lg hand d [] [] s s where
  core := h
  same := ⟨rfl, rfl, rfl, rfl, rfl⟩
  rest := rfl
  dinode := rfl
  old := fun _ _ => rfl
  fresh := by nofun
  used := fun b => by simp
  data := rfl
  tracks := .refl _
  logged := (Logged.refl s).congr fun x => by simp

theorem Copied.trans {d : Dinode} {l l' : List (Fin NDIRECT)} {bs bs' : List ℕ}
    (h : Copied st fr lg hand d l bs s s') (h' : Copied st fr lg (bs.reverse ++ hand) d l' bs' s' s'')
    (hused : ∀ j ∈ d.directs l', s.view.used (d.addrs j).toNat = true) :
    Copied st fr lg hand d (l ++ l') (bs ++ bs') s s'' where
  core := by
    rw [List.reverse_append, List.append_assoc]
    exact h'.core
  same := ⟨h'.same.sb.trans h.same.sb, h'.same.icache.trans h.same.icache,
    h'.same.versions.trans h.same.versions, h'.same.deleted.trans h.same.deleted,
    h'.same.lost.trans h.same.lost⟩
  rest := h'.rest.trans h.rest
  dinode := h'.dinode.trans h.dinode
  old := fun b hb => (h'.old b ((h.used b).mpr (.inl hb))).trans (h.old b hb)
  fresh := fun b hb => by
    rcases List.mem_append.mp hb with hl | hr
    · exact h.fresh b hl
    · obtain ⟨harea, hfree⟩ := h'.fresh b hr
      rw [h.same.sb] at harea
      refine ⟨harea, ?_⟩
      by_contra hne
      rw [Bool.not_eq_false] at hne
      rw [(h.used b).mpr (.inl hne)] at hfree
      cases hfree
  used := fun b => by rw [h'.used, h.used, List.mem_append, or_assoc]
  data := by
    have hfirst : bs.map s''.view.block = bs.map s'.view.block :=
      List.map_congr_left fun b hb => h'.old b ((h.used b).mpr (.inr hb))
    have hlast : ((d.directs l').map fun j => s'.view.block (d.addrs j).toNat) =
        (d.directs l').map fun j => s.view.block (d.addrs j).toNat :=
      List.map_congr_left fun j hj => h.old _ (hused j hj)
    rw [List.map_append, hfirst, h.data, h'.data, hlast, ← List.map_append]
    unfold Dinode.directs
    rw [List.filter_append]
  tracks := h.tracks.trans h'.tracks
  logged := (h.logged.trans h'.logged).congr fun x => by
    rw [h.same.sb]
    simp only [List.mem_append, or_and_right, exists_or]

/-- A new block is taken and written. -/
def Fs.fill (s : Fs) (b : ℕ) (x : Block) : Fs := (s.alloc b).wrote b x

theorem view_fill (hv : s.sb.Valid) (hb : s.sb.Area b) (x : Block) :
    (s.fill b x).view = (s.view.setUsed b true).setBlock b x := by
  have hwrote : (s.fill b x).view = (s.alloc b).view.setBlock b x := view_wrote hv hb
  rw [hwrote, view_alloc hv hb]
  unfold View.setBlock
  dsimp only
  rw [Function.update_idem]

theorem block_fill_of_ne (hv : s.sb.Valid) (hb : s.sb.Area b) (x : Block) {c : ℕ} (hc : c ≠ b) :
    (s.fill b x).view.block c = s.view.block c := by
  rw [view_fill hv hb]
  exact update_of_ne hc ..

theorem block_fill_self (hv : s.sb.Valid) (hb : s.sb.Area b) (x : Block) :
    (s.fill b x).view.block b = x := by
  rw [view_fill hv hb]
  exact update_self ..

theorem used_alloc (hv : s.sb.Valid) (hb : s.sb.Area b) (c : ℕ) :
    (s.alloc b).view.used c = true ↔ s.view.used c = true ∨ c = b := by
  have heq : (s.alloc b).view.used = update s.view.used b true := by
    rw [view_alloc hv hb]
    rfl
  rw [heq]
  by_cases hc : c = b
  · rw [hc, update_self]
    simp
  · rw [update_of_ne hc]
    simp [hc]

theorem used_fill (hv : s.sb.Valid) (hb : s.sb.Area b) (x : Block) (c : ℕ) :
    (s.fill b x).view.used c = true ↔ s.view.used c = true ∨ c = b := by
  have heq : (s.fill b x).view.used = (s.alloc b).view.used := by
    rw [view_fill hv hb, view_alloc hv hb]
    rfl
  rw [heq]
  exact used_alloc hv hb c

theorem dinode_fill (hv : s.sb.Valid) (hb : s.sb.Area b) (x : Block) :
    (s.fill b x).view.dinode = s.view.dinode := by
  rw [view_fill hv hb]
  rfl

theorem logged_fill (s : Fs) (b : ℕ) (x : Block) :
    Logged (fun y => y = s.sb.bblock b ∨ y = b) s (s.fill b x) :=
  ((logged_alloc s b).trans (logged_wrote (s.alloc b) b x)).congr fun y => by
    rw [or_assoc, or_self]

/-- A block in use is not one that is free. -/
theorem ne_of_used {w : View} {c : ℕ} (hc : w.used c = true) (hb : w.used b = false) : c ≠ b := by
  rintro rfl
  rw [hc] at hb
  cases hb

/-- One pass that copies a block. -/
theorem Copied.one (h : Core st none fr lg hand s) {d : Dinode} {j : Fin NDIRECT}
    (hj : d.addrs j ≠ 0) (hb : s.sb.Area b) (hfree : s.view.used b = false)
    {l : List BlockRefcount} (hl : TracksMore [b] s.refcounts l) :
    Copied st fr lg hand d [j] [b] s
      { s.fill b (s.view.block (d.addrs j).toNat) with refcounts := l } where
  core := ((h.alloc hb hfree).write _ (.inl List.mem_cons_self)).track hl fun c hc => by
    rw [List.mem_singleton.mp hc]
    exact List.mem_cons_self
  same := ⟨rfl, rfl, rfl, rfl, rfl⟩
  rest := rfl
  dinode := dinode_fill h.layout hb _
  old := fun c hc => block_fill_of_ne h.layout hb _ (ne_of_used hc hfree)
  fresh := fun c hc => by
    rw [List.mem_singleton.mp hc]
    exact ⟨hb, hfree⟩
  used := fun c => by
    rw [List.mem_singleton]
    exact used_fill h.layout hb _ c
  data := by
    unfold Dinode.directs
    rw [List.filter_cons_of_pos (by simpa using hj), List.filter_nil, List.map_singleton,
      List.map_singleton]
    exact congrArg (fun x => [x]) (block_fill_self h.layout hb _)
  tracks := hl
  logged := by
    have hlog := (logged_fill s b (s.view.block (d.addrs j).toNat)).congr
      (Y := fun x => ∃ c ∈ [b], x = s.sb.bblock c ∨ x = c) fun x => by simp
    exact ⟨hlog.logSize, hlog.outstanding, hlog.nodup, hlog.mem⟩

/-- A pass that finds no block copies none. -/
theorem Copied.skip {d : Dinode} {j : Fin NDIRECT} {l : List (Fin NDIRECT)} {bs : List ℕ}
    (h : Copied st fr lg hand d l bs s s') (hj : d.addrs j = 0) :
    Copied st fr lg hand d (j :: l) bs s s' :=
  { h with
    data := by
      unfold Dinode.directs
      rw [List.filter_cons_of_neg (by simpa using hj)]
      exact h.data }

/-- The direct blocks of a loaded inode are data blocks in use. -/
theorem Core.direct_used (h : Core st none fr lg hand s) (hk : (s.icache k).Live) {j : Fin NDIRECT}
    (hj : (s.icache k).din.addrs j ≠ 0) :
    s.sb.Area ((s.icache k).din.addrs j).toNat ∧
      s.view.used ((s.icache k).din.addrs j).toNat = true := by
  obtain ⟨hlg, -⟩ := h.cache.cached k hk (by nofun)
  have href : refs lg s.view.block s.versions (.data (s.icache k).inum.toNat j) =
      ((s.icache k).din.addrs j).toNat := by
    show (lg (s.icache k).inum.toNat).map s.view.block j = _
    rw [hlg, map_of_lt _ _ j.isLt]
  have hne := toNat_ne_zero.mpr hj
  rw [← href] at hne ⊢
  exact ⟨h.own.inArea _ hne, h.own.isUsed _ hne⟩

theorem copyBlocks_spec (h : Core st none fr lg hand s) (hk : (s.icache k).Live)
    (hE : ∀ e s', e.Benign → E e s') (l : List (Fin NDIRECT)) (v : VersionNode) :
    wp (copyBlocks k l v) (fun v' s' => ∃ bs, Copied st fr lg hand (s.icache k).din l bs s s' ∧
      v' = bs.foldl VersionNode.push v) E s := by
  induction l generalizing s hand v with
  | nil => exact ⟨[], .nil h _, rfl⟩
  | cons j l ih =>
    unfold copyBlocks
    rw [wp_bind, wp_inode, wp_ite]
    refine ⟨fun hz => ?_, fun hne => ?_⟩
    · refine wp_mono (ih h hk v) ?_ fun _ _ => id
      rintro v' s' ⟨bs, hcopied, hv⟩
      exact ⟨bs, hcopied.skip hz, hv⟩
    · obtain ⟨harea, hused⟩ := h.direct_used hk hne
      rw [wp_bind]
      refine wp_balloc h.metaUsed (fun b hb hfree => ?_)
        (fun _ => hE _ _ benign_ballocOut) fun e s' he _ => hE e s' he.benign
      have htoNat := View.toNat_ofNat_area h.layout hb
      have hb0 : UInt32.ofNat b ≠ 0 := by
        intro heq
        have := View.area_ne_zero h.layout hb
        rw [heq] at htoNat
        exact this htoNat.symm
      rw [wp_ite]
      refine ⟨fun heq => absurd heq hb0, fun _ => ?_⟩
      have hread : (s.alloc b).disk ((s.icache k).din.addrs j).toNat =
          s.view.block ((s.icache k).din.addrs j).toNat := by
        rw [← block_alloc_of_ne h.layout hb (ne_of_used hused hfree)]
        exact disk_eq_block harea
      rw [wp_bind, wp_bread, hread, wp_bind, htoNat]
      refine wp_logWrite ?_ fun e s' he _ => hE e s' he.benign
      rw [wp_bind]
      refine wp_brefInc fun refcounts hl => ?_
      rw [htoNat] at hl
      have hone := Copied.one h hne hb hfree hl
      refine wp_mono (ih hone.core (s := { s.fill b _ with refcounts }) hk _) ?_ fun _ _ => id
      rintro v' s' ⟨bs, hcopied, hv⟩
      refine ⟨b :: bs, hone.trans hcopied fun j' hj' => ?_, hv⟩
      exact (h.direct_used hk (by simpa using (List.mem_filter.mp hj').2)).2

/-! ## The version node -/

/-- The data blocks of a version node after `VersionNode.push` of each block of a list. -/
theorem foldl_push (bs : List ℕ) (v : VersionNode) (hlen : v.nblocks.toNat + bs.length < 2 ^ 32) :
    (bs.foldl VersionNode.push v).nblocks.toNat = v.nblocks.toNat + bs.length ∧
      (∀ j : Fin VNODE_DATA_BLOCKS, (bs.foldl VersionNode.push v).dataBlocks j =
        if j.val < v.nblocks.toNat then v.dataBlocks j
        else if j.val < v.nblocks.toNat + bs.length then .ofNat (bs.getD (j - v.nblocks.toNat) 0)
        else v.dataBlocks j) ∧
      (bs.foldl VersionNode.push v).prevVersion = v.prevVersion ∧
      (bs.foldl VersionNode.push v).fileSize = v.fileSize := by
  induction bs generalizing v with
  | nil =>
    refine ⟨rfl, fun j => ?_, rfl, rfl⟩
    show v.dataBlocks j = _
    split
    · rfl
    · rename_i hj
      rw [if_neg (by simpa using hj)]
  | cons b bs ih =>
    rw [List.length_cons] at hlen
    have hone : (v.push b).nblocks.toNat = v.nblocks.toNat + 1 := by
      show (v.nblocks + 1).toNat = _
      rw [UInt32.toNat_add]
      exact Nat.mod_eq_of_lt (by show v.nblocks.toNat + 1 < 2 ^ 32; omega)
    obtain ⟨hn, hdata, hprev, hsize⟩ := ih (v.push b) (by rw [hone]; omega)
    rw [List.foldl_cons, List.length_cons]
    refine ⟨by rw [hn, hone]; omega, fun j => ?_, hprev, hsize⟩
    rw [hdata j, hone]
    have hpush : (v.push b).dataBlocks j =
        if j.val = v.nblocks.toNat then .ofNat b else v.dataBlocks j := rfl
    rw [hpush]
    -- before the block, at it, or after it
    rcases Nat.lt_trichotomy j.val v.nblocks.toNat with hlt | heq | hgt
    · rw [if_pos (by omega), if_neg (by omega), if_pos hlt]
    · rw [if_pos (by omega), if_pos heq, if_neg (by omega), if_pos (by omega), heq, Nat.sub_self]
      rfl
    · rw [if_neg (show ¬ j.val < v.nblocks.toNat + 1 by omega),
        if_neg (show ¬ j.val = v.nblocks.toNat by omega),
        if_neg (show ¬ j.val < v.nblocks.toNat by omega)]
      by_cases hj : j.val < v.nblocks.toNat + 1 + bs.length
      · rw [if_pos hj, if_pos (by omega)]
        obtain ⟨m, hm⟩ : ∃ m, j.val - v.nblocks.toNat = m + 1 :=
          ⟨j.val - v.nblocks.toNat - 1, by omega⟩
        rw [hm, List.getD_cons_succ]
        congr 2
        omega
      · rw [if_neg hj, if_neg (by omega)]

/-- The loop leaves the label of the version as it is. -/
theorem foldl_push_label (bs : List ℕ) (v : VersionNode) :
    (bs.foldl VersionNode.push v).timestamp = v.timestamp ∧
      (bs.foldl VersionNode.push v).description = v.description := by
  induction bs generalizing v with
  | nil => exact ⟨rfl, rfl⟩
  | cons b bs ih => exact ih (v.push b)

/-- Collecting the values at the first `m` indices. -/
theorem getD_filterMap_finRange {α : Type} (n m : ℕ) (f : Fin n → α) (a : α) {j : ℕ} (hj : j < n)
    (hm : j < m) :
    ((List.finRange n).filterMap fun i => if i.val < m then some (f i) else none).getD j a =
      f ⟨j, hj⟩ := by
  induction n generalizing m j with
  | zero => cases hj
  | succ n ih =>
    rw [List.finRange_succ, List.filterMap_cons_some (b := f 0) (by
      rw [if_pos (by show (0 : ℕ) < m; omega)]), List.filterMap_map]
    cases j with
    | zero => rfl
    | succ j =>
      rw [List.getD_cons_succ]
      have htail := ih (m - 1) (fun i => f i.succ) (j := j) (by omega) (by omega)
      refine Eq.trans ?_ htail
      congr 2
      funext i
      show (if i.val + 1 < m then some (f i.succ) else none) = _
      by_cases hi : i.val < m - 1
      · rw [if_pos hi, if_pos (by omega)]
      · rw [if_neg hi, if_neg (by omega)]

/-! ## The version joins the file -/

theorem Chain.append {vs : List Version} {head : UInt32} {c : List Version} (h : Chain vs head c)
    (v : Version) : Chain (vs ++ [v]) head c := ⟨h.1, h.2.trans (List.sublist_append_left ..)⟩

theorem Chain.cons {vs : List Version} {v : Version} {c : List Version} (h : Chain vs v.prev c) :
    Chain (vs ++ [v]) v.node (v :: c) := by
  refine ⟨⟨rfl, h.1⟩, ?_⟩
  rw [List.reverse_cons]
  exact h.2.append (List.Sublist.refl _)

theorem Reaches.append {vs : List Version} {head : UInt32} {u : Version} (h : Reaches vs head u)
    (v : Version) : Reaches (vs ++ [v]) head u := by
  obtain ⟨c, hc, hu⟩ := h
  exact ⟨c, hc.append v, hu⟩

theorem Reaches.cons {vs : List Version} {v u : Version} (h : Reaches vs v.prev u) :
    Reaches (vs ++ [v]) v.node u := by
  obtain ⟨c, hc, hu⟩ := h
  exact ⟨v :: c, hc.cons, List.mem_cons_of_mem _ hu⟩

/-- A new version owns its blocks. -/
theorem refs_push (lg : ℕ → Dinode) (blk : ℕ → Block) (vs : List Version) (v : Version) :
    refs lg blk (vs ++ [v]) (.vnode vs.length) = v.node.toNat ∧
      (∀ j, refs lg blk (vs ++ [v]) (.vdata vs.length j) = v.dataBlock j) ∧
      ∀ o, o ≠ .vnode vs.length → (∀ j, o ≠ .vdata vs.length j) →
        refs lg blk (vs ++ [v]) o = refs lg blk vs o := by
  have hself : (vs ++ [v])[vs.length]? = some v := List.getElem?_concat_length
  have hother : ∀ n, n ≠ vs.length → (vs ++ [v])[n]? = vs[n]? := by
    intro n hn
    rcases Nat.lt_or_gt_of_ne hn with hlt | hgt
    · exact List.getElem?_append_left hlt
    · rw [List.getElem?_eq_none (by rw [List.length_append, List.length_singleton]; omega),
        List.getElem?_eq_none (by omega)]
  refine ⟨?_, fun j => ?_, fun o hnode hdata => ?_⟩
  · show ((vs ++ [v])[vs.length]?.map fun v => v.node.toNat).getD 0 = _
    rw [hself]
    rfl
  · show ((vs ++ [v])[vs.length]?.map fun v => v.dataBlock j).getD 0 = _
    rw [hself]
    rfl
  · cases o with
    | data i bn => rfl
    | indirect i => rfl
    | vnode n =>
      show ((vs ++ [v])[n]?.map fun v => v.node.toNat).getD 0 = _
      rw [hother n (by rintro rfl; exact hnode rfl)]
      rfl
    | vdata n j =>
      show ((vs ++ [v])[n]?.map fun v => v.dataBlock j).getD 0 = _
      rw [hother n (by rintro rfl; exact hdata j rfl)]
      rfl

/-- The version `v` of the inode `i`, which is `d`: its node is in block `vb` and its data blocks are
`bs`. -/
structure NewVersion (st : Bool) (n : ℕ) (blk : ℕ → Block) (i : ℕ) (d : Dinode) (vb : ℕ)
    (bs : List ℕ) (v : Version) : Prop where
  /-- The node is where it says it is. -/
  node : v.node.toNat = vb
  /-- It is recorded as it is. -/
  block : blk vb = v.block
  /-- It follows the file's latest version. -/
  prev : v.prev = d.versionHead
  /-- It has as many blocks as there are copies. -/
  nblocks : v.nblocks = bs.length
  /-- They fit. -/
  le : bs.length ≤ VNODE_DATA_BLOCKS
  /-- They are the copies. -/
  dataBlock : ∀ j, v.dataBlock j = bs.getD j 0
  /-- What they hold is recorded. -/
  content : ∀ j < bs.length, blk (bs.getD j 0) = v.content j
  /-- It is not larger than a file can be. -/
  bound : v.vnode.fileSize.toNat ≤ MAXFILE * BSIZE
  /-- The version can be restored. -/
  ok : VersionFor st n blk i d v

theorem getD_mem {l : List ℕ} {j : ℕ} (h : j < l.length) : l.getD j 0 ∈ l := by
  rw [List.getD_eq_getElem _ _ h]
  exact List.getElem_mem h

/-- The blocks in hand are given to the new version. -/
theorem NewVersion.own {vb n : ℕ} {bs : List ℕ} {v : Version} {d : Dinode} {blk : ℕ → Block}
    {vs : List Version} {used : ℕ → Bool} {area : ℕ → Prop} (hv : NewVersion st n blk i d vb bs v)
    (h : Own (refs lg blk vs) (bs.reverse ++ vb :: hand) used area) :
    Own (refs lg blk (vs ++ [v])) hand used area := by
  obtain ⟨hnode, hdata, hother⟩ := refs_push lg blk vs v
  have hzero : ∀ j, refs lg blk vs (.vdata vs.length j) = 0 := by
    intro j
    show (vs[vs.length]?.map fun v => v.dataBlock j).getD 0 = 0
    rw [List.getElem?_eq_none (le_refl _)]
    rfl
  have hlist : bs.reverse ++ vb :: hand = (bs.reverse ++ [vb]) ++ hand := by
    rw [List.append_assoc]
    rfl
  rw [hlist] at h
  obtain ⟨hnd, -, -⟩ := List.nodup_append.mp h.nodup
  obtain ⟨hbs, -, hvb⟩ := List.nodup_append.mp hnd
  have hbs' : bs.Nodup := List.nodup_reverse.mp hbs
  -- who owns one of the blocks afterwards did not own it before
  have hnew : ∀ o, refs lg blk (vs ++ [v]) o ∈ bs.reverse ++ [vb] →
      o = .vnode vs.length ∨ ∃ j < bs.length, o = .vdata vs.length j := by
    intro o ho
    obtain ⟨h0, -, -, hno⟩ := h.held _ (List.mem_append_left _ ho)
    by_cases hvn : o = .vnode vs.length
    · exact .inl hvn
    · by_cases hvd : ∃ j, o = .vdata vs.length j
      · obtain ⟨j, rfl⟩ := hvd
        refine .inr ⟨j, ?_, rfl⟩
        by_contra hj
        rw [hdata, hv.dataBlock, List.getD_eq_default _ _ (not_lt.mp hj)] at h0
        exact h0 rfl
      · refine absurd ?_ (hno o)
        exact (hother o hvn fun j hj => hvd ⟨j, hj⟩).symm
  have hvb' : ∀ j < bs.length, bs.getD j 0 ≠ vb := by
    intro j hj heq
    exact hvb _ (List.mem_reverse.mpr (getD_mem hj)) vb List.mem_cons_self heq
  refine h.give (fun o => ?_) fun o o' ho heq => ?_
  · by_cases hvn : o = .vnode vs.length
    · rw [hvn, hnode, hv.node]
      exact .inr (List.mem_append_right _ List.mem_cons_self)
    · by_cases hvd : ∃ j, o = .vdata vs.length j
      · obtain ⟨j, rfl⟩ := hvd
        rw [hdata, hv.dataBlock, hzero]
        by_cases hj : j < bs.length
        · exact .inr (List.mem_append_left _ (List.mem_reverse.mpr (getD_mem hj)))
        · exact .inl (List.getD_eq_default _ _ (not_lt.mp hj))
      · exact .inl (hother o hvn fun j hj => hvd ⟨j, hj⟩)
  · rcases hnew o ho with rfl | ⟨j, hj, rfl⟩
    · rcases hnew o' (heq ▸ ho) with rfl | ⟨j', hj', rfl⟩
      · rfl
      · rw [hnode, hdata, hv.node, hv.dataBlock] at heq
        exact absurd heq.symm (hvb' j' hj')
    · rcases hnew o' (heq ▸ ho) with rfl | ⟨j', hj', rfl⟩
      · rw [hnode, hdata, hv.node, hv.dataBlock] at heq
        exact absurd heq (hvb' j hj)
      · rw [hdata, hdata, hv.dataBlock, hv.dataBlock, List.getD_eq_getElem _ _ hj,
          List.getD_eq_getElem _ _ hj'] at heq
        rw [(hbs'.getElem_inj_iff).mp heq]

/-- The new version is as it was left. -/
theorem NewVersion.versionsOk {vb n : ℕ} {bs : List ℕ} {v : Version} {d : Dinode}
    {blk : ℕ → Block} {vs : List Version} (hv : NewVersion st n blk i d vb bs v)
    (h : VersionsOk blk vs) (hvb : vb ≠ 0) (hbs : ∀ b ∈ bs, b ≠ 0) :
    VersionsOk blk (vs ++ [v]) := by
  have hsplit : ∀ P : Version → Prop, (∀ u ∈ vs, P u) → P v → ∀ u ∈ vs ++ [v], P u := by
    intro P hold hnew u hu
    rcases List.mem_append.mp hu with hu | hu
    · exact hold u hu
    · rw [List.mem_singleton.mp hu]
      exact hnew
  refine ⟨hsplit _ h.ne ?_, hsplit _ h.dataNe fun j hj => ?_, hsplit _ h.node ?_,
    hsplit _ h.nblocks ?_, hsplit _ h.data fun j hj => ?_, hsplit _ h.direct hv.ok.direct,
    hsplit _ h.bound hv.bound⟩
  · exact toNat_ne_zero.mp (hv.node ▸ hvb)
  · rw [hv.nblocks] at hj
    rw [hv.dataBlock]
    exact hbs _ (getD_mem hj)
  · rw [hv.node]
    exact hv.block
  · rw [hv.nblocks]
    exact hv.le
  · rw [hv.nblocks] at hj
    rw [hv.dataBlock]
    exact hv.content j hj

/-- Every version is still found, and the new one is at the head of the chain. -/
theorem Found.push {d' : Dinode} {deleted : Fin MAX_DELETED_FILES → DeletedEntry}
    {lost : List UInt32} {vs : List Version} {v u : Version} (htype : d'.type ≠ 0)
    (hhead : d'.versionHead = v.node) (hprev : v.prev = (lg i).versionHead)
    (h : Found lg deleted lost vs u) : Found (update lg i d') deleted lost (vs ++ [v]) u := by
  rcases h with ⟨j, hj, hreach⟩ | ⟨e, he, hreach⟩ | ⟨x, hx, hreach⟩
  · refine .inl ⟨j, ?_⟩
    by_cases hji : j = i
    · rw [hji] at hreach ⊢
      rw [update_self, hhead]
      exact ⟨htype, Reaches.cons (hprev ▸ hreach)⟩
    · rw [update_of_ne hji]
      exact ⟨hj, hreach.append v⟩
  · exact .inr (.inl ⟨e, he, hreach.append v⟩)
  · exact .inr (.inr ⟨x, hx, hreach.append v⟩)

/-- The blocks in hand become those of the new version. -/
theorem Core.push {vb : ℕ} {bs : List ℕ} {v : Version} {c : List Version}
    (h : Core st (some i) fr lg (bs.reverse ++ vb :: hand) s) (htype : (lg i).type ≠ 0)
    (hv : NewVersion st s.sb.ninodes s.view.block i (lg i) vb bs v)
    (hvb : ∀ e ∈ s.refcounts, e.valid = true → e.blockNum.toNat ≠ vb)
    (hchain : Chain s.versions (lg i).versionHead c) :
    Core st (some i) fr (update lg i { lg i with versionHead := v.node }) hand
      { s with versions := s.versions ++ [v] } := by
  have hne : ∀ j, some i ≠ some j →
      update lg i { lg i with versionHead := v.node } j = lg j := fun j hj =>
    update_of_ne (fun heq => hj (by rw [heq])) _ _
  obtain ⟨-, hdata, hother⟩ := refs_push lg s.view.block s.versions v
  have hrefs : refs (update lg i { lg i with versionHead := v.node }) s.view.block
      (s.versions ++ [v]) = refs lg s.view.block (s.versions ++ [v]) := refs_relabel _ _ rfl rfl
  have hzero : ∀ b ∈ bs.reverse ++ vb :: hand, b ≠ 0 := fun b hb => (h.own.held b hb).1
  refine ⟨h.layout, h.metaUsed, ?_, ?_, ?_, ?_, ?_, ?_, ?_⟩
  · refine ⟨h.cache.nonneg, h.cache.dev, h.cache.inum, h.cache.uniq, ?_, ?_, h.cache.window⟩
    · intro k hk hw
      rw [hne _ hw]
      exact h.cache.cached k hk hw
    · intro j hj
      obtain ⟨k, hk, heq⟩ := h.cache.window i rfl
      rw [hne j fun hij => hj k hk (heq.trans (Option.some.inj hij))]
      exact h.cache.uncached j hj
  · show Own (refs _ s.view.block (s.versions ++ [v])) hand s.view.used s.sb.Area
    rw [hrefs]
    exact hv.own h.own
  · intro j hj
    rw [hne j hj]
    intro ht
    have hnode := h.node j hj ht
    obtain ⟨c, hc, hall⟩ := hnode.chain
    exact { hnode with chain := ⟨c, hc.append v, hall⟩ }
  · refine hv.versionsOk h.vers (hzero vb ?_) fun b hb => hzero b ?_
    · exact List.mem_append_right _ List.mem_cons_self
    · exact List.mem_append_left _ (List.mem_reverse.mpr hb)
  · intro e he
    obtain ⟨c, hc⟩ := h.deleted e he
    exact ⟨c, hc.append v⟩
  · intro e he hvalid
    show _ ∨ ∃ n k, refs _ s.view.block (s.versions ++ [v]) (.vdata n k) = _ ∧ _
    rw [hrefs]
    rcases h.tracked e he hvalid with hm | ⟨n, j, href, h0⟩
    · rcases List.mem_append.mp hm with hcopy | hrest
      · obtain ⟨j, hj, heq⟩ := List.mem_iff_getElem.mp (List.mem_reverse.mp hcopy)
        refine .inr ⟨s.versions.length, j, ?_, ?_⟩
        · rw [hdata, hv.dataBlock, List.getD_eq_getElem _ _ hj, heq]
        · exact toNat_ne_zero.mp (hzero _ hm)
      · rcases List.mem_cons.mp hrest with heq | hhand
        · exact absurd heq (hvb e he hvalid)
        · exact .inl hhand
    · refine .inr ⟨n, j, ?_, h0⟩
      by_cases hn : n = s.versions.length
      · refine absurd ?_ (toNat_ne_zero.mpr h0)
        rw [← href, hn]
        show (s.versions[s.versions.length]?.map fun v => v.dataBlock j).getD 0 = 0
        rw [List.getElem?_eq_none (le_refl _)]
        rfl
      · rw [hother _ (by nofun) fun j' hj' => hn (Owner.vdata.inj hj').1]
        exact href
  · intro u hu
    rcases List.mem_append.mp hu with hold | hnew
    · exact (h.found u hold).push htype rfl hv.prev
    · rw [List.mem_singleton.mp hnew]
      refine .inl ⟨i, ?_⟩
      rw [update_self]
      exact ⟨htype, v :: c, Chain.cons (hv.prev ▸ hchain), List.mem_cons_self⟩

end ChronoFS
