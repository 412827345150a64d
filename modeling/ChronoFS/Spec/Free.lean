import ChronoFS.Spec.Write

/-!
# Freeing blocks and inodes

A block of a file is freed in two steps: it is taken from the file into hand, which the invariant
allows while the file is being changed, and then the free map is changed. A block in hand is marked
used, so `bfree` does not panic. The blocks of files are never in the reference-count table
(`Core.untracked`), so `releaseBlock` frees at once.

`iput` frees the inode when the last reference to an inode without links goes. Otherwise it may drop
the last in-memory copy of an inode, and with it the addresses that only this copy had.
-/

namespace ChronoFS

open Function

variable {st : Bool} {w fr : Option ℕ} {lg lg' lg'' : ℕ → Dinode} {hand : List ℕ} {s s' s'' : Fs}
  {k : Slot} {i b bn n off : ℕ} {E : Halt → Fs → Prop} {H : Slot → ℤ × ℤ}

/-! ## Blocks in hand -/

/-- Freeing a block in hand does not panic. -/
theorem wp_bfree_held {Q : Unit → Fs → Prop} (h : Core st w fr lg (b :: hand) s) {a : UInt32}
    (ha : a.toNat = b) (hok : Q () (s.free b)) (hlog : ∀ e s', e.Log → ¬ s.Room 1 → E e s') :
    wp (bfree a) Q E s := by
  obtain ⟨-, harea, hused, -⟩ := h.own.held b List.mem_cons_self
  subst ha
  refine wp_bfree harea.2 (fun _ => hok) (fun hfree => ?_) hlog
  rw [hused] at hfree
  cases hfree

/-- A block that is not in the reference-count table is freed at once. -/
theorem wp_releaseBlock {Q : Unit → Fs → Prop} (h : Core st w fr lg (b :: hand) s) {a : UInt32}
    (ha : a.toNat = b) (hb : ∀ e ∈ s.refcounts, e.valid = true → e.blockNum.toNat ≠ b)
    (hok : Q () (s.free b)) (hlog : ∀ e s', e.Log → ¬ s.Room 1 → E e s') :
    wp (releaseBlock a) Q E s := by
  have hnone : s.refcounts.any (·.covers a) = false := by
    rw [List.any_eq_false]
    intro e he hcov
    unfold BlockRefcount.covers at hcov
    rw [Bool.and_eq_true, beq_iff_eq] at hcov
    exact hb e he hcov.1 (by rw [hcov.2, ha])
  unfold releaseBlock brefIsTracked
  rw [wp_bind, wp_bind, wp_get, wp_pure, hnone]
  exact wp_bfree_held h ha hok hlog

theorem Logged.setSlot {X : ℕ → Prop} (h : Logged X s s') (k : Slot) (ip : Inode) :
    Logged X s (s'.setSlot k ip) := ⟨h.logSize, h.outstanding, h.nodup, h.mem⟩

theorem logged_free (s : Fs) (b : ℕ) : Logged (fun x => x = s.sb.bblock b) s (s.free b) :=
  logged_wrote ..

/-! ## The direct blocks -/

/-- The inode without the direct blocks in `l`. -/
def Dinode.clear (d : Dinode) (l : List (Fin NDIRECT)) : Dinode :=
  { d with addrs := fun j => if j ∈ l then 0 else d.addrs j }

theorem clear_nil (d : Dinode) : d.clear [] = d := by
  unfold Dinode.clear
  simp

theorem clear_append (d : Dinode) (l : List (Fin NDIRECT)) (j : Fin NDIRECT) :
    d.clear (l ++ [j]) = (d.clear l).setAddr j 0 := by
  unfold Dinode.clear Dinode.setAddr
  congr 1
  funext j'
  by_cases hj : j' = j
  · rw [hj, update_self, if_pos (List.mem_append_right _ (List.mem_singleton_self j))]
  · rw [update_of_ne hj]
    simp [hj]

/-- From `s` to `s'`, the direct blocks in `l` of the inode in slot `k` were freed. -/
structure FreedDirect (st : Bool) (fr : Option ℕ) (hand : List ℕ) (k : Slot)
    (l : List (Fin NDIRECT)) (lg : ℕ → Dinode) (s : Fs) (lg' : ℕ → Dinode) (s' : Fs) : Prop where
  /-- The inode is still being changed. -/
  win : Win st fr lg' hand k s'
  /-- Nothing else changed. -/
  within : Within k s s'
  /-- The inode has lost these blocks. -/
  din : (s'.icache k).din = (s.icache k).din.clear l
  /-- The inodes on disk are the same. -/
  dinode : s'.view.dinode = s.view.dinode
  /-- So is what the blocks hold. -/
  block : s'.view.block = s.view.block
  /-- The blocks are free. -/
  used : ∀ b, s'.view.used b = true ↔ s.view.used b = true ∧
    ∀ j ∈ l, (s.icache k).din.addrs j ≠ 0 → ((s.icache k).din.addrs j).toNat ≠ b
  /-- The part of the free map that lists them was logged. -/
  logged : Logged (fun x => ∃ j ∈ l, (s.icache k).din.addrs j ≠ 0 ∧
    x = s.sb.bblock ((s.icache k).din.addrs j).toNat) s s'
  /-- The other inodes count as before. -/
  others : ∀ j, j ≠ (s.icache k).inum.toNat → lg' j = lg j

theorem FreedDirect.nil (h : Win st fr lg hand k s) : FreedDirect st fr hand k [] lg s lg s := by
  refine ⟨h, .refl k s, (clear_nil _).symm, rfl, rfl, fun b => ?_, ?_, fun _ _ => rfl⟩
  · simp
  · exact (Logged.refl s).congr fun x => by simp

/-- One more direct block is freed. -/
theorem FreedDirect.step {l : List (Fin NDIRECT)} {j : Fin NDIRECT} {s0 : Fs} {lg0 : ℕ → Dinode}
    (h : FreedDirect st fr hand k l lg0 s0 lg s) (hj : j ∉ l)
    (hlog : ∀ e s', e.Log → ¬ s.Room 1 → E e s') :
    wp (freeDirect k j)
      (fun _ s' => ∃ lg', FreedDirect st fr hand k (l ++ [j]) lg0 s0 lg' s') E s := by
  have hwin := h.win
  have haddr : (s.icache k).din.addrs j = (s0.icache k).din.addrs j := by
    rw [h.din]
    exact if_neg hj
  unfold freeDirect
  rw [wp_bind, wp_inode, wp_ite]
  refine ⟨fun hne => ?_, fun hz => ?_⟩
  · -- the block is taken from the file, then freed
    have hne' : (lg (s.icache k).inum.toNat).addrs j ≠ 0 := by
      rw [hwin.eq]
      exact hne
    have hb : ((lg (s.icache k).inum.toNat).addrs j).toNat = ((s.icache k).din.addrs j).toNat := by
      rw [hwin.eq]
    have href : refs lg s.view.block s.versions (.data (s.icache k).inum.toNat j) =
        ((s.icache k).din.addrs j).toNat := (map_of_lt _ _ j.isLt).trans hb
    have huntracked : ∀ e ∈ s.refcounts, e.valid = true →
        e.blockNum.toNat ≠ ((s.icache k).din.addrs j).toNat := by
      rw [← href]
      exact hwin.core.untracked (by nofun) (href ▸ toNat_ne_zero.mpr hne)
    have hcore := hwin.core.detachDirect hne'
    rw [hb, hwin.eq] at hcore
    have harea : s.sb.Area ((s.icache k).din.addrs j).toNat :=
      href ▸ hwin.core.own.inArea _ (href ▸ toNat_ne_zero.mpr hne)
    have hview := view_free hwin.core.layout harea.2
    rw [wp_bind]
    refine wp_releaseBlock hcore rfl huntracked ?_ hlog
    rw [wp_setDin (s := s.free _) hwin.audited]
    have hwin' : Win st fr (update lg (s.icache k).inum.toNat ((s.icache k).din.setAddr j 0)) hand k
        ((s.free ((s.icache k).din.addrs j).toNat).setSlot k
          { s.icache k with din := (s.icache k).din.setAddr j 0 }) :=
      (hcore.free huntracked).win hwin.live rfl rfl hwin.audited _ (update_self ..)
    refine ⟨_, hwin', h.within.trans (within_setDin s (s.free _) rfl rfl k _), ?_, ?_, ?_, fun b => ?_,
      ?_, fun i hi => ?_⟩
    · rw [setSlot_self, clear_append, ← h.din]
      rfl
    · rw [view_setSlot, hview]
      exact h.dinode
    · rw [view_setSlot, hview]
      exact h.block
    · rw [view_setSlot, hview]
      show update s.view.used _ false b = true ↔ _
      by_cases hbj : b = ((s.icache k).din.addrs j).toNat
      · rw [hbj, update_self]
        simp only [Bool.false_eq_true, false_iff, not_and]
        intro _ hall
        refine hall j (List.mem_append_right _ (List.mem_singleton_self j)) ?_ ?_
        · rw [← haddr]
          exact hne
        · rw [haddr]
      · rw [update_of_ne hbj, h.used]
        refine and_congr_right fun _ => ⟨fun hall j' hj' => ?_, fun hall j' hj' => ?_⟩
        · rcases List.mem_append.mp hj' with hold | hnew
          · exact hall j' hold
          · rw [List.mem_singleton.mp hnew, ← haddr]
            exact fun _ heq => hbj heq.symm
        · exact hall j' (List.mem_append_left _ hj')
    · refine ((h.logged.trans (logged_free s _)).congr fun x => ?_).setSlot _ _
      rw [h.within.sb, haddr]
      simp only [List.mem_append, List.mem_singleton, or_and_right, exists_or, exists_eq_left]
      rw [haddr] at hne
      simp [hne]
    · rw [update_of_ne (by rw [h.within.inum]; exact hi)]
      exact h.others i hi
  · rw [wp_pure]
    have hz' : (s0.icache k).din.addrs j = 0 := by
      rw [← haddr]
      exact not_not.mp hz
    refine ⟨lg, hwin, h.within, ?_, h.dinode, h.block, fun b => ?_, ?_, h.others⟩
    · rw [clear_append, ← h.din]
      unfold Dinode.setAddr
      rw [← not_not.mp hz, Function.update_eq_self]
    · rw [h.used]
      refine and_congr_right fun _ => ⟨fun hall j' hj' hne => ?_, fun hall j' hj' => ?_⟩
      · rcases List.mem_append.mp hj' with hold | hnew
        · exact hall j' hold hne
        · rw [List.mem_singleton.mp hnew] at hne
          exact absurd hz' hne
      · exact hall j' (List.mem_append_left _ hj')
    · refine h.logged.congr fun x => ?_
      simp only [List.mem_append, List.mem_singleton, or_and_right, exists_or, exists_eq_left]
      simp [hz']

/-- The loop over the direct blocks frees them all. -/
theorem freeDirect_loop (h : Win st fr lg hand k s)
    (hlog : ∀ e s' l lg' s'', e.Log → FreedDirect st fr hand k l lg s lg' s'' → ¬ s''.Room 1 → E e s') :
    wp ((List.finRange NDIRECT).forM (freeDirect k))
      (fun _ s' => ∃ lg', FreedDirect st fr hand k (List.finRange NDIRECT) lg s lg' s') E s := by
  refine wp_forM (fun done s' => ∃ lg', FreedDirect st fr hand k done lg s lg' s') ⟨lg, .nil h⟩ ?_
    fun _ hs => hs
  rintro done j rest s1 hl ⟨lg1, hfreed⟩
  refine hfreed.step ?_ fun e s' he hr => hlog e s' done lg1 s1 he hfreed hr
  have hnd := List.nodup_finRange NDIRECT
  rw [hl, List.nodup_append] at hnd
  exact fun hmem => hnd.2.2 j hmem j List.mem_cons_self rfl

/-! ## The indirect block -/

/-- A block of the free map. -/
def FreeMap (sb : Superblock) (x : ℕ) : Prop := ∃ b, x = sb.bblock b

/-- From `s` to `s'`, blocks in hand were freed. -/
structure FreedHand (k : Slot) (s s' : Fs) : Prop where
  /-- Nothing else changed. -/
  within : Within k s s'
  /-- The in-memory inode is the same. -/
  icache : s'.icache = s.icache
  /-- The inodes on disk are the same. -/
  dinode : s'.view.dinode = s.view.dinode
  /-- The reference-count table is the same. -/
  refcounts : s'.refcounts = s.refcounts
  /-- Only the free map was logged. -/
  logged : ∃ X, (∀ x, X x → FreeMap s.sb x) ∧ Logged X s s'

theorem FreedHand.refl (k : Slot) (s : Fs) : FreedHand k s s :=
  ⟨.refl k s, rfl, rfl, rfl, _, fun _ hx => hx.elim, .refl s⟩

theorem FreedHand.free {s0 : Fs} (h : FreedHand k s0 s) (hv : s.sb.Valid) (hb : b < s.sb.size) :
    FreedHand k s0 (s.free b) := by
  obtain ⟨X, hX, hlog⟩ := h.logged
  refine ⟨h.within.trans ⟨rfl, rfl, fun _ _ => rfl⟩, h.icache, ?_, h.refcounts, _, ?_,
    hlog.trans (logged_free s b)⟩
  · rw [view_free hv hb]
    exact h.dinode
  · rintro x (hx | rfl)
    · exact hX x hx
    · exact ⟨b, by rw [h.within.sb]⟩

/-- The blocks that an indirect block lists from entry `m` on. -/
def entriesFrom (bp : Block) (m : ℕ) : List ℕ :=
  (((List.range NINDIRECT).drop m).filter fun j => bp.word j ≠ 0).map fun j => (bp.word j).toNat

/-- The loop over the entries of an indirect block frees the blocks, which are in hand. -/
theorem freeEntries_loop {bp : Block} (h : Core st w fr lg (entriesFrom bp 0 ++ hand) s)
    (hb : ∀ b ∈ entriesFrom bp 0, ∀ e ∈ s.refcounts, e.valid = true → e.blockNum.toNat ≠ b)
    (hE : ∀ e s', e.Benign → E e s') :
    wp ((List.range NINDIRECT).forM fun j => do
        if bp.word j ≠ 0 then bfree (bp.word j) else return)
      (fun _ s' => Core st w fr lg hand s' ∧ FreedHand k s s') E s := by
  refine wp_forM (fun done s' => Core st w fr lg (entriesFrom bp done.length ++ hand) s' ∧
    FreedHand k s s') ⟨h, .refl k s⟩ ?_ ?_
  · rintro done j rest s1 hl ⟨hcore, hfreed⟩
    have hdrop : (List.range NINDIRECT).drop done.length = j :: rest := by
      rw [hl, List.drop_left]
    have hdrop' : (List.range NINDIRECT).drop (done ++ [j]).length = rest := by
      rw [hl, List.length_append, ← List.drop_drop, List.drop_left]
      rfl
    -- the blocks still in hand are among those of all entries
    have hsub : ∀ b ∈ entriesFrom bp done.length, b ∈ entriesFrom bp 0 := by
      intro b hb
      unfold entriesFrom at hb ⊢
      obtain ⟨j', hj', rfl⟩ := List.mem_map.mp hb
      rw [List.mem_filter] at hj'
      exact List.mem_map.mpr ⟨j', List.mem_filter.mpr ⟨List.mem_of_mem_drop hj'.1, hj'.2⟩, rfl⟩
    by_cases hne : bp.word j ≠ 0
    · have hfrom : entriesFrom bp done.length =
          (bp.word j).toNat :: entriesFrom bp (done ++ [j]).length := by
        unfold entriesFrom
        rw [hdrop, hdrop', List.filter_cons_of_pos (by simpa using hne), List.map_cons]
      rw [hfrom] at hcore hsub
      rw [if_pos hne]
      have hlt := (hcore.own.held _ List.mem_cons_self).2.1.2
      refine wp_bfree_held hcore rfl ⟨hcore.free ?_, hfreed.free hcore.layout hlt⟩
        fun e s' he _ => hE e s' he.benign
      rw [hfreed.refcounts]
      exact hb _ (hsub _ List.mem_cons_self)
    · have hfrom : entriesFrom bp done.length = entriesFrom bp (done ++ [j]).length := by
        unfold entriesFrom
        rw [hdrop, hdrop', List.filter_cons_of_neg (by simpa using hne)]
      rw [if_neg hne, wp_pure, ← hfrom]
      exact ⟨hcore, hfreed⟩
  · rintro s1 ⟨hcore, hfreed⟩
    have hnone : entriesFrom bp (List.range NINDIRECT).length = [] := by
      unfold entriesFrom
      rw [List.drop_length]
      rfl
    rw [hnone] at hcore
    exact ⟨hcore, hfreed⟩

theorem freeIndirect_spec (h : Win st fr lg hand k s) (hE : ∀ e s', e.Benign → E e s') :
    wp (freeIndirect k) (fun _ s' => ∃ lg', Win st fr lg' hand k s' ∧ Within k s s' ∧
      (s'.icache k).din = (s.icache k).din.setIndirect 0 ∧ s'.view.dinode = s.view.dinode ∧
      (∀ j, j ≠ (s.icache k).inum.toNat → lg' j = lg j) ∧
      ∃ X, (∀ x, X x → FreeMap s.sb x) ∧ Logged X s s') E s := by
  unfold freeIndirect
  rw [wp_bind, wp_inode, wp_ite]
  refine ⟨fun hne => ?_, fun hz => ?_⟩
  · have hne' : (lg (s.icache k).inum.toNat).indirect ≠ 0 := by
      rw [h.eq]
      exact hne
    have hc : refs lg s.view.block s.versions (.indirect (s.icache k).inum.toNat) =
        (s.icache k).din.indirect.toNat := by
      show (lg (s.icache k).inum.toNat).indirect.toNat = _
      rw [h.eq]
    have hblk : s.disk (s.icache k).din.indirect.toNat =
        s.view.block (s.icache k).din.indirect.toNat := disk_eq_block (h.owns.indirect_area hne)
    have hcore := h.core.detachIndirect hne'
    rw [h.eq] at hcore
    generalize hbp : s.view.block (s.icache k).din.indirect.toNat = bp at hcore
    -- the blocks in hand are those that the indirect block lists, and itself
    have hentry : ∀ j < NINDIRECT, refs lg s.view.block s.versions
        (.data (s.icache k).inum.toNat (NDIRECT + j)) = (bp.word j).toNat := by
      intro j hj
      show (lg (s.icache k).inum.toNat).map s.view.block _ = _
      rw [h.eq, map_of_ge _ _ (Nat.le_add_right _ _), if_pos ⟨by simp only [MAXFILE]; omega, hne⟩,
        Nat.add_sub_cancel_left, hbp]
    have hhand : (indirectOwners (s.icache k).inum.toNat bp).map
        (refs lg s.view.block s.versions) =
        entriesFrom bp 0 ++ [(s.icache k).din.indirect.toNat] := by
      unfold indirectOwners entriesFrom
      rw [List.map_append, List.map_map, List.map_singleton, hc, List.drop_zero]
      congr 1
      refine List.map_congr_left fun j hj => ?_
      exact hentry j (List.mem_range.mp (List.mem_filter.mp hj).1)
    rw [hhand, List.append_assoc] at hcore
    have huntracked : ∀ b ∈ entriesFrom bp 0, ∀ e ∈ s.refcounts, e.valid = true →
        e.blockNum.toNat ≠ b := by
      intro b hb
      unfold entriesFrom at hb
      obtain ⟨j, hj, rfl⟩ := List.mem_map.mp hb
      rw [List.mem_filter, List.drop_zero] at hj
      have hj' := hentry j (List.mem_range.mp hj.1)
      rw [← hj']
      refine h.core.untracked (by nofun) ?_
      rw [hj']
      exact toNat_ne_zero.mpr (by simpa using hj.2)
    unfold bread
    rw [wp_bind, wp_bind, wp_get, wp_pure, hblk, hbp]
    refine wp_of_spec (freeEntries_loop (k := k) hcore huntracked hE) (fun _ _ => id) ?_
    rintro _ s1 ⟨hcore1, hfreed⟩
    have hcheld := hcore1.own.held _ List.mem_cons_self
    have hfreed' := hfreed.free hcore1.layout hcheld.2.1.2
    rw [wp_bind]
    refine wp_bfree_held hcore1 rfl ?_ fun e s' he _ => hE e s' he.benign
    have hcore2 := hcore1.free (by
      rw [hfreed.refcounts, ← hc]
      exact h.core.untracked (by nofun) (hc ▸ toNat_ne_zero.mpr hne))
    have haud := hfreed'.within.audited h.audited
    rw [wp_setDin haud]
    obtain ⟨X, hX, hlog⟩ := hfreed'.logged
    have hwin := hcore2.win (s := s) h.live rfl hfreed'.icache haud
      ((s.icache k).din.setIndirect 0) (update_self ..)
    rw [hfreed'.icache]
    refine ⟨_, hwin, within_setDin s _ hfreed'.within.rest hfreed'.icache k _, ?_, ?_,
      fun j hj => update_of_ne hj .., X, hX, hlog.setSlot _ _⟩
    · rw [setSlot_self]
      rfl
    · rw [view_setSlot]
      exact hfreed'.dinode
  · rw [wp_pure]
    refine ⟨lg, h, .refl k s, ?_, rfl, fun _ _ => rfl, _, fun _ hx => hx.elim, .refl s⟩
    unfold Dinode.setIndirect
    rw [← not_not.mp hz]

/-! ## `itrunc` -/

/-- The inode without contents. -/
def Dinode.empty (d : Dinode) : Dinode := { d with addrs := fun _ => 0, indirect := 0, size := 0 }

theorem map_empty (blk : ℕ → Block) (d : Dinode) (bn : ℕ) : d.empty.map blk bn = 0 := by
  by_cases hbn : bn < NDIRECT
  · rw [map_of_lt _ _ hbn]
    rfl
  · rw [map_of_ge _ _ (Nat.not_lt.mp hbn)]
    exact if_neg fun hc => hc.2 rfl

/-- An in-memory inode that is being changed is written to disk, with a new label. -/
theorem Win.relabel (h : Win st fr lg hand k s) (d : Dinode)
    (haddrs : d.addrs = (s.icache k).din.addrs) (hind : d.indirect = (s.icache k).din.indirect)
    (htype : d.type = (s.icache k).din.type)
    (hhead : d.versionHead = (s.icache k).din.versionHead) :
    Win st fr (update lg (s.icache k).inum.toNat d) hand k (s.commit k d) := by
  have hlt := h.core.cache.inum k h.live.1
  have hcore := (h.core.relabel d (by rw [h.eq]; exact haddrs) (by rw [h.eq]; exact hind)
    (by rw [h.eq, htype]; exact id) (by rw [h.eq]; exact hhead)).setDin rfl d
  have hslot : (s.commit k d).icache k = { s.icache k with din := d } := by
    rw [icache_commit, update_self]
  refine ⟨?_, ?_, ?_, (within_commit s k d).audited h.audited⟩
  · rw [hslot]
    exact h.live
  · rw [hslot]
    exact hcore.wroteDinode hlt d
  · rw [hslot, update_self]

/-- What `itrunc` leaves. -/
structure Truncated (st : Bool) (fr : Option ℕ) (hand : List ℕ) (k : Slot) (lg : ℕ → Dinode)
    (s : Fs) (lg' : ℕ → Dinode) (s' : Fs) : Prop where
  /-- The inode is still being changed. -/
  win : Win st fr lg' hand k s'
  /-- Nothing else changed. -/
  within : Within k s s'
  /-- The inode has no contents. -/
  din : (s'.icache k).din = (s.icache k).din.empty
  /-- The other inodes count as before. -/
  others : ∀ j, j ≠ (s.icache k).inum.toNat → lg' j = lg j
  /-- Only the free map and the inode were logged. -/
  logged : ∃ X, (∀ x, X x → FreeMap s.sb x ∨ x = s.sb.iblock (s.icache k).inum.toNat) ∧
    Logged X s s'

theorem logged_commit (s : Fs) (k : Slot) (d : Dinode) :
    Logged (fun x => x = s.sb.iblock (s.icache k).inum.toNat) s (s.commit k d) := by
  have h := logged_wrote (s.setSlot k { s.icache k with din := d })
    (s.sb.iblock (s.icache k).inum.toNat)
    ((s.disk (s.sb.iblock (s.icache k).inum.toNat)).putDinode ((s.icache k).inum.toNat % IPB) d)
  exact ⟨h.logSize, h.outstanding, h.nodup, h.mem⟩

theorem itrunc_spec (h : Win st fr lg hand k s) (hE : ∀ e s', e.Benign → E e s') :
    wp (itrunc k) (fun _ s' => ∃ lg', Truncated st fr hand k lg s lg' s') E s := by
  unfold itrunc
  refine wp_of_spec (freeDirect_loop h fun e s' _ _ _ he _ _ => hE e s' he.benign)
    (fun _ _ => id) ?_
  rintro _ s1 ⟨lg1, hfreed⟩
  refine wp_of_spec (freeIndirect_spec hfreed.win hE) (fun _ _ => id) ?_
  rintro _ s2 ⟨lg2, hwin, hwithin, hdin, hdinode, hothers, X, hX, hlogged⟩
  refine wp_commit hwin.audited ?_ fun e s' he _ => hE e s' he.benign
  have hsb1 := hfreed.within.sb
  have hinum1 := hfreed.within.inum
  have hinum2 := hwithin.inum.trans hinum1
  -- all direct addresses are zero, and so is the indirect one
  have hempty : { (s2.icache k).din with size := 0 } = (s.icache k).din.empty := by
    rw [hdin, hfreed.din]
    unfold Dinode.clear Dinode.setIndirect Dinode.empty
    simp
  refine ⟨_, hwin.relabel _ rfl rfl rfl rfl, ?_, ?_, fun j hj => ?_, _, ?_,
    (hfreed.logged.trans hlogged).trans (logged_commit ..)⟩
  · exact (hfreed.within.trans hwithin).trans (within_commit ..)
  · rw [icache_commit, update_self]
    exact hempty
  · rw [hinum2, update_of_ne hj, hothers j (by rw [hinum1]; exact hj), hfreed.others j hj]
  · rintro x ((⟨j, -, -, rfl⟩ | hx) | rfl)
    · exact .inl ⟨_, rfl⟩
    · rw [← hsb1]
      exact .inl (hX x hx)
    · rw [hinum2, hwithin.sb, hsb1]
      exact .inr rfl

/-! ## Freeing an inode -/

/-- A version is not reached from nowhere. -/
theorem Reaches.ne_zero {vs : List Version} (hvs : ∀ v ∈ vs, v.node ≠ 0) {head : UInt32}
    {v : Version} (h : Reaches vs head v) : head ≠ 0 := by
  obtain ⟨c, ⟨hlink, hsub⟩, hv⟩ := h
  cases c with
  | nil => cases hv
  | cons v' c =>
    have hmem : v' ∈ vs := hsub.subset (List.mem_reverse.mpr List.mem_cons_self)
    rw [hlink.1]
    exact hvs v' hmem

/-- The chain of an inode that goes is kept by a deleted file, or is given up. -/
theorem Core.giveUp (h : Core st w fr lg hand s) (head : UInt32) :
    Core st w fr lg hand (s.giveUp head) := by
  unfold Fs.giveUp
  by_cases hkeep : head = 0 ∨ ∃ e, (s.deleted e).valid ∧ (s.deleted e).versionHead = head
  · rw [if_pos hkeep]
    exact h
  · rw [if_neg hkeep]
    refine { h with found := fun v hv => ?_ }
    rcases h.found v hv with hi | hd | ⟨x, hx, hreach⟩
    · exact .inl hi
    · exact .inr (.inl hd)
    · exact .inr (.inr ⟨x, List.mem_cons_of_mem _ hx, hreach⟩)

/-- After `giveUp`, what the chain reaches is found without the inode. -/
theorem giveUp_found (s : Fs) (head : UInt32) (hvs : ∀ v ∈ s.versions, v.node ≠ 0) {v : Version}
    (hreach : Reaches s.versions head v) :
    (∃ e, ((s.giveUp head).deleted e).valid ∧
      Reaches s.versions ((s.giveUp head).deleted e).versionHead v) ∨
      ∃ x ∈ (s.giveUp head).lost, Reaches s.versions x v := by
  unfold Fs.giveUp
  by_cases hkeep : head = 0 ∨ ∃ e, (s.deleted e).valid ∧ (s.deleted e).versionHead = head
  · rw [if_pos hkeep]
    rcases hkeep with h0 | ⟨e, hval, rfl⟩
    · exact absurd h0 (hreach.ne_zero hvs)
    · exact .inl ⟨e, hval, hreach⟩
  · rw [if_neg hkeep]
    exact .inr ⟨head, List.mem_cons_self, hreach⟩

/-- An inode whose chain is found elsewhere, and that is free on disk, is forgotten. -/
theorem Core.bury (h : Core st (some i) none lg hand s) (hk : (s.icache k).Live)
    (hi : (s.icache k).inum.toNat = i) (hz : ∀ bn, (s.view.dinode i).map s.view.block bn = 0)
    (hind : (s.view.dinode i).indirect = 0) (htype : (s.view.dinode i).type = 0)
    (hfound : ∀ v ∈ s.versions, Reaches s.versions (lg i).versionHead v →
      (∃ e, (s.deleted e).valid ∧ Reaches s.versions (s.deleted e).versionHead v) ∨
        ∃ x ∈ s.lost, Reaches s.versions x v) :
    Core st none none (update lg i (s.view.dinode i)) hand
      (s.setSlot k { s.icache k with valid := false }) := by
  have hother : ∀ j, j ≠ k → (s.icache j).Live → (s.icache j).inum.toNat ≠ i := by
    intro j hj hl
    rw [← hi]
    exact h.cache.not_live hk.1 hj hl
  have hne : ∀ j, j ≠ i → update lg i (s.view.dinode i) j = lg j := fun j hj => update_of_ne hj ..
  refine ⟨h.layout, h.metaUsed, ?_, ?_, ?_, h.vers, h.deleted, ?_, ?_⟩
  · refine h.cache.replace (fun j hj hl _ heq => hother j hj hl (Option.some.inj heq).symm) hk.1.le
      (fun _ => h.cache.dev k hk.1) (fun _ => h.cache.inum k hk.1)
      (fun _ j hj hr he => hj (h.cache.uniq j k hr hk.1 he))
      (fun j hj hl => hne _ (hother j hj hl)) (fun hl => absurd hl.2 Bool.false_ne_true)
      (fun j hj _ => ?_) (by nofun)
    by_cases hji : j = i
    · rw [hji, update_self]
      exact ⟨rfl, fun h0 => absurd htype h0⟩
    · rw [hne j hji]
      refine h.cache.uncached j fun k' hl => ?_
      by_cases hk' : k' = k
      · rw [hk', hi]
        exact fun heq => hji heq.symm
      · exact hj k' hk' hl
  · -- the inode owned nothing that it does not own now
    refine h.own.shrink fun o => ?_
    by_cases ho : o.inode = some i
    · cases o with
      | data j bn =>
        obtain rfl : j = i := Option.some.inj ho
        exact .inl ((refs_update_data ..).trans (hz bn))
      | indirect j =>
        obtain rfl : j = i := Option.some.inj ho
        refine .inl ((refs_update_indirect ..).trans ?_)
        rw [hind]
        rfl
      | vnode n => cases ho
      | vdata n j => cases ho
    · exact .inr (refs_update_of_ne _ ho)
  · intro j _ hj
    by_cases hji : j = i
    · rw [hji, update_self] at hj
      exact absurd htype hj
    · rw [hne j hji] at hj ⊢
      exact (h.node j (fun heq => hji (Option.some.inj heq).symm) hj)
  · exact h.tracked
  · intro v hv
    rcases h.found v hv with ⟨j, hj, hreach⟩ | hrest
    · by_cases hji : j = i
      · rw [hji] at hreach
        exact .inr (hfound v hv hreach)
      · refine .inl ⟨j, ?_⟩
        rw [hne j hji]
        exact ⟨hj, hreach⟩
    · exact .inr hrest

/-- The chains given up do not matter for what the cache, the log and the disk hold. -/
theorem giveUp_eq (s : Fs) (head : UInt32) :
    (s.giveUp head).icache = s.icache ∧ (s.giveUp head).view = s.view ∧
      (s.giveUp head).rest = s.rest ∧ (s.giveUp head).versions = s.versions ∧
      (s.giveUp head).lh = s.lh := by
  unfold Fs.giveUp
  by_cases hkeep : head = 0 ∨ ∃ e, (s.deleted e).valid ∧ (s.deleted e).versionHead = head
  · rw [if_pos hkeep]
    exact ⟨rfl, rfl, rfl, rfl, rfl⟩
  · rw [if_neg hkeep]
    exact ⟨rfl, rfl, rfl, rfl, rfl⟩

/-- What `iput` leaves of an inode that goes: the slot is no longer loaded. -/
structure Buried (st : Bool) (hand : List ℕ) (k : Slot) (lg : ℕ → Dinode) (s s' : Fs) : Prop where
  /-- The invariant holds; the inode is free, the others count as before. -/
  core : ∃ lg', Core st none none lg' hand s' ∧ (lg' (s.icache k).inum.toNat).type = 0 ∧
    ∀ j, j ≠ (s.icache k).inum.toNat → lg' j = lg j
  /-- The rest of the file system. -/
  rest : s'.rest = s.rest
  /-- The slot has its references and its lock, but no inode. -/
  self : ∃ d, s'.icache k = { s.icache k with din := d, valid := false }
  /-- The other slots are the same. -/
  other : ∀ j, j ≠ k → s'.icache j = s.icache j
  /-- Only the free map and the inode were logged. -/
  logged : ∃ X, (∀ x, X x → FreeMap s.sb x ∨ x = s.sb.iblock (s.icache k).inum.toNat) ∧
    Logged X s s'

theorem ifree_spec (h : Core st none none lg hand s) (hk : (s.icache k).Live) (ha : s.Audited k)
    (hE : ∀ e s', e.Benign → E e s') :
    wp (ifree k) (fun _ s' => Buried st hand k lg s s') E s := by
  unfold ifree
  refine wp_of_spec (itrunc_spec (h.openWin hk ha) hE) (fun _ _ => id) ?_
  rintro _ s1 ⟨lg1, ht⟩
  have hwin := ht.win
  have hinum := ht.within.inum
  have hlt := hwin.core.cache.inum k hwin.live.1
  -- `type = 0`, on disk too; the inode still counts as in use
  have hstep : wp (do setDin k fun d => { d with type := 0 }; iupdate k)
      (fun _ s2 => s2 = s1.commit k { (s1.icache k).din with type := 0 }) E s1 :=
    wp_commit hwin.audited rfl fun e s' he _ => hE e s' he.benign
  rw [wp_bind] at hstep
  rw [wp_bind]
  refine wp_mono hstep (fun _ s2 hs2 => ?_) fun _ _ => id
  rw [wp_bind]
  refine wp_mono hs2 (fun _ s3 hs3 => ?_) fun _ _ => id
  subst hs3
  generalize hd : { (s1.icache k).din with type := 0 } = d
  have hdmap : ∀ blk bn, d.map blk bn = 0 := by
    intro blk bn
    rw [← map_empty blk (s.icache k).din bn, ← ht.din, ← hd]
    exact map_of_eq rfl rfl
  have hdind : d.indirect = 0 := by
    rw [← hd]
    show (s1.icache k).din.indirect = 0
    rw [ht.din]
    rfl
  have hslot : (s1.commit k d).icache k = { s1.icache k with din := d } := by
    rw [icache_commit, update_self]
  have hcore : Core st (some (s1.icache k).inum.toNat) none lg1 hand (s1.commit k d) :=
    (hwin.core.setDin rfl d).wroteDinode hlt d
  have hview := view_commit hwin.core.layout hlt d
  have hdinode : (s1.commit k d).view.dinode (s1.icache k).inum.toNat = d := by
    rw [hview]
    exact update_self ..
  have hhead : d.versionHead = (lg1 (s1.icache k).inum.toNat).versionHead := by
    rw [hwin.eq, ← hd]
  rw [wp_bind, wp_modify, wp_setInode, hslot]
  show Buried st hand k lg s ((((s1.commit k d).giveUp d.versionHead)).setSlot k _)
  obtain ⟨hic, hgview, hrest, hvers, hlh⟩ := giveUp_eq (s1.commit k d) d.versionHead
  rw [hic, hslot]
  obtain ⟨X, hX, hlogged⟩ := ht.logged
  have hlog := hlogged.trans (logged_commit s1 k d)
  have hbury := (hcore.giveUp d.versionHead).bury (k := k) (i := (s1.icache k).inum.toNat)
    (by rw [hic, hslot]; exact hwin.live) (by rw [hic, hslot])
    (fun bn => by rw [hgview, hdinode]; exact hdmap _ bn) (by rw [hgview, hdinode]; exact hdind)
    (by rw [hgview, hdinode, ← hd]) (by
      intro v _ hreach
      rw [hvers, ← hhead] at hreach
      rw [hvers]
      exact giveUp_found _ _ hcore.vers.ne hreach)
  rw [hic, hslot] at hbury
  refine ⟨⟨_, hbury, ?_, fun j hj => ?_⟩, ?_, ?_, fun j hj => ?_, _, fun x hx => ?_,
    ⟨(congrArg Fs.logSize hrest :).trans hlog.logSize,
      (congrArg Fs.outstanding hrest :).trans hlog.outstanding,
      fun hnd => hlh ▸ hlog.nodup hnd, fun x => hlh ▸ hlog.mem x⟩⟩
  · rw [← hinum, update_self, hgview, hdinode, ← hd]
  · rw [← hinum] at hj
    rw [update_of_ne hj]
    exact ht.others j (hinum ▸ hj)
  · show ((s1.commit k d).giveUp d.versionHead).rest = s.rest
    rw [hrest]
    exact ht.within.rest
  · refine ⟨d, ?_⟩
    rw [setSlot_self, ht.within.self]
  · rw [setSlot_of_ne _ _ hj, hic, icache_commit, update_of_ne hj]
    exact ht.within.other j hj
  · rcases hx with hx | rfl
    · exact hX x hx
    · rw [hinum, ht.within.sb]
      exact .inr rfl

/-! ## `iput` -/

/-- The in-memory copy of an inode that may have holes is dropped: the kernel sees the disk's. -/
theorem Core.drop (h : Core st none none lg hand s) (hk : (s.icache k).Live)
    (hfull : ¬ Full st (s.icache k).din) (hlinks : (s.icache k).din.nlink ≠ 0) {ip : Inode}
    (hzero : ip.ref = 0) :
    Core st none none
      (update lg (s.icache k).inum.toNat (s.view.dinode (s.icache k).inum.toNat)) hand
      (s.setSlot k ip) := by
  obtain ⟨hlg, hsync, htype⟩ := h.cache.cached k hk (by nofun)
  have hbelow := hsync.below
  have hnot : ¬ 0 < ip.ref := by omega
  have hndir : (s.icache k).din.type ≠ T_DIR := fun heq => hfull (.inr heq)
  have hother : ∀ j, j ≠ k → (s.icache j).Live →
      (s.icache j).inum.toNat ≠ (s.icache k).inum.toNat := fun j hj hl => h.cache.not_live hk.1 hj hl
  refine ⟨h.layout, h.metaUsed, ?_, ?_, ?_, h.vers, h.deleted, ?_, ?_⟩
  · refine h.cache.setSlot hzero.ge (fun hp => absurd hp hnot) (fun hp => absurd hp hnot)
      (fun hp => absurd hp hnot) (fun j hj hl => update_of_ne (hother j hj hl) ..)
      (fun hl => absurd hl.1 hnot) (fun j hj _ => ?_) (by nofun)
    by_cases hji : j = (s.icache k).inum.toNat
    · rw [hji, update_self]
      refine ⟨rfl, fun _ _ => ?_⟩
      rw [← hbelow.nlink]
      exact hlinks
    · rw [update_of_ne hji]
      refine h.cache.uncached j fun k' hl => ?_
      by_cases hk' : k' = k
      · rw [hk']
        exact fun heq => hji heq.symm
      · exact hj k' hk' hl
  · -- the disk's inode has no block that the copy has not
    refine h.own.shrink fun o => ?_
    by_cases ho : o.inode = some (s.icache k).inum.toNat
    · cases o with
      | data j bn =>
        obtain rfl : j = (s.icache k).inum.toNat := Option.some.inj ho
        show refs (update lg _ _) _ _ _ = 0 ∨ refs (update lg _ _) _ _ _ = (lg _).map _ bn
        rw [refs_update_data, hlg]
        by_cases hbn : bn < NDIRECT
        · rw [map_of_lt _ _ hbn, map_of_lt _ _ hbn]
          rcases hbelow.addrs ⟨bn, hbn⟩ with h0 | heq
          · exact .inl (by rw [h0]; rfl)
          · exact .inr (by rw [heq])
        · rw [map_of_ge _ _ (Nat.not_lt.mp hbn), map_of_ge _ _ (Nat.not_lt.mp hbn)]
          rcases hbelow.indirect with h0 | heq
          · exact .inl (if_neg fun hc => hc.2 h0)
          · exact .inr (by rw [heq]; rfl)
      | indirect j =>
        obtain rfl : j = (s.icache k).inum.toNat := Option.some.inj ho
        show refs (update lg _ _) _ _ _ = 0 ∨ refs (update lg _ _) _ _ _ = (lg _).indirect.toNat
        rw [refs_update_indirect, hlg]
        rcases hbelow.indirect with h0 | heq
        · exact .inl (by rw [h0]; rfl)
        · exact .inr (by rw [heq])
      | vnode n => cases ho
      | vdata n j => cases ho
    · exact .inr (refs_update_of_ne _ ho)
  · intro j _ hj
    by_cases hji : j = (s.icache k).inum.toNat
    · have hnode := h.node_of_live hk
      rw [hji, update_self]
      have hty := hbelow.type
      have hfull' : ¬ Full st (s.view.dinode (s.icache k).inum.toNat) := by
        unfold Full at hfull ⊢
        rw [← hty]
        exact hfull
      obtain ⟨c, hc, hall⟩ := hnode.chain
      refine ⟨fun hd => absurd (hty.trans hd) hndir, fun hd => absurd (hty.trans hd) hndir,
        fun hd => absurd (hty.trans hd) hndir, hbelow.size ▸ hnode.bound, fun bn hf hbn => ?_, c, ?_,
        fun v hv => ?_⟩
      · have hlt := hf.resolve_right hfull'
        rw [← hbelow.size] at hbn
        have hne := hnode.holes bn (.inl hlt) hbn
        rw [map_of_lt _ _ hlt] at hne ⊢
        rw [hsync.direct ⟨bn, hlt⟩ hbn]
        exact hne
      · rw [← hbelow.versionHead]
        exact hc
      · exact ⟨fun hd => absurd (hty.trans hd) hndir, fun hd => absurd (hty.trans hd) hndir,
          (hall v hv).direct, fun hf => absurd hf hfull'⟩
    · rw [update_of_ne hji] at hj ⊢
      exact h.node j (by nofun) hj
  · exact h.tracked
  · intro v hv
    refine (h.found v hv).imp ?_ id
    rintro ⟨j, hj, hreach⟩
    refine ⟨j, ?_⟩
    by_cases hji : j = (s.icache k).inum.toNat
    · rw [hji, hlg] at hj hreach
      rw [hji, update_self, ← hbelow.type, ← hbelow.versionHead]
      exact ⟨hj, hreach⟩
    · rw [update_of_ne hji]
      exact ⟨hj, hreach⟩

/-- What a function leaves that drops a reference to slot `k`. -/
structure Put (st : Bool) (hand : List ℕ) (k : Slot) (s s' : Fs) : Prop where
  /-- The invariant holds. -/
  core : ∃ lg, Core st none none lg hand s'
  /-- There is one reference less. -/
  hold : s'.hold = s.hold - aRef k
  /-- The slots that are still in use are for the same inodes. -/
  steady : Steady (s.hold - aRef k) s s'
  /-- The other inodes keep their types and their versions. -/
  ordinary : Ordinary (s.hold - aRef k) s s'
  /-- Only the free map and the inode were logged. -/
  logged : ∃ X, (∀ x, X x → FreeMap s.sb x ∨ x = s.sb.iblock (s.icache k).inum.toNat) ∧
    Logged X s s'

theorem Looked.logged (h : Looked st fr lg hand H s s') : Logged (fun _ => False) s s' := by
  have heq := h.only
  refine ⟨?_, ?_, fun hnd => h.lh ▸ hnd, fun x => by rw [h.lh, or_false]⟩
  · rw [heq]
  · rw [heq]

theorem iput_spec (h : Core st none none lg hand s) (hk : 0 < (s.icache k).ref)
    (hE : ∀ e s', e.Benign → E e s') : wp (iput k) (fun _ s' => Put st hand k s s') E s := by
  by_cases hidle : Idle s k
  · refine wp_iput_idle h hk hidle (fun _ => hE _ _ ⟨by decide, by decide⟩) fun s' hlook hhold _ => ?_
    exact ⟨⟨lg, hlook.core⟩, hhold, hlook.steady, hlook.ordinary h, _, fun _ hx => hx.elim,
      hlook.logged⟩
  · -- the last reference to a loaded inode goes
    unfold Idle at hidle
    rw [Classical.not_imp, Classical.not_imp] at hidle
    obtain ⟨hone, hvalid, hbad⟩ := hidle
    have hlive : (s.icache k).Live := ⟨hk, hvalid⟩
    have hgone : ¬ 0 < ((s.hold - aRef k) k).1 := by
      rw [Pi.sub_apply, aRef_self]
      show ¬ 0 < (s.icache k).ref - 1
      omega
    unfold iput
    rw [wp_bind]
    refine wp_acquiresleep (fun _ => hE _ _ ⟨by decide, by decide⟩) fun hfree => ?_
    have hbit : (s.icache k).lockBit = 0 := by
      unfold Inode.lockBit
      rw [hfree]
      rfl
    unfold ifreeLast releasesleep
    rw [wp_bind, wp_bind, wp_inode, setSlot_self, wp_ite]
    refine ⟨fun _ => ?_, fun hkeep => ?_⟩
    · -- it has no links, and is freed
      have hlook : Looked st none lg hand s.hold s (s.setSlot k { s.icache k with locked := true }) :=
        h.retag hk hk rfl rfl rfl rfl
      have hlive1 : ((s.setSlot k { s.icache k with locked := true }).icache k).Live := by
        rw [setSlot_self]
        exact hlive
      refine wp_mono (ifree_spec hlook.core hlive1 (.inl (by rw [setSlot_self])) hE) ?_ fun _ _ => id
      rintro _ s2 hb
      obtain ⟨d, hself⟩ := hb.self
      rw [setSlot_self] at hself
      obtain ⟨lg2, hcore2, htype2, hothers2⟩ := hb.core
      rw [setSlot_self] at htype2 hothers2
      obtain ⟨X, hX, hlogged⟩ := hb.logged
      rw [wp_bind, wp_setInode, wp_setInode, setSlot_self, setSlot_setSlot, hself]
      have hother : ∀ j, j ≠ k → s2.icache j = s.icache j := fun j hj =>
        (hb.other j hj).trans (setSlot_of_ne _ _ hj)
      have hzero : ({ s.icache k with
          din := d, valid := false, locked := false, ref := (s.icache k).ref - 1 } : Inode).ref = 0 := by
        show (s.icache k).ref - 1 = 0
        omega
      have hforget := CacheOk.forget hcore2 (k := k) (by rw [hself]; exact hk)
        (fun _ hv => by rw [hself] at hv; cases hv) (by rw [hself]; exact hone) hzero
      have hfinal : Core st none none lg2 hand (s2.setSlot k { s.icache k with
          din := d, valid := false, locked := false, ref := (s.icache k).ref - 1 }) :=
        { hcore2 with cache := hforget }
      refine ⟨⟨lg2, hfinal⟩, ?_, ⟨hb.rest, fun j hj => ?_⟩,
        .of_one h hfinal hothers2 (.inl htype2) (fun j hj hv => ?_)
          (congrArg Fs.deleted hb.rest :), X, fun x hx => ?_, ?_⟩
      · rw [sub_aRef]
        funext j
        rw [Pi.add_apply]
        unfold Fs.hold
        by_cases hj : j = k
        · rw [hj, setSlot_self, Pi.single_eq_same, hbit]
          rfl
        · rw [setSlot_of_ne _ _ hj, hother j hj, Pi.single_eq_of_ne hj, add_zero]
      · by_cases hjk : j = k
        · rw [hjk] at hj
          exact absurd hj hgone
        · rw [setSlot_of_ne _ _ hjk, hother j hjk]
          exact .refl _
      · by_cases hjk : j = k
        · rw [hjk] at hj
          exact absurd hj hgone
        · rw [setSlot_of_ne _ _ hjk, hother j hjk]
          exact ⟨hv, UInt32.le_refl _⟩
      · have := hX x hx
        rw [setSlot_self] at this
        exact this
      · exact ⟨hlogged.logSize, hlogged.outstanding, hlogged.nodup, hlogged.mem⟩
    · -- it has links: only the copy goes
      rw [wp_pure, wp_bind, wp_setInode, wp_setInode, setSlot_self, setSlot_self, setSlot_setSlot,
        setSlot_setSlot]
      have hlinks : (s.icache k).din.nlink ≠ 0 := fun h0 => hkeep ⟨hvalid, h0, hone⟩
      have hfull : ¬ Full st (s.icache k).din := by
        intro hf
        have := (h.cache.cached k hlive (by nofun)).2.1.exact hf
        exact hbad ⟨this.symm, hlinks⟩
      have hzero : ({ s.icache k with locked := false, ref := (s.icache k).ref - 1 } :
          Inode).ref = 0 := by
        show (s.icache k).ref - 1 = 0
        omega
      have hdrop := h.drop hlive hfull hlinks hzero
      obtain ⟨hlg, hsync, -⟩ := h.cache.cached k hlive (by nofun)
      refine ⟨⟨_, hdrop⟩, ?_, ⟨rfl, fun j hj => ?_⟩,
        .of_one h hdrop (fun j hj => update_of_ne hj ..) (.inr ?_) (fun j hj hv => ?_) rfl, _,
        fun _ hx => hx.elim, (Logged.refl s).setSlot _ _⟩
      · rw [sub_aRef]
        refine hold_setSlot _ _ _ rfl ?_
        rw [hbit]
        rfl
      · by_cases hjk : j = k
        · rw [hjk] at hj
          exact absurd hj hgone
        · rw [setSlot_of_ne _ _ hjk]
          exact .refl _
      · rw [update_self, hlg]
        exact ⟨hsync.below.type.symm, hsync.below.versionHead.symm⟩
      · by_cases hjk : j = k
        · rw [hjk] at hj
          exact absurd hj hgone
        · rw [setSlot_of_ne _ _ hjk]
          exact ⟨hv, UInt32.le_refl _⟩

end ChronoFS
