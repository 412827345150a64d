import ChronoFS.Spec.Content

/-!
# What `bmap` takes: free blocks and room in the log

A file by itself, without the rest of the file system: all that is known is that its blocks are its
own (`OwnsBlocks`). `bmap` returns the block of the file and may have to allocate it, and the indirect
block before it. `Mapped` says what the call takes from the two resources that can run out.

- The free blocks: `Fs.needs` of them.
- The log. An allocation logs the block and a block of the free map, and the entry of the indirect
  block is logged once per operation. `Fs.indirectCost` is what the indirect block may still cost. It
  is paid for at the start, so that a block that has to be allocated costs two more at most, whatever
  blocks of the free map are involved.
-/

namespace ChronoFS

open Function

variable {s s' s'' : Fs} {k : Slot} {b bn n : ℕ} {v : Block} {E : Halt → Fs → Prop}

/-! ## Free blocks -/

/-- The free blocks of the disk. -/
def Fs.freeBlocks (s : Fs) : Finset ℕ :=
  (Finset.range s.sb.size).filter fun b => s.view.used b = false

theorem mem_freeBlocks : b ∈ s.freeBlocks ↔ b < s.sb.size ∧ s.view.used b = false := by
  unfold Fs.freeBlocks
  rw [Finset.mem_filter, Finset.mem_range]

/-- How many blocks `bmap` has to allocate for block `bn` of the file. -/
def Fs.needs (s : Fs) (k : Slot) (bn : ℕ) : ℕ :=
  if s.map k bn ≠ 0 then 0
  else if bn < NDIRECT ∨ (s.icache k).din.indirect ≠ 0 then 1
  else 2

/-- Allocating takes one block away. -/
theorem card_freeBlocks_alloc (h : s.sb.Valid) (hb : s.sb.Area b) (hfree : s.view.used b = false) :
    (s.alloc b).freeBlocks.card + 1 = s.freeBlocks.card := by
  have herase : (s.alloc b).freeBlocks = s.freeBlocks.erase b := by
    ext x
    rw [Finset.mem_erase, mem_freeBlocks, mem_freeBlocks, view_alloc h hb]
    show x < s.sb.size ∧ update s.view.used b true x = false ↔ _
    by_cases hx : x = b
    · rw [hx, update_self]
      simp
    · rw [update_of_ne hx]
      simp [hx]
  rw [herase]
  exact Finset.card_erase_add_one (mem_freeBlocks.mpr ⟨hb.2, hfree⟩)

/-- The free blocks depend on the free map. -/
theorem freeBlocks_congr (hsb : s'.sb = s.sb) (hused : s'.view.used = s.view.used) :
    s'.freeBlocks = s.freeBlocks := by
  unfold Fs.freeBlocks
  rw [hsb, hused]

/-- The free blocks do not depend on the cache. -/
theorem freeBlocks_setSlot (s : Fs) (k : Slot) (ip : Inode) :
    (s.setSlot k ip).freeBlocks = s.freeBlocks :=
  freeBlocks_congr rfl (by rw [view_setSlot])

/-! ## The log -/

theorem room_alloc (h : s.Room (n + 2)) : (s.alloc b).Room n := room_wrote (room_wrote h)

theorem length_alloc_le (s : Fs) (b : ℕ) : (s.alloc b).lh.length ≤ s.lh.length + 2 :=
  (length_wrote_le ..).trans (Nat.succ_le_succ (length_wrote_le ..))

/-- A block that is in the log already takes no room. -/
theorem lh_wrote_of_mem (h : b ∈ s.lh) : (s.wrote b v).lh = s.lh := if_pos h

theorem mem_lh_wrote (s : Fs) (b : ℕ) (v : Block) : b ∈ (s.wrote b v).lh :=
  ((logged_wrote s b v).mem b).mpr (.inr rfl)

theorem mem_lh_alloc (s : Fs) (b : ℕ) : b ∈ (s.alloc b).lh :=
  ((logged_alloc s b).mem b).mpr (.inr (.inr rfl))

/-- How many blocks may still have to be logged for the indirect block of the file: the block and one
of the free map if it has to be allocated, the block if it is not in the log. -/
def Fs.indirectCost (s : Fs) (k : Slot) : ℕ :=
  if (s.icache k).din.indirect = 0 then 2
  else if (s.icache k).din.indirect.toNat ∈ s.lh then 0
  else 1

theorem indirectCost_of_mem (hmem : (s.icache k).din.indirect.toNat ∈ s.lh)
    (h0 : (s.icache k).din.indirect ≠ 0) : s.indirectCost k = 0 := by
  unfold Fs.indirectCost
  rw [if_neg h0, if_pos hmem]

theorem indirectCost_le_two (s : Fs) (k : Slot) : s.indirectCost k ≤ 2 := by
  unfold Fs.indirectCost
  split_ifs <;> omega

/-- The indirect block costs no more when more is in the log. -/
theorem indirectCost_mono (hind : (s'.icache k).din.indirect = (s.icache k).din.indirect)
    (hlog : ∀ x ∈ s.lh, x ∈ s'.lh) : s'.indirectCost k ≤ s.indirectCost k := by
  unfold Fs.indirectCost
  rw [hind]
  have hmem := hlog (s.icache k).din.indirect.toNat
  split_ifs <;> first | omega | exact absurd (hmem ‹_›) ‹_›

/-- A budget that covers what is done leaves room for what is left of it. -/
theorem Fs.Room.of_cost {c d : ℕ} (h : s.Room (c + n)) (hwithin : Within k s s')
    (hcost : s'.lh.length + d ≤ s.lh.length + c) : s'.Room (d + n) := by
  obtain ⟨h1, h2, h3⟩ := h
  have hsize : s'.logSize = s.logSize := (congrArg Fs.logSize hwithin.rest :)
  have hout : s'.outstanding = s.outstanding := (congrArg Fs.outstanding hwithin.rest :)
  refine ⟨?_, ?_, ?_⟩
  · omega
  · rw [hsize]
    omega
  · rw [hout]
    exact h3

/-! ## `balloc` and `bmap` -/

/-- `balloc` gives a free block away if the log has room and there is one. -/
theorem OwnsBlocks.wp_balloc {Q : UInt32 → Fs → Prop} (h : OwnsBlocks k s)
    (hlog : ∀ e s', ¬ s.Room 2 → E e s') (hout : s.freeBlocks.card = 0 → E (.panic .ballocOut) s)
    (hok : ∀ b, s.sb.Area b → s.view.used b = false → Q (.ofNat b) (s.alloc b)) :
    wp balloc Q E s := by
  refine ChronoFS.wp_balloc h.metaUsed hok (fun hall => hout ?_) fun e s' _ hno => hlog e s' hno
  rw [Finset.card_eq_zero, Finset.eq_empty_iff_forall_notMem]
  intro b hb
  obtain ⟨hlt, hused⟩ := mem_freeBlocks.mp hb
  -- a free block is not before the data blocks
  have hge : s.sb.dataStart ≤ b := by
    by_contra hlow
    rw [h.metaUsed b (by omega)] at hused
    nomatch hused
  rw [hall b ⟨hge, hlt⟩] at hused
  nomatch hused

/-- From `s` to `s'`, the indirect block of the file was found or allocated. -/
structure HasIndirect (k : Slot) (s s' : Fs) : Prop extends Gains k s s' where
  /-- There is one. -/
  ne : (s'.icache k).din.indirect ≠ 0
  /-- No data block was allocated. -/
  map_eq : ∀ bn, s'.map k bn = s.map k bn
  /-- What was allocated was free. -/
  free : s'.freeBlocks.card + (if (s.icache k).din.indirect = 0 then 1 else 0) = s.freeBlocks.card
  /-- What was logged is paid for. -/
  cost : s'.lh.length + s'.indirectCost k ≤ s.lh.length + s.indirectCost k

theorem OwnsBlocks.wp_indirectBlock {Q : UInt32 → Fs → Prop} (h : OwnsBlocks k s)
    (hlog : ∀ e s', ¬ s.Room (s.indirectCost k) → E e s')
    (hout : (s.icache k).din.indirect = 0 → s.freeBlocks.card = 0 → E (.panic .ballocOut) s)
    (hok : ∀ s', HasIndirect k s s' → Q (s'.icache k).din.indirect s') :
    wp (indirectBlock k) Q E s := by
  unfold indirectBlock
  rw [wp_bind, wp_inode, wp_ite]
  refine ⟨fun hz => ?_, fun h0 => ?_⟩
  · have hcost : s.indirectCost k = 2 := if_pos hz
    rw [wp_bind]
    refine h.wp_balloc (by rw [← hcost]; exact hlog) (hout hz) fun b hb hnew => ?_
    rw [wp_bind, wp_setDin (s := s.alloc b) h.audited, wp_pure]
    have hb' := View.toNat_ofNat_area h.layout hb
    have hgain := h.fillIndirect hb hnew hz
    have hq := hok _ ⟨hgain.toGains, ?_, fun bn => hgain.one (some bn) (by nofun), ?_, ?_⟩
    · rw [setSlot_self] at hq
      exact hq
    · rw [setSlot_self, ← toNat_ne_zero]
      show (UInt32.ofNat b).toNat ≠ 0
      rw [hb']
      exact View.area_ne_zero h.layout hb
    · rw [freeBlocks_setSlot, if_pos hz]
      exact card_freeBlocks_alloc h.layout hb hnew
    · rw [indirectCost_of_mem, hcost]
      · exact length_alloc_le s b
      · rw [setSlot_self]
        show (UInt32.ofNat b).toNat ∈ (s.alloc b).lh
        rw [hb']
        exact mem_lh_alloc s b
      · rw [setSlot_self, ← toNat_ne_zero]
        show (UInt32.ofNat b).toNat ≠ 0
        rw [hb']
        exact View.area_ne_zero h.layout hb
  · rw [wp_pure]
    exact hok s ⟨.refl h, h0, fun _ => rfl, by rw [if_neg h0, Nat.add_zero], le_rfl⟩

/-- From `s` to `s'`, block `bn` of the file was found or allocated. -/
structure Mapped (k : Slot) (bn : ℕ) (s s' : Fs) : Prop extends Gains k s s' where
  /-- There is one. -/
  ne : s'.map k bn ≠ 0
  /-- No other data block was allocated. -/
  map_of_ne : ∀ bn', bn' ≠ bn → s'.map k bn' = s.map k bn'
  /-- The indirect block was allocated if the block needs it. -/
  indirect : (s'.icache k).din.indirect = 0 ↔ (s.icache k).din.indirect = 0 ∧ bn < NDIRECT
  /-- What was allocated was free. -/
  free : s'.freeBlocks.card + s.needs k bn = s.freeBlocks.card
  /-- A block that was allocated is in the log. -/
  logged : s.map k bn = 0 → s'.map k bn ∈ s'.lh
  /-- What was logged is paid for. -/
  cost : s'.lh.length + s'.indirectCost k ≤
    s.lh.length + s.indirectCost k + if s.map k bn = 0 then 2 else 0

/-- A block that is there is found. -/
theorem Mapped.refl (h : OwnsBlocks k s) (hbn : s.map k bn ≠ 0) : Mapped k bn s s := by
  refine ⟨.refl h, hbn, fun _ _ => rfl, ⟨fun hz => ⟨hz, ?_⟩, And.left⟩, ?_, fun hz => absurd hz hbn,
    by rw [if_neg hbn]; rfl⟩
  · -- a file without an indirect block has direct blocks only
    by_contra hge
    exact hbn ((map_of_ge _ _ (Nat.not_lt.mp hge)).trans (if_neg fun hc => hc.2 hz))
  · unfold Fs.needs
    rw [if_pos hbn, Nat.add_zero]

/-- A direct block is allocated. -/
theorem OwnsBlocks.mapped_direct (h : OwnsBlocks k s) {j : Fin NDIRECT} (hb : s.sb.Area b)
    (hnew : s.view.used b = false) (hz : (s.icache k).din.addrs j = 0) :
    ((s.alloc b).setSlot k
        { s.icache k with din := (s.icache k).din.setAddr j (.ofNat b) }).map k j = b ∧
      Mapped k j s ((s.alloc b).setSlot k
        { s.icache k with din := (s.icache k).din.setAddr j (.ofNat b) }) := by
  have hb' := View.toNat_ofNat_area h.layout hb
  have hmapped : s.map k j = 0 := by
    refine (map_of_lt _ _ j.isLt).trans ?_
    rw [hz]
    rfl
  have hself : ((s.alloc b).setSlot k
      { s.icache k with din := (s.icache k).din.setAddr j (.ofNat b) }).map k j = b := by
    unfold Fs.map
    rw [setSlot_self]
    exact (map_setAddr_self _ j _).trans hb'
  have hgain := h.fillDirect hb hnew hz
  have hind : (((s.alloc b).setSlot k
      { s.icache k with din := (s.icache k).din.setAddr j (.ofNat b) }).icache k).din.indirect =
      (s.icache k).din.indirect := by
    rw [setSlot_self]
    rfl
  refine ⟨hself, hgain.toGains, ?_, fun bn' hbn' => hgain.one (some bn') ?_, ?_, ?_, fun _ => ?_, ?_⟩
  · rw [hself]
    exact View.area_ne_zero h.layout hb
  · exact fun heq => hbn' (Option.some.inj heq)
  · rw [hind]
    exact ⟨fun h0 => ⟨h0, j.isLt⟩, And.left⟩
  · unfold Fs.needs
    rw [freeBlocks_setSlot, if_neg (not_not.mpr hmapped), if_pos (.inl j.isLt)]
    exact card_freeBlocks_alloc h.layout hb hnew
  · rw [hself]
    exact mem_lh_alloc s b
  · have hmono := indirectCost_mono hind fun x hx => ((logged_alloc s b).mem x).mpr (.inl hx)
    have hlen := length_alloc_le s b
    rw [if_pos hmapped]
    show (s.alloc b).lh.length + _ ≤ _
    omega

/-- An entry of the indirect block is allocated. -/
theorem OwnsBlocks.mapped_entry (h : OwnsBlocks k s) {j c : ℕ} (hb : s.sb.Area b)
    (hnew : s.view.used b = false) (hc : (s.icache k).din.indirect.toNat = c)
    (h0 : (s.icache k).din.indirect ≠ 0) (hj : j < NINDIRECT) (hz : (s.view.block c).word j = 0) :
    ((s.alloc b).wrote c ((s.view.block c).setWord j (.ofNat b))).map k (NDIRECT + j) = b ∧
      Mapped k (NDIRECT + j) s ((s.alloc b).wrote c ((s.view.block c).setWord j (.ofNat b))) := by
  have hge : NDIRECT ≤ NDIRECT + j := Nat.le_add_right ..
  have hmapped : s.map k (NDIRECT + j) = 0 := by
    refine (map_of_ge _ _ hge).trans ?_
    rw [hc, Nat.add_sub_cancel_left, hz]
    simp
  obtain ⟨hgain, hself⟩ := h.fillEntry hb hnew hc h0 hj hz
  have hmem : (s.icache k).din.indirect.toNat ∈
      ((s.alloc b).wrote c ((s.view.block c).setWord j (.ofNat b))).lh := by
    rw [hc]
    exact mem_lh_wrote ..
  refine ⟨hself, hgain.toGains, ?_, fun bn' hbn' => hgain.one (some bn') ?_, ?_, ?_, fun _ => ?_, ?_⟩
  · rw [hself]
    exact View.area_ne_zero h.layout hb
  · exact fun heq => hbn' (Option.some.inj heq)
  · exact ⟨fun hz => absurd hz h0, fun hz => absurd hz.1 h0⟩
  · have hused : ((s.alloc b).wrote c ((s.view.block c).setWord j (.ofNat b))).view.used =
        (s.alloc b).view.used := by
      rw [view_wrote (s := s.alloc b) h.layout (hc ▸ h.indirect_area h0)]
      rfl
    have hfree := freeBlocks_congr (s := s.alloc b) (by rfl) hused
    unfold Fs.needs
    rw [hfree, if_neg (not_not.mpr hmapped), if_pos (.inr h0)]
    exact card_freeBlocks_alloc h.layout hb hnew
  · rw [hself]
    exact ((logged_wrote ..).mem b).mpr (.inl (mem_lh_alloc s b))
  · rw [indirectCost_of_mem hmem h0, if_pos hmapped]
    have hlen := length_alloc_le s b
    by_cases hin : c ∈ s.lh
    · -- the indirect block is in the log already
      have hin' : c ∈ (s.alloc b).lh := ((logged_alloc s b).mem c).mpr (.inl hin)
      rw [lh_wrote_of_mem hin']
      omega
    · have hcost : s.indirectCost k = 1 := by
        unfold Fs.indirectCost
        rw [if_neg h0, hc, if_neg hin]
      have := length_wrote_le (s.alloc b) c ((s.view.block c).setWord j (.ofNat b))
      omega

/-- A block is allocated after the indirect block was found. -/
theorem HasIndirect.mapped (h : HasIndirect k s s') (hbn : NDIRECT ≤ bn)
    (h' : Mapped k bn s' s'') : Mapped k bn s s'' := by
  have heq := h.map_eq bn
  refine ⟨h.toGains.trans h'.toGains, h'.ne,
    fun bn' hbn' => (h'.map_of_ne bn' hbn').trans (h.map_eq bn'), ?_, ?_, ?_, ?_⟩
  · rw [h'.indirect]
    constructor
    · exact fun hc => absurd hc.1 h.ne
    · exact fun hc => absurd hc.2 (Nat.not_lt.mpr hbn)
  · have hfree := h.free
    have hfree' := h'.free
    unfold Fs.needs at hfree' ⊢
    rw [heq] at hfree'
    by_cases hz : (s.icache k).din.indirect = 0
    · -- without an indirect block, the block is not there
      have hmapped : s.map k bn = 0 := (map_of_ge _ _ hbn).trans (if_neg fun hc => hc.2 hz)
      rw [if_neg (not_not.mpr hmapped)] at hfree' ⊢
      rw [if_pos hz] at hfree
      rw [if_pos (.inr h.ne)] at hfree'
      rw [if_neg (not_or.mpr ⟨Nat.not_lt.mpr hbn, not_not.mpr hz⟩)]
      omega
    · rw [if_neg hz] at hfree
      rw [if_pos (Or.inr hz)]
      rw [if_pos (Or.inr h.ne)] at hfree'
      omega
  · rw [← heq]
    exact h'.logged
  · have hcost := h.cost
    have hcost' := h'.cost
    rw [heq] at hcost'
    omega

/-- `bmap` returns the block of the file, which it may have allocated. -/
theorem OwnsBlocks.wp_bmap_mapped {Q : UInt32 → Fs → Prop} (h : OwnsBlocks k s)
    (hbn : bn < MAXFILE)
    (hlog : ∀ e s', s.map k bn = 0 → ¬ s.Room (s.indirectCost k + 3) → E e s')
    (hout : ∀ s', s.freeBlocks.card < s.needs k bn → Within k s s' →
      s'.lh.length ≤ s.lh.length + s.indirectCost k → E (.panic .ballocOut) s')
    (hok : ∀ a s', a.toNat = s'.map k bn → Mapped k bn s s' → Q a s') :
    wp (bmap k bn) Q E s := by
  by_cases hmapped : s.map k bn = 0
  · unfold bmap
    by_cases hlt : bn < NDIRECT
    · -- a direct block
      have hmap : s.map k bn = ((s.icache k).din.addrs ⟨bn, hlt⟩).toNat := map_of_lt _ _ hlt
      have hz : (s.icache k).din.addrs ⟨bn, hlt⟩ = 0 := by
        by_contra hne
        exact toNat_ne_zero.mpr hne (hmap.symm.trans hmapped)
      rw [dif_pos hlt, wp_bind, wp_inode, if_pos hz, wp_bind]
      refine h.wp_balloc (fun e s' hno => hlog e s' hmapped fun hr => hno (hr.mono (by omega)))
        (fun hfree => hout s ?_ (.refl k s) (by omega)) fun b hb hnew => ?_
      · unfold Fs.needs
        rw [if_neg (not_not.mpr hmapped), if_pos (.inl hlt)]
        omega
      · rw [wp_bind, wp_setDin (s := s.alloc b) h.audited, wp_pure]
        obtain ⟨hself, hm⟩ := h.mapped_direct (j := ⟨bn, hlt⟩) hb hnew hz
        refine hok _ _ ?_ hm
        rw [View.toNat_ofNat_area h.layout hb]
        exact hself.symm
    · -- an entry of the indirect block
      have hge := Nat.not_lt.mp hlt
      have hin : bn - NDIRECT < NINDIRECT := by
        simp only [MAXFILE] at hbn
        omega
      have hbn' : NDIRECT + (bn - NDIRECT) = bn := by omega
      have hneeds : s.needs k bn = if (s.icache k).din.indirect = 0 then 2 else 1 := by
        unfold Fs.needs
        rw [if_neg (not_not.mpr hmapped)]
        by_cases hz : (s.icache k).din.indirect = 0
        · rw [if_pos hz, if_neg (not_or.mpr ⟨hlt, not_not.mpr hz⟩)]
        · rw [if_neg hz, if_pos (.inr hz)]
      rw [dif_neg hlt, if_pos hin, wp_bind]
      refine h.wp_indirectBlock (fun e s' hno => hlog e s' hmapped fun hr => hno (hr.mono (by omega)))
        (fun hz hfree => hout s ?_ (.refl k s) (by omega)) fun s1 hind => ?_
      · rw [hneeds, if_pos hz]
        omega
      have howns := hind.owns
      have hblk : s1.disk (s1.icache k).din.indirect.toNat =
          s1.view.block (s1.icache k).din.indirect.toNat := disk_eq_block (howns.indirect_area hind.ne)
      have hmap : s1.map k bn = ((s1.view.block (s1.icache k).din.indirect.toNat).word
          (bn - NDIRECT)).toNat := (map_of_ge _ _ hge).trans (if_pos ⟨hbn, hind.ne⟩)
      have hz : (s1.view.block (s1.icache k).din.indirect.toNat).word (bn - NDIRECT) = 0 := by
        by_contra hne
        refine toNat_ne_zero.mpr hne ?_
        rw [← hmap, hind.map_eq]
        exact hmapped
      have hcost := hind.cost
      unfold bread
      rw [wp_bind, wp_bind, wp_get, wp_pure, hblk, if_pos hz, wp_bind]
      refine howns.wp_balloc (fun e s' hno => hlog e s' hmapped fun hr => hno ?_)
        (fun hfree => hout s1 ?_ hind.within ?_) fun b hb hnew => ?_
      · exact (hr.of_cost hind.within hcost).mono (by omega)
      · have := hind.free
        rw [hneeds]
        split_ifs at this ⊢ <;> omega
      · omega
      · rw [wp_bind]
        obtain ⟨hself, hm⟩ := howns.mapped_entry hb hnew rfl hind.ne hin hz
        refine wp_logWrite ?_ fun e s' _ hno => hlog e s' hmapped fun hr => hno ?_
        · rw [wp_pure]
          rw [hbn'] at hself hm
          refine hok _ _ ?_ (hind.mapped hge hm)
          rw [View.toNat_ofNat_area howns.layout hb]
          exact hself.symm
        · exact room_alloc ((hr.of_cost hind.within hcost).mono (by omega))
  · refine ChronoFS.wp_bmap_mapped h hmapped (hok _ s ?_ (.refl h hmapped))
    exact View.toNat_ofNat_area h.layout (h.map_area hmapped)

end ChronoFS
