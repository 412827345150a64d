import ChronoFS.File.Blocks
import ChronoFS.Spec.Write

/-!
# What `writei` takes, and that it returns

`writei` by itself, as `bmap` in `ChronoFS.File.Blocks`. `BytesStored` says what the bytes from `off` look
like after the loop has stored them: their blocks all have an address, no other block has gained one,
and what was allocated was free. It composes (`BytesStored.append`), so that the passes of the loop and,
later, the operations of `filewrite` are put together in the same way.

The loop logs each block of the range, and a block of the free map for each block that it allocates
(`Fs.logCost`). If the log has room for that and there are enough free blocks, `writei` returns
(`FileOk.wp_writei`).
-/

namespace ChronoFS

open Function

variable {s s' s'' : Fs} {k : Slot} {b bn n m off : ℕ} {src : List UInt8} {E : Halt → Fs → Prop}

/-! ## The blocks of a range -/

instance : Decidable (Touched off n bn) :=
  inferInstanceAs (Decidable (0 < n ∧ off < (bn + 1) * BSIZE ∧ bn * BSIZE < off + n))

/-- The blocks that have a byte among the `n` from `off`. -/
def touched (off n : ℕ) : Finset ℕ := (Finset.range (off + n)).filter (Touched off n)

theorem mem_touched : bn ∈ touched off n ↔ Touched off n bn := by
  unfold touched
  rw [Finset.mem_filter, Finset.mem_range, and_iff_right_iff_imp]
  intro h
  unfold Touched at h
  simp only [BSIZE] at h
  omega

/-- A range in two parts touches what the parts touch. -/
theorem touched_add : Touched off (n + m) bn ↔ Touched off n bn ∨ Touched (off + n) m bn := by
  unfold Touched
  simp only [BSIZE]
  omega

theorem not_touched_zero : ¬ Touched off 0 bn := fun h => absurd h.1 (Nat.lt_irrefl 0)

/-- A range within one block touches that block. -/
theorem touched_one (hn : 0 < n) (hin : off % BSIZE + n ≤ BSIZE) :
    Touched off n bn ↔ bn = off / BSIZE := by
  have hdiv := Nat.div_add_mod off BSIZE
  unfold Touched
  simp only [BSIZE] at *
  omega

/-- What follows the part of a range in its first block does not touch that block. -/
theorem not_touched_rest (hm : m = min n (BSIZE - off % BSIZE)) :
    ¬ Touched (off + m) (n - m) (off / BSIZE) := by
  have hdiv := Nat.div_add_mod off BSIZE
  have hlt : off % BSIZE < BSIZE := Nat.mod_lt _ (by decide)
  unfold Touched
  simp only [BSIZE] at *
  omega

/-- The blocks of the range that have no address. -/
def Fs.unmapped (s : Fs) (k : Slot) (off n : ℕ) : Finset ℕ :=
  (touched off n).filter fun bn => s.map k bn = 0

theorem mem_unmapped : bn ∈ s.unmapped k off n ↔ Touched off n bn ∧ s.map k bn = 0 := by
  unfold Fs.unmapped
  rw [Finset.mem_filter, mem_touched]

/-- The range needs an indirect block, and the file has none. -/
def Fs.LacksIndirect (s : Fs) (k : Slot) (off n : ℕ) : Prop :=
  (s.icache k).din.indirect = 0 ∧ ∃ bn ∈ touched off n, NDIRECT ≤ bn

instance : Decidable (s.LacksIndirect k off n) :=
  inferInstanceAs (Decidable ((s.icache k).din.indirect = 0 ∧ ∃ bn ∈ touched off n, NDIRECT ≤ bn))

theorem lacksIndirect_iff : s.LacksIndirect k off n ↔
    (s.icache k).din.indirect = 0 ∧ ∃ bn, Touched off n bn ∧ NDIRECT ≤ bn := by
  unfold Fs.LacksIndirect
  simp only [mem_touched]

/-- How many blocks have to be allocated to write `n` bytes at `off`. -/
def Fs.lacks (s : Fs) (k : Slot) (off n : ℕ) : ℕ :=
  (s.unmapped k off n).card + if s.LacksIndirect k off n then 1 else 0

/-- How many blocks may have to be logged to store `n` bytes at `off`. -/
def Fs.logCost (s : Fs) (k : Slot) (off n : ℕ) : ℕ :=
  s.indirectCost k + (touched off n).card + (s.unmapped k off n).card

/-- In one block, `writei` allocates what `bmap` does. -/
theorem lacks_one (hone : ∀ x, Touched off n x ↔ x = bn) : s.lacks k off n = s.needs k bn := by
  have hind : s.LacksIndirect k off n ↔ (s.icache k).din.indirect = 0 ∧ NDIRECT ≤ bn := by
    rw [lacksIndirect_iff]
    simp only [hone, exists_eq_left]
  unfold Fs.lacks Fs.needs
  by_cases hz : s.map k bn = 0
  · have hun : s.unmapped k off n = {bn} := by
      ext x
      rw [mem_unmapped, hone, Finset.mem_singleton, and_iff_left_iff_imp]
      rintro rfl
      exact hz
    rw [hun, Finset.card_singleton, if_neg (not_not.mpr hz)]
    by_cases hc : (s.icache k).din.indirect = 0 ∧ NDIRECT ≤ bn
    · rw [if_pos (hind.mpr hc), if_neg (fun h => h.elim (Nat.not_lt.mpr hc.2) fun h0 => h0 hc.1)]
    · rw [if_neg fun h => hc (hind.mp h), if_pos]
      by_contra hno
      rw [not_or, not_not, Nat.not_lt] at hno
      exact hc ⟨hno.2, hno.1⟩
  · have hun : s.unmapped k off n = ∅ := by
      rw [Finset.eq_empty_iff_forall_notMem]
      intro x hx
      obtain ⟨ht, h0⟩ := mem_unmapped.mp hx
      exact hz ((hone x).mp ht ▸ h0)
    rw [hun, Finset.card_empty, if_pos hz, if_neg]
    -- a block past the direct ones is in the indirect block
    rw [hind]
    exact fun hc => hz ((map_of_ge _ _ hc.2).trans (if_neg fun h => h.2 hc.1))

/-- `bmap` allocates no more than the whole `writei`. -/
theorem needs_le_lacks (h : Touched off n bn) : s.needs k bn ≤ s.lacks k off n := by
  unfold Fs.needs Fs.lacks
  by_cases hz : s.map k bn = 0
  · have hun : 0 < (s.unmapped k off n).card :=
      Finset.card_pos.mpr ⟨bn, mem_unmapped.mpr ⟨h, hz⟩⟩
    rw [if_neg (not_not.mpr hz)]
    by_cases hd : bn < NDIRECT ∨ (s.icache k).din.indirect ≠ 0
    · rw [if_pos hd]
      omega
    · rw [not_or, not_not, Nat.not_lt] at hd
      rw [if_neg (not_or.mpr ⟨Nat.not_lt.mpr hd.1, not_not.mpr hd.2⟩),
        if_pos (lacksIndirect_iff.mpr ⟨hd.2, bn, h, hd.1⟩)]
      omega
  · rw [if_pos hz]
    exact Nat.zero_le _

/-- A part of a range needs no more blocks than the whole. -/
theorem lacks_le_add : s.lacks k off n ≤ s.lacks k off (n + m) := by
  have hun : s.unmapped k off n ⊆ s.unmapped k off (n + m) := by
    intro bn hbn
    obtain ⟨htouch, hz⟩ := mem_unmapped.mp hbn
    exact mem_unmapped.mpr ⟨touched_add.mpr (.inl htouch), hz⟩
  have hcard := Finset.card_le_card hun
  unfold Fs.lacks
  by_cases hind : s.LacksIndirect k off n
  · obtain ⟨h0, bn, htouch, hge⟩ := lacksIndirect_iff.mp hind
    rw [if_pos hind, if_pos (lacksIndirect_iff.mpr ⟨h0, bn, touched_add.mpr (.inl htouch), hge⟩)]
    omega
  · rw [if_neg hind]
    omega

/-! ## Storing the bytes -/

/-- From `s` to `s'`, the `n` bytes at `off` of the file in slot `k` became those of `src`. -/
structure BytesStored (k : Slot) (src : List UInt8) (off n : ℕ) (s s' : Fs) : Prop where
  /-- The bytes of the range are those of `src`, the others are the same. -/
  byteAt : ∀ x, s'.byteAt k x = if off ≤ x ∧ x < off + n then src.getD (x - off) 0 else s.byteAt k x
  /-- Every block of the range has an address. -/
  mapped : ∀ bn, Touched off n bn → s'.map k bn ≠ 0
  /-- The file has the blocks that it had. -/
  map : ∀ bn, s.map k bn ≠ 0 → s'.map k bn = s.map k bn
  /-- It has no new ones outside of the range. -/
  map_of_not : ∀ bn, ¬ Touched off n bn → s'.map k bn = s.map k bn
  /-- It has an indirect block if it had one or the range needs one. -/
  indirect : (s'.icache k).din.indirect = 0 ↔
    (s.icache k).din.indirect = 0 ∧ ∀ bn, Touched off n bn → bn < NDIRECT
  /-- What was allocated was free. -/
  free : s'.freeBlocks.card + s.lacks k off n = s.freeBlocks.card

namespace BytesStored

theorem refl (k : Slot) (src : List UInt8) (off : ℕ) (s : Fs) : BytesStored k src off 0 s s := by
  have hlacks : s.lacks k off 0 = 0 := by
    unfold Fs.lacks
    have hun : s.unmapped k off 0 = ∅ := by
      rw [Finset.eq_empty_iff_forall_notMem]
      exact fun bn hbn => not_touched_zero (mem_unmapped.mp hbn).1
    rw [hun, Finset.card_empty, if_neg]
    rintro ⟨-, bn, hbn, -⟩
    exact not_touched_zero (mem_touched.mp hbn)
  refine ⟨fun x => (if_neg (by omega)).symm, fun bn hbn => absurd hbn not_touched_zero, fun _ _ => rfl,
    fun _ _ => rfl, ?_, by rw [hlacks, Nat.add_zero]⟩
  exact ⟨fun h0 => ⟨h0, fun bn hbn => absurd hbn not_touched_zero⟩, And.left⟩

/-- What is left to allocate after the first part of a range is stored. -/
theorem lacks_add (h : BytesStored k src off n s s') :
    s.lacks k off (n + m) = s.lacks k off n + s'.lacks k (off + n) m := by
  have hun : s.unmapped k off (n + m) = s.unmapped k off n ∪ s'.unmapped k (off + n) m := by
    ext bn
    rw [Finset.mem_union, mem_unmapped, mem_unmapped, mem_unmapped, touched_add]
    by_cases hbn : Touched off n bn
    · have := h.mapped bn hbn
      tauto
    · rw [h.map_of_not bn hbn]
      tauto
  have hdisj : Disjoint (s.unmapped k off n) (s'.unmapped k (off + n) m) := by
    rw [Finset.disjoint_left]
    intro bn hbn hbn'
    exact h.mapped bn (mem_unmapped.mp hbn).1 (mem_unmapped.mp hbn').2
  have hind : (if s.LacksIndirect k off (n + m) then 1 else 0) =
      (if s.LacksIndirect k off n then 1 else 0) + if s'.LacksIndirect k (off + n) m then 1 else 0 := by
    have hiff := h.indirect
    by_cases hfirst : s.LacksIndirect k off n
    · -- the first part allocates the indirect block
      obtain ⟨h0, bn, htouch, hge⟩ := lacksIndirect_iff.mp hfirst
      have hrest : ¬ s'.LacksIndirect k (off + n) m := fun hc =>
        absurd ((hiff.mp hc.1).2 bn htouch) (Nat.not_lt.mpr hge)
      have hall : s.LacksIndirect k off (n + m) :=
        lacksIndirect_iff.mpr ⟨h0, bn, touched_add.mpr (.inl htouch), hge⟩
      rw [if_pos hall, if_pos hfirst, if_neg hrest]
    · have hsame : s.LacksIndirect k off (n + m) ↔ s'.LacksIndirect k (off + n) m := by
        rw [lacksIndirect_iff] at hfirst
        rw [lacksIndirect_iff, lacksIndirect_iff, hiff]
        constructor
        · rintro ⟨h0, bn, htouch, hge⟩
          have hlow : ∀ bn', Touched off n bn' → bn' < NDIRECT := fun bn' hbn' =>
            Nat.not_le.mp fun hge' => hfirst ⟨h0, bn', hbn', hge'⟩
          exact ⟨⟨h0, hlow⟩, bn, (touched_add.mp htouch).resolve_left fun ht =>
            absurd (hlow bn ht) (Nat.not_lt.mpr hge), hge⟩
        · rintro ⟨⟨h0, -⟩, bn, htouch, hge⟩
          exact ⟨h0, bn, touched_add.mpr (.inr htouch), hge⟩
      rw [if_neg hfirst, Nat.zero_add, if_congr hsame rfl rfl]
  unfold Fs.lacks
  rw [hun, Finset.card_union_of_disjoint hdisj, hind]
  omega

/-- The two parts of a range are stored one after the other. -/
theorem append (h : BytesStored k src off n s s') (h' : BytesStored k (src.drop n) (off + n) m s' s'') :
    BytesStored k src off (n + m) s s'' := by
  refine ⟨fun x => ?_, fun bn hbn => ?_, fun bn hbn => ?_, fun bn hbn => ?_, ?_, ?_⟩
  · rw [h'.byteAt, h.byteAt]
    by_cases h1 : off ≤ x ∧ x < off + n
    · rw [if_neg (by omega), if_pos h1, if_pos (by omega)]
    · rw [if_neg h1]
      by_cases h2 : off ≤ x ∧ x < off + (n + m)
      · rw [if_pos (by omega), if_pos h2, List.getD_eq_getElem?_getD, List.getElem?_drop,
          List.getD_eq_getElem?_getD]
        congr 2
        omega
      · rw [if_neg (by omega), if_neg h2]
  · rcases touched_add.mp hbn with hfirst | hrest
    · have hne := h.mapped bn hfirst
      rw [h'.map bn hne]
      exact hne
    · exact h'.mapped bn hrest
  · have heq := h.map bn hbn
    exact (h'.map bn (heq ▸ hbn)).trans heq
  · rw [touched_add, not_or] at hbn
    exact (h'.map_of_not bn hbn.2).trans (h.map_of_not bn hbn.1)
  · rw [h'.indirect, h.indirect]
    simp only [touched_add]
    constructor
    · rintro ⟨⟨h0, hfirst⟩, hrest⟩
      exact ⟨h0, fun bn hbn => hbn.elim (hfirst bn) (hrest bn)⟩
    · rintro ⟨h0, hall⟩
      exact ⟨⟨h0, fun bn hbn => hall bn (.inl hbn)⟩, fun bn hbn => hall bn (.inr hbn)⟩
  · have hfree := h.free
    have hfree' := h'.free
    rw [h.lacks_add]
    omega

end BytesStored

/-- From `s` to `s'`, the loop of `writei` has stored `n` bytes at `off`. -/
structure ChunksStored (k : Slot) (src : List UInt8) (off n : ℕ) (s s' : Fs) : Prop
    extends BytesStored k src off n s s' where
  /-- The blocks of the file are its own. -/
  owns : OwnsBlocks k s'
  /-- Only its in-memory copy and the disk have changed. -/
  within : Within k s s'
  /-- The in-memory copy has gained addresses. -/
  below : Below (s.icache k).din (s'.icache k).din
  /-- What was logged is paid for. -/
  cost : s'.lh.length + s'.indirectCost k ≤ s.lh.length + s.logCost k off n

theorem ChunksStored.refl (h : OwnsBlocks k s) (src : List UInt8) (off : ℕ) :
    ChunksStored k src off 0 s s := by
  refine ⟨.refl .., h, .refl .., .refl _, ?_⟩
  unfold Fs.logCost
  omega

/-- One pass of the loop, after `bmap` has returned. -/
theorem Mapped.store (h : Mapped k (off / BSIZE) s s') (hn : 0 < n)
    (hin : off % BSIZE + n ≤ BSIZE) {v : Block}
    (hv : v = (s'.content k (off / BSIZE)).put (off % BSIZE) n fun j => src.getD j 0) :
    ChunksStored k src off n s (s'.wrote (s'.map k (off / BSIZE)) v) := by
  have hone : ∀ x, Touched off n x ↔ x = off / BSIZE := fun x => touched_one hn hin
  obtain ⟨howns, -, hmap, hself, hother⟩ := h.owns.writeData h.ne v
  have hind : ((s'.wrote (s'.map k (off / BSIZE)) v).icache k).din.indirect =
      (s'.icache k).din.indirect := rfl
  refine ⟨⟨fun x => ?_, fun bn hbn => ?_, fun bn hbn => ?_, fun bn hbn => ?_, ?_, ?_⟩, howns,
    h.within.trans ⟨rfl, rfl, fun _ _ => rfl⟩, h.below, ?_⟩
  · rw [byteAt_put (hself.trans hv) hother hin]
    have hold : s'.byteAt k x = s.byteAt k x := congrArg (Block.get · _) (h.content _)
    rw [hold]
  · rw [hmap, (hone bn).mp hbn]
    exact h.ne
  · rw [hmap]
    exact h.map bn hbn
  · rw [hmap]
    exact h.map_of_ne bn fun heq => hbn ((hone bn).mpr heq)
  · rw [hind, h.indirect]
    simp only [hone, forall_eq]
  · have hused : (s'.wrote (s'.map k (off / BSIZE)) v).view.used = s'.view.used := by
      rw [view_wrote h.owns.layout (h.owns.map_area h.ne)]
      rfl
    have hfree := freeBlocks_congr (s := s') (by rfl) hused
    rw [hfree, lacks_one hone]
    exact h.free
  · -- a block that was allocated is in the log already
    have hcost := h.cost
    have hmono := indirectCost_mono hind fun x hx => ((logged_wrote s' _ v).mem x).mpr (.inl hx)
    have htouched : (touched off n).card = 1 := by
      have hset : touched off n = {off / BSIZE} := by
        ext x
        rw [mem_touched, hone, Finset.mem_singleton]
      rw [hset, Finset.card_singleton]
    unfold Fs.logCost
    rw [htouched]
    by_cases hz : s.map k (off / BSIZE) = 0
    · have hun : 1 ≤ (s.unmapped k off n).card :=
        Finset.card_pos.mpr ⟨_, mem_unmapped.mpr ⟨(hone _).mpr rfl, hz⟩⟩
      rw [lh_wrote_of_mem (h.logged hz)]
      rw [if_pos hz] at hcost
      omega
    · have hlen := length_wrote_le s' (s'.map k (off / BSIZE)) v
      rw [if_neg hz] at hcost
      omega

/-- What the rest of a range may cost after its first block. -/
theorem ChunksStored.cost_rest (h : ChunksStored k src off m s s')
    (hm : m = min n (BSIZE - off % BSIZE)) :
    s'.lh.length + s'.logCost k (off + m) (n - m) ≤ s.lh.length + s.logCost k off n := by
  have hn : n = m + (n - m) := by omega
  have hcost := h.cost
  have hdisj : Disjoint (touched off m) (touched (off + m) (n - m)) := by
    rw [Finset.disjoint_left]
    intro bn hbn hbn'
    rw [mem_touched] at hbn hbn'
    have hpos := hbn.1
    obtain rfl := (touched_one hpos (by omega)).mp hbn
    exact not_touched_rest hm hbn'
  have htouched : touched off n = touched off m ∪ touched (off + m) (n - m) := by
    ext bn
    rw [Finset.mem_union, mem_touched, mem_touched, mem_touched, ← touched_add, ← hn]
  have hun : s.unmapped k off n = s.unmapped k off m ∪ s.unmapped k (off + m) (n - m) := by
    unfold Fs.unmapped
    rw [htouched, Finset.filter_union]
  have hdisj' : Disjoint (s.unmapped k off m) (s.unmapped k (off + m) (n - m)) :=
    Finset.disjoint_filter_filter hdisj
  have hrest : s'.unmapped k (off + m) (n - m) = s.unmapped k (off + m) (n - m) := by
    ext bn
    rw [mem_unmapped, mem_unmapped, and_congr_right_iff]
    intro hbn
    have hnot : ¬ Touched off m bn := fun hc =>
      Finset.disjoint_left.mp hdisj (mem_touched.mpr hc) (mem_touched.mpr hbn)
    rw [h.map_of_not bn hnot]
  unfold Fs.logCost at hcost ⊢
  rw [hrest, htouched, hun, Finset.card_union_of_disjoint hdisj,
    Finset.card_union_of_disjoint hdisj']
  omega

/-- The rest of a range is stored after its first block. -/
theorem ChunksStored.append (h : ChunksStored k src off m s s')
    (hm : m = min n (BSIZE - off % BSIZE))
    (h' : ChunksStored k (src.drop m) (off + m) (n - m) s' s'') : ChunksStored k src off n s s'' := by
  have hstored := h.toBytesStored.append h'.toBytesStored
  have hn : m + (n - m) = n := by omega
  rw [hn] at hstored
  exact ⟨hstored, h'.owns, h.within.trans h'.within, h.below.trans h'.below,
    h'.cost.trans (h.cost_rest hm)⟩

/-- The loop of `writei` stores the bytes if the log has room and there are blocks. -/
theorem OwnsBlocks.wp_writeChunks {Q : Unit → Fs → Prop} (h : OwnsBlocks k s) {bound : ℕ}
    (hbound : n ≤ bound) (hend : off + n ≤ MAXFILE * BSIZE)
    (hlog : ∀ e s', ¬ s.Room (s.logCost k off n + 1) → E e s')
    (hout : ∀ s', s.freeBlocks.card < s.lacks k off n → Within k s s' →
      s'.lh.length ≤ s.lh.length + s.logCost k off n → E (.panic .ballocOut) s')
    (hok : ∀ s', ChunksStored k src off n s s' → Q () s') :
    wp (writeChunks k (chunksUpTo bound off n) src) Q E s := by
  induction bound generalizing off n s src with
  | zero =>
    obtain rfl : n = 0 := by omega
    exact hok s (.refl h src off)
  | succ bound ih =>
    unfold chunksUpTo
    by_cases hz : n = 0
    · subst hz
      exact hok s (.refl h src off)
    · rw [if_neg hz]
      dsimp only
      generalize hm : min n (BSIZE - off % BSIZE) = m
      have hlt : off % BSIZE < BSIZE := Nat.mod_lt _ (by decide)
      have hmpos : 0 < m := by omega
      have hfirst := touched_first off hz
      have hbn : off / BSIZE < MAXFILE := by
        unfold Touched at hfirst
        rw [Nat.div_lt_iff_lt_mul (by decide)]
        omega
      -- the first block is among those that are paid for
      have hpaid : 1 ≤ (touched off n).card := Finset.card_pos.mpr ⟨_, mem_touched.mpr hfirst⟩
      have hpaid' : s.map k (off / BSIZE) = 0 → 1 ≤ (s.unmapped k off n).card := fun h0 =>
        Finset.card_pos.mpr ⟨_, mem_unmapped.mpr ⟨hfirst, h0⟩⟩
      have hcost : s.logCost k off n =
          s.indirectCost k + (touched off n).card + (s.unmapped k off n).card := rfl
      have hneeds := needs_le_lacks (s := s) (k := k) hfirst
      unfold writeChunks
      dsimp only
      rw [wp_bind]
      refine h.wp_bmap_mapped hbn (fun e s' h0 hno => hlog e s' fun hr => hno (hr.mono ?_))
        (fun s' hlack hin hle => hout s' (by omega) hin (by omega)) fun a s1 ha hmapped => ?_
      · have := hpaid' h0
        omega
      have hblk : s1.disk a.toNat = s1.content k (off / BSIZE) := by
        rw [ha, content_of_map hmapped.ne]
        exact disk_eq_block (hmapped.owns.map_area hmapped.ne)
      unfold bread
      rw [wp_bind, wp_bind, wp_get, wp_pure, hblk, ha, wp_bind]
      refine wp_logWrite ?_ fun e s' _ hno => hlog e s' fun hr => hno ?_
      · have hone : ChunksStored k src off m s _ := hmapped.store hmpos (by omega) rfl
        have hrest := hone.cost_rest hm.symm
        refine ih hone.owns (by omega) (by omega) (fun e s' hno => hlog e s' fun hr => hno ?_)
          (fun s' hlack hin hle => hout s' ?_ (hone.within.trans hin) (by omega))
          fun s' hs => hok s' (hone.append hm.symm hs)
        · exact hr.of_cost hone.within hrest
        · have hfree := hone.free
          have hlacks := hone.lacks_add (m := n - m)
          rw [show m + (n - m) = n by omega] at hlacks
          omega
      · have hle := hmapped.cost
        refine Fs.Room.mono (hr.of_cost (d := 0) hmapped.within ?_) (by omega)
        by_cases h0 : s.map k (off / BSIZE) = 0
        · have := hpaid' h0
          rw [if_pos h0] at hle
          omega
        · rw [if_neg h0] at hle
          omega

/-! ## The size of the file -/

/-- Setting the size and writing the inode to disk leaves the blocks and the bytes alone. -/
theorem OwnsBlocks.commit (h : OwnsBlocks k s) (hi : (s.icache k).inum.toNat < s.sb.ninodes)
    (size : UInt32) :
    OwnsBlocks k (s.commit k { (s.icache k).din with size }) ∧
      (∀ bn, (s.commit k { (s.icache k).din with size }).map k bn = s.map k bn) ∧
      ∀ bn, (s.commit k { (s.icache k).din with size }).content k bn = s.content k bn := by
  obtain ⟨hmap, hcont⟩ := byteAt_commit (k := k) (d := { (s.icache k).din with size }) h.layout hi
    rfl rfl
  have hused : (s.commit k { (s.icache k).din with size }).view.used = s.view.used := by
    rw [view_commit h.layout hi]
    rfl
  have hblocks : (s.commit k { (s.icache k).din with size }).blockOf k = s.blockOf k := by
    funext o
    cases o with
    | none =>
      show (Dinode.indirect (Inode.din (Fs.icache _ k))).toNat = _
      rw [icache_commit, update_self]
      rfl
    | some bn => exact hmap bn
  refine ⟨⟨h.layout, ?_, (within_commit ..).audited h.audited, ?_⟩, hmap, hcont⟩
  · rw [hused]
    exact h.metaUsed
  · rw [hblocks, hused]
    exact h.own

/-- The file in slot `k` has its blocks to itself. -/
structure FileOk (k : Slot) (s : Fs) : Prop where
  /-- The areas of the disk do not overlap. -/
  layout : s.sb.Valid
  /-- The blocks before the data blocks are marked used. -/
  metaUsed : ∀ b < s.sb.dataStart, s.view.used b = true
  /-- No two blocks of the file are the same. -/
  own : Own (s.blockOf k) [] s.view.used s.sb.Area
  /-- It is an inode of the disk. -/
  inum : (s.icache k).inum.toNat < s.sb.ninodes
  /-- It is not larger than its block addresses allow. -/
  bound : (s.icache k).din.size.toNat ≤ MAXFILE * BSIZE

/-- The file in slot `k` has no holes. -/
def Fs.NoHoles (s : Fs) (k : Slot) : Prop := (s.icache k).din.NoHoles s.view.block

theorem FileOk.owns (h : FileOk k s) (ha : s.Audited k) : OwnsBlocks k s :=
  ⟨h.layout, h.metaUsed, ha, h.own⟩


/-- A file of a file system that satisfies the invariant. -/
theorem Core.fileOk {st : Bool} {fr : Option ℕ} {lg : ℕ → Dinode} {hand : List ℕ}
    (h : Core st none fr lg hand s) (hlive : (s.icache k).Live) : FileOk k s :=
  ⟨h.layout, h.metaUsed, h.own_file (h.cache.cached k hlive (by nofun)).1, h.cache.inum k hlive.1,
    (h.node_of_live hlive).bound⟩

/-- The same file is in slot `k` of `s` and of `s'`. -/
structure SameFile (k : Slot) (s s' : Fs) : Prop where
  /-- On disk. -/
  view : s'.view = s.view
  /-- The layout of the disk is the same. -/
  sb : s'.sb = s.sb
  /-- In memory. -/
  din : (s'.icache k).din = (s.icache k).din
  /-- It is the same inode. -/
  inum : (s'.icache k).inum = (s.icache k).inum

namespace SameFile

theorem refl (k : Slot) (s : Fs) : SameFile k s s := ⟨rfl, rfl, rfl, rfl⟩

variable (h : SameFile k s s')
include h

theorem symm : SameFile k s' s := ⟨h.view.symm, h.sb.symm, h.din.symm, h.inum.symm⟩

theorem trans (h' : SameFile k s' s'') : SameFile k s s'' :=
  ⟨h'.view.trans h.view, h'.sb.trans h.sb, h'.din.trans h.din, h'.inum.trans h.inum⟩

theorem map (bn : ℕ) : s'.map k bn = s.map k bn := by
  unfold Fs.map
  rw [h.view, h.din]

theorem byteAt (x : ℕ) : s'.byteAt k x = s.byteAt k x := by
  unfold Fs.byteAt Fs.content
  rw [h.view, h.din]

theorem freeBlocks : s'.freeBlocks = s.freeBlocks := freeBlocks_congr h.sb (by rw [h.view])

theorem unmapped (off n : ℕ) : s'.unmapped k off n = s.unmapped k off n := by
  unfold Fs.unmapped
  simp only [h.map]

theorem lacks (off n : ℕ) : s'.lacks k off n = s.lacks k off n := by
  have hind : s'.LacksIndirect k off n ↔ s.LacksIndirect k off n := by
    rw [lacksIndirect_iff, lacksIndirect_iff, h.din]
  unfold Fs.lacks
  rw [h.unmapped, if_congr hind rfl rfl]

theorem fileOk (hok : FileOk k s) : FileOk k s' := by
  have hblocks : s'.blockOf k = s.blockOf k := by
    funext o
    cases o with
    | none => exact congrArg (fun d : Dinode => d.indirect.toNat) h.din
    | some bn => exact h.map bn
  refine ⟨h.sb ▸ hok.layout, ?_, ?_, ?_, ?_⟩
  · rw [h.view, h.sb]
    exact hok.metaUsed
  · rw [hblocks, h.view, h.sb]
    exact hok.own
  · rw [h.inum, h.sb]
    exact hok.inum
  · rw [h.din]
    exact hok.bound

theorem noHoles (hno : s.NoHoles k) : s'.NoHoles k := by
  unfold Fs.NoHoles
  rw [h.din, h.view]
  exact hno

end SameFile

/-- A store can be looked at from states that hold the same file. -/
theorem BytesStored.congr {t t' : Fs} (h : BytesStored k src off n s s') (hs : SameFile k s t)
    (hs' : SameFile k s' t') : BytesStored k src off n t t' := by
  refine ⟨fun x => ?_, fun bn hbn => ?_, fun bn hbn => ?_, fun bn hbn => ?_, ?_, ?_⟩
  · rw [hs'.byteAt, hs.byteAt]
    exact h.byteAt x
  · rw [hs'.map]
    exact h.mapped bn hbn
  · rw [hs.map] at hbn ⊢
    rw [hs'.map]
    exact h.map bn hbn
  · rw [hs'.map, hs.map]
    exact h.map_of_not bn hbn
  · rw [hs'.din, hs.din]
    exact h.indirect
  · rw [hs'.freeBlocks, hs.freeBlocks, hs.lacks]
    exact h.free

/-- From `s` to `s'`, `writei` has written `n` bytes at `off`. -/
structure FileWritten (k : Slot) (src : List UInt8) (off n : ℕ) (s s' : Fs) : Prop
    extends BytesStored k src off n s s' where
  /-- The file is well formed. -/
  ok : FileOk k s'
  /-- Only its in-memory copy and the disk have changed. -/
  within : Within k s s'
  /-- The type is the same. -/
  type : (s'.icache k).din.type = (s.icache k).din.type
  /-- The size covers the range. -/
  size : (s'.icache k).din.size.toNat = max (s.icache k).din.size.toNat (off + n)
  /-- There are no new holes. -/
  noHoles : s.NoHoles k → s'.NoHoles k
  /-- What was logged is paid for. -/
  cost : s'.lh.length ≤ s.lh.length + s.logCost k off n + 1

/-- The blocks below the new size have an address. -/
theorem BytesStored.mapped_below (h : BytesStored k src off n s s') (hno : s.NoHoles k)
    (hoff : off ≤ (s.icache k).din.size.toNat)
    (hlt : bn * BSIZE < max (s.icache k).din.size.toNat (off + n)) : s'.map k bn ≠ 0 := by
  by_cases hbn : Touched off n bn
  · exact h.mapped bn hbn
  · rw [h.map_of_not bn hbn]
    refine hno bn ?_
    unfold Touched at hbn
    simp only [BSIZE] at *
    omega

/-- The end of `writei`: the size covers the range. -/
theorem ChunksStored.wp_growSize {Q : Unit → Fs → Prop} {len size : UInt32}
    (hw : ChunksStored k src off n s s') (h : FileOk k s)
    (hoff : off ≤ (s.icache k).din.size.toNat) (hfits : off + n ≤ MAXFILE * BSIZE)
    (hlen : len.toNat = n) (hend : size.toNat = off + n) (hlog : ∀ e s'', ¬ s'.Room 1 → E e s'')
    (hok : ∀ s'', FileWritten k src off n s s'' → Q () s'') :
    wp (growSize k len size) Q E s' := by
  have hinum : (s'.icache k).inum.toNat < s'.sb.ninodes := by
    rw [hw.within.inum, hw.within.sb]
    exact h.inum
  have hsize := hw.below.size
  have hcost := hw.cost
  unfold growSize
  rw [wp_bind, wp_inode, wp_ite]
  refine ⟨fun hgrow => ?_, fun hstay => ?_⟩
  · -- the file ends where the range does
    refine wp_commit hw.owns.audited ?_ fun e s'' _ hfull => hlog e s'' hfull
    have hmax : max (s.icache k).din.size.toNat (off + n) = off + n := by
      have hgt := UInt32.lt_iff_toNat_lt.mp hgrow.2
      rw [hend, hsize] at hgt
      omega
    obtain ⟨howns, hmap, hcont⟩ := hw.owns.commit hinum size
    have hview := view_commit hw.owns.layout hinum { (s'.icache k).din with size }
    have hself : (s'.commit k { (s'.icache k).din with size }).icache k =
        { s'.icache k with din := { (s'.icache k).din with size } } := by
      rw [icache_commit, update_self]
    have hfree : (s'.commit k { (s'.icache k).din with size }).freeBlocks = s'.freeBlocks :=
      freeBlocks_congr (by rfl) (by rw [hview]; rfl)
    refine hok _ ⟨⟨fun x => ?_, fun bn hbn => ?_, fun bn hbn => ?_, fun bn hbn => ?_, ?_, ?_⟩,
      ⟨howns.layout, howns.metaUsed, howns.own, ?_, ?_⟩, hw.within.trans (within_commit ..), ?_, ?_,
      fun hno bn hbn => ?_, ?_⟩
    · rw [← hw.byteAt x]
      exact congrArg (Block.get · _) (hcont _)
    · rw [hmap]
      exact hw.mapped bn hbn
    · rw [hmap]
      exact hw.map bn hbn
    · rw [hmap]
      exact hw.map_of_not bn hbn
    · rw [hself]
      exact hw.indirect
    · rw [hfree]
      exact hw.free
    · rw [hself]
      exact hinum
    · rw [hself]
      show size.toNat ≤ _
      rw [hend]
      exact hfits
    · rw [hself]
      exact hw.below.type
    · rw [hself, hmax]
      exact hend
    · rw [hself] at hbn
      change bn * BSIZE < size.toNat at hbn
      have hlt : bn * BSIZE < max (s.icache k).din.size.toNat (off + n) := by
        rw [hmax, ← hend]
        exact hbn
      have hne := hw.mapped_below hno hoff hlt
      rw [← hmap bn] at hne
      exact hne
    · refine (length_wrote_le ..).trans ?_
      show s'.lh.length + 1 ≤ _
      omega
  · -- the range was in the file
    have hmax : max (s.icache k).din.size.toNat (off + n) = (s.icache k).din.size.toNat := by
      by_contra hc
      refine hstay ⟨?_, ?_⟩
      · rw [gt_iff_lt, UInt32.lt_iff_toNat_lt, hlen]
        show 0 < n
        omega
      · rw [gt_iff_lt, UInt32.lt_iff_toNat_lt, hend, hsize]
        omega
    rw [wp_pure]
    refine hok _ ⟨hw.toBytesStored, ⟨hw.owns.layout, hw.owns.metaUsed, hw.owns.own, hinum, ?_⟩,
      hw.within, hw.below.type, ?_, fun hno bn hbn => ?_, ?_⟩
    · rw [hsize]
      exact h.bound
    · rw [hsize, hmax]
    · rw [hsize] at hbn
      exact hw.mapped_below hno hoff (by rw [hmax]; exact hbn)
    · omega

/-- `writei` writes all bytes, unless they do not fit into the largest file, if the log has room and
there are blocks. -/
theorem FileOk.wp_writei {Q : Option ℕ → Fs → Prop} {off : UInt32} (h : FileOk k s)
    (ha : s.Audited k) (htype : (s.icache k).din.type ≠ T_DEV)
    (hoff : off ≤ (s.icache k).din.size) (hlen : src.length < 2 ^ 31)
    (hlog : ∀ e s', ¬ s.Room (s.logCost k off.toNat src.length + 1) → E e s')
    (hout : ∀ s', s.freeBlocks.card < s.lacks k off.toNat src.length → Within k s s' →
      s'.lh.length ≤ s.lh.length + s.logCost k off.toNat src.length → E (.panic .ballocOut) s')
    (hno : MAXFILE * BSIZE < off.toNat + src.length → Q none s)
    (hok : ∀ s', FileWritten k src off.toNat src.length s s' → Q (some src.length) s') :
    wp (writei k src off) Q E s := by
  have hbound := h.bound
  have hle := UInt32.le_iff_toNat_le.mp hoff
  have hn : (UInt32.ofNat src.length).toNat = src.length :=
    UInt32.toNat_ofNat_of_lt' (show src.length < 2 ^ 32 by omega)
  have hend : (off + UInt32.ofNat src.length).toNat = off.toNat + src.length := by
    rw [UInt32.toNat_add, hn, Nat.mod_eq_of_lt]
    simp only [MAXFILE, NDIRECT, NINDIRECT, BSIZE] at *
    omega
  have hgood : ¬ (off > (s.icache k).din.size ∨ off + UInt32.ofNat src.length < off) := by
    rw [gt_iff_lt, UInt32.lt_iff_toNat_lt, UInt32.lt_iff_toNat_lt, hend]
    omega
  unfold writei
  dsimp only
  rw [wp_bind, wp_uses ha, wp_bind, wp_inode, if_neg htype, if_neg hgood, hend, wp_ite]
  refine ⟨fun hbig => hno (by omega), fun hfits => ?_⟩
  rw [hn, wp_bind]
  refine (h.owns ha).wp_writeChunks le_rfl (by omega) hlog hout fun s1 hw => ?_
  rw [wp_bind]
  refine hw.wp_growSize h hle (by omega) hn hend (fun e s' hfull => hlog e s' fun hr => hfull ?_)
    fun s2 hwritten => ?_
  · have hcost := hw.cost
    exact hr.of_cost (d := 0) hw.within (by omega)
  · rw [wp_pure]
    exact hok s2 hwritten

end ChronoFS
