import ChronoFS.Spec.Window

/-!
# Reading and writing files

`readi` and `writei`, byte for byte: `Fs.byteAt s k x` is byte `x` of the inode in slot `k`, and a
write changes exactly the bytes of its range (`writeChunks_spec`). If every block in the range has
an address, a read changes nothing at all (`wp_readChunks_mapped`), and a write changes no address.

An inode without holes stays one: a write begins at or below the size, so the blocks it adds follow
those that are there. The in-memory copy is written to disk when the size grows. When it does not,
all blocks were there and the copy has not changed.
-/

namespace ChronoFS

open Function

variable {st : Bool} {w fr : Option ℕ} {lg lg' lg'' : ℕ → Dinode} {hand : List ℕ} {s s' s'' : Fs}
  {k : Slot} {i b bn n off : ℕ} {E : Halt → Fs → Prop} {H : Slot → ℤ × ℤ}

/-! ## One block -/

/-- The function may begin to change a loaded inode. -/
theorem Core.openWin (h : Core st none fr lg hand s) (hk : (s.icache k).Live)
    (ha : s.Audited k) : Win st fr lg hand k s :=
  ⟨hk, h.openWindow hk, (h.cache.cached k hk (by nofun)).1, ha⟩

/-- A loaded inode is well formed. -/
theorem Core.node_of_live (h : Core st none fr lg hand s) (hk : (s.icache k).Live) :
    NodeOk st s.sb.ninodes s.view.block s.versions fr (s.icache k).inum.toNat (s.icache k).din := by
  obtain ⟨hlg, -, htype⟩ := h.cache.cached k hk (by nofun)
  rw [← hlg] at htype ⊢
  exact h.node _ (by nofun) htype

/-- A data block of the file is written: nothing else of the file changes, and nothing of others. -/
theorem OwnsBlocks.writeData (h : OwnsBlocks k s) (hbn : s.map k bn ≠ 0) (v : Block) :
    OwnsBlocks k (s.wrote (s.map k bn) v) ∧ Framed k s (s.wrote (s.map k bn) v) ∧
      (∀ bn', (s.wrote (s.map k bn) v).map k bn' = s.map k bn') ∧
      (s.wrote (s.map k bn) v).content k bn = v ∧
      ∀ bn', bn' ≠ bn → (s.wrote (s.map k bn) v).content k bn' = s.content k bn' := by
  have hview := view_wrote (v := v) h.layout (h.map_area hbn)
  have hne : ∀ x, x ≠ s.map k bn → (s.wrote (s.map k bn) v).view.block x = s.view.block x := by
    intro x hx
    rw [hview]
    exact update_of_ne hx ..
  -- the indirect block is not a data block
  have hmap : ∀ bn', (s.wrote (s.map k bn) v).map k bn' = s.map k bn' := fun bn' =>
    map_congr fun _ => hne _ (h.map_ne_indirect hbn).symm
  have hblocks : (s.wrote (s.map k bn) v).blockOf k = s.blockOf k := by
    funext o
    cases o with
    | none => rfl
    | some bn' => exact hmap bn'
  have hused : (s.wrote (s.map k bn) v).view.used = s.view.used := by
    rw [hview]
    rfl
  refine ⟨⟨h.layout, ?_, h.audited, ?_⟩, ?_, hmap, ?_, ?_⟩
  · rw [hused]
    exact h.metaUsed
  · rw [hblocks, hused]
    exact h.own
  · intro x hx hnot
    refine ⟨hne x fun heq => hnot ⟨heq ▸ hbn, .inl ⟨bn, heq.symm⟩⟩, by rw [hused]; exact hx, ?_⟩
    rintro ⟨h0, ⟨bn', hbn'⟩ | hind⟩
    · exact hnot ⟨h0, .inl ⟨bn', (hmap bn').symm.trans hbn'⟩⟩
    · exact hnot ⟨h0, .inr hind⟩
  · rw [content_of_map (by rw [hmap]; exact hbn), hmap, hview]
    exact update_self ..
  · intro bn' hbn'
    by_cases hz : s.map k bn' = 0
    · rw [content_of_not_map hz, content_of_not_map ((hmap bn').trans hz)]
    · rw [content_of_map hz, content_of_map (by rw [hmap]; exact hz), hmap]
      exact hne _ fun heq => hbn' (h.map_inj hz heq)

/-- A data block of the inode is written. -/
theorem Win.writeData (h : Win st fr lg hand k s) (hbn : s.map k bn ≠ 0) (v : Block) :
    Win st fr lg hand k (s.wrote (s.map k bn) v) ∧ Grown k lg s lg (s.wrote (s.map k bn) v) := by
  obtain ⟨-, hframe, hmap, -⟩ := h.owns.writeData hbn v
  have hview := view_wrote (v := v) h.core.layout (h.owns.map_area hbn)
  refine ⟨⟨h.live, h.core.write v (.inr ⟨_, bn, rfl, hbn, (h.map_eq bn).symm⟩), h.eq, h.audited⟩,
    ⟨rfl, rfl, fun _ _ => rfl⟩, ?_, .refl _, fun bn' _ => hmap bn', fun _ _ => rfl, hframe⟩
  rw [hview]
  rfl

/-- The bytes of a file, whose blocks are `c`, after part of a block is overwritten. -/
theorem get_put_block {c c' : ℕ → Block} {m : ℕ} {f : ℕ → UInt8}
    (hself : c' (off / BSIZE) = (c (off / BSIZE)).put (off % BSIZE) m f)
    (hother : ∀ bn, bn ≠ off / BSIZE → c' bn = c bn) (hm : off % BSIZE + m ≤ BSIZE) (x : ℕ) :
    (c' (x / BSIZE)).get (x % BSIZE) =
      if off ≤ x ∧ x < off + m then f (x - off) else (c (x / BSIZE)).get (x % BSIZE) := by
  have hx := Nat.div_add_mod x BSIZE
  have hoff := Nat.div_add_mod off BSIZE
  have hlt : x % BSIZE < BSIZE := Nat.mod_lt _ (by decide)
  by_cases hblk : x / BSIZE = off / BSIZE
  · rw [hblk, hself]
    rw [hblk] at hx
    by_cases hin : off ≤ x ∧ x < off + m
    · rw [if_pos hin, Block.get_put_of_mem _ _ (by omega) (by omega) hlt]
      congr 1
      omega
    · rw [if_neg hin, Block.get_put_of_not_mem _ _ (by omega)]
  · rw [hother _ hblk, if_neg]
    rintro ⟨h1, h2⟩
    -- a byte of the range is in the block of `off`
    refine hblk (Nat.le_antisymm ?_ (Nat.div_le_div_right h1))
    refine Nat.lt_succ_iff.mp (Nat.div_lt_of_lt_mul ?_)
    simp only [BSIZE] at *
    omega

theorem byteAt_put {m : ℕ} {f : ℕ → UInt8}
    (hself : s'.content k (off / BSIZE) = (s.content k (off / BSIZE)).put (off % BSIZE) m f)
    (hother : ∀ bn, bn ≠ off / BSIZE → s'.content k bn = s.content k bn)
    (hm : off % BSIZE + m ≤ BSIZE) (x : ℕ) :
    s'.byteAt k x = if off ≤ x ∧ x < off + m then f (x - off) else s.byteAt k x :=
  get_put_block hself hother hm x

/-! ## The blocks of a byte range -/

/-- Block `bn` has a byte among the `n` from `off`. -/
def Touched (off n bn : ℕ) : Prop := 0 < n ∧ off < (bn + 1) * BSIZE ∧ bn * BSIZE < off + n

theorem touched_first (off : ℕ) (hn : n ≠ 0) : Touched off n (off / BSIZE) := by
  have := Nat.div_add_mod off BSIZE
  have hlt : off % BSIZE < BSIZE := Nat.mod_lt _ (by decide)
  unfold Touched
  simp only [BSIZE] at *
  omega

/-- The part of the range in the first block, and the others. -/
theorem touched_rest {m : ℕ} (hm : m = min n (BSIZE - off % BSIZE)) :
    (∀ bn, Touched (off + m) (n - m) bn → Touched off n bn) ∧
      ∀ bn, Touched off n bn → bn ≠ off / BSIZE → Touched (off + m) (n - m) bn := by
  have hdiv := Nat.div_add_mod off BSIZE
  have hlt : off % BSIZE < BSIZE := Nat.mod_lt _ (by decide)
  unfold Touched
  simp only [BSIZE] at *
  constructor
  · intro bn hbn
    omega
  · intro bn hbn hne
    omega

/-- Reading where every block has an address changes nothing. -/
theorem wp_bmap_mapped {Q : UInt32 → Fs → Prop} (h : OwnsBlocks k s) (hbn : s.map k bn ≠ 0)
    (hok : Q (.ofNat (s.map k bn)) s) : wp (bmap k bn) Q E s := by
  unfold bmap
  by_cases hlt : bn < NDIRECT
  · have hmap : s.map k bn = ((s.icache k).din.addrs ⟨bn, hlt⟩).toNat := map_of_lt _ _ hlt
    rw [hmap] at hbn hok
    rw [dif_pos hlt, wp_bind, wp_inode, if_neg (toNat_ne_zero.mp hbn), wp_pure]
    rw [UInt32.ofNat_toNat] at hok
    exact hok
  · have hge := map_of_ge s.view.block (s.icache k).din (Nat.not_lt.mp hlt)
    by_cases hc : bn < MAXFILE ∧ (s.icache k).din.indirect ≠ 0
    · have hmap : s.map k bn = _ := hge.trans (if_pos hc)
      rw [hmap] at hbn hok
      have hin : bn - NDIRECT < NINDIRECT := by
        have := hc.1
        simp only [MAXFILE] at this
        omega
      have hblk : s.disk (s.icache k).din.indirect.toNat =
          s.view.block (s.icache k).din.indirect.toNat := disk_eq_block (h.indirect_area hc.2)
      unfold indirectBlock bread
      rw [dif_neg hlt, if_pos hin, wp_bind, wp_bind, wp_inode, if_neg hc.2, wp_pure, wp_bind,
        wp_bind, wp_get, wp_pure, hblk, if_neg (toNat_ne_zero.mp hbn), wp_pure]
      rw [UInt32.ofNat_toNat] at hok
      exact hok
    · exact absurd (hge.trans (if_neg hc)) hbn

/-- The bytes of a range. -/
def Fs.bytes (s : Fs) (k : Slot) (off n : ℕ) : List UInt8 :=
  (List.range n).map fun j => s.byteAt k (off + j)

/-- The bytes of a range, from those in its first block. -/
theorem bytes_split {m : ℕ} (hm : m = min n (BSIZE - off % BSIZE)) :
    (List.range m).map (fun j => (s.content k (off / BSIZE)).get (off % BSIZE + j)) ++
      s.bytes k (off + m) (n - m) = s.bytes k off n := by
  have hdiv := Nat.div_add_mod off BSIZE
  have hlt : off % BSIZE < BSIZE := Nat.mod_lt _ (by decide)
  have hfirst : ∀ j < m, s.byteAt k (off + j) =
      (s.content k (off / BSIZE)).get (off % BSIZE + j) := by
    intro j hj
    have h1 : (off + j) / BSIZE = off / BSIZE := by
      simp only [BSIZE] at *
      omega
    have h2 : (off + j) % BSIZE = off % BSIZE + j := by
      simp only [BSIZE] at *
      omega
    unfold Fs.byteAt
    rw [h1, h2]
  have hn : n = m + (n - m) := by omega
  unfold Fs.bytes
  conv_rhs => rw [hn, List.range_add, List.map_append, List.map_map]
  congr 1
  · refine List.map_congr_left fun j hj => ?_
    exact (hfirst j (List.mem_range.mp hj)).symm
  · refine List.map_congr_left fun j _ => ?_
    change _ = s.byteAt k (off + (m + j))
    rw [Nat.add_assoc]

theorem wp_readChunks_mapped (h : OwnsBlocks k s) {bound : ℕ} (hn : n ≤ bound)
    (hmap : ∀ bn, Touched off n bn → s.map k bn ≠ 0) :
    wp (readChunks k (chunksUpTo bound off n))
      (fun r s' => s' = s ∧ r = s.bytes k off n) E s := by
  induction bound generalizing off n with
  | zero =>
    obtain rfl : n = 0 := by omega
    exact ⟨rfl, rfl⟩
  | succ bound ih =>
    unfold chunksUpTo
    by_cases hz : n = 0
    · rw [if_pos hz, hz]
      exact ⟨rfl, rfl⟩
    · rw [if_neg hz]
      dsimp only
      generalize hm : min n (BSIZE - off % BSIZE) = m
      obtain ⟨hsub, -⟩ := touched_rest hm.symm
      have hmpos : 0 < m := by
        have hlt : off % BSIZE < BSIZE := Nat.mod_lt _ (by decide)
        omega
      have h0 := hmap _ (touched_first off hz)
      unfold readChunks
      rw [wp_bind]
      refine wp_bmap_mapped h h0 ?_
      unfold bread
      have hblk : s.disk (UInt32.ofNat (s.map k (off / BSIZE))).toNat = s.content k (off / BSIZE) := by
        rw [View.toNat_ofNat_area h.layout (h.map_area h0), content_of_map h0]
        exact disk_eq_block (h.map_area h0)
      rw [wp_bind, wp_bind, wp_get, wp_pure, hblk]
      have hrest : ∀ bn, Touched (off + m) (n - m) bn → s.map k bn ≠ 0 := fun bn hbn =>
        hmap bn (hsub bn hbn)
      refine wp_of_spec (ih (by omega) hrest) (fun _ _ => id) ?_
      rintro r s' ⟨rfl, rfl⟩
      rw [wp_pure]
      exact ⟨rfl, bytes_split hm.symm⟩

/-- Reading may fill holes, but the contents stay the same. -/
theorem readChunks_spec (h : Win st fr lg hand k s) (hE : ∀ e s', e.Benign → E e s')
    (cs : List Chunk) :
    wp (readChunks k cs) (fun _ s' => ∃ lg', Filled st fr hand k lg s lg' s') E s := by
  induction cs generalizing s lg with
  | nil => exact ⟨lg, .refl h⟩
  | cons c cs ih =>
    unfold readChunks
    refine wp_of_spec (bmap_spec h hE) (fun _ _ => id) ?_
    rintro a s1 ⟨lg1, hfill, -, -, -⟩
    unfold bread
    rw [wp_bind, wp_bind, wp_get, wp_pure]
    refine wp_of_spec (ih hfill.win) (fun _ _ => id) ?_
    rintro r s2 ⟨lg2, hfill'⟩
    rw [wp_pure]
    exact ⟨lg2, hfill.trans hfill'⟩

/-- What `writei` leaves before it looks at the size: the bytes of the range are written, and every
block of the range has an address. -/
structure Written (st : Bool) (fr : Option ℕ) (hand : List ℕ) (k : Slot) (src : List UInt8)
    (off n : ℕ) (lg : ℕ → Dinode) (s : Fs) (lg' : ℕ → Dinode) (s' : Fs) : Prop where
  /-- The inode is still being changed. -/
  win : Win st fr lg' hand k s'
  /-- It only gained blocks. -/
  grown : Grown k lg s lg' s'
  /-- The bytes of the range are those of `src`, the others are the same. -/
  byteAt : ∀ x, s'.byteAt k x = if off ≤ x ∧ x < off + n then src.getD (x - off) 0 else s.byteAt k x
  /-- Every block of the range has an address. -/
  mapped : ∀ bn, Touched off n bn → s'.map k bn ≠ 0
  /-- If it had, no address changed. -/
  same : (∀ bn, Touched off n bn → s.map k bn ≠ 0) →
    (s'.icache k).din = (s.icache k).din ∧ lg' = lg ∧ ∀ bn, s'.map k bn = s.map k bn

theorem writeChunks_spec (h : Win st fr lg hand k s) (hE : ∀ e s', e.Benign → E e s') {bound : ℕ}
    (hn : n ≤ bound) (src : List UInt8) :
    wp (writeChunks k (chunksUpTo bound off n) src)
      (fun _ s' => ∃ lg', Written st fr hand k src off n lg s lg' s') E s := by
  induction bound generalizing off n s lg src with
  | zero =>
    obtain rfl : n = 0 := by omega
    refine ⟨lg, h, .refl .., fun x => (if_neg (by omega)).symm, fun bn hbn => ?_,
      fun _ => ⟨rfl, rfl, fun _ => rfl⟩⟩
    unfold Touched at hbn
    omega
  | succ bound ih =>
    unfold chunksUpTo
    by_cases hz : n = 0
    · rw [if_pos hz]
      refine ⟨lg, h, .refl .., fun x => (if_neg (by omega)).symm, fun bn hbn => ?_,
        fun _ => ⟨rfl, rfl, fun _ => rfl⟩⟩
      unfold Touched at hbn
      omega
    · rw [if_neg hz]
      dsimp only
      generalize hm : min n (BSIZE - off % BSIZE) = m
      have hlt : off % BSIZE < BSIZE := Nat.mod_lt _ (by decide)
      obtain ⟨hsub, hsup⟩ := touched_rest hm.symm
      have htouch := touched_first off hz
      unfold writeChunks
      refine wp_of_spec (bmap_spec h hE) (fun _ _ => id) ?_
      rintro a s1 ⟨lg1, hfill, ha, h0, hsame⟩
      dsimp only at ha h0 hsame ⊢
      have hwin := hfill.win
      have hblk : s1.disk a.toNat = s1.content k (off / BSIZE) := by
        rw [ha, content_of_map h0]
        exact disk_eq_block (hwin.owns.map_area h0)
      unfold bread
      rw [wp_bind, wp_bind, wp_get, wp_pure, hblk, ha, wp_bind]
      refine wp_logWrite ?_ fun e s' he _ => hE e s' he.benign
      obtain ⟨hwin2, hgrown2⟩ := hwin.writeData h0
        ((s1.content k (off / BSIZE)).put (off % BSIZE) m fun j => src.getD j 0)
      obtain ⟨-, -, hmap2, hself2, hother2⟩ := hwin.owns.writeData h0
        ((s1.content k (off / BSIZE)).put (off % BSIZE) m fun j => src.getD j 0)
      have hbyte2 := byteAt_put hself2 hother2 (by omega)
      refine wp_mono (ih hwin2 (by omega) (src.drop m)) ?_ fun _ _ => id
      rintro _ s3 ⟨lg3, hw⟩
      have hgrown : Grown k lg s lg3 s3 := (hfill.grown.trans hgrown2).trans hw.grown
      refine ⟨lg3, hw.win, hgrown, fun x => ?_, fun bn hbn => ?_, fun hall => ?_⟩
      · rw [hw.byteAt x, hbyte2 x]
        have hold : s1.byteAt k x = s.byteAt k x := congrArg (Block.get · _) (hfill.content _)
        rw [hold]
        by_cases h1 : off ≤ x ∧ x < off + m
        · rw [if_neg (by omega), if_pos h1, if_pos (by omega)]
        · rw [if_neg h1]
          by_cases h2 : off ≤ x ∧ x < off + n
          · rw [if_pos (by omega), if_pos h2, List.getD_eq_getElem?_getD, List.getElem?_drop,
              List.getD_eq_getElem?_getD]
            congr 2
            omega
          · rw [if_neg (by omega), if_neg h2]
      · by_cases hfirst : bn = off / BSIZE
        · rw [hfirst, hw.grown.map _ (by rw [hmap2]; exact h0), hmap2]
          exact h0
        · exact hw.mapped bn (hsup bn hbn hfirst)
      · obtain ⟨rfl, rfl⟩ := hsame (hall _ htouch)
        have hrest : ∀ bn, Touched (off + m) (n - m) bn → (s1.wrote (s1.map k (off / BSIZE))
            ((s1.content k (off / BSIZE)).put (off % BSIZE) m fun j => src.getD j 0)).map k bn ≠ 0 := by
          intro bn hbn
          rw [hmap2]
          exact hall bn (hsub bn hbn)
        obtain ⟨hdin, hlg, hmap⟩ := hw.same hrest
        exact ⟨hdin, hlg, fun bn => (hmap bn).trans (hmap2 bn)⟩

/-! ## The end of a change -/

/-- An inode that keeps its blocks and its versions is well formed if it has no holes and, as a
directory, has the right entries. -/
theorem NodeOk.grow {blk blk' : ℕ → Block} {vs : List Version} {d d' : Dinode}
    (h : NodeOk st n blk vs fr i d) (htype : d'.type = d.type)
    (hhead : d'.versionHead = d.versionHead)
    (hmap : ∀ bn, d.map blk bn ≠ 0 → d'.map blk' bn ≠ 0)
    (hdir : d.type = T_DIR → ∀ bn, d'.map blk' bn ≠ 0 → DirBlock n (blk' (d'.map blk' bn)))
    (hdot : d.type = T_DIR → fr ≠ some i →
      DIRENT_SIZE ≤ d'.size.toNat ∧ d'.map blk' 0 ≠ 0 ∧ HasDot i (blk' (d'.map blk' 0)))
    (haligned : d.type = T_DIR → d'.size.toNat % DIRENT_SIZE = 0)
    (hbound : d'.size.toNat ≤ MAXFILE * BSIZE)
    (hholes : ∀ bn, bn < NDIRECT ∨ Full st d → bn * BSIZE < d'.size.toNat → d'.map blk' bn ≠ 0) :
    NodeOk st n blk' vs fr i d' := by
  have hfull : Full st d' → Full st d := by
    unfold Full
    rw [htype]
    exact id
  refine ⟨?_, ?_, ?_, hbound, fun bn hbn => hholes bn (hbn.imp_right hfull), ?_⟩
  · rw [htype]
    exact hdir
  · rw [htype]
    exact hdot
  · rw [htype]
    exact haligned
  · obtain ⟨c, hc, hv⟩ := h.chain
    rw [hhead]
    refine ⟨c, hc, fun v hvc => ⟨?_, ?_, (hv v hvc).direct, fun hf bn hge hbn => ?_⟩⟩
    · rw [htype]
      exact (hv v hvc).dir
    · rw [htype]
      exact (hv v hvc).aligned
    · exact hmap bn ((hv v hvc).full (hfull hf) bn hge hbn)

/-- What an inode owns is in its block addresses. -/
theorem refs_relabel (blk : ℕ → Block) (vs : List Version) {d : Dinode}
    (haddrs : d.addrs = (lg i).addrs) (hind : d.indirect = (lg i).indirect) :
    refs (update lg i d) blk vs = refs lg blk vs := by
  funext o
  by_cases ho : o.inode = some i
  · cases o with
    | data j bn =>
      obtain rfl : j = i := Option.some.inj ho
      rw [refs_update_data]
      unfold Dinode.map
      rw [haddrs, hind]
      rfl
    | indirect j =>
      obtain rfl : j = i := Option.some.inj ho
      rw [refs_update_indirect, hind]
      rfl
    | vnode n => cases ho
    | vdata n k => cases ho
  · exact refs_update_of_ne d ho

/-- What a file counts as may change in everything but its blocks. -/
theorem Core.relabel (h : Core st (some i) fr lg hand s) (d : Dinode)
    (haddrs : d.addrs = (lg i).addrs) (hind : d.indirect = (lg i).indirect)
    (htype : (lg i).type ≠ 0 → d.type ≠ 0) (hhead : d.versionHead = (lg i).versionHead) :
    Core st (some i) fr (update lg i d) hand s := by
  refine h.relog d ?_ (fun _ _ _ hm => hm) htype hhead
  rw [refs_relabel _ _ haddrs hind]
  exact h.own

/-- The file system after the in-memory copy in slot `k` is set to `d` and written to disk. -/
def Fs.commit (s : Fs) (k : Slot) (d : Dinode) : Fs :=
  (s.setSlot k { s.icache k with din := d }).wroteDinode (s.icache k).inum.toNat d

theorem icache_commit (s : Fs) (k : Slot) (d : Dinode) :
    (s.commit k d).icache = update s.icache k { s.icache k with din := d } := rfl

theorem view_commit (h : s.sb.Valid) (hi : (s.icache k).inum.toNat < s.sb.ninodes) (d : Dinode) :
    (s.commit k d).view = s.view.setDinode (s.icache k).inum.toNat d :=
  view_wroteDinode (s := s.setSlot k { s.icache k with din := d }) h hi d

theorem within_commit (s : Fs) (k : Slot) (d : Dinode) : Within k s (s.commit k d) := by
  refine ⟨rfl, ?_, fun j hj => ?_⟩
  · rw [icache_commit, update_self]
  · rw [icache_commit, update_of_ne hj]

/-- The rule for `setDin` followed by `iupdate`. -/
theorem wp_commit {Q : Unit → Fs → Prop} {f : Dinode → Dinode} (ha : s.Audited k)
    (hok : Q () (s.commit k (f (s.icache k).din)))
    (hlog : ∀ e s', e.Log → ¬ s.Room 1 → E e s') :
    wp (do setDin k f; iupdate k) Q E s := by
  rw [wp_bind, wp_setDin ha]
  refine wp_iupdate (ha.setSlot rfl) ?_ hlog
  rw [setSlot_self]
  exact hok

/-- The rule for the two with a program after them. -/
theorem wp_commit_bind {α : Type} {Q : α → Fs → Prop} {f : Dinode → Dinode} {m : FsM α}
    (ha : s.Audited k) (hok : wp m Q E (s.commit k (f (s.icache k).din)))
    (hlog : ∀ e s', e.Log → ¬ s.Room 1 → E e s') :
    wp (do setDin k f; iupdate k; m) Q E s := by
  have h := wp_commit (Q := fun _ s' => wp m Q E s') ha hok hlog
  rw [wp_bind] at h ⊢
  refine wp_mono h (fun _ s' h' => ?_) fun _ _ => id
  rw [wp_bind]
  exact h'

/-- The change is done when the in-memory copy is what it should be and is written to disk. -/
theorem Core.commitWin {d : Dinode} (h : Core st (some (s.icache k).inum.toNat) fr lg hand s)
    (hk : (s.icache k).Live) (hlg : lg (s.icache k).inum.toNat = d) (htype : d.type ≠ 0)
    (hnode : NodeOk st s.sb.ninodes s.view.block s.versions fr (s.icache k).inum.toNat d) :
    Core st none fr lg hand (s.commit k d) := by
  have hlt := h.cache.inum k hk.1
  have hview := view_commit h.layout hlt d
  have hslot : (s.commit k d).icache k = { s.icache k with din := d } := by
    rw [icache_commit, update_self]
  refine ((h.setDin rfl d).wroteDinode hlt d).closeWindow (k := k) ?_ ?_ ?_ ?_ ?_ ?_
  · show ((s.commit k d).icache k).Live
    rw [hslot]
    exact hk
  · show ((s.commit k d).icache k).inum.toNat = _
    rw [hslot]
  · show _ = ((s.commit k d).icache k).din
    rw [hslot, hlg]
  · show Sync st ((s.commit k d).view.dinode _) ((s.commit k d).icache k).din
    rw [hslot, hview]
    show Sync st (update s.view.dinode _ d _) d
    rw [update_self]
    exact .refl ..
  · show ((s.commit k d).icache k).din.type ≠ 0
    rw [hslot]
    exact htype
  · show NodeOk st s.sb.ninodes (s.commit k d).view.block s.versions fr _ _
    rw [hview, hlg]
    exact hnode

/-- A change of the other fields of the inode ends the same way. -/
theorem Win.commit (h : Win st fr lg hand k s) (d : Dinode)
    (haddrs : d.addrs = (s.icache k).din.addrs) (hind : d.indirect = (s.icache k).din.indirect)
    (hhead : d.versionHead = (s.icache k).din.versionHead) (htype : d.type ≠ 0)
    (hnode : NodeOk st s.sb.ninodes s.view.block s.versions fr (s.icache k).inum.toNat d) :
    Core st none fr (update lg (s.icache k).inum.toNat d) hand (s.commit k d) :=
  (h.core.relabel d (by rw [h.eq]; exact haddrs) (by rw [h.eq]; exact hind) (fun _ => htype)
    (by rw [h.eq]; exact hhead)).commitWin h.live (update_self ..) htype hnode

/-- An inode that may have holes can be left as it is after it gained blocks. -/
theorem Core.closeGrown (h : Core st none fr lg hand s) (hk : (s.icache k).Live)
    (hwin : Win st fr lg' hand k s') (hg : Grown k lg s lg' s')
    (hfull : ¬ Full st (s.icache k).din) : Core st none fr lg' hand s' := by
  obtain ⟨hlg, hsync, htype⟩ := h.cache.cached k hk (by nofun)
  have hnode := h.node_of_live hk
  have hfull' : ¬ Full st (s'.icache k).din := by
    unfold Full at hfull ⊢
    rw [hg.below.type]
    exact hfull
  have hndir : (s.icache k).din.type ≠ T_DIR := fun heq => hfull (.inr heq)
  refine hwin.core.closeWindow hwin.live rfl hwin.eq
    ⟨fun hf => absurd hf hfull', ?_, fun j hj => ?_⟩ ?_ ?_
  · rw [hg.dinode, hg.within.inum]
    exact hsync.below.trans hg.below
  · -- a direct block below the size was there before
    rw [hg.below.size] at hj
    have hne := hnode.holes j (.inl j.isLt) hj
    rw [map_of_lt _ _ j.isLt] at hne
    rw [hg.dinode, hg.within.inum, hsync.direct j hj]
    exact (hg.below.addrs j).resolve_left (toNat_ne_zero.mp hne)
  · rw [hg.below.type]
    exact htype
  · rw [hwin.eq, hg.within.inum, hg.within.sb, hg.within.versions]
    have hkeep : ∀ bn, s.map k bn ≠ 0 → s'.map k bn ≠ 0 := by
      intro bn hbn
      rw [hg.map bn hbn]
      exact hbn
    refine hnode.grow hg.below.type hg.below.versionHead hkeep (fun hd => absurd hd hndir)
      (fun hd => absurd hd hndir) (fun hd => absurd hd hndir)
      (hg.below.size ▸ hnode.bound) fun bn hf hbn => hkeep bn (hnode.holes bn hf ?_)
    rwa [hg.below.size] at hbn

/-! ## `readi` -/

/-- The invariant does not depend on the input that is to come. -/
theorem Core.setIo (h : Core st w fr lg hand s) (io : List (Option (List UInt8))) :
    Core st w fr lg hand { s with io } :=
  ⟨h.layout, h.metaUsed, h.cache, h.own, h.node, h.vers, h.deleted, h.tracked, h.found⟩

/-- A change of the inode in slot `k` that keeps its type and its versions and does not shrink it. -/
theorem Within.ordinary (hw : Within k s s') (h : Core st none fr lg hand s)
    (h' : Core st none fr lg' hand s') (hk : (s.icache k).Live)
    (hothers : ∀ j, j ≠ (s.icache k).inum.toNat → lg' j = lg j)
    (htype : (s'.icache k).din.type = (s.icache k).din.type)
    (hhead : (s'.icache k).din.versionHead = (s.icache k).din.versionHead)
    (hsize : (s.icache k).din.size ≤ (s'.icache k).din.size) : Ordinary H s s' := by
  obtain ⟨hlg, -⟩ := h.cache.cached k hk (by nofun)
  obtain ⟨hlg', -⟩ := h'.cache.cached k (hw.live.mpr hk) (by nofun)
  rw [hw.inum] at hlg'
  refine .of_one h h' hothers (.inr ?_) (fun j _ hv => ?_) (congrArg Fs.deleted hw.rest :)
  · rw [hlg, hlg']
    exact ⟨htype, hhead⟩
  · by_cases hj : j = k
    · rw [hj] at hv ⊢
      exact ⟨hw.valid.trans hv, hsize⟩
    · rw [hw.other j hj]
      exact ⟨hv, UInt32.le_refl _⟩

/-- What a function leaves that may change inodes: the invariant holds, and references, locks and
the slots in use are the same. -/
structure Kept (st : Bool) (fr : Option ℕ) (hand : List ℕ) (s s' : Fs) : Prop where
  /-- The invariant holds. -/
  core : ∃ lg, Core st none fr lg hand s'
  /-- References and locks are the same. -/
  hold : s'.hold = s.hold
  /-- The slots in use are for the same inodes. -/
  steady : Steady s.hold s s'
  /-- Inodes keep their types and their versions. -/
  ordinary : Ordinary s.hold s s'

theorem Kept.refl (h : Core st none fr lg hand s) : Kept st fr hand s s :=
  ⟨⟨lg, h⟩, rfl, .refl _ _, .refl _ _⟩

/-- A slot that is loaded stays loaded. -/
theorem Kept.live (h : Kept st fr hand s s') (hk : (s.icache k).Live) : (s'.icache k).Live := by
  have href : (s'.icache k).ref = (s.icache k).ref := congrArg Prod.fst (congrFun h.hold k)
  exact ⟨by rw [href]; exact hk.1, ((h.steady.slot k hk.1).type hk.2).1⟩

/-- Locking an inode again after it was unlocked and input was taken. -/
theorem relock_spec {s1 : Fs} (h : Core st none fr lg hand s) (hlook : Looked st fr lg hand s.hold s s1)
    (hhold : s1.hold = s.hold - aLock k) (hk : 0 < (s1.icache k).ref)
    (hE : ∀ e s', e.Benign → E e s') (io : List (Option (List UInt8))) :
    wp (ilock k) (fun _ s' => Kept st fr hand s s') E { s1 with io } := by
  refine wp_ilock (s := { s1 with io }) (hlook.core.setIo io) hk
    (fun _ => hE _ _ ⟨by decide, by decide⟩) (fun _ _ _ => hE _ _ ⟨by decide, by decide⟩) ?_
  intro s2 hlook2 hhold2 _ _ _ _
  have hhold' : s2.hold = s.hold := by
    rw [hhold2]
    change s1.hold + aLock k = s.hold
    rw [hhold, sub_add_cancel]
  have hle : ∀ j, (s.hold j).1 ≤ (s1.hold j).1 := by
    intro j
    have := aLock_fst k j
    rw [hhold]
    simp only [Pi.sub_apply, Prod.fst_sub]
    omega
  have hord : Ordinary s.hold _ _ := (hlook2.ordinary (hlook.core.setIo io)).anti hle
  refine ⟨⟨lg, hlook2.core⟩, hhold', hlook.steady.trans ?_, (hlook.ordinary h).trans ?_⟩
  · exact Steady.anti (H := s1.hold) ⟨hlook2.steady.rest, hlook2.steady.slot⟩ hle
  · refine ⟨fun i => .inr ?_, hord.size, hord.deleted⟩
    rw [hlook2.core.inodes, hlook.core.inodes]
    exact ⟨rfl, rfl⟩

theorem consoleread_spec (h : Core st none fr lg hand s) (hk : 0 < (s.icache k).ref)
    (hE : ∀ e s', e.Benign → E e s') (n : ℕ) :
    wp (consoleread k n) (fun _ s' => Kept st fr hand s s') E s := by
  unfold consoleread
  rw [wp_bind]
  refine wp_iunlock h hk (fun _ => hE _ _ ⟨by decide, by decide⟩) fun s1 hlook hhold hic _ => ?_
  have hk1 : 0 < (s1.icache k).ref := by
    rw [hic, update_self]
    exact hk
  rw [wp_bind, wp_get]
  cases s1.io with
  | nil =>
    rw [wp_throw]
    exact hE _ _ ⟨by decide, by decide⟩
  | cons line rest =>
    dsimp only
    rw [wp_bind, wp_modify]
    exact wp_of_spec (relock_spec h hlook hhold hk1 hE rest) (fun _ _ => id) fun _ _ hq => hq

theorem consolewrite_spec (h : Core st none fr lg hand s) (hk : 0 < (s.icache k).ref)
    (hE : ∀ e s', e.Benign → E e s') (n : ℕ) :
    wp (consolewrite k n) (fun _ s' => Kept st fr hand s s') E s := by
  unfold consolewrite
  rw [wp_bind]
  refine wp_iunlock h hk (fun _ => hE _ _ ⟨by decide, by decide⟩) fun s1 hlook hhold hic _ => ?_
  have hk1 : 0 < (s1.icache k).ref := by
    rw [hic, update_self]
    exact hk
  exact wp_of_spec (relock_spec h hlook hhold hk1 hE s1.io) (fun _ _ => id) fun _ _ hq => hq

theorem toNat_add_of_not_lt {off n : UInt32} (h : ¬ off + n < off) :
    (off + n).toNat = off.toNat + n.toNat := by
  have h1 := off.toNat_lt
  have h2 := n.toNat_lt
  rw [UInt32.lt_iff_toNat_lt, UInt32.toNat_add] at h
  rw [UInt32.toNat_add]
  omega

/-- The number of bytes that `readi` reads. -/
theorem readi_len (off n size : UInt32) (h : ¬ (off > size ∨ off + n < off)) :
    (if off + n > size then size - off else n).toNat = min n.toNat (size.toNat - off.toNat) := by
  rw [not_or] at h
  obtain ⟨hle, hwrap⟩ := h
  have hadd := toNat_add_of_not_lt hwrap
  have hle' : off.toNat ≤ size.toNat := by
    rw [gt_iff_lt, UInt32.lt_iff_toNat_lt] at hle
    omega
  by_cases hgt : off + n > size
  · rw [if_pos hgt, UInt32.toNat_sub_of_le _ _ (UInt32.le_iff_toNat_le.mpr hle')]
    rw [gt_iff_lt, UInt32.lt_iff_toNat_lt] at hgt
    omega
  · rw [if_neg hgt]
    rw [gt_iff_lt, UInt32.lt_iff_toNat_lt] at hgt
    omega

/-- An inode without holes is read without any effect. -/
theorem wp_readi_full {Q : Option (List UInt8) → Fs → Prop} (h : OwnsBlocks k s)
    (hdev : (s.icache k).din.type ≠ T_DEV) (hfull : (s.icache k).din.NoHoles s.view.block) {off n : UInt32}
    (hok : Q (if off > (s.icache k).din.size ∨ off + n < off then none else
      some (s.bytes k off.toNat
        (min n.toNat ((s.icache k).din.size.toNat - off.toNat)))) s) :
    wp (readi k off n) Q E s := by
  unfold readi
  rw [wp_bind, wp_uses h.audited, wp_bind, wp_inode, if_neg hdev, wp_ite]
  refine ⟨fun hbad => ?_, fun hgood => ?_⟩
  · rw [if_pos hbad] at hok
    exact hok
  · rw [if_neg hgood] at hok
    dsimp only
    rw [readi_len _ _ _ hgood]
    refine wp_of_spec (wp_readChunks_mapped h le_rfl fun bn hbn => ?_)
      (fun _ _ => id) ?_
    · exact hfull bn (by unfold Touched at hbn; omega)
    · rintro r s' ⟨rfl, rfl⟩
      exact hok

/-- `readi` keeps the invariant. -/
theorem readi_spec (h : Core st none fr lg hand s) (hk : (s.icache k).Live) (ha : s.Audited k)
    (hE : ∀ e s', e.Benign → E e s') (off n : UInt32) :
    wp (readi k off n) (fun _ s' => Kept st fr hand s s') E s := by
  by_cases hdev : (s.icache k).din.type = T_DEV
  · unfold readi
    rw [wp_bind, wp_uses ha, wp_bind, wp_inode, if_pos hdev, wp_ite]
    exact ⟨fun _ => .refl h, fun _ => consoleread_spec h hk.1 hE _⟩
  · have hnode := h.node_of_live hk
    by_cases hfull : Full st (s.icache k).din
    · exact wp_readi_full (h.openWin hk ha).owns hdev (hnode.noHoles hfull) (.refl h)
    · unfold readi
      rw [wp_bind, wp_uses ha, wp_bind, wp_inode, if_neg hdev, wp_ite]
      refine ⟨fun _ => .refl h, fun _ => ?_⟩
      refine wp_of_spec (readChunks_spec (h.openWin hk ha) hE _) (fun _ _ => id) ?_
      rintro r s' ⟨lg', hfill⟩
      rw [wp_pure]
      have hcore := h.closeGrown hk hfill.win hfill.grown hfull
      have hbelow := hfill.grown.below
      refine ⟨⟨lg', hcore⟩, hfill.grown.within.hold, hfill.grown.within.steady hbelow.type,
        hfill.grown.within.ordinary h hcore hk hfill.grown.others hbelow.type hbelow.versionHead ?_⟩
      exact hbelow.size ▸ UInt32.le_refl _

/-! ## Writing to a directory -/

/-- What is written to a directory is one entry, in its place, that names an inode of the disk. The
first entry is written only while the directory is being made. -/
structure DirWrite (n : ℕ) (fr : Option ℕ) (i : ℕ) (src : List UInt8) (off : ℕ) : Prop where
  /-- It has the length of an entry. -/
  len : src.length = DIRENT_SIZE
  /-- It goes where an entry begins. -/
  aligned : off % DIRENT_SIZE = 0
  /-- The entry names an inode of the disk, or none. -/
  inum : (Dirent.read (fun j => src.getD j 0) 0).inum.toNat < n
  /-- It is not the first one. -/
  first : fr ≠ some i → DIRENT_SIZE ≤ off

theorem content_get (s : Fs) (k : Slot) (bn : ℕ) {x : ℕ} (hx : x < BSIZE) :
    (s.content k bn).get x = s.byteAt k (bn * BSIZE + x) := by
  have h1 : (bn * BSIZE + x) / BSIZE = bn := by
    simp only [BSIZE] at *
    omega
  have h2 : (bn * BSIZE + x) % BSIZE = x := by
    simp only [BSIZE] at *
    omega
  unfold Fs.byteAt
  rw [h1, h2]

/-- An entry of the directory after the write: the one that was written, or as before. -/
theorem Written.dirent {src : List UInt8} (hw : Written st fr hand k src off n lg s lg' s')
    (hn : n = DIRENT_SIZE) (hal : off % DIRENT_SIZE = 0) (bn : ℕ) {e : ℕ}
    (he : (e + 1) * DIRENT_SIZE ≤ BSIZE) :
    Dirent.read (s'.content k bn).get (e * DIRENT_SIZE) =
      if bn * BSIZE + e * DIRENT_SIZE = off then Dirent.read (fun j => src.getD j 0) 0
      else Dirent.read (s.content k bn).get (e * DIRENT_SIZE) := by
  subst hn
  by_cases heq : bn * BSIZE + e * DIRENT_SIZE = off
  · rw [if_pos heq]
    refine Dirent.read_congr fun j hj => ?_
    simp only [DIRENT_SIZE] at *
    rw [content_get _ _ _ (by omega), hw.byteAt, if_pos (by omega)]
    congr 1
    omega
  · rw [if_neg heq]
    refine Dirent.read_congr fun j hj => ?_
    have hx : e * DIRENT_SIZE + j < BSIZE := by
      simp only [DIRENT_SIZE] at *
      omega
    -- two entries are the same or have no byte in common
    have hout : ¬ (off ≤ bn * BSIZE + (e * DIRENT_SIZE + j) ∧
        bn * BSIZE + (e * DIRENT_SIZE + j) < off + DIRENT_SIZE) := by
      simp only [DIRENT_SIZE, BSIZE] at *
      omega
    rw [content_get _ _ _ hx, hw.byteAt, if_neg hout, ← content_get _ _ _ hx]

theorem Written.dirBlock {src : List UInt8} {m : ℕ}
    (hw : Written st fr hand k src off n lg s lg' s') (hn : n = DIRENT_SIZE)
    (hd : DirWrite m fr i src off) (hold : ∀ bn, DirBlock m (s.content k bn)) (bn : ℕ) :
    DirBlock m (s'.content k bn) := by
  intro e he
  rw [hw.dirent hn hd.aligned bn he]
  by_cases heq : bn * BSIZE + e * DIRENT_SIZE = off
  · rw [if_pos heq]
    exact hd.inum
  · rw [if_neg heq]
    exact hold bn e he

/-- Zeroes are the entries of a directory block. -/
theorem dirBlock_zero (hn : 0 < n) : DirBlock n .zero := by
  intro e _
  have : Dirent.read Block.zero.get (e * DIRENT_SIZE) = Dirent.read (fun _ => 0) 0 :=
    Dirent.read_congr fun j _ => Block.get_zero _
  rw [this]
  exact hn

end ChronoFS
