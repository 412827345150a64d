import ChronoFS.Spec.Core

/-!
# Moves that keep the invariant

Every function of the file system is a sequence of a few kinds of change. Those that touch blocks
are here: a block is allocated or freed, a block in hand or a data block of the inode that is being
changed is written, and that inode gains or loses blocks. Each keeps `Core`. `Core.keep` does the
work for the first kinds: what an owner's block holds does not change, so no reference does.
-/

namespace ChronoFS

open Function

variable {st : Bool} {w fr : Option ℕ} {lg : ℕ → Dinode} {hand hand' : List ℕ} {s s' : Fs}
  {d : Dinode} {blk blk' : ℕ → Block} {vs : List Version} {i b bn n : ℕ}

/-! ## What depends on the blocks -/

theorem map_of_lt (blk : ℕ → Block) (d : Dinode) (h : bn < NDIRECT) :
    d.map blk bn = (d.addrs ⟨bn, h⟩).toNat := dif_pos h

theorem map_of_ge (blk : ℕ → Block) (d : Dinode) (h : NDIRECT ≤ bn) :
    d.map blk bn = if bn < MAXFILE ∧ d.indirect ≠ 0 then
      ((blk d.indirect.toNat).word (bn - NDIRECT)).toNat else 0 :=
  dif_neg (Nat.not_lt.mpr h)

/-- The addresses of a file depend on its indirect block only. -/
theorem map_congr (h : d.indirect ≠ 0 → blk' d.indirect.toNat = blk d.indirect.toNat) :
    d.map blk' bn = d.map blk bn := by
  by_cases hbn : bn < NDIRECT
  · rw [map_of_lt blk' d hbn, map_of_lt blk d hbn]
  · rw [map_of_ge blk' d (Nat.not_lt.mp hbn), map_of_ge blk d (Nat.not_lt.mp hbn)]
    by_cases hc : bn < MAXFILE ∧ d.indirect ≠ 0
    · rw [if_pos hc, if_pos hc, h hc.2]
    · rw [if_neg hc, if_neg hc]

/-- References depend on the indirect blocks only. -/
theorem refs_congr
    (h : ∀ i, (lg i).indirect ≠ 0 → blk' (lg i).indirect.toNat = blk (lg i).indirect.toNat) :
    refs lg blk' vs = refs lg blk vs := by
  funext o
  cases o with
  | data i bn => exact map_congr (h i)
  | indirect i => rfl
  | vnode n => rfl
  | vdata n k => rfl

theorem toNat_ne_zero {x : UInt32} : x.toNat ≠ 0 ↔ x ≠ 0 := by
  rw [Ne, Ne, ← UInt32.toNat_inj]
  rfl

/-- What is known about an inode depends on the blocks that it owns. -/
theorem NodeOk.congr (h : NodeOk st n blk vs fr i d)
    (hind : d.indirect ≠ 0 → blk' d.indirect.toNat = blk d.indirect.toNat)
    (hdata : ∀ bn, d.map blk bn ≠ 0 → blk' (d.map blk bn) = blk (d.map blk bn)) :
    NodeOk st n blk' vs fr i d := by
  have hmap : ∀ bn, d.map blk' bn = d.map blk bn := fun bn => map_congr hind
  refine ⟨?_, ?_, h.aligned, h.bound, ?_, ?_⟩
  · intro hdir bn hbn
    rw [hmap] at hbn ⊢
    rw [hdata bn hbn]
    exact h.dir hdir bn hbn
  · intro hdir hfr
    obtain ⟨hsize, hne, hdot⟩ := h.dot hdir hfr
    rw [hmap, hdata 0 hne]
    exact ⟨hsize, hne, hdot⟩
  · intro bn hfull hbn
    rw [hmap]
    exact h.holes bn hfull hbn
  · obtain ⟨c, hc, hv⟩ := h.chain
    refine ⟨c, hc, fun v hvc => ⟨(hv v hvc).dir, (hv v hvc).aligned, (hv v hvc).direct,
      fun hfull bn hge hbn => ?_⟩⟩
    rw [hmap]
    exact (hv v hvc).full hfull bn hge hbn

/-- A version's own blocks. -/
theorem refs_vnode (lg : ℕ → Dinode) (blk : ℕ → Block) {v : Version} (hv : v ∈ vs) :
    ∃ n, refs lg blk vs (.vnode n) = v.node.toNat ∧
      ∀ k, refs lg blk vs (.vdata n k) = v.dataBlock k := by
  obtain ⟨n, hn, rfl⟩ := List.mem_iff_getElem.mp hv
  refine ⟨n, ?_, fun k => ?_⟩
  · simp [refs, List.getElem?_eq_getElem hn]
  · simp [refs, List.getElem?_eq_getElem hn]

theorem VersionsOk.congr (h : VersionsOk blk vs)
    (hnode : ∀ v ∈ vs, blk' v.node.toNat = blk v.node.toNat)
    (hdata : ∀ v ∈ vs, ∀ k < v.nblocks, blk' (v.dataBlock k) = blk (v.dataBlock k)) :
    VersionsOk blk' vs :=
  ⟨h.ne, h.dataNe, fun v hv => (hnode v hv).trans (h.node v hv), h.nblocks,
    fun v hv k hk => (hdata v hv k hk).trans (h.data v hv k hk), h.direct, h.bound⟩

/-! ## Blocks are allocated, freed and written -/

/-- Two states that differ in the disk, the log and the reference-count table only. -/
structure SameMeta (s s' : Fs) : Prop where
  /-- The super block. -/
  sb : s'.sb = s.sb
  /-- The inode cache. -/
  icache : s'.icache = s.icache
  /-- The versions. -/
  versions : s'.versions = s.versions
  /-- The deleted files. -/
  deleted : s'.deleted = s.deleted
  /-- The chains given up. -/
  lost : s'.lost = s.lost

theorem sameMeta_wrote (s : Fs) (b : ℕ) (v : Block) : SameMeta s (s.wrote b v) :=
  ⟨rfl, rfl, rfl, rfl, rfl⟩

theorem sameMeta_alloc (s : Fs) (b : ℕ) : SameMeta s (s.alloc b) :=
  ⟨rfl, rfl, rfl, rfl, rfl⟩

/-- Block 0 is not a data block. -/
theorem block_zero (hv : s.sb.Valid) : s.view.block 0 = .zero :=
  if_neg fun ha => View.area_ne_zero hv ha rfl

/-- The inode of an owner. -/
def Owner.inode : Owner → Option ℕ
  | .data i _ | .indirect i => some i
  | .vnode _ | .vdata _ _ => none

/-- A change that leaves what the blocks of the owners hold alone, but for those of the inode that
is being changed. -/
theorem Core.change (h : Core st w fr lg hand s) (hm : SameMeta s s')
    (hdin : s'.view.dinode = s.view.dinode)
    (hused : ∀ b < s.sb.dataStart, s'.view.used b = true)
    (hown : Own (refs lg s'.view.block s.versions) hand' s'.view.used s.sb.Area)
    (hsame : ∀ o, refs lg s.view.block s.versions o ≠ 0 → (∀ i, w = some i → o.inode ≠ some i) →
      s'.view.block (refs lg s.view.block s.versions o) =
        s.view.block (refs lg s.view.block s.versions o))
    (htrack : ∀ e ∈ s'.refcounts, e.valid = true → e.blockNum.toNat ∈ hand' ∨
      ∃ n k, refs lg s.view.block s.versions (.vdata n k) = e.blockNum.toNat ∧ e.blockNum ≠ 0) :
    Core st w fr lg hand' s' := by
  have hzero : s'.view.block 0 = s.view.block 0 := by
    rw [block_zero h.layout, block_zero (hm.sb ▸ h.layout)]
  have hvnode : ∀ v ∈ s.versions, s'.view.block v.node.toNat = s.view.block v.node.toNat := by
    intro v hv
    obtain ⟨m, hm', -⟩ := refs_vnode lg s.view.block hv
    by_cases h0 : v.node.toNat = 0
    · rw [h0, hzero]
    · rw [← hm']
      exact hsame _ (by rw [hm']; exact h0) (by nofun)
  have hvdata : ∀ v ∈ s.versions, ∀ k < v.nblocks,
      s'.view.block (v.dataBlock k) = s.view.block (v.dataBlock k) := by
    intro v hv k _
    obtain ⟨m, -, hm'⟩ := refs_vnode lg s.view.block hv
    by_cases h0 : v.dataBlock k = 0
    · rw [h0, hzero]
    · rw [← hm' k]
      exact hsame _ (by rw [hm' k]; exact h0) (by nofun)
  refine ⟨?_, ?_, ?_, ?_, ?_, ?_, ?_, ?_, ?_⟩
  · rw [hm.sb]
    exact h.layout
  · rw [hm.sb]
    exact hused
  · rw [hm.sb, hm.icache, hdin]
    exact h.cache
  · rw [hm.sb, hm.versions]
    exact hown
  · intro i hi htype
    have hforeign : ∀ j, w = some j → some i ≠ some j := fun j hj heq => hi (hj.trans heq.symm)
    rw [hm.sb, hm.versions]
    refine (h.node i hi htype).congr (fun h0 => ?_) fun bn hbn => ?_
    · exact hsame (.indirect i) (toNat_ne_zero.mpr h0) hforeign
    · exact hsame (.data i bn) hbn hforeign
  · rw [hm.versions]
    exact h.vers.congr hvnode hvdata
  · rw [hm.deleted, hm.versions]
    exact h.deleted
  · rw [hm.versions]
    exact htrack
  · rw [hm.deleted, hm.lost, hm.versions]
    exact h.found

/-- A change that leaves what the blocks of the owners hold alone, but for the data blocks of the
inode that is being changed. -/
theorem Core.keep (h : Core st w fr lg hand s) (hm : SameMeta s s')
    (hdin : s'.view.dinode = s.view.dinode)
    (hused : ∀ b < s.sb.dataStart, s'.view.used b = true)
    (hown : Own (refs lg s.view.block s.versions) hand' s'.view.used s.sb.Area)
    (hsame : ∀ o, refs lg s.view.block s.versions o ≠ 0 → (∀ i bn, w = some i → o ≠ .data i bn) →
      s'.view.block (refs lg s.view.block s.versions o) =
        s.view.block (refs lg s.view.block s.versions o))
    (htrack : ∀ e ∈ s'.refcounts, e.valid = true → e.blockNum.toNat ∈ hand' ∨
      ∃ n k, refs lg s.view.block s.versions (.vdata n k) = e.blockNum.toNat ∧ e.blockNum ≠ 0) :
    Core st w fr lg hand' s' := by
  have hrefs : refs lg s'.view.block s.versions = refs lg s.view.block s.versions :=
    refs_congr fun i hi => hsame (.indirect i) (toNat_ne_zero.mpr hi) (by nofun)
  refine h.change hm hdin hused (hrefs ▸ hown) (fun o ho hno => hsame o ho ?_) htrack
  rintro i bn hi rfl
  exact hno i hi rfl

/-- A block is allocated. -/
theorem Core.alloc (h : Core st w fr lg hand s) (hb : s.sb.Area b) (hfree : s.view.used b = false) :
    Core st w fr lg (b :: hand) (s.alloc b) := by
  have hne := View.area_ne_zero h.layout hb
  have hview := view_alloc h.layout hb
  refine h.keep (sameMeta_alloc s b) ?_ ?_ ?_ ?_ ?_
  · rw [hview]
    rfl
  · intro c hc
    rw [hview]
    have hcb : c ≠ b := by
      have := hb.1
      omega
    exact (update_of_ne hcb _ _).trans (h.metaUsed c hc)
  · rw [hview]
    exact h.own.alloc hne hb hfree
  · intro o _ _
    rw [hview]
    exact update_of_ne ((h.own.fresh hne hfree).1 o) _ _
  · intro e he hv
    exact (h.tracked e he hv).imp (List.mem_cons_of_mem _) id

/-- A block in hand is freed. -/
theorem Core.free (h : Core st w fr lg (b :: hand) s)
    (hb : ∀ e ∈ s.refcounts, e.valid = true → e.blockNum.toNat ≠ b) :
    Core st w fr lg hand (s.free b) := by
  obtain ⟨-, harea, -, -⟩ := h.own.held b List.mem_cons_self
  have hview := view_free h.layout harea.2
  refine h.keep (sameMeta_wrote ..) ?_ ?_ ?_ ?_ ?_
  · rw [hview]
    rfl
  · intro c hc
    rw [hview]
    have hcb : c ≠ b := by
      have := harea.1
      omega
    exact (update_of_ne hcb _ _).trans (h.metaUsed c hc)
  · rw [hview]
    exact h.own.free
  · intro o _ _
    rw [hview]
    rfl
  · intro e he hv
    refine (h.tracked e he hv).imp (fun hm => ?_) id
    exact (List.mem_cons.mp hm).resolve_left (hb e he hv)

/-- A block in hand, or a data block of the inode that is being changed, is written. -/
theorem Core.write (h : Core st w fr lg hand s) (v : Block)
    (hb : b ∈ hand ∨ ∃ i bn, w = some i ∧ b ≠ 0 ∧
      refs lg s.view.block s.versions (.data i bn) = b) :
    Core st w fr lg hand (s.wrote b v) := by
  have harea : s.sb.Area b := by
    rcases hb with hb | ⟨i, bn, -, hne, rfl⟩
    · exact (h.own.held b hb).2.1
    · exact h.own.inArea _ hne
  have hview := view_wrote (v := v) h.layout harea
  refine h.keep (sameMeta_wrote ..) ?_ ?_ ?_ ?_ ?_
  · rw [hview]
    rfl
  · rw [hview]
    exact h.metaUsed
  · rw [hview]
    exact h.own
  · intro o ho hno
    rw [hview]
    refine update_of_ne ?_ _ _
    rcases hb with hb | ⟨i, bn, hi, hne, heq⟩
    · exact (h.own.held b hb).2.2.2 o
    · intro hob
      exact hno i bn hi (h.own.inj o _ ho (hob.trans heq.symm))
  · exact h.tracked

/-! ## The inode that is being changed -/

/-- The file system with the inode in slot `k` replaced. -/
def Fs.setSlot (s : Fs) (k : Slot) (ip : Inode) : Fs :=
  { s with icache := update s.icache k ip }

theorem setSlot_self (s : Fs) (k : Slot) (ip : Inode) : (s.setSlot k ip).icache k = ip :=
  update_self ..

theorem setSlot_of_ne (s : Fs) {k j : Slot} (ip : Inode) (h : j ≠ k) :
    (s.setSlot k ip).icache j = s.icache j := update_of_ne h ..

/-- The in-memory copy of the inode that is being changed may change. -/
theorem CacheOk.setDin {dinode : ℕ → Dinode} {icache : Slot → Inode}
    (h : CacheOk st w fr n dinode icache lg) {k : Slot} (hw : w = some (icache k).inum.toNat)
    (d : Dinode) : CacheOk st w fr n dinode (update icache k { icache k with din := d }) lg := by
  -- all but the copy is as before, in every slot
  have hsame : ∀ j, (update icache k { icache k with din := d } j).ref = (icache j).ref ∧
      (update icache k { icache k with din := d } j).dev = (icache j).dev ∧
      (update icache k { icache k with din := d } j).inum = (icache j).inum ∧
      (update icache k { icache k with din := d } j).valid = (icache j).valid := by
    intro j
    by_cases hj : j = k
    · subst hj
      rw [update_self]
      exact ⟨rfl, rfl, rfl, rfl⟩
    · rw [update_of_ne hj]
      exact ⟨rfl, rfl, rfl, rfl⟩
  have hlive : ∀ j, (update icache k { icache k with din := d } j).Live ↔ (icache j).Live := by
    intro j
    unfold Inode.Live
    rw [(hsame j).1, (hsame j).2.2.2]
  refine ⟨?_, ?_, ?_, ?_, ?_, ?_, ?_⟩
  · intro j
    rw [(hsame j).1]
    exact h.nonneg j
  · intro j hj
    rw [(hsame j).1] at hj
    rw [(hsame j).2.1]
    exact h.dev j hj
  · intro j hj
    rw [(hsame j).1] at hj
    rw [(hsame j).2.2.1]
    exact h.inum j hj
  · intro j j' hj hj' heq
    rw [(hsame j).1] at hj
    rw [(hsame j').1] at hj'
    rw [(hsame j).2.2.1, (hsame j').2.2.1] at heq
    exact h.uniq j j' hj hj' heq
  · intro j hj hne
    rw [hlive] at hj
    rw [(hsame j).2.2.1] at hne ⊢
    have hjk : j ≠ k := by
      rintro rfl
      exact hne hw
    rw [update_of_ne hjk]
    exact h.cached j hj hne
  · intro i hi
    refine h.uncached i fun j hj heq => hi j ((hlive j).mpr hj) ?_
    rw [(hsame j).2.2.1]
    exact heq
  · intro i hi
    obtain ⟨j, hj, heq⟩ := h.window i hi
    refine ⟨j, (hlive j).mpr hj, ?_⟩
    rw [(hsame j).2.2.1]
    exact heq

theorem Core.setDin (h : Core st w fr lg hand s) {k : Slot}
    (hw : w = some (s.icache k).inum.toNat) (d : Dinode) :
    Core st w fr lg hand (s.setSlot k { s.icache k with din := d }) :=
  { h with cache := h.cache.setDin hw d }

/-- What the inode that is being changed counts as owning may change. -/
theorem Core.relog (h : Core st (some i) fr lg hand s) (d : Dinode)
    (hown : Own (refs (update lg i d) s.view.block s.versions) hand' s.view.used s.sb.Area)
    (htrack : ∀ e ∈ s.refcounts, e.valid = true → e.blockNum.toNat ∈ hand → e.blockNum.toNat ∈ hand')
    (htype : (lg i).type ≠ 0 → d.type ≠ 0) (hhead : d.versionHead = (lg i).versionHead) :
    Core st (some i) fr (update lg i d) hand' s := by
  have hne : ∀ j, some i ≠ some j → update lg i d j = lg j := by
    intro j hj
    exact update_of_ne (fun heq => hj (by rw [heq])) _ _
  refine ⟨h.layout, h.metaUsed, ?_, hown, ?_, h.vers, h.deleted, ?_, ?_⟩
  · refine ⟨h.cache.nonneg, h.cache.dev, h.cache.inum, h.cache.uniq, ?_, ?_, h.cache.window⟩
    · intro k hk hw
      rw [hne _ hw]
      exact h.cache.cached k hk hw
    · intro j hj
      obtain ⟨k, hk, heq⟩ := h.cache.window i rfl
      rw [hne j fun hij => hj k hk (heq.trans (Option.some.inj hij))]
      exact h.cache.uncached j hj
  · intro j hj
    rw [hne j hj]
    exact h.node j hj
  · intro e he hv
    exact (h.tracked e he hv).imp (htrack e he hv) id
  · intro v hv
    refine (h.found v hv).imp ?_ id
    rintro ⟨j, hj, hreach⟩
    refine ⟨j, ?_⟩
    by_cases hji : j = i
    · subst hji
      rw [update_self, hhead]
      exact ⟨htype hj, hreach⟩
    · rw [update_of_ne hji]
      exact ⟨hj, hreach⟩

/-- An inode begins to be changed. -/
theorem Core.openWindow (h : Core st none fr lg hand s) {k : Slot} (hk : (s.icache k).Live) :
    Core st (some (s.icache k).inum.toNat) fr lg hand s := by
  refine { h with
    cache := { h.cache with
      cached := fun j hj _ => h.cache.cached j hj (by nofun)
      window := fun i hi => ⟨k, hk, Option.some.inj hi⟩ }
    node := fun i _ => h.node i (by nofun) }

/-- The change is done: the inode is what it counts as, and well formed. -/
theorem Core.closeWindow (h : Core st (some i) fr lg hand s) {k : Slot} (hk : (s.icache k).Live)
    (hi : (s.icache k).inum.toNat = i) (hlg : lg i = (s.icache k).din)
    (hsync : Sync st (s.view.dinode i) (s.icache k).din) (htype : (s.icache k).din.type ≠ 0)
    (hnode : NodeOk st s.sb.ninodes s.view.block s.versions fr i (lg i)) :
    Core st none fr lg hand s := by
  refine { h with
    cache := { h.cache with
      cached := fun j hj _ => ?_
      window := by nofun }
    node := fun j _ htype' => ?_ }
  · by_cases hij : (s.icache j).inum.toNat = i
    · have hjk : j = k :=
        h.cache.uniq j k hj.1 hk.1 (UInt32.toNat_inj.mp (hij.trans hi.symm))
      subst hjk
      rw [hi]
      exact ⟨hlg, hsync, htype⟩
    · exact h.cache.cached j hj fun heq => hij (Option.some.inj heq).symm
  · by_cases hij : j = i
    · rw [hij]
      exact hnode
    · exact h.node j (fun heq => hij (Option.some.inj heq).symm) htype'

/-- The inode that is being changed is written to disk. -/
theorem Core.wroteDinode (h : Core st (some i) fr lg hand s) (hi : i < s.sb.ninodes) (d : Dinode) :
    Core st (some i) fr lg hand (s.wroteDinode i d) := by
  have hview := view_wroteDinode h.layout hi d
  have hdin : (s.wroteDinode i d).view.dinode = update s.view.dinode i d := by
    rw [hview]
    rfl
  have hblock : (s.wroteDinode i d).view.block = s.view.block := by
    rw [hview]
    rfl
  have hused : (s.wroteDinode i d).view.used = s.view.used := by
    rw [hview]
    rfl
  refine ⟨h.layout, ?_, ?_, ?_, ?_, ?_, h.deleted, ?_, h.found⟩
  · rw [hused]
    exact h.metaUsed
  · rw [hdin]
    refine { h.cache with cached := fun k hk hw => ?_, uncached := fun j hj => ?_ }
    · have hne : (s.icache k).inum.toNat ≠ i := fun heq => hw (by rw [← heq]; rfl)
      change lg _ = _ ∧ Sync st (update s.view.dinode i d (s.icache k).inum.toNat) _ ∧ _
      rw [update_of_ne hne]
      exact h.cache.cached k hk hw
    · obtain ⟨k, hk, heq⟩ := h.cache.window i rfl
      have hne : j ≠ i := fun hji => hj k hk (heq.trans hji.symm)
      rw [update_of_ne hne]
      exact h.cache.uncached j hj
  · rw [hblock, hused]
    exact h.own
  · rw [hblock]
    exact h.node
  · rw [hblock]
    exact h.vers
  · rw [hblock]
    exact h.tracked

/-! ## The inode gains and loses blocks -/

/-- The references of the other owners do not depend on the inode. -/
theorem refs_update_of_ne {o : Owner} (d : Dinode) (ho : o.inode ≠ some i) :
    refs (update lg i d) blk vs o = refs lg blk vs o := by
  cases o with
  | data j bn =>
    have hji : j ≠ i := fun heq => ho (congrArg some heq)
    exact congrArg (Dinode.map blk · bn) (update_of_ne hji d lg)
  | indirect j =>
    have hji : j ≠ i := fun heq => ho (congrArg some heq)
    exact congrArg (fun e : Dinode => e.indirect.toNat) (update_of_ne hji d lg)
  | vnode n => rfl
  | vdata n k => rfl

theorem refs_update_data (d : Dinode) (bn : ℕ) :
    refs (update lg i d) blk vs (.data i bn) = d.map blk bn :=
  congrArg (Dinode.map blk · bn) (update_self i d lg)

theorem refs_update_indirect (d : Dinode) :
    refs (update lg i d) blk vs (.indirect i) = d.indirect.toNat :=
  congrArg (fun e : Dinode => e.indirect.toNat) (update_self i d lg)

/-- The inode with direct block `j` at `addr`. -/
def Dinode.setAddr (d : Dinode) (j : Fin NDIRECT) (addr : UInt32) : Dinode :=
  { d with addrs := update d.addrs j addr }

/-- The inode with its indirect block at `addr`. -/
def Dinode.setIndirect (d : Dinode) (addr : UInt32) : Dinode := { d with indirect := addr }

theorem map_setAddr_self (d : Dinode) (j : Fin NDIRECT) (addr : UInt32) :
    (d.setAddr j addr).map blk j = addr.toNat := by
  rw [map_of_lt _ _ j.isLt]
  exact congrArg UInt32.toNat (update_self ..)

theorem map_setAddr_of_ne (d : Dinode) {j : Fin NDIRECT} (addr : UInt32) (h : bn ≠ j) :
    (d.setAddr j addr).map blk bn = d.map blk bn := by
  by_cases hbn : bn < NDIRECT
  · rw [map_of_lt _ _ hbn, map_of_lt _ _ hbn]
    have hne : (⟨bn, hbn⟩ : Fin NDIRECT) ≠ j := fun heq => h (congrArg Fin.val heq)
    exact congrArg UInt32.toNat (update_of_ne hne ..)
  · rw [map_of_ge _ _ (Nat.not_lt.mp hbn), map_of_ge _ _ (Nat.not_lt.mp hbn)]
    rfl

/-- A new indirect block of zeroes gives the file no further block. -/
theorem map_setIndirect {d : Dinode} {addr : UInt32} (hz : d.indirect = 0)
    (hblk : blk addr.toNat = .zero) (bn : ℕ) : (d.setIndirect addr).map blk bn = d.map blk bn := by
  by_cases hbn : bn < NDIRECT
  · rw [map_of_lt _ _ hbn, map_of_lt _ _ hbn]
    rfl
  · rw [map_of_ge _ _ (Nat.not_lt.mp hbn), map_of_ge _ _ (Nat.not_lt.mp hbn)]
    change (if bn < MAXFILE ∧ _ then ((blk addr.toNat).word _).toNat else 0) = _
    rw [hblk, Block.word_zero, hz]
    simp

/-- Setting a direct address changes what one owner has. -/
theorem refs_setAddr {j : Fin NDIRECT} (addr : UInt32) {o : Owner} (ho : o ≠ .data i j) :
    refs (update lg i ((lg i).setAddr j addr)) blk vs o = refs lg blk vs o := by
  by_cases hoi : o.inode = some i
  · cases o with
    | data j' bn =>
      obtain rfl : j' = i := Option.some.inj hoi
      rw [refs_update_data]
      exact map_setAddr_of_ne _ _ fun heq => ho (by rw [heq])
    | indirect j' =>
      obtain rfl : j' = i := Option.some.inj hoi
      rw [refs_update_indirect]
      rfl
    | vnode n => cases hoi
    | vdata n k => cases hoi
  · exact refs_update_of_ne _ hoi

/-- So does setting the address of the indirect block to a block of zeroes. -/
theorem refs_setIndirect {addr : UInt32} (hz : (lg i).indirect = 0) (hblk : blk addr.toNat = .zero)
    {o : Owner} (ho : o ≠ .indirect i) :
    refs (update lg i ((lg i).setIndirect addr)) blk vs o = refs lg blk vs o := by
  by_cases hoi : o.inode = some i
  · cases o with
    | data j bn =>
      obtain rfl : j = i := Option.some.inj hoi
      rw [refs_update_data]
      exact map_setIndirect hz hblk bn
    | indirect j => exact absurd (by rw [Option.some.inj hoi]) ho
    | vnode n => cases hoi
    | vdata n k => cases hoi
  · exact refs_update_of_ne _ hoi

/-- A block in hand becomes a direct block. -/
theorem Core.attachDirect (h : Core st (some i) fr lg (b :: hand) s) (j : Fin NDIRECT)
    (hb : ∀ e ∈ s.refcounts, e.valid = true → e.blockNum.toNat ≠ b) :
    Core st (some i) fr (update lg i ((lg i).setAddr j (.ofNat b))) hand s := by
  have harea := (h.own.held b List.mem_cons_self).2.1
  refine h.relog _ (h.own.attach (o := .data i j) (fun o ho => refs_setAddr _ ho) ?_) ?_ id rfl
  · rw [refs_update_data, map_setAddr_self, View.toNat_ofNat_area h.layout harea]
  · intro e he hv hmem
    exact (List.mem_cons.mp hmem).resolve_left (hb e he hv)

/-- A block of zeroes in hand becomes the indirect block. -/
theorem Core.attachIndirect (h : Core st (some i) fr lg (b :: hand) s)
    (hz : (lg i).indirect = 0) (hblk : s.view.block b = .zero)
    (hb : ∀ e ∈ s.refcounts, e.valid = true → e.blockNum.toNat ≠ b) :
    Core st (some i) fr (update lg i ((lg i).setIndirect (.ofNat b))) hand s := by
  have harea := (h.own.held b List.mem_cons_self).2.1
  have hb' := View.toNat_ofNat_area h.layout harea
  refine h.relog _ (h.own.attach (o := .indirect i)
    (fun o ho => refs_setIndirect hz (by rw [hb']; exact hblk) ho) ?_) ?_ id rfl
  · rw [refs_update_indirect]
    exact hb'
  · intro e he hv hmem
    exact (List.mem_cons.mp hmem).resolve_left (hb e he hv)

/-- The entry of the indirect block for block `bn` of the file is set. -/
theorem map_setWord (blk : ℕ → Block) {c : ℕ} {x : UInt32} {j : ℕ} (hc : d.indirect.toNat = c) (h0 : d.indirect ≠ 0)
    (hj : j < NINDIRECT) (hblk : blk' c = (blk c).setWord j x) :
    d.map blk' (NDIRECT + j) = x.toNat ∧
      ∀ bn, bn ≠ NDIRECT + j → d.map blk' bn = d.map blk bn := by
  subst hc
  refine ⟨?_, fun bn hbn => ?_⟩
  · rw [map_of_ge _ _ (Nat.le_add_right _ _), if_pos ⟨by simp only [MAXFILE]; omega, h0⟩, hblk,
      Nat.add_sub_cancel_left, Block.word_setWord _ _ hj]
  · by_cases hlt : bn < NDIRECT
    · rw [map_of_lt _ _ hlt, map_of_lt _ _ hlt]
    · rw [map_of_ge _ _ (Nat.not_lt.mp hlt), map_of_ge _ _ (Nat.not_lt.mp hlt), hblk,
        Block.word_setWord_ne _ _ (by omega)]

/-- A block in hand becomes an entry of the indirect block. -/
theorem Core.attachEntry (h : Core st (some i) fr lg (b :: hand) s) {c j : ℕ}
    (hc : (lg i).indirect.toNat = c) (h0 : (lg i).indirect ≠ 0) (hj : j < NINDIRECT)
    (hb : ∀ e ∈ s.refcounts, e.valid = true → e.blockNum.toNat ≠ b) :
    Core st (some i) fr lg hand (s.wrote c ((s.view.block c).setWord j (.ofNat b))) := by
  have hne : refs lg s.view.block s.versions (.indirect i) ≠ 0 := toNat_ne_zero.mpr h0
  have hcarea : s.sb.Area c := hc ▸ h.own.inArea _ hne
  have hbarea := (h.own.held b List.mem_cons_self).2.1
  have hview := view_wrote (v := (s.view.block c).setWord j (.ofNat b)) h.layout hcarea
  -- no other owner has the indirect block
  have hother : ∀ o, refs lg s.view.block s.versions o = c → o = .indirect i := by
    intro o ho
    exact (h.own.inj _ _ hne (hc.trans ho.symm)).symm
  have hblk : ∀ x, x ≠ c → (s.wrote c ((s.view.block c).setWord j (.ofNat b))).view.block x =
      s.view.block x := by
    intro x hx
    rw [hview]
    exact update_of_ne hx _ _
  have hblkc : (s.wrote c ((s.view.block c).setWord j (.ofNat b))).view.block c =
      (s.view.block c).setWord j (.ofNat b) := by
    rw [hview]
    exact update_self _ _ _
  obtain ⟨hmap, hmapne⟩ := map_setWord s.view.block hc h0 hj hblkc
  refine h.change (sameMeta_wrote ..) (by rw [hview]; rfl) (by rw [hview]; exact h.metaUsed) ?_ ?_
    fun e he hv => ?_
  · have hused : (s.wrote c ((s.view.block c).setWord j (.ofNat b))).view.used = s.view.used := by
      rw [hview]
      rfl
    rw [hused]
    refine h.own.attach (o := .data i (NDIRECT + j)) (fun o ho => ?_) ?_
    · by_cases hoi : o.inode = some i
      · cases o with
        | data i' bn =>
          obtain rfl : i' = i := Option.some.inj hoi
          exact hmapne bn fun heq => ho (by rw [heq])
        | indirect i' => rfl
        | vnode n => cases hoi
        | vdata n k => cases hoi
      · cases o with
        | data i' bn =>
          refine map_congr fun hi' => hblk _ fun heq => hoi ?_
          exact congrArg Owner.inode (hother (.indirect i') heq)
        | indirect i' => rfl
        | vnode n => rfl
        | vdata n k => rfl
    · exact hmap.trans (View.toNat_ofNat_area h.layout hbarea)
  · intro o _ ho
    exact hblk _ fun heq => ho i rfl (congrArg Owner.inode (hother o heq))
  · refine (h.tracked e he hv).imp (fun hm => ?_) id
    exact (List.mem_cons.mp hm).resolve_left (hb e he hv)

/-- No block of a file is in the reference-count table. -/
theorem Core.untracked (h : Core st w fr lg hand s) {o : Owner} (ho : o.inode ≠ none)
    (hne : refs lg s.view.block s.versions o ≠ 0) :
    ∀ e ∈ s.refcounts, e.valid = true →
      e.blockNum.toNat ≠ refs lg s.view.block s.versions o := by
  intro e he hv heq
  rcases h.tracked e he hv with hmem | ⟨n, k, hnk, -⟩
  · exact (h.own.held _ hmem).2.2.2 o heq.symm
  · exact ho (h.own.inj _ _ hne (heq.symm.trans hnk.symm) ▸ rfl)

/-- A direct block is taken back. -/
theorem Core.detachDirect (h : Core st (some i) fr lg hand s) {j : Fin NDIRECT}
    (hne : (lg i).addrs j ≠ 0) :
    Core st (some i) fr (update lg i ((lg i).setAddr j 0)) (((lg i).addrs j).toNat :: hand) s := by
  have href : refs lg s.view.block s.versions (.data i j) = ((lg i).addrs j).toNat :=
    map_of_lt _ _ j.isLt
  refine h.relog _ ?_ (fun e _ _ hm => List.mem_cons_of_mem _ hm) id rfl
  rw [← href]
  refine h.own.detach (l := [.data i j]) (List.nodup_singleton _) (fun o ho => ?_)
    (fun o ho => ?_) (fun o ho => ?_)
  · rw [List.mem_singleton.mp ho, href]
    exact toNat_ne_zero.mpr hne
  · rw [List.mem_singleton.mp ho, refs_update_data]
    exact map_setAddr_self ..
  · by_cases hoi : o.inode = some i
    · cases o with
      | data i' bn =>
        obtain rfl : i' = i := Option.some.inj hoi
        rw [refs_update_data]
        exact map_setAddr_of_ne _ _ fun heq => ho (List.mem_singleton.mpr (by rw [heq]))
      | indirect i' =>
        obtain rfl : i' = i := Option.some.inj hoi
        rw [refs_update_indirect]
        rfl
      | vnode n => cases hoi
      | vdata n k => cases hoi
    · exact refs_update_of_ne _ hoi

/-- The owners of an indirect block and of the blocks it lists. -/
def indirectOwners (i : ℕ) (bp : Block) : List Owner :=
  ((List.range NINDIRECT).filter fun j => bp.word j ≠ 0).map (fun j => .data i (NDIRECT + j)) ++
    [.indirect i]

/-- The indirect block is taken back, with the blocks it lists. -/
theorem Core.detachIndirect (h : Core st (some i) fr lg hand s) (h0 : (lg i).indirect ≠ 0) :
    Core st (some i) fr (update lg i ((lg i).setIndirect 0))
      ((indirectOwners i (s.view.block (lg i).indirect.toNat)).map
        (refs lg s.view.block s.versions) ++ hand) s := by
  have hentry : ∀ j < NINDIRECT, refs lg s.view.block s.versions (.data i (NDIRECT + j)) =
      ((s.view.block (lg i).indirect.toNat).word j).toNat := by
    intro j hj
    refine (map_of_ge _ _ (Nat.le_add_right _ _)).trans ?_
    rw [if_pos ⟨by simp only [MAXFILE]; omega, h0⟩, Nat.add_sub_cancel_left]
  have hmem : ∀ o, o ∈ indirectOwners i (s.view.block (lg i).indirect.toNat) ↔
      (∃ j < NINDIRECT, (s.view.block (lg i).indirect.toNat).word j ≠ 0 ∧
        .data i (NDIRECT + j) = o) ∨ o = .indirect i := by
    intro o
    simp only [indirectOwners, List.mem_append, List.mem_map, List.mem_filter, List.mem_range,
      List.mem_singleton, decide_eq_true_eq, and_assoc]
  refine h.relog _ (h.own.detach ?_ ?_ ?_ ?_)
    (fun e _ _ hm => List.mem_append_right _ hm) id rfl
  · refine List.nodup_append.mpr ⟨?_, List.nodup_singleton _, ?_⟩
    · refine ((List.nodup_range).filter _).map_on fun j _ j' _ heq => ?_
      have := (Owner.data.inj heq).2
      omega
    · intro o ho o' ho' heq
      rw [List.mem_singleton.mp ho'] at heq
      obtain ⟨j, -, hj⟩ := List.mem_map.mp ho
      cases hj.trans heq
  · intro o ho
    rcases (hmem o).mp ho with ⟨j, hj, hw, rfl⟩ | rfl
    · rw [hentry j hj]
      exact toNat_ne_zero.mpr hw
    · exact toNat_ne_zero.mpr h0
  · intro o ho
    rcases (hmem o).mp ho with ⟨j, hj, hw, rfl⟩ | rfl
    · rw [refs_update_data, map_of_ge _ _ (Nat.le_add_right _ _)]
      exact if_neg fun hc => hc.2 rfl
    · rw [refs_update_indirect]
      rfl
  · intro o ho
    by_cases hoi : o.inode = some i
    · cases o with
      | data i' bn =>
        obtain rfl : i' = i := Option.some.inj hoi
        rw [refs_update_data]
        change _ = (lg i').map s.view.block bn
        by_cases hbn : bn < NDIRECT
        · rw [map_of_lt _ _ hbn, map_of_lt _ _ hbn]
          rfl
        · rw [map_of_ge _ _ (Nat.not_lt.mp hbn), map_of_ge _ _ (Nat.not_lt.mp hbn),
            if_neg fun hc => hc.2 rfl]
          -- the entry is not among the owners, so that it was zero already
          symm
          by_cases hmax : bn < MAXFILE
          · rw [if_pos ⟨hmax, h0⟩]
            by_contra hw
            refine ho ((hmem _).mpr (.inl ⟨bn - NDIRECT, ?_, toNat_ne_zero.mp hw, ?_⟩))
            · simp only [MAXFILE] at hmax
              omega
            · congr 1
              omega
          · rw [if_neg fun hc => hmax hc.1]
      | indirect i' => exact absurd ((hmem _).mpr (.inr (congrArg _ (Option.some.inj hoi)))) ho
      | vnode n => cases hoi
      | vdata n k => cases hoi
    · exact refs_update_of_ne _ hoi

end ChronoFS
