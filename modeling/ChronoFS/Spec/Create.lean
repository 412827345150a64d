import ChronoFS.Spec.Call

/-!
# Making inodes

`ialloc` takes an inode that is free on disk. No slot holds it, since a loaded inode is in use on
disk as well, and nobody owns a block through it. Until it is loaded and, if it is a directory, has
its first entry, it is the inode `fr` of the invariant: it has no links on disk, and it has no `.`.
`Core.settle` ends this.
-/

namespace ChronoFS

open Function

variable {st : Bool} {fr : Option ℕ} {lg lg' : ℕ → Dinode} {hand : List ℕ} {s₀ m s s' s'' : Fs}
  {k dp ip : Slot} {refs locks : List Slot} {i : ℕ} {T : ℤ} {E : Halt → Fs → Prop}
  {H H' : Slot → ℤ × ℤ}
  {name : List UInt8} {type major minor : Int16}

/-- The inode that `ialloc` writes. -/
def Dinode.fresh (type : Int16) (createTime : UInt32) : Dinode :=
  { Dinode.zero with type, createTime }

theorem map_fresh (blk : ℕ → Block) (type : Int16) (t : UInt32) (bn : ℕ) :
    (Dinode.fresh type t).map blk bn = 0 := by
  unfold Dinode.map
  split
  · rfl
  · rw [if_neg fun h => h.2 rfl]

theorem NodeOk.fresh (n : ℕ) (blk : ℕ → Block) (vs : List Version) (i : ℕ) (t : UInt32) :
    NodeOk st n blk vs (some i) i (.fresh type t) where
  dir := fun _ bn h => absurd (map_fresh blk type t bn) h
  dot := fun _ h => absurd rfl h
  aligned := fun _ => rfl
  bound := Nat.zero_le _
  holes := fun _ _ h => absurd h (Nat.not_lt_zero _)
  chain := ⟨[], ⟨rfl, List.nil_sublist _⟩, by nofun⟩

/-- Another inode may be being made. -/
theorem NodeOk.other {n : ℕ} {blk : ℕ → Block} {vs : List Version} {j : ℕ} {d : Dinode}
    (h : NodeOk st n blk vs none j d) (fr : Option ℕ) : NodeOk st n blk vs fr j d :=
  { h with dot := fun hd _ => h.dot hd (by nofun) }

/-- An inode that is free on disk is not loaded. -/
theorem Core.not_cached (h : Core st none fr lg hand s) (hfree : (s.view.dinode i).type = 0)
    (k : Slot) (hk : (s.icache k).Live) : (s.icache k).inum.toNat ≠ i := by
  rintro rfl
  obtain ⟨-, hsync, htype⟩ := h.cache.cached k hk (by nofun)
  exact htype (hsync.below.type.trans hfree)

/-- A free inode is made. -/
theorem Core.ialloc (h : Core st none none lg hand s) (hi : i < s.sb.ninodes)
    (hfree : (s.view.dinode i).type = 0) (type : Int16) (t : UInt32) :
    Core st none (some i) (update lg i (.fresh type t)) hand (s.wroteDinode i (.fresh type t)) := by
  have hnot := h.not_cached hfree
  obtain ⟨hlg, -⟩ := h.cache.uncached i hnot
  have hzero : (lg i).type = 0 := by
    rw [hlg]
    exact hfree
  have hne : ∀ j, j ≠ i → update lg i (.fresh type t) j = lg j := fun j hj => update_of_ne hj ..
  have hview := view_wroteDinode h.layout hi (.fresh type t)
  have hdin : ∀ j, j ≠ i → (s.wroteDinode i (.fresh type t)).view.dinode j = s.view.dinode j := by
    intro j hj
    rw [hview]
    exact update_of_ne hj ..
  have hself : (s.wroteDinode i (.fresh type t)).view.dinode i = .fresh type t := by
    rw [hview]
    exact update_self ..
  have hblock : (s.wroteDinode i (.fresh type t)).view.block = s.view.block := by rw [hview]; rfl
  have hused : (s.wroteDinode i (.fresh type t)).view.used = s.view.used := by rw [hview]; rfl
  refine ⟨h.layout, ?_, ?_, ?_, ?_, ?_, h.deleted, ?_, ?_⟩
  · rw [hused]
    exact h.metaUsed
  · refine ⟨h.cache.nonneg, h.cache.dev, h.cache.inum, h.cache.uniq, ?_, ?_, by nofun⟩
    · intro k hk hw
      show update lg i _ (s.icache k).inum.toNat = (s.icache k).din ∧
        Sync st ((s.wroteDinode i _).view.dinode (s.icache k).inum.toNat) (s.icache k).din ∧ _
      rw [hne _ (hnot k hk), hdin _ (hnot k hk)]
      exact h.cache.cached k hk hw
    · intro j hj
      by_cases hji : j = i
      · rw [hji, update_self, hself]
        exact ⟨rfl, fun _ hfr => absurd rfl hfr⟩
      · rw [hne j hji, hdin j hji]
        obtain ⟨hl, hn⟩ := h.cache.uncached j hj
        exact ⟨hl, fun ht _ => hn ht (by nofun)⟩
  · -- a new inode owns nothing
    rw [hblock, hused]
    refine h.own.shrink fun o => ?_
    by_cases ho : o.inode = some i
    · cases o with
      | data j bn =>
        obtain rfl : j = i := Option.some.inj ho
        exact .inl ((refs_update_data ..).trans (map_fresh ..))
      | indirect j =>
        obtain rfl : j = i := Option.some.inj ho
        exact .inl (refs_update_indirect ..)
      | vnode n => cases ho
      | vdata n j => cases ho
    · exact .inr (refs_update_of_ne _ ho)
  · intro j _ hj
    rw [hblock]
    by_cases hji : j = i
    · rw [hji, update_self]
      exact NodeOk.fresh ..
    · rw [hne j hji] at hj ⊢
      exact (h.node j (by nofun) hj).other _
  · rw [hblock]
    exact h.vers
  · rw [hblock]
    exact h.tracked
  · intro v hv
    refine (h.found v hv).imp ?_ id
    rintro ⟨j, hj, hreach⟩
    have hji : j ≠ i := by
      rintro rfl
      exact hj hzero
    refine ⟨j, ?_⟩
    rw [hne j hji]
    exact ⟨hj, hreach⟩

/-- The new inode is like any other once it is loaded and, if it is a directory, has its `.`. -/
theorem Core.settle (h : Core st none (some i) lg hand s) (hk : (s.icache k).Live)
    (hi : (s.icache k).inum.toNat = i)
    (hdot : (s.icache k).din.type = T_DIR → DIRENT_SIZE ≤ (s.icache k).din.size.toNat ∧
      s.map k 0 ≠ 0 ∧ HasDot i (s.content k 0)) :
    Core st none none lg hand s := by
  obtain ⟨hlg, -⟩ := h.cache.cached k hk (by nofun)
  refine { h with
    cache := { h.cache with uncached := fun j hj => ?_ }
    node := fun j hw hj => ?_ }
  · obtain ⟨hl, hn⟩ := h.cache.uncached j hj
    exact ⟨hl, fun ht _ => hn ht fun heq => hj k hk (hi.trans (Option.some.inj heq))⟩
  · have hnode := h.node j hw hj
    refine { hnode with dot := fun hd _ => ?_ }
    by_cases hji : j = i
    · subst hji
      rw [← hi, hlg] at hd ⊢
      obtain ⟨hsize, hmap, hhas⟩ := hdot hd
      rw [content_of_map hmap, ← hi] at hhas
      exact ⟨hsize, hmap, hhas⟩
    · exact hnode.dot hd fun heq => hji (Option.some.inj heq).symm

/-- What `ialloc` did: the free inode `i` is made, and the slot refers to it. -/
structure Made (st : Bool) (hand : List ℕ) (type : Int16) (k : Slot) (i : ℕ) (lg : ℕ → Dinode)
    (s s' : Fs) : Prop where
  /-- The inode was free. -/
  free : (s.view.dinode i).type = 0
  /-- It is not inode `0`. -/
  ne : i ≠ 0
  /-- It is an inode of the disk. -/
  lt : i < s.sb.ninodes
  /-- Apart from the cache, the state is the one in which it is written. -/
  looked : Looked st (some i) (update lg i (.fresh type s.ticks)) hand s.hold
    (s.wroteDinode i (.fresh type s.ticks)) s'
  /-- There is one reference more. -/
  hold : s'.hold = s.hold + aRef k
  /-- It is to the new inode. -/
  inum : (s'.icache k).inum.toNat = i
  /-- Loaded slots are for other inodes. -/
  other : ∀ j, (s.icache j).Live → (s.icache j).inum.toNat ≠ i

theorem ialloc_spec (h : Core st none none lg hand s) (hT : total s.hold ≤ T) (type : Int16) :
    wp (ialloc ROOTDEV type) (fun k s' => ∃ i, Made st hand type k i lg s s') (Halts T) s := by
  unfold ialloc
  rw [wp_bind, wp_get]
  cases hfind : s.freeInode with
  | none => exact Halt.Benign.halts ⟨by decide, by decide⟩
  | some i =>
    have hmem := List.mem_of_find?_eq_some hfind
    rw [List.mem_range'_1] at hmem
    have hi : i < s.sb.ninodes := by omega
    have hfree : (s.view.dinode i).type = 0 := by
      rw [← dinode_eq_view hi]
      have := List.find?_some hfind
      exact of_decide_eq_true this
    have hcore := h.ialloc hi hfree type s.ticks
    have htoNat : (UInt32.ofNat i).toNat = i := by
      refine UInt32.toNat_ofNat_of_lt (lt_trans (lt_of_lt_of_le hi h.layout.ninodes) ?_)
      norm_num
    dsimp only
    rw [wp_bind]
    refine wp_logWrite ?_ fun e s' he _ => he.benign.halts
    refine wp_mono (iget_spec hcore (by rw [htoNat]; exact hi) hT) ?_ fun _ _ => id
    rintro k s' ⟨hlook, hhold, hinum, -, -, -⟩
    exact ⟨i, hfree, by omega, hi, hlook, hhold, by rw [hinum, htoNat], h.not_cached hfree⟩

theorem Made.calm (h : Made st hand type k i lg s s') : Calm s.hold s s' := by
  have hwrote : Steady s.hold s (s.wroteDinode i (.fresh type s.ticks)) :=
    ⟨rfl, fun _ _ => .refl _⟩
  exact hwrote.calm.trans h.looked.steady.calm

/-- The inode `i`, which was free, is made. It has no versions. -/
structure Making (H : Slot → ℤ × ℤ) (i : ℕ) (s s' : Fs) : Prop where
  /-- It was free. -/
  free : (s.inodes i).type = 0
  /-- It has no versions. -/
  head : (s'.inodes i).versionHead = 0
  /-- The other inodes are the same. -/
  node : ∀ j, j ≠ i → s'.inodes j = s.inodes j
  /-- So are the sizes of files in use. -/
  size : ∀ k, 0 < (H k).1 → (s.icache k).valid = true → (s'.icache k).valid = true ∧
    (s.icache k).din.size ≤ (s'.icache k).din.size
  /-- So is the table of deleted files. -/
  deleted : s'.deleted = s.deleted

theorem Making.anti (h : Making H i s s') (hle : ∀ k, (H' k).1 ≤ (H k).1) : Making H' i s s' :=
  ⟨h.free, h.head, h.node, fun k hk => h.size k (lt_of_lt_of_le hk (hle k)), h.deleted⟩

theorem Peeked.making (hp : Peeked H s s') (h : Making H i s' s'') : Making H i s s'' := by
  refine ⟨hp.inodes ▸ h.free, h.head, fun j hj => (h.node j hj).trans (congrFun hp.inodes j),
    fun k hk hv => ?_, h.deleted.trans hp.ordinary.deleted⟩
  obtain ⟨hv', hle⟩ := hp.ordinary.size k hk hv
  obtain ⟨hv'', hle'⟩ := h.size k hk hv'
  exact ⟨hv'', UInt32.le_trans hle hle'⟩

theorem Made.making (h : Made st hand type k i lg s s') (hcore : Core st none none lg hand s) :
    Making s.hold i s s' := by
  have hnot : ∀ j, (s.icache j).Live → (s.icache j).inum.toNat ≠ i := h.other
  refine ⟨?_, ?_, fun j hj => ?_, fun j hj hv => ?_, ?_⟩
  · rw [hcore.inodes, (hcore.cache.uncached i hnot).1]
    exact h.free
  · rw [h.looked.core.inodes, update_self]
    rfl
  · rw [h.looked.core.inodes, hcore.inodes, update_of_ne hj]
  · obtain ⟨-, -, hslot⟩ := h.looked.slot j hj
    obtain ⟨hv', hdin⟩ := hslot hv
    exact ⟨hv', hdin ▸ UInt32.le_refl _⟩
  · exact h.looked.steady.deleted

/-- The slot of the new inode, once it is locked. -/
theorem Made.din (h : Made st hand type k i lg s s') {s'' : Fs}
    (hcore : Core st none (some i) (update lg i (.fresh type s.ticks)) hand s'')
    (hk : (s''.icache k).Live) (hinum : (s''.icache k).inum = (s'.icache k).inum) :
    (s''.icache k).din = .fresh type s.ticks := by
  obtain ⟨hlg, -⟩ := hcore.cache.cached k hk (by nofun)
  rw [hinum, h.inum, update_self] at hlg
  exact hlg.symm

/-- `dirlink` gives the new directory its `.`. -/
theorem Core.firstEntry (h : Core st none (some i) lg [] s) (hk : (s.icache k).Live)
    (ha : s.Audited k) (hi : (s.icache k).inum.toNat = i) (h0 : i ≠ 0) (hsize : (s.icache k).din.size = 0)
    (hT : total s.hold ≤ T) :
    wp (dirlink k DOT (s.icache k).inum) (fun ok s' => ok = true →
      Kept st none [] s s') (Halts T) s := by
  have hlt := h.cache.inum k hk.1
  refine wp_mono (dirlink_spec h hk ha hT hlt DOT) (fun ok s' hent hok => ?_) fun _ _ => id
  obtain ⟨-, lg', hw⟩ := hent.added hok
  -- the directory is empty, so that the entry is its first
  have hoff : s.linkOffset k = 0 := by
    unfold Fs.linkOffset
    rw [hsize]
    rfl
  rw [hoff] at hw
  have hkept := hw.kept h hk
  have hlive := hkept.live hk
  have hsame := hkept.steady.slot k hk.1
  have hlen := Dirent.length_bytes ⟨(s.icache k).inum.toUInt16, DOT⟩
  refine ⟨⟨lg', hw.core.settle hlive (by rw [hsame.inum, hi]) fun _ => ⟨?_, ?_, ?_⟩⟩, hkept.hold,
    hkept.steady, hkept.ordinary⟩
  · have := hw.size
    rw [hlen] at this
    omega
  · refine hw.mapped 0 ?_
    rw [hlen]
    exact ⟨by decide, by decide, by decide⟩
  · have hread : Dirent.read (s'.content k 0).get 0 =
        Dirent.read (fun j => (Dirent.bytes ⟨(s.icache k).inum.toUInt16, DOT⟩).getD j 0) 0 := by
      refine Dirent.read_congr fun j hj => ?_
      rw [Nat.zero_add, content_get s' k 0 (lt_trans hj (by decide)), Nat.zero_mul, Nat.zero_add,
        hw.byteAt j, if_pos ⟨Nat.zero_le _, by rw [hlen]; omega⟩]
      rfl
    have hmod : (s.icache k).inum.toNat % 2 ^ 16 = i := by
      rw [hi]
      exact Nat.mod_eq_of_lt (lt_of_lt_of_le (hi ▸ hlt) h.layout.ninodes)
    unfold HasDot
    rw [hread, (Dirent.read_bytes _).1, UInt32.toNat_toUInt16]
    refine ⟨hmod, h0, ?_⟩
    unfold namecmp
    rw [(Dirent.read_bytes _).2]
    exact beq_self_eq_true _

/-! ## `create` -/

/-- The end of `createDots`: the two entries. -/
theorem createDots_spec (h : At st (some i) s₀ m refs locks s) (hip : ip ∈ locks) (hdp : dp ∈ locks)
    (hne : ip ≠ dp) (hi : (s.icache ip).inum.toNat = i) (h0 : i ≠ 0)
    (hsize : (s.icache ip).din.size = 0) (htype : (s.icache ip).din.type = type)
    (hT : total s₀.hold + refs.length ≤ T) :
    wp (createDots dp ip type) (fun _ s' => At st none s₀ m refs locks s' ∧ Calm s.hold s s')
      (Halts T) s := by
  unfold createDots
  rw [wp_ite]
  refine ⟨fun _ => ?_, fun hdir => ?_⟩
  · refine wp_of_spec (h.addLinks hdp 1) (fun _ _ => id) ?_
    rintro _ s1 ⟨h1, hcalm1, hwithin⟩
    have hslot : s1.icache ip = s.icache ip := hwithin.other ip hne
    have hhold1 : s1.hold = s.hold := hwithin.hold
    obtain ⟨lg1, hcore1⟩ := h1.core
    rw [wp_bind, wp_inode]
    refine wp_of_spec (hcore1.firstEntry (h1.live ip hip) (h1.audited hip) (by rw [hslot, hi]) h0
      (by rw [hslot]; exact hsize) (by rw [h1.total]; exact hT)) (fun _ _ => id) ?_
    rintro ok s2 hok
    rw [wp_ite]
    refine ⟨fun htrue => ?_, fun _ => Halt.Benign.halts ⟨by decide, by decide⟩⟩
    have hkept := hok htrue
    have h2 : At st none s₀ m refs locks s2 := h1.next hkept.core hkept.hold hkept.steady.calm
      hkept.ordinary
    obtain ⟨lg2, hcore2⟩ := h2.core
    rw [wp_bind, wp_inode]
    refine wp_of_spec (h2.dirlink hip hT (hcore2.cache.inum dp (h2.live dp hdp).1) DOTDOT)
      (fun _ _ => id) ?_
    rintro ok3 s3 ⟨h3, hcalm3⟩
    rw [wp_ite]
    refine ⟨fun _ => ?_, fun _ => Halt.Benign.halts ⟨by decide, by decide⟩⟩
    rw [wp_pure]
    have hhold2 : s2.hold = s.hold := hkept.hold.trans hhold1
    refine ⟨h3, hcalm1.trans ?_⟩
    rw [← hhold1]
    refine hkept.steady.calm.trans ?_
    rw [hhold1, ← hhold2]
    exact hcalm3
  · -- a file or a device needs no entries
    obtain ⟨lg, hcore⟩ := h.core
    have hcore' := hcore.settle (h.live ip hip) hi fun hd => absurd (htype.symm.trans hd) hdir
    rw [wp_pure]
    have hcalm : Calm s.hold s s := (Steady.refl _ _).calm
    exact ⟨h.next ⟨lg, hcore'⟩ rfl hcalm (.refl _ _), hcalm⟩

/-- What `create` returns: an inode that the call refers to and has locked. It was there, or it was
made. -/
structure Created (st : Bool) (s₀ m : Fs) (refs locks : List Slot) (type : Int16) (r : Option Slot)
    (s s' : Fs) : Prop where
  /-- It is held. -/
  held : ∃ m', (m' = m ∨ ∃ i, Making s₀.hold i s m') ∧
    At st none s₀ m' (r.toList ++ refs) (r.toList ++ locks) s'
  /-- It is of the type that was asked for. -/
  type : ∀ ip, r = some ip → (s'.icache ip).din.type = type

theorem createNew_spec (h : At st none s₀ m (dp :: refs) (dp :: locks) s)
    (hT : total s₀.hold + refs.length + 2 ≤ T) (name : List UInt8) (type major minor : Int16) :
    wp (createNew dp name type major minor)
      (fun r s' => Created st s₀ m refs locks type r s s') (Halts T) s := by
  obtain ⟨lg, hcore⟩ := h.core
  have hdp := h.live dp List.mem_cons_self
  unfold createNew
  rw [wp_bind, wp_inode, hcore.cache.dev dp hdp.1]
  refine wp_of_spec (ialloc_spec hcore (by rw [h.total, List.length_cons]; omega) type)
    (fun _ _ => id) ?_
  rintro ip s1 ⟨i, hmade⟩
  have hmaking := (hmade.making hcore).anti h.le
  have h1 : At st (some i) s₀ s1 (ip :: dp :: refs) (dp :: locks) s1 :=
    h.stepRef hmade.looked.core hmade.hold hmade.calm
  -- the directory is loaded, the new inode is not
  have hne : ip ≠ dp := by
    rintro rfl
    refine hmade.other ip hdp ?_
    rw [← hmade.inum, (hmade.calm.slot ip hdp.1).inum]
  rw [wp_bind]
  refine wp_ilock hmade.looked.core h1.pos (fun _ => Halt.Benign.halts ⟨by decide, by decide⟩)
    (fun _ _ _ => Halt.Benign.halts ⟨by decide, by decide⟩) ?_
  intro s2 hlook2 hhold2 _ hlive2 hother2 _
  have h2 := h1.lock hmade.looked.core hlook2 hhold2 hlive2 hother2
  have hinum2 := (hlook2.slot ip h1.pos).2.1
  have hdin2 := hmade.din hlook2.core hlive2 hinum2
  refine wp_commit_bind (h2.audited List.mem_cons_self) ?_ fun e s' he _ => he.benign.halts
  have hkept3 := hlook2.core.commit_kept hlive2
    { (s2.icache ip).din with major, minor, nlink := 1 } rfl rfl rfl rfl rfl
  have hslot3 : (s2.commit ip { (s2.icache ip).din with major, minor, nlink := 1 }).icache ip =
      { s2.icache ip with din := { (s2.icache ip).din with major, minor, nlink := 1 } } := by
    rw [icache_commit, update_self]
  generalize s2.commit ip { (s2.icache ip).din with major, minor, nlink := 1 } = s3 at hkept3 hslot3
  have h3 := h2.kept hkept3
  refine wp_of_spec (createDots_spec (i := i) h3 List.mem_cons_self
    (List.mem_cons_of_mem _ List.mem_cons_self) hne ?_ hmade.ne ?_ ?_ ?_) (fun _ _ => id) ?_
  · rw [hslot3]
    show (s2.icache ip).inum.toNat = i
    rw [hinum2, hmade.inum]
  · rw [hslot3]
    show (s2.icache ip).din.size = 0
    rw [hdin2]
    rfl
  · rw [hslot3]
    show (s2.icache ip).din.type = type
    rw [hdin2]
    rfl
  · simp only [List.length_cons]
    push_cast
    omega
  rintro _ s4 ⟨h4, hcalm4⟩
  obtain ⟨lg4, hcore4⟩ := h4.core
  have hlive4 := h4.live ip List.mem_cons_self
  have htype4 : (s4.icache ip).din.type = type := by
    have hlive3 := h3.live ip List.mem_cons_self
    rw [hcalm4.type hlive3.1 hlive3, hslot3]
    show (s2.icache ip).din.type = type
    rw [hdin2]
    rfl
  rw [wp_bind, wp_inode]
  refine wp_of_spec (h4.dirlink (List.mem_cons_of_mem _ List.mem_cons_self) ?_
    (hcore4.cache.inum ip hlive4.1) name) (fun _ _ => id) ?_
  · simp only [List.length_cons]
    push_cast
    omega
  rintro ok s5 ⟨h5, hcalm5⟩
  rw [wp_ite]
  refine ⟨fun _ => ?_, fun _ => Halt.Benign.halts ⟨by decide, by decide⟩⟩
  have hlive5 := h5.live ip List.mem_cons_self
  have h5' : At st none s₀ s1 (dp :: ip :: refs) (dp :: ip :: locks) s5 :=
    h5.perm (List.Perm.swap ..) (List.Perm.swap ..)
  refine wp_of_spec h5'.iunlockput (fun _ _ => id) ?_
  rintro _ s6 ⟨h6, hcalm6⟩
  rw [wp_pure]
  refine ⟨⟨s1, .inr ⟨i, hmaking⟩, h6⟩, fun ip' heq => ?_⟩
  obtain rfl := Option.some.inj heq
  rw [hcalm6.type (h5'.pos_sub List.mem_cons_self) hlive5, hcalm5.type hlive4.1 hlive4]
  exact htype4

theorem create_spec {cwd : Option Slot} (h : At st none s₀ m refs locks s)
    (hcwd : ∀ k, cwd = some k → 0 < (s₀.icache k).ref)
    (hT : total s₀.hold + refs.length + 2 ≤ T) (path : List UInt8) (type major minor : Int16) :
    wp (create cwd path type major minor)
      (fun r s' => Created st s₀ m refs locks type r s s') (Halts T) s := by
  unfold create nameiparent
  refine wp_of_spec (h.namex hcwd (by omega) path true) (fun _ _ => id) ?_
  rintro r s1 ⟨h1, hpeek1, -, -⟩
  rcases r with _ | ⟨dp, name⟩
  · exact ⟨⟨m, .inl rfl, h1⟩, by nofun⟩
  · have h1' : At st none s₀ m (dp :: refs) locks s1 := h1
    refine wp_of_spec (h1'.ilock h1'.pos) (fun _ _ => id) ?_
    rintro _ s2 ⟨h2, hpeek2, -⟩
    refine wp_of_spec (h2.dirlookup List.mem_cons_self ?_ name) (fun _ _ => id) ?_
    · rw [List.length_cons]
      push_cast
      omega
    rintro found s3 ⟨h3, hpeek3, -, -, -⟩
    rcases found with _ | ⟨ip, off⟩
    · -- so far the call has only looked at inodes
      have hpeek := ((hpeek1.anti h.le).trans (hpeek2.anti h1.le)).trans (hpeek3.anti h2.le)
      refine wp_mono (createNew_spec h3 hT name type major minor) (fun r s' hc => ?_)
        fun _ _ => id
      obtain ⟨m', hm', hat⟩ := hc.held
      refine ⟨⟨m', hm'.imp_right ?_, hat⟩, hc.type⟩
      rintro ⟨i, hmaking⟩
      exact ⟨i, hpeek.making hmaking⟩
    · have h3' : At st none s₀ m (dp :: ip :: refs) (dp :: locks) s3 :=
        h3.perm (List.Perm.swap ..) (List.Perm.refl _)
      refine wp_of_spec h3'.iunlockput (fun _ _ => id) ?_
      rintro _ s4 ⟨h4, -⟩
      refine wp_of_spec (h4.ilock h4.pos) (fun _ _ => id) ?_
      rintro _ s5 ⟨h5, -⟩
      rw [wp_bind, wp_inode, wp_ite]
      refine ⟨fun htype => ?_, fun _ => ?_⟩
      · rw [wp_pure]
        refine ⟨⟨m, .inl rfl, h5⟩, fun ip' heq => ?_⟩
        obtain rfl := Option.some.inj heq
        rw [htype.1, htype.2]
      · refine wp_of_spec h5.iunlockput (fun _ _ => id) ?_
        rintro _ s6 ⟨h6, -⟩
        rw [wp_pure]
        exact ⟨⟨m, .inl rfl, h6⟩, by nofun⟩

end ChronoFS
