import ChronoFS.Spec.Moves

/-!
# The inode cache

What `iget`, `idup`, `ilock`, `iunlock` and a harmless `iput` do. None of them changes the disk or
what the kernel sees of any inode: they move the cache between states that stand for the same
inodes (`Looked`). References and locks are counted together (`Fs.hold`), so that what a function
takes and gives back is an equation between such counts.

A slot that only the caller refers to is `Idle` if dropping it loses nothing: it was never loaded, or
it is a copy of the disk's inode, which has links. Looking up names only ever drops idle slots.
-/

namespace ChronoFS

open Function

variable {st : Bool} {w fr : Option ℕ} {lg lg' : ℕ → Dinode} {hand : List ℕ} {s s' s'' : Fs}
  {k : Slot} {i n : ℕ} {T : ℤ} {E : Halt → Fs → Prop} {H H' : Slot → ℤ × ℤ}

/-! ## References and locks -/

/-- Whether the slot is locked, as a number. -/
def Inode.lockBit (ip : Inode) : ℤ := if ip.locked then 1 else 0

/-- The references to each slot, and its lock. -/
def Fs.hold (s : Fs) : Slot → ℤ × ℤ := fun k => ((s.icache k).ref, (s.icache k).lockBit)

/-- One reference to slot `k`. -/
def aRef (k : Slot) : Slot → ℤ × ℤ := Pi.single k (1, 0)

/-- The lock of slot `k`. -/
def aLock (k : Slot) : Slot → ℤ × ℤ := Pi.single k (0, 1)

/-- The number of references. -/
def total (H : Slot → ℤ × ℤ) : ℤ := ∑ k, (H k).1

theorem total_add (H H' : Slot → ℤ × ℤ) : total (H + H') = total H + total H' :=
  Finset.sum_add_distrib

@[simp]
theorem total_aRef (k : Slot) : total (aRef k) = 1 := by
  unfold total aRef
  rw [Finset.sum_eq_single k]
  · rw [Pi.single_eq_same]
  · intro j _ hj
    rw [Pi.single_eq_of_ne hj]
    rfl
  · intro hk
    exact absurd (Finset.mem_univ k) hk

@[simp]
theorem total_aLock (k : Slot) : total (aLock k) = 0 := by
  refine Finset.sum_eq_zero fun j _ => ?_
  unfold aLock
  by_cases hj : j = k
  · rw [hj, Pi.single_eq_same]
  · rw [Pi.single_eq_of_ne hj]
    rfl

theorem aRef_self (k : Slot) : aRef k k = (1, 0) := Pi.single_eq_same ..

theorem aRef_nonneg (k j : Slot) : 0 ≤ (aRef k j).1 := by
  unfold aRef
  by_cases hj : j = k
  · rw [hj, Pi.single_eq_same]
    exact zero_le_one
  · rw [Pi.single_eq_of_ne hj]
    exact le_rfl

theorem aLock_fst (k j : Slot) : (aLock k j).1 = 0 := by
  unfold aLock
  by_cases hj : j = k
  · rw [hj, Pi.single_eq_same]
  · rw [Pi.single_eq_of_ne hj]
    rfl

theorem sub_aRef (H : Slot → ℤ × ℤ) (k : Slot) : H - aRef k = H + Pi.single k (-1, 0) := by
  rw [sub_eq_add_neg, aRef, ← Pi.single_neg]
  rfl

theorem sub_aLock (H : Slot → ℤ × ℤ) (k : Slot) : H - aLock k = H + Pi.single k (0, -1) := by
  rw [sub_eq_add_neg, aLock, ← Pi.single_neg]
  rfl

/-- Replacing one slot changes the counts of that slot. -/
theorem hold_setSlot (s : Fs) (k : Slot) (ip : Inode) {a b : ℤ} (hr : ip.ref = (s.icache k).ref + a)
    (hl : ip.lockBit = (s.icache k).lockBit + b) :
    (s.setSlot k ip).hold = s.hold + Pi.single k (a, b) := by
  funext j
  unfold Fs.hold
  rw [Pi.add_apply]
  by_cases hj : j = k
  · subst hj
    rw [setSlot_self, Pi.single_eq_same, hr, hl]
    rfl
  · rw [setSlot_of_ne s ip hj, Pi.single_eq_of_ne hj, add_zero]

/-! ## How a call can halt -/

/-- Every slot of the inode cache is in use, for a different inode, with at most `T` references. -/
structure Crowded (T : ℤ) (s : Fs) : Prop where
  /-- Every slot is in use. -/
  inUse : ∀ k, 0 < (s.icache k).ref
  /-- No two are for the same inode. -/
  distinct : ∀ k k', (s.icache k).inum = (s.icache k').inum → k = k'
  /-- There are at most `T` references. -/
  total : total s.hold ≤ T

/-- How a function of the file system halts: never on freeing a free block, and for want of a slot
only if the cache is crowded. -/
structure Halts (T : ℤ) (e : Halt) (s : Fs) : Prop where
  /-- No free block is freed. -/
  free : e ≠ .panic .bfreeFree
  /-- The cache is full only when it is really in use. -/
  crowd : e = .panic .igetNoInodes → Crowded T s

/-- Any other way to halt. -/
def Halt.Benign (e : Halt) : Prop := e ≠ .panic .bfreeFree ∧ e ≠ .panic .igetNoInodes

theorem Halt.Benign.halts {e : Halt} (h : e.Benign) : Halts T e s :=
  ⟨h.1, fun heq => absurd heq h.2⟩

theorem Halt.Log.benign {e : Halt} (h : e.Log) : e.Benign := by
  rcases h with rfl | rfl
  · exact ⟨by decide, by decide⟩
  · exact ⟨by decide, by decide⟩

/-! ## The inodes as the kernel sees them -/

/-- The slot that has the inode `i` loaded, if there is one. -/
def Fs.slotOf (s : Fs) (i : ℕ) : Option Slot :=
  (List.finRange NINODE).find? fun k =>
    0 < (s.icache k).ref ∧ (s.icache k).valid = true ∧ (s.icache k).inum.toNat = i

/-- The inode `i`: the copy in the cache, or else the disk's. -/
def Fs.inodes (s : Fs) (i : ℕ) : Dinode :=
  match s.slotOf i with
  | some k => (s.icache k).din
  | none => s.view.dinode i

/-- The invariant is stated over exactly these inodes. -/
theorem CacheOk.inodes (h : CacheOk st w fr n s.view.dinode s.icache lg)
    (hw : ∀ k, (s.icache k).Live → w = some (s.icache k).inum.toNat →
      lg (s.icache k).inum.toNat = (s.icache k).din) : s.inodes = lg := by
  funext i
  unfold Fs.inodes
  cases hfind : s.slotOf i with
  | none =>
    refine (h.uncached i fun k hk heq => ?_).1.symm
    have hnot := List.find?_eq_none.mp hfind k (List.mem_finRange k)
    exact hnot (decide_eq_true ⟨hk.1, hk.2, heq⟩)
  | some k =>
    unfold Fs.slotOf at hfind
    have hsome := List.find?_some hfind
    obtain ⟨hpos, hvalid, rfl⟩ := of_decide_eq_true hsome
    by_cases hk : w = some (s.icache k).inum.toNat
    · exact (hw k ⟨hpos, hvalid⟩ hk).symm
    · exact (h.cached k ⟨hpos, hvalid⟩ hk).1.symm

theorem Core.inodes (h : Core st none fr lg hand s) : s.inodes = lg := h.cache.inodes (by nofun)

/-! ## What stays the same -/

/-- The slot is for the same inode; if it was loaded, so it is, and the inode has its type. -/
structure SameSlot (ip ip' : Inode) : Prop where
  /-- The device. -/
  dev : ip'.dev = ip.dev
  /-- The inode. -/
  inum : ip'.inum = ip.inum
  /-- The type of a loaded inode. -/
  type : ip.valid = true → ip'.valid = true ∧ ip'.din.type = ip.din.type

/-- The file system without what its functions may change at any time. -/
def Fs.rest (s : Fs) : Fs :=
  { s with
    disk := fun _ => .zero, lh := [], refcounts := [], io := [], lost := []
    icache := fun _ => ⟨0, 0, 0, false, false, .zero⟩ }

/-- From `s` to `s'`, the slots that `H` counts references to keep their inodes, and only the disk,
the log, the cache and the reference-count table change. -/
structure Steady (H : Slot → ℤ × ℤ) (s s' : Fs) : Prop where
  /-- The rest of the file system. -/
  rest : s'.rest = s.rest
  /-- The slots that are in use. -/
  slot : ∀ k, 0 < (H k).1 → SameSlot (s.icache k) (s'.icache k)

theorem SameSlot.refl (ip : Inode) : SameSlot ip ip := ⟨rfl, rfl, fun h => ⟨h, rfl⟩⟩

theorem SameSlot.trans {a b c : Inode} (h : SameSlot a b) (h' : SameSlot b c) : SameSlot a c := by
  refine ⟨h'.dev.trans h.dev, h'.inum.trans h.inum, fun hv => ?_⟩
  obtain ⟨hb, htb⟩ := h.type hv
  obtain ⟨hc, htc⟩ := h'.type hb
  exact ⟨hc, htc.trans htb⟩

theorem Steady.refl (H : Slot → ℤ × ℤ) (s : Fs) : Steady H s s := ⟨rfl, fun _ _ => .refl _⟩

theorem Steady.trans (h : Steady H s s') (h' : Steady H s' s'') : Steady H s s'' :=
  ⟨h'.rest.trans h.rest, fun k hk => (h.slot k hk).trans (h'.slot k hk)⟩

theorem Steady.anti (h : Steady H s s') (hle : ∀ k, (H' k).1 ≤ (H k).1) : Steady H' s s' :=
  ⟨h.rest, fun k hk => h.slot k (lt_of_lt_of_le hk (hle k))⟩

/-- From `s` to `s'`, no inode is made, no version is made or restored, and no file is deleted or
recovered: an inode is freed, or keeps its type and its versions. A file that `H` counts references
to does not shrink. -/
structure Ordinary (H : Slot → ℤ × ℤ) (s s' : Fs) : Prop where
  /-- The inodes. -/
  node : ∀ i, (s'.inodes i).type = 0 ∨ (s'.inodes i).type = (s.inodes i).type ∧
    (s'.inodes i).versionHead = (s.inodes i).versionHead
  /-- The sizes of files in use. -/
  size : ∀ k, 0 < (H k).1 → (s.icache k).valid = true → (s'.icache k).valid = true ∧
    (s.icache k).din.size ≤ (s'.icache k).din.size
  /-- The table of deleted files. -/
  deleted : s'.deleted = s.deleted

namespace Ordinary

theorem refl (H : Slot → ℤ × ℤ) (s : Fs) : Ordinary H s s :=
  ⟨fun _ => .inr ⟨rfl, rfl⟩, fun _ _ hv => ⟨hv, UInt32.le_refl _⟩, rfl⟩

theorem trans (h : Ordinary H s s') (h' : Ordinary H s' s'') : Ordinary H s s'' := by
  refine ⟨fun i => ?_, fun k hk hv => ?_, h'.deleted.trans h.deleted⟩
  · rcases h'.node i with hzero | ⟨htype, hhead⟩
    · exact .inl hzero
    · rw [htype, hhead]
      exact h.node i
  · obtain ⟨hv', hle⟩ := h.size k hk hv
    obtain ⟨hv'', hle'⟩ := h'.size k hk hv'
    exact ⟨hv'', UInt32.le_trans hle hle'⟩

theorem anti (h : Ordinary H s s') (hle : ∀ k, (H' k).1 ≤ (H k).1) : Ordinary H' s s' :=
  ⟨h.node, fun k hk => h.size k (lt_of_lt_of_le hk (hle k)), h.deleted⟩

/-- One inode changes, and keeps its type and its versions unless it is freed. -/
theorem of_one {st' : Bool} {fr' : Option ℕ} {hand' : List ℕ} (h : Core st none fr lg hand s)
    (h' : Core st' none fr' lg' hand' s') (hothers : ∀ j, j ≠ i → lg' j = lg j)
    (hi : (lg' i).type = 0 ∨ (lg' i).type = (lg i).type ∧
      (lg' i).versionHead = (lg i).versionHead)
    (hsize : ∀ k, 0 < (H k).1 → (s.icache k).valid = true → (s'.icache k).valid = true ∧
      (s.icache k).din.size ≤ (s'.icache k).din.size)
    (hdeleted : s'.deleted = s.deleted) : Ordinary H s s' := by
  refine ⟨fun j => ?_, hsize, hdeleted⟩
  rw [h.inodes, h'.inodes]
  by_cases hj : j = i
  · rw [hj]
    exact hi
  · rw [hothers j hj]
    exact .inr ⟨rfl, rfl⟩

end Ordinary

namespace Steady

variable (h : Steady H s s')
include h

theorem sb : s'.sb = s.sb := (congrArg Fs.sb h.rest :)

theorem logSize : s'.logSize = s.logSize := (congrArg Fs.logSize h.rest :)

theorem outstanding : s'.outstanding = s.outstanding := (congrArg Fs.outstanding h.rest :)

theorem ops : s'.ops = s.ops := (congrArg Fs.ops h.rest :)

theorem versions : s'.versions = s.versions := (congrArg Fs.versions h.rest :)

theorem deleted : s'.deleted = s.deleted := (congrArg Fs.deleted h.rest :)

theorem unlocked : s'.unlocked = s.unlocked := (congrArg Fs.unlocked h.rest :)

end Steady

/-! ## Replacing a slot -/

/-- Replacing slot `k` keeps the cache in order if the new slot is in order, and what is seen of the
inodes fits. -/
theorem CacheOk.replace {w' : Option ℕ} {dinode : ℕ → Dinode} {ic : Slot → Inode}
    (h : CacheOk st w fr n dinode ic lg)
    (hw : ∀ j, j ≠ k → (ic j).Live → w' ≠ some (ic j).inum.toNat → w ≠ some (ic j).inum.toNat)
    {ip : Inode} (hnn : 0 ≤ ip.ref)
    (hdev : 0 < ip.ref → ip.dev = ROOTDEV) (hinum : 0 < ip.ref → ip.inum.toNat < n)
    (huniq : 0 < ip.ref → ∀ j, j ≠ k → 0 < (ic j).ref → (ic j).inum ≠ ip.inum)
    (hlg : ∀ j, j ≠ k → (ic j).Live → lg' (ic j).inum.toNat = lg (ic j).inum.toNat)
    (hcached : ip.Live → w' ≠ some ip.inum.toNat →
      lg' ip.inum.toNat = ip.din ∧ Sync st (dinode ip.inum.toNat) ip.din ∧ ip.din.type ≠ 0)
    (huncached : ∀ i, (∀ j, j ≠ k → (ic j).Live → (ic j).inum.toNat ≠ i) →
      (ip.Live → ip.inum.toNat ≠ i) →
      lg' i = dinode i ∧ ((lg' i).type ≠ 0 → fr ≠ some i → (lg' i).nlink ≠ 0))
    (hwindow : ∀ i, w' = some i →
      (∃ j, j ≠ k ∧ (ic j).Live ∧ (ic j).inum.toNat = i) ∨ ip.Live ∧ ip.inum.toNat = i) :
    CacheOk st w' fr n dinode (update ic k ip) lg' := by
  have hself : update ic k ip k = ip := update_self ..
  have hne : ∀ j, j ≠ k → update ic k ip j = ic j := fun j hj => update_of_ne hj ..
  refine ⟨fun j => ?_, fun j => ?_, fun j => ?_, fun j j' => ?_, fun j => ?_, fun i hi => ?_,
    fun i hi => ?_⟩
  · by_cases hj : j = k
    · rw [hj, hself]
      exact hnn
    · rw [hne j hj]
      exact h.nonneg j
  · by_cases hj : j = k
    · rw [hj, hself]
      exact hdev
    · rw [hne j hj]
      exact h.dev j
  · by_cases hj : j = k
    · rw [hj, hself]
      exact hinum
    · rw [hne j hj]
      exact h.inum j
  · intro hr hr' heq
    by_cases hj : j = k
    · by_cases hj' : j' = k
      · rw [hj, hj']
      · rw [hj, hself] at hr heq
        rw [hne j' hj'] at hr' heq
        exact absurd heq.symm (huniq hr j' hj' hr')
    · by_cases hj' : j' = k
      · rw [hj', hself] at hr' heq
        rw [hne j hj] at hr heq
        exact absurd heq (huniq hr' j hj hr)
      · rw [hne j hj] at hr heq
        rw [hne j' hj'] at hr' heq
        exact h.uniq j j' hr hr' heq
  · by_cases hj : j = k
    · rw [hj, hself]
      exact hcached
    · rw [hne j hj]
      intro hl hwj
      rw [hlg j hj hl]
      exact h.cached j hl (hw j hj hl hwj)
  · refine huncached i (fun j hj hl => ?_) fun hl => ?_
    · have := hi j
      rw [hne j hj] at this
      exact this hl
    · have := hi k
      rw [hself] at this
      exact this hl
  · rcases hwindow i hi with ⟨j, hj, hl⟩ | hl
    · refine ⟨j, ?_⟩
      rw [hne j hj]
      exact hl
    · refine ⟨k, ?_⟩
      rw [hself]
      exact hl

/-- Replacing slot `k` keeps the cache in order, while the same inode is being changed. -/
theorem CacheOk.setSlot {dinode : ℕ → Dinode} {ic : Slot → Inode}
    (h : CacheOk st w fr n dinode ic lg) {ip : Inode} (hnn : 0 ≤ ip.ref)
    (hdev : 0 < ip.ref → ip.dev = ROOTDEV) (hinum : 0 < ip.ref → ip.inum.toNat < n)
    (huniq : 0 < ip.ref → ∀ j, j ≠ k → 0 < (ic j).ref → (ic j).inum ≠ ip.inum)
    (hlg : ∀ j, j ≠ k → (ic j).Live → lg' (ic j).inum.toNat = lg (ic j).inum.toNat)
    (hcached : ip.Live → w ≠ some ip.inum.toNat →
      lg' ip.inum.toNat = ip.din ∧ Sync st (dinode ip.inum.toNat) ip.din ∧ ip.din.type ≠ 0)
    (huncached : ∀ i, (∀ j, j ≠ k → (ic j).Live → (ic j).inum.toNat ≠ i) →
      (ip.Live → ip.inum.toNat ≠ i) →
      lg' i = dinode i ∧ ((lg' i).type ≠ 0 → fr ≠ some i → (lg' i).nlink ≠ 0))
    (hwindow : ∀ i, w = some i →
      (∃ j, j ≠ k ∧ (ic j).Live ∧ (ic j).inum.toNat = i) ∨ ip.Live ∧ ip.inum.toNat = i) :
    CacheOk st w fr n dinode (update ic k ip) lg' :=
  h.replace (fun _ _ _ hw => hw) hnn hdev hinum huniq hlg hcached huncached hwindow

/-- The reference count of a slot in use and its lock may change. -/
theorem CacheOk.retag {dinode : ℕ → Dinode} {ic : Slot → Inode}
    (h : CacheOk st w fr n dinode ic lg) {ip : Inode} (hk : 0 < (ic k).ref) (hr : 0 < ip.ref)
    (hdev : ip.dev = (ic k).dev) (hinum : ip.inum = (ic k).inum) (hvalid : ip.valid = (ic k).valid)
    (hdin : ip.din = (ic k).din) : CacheOk st w fr n dinode (update ic k ip) lg := by
  have hlive : ip.Live ↔ (ic k).Live := by
    unfold Inode.Live
    rw [hvalid]
    exact ⟨fun hl => ⟨hk, hl.2⟩, fun hl => ⟨hr, hl.2⟩⟩
  refine h.setSlot hr.le ?_ ?_ ?_ (fun _ _ _ => rfl) ?_ ?_ ?_
  · intro _
    rw [hdev]
    exact h.dev k hk
  · intro _
    rw [hinum]
    exact h.inum k hk
  · intro _ j hj hjr heq
    exact hj (h.uniq j k hjr hk (heq.trans hinum))
  · rw [hlive, hinum, hdin]
    exact h.cached k
  · intro i hi hk'
    refine h.uncached i fun j hl => ?_
    by_cases hj : j = k
    · rw [hj] at hl ⊢
      rw [← hinum]
      exact hk' (hlive.mpr hl)
    · exact hi j hj hl
  · intro i hi
    obtain ⟨j, hl, heq⟩ := h.window i hi
    by_cases hj : j = k
    · rw [hj] at hl heq
      rw [hinum]
      exact .inr ⟨hlive.mpr hl, heq⟩
    · exact .inl ⟨j, hj, hl, heq⟩

/-! ## Looking at inodes -/

/-- From `s` to `s'`, only the cache changed, and it stands for the same inodes; the slots that `H`
counts references to keep theirs. -/
structure Looked (st : Bool) (fr : Option ℕ) (lg : ℕ → Dinode) (hand : List ℕ)
    (H : Slot → ℤ × ℤ) (s s' : Fs) : Prop where
  /-- The invariant holds, of the same inodes. -/
  core : Core st none fr lg hand s'
  /-- Only the cache changed. -/
  only : s' = { s with icache := s'.icache }
  /-- The slots in use. -/
  slot : ∀ k, 0 < (H k).1 → (s'.icache k).dev = (s.icache k).dev ∧
    (s'.icache k).inum = (s.icache k).inum ∧
    ((s.icache k).valid = true → (s'.icache k).valid = true ∧ (s'.icache k).din = (s.icache k).din)

namespace Looked

theorem refl (h : Core st none fr lg hand s) : Looked st fr lg hand H s s :=
  ⟨h, rfl, fun _ _ => ⟨rfl, rfl, fun hv => ⟨hv, rfl⟩⟩⟩

theorem trans (h : Looked st fr lg hand H s s') (h' : Looked st fr lg hand H s' s'') :
    Looked st fr lg hand H s s'' := by
  refine ⟨h'.core, ?_, fun k hk => ?_⟩
  · rw [h'.only, h.only]
  · obtain ⟨hd, hi, hv⟩ := h.slot k hk
    obtain ⟨hd', hi', hv'⟩ := h'.slot k hk
    refine ⟨hd'.trans hd, hi'.trans hi, fun hval => ?_⟩
    obtain ⟨hval', hdin⟩ := hv hval
    obtain ⟨hval'', hdin'⟩ := hv' hval'
    exact ⟨hval'', hdin'.trans hdin⟩

theorem anti (h : Looked st fr lg hand H s s') (hle : ∀ k, (H' k).1 ≤ (H k).1) :
    Looked st fr lg hand H' s s' :=
  ⟨h.core, h.only, fun k hk => h.slot k (lt_of_lt_of_le hk (hle k))⟩

theorem steady (h : Looked st fr lg hand H s s') : Steady H s s' := by
  refine ⟨?_, fun k hk => ?_⟩
  · rw [h.only]
    rfl
  · obtain ⟨hd, hi, hv⟩ := h.slot k hk
    refine ⟨hd, hi, fun hval => ?_⟩
    obtain ⟨hval', hdin⟩ := hv hval
    exact ⟨hval', by rw [hdin]⟩

theorem ordinary (hl : Looked st fr lg hand H s s') (h : Core st none fr lg hand s) :
    Ordinary H s s' := by
  refine .of_one (i := 0) h hl.core (fun _ _ => rfl) (.inr ⟨rfl, rfl⟩) (fun k hk hv => ?_)
    hl.steady.deleted
  obtain ⟨-, -, hslot⟩ := hl.slot k hk
  obtain ⟨hv', hdin⟩ := hslot hv
  exact ⟨hv', hdin ▸ UInt32.le_refl _⟩

theorem view (h : Looked st fr lg hand H s s') : s'.view = s.view := by
  rw [h.only]
  rfl

theorem lh (h : Looked st fr lg hand H s s') : s'.lh = s.lh := by
  rw [h.only]

theorem sb (h : Looked st fr lg hand H s s') : s'.sb = s.sb := h.steady.sb

end Looked

/-- Replacing a slot, as a look at an inode. -/
theorem Core.looked (h : Core st none fr lg hand s) {ip : Inode}
    (hc : CacheOk st none fr s.sb.ninodes s.view.dinode (update s.icache k ip) lg)
    (hk : 0 < (H k).1 → ip.dev = (s.icache k).dev ∧ ip.inum = (s.icache k).inum ∧
      ((s.icache k).valid = true → ip.valid = true ∧ ip.din = (s.icache k).din)) :
    Looked st fr lg hand H s (s.setSlot k ip) := by
  refine ⟨{ h with cache := hc }, rfl, fun j hj => ?_⟩
  by_cases hjk : j = k
  · subst hjk
    rw [setSlot_self]
    exact hk hj
  · rw [setSlot_of_ne s ip hjk]
    exact ⟨rfl, rfl, fun hv => ⟨hv, rfl⟩⟩

/-- A change of the reference count or the lock of a slot in use. -/
theorem Core.retag (h : Core st none fr lg hand s) {ip : Inode} (hk : 0 < (s.icache k).ref)
    (hr : 0 < ip.ref) (hdev : ip.dev = (s.icache k).dev) (hinum : ip.inum = (s.icache k).inum)
    (hvalid : ip.valid = (s.icache k).valid) (hdin : ip.din = (s.icache k).din) :
    Looked st fr lg hand H s (s.setSlot k ip) := by
  refine h.looked (h.cache.retag hk hr hdev hinum hvalid hdin) fun _ => ⟨hdev, hinum, fun hv => ?_⟩
  exact ⟨hvalid.trans hv, hdin⟩

/-- No loaded slot but `k` is for the inode of the slot `k`, which is in use. -/
theorem CacheOk.not_live {dinode : ℕ → Dinode} {ic : Slot → Inode}
    (h : CacheOk st w fr n dinode ic lg) (hk : 0 < (ic k).ref) {j : Slot} (hj : j ≠ k)
    (hl : (ic j).Live) : (ic j).inum.toNat ≠ (ic k).inum.toNat := fun heq =>
  hj (h.uniq j k hl.1 hk (UInt32.toNat_inj.mp heq))

/-- A slot that is in use but not loaded is for an inode that the kernel sees on disk. -/
theorem CacheOk.of_not_valid {dinode : ℕ → Dinode} {ic : Slot → Inode}
    (h : CacheOk st w fr n dinode ic lg) (hk : 0 < (ic k).ref) (hv : (ic k).valid = false) :
    lg (ic k).inum.toNat = dinode (ic k).inum.toNat ∧
      ((lg (ic k).inum.toNat).type ≠ 0 → fr ≠ some (ic k).inum.toNat →
        (lg (ic k).inum.toNat).nlink ≠ 0) := by
  refine h.uncached _ fun j hl => ?_
  by_cases hj : j = k
  · rw [hj] at hl
    rw [hl.2] at hv
    cases hv
  · exact h.not_live hk hj hl

/-! ## `iget` and `idup` -/

theorem wp_setInode {Q : Unit → Fs → Prop} {f : Inode → Inode} :
    wp (setInode k f) Q E s ↔ Q () (s.setSlot k (f (s.icache k))) := Iff.rfl

theorem wp_setDin {Q : Unit → Fs → Prop} {f : Dinode → Dinode} (ha : s.Audited k) :
    wp (setDin k f) Q E s ↔
      Q () (s.setSlot k { s.icache k with din := f (s.icache k).din }) := by
  unfold setDin
  rw [wp_bind, wp_uses ha, wp_setInode]

theorem wp_inode {Q : Inode → Fs → Prop} : wp (inode k) Q E s ↔ Q (s.icache k) s := Iff.rfl

theorem setSlot_setSlot (s : Fs) (k : Slot) (a b : Inode) :
    (s.setSlot k a).setSlot k b = s.setSlot k b := by
  unfold Fs.setSlot
  dsimp only
  rw [Function.update_idem]

/-- A slot that only the caller refers to has not been loaded. -/
def Clean (s : Fs) (k : Slot) : Prop := (s.icache k).ref = 1 → (s.icache k).valid = false

theorem iget_spec (h : Core st none fr lg hand s) {inum : UInt32} (hi : inum.toNat < s.sb.ninodes)
    (hT : total s.hold ≤ T) :
    wp (iget ROOTDEV inum) (fun k s' => Looked st fr lg hand s.hold s s' ∧
      s'.hold = s.hold + aRef k ∧ (s'.icache k).inum = inum ∧ Clean s' k ∧
      (∀ j, j ≠ k → s'.icache j = s.icache j) ∧
      (0 < (s.icache k).ref → s'.icache k = { s.icache k with ref := (s.icache k).ref + 1 }))
      (Halts T) s := by
  unfold iget
  rw [wp_bind, wp_get]
  cases hhit : s.cachedSlot ROOTDEV inum with
  | some k =>
    have hk := List.find?_some hhit
    simp only [decide_eq_true_eq] at hk
    obtain ⟨hpos, -, hinum⟩ := hk
    rw [wp_bind, wp_setInode, wp_pure]
    refine ⟨h.retag hpos ?_ rfl rfl rfl rfl, hold_setSlot _ _ _ rfl (add_zero _).symm, ?_, ?_,
      fun j hj => setSlot_of_ne _ _ hj, fun _ => setSlot_self ..⟩
    · exact Int.add_pos_of_pos_of_nonneg hpos zero_le_one
    · rw [setSlot_self]
      exact hinum
    · intro hone
      rw [setSlot_self] at hone
      dsimp only at hone
      omega
  | none =>
    have hmiss : ∀ j, 0 < (s.icache j).ref → (s.icache j).inum ≠ inum := by
      intro j hj heq
      have := List.find?_eq_none.mp hhit j (List.mem_finRange j)
      simp only [decide_eq_true_eq] at this
      exact this ⟨hj, h.cache.dev j hj, heq⟩
    dsimp only
    cases hempty : s.emptySlot with
    | none =>
      have hfull : ∀ k, 0 < (s.icache k).ref := by
        intro k
        have hne := List.find?_eq_none.mp hempty k (List.mem_finRange k)
        simp only [decide_eq_true_eq] at hne
        have := h.cache.nonneg k
        omega
      rw [wp_throw]
      refine ⟨by decide, fun _ => ⟨hfull, fun k k' => ?_, hT⟩⟩
      exact h.cache.uniq k k' (hfull k) (hfull k')
    | some k =>
      have hzero : (s.icache k).ref = 0 := by
        have := List.find?_some hempty
        simpa only [decide_eq_true_eq] using this
      rw [wp_bind, wp_setInode, wp_pure]
      refine ⟨h.looked (h.cache.setSlot ?_ ?_ ?_ ?_ (fun _ _ _ => rfl) ?_ ?_ ?_) fun hpos => ?_,
        hold_setSlot _ _ _ ?_ (add_zero _).symm, ?_, ?_, fun j hj => setSlot_of_ne _ _ hj,
        fun hpos => absurd hpos (by omega)⟩
      · exact zero_le_one
      · exact fun _ => rfl
      · exact fun _ => hi
      · exact fun _ j _ hj => hmiss j hj
      · exact fun hl => absurd hl.2 Bool.false_ne_true
      · intro i hi' _
        refine h.cache.uncached i fun j hl => hi' j ?_ hl
        rintro rfl
        have := hl.1
        omega
      · nofun
      · change 0 < (s.icache k).ref at hpos
        omega
      · rw [hzero]
        rfl
      · rw [setSlot_self]
      · intro _
        rw [setSlot_self]

theorem idup_spec (h : Core st none fr lg hand s) (hk : 0 < (s.icache k).ref) :
    wp (idup k) (fun k' s' => k' = k ∧ Looked st fr lg hand s.hold s s' ∧
      s'.hold = s.hold + aRef k ∧ Clean s' k) E s := by
  unfold idup
  rw [wp_bind, wp_setInode, wp_pure]
  refine ⟨rfl, h.retag hk ?_ rfl rfl rfl rfl, hold_setSlot _ _ _ rfl (add_zero _).symm, fun hone => ?_⟩
  · exact Int.add_pos_of_pos_of_nonneg hk zero_le_one
  · rw [setSlot_self] at hone
    dsimp only at hone
    omega

/-! ## Locks -/

theorem wp_acquiresleep {Q : Unit → Fs → Prop} (hsleep : (s.icache k).locked = true → E .sleep s)
    (hok : (s.icache k).locked = false →
      Q () (s.setSlot k { s.icache k with locked := true })) : wp (acquiresleep k) Q E s := by
  unfold acquiresleep
  rw [wp_bind, wp_inode, wp_ite]
  refine ⟨hsleep, fun hfree => ?_⟩
  exact hok (Bool.not_eq_true _ ▸ hfree)

/-- A slot that only the caller refers to and that is loaded is a copy of the disk's inode, which
has links. -/
def Idle (s : Fs) (k : Slot) : Prop :=
  (s.icache k).ref = 1 → (s.icache k).valid = true →
    (s.icache k).din = s.view.dinode (s.icache k).inum.toNat ∧ (s.icache k).din.nlink ≠ 0

theorem Clean.idle (h : Clean s k) : Idle s k := by
  intro hone hv
  rw [h hone] at hv
  cases hv

/-- `ilock` loads the inode if that has not been done. -/
theorem wp_ilock {Q : Unit → Fs → Prop} (h : Core st none fr lg hand s)
    (hk : 0 < (s.icache k).ref) (hsleep : (s.icache k).locked = true → E .sleep s)
    (htype : ∀ s', (s.icache k).valid = false → (lg (s.icache k).inum.toNat).type = 0 →
      E (.panic .ilockNoType) s')
    (hok : ∀ s', Looked st fr lg hand s.hold s s' → s'.hold = s.hold + aLock k →
      (s.icache k).locked = false → (s'.icache k).Live →
      (∀ j, j ≠ k → s'.icache j = s.icache j) →
      (Idle s k → fr ≠ some (s.icache k).inum.toNat → Idle s' k) → Q () s') :
    wp (ilock k) Q E s := by
  unfold ilock
  rw [wp_bind, wp_inode, if_neg (by omega), wp_bind]
  refine wp_acquiresleep hsleep fun hfree => ?_
  rw [wp_bind, wp_get, wp_bind, wp_inode, setSlot_self]
  have hbit : (s.icache k).lockBit = 0 := by
    unfold Inode.lockBit
    rw [hfree]
    rfl
  by_cases hv : (s.icache k).valid = true
  · rw [if_pos hv, wp_pure]
    refine hok _ (h.retag hk hk rfl rfl rfl rfl) (hold_setSlot _ _ _ (add_zero _).symm ?_) hfree ?_
      (fun j hj => setSlot_of_ne _ _ hj) fun hidle _ => ?_
    · rw [hbit]
      rfl
    · rw [setSlot_self]
      exact ⟨hk, hv⟩
    · unfold Idle
      rw [setSlot_self]
      exact hidle
  · -- the inode is read from disk
    have hv' : (s.icache k).valid = false := by
      rw [Bool.not_eq_true] at hv
      exact hv
    have hlt := h.cache.inum k hk
    obtain ⟨hlg, hlinks⟩ := h.cache.of_not_valid hk hv'
    have hread : (s.setSlot k { s.icache k with locked := true }).dinode (s.icache k).inum.toNat =
        s.view.dinode (s.icache k).inum.toNat := dinode_eq_view hlt
    rw [if_neg hv]
    dsimp only
    rw [hread, wp_bind, wp_setInode, setSlot_self, setSlot_setSlot, wp_ite]
    refine ⟨fun h0 => ?_, fun h0 => ?_⟩
    · rw [wp_throw]
      refine htype _ hv' ?_
      rw [hlg]
      exact h0
    · rw [wp_pure]
      refine hok _ (h.looked (h.cache.setSlot hk.le (fun _ => h.cache.dev k hk) (fun _ => hlt)
        (fun _ j hj hr he => hj (h.cache.uniq j k hr hk he)) (fun _ _ _ => rfl) (fun _ _ => ?_)
        (fun i hi _ => ?_) (by nofun)) fun _ => ⟨rfl, rfl, fun hval => absurd hval hv⟩)
        (hold_setSlot _ _ _ (add_zero _).symm ?_) hfree ?_
        (fun j hj => setSlot_of_ne _ _ hj) fun _ hfr _ _ => ?_
      · exact ⟨hlg, .refl .., h0⟩
      · refine h.cache.uncached i fun j hl => ?_
        by_cases hj : j = k
        · rw [hj] at hl
          exact absurd hl.2 hv
        · exact hi j hj hl
      · rw [hbit]
        rfl
      · rw [setSlot_self]
        exact ⟨hk, rfl⟩
      · rw [setSlot_self]
        refine ⟨rfl, ?_⟩
        rw [← hlg]
        refine hlinks ?_ hfr
        rw [hlg]
        exact h0

theorem wp_iunlock {Q : Unit → Fs → Prop} (h : Core st none fr lg hand s)
    (hk : 0 < (s.icache k).ref) (hunlocked : (s.icache k).locked = false → E (.panic .iunlock) s)
    (hok : ∀ s', Looked st fr lg hand s.hold s s' → s'.hold = s.hold - aLock k →
      s'.icache = update s.icache k { s.icache k with locked := false } →
      (Idle s k → Idle s' k) → Q () s') :
    wp (iunlock k) Q E s := by
  unfold iunlock
  rw [wp_bind, wp_inode, wp_ite]
  refine ⟨fun hbad => ?_, fun hgood => ?_⟩
  · rw [wp_throw]
    refine hunlocked ?_
    have : ¬ (s.icache k).ref < 1 := by omega
    simpa [this] using hbad
  · have hlock : (s.icache k).locked = true := by
      by_contra hno
      exact hgood (by simp [hno])
    have hbit : (s.icache k).lockBit = 1 := by
      unfold Inode.lockBit
      rw [hlock]
      rfl
    unfold releasesleep
    rw [wp_setInode]
    refine hok _ (h.retag hk hk rfl rfl rfl rfl) ?_ rfl fun hidle => ?_
    · rw [sub_aLock]
      refine hold_setSlot _ _ _ (add_zero _).symm ?_
      rw [hbit]
      rfl
    · unfold Idle
      rw [setSlot_self]
      exact hidle

/-! ## `iput` of an idle slot -/

/-- Dropping the last reference to an idle slot. -/
theorem CacheOk.forget (h : Core st none fr lg hand s) (hk : 0 < (s.icache k).ref)
    (hidle : Idle s k) (hone : (s.icache k).ref = 1) {ip : Inode} (hzero : ip.ref = 0) :
    CacheOk st none fr s.sb.ninodes s.view.dinode (update s.icache k ip) lg := by
  have hnot : ¬ 0 < ip.ref := by omega
  refine h.cache.setSlot hzero.ge (fun hp => absurd hp hnot) (fun hp => absurd hp hnot)
    (fun hp => absurd hp hnot) (fun _ _ _ => rfl) (fun hl => absurd hl.1 hnot) (fun i hi _ => ?_)
    (by nofun)
  by_cases hik : (s.icache k).inum.toNat = i
  · subst hik
    by_cases hv : (s.icache k).valid = true
    · obtain ⟨hdin, hlinks⟩ := hidle hone hv
      obtain ⟨hlg, -, -⟩ := h.cache.cached k ⟨hk, hv⟩ (by nofun)
      refine ⟨hlg.trans hdin, fun _ _ => ?_⟩
      rw [hlg]
      exact hlinks
    · exact h.cache.of_not_valid hk (by rw [Bool.not_eq_true] at hv; exact hv)
  · refine h.cache.uncached i fun j hl => ?_
    by_cases hj : j = k
    · rw [hj]
      exact hik
    · exact hi j hj hl

theorem wp_iput_idle {Q : Unit → Fs → Prop} (h : Core st none fr lg hand s)
    (hk : 0 < (s.icache k).ref) (hidle : Idle s k)
    (hsleep : (s.icache k).locked = true → E .sleep s)
    (hok : ∀ s', Looked st fr lg hand (s.hold - aRef k) s s' → s'.hold = s.hold - aRef k →
      s'.icache = update s.icache k { s.icache k with ref := (s.icache k).ref - 1 } → Q () s') :
    wp (iput k) Q E s := by
  unfold iput
  rw [wp_bind]
  refine wp_acquiresleep hsleep fun hfree => ?_
  unfold ifreeLast releasesleep
  rw [wp_bind, wp_bind, wp_inode, setSlot_self]
  have hkeep : ¬ ((s.icache k).valid = true ∧ (s.icache k).din.nlink = 0 ∧ (s.icache k).ref = 1) :=
    fun hall => (hidle hall.2.2 hall.1).2 hall.2.1
  dsimp only
  rw [if_neg hkeep, wp_pure, wp_bind, wp_setInode, wp_setInode, setSlot_self, setSlot_self,
    setSlot_setSlot, setSlot_setSlot]
  have hsame : s.hold + Pi.single k ((-1 : ℤ), (0 : ℤ)) = s.hold - aRef k := (sub_aRef _ _).symm
  refine hok _ ?_ ?_ ?_
  · by_cases hone : (s.icache k).ref = 1
    · refine h.looked (CacheOk.forget h hk hidle hone ?_) fun hpos => ?_
      · dsimp only
        omega
      · rw [← hsame, Pi.add_apply, Pi.single_eq_same] at hpos
        change 0 < (s.icache k).ref + -1 at hpos
        omega
    · refine h.retag hk ?_ rfl rfl rfl rfl
      dsimp only
      omega
  · rw [← hsame]
    refine hold_setSlot _ _ _ rfl ?_
    unfold Inode.lockBit
    rw [hfree]
    rfl
  · show update s.icache k _ = _
    rw [← hfree]

/-- `iunlockput` of an idle slot. -/
theorem wp_iunlockput_idle {Q : Unit → Fs → Prop} (h : Core st none fr lg hand s)
    (hk : 0 < (s.icache k).ref) (hidle : Idle s k)
    (hunlocked : (s.icache k).locked = false → E (.panic .iunlock) s)
    (hok : ∀ s', Looked st fr lg hand (s.hold - aRef k) s s' →
      s'.hold = s.hold - aLock k - aRef k →
      s'.icache = update s.icache k
        { s.icache k with locked := false, ref := (s.icache k).ref - 1 } → Q () s') :
    wp (iunlockput k) Q E s := by
  unfold iunlockput
  rw [wp_bind]
  refine wp_iunlock h hk hunlocked fun s1 hlook hhold hic hidle1 => ?_
  have hslot : s1.icache k = { s.icache k with locked := false } := by
    rw [hic, update_self]
  refine wp_iput_idle hlook.core (by rw [hslot]; exact hk) (hidle1 hidle)
    (fun hlock => by rw [hslot] at hlock; cases hlock) fun s2 hlook2 hhold2 hic2 => ?_
  have hle : ∀ j, ((s.hold - aRef k) j).1 ≤ (s.hold j).1 := fun j =>
    sub_le_self _ (aRef_nonneg k j)
  have hle2 : ∀ j, ((s.hold - aRef k) j).1 ≤ ((s1.hold - aRef k) j).1 := by
    intro j
    have := aLock_fst k j
    rw [hhold]
    simp only [Pi.sub_apply, Prod.fst_sub]
    omega
  refine hok s2 ((hlook.anti hle).trans (hlook2.anti hle2)) ?_ ?_
  · rw [hhold2, hhold]
  · rw [hic2, hslot, hic, Function.update_idem]

end ChronoFS
