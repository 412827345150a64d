import ChronoFS.Spec.Process
import ChronoFS.Spec.Unlink

/-!
# What a system call can do

`Effect` lists, for every system call that returns, what it can have done: nothing out of the ordinary
(`Plain`), or one of the things that only one call does. Every result about sequences of system calls
is an induction over `Step` that takes one case for each.
-/

namespace ChronoFS

open Function

variable {st : Bool} {leak leak' : List Slot} {s s' : Kernel} {t : Fs} {p : ProcNo} {T : ℤ} {c : Call}
  {r : Reply} {e : Event} {i : ℕ}

/-- A call that looks at inodes leaves the files as they are. -/
theorem Ran.ordinary {t' : Fs} (h : Inv st t) (hr : Ran st leak t t') (hinodes : t'.inodes = t.inodes)
    (hdeleted : t'.deleted = t.deleted) : Ordinary t.hold t t' := by
  obtain ⟨lg, hcore⟩ := h
  obtain ⟨lg', hcore'⟩ := hr.inv
  refine ⟨fun i => .inr (by rw [hinodes]; exact ⟨rfl, rfl⟩), fun k hk hv => ?_, hdeleted⟩
  have hslot := hr.slot k hk
  have hv' := (hslot.type hv).1
  have hpos' : 0 < (t'.icache k).ref := by
    have hle := (holds_nonneg leak [] k).1
    have hhold := congrFun hr.hold k
    have hk' : 0 < (t'.hold k).1 := by
      rw [hhold, Pi.add_apply, Prod.fst_add]
      linarith
    exact hk'
  refine ⟨hv', ?_⟩
  rw [hcore.din ⟨hk, hv⟩, hcore'.din ⟨hpos', hv'⟩, hinodes, hslot.inum]
  exact UInt32.le_refl _

theorem Watched.plain (h : KInv st leak s) (hr : Ran st [] s.fs t) (hw : Watched s.fs t) :
    Plain st leak s (s.withFs t) :=
  h.plain hr (.inl (hr.ordinary h.inv hw.inodes hw.deleted))

theorem snapshotCreate_spec (h : KInv st leak s) (name : Option (List UInt8)) :
    wp (liftM (sysSnapshotCreate name) : KM ℤ) (fun _ s' => Plain st leak s s') (KHalts T) s := by
  rw [wp_fs]
  have hself : Plain st leak s (s.withFs s.fs) := (Shed.refl h).plain
  rcases name with _ | name
  · exact hself
  · unfold sysSnapshotCreate snapshotCreate
    rw [wp_bind, wp_get]
    split
    · exact hself
    · obtain ⟨lg, hcore⟩ := h.inv
      have hran : ∀ x, Ran st [] s.fs { s.fs with snapshots := x } := by
        intro x
        refine ⟨⟨lg, ?_⟩, ?_, rfl, rfl, ⟨h.quiet.outstanding, h.quiet.lh⟩, List.prefix_rfl,
          fun _ _ => .refl _, fun _ => rfl⟩
        · exact ⟨hcore.layout, hcore.metaUsed, hcore.cache, hcore.own, hcore.node, hcore.vers,
            hcore.deleted, hcore.tracked, hcore.found⟩
        · rw [holds_nil, add_zero]
          rfl
      rw [wp_bind]
      unfold getTimestamp
      rw [wp_bind, wp_get, wp_pure, wp_bind, wp_modify, wp_pure]
      exact h.plain (hran _) (.inl ((hran _).ordinary h.inv rfl rfl))

/-- The calls that work on versions of a file that has a path. -/
def Call.OnVersions : Call → Prop
  | .versionCreate _ | .versionList _ | .versionRestore _ => True
  | _ => False

/-- What the call `c` of process `p`, with the reply `r`, can do. The last argument is the list of slots
that have a reference that nothing will give up. -/
inductive Effect (st : Bool) (leak : List Slot) (p : ProcNo) (s : Kernel) :
    Call → Reply → Kernel → List Slot → Prop
  /-- Nothing out of the ordinary. -/
  | plain {c : Call} {r : Reply} {s' : Kernel} (hc : ¬ c.OnVersions) (h : Plain st leak s s') :
      Effect st leak p s c r s' leak
  /-- Versions are looked at, but none is made and none is restored. -/
  | watched {c : Call} {r : Reply} {t : Fs} (hran : Ran st [] s.fs t) (h : Watched s.fs t)
      (hcreate : ∀ path desc, c = .versionCreate (some (path, desc)) →
        s.fs.names (s.proc p).cwd path = none) : Effect st leak p s c r (s.withFs t) leak
  /-- A version of the inode `i` is made. -/
  | saved {path desc : List UInt8} {i : ℕ} {v : Version} {t : Fs} (hran : Ran st [] s.fs t)
      (hnames : s.fs.names (s.proc p).cwd path = some i) (h : Saved i desc v s.fs t) :
      Effect st leak p s (.versionCreate (some (path, desc))) (.int 0) (s.withFs t) leak
  /-- A version of the inode `i` is restored. -/
  | reverted {path : List UInt8} {num : ℤ} {i : ℕ} {c : List Version} {v : Version}
      {new : Fin NDIRECT → ℕ} {t : Fs} (hran : Ran st [] s.fs t)
      (hnames : s.fs.names (s.proc p).cwd path = some i)
      (hc : Chain s.fs.versions (s.fs.inodes i).versionHead c) (hnum : 0 ≤ num)
      (hv : (c)[num.toNat]? = some v) (h : Reverted i v new s.fs t) :
      Effect st leak p s (.versionRestore (some (path, num))) (.int 0) (s.withFs t) leak
  /-- An entry for the inode `i` is removed, and its versions are remembered. -/
  | unlinked {path name : List UInt8} {i : ℕ} {t : Fs} (hran : Ran st [] s.fs t)
      (htarget : s.fs.target (s.proc p).cwd path = some (name, i))
      (h : Ordinary s.fs.hold (s.fs.track name i) t) :
      Effect st leak p s (.unlink (some path)) (.int 0) (s.withFs t) leak
  /-- A deleted file without versions is forgotten. -/
  | forgot {name : List UInt8} {e : Fin MAX_DELETED_FILES} (he : s.fs.findDeletedFile name = some e)
      (hnone : s.fs.recovers name = none) :
      Effect st leak p s (.recoverFile (some name)) (.int (-1)) (s.withFs (s.fs.takeDeleted e)) leak
  /-- The inode `i` is made for a version of a deleted file. -/
  | recovered {name : List UInt8} {e : Fin MAX_DELETED_FILES} {v : Version} {k : Slot} {i : ℕ} {r : ℤ}
      {t : Fs} (he : s.fs.findDeletedFile name = some e) (hv : s.fs.recovers name = some v)
      (hcwd : (s.proc p).cwd = some k) (hran : Ran st [k] s.fs t)
      (h : RecoverOutcome i (s.fs.icache k).inum.toNat v name r (s.fs.takeDeleted e) t) :
      Effect st leak p s (.recoverFile (some name)) (.int r) (s.withFs t) (k :: leak)

/-- The condition under which a recovered file has no holes. -/
def Recoverable (s : Fs) (c : Call) : Prop :=
  ∀ name v, c = .recoverFile (some name) → s.recovers name = some v →
    v.vnode.fileSize.toNat ≤ NDIRECT * BSIZE

/-- The calls that are programs of the file system. -/
theorem fsCall_spec {α : Type} {m : FsM α} (g : α → Reply) {P : α → Fs → Prop}
    (hspec : wp m P (Halts T) s.fs)
    (heffect : ∀ a t, P a t → ∃ leak', Effect st leak p s c (g a) (s.withFs t) leak') :
    wp (do return g (← (liftM m : KM α)))
      (fun r s' => ∃ leak', Effect st leak p s c r s' leak') (KHalts T) s := by
  rw [wp_bind, wp_fs]
  exact wp_mono hspec (fun a t hP => heffect a t hP) fun _ _ => id

/-- The calls that concern files and processes. -/
theorem plainCall_spec {α : Type} {m : KM α} (g : α → Reply) (hc : ¬ c.OnVersions)
    (hspec : wp m (fun _ s' => Plain st leak s s') (KHalts T) s) :
    wp (do return g (← m)) (fun r s' => ∃ leak', Effect st leak p s c r s' leak') (KHalts T) s := by
  rw [wp_bind]
  exact wp_mono hspec (fun a s' hp => ⟨leak, .plain hc hp⟩) fun _ _ => id

theorem syscall_spec (h : KInv st leak s) (hT : total s.fs.hold + 2 ≤ T)
    (hsmall : st = true → Recoverable s.fs c) :
    wp (syscall p c) (fun r s' => ∃ leak', Effect st leak p s c r s' leak') (KHalts T) s := by
  have hcwd : ∀ k, (s.proc p).cwd = some k → 0 < (s.fs.icache k).ref := fun k hk => h.cwd_pos hk
  unfold syscall
  rw [wp_bind, wp_proc]
  cases c with
  | fork mem => exact plainCall_spec _ id (fork_spec h mem)
  | exit =>
    refine wp_of_spec (exit_spec (T := T) h) (fun _ _ => id) fun _ s' hp => ?_
    exact ⟨leak, .plain id hp⟩
  | wait killed => exact plainCall_spec _ id (wait_spec h killed)
  | exec args =>
    refine fsCall_spec _ (exec_spec h.inv h.quiet hcwd hT args) fun _ t ht => ?_
    exact ⟨leak, .plain id (h.plain ht.1 (.inl ht.2))⟩
  | dup fd => exact plainCall_spec _ id (sysDup_spec h fd)
  | read args => exact plainCall_spec _ id (sysRead_spec h args)
  | write args => exact plainCall_spec _ id (sysWrite_spec h args)
  | close fd => exact plainCall_spec _ id (sysClose_spec h fd)
  | fstat fd => exact plainCall_spec _ id (sysFstat_spec h fd)
  | link args =>
    refine fsCall_spec _ (sysLink_spec h.inv h.quiet hcwd hT args) fun _ t ht => ?_
    exact ⟨leak, .plain id (h.plain ht.1 (.inl ht.2))⟩
  | unlink path =>
    refine fsCall_spec _ (sysUnlink_spec h.inv h.quiet hcwd hT path) ?_
    rintro r t ⟨hran, ⟨-, hord⟩ | ⟨rfl, path, name, i, rfl, htarget, hord⟩⟩
    · exact ⟨leak, .plain id (h.plain hran (.inl hord))⟩
    · exact ⟨leak, .unlinked hran htarget hord⟩
  | «open» args => exact plainCall_spec _ id (sysOpen_spec h hT args)
  | mkdir path =>
    refine fsCall_spec _ (createPut_spec h.inv h.quiet hcwd hT T_DIR _) fun _ t ht => ?_
    exact ⟨leak, .plain id (h.plain ht.1 ht.2)⟩
  | mknod args =>
    refine fsCall_spec _ (createPut_spec h.inv h.quiet hcwd hT T_DEV args) fun _ t ht => ?_
    exact ⟨leak, .plain id (h.plain ht.1 ht.2)⟩
  | chdir path => exact plainCall_spec _ id (sysChdir_spec h hT path)
  | pipe mem => exact plainCall_spec _ id (sysPipe_spec h mem)
  | versionCreate args =>
    refine fsCall_spec _ (sysVersionCreate_spec h.inv h.quiet hcwd hT args) ?_
    rintro r t ⟨hran, ⟨-, hw, hnone⟩ | ⟨rfl, path, desc, i, v, rfl, hnames, hsaved⟩⟩
    · refine ⟨leak, .watched hran hw fun path desc heq => hnone path desc ?_⟩
      exact Call.versionCreate.inj heq
    · exact ⟨leak, .saved hran hnames hsaved⟩
  | versionList args =>
    refine fsCall_spec _ (sysVersionList_spec h.inv h.quiet hcwd hT args) ?_
    rintro r t ⟨hran, hw, -⟩
    exact ⟨leak, .watched hran hw (by nofun)⟩
  | versionRestore args =>
    refine fsCall_spec _ (sysVersionRestore_spec h.inv h.quiet hcwd hT args) ?_
    rintro r t ⟨hran, ⟨-, hw, -⟩ | ⟨path, num, i, rfl, hnames, c, hc, ⟨-, hw, -⟩ |
      ⟨rfl, v, new, hnum, hv, hrev⟩⟩⟩
    · exact ⟨leak, .watched hran hw (by nofun)⟩
    · exact ⟨leak, .watched hran hw (by nofun)⟩
    · exact ⟨leak, .reverted hran hnames hc hnum hv hrev⟩
  | recoverFile name =>
    refine fsCall_spec _ (sysRecoverFile_spec h.inv h.quiet hcwd hT name fun hst name v heq hv => ?_) ?_
    · exact hsmall hst name v (by rw [heq]) hv
    · rintro r t (⟨rfl, rfl | ⟨name, e, rfl, he, hnone, rfl⟩⟩ |
        ⟨name, e, v, k, i, rfl, he, hv, hk, hran, hout⟩)
      · exact ⟨leak, .plain id (Shed.refl h).plain⟩
      · exact ⟨leak, .forgot he hnone⟩
      · exact ⟨k :: leak, .recovered he hv hk hran hout⟩
  | snapshotCreate name => exact plainCall_spec _ id (snapshotCreate_spec h name)
  | snapshotRestore => exact ⟨leak, .plain id (Shed.refl h).plain⟩

/-! ## The invariant -/

theorem Ran.takeDeleted (h : Inv st t) (hq : t.Quiet) (e : Fin MAX_DELETED_FILES) :
    Ran st [] t (t.takeDeleted e) := by
  obtain ⟨lg, hcore⟩ := h
  refine ⟨⟨lg, hcore.takeDeleted e⟩, ?_, rfl, rfl, ⟨hq.outstanding, hq.lh⟩, List.prefix_rfl,
    fun _ _ => .refl _, fun _ => rfl⟩
  rw [holds_nil, add_zero]
  rfl

theorem Effect.done (h : KInv st leak s) (he : Effect st leak p s c r s' leak') :
    Done st leak' s s' := by
  cases he with
  | plain _ hp => exact hp.toDone
  | watched hran | saved hran | reverted hran | unlinked hran => exact h.done hran
  | forgot => exact h.done (.takeDeleted h.inv h.quiet _)
  | recovered _ _ _ hran => exact h.done hran

/-- The invariant does not depend on time and input. -/
theorem KInv.world (h : KInv st leak s) (ticks : UInt32) (io : List (Option (List UInt8))) :
    Plain st leak s { s with fs := { s.fs with ticks, io } } := by
  obtain ⟨lg, hcore⟩ := h.inv
  have hran : Ran st [] s.fs { s.fs with ticks, io } := by
    refine ⟨⟨lg, ?_⟩, ?_, rfl, rfl, ⟨h.quiet.outstanding, h.quiet.lh⟩, List.prefix_rfl,
      fun _ _ => .refl _, fun _ => rfl⟩
    · exact ⟨hcore.layout, hcore.metaUsed, hcore.cache, hcore.own, hcore.node, hcore.vers,
        hcore.deleted, hcore.tracked, hcore.found⟩
    · rw [holds_nil, add_zero]
      rfl
  exact h.plain hran (.inl (hran.ordinary h.inv rfl rfl))

/-- What a step does: a system call has an effect, and the world has none. -/
theorem Step.effect (h : KInv st leak s) (hs : Step s e s')
    (hsmall : st = true → ∀ p c, e = .call p c → Recoverable s.fs c) :
    (∃ p c r leak', e = .call p c ∧ Effect st leak p s c r s' leak') ∨
      (∃ ticks io, e = .world ticks io) ∧ Plain st leak s s' := by
  cases e with
  | call p c =>
    obtain ⟨-, r, hr⟩ := hs
    obtain ⟨leak', heff⟩ := (syscall_spec (p := p) h (le_refl _) fun hst => hsmall hst p c rfl).ok hr
    exact .inl ⟨p, c, r, leak', rfl, heff⟩
  | world ticks io =>
    obtain rfl : s' = { s with fs := { s.fs with ticks, io } } := hs
    exact .inr ⟨⟨ticks, io, rfl⟩, h.world ticks io⟩

theorem Step.done (h : KInv st leak s) (hs : Step s e s')
    (hsmall : st = true → ∀ p c, e = .call p c → Recoverable s.fs c) :
    ∃ leak', Done st leak' s s' := by
  rcases hs.effect h hsmall with ⟨p, c, r, leak', -, heff⟩ | ⟨-, hp⟩
  · exact ⟨leak', heff.done h⟩
  · exact ⟨leak, hp.toDone⟩

end ChronoFS
