import ChronoFS.Spec.Fileio

/-!
# Descriptors and processes

The calls that give and take descriptors, and those that make and end processes. A call that only gives
up what it holds is a `Shed`; it may do so any number of times, as `exit` does. The calls that take an
inode, `open`, `fork` and `chdir`, take it as one of the holders that the invariant counts.
-/

namespace ChronoFS

open Function

variable {st : Bool} {leak : List Slot} {s s' s'' : Kernel} {m t t' t₀ : Fs} {k ip : Slot} {f : FileNo}
  {p np : ProcNo} {T : ℤ} {lg : ℕ → Dinode} {H : Slot → ℤ × ℤ} {E : Halt → Kernel → Prop}

/-! ## Calls that only give up what they hold -/

/-- References are only given up. -/
structure Shed (st : Bool) (leak : List Slot) (s s' : Kernel) : Prop where
  /-- The invariant holds. -/
  inv : KInv st leak s'
  /-- A file that is open was open, and is where it was. -/
  file : ∀ f k, (s'.ftable f).type = .inode k →
    (s.ftable f).type = .inode k ∧ (s'.ftable f).off = (s.ftable f).off
  /-- No inode gets a reference. -/
  le : ∀ k, (s'.fs.hold k).1 ≤ (s.fs.hold k).1
  /-- The slots that stay in use are for the same inodes. -/
  slot : ∀ k, 0 < (s'.fs.hold k).1 → SameSlot (s.fs.icache k) (s'.fs.icache k)
  /-- Nothing out of the ordinary happens. -/
  ordinary : Ordinary s'.fs.hold s.fs s'.fs
  /-- The rest is the same. -/
  rest : s'.fs.sb = s.fs.sb ∧ s'.fs.logSize = s.fs.logSize ∧ s'.fs.versions = s.fs.versions ∧
    s'.fs.unlocked = s.fs.unlocked

namespace Shed

theorem refl (h : KInv st leak s) : Shed st leak s s :=
  ⟨h, fun _ _ hf => ⟨hf, rfl⟩, fun _ => le_refl _, fun _ _ => .refl _, .refl _ _, rfl, rfl, rfl, rfl⟩

theorem trans (h : Shed st leak s s') (h' : Shed st leak s' s'') : Shed st leak s s'' := by
  refine ⟨h'.inv, fun f k hf => ?_, fun k => (h'.le k).trans (h.le k),
    fun k hk => (h.slot k (lt_of_lt_of_le hk (h'.le k))).trans (h'.slot k hk), (h.ordinary.anti h'.le).trans h'.ordinary, h'.rest.1.trans h.rest.1, h'.rest.2.1.trans h.rest.2.1,
    h'.rest.2.2.1.trans h.rest.2.2.1, h'.rest.2.2.2.trans h.rest.2.2.2⟩
  obtain ⟨hf', hoff'⟩ := h'.file f k hf
  obtain ⟨hf0, hoff0⟩ := h.file f k hf'
  exact ⟨hf0, hoff'.trans hoff0⟩

theorem plain (h : Shed st leak s s') : Plain st leak s s' where
  inv := h.inv
  sb := h.rest.1
  logSize := h.rest.2.1
  versions := by rw [h.rest.2.2.1]
  offs := fun f k hf _ => .inl (h.file f k hf)
  slot := fun k _ hk => h.slot k hk
  unlocked := h.rest.2.2.2
  usual := .inl (h.ordinary.anti (common_le_right _ _))

end Shed

theorem Closed.shed (h : Closed st leak f s s') : Shed st leak s s' := by
  refine ⟨h.inv, fun f' k hf => ?_, h.le, h.slot, h.ordinary, h.rest⟩
  by_cases hff : f' = f
  · subst hff
    rcases h.self with hnone | ⟨htype, hoff⟩
    · rw [hnone] at hf
      nomatch hf
    · exact ⟨htype ▸ hf, hoff⟩
  · rw [h.other f' hff] at hf ⊢
    exact ⟨hf, rfl⟩

/-- What a process holds is its directory. -/
theorem users_congr (hft : s'.ftable = s.ftable) (hcwd : ∀ q, (s'.proc q).cwd = (s.proc q).cwd) :
    s'.users = s.users := by
  unfold Kernel.users
  rw [hft]
  congr 1
  refine Finset.sum_congr rfl fun q _ => ?_
  unfold Proc.holds
  rw [hcwd q]

/-- The invariant says nothing of descriptors and parents. -/
theorem KInv.procs (h : KInv st leak s) (hfs : s'.fs = s.fs) (hft : s'.ftable = s.ftable)
    (hcwd : ∀ q, (s'.proc q).cwd = (s.proc q).cwd)
    (hstate : ∀ q, (s'.proc q).state ≠ .runnable → (s.proc q).state ≠ .runnable) :
    KInv st leak s' := by
  refine h.next (hfs ▸ h.inv) (hfs ▸ h.quiet) ?_ (fun f => ?_) (fun k _ _ => ?_) (fun f k hf => ?_)
    fun q hq => ?_
  · rw [hfs, users_congr hft hcwd]
    exact h.hold
  · rw [hft]
    exact ⟨h.ref f, h.closed f⟩
  · rw [hfs]
    exact .refl _
  · rw [hft] at hf ⊢
    exact .inl ⟨hf, rfl⟩
  · rw [hcwd q]
    exact h.cwd q (hstate q hq)

/-- The descriptors of a process. -/
def Kernel.setFds (s : Kernel) (p : ProcNo) (ofile : Fin NOFILE → Option FileNo) : Kernel :=
  s.withProc p { s.proc p with ofile }

theorem setFds_proc (s : Kernel) (p q : ProcNo) (ofile : Fin NOFILE → Option FileNo) :
    ((s.setFds p ofile).proc q).cwd = (s.proc q).cwd ∧
      ((s.setFds p ofile).proc q).state = (s.proc q).state := by
  unfold Kernel.setFds
  by_cases hq : q = p
  · rw [hq, withProc_self]
    exact ⟨rfl, rfl⟩
  · rw [withProc_of_ne _ _ hq]
    exact ⟨rfl, rfl⟩

theorem KInv.setFds (h : KInv st leak s) (p : ProcNo) (ofile : Fin NOFILE → Option FileNo) :
    KInv st leak (s.setFds p ofile) :=
  h.procs rfl rfl (fun q => (setFds_proc s p q ofile).1)
    fun q hq => (setFds_proc s p q ofile).2 ▸ hq

theorem Shed.setFds (h : KInv st leak s) (p : ProcNo) (ofile : Fin NOFILE → Option FileNo) :
    Shed st leak s (s.setFds p ofile) :=
  ⟨h.setFds p ofile, fun _ _ hf => ⟨hf, rfl⟩, fun _ => le_refl _, fun _ _ => .refl _, .refl _ _, rfl, rfl, rfl, rfl⟩

theorem wp_argfd {Q : Option (Fin NOFILE × FileNo) → Kernel → Prop} {fd : ℤ} (hok : ∀ r, Q r s) :
    wp (argfd p fd) Q E s := by
  unfold argfd
  rw [wp_bind, wp_proc]
  split
  · exact hok _
  · exact hok _

theorem wp_argfd_of_open {Q : Option (Fin NOFILE × FileNo) → Kernel → Prop} {E : Halt → Kernel → Prop}
    {fd : Fin NOFILE} (hfd : (s.proc p).ofile fd = some f) (hok : Q (some (fd, f)) s) :
    wp (argfd p fd.val) Q E s := by
  have hlt := fd.isLt
  unfold argfd
  rw [wp_bind, wp_proc, dif_pos (by omega), wp_pure]
  simp only [Int.toNat_natCast, Fin.eta, hfd, Option.map_some]
  exact hok

theorem wp_fdalloc {Q : Option (Fin NOFILE) → Kernel → Prop} (hnone : Q none s)
    (hsome : ∀ fd ofile, Q (some fd) (s.setFds p ofile)) : wp (fdalloc p f) Q E s := by
  unfold fdalloc
  rw [wp_bind, wp_proc]
  split
  · exact hnone
  · exact hsome _ _

/-- A free entry of the file table gets its first reference. -/
theorem wp_filealloc {Q : Option FileNo → Kernel → Prop} (hnone : Q none s)
    (hsome : ∀ f, (s.ftable f).ref = 0 → Q (some f) (s.withFile f { s.ftable f with ref := 1 })) :
    wp filealloc Q E s := by
  unfold filealloc
  rw [wp_bind, wp_get]
  split
  · exact hnone
  · rename_i f hf
    rw [wp_bind, wp_setFile, wp_pure]
    exact hsome f (by simpa using List.find?_some hf)

theorem filedup_spec (h : KInv st leak s) :
    wp (filedup f) (fun _ s' => Shed st leak s s' ∧ s'.fs = s.fs ∧ s'.proc = s.proc) (KHalts T) s := by
  unfold filedup
  rw [wp_bind, wp_file, wp_ite]
  refine ⟨fun _ => Halt.Benign.khalts ⟨by decide, by decide⟩, fun href => ?_⟩
  rw [wp_setFile]
  refine ⟨⟨h.setRef (by omega), fun f' k hf => ?_, fun _ => le_refl _, fun _ _ => .refl _, .refl _ _, rfl, rfl, rfl, rfl⟩,
    rfl, rfl⟩
  by_cases hff : f' = f
  · subst hff
    rw [withFile_self] at hf ⊢
    exact ⟨hf, rfl⟩
  · rw [withFile_of_ne _ _ hff] at hf ⊢
    exact ⟨hf, rfl⟩

section Descriptors

variable (h : KInv st leak s)

include h

theorem sysDup_spec (fd : ℤ) :
    wp (sysDup p fd) (fun _ s' => Plain st leak s s') (KHalts T) s := by
  unfold sysDup
  rw [wp_bind]
  refine wp_argfd fun r => ?_
  rcases r with _ | ⟨i, f⟩
  · exact (Shed.refl h).plain
  · dsimp only
    rw [wp_bind]
    refine wp_fdalloc (Shed.refl h).plain fun fd ofile => ?_
    refine wp_of_spec (filedup_spec (T := T) (h.setFds p ofile)) (fun _ _ => id) fun _ s' hs => ?_
    rw [wp_pure]
    exact ((Shed.setFds h p ofile).trans hs.1).plain

theorem sysRead_spec (args : Option (ℤ × UInt32)) :
    wp (sysRead p args) (fun _ s' => Plain st leak s s') (KHalts T) s := by
  rcases args with _ | ⟨fd, n⟩
  · exact (Shed.refl h).plain
  · unfold sysRead
    rw [wp_bind]
    refine wp_argfd fun r => ?_
    rcases r with _ | ⟨i, f⟩
    · exact (Shed.refl h).plain
    · exact fileread_spec h n

theorem sysWrite_spec (args : Option (ℤ × List UInt8)) :
    wp (sysWrite p args) (fun _ s' => Plain st leak s s') (KHalts T) s := by
  rcases args with _ | ⟨fd, src⟩
  · exact (Shed.refl h).plain
  · unfold sysWrite
    rw [wp_bind]
    refine wp_argfd fun r => ?_
    rcases r with _ | ⟨i, f⟩
    · exact (Shed.refl h).plain
    · exact wp_mono (filewrite_spec h src) (fun _ _ hp => hp.1) fun _ _ => id

theorem sysFstat_spec (args : Option ℤ) :
    wp (sysFstat p args) (fun _ s' => Plain st leak s s') (KHalts T) s := by
  rcases args with _ | fd
  · exact (Shed.refl h).plain
  · unfold sysFstat
    rw [wp_bind]
    refine wp_argfd fun r => ?_
    rcases r with _ | ⟨i, f⟩
    · exact (Shed.refl h).plain
    · exact filestat_spec h

theorem sysClose_spec (fd : ℤ) :
    wp (sysClose p fd) (fun _ s' => Plain st leak s s') (KHalts T) s := by
  unfold sysClose
  rw [wp_bind]
  refine wp_argfd fun r => ?_
  rcases r with _ | ⟨i, f⟩
  · exact (Shed.refl h).plain
  · dsimp only
    rw [wp_bind, wp_setProc]
    have hfds := Shed.setFds h p (update (s.proc p).ofile i none)
    refine wp_of_spec (fileclose_spec (T := T) hfds.inv) (fun _ _ => id) fun _ s' hs => ?_
    rw [wp_pure]
    exact (hfds.trans hs.shed).plain

end Descriptors

/-! ## Pipes -/

/-- An entry of the file table that is for no inode may become anything else that is not. -/
theorem Shed.setFile (h : KInv st leak s) (hf : ∀ k, (s.ftable f).type ≠ .inode k) {x : File}
    (hx : ∀ k, x.type ≠ .inode k) (href : 0 < x.ref) : Shed st leak s (s.withFile f x) := by
  refine ⟨h.next h.inv h.quiet ?_ (fun f' => ?_) (fun _ _ _ => .refl _) (fun f' k hk => ?_) h.cwd,
    fun f' k hk => ?_, fun _ => le_refl _, fun _ _ => .refl _, .refl _ _, rfl, rfl, rfl, rfl⟩
  · rw [withFile_fs, withFile_users, File.holds_of_ne hf, sub_zero, File.holds_of_ne hx, add_zero]
    exact h.hold
  · by_cases hff : f' = f
    · rw [hff, withFile_self]
      exact ⟨href.le, fun h0 => absurd h0 href.ne'⟩
    · rw [withFile_of_ne _ _ hff]
      exact ⟨h.ref f', h.closed f'⟩
  · by_cases hff : f' = f
    · rw [hff, withFile_self] at hk
      exact absurd hk (hx k)
    · rw [withFile_of_ne _ _ hff] at hk ⊢
      exact .inl ⟨hk, rfl⟩
  · by_cases hff : f' = f
    · rw [hff, withFile_self] at hk
      exact absurd hk (hx k)
    · rw [withFile_of_ne _ _ hff] at hk ⊢
      exact ⟨hk, rfl⟩

theorem filealloc_spec (h : KInv st leak s) :
    wp filealloc (fun r s' => Shed st leak s s' ∧ (∀ f, (s.ftable f).ref ≤ (s'.ftable f).ref) ∧
      ∀ f, r = some f → (s'.ftable f).type = .none ∧ 0 < (s'.ftable f).ref) E s := by
  refine wp_filealloc ⟨.refl h, fun _ => le_refl _, by nofun⟩ fun f href => ⟨?_, fun f' => ?_, fun f' heq => ?_⟩
  · have htype := h.closed f href
    exact Shed.setFile h (by rw [htype]; nofun) (fun k hk => by rw [htype] at hk; nomatch hk) one_pos
  · by_cases hf : f' = f
    · rw [hf, withFile_self, href]
      exact zero_le_one
    · rw [withFile_of_ne _ _ hf]
  · obtain rfl := Option.some.inj heq
    rw [withFile_self]
    exact ⟨h.closed f href, one_pos⟩

theorem pipeBad_spec (h : KInv st leak s) (f0 f1 : Option FileNo) :
    wp (pipeBad f0 f1) (fun r s' => Shed st leak s s' ∧ r = none) (KHalts T) s := by
  rcases f0 with _ | f0
  · exact ⟨.refl h, rfl⟩
  · refine wp_of_spec (fileclose_spec (T := T) h) (fun _ _ => id) fun _ s1 hs1 => ?_
    rcases f1 with _ | f1
    · exact ⟨hs1.shed, rfl⟩
    · refine wp_of_spec (fileclose_spec (T := T) hs1.inv) (fun _ _ => id) fun _ s2 hs2 => ?_
      exact ⟨hs1.shed.trans hs2.shed, rfl⟩

/-- An end of a pipe. -/
theorem Shed.setPipe (h : KInv st leak s) (hf : ∀ k, (s.ftable f).type ≠ .inode k)
    (href : 0 < (s.ftable f).ref) (readable writable : Bool) :
    Shed st leak s (s.withFile f { s.ftable f with type := .pipe, readable, writable }) :=
  Shed.setFile h hf (by nofun) href

theorem pipealloc_spec (h : KInv st leak s) (mem : Bool) :
    wp (pipealloc mem) (fun _ s' => Shed st leak s s') (KHalts T) s := by
  unfold pipealloc
  refine wp_of_spec (filealloc_spec (E := KHalts T) h) (fun _ _ => id) ?_
  rintro f0 s1 ⟨hs1, -, h0⟩
  rcases f0 with _ | f0
  · exact wp_mono (pipeBad_spec hs1.inv none none) (fun _ _ hs => hs1.trans hs.1) fun _ _ => id
  · obtain ⟨htype0, href0⟩ := h0 f0 rfl
    refine wp_of_spec (filealloc_spec (E := KHalts T) hs1.inv) (fun _ _ => id) ?_
    rintro f1 s2 ⟨hs2, hle2, h1⟩
    have hs := hs1.trans hs2
    rcases f1 with _ | f1
    · exact wp_mono (pipeBad_spec hs2.inv (some f0) none) (fun _ _ h' => hs.trans h'.1) fun _ _ => id
    · obtain ⟨htype1, href1⟩ := h1 f1 rfl
      rw [wp_ite]
      refine ⟨fun _ => ?_, fun _ => ?_⟩
      · have hs3 := Shed.setPipe (f := f0) hs2.inv (fun k hk => by
          rw [(hs2.file f0 k hk).1] at htype0
          nomatch htype0) (lt_of_lt_of_le href0 (hle2 f0)) true false
        have href3 : 0 < ((s2.withFile f0 { s2.ftable f0 with
            type := .pipe, readable := true, writable := false }).ftable f1).ref := by
          by_cases hf : f1 = f0
          · rw [hf, withFile_self]
            exact lt_of_lt_of_le href0 (hle2 f0)
          · rw [withFile_of_ne _ _ hf]
            exact href1
        have hs4 := Shed.setPipe (f := f1) hs3.inv (fun k hk => by
          rw [(hs3.file f1 k hk).1] at htype1
          nomatch htype1) href3 false true
        rw [wp_bind, wp_setFile, wp_bind, wp_setFile, wp_pure]
        exact hs.trans (hs3.trans hs4)
      · exact wp_mono (pipeBad_spec hs2.inv (some f0) (some f1)) (fun _ _ h' => hs.trans h'.1)
          fun _ _ => id

theorem sysPipe_spec (h : KInv st leak s) (args : Option Bool) :
    wp (sysPipe p args) (fun _ s' => Plain st leak s s') (KHalts T) s := by
  -- the two ends are closed again if there is no descriptor for them
  have hclose : ∀ {s1 : Kernel} (rf wf : FileNo), Shed st leak s s1 →
      wp (do fileclose rf; fileclose wf; return none : KM (Option (Fin NOFILE × Fin NOFILE)))
        (fun _ s' => Plain st leak s s') (KHalts T) s1 := by
    intro s1 rf wf hs1
    refine wp_of_spec (fileclose_spec (T := T) hs1.inv) (fun _ _ => id) fun _ s2 hs2 => ?_
    refine wp_of_spec (fileclose_spec (T := T) hs2.inv) (fun _ _ => id) fun _ s3 hs3 => ?_
    exact (hs1.trans (hs2.shed.trans hs3.shed)).plain
  rcases args with _ | mem
  · exact (Shed.refl h).plain
  · refine wp_of_spec (pipealloc_spec (T := T) h mem) (fun _ _ => id) fun r s1 hs1 => ?_
    rcases r with _ | ⟨rf, wf⟩
    · exact hs1.plain
    · dsimp only
      rw [wp_bind]
      refine wp_fdalloc (hclose rf wf hs1) fun fd0 ofile => ?_
      have hs2 := hs1.trans (Shed.setFds hs1.inv p ofile)
      dsimp only
      rw [wp_bind]
      refine wp_fdalloc ?_ fun fd1 ofile' => ?_
      · dsimp only
        rw [wp_bind, wp_setProc]
        exact hclose rf wf (hs2.trans (Shed.setFds hs2.inv p _))
      · exact (hs2.trans (Shed.setFds hs2.inv p ofile')).plain

/-! ## `fork`, `wait` and `exit` -/

/-- A process takes over references to the files of another: the inodes and the directories are the
same. -/
structure Duped (st : Bool) (leak : List Slot) (s s' : Kernel) : Prop where
  /-- Files get references. -/
  shed : Shed st leak s s'
  /-- The file system is the same. -/
  fs : s'.fs = s.fs
  /-- So are the directories of the processes, and their states. -/
  proc : ∀ q, (s'.proc q).cwd = (s.proc q).cwd ∧ (s'.proc q).state = (s.proc q).state

theorem dupFiles_spec (h : Duped st leak s s') (i : Fin NOFILE) :
    wp (dupFiles p np i) (fun _ s'' => Duped st leak s s'') (KHalts T) s' := by
  unfold dupFiles
  rw [wp_bind, wp_proc]
  split
  · exact h
  · refine wp_of_spec (filedup_spec (T := T) h.shed.inv) (fun _ _ => id) ?_
    rintro _ s1 ⟨hs1, hfs, hproc⟩
    rw [wp_setProc]
    refine ⟨(h.shed.trans hs1).trans (Shed.setFds hs1.inv np _), hfs.trans h.fs, fun q => ?_⟩
    have hq := setFds_proc s1 np q
    rw [hproc] at hq
    exact ⟨(hq _).1.trans (h.proc q).1, (hq _).2.trans (h.proc q).2⟩

/-- A process that is being made gets a directory and becomes runnable. -/
theorem KInv.fork (h : KInv st leak s) (hnone : (s.proc np).cwd = none)
    (hlook : Looked st none lg [] s.fs.hold s.fs t) (hhold : t.hold = s.fs.hold + aRef k) :
    KInv st leak ((s.withFs t).withProc np { s.proc np with cwd := some k, state := .runnable }) := by
  refine h.next ⟨lg, hlook.core⟩ ?_ ?_ (fun f => ⟨h.ref f, h.closed f⟩) (fun j hj _ => ?_)
    (fun f j hf => .inl ⟨hf, rfl⟩) fun q hq => ?_
  · have hrest := hlook.only
    exact ⟨by rw [withProc_fs, withFs_fs, hrest]; exact h.quiet.outstanding, hlook.lh.trans h.quiet.lh⟩
  · rw [withProc_users, withProc_fs, withFs_fs, withFs_users, withFs_proc, Proc.holds_none hnone,
      Proc.holds_some (k := k) rfl, hhold, h.hold]
    abel
  · exact hlook.steady.slot j hj
  · by_cases hqn : q = np
    · rw [hqn, withProc_self] at hq
      exact absurd rfl hq
    · rw [withProc_of_ne _ _ hqn] at hq ⊢
      exact h.cwd q hq

theorem fork_spec (h : KInv st leak s) (mem : Bool) :
    wp (fork p mem) (fun _ s' => Plain st leak s s') (KHalts T) s := by
  unfold fork
  rw [wp_bind, wp_get]
  split
  · exact (Shed.refl h).plain
  · rename_i np hnp
    have hunused : (s.proc np).state = .unused := by simpa using List.find?_some hnp
    rw [wp_ite]
    refine ⟨fun _ => ?_, fun _ => (Shed.refl h).plain⟩
    rw [wp_bind, wp_setProc, wp_bind]
    have hparent : ∀ q, ((s.withProc np { s.proc np with parent := some p }).proc q).cwd =
        (s.proc q).cwd ∧ ((s.withProc np { s.proc np with parent := some p }).proc q).state =
        (s.proc q).state := by
      intro q
      by_cases hq : q = np
      · rw [hq, withProc_self]
        exact ⟨rfl, rfl⟩
      · rw [withProc_of_ne _ _ hq]
        exact ⟨rfl, rfl⟩
    have hinv : KInv st leak (s.withProc np { s.proc np with parent := some p }) :=
      h.procs rfl rfl (fun q => (hparent q).1) fun q hq => (hparent q).2 ▸ hq
    refine wp_forM (fun _ s' => Duped st leak s s')
      ⟨⟨hinv, fun _ _ hf => ⟨hf, rfl⟩, fun _ => le_refl _, fun _ _ => .refl _, .refl _ _, rfl, rfl, rfl, rfl⟩, rfl, hparent⟩
      (fun _ i _ s' _ hs' => dupFiles_spec hs' i) fun s1 hs1 => ?_
    have h1 := hs1.shed.inv
    obtain ⟨lg, hcore⟩ := h1.inv
    rw [wp_bind, wp_proc, wp_bind, wp_fs]
    cases hcwd : (s1.proc p).cwd with
    | none => exact Halt.Benign.khalts ⟨by decide, by decide⟩
    | some k =>
      refine wp_mono (idup_spec (E := Halts T) hcore (h1.cwd_pos hcwd)) ?_ fun _ _ => id
      rintro _ t ⟨rfl, hlook, hhold, -⟩
      rw [wp_bind, wp_setProc, wp_pure]
      have hnone : (s1.proc np).cwd = none := by
        refine h1.cwd np ?_
        rw [(hs1.proc np).2, hunused]
        decide
      have hsteady := hlook.steady
      have hord := hlook.ordinary hcore
      rw [hs1.fs] at hord hsteady
      exact ⟨⟨h1.fork hnone hlook hhold, hsteady.sb, hsteady.logSize, by
          rw [withProc_fs, withFs_fs, hsteady.versions],
        fun f j hf _ => .inl (hs1.shed.file f j hf), fun j hj _ => hsteady.slot j hj⟩, hsteady.unlocked,
        .inl (hord.anti (common_le_left _ _))⟩

theorem wait_spec (h : KInv st leak s) (killed : Bool) :
    wp (wait p killed) (fun _ s' => Plain st leak s s') (KHalts T) s := by
  unfold wait
  rw [wp_bind, wp_get]
  split
  · rename_i q hq
    have hzombie : (s.proc q).state = .zombie := by
      have := List.find?_some hq
      simp only [decide_eq_true_eq] at this
      exact this.2
    rw [wp_bind, wp_setProc, wp_pure]
    have hinv : KInv st leak (s.withProc q { s.proc q with parent := none, state := .unused }) := by
      refine h.procs rfl rfl (fun q' => ?_) fun q' hq' => ?_
      · by_cases hqq : q' = q
        · rw [hqq, withProc_self]
        · rw [withProc_of_ne _ _ hqq]
      · by_cases hqq : q' = q
        · rw [hqq, hzombie]
          decide
        · rw [withProc_of_ne _ _ hqq] at hq'
          exact hq'
    exact Shed.plain ⟨hinv, fun _ _ hf => ⟨hf, rfl⟩, fun _ => le_refl _, fun _ _ => .refl _, .refl _ _, rfl, rfl, rfl, rfl⟩
  · rw [wp_ite]
    exact ⟨fun _ => (Shed.refl h).plain, fun _ => Halt.Benign.khalts ⟨by decide, by decide⟩⟩

theorem closeFile_spec (h : KInv st leak s) (fd : Fin NOFILE) :
    wp (closeFile p fd) (fun _ s' => Shed st leak s s') (KHalts T) s := by
  unfold closeFile
  rw [wp_bind, wp_proc]
  split
  · exact .refl h
  · refine wp_of_spec (fileclose_spec (T := T) h) (fun _ _ => id) fun _ s' hs => ?_
    rw [wp_setProc]
    exact hs.shed.trans (Shed.setFds hs.inv p _)

/-- A process that ends gives up its directory. -/
theorem Shed.dropCwd (h : KInv st leak s) (hcwd : (s.proc p).cwd = some k)
    (hput : PutOp st k s.fs t) :
    Shed st leak s ((s.withFs t).withProc p { s.proc p with cwd := none, state := .zombie }) := by
  have hle : ∀ j, (t.hold j).1 ≤ (s.fs.hold j).1 := by
    intro j
    rw [hput.hold, Pi.sub_apply, Prod.fst_sub]
    linarith [aRef_nonneg k j]
  refine ⟨h.next hput.inv hput.quiet ?_ (fun f => ⟨h.ref f, h.closed f⟩) (fun j _ hj => hput.slot j hj)
    (fun f j hf => .inl ⟨hf, rfl⟩) (fun q hq => ?_), fun _ _ hf => ⟨hf, rfl⟩, hle,
    hput.slot, hput.ordinary, hput.rest⟩
  · rw [withProc_users, withProc_fs, withFs_fs, withFs_users, withFs_proc, Proc.holds_some hcwd,
      Proc.holds_none rfl, hput.hold, h.hold]
    abel
  · by_cases hqp : q = p
    · rw [hqp, withProc_self]
    · rw [withProc_of_ne _ _ hqp] at hq ⊢
      exact h.cwd q hq

/-- The operation of `exit`. -/
theorem wp_iputCwd {α : Type} {Q : α → Kernel → Prop} {next : KM α} (h : KInv st leak s)
    (hcwd : (s.proc p).cwd = some k)
    (hok : ∀ t, PutOp st k s.fs t → wp next Q (KHalts T) (s.withFs t)) :
    wp (do liftM beginOp; liftM (iputCwd (some k)); liftM endOp; next) Q (KHalts T) s := by
  have hop := wp_putOp (T := T) (Q := fun _ t => wp next Q (KHalts T) (s.withFs t)) h.inv h.quiet
    (h.cwd_pos hcwd) hok
  rw [wp_bind, wp_fs]
  refine wp_mono (wp_bind.mp hop) (fun _ t ht => ?_) fun _ _ => id
  rw [wp_bind, wp_fs]
  refine wp_mono (wp_bind.mp ht) (fun _ t' ht' => ?_) fun _ _ => id
  rw [wp_bind, wp_fs]
  exact ht'

/-- Abandoned children are passed to init. -/
theorem Shed.reparent (h : KInv st leak s) (p : ProcNo) :
    Shed st leak s { s with proc := fun q =>
      if (s.proc q).parent = some p then { s.proc q with parent := some INITPROC } else s.proc q } := by
  refine ⟨h.procs rfl rfl (fun q => ?_) fun q hq => ?_, fun _ _ hf => ⟨hf, rfl⟩, fun _ => le_refl _, fun _ _ => .refl _,
    .refl _ _, rfl, rfl, rfl, rfl⟩
  · dsimp only
    split <;> rfl
  · dsimp only at hq
    split at hq <;> exact hq

theorem exit_spec (h : KInv st leak s) :
    wp (exit p) (fun _ s' => Plain st leak s s') (KHalts T) s := by
  unfold exit
  rw [wp_ite]
  refine ⟨fun _ => Halt.Benign.khalts ⟨by decide, by decide⟩, fun _ => ?_⟩
  rw [wp_bind]
  refine wp_forM (fun _ s' => Shed st leak s s') (.refl h)
    (fun _ i _ s' _ hs' => wp_mono (closeFile_spec hs'.inv i) (fun _ _ hs => hs'.trans hs) fun _ _ => id)
    fun s1 hs1 => ?_
  rw [wp_bind, wp_proc]
  cases hcwd : (s1.proc p).cwd with
  | none =>
    rw [wp_bind, wp_fs]
    refine wp_beginOp hs1.inv.quiet ?_
    exact Halt.Benign.khalts ⟨by decide, by decide⟩
  | some k =>
    refine wp_iputCwd hs1.inv hcwd fun t hput => ?_
    have hs2 := hs1.trans (Shed.dropCwd hs1.inv hcwd hput)
    rw [wp_bind, wp_setProc, wp_modify]
    exact (hs2.trans (Shed.reparent hs2.inv p)).plain

/-! ## `open` and `chdir` -/

/-- A file that is for no inode becomes one that holds the inode `k`. -/
theorem KInv.openFile (h : KInv st leak s) (hf : (s.ftable f).type = .none)
    (hr : Ran st [k] s.fs t) {x : File} (hx : x.type = .inode k) (href : 0 < x.ref)
    (hvalid : (t.icache k).valid = true)
    (hdir : x.writable = true → (t.icache k).din.type ≠ T_DIR) :
    KInv st leak ((s.withFs t).withFile f x) := by
  refine h.next hr.inv hr.quiet ?_ (fun f' => ?_) (fun j hj _ => hr.slot j hj) (fun f' j hj => ?_) h.cwd
  · have hnone : (s.ftable f).holds = 0 := File.holds_of_ne (by rw [hf]; nofun)
    rw [withFile_users, withFile_fs, withFs_fs, withFs_users, withFs_ftable, hnone,
      File.holds_inode hx, hr.hold, h.hold, holds_ref, holds_nil]
    abel
  · by_cases hff : f' = f
    · rw [hff, withFile_self]
      exact ⟨href.le, fun h0 => absurd h0 href.ne'⟩
    · rw [withFile_of_ne _ _ hff]
      exact ⟨h.ref f', h.closed f'⟩
  · by_cases hff : f' = f
    · rw [hff, withFile_self] at hj ⊢
      obtain rfl : k = j := FdType.inode.inj (hx.symm.trans hj)
      exact .inr ⟨hvalid, hdir⟩
    · rw [withFile_of_ne _ _ hff] at hj ⊢
      exact .inl ⟨hj, rfl⟩

/-- `sys_open`: what it makes of a free entry of the file table. -/
def File.opened (ip : Slot) (omode : UInt32) (ref : ℤ) : File where
  type := .inode ip
  ref := ref
  readable := omode &&& O_WRONLY == 0
  writable := omode &&& O_WRONLY != 0 || omode &&& O_RDWR != 0
  off := 0

theorem opened_writable (ip : Slot) (ref : ℤ) : (File.opened ip O_RDONLY ref).writable = false := rfl

theorem Usual.anti {t t' : Fs} {H' : Slot → ℤ × ℤ} (h : Usual H t t') (hle : ∀ k, (H' k).1 ≤ (H k).1) :
    Usual H' t t' := by
  rcases h with h | ⟨i, m, hm, h⟩
  · exact .inl (h.anti hle)
  · exact .inr ⟨i, m, hm.anti hle, h.anti hle⟩

/-- An inode is opened. -/
theorem KInv.openPlain (h : KInv st leak s) (hf : (s.ftable f).type = .none)
    {ofile : Fin NOFILE → Option FileNo} (hr : Ran st [k] s.fs t) (hu : Usual s.fs.hold s.fs t)
    (hunlocked : t.unlocked = s.fs.unlocked) (hvalid : (t.icache k).valid = true) {omode : UInt32}
    (hmode : (t.icache k).din.type = T_DIR → omode = O_RDONLY) :
    Plain st leak s (((s.setFds p ofile).withFs t).withFile f (File.opened k omode 1)) := by
  have hinv := (h.setFds p ofile).openFile (f := f) (x := File.opened k omode 1) hf hr rfl one_pos hvalid
    fun hw hdir => by
      rw [hmode hdir, opened_writable] at hw
      nomatch hw
  refine ⟨⟨hinv, hr.sb, hr.logSize, hr.versions, fun f' j hj _ => ?_, fun j hj _ => hr.slot j hj⟩, hunlocked,
    hu.anti (common_le_left _ _)⟩
  by_cases hff : f' = f
  · rw [hff, withFile_self]
    exact .inr UInt32.zero_le
  · rw [withFile_of_ne _ _ hff] at hj ⊢
    exact .inl ⟨hj, rfl⟩

/-- The state in which `sys_open` has the inode: locked, in an operation. -/
structure Opening (st : Bool) (s : Kernel) (ip : Slot) (omode : UInt32) (t : Fs) : Prop where
  /-- The inode is held. -/
  held : ∃ m, At st none (s.fs.setOp 1 [] s.fs.ops) m [ip] [ip] t ∧
    (m = s.fs.setOp 1 [] s.fs.ops ∨ ∃ i, Making s.fs.hold i (s.fs.setOp 1 [] s.fs.ops) m)
  /-- A directory is opened for reading only. -/
  mode : (t.icache ip).din.type = T_DIR → omode = O_RDONLY

theorem withFile_withFile (s : Kernel) (f : FileNo) (x y : File) :
    (s.withFile f x).withFile f y = s.withFile f y := by
  unfold Kernel.withFile
  rw [Function.update_idem]

/-- A file that was allocated and dropped is as it was. -/
theorem withFile_drop {x : File} (htype : (s.ftable f).type = .none) (href : (s.ftable f).ref = 0)
    (hx : x = { s.ftable f with ref := x.ref }) : s.withFile f x.drop = s := by
  have hdrop : x.drop = s.ftable f := by
    rw [hx]
    unfold File.drop
    rw [← htype, ← href]
  rw [hdrop]
  unfold Kernel.withFile
  rw [Function.update_eq_self]

/-- A file that has just been allocated is closed again. -/
theorem wp_fileclose_new {Q : Unit → Kernel → Prop} (href : (s.ftable f).ref = 1)
    (htype : (s.ftable f).type = .none)
    (hok : Q () (s.withFile f (s.ftable f).drop)) : wp (fileclose f) Q E s := by
  unfold fileclose
  rw [wp_bind, wp_file, wp_ite, href]
  refine ⟨fun hlt => absurd hlt (by decide), fun _ => ?_⟩
  rw [wp_ite]
  refine ⟨fun hgt => absurd hgt (by decide), fun _ => ?_⟩
  rw [wp_bind, wp_setFile, htype]
  exact hok

theorem openFile_spec (h : KInv st leak s) {omode : UInt32} (ho : Opening st s ip omode t) :
    wp (openFile p ip omode) (fun _ s' => Plain st leak s s') (KHalts T) (s.withFs t) := by
  obtain ⟨m, hat, hm⟩ := ho.held
  have hlive := hat.live ip List.mem_cons_self
  unfold ChronoFS.openFile
  rw [wp_bind]
  refine wp_filealloc ?_ fun f href => ?_
  · rw [wp_fs]
    refine wp_mono (hat.putFail (T := T)) ?_ fun _ _ => id
    rintro _ t' ⟨-, hran, hord⟩
    exact h.plain hran (.of_made hm hord)
  · have htype : (s.ftable f).type = .none := h.closed f href
    dsimp only
    rw [wp_bind]
    refine wp_fdalloc ?_ fun fd ofile => ?_
    · -- no descriptor is free
      dsimp only
      rw [wp_bind]
      refine wp_fileclose_new (by rw [withFile_self]) (by rw [withFile_self]; exact htype) ?_
      rw [wp_fs]
      refine wp_mono (hat.putFail (T := T)) ?_ fun _ _ => id
      rintro _ t' ⟨-, hran, hord⟩
      show Plain st leak s (((s.withFs t').withFile f _).withFile f (File.drop _))
      rw [withFile_withFile, withFile_self, withFile_drop (s := s.withFs t') htype href rfl]
      exact h.plain hran (.of_made hm hord)
    · dsimp only
      rw [wp_bind, wp_fs]
      refine wp_mono (hat.iunlock (T := T)) ?_ fun _ _ => id
      rintro _ t1 ⟨h1, hpeek1⟩
      rw [wp_bind, wp_fs]
      refine h1.endOp fun hran hord => ?_
      rw [wp_bind, wp_setFile, wp_pure]
      have hplain : Plain st leak s (((s.setFds p ofile).withFs _).withFile f
          (File.opened ip omode 1)) := h.openPlain htype hran (.of_made hm hord)
        h1.calm.unlocked (hpeek1.calm.live hlive.1 hlive h1.pos).2 (fun hdir => ho.mode (hpeek1.calm.type hlive.1 hlive ▸ hdir))
      show Plain st leak s ((((s.setFds p ofile).withFs _).withFile f _).withFile f
        (File.opened ip omode (((s.withFs t).withFile f _).ftable f).ref))
      rw [withFile_self, withFile_withFile]
      exact hplain

theorem sysOpen_spec (h : KInv st leak s) (hT : total s.fs.hold + 2 ≤ T)
    (args : Option (List UInt8 × UInt32)) :
    wp (sysOpen p args) (fun _ s' => Plain st leak s s') (KHalts T) s := by
  rcases args with _ | ⟨path, omode⟩
  · exact (Shed.refl h).plain
  · obtain ⟨lg, hcore⟩ := h.inv
    have hat := At.begin hcore
    have hcwd : ∀ k, (s.proc p).cwd = some k → 0 < ((s.fs.setOp 1 [] s.fs.ops).icache k).ref :=
      fun k hk => h.cwd_pos hk
    unfold sysOpen
    rw [wp_bind, wp_proc, wp_bind, wp_fs]
    refine wp_beginOp h.quiet ?_
    rw [wp_ite]
    refine ⟨fun _ => ?_, fun _ => ?_⟩
    · rw [wp_bind, wp_fs, withFs_fs]
      refine wp_mono (create_spec (T := T) hat hcwd (by rw [hold_setOp]; simpa using hT) path T_FILE 0 0)
        ?_ fun _ _ => id
      intro r t1 hc
      obtain ⟨m, hm, h1⟩ := hc.held
      rcases r with _ | ip
      · dsimp only
        rw [wp_bind, wp_fs]
        refine h1.endOp fun hran hord => ?_
        rw [wp_pure]
        exact h.plain hran (.of_made hm hord)
      · refine openFile_spec h ⟨⟨m, h1, hm⟩, fun hdir => ?_⟩
        rw [hc.type ip rfl] at hdir
        exact absurd hdir (by decide)
    · rw [wp_bind, wp_fs, withFs_fs]
      refine wp_mono (hat.namei (T := T) hcwd (by rw [hold_setOp]; simp; omega) path) ?_ fun _ _ => id
      rintro r t1 ⟨h1, -, -, -⟩
      rcases r with _ | ip
      · dsimp only
        rw [wp_bind, wp_fs]
        refine h1.endOp fun hran hord => ?_
        rw [wp_pure]
        exact h.plain hran (.of_made (.inl rfl) hord)
      · have h1' : At st none (s.fs.setOp 1 [] s.fs.ops) (s.fs.setOp 1 [] s.fs.ops) [ip] [] t1 := h1
        dsimp only
        rw [wp_bind, wp_fs]
        refine wp_mono (h1'.ilock (T := T) h1'.pos) ?_ fun _ _ => id
        rintro _ t2 ⟨h2, -, -⟩
        rw [wp_bind, wp_fs, withFs_fs, withFs_withFs, wp_inode, wp_ite]
        refine ⟨fun _ => ?_, fun hmode => ?_⟩
        · rw [wp_fs]
          refine wp_mono (h2.putFail (T := T)) ?_ fun _ _ => id
          rintro _ t3 ⟨-, hran, hord⟩
          exact h.plain hran (.of_made (.inl rfl) hord)
        · exact openFile_spec h ⟨⟨_, h2, .inl rfl⟩, fun hdir => not_not.mp fun ho => hmode ⟨hdir, ho⟩⟩

/-- A process gives up its directory for another that it holds. -/
theorem KInv.chdir {c : Slot} (h : KInv st leak s) (hcwd : (s.proc p).cwd = some c)
    (hat : At st none (s.fs.setOp 1 [] s.fs.ops) (s.fs.setOp 1 [] s.fs.ops) [ip] [] t)
    (hput : Put st [] c t t') :
    Plain st leak s ((s.withFs (t'.setOp 0 [] (t'.lh :: t'.ops))).withProc p
      { s.proc p with cwd := some ip }) := by
  obtain ⟨lg, hcore⟩ := hput.core
  have hhold : t'.hold = s.fs.hold + aRef ip - aRef c := by
    rw [hput.hold, hat.hold, holds_ref, holds_nil, zero_add, hold_setOp]
  have hcalm := hat.calm
  have hsteady := hput.steady
  have hordinary := hput.ordinary
  rw [← hput.hold] at hsteady hordinary
  have hslot : ∀ j, 0 < (s.fs.hold j).1 → 0 < (t'.hold j).1 →
      SameSlot (s.fs.icache j) (t'.icache j) :=
    fun j hj hj' => (hcalm.slot j hj).trans (hsteady.slot j hj')
  have hinv : KInv st leak ((s.withFs (t'.setOp 0 [] (t'.lh :: t'.ops))).withProc p
      { s.proc p with cwd := some ip }) := by
    refine h.next ⟨lg, hcore.setOp ..⟩ ⟨rfl, rfl⟩ ?_ (fun f => ⟨h.ref f, h.closed f⟩) hslot
      (fun f j hf => .inl ⟨hf, rfl⟩) fun q hq => ?_
    · rw [withProc_users, withProc_fs, withFs_fs, withFs_users, withFs_proc, Proc.holds_some hcwd,
        Proc.holds_some (k := ip) rfl, hold_setOp, hhold, h.hold]
      abel
    · by_cases hqp : q = p
      · rw [hqp, withProc_self] at hq
        rw [h.cwd p hq] at hcwd
        nomatch hcwd
      · rw [withProc_of_ne _ _ hqp] at hq ⊢
        exact h.cwd q hq
  refine ⟨⟨hinv, hsteady.sb.trans hcalm.sb, hsteady.logSize.trans hcalm.logSize, ?_,
    .of_ftable rfl, hslot⟩, hsteady.unlocked.trans hcalm.unlocked, .inl ?_⟩
  · have := hcalm.versions
    rw [← hsteady.versions] at this
    exact this
  · have hord : Ordinary (s.fs.common t') s.fs t' :=
      (hat.since.of_setOp.anti (common_le_left s.fs t')).trans (hordinary.anti (common_le_right s.fs t'))
    exact ⟨hord.node, hord.size, hord.deleted⟩

theorem sysChdir_spec (h : KInv st leak s) (hT : total s.fs.hold + 2 ≤ T)
    (path : Option (List UInt8)) :
    wp (sysChdir p path) (fun _ s' => Plain st leak s s') (KHalts T) s := by
  obtain ⟨lg, hcore⟩ := h.inv
  have hat := At.begin hcore
  have hcwd : ∀ k, (s.proc p).cwd = some k → 0 < ((s.fs.setOp 1 [] s.fs.ops).icache k).ref :=
    fun k hk => h.cwd_pos hk
  unfold sysChdir
  rw [wp_bind, wp_proc, wp_bind, wp_fs]
  refine wp_beginOp h.quiet ?_
  rcases path with _ | path
  · dsimp only
    rw [wp_bind, wp_fs]
    refine hat.endOp fun hran hord => ?_
    exact h.plain hran (.of_made (.inl rfl) hord)
  · dsimp only
    rw [wp_bind, wp_fs, withFs_fs]
    refine wp_mono (hat.namei (T := T) hcwd (by rw [hold_setOp]; simp; omega) path) ?_ fun _ _ => id
    rintro r t1 ⟨h1, -, -, -⟩
    rcases r with _ | ip
    · dsimp only
      rw [wp_bind, wp_fs]
      refine h1.endOp fun hran hord => ?_
      exact h.plain hran (.of_made (.inl rfl) hord)
    · have h1' : At st none (s.fs.setOp 1 [] s.fs.ops) (s.fs.setOp 1 [] s.fs.ops) [ip] [] t1 := h1
      dsimp only
      rw [wp_bind, wp_fs]
      refine wp_mono (h1'.ilock (T := T) h1'.pos) ?_ fun _ _ => id
      rintro _ t2 ⟨h2, -, -⟩
      rw [wp_bind, wp_fs, withFs_fs, withFs_withFs, wp_inode, wp_ite]
      refine ⟨fun _ => ?_, fun _ => ?_⟩
      · rw [wp_fs]
        refine wp_mono (h2.putFail (T := T)) ?_ fun _ _ => id
        rintro _ t3 ⟨-, hran, hord⟩
        exact h.plain hran (.of_made (.inl rfl) hord)
      · rw [wp_bind, wp_fs]
        refine wp_mono (h2.iunlock (T := T)) ?_ fun _ _ => id
        rintro _ t3 ⟨h3, -⟩
        rw [wp_bind, wp_fs]
        cases hc : (s.proc p).cwd with
        | none => exact Halt.Benign.khalts ⟨by decide, by decide⟩
        | some c =>
          obtain ⟨lg3, hcore3⟩ := h3.core
          refine wp_mono (iput_spec (E := Halts T) hcore3 (h3.pos_of_base (hcwd c hc))
            fun _ _ he => he.halts) (fun _ t4 hput => ?_) fun _ _ => id
          rw [wp_bind, wp_fs]
          refine wp_endOp (hput.steady.outstanding.trans h3.calm.outstanding) ?_
          rw [wp_bind, wp_setProc, wp_pure]
          exact h.chdir hc h3 hput

end ChronoFS
