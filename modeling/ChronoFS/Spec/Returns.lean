import ChronoFS.Spec.Steps

/-!
# Calls that return

Between calls nothing is locked, and every reference is held by an open file, by a process, or by nobody
if it has leaked.

The specifications of the calls say what has happened if a call returns. Here a call is shown to return:
once `namei` has found an allocated inode at the path, `version_list` returns, and `version_restore`
returns if there are enough blocks for the version and the file system has one bitmap block, as `mkfs`
makes it.
-/

namespace ChronoFS

open Function

/-! ## Between calls -/

section Holders

variable {st : Bool} {leak : List Slot} {s : Kernel} {t : Fs}

/-- The places that hold the inode in slot `k`: open files, and current directories of processes. -/
def Kernel.holders (s : Kernel) (k : Slot) : ℕ :=
  (Finset.univ.filter fun f => 0 < (s.ftable f).ref ∧ (s.ftable f).type = .inode k).card +
    (Finset.univ.filter fun p => (s.proc p).cwd = some k).card

theorem File.holds_apply (x : File) (k : Slot) :
    x.holds k = if x.type = .inode k then (1, 0) else 0 := by
  cases hx : x.type with
  | inode j =>
    rw [File.holds_inode hx, aRef]
    by_cases hk : j = k
    · subst hk
      rw [Pi.single_eq_same, if_pos rfl]
    · rw [Pi.single_eq_of_ne (Ne.symm hk), if_neg fun heq => hk (FdType.inode.inj heq)]
  | pipe | none => rw [File.holds_of_ne (by rw [hx]; simp), if_neg (by simp), Pi.zero_apply]

theorem Proc.holds_apply (x : Proc) (k : Slot) :
    x.holds k = if x.cwd = some k then (1, 0) else 0 := by
  cases hx : x.cwd with
  | some j =>
    rw [Proc.holds_some hx, aRef]
    by_cases hk : j = k
    · subst hk
      rw [Pi.single_eq_same, if_pos rfl]
    · rw [Pi.single_eq_of_ne (Ne.symm hk), if_neg fun heq => hk (Option.some.inj heq)]
  | none => rw [Proc.holds_none hx, if_neg (by simp), Pi.zero_apply]

/-- Counting the places that hold something. -/
theorem sum_ite_card {ι : Type} [Fintype ι] (P : ι → Prop) [DecidablePred P] :
    ∑ i, (if P i then ((1, 0) : ℤ × ℤ) else 0) = (((Finset.univ.filter P).card : ℤ), 0) := by
  rw [Finset.sum_ite, Finset.sum_const_zero, add_zero, Finset.sum_const]
  simp

theorem KInv.users_eq (h : KInv st leak s) (k : Slot) : s.users k = ((s.holders k : ℤ), 0) := by
  -- an entry of the file table that is not in use is for no inode
  have hopen : ∀ f, (s.ftable f).type = .inode k ↔
      0 < (s.ftable f).ref ∧ (s.ftable f).type = .inode k := by
    intro f
    constructor
    · intro hf
      have hne : (s.ftable f).ref ≠ 0 := fun h0 => by
        rw [h.closed f h0] at hf
        nomatch hf
      exact ⟨lt_of_le_of_ne (h.ref f) hne.symm, hf⟩
    · exact fun hf => hf.2
  calc s.users k = ∑ f, (s.ftable f).holds k + ∑ p, (s.proc p).holds k := by
        unfold Kernel.users
        rw [Pi.add_apply, Finset.sum_apply, Finset.sum_apply]
    _ = ∑ f, (if 0 < (s.ftable f).ref ∧ (s.ftable f).type = .inode k then ((1, 0) : ℤ × ℤ) else 0) +
          ∑ p, (if (s.proc p).cwd = some k then ((1, 0) : ℤ × ℤ) else 0) := by
        simp only [File.holds_apply, Proc.holds_apply, ← hopen]
    _ = ((s.holders k : ℤ), 0) := by
        rw [sum_ite_card, sum_ite_card, Kernel.holders]
        simp

theorem holds_snd (refs : List Slot) (k : Slot) : (holds refs [] k).2 = 0 := by
  induction refs with
  | nil => rfl
  | cons j refs ih => rw [holds_ref, Pi.add_apply, Prod.snd_add, ih, aRef_snd, add_zero]

theorem not_locked_of_hold {k : Slot} (h : (t.hold k).2 = 0) : (t.icache k).locked = false := by
  have hbit : (t.icache k).lockBit = 0 := h
  unfold Inode.lockBit at hbit
  cases hl : (t.icache k).locked with
  | false => rfl
  | true =>
    rw [hl] at hbit
    exact absurd hbit (by decide)

theorem KInv.hold_snd (h : KInv st leak s) (k : Slot) : (s.fs.hold k).2 = 0 := by
  rw [h.hold, Pi.add_apply, Prod.snd_add, h.users_eq, holds_snd, add_zero]

/-- No inode is locked between system calls. -/
theorem KInv.not_locked (h : KInv st leak s) (hhold : t.hold = s.fs.hold) (k : Slot) :
    (t.icache k).locked = false := by
  refine not_locked_of_hold ?_
  rw [hhold]
  exact h.hold_snd k

end Holders

/-! ## Open files -/

/-- Descriptor `fd` of process `p` is open on the file `f`, which is for the inode in slot `k`; that is not
a device. -/
structure OpenAt (s : Kernel) (p : ProcNo) (fd : Fin NOFILE) (f : FileNo) (k : Slot) : Prop where
  /-- The descriptor is for the file. -/
  fd : (s.proc p).ofile fd = some f
  /-- The file is for the inode. -/
  type : (s.ftable f).type = .inode k
  /-- It is not a device. -/
  dev : (s.fs.icache k).din.type ≠ T_DEV

/-! ## Looking up a path -/

variable {st : Bool} {leak : List Slot} {s t : Fs} {p : ProcNo} {cwd : Option Slot}
  {path : List UInt8} {i : ℕ} {k : Slot} {E : Halt → Fs → Prop} {α : Type}

/-- `namei` finds the inode `i` at the path. It can only fail to do so for a path that has no inode, or
by a panic: a component's inode has no type, or the inode cache is full. -/
def Fs.Resolves (s : Fs) (cwd : Option Slot) (path : List UInt8) (i : ℕ) : Prop :=
  ∃ k t, (do beginOp; namei cwd path) s = .ok (some k) t ∧ (t.icache k).inum.toNat = i

theorem Fs.Resolves.of_wp (h : wp (do beginOp; namei cwd path) (fun r t => ∃ k, r = some k ∧
    (t.icache k).inum.toNat = i) (fun _ _ => False) s) : s.Resolves cwd path i := by
  obtain ⟨r, t, hrun, k, rfl, hk⟩ := h.returns
  exact ⟨k, t, hrun, hk⟩

section Resolves

variable (h : Inv st s) (hq : s.Quiet) (hcwd : ∀ k, cwd = some k → 0 < (s.icache k).ref)
  (hres : s.Resolves cwd path i)

include h hq hcwd hres

/-- What `namei` leaves. -/
theorem Fs.Resolves.found : ∃ k t, (do beginOp; namei cwd path) s = .ok (some k) t ∧
    (t.icache k).inum.toNat = i ∧ s.names cwd path = some i ∧ Idle t k ∧
    At st none (s.setOp 1 [] s.ops) (s.setOp 1 [] s.ops) [k] [] t ∧
    Peeked s.hold (s.setOp 1 [] s.ops) t := by
  obtain ⟨k, t, hrun, hinum⟩ := hres
  obtain ⟨lg, hcore⟩ := h
  have hspec : wp (do beginOp; namei cwd path) (fun r t =>
      At st none (s.setOp 1 [] s.ops) (s.setOp 1 [] s.ops) (r.toList ++ []) [] t ∧
        Peeked s.hold (s.setOp 1 [] s.ops) t ∧
        r.map (fun k => (t.icache k).inum.toNat) = s.names cwd path ∧ ∀ k, r = some k → Idle t k)
      (Halts (total s.hold + 1)) s := by
    rw [wp_bind]
    refine wp_beginOp hq ?_
    refine (At.begin hcore).namei hcwd ?_ path
    simp [hold_setOp]
  obtain ⟨hat, hpeek, hnames, hidle⟩ := hspec.ok hrun
  refine ⟨k, t, hrun, hinum, ?_, hidle k rfl, hat, hpeek⟩
  rw [← hnames, ← hinum]
  rfl

theorem Fs.Resolves.names : s.names cwd path = some i := by
  obtain ⟨k, t, -, -, hnames, -⟩ := hres.found h hq hcwd
  exact hnames

/-- A call that locks the inode it has found, which is allocated and not locked. -/
theorem Fs.Resolves.call {f : Option Slot → FsM α} {g : Slot → FsM α} {Q : α → Fs → Prop}
    (hfree : ∀ k, (s.hold k).2 = 0) (htype : (s.inodes i).type ≠ 0)
    (hf : ∀ k, f (some k) = do ilock k; g k)
    (hok : ∀ k t, Opened st i k s t → wp (g k) Q E t) :
    wp (do beginOp; let r ← namei cwd path; f r) Q E s := by
  obtain ⟨k, t, hrun, hinum, hnames, hidle, hat, hpeek⟩ := hres.found h hq hcwd
  have hassoc : wp (do beginOp; namei cwd path)
      (fun r t => wp (f r) Q E t) E s := by
    refine wp_of_ok hrun ?_
    rw [hf, wp_bind]
    have hres' : some (t.icache k).inum.toNat = s.names cwd path := by rw [hinum, hnames]
    refine At.opened hat hpeek hidle hres' (fun hl => ?_) (fun _ h0 => ?_) fun i' t' hi hopen => ?_
    · -- the call itself has no lock yet
      have hlock : (t.icache k).locked = false := by
        refine not_locked_of_hold ?_
        rw [hat.hold, Pi.add_apply, Prod.snd_add, holds_snd, add_zero]
        exact hfree k
      rw [hl] at hlock
      nomatch hlock
    · rw [hpeek.inodes, hinum] at h0
      exact absurd h0 htype
    · obtain rfl : i' = i := Option.some.inj (hi.symm.trans hnames)
      exact hok k t' hopen
  rw [wp_bind] at hassoc ⊢
  exact wp_mono hassoc (fun _ _ hw => by rw [wp_bind]; exact hw) fun _ _ => id

end Resolves

/-! ## Calls that work on versions -/

section Outcomes

variable {ks ks' : Kernel} {r : Reply} (h : KInv st leak ks)
  (hnames : ks.fs.names (ks.proc p).cwd path = some i)

include h hnames

/-- A `version_create` that returns has made a version. -/
theorem KInv.saved {desc : List UInt8}
    (hok : syscall p (.versionCreate (some (path, desc))) ks = .ok r ks') :
    r = .int 0 ∧ ∃ v, Saved i desc v ks.fs ks'.fs := by
  have hcwd : ∀ k, (ks.proc p).cwd = some k → 0 < (ks.fs.icache k).ref := fun k hk => h.cwd_pos hk
  have hwp : wp (syscall p (.versionCreate (some (path, desc))))
      (fun r s' => r = .int 0 ∧ ∃ v, Saved i desc v ks.fs s'.fs)
      (KHalts (total ks.fs.hold + 2)) ks := by
    unfold syscall
    rw [wp_bind, wp_proc]
    dsimp only
    rw [wp_bind, wp_fs]
    refine wp_mono (sysVersionCreate_spec h.inv h.quiet hcwd (le_refl _) _) ?_ fun _ _ => id
    rintro r t ⟨-, ⟨-, -, hnone⟩ | ⟨rfl, path', desc', i', v, heq, hi, hsaved⟩⟩
    · rw [hnone path desc rfl] at hnames
      nomatch hnames
    · obtain ⟨rfl, rfl⟩ := Prod.mk.inj (Option.some.inj heq)
      obtain rfl := Option.some.inj (hi.symm.trans hnames)
      exact ⟨rfl, v, hsaved⟩
  exact hwp.ok hok

/-- A `version_restore` that returns has restored the version with the number, if there is one. -/
theorem KInv.restoreOutcome {num : ℤ}
    (hok : syscall p (.versionRestore (some (path, num))) ks = .ok r ks') :
    ∃ x, r = .int x ∧ RestoreOutcome i num x ks.fs ks'.fs := by
  have hcwd : ∀ k, (ks.proc p).cwd = some k → 0 < (ks.fs.icache k).ref := fun k hk => h.cwd_pos hk
  have hwp : wp (syscall p (.versionRestore (some (path, num))))
      (fun r s' => ∃ x, r = .int x ∧ RestoreOutcome i num x ks.fs s'.fs)
      (KHalts (total ks.fs.hold + 2)) ks := by
    unfold syscall
    rw [wp_bind, wp_proc]
    dsimp only
    rw [wp_bind, wp_fs]
    refine wp_mono (sysVersionRestore_spec h.inv h.quiet hcwd (le_refl _) _) ?_ fun _ _ => id
    rintro r t ⟨-, ⟨-, -, hnone⟩ | ⟨path', num', i', heq, hi, hout⟩⟩
    · rw [hnone path num rfl] at hnames
      nomatch hnames
    · obtain ⟨rfl, rfl⟩ := Prod.mk.inj (Option.some.inj heq)
      obtain rfl := Option.some.inj (hi.symm.trans hnames)
      exact ⟨r, rfl, hout⟩
  exact hwp.ok hok

end Outcomes

section Calls

variable {ks : Kernel} (h : KInv st leak ks) (hres : ks.fs.Resolves (ks.proc p).cwd path i)
  (htype : (ks.fs.inodes i).type ≠ 0)

include h hres htype

/-- `version_list` returns the first entries of the chain. -/
theorem KInv.versionList {c : List Version}
    (hc : Chain ks.fs.versions (ks.fs.inodes i).versionHead c) (max : ℤ) :
    ∃ s', syscall p (.versionList (some (path, max))) ks =
        .ok (.versions (some ((c.take max.toNat).mapIdx fun j v => v.info j))) s' ∧
      Watched ks.fs s'.fs := by
  have hcwd : ∀ k, (ks.proc p).cwd = some k → 0 < (ks.fs.icache k).ref := fun k hk => h.cwd_pos hk
  have hwp : wp (syscall p (.versionList (some (path, max)))) (fun r s' =>
      r = .versions (some ((c.take max.toNat).mapIdx fun j v => v.info j)) ∧ Watched ks.fs s'.fs)
      (fun _ _ => False) ks := by
    unfold syscall
    rw [wp_bind, wp_proc]
    dsimp only
    rw [wp_bind, wp_fs]
    unfold sysVersionList
    refine hres.call h.inv h.quiet hcwd h.hold_snd htype (fun _ => rfl) fun k t hopen => ?_
    obtain ⟨lg, hcore⟩ := hopen.held.core
    have hchain : Chain t.versions (t.icache k).din.versionHead c := by
      rw [hopen.versions, hopen.din]
      exact hc
    rw [wp_bind]
    refine wp_versionList hcore hopen.audited hchain max ?_
    rw [wp_bind]
    refine hopen.held.wp_iunlockput_idle hopen.idle fun t' hat hpeek => ?_
    rw [wp_bind]
    refine hat.endOp fun _ _ => ⟨rfl, ?_⟩
    exact (hopen.peeked.trans (hpeek.anti hopen.held.sub_aRef_le)).watched
  obtain ⟨r, s', hrun, rfl, hw⟩ := hwp.returns
  exact ⟨s', hrun, hw⟩

/-- `version_restore` returns, unless there are too few blocks for the version. -/
theorem KInv.versionRestore {num : ℤ} (hlog : ks.fs.logSize = LOGSIZE) (hsize : ks.fs.sb.size ≤ BPB)
    (hroom : ¬ ks.fs.Scarce i num) :
    ∃ r s', syscall p (.versionRestore (some (path, num))) ks = .ok (.int r) s' ∧
      RestoreOutcome i num r ks.fs s'.fs := by
  have hcwd : ∀ k, (ks.proc p).cwd = some k → 0 < (ks.fs.icache k).ref := fun k hk => h.cwd_pos hk
  have hwp : wp (syscall p (.versionRestore (some (path, num)))) (fun r s' =>
      ∃ x, r = .int x ∧ RestoreOutcome i num x ks.fs s'.fs) (fun _ _ => False) ks := by
    unfold syscall
    rw [wp_bind, wp_proc]
    dsimp only
    rw [wp_bind, wp_fs]
    unfold sysVersionRestore
    refine hres.call h.inv h.quiet hcwd h.hold_snd htype (fun _ => rfl) fun k t hopen => ?_
    rw [wp_bind, wp_get, wp_bind, wp_inode]
    refine wp_mono (hopen.wp_restoreWalk num (fun hscarce => absurd hscarce hroom)
      fun hnot => absurd ⟨hlog, hsize⟩ hnot) (fun r t' hr => ⟨r, rfl, hr.2⟩) fun _ _ => id
  obtain ⟨_, s', hrun, r, rfl, hout⟩ := hwp.returns
  exact ⟨r, s', hrun, hout⟩

end Calls

end ChronoFS
