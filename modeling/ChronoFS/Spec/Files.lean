import ChronoFS.Spec.Recover

/-!
# Open files

A slot of the inode cache is held by the open files and by the current directories of the processes:
`Kernel.users` adds their references up. The invariant of the kernel, `KInv`, says that these are all the
references there are, but for those that leaked, that no lock is held, and that no operation is running.

`Plain` is what a system call does that makes no version, restores none, and deletes and recovers no file.
It also says how the offsets of open files move: an offset stays, or it is at most the size of the file
after the call.
-/

namespace ChronoFS

open Function

variable {st : Bool} {leak leak' : List Slot} {s s' s'' : Kernel} {t t' : Fs} {k : Slot} {f : FileNo}
  {p : ProcNo} {T : ℤ} {α : Type} {lg : ℕ → Dinode} {H : Slot → ℤ × ℤ}

/-! ## References of files and processes -/

/-- The reference of an open file. -/
def File.holds (f : File) : Slot → ℤ × ℤ :=
  match f.type with
  | .inode k => aRef k
  | .pipe | .none => 0

/-- The reference of a process to its current directory. -/
def Proc.holds (p : Proc) : Slot → ℤ × ℤ :=
  match p.cwd with
  | some k => aRef k
  | none => 0

/-- The references of all files and processes. -/
def Kernel.users (s : Kernel) : Slot → ℤ × ℤ := ∑ f, (s.ftable f).holds + ∑ p, (s.proc p).holds

/-- The kernel with another file system. -/
def Kernel.withFs (s : Kernel) (t : Fs) : Kernel := { s with fs := t }

/-- The kernel with another entry in the file table. -/
def Kernel.withFile (s : Kernel) (f : FileNo) (x : File) : Kernel :=
  { s with ftable := update s.ftable f x }

/-- The kernel with another process. -/
def Kernel.withProc (s : Kernel) (p : ProcNo) (x : Proc) : Kernel :=
  { s with proc := update s.proc p x }

@[simp] theorem withFs_fs (s : Kernel) (t : Fs) : (s.withFs t).fs = t := rfl
@[simp] theorem withFs_ftable (s : Kernel) (t : Fs) : (s.withFs t).ftable = s.ftable := rfl
@[simp] theorem withFs_proc (s : Kernel) (t : Fs) : (s.withFs t).proc = s.proc := rfl
@[simp] theorem withFs_withFs (s : Kernel) (t t' : Fs) : (s.withFs t).withFs t' = s.withFs t' := rfl
@[simp] theorem withFs_users (s : Kernel) (t : Fs) : (s.withFs t).users = s.users := rfl
@[simp] theorem withFile_fs (s : Kernel) (f : FileNo) (x : File) : (s.withFile f x).fs = s.fs := rfl
@[simp] theorem withProc_fs (s : Kernel) (p : ProcNo) (x : Proc) : (s.withProc p x).fs = s.fs := rfl
@[simp] theorem withFile_self (s : Kernel) (f : FileNo) (x : File) :
    (s.withFile f x).ftable f = x := update_self ..
@[simp] theorem withProc_self (s : Kernel) (p : ProcNo) (x : Proc) :
    (s.withProc p x).proc p = x := update_self ..

theorem withFile_of_ne (s : Kernel) {f f' : FileNo} (x : File) (h : f' ≠ f) :
    (s.withFile f x).ftable f' = s.ftable f' := update_of_ne h ..

theorem withProc_of_ne (s : Kernel) {p p' : ProcNo} (x : Proc) (h : p' ≠ p) :
    (s.withProc p x).proc p' = s.proc p' := update_of_ne h ..

/-- A sum in which one term is replaced. -/
theorem sum_update {ι β M : Type} [Fintype ι] [DecidableEq ι] [AddCommGroup M] (g : β → M) (a : ι → β)
    (i : ι) (b : β) : ∑ x, g (update a i b x) = ∑ x, g (a x) - g (a i) + g b := by
  have hcomp : (fun x => g (update a i b x)) = update (fun x => g (a x)) i (g b) := by
    funext x
    by_cases hx : x = i
    · rw [hx, update_self, update_self]
    · rw [update_of_ne hx, update_of_ne hx]
  rw [hcomp, Finset.sum_update_of_mem (Finset.mem_univ i),
    ← Finset.add_sum_erase Finset.univ (fun x => g (a x)) (Finset.mem_univ i), Finset.sdiff_singleton_eq_erase]
  abel

theorem withFile_users (s : Kernel) (f : FileNo) (x : File) :
    (s.withFile f x).users = s.users - (s.ftable f).holds + x.holds := by
  show ∑ f', (update s.ftable f x f').holds + ∑ p, (s.proc p).holds = _
  rw [sum_update File.holds]
  unfold Kernel.users
  abel

theorem withProc_users (s : Kernel) (p : ProcNo) (x : Proc) :
    (s.withProc p x).users = s.users - (s.proc p).holds + x.holds := by
  show ∑ f, (s.ftable f).holds + ∑ p', (update s.proc p x p').holds = _
  rw [sum_update Proc.holds]
  unfold Kernel.users
  abel

theorem File.holds_inode {x : File} (h : x.type = .inode k) : x.holds = aRef k := by
  unfold File.holds
  rw [h]

theorem File.holds_of_ne {x : File} (h : ∀ k, x.type ≠ .inode k) : x.holds = 0 := by
  unfold File.holds
  split
  · rename_i k hk
    exact absurd hk (h k)
  · rfl
  · rfl

theorem Proc.holds_some {x : Proc} (h : x.cwd = some k) : x.holds = aRef k := by
  unfold Proc.holds
  rw [h]

theorem Proc.holds_none {x : Proc} (h : x.cwd = none) : x.holds = 0 := by
  unfold Proc.holds
  rw [h]

theorem File.holds_nonneg (x : File) (k : Slot) : 0 ≤ (x.holds k).1 := by
  cases hx : x.type with
  | inode j =>
    rw [File.holds_inode hx]
    exact aRef_nonneg ..
  | pipe | none =>
    rw [File.holds_of_ne (by rw [hx]; nofun)]
    exact le_refl _

theorem Proc.holds_nonneg (x : Proc) (k : Slot) : 0 ≤ (x.holds k).1 := by
  cases hx : x.cwd with
  | some j =>
    rw [Proc.holds_some hx]
    exact aRef_nonneg ..
  | none =>
    rw [Proc.holds_none hx]
    exact le_refl _

/-- A file's reference is one of all. -/
theorem Kernel.file_le_users (s : Kernel) (f : FileNo) (k : Slot) :
    ((s.ftable f).holds k).1 ≤ (s.users k).1 := by
  unfold Kernel.users
  rw [Pi.add_apply, Prod.fst_add, Finset.sum_apply, Finset.sum_apply, Prod.fst_sum, Prod.fst_sum]
  have h1 := Finset.single_le_sum (f := fun f' => ((s.ftable f').holds k).1)
    (fun f' _ => File.holds_nonneg _ _) (Finset.mem_univ f)
  have h2 : 0 ≤ ∑ p, ((s.proc p).holds k).1 := Finset.sum_nonneg fun p _ => Proc.holds_nonneg _ _
  omega

/-- So is a process's reference to its current directory. -/
theorem Kernel.proc_le_users (s : Kernel) (p : ProcNo) (k : Slot) :
    ((s.proc p).holds k).1 ≤ (s.users k).1 := by
  unfold Kernel.users
  rw [Pi.add_apply, Prod.fst_add, Finset.sum_apply, Finset.sum_apply, Prod.fst_sum, Prod.fst_sum]
  have h1 := Finset.single_le_sum (f := fun p' => ((s.proc p').holds k).1)
    (fun p' _ => Proc.holds_nonneg _ _) (Finset.mem_univ p)
  have h2 : 0 ≤ ∑ f, ((s.ftable f).holds k).1 := Finset.sum_nonneg fun f _ => File.holds_nonneg _ _
  omega

/-! ## The invariant -/

/-- What holds of the kernel between system calls; `leak` are the references that nobody gives back. -/
structure KInv (st : Bool) (leak : List Slot) (s : Kernel) : Prop where
  /-- The file system is well formed. -/
  inv : Inv st s.fs
  /-- No operation is running. -/
  quiet : s.fs.Quiet
  /-- The references are those of the files and processes, and there are no locks. -/
  hold : s.fs.hold = s.users + holds leak []
  /-- Reference counts of files are not negative. -/
  ref : ∀ f, 0 ≤ (s.ftable f).ref
  /-- A file that is not in use is for nothing. -/
  closed : ∀ f, (s.ftable f).ref = 0 → (s.ftable f).type = .none
  /-- The inode of an open file is loaded, and a directory is not open for writing. -/
  opened : ∀ f k, (s.ftable f).type = .inode k → (s.fs.icache k).valid = true ∧
    ((s.ftable f).writable = true → (s.fs.icache k).din.type ≠ T_DIR)
  /-- A process that does not exist has no current directory. -/
  cwd : ∀ p, (s.proc p).state ≠ .runnable → (s.proc p).cwd = none

namespace KInv

theorem users_le (h : KInv st leak s) (k : Slot) : (s.users k).1 ≤ (s.fs.hold k).1 := by
  have := (holds_nonneg leak [] k).1
  rw [h.hold, Pi.add_apply, Prod.fst_add]
  omega

/-- An open file holds its inode. -/
theorem file_pos (h : KInv st leak s) (hf : (s.ftable f).type = .inode k) :
    0 < (s.fs.icache k).ref := by
  have h1 := s.file_le_users f k
  have h2 := h.users_le k
  rw [File.holds_inode hf, aRef_self] at h1
  exact lt_of_lt_of_le zero_lt_one (h1.trans h2)

/-- A process holds its current directory. -/
theorem cwd_pos (h : KInv st leak s) (hp : (s.proc p).cwd = some k) : 0 < (s.fs.icache k).ref := by
  have h1 := s.proc_le_users p k
  have h2 := h.users_le k
  rw [Proc.holds_some hp, aRef_self] at h1
  exact lt_of_lt_of_le zero_lt_one (h1.trans h2)

theorem live (h : KInv st leak s) (hf : (s.ftable f).type = .inode k) : (s.fs.icache k).Live :=
  ⟨h.file_pos hf, (h.opened f k hf).1⟩

end KInv

/-! ## What a call does -/

/-- The slots that are held before and after. -/
def Fs.common (t t' : Fs) : Slot → ℤ × ℤ := fun k => (min (t.hold k).1 (t'.hold k).1, 0)

/-- The offset of an open file stays, or it is within the file. -/
def Offs (s s' : Kernel) : Prop :=
  ∀ f k, (s'.ftable f).type = .inode k → (s'.fs.icache k).din.type ≠ T_DEV →
    (s.ftable f).type = .inode k ∧ (s'.ftable f).off = (s.ftable f).off ∨
      (s'.ftable f).off ≤ (s'.fs.icache k).din.size

/-- What a call leaves. -/
structure Done (st : Bool) (leak : List Slot) (s s' : Kernel) : Prop where
  /-- The invariant holds. -/
  inv : KInv st leak s'
  /-- The super block is the same. -/
  sb : s'.fs.sb = s.fs.sb
  /-- So is the size of the log. -/
  logSize : s'.fs.logSize = s.fs.logSize
  /-- Versions are only added. -/
  versions : s.fs.versions <+: s'.fs.versions
  /-- The offsets move as they should. -/
  offs : Offs s s'
  /-- The slots that stay in use are for the same inodes. -/
  slot : ∀ k, 0 < (s.fs.hold k).1 → 0 < (s'.fs.hold k).1 → SameSlot (s.fs.icache k) (s'.fs.icache k)

/-- What a call leaves that does nothing special to inodes. -/
structure Plain (st : Bool) (leak : List Slot) (s s' : Kernel) : Prop extends Done st leak s s' where
  /-- No use of an inode without its lock is noted. -/
  unlocked : s'.fs.unlocked = s.fs.unlocked
  /-- It makes at most one inode. -/
  usual : Usual (s.fs.common s'.fs) s.fs s'.fs

theorem common_le_left (t t' : Fs) (k : Slot) : (t.common t' k).1 ≤ (t.hold k).1 := min_le_left ..

theorem common_le_right (t t' : Fs) (k : Slot) : (t.common t' k).1 ≤ (t'.hold k).1 := min_le_right ..

theorem Offs.of_ftable (h : s'.ftable = s.ftable) : Offs s s' := by
  intro f k hf _
  rw [h] at hf ⊢
  exact .inl ⟨hf, rfl⟩

/-- A program of the file system. -/
theorem wp_fs {m : FsM α} {Q : α → Kernel → Prop} {E : Halt → Kernel → Prop} :
    wp (liftM m : KM α) Q E s ↔
      wp m (fun a t => Q a (s.withFs t)) (fun e t => E e (s.withFs t)) s.fs := wp_zoom

theorem wp_file {Q : File → Kernel → Prop} {E : Halt → Kernel → Prop} :
    wp (file f) Q E s ↔ Q (s.ftable f) s := Iff.rfl

theorem wp_proc {Q : Proc → Kernel → Prop} {E : Halt → Kernel → Prop} :
    wp (proc p) Q E s ↔ Q (s.proc p) s := Iff.rfl

theorem wp_setFile {Q : Unit → Kernel → Prop} {E : Halt → Kernel → Prop} {g : File → File} :
    wp (setFile f g) Q E s ↔ Q () (s.withFile f (g (s.ftable f))) := Iff.rfl

theorem wp_setProc {Q : Unit → Kernel → Prop} {E : Halt → Kernel → Prop} {g : Proc → Proc} :
    wp (setProc p g) Q E s ↔ Q () (s.withProc p (g (s.proc p))) := Iff.rfl

/-- The file system's part of a call that gives back what it takes, but for the references `leak'`. -/
theorem KInv.ran (h : KInv st leak s) (hr : Ran st leak' s.fs t) :
    KInv st (leak' ++ leak) (s.withFs t) where
  inv := hr.inv
  quiet := hr.quiet
  hold := by
    rw [withFs_fs, withFs_users, hr.hold, h.hold]
    have happ : holds (leak' ++ leak) [] = holds leak [] + holds leak' [] := by
      unfold holds
      rw [List.map_append, List.sum_append]
      simp only [List.map_nil, List.sum_nil, add_zero]
      exact add_comm ..
    rw [happ, add_assoc]
  ref := h.ref
  closed := h.closed
  opened := by
    intro f k hf
    have hlive := h.live (f := f) hf
    obtain ⟨hvalid, htype⟩ := (hr.slot k hlive.1).type hlive.2
    refine ⟨hvalid, fun hw => ?_⟩
    rw [withFs_fs, htype]
    exact (h.opened f k hf).2 hw
  cwd := h.cwd

theorem KInv.done (h : KInv st leak s) (hr : Ran st leak' s.fs t) :
    Done st (leak' ++ leak) s (s.withFs t) :=
  ⟨h.ran hr, hr.sb, hr.logSize, hr.versions, .of_ftable rfl, fun k hk _ => hr.slot k hk⟩

theorem KInv.plain (h : KInv st leak s) (hr : Ran st [] s.fs t) (hu : Usual s.fs.hold s.fs t) :
    Plain st leak s (s.withFs t) :=
  { h.done hr with
    unlocked := hr.unlocked rfl
    usual := by
      rcases hu with hord | ⟨i, m, hmaking, hord⟩
      · exact .inl (hord.anti (common_le_left _ _))
      · exact .inr ⟨i, m, hmaking.anti (common_le_left _ _), hord.anti (common_le_left _ _)⟩ }

/-- The invariant after a step: files that were open before are for inodes that stay loaded. -/
theorem KInv.next (h : KInv st leak s) (hinv : Inv st s'.fs) (hquiet : s'.fs.Quiet)
    (hhold : s'.fs.hold = s'.users + holds leak' [])
    (hfile : ∀ f, 0 ≤ (s'.ftable f).ref ∧ ((s'.ftable f).ref = 0 → (s'.ftable f).type = .none))
    (hslot : ∀ k, 0 < (s.fs.hold k).1 → 0 < (s'.fs.hold k).1 →
      SameSlot (s.fs.icache k) (s'.fs.icache k))
    (hopened : ∀ f k, (s'.ftable f).type = .inode k →
      (s.ftable f).type = .inode k ∧ (s'.ftable f).writable = (s.ftable f).writable ∨
        (s'.fs.icache k).valid = true ∧
          ((s'.ftable f).writable = true → (s'.fs.icache k).din.type ≠ T_DIR))
    (hcwd : ∀ p, (s'.proc p).state ≠ .runnable → (s'.proc p).cwd = none) : KInv st leak' s' where
  inv := hinv
  quiet := hquiet
  hold := hhold
  ref := fun f => (hfile f).1
  closed := fun f => (hfile f).2
  opened := by
    intro f k hf
    rcases hopened f k hf with ⟨hbefore, hw⟩ | hnew
    · have hlive := h.live hbefore
      have hpos : 0 < (s'.fs.hold k).1 := by
        have h1 := s'.file_le_users f k
        have h2 := (holds_nonneg leak' [] k).1
        rw [File.holds_inode hf, aRef_self] at h1
        rw [hhold, Pi.add_apply, Prod.fst_add]
        omega
      obtain ⟨hvalid, htype⟩ := (hslot k hlive.1 hpos).type hlive.2
      refine ⟨hvalid, fun hwr => ?_⟩
      rw [htype]
      exact (h.opened f k hbefore).2 (hw ▸ hwr)
    · exact hnew
  cwd := hcwd

/-- Halting leaves the file system as the file system's functions do. -/
def KHalts (T : ℤ) (e : Halt) (s : Kernel) : Prop := Halts T e s.fs

theorem Halt.Benign.khalts {e : Halt} (h : e.Benign) : KHalts T e s := h.halts

/-! ## `file.c` -/

/-- The entry after `fileclose` gave up the last reference. -/
def File.drop (x : File) : File := { x with ref := 0, type := .none }

/-- Only the reference count of a file in use changes. -/
theorem KInv.setRef (h : KInv st leak s) {n : ℤ} (hn : 0 < n) :
    KInv st leak (s.withFile f { s.ftable f with ref := n }) := by
  have htype : ∀ f', ((s.withFile f { s.ftable f with ref := n }).ftable f').type =
      (s.ftable f').type ∧ ((s.withFile f { s.ftable f with ref := n }).ftable f').writable =
      (s.ftable f').writable := by
    intro f'
    by_cases hf : f' = f
    · rw [hf, withFile_self]
      exact ⟨rfl, rfl⟩
    · rw [withFile_of_ne _ _ hf]
      exact ⟨rfl, rfl⟩
  refine h.next h.inv h.quiet ?_ (fun f' => ?_) (fun _ _ _ => .refl _) (fun f' k hf => ?_) h.cwd
  · rw [withFile_fs, withFile_users]
    have : File.holds { s.ftable f with ref := n } = (s.ftable f).holds := rfl
    rw [this, sub_add_cancel]
    exact h.hold
  · by_cases hf : f' = f
    · rw [hf, withFile_self]
      exact ⟨le_of_lt hn, fun hz => absurd hz (ne_of_gt hn)⟩
    · rw [withFile_of_ne _ _ hf]
      exact ⟨h.ref f', h.closed f'⟩
  · rw [(htype f').1] at hf
    exact .inl ⟨hf, (htype f').2⟩

/-- A reference is dropped in an operation of its own. -/
structure PutOp (st : Bool) (k : Slot) (t t' : Fs) : Prop where
  /-- The invariant holds. -/
  inv : Inv st t'
  /-- No operation is running. -/
  quiet : t'.Quiet
  /-- There is one reference less. -/
  hold : t'.hold = t.hold - aRef k
  /-- The slots that are in use are for the same inodes. -/
  slot : ∀ j, 0 < (t'.hold j).1 → SameSlot (t.icache j) (t'.icache j)
  /-- Nothing out of the ordinary happens. -/
  ordinary : Ordinary t'.hold t t'
  /-- The rest is the same. -/
  rest : t'.sb = t.sb ∧ t'.logSize = t.logSize ∧ t'.versions = t.versions ∧ t'.unlocked = t.unlocked

theorem wp_putOp {Q : Unit → Fs → Prop} (h : Inv st t) (hq : t.Quiet) (hk : 0 < (t.icache k).ref)
    (hok : ∀ t', PutOp st k t t' → Q () t') :
    wp (do beginOp; iput k; endOp) Q (Halts T) t := by
  obtain ⟨lg, hcore⟩ := h
  rw [wp_bind]
  refine wp_beginOp hq ?_
  refine wp_of_spec (iput_spec (hcore.setOp 1 [] t.ops) hk fun _ _ he => he.halts)
    (fun _ _ => id) fun _ t1 hput => ?_
  obtain ⟨lg1, hcore1⟩ := hput.core
  refine wp_endOp hput.steady.outstanding (hok _ ⟨⟨lg1, hcore1.setOp ..⟩, ⟨rfl, rfl⟩, hput.hold,
    fun j hj => ?_, ?_, hput.steady.sb, hput.steady.logSize, hput.steady.versions,
    hput.steady.unlocked⟩)
  · rw [hold_setOp, hput.hold] at hj
    exact hput.steady.slot j hj
  · rw [hold_setOp, hput.hold]
    exact ⟨hput.ordinary.node, hput.ordinary.size, hput.ordinary.deleted⟩

/-- What closing a file does to the file table. -/
structure Closed (st : Bool) (leak : List Slot) (f : FileNo) (s s' : Kernel) : Prop where
  /-- The invariant holds. -/
  inv : KInv st leak s'
  /-- The processes are the same. -/
  proc : s'.proc = s.proc
  /-- The other files are the same. -/
  other : ∀ f', f' ≠ f → s'.ftable f' = s.ftable f'
  /-- The file is closed, or it has one reference less. -/
  self : (s'.ftable f).type = .none ∨ (s'.ftable f).type = (s.ftable f).type ∧
    (s'.ftable f).off = (s.ftable f).off
  /-- References are only given up. -/
  le : ∀ k, (s'.fs.hold k).1 ≤ (s.fs.hold k).1
  /-- The slots that stay in use are for the same inodes. -/
  slot : ∀ k, 0 < (s'.fs.hold k).1 → SameSlot (s.fs.icache k) (s'.fs.icache k)
  /-- Nothing out of the ordinary happens. -/
  ordinary : Ordinary s'.fs.hold s.fs s'.fs
  /-- The rest is the same. -/
  rest : s'.fs.sb = s.fs.sb ∧ s'.fs.logSize = s.fs.logSize ∧ s'.fs.versions = s.fs.versions ∧
    s'.fs.unlocked = s.fs.unlocked

/-- A file that is for no inode may be dropped. -/
theorem KInv.drop (h : KInv st leak s) (hf : ∀ k, (s.ftable f).type ≠ .inode k) :
    KInv st leak (s.withFile f (s.ftable f).drop) := by
  refine h.next h.inv h.quiet ?_ (fun f' => ?_) (fun _ _ _ => .refl _) (fun f' k hk => ?_) h.cwd
  · rw [withFile_fs, withFile_users, File.holds_of_ne hf, sub_zero,
      File.holds_of_ne (x := (s.ftable f).drop) (by nofun), add_zero]
    exact h.hold
  · by_cases hff : f' = f
    · rw [hff, withFile_self]
      exact ⟨le_refl _, fun _ => rfl⟩
    · rw [withFile_of_ne _ _ hff]
      exact ⟨h.ref f', h.closed f'⟩
  · by_cases hff : f' = f
    · rw [hff, withFile_self] at hk
      cases hk
    · rw [withFile_of_ne _ _ hff] at hk ⊢
      exact .inl ⟨hk, rfl⟩

theorem KInv.dropInode (h : KInv st leak s) (hf : (s.ftable f).type = .inode k)
    (hput : PutOp st k s.fs t) : Closed st leak f s ((s.withFile f (s.ftable f).drop).withFs t) := by
  have hle : ∀ j, (t.hold j).1 ≤ (s.fs.hold j).1 := by
    intro j
    have := aRef_nonneg k j
    rw [hput.hold, Pi.sub_apply, Prod.fst_sub]
    omega
  refine ⟨h.next hput.inv hput.quiet ?_ (fun f' => ?_) (fun j _ hj => hput.slot j hj)
    (fun f' j hj => ?_) h.cwd, rfl, fun f' hff => withFile_of_ne _ _ hff, .inl ?_, hle, hput.slot,
    hput.ordinary, hput.rest⟩
  · rw [withFs_fs, withFs_users, withFile_users, hput.hold, h.hold, File.holds_inode hf,
      File.holds_of_ne (x := (s.ftable f).drop) (by nofun)]
    abel
  · rw [withFs_ftable]
    by_cases hff : f' = f
    · rw [hff, withFile_self]
      exact ⟨le_refl _, fun _ => rfl⟩
    · rw [withFile_of_ne _ _ hff]
      exact ⟨h.ref f', h.closed f'⟩
  · rw [withFs_ftable] at hj ⊢
    by_cases hff : f' = f
    · rw [hff, withFile_self] at hj
      cases hj
    · rw [withFile_of_ne _ _ hff] at hj ⊢
      exact .inl ⟨hj, rfl⟩
  · rw [withFs_ftable, withFile_self]
    rfl

theorem fileclose_spec (h : KInv st leak s) :
    wp (fileclose f) (fun _ s' => Closed st leak f s s') (KHalts T) s := by
  unfold fileclose
  rw [wp_bind, wp_file, wp_ite]
  refine ⟨fun _ => Halt.Benign.khalts ⟨by decide, by decide⟩, fun hge => ?_⟩
  rw [wp_ite]
  refine ⟨fun hmore => ?_, fun _ => ?_⟩
  · -- another descriptor has the file
    rw [wp_setFile]
    exact ⟨h.setRef hmore, rfl, fun f' hff => withFile_of_ne _ _ hff, .inr (by simp),
      fun _ => le_refl _, fun _ _ => .refl _, .refl _ _, rfl, rfl, rfl, rfl⟩
  · rw [wp_bind, wp_setFile]
    change wp _ _ _ (s.withFile f (s.ftable f).drop)
    cases hf : (s.ftable f).type with
    | inode k =>
      have hop := wp_putOp (T := T) (Q := fun _ t => Closed st leak f s
        ((s.withFile f (s.ftable f).drop).withFs t)) h.inv h.quiet (h.file_pos hf)
        fun t hput => h.dropInode hf hput
      dsimp only
      rw [wp_bind, wp_fs]
      refine wp_mono (wp_bind.mp hop) (fun _ t ht => ?_) fun _ _ => id
      rw [wp_bind, wp_fs]
      refine wp_mono (wp_bind.mp ht) (fun _ t' ht' => ?_) fun _ _ => id
      rw [wp_fs]
      exact ht'
    | pipe | none =>
      exact ⟨h.drop (by rw [hf]; nofun), rfl, fun f' hff => withFile_of_ne _ _ hff, .inl (by simp [File.drop]),
        fun _ => le_refl _, fun _ _ => .refl _, .refl _ _, rfl, rfl, rfl, rfl⟩

/-! ## Reading outside of an operation

`fileread` begins no operation. A `readi` that gets to `log_write` there halts, so that one that returns
has logged nothing (`unlogged_readi`). If the file has no holes, it does not get there. -/

/-- A relation that says nothing of the inode cache and of input. -/
structure Blind (R : Fs → Fs → Prop) : Prop where
  /-- Nothing may happen. -/
  refl : ∀ t, R t t
  /-- One thing may happen after another. -/
  trans : ∀ t t' t'', R t t' → R t' t'' → R t t''
  /-- Inodes may be locked, unlocked and loaded. -/
  icache : ∀ t icache, R t { t with icache }
  /-- The history of locks may change. -/
  unlocked : ∀ t, R t { t with unlocked := true }
  /-- Input may be consumed. -/
  io : ∀ t io, R t { t with io }

namespace Blind

variable {R : Fs → Fs → Prop} {E : Halt → Prop} (hR : Blind R)

include hR

theorem get : Keeps R E (get : FsM Fs) := hR.refl

theorem inode (k : Slot) : Keeps R E (inode k) := hR.refl

theorem bread (b : ℕ) : Keeps R E (bread b) := hR.refl

theorem uses (k : Slot) : Keeps R E (uses k) := by
  intro t
  show R t (t.use k)
  unfold Fs.use
  split
  · exact hR.refl t
  · exact hR.unlocked t

theorem setInode (k : Slot) (g : Inode → Inode) : Keeps R E (setInode k g) := fun t => hR.icache t _

theorem setDin (k : Slot) (g : Dinode → Dinode) : Keeps R E (setDin k g) :=
  keeps_bind hR.trans (hR.uses k) fun _ => hR.setInode k _

theorem ilock (hE : ∀ e, ¬ e.Log → E e) (k : Slot) : Keeps R E (ilock k) := by
  unfold ChronoFS.ilock acquiresleep
  refine keeps_bind hR.trans (hR.inode k) fun ip => keeps_ite (keeps_throw (hE _ (by decide))) ?_
  refine keeps_bind hR.trans (keeps_bind hR.trans (hR.inode k) fun _ =>
    keeps_ite (keeps_throw (hE _ (by decide))) (hR.setInode k _)) fun _ => ?_
  refine keeps_bind hR.trans hR.get fun _ => keeps_bind hR.trans (hR.inode k) fun _ =>
    keeps_ite (keeps_pure hR.refl _) ?_
  exact keeps_bind hR.trans (hR.setInode k _) fun _ =>
    keeps_ite (keeps_throw (hE _ (by decide))) (keeps_pure hR.refl _)

theorem iunlock (hE : ∀ e, ¬ e.Log → E e) (k : Slot) : Keeps R E (iunlock k) := by
  unfold ChronoFS.iunlock releasesleep
  exact keeps_bind hR.trans (hR.inode k) fun _ =>
    keeps_ite (keeps_throw (hE _ (by decide))) (hR.setInode k _)

theorem consoleread (hE : ∀ e, ¬ e.Log → E e) (k : Slot) (n : ℕ) : Keeps R E (consoleread k n) := by
  unfold ChronoFS.consoleread
  refine keeps_bind hR.trans (hR.iunlock hE k) fun _ => keeps_bind hR.trans hR.get fun t => ?_
  split
  · exact keeps_throw (hE _ (by decide))
  · exact keeps_bind hR.trans (fun t => hR.io t _) fun _ =>
      keeps_bind hR.trans (hR.ilock hE k) fun _ => keeps_pure hR.refl _

end Blind

/-- Outside of an operation, nothing is logged. -/
def Unlogged (t t' : Fs) : Prop := t.outstanding = 0 → t'.outstanding = 0 ∧ t'.lh = t.lh

theorem unlogged_blind : Blind Unlogged where
  refl := fun _ ht => ⟨ht, rfl⟩
  trans := fun _ _ _ h h' ht => ⟨(h' (h ht).1).1, (h' (h ht).1).2.trans (h ht).2⟩
  icache := fun _ _ ht => ⟨ht, rfl⟩
  unlocked := fun _ ht => ⟨ht, rfl⟩
  io := fun _ _ ht => ⟨ht, rfl⟩

section Unlogged

/-- `log_write` halts outside of an operation. -/
theorem unlogged_logWrite (b : ℕ) (d : Block) : Keeps Unlogged (fun _ => True) (logWrite b d) := by
  intro t
  unfold logWrite
  rw [wp_bind, wp_modify, wp_bind, wp_get, wp_ite]
  refine ⟨fun _ => trivial, fun _ => ?_⟩
  rw [wp_ite]
  refine ⟨fun _ => trivial, fun hlt ht => absurd ?_ hlt⟩
  show t.outstanding < 1
  omega

theorem unlogged_balloc : Keeps Unlogged (fun _ => True) balloc := by
  have hR := unlogged_blind
  unfold balloc
  refine keeps_bind hR.trans hR.get fun t => ?_
  split
  · exact keeps_throw trivial
  · exact keeps_bind hR.trans (unlogged_logWrite _ _) fun _ =>
      keeps_bind hR.trans (unlogged_logWrite _ _) fun _ => keeps_pure hR.refl _

theorem unlogged_indirectBlock (k : Slot) : Keeps Unlogged (fun _ => True) (indirectBlock k) := by
  have hR := unlogged_blind
  unfold indirectBlock
  refine keeps_bind hR.trans (hR.inode k) fun ip => keeps_ite ?_ (keeps_pure hR.refl _)
  exact keeps_bind hR.trans unlogged_balloc fun _ =>
    keeps_bind hR.trans (hR.setDin k _) fun _ => keeps_pure hR.refl _

theorem unlogged_bmap (k : Slot) (bn : ℕ) : Keeps Unlogged (fun _ => True) (bmap k bn) := by
  have hR := unlogged_blind
  unfold bmap
  split
  · refine keeps_bind hR.trans (hR.inode k) fun ip => keeps_ite ?_ (keeps_pure hR.refl _)
    exact keeps_bind hR.trans unlogged_balloc fun _ =>
      keeps_bind hR.trans (hR.setDin k _) fun _ => keeps_pure hR.refl _
  · refine keeps_ite ?_ (keeps_throw trivial)
    refine keeps_bind hR.trans (unlogged_indirectBlock k) fun ind =>
      keeps_bind hR.trans (hR.bread _) fun bp => keeps_ite ?_ (keeps_pure hR.refl _)
    exact keeps_bind hR.trans unlogged_balloc fun _ =>
      keeps_bind hR.trans (unlogged_logWrite _ _) fun _ => keeps_pure hR.refl _

theorem unlogged_readChunks (k : Slot) (cs : List Chunk) :
    Keeps Unlogged (fun _ => True) (readChunks k cs) := by
  have hR := unlogged_blind
  induction cs with
  | nil => exact keeps_pure hR.refl _
  | cons c cs ih =>
    exact keeps_bind hR.trans (unlogged_bmap k _) fun _ => keeps_bind hR.trans (hR.bread _) fun _ =>
      keeps_bind hR.trans ih fun _ => keeps_pure hR.refl _

theorem unlogged_readi (k : Slot) (off n : UInt32) :
    Keeps Unlogged (fun _ => True) (readi k off n) := by
  have hR := unlogged_blind
  unfold readi
  refine keeps_bind hR.trans (hR.uses k) fun _ => keeps_bind hR.trans (hR.inode k) fun ip => ?_
  refine keeps_ite (keeps_ite (keeps_pure hR.refl _) (hR.consoleread (fun _ _ => trivial) k _)) ?_
  exact keeps_ite (keeps_pure hR.refl _)
    (keeps_bind hR.trans (unlogged_readChunks k _) fun _ => keeps_pure hR.refl _)

end Unlogged

/-- The pieces of a byte range add up to it. -/
theorem sum_chunksUpTo {bound off n : ℕ} (h : n ≤ bound) :
    ((chunksUpTo bound off n).map Chunk.len).sum = n := by
  induction bound generalizing off n with
  | zero =>
    obtain rfl : n = 0 := Nat.le_zero.mp h
    rfl
  | succ bound ih =>
    unfold chunksUpTo
    split
    · rename_i hz
      rw [hz]
      rfl
    · rename_i hz
      have hpos : 0 < BSIZE - off % BSIZE := Nat.sub_pos_of_lt (Nat.mod_lt _ (by decide))
      rw [List.map_cons, List.sum_cons, ih (by omega)]
      dsimp only
      omega

theorem readChunks_length (k : Slot) (cs : List Chunk) :
    wp (readChunks k cs) (fun r _ => r.length = (cs.map Chunk.len).sum) (fun _ _ => True) t := by
  induction cs generalizing t with
  | nil => rfl
  | cons c cs ih =>
    unfold readChunks
    rw [wp_bind]
    refine wp_mono wp_true (fun addr t1 _ => ?_) fun _ _ _ => trivial
    rw [wp_bind, wp_bread]
    refine wp_of_spec ih (fun _ _ _ => trivial) fun rest t2 hlen => ?_
    rw [wp_pure, List.length_append, List.length_map, List.length_range, hlen, List.map_cons,
      List.sum_cons]

/-- A `readi` that does not start past the end of the file returns what there is. -/
theorem readi_some (ha : t.Audited k) (hdev : (t.icache k).din.type ≠ T_DEV) {off n : UInt32}
    (hgood : ¬ (off > (t.icache k).din.size ∨ off + n < off)) :
    wp (readi k off n) (fun r _ => ∃ bytes, r = some bytes ∧
      bytes.length = min n.toNat ((t.icache k).din.size.toNat - off.toNat)) (fun _ _ => True) t := by
  unfold readi
  rw [wp_bind, wp_uses ha, wp_bind, wp_inode, if_neg hdev, if_neg hgood]
  refine wp_of_spec (readChunks_length k _) (fun _ _ _ => trivial) fun bytes t1 hlen => ?_
  rw [wp_pure]
  refine ⟨bytes, rfl, ?_⟩
  rw [hlen, chunks, sum_chunksUpTo le_rfl, readi_len _ _ _ hgood]

/-- `readi` returns no more than there is. -/
theorem readi_length (ha : t.Audited k) {off n : UInt32} :
    wp (readi k off n) (fun r _ => (t.icache k).din.type ≠ T_DEV → ∀ bytes, r = some bytes →
      off.toNat + bytes.length ≤ (t.icache k).din.size.toNat) (fun _ _ => True) t := by
  by_cases hdev : (t.icache k).din.type = T_DEV
  · exact wp_mono wp_true (fun _ _ _ hne => absurd hdev hne) fun _ _ => id
  by_cases hgood : off > (t.icache k).din.size ∨ off + n < off
  · unfold readi
    rw [wp_bind, wp_uses ha, wp_bind, wp_inode, if_neg hdev, if_pos hgood, wp_pure]
    exact fun _ _ hr => nomatch hr
  · refine wp_mono (readi_some ha hdev hgood) ?_ fun _ _ => id
    rintro r t1 ⟨bytes, rfl, hlen⟩ - bytes' hr
    obtain rfl := Option.some.inj hr
    rw [not_or, gt_iff_lt, UInt32.lt_iff_toNat_lt] at hgood
    omega

end ChronoFS
