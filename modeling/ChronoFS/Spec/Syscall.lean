import ChronoFS.Spec.Chain
import ChronoFS.Kernel.System

/-!
# System calls, from `begin_op` to `end_op`

Between system calls no operation is running and the log is empty (`Quiet`). `Ran` says what a call of
`sysfile.c` that touches neither the file table nor the processes leaves: the invariant, the references
and locks that there were, and the slots in use with their inodes. Each call below has a specification
that gives `Ran`, and says what the call did to the inodes: most calls do nothing out of the ordinary or
make one inode (`Usual`).
-/

namespace ChronoFS

open Function

variable {st : Bool} {w fr : Option ℕ} {lg lg' : ℕ → Dinode} {hand : List ℕ} {s₀ m s s' s'' : Fs}
  {k dp ip : Slot} {refs locks leak : List Slot} {i : ℕ} {T : ℤ} {E : Halt → Fs → Prop}
  {H H' : Slot → ℤ × ℤ} {cwd : Option Slot}

/-- No operation is running. -/
structure Fs.Quiet (s : Fs) : Prop where
  /-- There is none outstanding. -/
  outstanding : s.outstanding = 0
  /-- The log is empty. -/
  lh : s.lh = []

/-- The file system with another count of operations, another log and other finished operations. -/
def Fs.setOp (s : Fs) (outstanding : ℕ) (lh : List ℕ) (ops : List (List ℕ)) : Fs :=
  { s with outstanding, lh, ops }

/-- The invariant does not depend on the operations. -/
theorem Core.setOp (h : Core st w fr lg hand s) (n : ℕ) (lh : List ℕ) (ops : List (List ℕ)) :
    Core st w fr lg hand (s.setOp n lh ops) :=
  ⟨h.layout, h.metaUsed, h.cache, h.own, h.node, h.vers, h.deleted, h.tracked, h.found⟩

theorem hold_setOp (s : Fs) (n : ℕ) (lh : List ℕ) (ops : List (List ℕ)) :
    (s.setOp n lh ops).hold = s.hold := rfl

theorem inodes_setOp (s : Fs) (n : ℕ) (lh : List ℕ) (ops : List (List ℕ)) :
    (s.setOp n lh ops).inodes = s.inodes := rfl

/-- `begin_op` does not wait. -/
theorem wp_beginOp {Q : Unit → Fs → Prop} (hq : s.Quiet) (hok : Q () (s.setOp 1 [] s.ops)) :
    wp beginOp Q E s := by
  have hout := hq.outstanding
  have hlh := hq.lh
  unfold beginOp
  rw [wp_bind, wp_get, wp_ite]
  refine ⟨fun hfull => ?_, fun _ => ?_⟩
  · rw [hlh, hout] at hfull
    exact absurd hfull (by decide)
  · rw [wp_modify]
    have heq : { s with outstanding := s.outstanding + 1 } = s.setOp 1 [] s.ops := by
      unfold Fs.setOp
      rw [hout, ← hlh]
    rw [heq]
    exact hok

/-- The last `end_op` empties the log. -/
theorem wp_endOp {Q : Unit → Fs → Prop} (hout : s.outstanding = 1)
    (hok : Q () (s.setOp 0 [] (s.lh :: s.ops))) : wp endOp Q E s := by
  unfold endOp
  rw [wp_modify, if_pos (by rw [hout])]
  exact hok

/-! ## What a call leaves -/

/-- What a call leaves that keeps, besides what others hold, the references `leak`. -/
structure Ran (st : Bool) (leak : List Slot) (s s' : Fs) : Prop where
  /-- The invariant holds. -/
  inv : Inv st s'
  /-- The references and the locks are the same, but for those that leak. -/
  hold : s'.hold = s.hold + holds leak []
  /-- The super block is the same. -/
  sb : s'.sb = s.sb
  /-- So is the size of the log. -/
  logSize : s'.logSize = s.logSize
  /-- No operation is running. -/
  quiet : s'.Quiet
  /-- Versions are only added. -/
  versions : s.versions <+: s'.versions
  /-- The slots in use are for the same inodes. -/
  slot : ∀ k, 0 < (s.hold k).1 → SameSlot (s.icache k) (s'.icache k)
  /-- If nothing leaks, every inode is used with its lock. -/
  unlocked : leak = [] → s'.unlocked = s.unlocked

theorem Ran.refl (h : Inv st s) (hq : s.Quiet) : Ran st [] s s :=
  ⟨h, by rw [holds_nil, add_zero], rfl, rfl, hq, List.prefix_rfl, fun _ _ => .refl _, fun _ => rfl⟩

/-- What a call does to inodes that makes no version, restores none, and deletes and recovers no
file. -/
def Usual (H : Slot → ℤ × ℤ) (s s' : Fs) : Prop :=
  Ordinary H s s' ∨ ∃ i m, Making H i s m ∧ Ordinary H m s'

namespace At

/-- A call begins its operation. -/
theorem begin (h : Core st none none lg [] s) :
    At st none (s.setOp 1 [] s.ops) (s.setOp 1 [] s.ops) [] [] (s.setOp 1 [] s.ops) :=
  .start (h.setOp 1 [] s.ops)

/-- A call that has given everything back but the references `leak` ends its operation. -/
theorem finish (h : At st none (s₀.setOp 1 [] s₀.ops) m leak [] s) :
    s.outstanding = 1 ∧ Ran st leak s₀ (s.setOp 0 [] (s.lh :: s.ops)) := by
  obtain ⟨lg, hcore⟩ := h.core
  refine ⟨h.calm.outstanding, ⟨lg, hcore.setOp ..⟩, ?_, h.calm.sb, h.calm.logSize, ⟨rfl, rfl⟩,
    h.calm.versions, h.calm.slot, fun _ => h.calm.unlocked⟩
  exact h.hold

/-- `end_op` and what follows. -/
theorem endOp {Q : Unit → Fs → Prop} (h : At st none (s₀.setOp 1 [] s₀.ops) m leak [] s)
    (hok : Ran st leak s₀ (s.setOp 0 [] (s.lh :: s.ops)) →
      Ordinary s₀.hold m (s.setOp 0 [] (s.lh :: s.ops)) → Q () (s.setOp 0 [] (s.lh :: s.ops))) :
    wp endOp Q E s := by
  obtain ⟨hout, hran⟩ := h.finish
  refine wp_endOp hout (hok hran ?_)
  exact ⟨h.since.node, h.since.size, h.since.deleted⟩

/-- A call gives up. -/
theorem putFail (h : At st none (s₀.setOp 1 [] s₀.ops) m [k] [k] s) :
    wp (putFail k) (fun r s' => r = -1 ∧ Ran st [] s₀ s' ∧ Ordinary s₀.hold m s') (Halts T) s := by
  unfold ChronoFS.putFail
  refine wp_of_spec h.iunlockput (fun _ _ => id) ?_
  rintro _ s1 ⟨h1, -⟩
  rw [wp_bind]
  exact h1.endOp fun hran hord => ⟨rfl, hran, hord⟩

end At

/-- The call began with what its operation began with. -/
theorem Ordinary.of_setOp {n : ℕ} {lh : List ℕ} {ops : List (List ℕ)}
    (h : Ordinary H (s.setOp n lh ops) s') : Ordinary H s s' := ⟨h.node, h.size, h.deleted⟩

/-- A call that gives up changes nothing out of the ordinary. -/
theorem wp_failed {p : FsM ℤ} {n : ℕ} {lh : List ℕ} {ops : List (List ℕ)}
    (h : wp p (fun r s' => r = -1 ∧ Ran st [] s₀ s' ∧ Ordinary s₀.hold (s₀.setOp n lh ops) s') E s) :
    wp p (fun _ s' => Ran st [] s₀ s' ∧ Ordinary s₀.hold s₀ s') E s :=
  wp_mono h (fun _ _ hp => ⟨hp.2.1, hp.2.2.of_setOp⟩) fun _ _ => id

theorem Making.of_setOp {n : ℕ} {lh : List ℕ} {ops : List (List ℕ)}
    (h : Making H i (s.setOp n lh ops) s') : Making H i s s' :=
  ⟨h.free, h.head, h.node, h.size, h.deleted⟩

/-- Making an inode or none, and then nothing out of the ordinary. -/
theorem Usual.of_made {n : ℕ} {lh : List ℕ} {ops : List (List ℕ)}
    (hm : m = s.setOp n lh ops ∨ ∃ i, Making H i (s.setOp n lh ops) m) (h : Ordinary H m s') :
    Usual H s s' := by
  rcases hm with rfl | ⟨i, hmaking⟩
  · exact .inl h.of_setOp
  · exact .inr ⟨i, m, hmaking.of_setOp, h⟩

section Calls

variable (h : Inv st s) (hq : s.Quiet) (hcwd : ∀ k, cwd = some k → 0 < (s.icache k).ref)
  (hT : total s.hold + 2 ≤ T)

/-- The end of `sys_link` when it fails. -/
theorem linkBad_spec (h : At st none (s₀.setOp 1 [] s₀.ops) m [ip] [] s) :
    wp (linkBad ip) (fun r s' => r = -1 ∧ Ran st [] s₀ s' ∧ Ordinary s₀.hold m s') (Halts T) s := by
  unfold linkBad
  refine wp_of_spec (h.ilock h.pos) (fun _ _ => id) ?_
  rintro _ s1 ⟨h1, -⟩
  refine wp_of_spec (h1.addLinks List.mem_cons_self (-1)) (fun _ _ => id) ?_
  rintro _ s2 ⟨h2, -, -⟩
  exact h2.putFail

include h hq hcwd hT

theorem sysLink_spec (args : Option (List UInt8 × List UInt8)) :
    wp (sysLink cwd args) (fun _ s' => Ran st [] s s' ∧ Ordinary s.hold s s') (Halts T) s := by
  obtain ⟨lg, hcore⟩ := h
  unfold sysLink
  split
  · exact ⟨.refl ⟨lg, hcore⟩ hq, .refl _ _⟩
  rename_i old new
  rw [wp_bind]
  refine wp_beginOp hq ?_
  refine wp_of_spec ((At.begin hcore).namei hcwd (by simp [hold_setOp]; omega) old)
    (fun _ _ => id) ?_
  rintro r s1 ⟨h1, -, -⟩
  cases r with
  | none =>
    rw [wp_bind]
    exact h1.endOp fun hran hord => ⟨hran, hord.of_setOp⟩
  | some ip =>
    refine wp_of_spec (h1.ilock h1.pos) (fun _ _ => id) ?_
    rintro _ s2 ⟨h2, -⟩
    rw [wp_bind, wp_inode, wp_ite]
    refine ⟨fun _ => wp_failed h2.putFail, fun _ => ?_⟩
    refine wp_of_spec (h2.addLinks List.mem_cons_self 1) (fun _ _ => id) ?_
    rintro _ s3 ⟨h3, -, -⟩
    refine wp_of_spec h3.iunlock (fun _ _ => id) ?_
    rintro _ s4 ⟨h4, -⟩
    unfold nameiparent
    refine wp_of_spec (h4.namex hcwd (by simp [hold_setOp]; omega) new true) (fun _ _ => id) ?_
    rintro r s5 ⟨h5, -, -⟩
    rcases r with _ | ⟨dp, name⟩
    · exact wp_failed (linkBad_spec h5)
    · -- both inodes are held; the directory is locked
      have h5' : At st none (s.setOp 1 [] s.ops) (s.setOp 1 [] s.ops) [dp, ip] [] s5 := h5
      refine wp_of_spec (h5'.ilock h5'.pos) (fun _ _ => id) ?_
      rintro _ s6 ⟨h6, -⟩
      obtain ⟨lg6, hcore6⟩ := h6.core
      have hip : 0 < (s6.icache ip).ref :=
        (h6.perm (List.Perm.swap ..) (List.Perm.refl _) : At st none _ _ [ip, dp] [dp] s6).pos
      rw [wp_bind, wp_inode, wp_bind, wp_inode, wp_ite]
      refine ⟨fun _ => ?_, fun _ => ?_⟩
      · refine wp_of_spec h6.iunlockput (fun _ _ => id) ?_
        rintro _ s7 ⟨h7, -⟩
        exact wp_failed (linkBad_spec h7)
      · refine wp_of_spec (h6.dirlink List.mem_cons_self (by simp [hold_setOp]; omega)
          (hcore6.cache.inum ip hip) name) (fun _ _ => id) ?_
        rintro ok s7 ⟨h7, -⟩
        refine wp_of_spec h7.iunlockput (fun _ _ => id) ?_
        rintro _ s8 ⟨h8, -⟩
        rw [wp_ite]
        refine ⟨fun _ => ?_, fun _ => wp_failed (linkBad_spec h8)⟩
        refine wp_of_spec h8.iput (fun _ _ => id) ?_
        rintro _ s9 ⟨h9, -⟩
        rw [wp_bind]
        exact h9.endOp fun hran hord => ⟨hran, hord.of_setOp⟩

theorem createPut_spec (type : Int16) (args : Option (List UInt8 × Int16 × Int16)) :
    wp (createPut cwd type args) (fun _ s' => Ran st [] s s' ∧ Usual s.hold s s') (Halts T) s := by
  obtain ⟨lg, hcore⟩ := h
  unfold createPut
  split
  · rw [wp_bind]
    refine wp_beginOp hq ?_
    rw [wp_bind]
    exact (At.begin hcore).endOp fun hran hord => ⟨hran, .inl hord.of_setOp⟩
  rename_i path major minor
  rw [wp_bind]
  refine wp_beginOp hq ?_
  refine wp_of_spec (create_spec (At.begin hcore) hcwd (by simp [hold_setOp]; omega) path type major
    minor) (fun _ _ => id) fun r s1 hcreated => ?_
  obtain ⟨m, hm, h1⟩ := hcreated.held
  cases r with
  | none =>
    rw [wp_bind]
    exact h1.endOp fun hran hord => ⟨hran, .of_made hm hord⟩
  | some ip =>
    refine wp_of_spec h1.iunlockput (fun _ _ => id) ?_
    rintro _ s2 ⟨h2, -⟩
    rw [wp_bind]
    exact h2.endOp fun hran hord => ⟨hran, .of_made hm hord⟩

end Calls

/-! ## `exec` -/

theorem loaduvm_spec (h : At st none s₀ m refs locks s) (hip : ip ∈ locks) (offset sz : UInt32)
    (is : List ℕ) :
    wp (loaduvm ip offset sz is) (fun _ s' => At st none s₀ m refs locks s') (Halts T) s := by
  induction is generalizing s with
  | nil => exact h
  | cons i is ih =>
    unfold loaduvm
    refine wp_of_spec (h.readi hip _ _) (fun _ _ => id) ?_
    rintro r s1 ⟨h1, -⟩
    rw [wp_ite]
    exact ⟨fun _ => ih h1, fun _ => h1⟩

theorem loadProgram_spec (h : At st none s₀ m refs locks s) (hip : ip ∈ locks) (mem : List Bool)
    (phnum : ℕ) (off : UInt32) :
    wp (loadProgram ip mem phnum off) (fun _ s' => At st none s₀ m refs locks s') (Halts T) s := by
  induction phnum generalizing s mem off with
  | zero => exact h
  | succ phnum ih =>
    unfold loadProgram
    refine wp_of_spec (h.readi hip _ _) (fun _ _ => id) ?_
    rintro r s1 ⟨h1, -⟩
    cases r with
    | none => exact h1
    | some bytes =>
      dsimp only
      rw [wp_ite]
      refine ⟨fun _ => h1, fun _ => ?_⟩
      rw [wp_ite]
      refine ⟨fun _ => ih h1 mem _, fun _ => ?_⟩
      rw [wp_ite]
      refine ⟨fun _ => h1, fun _ => ?_⟩
      refine wp_of_spec (loaduvm_spec h1 hip _ _ _) (fun _ _ => id) fun ok s2 h2 => ?_
      rw [wp_ite]
      exact ⟨fun _ => ih h2 _ _, fun _ => h2⟩

theorem loadElf_spec (h : At st none s₀ m refs locks s) (hip : ip ∈ locks) (mem : List Bool) :
    wp (loadElf ip mem) (fun _ s' => At st none s₀ m refs locks s') (Halts T) s := by
  unfold loadElf
  refine wp_of_spec (h.readi hip _ _) (fun _ _ => id) ?_
  rintro r s1 ⟨h1, -⟩
  cases r with
  | none => exact h1
  | some bytes =>
    dsimp only
    rw [wp_ite]
    exact ⟨fun _ => h1, fun _ => loadProgram_spec h1 hip _ _ _⟩

theorem exec_spec (h : Inv st s) (hq : s.Quiet) (hcwd : ∀ k, cwd = some k → 0 < (s.icache k).ref)
    (hT : total s.hold + 2 ≤ T) (args : Option (List UInt8 × List Bool × Bool)) :
    wp (exec cwd args) (fun _ s' => Ran st [] s s' ∧ Ordinary s.hold s s') (Halts T) s := by
  obtain ⟨lg, hcore⟩ := h
  unfold exec
  split
  · exact ⟨.refl ⟨lg, hcore⟩ hq, .refl _ _⟩
  rename_i path mem args
  rw [wp_bind]
  refine wp_beginOp hq ?_
  refine wp_of_spec ((At.begin hcore).namei hcwd (by simp [hold_setOp]; omega) path)
    (fun _ _ => id) ?_
  rintro r s1 ⟨h1, -, -⟩
  cases r with
  | none =>
    rw [wp_bind]
    exact h1.endOp fun hran hord => ⟨hran, hord.of_setOp⟩
  | some ip =>
    refine wp_of_spec (h1.ilock h1.pos) (fun _ _ => id) ?_
    rintro _ s2 ⟨h2, -⟩
    refine wp_of_spec (loadElf_spec h2 List.mem_cons_self mem) (fun _ _ => id) fun ok s3 h3 => ?_
    rw [wp_ite]
    refine ⟨fun _ => ?_, fun _ => wp_failed h3.putFail⟩
    refine wp_of_spec h3.iunlockput (fun _ _ => id) ?_
    rintro _ s4 ⟨h4, -⟩
    rw [wp_bind]
    exact h4.endOp fun hran hord => ⟨hran, hord.of_setOp⟩

end ChronoFS
