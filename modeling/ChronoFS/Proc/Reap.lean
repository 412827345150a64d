import ChronoFS.Proc.Moves

/-!
# An exited process is reaped exactly once

`Kin` is the invariant of the process table: init lives, a process in `fork` is the only one that
makes its new process, which is an `EMBRYO` until `fork` ends, and the parent of a process lives.
A parent cannot leave a child behind, because `exit` passes its children to init, and it cannot exit
while it is in `fork`.

`Chronicle` ties the table to the events that led to it: a slot is a `ZOMBIE` exactly if the process
in it has exited and no `wait` has returned for it since, and its parent is the process that forked
it, which has not exited since, or init.
-/

namespace ChronoFS.Ptable

open Function

variable {v v' : View} {e : Event} {es : List Event} {p q w np : ProcNo}

/-! ## Parents live -/

/-- Who makes whom and who is whose child. -/
structure Kin (v : View) : Prop where
  /-- Init lives. -/
  init : v.phase INITPROC = .live
  /-- A process in `fork` lives, and what it makes is an `EMBRYO`. -/
  making : ∀ p np, (v.code p).child = some np → v.phase p = .live ∧ v.phase np = .embryo
  /-- Only one process makes it. -/
  maker : ∀ p q np, (v.code p).child = some np → (v.code q).child = some np → p = q
  /-- A parent lives and its child has a slot; while that is an `EMBRYO`, the parent is at the end
  of `fork`. -/
  parent : ∀ q w, v.parent q = some w → v.phase w = .live ∧ v.phase q ≠ .unused ∧
    (v.phase q = .embryo → v.code w = .ready q)
  /-- At the end of `fork` the parent is set. -/
  ready : ∀ p np, v.code p = .ready np → v.parent np = some p
  /-- A process other than init has a parent. -/
  orphan : ∀ q, v.phase q = .live ∨ v.phase q = .zombie → q ≠ INITPROC → v.parent q ≠ none

namespace Kin

/-- A free slot has no parent. -/
theorem no_parent (h : Kin v) (hq : v.phase q = .unused) : v.parent q = none := by
  by_contra hne
  obtain ⟨w, hw⟩ := Option.ne_none_iff_exists'.mp hne
  exact (h.parent q w hw).2.1 hq

/-- An `EMBRYO` has no parent until its maker sets it. -/
theorem no_parent_yet (h : Kin v) (hp : (v.code p).child = some np) (hr : v.code p ≠ .ready np) :
    v.parent np = none := by
  by_contra hne
  obtain ⟨w, hw⟩ := Option.ne_none_iff_exists'.mp hne
  have hc := (h.parent np w hw).2.2 (h.making p np hp).2
  obtain rfl := h.maker w p np (by rw [hc]; rfl) hp
  exact hr hc

/-- A process does not make itself. -/
theorem ne_child (h : Kin v) (hp : (v.code p).child = some np) : p ≠ np := by
  rintro rfl
  obtain ⟨h1, h2⟩ := h.making p p hp
  exact absurd (h1.symm.trans h2) (by decide)

/-- The invariant is kept by every move. -/
theorem step (h : Kin v) (hm : Move v e v') : Kin v' := by
  cases hm with
  | quiet => exact h
  | @alloc p np pid hp hnp =>
    have hnone := h.no_parent hnp
    obtain ⟨hlive, hidle⟩ := hp
    obtain ⟨h1, h2, h3, h4, h5, h6⟩ := h
    constructor <;> grind [Code.child]
  | @unfork p np _ hp he =>
    have hchild : (v.code p).child = some np ∧ v.code p ≠ .ready np := by
      rcases he with ⟨-, hc⟩ | ⟨-, hc⟩ <;> simp [hc, Code.child]
    have hne := h.ne_child hchild.1
    have hnone := h.no_parent_yet hchild.1 hchild.2
    obtain ⟨h1, h2, h3, h4, h5, h6⟩ := h
    constructor <;> grind [Code.child]
  | @stack p np hp hc =>
    have hchild : (v.code p).child = some np := by rw [hc]; rfl
    obtain ⟨h1, h2, h3, h4, h5, h6⟩ := h
    constructor <;> grind [Code.child]
  | @copy p np hp hc =>
    have hchild : (v.code p).child = some np := by rw [hc]; rfl
    have hne := h.ne_child hchild
    have hnone := h.no_parent_yet hchild (by simp [hc])
    obtain ⟨h1, h2, h3, h4, h5, h6⟩ := h
    constructor <;> grind [Code.child]
  | @ready p np hp hc =>
    have hchild : (v.code p).child = some np := by rw [hc]; rfl
    have hne := h.ne_child hchild
    obtain ⟨h1, h2, h3, h4, h5, h6⟩ := h
    constructor <;> grind [Code.child]
  | @exit p hp hinit =>
    obtain ⟨hlive, hidle⟩ := hp
    obtain ⟨h1, h2, h3, h4, h5, h6⟩ := h
    constructor <;> grind [Code.child]
  | @reap p q hp hparent hq =>
    obtain ⟨hlive, hidle⟩ := hp
    obtain ⟨h1, h2, h3, h4, h5, h6⟩ := h
    constructor <;> grind [Code.child]
  | @kill p q hp hq =>
    obtain ⟨h1, h2, h3, h4, h5, h6⟩ := h
    constructor <;> assumption

end Kin

/-! ## What has happened -/

/-- `fork` takes the slot `q`. -/
def Event.Allocates (q : ProcNo) (e : Event) : Prop := ∃ p pid, e = .allocproc p (some (q, pid))

/-- A call of `wait` returns for the process in `q`. -/
def Event.Reaps (q : ProcNo) (e : Event) : Prop := ∃ p pid, e = .wait p (.reaped q pid)

/-- The process in `q` has exited, and no `wait` has returned for it. -/
def Exited (es : List Event) (q : ProcNo) : Prop := Since (· = .exit q) (Event.Reaps q) es

/-- The process in `q` is the one that was given this pid when `w` made it. -/
def Born (es : List Event) (w q : ProcNo) (pid : UInt32) : Prop :=
  Since (· = .allocproc w (some (q, pid))) (Event.Allocates q) es

/-- The process in `q` was made by the one in `w`, which has not exited since. -/
def Forked (es : List Event) (w q : ProcNo) : Prop :=
  Since (fun e => ∃ pid, e = .allocproc w (some (q, pid)))
    (fun e => e.Allocates q ∨ e = .exit w) es

/-- The table and the events that led to it. -/
structure Chronicle (es : List Event) (v : View) : Prop where
  /-- The zombies are those that have exited. -/
  zombie : ∀ q, v.phase q = .zombie ↔ Exited es q
  /-- A process has the pid it was given. -/
  born : ∀ q, v.phase q ≠ .unused → q ≠ INITPROC → ∃ w, Born es w q (v.pid q)
  /-- A process in `fork` is making the process it took the slot for. -/
  making : ∀ p q, (v.code p).child = some q → Forked es p q
  /-- A parent has forked its child, or is init. -/
  parent : ∀ q w, v.parent q = some w → w = INITPROC ∨ Forked es w q

namespace Chronicle

/-- An event that is neither an exit nor the end of a `wait` for `q`. -/
theorem exited_snoc (hexit : e ≠ .exit q) (hreap : ¬ e.Reaps q) :
    Exited (es ++ [e]) q ↔ Exited es q := by
  simp [Exited, Since.snoc, hexit, hreap]

theorem born_snoc {pid : UInt32} (h : Born es w q pid) (he : ¬ e.Allocates q) :
    Born (es ++ [e]) w q pid := Since.snoc.mpr (.inr ⟨he, h⟩)

theorem forked_snoc (h : Forked es w q) (he : ¬ e.Allocates q) (hexit : e ≠ .exit w) :
    Forked (es ++ [e]) w q := Since.snoc.mpr (.inr ⟨by simp [he, hexit], h⟩)

/-- An event that takes no slot and is no exit, and with which no `wait` returns a pid, leaves the
histories as they are. A process it makes a parent must have been making the child. -/
theorem silent (h : Chronicle es v) (hA : ∀ q, ¬ e.Allocates q) (hR : ∀ q, ¬ e.Reaps q)
    (hE : ∀ q, e ≠ .exit q) (hzombie : ∀ q, v'.phase q = .zombie ↔ v.phase q = .zombie)
    (hborn : ∀ q, v'.phase q ≠ .unused → v.phase q ≠ .unused ∧ v'.pid q = v.pid q)
    (hmaking : ∀ p q, (v'.code p).child = some q → (v.code p).child = some q)
    (hparent : ∀ q w, v'.parent q = some w → v.parent q = some w ∨ (v.code w).child = some q) :
    Chronicle (es ++ [e]) v' := by
  constructor
  · exact fun q => (hzombie q).trans ((h.zombie q).trans (exited_snoc (hE q) (hR q)).symm)
  · intro q hq hinit
    obtain ⟨hq', hpid⟩ := hborn q hq
    obtain ⟨w, hw⟩ := h.born q hq' hinit
    rw [hpid]
    exact ⟨w, born_snoc hw (hA q)⟩
  · exact fun p q hpq => forked_snoc (h.making p q (hmaking p q hpq)) (hA q) (hE p)
  · intro q w hw
    rcases hparent q w hw with hw' | hw'
    · exact (h.parent q w hw').imp_right fun hf => forked_snoc hf (hA q) (hE w)
    · exact .inr (forked_snoc (h.making w q hw') (hA q) (hE w))

/-- `fork` takes the slot `np` for a process that has neither exited nor a parent. -/
theorem step_alloc (h : Chronicle es v) (hk : Kin v) {pid : UInt32} (hp : v.Idle p)
    (hnp : v.phase np = .unused) : Chronicle (es ++ [.allocproc p (some (np, pid))]) { v with
      phase := update v.phase np .embryo
      pid := update v.pid np pid
      code := update v.code p (.stack np) } := by
  have hother : ∀ q ≠ np, ¬ (Event.allocproc p (some (np, pid))).Allocates q := by
    rintro q hq ⟨p', pid', heq⟩
    simp only [Event.allocproc.injEq, Option.some.injEq, Prod.mk.injEq] at heq
    exact hq heq.2.1.symm
  constructor
  · intro q
    rw [exited_snoc (by simp) (by simp [Event.Reaps]), ← h.zombie q]
    by_cases hq : q = np
    · simp [hq, hnp]
    · simp [hq]
  · intro q hq hinit
    by_cases hqn : q = np
    · subst hqn
      exact ⟨p, Since.snoc.mpr (.inl (by simp))⟩
    · simp only [update_of_ne hqn] at hq ⊢
      obtain ⟨w, hw⟩ := h.born q hq hinit
      exact ⟨w, born_snoc hw (hother q hqn)⟩
  · intro p' q hpq
    by_cases hp' : p' = p
    · subst hp'
      obtain rfl : np = q := by simpa [Code.child] using hpq
      exact Since.snoc.mpr (.inl ⟨pid, rfl⟩)
    · simp only [update_of_ne hp'] at hpq
      -- nobody else makes `np`, which was free
      have hqn : q ≠ np := by
        rintro rfl
        exact absurd ((hk.making p' q hpq).2.symm.trans hnp) (by decide)
      exact forked_snoc (h.making p' q hpq) (hother q hqn) (by simp)
  · intro q w hw
    have hqn : q ≠ np := by
      rintro rfl
      exact absurd ((hk.no_parent hnp).symm.trans hw) (by simp)
    exact (h.parent q w hw).imp_right fun hf => forked_snoc hf (hother q hqn) (by simp)

/-- `p` exits: it was making nobody, and its children become those of init. -/
theorem step_exit (h : Chronicle es v) (hp : v.Idle p) (hinit : p ≠ INITPROC) :
    Chronicle (es ++ [.exit p]) { v with
      phase := update v.phase p .zombie
      parent := fun q => if v.parent q = some p then some INITPROC else v.parent q } := by
  have hA : ∀ q, ¬ (Event.exit p).Allocates q := by simp [Event.Allocates]
  constructor
  · intro q
    by_cases hq : q = p
    · subst hq
      simp [Exited, Since.snoc]
    · rw [exited_snoc (by simpa using Ne.symm hq) (by simp [Event.Reaps]), ← h.zombie q]
      simp [hq]
  · intro q hq hq0
    have hq' : v.phase q ≠ .unused := by
      by_cases hqp : q = p
      · rw [hqp, hp.1]
        decide
      · simpa [hqp] using hq
    obtain ⟨w, hw⟩ := h.born q hq' hq0
    exact ⟨w, born_snoc hw (hA q)⟩
  · intro p' q hpq
    refine forked_snoc (h.making p' q hpq) (hA q) ?_
    rintro ⟨rfl⟩
    rw [hp.2] at hpq
    exact absurd hpq (by simp [Code.child])
  · intro q w hw
    dsimp only at hw
    split at hw
    · exact .inl (Option.some.inj hw).symm
    · rename_i hne
      refine (h.parent q w hw).imp_right fun hf => forked_snoc hf (hA q) ?_
      rintro ⟨rfl⟩
      exact hne hw

/-- `wait` returns for the process in `q`. -/
theorem step_reap (h : Chronicle es v) {pid : UInt32} (hq : v.phase q = .zombie) :
    Chronicle (es ++ [.wait p (.reaped q pid)]) { v with
      phase := update v.phase q .unused
      pid := update v.pid q 0
      parent := update v.parent q none
      killed := update v.killed q false } := by
  have hA : ∀ r, ¬ (Event.wait p (.reaped q pid)).Allocates r := by simp [Event.Allocates]
  constructor
  · intro r
    by_cases hr : r = q
    · subst hr
      simp [Exited, Since.snoc, Event.Reaps]
    · rw [exited_snoc (by simp) (by simpa [Event.Reaps] using Ne.symm hr), ← h.zombie r]
      simp [hr]
  · intro r hr hinit
    by_cases hrq : r = q
    · exact absurd hr (by simp [hrq])
    · simp only [update_of_ne hrq] at hr ⊢
      obtain ⟨w, hw⟩ := h.born r hr hinit
      exact ⟨w, born_snoc hw (hA r)⟩
  · exact fun p' r hpr => forked_snoc (h.making p' r hpr) (hA r) (by simp)
  · intro r w hw
    by_cases hrq : r = q
    · exact absurd hw (by simp [hrq])
    · simp only [update_of_ne hrq] at hw
      exact (h.parent r w hw).imp_right fun hf => forked_snoc hf (hA r) (by simp)

/-- The history and the table stay together. -/
theorem step (h : Chronicle es v) (hk : Kin v) (hm : Move v e v') : Chronicle (es ++ [e]) v' := by
  cases hm with
  | quiet he =>
    exact h.silent (fun q ⟨p, pid, h⟩ => (he p q pid).1 h)
      (fun q ⟨p, pid, h⟩ => (he p q pid).2.2.2 h) (fun q => (he q q 0).2.1)
      (fun q => Iff.rfl) (fun q hq => ⟨hq, rfl⟩) (fun p q h => h) (fun q w h => .inl h)
  | @alloc p np pid hp hnp => exact h.step_alloc hk hp hnp
  | @unfork p np _ hp he =>
    have hchild : (v.code p).child = some np := by
      rcases he with ⟨-, hc⟩ | ⟨-, hc⟩ <;> simp [hc, Code.child]
    have hnp := (hk.making p np hchild).2
    rcases he with ⟨rfl, -⟩ | ⟨rfl, -⟩ <;> apply h.silent <;>
      grind [Event.Allocates, Event.Reaps, Code.child]
  | @stack p np hp hc =>
    apply h.silent <;> grind [Event.Allocates, Event.Reaps, Code.child]
  | @copy p np hp hc =>
    apply h.silent <;> grind [Event.Allocates, Event.Reaps, Code.child]
  | @ready p np hp hc =>
    have hnp := (hk.making p np (by rw [hc]; rfl)).2
    apply h.silent <;> grind [Event.Allocates, Event.Reaps, Code.child]
  | @exit p hp hinit => exact h.step_exit hp hinit
  | @reap p q hp hparent hq => exact h.step_reap hq
  | @kill p q hp hq =>
    apply h.silent <;> grind [Event.Allocates, Event.Reaps]

end Chronicle

/-! ## Every run -/

/-- After `userinit` there is one process. -/
theorem boot_proc (q : ProcNo) : Table.boot.proc q = if q = INITPROC
    then { state := .runnable, pid := 1, parent := none, chan := none, killed := false }
    else Table.empty.proc q := by
  have hfirst : Table.empty.first (fun e => e.state = .unused) = some INITPROC := by
    decide +kernel
  have hboot : Table.boot.proc = Function.update (Function.update Table.empty.proc INITPROC
      { Table.empty.proc INITPROC with state := .embryo, pid := 1 }) INITPROC
      { state := .runnable, pid := 1, parent := none, chan := none, killed := false } := by
    unfold Table.boot Table.allocproc
    rw [hfirst]
    rfl
  rw [hboot]
  by_cases hq : q = INITPROC
  · simp [hq]
  · simp [hq]

/-- At boot nobody but init is there. -/
theorem boot_view : Table.boot.view = {
    phase := fun q => if q = INITPROC then .live else .unused
    pid := fun q => if q = INITPROC then 1 else 0
    parent := fun _ => none
    killed := fun _ => false
    code := fun _ => .idle } := by
  unfold Table.view
  congr 1 <;> funext q <;> simp only [boot_proc]
  all_goals first | rfl | split <;> rfl

theorem Kin.boot : Kin Table.boot.view := by
  rw [boot_view]
  constructor <;> simp [Code.child]
  intro q
  split <;> simp [*]

theorem Chronicle.boot : Chronicle [] Table.boot.view := by
  rw [boot_view]
  constructor <;> simp [Code.child, Exited]
  intro q
  split <;> simp

/-- What holds of every table and of the events that led to it. -/
theorem run_chronicle {s : Table} (h : Run Step Table.boot es s) :
    Kin s.view ∧ Chronicle es s.view := by
  apply h.history (I := fun es s => Kin s.view ∧ Chronicle es s.view)
  · exact ⟨Kin.boot, Chronicle.boot⟩
  · intro fs s1 e s2 ⟨hk, hc⟩ hstep
    exact ⟨hk.step hstep.move, hc.step hk hstep.move⟩

/-- Every exited process is reaped exactly once. In every state that is reached, a process other
than init that has been made has a parent that is neither `UNUSED` nor `ZOMBIE`. A slot is a
`ZOMBIE` exactly if its process has exited and no `wait` has returned for it since. A call of `wait`
that returns a pid returns for a process that has exited and for which no `wait` has returned
before; the pid is the one the process was made with, the caller is its parent, who is init or made
it and has not exited since, and the slot is free afterwards. A call of `wait` that returns -1 is
made by a process without children or one that has been killed. -/
theorem exited_reaped_once {s : Table} (h : Run Step Table.boot es s) :
    (∀ q ≠ INITPROC, (s.proc q).state ≠ .unused → (s.proc q).state ≠ .embryo →
      ∃ w, (s.proc q).parent = some w ∧ (s.proc w).state ≠ .unused ∧
        (s.proc w).state ≠ .zombie) ∧
    (∀ q, (s.proc q).state = .zombie ↔ Exited es q) ∧
    (∀ p q pid s', Step s (.wait p (.reaped q pid)) s' →
      Exited es q ∧ (∃ w, Born es w q pid) ∧ (s.proc q).parent = some p ∧
        (p = INITPROC ∨ Forked es p q) ∧ (s'.proc q).state = .unused) ∧
    (∀ p s', Step s (.wait p .failed) s' →
      (∀ q, (s.proc q).parent ≠ some p) ∨ (s.proc p).killed = true) := by
  obtain ⟨hk, hc⟩ := run_chronicle h
  have hzombie : ∀ q, (s.proc q).state = .zombie ↔ Exited es q :=
    fun q => State.phase_eq_zombie.symm.trans (hc.zombie q)
  refine ⟨fun q hq hunused hembryo => ?_, hzombie, fun p q pid s' hstep => ?_,
    fun p s' hstep => hstep.wait_failed⟩
  · have hphase : s.view.phase q = .live ∨ s.view.phase q = .zombie := by
      show (s.proc q).state.phase = _ ∨ (s.proc q).state.phase = _
      generalize (s.proc q).state = st at hunused hembryo ⊢
      cases st <;> simp_all [State.phase]
    obtain ⟨w, hw⟩ := Option.ne_none_iff_exists'.mp (hk.orphan q hphase hq)
    have hlive : (s.proc w).state.phase = .live := (hk.parent q w hw).1
    refine ⟨w, hw, ?_, ?_⟩ <;> intro hst <;> rw [hst] at hlive <;> exact absurd hlive (by decide)
  · obtain ⟨hst, hparent, rfl, hfree⟩ := hstep.wait_reaped
    have hinit : q ≠ INITPROC := by
      rintro rfl
      exact absurd (hk.init.symm.trans (congrArg State.phase hst)) (by decide)
    have hused : s.view.phase q ≠ .unused := by
      rw [show s.view.phase q = .zombie from State.phase_eq_zombie.mpr hst]
      decide
    exact ⟨(hzombie q).mp hst, hc.born q hused hinit, hparent, hc.parent q p hparent, hfree⟩

/-- Init forks; the child exits and is a `ZOMBIE` until init waits for it. -/
theorem exited_reaped_once_fork : ∃ s s' : Table,
    Run Step Table.boot [.schedule 0, .allocproc 0 (some (1, 2)), .stack 0, .copy 0, .ready 0 2,
      .schedule 1, .exit 1] s ∧ Step s (.wait 0 (.reaped 1 2)) s' ∧
    Exited [.schedule 0, .allocproc 0 (some (1, 2)), .stack 0, .copy 0, .ready 0 2,
      .schedule 1, .exit 1] 1 ∧ (s'.proc 1).state = .unused := by
  have heval : (([.schedule 0, .allocproc 0 (some (1, 2)), .stack 0, .copy 0, .ready 0 2,
      .schedule 1, .exit 1] : List Event).foldlM Table.step Table.boot).bind
      (fun s => (s.step (.wait 0 (.reaped 1 2))).map fun _ => true) = some true := by
    decide +kernel
  obtain ⟨s, hs, h⟩ := Option.bind_eq_some_iff.mp heval
  obtain ⟨s', hs', -⟩ := Option.map_eq_some_iff.mp h
  have hrun : Run Step Table.boot _ s := Run.of_foldlM hs
  obtain ⟨hexited, -, -, -, hfree⟩ := (exited_reaped_once hrun).2.2.1 0 1 2 s' hs'
  exact ⟨s, s', hrun, hs', hexited, hfree⟩

end ChronoFS.Ptable
