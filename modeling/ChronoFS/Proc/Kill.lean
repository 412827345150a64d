import ChronoFS.Proc.Reap

/-!
# Who is killed

`kill` scans every slot, and only `wait` clears `pid` and `killed`. A free slot has pid 0, or the
pid of a process whose `fork` failed, so `kill` of such a pid marks the free slot, and the next
process made there is born killed; so is one made in a slot whose `EMBRYO` was killed before `fork`
gave it up. `Careful` are the steps that do neither: along them no free slot is marked
(`Marked.step`), and a process is killed only by its own pid.
-/

namespace ChronoFS.Ptable

open Function

variable {v v' : View} {e : Event} {es : List Event} {p q np : ProcNo}

/-- `kill` does not find its pid in an `UNUSED` slot, and `fork` does not give up a process that has
been killed. -/
def Careful (s : Table) : Event → Prop
  | .kill _ pid _ => ∀ q, (s.proc q).pid = pid → (∀ r < q, (s.proc r).pid ≠ pid) →
      (s.proc q).state ≠ .unused
  | .nostack p | .nocopy p => ∀ np, (s.code p).child = some np → (s.proc np).killed = false
  | _ => True

/-- A careful step. -/
def CarefulStep (s : Table) (e : Event) (s' : Table) : Prop := Step s e s' ∧ Careful s e

/-- `kill` has been called with `pid` since the process in `q` was allocated. -/
def KilledSince (es : List Event) (q : ProcNo) (pid : UInt32) : Prop :=
  Since (fun e => ∃ p r, e = .kill p pid r) (Event.Allocates q) es

/-- A slot that is marked is in use, and its process has been killed by its pid. -/
def Marked (es : List Event) (v : View) : Prop :=
  ∀ q, v.killed q = true → v.phase q ≠ .unused ∧ KilledSince es q (v.pid q)

/-- A step that takes no slot, marks none and gives up none that is marked. -/
theorem Marked.silent (h : Marked es v) (hA : ∀ q, ¬ e.Allocates q)
    (hkilled : ∀ q, v'.killed q = true →
      v.killed q = true ∧ v'.pid q = v.pid q ∧ (v.phase q ≠ .unused → v'.phase q ≠ .unused)) :
    Marked (es ++ [e]) v' := by
  intro q hq
  obtain ⟨hq', hpid, hphase⟩ := hkilled q hq
  obtain ⟨hused, hsince⟩ := h q hq'
  rw [hpid]
  exact ⟨hphase hused, Since.snoc.mpr (.inr ⟨hA q, hsince⟩)⟩

/-- A careful step leaves no free slot marked. -/
theorem Marked.step {s s' : Table} (h : Marked es s.view)
    (hstep : CarefulStep s e s') : Marked (es ++ [e]) s'.view := by
  obtain ⟨hs, hcare⟩ := hstep
  have hm := hs.move
  generalize hv : s'.view = v' at hm ⊢
  cases hm with
  | quiet he =>
    exact h.silent (fun q ⟨p, pid, h⟩ => (he p q pid).1 h) fun q hq => ⟨hq, rfl, id⟩
  | @alloc p np pid hp hnp =>
    intro q hq
    obtain ⟨hused, hsince⟩ := h q hq
    have hqn : q ≠ np := by
      rintro rfl
      exact hused hnp
    simp only [update_of_ne hqn]
    refine ⟨hused, Since.snoc.mpr (.inr ⟨?_, hsince⟩)⟩
    rintro ⟨p', pid', heq⟩
    simp only [Event.allocproc.injEq, Option.some.injEq, Prod.mk.injEq] at heq
    exact hqn heq.2.1.symm
  | @unfork p np _ hp he =>
    have hfree : s.view.killed np = false := by
      rcases he with ⟨rfl, hc⟩ | ⟨rfl, hc⟩ <;> refine hcare np ?_ <;>
        rw [← Code.child_fork] <;> exact congrArg Code.child hc
    refine h.silent ?_ fun q hq => ⟨hq, rfl, fun hused => ?_⟩
    · rcases he with ⟨rfl, -⟩ | ⟨rfl, -⟩ <;> simp [Event.Allocates]
    · have hqn : q ≠ np := by
        rintro rfl
        exact absurd (hq.symm.trans hfree) (by simp)
      simpa only [update_of_ne hqn] using hused
  | stack hp hc => exact h.silent (by simp [Event.Allocates]) fun q hq => ⟨hq, rfl, id⟩
  | copy hp hc => exact h.silent (by simp [Event.Allocates]) fun q hq => ⟨hq, rfl, id⟩
  | @ready p np hp hc =>
    refine h.silent (by simp [Event.Allocates]) fun q hq => ⟨hq, rfl, fun hused => ?_⟩
    by_cases hqn : q = np <;> simp_all
  | @exit p hp hinit =>
    refine h.silent (by simp [Event.Allocates]) fun q hq => ⟨hq, rfl, fun hused => ?_⟩
    by_cases hqp : q = p <;> simp_all
  | @reap p q hp hparent hq =>
    refine h.silent (by simp [Event.Allocates]) fun r hr => ?_
    have hrq : r ≠ q := by
      rintro rfl
      exact absurd hr (by simp)
    simp only [update_of_ne hrq] at hr ⊢
    exact ⟨hr, trivial, id⟩
  | @kill p q hp hq =>
    intro r hr
    by_cases hrq : r = q
    · subst hrq
      refine ⟨fun hunused => hcare r rfl hq (State.phase_eq_unused.mp hunused), ?_⟩
      exact Since.snoc.mpr (.inl ⟨p, 0, rfl⟩)
    · simp only [update_of_ne hrq] at hr
      obtain ⟨hused, hsince⟩ := h r hr
      exact ⟨hused, Since.snoc.mpr (.inr ⟨by simp [Event.Allocates], hsince⟩)⟩

/-- Along careful steps no free slot is marked. -/
theorem run_marked {s : Table} (h : Run CarefulStep Table.boot es s) : Marked es s.view := by
  apply h.history (I := fun es s => Marked es s.view)
  · intro q hq
    rw [boot_view] at hq
    exact absurd hq (by simp)
  · exact fun fs s1 e s2 hs hstep => hs.step hstep

/-- A careful `kill` returns 0 exactly if some process has the pid. -/
theorem kill_result {s s' : Table} {pid : UInt32} {r : ℤ}
    (h : CarefulStep s (.kill p pid r) s') :
    r = 0 ↔ ∃ q, (s.proc q).state ≠ .unused ∧ (s.proc q).pid = pid := by
  obtain ⟨hstep, hcare⟩ := h
  obtain ⟨⟨-, rfl⟩, -⟩ := Option.ite_none_right_eq_some.mp hstep
  rcases s.kill_cases pid with ⟨q, hr, hpid, hbefore, -⟩ | ⟨hr, hnone, -⟩
  · exact ⟨fun _ => ⟨q, hcare q hpid hbefore, hpid⟩, fun _ => hr⟩
  · constructor
    · intro h0
      exact absurd (hr.symm.trans h0) (by decide)
    · rintro ⟨q, -, hpid⟩
      exact absurd hpid (hnone q)

/-- The process that `fork` makes `RUNNABLE`. -/
theorem Step.ready_child {s s' : Table} {pid : UInt32} (h : Step s (.ready p pid) s') :
    ∃ np, s.code p = .ready np ∧ (s.proc np).pid = pid ∧ (s'.proc np).state = .runnable ∧
      (s'.proc np).pid = pid ∧ (s'.proc np).killed = (s.proc np).killed := by
  unfold Step Table.step at h
  dsimp only at h
  split at h
  · rename_i np hcode
    obtain ⟨⟨-, hpid⟩, heq⟩ := Option.ite_none_right_eq_some.mp h
    obtain rfl := Option.some.inj heq
    have hproc : ((s.set np fun e => { e with state := .runnable }).goto p .idle).proc np =
        { s.proc np with state := .runnable } := update_self ..
    refine ⟨np, hcode, hpid, ?_⟩
    rw [hproc]
    exact ⟨rfl, hpid, rfl⟩
  · exact absurd h (by simp)

/-- `kill` affects only the process it names, in every run in which no `kill` finds its pid in an
`UNUSED` slot and no `fork` gives up a process that has been killed: `kill` returns 0 exactly if
some process that is not `UNUSED` has the pid, and a process that `fork` makes `RUNNABLE` has not
been killed unless by its own pid since it was allocated. -/
theorem kill_affects_only {s : Table} (h : Run CarefulStep Table.boot es s) :
    (∀ p pid r s', CarefulStep s (.kill p pid r) s' →
      (r = 0 ↔ ∃ q, (s.proc q).state ≠ .unused ∧ (s.proc q).pid = pid)) ∧
    (∀ p pid s', CarefulStep s (.ready p pid) s' → ∃ np, s.code p = .ready np ∧
      (s'.proc np).state = .runnable ∧ (s'.proc np).pid = pid ∧
        ((s'.proc np).killed = false ∨ KilledSince es np pid)) := by
  refine ⟨fun p pid r s' hstep => kill_result hstep, fun p pid s' hstep => ?_⟩
  obtain ⟨np, hcode, hpid, hstate, hpid', hkilled⟩ := hstep.1.ready_child
  refine ⟨np, hcode, hstate, hpid', ?_⟩
  rw [hkilled]
  cases hmark : (s.proc np).killed with
  | false => exact .inl rfl
  | true =>
    have hsince := (run_marked h np hmark).2
    exact .inr (hpid ▸ hsince)

/-- Init forks a process that nobody has killed. -/
theorem kill_affects_only_fork : ∃ s s' : Table,
    Run CarefulStep Table.boot
      [.schedule 0, .allocproc 0 (some (1, 2)), .stack 0, .copy 0] s ∧
    CarefulStep s (.ready 0 2) s' ∧ ∃ np, s.code 0 = .ready np ∧
      ((s'.proc np).killed = false ∨
        KilledSince [.schedule 0, .allocproc 0 (some (1, 2)), .stack 0, .copy 0] np 2) := by
  have heval : (([.schedule 0, .allocproc 0 (some (1, 2)), .stack 0, .copy 0] :
      List Event).foldlM Table.step Table.boot).bind
      (fun s => (s.step (.ready 0 2)).map fun _ => true) = some true := by
    decide +kernel
  obtain ⟨s, hs, h⟩ := Option.bind_eq_some_iff.mp heval
  obtain ⟨s', hs', -⟩ := Option.map_eq_some_iff.mp h
  have hrun : Run CarefulStep Table.boot
      [.schedule 0, .allocproc 0 (some (1, 2)), .stack 0, .copy 0] s := by
    refine (Run.of_foldlM hs).mono_mem fun s s' e he hstep => ⟨hstep, ?_⟩
    simp only [List.mem_cons, List.not_mem_nil, or_false] at he
    rcases he with rfl | rfl | rfl | rfl <;> trivial
  have hstep : CarefulStep s (.ready 0 2) s' := ⟨hs', trivial⟩
  obtain ⟨np, hcode, -, -, hkilled⟩ := (kill_affects_only hrun).2 0 2 s' hstep
  exact ⟨s, s', hrun, hstep, np, hcode, hkilled⟩

/-- `kill(0)` returns 0 though no process has pid 0, and marks the slot of the next process that
init forks, which nobody kills. -/
theorem kill_zero_marks_next : ∃ s s₁ s₂ s₃ : Table,
    Run Step Table.boot [.schedule 0] s ∧ Step s (.kill 0 0 0) s₁ ∧
    (∀ q, (s.proc q).state ≠ .unused → (s.proc q).pid ≠ 0) ∧
    Run Step s₁ [.allocproc 0 (some (1, 2)), .stack 0, .copy 0] s₂ ∧ Step s₂ (.ready 0 2) s₃ ∧
    (s₃.proc 1).state = .runnable ∧ (s₃.proc 1).pid = 2 ∧ (s₃.proc 1).killed = true := by
  have heval : ((Table.boot.step (.schedule 0)).bind fun s => (s.step (.kill 0 0 0)).bind fun s₁ =>
      ([.allocproc 0 (some (1, 2)), .stack 0, .copy 0].foldlM Table.step s₁).bind fun s₂ =>
      (s₂.step (.ready 0 2)).map fun s₃ =>
        decide ((∀ q, (s.proc q).state ≠ .unused → (s.proc q).pid ≠ 0) ∧
          (s₃.proc 1).state = .runnable ∧ (s₃.proc 1).pid = 2 ∧ (s₃.proc 1).killed = true)) =
      some true := by
    decide +kernel
  obtain ⟨s, hs, h⟩ := Option.bind_eq_some_iff.mp heval
  obtain ⟨s₁, hs₁, h⟩ := Option.bind_eq_some_iff.mp h
  obtain ⟨s₂, hs₂, h⟩ := Option.bind_eq_some_iff.mp h
  obtain ⟨s₃, hs₃, h⟩ := Option.map_eq_some_iff.mp h
  obtain ⟨hnone, hend⟩ := of_decide_eq_true h
  exact ⟨s, s₁, s₂, s₃, .cons hs (.nil s), hs₁, hnone, Run.of_foldlM hs₂, hs₃, hend⟩

end ChronoFS.Ptable
