import ChronoFS.Proc.Table

/-!
# What a step does to the life of the processes

Scheduling, sleeping and waking up do not matter to who is whose child, who has exited and who has
been killed. `View` is what is left of the table without them: `SLEEPING`, `RUNNABLE` and `RUNNING`
are one phase. `Move` is the transition relation on views, one constructor for each thing `fork`,
`exit`, `wait` and `kill` can do, and every step of the table is a move (`Step.move`). The
invariants of `Proc/Reap.lean` and `Proc/Kill.lean` are proved over moves.
-/

namespace ChronoFS.Ptable

open Function

/-- The phases of a slot. -/
inductive Phase
  | unused | embryo | live | zombie
  deriving DecidableEq

/-- The phase a state belongs to. -/
def State.phase : State → Phase
  | .unused => .unused
  | .embryo => .embryo
  | .sleeping | .runnable | .running => .live
  | .zombie => .zombie

theorem State.phase_eq_unused {st : State} : st.phase = .unused ↔ st = .unused := by
  cases st <;> simp [State.phase]

theorem State.phase_eq_zombie {st : State} : st.phase = .zombie ↔ st = .zombie := by
  cases st <;> simp [State.phase]

/-- Where a process is, as far as `fork` is concerned. -/
def Code.fork : Code → Code
  | .wait | .asleep => .idle
  | c => c

theorem Code.child_fork (c : Code) : c.fork.child = c.child := by cases c <;> rfl

/-- The table without what the scheduler and `sleep` use. -/
structure View where
  /-- What is in the slot. -/
  phase : ProcNo → Phase
  /-- `p->pid`. -/
  pid : ProcNo → UInt32
  /-- `p->parent`. -/
  parent : ProcNo → Option ProcNo
  /-- `p->killed`. -/
  killed : ProcNo → Bool
  /-- Where a process is in `fork`. -/
  code : ProcNo → Code

/-! ## The view of what the functions of `proc.c` do -/

namespace Table

variable {s s' : Table} {p q np : ProcNo}

/-- The view of the table. -/
def view (s : Table) : View where
  phase q := (s.proc q).state.phase
  pid q := (s.proc q).pid
  parent q := (s.proc q).parent
  killed q := (s.proc q).killed
  code q := (s.code q).fork

/-- A change of an entry, as it is seen. -/
theorem view_set (s : Table) (p : ProcNo) (f : Entry → Entry) :
    (s.set p f).view = { s.view with
      phase := update s.view.phase p (f (s.proc p)).state.phase
      pid := update s.view.pid p (f (s.proc p)).pid
      parent := update s.view.parent p (f (s.proc p)).parent
      killed := update s.view.killed p (f (s.proc p)).killed } := by
  have hproc : ∀ q, (s.set p f).proc q = if q = p then f (s.proc p) else s.proc q :=
    fun q => update_apply ..
  unfold view
  congr 1 <;> funext q <;> rw [update_apply, hproc] <;> split <;> rfl

/-- A change of the place, as it is seen. -/
theorem view_goto (s : Table) (p : ProcNo) (c : Code) :
    (s.goto p c).view = { s.view with code := update s.view.code p c.fork } := by
  have hcode : ∀ q, (s.goto p c).code q = if q = p then c else s.code q :=
    fun q => update_apply ..
  unfold view
  congr 1
  funext q
  rw [update_apply, hcode]
  split <;> rfl

section Unchanged

/-! What an entry keeps, its view keeps. -/

@[simp] theorem update_view_phase (s : Table) (p : ProcNo) :
    update s.view.phase p (s.proc p).state.phase = s.view.phase := update_eq_self ..

@[simp] theorem update_view_pid (s : Table) (p : ProcNo) :
    update s.view.pid p (s.proc p).pid = s.view.pid := update_eq_self ..

@[simp] theorem update_view_parent (s : Table) (p : ProcNo) :
    update s.view.parent p (s.proc p).parent = s.view.parent := update_eq_self ..

@[simp] theorem update_view_killed (s : Table) (p : ProcNo) :
    update s.view.killed p (s.proc p).killed = s.view.killed := update_eq_self ..

end Unchanged

/-- Waking up is not seen. -/
theorem view_wakeup1 (s : Table) (chan : Option Chan) : (s.wakeup1 chan).view = s.view := by
  have hentry : ∀ q, (s.wakeup1 chan).proc q = s.proc q ∨
      (s.proc q).state = .sleeping ∧
        (s.wakeup1 chan).proc q = { s.proc q with state := .runnable } := by
    intro q
    unfold wakeup1
    dsimp only
    split
    · rename_i h
      exact .inr ⟨h.1, rfl⟩
    · exact .inl rfl
  unfold view
  congr 1 <;> funext q <;> rcases hentry q with h | ⟨h, h'⟩ <;> simp [*, State.phase]

/-- Going from one place outside `fork` to another is not seen. -/
theorem view_goto_eq {c : Code} (h : (s.code p).fork = c.fork) : (s.goto p c).view = s.view := by
  rw [view_goto, ← h]
  have hcode : update s.view.code p (s.code p).fork = s.view.code := update_eq_self ..
  rw [hcode]

theorem view_tidy (s : Table) (p : ProcNo) : (s.tidy p).view = s.view := by
  simp [tidy, view_set]

/-- A live process that goes to another live state is not seen to. -/
theorem view_set_state {f : Entry → Entry} (hstate : (f (s.proc p)).state.phase = .live)
    (h : (s.proc p).state.phase = .live) (hpid : (f (s.proc p)).pid = (s.proc p).pid)
    (hparent : (f (s.proc p)).parent = (s.proc p).parent)
    (hkilled : (f (s.proc p)).killed = (s.proc p).killed) : (s.set p f).view = s.view := by
  rw [view_set, hpid, hparent, hkilled, hstate, ← h]
  simp

theorem view_enter (s : Table) (p : ProcNo) : (s.enter p).view = s.view := by
  unfold enter
  split
  · exact view_tidy s p
  · rfl

/-- The slot that a search finds, and those before it. -/
theorem first_eq_some {P : Entry → Bool} (h : s.first P = some q) :
    P (s.proc q) = true ∧ ∀ r < q, P (s.proc r) = false := by
  obtain ⟨hq, as, bs, hl, has⟩ := List.find?_eq_some_iff_append.mp h
  refine ⟨hq, fun r hr => ?_⟩
  have hr' : r ∈ as := by
    have hmem : r ∈ as ++ q :: bs := hl ▸ List.mem_finRange r
    have hsorted : (as ++ q :: bs).Pairwise (· < ·) := hl ▸ List.pairwise_lt_finRange NPROC
    rcases List.mem_append.mp hmem with h | h
    · exact h
    · rcases List.mem_cons.mp h with rfl | h
      · exact absurd hr (lt_irrefl _)
      · have := List.rel_of_pairwise_cons (List.pairwise_append.mp hsorted).2.1 h
        exact absurd (hr.trans this) (lt_irrefl _)
  simpa using has r hr'

theorem first_eq_none {P : Entry → Bool} : s.first P = none ↔ ∀ q, P (s.proc q) = false := by
  unfold first
  rw [List.find?_eq_none]
  simp

theorem view_abandon (s : Table) (p q : ProcNo) :
    (abandon p s q).view = { s.view with
      parent := update s.view.parent q
        (if s.view.parent q = some p then some INITPROC else s.view.parent q) } := by
  have hset : (s.set q fun e => { e with parent := some INITPROC }).view =
      { s.view with parent := update s.view.parent q (some INITPROC) } := by
    simp [view_set]
  unfold abandon
  by_cases h : (s.proc q).parent = some p
  · have hview : s.view.parent q = some p := h
    rw [if_pos h, if_pos hview, ← hset]
    dsimp only
    split
    · exact view_wakeup1 ..
    · rfl
  · have hview : ¬ s.view.parent q = some p := h
    rw [if_neg h, if_neg hview, update_eq_self]

/-- The loop of `exit` passes every child it meets to init. -/
theorem view_foldl_abandon (hp : p ≠ INITPROC) (l : List ProcNo) (s : Table) :
    (l.foldl (abandon p) s).view = { s.view with
      parent := fun q => if q ∈ l ∧ s.view.parent q = some p then some INITPROC
        else s.view.parent q } := by
  induction l generalizing s with
  | nil => simp
  | cons a l ih =>
    rw [List.foldl_cons, ih, view_abandon]
    dsimp only
    congr 1
    funext q
    have hinit : some INITPROC ≠ some p := fun h => hp (Option.some.inj h).symm
    by_cases hq : q = a
    · subst hq
      by_cases h : s.view.parent q = some p
      · simp [h, hinit]
      · simp [h]
    · simp [hq]

/-- `exit` makes `p` a zombie and passes its children to init. -/
theorem view_exit (hp : p ≠ INITPROC) :
    (s.exit p).view = { s.view with
      phase := update s.view.phase p .zombie
      parent := fun q => if s.view.parent q = some p then some INITPROC
        else s.view.parent q } := by
  have hloop := view_foldl_abandon hp (List.finRange NPROC)
    (s.wakeup1 ((s.proc p).parent.map .proc))
  simp only [List.mem_finRange, true_and, view_wakeup1] at hloop
  unfold exit
  dsimp only
  generalize (List.finRange NPROC).foldl (abandon p) _ = t at hloop ⊢
  have hset := view_set t p fun e => { e with state := .zombie }
  dsimp only at hset
  rw [update_view_pid, update_view_parent, update_view_killed] at hset
  rw [hset, hloop]
  rfl

/-- Giving the slot back, as it is seen. -/
theorem view_unfork (s : Table) (p np : ProcNo) :
    (s.unfork p np).view = { s.view with
      phase := update s.view.phase np .unused
      code := update s.view.code p .idle } := by
  unfold unfork
  rw [view_goto, view_set]
  simp [State.phase, Code.fork]

/-- The slot `allocproc` finds, and what it does to it. -/
theorem allocproc_eq_some (h : s.allocproc = some (np, s')) :
    s.view.phase np = .unused ∧ s'.view = { s.view with
      phase := update s.view.phase np .embryo
      pid := update s.view.pid np s.nextpid } := by
  unfold allocproc at h
  obtain ⟨q, hq, heq⟩ := Option.map_eq_some_iff.mp h
  obtain ⟨rfl, rfl⟩ := Prod.mk.inj heq
  have hstate : (s.proc q).state = .unused := by simpa using (first_eq_some hq).1
  constructor
  · exact congrArg State.phase hstate
  · have hset := view_set s q fun e => { e with state := .embryo, pid := s.nextpid }
    dsimp only at hset
    rw [update_view_parent, update_view_killed] at hset
    exact hset

/-- What one pass of `wait` can do. -/
theorem wait_cases (s : Table) (p : ProcNo) :
    (∃ q, (s.wait p).1 = .reaped q (s.proc q).pid ∧ (s.proc q).parent = some p ∧
      (s.proc q).state = .zombie ∧ (s.wait p).2 = (s.set q fun e =>
        { e with pid := 0, parent := none, killed := false, state := .unused }).goto p .idle) ∨
    ((s.wait p).1 = .failed ∧ (s.wait p).2 = s.goto p .idle ∧
      ((∀ q, (s.proc q).parent ≠ some p) ∨ (s.proc p).killed = true)) ∨
    ((s.wait p).1 = .sleeps ∧ (s.wait p).2 = (s.sleep p (.proc p)).goto p .wait) := by
  unfold wait
  split
  · rename_i q hq
    have hq' := (first_eq_some hq).1
    simp only [decide_eq_true_eq] at hq'
    exact .inl ⟨q, rfl, hq'.1, hq'.2, rfl⟩
  · split
    · rename_i h
      exact .inr (.inl ⟨rfl, rfl, h⟩)
    · exact .inr (.inr ⟨rfl, rfl⟩)

/-- What `kill` can do. -/
theorem kill_cases (s : Table) (pid : UInt32) :
    (∃ q, (s.kill pid).1 = 0 ∧ s.view.pid q = pid ∧ (∀ r < q, s.view.pid r ≠ pid) ∧
      (s.kill pid).2.view = { s.view with killed := update s.view.killed q true }) ∨
    ((s.kill pid).1 = -1 ∧ (∀ q, s.view.pid q ≠ pid) ∧ (s.kill pid).2 = s) := by
  unfold kill
  split
  · rename_i q hq
    obtain ⟨hpid, hbefore⟩ := first_eq_some hq
    refine .inl ⟨q, rfl, of_decide_eq_true hpid, fun r hr => of_decide_eq_false (hbefore r hr), ?_⟩
    have hphase : (if (s.proc q).state = .sleeping then .runnable else (s.proc q).state).phase =
        (s.proc q).state.phase := by
      split
      · rename_i h
        rw [h]
        rfl
      · rfl
    dsimp only
    rw [view_set]
    simp [hphase]
  · rename_i hnone
    exact .inr ⟨rfl, fun q => of_decide_eq_false (first_eq_none.mp hnone q), rfl⟩

end Table

/-! ## Moves -/

/-- `p` is a process that runs outside `fork`. -/
def View.Idle (v : View) (p : ProcNo) : Prop := v.phase p = .live ∧ v.code p = .idle

/-- The steps as they are seen. -/
inductive Move (v : View) : Event → View → Prop
  /-- Nothing is seen of the step. -/
  | quiet {e : Event} (he : ∀ p np pid, e ≠ .allocproc p (some (np, pid)) ∧ e ≠ .exit p ∧
      e ≠ .ready p pid ∧ e ≠ .wait p (.reaped np pid)) : Move v e v
  /-- `fork` takes a slot. -/
  | alloc {p np : ProcNo} {pid : UInt32} (hp : v.Idle p) (hnp : v.phase np = .unused) :
      Move v (.allocproc p (some (np, pid))) { v with
        phase := update v.phase np .embryo
        pid := update v.pid np pid
        code := update v.code p (.stack np) }
  /-- `fork` fails and gives the slot back. -/
  | unfork {p np : ProcNo} {e : Event} (hp : v.phase p = .live)
      (he : e = .nostack p ∧ v.code p = .stack np ∨ e = .nocopy p ∧ v.code p = .copy np) :
      Move v e { v with
        phase := update v.phase np .unused
        code := update v.code p .idle }
  /-- `allocproc` returns the slot. -/
  | stack {p np : ProcNo} (hp : v.phase p = .live) (hc : v.code p = .stack np) :
      Move v (.stack p) { v with code := update v.code p (.copy np) }
  /-- `fork` sets the parent. -/
  | copy {p np : ProcNo} (hp : v.phase p = .live) (hc : v.code p = .copy np) :
      Move v (.copy p) { v with
        parent := update v.parent np (some p)
        code := update v.code p (.ready np) }
  /-- `fork` returns the pid of the new process. -/
  | ready {p np : ProcNo} (hp : v.phase p = .live) (hc : v.code p = .ready np) :
      Move v (.ready p (v.pid np)) { v with
        phase := update v.phase np .live
        code := update v.code p .idle }
  /-- `p` exits. -/
  | exit {p : ProcNo} (hp : v.Idle p) (hinit : p ≠ INITPROC) :
      Move v (.exit p) { v with
        phase := update v.phase p .zombie
        parent := fun q => if v.parent q = some p then some INITPROC else v.parent q }
  /-- `wait` frees the slot of an exited child. -/
  | reap {p q : ProcNo} (hp : v.Idle p) (hparent : v.parent q = some p)
      (hq : v.phase q = .zombie) :
      Move v (.wait p (.reaped q (v.pid q))) { v with
        phase := update v.phase q .unused
        pid := update v.pid q 0
        parent := update v.parent q none
        killed := update v.killed q false }
  /-- `kill` finds its pid in the slot `q`, and in none before it. -/
  | kill {p q : ProcNo} (hp : v.Idle p) (hq : ∀ r < q, v.pid r ≠ v.pid q) :
      Move v (.kill p (v.pid q) 0) { v with killed := update v.killed q true }

namespace Table

variable {s s' : Table} {p q np : ProcNo}

theorem live_of_running (h : (s.proc p).state = .running) : s.view.phase p = .live :=
  congrArg State.phase h

/-- A process is seen where it is. -/
theorem fork_code {c : Code} (h : s.code p = c) : s.view.code p = c.fork :=
  congrArg Code.fork h

/-- A process that runs at a place outside `fork` is idle in the view. -/
theorem At.idle {c : Code} (h : s.At p c) (hc : c.fork = .idle) : s.view.Idle p :=
  ⟨live_of_running h.1, (fork_code h.2).trans hc⟩

end Table

/-- When a call of `wait` returns -1. -/
theorem Step.wait_failed {s s' : Table} {p : ProcNo} (h : Step s (.wait p .failed) s') :
    (∀ q, (s.proc q).parent ≠ some p) ∨ (s.proc p).killed = true := by
  obtain ⟨⟨-, hr⟩, -⟩ := Option.ite_none_right_eq_some.mp h
  have hfailed : (∀ q, (s.enter p).view.parent q ≠ some p) ∨
      (s.enter p).view.killed p = true := by
    rcases (s.enter p).wait_cases p with ⟨q, hr', -⟩ | ⟨-, -, hc⟩ | ⟨hr', -⟩
    · exact absurd (hr'.symm.trans hr) (by simp)
    · exact hc
    · exact absurd (hr'.symm.trans hr) (by simp)
  rwa [Table.view_enter] at hfailed

/-- Every step of the table is a move of its view. -/
theorem Step.move {s s' : Table} {e : Event} (h : Step s e s') : Move s.view e s'.view := by
  unfold Step at h
  cases e with
  | allocproc p r =>
    cases r with
    | none =>
      obtain ⟨-, heq⟩ := Option.ite_none_right_eq_some.mp h
      obtain rfl := Option.some.inj heq
      exact .quiet (by simp)
    | some r =>
      obtain ⟨np, pid⟩ := r
      unfold Table.step at h
      dsimp only at h
      split at h
      · rename_i q t ht
        obtain ⟨⟨hat, rfl, rfl⟩, heq⟩ := Option.ite_none_right_eq_some.mp h
        obtain rfl := Option.some.inj heq
        obtain ⟨hunused, hview⟩ := Table.allocproc_eq_some ht
        rw [Table.view_goto, hview]
        exact .alloc (hat.idle rfl) hunused
      · exact absurd h (by simp)
  | nostack p =>
    unfold Table.step at h
    dsimp only at h
    split at h
    · rename_i np hcode
      obtain ⟨hrun, heq⟩ := Option.ite_none_right_eq_some.mp h
      obtain rfl := Option.some.inj heq
      rw [Table.view_unfork]
      exact .unfork (Table.live_of_running hrun) (.inl ⟨rfl, Table.fork_code hcode⟩)
    · exact absurd h (by simp)
  | stack p =>
    unfold Table.step at h
    dsimp only at h
    split at h
    · rename_i np hcode
      obtain ⟨hrun, heq⟩ := Option.ite_none_right_eq_some.mp h
      obtain rfl := Option.some.inj heq
      rw [Table.view_goto]
      exact .stack (Table.live_of_running hrun) (Table.fork_code hcode)
    · exact absurd h (by simp)
  | nocopy p =>
    unfold Table.step at h
    dsimp only at h
    split at h
    · rename_i np hcode
      obtain ⟨hrun, heq⟩ := Option.ite_none_right_eq_some.mp h
      obtain rfl := Option.some.inj heq
      rw [Table.view_unfork]
      exact .unfork (Table.live_of_running hrun) (.inr ⟨rfl, Table.fork_code hcode⟩)
    · exact absurd h (by simp)
  | copy p =>
    unfold Table.step at h
    dsimp only at h
    split at h
    · rename_i np hcode
      obtain ⟨hrun, heq⟩ := Option.ite_none_right_eq_some.mp h
      obtain rfl := Option.some.inj heq
      rw [Table.view_goto, Table.view_set]
      simp only [Table.update_view_phase, Table.update_view_pid, Table.update_view_killed]
      exact .copy (Table.live_of_running hrun) (Table.fork_code hcode)
    · exact absurd h (by simp)
  | ready p pid =>
    unfold Table.step at h
    dsimp only at h
    split at h
    · rename_i np hcode
      obtain ⟨⟨hrun, rfl⟩, heq⟩ := Option.ite_none_right_eq_some.mp h
      obtain rfl := Option.some.inj heq
      rw [Table.view_goto, Table.view_set]
      simp only [Table.update_view_parent, Table.update_view_pid, Table.update_view_killed]
      exact .ready (Table.live_of_running hrun) (Table.fork_code hcode)
    · exact absurd h (by simp)
  | exit p =>
    obtain ⟨⟨hat, hinit⟩, heq⟩ := Option.ite_none_right_eq_some.mp h
    obtain rfl := Option.some.inj heq
    rw [Table.view_exit hinit]
    exact .exit (hat.idle rfl) hinit
  | wait p r =>
    obtain ⟨⟨hat, rfl⟩, heq⟩ := Option.ite_none_right_eq_some.mp h
    obtain rfl := Option.some.inj heq
    have hidle : (s.enter p).view.Idle p := by
      rw [Table.view_enter]
      exact hat.elim (·.idle rfl) (·.idle rfl)
    rw [← s.view_enter p]
    generalize s.enter p = t at hidle ⊢
    rcases t.wait_cases p with ⟨q, hr, hparent, hstate, ht⟩ | ⟨hr, ht, -⟩ | ⟨hr, ht⟩
    · rw [hr, ht, Table.view_goto_eq, Table.view_set]
      · exact .reap hidle hparent (congrArg State.phase hstate)
      · exact hidle.2
    · rw [hr, ht, Table.view_goto_eq]
      · exact .quiet (by simp)
      · exact hidle.2
    · rw [hr, ht, Table.view_goto_eq]
      · rw [Table.sleep, Table.view_set_state rfl hidle.1 rfl rfl rfl]
        exact .quiet (by simp)
      · exact hidle.2
  | kill p pid r =>
    obtain ⟨⟨hat, rfl⟩, heq⟩ := Option.ite_none_right_eq_some.mp h
    obtain rfl := Option.some.inj heq
    rcases s.kill_cases pid with ⟨q, hr, rfl, hbefore, hview⟩ | ⟨hr, -, hs⟩
    · rw [hr, hview]
      exact .kill (hat.idle rfl) hbefore
    · rw [hs]
      exact .quiet (by simp)
  | sleep p a =>
    obtain ⟨hat, heq⟩ := Option.ite_none_right_eq_some.mp h
    obtain rfl := Option.some.inj heq
    rw [Table.view_goto_eq]
    · rw [Table.sleep, Table.view_set_state rfl (hat.idle rfl).1 rfl rfl rfl]
      exact .quiet (by simp)
    · exact (hat.idle rfl).2
  | awake p =>
    obtain ⟨hat, heq⟩ := Option.ite_none_right_eq_some.mp h
    obtain rfl := Option.some.inj heq
    rw [Table.view_goto_eq, Table.view_tidy]
    · exact .quiet (by simp)
    · exact (hat.idle rfl).2
  | wakeup chan =>
    obtain rfl := Option.some.inj h
    rw [Table.view_wakeup1]
    exact .quiet (by simp)
  | yield p =>
    obtain ⟨hrun, heq⟩ := Option.ite_none_right_eq_some.mp h
    obtain rfl := Option.some.inj heq
    rw [Table.view_set_state rfl (Table.live_of_running hrun) rfl rfl rfl]
    exact .quiet (by simp)
  | schedule p =>
    obtain ⟨hrun, heq⟩ := Option.ite_none_right_eq_some.mp h
    obtain rfl := Option.some.inj heq
    rw [Table.view_set_state rfl (congrArg State.phase hrun) rfl rfl rfl]
    exact .quiet (by simp)

/-- When a call of `wait` returns a pid. -/
theorem Step.wait_reaped {s s' : Table} {p q : ProcNo} {pid : UInt32}
    (h : Step s (.wait p (.reaped q pid)) s') :
    (s.proc q).state = .zombie ∧ (s.proc q).parent = some p ∧ (s.proc q).pid = pid ∧
      (s'.proc q).state = .unused := by
  have hm := h.move
  generalize hv : s.view = v, hv' : s'.view = v' at hm
  cases hm with
  | quiet he => exact absurd rfl (he p q pid).2.2.2
  | unfork _ he => exact absurd he (by simp)
  | reap hp hparent hq =>
    subst hv
    have hunused : s'.view.phase q = .unused := by rw [hv']; exact update_self ..
    exact ⟨State.phase_eq_zombie.mp hq, hparent, rfl, State.phase_eq_unused.mp hunused⟩

end ChronoFS.Ptable
