import ChronoFS.Log.Steps
import Mathlib.Tactic

/-!
# Who is in the log, and when

`Control` relates `log.outstanding`, `log.committing` and `log.lh` to the processes and to the
history: `outstanding` counts the processes between their `begin_op` and `end_op`, a commit runs
only when there are none, and outside a recovery `log.lh` lists the blocks logged since the log was
last emptied, each once. `control_step` shows that every step keeps it. That `end_op` never finds a
commit running, and `log_write` never finds itself outside a transaction, follows in
`ChronoFS.Log.Admission`.
-/

namespace ChronoFS.Log

open Function

variable {s s' : State} {p : ℕ} {b : UInt32}

/-- The process is between its `begin_op` and its `end_op`. -/
def Pos.Active : Pos → Prop
  | .inOp _ _ | .inLogWrite _ _ _ => True
  | .out | .inCommit => False

/-- `commit` is running, or its `end_op` has yet to say that it is done. -/
def Phase.InCommit : Phase → Prop
  | .writeLog _ | .installTrans _ | .committed => True
  | .running | .booted | .recovering _ => False

/-- `recover_from_log` is running. -/
def Phase.InRecovery : Phase → Prop
  | .booted | .recovering _ => True
  | _ => False

/-- The blocks logged since the log was last emptied. -/
def State.logged (s : State) : Finset UInt32 := (s.cur.map Write.block).toFinset

/-- How `struct log` relates to the processes and to the history. -/
structure Control (s : State) : Prop where
  /-- `outstanding` counts the processes in an operation. -/
  busy : ∃ l : List ℕ, l.Nodup ∧ l.length = s.outstanding ∧ ∀ p, p ∈ l ↔ (s.pos p).Active
  /-- `committing` is set while `commit` runs. -/
  committing : s.committing = true ↔ s.phase.InCommit
  /-- `commit` and `recover_from_log` run when no operation is outstanding. -/
  quiet : s.phase ≠ .running → s.outstanding = 0
  /-- `log.lh` lists a block once. -/
  nodup : ¬ s.phase.InRecovery → s.lh.Nodup
  /-- Until its header is written, a transaction's blocks are those of `log.lh`. -/
  same : (s.phase = .running ∨ ∃ t, s.phase = .writeLog t) → s.lh.toFinset = s.logged
  /-- Afterwards there is no current transaction. -/
  done : ¬ (s.phase = .running ∨ ∃ t, s.phase = .writeLog t) → s.cur = []
  /-- `commit` is done when the log is empty. -/
  empty : s.phase = .committed → s.lh = []

/-- An absorbed list has no block twice. -/
theorem absorb_nodup {lh : List UInt32} (h : lh.Nodup) (b : UInt32) : (absorb lh b).Nodup := by
  unfold absorb
  split
  · exact h
  · rename_i hb
    exact List.nodup_append.mpr ⟨h, by simp, by rintro a ha c hc rfl; simp_all⟩

/-- Absorption adds the block. -/
theorem mem_absorb {lh : List UInt32} {b c : UInt32} : c ∈ absorb lh b ↔ c = b ∨ c ∈ lh := by
  unfold absorb
  split
  · rename_i hb
    constructor
    · exact .inr
    · rintro (rfl | h)
      · exact hb
      · exact h
  · simp [or_comm]

namespace Control

/-- A process in an operation is counted. -/
theorem outstanding_pos (h : Control s) (hp : (s.pos p).Active) : 1 ≤ s.outstanding := by
  obtain ⟨l, -, hlen, hmem⟩ := h.busy
  rw [← hlen]
  exact List.length_pos_of_mem ((hmem p).mpr hp)

/-- While a process is in an operation, neither `commit` nor `recover_from_log` runs. -/
theorem running_of_active (h : Control s) (hp : (s.pos p).Active) : s.phase = .running := by
  by_contra hne
  have := h.quiet hne
  have := h.outstanding_pos hp
  omega

/-- While a process is in an operation, `committing` is not set. -/
theorem not_committing_of_active (h : Control s) (hp : (s.pos p).Active) :
    s.committing = false := by
  have hrun := h.running_of_active hp
  have : ¬ s.committing = true := by
    rw [h.committing, hrun]
    exact fun h => h
  simpa using this

end Control

/-! ## Every step keeps it -/

/-- Moving one process between positions of the same kind keeps the count. -/
theorem busy_upd {l : List ℕ} {pos : ℕ → Pos} {q : Pos} (hmem : ∀ p, p ∈ l ↔ (pos p).Active)
    (hq : q.Active ↔ (pos p).Active) (p' : ℕ) : p' ∈ l ↔ (update pos p q p').Active := by
  by_cases h : p' = p
  · subst h
    rw [update_self, hq, hmem]
  · rw [update_of_ne h, hmem]

/-- A process leaves its operation. -/
theorem busy_leave {l : List ℕ} {pos : ℕ → Pos} {q : Pos} (hnd : l.Nodup)
    (hmem : ∀ p, p ∈ l ↔ (pos p).Active) (hp : (pos p).Active) (hq : ¬ q.Active) :
    (l.erase p).Nodup ∧ (l.erase p).length = l.length - 1 ∧
      ∀ p', p' ∈ l.erase p ↔ (update pos p q p').Active := by
  refine ⟨hnd.erase p, List.length_erase_of_mem ((hmem p).mpr hp), fun p' => ?_⟩
  rw [hnd.mem_erase_iff]
  by_cases h : p' = p
  · subst h
    simp [hq]
  · rw [update_of_ne h, hmem]
    simp [h]

theorem control_beginOp (h : Control s) (hs : step s (.beginOp p) = .ok s') : Control s' := by
  obtain ⟨hpos, hc, ⟨hb, hr⟩, -, rfl⟩ := step_beginOp hs
  obtain ⟨l, hnd, hlen, hmem⟩ := h.busy
  have hp : p ∉ l := by
    rw [hmem, hpos]
    exact fun h => h
  have hrun : s.phase = .running := by
    cases hph : s.phase with
    | running => rfl
    | booted => exact absurd hph hb
    | recovering t => exact absurd hph (hr t)
    | writeLog t => exact absurd (h.committing.mpr (by rw [hph]; trivial)) (by simp [hc])
    | installTrans t => exact absurd (h.committing.mpr (by rw [hph]; trivial)) (by simp [hc])
    | committed => exact absurd (h.committing.mpr (by rw [hph]; trivial)) (by simp [hc])
  refine ⟨⟨p :: l, ?_, ?_, ?_⟩, h.committing, ?_, h.nodup, h.same, h.done, h.empty⟩
  · exact List.nodup_cons.mpr ⟨hp, hnd⟩
  · simp [hlen]
  · intro p'
    by_cases hpp : p' = p
    · subst hpp
      simp [Pos.Active]
    · simp [hpp, hmem]
  · intro hne
    exact absurd hrun hne

theorem control_logWriteCheck (h : Control s) (hs : step s (.logWriteCheck p b) = .ok s') :
    Control s' := by
  obtain ⟨op, calls, hpos, -, -, -, rfl⟩ := step_logWriteCheck hs
  obtain ⟨l, hnd, hlen, hmem⟩ := h.busy
  refine ⟨⟨l, hnd, hlen, busy_upd hmem ?_⟩, h.committing, h.quiet, h.nodup, h.same, h.done,
    h.empty⟩
  rw [hpos]
  exact Iff.rfl

theorem control_logWrite {data : Block} (h : Control s) (hs : step s (.logWrite p data) = .ok s') :
    Control s' := by
  obtain ⟨op, calls, b, hpos, rfl⟩ := step_logWrite hs
  obtain ⟨l, hnd, hlen, hmem⟩ := h.busy
  have hact : (s.pos p).Active := by
    rw [hpos]
    trivial
  have hrun := h.running_of_active hact
  refine ⟨⟨l, hnd, hlen, busy_upd hmem ?_⟩, h.committing, h.quiet, ?_, ?_, ?_, ?_⟩
  · rw [hpos]
    exact Iff.rfl
  · exact fun hrec => absorb_nodup (h.nodup hrec) b
  · intro hph
    have hsame := h.same hph
    ext c
    simp only [State.logged, List.mem_toFinset, mem_absorb, List.map_append, List.map_cons,
      List.map_nil, List.mem_append, List.mem_singleton]
    rw [← List.mem_toFinset, hsame, State.logged, List.mem_toFinset, or_comm]
  · exact fun hne => absurd (.inl hrun) hne
  · intro hph
    rw [hrun] at hph
    cases hph

theorem control_endOp (h : Control s) (hs : step s (.endOp p) = .ok s') : Control s' := by
  obtain ⟨op, calls, hpos, hc, hcase⟩ := step_endOp hs
  obtain ⟨l, hnd, hlen, hmem⟩ := h.busy
  have hact : (s.pos p).Active := by
    rw [hpos]
    trivial
  have hrun := h.running_of_active hact
  obtain ⟨hle, rfl⟩ | ⟨hlt, rfl⟩ := hcase
  · -- the last operation: `commit` starts, or has nothing to do
    obtain ⟨h1, h2, h3⟩ := busy_leave (q := .inCommit) hnd hmem hact (fun h => h)
    have hnil := h.same (.inl hrun)
    refine ⟨⟨l.erase p, h1, by rw [h2, hlen]; dsimp only; omega, h3⟩, ?_, fun _ => rfl, ?_, ?_, ?_, ?_⟩
    · dsimp only
      split <;> simp [Phase.InCommit]
    · exact fun _ => h.nodup (by rw [hrun]; exact fun h => h)
    · exact fun _ => hnil
    · intro hne
      dsimp only at hne ⊢
      split at hne
      · exact absurd (.inr ⟨0, rfl⟩) hne
      · rename_i hz
        have hlh : s.lh = [] := List.length_eq_zero_iff.mp (by omega)
        rw [hlh, State.logged] at hnil
        simpa using hnil.symm
    · intro hph
      dsimp only at hph ⊢
      split at hph
      · cases hph
      · exact List.length_eq_zero_iff.mp (by omega)
  · obtain ⟨h1, h2, h3⟩ := busy_leave (q := .out) hnd hmem hact (fun h => h)
    refine ⟨⟨l.erase p, h1, by rw [h2, hlen], h3⟩, h.committing, ?_, h.nodup, h.same, h.done,
      h.empty⟩
    exact fun hne => absurd hrun hne

/-- A step of `commit` or `recover_from_log` that moves from one phase to another, leaving the
processes alone. -/
theorem Control.of_phase (h : Control s) (hpos : s'.pos = s.pos)
    (hout : s'.outstanding = s.outstanding) (hcm : s'.committing = s.committing)
    (hq : s.outstanding = 0) (hic : s'.phase.InCommit ↔ s.phase.InCommit)
    (hnd : ¬ s'.phase.InRecovery → s'.lh.Nodup)
    (hsame : (s'.phase = .running ∨ ∃ t, s'.phase = .writeLog t) → s'.lh.toFinset = s'.logged)
    (hdone : ¬ (s'.phase = .running ∨ ∃ t, s'.phase = .writeLog t) → s'.cur = [])
    (hempty : s'.phase = .committed → s'.lh = []) : Control s' where
  busy := by
    rw [hpos, hout]
    exact h.busy
  committing := by
    rw [hcm, hic]
    exact h.committing
  quiet := fun _ => hout.trans hq
  nodup := hnd
  same := hsame
  done := hdone
  empty := hempty

theorem control_writeLog (h : Control s) (hs : step s .writeLog = .ok s') : Control s' := by
  obtain ⟨t, hph, -, rfl⟩ := step_writeLog hs
  refine h.of_phase rfl rfl rfl (h.quiet (by rw [hph]; nofun)) ?_ ?_ ?_ ?_ (by nofun)
  · rw [hph]
    exact Iff.rfl
  · exact fun _ => h.nodup (by rw [hph]; exact fun h => h)
  · exact fun _ => h.same (.inr ⟨t, hph⟩)
  · exact fun hne => absurd (.inr ⟨t + 1, rfl⟩) hne

theorem control_writeHead (h : Control s) (hs : step s .writeHead = .ok s') : Control s' := by
  obtain ⟨t, hph, -, rfl⟩ := step_writeHead hs
  refine h.of_phase rfl rfl rfl (h.quiet (by rw [hph]; nofun)) ?_ ?_ (by nofun) (fun _ => rfl)
    (by nofun)
  · rw [hph]
    exact Iff.rfl
  · exact fun _ => h.nodup (by rw [hph]; exact fun h => h)

theorem control_installTrans (h : Control s) (hs : step s .installTrans = .ok s') :
    Control s' := by
  obtain ⟨t, hph, -, rfl⟩ := step_installTrans hs
  refine h.of_phase rfl rfl rfl (h.quiet (by rw [hph]; nofun)) ?_ ?_ (by nofun) ?_ (by nofun)
  · rw [hph]
    exact Iff.rfl
  · exact fun _ => h.nodup (by rw [hph]; exact fun h => h)
  · exact fun _ => h.done (by rw [hph]; nofun)

theorem control_eraseHead (h : Control s) (hs : step s .eraseHead = .ok s') : Control s' := by
  obtain ⟨t, hph, -, rfl⟩ := step_eraseHead hs
  refine h.of_phase rfl rfl rfl (h.quiet (by rw [hph]; nofun)) ?_ ?_ (by nofun) ?_ (fun _ => rfl)
  · rw [hph]
    exact Iff.rfl
  · exact fun _ => List.nodup_nil
  · exact fun _ => h.done (by rw [hph]; nofun)

theorem control_finish (h : Control s) (hs : step s (.finish p) = .ok s') : Control s' := by
  obtain ⟨hph, hpos, rfl⟩ := step_finish hs
  obtain ⟨l, hnd, hlen, hmem⟩ := h.busy
  have hlh := h.empty hph
  refine ⟨⟨l, hnd, hlen, busy_upd hmem ?_⟩, ?_, by nofun, ?_, ?_, ?_, by nofun⟩
  · rw [hpos]
    exact Iff.rfl
  · exact ⟨by nofun, fun h => h.elim⟩
  · intro _
    change s.lh.Nodup
    rw [hlh]
    exact List.nodup_nil
  · intro _
    change s.lh.toFinset = (s.cur.map Write.block).toFinset
    rw [hlh, h.done (by rw [hph]; nofun)]
    rfl
  · exact fun hne => absurd (.inl rfl) hne

theorem control_crash (hs : step s .crash = .ok s') : Control s' := by
  obtain rfl := step_crash hs
  refine ⟨⟨[], List.nodup_nil, rfl, fun p => ?_⟩, ?_, fun _ => rfl, fun _ => List.nodup_nil,
    fun _ => rfl, fun _ => rfl, fun _ => rfl⟩
  · exact ⟨by nofun, fun h => h.elim⟩
  · exact ⟨by nofun, fun h => h.elim⟩

theorem control_recoverHead (h : Control s) (hs : step s .recoverHead = .ok s') :
    Control s' := by
  obtain ⟨hph, rfl⟩ := step_recoverHead hs
  refine h.of_phase rfl rfl rfl (h.quiet (by rw [hph]; nofun)) ?_ ?_ (by nofun) ?_ (by nofun)
  · rw [hph]
    exact Iff.rfl
  · exact fun hne => absurd trivial hne
  · exact fun _ => h.done (by rw [hph]; nofun)

theorem control_recoverInstall (h : Control s) (hs : step s .recoverInstall = .ok s') :
    Control s' := by
  obtain ⟨t, hph, -, rfl⟩ := step_recoverInstall hs
  refine h.of_phase rfl rfl rfl (h.quiet (by rw [hph]; nofun)) ?_ ?_ (by nofun) ?_ (by nofun)
  · rw [hph]
    exact Iff.rfl
  · exact fun hne => absurd trivial hne
  · exact fun _ => h.done (by rw [hph]; nofun)

theorem control_recoverErase (h : Control s) (hs : step s .recoverErase = .ok s') :
    Control s' := by
  obtain ⟨t, hph, -, rfl⟩ := step_recoverErase hs
  have hcur : s.cur = [] := h.done (by rw [hph]; nofun)
  refine h.of_phase rfl rfl rfl (h.quiet (by rw [hph]; nofun)) ?_ ?_ ?_ ?_ (by nofun)
  · rw [hph]
    exact Iff.rfl
  · exact fun _ => List.nodup_nil
  · intro _
    change (∅ : Finset UInt32) = (s.cur.map Write.block).toFinset
    rw [hcur]
    rfl
  · exact fun hne => absurd (.inl rfl) hne

/-- Every step keeps `Control`. -/
theorem control_step {e : Event} (h : Control s) (hs : step s e = .ok s') : Control s' := by
  cases e with
  | beginOp p => exact control_beginOp h hs
  | logWriteCheck p b => exact control_logWriteCheck h hs
  | logWrite p data => exact control_logWrite h hs
  | endOp p => exact control_endOp h hs
  | writeLog => exact control_writeLog h hs
  | writeHead => exact control_writeHead h hs
  | installTrans => exact control_installTrans h hs
  | eraseHead => exact control_eraseHead h hs
  | finish p => exact control_finish h hs
  | load b =>
    obtain ⟨-, rfl⟩ := step_load hs
    exact ⟨h.busy, h.committing, h.quiet, h.nodup, h.same, h.done, h.empty⟩
  | evict b =>
    obtain ⟨-, rfl⟩ := step_evict hs
    exact ⟨h.busy, h.committing, h.quiet, h.nodup, h.same, h.done, h.empty⟩
  | crash => exact control_crash hs
  | recoverHead => exact control_recoverHead h hs
  | recoverInstall => exact control_recoverInstall h hs
  | recoverErase => exact control_recoverErase h hs

/-- The machine boots with no process in the log. -/
theorem control_boot (d : ℕ → Block) (start size : ℕ) : Control (boot d start size) := by
  refine ⟨⟨[], List.nodup_nil, rfl, fun p => ?_⟩, ?_, fun _ => rfl, fun _ => List.nodup_nil,
    fun _ => rfl, fun _ => rfl, fun _ => rfl⟩
  · exact ⟨by nofun, fun h => h.elim⟩
  · exact ⟨by nofun, fun h => h.elim⟩

end ChronoFS.Log
