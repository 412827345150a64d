import ChronoFS.Log.Crash

/-!
# Transactions are atomic

`crash_atomicity` puts the parts together. At every point of every run, after a crash,
`recover_from_log` leaves the home blocks as the transactions whose first `write_head` completed
left them, which is a prefix of the transactions that `commit` was called on; and the `log_write`s
of one `begin_op`/`end_op` section belong to one transaction, so they are all there or all absent.

`Sections` follows the operations: the `log_write`s of one `begin_op`/`end_op` section are in the
current transaction together, or in one committed transaction together.

`recoverFromLog` runs `recover_from_log` in one go. `recover_disk` shows that it ends where the
steps of a boot without a crash end, so the invariant of the steps applies to it.
-/

namespace ChronoFS.Log

variable {s s' : State} {p : ℕ} {d₀ : ℕ → Block}

/-! ## The operations of a transaction -/

/-- The operation that the process is in. -/
def Pos.op : Pos → Option ℕ
  | .inOp op _ | .inLogWrite op _ _ => some op
  | .out | .inCommit => none

/-- The `log_write`s of an operation are in one transaction. -/
structure Sections (s : State) : Prop where
  /-- Operations are numbered in the order in which they begin. -/
  fresh : ∀ w ∈ s.made, w.op < s.nextOp
  /-- The current transaction consists of `log_write`s that were made. -/
  curMade : ∀ w ∈ s.cur, w ∈ s.made
  /-- So do the committed ones. -/
  transMade : ∀ t ∈ s.trans, ∀ w ∈ t, w ∈ s.made
  /-- All that an operation in progress logged is in the current transaction. -/
  active : ∀ p op, (s.pos p).op = some op → ∀ w ∈ s.made, w.op = op → w ∈ s.cur
  /-- The current transaction has all of an operation, or nothing. -/
  cur : ∀ w ∈ s.cur, ∀ w' ∈ s.made, w'.op = w.op → w' ∈ s.cur
  /-- So has a committed one. -/
  trans : ∀ t ∈ s.trans, ∀ w ∈ t, ∀ w' ∈ s.made, w'.op = w.op → w' ∈ t
  /-- No operation is in the current transaction and in a committed one. -/
  apart : ∀ w ∈ s.cur, ∀ t ∈ s.trans, ∀ w' ∈ t, w.op ≠ w'.op
  /-- No operation is in two committed transactions. -/
  pairwise : s.trans.Pairwise fun t t' => ∀ w ∈ t, ∀ w' ∈ t', w.op ≠ w'.op

/-- A step that logs nothing and lets no process into a new operation. -/
theorem Sections.of_pos (h : Sections s) (hnext : s'.nextOp = s.nextOp) (hmade : s'.made = s.made)
    (hcur : s'.cur = s.cur) (htrans : s'.trans = s.trans)
    (hpos : ∀ p op, (s'.pos p).op = some op → (s.pos p).op = some op) : Sections s' := by
  refine ⟨?_, ?_, ?_, ?_, ?_, ?_, ?_, ?_⟩
  · rw [hmade, hnext]
    exact h.fresh
  · rw [hcur, hmade]
    exact h.curMade
  · rw [htrans, hmade]
    exact h.transMade
  · rw [hmade, hcur]
    exact fun p op hp => h.active p op (hpos p op hp)
  · rw [hcur, hmade]
    exact h.cur
  · rw [htrans, hmade]
    exact h.trans
  · rw [hcur, htrans]
    exact h.apart
  · rw [htrans]
    exact h.pairwise

theorem sections_beginOp (h : Sections s) (hs : step s (.beginOp p) = .ok s') : Sections s' := by
  obtain ⟨-, -, -, -, rfl⟩ := step_beginOp hs
  refine ⟨fun w hw => Nat.lt_succ_of_lt (h.fresh w hw), h.curMade, h.transMade, ?_, h.cur, h.trans,
    h.apart, h.pairwise⟩
  intro p' op hp' w hw hop
  by_cases hpp : p' = p
  · subst hpp
    dsimp only at hp'
    rw [Function.update_self] at hp'
    cases hp'
    -- an operation that has just begun has logged nothing
    have := h.fresh w hw
    omega
  · dsimp only at hp'
    rw [Function.update_of_ne hpp] at hp'
    exact h.active p' op hp' w hw hop

theorem sections_logWrite {data : Block} (h : Sections s) (hs : step s (.logWrite p data) = .ok s')
    (hop : ∀ op calls b, s.pos p = .inLogWrite op calls b → op < s.nextOp) : Sections s' := by
  obtain ⟨op, calls, b, hpos, rfl⟩ := step_logWrite hs
  have hact : (s.pos p).op = some op := by rw [hpos]; rfl
  -- nothing of this operation is in a committed transaction
  have hapart : ∀ t ∈ s.trans, ∀ w' ∈ t, op ≠ w'.op := by
    intro t ht w' hw' heq
    have hin := h.active p op hact w' (h.transMade t ht w' hw') heq.symm
    exact h.apart w' hin t ht w' hw' rfl
  refine ⟨?_, ?_, ?_, ?_, ?_, ?_, ?_, h.pairwise⟩
  · intro w hw
    rcases List.mem_cons.mp hw with rfl | hw
    · exact hop op calls b hpos
    · exact h.fresh w hw
  · intro w hw
    rcases List.mem_append.mp hw with hw | hw
    · exact List.mem_cons_of_mem _ (h.curMade w hw)
    · rw [List.mem_singleton.mp hw]
      exact List.mem_cons_self
  · exact fun t ht w hw => List.mem_cons_of_mem _ (h.transMade t ht w hw)
  · intro p' op' hp' w hw hwop
    rcases List.mem_cons.mp hw with rfl | hold
    · exact List.mem_append_right _ (List.mem_singleton.mpr rfl)
    · apply List.mem_append_left
      by_cases hpp : p' = p
      · subst hpp
        dsimp only at hp'
        rw [Function.update_self] at hp'
        exact h.active p' op' (hact.trans hp') w hold hwop
      · dsimp only at hp'
        rw [Function.update_of_ne hpp] at hp'
        exact h.active p' op' hp' w hold hwop
  · intro w hw w' hw' heq
    rcases List.mem_cons.mp hw' with rfl | hw'
    · exact List.mem_append_right _ (List.mem_singleton.mpr rfl)
    · apply List.mem_append_left
      rcases List.mem_append.mp hw with hw | hw
      · exact h.cur w hw w' hw' heq
      · rw [List.mem_singleton.mp hw] at heq
        exact h.active p op hact w' hw' heq
  · intro t ht w hw w' hw' heq
    rcases List.mem_cons.mp hw' with rfl | hw'
    · exact absurd heq (hapart t ht w hw)
    · exact h.trans t ht w hw w' hw' heq
  · intro w hw t ht w' hw'
    rcases List.mem_append.mp hw with hw | hw
    · exact h.apart w hw t ht w' hw'
    · rw [List.mem_singleton.mp hw]
      exact hapart t ht w' hw'

theorem sections_writeHead (hctl : Control s) (h : Sections s) (hs : step s .writeHead = .ok s') :
    Sections s' := by
  obtain ⟨t, hph, -, rfl⟩ := step_writeHead hs
  have hidle : ∀ p op, (s.pos p).op ≠ some op := by
    intro p op hp
    have hact : (s.pos p).Active := by
      cases hpos : s.pos p with
      | inOp _ _ => trivial
      | inLogWrite _ _ _ => trivial
      | out => rw [hpos] at hp; cases hp
      | inCommit => rw [hpos] at hp; cases hp
    have hrun := hctl.running_of_active hact
    rw [hph] at hrun
    cases hrun
  refine ⟨h.fresh, by nofun, ?_, ?_, by nofun, ?_, by nofun, ?_⟩
  · intro u hu w hw
    rcases List.mem_append.mp hu with hu | hu
    · exact h.transMade u hu w hw
    · rw [List.mem_singleton.mp hu] at hw
      exact h.curMade w hw
  · exact fun p op hp => absurd hp (hidle p op)
  · intro u hu w hw w' hw' heq
    rcases List.mem_append.mp hu with hu | hu
    · exact h.trans u hu w hw w' hw' heq
    · rw [List.mem_singleton.mp hu] at hw ⊢
      exact h.cur w hw w' hw' heq
  · refine List.pairwise_append.mpr ⟨h.pairwise, List.pairwise_singleton _ _, ?_⟩
    intro u hu v hv w hw w' hw' heq
    rw [List.mem_singleton.mp hv] at hw'
    exact h.apart w' hw' u hu w hw heq.symm

/-- Operations in progress have begun. -/
theorem active_begun {e : Event} (h : ∀ p op, (s.pos p).op = some op → op < s.nextOp)
    (hs : step s e = .ok s') : ∀ p op, (s'.pos p).op = some op → op < s'.nextOp := by
  have hupd : ∀ {q : Pos} {p : ℕ}, (∀ op, q.op = some op → (s.pos p).op = some op) →
      ∀ p' op, (Function.update s.pos p q p').op = some op → op < s.nextOp := by
    intro q p hq p' op hp'
    by_cases hpp : p' = p
    · subst hpp
      rw [Function.update_self] at hp'
      exact h p' op (hq op hp')
    · rw [Function.update_of_ne hpp] at hp'
      exact h p' op hp'
  cases e with
  | beginOp p =>
    obtain ⟨-, -, -, -, rfl⟩ := step_beginOp hs
    intro p' op hp'
    by_cases hpp : p' = p
    · subst hpp
      dsimp only at hp'
      rw [Function.update_self] at hp'
      cases hp'
      exact Nat.lt_succ_self _
    · dsimp only at hp'
      rw [Function.update_of_ne hpp] at hp'
      exact Nat.lt_succ_of_lt (h p' op hp')
  | logWriteCheck p b =>
    obtain ⟨op, calls, hpos, -, -, -, rfl⟩ := step_logWriteCheck hs
    exact hupd (by rw [hpos]; exact fun _ h => h)
  | logWrite p data =>
    obtain ⟨op, calls, b, hpos, rfl⟩ := step_logWrite hs
    exact hupd (by rw [hpos]; exact fun _ h => h)
  | endOp p =>
    obtain ⟨op, calls, hpos, -, hcase⟩ := step_endOp hs
    obtain ⟨-, rfl⟩ | ⟨-, rfl⟩ := hcase
    · exact hupd (by nofun)
    · exact hupd (by nofun)
  | writeLog => obtain ⟨-, -, -, rfl⟩ := step_writeLog hs; exact h
  | writeHead => obtain ⟨-, -, -, rfl⟩ := step_writeHead hs; exact h
  | installTrans => obtain ⟨-, -, -, rfl⟩ := step_installTrans hs; exact h
  | eraseHead => obtain ⟨-, -, -, rfl⟩ := step_eraseHead hs; exact h
  | finish p =>
    obtain ⟨-, -, rfl⟩ := step_finish hs
    exact hupd (by nofun)
  | load b => obtain ⟨-, rfl⟩ := step_load hs; exact h
  | evict b => obtain ⟨-, rfl⟩ := step_evict hs; exact h
  | crash =>
    obtain rfl := step_crash hs
    nofun
  | recoverHead => obtain ⟨-, rfl⟩ := step_recoverHead hs; exact h
  | recoverInstall => obtain ⟨-, -, -, rfl⟩ := step_recoverInstall hs; exact h
  | recoverErase => obtain ⟨-, -, -, rfl⟩ := step_recoverErase hs; exact h

/-- Every step keeps `Sections`. -/
theorem sections_step {e : Event} (hctl : Control s) (h : Sections s)
    (hop : ∀ p op, (s.pos p).op = some op → op < s.nextOp) (hs : step s e = .ok s') :
    Sections s' := by
  -- a process that stays where it is, or leaves its operation
  have hupd : ∀ {q : Pos} {p : ℕ}, (∀ op, q.op = some op → (s.pos p).op = some op) →
      ∀ p' op, (Function.update s.pos p q p').op = some op → (s.pos p').op = some op := by
    intro q p hq p' op hp'
    by_cases hpp : p' = p
    · subst hpp
      rw [Function.update_self] at hp'
      exact hq op hp'
    · rw [Function.update_of_ne hpp] at hp'
      exact hp'
  cases e with
  | beginOp p => exact sections_beginOp h hs
  | logWriteCheck p b =>
    obtain ⟨op, calls, hpos, -, -, -, rfl⟩ := step_logWriteCheck hs
    exact h.of_pos rfl rfl rfl rfl (hupd (by rw [hpos]; exact fun _ h => h))
  | logWrite p data =>
    refine sections_logWrite h hs fun op calls b hpos => hop p op ?_
    rw [hpos]
    rfl
  | endOp p =>
    obtain ⟨op, calls, hpos, -, hcase⟩ := step_endOp hs
    obtain ⟨-, rfl⟩ | ⟨-, rfl⟩ := hcase
    · exact h.of_pos rfl rfl rfl rfl (hupd (by nofun))
    · exact h.of_pos rfl rfl rfl rfl (hupd (by nofun))
  | writeLog =>
    obtain ⟨-, -, -, rfl⟩ := step_writeLog hs
    exact h.of_pos rfl rfl rfl rfl fun _ _ h => h
  | writeHead => exact sections_writeHead hctl h hs
  | installTrans =>
    obtain ⟨-, -, -, rfl⟩ := step_installTrans hs
    exact h.of_pos rfl rfl rfl rfl fun _ _ h => h
  | eraseHead =>
    obtain ⟨-, -, -, rfl⟩ := step_eraseHead hs
    exact h.of_pos rfl rfl rfl rfl fun _ _ h => h
  | finish p =>
    obtain ⟨-, -, rfl⟩ := step_finish hs
    exact h.of_pos rfl rfl rfl rfl (hupd (by nofun))
  | load b => obtain ⟨-, rfl⟩ := step_load hs; exact h.of_pos rfl rfl rfl rfl fun _ _ h => h
  | evict b => obtain ⟨-, rfl⟩ := step_evict hs; exact h.of_pos rfl rfl rfl rfl fun _ _ h => h
  | crash =>
    -- the current transaction is lost as a whole
    obtain rfl := step_crash hs
    exact ⟨h.fresh, by nofun, h.transMade, by nofun, by nofun, h.trans, by nofun, h.pairwise⟩
  | recoverHead =>
    obtain ⟨-, rfl⟩ := step_recoverHead hs
    exact h.of_pos rfl rfl rfl rfl fun _ _ h => h
  | recoverInstall =>
    obtain ⟨-, -, -, rfl⟩ := step_recoverInstall hs
    exact h.of_pos rfl rfl rfl rfl fun _ _ h => h
  | recoverErase =>
    obtain ⟨-, -, -, rfl⟩ := step_recoverErase hs
    exact h.of_pos rfl rfl rfl rfl fun _ _ h => h

/-! ## Recovery in one go -/

/-- The steps of `recover_from_log` after `n` iterations of `install_trans`. -/
def recovered (s : State) (n : ℕ) : State :=
  { (List.range n).foldl installAt (readHead (crash s)) with phase := .recovering n }

theorem recovered_succ (s : State) (n : ℕ) :
    recovered s (n + 1) = { installAt (recovered s n) n with phase := .recovering (n + 1) } := by
  unfold recovered
  rw [List.range_succ, List.foldl_append]
  rfl

/-- `install_trans` leaves the log as it was. -/
theorem recovered_lh (s : State) (n : ℕ) : (recovered s n).lh = (readHead (crash s)).lh := by
  induction n with
  | zero => rfl
  | succ n ih =>
    rw [recovered_succ]
    exact ih

/-- The invariant holds between the iterations. -/
theorem inv_recovered (h : Inv d₀ s) (n : ℕ) (hn : n ≤ (readHead (crash s)).lh.length) :
    Inv d₀ (recovered s n) := by
  induction n with
  | zero => exact inv_recoverHead (inv_crash h) rfl
  | succ n ih =>
    have hlt : n < (recovered s n).lh.length := by
      rw [recovered_lh]
      exact hn
    rw [recovered_succ]
    exact inv_install (ih (Nat.le_of_succ_le hn)) (.inr rfl) hlt ⟨rfl, rfl, rfl, rfl⟩ rfl rfl
      (.inr rfl)

/-- `install_trans` moves neither the log nor the committed transactions. -/
theorem recovered_frame (s : State) (n : ℕ) :
    (recovered s n).start = s.start ∧ (recovered s n).size = s.size ∧
      (recovered s n).trans = s.trans := by
  induction n with
  | zero => exact ⟨rfl, rfl, rfl⟩
  | succ n ih =>
    rw [recovered_succ]
    exact ih

/-- After a crash, `recover_from_log` leaves the home blocks as the committed transactions left
them. -/
theorem recover_disk (h : Inv d₀ s) {b : ℕ} (hb : s.Home b) :
    (recoverFromLog (crash s)).disk b = homeAfter d₀ s.trans b := by
  have hlen := recovered_lh s (readHead (crash s)).lh.length
  obtain ⟨hstart, hsize, htrans⟩ := recovered_frame s (readHead (crash s)).lh.length
  have hinv := inv_recovered h _ (Nat.le_refl _)
  have hb' : (recovered s (readHead (crash s)).lh.length).Home b := by
    unfold State.Home
    rw [hstart, hsize]
    exact hb
  -- the last write goes to the header block, which is not a home block
  have hdisk : (recoverFromLog (crash s)).disk b =
      (recovered s (readHead (crash s)).lh.length).disk b :=
    Function.update_of_ne (hinv.home_ne hb').1 _ _
  rw [hdisk, ← htrans]
  exact hinv.disk_eq_of_installed (.inr rfl) (by rw [hlen]) hb'

/-! ## Runs -/

/-- The transactions that `commit` was called on: those whose header is written, and the one whose
blocks `write_log` is writing. -/
def State.commits (s : State) : List (List Write) :=
  match s.phase with
  | .writeLog _ => s.trans ++ [s.cur]
  | _ => s.trans

theorem trans_prefix_commits (s : State) : s.trans <+: s.commits := by
  unfold State.commits
  split
  · exact List.prefix_append _ _
  · exact List.prefix_refl _

/-- The invariants of the log hold along every run. -/
theorem run_inv {start size : ℕ} {es : List Event} (hsize : 0 < size)
    (hclean : getHead (d₀ start) = []) (h : Run Step (boot d₀ start size) es s) :
    Control s ∧ Inv d₀ s ∧ Sections s := by
  have hrun : Control s ∧ Inv d₀ s ∧ Sections s ∧
      ∀ p op, (s.pos p).op = some op → op < s.nextOp := by
    refine h.invariant (I := fun s => Control s ∧ Inv d₀ s ∧ Sections s ∧
        ∀ p op, (s.pos p).op = some op → op < s.nextOp) (fun u e u' hi hs => ?_)
      ⟨control_boot d₀ start size, inv_boot hsize hclean, ?_, by nofun⟩
    · obtain ⟨hctl, hinv, hsec, hop⟩ := hi
      exact ⟨control_step hctl hs.2, inv_step hctl hinv hs, sections_step hctl hsec hop hs.2,
        active_begun hop hs.2⟩
    · exact ⟨by nofun, by nofun, by nofun, by nofun, by nofun, by nofun, by nofun,
        List.Pairwise.nil⟩
  exact ⟨hrun.1, hrun.2.1, hrun.2.2.1⟩

/-- Transactions are atomic. In every run, at every point where the machine may crash, running
`recover_from_log` leaves the home blocks as some prefix of the transactions that `commit` was
called on left them, and the prefix has every transaction whose first `write_head` completed. The
`log_write`s of an operation are in one transaction: a committed transaction that has one of them
has all, and no other has any. -/
theorem crash_atomicity {start size : ℕ} {es : List Event} (hsize : 0 < size)
    (hclean : getHead (d₀ start) = []) (h : Run Step (boot d₀ start size) es s) :
    (∃ ts, ts <+: s.commits ∧ s.trans <+: ts ∧
      ∀ b, s.Home b → (recoverFromLog (crash s)).disk b = homeAfter d₀ ts b) ∧
    (∀ t ∈ s.trans, ∀ w ∈ t, ∀ w' ∈ s.made, w'.op = w.op → w' ∈ t) ∧
    s.trans.Pairwise (fun t t' => ∀ w ∈ t, ∀ w' ∈ t', w.op ≠ w'.op) := by
  obtain ⟨-, hinv, hsec⟩ := run_inv hsize hclean h
  refine ⟨⟨s.trans, trans_prefix_commits s, List.prefix_refl _, fun b hb => ?_⟩, hsec.trans,
    hsec.pairwise⟩
  exact recover_disk hinv hb

/-- A boot, an operation that logs two blocks, and its commit, up to the middle of
`install_trans`. -/
def committedRun : List Event :=
  [.recoverHead, .recoverErase, .beginOp 0, .logWriteCheck 0 60, .logWrite 0 .zero,
    .logWriteCheck 0 61, .logWrite 0 .zero, .endOp 0, .writeLog, .writeLog, .writeHead,
    .installTrans]

/-- The run exists, and the theorem applies to where it ends, with one transaction committed. -/
theorem crash_atomicity_committedRun :
    ∃ s, Run Step (boot (fun _ => .zero) 2 LOGSIZE) committedRun s ∧ s.trans.length = 1 ∧
      ∃ ts, ts <+: s.commits ∧ s.trans <+: ts ∧
        ∀ b, s.Home b → (recoverFromLog (crash s)).disk b = homeAfter (fun _ => .zero) ts b := by
  have hrun : ∃ s, Run Step (boot (fun _ => .zero) 2 LOGSIZE) committedRun s ∧
      s.trans.length = 1 := by
    have hok : ∀ s : State, s.start = 2 → s.size = LOGSIZE → s.lh.length ≤ 1 →
        (∀ op calls b, s.pos 0 = .inLogWrite op calls b → 60 ≤ b.toNat) →
        Assumed s (.logWrite 0 .zero) := by
      intro s hstart hsize hlen hb op calls b hpos
      have := hb op calls b hpos
      have habs : (absorb s.lh b).length ≤ 2 := by
        unfold absorb
        split
        · omega
        · rw [List.length_append, List.length_singleton]
          omega
      simp only [State.Home, hstart, hsize, LOGSIZE, MAXOPBLOCKS]
      omega
    refine ⟨_, .cons ⟨trivial, rfl⟩ <| .cons ⟨trivial, rfl⟩ <| .cons ⟨trivial, rfl⟩ <|
      .cons ⟨trivial, rfl⟩ <| .cons ⟨hok _ rfl rfl (by decide) ?_, rfl⟩ <| .cons ⟨trivial, rfl⟩ <|
      .cons ⟨hok _ rfl rfl (by decide) ?_, rfl⟩ <| .cons ⟨trivial, rfl⟩ <| .cons ⟨trivial, rfl⟩ <|
      .cons ⟨trivial, rfl⟩ <| .cons ⟨trivial, rfl⟩ <| .cons ⟨trivial, rfl⟩ (.nil _), rfl⟩
    · rintro op calls b ⟨⟩
      decide
    · rintro op calls b ⟨⟩
      decide
  obtain ⟨s, h, hlen⟩ := hrun
  refine ⟨s, h, hlen, (crash_atomicity (by decide) ?_ h).1⟩
  rw [getHead, Block.word_zero]
  rfl

end ChronoFS.Log
