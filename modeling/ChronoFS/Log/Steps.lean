import ChronoFS.Log.Model

/-!
# What each step of the log does

The header block round trip (`getHead_putHead`), and one inversion lemma for each event: the guards
under which the step happens, and the state it leads to. The invariants of `Log/Control.lean` and `Log/Crash.lean` are proved from these.
-/

namespace ChronoFS.Log

open Function

variable {s s' : State} {p : ℕ} {b : UInt32} {data : Block}

/-- A value of an updated function is the new one, or an old one from elsewhere. -/
theorem update_cases {β : Type} {f : ℕ → β} {a x : ℕ} {v y : β} (h : update f a v x = y) :
    (x = a ∧ v = y) ∨ (x ≠ a ∧ f x = y) := by
  by_cases hx : x = a
  · rw [hx, update_self] at h
    exact .inl ⟨hx, h⟩
  · rw [update_of_ne hx] at h
    exact .inr ⟨hx, h⟩

/-! ## The header block -/

/-- The entries stored so far by `write_head`'s loop. -/
theorem word_putHead_loop (b : Block) (lh : List UInt32) (hlen : lh.length < NINDIRECT) (n : ℕ)
    (hn : n ≤ lh.length) :
    let r := (List.range n).foldl (fun b i => b.setWord (i + 1) (lh.getD i 0))
      (b.setWord 0 (.ofNat lh.length))
    r.word 0 = .ofNat lh.length ∧ ∀ i < n, r.word (i + 1) = lh.getD i 0 := by
  induction n with
  | zero =>
    refine ⟨?_, fun i hi => absurd hi (by omega)⟩
    exact Block.word_setWord b _ (by simp only [NINDIRECT, BSIZE] at *; omega)
  | succ n ih =>
    obtain ⟨h0, hi⟩ := ih (by omega)
    simp only [List.range_succ, List.foldl_append, List.foldl_cons, List.foldl_nil]
    refine ⟨?_, fun i hin => ?_⟩
    · rw [Block.word_setWord_ne _ _ (by omega)]
      exact h0
    · rcases Nat.lt_succ_iff_lt_or_eq.mp hin with hlt | rfl
      · rw [Block.word_setWord_ne _ _ (by omega)]
        exact hi i hlt
      · exact Block.word_setWord _ _ (by omega)

/-- `read_head` reads back what `write_head` stored. -/
theorem getHead_putHead (b : Block) (lh : List UInt32) (hlen : lh.length < NINDIRECT) :
    getHead (putHead b lh) = lh := by
  obtain ⟨h0, hi⟩ := word_putHead_loop b lh hlen lh.length (Nat.le_refl _)
  have hn : (UInt32.ofNat lh.length).toInt32.toInt.toNat = lh.length := by
    simp only [NINDIRECT, BSIZE] at hlen
    change (UInt32.ofNat lh.length).toBitVec.toInt.toNat = lh.length
    rw [BitVec.toInt_eq_toNat_bmod, UInt32.toNat_toBitVec, UInt32.toNat_ofNat',
      Int.bmod_eq_of_le (by omega) (by omega)]
    omega
  unfold getHead putHead
  rw [h0, hn]
  apply List.ext_getElem
  · simp
  · intro i h1 h2
    simp only [List.getElem_map, List.getElem_range]
    rw [hi i h2]
    simp [List.getD_eq_getElem?_getD, List.getElem?_eq_getElem h2]

/-! ## One lemma for each event -/

/-- `begin_op` gets past its loop when no commit runs and the log has room for one more operation. -/
theorem step_beginOp (h : step s (.beginOp p) = .ok s') :
    s.pos p = .out ∧ s.committing = false ∧ (s.phase ≠ .booted ∧ ∀ t, s.phase ≠ .recovering t) ∧
      s.lh.length + (s.outstanding + 1) * MAXOPBLOCKS ≤ LOGSIZE ∧
      s' = { s with
        outstanding := s.outstanding + 1, pos := update s.pos p (.inOp s.nextOp []),
        nextOp := s.nextOp + 1 } := by
  simp only [step, beginOp] at h
  split at h
  · cases h
  · cases h
  · rename_i hpos hb hr
    split at h
    · cases h
    · rename_i hc
      split at h
      · cases h
      · rename_i hroom
        cases h
        exact ⟨hpos, by simpa using hc, ⟨hb, hr⟩, by omega, rfl⟩
  · cases h

/-- `log_write`'s checks pass when the log has room and an operation is outstanding. -/
theorem step_logWriteCheck (h : step s (.logWriteCheck p b) = .ok s') :
    ∃ op calls, s.pos p = .inOp op calls ∧ s.lh.length < LOGSIZE ∧ s.lh.length < s.size - 1 ∧
      1 ≤ s.outstanding ∧
      s' = { s with pos := update s.pos p (.inLogWrite op (absorb calls b) b) } := by
  simp only [step, logWriteCheck] at h
  split at h
  · rename_i op calls hpos
    split at h
    · cases h
    · rename_i hroom
      split at h
      · cases h
      · rename_i hout
        cases h
        exact ⟨op, calls, hpos, by omega, by omega, by omega, rfl⟩
  · cases h

/-- The locked part of `log_write`. -/
theorem step_logWrite (h : step s (.logWrite p data) = .ok s') :
    ∃ op calls b, s.pos p = .inLogWrite op calls b ∧
      s' = { s with
        lh := absorb s.lh b, cache := update s.cache b.toNat (some ⟨data, true⟩),
        pos := update s.pos p (.inOp op calls),
        made := ⟨op, b, data⟩ :: s.made, cur := s.cur ++ [⟨op, b, data⟩] } := by
  simp only [step, logWrite] at h
  split at h
  · rename_i op calls b hpos
    cases h
    exact ⟨op, calls, b, hpos, rfl⟩
  · cases h

/-- `end_op` either leaves operations outstanding, or starts the commit. -/
theorem step_endOp (h : step s (.endOp p) = .ok s') :
    ∃ op calls, s.pos p = .inOp op calls ∧ s.committing = false ∧
      ((s.outstanding ≤ 1 ∧ s' = { s with
          outstanding := 0, committing := true, pos := update s.pos p .inCommit,
          phase := if s.lh.length > 0 then .writeLog 0 else .committed }) ∨
        (1 < s.outstanding ∧
          s' = { s with outstanding := s.outstanding - 1, pos := update s.pos p .out })) := by
  simp only [step, endOp] at h
  split at h
  · rename_i op calls hpos
    split at h
    · cases h
    · rename_i hc
      refine ⟨op, calls, hpos, by simpa using hc, ?_⟩
      split at h
      · cases h
        exact .inl ⟨by omega, rfl⟩
      · cases h
        exact .inr ⟨by omega, rfl⟩
  · cases h

/-- One iteration of `write_log`. -/
theorem step_writeLog (h : step s .writeLog = .ok s') :
    ∃ t, s.phase = .writeLog t ∧ t < s.lh.length ∧
      s' = { writeLogAt s t with phase := .writeLog (t + 1) } := by
  simp only [step] at h
  split at h
  · rename_i t hph
    split at h
    · rename_i ht
      cases h
      exact ⟨t, hph, ht, rfl⟩
    · cases h
  · cases h

/-- The first `write_head` of `commit` comes when `write_log`'s loop is done. -/
theorem step_writeHead (h : step s .writeHead = .ok s') :
    ∃ t, s.phase = .writeLog t ∧ s.lh.length ≤ t ∧
      s' = { writeHead s with
        phase := .installTrans 0, trans := s.trans ++ [s.cur], cur := [] } := by
  simp only [step] at h
  split at h
  · rename_i t hph
    split at h
    · cases h
    · rename_i ht
      cases h
      exact ⟨t, hph, by omega, rfl⟩
  · cases h

/-- One iteration of `install_trans` in `commit`. -/
theorem step_installTrans (h : step s .installTrans = .ok s') :
    ∃ t, s.phase = .installTrans t ∧ t < s.lh.length ∧
      s' = { installAt s t with phase := .installTrans (t + 1) } := by
  simp only [step] at h
  split at h
  · rename_i t hph
    split at h
    · rename_i ht
      cases h
      exact ⟨t, hph, ht, rfl⟩
    · cases h
  · cases h

/-- The second `write_head` of `commit` comes when `install_trans` is done. -/
theorem step_eraseHead (h : step s .eraseHead = .ok s') :
    ∃ t, s.phase = .installTrans t ∧ s.lh.length ≤ t ∧
      s' = { writeHead { s with lh := [] } with phase := .committed } := by
  simp only [step] at h
  split at h
  · rename_i t hph
    split at h
    · cases h
    · rename_i ht
      cases h
      exact ⟨t, hph, by omega, rfl⟩
  · cases h

/-- The end of the `end_op` that committed. -/
theorem step_finish (h : step s (.finish p) = .ok s') :
    s.phase = .committed ∧ s.pos p = .inCommit ∧
      s' = { s with committing := false, phase := .running, pos := update s.pos p .out } := by
  simp only [step] at h
  split at h
  · rename_i hph hpos
    cases h
    exact ⟨hph, hpos, rfl⟩
  · cases h

/-- A buffer that is not cached is read in. -/
theorem step_load {n : ℕ} (h : step s (.load n) = .ok s') :
    s.cache n = none ∧ s' = { s with cache := update s.cache n (some ⟨s.disk n, false⟩) } := by
  simp only [step] at h
  split at h
  · rename_i hc
    cases h
    exact ⟨hc, rfl⟩
  · cases h

/-- A clean buffer is recycled. -/
theorem step_evict {n : ℕ} (h : step s (.evict n) = .ok s') :
    (∃ data, s.cache n = some ⟨data, false⟩) ∧ s' = { s with cache := update s.cache n none } := by
  simp only [step] at h
  split at h
  · rename_i data hc
    cases h
    exact ⟨⟨data, hc⟩, rfl⟩
  · cases h

/-- A crash happens at any time. -/
theorem step_crash (h : step s .crash = .ok s') : s' = crash s := by
  simp only [step] at h
  cases h
  rfl

/-- `read_head` at boot. -/
theorem step_recoverHead (h : step s .recoverHead = .ok s') :
    s.phase = .booted ∧ s' = { readHead s with phase := .recovering 0 } := by
  simp only [step] at h
  split at h
  · rename_i hph
    cases h
    exact ⟨hph, rfl⟩
  · cases h

/-- One iteration of `install_trans` in `recover_from_log`. -/
theorem step_recoverInstall (h : step s .recoverInstall = .ok s') :
    ∃ t, s.phase = .recovering t ∧ t < s.lh.length ∧
      s' = { installAt s t with phase := .recovering (t + 1) } := by
  simp only [step] at h
  split at h
  · rename_i t hph
    split at h
    · rename_i ht
      cases h
      exact ⟨t, hph, ht, rfl⟩
    · cases h
  · cases h

/-- The `write_head` of `recover_from_log` comes when `install_trans` is done. -/
theorem step_recoverErase (h : step s .recoverErase = .ok s') :
    ∃ t, s.phase = .recovering t ∧ s.lh.length ≤ t ∧
      s' = { writeHead { s with lh := [] } with phase := .running } := by
  simp only [step] at h
  split at h
  · rename_i t hph
    split at h
    · cases h
    · rename_i ht
      cases h
      exact ⟨t, hph, by omega, rfl⟩
  · cases h

end ChronoFS.Log
