import ChronoFS.Pipe.Model

/-!
# A pipe is a lossless queue of bytes

`Flow` ties the pipe to the events that led to it: the bytes that readers have taken, followed by
those in the buffer, are the bytes that writers have stored, and what a writer has stored so far is
a beginning of its argument. A section moves bytes only through the ring buffer, whose `fill` and
`drain` keep the queue; the other steps do not touch it.
-/

namespace ChronoFS.Pipe

open Function

variable {s s' : State} {e : Event} {es : List Event} {p q : ℕ} {bytes : List UInt8}
  {r : Option ℤ} {struck : Bool}

/-! ## What a section does -/

/-- The section that `p` runs when it runs one of `pipewrite`. -/
theorem Step.wrote (h : Step s (.wrote p bytes r struck) s') : ∃ src i,
    s.pos p = .writing src i ∧ ¬ s.Freed ∧ s.asleep p = none ∧
      (s.pipewrite p src i).2 = (bytes, r) ∧ s' = (s.pipewrite p src i).1.strike p struck := by
  unfold Step State.step at h
  dsimp only at h
  split at h
  · rename_i src i hpos
    obtain ⟨⟨hopen, hawake, hres⟩, heq⟩ := Option.ite_none_right_eq_some.mp h
    exact ⟨src, i, hpos, hopen, hawake, hres, (Option.some.inj heq).symm⟩
  · exact absurd h (by simp)

/-- The section that `p` runs when it runs one of `piperead`. -/
theorem Step.got (h : Step s (.got p bytes r struck) s') : ∃ n,
    s.pos p = .reading n ∧ ¬ s.Freed ∧ s.asleep p = none ∧
      (s.piperead p n).2 = (bytes, r) ∧ s' = (s.piperead p n).1.strike p struck := by
  unfold Step State.step at h
  dsimp only at h
  split at h
  · rename_i n hpos
    obtain ⟨⟨hopen, hawake, hres⟩, heq⟩ := Option.ite_none_right_eq_some.mp h
    exact ⟨n, hpos, hopen, hawake, hres, (Option.some.inj heq).symm⟩
  · exact absurd h (by simp)

namespace State

@[simp] theorem strike_buf : (s.strike p struck).buf = s.buf := by unfold strike; split <;> rfl

@[simp] theorem strike_pos : (s.strike p struck).pos = s.pos := by unfold strike; split <;> rfl

@[simp] theorem strike_asleep : (s.strike p struck).asleep = s.asleep := by
  unfold strike; split <;> rfl

@[simp] theorem strike_readopen : (s.strike p struck).readopen = s.readopen := by
  unfold strike; split <;> rfl

@[simp] theorem strike_writeopen : (s.strike p struck).writeopen = s.writeopen := by
  unfold strike; split <;> rfl

end State

/-- What a section of `pipewrite` does: it stores the next bytes, as many as there is room for; it
returns their number if that is all, and otherwise -1 or goes to sleep. -/
theorem pipewrite_cases (s : State) (p : ℕ) (src : List UInt8) (i : ℕ) (hok : s.buf.Ok) :
    let k := (s.buf.fill (src.drop i)).2
    let s' := (s.pipewrite p src i).1
    s'.buf.Ok ∧ s'.buf.content = s.buf.content ++ (s.pipewrite p src i).2.1 ∧
      (s.pipewrite p src i).2.1 = (src.drop i).take k ∧ (∀ q ≠ p, s'.pos q = s.pos q) ∧
      (((s.pipewrite p src i).2.2 = some (src.length : ℤ) ∧ (src.drop i).length = k ∧
          s'.pos p = .out) ∨
        ((s.pipewrite p src i).2.2 = some (-1) ∧ s'.pos p = .out) ∨
        ((s.pipewrite p src i).2.2 = none ∧ k ≤ (src.drop i).length ∧
          s'.pos p = .writing src (i + k))) := by
  obtain ⟨hok', hcontent, hle, -⟩ :=
    RingBuffer.fill_spec (N := PIPESIZE) (by decide) (by decide) (src.drop i) hok
  unfold State.pipewrite
  dsimp only
  split
  · rename_i hk
    refine ⟨hok', hcontent, rfl, fun q hq => update_of_ne hq .., .inl ⟨rfl, hk.symm, ?_⟩⟩
    exact update_self ..
  · split
    · refine ⟨hok', hcontent, rfl, fun q hq => update_of_ne hq .., .inr (.inl ⟨rfl, ?_⟩)⟩
      exact update_self ..
    · refine ⟨hok', hcontent, rfl, fun q hq => update_of_ne hq .., .inr (.inr ⟨rfl, hle, ?_⟩)⟩
      exact update_self ..

/-- What a section of `piperead` does: it finds the pipe empty and its write end open, and returns
-1 or goes to sleep; or it takes the first bytes and returns their number. -/
theorem piperead_cases (s : State) (p n : ℕ) (hok : s.buf.Ok) :
    let s' := (s.piperead p n).1
    s'.buf.Ok ∧ s.buf.content = (s.piperead p n).2.1 ++ s'.buf.content ∧
      (∀ q src i, s'.pos q = .writing src i → s.pos q = .writing src i) ∧
      ((s.piperead p n).2.1 = [] ∧
          ((s.piperead p n).2.2 = none ∨ (s.piperead p n).2.2 = some (-1)) ∨
        (s.piperead p n).2.2 = some ((s.piperead p n).2.1.length : ℤ) ∧
          (s.piperead p n).2.1.length ≤ n ∧
          (0 < n → (s.piperead p n).2.1 = [] → s.buf.Empty ∧ s.writeopen = false)) := by
  have hout : ∀ (t : State) q src i, (t.goto p .out).pos q = .writing src i →
      t.pos q = .writing src i := by
    intro t q src i h
    by_cases hq : q = p
    · rw [hq] at h
      exact absurd ((update_self ..).symm.trans h) (by simp)
    · rwa [show (t.goto p .out).pos q = t.pos q from update_of_ne hq ..] at h
  unfold State.piperead
  dsimp only
  split
  · split
    · exact ⟨hok, rfl, hout s, .inl ⟨rfl, .inr rfl⟩⟩
    · exact ⟨hok, rfl, fun q src i h => h, .inl ⟨rfl, .inl rfl⟩⟩
  · rename_i hwait
    obtain ⟨hok', hcontent, hle, hsome⟩ := RingBuffer.drain_spec n hok
    refine ⟨hok', hcontent, hout _, .inr ⟨rfl, hle, fun hn hnil => ?_⟩⟩
    by_cases hempty : s.buf.Empty
    · exact ⟨hempty, by simpa [hempty] using hwait⟩
    · exact absurd hnil (hsome hn hempty)

/-! ## Bytes stored and bytes taken -/

/-- The bytes an event stores. -/
def Event.stored : Event → List UInt8
  | .wrote _ bytes _ _ => bytes
  | _ => []

/-- The bytes an event takes, which are those the call returns. -/
def Event.taken : Event → List UInt8
  | .got _ bytes _ _ => bytes
  | _ => []

/-- What an event adds to the bytes that the last write of `p` has stored. -/
def contribute (p : ℕ) (bs : List UInt8) : Event → List UInt8
  | .write q _ => if q = p then [] else bs
  | .wrote q bytes _ _ => if q = p then bs ++ bytes else bs
  | _ => bs

/-- The bytes that the last write of `p` has stored. -/
def contributed (p : ℕ) (es : List Event) : List UInt8 := es.foldl (contribute p) []

theorem contributed_snoc : contributed p (es ++ [e]) = contribute p (contributed p es) e := by
  simp [contributed]

/-- The pipe and the events that led to it. -/
structure Flow (es : List Event) (s : State) : Prop where
  /-- The counters are at most `PIPESIZE` apart. -/
  ok : s.buf.Ok
  /-- What was taken and what is there is what was stored. -/
  queue : es.flatMap Event.taken ++ s.buf.content = es.flatMap Event.stored
  /-- A writer has stored the beginning of its argument. -/
  writing : ∀ p src i, s.pos p = .writing src i →
    i ≤ src.length ∧ contributed p es = src.take i

/-- A step that moves no bytes. -/
theorem Flow.silent (h : Flow es s) (hbuf : s'.buf = s.buf) (hs : e.stored = [])
    (ht : e.taken = []) (hpos : ∀ p src i, s'.pos p = .writing src i →
      i ≤ src.length ∧ contribute p (contributed p es) e = src.take i) : Flow (es ++ [e]) s' := by
  constructor
  · rw [hbuf]
    exact h.ok
  · simpa [hbuf, hs, ht] using h.queue
  · intro p src i hp
    rw [contributed_snoc]
    exact hpos p src i hp

/-- A section of `pipewrite` keeps the queue. -/
theorem Flow.wrote (h : Flow es s) (hstep : Step s (.wrote p bytes r struck) s') :
    Flow (es ++ [.wrote p bytes r struck]) s' := by
  obtain ⟨src, i, hpos, -, -, hres, rfl⟩ := hstep.wrote
  obtain ⟨hi, hcontrib⟩ := h.writing p src i hpos
  obtain ⟨hok, hcontent, hbytes, hother, hend⟩ := pipewrite_cases s p src i h.ok
  have hb : (s.pipewrite p src i).2.1 = bytes := congrArg Prod.fst hres
  rw [hb] at hcontent hbytes
  constructor
  · simpa using hok
  · simp [hcontent, Event.stored, Event.taken, ← h.queue]
  · intro q src' j hq
    rw [contributed_snoc]
    rw [State.strike_pos] at hq
    by_cases hqp : q = p
    · subst hqp
      -- only a writer that goes to sleep is still in the call
      rcases hend with ⟨-, -, hout⟩ | ⟨-, hout⟩ | ⟨-, hle, hnext⟩
      · exact absurd (hout.symm.trans hq) (by simp)
      · exact absurd (hout.symm.trans hq) (by simp)
      · obtain ⟨rfl, rfl⟩ := Pos.writing.inj (hnext.symm.trans hq)
        rw [List.length_drop] at hle
        refine ⟨by omega, ?_⟩
        simp only [contribute, if_true]
        rw [hcontrib, hbytes, List.take_add]
    · rw [hother q hqp] at hq
      simpa [contribute, Ne.symm hqp] using h.writing q src' j hq

/-- A section of `piperead` keeps the queue. -/
theorem Flow.got (h : Flow es s) (hstep : Step s (.got p bytes r struck) s') :
    Flow (es ++ [.got p bytes r struck]) s' := by
  obtain ⟨n, hpos, -, -, hres, rfl⟩ := hstep.got
  obtain ⟨hok, hcontent, hother, -⟩ := piperead_cases s p n h.ok
  have hb : (s.piperead p n).2.1 = bytes := congrArg Prod.fst hres
  rw [hb] at hcontent
  constructor
  · simpa using hok
  · simp [Event.stored, Event.taken, ← h.queue, hcontent]
  · intro q src i hq
    rw [contributed_snoc]
    exact h.writing q src i (hother q src i (by simpa using hq))

/-- Every step keeps the queue. -/
theorem Flow.step (h : Flow es s) (hstep : Step s e s') : Flow (es ++ [e]) s' := by
  cases e with
  | write p src =>
    obtain ⟨hout, heq⟩ := Option.ite_none_right_eq_some.mp hstep
    obtain rfl := Option.some.inj heq
    refine h.silent rfl rfl rfl fun q src' i hq => ?_
    by_cases hqp : q = p
    · subst hqp
      have hq' : (s.goto q (.writing src 0)).pos q = .writing src 0 := update_self ..
      obtain ⟨rfl, rfl⟩ := Pos.writing.inj (hq'.symm.trans hq)
      simp [contribute]
    · rw [show (s.goto p (.writing src 0)).pos q = s.pos q from update_of_ne hqp ..] at hq
      simpa [contribute, Ne.symm hqp] using h.writing q src' i hq
  | read p n =>
    obtain ⟨hout, heq⟩ := Option.ite_none_right_eq_some.mp hstep
    obtain rfl := Option.some.inj heq
    refine h.silent rfl rfl rfl fun q src i hq => ?_
    by_cases hqp : q = p
    · subst hqp
      have hq' : (s.goto q (.reading n)).pos q = .reading n := update_self ..
      exact absurd (hq'.symm.trans hq) (by simp)
    · rw [show (s.goto p (.reading n)).pos q = s.pos q from update_of_ne hqp ..] at hq
      exact h.writing q src i hq
  | wrote p bytes r struck => exact h.wrote hstep
  | got p bytes r struck => exact h.got hstep
  | close writable =>
    obtain ⟨-, heq⟩ := Option.ite_none_right_eq_some.mp hstep
    obtain rfl := Option.some.inj heq
    cases writable with
    | true => exact h.silent rfl rfl rfl h.writing
    | false => exact h.silent rfl rfl rfl h.writing
  | kill p =>
    obtain rfl := Option.some.inj hstep
    exact h.silent rfl rfl rfl h.writing

/-- A fresh pipe is empty. -/
theorem Fresh.flow (h : Fresh s) : Flow [] s := by
  have hempty : s.buf.Empty := h.nread.trans h.nwrite.symm
  constructor
  · show s.buf.size ≤ PIPESIZE
    rw [RingBuffer.empty_iff.mp hempty]
    exact Nat.zero_le _
  · simpa using RingBuffer.content_eq_nil.mpr hempty
  · intro p src i hp
    exact absurd ((h.pos p).symm.trans hp) (by simp)

theorem run_flow {s0 : State} (h0 : Fresh s0) (h : Run Step s0 es s) : Flow es s :=
  h.history (I := Flow) h0.flow fun _ _ _ _ hs hstep => hs.step hstep

/-- Pipes are lossless queues. From a fresh pipe, whatever calls of `pipewrite` and `piperead`
interleave with closes and kills: `nwrite - nread` is at most `PIPESIZE` modulo `2 ^ 32`; the bytes
returned by reads followed by the bytes in the buffer are the bytes stored by writers; a write has
stored the beginning of its argument, and all of it if it returns its length; a read of some bytes
returns those bytes and their number, or -1 and none; it returns 0 though it asked for some only if
the write end is closed and every stored byte has been read. -/
theorem lossless_fifo {s₀ : State} (h₀ : Fresh s₀) (h : Run Step s₀ es s) :
    (s.buf.nwrite - s.buf.nread).toNat ≤ PIPESIZE ∧
    es.flatMap Event.taken ++ s.buf.content = es.flatMap Event.stored ∧
    (∀ p src i, s.pos p = .writing src i → contributed p es = src.take i) ∧
    (∀ p src i bytes r struck s', s.pos p = .writing src i →
      Step s (.wrote p bytes (some r) struck) s' →
      contributed p es ++ bytes <+: src ∧ (r = src.length ∨ r = -1) ∧
        (r = src.length → contributed p es ++ bytes = src)) ∧
    (∀ p n bytes r struck s', s.pos p = .reading n → Step s (.got p bytes (some r) struck) s' →
      (r = bytes.length ∨ r = -1 ∧ bytes = []) ∧ bytes.length ≤ n ∧
        (0 < n → r = 0 → s.writeopen = false ∧
          es.flatMap Event.taken = es.flatMap Event.stored)) := by
  have hf := run_flow h₀ h
  refine ⟨hf.ok, hf.queue, fun p src i hp => (hf.writing p src i hp).2, ?_, ?_⟩
  · intro p src i bytes r struck s' hpos hstep
    obtain ⟨src', i', hpos', -, -, hres, -⟩ := hstep.wrote
    obtain ⟨rfl, rfl⟩ := Pos.writing.inj (hpos.symm.trans hpos')
    obtain ⟨hi, hcontrib⟩ := hf.writing p src i hpos
    obtain ⟨-, -, hbytes, -, hend⟩ := pipewrite_cases s p src i hf.ok
    rw [hres] at hbytes hend
    dsimp only at hbytes hend
    have hsum : contributed p es ++ bytes =
        src.take (i + (s.buf.fill (src.drop i)).2) := by
      rw [hcontrib, hbytes, List.take_add]
    rw [hsum]
    refine ⟨List.take_prefix .., ?_, fun hr => ?_⟩
    · rcases hend with ⟨hr, -⟩ | ⟨hr, -⟩ | ⟨hr, -⟩
      · exact .inl (Option.some.inj hr)
      · exact .inr (Option.some.inj hr)
      · exact absurd hr (by simp)
    · rcases hend with ⟨-, hall, -⟩ | ⟨hr', -⟩ | ⟨hr', -⟩
      · rw [List.length_drop] at hall
        exact List.take_of_length_le (by omega)
      · have := Option.some.inj hr'
        omega
      · exact absurd hr' (by simp)
  · intro p n bytes r struck s' hpos hstep
    obtain ⟨n', hpos', -, -, hres, -⟩ := hstep.got
    obtain rfl := Pos.reading.inj (hpos.symm.trans hpos')
    obtain ⟨-, -, -, hend⟩ := piperead_cases s p n hf.ok
    rw [hres] at hend
    dsimp only at hend
    rcases hend with ⟨rfl, hr | hr⟩ | ⟨hr, hle, hclosed⟩
    · exact absurd hr (by simp)
    · obtain rfl := Option.some.inj hr
      exact ⟨.inr ⟨rfl, rfl⟩, by simp, fun _ h => absurd h (by decide)⟩
    · obtain rfl := Option.some.inj hr
      refine ⟨.inl rfl, hle, fun hn h0 => ?_⟩
      obtain ⟨hempty, hclosed⟩ := hclosed hn (List.eq_nil_of_length_eq_zero (by omega))
      have hqueue := hf.queue
      rw [RingBuffer.content_eq_nil.mpr hempty, List.append_nil] at hqueue
      exact ⟨hclosed, hqueue⟩

/-- One process writes two bytes, another reads one of them. -/
theorem lossless_fifo_two_bytes : ∃ s : State, Fresh State.zero ∧
    Run Step State.zero [.write 1 [7, 8], .wrote 1 [7, 8] (some 2) false, .read 2 1,
      .got 2 [7] (some 1) false] s ∧ [7] ++ s.buf.content = [7, 8] := by
  have heval : (([.write 1 [7, 8], .wrote 1 [7, 8] (some 2) false, .read 2 1,
      .got 2 [7] (some 1) false] : List Event).foldlM State.step State.zero).map
      (fun _ => true) = some true := by
    decide +kernel
  obtain ⟨s, hs, -⟩ := Option.map_eq_some_iff.mp heval
  have hrun : Run Step State.zero _ s := Run.of_foldlM hs
  exact ⟨s, State.fresh_zero, hrun, (lossless_fifo State.fresh_zero hrun).2.1⟩

end ChronoFS.Pipe
