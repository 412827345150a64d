import ChronoFS.Pipe.Fifo

/-!
# Who sleeps on a pipe

A reader goes to sleep when the pipe is empty and its write end open, a writer when it is full and
its read end open. Whoever changes that wakes the sleepers, with one exception: a `pipewrite` that
fills the pipe and then finds itself killed, or the read end closed, returns -1 without waking the
readers. `Prudent` are the steps without such a return while a reader sleeps; they are exactly the
steps that keep `NoLostWakeup`.
-/

namespace ChronoFS.Pipe

open Function

variable {s s' : State} {e : Event} {es : List Event} {p q : ℕ} {c : Chan}

/-- Nobody sleeps on what has already come about. -/
structure NoLostWakeup (s : State) : Prop where
  /-- A sleeping reader has nothing to read, and may still get something. -/
  reader : ∀ p, s.asleep p = some .nread → s.buf.nread = s.buf.nwrite ∧ s.writeopen = true
  /-- A sleeping writer has no room, and may still get some. -/
  writer : ∀ p, s.asleep p = some .nwrite →
    s.buf.nwrite = s.buf.nread + .ofNat PIPESIZE ∧ s.readopen = true

/-- A killed process, or one that writes to a pipe whose read end is closed, has not more bytes left
to write than there is room for while a reader sleeps. -/
def Prudent (s : State) : Event → Prop
  | .wrote p _ _ _ => ∀ src i, s.pos p = .writing src i →
      (s.killed p = true ∨ s.readopen = false) → (∃ q, s.asleep q = some .nread) →
        (src.drop i).length ≤ PIPESIZE - s.buf.size
  | _ => True

/-- A prudent step. -/
def PrudentStep (s : State) (e : Event) (s' : State) : Prop := Step s e s' ∧ Prudent s e

/-! ## The sleepers after a step -/

/-- Those who sleep after a `wakeup` slept before, and on the other channel. -/
theorem asleep_wakeup {d : Chan} (h : (s.wakeup c).asleep p = some d) :
    s.asleep p = some d ∧ d ≠ c := by
  unfold State.wakeup at h
  dsimp only at h
  split at h
  · exact absurd h (by simp)
  · rename_i hne
    exact ⟨h, fun hd => hne (hd ▸ h)⟩

/-- Those who sleep after a `sleep`. -/
theorem asleep_sleep {d : Chan} (h : (s.sleep p c).asleep q = some d) :
    q = p ∧ d = c ∨ s.asleep q = some d := by
  by_cases hq : q = p
  · subst hq
    have hc : (s.sleep q c).asleep q = some c := update_self ..
    exact .inl ⟨rfl, Option.some.inj (h.symm.trans hc)⟩
  · exact .inr ((update_of_ne hq ..).symm.trans h)

/-! ## Which steps lose no wakeup -/

namespace NoLostWakeup

/-- With the same buffer and the same open ends, as long as nobody else sleeps. -/
theorem of_asleep (h : NoLostWakeup s) (hbuf : s'.buf = s.buf) (hr : s'.readopen = s.readopen)
    (hw : s'.writeopen = s.writeopen) (hsleep : ∀ p c, s'.asleep p = some c → s.asleep p = some c) :
    NoLostWakeup s' := by
  constructor
  · intro p hp
    rw [hbuf, hw]
    exact h.reader p (hsleep p _ hp)
  · intro p hp
    rw [hbuf, hr]
    exact h.writer p (hsleep p _ hp)

theorem strike (h : NoLostWakeup s) (struck : Bool) : NoLostWakeup (s.strike p struck) :=
  h.of_asleep (by simp) (by simp) (by simp) (by simp)

/-- A section of `piperead` that takes bytes wakes the writers; it takes none if a reader sleeps. -/
theorem piperead (h : NoLostWakeup s) (p n : ℕ) : NoLostWakeup (s.piperead p n).1 := by
  unfold State.piperead
  split
  · rename_i hwait
    split
    · exact h.of_asleep rfl rfl rfl fun _ _ hq => hq
    · constructor
      · intro q hq
        rcases asleep_sleep hq with - | hq
        · exact hwait
        · exact h.reader q hq
      · intro q hq
        rcases asleep_sleep hq with ⟨-, hc⟩ | hq
        · exact absurd hc (by decide)
        · exact h.writer q hq
  · constructor
    · intro q hq
      obtain ⟨hq, -⟩ := asleep_wakeup (s := { s with buf := (s.buf.drain n).1 }) hq
      have hsame := RingBuffer.drain_of_empty (h.reader q hq).1 n
      show (s.buf.drain n).1.nread = (s.buf.drain n).1.nwrite ∧ s.writeopen = true
      rw [hsame]
      exact h.reader q hq
    · intro q hq
      exact absurd rfl (asleep_wakeup (s := { s with buf := (s.buf.drain n).1 }) hq).2

/-- A section of `pipewrite` stores nothing if a writer sleeps. -/
theorem fill_writer (h : NoLostWakeup s) (hq : s.asleep q = some .nwrite) (xs : List UInt8) :
    (s.buf.fill xs).1.nwrite = (s.buf.fill xs).1.nread + .ofNat PIPESIZE ∧ s.readopen = true := by
  rw [RingBuffer.fill_of_full (h.writer q hq).1]
  exact h.writer q hq

/-- A section of `pipewrite` loses no wakeup exactly if it does not return -1 with a reader
asleep. -/
theorem pipewrite (h : NoLostWakeup s) (hok : s.buf.Ok) (p : ℕ) (src : List UInt8) (i : ℕ) :
    NoLostWakeup (s.pipewrite p src i).1 ↔
      ((s.killed p = true ∨ s.readopen = false) → (∃ q, s.asleep q = some .nread) →
        (src.drop i).length ≤ PIPESIZE - s.buf.size) := by
  have hcount := RingBuffer.fill_count (N := PIPESIZE) (by decide) (by decide) (src.drop i) hok
  obtain ⟨-, -, hle, hfull⟩ :=
    RingBuffer.fill_spec (N := PIPESIZE) (by decide) (by decide) (src.drop i) hok
  unfold State.pipewrite
  dsimp only
  split
  · -- all is stored: the readers are woken
    rename_i hk
    refine iff_of_true ⟨fun q hq => ?_, fun q hq => ?_⟩ fun _ _ => by omega
    · exact absurd rfl (asleep_wakeup (s := { s with buf := _ }) hq).2
    · exact h.fill_writer (asleep_wakeup (s := { s with buf := _ }) hq).1 _
  · rename_i hk
    have hmore : (s.buf.fill (src.drop i)).2 < (src.drop i).length := by omega
    split
    · -- the call returns -1: a reader that slept on the empty pipe sleeps on the full one
      rename_i hdead
      constructor
      · rintro hno - ⟨q, hq⟩
        have hempty : (s.buf.fill (src.drop i)).1.Empty := (hno.reader q hq).1
        rw [RingBuffer.empty_iff, (RingBuffer.full_iff (by decide)).mp (hfull hmore)] at hempty
        exact absurd hempty (by decide)
      · intro hroom
        refine ⟨fun q hq => ?_, fun q hq => h.fill_writer hq _⟩
        have := hroom hdead.symm ⟨q, hq⟩
        omega
    · -- the writer sleeps on the full pipe
      rename_i hlive
      refine iff_of_true ⟨fun q hq => ?_, fun q hq => ?_⟩ fun hdead => absurd hdead.symm hlive
      · rcases asleep_sleep (s := State.wakeup { s with buf := _ } .nread) hq with ⟨-, hc⟩ | hq
        · exact absurd hc (by decide)
        · exact absurd rfl (asleep_wakeup (s := { s with buf := _ }) hq).2
      · rcases asleep_sleep (s := State.wakeup { s with buf := _ } .nread) hq with - | hq
        · have hopen : s.readopen = true := by simpa using fun hr => hlive (.inl hr)
          exact ⟨hfull hmore, hopen⟩
        · exact h.fill_writer (asleep_wakeup (s := { s with buf := _ }) hq).1 _

/-- A step loses no wakeup exactly if it is prudent. -/
theorem step_iff (h : NoLostWakeup s) (hok : s.buf.Ok) (hstep : Step s e s') :
    NoLostWakeup s' ↔ Prudent s e := by
  cases e with
  | write p src =>
    obtain ⟨-, heq⟩ := Option.ite_none_right_eq_some.mp hstep
    obtain rfl := Option.some.inj heq
    exact iff_of_true (h.of_asleep rfl rfl rfl fun _ _ hq => hq) trivial
  | read p n =>
    obtain ⟨-, heq⟩ := Option.ite_none_right_eq_some.mp hstep
    obtain rfl := Option.some.inj heq
    exact iff_of_true (h.of_asleep rfl rfl rfl fun _ _ hq => hq) trivial
  | wrote p bytes r struck =>
    obtain ⟨src, i, hpos, -, -, -, rfl⟩ := hstep.wrote
    have hsection := h.pipewrite hok p src i
    constructor
    · intro hno src' i' hpos'
      obtain ⟨rfl, rfl⟩ := Pos.writing.inj (hpos.symm.trans hpos')
      exact hsection.mp (hno.of_asleep (by simp) (by simp) (by simp) (by simp))
    · exact fun hp => (hsection.mpr (hp src i hpos)).strike struck
  | got p bytes r struck =>
    obtain ⟨n, -, -, -, -, rfl⟩ := hstep.got
    exact iff_of_true ((h.piperead p n).strike struck) trivial
  | close writable =>
    obtain ⟨-, heq⟩ := Option.ite_none_right_eq_some.mp hstep
    obtain rfl := Option.some.inj heq
    refine iff_of_true ?_ trivial
    cases writable with
    | true =>
      refine ⟨fun q hq => ?_, fun q hq => ?_⟩
      · exact absurd rfl (asleep_wakeup (s := { s with writeopen := false }) hq).2
      · exact h.writer q (asleep_wakeup (s := { s with writeopen := false }) hq).1
    | false =>
      refine ⟨fun q hq => ?_, fun q hq => ?_⟩
      · exact h.reader q (asleep_wakeup (s := { s with readopen := false }) hq).1
      · exact absurd rfl (asleep_wakeup (s := { s with readopen := false }) hq).2
  | kill p =>
    obtain rfl := Option.some.inj hstep
    refine iff_of_true (h.of_asleep rfl rfl rfl fun q c hq => ?_) trivial
    by_cases hqp : q = p
    · subst hqp
      exact absurd ((update_self ..).symm.trans hq) (by simp)
    · exact (update_of_ne hqp ..).symm.trans hq

end NoLostWakeup

/-- No wakeup on a pipe is lost, in every run in which no killed process, and none that writes to a
pipe whose read end is closed, has more bytes left to write than there is room for while a reader
sleeps: nobody sleeps on `&p->nread` while `nread != nwrite` or `writeopen = 0`, and nobody on
`&p->nwrite` while `nwrite != nread + PIPESIZE` or `readopen = 0`. The first step that does not meet
the condition loses one. -/
theorem no_lost_wakeup {s₀ : State} (h₀ : Fresh s₀) (h : Run PrudentStep s₀ es s) :
    NoLostWakeup s ∧ ∀ e s', Step s e s' → (NoLostWakeup s' ↔ Prudent s e) := by
  obtain ⟨hf, hno⟩ : Flow es s ∧ NoLostWakeup s := by
    apply h.history (I := fun es s => Flow es s ∧ NoLostWakeup s)
    · refine ⟨h₀.flow, fun p hp => ?_, fun p hp => ?_⟩ <;>
        exact absurd ((h₀.asleep p).symm.trans hp) (by simp)
    · intro fs s₁ e s₂ ⟨hf, hno⟩ hstep
      exact ⟨hf.step hstep.1, (hno.step_iff hf.ok hstep.1).mpr hstep.2⟩
  exact ⟨hno, fun e s' hstep => hno.step_iff hf.ok hstep⟩

/-- A reader sleeps on an empty pipe, and is awake after a byte has been written. -/
theorem no_lost_wakeup_one_byte : ∃ s : State, Fresh State.zero ∧
    Run PrudentStep State.zero [.read 1 1, .got 1 [] none false, .write 2 [7],
      .wrote 2 [7] (some 1) false] s ∧ s.asleep 1 ≠ some .nread ∧ NoLostWakeup s := by
  have heval : (([.read 1 1, .got 1 [] none false, .write 2 [7]] : List Event).foldlM
      State.step State.zero).bind (fun s => (s.step (.wrote 2 [7] (some 1) false)).map fun s' =>
        decide (s.readopen = true ∧ s.killed 2 = false ∧ s'.asleep 1 ≠ some .nread)) =
      some true := by
    decide +kernel
  obtain ⟨s, hs, h⟩ := Option.bind_eq_some_iff.mp heval
  obtain ⟨s', hs', h⟩ := Option.map_eq_some_iff.mp h
  obtain ⟨hopen, hlive, hawake⟩ := of_decide_eq_true h
  have hstep : PrudentStep s (.wrote 2 [7] (some 1) false) s' := by
    refine ⟨hs', fun src i _ hdead => ?_⟩
    simp [hopen, hlive] at hdead
  have hrun : Run PrudentStep State.zero ([.read 1 1, .got 1 [] none false, .write 2 [7]] ++
      [.wrote 2 [7] (some 1) false]) s' := by
    refine ((Run.of_foldlM hs).mono_mem fun s s' e he hstep => ⟨hstep, ?_⟩).append
      (.cons hstep (.nil s'))
    simp only [List.mem_cons, List.not_mem_nil, or_false] at he
    rcases he with rfl | rfl | rfl <;> trivial
  exact ⟨s', State.fresh_zero, hrun, hawake, (no_lost_wakeup State.fresh_zero hrun).1⟩

/-- A reader sleeps on an empty pipe; a writer of 513 bytes is killed, stores 512 of them and
returns -1. The reader still sleeps. -/
theorem killed_writer_loses_wakeup : ∃ s : State,
    Run Step State.zero [.read 1 1, .got 1 [] none false, .write 2 (List.replicate 513 7), .kill 2,
      .wrote 2 (List.replicate 512 7) (some (-1)) false] s ∧
    s.asleep 1 = some .nread ∧ s.buf.nread ≠ s.buf.nwrite := by
  have heval : (([.read 1 1, .got 1 [] none false, .write 2 (List.replicate 513 7), .kill 2,
      .wrote 2 (List.replicate 512 7) (some (-1)) false] : List Event).foldlM
      State.step State.zero).map (fun s =>
        decide (s.asleep 1 = some .nread ∧ s.buf.nread ≠ s.buf.nwrite)) = some true := by
    decide +kernel
  obtain ⟨s, hs, h⟩ := Option.map_eq_some_iff.mp heval
  exact ⟨s, Run.of_foldlM hs, of_decide_eq_true h⟩

end ChronoFS.Pipe
