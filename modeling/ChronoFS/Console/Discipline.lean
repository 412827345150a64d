import ChronoFS.Console.Model

/-!
# The line discipline

`Input.Ok` orders the three indices: from `r` to `w` and on to `e` there are never more bytes than the
buffer holds, so the ring buffer is a queue whose first part is `pending`. Editing works on the last part
only. What a character lets readers have is what `pending` gets at its end (`Input.Ok.intr`), and what a
section takes out is what `pending` loses at its beginning (`Input.Ok.consoleread`); so the bytes taken by
all sections, followed by `pending`, are those that were let out. A section of `consoleread` ends at a
newline, and takes a `^D` only as the first byte of its call, which then returns nothing.
-/

namespace ChronoFS.Console

open Function

variable {s s' : State} {i j : Input} {c : UInt8} {cs dst : List UInt8} {p n target : ℕ}
  {e : Event} {es : List Event}

namespace Input

/-- The indices are in order, and the buffer holds what is between them. -/
structure Ok (i : Input) : Prop where
  /-- From `r` to `e`. -/
  size : (i.e - i.r).toNat ≤ INPUT_BUF
  /-- `w` is between them. -/
  w : (i.w - i.r).toNat ≤ (i.e - i.r).toNat

theorem pending_append_edited (i : Input) : i.pending ++ i.edited = i.buf.content :=
  List.take_append_drop ..

/-- Two indices at the same distance from `r` are the same. -/
theorem eq_of_toNat_sub {a b r : UInt32} (h : (a - r).toNat = (b - r).toNat) : a = b := by
  have hsub := UInt32.toNat_inj.mp h
  rw [← UInt32.sub_add_cancel a r, hsub, UInt32.sub_add_cancel]

/-- If there is something to edit, `w` is before `e`. -/
theorem Ok.w_lt (h : i.Ok) (hne : i.e ≠ i.w) : (i.w - i.r).toNat < (i.e - i.r).toNat :=
  lt_of_le_of_ne h.w fun heq => hne (eq_of_toNat_sub heq).symm

/-! ## Editing -/

/-- The last byte of the line is erased. -/
theorem Ok.unpush (h : i.Ok) (hne : i.e ≠ i.w) :
    Ok { i with buf := i.buf.unpush } ∧ pending { i with buf := i.buf.unpush } = i.pending := by
  have hlt : (i.w - i.r).toNat < i.buf.size := h.w_lt hne
  have hsize : i.buf.size ≤ INPUT_BUF := h.size
  have hpos : i.buf.size ≠ 0 := by omega
  have hun := RingBuffer.size_unpush hpos
  refine ⟨⟨?_, ?_⟩, ?_⟩
  · show i.buf.unpush.size ≤ INPUT_BUF
    omega
  · show (i.w - i.r).toNat ≤ i.buf.unpush.size
    omega
  · show i.buf.unpush.content.take (i.w - i.r).toNat = i.buf.content.take (i.w - i.r).toNat
    rw [RingBuffer.content_unpush hpos, List.take_take, min_eq_left (by omega)]

/-- The line is killed. -/
theorem Ok.killLine (h : i.Ok) (n : ℕ) :
    (i.killLine n).Ok ∧ (i.killLine n).pending = i.pending ∧ (i.killLine n).r = i.r ∧
      (i.killLine n).w = i.w := by
  induction n generalizing i with
  | zero => exact ⟨h, rfl, rfl, rfl⟩
  | succ n ih =>
    unfold Input.killLine
    split_ifs with hc
    · obtain ⟨hok, hpending⟩ := h.unpush hc.1
      obtain ⟨hok', hpending', hr, hw⟩ := ih hok
      exact ⟨hok', hpending'.trans hpending, hr, hw⟩
    · exact ⟨h, rfl, rfl, rfl⟩

/-- A byte is added to the line. -/
theorem Ok.push (h : i.Ok) (hsize : (i.e - i.r).toNat < INPUT_BUF) (c : UInt8) :
    Ok { i with buf := i.buf.push c } ∧ pending { i with buf := i.buf.push c } = i.pending := by
  have hlt : i.buf.size < INPUT_BUF := hsize
  have hw : (i.w - i.r).toNat ≤ i.buf.size := h.w
  have hN : INPUT_BUF = 128 := rfl
  have hpush := RingBuffer.size_push (r := i.buf) (by omega) c
  refine ⟨⟨?_, ?_⟩, ?_⟩
  · show (i.buf.push c).size ≤ INPUT_BUF
    omega
  · show (i.w - i.r).toNat ≤ (i.buf.push c).size
    omega
  · show (i.buf.push c).content.take (i.w - i.r).toNat = i.buf.content.take (i.w - i.r).toNat
    rw [RingBuffer.content_push (by decide) (by decide) hlt,
      List.take_append_of_le_length (by rw [RingBuffer.length_content]; exact hw)]

/-- The line is let out. -/
theorem Ok.commit (h : i.Ok) :
    Ok { i with w := i.e } ∧ pending { i with w := i.e } = i.pending ++ i.edited := by
  refine ⟨⟨h.size, le_rfl⟩, ?_⟩
  rw [pending_append_edited]
  refine List.take_of_length_le ?_
  rw [RingBuffer.length_content]
  exact le_rfl

/-- A character goes into the line. -/
theorem Ok.put (h : i.Ok) (hsize : (i.e - i.r).toNat < INPUT_BUF) (c : UInt8) :
    (i.put c).1.Ok ∧ (i.put c).1.pending = i.pending ++ (i.put c).2 := by
  obtain ⟨hok, hpending⟩ := h.push hsize c
  unfold Input.put
  dsimp only
  split_ifs
  · obtain ⟨hok', hpending'⟩ := hok.commit
    exact ⟨hok', hpending'.trans (by rw [hpending])⟩
  · exact ⟨hok, hpending.trans (List.append_nil _).symm⟩

/-- One character: `pending` gets the bytes that are let out. -/
theorem Ok.intr (h : i.Ok) (c : UInt8) :
    (i.intr c).1.Ok ∧ (i.intr c).1.pending = i.pending ++ (i.intr c).2 := by
  unfold Input.intr
  have hsame : i.Ok ∧ i.pending = i.pending ++ [] := ⟨h, (List.append_nil _).symm⟩
  by_cases hp : c = C 'P'
  · rw [if_pos hp]
    exact hsame
  rw [if_neg hp]
  by_cases hu : c = C 'U'
  · obtain ⟨hok, hpending, -, -⟩ := h.killLine (i.e - i.w).toNat
    rw [if_pos hu]
    exact ⟨hok, hpending.trans (List.append_nil _).symm⟩
  rw [if_neg hu]
  by_cases hh : c = C 'H' ∨ c = DEL
  · rw [if_pos hh]
    by_cases he : i.e ≠ i.w
    · obtain ⟨hok, hpending⟩ := h.unpush he
      rw [if_pos he]
      exact ⟨hok, hpending.trans (List.append_nil _).symm⟩
    · rw [if_neg he]
      exact hsame
  rw [if_neg hh]
  by_cases hc : c ≠ 0 ∧ (i.e - i.r).toNat < INPUT_BUF
  · rw [if_pos hc]
    exact h.put hc.2 _
  · rw [if_neg hc]
    exact hsame

/-- The editing characters leave what readers may have. -/
theorem Ok.intr_edit (h : i.Ok) (hc : c = C 'U' ∨ c = C 'H' ∨ c = DEL) :
    (i.intr c).1.r = i.r ∧ (i.intr c).1.w = i.w ∧ (i.intr c).1.pending = i.pending := by
  have hp : c ≠ C 'P' := by
    rintro rfl
    revert hc
    decide
  unfold Input.intr
  rw [if_neg hp]
  by_cases hu : c = C 'U'
  · obtain ⟨-, hpending, hr, hw⟩ := h.killLine (i.e - i.w).toNat
    rw [if_pos hu]
    exact ⟨hr, hw, hpending⟩
  · rw [if_neg hu, if_pos (hc.resolve_left hu)]
    by_cases he : i.e ≠ i.w
    · rw [if_pos he]
      exact ⟨rfl, rfl, (h.unpush he).2⟩
    · rw [if_neg he]
      exact ⟨rfl, rfl, rfl⟩

/-- All characters of an interrupt. -/
theorem Ok.consoleintr (h : i.Ok) (cs : List UInt8) :
    (i.consoleintr cs).1.Ok ∧ (i.consoleintr cs).1.pending = i.pending ++ (i.consoleintr cs).2 := by
  induction cs generalizing i with
  | nil => exact ⟨h, (List.append_nil _).symm⟩
  | cons c cs ih =>
    obtain ⟨hok, hpending⟩ := h.intr c
    obtain ⟨hok', hpending'⟩ := ih hok
    refine ⟨hok', hpending'.trans ?_⟩
    rw [hpending, List.append_assoc]
    rfl

/-! ## Reading -/

/-- A byte is taken out. -/
theorem Ok.pop (h : i.Ok) (hne : i.r ≠ i.w) :
    Ok { i with buf := i.buf.pop } ∧
      i.pending = i.buf.front :: pending { i with buf := i.buf.pop } := by
  have hw : (i.w - i.r).toNat ≤ i.buf.size := h.w
  have hsize : i.buf.size ≤ INPUT_BUF := h.size
  have hpos : (i.w - i.r).toNat ≠ 0 := by
    intro hz
    refine hne (eq_of_toNat_sub (r := i.r) ?_)
    rw [hz, UInt32.sub_self]
    rfl
  have hpop := RingBuffer.size_pop (r := i.buf) (by omega)
  have hstep : (i.w - (i.r + 1)).toNat + 1 = (i.w - i.r).toNat := by
    have h1 := i.r.toNat_lt
    have h2 := i.w.toNat_lt
    have hsub : (i.w - (i.r + 1)).toNat = (2 ^ 32 - (i.r.toNat + 1) % 2 ^ 32 + i.w.toNat) % 2 ^ 32 := by
      rw [UInt32.toNat_sub, UInt32.toNat_add]
      rfl
    have hsub' : (i.w - i.r).toNat = (2 ^ 32 - i.r.toNat + i.w.toNat) % 2 ^ 32 := UInt32.toNat_sub ..
    omega
  refine ⟨⟨?_, ?_⟩, ?_⟩
  · show i.buf.pop.size ≤ INPUT_BUF
    omega
  · show (i.w - (i.r + 1)).toNat ≤ i.buf.pop.size
    omega
  · show i.buf.content.take (i.w - i.r).toNat =
      i.buf.front :: i.buf.pop.content.take (i.w - (i.r + 1)).toNat
    rw [RingBuffer.content_pop (by omega), ← hstep, List.take_succ_cons]

end Input

/-- What a section of `consoleread` has done when it sleeps or returns. -/
structure SectionOk (target : ℕ) (i : Input) (dst : List UInt8) (x : Section) : Prop where
  /-- The indices are in order. -/
  ok : x.input.Ok
  /-- It took the first bytes. -/
  taken : i.pending = x.taken ++ x.input.pending
  /-- If it sleeps, it has handed out what it took, and more is to come. -/
  asleep : ∀ n, x.asleep = some n → x.dst = dst ++ x.taken ∧ x.dst.length + n = target ∧ 0 < n ∧
    C 'D' ∉ x.taken ∧ NL ∉ x.taken
  /-- If it returns, it took a `^D` and hands out nothing, or it hands out what it took, up to a
  newline. -/
  ret : x.asleep = none → x.taken = [C 'D'] ∧ x.dst = [] ∧ dst = [] ∨
    x.dst = dst ++ x.taken ∧ x.dst ≠ [] ∧ C 'D' ∉ x.taken ∧ NL ∉ x.taken.dropLast

/-- A byte that is neither `^D` nor a newline comes before the rest of a section. -/
theorem SectionOk.cons {x : Section} (h : SectionOk target j (dst ++ [c]) x)
    (hi : i.pending = c :: j.pending) (hd : c ≠ C 'D') (hnl : c ≠ NL) :
    SectionOk target i dst { x with taken := c :: x.taken } := by
  have happend : dst ++ c :: x.taken = dst ++ [c] ++ x.taken := by simp
  refine ⟨h.ok, ?_, fun n hn => ?_, fun hn => ?_⟩
  · rw [hi, h.taken]
    rfl
  · obtain ⟨h1, h2, h3, h4, h5⟩ := h.asleep n hn
    refine ⟨happend ▸ h1, h2, h3, fun hmem => ?_, fun hmem => ?_⟩
    · exact (List.mem_cons.mp hmem).elim (fun heq => hd heq.symm) h4
    · exact (List.mem_cons.mp hmem).elim (fun heq => hnl heq.symm) h5
  · rcases h.ret hn with ⟨-, -, h3⟩ | ⟨h1, h2, h3, h4⟩
    · exact absurd h3 (by simp)
    · refine .inr ⟨happend ▸ h1, h2, fun hmem => ?_, fun hmem => ?_⟩
      · exact (List.mem_cons.mp hmem).elim (fun heq => hd heq.symm) h3
      · cases hx : x.taken with
        | nil =>
          rw [hx] at hmem
          exact nomatch hmem
        | cons b l =>
          rw [hx] at hmem h4
          exact (List.mem_cons.mp hmem).elim (fun heq => hnl heq.symm) h4

/-- The loop of `consoleread`. -/
theorem Input.Ok.consoleread (h : i.Ok) (hn : dst.length + n = target) (ht : 0 < target) :
    SectionOk target i dst (consoleread target n i dst) := by
  induction n generalizing i dst with
  | zero =>
    refine ⟨h, rfl, nofun, fun _ => .inr ⟨(List.append_nil _).symm, fun hnil => ?_, nofun, nofun⟩⟩
    have hz : dst.length = 0 := by rw [show dst = [] from hnil]; rfl
    omega
  | succ n ih =>
    unfold Console.consoleread
    by_cases hempty : i.r = i.w
    · rw [if_pos hempty]
      refine ⟨h, rfl, fun n' hn' => ?_, nofun⟩
      obtain rfl := Option.some.inj hn'
      exact ⟨(List.append_nil _).symm, hn, Nat.succ_pos n, nofun, nofun⟩
    · obtain ⟨hok, hpending⟩ := h.pop hempty
      rw [if_neg hempty]
      dsimp only
      by_cases hd : i.buf.front = C 'D'
      · rw [if_pos hd]
        by_cases hpartial : n + 1 < target
        · -- the `^D` goes back
          have hback : ({ i with buf := { i.buf.pop with nread := i.buf.pop.nread - 1 } } : Input) = i := by
            show ({ i with buf := { i.buf with nread := i.buf.nread + 1 - 1 } } : Input) = i
            rw [UInt32.add_sub_cancel]
          rw [if_pos hpartial, hback]
          refine ⟨h, rfl, nofun, fun _ => .inr ⟨(List.append_nil _).symm, fun hnil => ?_, nofun, nofun⟩⟩
          have hz : dst.length = 0 := by rw [show dst = [] from hnil]; rfl
          omega
        · have hdst : dst = [] := List.length_eq_zero_iff.mp (by omega)
          rw [if_neg hpartial]
          exact ⟨hok, hpending, nofun, fun _ => .inl ⟨congrArg (fun b => [b]) hd, hdst, hdst⟩⟩
      · rw [if_neg hd]
        by_cases hnl : i.buf.front = NL
        · rw [if_pos hnl]
          refine ⟨hok, hpending, nofun, fun _ => .inr ⟨rfl, by simp, fun hmem => ?_, nofun⟩⟩
          exact hd (List.mem_singleton.mp hmem).symm
        · rw [if_neg hnl]
          refine (ih hok ?_).cons hpending hd hnl
          rw [List.length_append, List.length_singleton]
          omega

/-! ## Runs -/

/-- The bytes that were let out. -/
def committed (es : List Event) : List UInt8 :=
  es.flatMap fun
    | .intr _ bytes => bytes
    | _ => []

/-- The bytes that an event takes out. -/
def Event.taken : Event → List UInt8
  | .sleep _ taken | .ret _ taken _ => taken
  | _ => []

/-- The bytes that were taken out. -/
def consumed (es : List Event) : List UInt8 := es.flatMap Event.taken

/-- The bytes that `p` has taken out in its call. -/
def takenBy (p : ℕ) (es : List Event) : List UInt8 :=
  es.foldl (fun l e => match e with
    | .call q _ => if q = p then [] else l
    | .sleep q taken | .ret q taken _ => if q = p then l ++ taken else l
    | _ => l) []

/-- The call returns no bytes. -/
def Event.retNone : Event → Bool
  | .ret _ _ [] => true
  | _ => false

/-- A call returns what it took out, up to a newline; or it took out a `^D`, and returns nothing. -/
def Returns (took dst : List UInt8) : Prop :=
  took = [C 'D'] ∧ dst = [] ∨ dst = took ∧ dst ≠ [] ∧ C 'D' ∉ dst ∧ NL ∉ dst.dropLast

/-- What holds of a state and the events that led to it. -/
structure Inv (es : List Event) (s : State) : Prop where
  /-- The indices are in order. -/
  ok : s.input.Ok
  /-- Nothing is lost. -/
  flow : consumed es ++ s.input.pending = committed es
  /-- A call that is not over has handed out what it took. -/
  reading : ∀ p x, s.reading p = some x → x.dst = takenBy p es ∧ x.dst.length + x.n = x.target ∧
    0 < x.n ∧ C 'D' ∉ x.dst ∧ NL ∉ x.dst
  /-- What calls have returned. -/
  returned : ∀ k p taken dst, es[k]? = some (.ret p taken dst) →
    Returns (takenBy p (es.take k) ++ taken) dst
  /-- Every `^D` that was taken out is that of a call that returned nothing. -/
  eof : (consumed es).count (C 'D') = es.countP Event.retNone

theorem inv_init : Inv [] init :=
  ⟨⟨by decide, by decide⟩, rfl, fun _ _ hx => (nomatch hx), fun _ _ _ _ hk => (nomatch hk), rfl⟩

theorem consumed_append (es : List Event) (e : Event) : consumed (es ++ [e]) = consumed es ++ e.taken := by
  unfold consumed
  rw [List.flatMap_append, List.flatMap_singleton]

theorem takenBy_append (p : ℕ) (es : List Event) (e : Event) :
    takenBy p (es ++ [e]) = (match e with
      | .call q _ => if q = p then [] else takenBy p es
      | .sleep q taken | .ret q taken _ => if q = p then takenBy p es ++ taken else takenBy p es
      | _ => takenBy p es) := by
  unfold takenBy
  rw [List.foldl_append]
  rfl

/-- What calls have returned, after an event. -/
theorem Inv.returned_append (h : Inv es s)
    (he : ∀ p taken dst, e = .ret p taken dst → Returns (takenBy p es ++ taken) dst) :
    ∀ k p taken dst, (es ++ [e])[k]? = some (.ret p taken dst) →
      Returns (takenBy p ((es ++ [e]).take k) ++ taken) dst := by
  intro k p taken dst hk
  rcases Nat.lt_or_ge k es.length with hlt | hge
  · rw [List.getElem?_append_left hlt] at hk
    rw [List.take_append_of_le_length hlt.le]
    exact h.returned k p taken dst hk
  · rw [List.getElem?_append_right hge] at hk
    obtain ⟨hlt, hget⟩ := List.getElem?_eq_some_iff.mp hk
    rw [List.length_singleton] at hlt
    have hk0 : k = es.length := by omega
    subst hk0
    rw [List.take_left]
    refine he p taken dst ?_
    simpa using hk

/-- What a section has done, for the reader that runs it. -/
theorem Inv.section {x : Reading} (h : Inv es s) (hx : s.reading p = some x) :
    SectionOk x.target s.input x.dst (consoleread x.target x.n s.input x.dst) := by
  obtain ⟨-, hlen, hpos, -⟩ := h.reading p x hx
  exact h.ok.consoleread hlen (by omega)

/-- The calls of the other processes go on as before. -/
theorem Inv.reading_of_ne {q : ℕ} {x : Reading} (h : Inv es s) (hx : s.reading q = some x)
    (hsame : takenBy q (es ++ [e]) = takenBy q es) :
    x.dst = takenBy q (es ++ [e]) ∧ x.dst.length + x.n = x.target ∧ 0 < x.n ∧ C 'D' ∉ x.dst ∧
      NL ∉ x.dst := by
  rw [hsame]
  exact h.reading q x hx

theorem count_eof_of_not_mem {l : List UInt8} (h : C 'D' ∉ l) : l.count (C 'D') = 0 :=
  List.count_eq_zero.mpr h

/-- A section took the first bytes. -/
theorem Inv.flow_append {x : Section} (h : Inv es s) (hx : SectionOk target s.input dst x)
    (he : e.taken = x.taken) (hc : committed (es ++ [e]) = committed es) :
    consumed (es ++ [e]) ++ x.input.pending = committed (es ++ [e]) := by
  rw [consumed_append, hc, he, List.append_assoc, ← hx.taken]
  exact h.flow

theorem committed_append (es : List Event) (e : Event) : committed (es ++ [e]) =
    committed es ++ (match e with
      | .intr _ bytes => bytes
      | _ => []) := by
  unfold committed
  rw [List.flatMap_append, List.flatMap_singleton]

/-- Every step keeps the invariant. -/
theorem Inv.step (h : Inv es s) (hstep : Step s e s') : Inv (es ++ [e]) s' := by
  cases hstep with
  | intr cs =>
    obtain ⟨hok, hpending⟩ := h.ok.consoleintr cs
    refine ⟨hok, ?_, fun q x hx => h.reading_of_ne hx (takenBy_append ..),
      h.returned_append (by nofun), ?_⟩
    · rw [consumed_append, committed_append, hpending, ← h.flow, ← List.append_assoc]
      show consumed es ++ [] ++ _ ++ _ = _
      rw [List.append_nil]
    · rw [consumed_append, List.countP_append]
      show (consumed es ++ []).count _ = _ + 0
      rw [List.append_nil]
      exact h.eof
  | call p n hp hn =>
    refine ⟨h.ok, ?_, fun q x hx => ?_, h.returned_append (by nofun), ?_⟩
    · rw [consumed_append, committed_append]
      show consumed es ++ [] ++ _ = committed es ++ []
      rw [List.append_nil, List.append_nil]
      exact h.flow
    · by_cases hq : q = p
      · subst hq
        dsimp only at hx
        rw [update_self] at hx
        obtain rfl := Option.some.inj hx
        rw [takenBy_append]
        exact ⟨(if_pos rfl).symm, Nat.zero_add _, hn, nofun, nofun⟩
      · dsimp only at hx
        rw [update_of_ne hq] at hx
        exact h.reading_of_ne hx ((takenBy_append ..).trans (if_neg (Ne.symm hq)))
    · rw [consumed_append, List.countP_append]
      show (consumed es ++ []).count _ = _ + 0
      rw [List.append_nil]
      exact h.eof
  | sleep p x n hp hawake hn =>
    have hsec := h.section hp
    obtain ⟨hdst, -, -, hnod, hnonl⟩ := h.reading p x hp
    obtain ⟨hdst', hlen, hpos, hnod', hnonl'⟩ := hsec.asleep n hn
    refine ⟨hsec.ok, h.flow_append hsec rfl ((committed_append ..).trans (List.append_nil _)),
      fun q y hy => ?_, h.returned_append (by nofun), ?_⟩
    · by_cases hq : q = p
      · subst hq
        dsimp only at hy
        rw [update_self] at hy
        obtain rfl := Option.some.inj hy
        rw [takenBy_append]
        refine ⟨?_, hlen, hpos, ?_, ?_⟩
        · show (consoleread x.target x.n s.input x.dst).dst = if q = q then _ else _
          rw [if_pos rfl, hdst', ← hdst]
        · show C 'D' ∉ (consoleread x.target x.n s.input x.dst).dst
          rw [hdst']
          exact fun hmem => (List.mem_append.mp hmem).elim hnod hnod'
        · show NL ∉ (consoleread x.target x.n s.input x.dst).dst
          rw [hdst']
          exact fun hmem => (List.mem_append.mp hmem).elim hnonl hnonl'
      · dsimp only at hy
        rw [update_of_ne hq] at hy
        exact h.reading_of_ne hy ((takenBy_append ..).trans (if_neg (Ne.symm hq)))
    · rw [consumed_append, List.countP_append, List.count_append]
      exact congrArg₂ (· + ·) h.eof (count_eof_of_not_mem hnod')
  | ret p x hp hawake hn =>
    have hsec := h.section hp
    obtain ⟨hdst, -, -, hnod, hnonl⟩ := h.reading p x hp
    refine ⟨hsec.ok, h.flow_append hsec rfl ((committed_append ..).trans (List.append_nil _)),
      fun q y hy => ?_, h.returned_append fun p' taken dst heq => ?_, ?_⟩
    · by_cases hq : q = p
      · subst hq
        dsimp only at hy
        rw [update_self] at hy
        exact nomatch hy
      · dsimp only at hy
        rw [update_of_ne hq] at hy
        exact h.reading_of_ne hy ((takenBy_append ..).trans (if_neg (Ne.symm hq)))
    · obtain ⟨rfl, rfl, rfl⟩ := Event.ret.inj heq
      rw [← hdst]
      rcases hsec.ret hn with ⟨htaken, hnone, hempty⟩ | ⟨hall, hne, hnod', hnonl'⟩
      · exact .inl ⟨by rw [htaken, hempty]; rfl, hnone⟩
      · refine .inr ⟨hall, hne, ?_, ?_⟩
        · rw [hall]
          exact fun hmem => (List.mem_append.mp hmem).elim hnod hnod'
        · rw [hall]
          intro hmem
          by_cases hnil : (consoleread x.target x.n s.input x.dst).taken = []
          · rw [hnil, List.append_nil] at hmem
            exact hnonl (List.dropLast_subset _ hmem)
          · rw [List.dropLast_append_of_ne_nil hnil] at hmem
            exact (List.mem_append.mp hmem).elim hnonl hnonl'
    · rw [consumed_append, List.countP_append, List.count_append]
      refine congrArg₂ (· + ·) h.eof ?_
      rcases hsec.ret hn with ⟨htaken, hnone, -⟩ | ⟨-, hne, hnod', -⟩
      · show (consoleread x.target x.n s.input x.dst).taken.count _ = List.countP _ [Event.ret p _ _]
        rw [htaken, hnone]
        rfl
      · refine (count_eof_of_not_mem hnod').trans (Eq.symm ?_)
        rw [List.countP_eq_zero]
        intro e' he'
        rw [List.mem_singleton.mp he']
        unfold Event.retNone
        split
        · rename_i heq
          exact absurd (Event.ret.inj heq).2.2 hne
        · decide

/-- The console keeps its lines: in every run the indices stay in order; the characters for editing leave
what readers may have; what was taken out, followed by what readers may have, is what was let out; every
call returns the bytes that it took out, up to a newline, or takes out one `^D` and returns nothing; and
no other `^D` is taken out. -/
theorem line_discipline (h : Run Step init es s) :
    ((s.input.w - s.input.r).toNat ≤ (s.input.e - s.input.r).toNat ∧
        (s.input.e - s.input.r).toNat ≤ INPUT_BUF) ∧
      (∀ c, c = C 'U' ∨ c = C 'H' ∨ c = DEL → (s.input.intr c).1.r = s.input.r ∧
        (s.input.intr c).1.w = s.input.w ∧ (s.input.intr c).1.pending = s.input.pending) ∧
      consumed es ++ s.input.pending = committed es ∧
      (∀ k p taken dst, es[k]? = some (.ret p taken dst) →
        Returns (takenBy p (es.take k) ++ taken) dst) ∧
      (consumed es).count (C 'D') = es.countP Event.retNone := by
  have hinv : Inv es s := h.history inv_init fun _ _ _ _ hI hR => hI.step hR
  exact ⟨⟨hinv.ok.w, hinv.ok.size⟩, fun c hc => hinv.ok.intr_edit hc, hinv.flow, hinv.returned, hinv.eof⟩

/-- A line is typed. -/
theorem line_discipline_typed : (init.input.consoleintr [104, 105, 10]).2 = [104, 105, 10] ∧
    ∃ s, Run Step init [.intr [104, 105, 10] (init.input.consoleintr [104, 105, 10]).2] s ∧
      consumed [.intr [104, 105, 10] (init.input.consoleintr [104, 105, 10]).2] ++ s.input.pending =
        committed [.intr [104, 105, 10] (init.input.consoleintr [104, 105, 10]).2] := by
  have hrun : Run Step init [.intr [104, 105, 10] (init.input.consoleintr [104, 105, 10]).2] _ :=
    .cons (.intr init [104, 105, 10]) (.nil _)
  exact ⟨by decide, _, hrun, (line_discipline hrun).2.2.1⟩

end ChronoFS.Console
