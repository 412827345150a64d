import Mathlib.Data.List.Basic

/-!
# Runs of a labelled transition system

`Run R s es s'` says that the events `es`, taken in order, lead from `s` to `s'` by the step
relation `R`. An invariant of every step is an invariant of every run (`Run.invariant`); where a
step needs a side condition, the condition goes into the relation. `Run.history` is the rule for
what holds of a state together with the events that led to it, and `Since` says of such events that
one has happened and that no other one has happened after it.
-/

variable {σ ε : Type*}

/-- The events `es` lead from one state to another by the steps of `R`. -/
inductive Run (R : σ → ε → σ → Prop) : σ → List ε → σ → Prop
  /-- The empty run stays where it is. -/
  | nil (s : σ) : Run R s [] s
  /-- A step, then a run from where it leads. -/
  | cons {s s' s'' : σ} {e : ε} {es : List ε} :
      R s e s' → Run R s' es s'' → Run R s (e :: es) s''

namespace Run

variable {R : σ → ε → σ → Prop}

/-- What every step preserves, every run preserves. -/
theorem invariant {I : σ → Prop} (hstep : ∀ s e s', I s → R s e s' → I s') {s s' : σ}
    {es : List ε} (h : Run R s es s') (hs : I s) : I s' := by
  induction h with
  | nil => exact hs
  | cons hR _ ih => exact ih (hstep _ _ _ hs hR)

/-- A step, then a run to a state with `P`. -/
theorem exists_cons {P : σ → Prop} {s s' : σ} {e : ε} {es : List ε} (h : R s e s')
    (hrun : ∃ s'', Run R s' es s'' ∧ P s'') : ∃ s'', Run R s (e :: es) s'' ∧ P s'' := by
  obtain ⟨s'', hrun, hP⟩ := hrun
  exact ⟨s'', .cons h hrun, hP⟩

/-- What every step preserves of the events so far and the state, every run has. -/
theorem history {I : List ε → σ → Prop} {s s' : σ} {es : List ε} (h : Run R s es s')
    (h0 : I [] s) (hstep : ∀ fs s1 e s2, I fs s1 → R s1 e s2 → I (fs ++ [e]) s2) : I es s' := by
  -- the induction is on the rest of the run, after any events `fs`
  suffices ∀ fs, I fs s → I (fs ++ es) s' from this [] h0
  clear h0
  induction h with
  | nil s => exact fun fs hfs => by rwa [List.append_nil]
  | @cons s s1 s2 e es hR _ ih =>
    intro fs hfs
    have h1 := ih (fs ++ [e]) (hstep fs s e s1 hfs hR)
    rwa [List.append_assoc] at h1

/-- Two runs in a row are one run. -/
theorem append {s s' s'' : σ} {es fs : List ε} (h : Run R s es s') (h' : Run R s' fs s'') :
    Run R s (es ++ fs) s'' := by
  induction h with
  | nil => exact h'
  | cons hR _ ih => exact .cons hR (ih h')

/-- A run over a concatenation passes through a state between the two parts. -/
theorem split {s s'' : σ} {es fs : List ε} (h : Run R s (es ++ fs) s'') :
    ∃ s', Run R s es s' ∧ Run R s' fs s'' := by
  induction es generalizing s with
  | nil => exact ⟨s, .nil s, h⟩
  | cons e es ih =>
    cases h with
    | cons hR hrest =>
      obtain ⟨s', h1, h2⟩ := ih hrest
      exact ⟨s', .cons hR h1, h2⟩

/-- A run whose steps also satisfy another relation is a run of it. -/
theorem mono_mem {R' : σ → ε → σ → Prop} {s s' : σ} {es : List ε} (h : Run R s es s')
    (hR : ∀ s s', ∀ e ∈ es, R s e s' → R' s e s') : Run R' s es s' := by
  induction h with
  | nil s => exact .nil s
  | cons h1 _ ih =>
    refine .cons (hR _ _ _ List.mem_cons_self h1) (ih fun s s' e he => ?_)
    exact hR s s' e (List.mem_cons_of_mem _ he)

theorem mono {R' : σ → ε → σ → Prop} (hR : ∀ s e s', R s e s' → R' s e s') {s s' : σ}
    {es : List ε} (h : Run R s es s') : Run R' s es s' :=
  h.mono_mem fun s s' e _ => hR s e s'

/-- A system whose step is a function runs as the function does. -/
theorem of_foldlM {step : σ → ε → Option σ} {s s' : σ} {es : List ε}
    (h : es.foldlM step s = some s') : Run (fun s e s' => step s e = some s') s es s' := by
  induction es generalizing s with
  | nil =>
    obtain rfl := Option.some.inj h
    exact .nil s
  | cons e es ih =>
    rw [List.foldlM_cons] at h
    obtain ⟨s1, h1, h2⟩ := Option.bind_eq_some_iff.mp h
    exact .cons h1 (ih h2)

end Run

/-! ## Histories -/

/-- An event with `P` has happened, and none with `Q` after it. -/
def Since (P Q : ε → Prop) (es : List ε) : Prop :=
  ∃ es₁ e es₂, es = es₁ ++ e :: es₂ ∧ P e ∧ ∀ e' ∈ es₂, ¬ Q e'

namespace Since

variable {P Q : ε → Prop} {es : List ε} {e : ε}

@[simp]
theorem nil : ¬ Since P Q [] := by
  rintro ⟨es1, e, es2, h, -⟩
  exact absurd h (by simp)

/-- One more event: it is the one with `P`, or that has happened before and it has not `Q`. -/
theorem snoc : Since P Q (es ++ [e]) ↔ P e ∨ ¬ Q e ∧ Since P Q es := by
  constructor
  · rintro ⟨es1, e1, es2, h, hP, hQ⟩
    rcases List.eq_nil_or_concat es2 with rfl | ⟨es2, e2, rfl⟩
    · obtain ⟨-, he⟩ := List.append_inj' h rfl
      obtain rfl : e = e1 := by simpa using he
      exact .inl hP
    · rw [List.concat_eq_append, ← List.cons_append, ← List.append_assoc] at h
      obtain ⟨hes, he⟩ := List.append_inj' h rfl
      obtain rfl : e = e2 := by simpa using he
      refine .inr ⟨hQ e (by simp), es1, e1, es2, hes, hP, fun e' he' => hQ e' (by simp [he'])⟩
  · rintro (hP | ⟨hQ, es1, e1, es2, rfl, hP, hes⟩)
    · exact ⟨es, e, [], rfl, hP, fun e' he' => absurd he' (by simp)⟩
    · refine ⟨es1, e1, es2 ++ [e], by simp, hP, fun e' he' => ?_⟩
      rcases List.mem_append.mp he' with he' | he'
      · exact hes e' he'
      · obtain rfl : e' = e := by simpa using he'
        exact hQ

end Since
