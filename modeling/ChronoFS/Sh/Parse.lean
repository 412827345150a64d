import ChronoFS.Sh.Grammar

/-!
# The parser accepts its grammar

Both directions are for the functions of the recursive descent one by one, with the tokens that are
left in place of the cursor. What a function returns is derivable from the tokens that it has taken
(`Parses`), by induction on the number of calls; the number is large enough for the tokens that are
left, so the only way not to return is a panic. And a function that is called at the tokens of a
derivation takes them and returns its command, if the tokens after them do not go on
(`Takes`), by induction on the derivation.
-/

namespace ChronoFS.Sh

variable {s : CString} {fuel p : ℕ} {ts us vs : List Token} {rs : List Redir}
  {argv : List (ℕ × ℕ)} {cmd : Cmd}

/-! ## What the parser returns is derivable -/

/-- What `m` returns is `N` of the tokens that it takes; it may panic. -/
def Parses {α : Type} (s : CString) (m : Parse α) (N : List Token → α → Prop) (ts : List Token)
    (p : ℕ) : Prop :=
  wp m (fun a p' => ∃ us vs, ts = us ++ vs ∧ N us a ∧ Tokens s p' vs) (fun e _ => e ≠ .fuel) p

theorem panic_ne_fuel {msg : String} : Stop.panic msg ≠ .fuel := fun h => nomatch h

/-- The symbols that the parser looks for. -/
theorem mem_symbols {l : List Char} (h : (l.all fun c => symbols.contains c.toUInt8) = true) :
    ∀ c ∈ chars l, c ∈ symbols := by
  intro c hc
  obtain ⟨d, hd, rfl⟩ := List.mem_map.mp hc
  exact List.contains_iff_mem.mp (List.all_eq_true.mp h d hd)

/-- If the next token begins with one of the symbols, there is one, of this kind. -/
theorem exists_next {toks : List UInt8} (h : next toks ts = true) :
    ∃ t us, ts = t :: us ∧ t.kind.startsWith toks = true := by
  cases ts with
  | nil => exact nomatch h
  | cons t us => exact ⟨t, us, rfl, h⟩

/-- A symbol that begins one kind of token. -/
theorem kind_of_startsWith {c : Char} {k k' : Kind} (h : k.startsWith (chars [c]) = true)
    (hc : k'.char = some c.toUInt8) : k = k' := by
  obtain ⟨hsingle, -, -⟩ := Kind.char_spec hc
  have hmem : ∀ {d : UInt8}, (chars [c]).contains d = true → d = c.toUInt8 := by
    intro d hd
    simpa [chars] using hd
  have hgt : (chars [c]).contains '>'.toUInt8 ≠ true := by
    intro hgt
    rw [← hmem hgt] at hsingle
    cases hsingle
  have hchar : k.char.any (chars [c]).contains = true := by
    cases k <;> first | exact h | exact absurd h hgt
  cases hd : k.char with
  | none =>
    rw [hd] at hchar
    cases hchar
  | some d =>
    rw [hd] at hchar
    have hsame := (Kind.char_spec hd).1
    rw [hmem hchar] at hsame
    exact Option.some.inj (hsame.symm.trans hsingle)

/-- `parseredirs`. -/
theorem parses_parseredirs (hfuel : ts.length < fuel) (h : Tokens s p ts) :
    Parses s (parseredirs s fuel rs) (fun us rs' => ∃ rs1, rs' = rs ++ rs1 ∧ Redirs us rs1) ts p := by
  induction fuel generalizing ts p rs with
  | zero => exact absurd hfuel (Nat.not_lt_zero _)
  | succ fuel ih =>
    unfold Parses parseredirs
    rw [wp_bind]
    refine wp_peek h (mem_symbols (by decide)) fun p1 h1 _ => ?_
    by_cases hnext : next (chars ['<', '>']) ts = true
    · obtain ⟨op, us, rfl, hop⟩ := exists_next hnext
      rw [if_pos hnext, wp_bind]
      refine wp_gettoken h1 fun p2 h2 => ?_
      rw [wp_bind]
      cases us with
      | nil =>
        refine wp_gettoken_nil h2 fun q e p3 h3 => ?_
        rw [if_neg (fun hword => nomatch hword)]
        exact panic_ne_fuel
      | cons file us =>
        refine wp_gettoken h2 fun p3 h3 => ?_
        by_cases hfile : file.kind = .word
        · rw [if_pos (congrArg some hfile)]
          rw [List.length_cons, List.length_cons] at hfuel
          refine wp_mono (ih (by omega) h3) ?_ fun e _ he => he
          rintro rs' p' ⟨vs, ws, rfl, ⟨rs1, rfl, hrs⟩, hws⟩
          refine ⟨op :: file :: vs, ws, rfl, ?_, hws⟩
          -- the three redirections
          cases hkind : op.kind with
          | lt => exact ⟨_, by rw [redirOf, List.append_assoc]; rfl, .lt hkind hfile hrs⟩
          | gt => exact ⟨_, by rw [redirOf, List.append_assoc]; rfl, .gt (.inl hkind) hfile hrs⟩
          | gtgt => exact ⟨_, by rw [redirOf, List.append_assoc]; rfl, .gt (.inr hkind) hfile hrs⟩
          | _ =>
            rw [hkind] at hop
            exact absurd hop (by decide)
        · rw [if_neg fun hword => hfile (Option.some.inj hword)]
          exact panic_ne_fuel
    · rw [if_neg hnext]
      exact ⟨[], ts, rfl, ⟨[], (List.append_nil rs).symm, .nil⟩, h1⟩

/-- The loop of `parseexec`. -/
theorem parses_parseargs (hfuel : ts.length < fuel) (h : Tokens s p ts) (hargv : argv.length ≤ 9) :
    Parses s (parseargs s fuel argv rs) (fun us r => ∃ argv1 rs1, r.1 = argv ++ argv1 ∧
      r.2 = rs ++ rs1 ∧ Args us argv1 rs1 ∧ r.1.length ≤ 9) ts p := by
  induction fuel generalizing ts p rs argv with
  | zero => exact absurd hfuel (Nat.not_lt_zero _)
  | succ fuel ih =>
    have hdone : ∀ {ts p}, Tokens s p ts → ∃ us vs, ts = us ++ vs ∧ (∃ argv1 rs1,
        argv = argv ++ argv1 ∧ rs = rs ++ rs1 ∧ Args us argv1 rs1 ∧ argv.length ≤ 9) ∧
        Tokens s p vs := fun hts => ⟨[], _, rfl, ⟨[], [], (List.append_nil _).symm,
          (List.append_nil _).symm, .nil, hargv⟩, hts⟩
    unfold Parses parseargs
    rw [wp_bind]
    refine wp_peek h (mem_symbols (by decide)) fun p1 h1 _ => ?_
    by_cases hnext : next (chars ['|', ')', '&', ';']) ts = true
    · rw [if_pos hnext]
      exact hdone h1
    rw [if_neg hnext, wp_bind]
    cases ts with
    | nil =>
      refine wp_gettoken_nil h1 fun q e p2 h2 => ?_
      rw [if_pos rfl]
      exact hdone h2
    | cons w ts =>
      refine wp_gettoken h1 fun p2 h2 => ?_
      rw [if_neg (fun hnone => nomatch hnone)]
      by_cases hword : w.kind = .word
      · rw [if_pos (congrArg some hword)]
        by_cases hmax : MAXARGS ≤ argv.length + 1
        · rw [if_pos hmax]
          exact panic_ne_fuel
        rw [List.length_cons] at hfuel
        rw [if_neg hmax]
        refine wp_of_spec (parses_parseredirs (by omega) h2) (fun e _ he => he) ?_
        rintro rs' p3 ⟨us, vs, rfl, ⟨rs1, rfl, hrs⟩, h3⟩
        rw [List.length_append] at hfuel
        have hlen : (argv ++ [(w.q, w.eq)]).length ≤ 9 := by
          rw [List.length_append]
          show argv.length + 1 ≤ 9
          unfold MAXARGS at hmax
          omega
        refine wp_mono (ih (by omega) h3 hlen) ?_ fun e _ he => he
        rintro r p' ⟨us', vs', rfl, ⟨argv1, rs2, hargv', hrs', hargs, hle⟩, hvs⟩
        refine ⟨w :: (us ++ us'), vs', by simp, ⟨(w.q, w.eq) :: argv1, rs1 ++ rs2, ?_, ?_, ?_, hle⟩,
          hvs⟩
        · rw [hargv', List.append_assoc]
          rfl
        · rw [hrs', List.append_assoc]
        · exact .cons hword hrs hargs
      · rw [if_neg fun heq => hword (Option.some.inj heq)]
        exact panic_ne_fuel

/-- The loop of `parseline`. -/
theorem parses_parsebacks (hfuel : ts.length < fuel) (h : Tokens s p ts) :
    Parses s (parsebacks s fuel cmd)
      (fun us cmd' => (∀ t ∈ us, t.kind = .amp) ∧ cmd' = backs us cmd) ts p := by
  induction fuel generalizing ts p cmd with
  | zero => exact absurd hfuel (Nat.not_lt_zero _)
  | succ fuel ih =>
    unfold Parses parsebacks
    rw [wp_bind]
    refine wp_peek h (mem_symbols (by decide)) fun p1 h1 _ => ?_
    by_cases hnext : next (chars ['&']) ts = true
    · obtain ⟨amp, ts, rfl, hamp⟩ := exists_next hnext
      rw [List.length_cons] at hfuel
      rw [if_pos hnext, wp_bind]
      refine wp_gettoken h1 fun p2 h2 => ?_
      refine wp_mono (ih (by omega) h2) ?_ fun e _ he => he
      rintro cmd' p' ⟨us, vs, rfl, ⟨hus, rfl⟩, hvs⟩
      refine ⟨amp :: us, vs, rfl, ⟨?_, rfl⟩, hvs⟩
      intro t ht
      rcases List.mem_cons.mp ht with rfl | ht
      · exact kind_of_startsWith hamp rfl
      · exact hus t ht
    · rw [if_neg hnext]
      exact ⟨[], ts, rfl, ⟨(fun t ht => nomatch ht), rfl⟩, h1⟩

/-- The four functions that call each other, with a number of calls that is enough. -/
theorem parses_all (fuel : ℕ) :
    (∀ {ts p}, 4 * ts.length + 4 ≤ fuel → Tokens s p ts →
      Parses s (parseline s fuel) Line ts p) ∧
    (∀ {ts p}, 4 * ts.length + 3 ≤ fuel → Tokens s p ts →
      Parses s (parsepipe s fuel) Pipe ts p) ∧
    (∀ {ts p}, 4 * ts.length + 2 ≤ fuel → Tokens s p ts →
      Parses s (parseexec s fuel) Command ts p) ∧
    (∀ {ts p}, 4 * ts.length + 1 ≤ fuel → Tokens s p ts →
      Parses s (parseblock s fuel) Command ts p) := by
  induction fuel with
  | zero => exact ⟨fun h => by omega, fun h => by omega, fun h => by omega, fun h => by omega⟩
  | succ fuel ih =>
    obtain ⟨ihline, ihpipe, ihexec, ihblock⟩ := ih
    refine ⟨fun {ts p} hfuel h => ?_, fun {ts p} hfuel h => ?_, fun {ts p} hfuel h => ?_,
      fun {ts p} hfuel h => ?_⟩
    · unfold Parses parseline
      refine wp_of_spec (ihpipe (by omega) h) (fun e _ he => he) ?_
      rintro cmd p1 ⟨us, vs, rfl, hpipe, h1⟩
      rw [List.length_append] at hfuel
      refine wp_of_spec (parses_parsebacks (by omega) h1) (fun e _ he => he) ?_
      rintro cmd' p2 ⟨amps, vs, rfl, ⟨hamps, rfl⟩, h2⟩
      rw [List.length_append] at hfuel
      rw [wp_bind]
      refine wp_peek h2 (mem_symbols (by decide)) fun p3 h3 _ => ?_
      by_cases hnext : next (chars [';']) vs = true
      · obtain ⟨semi, vs, rfl, hsemi⟩ := exists_next hnext
        rw [List.length_cons] at hfuel
        rw [if_pos hnext, wp_bind]
        refine wp_gettoken h3 fun p4 h4 => ?_
        refine wp_of_spec (ihline (by omega) h4) (fun e _ he => he) ?_
        rintro right p' ⟨ws, vs, rfl, hright, hvs⟩
        exact ⟨us ++ (amps ++ semi :: ws), vs, by simp,
          .list hpipe hamps (kind_of_startsWith hsemi rfl) hright, hvs⟩
      · rw [if_neg hnext]
        exact ⟨us ++ amps, vs, by simp, .last hpipe hamps, h3⟩
    · unfold Parses parsepipe
      refine wp_of_spec (ihexec (by omega) h) (fun e _ he => he) ?_
      rintro cmd p1 ⟨us, vs, rfl, hcmd, h1⟩
      rw [List.length_append] at hfuel
      rw [wp_bind]
      refine wp_peek h1 (mem_symbols (by decide)) fun p2 h2 _ => ?_
      by_cases hnext : next (chars ['|']) vs = true
      · obtain ⟨bar, vs, rfl, hbar⟩ := exists_next hnext
        rw [List.length_cons] at hfuel
        rw [if_pos hnext, wp_bind]
        refine wp_gettoken h2 fun p3 h3 => ?_
        refine wp_of_spec (ihpipe (by omega) h3) (fun e _ he => he) ?_
        rintro right p' ⟨ws, vs, rfl, hright, hvs⟩
        exact ⟨us ++ bar :: ws, vs, by simp,
          .pipe hcmd (kind_of_startsWith hbar rfl) hright, hvs⟩
      · rw [if_neg hnext]
        exact ⟨us, vs, rfl, .last hcmd, h2⟩
    · unfold Parses parseexec
      rw [wp_bind]
      refine wp_peek h (mem_symbols (by decide)) fun p1 h1 _ => ?_
      by_cases hnext : next (chars ['(']) ts = true
      · rw [if_pos hnext]
        exact ihblock (by omega) h1
      · rw [if_neg hnext]
        refine wp_of_spec (parses_parseredirs (by omega) h1) (fun e _ he => he) ?_
        rintro rs p2 ⟨us, vs, rfl, ⟨rs1, rfl, hrs⟩, h2⟩
        rw [List.length_append] at hfuel
        refine wp_of_spec (parses_parseargs (by omega) h2 (Nat.zero_le _)) (fun e _ he => he) ?_
        rintro ⟨argv, rs'⟩ p' ⟨ws, vs, rfl, ⟨argv1, rs2, rfl, rfl, hargs, hle⟩, hvs⟩
        exact ⟨us ++ ws, vs, by simp, .exec hrs hargs hle, hvs⟩
    · unfold Parses parseblock
      rw [wp_bind]
      refine wp_peek h (mem_symbols (by decide)) fun p1 h1 _ => ?_
      by_cases hnext : next (chars ['(']) ts = true
      · obtain ⟨lparen, ts, rfl, hlparen⟩ := exists_next hnext
        rw [List.length_cons] at hfuel
        rw [if_pos hnext, wp_bind]
        refine wp_gettoken h1 fun p2 h2 => ?_
        refine wp_of_spec (ihline (by omega) h2) (fun e _ he => he) ?_
        rintro cmd p3 ⟨us, vs, rfl, hline, h3⟩
        rw [List.length_append] at hfuel
        rw [wp_bind]
        refine wp_peek h3 (mem_symbols (by decide)) fun p4 h4 _ => ?_
        by_cases hclosed : next (chars [')']) vs = true
        · obtain ⟨rparen, vs, rfl, hrparen⟩ := exists_next hclosed
          rw [List.length_cons] at hfuel
          rw [if_pos hclosed, wp_bind]
          refine wp_gettoken h4 fun p5 h5 => ?_
          refine wp_of_spec (parses_parseredirs (by omega) h5) (fun e _ he => he) ?_
          rintro rs p' ⟨ws, vs, rfl, ⟨rs1, rfl, hrs⟩, hvs⟩
          exact ⟨lparen :: (us ++ rparen :: ws), vs, by simp,
            .block (kind_of_startsWith hlparen rfl) hline
              (kind_of_startsWith hrparen rfl) hrs, hvs⟩
        · rw [if_neg hclosed]
          exact panic_ne_fuel
      · rw [if_neg hnext]
        exact panic_ne_fuel

/-! ## What is derivable is parsed -/

/-- `m` takes the tokens before `vs` and returns `a`. -/
def Takes {α : Type} (s : CString) (m : Parse α) (a : α) (vs : List Token) (p : ℕ) : Prop :=
  wp m (fun b p' => b = a ∧ Tokens s p' vs) (fun _ _ => False) p

/-- The next token, if there is one, is one of these. -/
def Follow (ks : List Kind) (vs : List Token) : Prop := ∀ t ∈ vs.head?, t.kind ∈ ks

/-- What follows a `line`. -/
def lineEnd : List Kind := [.rparen]

/-- What follows a `pipe`. -/
def pipeEnd : List Kind := [.amp, .semi, .rparen]

/-- What follows a `cmd`. -/
def cmdEnd : List Kind := [.bar, .amp, .semi, .rparen]

namespace Follow

variable {ks ks' : List Kind} {toks : List UInt8} {t : Token}

theorem mono (h : Follow ks vs) (hks : ∀ k ∈ ks, k ∈ ks') : Follow ks' vs :=
  fun t ht => hks _ (h t ht)

theorem cons (h : t.kind ∈ ks) : Follow ks (t :: vs) := by
  intro u hu
  obtain rfl := Option.some.inj hu
  exact h

/-- None of the tokens that may follow begins with one of the symbols. -/
theorem next_eq_false (h : Follow ks vs) (hks : ∀ k ∈ ks, k.startsWith toks = false) :
    next toks vs ≠ true := by
  intro hnext
  obtain ⟨t, us, rfl, ht⟩ := exists_next hnext
  rw [hks _ (h t rfl)] at ht
  exact nomatch ht

/-- Tokens of the same kinds may stand before. -/
theorem append {us : List Token} (h : Follow ks vs) (hus : ∀ t ∈ us, t.kind ∈ ks) :
    Follow ks (us ++ vs) := by
  cases us with
  | nil => exact h
  | cons t us => exact cons (hus t List.mem_cons_self)

end Follow

theorem next_cons {toks : List UInt8} {t : Token} (h : t.kind.startsWith toks = true) :
    next toks (t :: ts) = true := h

/-- `parseredirs` takes the redirections. -/
theorem takes_parseredirs {rs1 : List Redir} (hrs : Redirs us rs1)
    (hvs : Follow (.word :: cmdEnd) vs) (hfuel : (us ++ vs).length < fuel)
    (h : Tokens s p (us ++ vs)) : Takes s (parseredirs s fuel rs) (rs ++ rs1) vs p := by
  -- one pass, for each of the three redirections
  have pass : ∀ {op file : Token} {us : List Token} {rs1 : List Redir} {r : Redir} {rs : List Redir}
      {fuel p : ℕ}, op.kind.startsWith (chars ['<', '>']) = true → file.kind = .word →
      redirOf (some op.kind) file.q file.eq = [r] →
      (∀ {p} {rs}, Tokens s p (us ++ vs) → Takes s (parseredirs s fuel rs) (rs ++ rs1) vs p) →
      Tokens s p (op :: file :: (us ++ vs)) →
      Takes s (parseredirs s (fuel + 1) rs) (rs ++ r :: rs1) vs p := by
    intro op file us rs1 r rs fuel p hop hfile hr ih h
    unfold Takes parseredirs
    rw [wp_bind]
    refine wp_peek h (mem_symbols (by decide)) fun p1 h1 _ => ?_
    rw [if_pos (next_cons hop), wp_bind]
    refine wp_gettoken h1 fun p2 h2 => ?_
    rw [wp_bind]
    refine wp_gettoken h2 fun p3 h3 => ?_
    rw [if_pos (congrArg some hfile), hr]
    have hrest : Takes s (parseredirs s fuel (rs ++ [r])) (rs ++ [r] ++ rs1) vs p3 := ih h3
    rwa [List.append_assoc] at hrest
  induction hrs generalizing fuel p rs with
  | nil =>
    obtain ⟨fuel, rfl⟩ : ∃ n, fuel = n + 1 := ⟨fuel - 1, by omega⟩
    rw [List.nil_append] at h
    unfold Takes parseredirs
    rw [wp_bind]
    refine wp_peek h (mem_symbols (by decide)) fun p1 h1 _ => ?_
    rw [if_neg (hvs.next_eq_false (by decide))]
    exact ⟨(List.append_nil rs).symm, h1⟩
  | @lt op file us rs1 hop hfile _ ih =>
    obtain ⟨fuel, rfl⟩ : ∃ n, fuel = n + 1 := ⟨fuel - 1, by omega⟩
    rw [List.cons_append, List.cons_append, List.length_cons, List.length_cons] at hfuel
    exact pass (by rw [hop]; decide) hfile (by rw [hop]; rfl) (fun hts => ih (by omega) hts) h
  | @gt op file us rs1 hop hfile _ ih =>
    obtain ⟨fuel, rfl⟩ : ∃ n, fuel = n + 1 := ⟨fuel - 1, by omega⟩
    rw [List.cons_append, List.cons_append, List.length_cons, List.length_cons] at hfuel
    rcases hop with hop | hop
    · exact pass (by rw [hop]; decide) hfile (by rw [hop]; rfl) (fun hts => ih (by omega) hts) h
    · exact pass (by rw [hop]; decide) hfile (by rw [hop]; rfl) (fun hts => ih (by omega) hts) h

/-- Arguments begin with a word. -/
theorem Args.follow {rs1 : List Redir} (h : Args us argv rs1) (hvs : Follow cmdEnd vs) :
    Follow (.word :: cmdEnd) (us ++ vs) := by
  cases h with
  | nil => exact hvs.mono (by decide)
  | cons hword _ _ =>
    refine .cons ?_
    rw [hword]
    exact List.mem_cons_self

/-- The loop of `parseexec` takes the arguments. -/
theorem takes_parseargs {argv1 : List (ℕ × ℕ)} {rs1 : List Redir} (hargs : Args us argv1 rs1)
    (hvs : Follow cmdEnd vs) (hlen : (argv ++ argv1).length ≤ 9) (hfuel : (us ++ vs).length < fuel)
    (h : Tokens s p (us ++ vs)) :
    Takes s (parseargs s fuel argv rs) (argv ++ argv1, rs ++ rs1) vs p := by
  induction hargs generalizing fuel p argv rs with
  | nil =>
    obtain ⟨fuel, rfl⟩ : ∃ n, fuel = n + 1 := ⟨fuel - 1, by omega⟩
    rw [List.nil_append] at h
    unfold Takes parseargs
    rw [List.append_nil, List.append_nil, wp_bind]
    refine wp_peek h (mem_symbols (by decide)) fun p1 h1 _ => ?_
    cases vs with
    | nil =>
      rw [if_neg (fun hnext => nomatch hnext), wp_bind]
      refine wp_gettoken_nil h1 fun q e p2 h2 => ?_
      rw [if_pos rfl]
      exact ⟨rfl, h2⟩
    | cons t vs =>
      have hstarts : ∀ k ∈ cmdEnd, k.startsWith (chars ['|', ')', '&', ';']) = true := by decide
      rw [if_pos (next_cons (hstarts _ (hvs t rfl)))]
      exact ⟨rfl, h1⟩
  | @cons w us ts rs1 rs2 argv1 hword hrs hargs ih =>
    obtain ⟨fuel, rfl⟩ : ∃ n, fuel = n + 1 := ⟨fuel - 1, by omega⟩
    rw [List.cons_append, List.length_cons, List.append_assoc] at hfuel
    rw [List.cons_append, List.append_assoc] at h
    unfold Takes parseargs
    rw [wp_bind]
    refine wp_peek h (mem_symbols (by decide)) fun p1 h1 _ => ?_
    have hnext : next (chars ['|', ')', '&', ';']) (w :: (us ++ (ts ++ vs))) ≠ true := by
      show w.kind.startsWith _ ≠ true
      rw [hword]
      decide
    rw [if_neg hnext, wp_bind]
    refine wp_gettoken h1 fun p2 h2 => ?_
    have hmax : ¬ MAXARGS ≤ argv.length + 1 := by
      rw [List.length_append, List.length_cons] at hlen
      unfold MAXARGS
      omega
    rw [if_neg (fun hnone => nomatch hnone), if_pos (congrArg some hword), if_neg hmax]
    refine wp_of_spec (takes_parseredirs hrs (hargs.follow hvs) (by omega) h2)
      (fun _ _ => id) ?_
    rintro rs' p3 ⟨rfl, h3⟩
    have hlen' : (argv ++ [(w.q, w.eq)] ++ argv1).length ≤ 9 := by
      rw [List.append_assoc]
      exact hlen
    rw [List.length_append] at hfuel
    have hrest : Takes s (parseargs s fuel (argv ++ [(w.q, w.eq)]) (rs ++ rs1))
        (argv ++ [(w.q, w.eq)] ++ argv1, rs ++ rs1 ++ rs2) vs p3 := ih hlen' (by omega) h3
    rw [List.append_assoc, List.append_assoc] at hrest
    exact hrest

/-- The loop of `parseline` takes the `'&'`s. -/
theorem takes_parsebacks {amps : List Token} (hamps : ∀ t ∈ amps, t.kind = .amp)
    (hvs : Follow [.semi, .rparen] vs) (hfuel : (amps ++ vs).length < fuel)
    (h : Tokens s p (amps ++ vs)) : Takes s (parsebacks s fuel cmd) (backs amps cmd) vs p := by
  induction amps generalizing fuel p cmd with
  | nil =>
    obtain ⟨fuel, rfl⟩ : ∃ n, fuel = n + 1 := ⟨fuel - 1, by omega⟩
    rw [List.nil_append] at h
    unfold Takes parsebacks
    rw [wp_bind]
    refine wp_peek h (mem_symbols (by decide)) fun p1 h1 _ => ?_
    rw [if_neg (hvs.next_eq_false (by decide))]
    exact ⟨rfl, h1⟩
  | cons amp amps ih =>
    obtain ⟨fuel, rfl⟩ : ∃ n, fuel = n + 1 := ⟨fuel - 1, by omega⟩
    rw [List.cons_append] at hfuel h
    rw [List.length_cons] at hfuel
    unfold Takes parsebacks
    rw [wp_bind]
    refine wp_peek h (mem_symbols (by decide)) fun p1 h1 _ => ?_
    have hnext : next (chars ['&']) (amp :: (amps ++ vs)) = true := by
      show amp.kind.startsWith _ = true
      rw [hamps amp List.mem_cons_self]
      decide
    rw [if_pos hnext, wp_bind]
    refine wp_gettoken h1 fun p2 h2 => ?_
    exact ih (fun t ht => hamps t (List.mem_cons_of_mem _ ht)) (by omega) h2

/-- A `cmd` without parentheses begins with a word or a redirection, if it has tokens. -/
theorem next_lparen_exec {ws : List Token} {rs1 rs2 : List Redir} (hrs : Redirs us rs1)
    (hargs : Args ws argv rs2) (hvs : Follow cmdEnd vs) :
    next (chars ['(']) (us ++ (ws ++ vs)) ≠ true := by
  cases hrs with
  | nil => exact (hargs.follow hvs).next_eq_false (by decide)
  | lt hop _ _ =>
    show Kind.startsWith _ _ ≠ true
    rw [hop]
    decide
  | gt hop _ _ =>
    show Kind.startsWith _ _ ≠ true
    rcases hop with hop | hop
    · rw [hop]
      decide
    · rw [hop]
      decide

/-- The four functions that call each other, on a derivation and what may follow it. -/
theorem takes_all (fuel : ℕ) :
    (∀ {us vs p cmd}, Line us cmd → Follow lineEnd vs → 4 * (us ++ vs).length + 4 ≤ fuel →
      Tokens s p (us ++ vs) → Takes s (parseline s fuel) cmd vs p) ∧
    (∀ {us vs p cmd}, Pipe us cmd → Follow pipeEnd vs → 4 * (us ++ vs).length + 3 ≤ fuel →
      Tokens s p (us ++ vs) → Takes s (parsepipe s fuel) cmd vs p) ∧
    (∀ {us vs p cmd}, Command us cmd → Follow cmdEnd vs → 4 * (us ++ vs).length + 2 ≤ fuel →
      Tokens s p (us ++ vs) → Takes s (parseexec s fuel) cmd vs p) ∧
    (∀ {us ws vs p lparen rparen cmd rs}, lparen.kind = .lparen → Line us cmd →
      rparen.kind = .rparen → Redirs ws rs → Follow cmdEnd vs →
      4 * (lparen :: (us ++ rparen :: (ws ++ vs))).length + 1 ≤ fuel →
      Tokens s p (lparen :: (us ++ rparen :: (ws ++ vs))) →
      Takes s (parseblock s fuel) (wrap cmd rs) vs p) := by
  induction fuel with
  | zero =>
    exact ⟨fun _ _ h => by omega, fun _ _ h => by omega, fun _ _ h => by omega,
      fun _ _ _ _ _ h => by omega⟩
  | succ fuel ih =>
    obtain ⟨ihline, ihpipe, ihexec, ihblock⟩ := ih
    refine ⟨fun {_ vs _ _} hline hvs hfuel h => ?_, fun {_ vs _ _} hpipe hvs hfuel h => ?_,
      fun hcmd hvs hfuel h => ?_,
      fun hlparen hline hrparen hrs hvs hfuel h => ?_⟩
    · unfold Takes parseline
      cases hline with
      | @last us amps cmd hpipe hamps =>
        rw [List.append_assoc] at hfuel h
        have hamps' : ∀ t ∈ amps, t.kind ∈ pipeEnd := by
          intro t ht
          rw [hamps t ht]
          decide
        refine wp_of_spec (ihpipe hpipe ((hvs.mono (by decide)).append hamps') (by omega) h)
          (fun _ _ => id) ?_
        rintro cmd' p1 ⟨rfl, h1⟩
        rw [List.length_append] at hfuel
        refine wp_of_spec (takes_parsebacks hamps (hvs.mono (by decide)) (by omega) h1)
          (fun _ _ => id) ?_
        rintro cmd' p2 ⟨rfl, h2⟩
        rw [wp_bind]
        refine wp_peek h2 (mem_symbols (by decide)) fun p3 h3 _ => ?_
        rw [if_neg (hvs.next_eq_false (by decide))]
        exact ⟨rfl, h3⟩
      | @list ts amps us semi cmd right hpipe hamps hsemi hright =>
        rw [List.append_assoc, List.append_assoc, List.cons_append] at hfuel h
        have hamps' : ∀ t ∈ amps, t.kind ∈ pipeEnd := by
          intro t ht
          rw [hamps t ht]
          decide
        have hfollow : Follow [.semi, .rparen] (semi :: (us ++ vs)) :=
          Follow.cons (by rw [hsemi]; decide)
        refine wp_of_spec (ihpipe hpipe ((hfollow.mono (by decide)).append hamps') (by omega) h)
          (fun _ _ => id) ?_
        rintro cmd' p1 ⟨rfl, h1⟩
        rw [List.length_append] at hfuel
        refine wp_of_spec (takes_parsebacks hamps hfollow (by omega) h1) (fun _ _ => id) ?_
        rintro cmd' p2 ⟨rfl, h2⟩
        rw [wp_bind]
        refine wp_peek h2 (mem_symbols (by decide)) fun p3 h3 _ => ?_
        rw [if_pos (next_cons (by rw [hsemi]; decide)), wp_bind]
        refine wp_gettoken h3 fun p4 h4 => ?_
        rw [List.length_append, List.length_cons] at hfuel
        refine wp_of_spec (ihline hright hvs (by omega) h4) (fun _ _ => id) ?_
        rintro right' p' ⟨rfl, h'⟩
        exact ⟨rfl, h'⟩
    · unfold Takes parsepipe
      cases hpipe with
      | last hcmd =>
        refine wp_of_spec (ihexec hcmd (hvs.mono (by decide)) (by omega) h) (fun _ _ => id) ?_
        rintro cmd' p1 ⟨rfl, h1⟩
        rw [wp_bind]
        refine wp_peek h1 (mem_symbols (by decide)) fun p2 h2 _ => ?_
        rw [if_neg (hvs.next_eq_false (by decide))]
        exact ⟨rfl, h2⟩
      | @pipe ts us bar cmd right hcmd hbar hright =>
        rw [List.append_assoc, List.cons_append] at hfuel h
        have hfollow : Follow cmdEnd (bar :: (us ++ vs)) := Follow.cons (by rw [hbar]; decide)
        refine wp_of_spec (ihexec hcmd hfollow (by omega) h) (fun _ _ => id) ?_
        rintro cmd' p1 ⟨rfl, h1⟩
        rw [wp_bind]
        refine wp_peek h1 (mem_symbols (by decide)) fun p2 h2 _ => ?_
        rw [if_pos (next_cons (by rw [hbar]; decide)), wp_bind]
        refine wp_gettoken h2 fun p3 h3 => ?_
        rw [List.length_append, List.length_cons] at hfuel
        refine wp_of_spec (ihpipe hright hvs (by omega) h3) (fun _ _ => id) ?_
        rintro right' p' ⟨rfl, h'⟩
        exact ⟨rfl, h'⟩
    · unfold Takes parseexec
      cases hcmd with
      | @block ts us lparen rparen cmd rs hlparen hline hrparen hrs =>
        rw [List.cons_append, List.append_assoc, List.cons_append] at hfuel h
        rw [wp_bind]
        refine wp_peek h (mem_symbols (by decide)) fun p1 h1 _ => ?_
        rw [if_pos (next_cons (by rw [hlparen]; decide))]
        exact ihblock hlparen hline hrparen hrs hvs (by omega) h1
      | @exec us ts rs rs' argv hrs hargs hle =>
        rw [List.append_assoc] at hfuel h
        rw [wp_bind]
        refine wp_peek h (mem_symbols (by decide)) fun p1 h1 _ => ?_
        rw [if_neg (next_lparen_exec hrs hargs hvs)]
        refine wp_of_spec (takes_parseredirs hrs (hargs.follow hvs) (by omega) h1)
          (fun _ _ => id) ?_
        rintro rs1 p2 ⟨rfl, h2⟩
        rw [List.length_append] at hfuel
        refine wp_of_spec (takes_parseargs hargs hvs hle (by omega) h2) (fun _ _ => id) ?_
        rintro r p' ⟨rfl, h'⟩
        exact ⟨rfl, h'⟩
    · unfold Takes parseblock
      rw [wp_bind]
      refine wp_peek h (mem_symbols (by decide)) fun p1 h1 _ => ?_
      rw [if_pos (next_cons (by rw [hlparen]; decide)), wp_bind]
      refine wp_gettoken h1 fun p2 h2 => ?_
      rw [List.length_cons] at hfuel
      refine wp_of_spec (ihline hline (.cons (by rw [hrparen]; decide)) (by omega) h2)
        (fun _ _ => id) ?_
      rintro cmd' p3 ⟨rfl, h3⟩
      rw [wp_bind]
      refine wp_peek h3 (mem_symbols (by decide)) fun p4 h4 _ => ?_
      rw [if_pos (next_cons (by rw [hrparen]; decide)), wp_bind]
      refine wp_gettoken h4 fun p5 h5 => ?_
      rw [List.length_append, List.length_cons] at hfuel
      refine wp_of_spec (takes_parseredirs hrs (hvs.mono (by decide)) (by omega) h5)
        (fun _ _ => id) ?_
      rintro rs' p' ⟨rfl, h'⟩
      exact ⟨rfl, h'⟩

/-! ## `parsecmd` -/

/-- What `parsecmd` accepts is derivable; it returns or panics. -/
theorem wp_parsewhole (hfuel : 4 * ts.length + 4 ≤ fuel) (h : Tokens s 0 ts) :
    wp (parsewhole s fuel) (fun cmd _ => Line ts cmd) (fun e _ => ∃ msg, e = .panic msg) 0 := by
  have hpanic : ∀ e : Stop, e ≠ .fuel → ∃ msg, e = .panic msg := by
    intro e he
    cases e with
    | panic msg => exact ⟨msg, rfl⟩
    | fuel => exact absurd rfl he
  unfold parsewhole
  refine wp_of_spec ((parses_all fuel).1 hfuel h) (fun e _ he => hpanic e he) ?_
  rintro cmd p1 ⟨us, vs, rfl, hline, h1⟩
  rw [wp_bind]
  refine wp_peek h1 (fun _ hc => absurd hc List.not_mem_nil) fun p2 h2 hend => ?_
  rw [wp_bind, wp_get]
  by_cases hp : p2 = s.length
  · rw [if_pos hp]
    rw [hend.mp hp, List.append_nil]
    exact hline
  · rw [if_neg hp]
    exact ⟨_, rfl⟩

/-- What is derivable `parsecmd` accepts. -/
theorem wp_parsewhole_of_line (hfuel : 4 * ts.length + 4 ≤ fuel) (h : Tokens s 0 ts)
    (hline : Line ts cmd) :
    wp (parsewhole s fuel) (fun cmd' _ => cmd' = cmd) (fun _ _ => False) 0 := by
  have hnil : Follow lineEnd [] := fun t ht => nomatch ht
  unfold parsewhole
  refine wp_of_spec ((takes_all fuel).1 hline hnil (by rwa [List.append_nil])
    (by rwa [List.append_nil])) (fun _ _ => id) ?_
  rintro cmd' p1 ⟨rfl, h1⟩
  rw [wp_bind]
  refine wp_peek h1 (fun _ hc => absurd hc List.not_mem_nil) fun p2 h2 hend => ?_
  rw [wp_bind, wp_get, if_pos (hend.mpr rfl)]
  rfl

/-- `parsecmd` terminates. It accepts a line exactly if the tokens of the line are derivable, and
builds the command of the derivation; otherwise it panics. -/
theorem parsecmd_iff_line (s : CString) :
    ∃ ts, Tokens s 0 ts ∧ (∀ us, Tokens s 0 us → us = ts) ∧
      ∀ fuel, 4 * s.length + 4 ≤ fuel →
        (∀ cmd, (∃ buf, parsecmd s fuel = .ok (cmd, buf)) ↔ Line ts cmd) ∧
        ((¬ ∃ cmd, Line ts cmd) → ∃ msg, parsecmd s fuel = .error (.panic msg)) := by
  obtain ⟨ts, hts⟩ := exists_tokens (Nat.zero_le s.length)
  refine ⟨ts, hts, fun us hus => hus.unique hts, fun fuel hfuel => ?_⟩
  have hlen : 4 * ts.length + 4 ≤ fuel := by
    have := hts.length_le
    omega
  have hsound := wp_parsewhole hlen hts
  unfold parsecmd
  cases hrun : parsewhole s fuel 0 with
  | ok cmd p =>
    have hline := hsound.ok hrun
    refine ⟨fun cmd' => ⟨?_, fun hline' => ?_⟩, fun hnone => absurd ⟨cmd, hline⟩ hnone⟩
    · rintro ⟨buf, hok⟩
      obtain ⟨rfl, -⟩ := Prod.mk.inj (Except.ok.inj hok)
      exact hline
    · obtain rfl := (wp_parsewhole_of_line hlen hts hline').ok hrun
      exact ⟨_, rfl⟩
  | error e p =>
    obtain ⟨msg, rfl⟩ := hsound.error hrun
    refine ⟨fun cmd => ⟨?_, fun hline => ?_⟩, fun _ => ⟨msg, rfl⟩⟩
    · rintro ⟨buf, hok⟩
      exact nomatch hok
    · exact ((wp_parsewhole_of_line hlen hts hline).error hrun).elim

end ChronoFS.Sh
