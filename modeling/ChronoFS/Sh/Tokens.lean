import Mathlib.Data.List.GetD
import Mathlib.Order.Nat
import Mathlib.Tactic.ByContra
import ChronoFS.Lib.Wp
import ChronoFS.Sh.Model

/-!
# The tokens of a command line

`Tokens s p ts` says that `ts` are the tokens of the line `s` from the position `p` on, with whitespace
before, between and after them: a word is a maximal run of characters that are neither whitespace nor
a symbol, and `>>` is one token. There is one such list for every position (`exists_tokens`,
`Tokens.unique`).

The proofs about the parser know `peek` and `gettoken` by their effect on the tokens that are left:
`wp_peek`, `wp_gettoken` and `wp_gettoken_nil`.
-/

namespace ChronoFS.Sh

variable {s : CString} {f : UInt8 → Bool} {p q e i : ℕ}

/-! ## Runs of characters -/

theorem drop_eq_cons (h : p < s.length) : s.bytes.drop p = s.charAt p :: s.bytes.drop (p + 1) := by
  unfold CString.charAt
  rw [List.getD_eq_getElem s.bytes 0 h]
  exact List.drop_eq_getElem_cons h

/-- Past the end there is the NUL. -/
theorem charAt_of_le (h : s.length ≤ p) : s.charAt p = 0 := List.getD_eq_default _ _ h

/-- Only the end is a NUL. -/
theorem charAt_ne_zero (h : p < s.length) : s.charAt p ≠ 0 := by
  intro hzero
  unfold CString.charAt at hzero
  rw [List.getD_eq_getElem s.bytes 0 h] at hzero
  exact s.noNul (hzero ▸ List.getElem_mem h)

theorem skip_of_end (h : s.length ≤ p) : skip s f p = p := by
  unfold skip
  rw [List.drop_eq_nil_of_le h]
  rfl

theorem skip_of_true (h : p < s.length) (hf : f (s.charAt p) = true) :
    skip s f p = skip s f (p + 1) := by
  unfold skip
  rw [drop_eq_cons h]
  exact if_pos hf

theorem skip_of_false (hf : f (s.charAt p) = false) : skip s f p = p := by
  by_cases h : p < s.length
  · unfold skip
    rw [drop_eq_cons h]
    exact if_neg (Bool.eq_false_iff.mp hf)
  · exact skip_of_end (not_lt.mp h)

/-- From `p` to `q` there is a maximal run of characters with `f`. -/
structure IsRun (s : CString) (f : UInt8 → Bool) (p q : ℕ) : Prop where
  /-- The run may be empty. -/
  le : p ≤ q
  /-- It ends with the line. -/
  le_length : q ≤ s.length
  /-- The characters. -/
  all : ∀ i, p ≤ i → i < q → f (s.charAt i) = true
  /-- It does not go on. -/
  stop : q < s.length → f (s.charAt q) = false

/-- `skip` goes to the end of the run. -/
theorem IsRun.skip_eq (h : IsRun s f p q) : skip s f p = q := by
  have hle := h.le
  -- the induction is on the length of the run
  induction hn : q - p generalizing p with
  | zero =>
    obtain rfl : p = q := by omega
    by_cases hlt : p < s.length
    · exact skip_of_false (h.stop hlt)
    · exact skip_of_end (not_lt.mp hlt)
  | succ n ih =>
    have hlt : p < q := by omega
    rw [skip_of_true (hlt.trans_le h.le_length) (h.all p le_rfl hlt)]
    refine ih ⟨hlt, h.le_length, fun i hi => h.all i (by omega), h.stop⟩ hlt (by omega)

/-- From every position there is a run. -/
theorem isRun_skip (h : p ≤ s.length) : IsRun s f p (skip s f p) := by
  -- the induction is on what is left of the line
  induction hn : s.length - p generalizing p with
  | zero =>
    obtain rfl : p = s.length := by omega
    rw [skip_of_end le_rfl]
    exact ⟨le_rfl, le_rfl, fun i hi hi' => by omega, fun hlt => by omega⟩
  | succ n ih =>
    have hlt : p < s.length := by omega
    by_cases hf : f (s.charAt p) = true
    · rw [skip_of_true hlt hf]
      obtain ⟨hle, hlen, hall, hstop⟩ := ih (p := p + 1) hlt (by omega)
      refine ⟨by omega, hlen, fun i hi hi' => ?_, hstop⟩
      by_cases hip : i = p
      · rw [hip]
        exact hf
      · exact hall i (by omega) hi'
    · rw [skip_of_false (Bool.eq_false_iff.mpr hf)]
      exact ⟨le_rfl, h, fun i hi hi' => by omega, fun _ => Bool.eq_false_iff.mpr hf⟩

/-! ## Tokens -/

/-- The character of a token of one character. -/
def Kind.char : Kind → Option UInt8
  | .bar => some '|'.toUInt8
  | .lparen => some '('.toUInt8
  | .rparen => some ')'.toUInt8
  | .semi => some ';'.toUInt8
  | .amp => some '&'.toUInt8
  | .lt => some '<'.toUInt8
  | _ => none

/-- The characters from `q` to `e` are a token. -/
inductive IsToken (s : CString) : Kind → (q e : ℕ) → Prop
  /-- One character. -/
  | single {k : Kind} {q : ℕ} : k.char = some (s.charAt q) → IsToken s k q (q + 1)
  /-- `>`, without another one after it. -/
  | gt {q : ℕ} : s.charAt q = '>'.toUInt8 → s.charAt (q + 1) ≠ '>'.toUInt8 → IsToken s .gt q (q + 1)
  /-- `>>`. -/
  | gtgt {q : ℕ} : s.charAt q = '>'.toUInt8 → s.charAt (q + 1) = '>'.toUInt8 →
      IsToken s .gtgt q (q + 2)
  /-- A maximal run of characters that are neither whitespace nor symbols. -/
  | word {q e : ℕ} : q < e → IsRun s isWord q e → IsToken s .word q e

/-- A token and where it is. -/
structure Token where
  /-- What it is. -/
  kind : Kind
  /-- Where it begins. -/
  q : ℕ
  /-- Where it ends. -/
  eq : ℕ

/-- The tokens from a position on. -/
inductive Tokens (s : CString) : (p : ℕ) → List Token → Prop
  /-- Only whitespace is left. -/
  | nil {p : ℕ} : IsRun s isSpace p s.length → Tokens s p []
  /-- Whitespace, a token, and the tokens after it. -/
  | cons {p : ℕ} {t : Token} {ts : List Token} : IsRun s isSpace p t.q → IsToken s t.kind t.q t.eq →
      Tokens s t.eq ts → Tokens s p (t :: ts)

/-- The characters that are a token are neither NUL nor whitespace. -/
theorem Kind.char_spec {k : Kind} {c : UInt8} (h : k.char = some c) :
    single c = some k ∧ c ≠ 0 ∧ isSpace c = false := by
  cases k <;> simp only [Kind.char, reduceCtorEq, Option.some.injEq] at h <;> subst h <;> decide

/-- A word begins with a character that is in no other token. -/
theorem single_of_isWord {c : UInt8} (h : isWord c = true) :
    single c = none ∧ c ≠ '>'.toUInt8 ∧ isSpace c = false := by
  unfold isWord at h
  rw [Bool.and_eq_true, Bool.not_eq_true', Bool.not_eq_true'] at h
  obtain ⟨hspace, hsymbol⟩ := h
  have hne : ∀ d ∈ symbols, c ≠ d := by
    rintro d hd rfl
    exact absurd (List.contains_iff_mem.mpr hd) (Bool.eq_false_iff.mp hsymbol)
  refine ⟨?_, hne _ (by decide), hspace⟩
  unfold single
  rw [if_neg (hne _ (by decide)), if_neg (hne _ (by decide)), if_neg (hne _ (by decide)),
    if_neg (hne _ (by decide)), if_neg (hne _ (by decide)), if_neg (hne _ (by decide))]

namespace IsToken

variable {k : Kind}

theorem lt (h : IsToken s k q e) : q < e := by
  cases h with
  | single h => omega
  | gt h h' => omega
  | gtgt h h' => omega
  | word h _ => exact h

/-- The first character. -/
theorem charAt_ne (h : IsToken s k q e) : s.charAt q ≠ 0 := by
  cases h with
  | single h => exact (Kind.char_spec h).2.1
  | gt h _ =>
    rw [h]
    decide
  | gtgt h _ =>
    rw [h]
    decide
  | word h hrun => exact charAt_ne_zero (h.trans_le hrun.le_length)

theorem lt_length (h : IsToken s k q e) : q < s.length :=
  not_le.mp fun hle => h.charAt_ne (charAt_of_le hle)

theorem le_length (h : IsToken s k q e) : e ≤ s.length := by
  have hlt := h.lt_length
  cases h with
  | single h => exact hlt
  | gt h h' => exact hlt
  | gtgt h h' =>
    refine not_lt.mp fun hlen => ?_
    rw [charAt_of_le (Nat.le_of_lt_succ hlen)] at h'
    exact absurd h' (by decide)
  | word _ hrun => exact hrun.le_length

/-- The `switch` of `gettoken` finds the token. -/
theorem lex_eq (h : IsToken s k q e) : lex s q = (some k, e) := by
  have hne := h.charAt_ne
  cases h with
  | single h =>
    unfold lex
    rw [if_neg hne, (Kind.char_spec h).1]
  | gt h h' =>
    unfold lex
    rw [if_neg hne, h]
    show (if s.charAt (q + 1) = '>'.toUInt8 then _ else _) = _
    rw [if_neg h']
  | gtgt h h' =>
    unfold lex
    rw [if_neg hne, h]
    show (if s.charAt (q + 1) = '>'.toUInt8 then _ else _) = _
    rw [if_pos h']
  | word h hrun =>
    obtain ⟨hsingle, hgt, -⟩ := single_of_isWord (hrun.all q le_rfl h)
    unfold lex
    rw [if_neg hne, hsingle]
    show (if s.charAt q = '>'.toUInt8 then _ else _) = _
    rw [if_neg hgt, hrun.skip_eq]

end IsToken

/-- Where there is no whitespace, there is a token. -/
theorem exists_isToken (hlt : q < s.length) (hspace : isSpace (s.charAt q) = false) :
    ∃ k e, IsToken s k q e := by
  by_cases hword : isWord (s.charAt q) = true
  · have hrun := isRun_skip (f := isWord) hlt.le
    refine ⟨.word, _, .word ?_ hrun⟩
    refine lt_of_le_of_ne hrun.le fun heq => ?_
    have hstop := hrun.stop (by rwa [← heq])
    rw [← heq, hword] at hstop
    exact nomatch hstop
  · have hmem : s.charAt q ∈ symbols := by
      unfold isWord at hword
      unfold isSpace at hspace
      rw [hspace] at hword
      simpa using hword
    have hchars : s.charAt q = '<'.toUInt8 ∨ s.charAt q = '|'.toUInt8 ∨ s.charAt q = '>'.toUInt8 ∨
        s.charAt q = '&'.toUInt8 ∨ s.charAt q = ';'.toUInt8 ∨ s.charAt q = '('.toUInt8 ∨
        s.charAt q = ')'.toUInt8 := by
      simpa [symbols, chars] using hmem
    rcases hchars with h | h | h | h | h | h | h
    · exact ⟨.lt, _, .single (by rw [h]; rfl)⟩
    · exact ⟨.bar, _, .single (by rw [h]; rfl)⟩
    · by_cases hnext : s.charAt (q + 1) = '>'.toUInt8
      · exact ⟨.gtgt, _, .gtgt h hnext⟩
      · exact ⟨.gt, _, .gt h hnext⟩
    · exact ⟨.amp, _, .single (by rw [h]; rfl)⟩
    · exact ⟨.semi, _, .single (by rw [h]; rfl)⟩
    · exact ⟨.lparen, _, .single (by rw [h]; rfl)⟩
    · exact ⟨.rparen, _, .single (by rw [h]; rfl)⟩

/-- Every line has its tokens. -/
theorem exists_tokens (h : p ≤ s.length) : ∃ ts, Tokens s p ts := by
  -- the induction is on what is left of the line
  induction hn : s.length - p using Nat.strong_induction_on generalizing p with
  | _ n ih =>
    have hrun := isRun_skip (f := isSpace) h
    by_cases hend : skip s isSpace p = s.length
    · exact ⟨[], .nil (by rwa [← hend])⟩
    · have hlt : skip s isSpace p < s.length := lt_of_le_of_ne hrun.le_length hend
      obtain ⟨k, e, htoken⟩ := exists_isToken hlt (hrun.stop hlt)
      have hsmall : s.length - e < n := by
        have := hrun.le
        have := htoken.lt
        omega
      obtain ⟨ts, hts⟩ := ih _ hsmall htoken.le_length rfl
      exact ⟨⟨k, _, e⟩ :: ts, .cons hrun htoken hts⟩

namespace Tokens

variable {t : Token} {ts us : List Token}

/-- Every line has one list of tokens. -/
theorem unique (h : Tokens s p ts) (h' : Tokens s p us) : ts = us := by
  induction h generalizing us with
  | nil hrun =>
    cases h' with
    | nil _ => rfl
    | cons hrun' htoken _ =>
      have hq := hrun.skip_eq.symm.trans hrun'.skip_eq
      exact absurd htoken.lt_length (by omega)
  | @cons p t ts hrun htoken _ ih =>
    cases h' with
    | nil hrun' =>
      have hq := hrun.skip_eq.symm.trans hrun'.skip_eq
      exact absurd htoken.lt_length (by omega)
    | @cons _ u us hrun' htoken' hrest =>
      have hq := hrun.skip_eq.symm.trans hrun'.skip_eq
      have hlex := htoken.lex_eq
      rw [hq, htoken'.lex_eq] at hlex
      obtain ⟨hkind, heq⟩ := Prod.mk.inj hlex
      have htu : t = u := by
        obtain ⟨k, q, e⟩ := t
        obtain ⟨k', q', e'⟩ := u
        dsimp only at hkind heq hq
        rw [hq, heq, Option.some.inj hkind]
      subst htu
      rw [ih hrest]

/-- There are at most as many tokens as characters. -/
theorem length_le (h : Tokens s p ts) : ts.length ≤ s.length - p := by
  induction h with
  | nil _ => exact Nat.zero_le _
  | @cons p t ts hrun htoken hrest ih =>
    have := hrun.le
    have := htoken.lt
    have := htoken.le_length
    rw [List.length_cons]
    omega

/-- Every token is one. -/
theorem isToken (h : Tokens s p ts) : ∀ t ∈ ts, IsToken s t.kind t.q t.eq := by
  induction h with
  | nil _ => exact fun t ht => nomatch ht
  | cons _ htoken _ ih =>
    intro t ht
    rcases List.mem_cons.mp ht with rfl | ht
    · exact htoken
    · exact ih t ht

/-- Whitespace may be skipped. -/
theorem skip_space (h : Tokens s p ts) : Tokens s (skip s isSpace p) ts := by
  have hagain : ∀ {q}, IsRun s isSpace p q → IsRun s isSpace q q := fun hrun =>
    ⟨le_rfl, hrun.le_length, fun i hi hi' => by omega, hrun.stop⟩
  cases h with
  | nil hrun =>
    rw [hrun.skip_eq]
    exact .nil (hagain hrun)
  | cons hrun htoken hrest =>
    rw [hrun.skip_eq]
    exact .cons (hagain hrun) htoken hrest

end Tokens

/-! ## `peek` and `gettoken` -/

/-- A token begins with one of the symbols. -/
def Kind.startsWith (toks : List UInt8) : Kind → Bool
  | .word => false
  | .gt | .gtgt => toks.contains '>'.toUInt8
  | k => k.char.any toks.contains

/-- The next token begins with one of the symbols. -/
def next (toks : List UInt8) (ts : List Token) : Bool := ts.head?.any (·.kind.startsWith toks)

theorem IsToken.contains {k : Kind} {toks : List UInt8} (h : IsToken s k q e)
    (htoks : ∀ c ∈ toks, c ∈ symbols) : toks.contains (s.charAt q) = k.startsWith toks := by
  cases h with
  | single h =>
    have hany : k.char.any toks.contains = toks.contains (s.charAt q) := by
      rw [h]
      rfl
    rw [← hany]
    cases k <;> first | rfl | cases h
  | gt h _ => rw [h]; rfl
  | gtgt h _ => rw [h]; rfl
  | word h hrun =>
    have hword := hrun.all q le_rfl h
    unfold isWord at hword
    rw [Bool.and_eq_true, Bool.not_eq_true', Bool.not_eq_true'] at hword
    refine Bool.eq_false_iff.mpr fun hmem => ?_
    have hsymbol := htoks _ (List.contains_iff_mem.mp hmem)
    rw [← List.contains_iff_mem, hword.2] at hsymbol
    exact nomatch hsymbol

section Wp

variable {ts : List Token} {t : Token} {E : Stop → ℕ → Prop}

/-- `peek`: it looks at the next token, and leaves the cursor at it or at the end. -/
theorem wp_peek (h : Tokens s p ts) {toks : List UInt8} (htoks : ∀ c ∈ toks, c ∈ symbols)
    {Q : Bool → ℕ → Prop}
    (hQ : ∀ p', Tokens s p' ts → (p' = s.length ↔ ts = []) → Q (next toks ts) p') :
    wp (peek s toks) Q E p := by
  have hskip := h.skip_space
  show Q (s.charAt (skip s isSpace p) != 0 && toks.contains (s.charAt (skip s isSpace p)))
    (skip s isSpace p)
  cases h with
  | nil hrun =>
    rw [hrun.skip_eq] at hskip ⊢
    rw [charAt_of_le le_rfl]
    exact hQ _ hskip ⟨fun _ => rfl, fun _ => rfl⟩
  | @cons _ t ts hrun htoken hrest =>
    rw [hrun.skip_eq] at hskip ⊢
    rw [htoken.contains htoks, bne_iff_ne.mpr htoken.charAt_ne, Bool.true_and]
    refine hQ _ hskip ⟨fun heq => ?_, fun hnil => nomatch hnil⟩
    exact absurd htoken.lt_length (by omega)

/-- `gettoken` takes the next token. -/
theorem wp_gettoken (h : Tokens s p (t :: ts)) {Q : Option Kind × ℕ × ℕ → ℕ → Prop}
    (hQ : ∀ p', Tokens s p' ts → Q (some t.kind, t.q, t.eq) p') : wp (gettoken s) Q E p := by
  cases h with
  | cons hrun htoken hrest =>
    show Q ((lex s (skip s isSpace p)).1, skip s isSpace p, (lex s (skip s isSpace p)).2)
      (skip s isSpace (lex s (skip s isSpace p)).2)
    rw [hrun.skip_eq, htoken.lex_eq]
    exact hQ _ hrest.skip_space

/-- `gettoken` at the end of the line. -/
theorem wp_gettoken_nil (h : Tokens s p []) {Q : Option Kind × ℕ × ℕ → ℕ → Prop}
    (hQ : ∀ q e p', Tokens s p' [] → Q (none, q, e) p') : wp (gettoken s) Q E p := by
  have hskip := h.skip_space
  cases h with
  | nil hrun =>
    have hlex : lex s s.length = (none, s.length) := by
      unfold lex
      rw [if_pos (charAt_of_le le_rfl)]
    show Q ((lex s (skip s isSpace p)).1, skip s isSpace p, (lex s (skip s isSpace p)).2)
      (skip s isSpace (lex s (skip s isSpace p)).2)
    rw [hrun.skip_eq] at hskip ⊢
    rw [hlex]
    exact hQ _ _ _ hskip.skip_space

end Wp

end ChronoFS.Sh
