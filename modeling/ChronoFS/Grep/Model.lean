import Mathlib.Data.List.Basic

/-!
# `grep.c`

`match`, `matchhere` and `matchstar` are the matcher for patterns with `^`, `.`, `*` and `$`. A
string is the list of its bytes before the NUL, so that `*text == '\0'` is `text = []` and
`text + 1` is the tail.
-/

namespace ChronoFS.Grep

/-- `'^'`. -/
def CARET : UInt8 := 94

/-- `'.'`. -/
def DOT : UInt8 := 46

/-- `'*'`. -/
def STAR : UInt8 := 42

/-- `'$'`. -/
def DOLLAR : UInt8 := 36

mutual

/-- `matchhere`: search for `re` at the beginning of `text`. -/
def matchhere : List UInt8 → List UInt8 → Bool
  | [], _ => true
  | c :: re, text =>
    if re.head? = some STAR then matchstar c re.tail text
    else if c = DOLLAR ∧ re = [] then text.isEmpty
    else match text with
      | t :: text => (c == DOT || c == t) && matchhere re text
      | [] => false
  termination_by re text => (re.length, text.length, 0)

/-- `matchstar`: search for `c*re` at the beginning of `text`. -/
def matchstar (c : UInt8) (re : List UInt8) (text : List UInt8) : Bool :=
  matchhere re text ||
    match text with
    | t :: text => (t == c || c == DOT) && matchstar c re text
    | [] => false
  termination_by (re.length, text.length, 1)

end

/-- The loop of `match`, which looks at the empty string too. -/
def matchLoop (re : List UInt8) : List UInt8 → Bool
  | [] => matchhere re []
  | t :: text => matchhere re (t :: text) || matchLoop re text

/-- `match`. -/
def matchText (re text : List UInt8) : Bool :=
  if re.head? = some CARET then matchhere re.tail text else matchLoop re text

end ChronoFS.Grep
