import ChronoFS.Grep.Model
import ChronoFS.Lib.Language

/-!
# The matcher decides the language of its pattern

A pattern is read from the left as a sequence of items, `c` or `c*`, and a `$` that comes last and
without a star (`Regex.read`). `matchstar` finds a word of `c*` so that `matchhere` succeeds on the
rest (`matchstar_iff`), by induction on the text alone; with that, `matchhere` is followed along the
reading of the pattern (`matchhere_iff`). Characters in other places stand for themselves: a `^`
that is not first, a `$` that is not last or has a star, and a `*` at the beginning or after an
item.
-/

namespace ChronoFS.Grep

open Language

variable {re text : List UInt8} {c : UInt8}

/-- What `c` in a pattern stands for: `.` is any character. -/
def Accepts (c t : UInt8) : Prop := c = DOT ∨ c = t

/-- An item of a pattern. -/
inductive Item
  /-- `c`. -/
  | one (c : UInt8)
  /-- `c*`. -/
  | star (c : UInt8)

/-- The words that an item matches. -/
def Item.lang : Item → Language UInt8
  | .one c => letter (Accepts c)
  | .star c => KStar.kstar (letter (Accepts c))

/-- A pattern without a `^` in front. -/
structure Regex where
  /-- Its items. -/
  items : List Item
  /-- It ends with an unstarred `$`. -/
  toEnd : Bool

/-- A pattern with one more item in front. -/
def Regex.cons (i : Item) (r : Regex) : Regex := { r with items := i :: r.items }

/-- The reading of a pattern. -/
def Regex.read : List UInt8 → Regex
  | [] => ⟨[], false⟩
  | [c] => if c = DOLLAR then ⟨[], true⟩ else ⟨[.one c], false⟩
  | c :: d :: re => if d = STAR then (read re).cons (.star c) else (read (d :: re)).cons (.one c)

/-- The language of the pattern: words of its items, one after the other. -/
def Regex.lang (r : Regex) : Language UInt8 := (r.items.map Item.lang).prod

/-- What the pattern wants of the text after the word. -/
def Regex.Rest (r : Regex) (rest : List UInt8) : Prop := r.toEnd = true → rest = []

theorem Regex.starts_cons (i : Item) (r : Regex) :
    (r.cons i).lang.Starts (r.cons i).Rest text ↔ i.lang.Starts (r.lang.Starts r.Rest) text := by
  unfold Regex.lang Regex.cons
  rw [List.map_cons, List.prod_cons, starts_mul]
  rfl

/-- `matchstar` looks for the rest of the pattern after every word of `c*`. -/
theorem matchstar_iff : matchstar c re text = true ↔
    (Item.star c).lang.Starts (fun x => matchhere re x = true) text := by
  unfold Item.lang
  induction text with
  | nil =>
    rw [matchstar, starts_kstar]
    simp
  | cons t text ih =>
    rw [matchstar, starts_kstar, starts_letter_cons, ← ih]
    simp only [Bool.or_eq_true, Bool.and_eq_true, beq_iff_eq, Accepts]
    -- the source compares in the other order
    rw [or_comm (a := t = c), eq_comm (a := t)]

/-- A character that is no operator here has to be the next one of the text. -/
theorem matchhere_one (hstar : re.head? ≠ some STAR) (hend : ¬ (c = DOLLAR ∧ re = [])) :
    matchhere (c :: re) text = true ↔
      (Item.one c).lang.Starts (fun x => matchhere re x = true) text := by
  unfold Item.lang
  cases text with
  | nil =>
    rw [matchhere, if_neg hstar, if_neg hend]
    simp
  | cons t text =>
    rw [matchhere, if_neg hstar, if_neg hend]
    simp [Accepts]

/-- `matchhere` decides whether the text starts with a word of the pattern. -/
theorem matchhere_iff : matchhere re text = true ↔
    (Regex.read re).lang.Starts (Regex.read re).Rest text := by
  induction re using Regex.read.induct generalizing text with
  | case1 => simp [matchhere, Regex.read, Regex.lang, Regex.Rest]
  | case2 =>
    rw [matchhere.eq_def]
    simp [Regex.read, Regex.lang, Regex.Rest]
  | case3 c hc =>
    rw [matchhere_one (by simp) (fun h => hc h.1)]
    have hread : Regex.read [c] = (Regex.read []).cons (.one c) := by
      unfold Regex.read
      rw [if_neg hc]
      rfl
    rw [hread, Regex.starts_cons]
    exact Starts.congr fun r => by simp [matchhere, Regex.read, Regex.lang, Regex.Rest]
  | case4 c re ih =>
    have hread : Regex.read (c :: STAR :: re) = (Regex.read re).cons (.star c) := by
      rw [Regex.read, if_pos rfl]
    rw [hread, Regex.starts_cons, matchhere.eq_def]
    exact matchstar_iff.trans (Starts.congr fun r => ih)
  | case5 c d re hd ih =>
    have hread : Regex.read (c :: d :: re) = (Regex.read (d :: re)).cons (.one c) := by
      rw [Regex.read, if_neg hd]
    have hone : matchhere (c :: d :: re) text = true ↔ _ :=
      matchhere_one (fun h => hd (Option.some.inj h)) fun h => List.cons_ne_nil d re h.2
    rw [hone, hread, Regex.starts_cons]
    exact Starts.congr fun r => ih

/-- The loop of `match` tries every place of the text. -/
theorem matchLoop_iff : matchLoop re text = true ↔
    ∃ before x, text = before ++ x ∧ matchhere re x = true := by
  induction text with
  | nil =>
    constructor
    · intro h
      exact ⟨[], [], rfl, h⟩
    · rintro ⟨before, x, heq, h⟩
      rw [(List.append_eq_nil_iff.mp heq.symm).2] at h
      exact h
  | cons t text ih =>
    rw [matchLoop, Bool.or_eq_true, ih]
    constructor
    · rintro (h | ⟨before, x, rfl, h⟩)
      · exact ⟨[], t :: text, rfl, h⟩
      · exact ⟨t :: before, x, rfl, h⟩
    · rintro ⟨before, x, heq, h⟩
      cases before with
      | nil => exact .inl (heq ▸ h)
      | cons b before => exact .inr ⟨before, x, (List.cons.inj heq).2, h⟩

/-- `match` holds exactly if some part of the text, a prefix for a pattern that begins with `^`, is
a word of the language of the pattern, and reaches the end of the text if the pattern ends with
`$`. -/
theorem match_decides (re text : List UInt8) : matchText re text = true ↔
    ∃ before w after, text = before ++ w ++ after ∧
      (re.head? = some CARET → before = []) ∧
      w ∈ (Regex.read (if re.head? = some CARET then re.tail else re)).lang ∧
      (Regex.read (if re.head? = some CARET then re.tail else re)).Rest after := by
  unfold matchText
  split
  · rw [matchhere_iff]
    constructor
    · rintro ⟨w, hw, after, rfl, hafter⟩
      exact ⟨[], w, after, rfl, fun _ => rfl, hw, hafter⟩
    · rintro ⟨before, w, after, rfl, hbefore, hw, hafter⟩
      rw [hbefore ‹_›]
      exact ⟨w, hw, after, rfl, hafter⟩
  · rw [matchLoop_iff]
    constructor
    · rintro ⟨before, x, rfl, hx⟩
      obtain ⟨w, hw, after, rfl, hafter⟩ := matchhere_iff.mp hx
      exact ⟨before, w, after, by rw [List.append_assoc], fun h => absurd h ‹_›, hw, hafter⟩
    · rintro ⟨before, w, after, rfl, -, hw, hafter⟩
      exact ⟨before, w ++ after, List.append_assoc before w after,
        matchhere_iff.mpr ⟨w, hw, after, rfl, hafter⟩⟩

end ChronoFS.Grep
