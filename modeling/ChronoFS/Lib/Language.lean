import Mathlib.Computability.Language

/-!
# Texts that start with a word of a language

A matcher that backtracks has to find a word of a language at the beginning of a text so that the
rest of the text satisfies what comes next. `Language.Starts` is that relation, with what comes
next as a predicate, and the rules below take it apart along the language: a product is one match
after the other, and a star is no match or one more.
-/

namespace Language

variable {α : Type*} {L M : Language α} {P Q : List α → Prop} {p : α → Prop} {a : α} {x : List α}

/-- The text starts with a word of the language, and `P` holds of the rest of it. -/
def Starts (L : Language α) (P : List α → Prop) (x : List α) : Prop :=
  ∃ w ∈ L, ∃ r, x = w ++ r ∧ P r

/-- The words of one letter that satisfies `p`. -/
def letter (p : α → Prop) : Language α := {w | ∃ a, p a ∧ w = [a]}

theorem Starts.congr (h : ∀ r, P r ↔ Q r) : L.Starts P x ↔ L.Starts Q x := by
  unfold Starts
  simp only [h]

@[simp] theorem starts_one : (1 : Language α).Starts P x ↔ P x := by
  unfold Starts
  simp [mem_one]

theorem starts_add : (L + M).Starts P x ↔ L.Starts P x ∨ M.Starts P x := by
  unfold Starts
  simp only [mem_add, or_and_right, exists_or]

/-- A word of a product is a word of the first factor and then one of the second. -/
theorem starts_mul : (L * M).Starts P x ↔ L.Starts (M.Starts P) x := by
  constructor
  · rintro ⟨_, ⟨u, hu, v, hv, rfl⟩, r, rfl, hr⟩
    exact ⟨u, hu, v ++ r, List.append_assoc u v r, v, hv, r, rfl, hr⟩
  · rintro ⟨u, hu, _, rfl, v, hv, r, rfl, hr⟩
    exact ⟨u ++ v, append_mem_mul hu hv, r, (List.append_assoc u v r).symm, hr⟩

/-- A starred language matches nothing, or a word of it and then again. -/
theorem starts_kstar : (KStar.kstar L).Starts P x ↔
    P x ∨ L.Starts ((KStar.kstar L).Starts P) x := by
  conv_lhs => rw [← one_add_self_mul_kstar_eq_kstar, starts_add, starts_one, starts_mul]

@[simp] theorem starts_letter_nil : ¬ (letter p).Starts P [] := by
  rintro ⟨_, ⟨a, -, rfl⟩, r, heq, -⟩
  cases heq

@[simp] theorem starts_letter_cons : (letter p).Starts P (a :: x) ↔ p a ∧ P x := by
  constructor
  · rintro ⟨_, ⟨b, hb, rfl⟩, r, heq, hr⟩
    cases heq
    exact ⟨hb, hr⟩
  · rintro ⟨ha, hx⟩
    exact ⟨[a], ⟨a, ha, rfl⟩, x, rfl, hx⟩

end Language
