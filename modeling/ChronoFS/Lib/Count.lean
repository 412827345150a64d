import Mathlib.Algebra.BigOperators.Group.Finset.Basic
import Mathlib.Algebra.Order.BigOperators.Group.Finset
import Mathlib.Data.Fintype.Basic

/-!
# Counting the users of resources

Each of finitely many users has at most one resource of some kind. `count has i` is the number of
users that have `i`, as a reference count should be; a user that takes or gives up a resource changes
the count of that resource by one.
-/

open Function

section Sum

variable {ι β M : Type*} [DecidableEq ι] [AddCommMonoid M]

/-- A sum over the values of a function of which one changes. -/
theorem sum_update_of_mem {s : Finset ι} {a : ι} (ha : a ∈ s) (φ : β → M) (t : ι → β) (v : β) :
    ∑ x ∈ s, φ (update t a v x) + φ (t a) = ∑ x ∈ s, φ (t x) + φ v := by
  have hrest : ∑ x ∈ s.erase a, φ (update t a v x) = ∑ x ∈ s.erase a, φ (t x) := by
    apply Finset.sum_congr rfl
    intro x hx
    rw [update_of_ne (Finset.ne_of_mem_erase hx)]
  rw [← Finset.add_sum_erase _ (fun x => φ (update t a v x)) ha,
    ← Finset.add_sum_erase _ (fun x => φ (t x)) ha, hrest, update_self, add_right_comm, add_assoc,
    add_comm (φ v), add_comm (φ (t a)), add_assoc]

theorem sum_update [Fintype ι] (φ : β → M) (t : ι → β) (a : ι) (v : β) :
    ∑ x, φ (update t a v x) + φ (t a) = ∑ x, φ (t x) + φ v :=
  sum_update_of_mem (Finset.mem_univ a) φ t v

end Sum

variable {U I : Type*} [Fintype U] [DecidableEq I]

/-- The number of users that have `i`. -/
def count (has : U → Option I) (i : I) : ℕ := ∑ u, if has u = some i then 1 else 0

variable {has : U → Option I} {u : U} {i j : I}

/-- A user that has `i` counts. -/
theorem count_pos (h : has u = some i) : 0 < count has i := by
  have hle := Finset.single_le_sum (f := fun u => if has u = some i then 1 else 0)
    (fun _ _ => Nat.zero_le _) (Finset.mem_univ u)
  rw [if_pos h] at hle
  exact hle

/-- Nobody has what is not counted. -/
theorem ne_of_count_eq_zero (h : count has i = 0) (u : U) : has u ≠ some i := by
  intro hu
  have := count_pos hu
  omega

variable [DecidableEq U]

/-- A user changes what it has. -/
theorem count_update (has : U → Option I) (u : U) (v : Option I) (i : I) :
    count (update has u v) i + (if has u = some i then 1 else 0) =
      count has i + if v = some i then 1 else 0 :=
  sum_update (fun x => if x = some i then 1 else 0) has u v
