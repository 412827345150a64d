import Mathlib.Logic.Function.Basic
import Mathlib.Data.List.Nodup

/-!
# Replaying a redo list

`install d l` is the store `d` with the writes of `l` applied in order. What a list of writes leaves
at an address it writes does not depend on the store it starts from (`install_congr`), so a list
that was replayed in part can be replayed again from the start. Where the addresses are distinct,
each ends up with its own value (`install_of_mem`), and a store that already holds every value is a
fixed point (`install_eq_of_forall`).
-/

namespace Redo

variable {α β : Type*} [DecidableEq α]

open Function (update)

/-- The store with the writes of `l` applied in order. -/
def install (d : α → β) (l : List (α × β)) : α → β := l.foldl (fun d w => update d w.1 w.2) d

@[simp]
theorem install_cons (d : α → β) (w : α × β) (l : List (α × β)) :
    install d (w :: l) = install (update d w.1 w.2) l := rfl

theorem install_append (d : α → β) (l m : List (α × β)) :
    install d (l ++ m) = install (install d l) m := by
  simp [install]

/-- An address that no write names keeps its value. -/
theorem install_of_notMem {d : α → β} {l : List (α × β)} {a : α} (h : a ∉ l.map Prod.fst) :
    install d l a = d a := by
  induction l generalizing d with
  | nil => rfl
  | cons w l ih =>
    simp only [List.map_cons, List.mem_cons, not_or] at h
    rw [install_cons, ih h.2, Function.update_of_ne h.1]

/-- Two stores that agree wherever the list does not write agree after it. -/
theorem install_congr {d d' : α → β} {l : List (α × β)} {a : α}
    (h : a ∉ l.map Prod.fst → d a = d' a) : install d l a = install d' l a := by
  induction l generalizing d d' with
  | nil => exact h (by simp)
  | cons w l ih =>
    rw [install_cons, install_cons]
    apply ih
    intro hl
    by_cases ha : a = w.1
    · subst ha
      simp
    · rw [Function.update_of_ne ha, Function.update_of_ne ha]
      exact h (by simp [ha, hl])

/-- Where the addresses are distinct, each ends up with its own value. -/
theorem install_of_mem {d : α → β} {l : List (α × β)} {a : α} {v : β}
    (hnd : (l.map Prod.fst).Nodup) (h : (a, v) ∈ l) : install d l a = v := by
  induction l generalizing d with
  | nil => cases h
  | cons w l ih =>
    obtain ⟨hw, hnd'⟩ := List.nodup_cons.mp hnd
    rw [install_cons]
    rcases List.mem_cons.mp h with rfl | hl
    · rw [install_of_notMem hw, Function.update_self]
    · exact ih hnd' hl

/-- Replaying writes that are all in place changes nothing. -/
theorem install_eq_of_forall {d : α → β} {l : List (α × β)} (hnd : (l.map Prod.fst).Nodup)
    (h : ∀ w ∈ l, d w.1 = w.2) (a : α) : install d l a = d a := by
  by_cases ha : a ∈ l.map Prod.fst
  · obtain ⟨w, hw, rfl⟩ := List.mem_map.mp ha
    rw [install_of_mem hnd hw, h w hw]
  · exact install_of_notMem ha

end Redo
