import Mathlib.Data.List.Perm.Basic
import Mathlib.Data.List.Nodup
import Mathlib.Logic.Function.Basic

/-!
# Circular lists

`RingList next l` says that the pointers `next` go through the elements of `l`, from the last one back to
the first one. From each element the pointers go through all of them and come back
(`RingList.exists_walk`), so a search for an element with a property ends within one round
(`RingList.find`). An element is put in or taken out by a change of the pointer before it
(`RingList.insert`, `RingList.remove`).
-/

open Function

variable {α : Type*} {next : α → α} {a b p q x y : α} {l l₁ l₂ : List α}

/-- The pointers go from `x` through `l`. -/
def Walk (next : α → α) : (x : α) → (l : List α) → Prop
  | _, [] => True
  | x, y :: l => next x = y ∧ Walk next y l

namespace Walk

theorem append : Walk next x (l₁ ++ y :: l₂) ↔ Walk next x (l₁ ++ [y]) ∧ Walk next y l₂ := by
  induction l₁ generalizing x with
  | nil =>
    constructor
    · intro h
      exact ⟨⟨h.1, trivial⟩, h.2⟩
    · intro h
      exact ⟨h.1.1, h.2⟩
  | cons z l₁ ih =>
    constructor
    · intro h
      obtain ⟨h1, h2⟩ := ih.mp h.2
      exact ⟨⟨h.1, h1⟩, h2⟩
    · intro h
      exact ⟨h.1.1, ih.mpr ⟨h.1.2, h.2⟩⟩

/-- The first part of a walk. -/
theorem left (h : Walk next x (l₁ ++ l₂)) : Walk next x l₁ := by
  induction l₁ generalizing x with
  | nil => exact trivial
  | cons y l₁ ih => exact ⟨h.1, ih h.2⟩

/-- Only the pointers of the elements that are left matter. -/
theorem congr {next' : α → α} (h : Walk next x (l ++ [y]))
    (hsame : ∀ z ∈ x :: l, next' z = next z) : Walk next' x (l ++ [y]) := by
  induction l generalizing x with
  | nil => exact ⟨(hsame x List.mem_cons_self).trans h.1, trivial⟩
  | cons z l ih =>
    refine ⟨(hsame x List.mem_cons_self).trans h.1, ih h.2 fun w hw => ?_⟩
    exact hsame w (List.mem_cons_of_mem _ hw)

end Walk

/-- The pointers go through `l`, and from its last element to its first one. -/
def RingList (next : α → α) : (l : List α) → Prop
  | [] => False
  | a :: l => Walk next a (l ++ [a])

namespace RingList

/-- One round from an element. -/
theorem exists_walk (h : RingList next l) (hx : x ∈ l) :
    ∃ o, Walk next x (o ++ [x]) ∧ (x :: o).Perm l := by
  obtain ⟨l₁, l₂, rfl⟩ := List.append_of_mem hx
  cases l₁ with
  | nil => exact ⟨l₂, h, List.Perm.refl _⟩
  | cons a l₁ =>
    have hround : Walk next a (l₁ ++ x :: (l₂ ++ [a])) := by
      have := h
      rwa [List.cons_append, RingList, List.append_assoc, List.cons_append] at this
    obtain ⟨hfirst, hlast⟩ := Walk.append.mp hround
    refine ⟨l₂ ++ a :: l₁, ?_, ?_⟩
    · rw [List.append_assoc, List.cons_append]
      exact Walk.append.mpr ⟨hlast, hfirst⟩
    · calc (x :: (l₂ ++ a :: l₁)).Perm (a :: l₁ ++ x :: l₂) := by
            rw [← List.cons_append]
            exact List.perm_append_comm
        _ = _ := rfl

/-- What an element points to is an element. -/
theorem next_mem (h : RingList next l) (hx : x ∈ l) : next x ∈ l := by
  obtain ⟨o, hwalk, hperm⟩ := h.exists_walk hx
  refine hperm.mem_iff.mp ?_
  cases o with
  | nil =>
    rw [hwalk.1]
    exact List.mem_cons_self
  | cons y o =>
    rw [hwalk.1]
    exact List.mem_cons_of_mem _ List.mem_cons_self

/-- The pointer between two elements that stand one after the other. -/
theorem next_eq (h : RingList next (l₁ ++ p :: q :: l₂)) : next p = q := by
  cases l₁ with
  | nil => exact h.1
  | cons a l₁ =>
    have hround : Walk next a (l₁ ++ p :: (q :: l₂ ++ [a])) := by
      have := h
      rwa [List.cons_append, RingList, List.append_assoc, List.cons_append] at this
    exact (Walk.append.mp hround).2.1

/-- The pointer of the last element. -/
theorem next_last (h : RingList next (a :: l₁)) (hl : a :: l₁ = l ++ [p]) : next p = a := by
  cases l with
  | nil =>
    obtain ⟨rfl, rfl⟩ := List.cons.inj hl
    exact h.1
  | cons b l =>
    obtain ⟨rfl, rfl⟩ := List.cons.inj hl
    have hround : Walk next a (l ++ [p] ++ [a]) := h
    rw [List.append_assoc, List.cons_append] at hround
    exact (Walk.append.mp hround).2.1

/-! ## Search -/

/-- Follow the pointers up to an element with a property, for at most `fuel` passes. -/
def find (next : α → α) (stop : α → Bool) : (fuel : ℕ) → (x : α) → Option α
  | 0, _ => none
  | fuel + 1, x => if stop x then some x else find next stop fuel (next x)

/-- What a search finds is an element with the property. -/
theorem find_some (h : RingList next l) {stop : α → Bool} {fuel : ℕ} (hx : x ∈ l)
    (hfind : find next stop fuel x = some p) : p ∈ l ∧ stop p = true := by
  induction fuel generalizing x with
  | zero => exact nomatch hfind
  | succ fuel ih =>
    rw [find] at hfind
    by_cases hstop : stop x = true
    · rw [if_pos hstop] at hfind
      obtain rfl := Option.some.inj hfind
      exact ⟨hx, hstop⟩
    · rw [if_neg hstop] at hfind
      exact ih (h.next_mem hx) hfind

/-- Only the pointers of the elements matter. -/
theorem congr {next' : α → α} (h : RingList next l) (hsame : ∀ x ∈ l, next' x = next x) :
    RingList next' l := by
  cases l with
  | nil => exact h
  | cons a l => exact Walk.congr h hsame

/-- Another pointer of an element `q`, and what is between `q` and the end of the round. -/
theorem splice {next' : α → α} (h : RingList next (l₁ ++ q :: l₂)) {l2' : List α}
    (hsame : ∀ x ∈ l₁, next' x = next x)
    (hrest : ∀ z, Walk next q (l₂ ++ [z]) → Walk next' q (l2' ++ [z])) :
    RingList next' (l₁ ++ q :: l2') := by
  cases l₁ with
  | nil => exact hrest q h
  | cons a l₁ =>
    have hround : Walk next a (l₁ ++ q :: (l₂ ++ [a])) := by
      have := h
      rwa [List.cons_append, RingList, List.append_assoc, List.cons_append] at this
    obtain ⟨hfirst, hlast⟩ := Walk.append.mp hround
    show Walk next' a (l₁ ++ q :: l2' ++ [a])
    rw [List.append_assoc, List.cons_append]
    exact Walk.append.mpr ⟨hfirst.congr hsame, hrest a hlast⟩

variable [DecidableEq α]

/-- An element is taken out. -/
theorem remove (h : RingList next (l₁ ++ q :: p :: l₂)) (hnodup : (l₁ ++ q :: p :: l₂).Nodup) :
    RingList (update next q (next p)) (l₁ ++ q :: l₂) := by
  obtain ⟨-, hnodup2, hdisj⟩ := List.nodup_append.mp hnodup
  have hq : ∀ x ∈ p :: l₂, x ≠ q := by
    rintro x hx rfl
    exact (List.nodup_cons.mp hnodup2).1 hx
  refine h.splice (fun x hx => update_of_ne (hdisj x hx q List.mem_cons_self) ..) fun z hz => ?_
  obtain ⟨-, hrest⟩ := hz
  cases l₂ with
  | nil =>
    refine ⟨?_, trivial⟩
    rw [update_self]
    exact hrest.1
  | cons y l₂ =>
    refine ⟨?_, ?_⟩
    · rw [update_self]
      exact hrest.1
    · exact Walk.congr hrest.2 fun x hx => update_of_ne (hq x (List.mem_cons_of_mem _ hx)) ..

/-- An element is put in. -/
theorem insert (h : RingList next (l₁ ++ q :: l₂)) (hnodup : (l₁ ++ q :: l₂).Nodup)
    (hb : b ∉ l₁ ++ q :: l₂) :
    RingList (update (update next b (next q)) q b) (l₁ ++ q :: b :: l₂) := by
  obtain ⟨-, hnodup2, hdisj⟩ := List.nodup_append.mp hnodup
  have hqb : b ≠ q := fun heq => hb (by rw [heq]; simp)
  have hl1 : ∀ x ∈ l₁, x ≠ b := by
    rintro x hx rfl
    exact hb (List.mem_append_left _ hx)
  have hl2 : ∀ x ∈ l₂, x ≠ q ∧ x ≠ b := by
    intro x hx
    refine ⟨?_, ?_⟩
    · rintro rfl
      exact (List.nodup_cons.mp hnodup2).1 hx
    · rintro rfl
      exact hb (List.mem_append_right _ (List.mem_cons_of_mem _ hx))
  refine h.splice (fun x hx => ?_) fun z hz => ⟨?_, ?_⟩
  · rw [update_of_ne (hdisj x hx q List.mem_cons_self), update_of_ne (hl1 x hx)]
  · rw [update_self]
  · cases l₂ with
    | nil =>
      refine ⟨?_, trivial⟩
      rw [update_of_ne hqb, update_self]
      exact hz.1
    | cons y l₂ =>
      refine ⟨?_, Walk.congr hz.2 fun x hx => ?_⟩
      · rw [update_of_ne hqb, update_self]
        exact hz.1
      · obtain ⟨hxq, hxb⟩ := hl2 x hx
        rw [update_of_ne hxq, update_of_ne hxb]

end RingList
