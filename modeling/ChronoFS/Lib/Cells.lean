import Mathlib

/-!
# Blocks of cells

The cells of a block that begins at `a` and has the size `n` are the addresses from `a` on, as a multiset:
the cells of several blocks are a sum, and that the blocks are disjoint is that nothing is in the sum
twice. A block that is cut into two, or two blocks that are joined, have the same cells
(`cells_add`).
-/

/-- The cells of a block. -/
def cells (a n : ℕ) : Multiset ℕ := (List.range' a n : List ℕ)

variable {a b m n u : ℕ}

theorem mem_cells : u ∈ cells a n ↔ a ≤ u ∧ u < a + n := by
  unfold cells
  rw [Multiset.mem_coe, List.mem_range'_1]

@[simp]
theorem cells_zero : cells a 0 = 0 := rfl

/-- A block is cut into two. -/
theorem cells_add : cells a (m + n) = cells a m + cells (a + m) n := by
  unfold cells
  rw [Multiset.coe_add, List.range'_append_1]

@[simp]
theorem card_cells : (cells a n).card = n := by
  unfold cells
  rw [Multiset.coe_card, List.length_range']

theorem nodup_cells : (cells a n).Nodup := Multiset.coe_nodup.mpr List.nodup_range'

/-- A block with a cell begins with one. -/
theorem self_mem_cells (h : 0 < n) : a ∈ cells a n := mem_cells.mpr ⟨le_rfl, by omega⟩

/-- Disjoint blocks are one before the other. -/
theorem apart_of_disjoint (h : Disjoint (cells a m) (cells b n)) (hm : 0 < m) (hn : 0 < n) :
    a + m ≤ b ∨ b + n ≤ a := by
  by_contra hcon
  rw [not_or, not_le, not_le] at hcon
  rcases le_total a b with hab | hba
  · exact Multiset.disjoint_left.mp h (mem_cells.mpr ⟨hab, hcon.1⟩) (self_mem_cells hn)
  · exact Multiset.disjoint_left.mp h (self_mem_cells hm) (mem_cells.mpr ⟨hba, hcon.2⟩)

/-- The cells of several blocks. -/
def covered {ι : Type*} (l : List ι) (addr size : ι → ℕ) : Multiset ℕ :=
  (l.map fun i => cells (addr i) (size i)).sum

section Covered

variable {ι : Type*} {l l₁ l₂ : List ι} {i : ι} {addr size size' : ι → ℕ}

@[simp]
theorem covered_nil : covered [] addr size = 0 := rfl

@[simp]
theorem covered_cons : covered (i :: l) addr size = cells (addr i) (size i) + covered l addr size := by
  unfold covered
  rw [List.map_cons, List.sum_cons]

@[simp]
theorem covered_append :
    covered (l₁ ++ l₂) addr size = covered l₁ addr size + covered l₂ addr size := by
  unfold covered
  rw [List.map_append, List.sum_append]

/-- Only the sizes of the blocks matter. -/
theorem covered_congr (h : ∀ i ∈ l, size' i = size i) : covered l addr size' = covered l addr size := by
  unfold covered
  refine congrArg List.sum (List.map_congr_left fun i hi => ?_)
  rw [h i hi]

theorem mem_covered : u ∈ covered l addr size ↔ ∃ i ∈ l, u ∈ cells (addr i) (size i) := by
  induction l with
  | nil => simp
  | cons j l ih =>
    rw [covered_cons, Multiset.mem_add, ih]
    simp

/-- The number of cells. -/
theorem card_covered : (covered l addr size).card = (l.map size).sum := by
  induction l with
  | nil => rfl
  | cons j l ih => rw [covered_cons, Multiset.card_add, ih, card_cells, List.map_cons, List.sum_cons]

/-- If nothing is covered twice, the blocks are disjoint. -/
theorem pairwise_disjoint (h : (covered l addr size).Nodup) :
    l.Pairwise fun i j => Disjoint (cells (addr i) (size i)) (cells (addr j) (size j)) := by
  induction l with
  | nil => exact List.Pairwise.nil
  | cons i l ih =>
    rw [covered_cons, Multiset.nodup_add] at h
    obtain ⟨-, hl, hdisj⟩ := h
    refine List.pairwise_cons.mpr ⟨fun j hj => ?_, ih hl⟩
    refine Multiset.disjoint_left.mpr fun {u} hu hu' => ?_
    exact Multiset.disjoint_left.mp hdisj hu (mem_covered.mpr ⟨j, hj, hu'⟩)

end Covered
