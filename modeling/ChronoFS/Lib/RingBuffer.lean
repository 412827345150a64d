import Mathlib.Data.Nat.ModEq
import Mathlib.Data.List.Basic
import Mathlib.Logic.Function.Basic

/-!
# A ring buffer with free-running counters

`RingBuffer α N` holds up to `N` items in an array. The counters of the items ever put in and taken out
are 32-bit words that are never reduced; the array is indexed by a counter modulo `N`. If `N`
divides `2 ^ 32`, the wrap of the counters does no harm: the buffer is a queue of at most `N` items
(`content_push`, `content_pop`). `fill` puts in items while there is room, `drain` takes out items
while there are any.
-/

open Function

/-- The array and the two counters. -/
structure RingBuffer (α : Type*) (N : ℕ) where
  /-- The items. -/
  data : Fin N → α
  /-- How many items have been taken out. -/
  nread : UInt32
  /-- How many items have been put in. -/
  nwrite : UInt32

namespace RingBuffer

variable {α : Type*} {N : ℕ} [NeZero N]

/-- The place of the item with number `w`. -/
def index (N : ℕ) [NeZero N] (w : UInt32) : Fin N := Fin.ofNat N w.toNat

/-- How many items there are. -/
def size (r : RingBuffer α N) : ℕ := (r.nwrite - r.nread).toNat

/-- The items, in the order in which they were put in. -/
def content (r : RingBuffer α N) : List α :=
  (List.range r.size).map fun k => r.data (index N (r.nread + .ofNat k))

/-- There is no room. -/
def Full (r : RingBuffer α N) : Prop := r.nwrite = r.nread + .ofNat N

/-- There is no item. -/
def Empty (r : RingBuffer α N) : Prop := r.nread = r.nwrite

instance (r : RingBuffer α N) : Decidable r.Full := inferInstanceAs (Decidable (_ = _))

instance (r : RingBuffer α N) : Decidable r.Empty := inferInstanceAs (Decidable (_ = _))

/-- Put in an item. -/
def push (r : RingBuffer α N) (x : α) : RingBuffer α N :=
  { r with data := update r.data (index N r.nwrite) x, nwrite := r.nwrite + 1 }

/-- The item to be taken out next. -/
def front (r : RingBuffer α N) : α := r.data (index N r.nread)

/-- Take out an item. -/
def pop (r : RingBuffer α N) : RingBuffer α N := { r with nread := r.nread + 1 }

/-- Take back the item that was put in last. -/
def unpush (r : RingBuffer α N) : RingBuffer α N := { r with nwrite := r.nwrite - 1 }

/-- The item that was put in last. -/
def back (r : RingBuffer α N) : α := r.data (index N (r.nwrite - 1))

/-- Put in items until there is no room, and say how many. -/
def fill : RingBuffer α N → List α → RingBuffer α N × ℕ
  | r, [] => (r, 0)
  | r, x :: xs =>
    if r.Full then (r, 0)
    else
      let (r', k) := fill (r.push x) xs
      (r', k + 1)

/-- Take out up to `n` items, while there are any. -/
def drain : RingBuffer α N → ℕ → RingBuffer α N × List α
  | r, 0 => (r, [])
  | r, n + 1 =>
    if r.Empty then (r, [])
    else
      let (r', xs) := drain r.pop n
      (r', r.front :: xs)

/-- The counters are no further apart than the array is long. -/
def Ok (r : RingBuffer α N) : Prop := r.size ≤ N

variable {r : RingBuffer α N}

/-! ## Sizes -/

section Size

omit [NeZero N]

/-- The size, as the numbers the counters stand for. -/
theorem size_eq (r : RingBuffer α N) :
    r.size = (2 ^ 32 - r.nread.toNat + r.nwrite.toNat) % 2 ^ 32 := UInt32.toNat_sub ..

theorem empty_iff : r.Empty ↔ r.size = 0 := by
  have h1 := r.nread.toNat_lt
  have h2 := r.nwrite.toNat_lt
  unfold Empty
  rw [size_eq, ← UInt32.toNat_inj]
  omega

theorem full_iff (hN : N < 2 ^ 32) : r.Full ↔ r.size = N := by
  have h1 := r.nread.toNat_lt
  have h2 := r.nwrite.toNat_lt
  unfold Full
  rw [size_eq, ← UInt32.toNat_inj, UInt32.toNat_add, UInt32.toNat_ofNat_of_lt' hN]
  omega

/-- The number of the next item to be put in. -/
theorem nread_add_size (r : RingBuffer α N) : r.nread + .ofNat r.size = r.nwrite := by
  unfold size
  rw [UInt32.ofNat_toNat, UInt32.add_comm, UInt32.sub_add_cancel]

theorem size_pop (h : r.size ≠ 0) : r.pop.size + 1 = r.size := by
  have h1 := r.nread.toNat_lt
  have h2 := r.nwrite.toNat_lt
  have hread : r.pop.nread.toNat = (r.nread.toNat + 1) % 2 ^ 32 := UInt32.toNat_add ..
  have hwrite : r.pop.nwrite = r.nwrite := rfl
  rw [size_eq] at h ⊢
  rw [size_eq, hread, hwrite]
  omega

theorem size_unpush (h : r.size ≠ 0) : r.unpush.size + 1 = r.size := by
  have h1 := r.nread.toNat_lt
  have h2 := r.nwrite.toNat_lt
  have hwrite : r.unpush.nwrite.toNat = (2 ^ 32 - 1 + r.nwrite.toNat) % 2 ^ 32 := UInt32.toNat_sub ..
  have hread : r.unpush.nread = r.nread := rfl
  rw [size_eq] at h ⊢
  rw [size_eq, hwrite, hread]
  omega

end Size

theorem size_push (h : r.size + 1 < 2 ^ 32) (x : α) : (r.push x).size = r.size + 1 := by
  have h1 := r.nread.toNat_lt
  have h2 := r.nwrite.toNat_lt
  have hwrite : (r.push x).nwrite.toNat = (r.nwrite.toNat + 1) % 2 ^ 32 := UInt32.toNat_add ..
  have hread : (r.push x).nread = r.nread := rfl
  rw [size_eq] at h ⊢
  rw [size_eq, hwrite, hread]
  omega

/-! ## Contents -/

/-- The place of the item `k` places behind `w`: the wrap of the counter does not matter. -/
theorem index_add (hN : N ∣ 2 ^ 32) (w : UInt32) (k : ℕ) :
    (index N (w + .ofNat k)).val = (w.toNat + k) % N := by
  show (w + .ofNat k).toNat % N = _
  rw [UInt32.toNat_add, Nat.mod_mod_of_dvd _ hN, UInt32.toNat_ofNat', Nat.add_mod,
    Nat.mod_mod_of_dvd _ hN, ← Nat.add_mod]

/-- The place the next item is put in. -/
theorem index_nwrite (hN : N ∣ 2 ^ 32) (r : RingBuffer α N) :
    (index N r.nwrite).val = (r.nread.toNat + r.size) % N := by
  rw [← index_add hN, nread_add_size]

/-- Different places for up to `N` items in a row. -/
theorem index_ne (hN : N ∣ 2 ^ 32) {k : ℕ} (hk : k < r.size) (hs : r.size < N) :
    index N (r.nread + .ofNat k) ≠ index N r.nwrite := by
  intro h
  have hv := congrArg Fin.val h
  rw [index_add hN, index_nwrite hN] at hv
  have hmod : k ≡ r.size [MOD N] := Nat.ModEq.add_left_cancel' _ hv
  rw [Nat.ModEq, Nat.mod_eq_of_lt (by omega), Nat.mod_eq_of_lt hs] at hmod
  omega

theorem content_push (hN : N ∣ 2 ^ 32) (hlt : N < 2 ^ 32) (hs : r.size < N) (x : α) :
    (r.push x).content = r.content ++ [x] := by
  unfold content
  rw [size_push (by omega), List.range_succ, List.map_append]
  congr 1
  · -- the items that were there stay in their places
    apply List.map_congr_left
    intro k hk
    exact update_of_ne (index_ne hN (List.mem_range.mp hk) hs) ..
  · show [(r.push x).data (index N (r.nread + .ofNat r.size))] = [x]
    rw [nread_add_size]
    exact congrArg (fun y => [y]) (update_self ..)

theorem content_pop (h : r.size ≠ 0) : r.content = r.front :: r.pop.content := by
  have hsize := size_pop h
  unfold content
  rw [← hsize, List.range_succ_eq_map, List.map_cons, List.map_map]
  congr 1
  · show r.data (index N (r.nread + 0)) = r.front
    rw [UInt32.add_zero]
    rfl
  · apply List.map_congr_left
    intro k _
    show r.data (index N (r.nread + .ofNat (k + 1))) = r.data (index N (r.nread + 1 + .ofNat k))
    rw [UInt32.add_assoc, UInt32.ofNat_add, UInt32.add_comm (.ofNat k)]
    rfl

theorem content_unpush (h : r.size ≠ 0) : r.unpush.content = r.content.take (r.size - 1) := by
  have hsize := size_unpush h
  have hmin : min (r.size - 1) r.size = r.unpush.size := by omega
  unfold content
  rw [← List.map_take, List.take_range, hmin]
  rfl

theorem content_eq_nil : r.content = [] ↔ r.Empty := by
  unfold content
  rw [List.map_eq_nil_iff, List.range_eq_nil, empty_iff]

theorem length_content (r : RingBuffer α N) : r.content.length = r.size := by
  simp [content]

/-! ## Filling and draining -/

/-- `fill` puts in the first items: all of them, or until there is no room. -/
theorem fill_spec (hN : N ∣ 2 ^ 32) (hlt : N < 2 ^ 32) (xs : List α) (hr : r.Ok) :
    (r.fill xs).1.Ok ∧ (r.fill xs).1.content = r.content ++ xs.take (r.fill xs).2 ∧
      (r.fill xs).2 ≤ xs.length ∧ ((r.fill xs).2 < xs.length → (r.fill xs).1.Full) := by
  induction xs generalizing r with
  | nil => exact ⟨hr, by simp [fill], by simp [fill], by simp [fill]⟩
  | cons x xs ih =>
    unfold fill
    by_cases hfull : r.Full
    · rw [if_pos hfull]
      exact ⟨hr, by simp, by simp, fun _ => hfull⟩
    · rw [if_neg hfull]
      have hsize : r.size < N := lt_of_le_of_ne hr fun h => hfull ((full_iff hlt).mpr h)
      have hpush : (r.push x).Ok := by
        show (r.push x).size ≤ N
        rw [size_push (by omega)]
        omega
      obtain ⟨hok, hcontent, hle, hrest⟩ := ih hpush
      refine ⟨hok, ?_, by simpa using hle, by simpa using hrest⟩
      rw [hcontent, content_push hN hlt hsize]
      simp

/-- `fill` puts in as many items as there is room for. -/
theorem fill_count (hN : N ∣ 2 ^ 32) (hlt : N < 2 ^ 32) (xs : List α) (hr : r.Ok) :
    (r.fill xs).2 = min xs.length (N - r.size) := by
  obtain ⟨hok, hcontent, hle, hfull⟩ := fill_spec hN hlt xs hr
  have hsize : (r.fill xs).1.size = r.size + (r.fill xs).2 := by
    have hlen := congrArg List.length hcontent
    rw [length_content, List.length_append, length_content, List.length_take] at hlen
    omega
  have hok' : (r.fill xs).1.size ≤ N := hok
  rcases Nat.lt_or_ge (r.fill xs).2 xs.length with hk | hk
  · have := (full_iff hlt).mp (hfull hk)
    omega
  · omega

theorem fill_of_full (h : r.Full) (xs : List α) : r.fill xs = (r, 0) := by
  cases xs with
  | nil => rfl
  | cons x xs => exact if_pos h

theorem drain_of_empty (h : r.Empty) (n : ℕ) : r.drain n = (r, []) := by
  cases n with
  | zero => rfl
  | succ n => exact if_pos h

/-- `drain` takes out the first items. -/
theorem drain_spec (n : ℕ) (hr : r.Ok) :
    (r.drain n).1.Ok ∧ r.content = (r.drain n).2 ++ (r.drain n).1.content ∧
      (r.drain n).2.length ≤ n ∧ (0 < n → ¬ r.Empty → (r.drain n).2 ≠ []) := by
  induction n generalizing r with
  | zero => exact ⟨hr, by simp [drain], by simp [drain], by simp⟩
  | succ n ih =>
    unfold drain
    by_cases hempty : r.Empty
    · rw [if_pos hempty]
      exact ⟨hr, by simp, by simp, fun _ h => absurd hempty h⟩
    · rw [if_neg hempty]
      have hsize : r.size ≠ 0 := fun h => hempty (empty_iff.mpr h)
      have hpop : r.pop.Ok := by
        have := size_pop hsize
        have : r.size ≤ N := hr
        show r.pop.size ≤ N
        omega
      obtain ⟨hok, hcontent, hle, -⟩ := ih hpop
      refine ⟨hok, ?_, by simpa using hle, by simp⟩
      rw [content_pop hsize, hcontent]
      rfl

end RingBuffer
