import ChronoFS.Fs.Format

/-!
# The functions of `string.c`

Whichever way `memmove` goes, it overwrites no byte that it still has to read. `strncmp` and `strncpy` are
what `namecmp` and `Dirent.byte` say.
-/

namespace ChronoFS

open Function

/-- The loop that goes down from `d + n` and `s + n`. -/
def moveDown (m : ℕ → UInt8) (d s : ℕ) : ℕ → ℕ → UInt8
  | 0 => m
  | n + 1 => moveDown (update m (d + n) (m (s + n))) d s n

/-- The loop that goes up from `d` and `s`. -/
def moveUp (m : ℕ → UInt8) (d s : ℕ) : ℕ → ℕ → UInt8
  | 0 => m
  | n + 1 => moveUp (update m d (m s)) (d + 1) (s + 1) n

/-- `memmove(dst, src, n)` in the memory `m`, where no address wraps around. -/
def memmove (m : ℕ → UInt8) (dst src n : ℕ) : ℕ → UInt8 :=
  if src < dst ∧ src + n > dst then moveDown m dst src n else moveUp m dst src n

theorem moveDown_apply {d s : ℕ} (h : s < d) (m : ℕ → UInt8) (n a : ℕ) :
    moveDown m d s n a = if d ≤ a ∧ a < d + n then m (s + (a - d)) else m a := by
  induction n generalizing m with
  | zero => rw [moveDown, if_neg (by omega)]
  | succ n ih =>
    rw [moveDown, ih]
    -- what was written is above all that is still read
    grind

theorem moveUp_apply (m : ℕ → UInt8) {d s n : ℕ} (h : d ≤ s ∨ s + n ≤ d) (a : ℕ) :
    moveUp m d s n a = if d ≤ a ∧ a < d + n then m (s + (a - d)) else m a := by
  induction n generalizing m d s with
  | zero => rw [moveUp, if_neg (by omega)]
  | succ n ih =>
    rw [moveUp, ih _ (by omega)]
    grind

/-- The `n` bytes at `s` get to `d`, overlapping or not, and no other byte changes. So a move into a block
that lies at `data` is `Block.put`. -/
theorem memmove_spec (m : ℕ → UInt8) (d s n : ℕ) :
    (∀ a, memmove m d s n a = if d ≤ a ∧ a < d + n then m (s + (a - d)) else m a) ∧
      ∀ data off, Block.ofFn (fun i => memmove m (data + off) s n (data + i)) =
        (Block.ofFn fun i => m (data + i)).put off n fun j => m (s + j) := by
  have hmove : ∀ d a, memmove m d s n a = if d ≤ a ∧ a < d + n then m (s + (a - d)) else m a := by
    intro d a
    unfold memmove
    split
    · exact moveDown_apply (by omega) m n a
    · exact moveUp_apply m (by omega) a
  refine ⟨hmove d, fun data off => Block.ext (funext fun i => ?_)⟩
  show memmove m (data + off) s n (data + i) = if _ then _ else _
  rw [hmove, Block.get_ofFn _ i.isLt, Nat.add_sub_add_left]
  simp only [Nat.add_assoc, Nat.add_le_add_iff_left, Nat.add_lt_add_iff_left]

/-- `strncmp(p, q, n)`. -/
def strncmp (p q : ℕ → UInt8) : ℕ → ℤ
  | 0 => 0
  | n + 1 =>
    if p 0 ≠ 0 ∧ p 0 = q 0 then strncmp (fun j => p (j + 1)) (fun j => q (j + 1)) n
    else (p 0).toNat - (q 0).toNat

/-- The `n` bytes that `strncpy(s, t, n)` stores at `s`. -/
def strncpy (t : ℕ → UInt8) : ℕ → List UInt8
  | 0 => []
  | n + 1 => t 0 :: if t 0 ≠ 0 then strncpy (fun j => t (j + 1)) n else List.replicate n 0

/-- The string in the `n` bytes of `p`. -/
def cstr (p : ℕ → UInt8) (n : ℕ) : List UInt8 := ((List.range n).map p).takeWhile (· ≠ 0)

theorem cstr_succ (p : ℕ → UInt8) (n : ℕ) :
    cstr p (n + 1) = if p 0 ≠ 0 then p 0 :: cstr (fun j => p (j + 1)) n else [] := by
  simp [cstr, List.range_succ_eq_map, List.takeWhile_cons, comp_def]

theorem strncmp_eq_zero (p q : ℕ → UInt8) (n : ℕ) : strncmp p q n = 0 ↔ cstr p n = cstr q n := by
  induction n generalizing p q with
  | zero => simp [strncmp, cstr]
  | succ n ih =>
    rw [strncmp, cstr_succ, cstr_succ]
    split
    · rename_i h
      simp [ih, h.1, ← h.2]
    · rename_i h
      rw [sub_eq_zero, Nat.cast_inj, UInt8.toNat_inj]
      grind

theorem strncpy_eq (t : ℕ → UInt8) (n : ℕ) :
    strncpy t n = (List.range n).map fun j => (cstr t n).getD j 0 := by
  induction n generalizing t with
  | zero => rfl
  | succ n ih =>
    rw [strncpy, ih, List.range_succ_eq_map, cstr_succ]
    split
    · simp [comp_def]
    · rename_i h
      simp_all [comp_def, List.map_const']

/-- The model goes by names as these functions do. -/
theorem names_refined (p q : ℕ → UInt8) (i : UInt16) :
    (strncmp p q DIRSIZ = 0 ↔
      namecmp ((List.range DIRSIZ).map p) ((List.range DIRSIZ).map q) = true) ∧
    strncpy p DIRSIZ = (List.range DIRSIZ).map fun j =>
      (Dirent.mk i ((List.range DIRSIZ).map p)).byte (j + 2) := by
  have hname : ∀ p, cname ((List.range DIRSIZ).map p) = cstr p DIRSIZ := fun p => by
    rw [cname, List.take_of_length_le (by simp), cstr]
  constructor
  · rw [strncmp_eq_zero, namecmp, hname, hname, beq_iff_eq]
  · rw [strncpy_eq]
    simp [Dirent.byte, hname]

end ChronoFS
