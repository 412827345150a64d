import Mathlib.Data.Nat.Bitwise
import Mathlib.Tactic.IntervalCases

/-!
# Little-endian words in byte sequences

A byte sequence is a function `ℕ → UInt8`. `le16` and `le32` read the little-endian word at an
offset, and `byte16` and `byte32` are the bytes of a word. The two directions are inverse
(`le16_byte16`, `le32_byte32`), and a word depends on its own bytes only (`le16_congr`,
`le32_congr`). A record that is laid out in bytes is read back field by field with these.

A byte is also an array of bits: `mask p` is the byte with bit `p` set, and setting or clearing it
changes that bit only.
-/

namespace Bytes

/-- The 16-bit little-endian word at offset `o`. -/
def le16 (f : ℕ → UInt8) (o : ℕ) : UInt16 :=
  .ofNat ((f o).toNat + 256 * (f (o + 1)).toNat)

/-- The 32-bit little-endian word at offset `o`. -/
def le32 (f : ℕ → UInt8) (o : ℕ) : UInt32 :=
  .ofNat ((f o).toNat + 256 * (f (o + 1)).toNat + 65536 * (f (o + 2)).toNat
    + 16777216 * (f (o + 3)).toNat)

/-- Byte `k` of a 16-bit word. -/
def byte16 (v : UInt16) (k : ℕ) : UInt8 := .ofNat (v.toNat / 256 ^ k)

/-- Byte `k` of a 32-bit word. -/
def byte32 (v : UInt32) (k : ℕ) : UInt8 := .ofNat (v.toNat / 256 ^ k)

/-- A 16-bit word is read back from its bytes. -/
theorem le16_byte16 (f : ℕ → UInt8) (o : ℕ) (v : UInt16)
    (h : ∀ k < 2, f (o + k) = byte16 v k) : le16 f o = v := by
  have h0 := h 0 (by omega)
  have h1 := h 1 (by omega)
  rw [Nat.add_zero] at h0
  have hv := v.toNat_lt
  rw [← UInt16.toNat_inj]
  simp only [le16, h0, h1, byte16, UInt8.toNat_ofNat', UInt16.toNat_ofNat']
  omega

/-- A 32-bit word is read back from its bytes. -/
theorem le32_byte32 (f : ℕ → UInt8) (o : ℕ) (v : UInt32)
    (h : ∀ k < 4, f (o + k) = byte32 v k) : le32 f o = v := by
  have h0 := h 0 (by omega)
  have h1 := h 1 (by omega)
  have h2 := h 2 (by omega)
  have h3 := h 3 (by omega)
  rw [Nat.add_zero] at h0
  have hv := v.toNat_lt
  rw [← UInt32.toNat_inj]
  simp only [le32, h0, h1, h2, h3, byte32, UInt8.toNat_ofNat', UInt32.toNat_ofNat']
  omega

/-- A 16-bit word depends on its own two bytes only. -/
theorem le16_congr {f g : ℕ → UInt8} {o : ℕ} (h : ∀ k < 2, f (o + k) = g (o + k)) :
    le16 f o = le16 g o := by
  have h0 := h 0 (by omega)
  have h1 := h 1 (by omega)
  rw [Nat.add_zero] at h0
  simp only [le16, h0, h1]

/-- A 32-bit word depends on its own four bytes only. -/
theorem le32_congr {f g : ℕ → UInt8} {o : ℕ} (h : ∀ k < 4, f (o + k) = g (o + k)) :
    le32 f o = le32 g o := by
  have h0 := h 0 (by omega)
  have h1 := h 1 (by omega)
  have h2 := h 2 (by omega)
  have h3 := h 3 (by omega)
  rw [Nat.add_zero] at h0
  simp only [le32, h0, h1, h2, h3]

/-! ## Bits -/

/-- The byte with bit `p` set, `1 << p`. -/
def mask (p : ℕ) : UInt8 := 1 <<< UInt8.ofNat p

theorem toNat_mask {p : ℕ} (h : p < 8) : (mask p).toNat = 2 ^ p := by
  interval_cases p <;> rfl

/-- The `and` with a mask is nonzero when the bit is set. -/
theorem and_mask {x : UInt8} {p : ℕ} (h : p < 8) : (x &&& mask p != 0) = x.toNat.testBit p := by
  have hzero : (x &&& mask p = 0) ↔ x.toNat.testBit p = false := by
    rw [← UInt8.toNat_inj, UInt8.toNat_and, toNat_mask h, Nat.and_two_pow]
    cases x.toNat.testBit p <;> simp
  cases hx : x.toNat.testBit p <;> simp_all

theorem testBit_or_mask {x : UInt8} {p q : ℕ} (hp : p < 8) :
    (x ||| mask p).toNat.testBit q = (x.toNat.testBit q || decide (p = q)) := by
  rw [UInt8.toNat_or, toNat_mask hp, Nat.testBit_or, Nat.testBit_two_pow]

theorem testBit_and_not_mask {x : UInt8} {p q : ℕ} (hp : p < 8) (hq : q < 8) :
    (x &&& ~~~mask p).toNat.testBit q = (x.toNat.testBit q && !decide (p = q)) := by
  have hlt : 2 ^ p < 2 ^ 8 := Nat.pow_lt_pow_right (by decide) hp
  have hnot : (~~~mask p).toNat = 2 ^ 8 - (2 ^ p + 1) := by
    rw [UInt8.toNat_not, toNat_mask hp]
    simp only [UInt8.size]
    omega
  rw [UInt8.toNat_and, hnot, Nat.testBit_and, Nat.testBit_two_pow_sub_succ hlt,
    Nat.testBit_two_pow]
  simp [hq]

end Bytes
