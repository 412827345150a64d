import ChronoFS.Params
import ChronoFS.Lib.Bytes

/-!
# Disk blocks

A block is `BSIZE` bytes. `Block.get` reads a byte, `Block.put` is the `memmove` of a run of bytes
into a block, and `Block.word` and `Block.setWord` read and write the block as an array of `uint`,
which is how the log header and the indirect blocks are used. `Block.bit`, `Block.setBit` and
`Block.clearBit` are for the bitmap.
-/

namespace ChronoFS

open Bytes

/-- The contents of a disk block or buffer, `uchar data[BSIZE]`. -/
@[ext]
structure Block where
  /-- The bytes. -/
  byte : Fin BSIZE → UInt8

namespace Block

/-- Byte `i`, or `0` past the end. -/
def get (b : Block) (i : ℕ) : UInt8 := if h : i < BSIZE then b.byte ⟨i, h⟩ else 0

/-- The block with the first `BSIZE` bytes of `f`. -/
def ofFn (f : ℕ → UInt8) : Block := ⟨fun i => f i⟩

/-- The block of zeroes, `memset(data, 0, BSIZE)`. -/
def zero : Block := ofFn fun _ => 0

/-- `memmove(data + off, f, len)`. -/
def put (b : Block) (off len : ℕ) (f : ℕ → UInt8) : Block :=
  ofFn fun i => if off ≤ i ∧ i < off + len then f (i - off) else b.get i

/-- Entry `k` of the block read as an array of `uint`. -/
def word (b : Block) (k : ℕ) : UInt32 := le32 b.get (4 * k)

/-- The block with `v` stored in entry `k` of the array of `uint`. -/
def setWord (b : Block) (k : ℕ) (v : UInt32) : Block := b.put (4 * k) 4 (byte32 v)

/-- Bit `i` of the block read as a bitmap, `(data[i/8] & (1 << (i % 8))) != 0`. -/
def bit (b : Block) (i : ℕ) : Bool := b.get (i / 8) &&& mask (i % 8) != 0

/-- The block with bit `i` set, `data[i/8] |= 1 << (i % 8)`. -/
def setBit (b : Block) (i : ℕ) : Block := b.put (i / 8) 1 fun _ => b.get (i / 8) ||| mask (i % 8)

/-- The block with bit `i` cleared, `data[i/8] &= ~(1 << (i % 8))`. -/
def clearBit (b : Block) (i : ℕ) : Block :=
  b.put (i / 8) 1 fun _ => b.get (i / 8) &&& ~~~mask (i % 8)

theorem get_ofFn (f : ℕ → UInt8) {i : ℕ} (h : i < BSIZE) : (ofFn f).get i = f i := by
  simp [get, ofFn, h]

@[simp]
theorem get_zero (i : ℕ) : zero.get i = 0 := by
  simp [get, zero, ofFn]

/-- The bytes that `put` moves in. -/
theorem get_put_of_mem (b : Block) {off len i : ℕ} (f : ℕ → UInt8) (h : off ≤ i)
    (h' : i < off + len) (hi : i < BSIZE) : (b.put off len f).get i = f (i - off) := by
  rw [put, get_ofFn _ hi, if_pos ⟨h, h'⟩]

/-- The bytes that `put` leaves alone. -/
theorem get_put_of_not_mem (b : Block) {off len i : ℕ} (f : ℕ → UInt8)
    (h : i < off ∨ off + len ≤ i) : (b.put off len f).get i = b.get i := by
  by_cases hi : i < BSIZE
  · rw [put, get_ofFn _ hi, if_neg (by omega)]
  · simp [get, hi]

/-- An entry is read back as it was stored. -/
@[simp]
theorem word_setWord (b : Block) {k : ℕ} (v : UInt32) (h : k < NINDIRECT) :
    (b.setWord k v).word k = v := by
  apply le32_byte32
  intro j hj
  rw [setWord, get_put_of_mem b _ (by omega) (by omega) (by simp only [BSIZE, NINDIRECT] at *; omega)]
  congr 1
  omega

/-- Storing an entry leaves the others alone. -/
theorem word_setWord_ne (b : Block) {k k' : ℕ} (v : UInt32) (h : k' ≠ k) :
    (b.setWord k v).word k' = b.word k' := by
  apply le32_congr
  intro j hj
  exact get_put_of_not_mem b _ (by omega)

/-- Every entry of the block of zeroes is zero. -/
@[simp]
theorem word_zero (k : ℕ) : zero.word k = 0 := by
  simp [word, le32]

/-- Setting a bit sets that bit and no other. -/
theorem bit_setBit (b : Block) {i j : ℕ} (hi : i < BPB) :
    (b.setBit i).bit j = (b.bit j || decide (i = j)) := by
  simp only [BPB, BSIZE] at hi
  unfold bit
  by_cases h : i / 8 = j / 8
  · -- the two bits are in one byte
    have hget : (b.setBit i).get (j / 8) = b.get (j / 8) ||| mask (i % 8) := by
      rw [setBit, get_put_of_mem b _ (by omega) (by omega) (by simp only [BSIZE]; omega), h]
    rw [hget, and_mask (by omega), and_mask (by omega), testBit_or_mask (by omega)]
    congr 2
    apply propext
    omega
  · rw [setBit, get_put_of_not_mem b _ (by omega), decide_eq_false (by rintro rfl; exact h rfl),
      Bool.or_false]

/-- Clearing a bit clears that bit and no other. -/
theorem bit_clearBit (b : Block) {i j : ℕ} (hi : i < BPB) :
    (b.clearBit i).bit j = (b.bit j && !decide (i = j)) := by
  simp only [BPB, BSIZE] at hi
  unfold bit
  by_cases h : i / 8 = j / 8
  · have hget : (b.clearBit i).get (j / 8) = b.get (j / 8) &&& ~~~mask (i % 8) := by
      rw [clearBit, get_put_of_mem b _ (by omega) (by omega) (by simp only [BSIZE]; omega), h]
    rw [hget, and_mask (by omega), and_mask (by omega),
      testBit_and_not_mask (by omega) (by omega)]
    congr 3
    apply propext
    omega
  · rw [clearBit, get_put_of_not_mem b _ (by omega), decide_eq_false (by rintro rfl; exact h rfl),
      Bool.not_false, Bool.and_true]

end Block

end ChronoFS
