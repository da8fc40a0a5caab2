import Mathlib.Data.Nat.Bitwise
import Neptune.Lib.ByteMem

/-!
# Bitmaps in a byte memory

The bit `i` of the bitmap at `b` is the bit `i % 8` of the byte at `b + i / 8`.

* `testBit_setBit`, `testBit_clearBit` — what a change of one bit does to the others.
* `testBit_congr` — a bit depends on its own byte only.
-/

namespace ByteMem

/-- `(bitmap[idx / 8] >> (idx % 8)) & 1`. -/
def testBit (m : ByteMem) (b i : ℕ) : Bool := (m (b + i / 8)).toBitVec.getLsbD (i % 8)

/-- `bitmap[idx / 8] |= 1 << (idx % 8)`. -/
def setBit (m : ByteMem) (b i : ℕ) : ByteMem :=
  Function.update m (b + i / 8) (m (b + i / 8) ||| UInt8.ofNat (2 ^ (i % 8)))

/-- `bitmap[idx / 8] &= ~(1 << (idx % 8))`. -/
def clearBit (m : ByteMem) (b i : ℕ) : ByteMem :=
  Function.update m (b + i / 8) (m (b + i / 8) &&& ~~~(UInt8.ofNat (2 ^ (i % 8))))

theorem testBit_congr {m m' : ByteMem} {b i : ℕ} (h : m' (b + i / 8) = m (b + i / 8)) :
    m'.testBit b i = m.testBit b i := by
  rw [testBit, testBit, h]

theorem setBit_apply_of_ne (m : ByteMem) {b i x : ℕ} (h : x ≠ b + i / 8) :
    m.setBit b i x = m x := Function.update_of_ne h _ _

theorem clearBit_apply_of_ne (m : ByteMem) {b i x : ℕ} (h : x ≠ b + i / 8) :
    m.clearBit b i x = m x := Function.update_of_ne h _ _

/-- The one bit of a power of two. -/
theorem getLsbD_ofNat_two_pow {k j : ℕ} (hj : j < 8) :
    (UInt8.ofNat (2 ^ k)).toBitVec.getLsbD j = decide (k = j) := by
  have h : (UInt8.ofNat (2 ^ k)).toBitVec = BitVec.ofNat 8 (2 ^ k) := rfl
  rw [h, BitVec.getLsbD_ofNat, Nat.testBit_two_pow]
  simp [hj]

theorem testBit_setBit (m : ByteMem) (b i j : ℕ) :
    (m.setBit b i).testBit b j = (decide (j = i) || m.testBit b j) := by
  by_cases hbyte : j / 8 = i / 8
  · have hcell : m.setBit b i (b + j / 8) = m (b + i / 8) ||| UInt8.ofNat (2 ^ (i % 8)) := by
      rw [hbyte]; exact Function.update_self _ _ _
    rw [testBit, hcell, UInt8.toBitVec_or, BitVec.getLsbD_or,
      getLsbD_ofNat_two_pow (Nat.mod_lt _ (by decide)), testBit, hbyte, Bool.or_comm]
    have hiff : i % 8 = j % 8 ↔ j = i := by omega
    rw [decide_eq_decide.mpr hiff]
  · have hne : j ≠ i := fun h => hbyte (by rw [h])
    rw [testBit_congr (setBit_apply_of_ne m (by omega)), decide_eq_false hne, Bool.false_or]

theorem testBit_clearBit (m : ByteMem) (b i j : ℕ) :
    (m.clearBit b i).testBit b j = (!decide (j = i) && m.testBit b j) := by
  by_cases hbyte : j / 8 = i / 8
  · have hcell : m.clearBit b i (b + j / 8) = m (b + i / 8) &&& ~~~(UInt8.ofNat (2 ^ (i % 8))) := by
      rw [hbyte]; exact Function.update_self _ _ _
    have hj : j % 8 < 8 := Nat.mod_lt _ (by decide)
    rw [testBit, hcell, UInt8.toBitVec_and, UInt8.toBitVec_not, BitVec.getLsbD_and,
      BitVec.getLsbD_not, getLsbD_ofNat_two_pow hj, testBit, hbyte, Bool.and_comm]
    have hiff : i % 8 = j % 8 ↔ j = i := by omega
    rw [decide_eq_decide.mpr hiff, decide_eq_true hj, Bool.true_and]
  · have hne : j ≠ i := fun h => hbyte (by rw [h])
    rw [testBit_congr (clearBit_apply_of_ne m (by omega)), decide_eq_false hne, Bool.not_false,
      Bool.true_and]

end ByteMem
