import Mathlib.Data.List.Basic
import Mathlib.Data.Nat.Bitwise
import Mathlib.Tactic.Ring
import Mathlib.Tactic.Linarith

/-!
# Sixty-four bit words as natural numbers

Unsigned machine words are natural numbers; `u64` is the reduction a machine
addition or multiplication ends with and `not64` the bitwise complement.  The
one bit trick used throughout is rounding by masking: clearing the bits below a
power of two is `x / a * a` (`and_not64_sub_one`), so `alignDown` and `alignUp`
round to multiples of the alignment.
-/

namespace Word64

/-- Reduction to 64 bits. -/
def u64 (x : ℕ) : ℕ := x % 2 ^ 64

/-- Bitwise complement of a 64-bit word. -/
def not64 (x : ℕ) : ℕ := 2 ^ 64 - 1 - x

/-- An unsigned word read as a signed one. -/
def int64 (n : ℕ) : ℤ :=
  if n % 2 ^ 64 < 2 ^ 63 then (n % 2 ^ 64 : ℕ) else (n % 2 ^ 64 : ℕ) - 2 ^ 64

/-- `value & ~(align - 1)`. -/
def alignDown (value align : ℕ) : ℕ := value &&& not64 (align - 1)

/-- `(value + align - 1) & ~(align - 1)`. -/
def alignUp (value align : ℕ) : ℕ := u64 (value + align - 1) &&& not64 (align - 1)

theorem u64_of_lt {x : ℕ} (h : x < 2 ^ 64) : u64 x = x := Nat.mod_eq_of_lt h

theorem int64_of_lt {n : ℕ} (h : n < 2 ^ 63) : int64 n = n := by
  rw [int64, if_pos (by omega)]
  omega

theorem u64_lt (x : ℕ) : u64 x < 2 ^ 64 := Nat.mod_lt _ (by norm_num)

theorem testBit_not64_two_pow {k i : ℕ} (hk : k ≤ 64) :
    (not64 (2 ^ k - 1)).testBit i = (decide (k ≤ i) && decide (i < 64)) := by
  have hle : 2 ^ k ≤ 2 ^ 64 := Nat.pow_le_pow_right (by norm_num) hk
  have hpos : 0 < 2 ^ k := Nat.two_pow_pos k
  have hfac : not64 (2 ^ k - 1) = 2 ^ k * (2 ^ (64 - k) - 1) := by
    have hmul : 2 ^ k * 2 ^ (64 - k) = 2 ^ 64 := by
      rw [← pow_add]; congr 1; omega
    rw [Nat.mul_sub, hmul, Nat.mul_one, not64]
    omega
  rw [hfac, Nat.testBit_two_pow_mul, Nat.testBit_two_pow_sub_one]
  by_cases h : k ≤ i
  · have : (i - k < 64 - k) ↔ i < 64 := by omega
    simp [h, this]
  · simp [h]

/-- Masking off the bits below a power of two rounds down to a multiple of it. -/
theorem and_not64_sub_one {x k : ℕ} (hx : x < 2 ^ 64) (hk : k ≤ 64) :
    x &&& not64 (2 ^ k - 1) = x / 2 ^ k * 2 ^ k := by
  apply Nat.eq_of_testBit_eq
  intro i
  rw [Nat.testBit_and, testBit_not64_two_pow hk, Nat.mul_comm, Nat.testBit_two_pow_mul,
    Nat.testBit_div_two_pow]
  by_cases h : k ≤ i
  · rw [show i - k + k = i by omega]
    by_cases hi : i < 64
    · simp [h, hi]
    · have : x.testBit i = false := by
        refine Nat.testBit_lt_two_pow (lt_of_lt_of_le hx ?_)
        exact Nat.pow_le_pow_right (by norm_num) (by omega)
      simp [this]
  · simp [h]

theorem alignDown_eq {x a k : ℕ} (ha : a = 2 ^ k) (hx : x < 2 ^ 64) (hk : k ≤ 64) :
    alignDown x a = x / a * a := by
  rw [alignDown, ha, and_not64_sub_one hx hk]

/-- Rounding up, as long as the sum does not wrap. -/
theorem alignUp_eq {x a k : ℕ} (ha : a = 2 ^ k) (hx : x + a - 1 < 2 ^ 64) (hk : k ≤ 64) :
    alignUp x a = (x + a - 1) / a * a := by
  rw [alignUp, u64_of_lt hx, ha, and_not64_sub_one (by rw [← ha]; exact hx) hk]

/-- What a caller knows of a value rounded up: it is a multiple of the
alignment, at least the value and less than one alignment above it. -/
theorem alignUp_spec {x a k : ℕ} (ha : a = 2 ^ k) (hx : x + a - 1 < 2 ^ 64) (hk : k ≤ 64) :
    x ≤ alignUp x a ∧ alignUp x a < x + a ∧ alignUp x a % a = 0 := by
  have hpos : 0 < a := by rw [ha]; exact Nat.two_pow_pos k
  rw [alignUp_eq ha hx hk]
  have h1 := Nat.div_add_mod (x + a - 1) a
  have h2 := Nat.mod_lt (x + a - 1) hpos
  have h3 : (x + a - 1) / a * a = a * ((x + a - 1) / a) := Nat.mul_comm _ _
  refine ⟨by omega, by omega, ?_⟩
  exact Nat.mul_mod_left _ _

/-- Clearing the bits of `m` takes away at most `m`. -/
theorem le_and_not64_add {x m : ℕ} (hx : x < 2 ^ 64) (hm : m < 2 ^ 64) :
    x ≤ (x &&& not64 m) + m := by
  let X := BitVec.ofNat 64 x
  let M := BitVec.ofNat 64 m
  have hX : X.toNat = x := Nat.mod_eq_of_lt hx
  have hM : M.toNat = m := Nat.mod_eq_of_lt hm
  have hsplit : (X &&& ~~~M) + (X &&& M) = X := by
    rw [BitVec.add_eq_or_of_and_eq_zero] <;> ext i <;> simp <;> grind
  have hdisj : (X &&& ~~~M) &&& (X &&& M) = 0#64 := by
    ext i
    simp
    grind
  have hadd := BitVec.toNat_add_of_and_eq_zero hdisj
  rw [hsplit, BitVec.toNat_and, BitVec.toNat_and, BitVec.toNat_not, hX, hM] at hadd
  have hle : x &&& m ≤ m := Nat.and_le_right
  unfold not64
  omega

/-- Rounding up never goes down, nor up by as much as the alignment, whether or
not the alignment is a power of two. -/
theorem alignUp_bounds {x a : ℕ} (ha : 0 < a) (hx : x + a - 1 < 2 ^ 64) :
    x ≤ alignUp x a ∧ alignUp x a < x + a := by
  have h1 := le_and_not64_add hx (m := a - 1) (by omega)
  have h2 : (x + a - 1) &&& not64 (a - 1) ≤ x + a - 1 := Nat.and_le_left
  rw [alignUp, u64_of_lt hx]
  omega

end Word64
