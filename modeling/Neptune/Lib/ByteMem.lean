import Mathlib.Data.Nat.ModEq
import Mathlib.Tactic.Ring
import Mathlib.Tactic.Linarith

/-!
# Byte memories

A memory is a function from addresses to bytes.  A load of `n` bytes reads a
little-endian number and a store of `n` bytes writes one; everything a proof
needs of them is that a load sees the last store to the same place
(`load_store_self`), does not see a store elsewhere (`load_store_of_disjoint`)
and reads nothing but its own `n` bytes (`load_congr`).

## Main definitions

* `ByteMem` — a memory.
* `ByteMem.load m n a`, `ByteMem.store m n a v` — `n`-byte accesses at `a`.
* `ByteMem.fill m n a b` — `n` bytes from `a` on set to `b`.
* `ByteMem.bytes m a n`, `ByteMem.blit m a l` — the `n` bytes from `a` on as a list, and a
  list written from `a` on.
* `ByteMem.leBytes n v`, `ByteMem.leNat l` — numbers as lists of bytes and back.
-/

/-- A byte-addressed memory. -/
def ByteMem := ℕ → UInt8

namespace ByteMem

open List

/-- The little-endian number in the `n` bytes from `a` on. -/
def load (m : ByteMem) : ℕ → ℕ → ℕ
  | 0, _ => 0
  | n + 1, a => (m a).toNat + 256 * load m n (a + 1)

/-- Write the low `n` bytes of `v` from `a` on. -/
def store (m : ByteMem) (n a v : ℕ) : ByteMem :=
  fun x => if a ≤ x ∧ x < a + n then UInt8.ofNat (v / 256 ^ (x - a)) else m x

/-- Set `n` bytes from `a` on to `b`. -/
def fill (m : ByteMem) (n a : ℕ) (b : UInt8) : ByteMem :=
  fun x => if a ≤ x ∧ x < a + n then b else m x

/-- Overwrite the bytes from `a` on with a list. -/
def blit (m : ByteMem) (a : ℕ) (l : List UInt8) : ByteMem :=
  fun x => if a ≤ x ∧ x < a + l.length then l.getD (x - a) 0 else m x

theorem store_apply_of_mem {n a v x : ℕ} (m : ByteMem) (h : a ≤ x ∧ x < a + n) :
    m.store n a v x = UInt8.ofNat (v / 256 ^ (x - a)) := if_pos h

theorem store_apply_of_not_mem {n a v x : ℕ} (m : ByteMem) (h : ¬(a ≤ x ∧ x < a + n)) :
    m.store n a v x = m x := if_neg h

theorem load_lt (m : ByteMem) : ∀ n a : ℕ, m.load n a < 256 ^ n := by
  intro n
  induction n with
  | zero => intro a; simp [load]
  | succ n ih =>
    intro a
    have h1 := ih (a + 1)
    have h2 := (m a).toNat_lt
    rw [load, pow_succ]
    omega

/-- A load reads nothing but its own bytes. -/
theorem load_congr {m m' : ByteMem} : ∀ {n a : ℕ},
    (∀ x, a ≤ x → x < a + n → m' x = m x) → m'.load n a = m.load n a := by
  intro n
  induction n with
  | zero => intro a _; rfl
  | succ n ih =>
    intro a h
    rw [load, load, h a le_rfl (by omega), ih fun x h1 h2 => h x (by omega) (by omega)]

/-- Bytes that spell `v` load as `v`. -/
theorem load_of_bytes {m : ByteMem} : ∀ {n a v : ℕ},
    (∀ i, i < n → m (a + i) = UInt8.ofNat (v / 256 ^ i)) → m.load n a = v % 256 ^ n := by
  intro n
  induction n with
  | zero => intro a v _; simp [load, Nat.mod_one]
  | succ n ih =>
    intro a v h
    have hhead : (m a).toNat = v % 256 := by
      have := h 0 (by omega)
      simp only [Nat.add_zero, pow_zero, Nat.div_one] at this
      rw [this, UInt8.toNat_ofNat']
    have htail : m.load n (a + 1) = v / 256 % 256 ^ n := by
      refine ih fun i hi => ?_
      rw [Nat.div_div_eq_div_mul, ← Nat.pow_succ', ← h (i + 1) (by omega)]
      congr 1
      omega
    rw [load, hhead, htail, Nat.pow_succ', Nat.mod_mul]

@[simp] theorem load_store_self (m : ByteMem) (n a v : ℕ) :
    (m.store n a v).load n a = v % 256 ^ n := by
  refine load_of_bytes fun i hi => ?_
  rw [store_apply_of_mem m ⟨by omega, by omega⟩, Nat.add_sub_cancel_left]

theorem load_store_of_disjoint {n k a b v : ℕ} (m : ByteMem) (h : a + n ≤ b ∨ b + k ≤ a) :
    (m.store n a v).load k b = m.load k b :=
  load_congr fun x h1 h2 => store_apply_of_not_mem m (by omega)

/-- A part of a stored number. -/
theorem load_store_part {n k a i v : ℕ} (m : ByteMem) (h : i + k ≤ n) :
    (m.store n a v).load k (a + i) = v / 256 ^ i % 256 ^ k := by
  refine load_of_bytes fun j hj => ?_
  rw [store_apply_of_mem m ⟨by omega, by omega⟩, Nat.div_div_eq_div_mul, ← Nat.pow_add]
  congr 3
  omega

theorem load_fill_of_disjoint {n k a b : ℕ} {v : UInt8} (m : ByteMem)
    (h : a + n ≤ b ∨ b + k ≤ a) : (m.fill n a v).load k b = m.load k b :=
  load_congr fun x h1 h2 => if_neg (by omega)

/-! ### Lists of bytes -/

/-- The `n` bytes from `a` on. -/
def bytes (m : ByteMem) (a n : ℕ) : List UInt8 := (List.range n).map fun i => m (a + i)

@[simp] theorem length_bytes (m : ByteMem) (a n : ℕ) : (m.bytes a n).length = n := by
  simp [bytes]

theorem bytes_add (m : ByteMem) (a n k : ℕ) :
    m.bytes a (n + k) = m.bytes a n ++ m.bytes (a + n) k := by
  rw [bytes, bytes, bytes, range_add, map_append, map_map]
  congr 1
  refine map_congr_left fun i _ => ?_
  simp only [Function.comp_apply, Nat.add_assoc]

theorem bytes_succ (m : ByteMem) (a n : ℕ) : m.bytes a (n + 1) = m.bytes a n ++ [m (a + n)] :=
  m.bytes_add a n 1

theorem bytes_congr {m m' : ByteMem} {a n : ℕ} (h : ∀ x, a ≤ x → x < a + n → m' x = m x) :
    m'.bytes a n = m.bytes a n :=
  map_congr_left fun i hi => h _ (by omega) (by have := mem_range.mp hi; omega)

theorem blit_apply_of_not_mem {a x : ℕ} {l : List UInt8} (m : ByteMem)
    (h : ¬(a ≤ x ∧ x < a + l.length)) : m.blit a l x = m x := if_neg h

theorem blit_apply {a i : ℕ} {l : List UInt8} (m : ByteMem) (h : i < l.length) :
    m.blit a l (a + i) = l[i] := by
  rw [blit, if_pos ⟨by omega, by omega⟩, Nat.add_sub_cancel_left, getD_eq_getElem?_getD,
    getElem?_eq_getElem h, Option.getD_some]

@[simp] theorem bytes_blit_self (m : ByteMem) (a : ℕ) (l : List UInt8) :
    (m.blit a l).bytes a l.length = l := by
  refine ext_getElem (by simp) fun i hi hi' => ?_
  simp only [bytes, getElem_map, getElem_range]
  exact m.blit_apply hi'

theorem bytes_blit_of_disjoint {a b n : ℕ} {l : List UInt8} (m : ByteMem)
    (h : a + l.length ≤ b ∨ b + n ≤ a) : (m.blit a l).bytes b n = m.bytes b n :=
  bytes_congr fun x h1 h2 => m.blit_apply_of_not_mem (by omega)

theorem take_bytes (m : ByteMem) (a : ℕ) {n k : ℕ} (h : k ≤ n) :
    (m.bytes a n).take k = m.bytes a k := by
  obtain ⟨r, rfl⟩ := Nat.exists_eq_add_of_le h
  rw [bytes_add, take_left' (m.length_bytes a k)]

theorem drop_bytes (m : ByteMem) (a : ℕ) {n k : ℕ} (h : k ≤ n) :
    (m.bytes a n).drop k = m.bytes (a + k) (n - k) := by
  obtain ⟨r, rfl⟩ := Nat.exists_eq_add_of_le h
  rw [bytes_add, drop_left' (m.length_bytes a k), Nat.add_sub_cancel_left]

theorem getD_bytes (m : ByteMem) (a : ℕ) {n i : ℕ} (h : i < n) :
    (m.bytes a n).getD i 0 = m (a + i) := by
  rw [getD_eq_getElem?_getD, getElem?_eq_getElem (by simpa using h), Option.getD_some]
  simp [bytes]

/-- Writing what is there changes nothing. -/
@[simp] theorem blit_bytes (m : ByteMem) (a n : ℕ) : m.blit a (m.bytes a n) = m := by
  funext x
  by_cases hx : a ≤ x ∧ x < a + n
  · obtain ⟨i, rfl⟩ := Nat.exists_eq_add_of_le hx.1
    rw [blit_apply m (by simp; omega)]
    simp [bytes]
  · exact m.blit_apply_of_not_mem (by simpa using hx)

@[simp] theorem blit_nil (m : ByteMem) (a : ℕ) : m.blit a [] = m :=
  funext fun _ => m.blit_apply_of_not_mem (by simp)

theorem blit_append (m : ByteMem) (a : ℕ) (l l' : List UInt8) :
    m.blit a (l ++ l') = (m.blit a l).blit (a + l.length) l' := by
  funext x
  by_cases hin : a + l.length ≤ x ∧ x < a + l.length + l'.length
  · obtain ⟨i, rfl⟩ := Nat.exists_eq_add_of_le hin.1
    rw [blit_apply _ (by omega), Nat.add_assoc, blit_apply _ (by simp; omega)]
    simp
  · rw [blit_apply_of_not_mem (m.blit a l) hin]
    by_cases hl : a ≤ x ∧ x < a + l.length
    · obtain ⟨i, rfl⟩ := Nat.exists_eq_add_of_le hl.1
      have hi : i < l.length := by omega
      rw [blit_apply m hi, blit_apply m (length_append ▸ Nat.lt_add_right _ hi), getElem_append_left hi]
    · rw [blit_apply_of_not_mem m hl, blit_apply_of_not_mem m (by simp; omega)]

/-! ### Little-endian numbers in a list -/

/-- The low `n` bytes of `v`. -/
def leBytes (n v : ℕ) : List UInt8 := (List.range n).map fun i => UInt8.ofNat (v / 256 ^ i)

@[simp] theorem length_leBytes (n v : ℕ) : (leBytes n v).length = n := by simp [leBytes]

theorem blit_leBytes (m : ByteMem) (a n v : ℕ) : m.blit a (leBytes n v) = m.store n a v := by
  funext x
  by_cases hx : a ≤ x ∧ x < a + n
  · obtain ⟨i, rfl⟩ := Nat.exists_eq_add_of_le hx.1
    rw [blit_apply m (by simp; omega), store_apply_of_mem m hx, Nat.add_sub_cancel_left]
    simp [leBytes]
  · rw [blit_apply_of_not_mem m (by simpa using hx), store_apply_of_not_mem m hx]

/-- The little-endian number a list spells. -/
def leNat : List UInt8 → ℕ
  | [] => 0
  | b :: l => b.toNat + 256 * leNat l

theorem leNat_bytes (m : ByteMem) : ∀ n a : ℕ, leNat (m.bytes a n) = m.load n a := by
  intro n
  induction n with
  | zero => intro a; simp [bytes, leNat, load]
  | succ n ih =>
    intro a
    have hsplit : m.bytes a (n + 1) = m a :: m.bytes (a + 1) n := by
      rw [Nat.add_comm n 1, bytes_add]
      rfl
    rw [hsplit, leNat, load, ih]

/-- A number written and read back. -/
theorem leNat_leBytes (n v : ℕ) : leNat (leBytes n v) = v % 256 ^ n := by
  let m : ByteMem := fun _ => 0
  have hself := m.bytes_blit_self 0 (leBytes n v)
  rw [length_leBytes, blit_leBytes] at hself
  rw [← hself, leNat_bytes, load_store_self]

-- the lemmas above are all a proof about stored data needs; unfolding a word of
-- memory into its bytes only makes unification expensive
attribute [irreducible] load store

end ByteMem
