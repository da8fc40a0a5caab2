import Neptune.Lib.ByteMem
import Mathlib.Data.List.TakeWhile

/-!
# Strings in memory

A string is a list of bytes other than 0 that stands in memory with a 0 behind it.

## Main definitions

* `StrAt` — a string at an address.
* `scan` — a pointer that is moved while its byte passes a test.

## Main results

* `StrAt.cut`, `StrAt.drop` — a string that is cut in two by a 0.
* `StrAt.scan_eq` — where a scan ends.
-/

/-- The string `w` is at the address `p`. -/
structure StrAt (m : ByteMem) (p : ℕ) (w : List UInt8) : Prop where
  text : m.bytes p w.length = w
  nul : m (p + w.length) = 0
  no_nul : 0 ∉ w

/-- Move a pointer while its byte passes the test, for `n` bytes at most. -/
def scan (test : UInt8 → Bool) (m : ByteMem) : ℕ → ℕ → ℕ
  | 0, p => p
  | n + 1, p => if test (m p) then scan test m n (p + 1) else p

/-- The bytes from `p` on up to a 0, of which there are less than `n`. -/
def ByteMem.cstr (m : ByteMem) (n p : ℕ) : List UInt8 := (m.bytes p n).takeWhile (· ≠ 0)

namespace StrAt

open List

variable {m m' : ByteMem} {p n k : ℕ} {w : List UInt8}

theorem byte_eq (h : StrAt m p w) (hk : k < w.length) : m (p + k) = w.getD k 0 := by
  have htext := h.text
  rw [← ByteMem.getD_bytes m p hk, htext]

theorem congr (h : StrAt m p w) (hm : ∀ x, p ≤ x → x ≤ p + w.length → m' x = m x) : StrAt m' p w := by
  refine ⟨?_, ?_, h.no_nul⟩
  · rw [ByteMem.bytes_congr fun x h1 h2 => hm x h1 (by omega), h.text]
  · rw [hm _ (by omega) le_rfl, h.nul]

theorem drop (h : StrAt m p w) (hk : k ≤ w.length) : StrAt m (p + k) (w.drop k) := by
  refine ⟨?_, ?_, fun hmem => h.no_nul (mem_of_mem_drop hmem)⟩
  · rw [length_drop, ← ByteMem.drop_bytes m p hk, h.text]
  · rw [length_drop, show p + k + (w.length - k) = p + w.length by omega, h.nul]

/-- A 0 that is written into a string ends it. -/
theorem cut (h : StrAt m p w) (hk : k ≤ w.length) : StrAt (m.store 1 (p + k) 0) p (w.take k) := by
  have hlen : (w.take k).length = k := length_take_of_le hk
  refine ⟨?_, ?_, fun hmem => h.no_nul (mem_of_mem_take hmem)⟩
  · have hbytes : (m.store 1 (p + k) 0).bytes p k = m.bytes p k :=
      ByteMem.bytes_congr fun x h1 h2 => ByteMem.store_apply_of_not_mem m (by omega)
    rw [hlen, hbytes, ← ByteMem.take_bytes m p hk, h.text]
  · rw [hlen, ByteMem.store_apply_of_mem m ⟨le_rfl, by omega⟩]
    simp

theorem store_of_gt (h : StrAt m p w) {a v : ℕ} (ha : a < p) : StrAt (m.store 1 a v) p w :=
  h.congr fun x h1 h2 => ByteMem.store_apply_of_not_mem m (by omega)

theorem cstr_eq (h : StrAt m p w) (hn : w.length < n) : m.cstr n p = w := by
  have hsplit : m.bytes p n = w ++ 0 :: m.bytes (p + w.length + 1) (n - w.length - 1) := by
    rw [show n = w.length + (1 + (n - w.length - 1)) by omega, ByteMem.bytes_add, h.text,
      ByteMem.bytes_add]
    simp [ByteMem.bytes, h.nul]
  rw [ByteMem.cstr, hsplit, takeWhile_append_of_pos]
  · simp
  · intro x hx
    exact decide_eq_true fun hzero => h.no_nul (hzero ▸ hx)

/-- A scan stops at the first byte that fails the test, at the end of the string at the latest. -/
theorem scan_eq (test : UInt8 → Bool) (h : StrAt m p w) (hzero : test 0 = false) (hn : w.length < n) :
    scan test m n p = p + (w.takeWhile test).length := by
  induction w generalizing p n with
  | nil =>
    have hnul := h.nul
    obtain ⟨n, rfl⟩ := Nat.exists_eq_add_of_lt hn
    rw [length_nil, Nat.add_zero] at hnul
    rw [scan, hnul, hzero]
    rfl
  | cons c w ih =>
    obtain ⟨n, rfl⟩ := Nat.exists_eq_succ_of_ne_zero (by omega : n ≠ 0)
    have hhead : m p = c := h.byte_eq (k := 0) (by simp)
    have htail : StrAt m (p + 1) w := h.drop (k := 1) (by simp)
    rw [length_cons] at hn
    rw [scan, hhead, takeWhile_cons]
    split
    · rw [ih htail (by omega), length_cons]
      omega
    · rfl

/-- The byte at a pointer is 0 at the end of the string. -/
theorem byte_eq_zero_iff (h : StrAt m p w) : m p = 0 ↔ w = [] := by
  cases w with
  | nil => simpa using h.nul
  | cons c w =>
    have hhead : m p = c := h.byte_eq (k := 0) (by simp)
    have hc : c ≠ 0 := fun hzero => h.no_nul (by simp [hzero])
    simp [hhead, hc]

/-- What is left of a string after a scan. -/
theorem scan_rest (test : UInt8 → Bool) (h : StrAt m p w) (hzero : test 0 = false) (hn : w.length < n) :
    StrAt m (scan test m n p) (w.dropWhile test) := by
  have hdrop : w.drop (w.takeWhile test).length = w.dropWhile test := by
    calc w.drop (w.takeWhile test).length
        = (w.takeWhile test ++ w.dropWhile test).drop (w.takeWhile test).length := by
          rw [takeWhile_append_dropWhile]
      _ = w.dropWhile test := drop_left
  rw [h.scan_eq test hzero hn, ← hdrop]
  exact h.drop (takeWhile_sublist _).length_le

/-- In a string, a test for 0 can be left out. -/
theorem span_ne_zero (h : 0 ∉ w) (sep : UInt8) :
    w.takeWhile (fun c => c ≠ 0 ∧ c ≠ sep) = w.takeWhile (· ≠ sep) ∧
      w.dropWhile (fun c => c ≠ 0 ∧ c ≠ sep) = w.dropWhile (· ≠ sep) := by
  induction w with
  | nil => exact ⟨rfl, rfl⟩
  | cons c w ih =>
    rw [mem_cons, not_or] at h
    obtain ⟨htake, hdrop⟩ := ih h.2
    have hc : c ≠ 0 := Ne.symm h.1
    by_cases hsep : c = sep
    · simp [hsep]
    · simp only [takeWhile_cons, dropWhile_cons, hc, hsep, ne_eq, not_false_eq_true, and_self,
        decide_true, if_true, htake, hdrop]

/-- Bytes with a 0 among them begin with a string. -/
theorem of_bytes {l : List UInt8} (hl : m.bytes p l.length = l) (hzero : 0 ∈ l) :
    StrAt m p (l.takeWhile (· ≠ 0)) := by
  obtain ⟨w, rest, rfl, hw⟩ : ∃ w rest, l = w ++ 0 :: rest ∧ 0 ∉ w := eq_append_cons_of_mem hzero
  have htake : (w ++ 0 :: rest).takeWhile (· ≠ 0) = w := by
    rw [takeWhile_append_of_pos]
    · simp
    · intro x hx
      exact decide_eq_true fun h => hw (h ▸ hx)
  rw [htake]
  refine ⟨?_, ?_, hw⟩
  · rw [← ByteMem.take_bytes m p (by simp : w.length ≤ (w ++ 0 :: rest).length), hl, take_left]
  · have hbyte := ByteMem.getD_bytes m p (by simp : w.length < (w ++ 0 :: rest).length)
    rw [hl] at hbyte
    rw [← hbyte]
    simp

end StrAt
