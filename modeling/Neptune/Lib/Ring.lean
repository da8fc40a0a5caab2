import Mathlib.Data.List.Basic
import Mathlib.Data.Nat.ModEq

/-!
# Ring buffers

The contents of a ring buffer are the cells from its start on, taken modulo its
capacity.  Storing at the end appends and advancing the start drops the head, so
a ring buffer is a first-in first-out queue.
-/


variable {α : Type*}

/-- The `len` cells from `start` on, modulo the capacity. -/
def ringContents (cells : ℕ → α) (cap start len : ℕ) : List α :=
  (List.range len).map fun i => cells ((start + i) % cap)

theorem ringContents_zero (cells : ℕ → α) (cap start : ℕ) :
    ringContents cells cap start 0 = [] := rfl

theorem length_ringContents (cells : ℕ → α) (cap start len : ℕ) :
    (ringContents cells cap start len).length = len := by
  rw [ringContents, List.length_map, List.length_range]

/-- Two offsets below the capacity are in different cells. -/
theorem ring_index_ne {cap start i j : ℕ} (hi : i < j) (hj : j < cap) :
    (start + i) % cap ≠ (start + j) % cap := by
  intro h
  have hmod : Nat.ModEq cap i j := Nat.ModEq.add_left_cancel' start h
  have hij : i = j := by
    rw [Nat.ModEq, Nat.mod_eq_of_lt (hi.trans hj), Nat.mod_eq_of_lt hj] at hmod
    exact hmod
  omega

/-- A value stored behind the last cell is appended. -/
theorem ringContents_put (cells : ℕ → α) {cap start len : ℕ} (h : len < cap) (v : α) :
    ringContents (Function.update cells ((start + len) % cap) v) cap start (len + 1) =
      ringContents cells cap start len ++ [v] := by
  rw [ringContents, List.range_succ, List.map_append]
  congr 1
  · refine List.map_congr_left fun i hi => ?_
    exact Function.update_of_ne (ring_index_ne (List.mem_range.mp hi) h) _ _
  · simp

/-- The first cell is the head, and the rest starts one cell further. -/
theorem ringContents_get (cells : ℕ → α) {cap start len : ℕ} :
    ringContents cells cap start (len + 1) =
      cells (start % cap) :: ringContents cells cap ((start + 1) % cap) len := by
  rw [ringContents, ringContents, List.range_succ_eq_map, List.map_cons, List.map_map]
  refine congrArg₂ _ rfl (List.map_congr_left fun i _ => ?_)
  show cells ((start + (i + 1)) % cap) = cells (((start + 1) % cap + i) % cap)
  rw [Nat.mod_add_mod, Nat.add_assoc, Nat.add_comm 1 i]

