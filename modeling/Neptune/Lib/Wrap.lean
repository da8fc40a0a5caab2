import Mathlib.Data.List.DropRight
import Mathlib.Data.List.GetD
import Mathlib.Data.List.Range

/-!
# Wrapped text

A text is a list of characters, one of which ends a line.  Its lines are cut into rows of `n`
characters.  A row ends as soon as it is full, so that a line whose rows are all full has an empty row
after them.

## Main definitions

* `wrapLine`, `wrapText` — the rows of a line and of a text.
* `glyph` — what a page of the last `h` rows shows at a position.

## Main results

* `wrapText_concat` — the rows of a text with one character more.
* `glyph_concat_nil`, `glyph_concat_char` — what happens to the page.
-/

section Rows

open List

variable {α : Type*}

/-- The rows of a line. -/
def wrapLine (n : ℕ) (l : List α) : List (List α) :=
  (List.range (l.length / n + 1)).map fun i => (l.drop (n * i)).take n

/-- The rows of a text. -/
def wrapText [BEq α] (n : ℕ) (newline : α) (text : List α) : List (List α) :=
  (text.splitOn newline).flatMap (wrapLine n)

variable {n : ℕ} {l : List α}

/-- The rows of a line are full ones and what is left. -/
theorem wrapLine_eq (l : List α) (hn : 0 < n) : wrapLine n l =
    ((List.range (l.length / n)).map fun i => (l.drop (n * i)).take n)
      ++ [l.drop (n * (l.length / n))] := by
  rw [wrapLine, range_succ, map_append, map_singleton]
  congr 2
  refine take_of_length_le ?_
  have hdiv := Nat.div_add_mod l.length n
  have hmod := Nat.mod_lt l.length hn
  rw [length_drop]
  omega

/-- The rows of a line with one character more. -/
theorem wrapLine_concat (l : List α) (hn : 0 < n) : ∃ full last, wrapLine n l = full ++ [last] ∧
    last.length < n ∧ ∀ c, wrapLine n (l ++ [c]) =
      if last.length + 1 < n then full ++ [last ++ [c]] else full ++ [last ++ [c], []] := by
  obtain ⟨q, hq⟩ : ∃ q, l.length / n = q := ⟨_, rfl⟩
  have hdiv := Nat.div_add_mod l.length n
  have hmod := Nat.mod_lt l.length hn
  rw [hq] at hdiv
  have hlast : (l.drop (n * q)).length = l.length % n := by
    rw [length_drop]
    omega
  refine ⟨_, _, hq ▸ wrapLine_eq l hn, by rwa [hlast], fun c => ?_⟩
  -- the full rows stay as they are
  have hfull : ((List.range q).map fun i => ((l ++ [c]).drop (n * i)).take n)
      = (List.range q).map fun i => (l.drop (n * i)).take n := by
    refine map_congr_left fun i hi => ?_
    have hrow : n * i + n ≤ n * q := by
      rw [← Nat.mul_succ]
      exact Nat.mul_le_mul_left n (mem_range.mp hi)
    rw [drop_append_of_le_length (by omega), take_append_of_le_length]
    rw [length_drop]
    omega
  have hdrop : (l ++ [c]).drop (n * q) = l.drop (n * q) ++ [c] :=
    drop_append_of_le_length (by omega)
  rw [wrapLine_eq _ hn, hlast, length_append, length_singleton]
  split
  · next hroom =>
    have hsame : (l.length + 1) / n = q := by
      refine Nat.div_eq_of_lt_le ?_ ?_
      · rw [Nat.mul_comm]
        omega
      · rw [Nat.mul_comm, Nat.mul_succ]
        omega
    rw [hsame, hfull, hdrop]
  · next hend =>
    have hnext : (l.length + 1) / n = q + 1 := by
      refine Nat.div_eq_of_lt_le ?_ ?_
      · rw [Nat.mul_comm, Nat.mul_succ]
        omega
      · rw [Nat.mul_comm, Nat.mul_succ, Nat.mul_succ]
        omega
    have hempty : (l ++ [c]).drop (n * (q + 1)) = [] := by
      rw [drop_eq_nil_iff, length_append, length_singleton, Nat.mul_succ]
      omega
    have hrow : (l.drop (n * q) ++ [c]).take n = l.drop (n * q) ++ [c] := by
      refine take_of_length_le ?_
      rw [length_append, hlast, length_singleton]
      omega
    rw [hnext, range_succ, map_append, hfull, map_singleton, hdrop, hrow, hempty, append_assoc]
    rfl

theorem splitOn_concat_of_ne [DecidableEq α] {sep c : α} (t : List α) (hc : c ≠ sep) :
    ∃ init last, t.splitOn sep = init ++ [last] ∧ (t ++ [c]).splitOn sep = init ++ [last ++ [c]] := by
  induction t with
  | nil =>
    refine ⟨[], [], rfl, ?_⟩
    simp [splitOn_cons_eq_if_modifyHead, hc]
  | cons x t ih =>
    obtain ⟨init, last, ht, htc⟩ := ih
    rw [cons_append, splitOn_cons_eq_if_modifyHead, splitOn_cons_eq_if_modifyHead, ht, htc]
    split
    · exact ⟨[] :: init, last, rfl, rfl⟩
    · cases init with
      | nil => exact ⟨[], x :: last, rfl, rfl⟩
      | cons i init => exact ⟨(x :: i) :: init, last, rfl, rfl⟩

/-- **One character more**: the last row is ended by a newline, and by a character that fills it. -/
theorem wrapText_concat [DecidableEq α] (sep : α) (t : List α) (hn : 0 < n) : ∃ init last,
    wrapText n sep t = init ++ [last] ∧ last.length < n ∧
      wrapText n sep (t ++ [sep]) = init ++ [last] ++ [[]] ∧
      ∀ c ≠ sep, wrapText n sep (t ++ [c]) =
        if last.length + 1 < n then init ++ [last ++ [c]] else init ++ [last ++ [c]] ++ [[]] := by
  obtain ⟨lines, line, hlines⟩ : ∃ lines line, t.splitOn sep = lines ++ [line] :=
    ⟨_, _, (dropLast_append_getLast (splitOn_ne_nil sep t)).symm⟩
  obtain ⟨full, last, hline, hlast, hconcat⟩ := wrapLine_concat line hn
  have hrows : wrapText n sep t = lines.flatMap (wrapLine n) ++ full ++ [last] := by
    rw [wrapText, hlines, flatMap_append, flatMap_singleton, hline, append_assoc]
  refine ⟨_, last, hrows, hlast, ?_, fun c hc => ?_⟩
  · have hnil : wrapLine n ([] : List α) = [[]] := by simp [wrapLine]
    rw [← hrows, wrapText, splitOn_append_cons_self, flatMap_append, ← wrapText,
      splitOn_nil, flatMap_singleton, hnil]
  · obtain ⟨lines', line', hlines', hconcat'⟩ := splitOn_concat_of_ne t hc
    obtain ⟨rfl, rfl⟩ : lines' = lines ∧ line' = line := by
      have hsame := hlines'.symm.trans hlines
      exact ⟨append_inj_left' hsame rfl, singleton_inj.mp (append_inj_right' hsame rfl)⟩
    rw [wrapText, hconcat', flatMap_append, flatMap_singleton, hconcat c]
    split
    · rw [append_assoc]
    · simp

end Rows

section Page

variable {α : Type*} {h r c : ℕ} {blank : α} {rows : List (List α)}

/-- What a page that shows the last `h` rows has at a position.  Rows are padded with blanks, and so is
the page. -/
def glyph (h : ℕ) (blank : α) (rows : List (List α)) (r c : ℕ) : α :=
  ((rows.rtake h).getD r []).getD c blank

theorem glyph_eq (h : ℕ) (blank : α) (rows : List (List α)) (r c : ℕ) :
    glyph h blank rows r c = (rows.getD (rows.length - h + r) []).getD c blank := by
  have hrow : (rows.rtake h).getD r [] = rows.getD (rows.length - h + r) [] := by
    rw [List.rtake, List.getD_eq_getElem?_getD, List.getElem?_drop, ← List.getD_eq_getElem?_getD]
  rw [glyph, hrow]

/-- An empty row more scrolls a full page. -/
theorem glyph_concat_nil (hr : r < h) : glyph h blank (rows ++ [[]]) r c =
    if rows.length < h then glyph h blank rows r c
    else if r + 1 < h then glyph h blank rows (r + 1) c else blank := by
  have hget (i : ℕ) : (rows ++ [[]]).getD i [] = rows.getD i [] := by
    rcases lt_or_ge i rows.length with hi | hi
    · exact List.getD_append _ _ _ _ hi
    · rw [List.getD_append_right _ _ _ _ hi, List.getD_eq_default _ _ hi]
      cases i - rows.length <;> rfl
  simp only [glyph_eq, hget, List.length_append, List.length_singleton]
  split
  · rw [show rows.length + 1 - h = rows.length - h by omega]
  · next hfull =>
    rw [show rows.length + 1 - h + r = rows.length - h + (r + 1) by omega]
    split
    · rfl
    · rw [List.getD_eq_default _ _ (by omega : rows.length ≤ rows.length - h + (r + 1))]
      rfl

/-- A character more in the last row. -/
theorem glyph_concat_char {init : List (List α)} {last : List α} {x : α} (hr : r < h) :
    glyph h blank (init ++ [last ++ [x]]) r c =
      if r = min init.length (h - 1) ∧ c = last.length then x
      else glyph h blank (init ++ [last]) r c := by
  simp only [glyph_eq, List.length_append, List.length_singleton]
  rcases lt_trichotomy (init.length + 1 - h + r) init.length with hi | hi | hi
  · rw [if_neg (by omega), List.getD_append _ _ _ _ hi, List.getD_append _ _ _ _ hi]
  · -- the last row
    have hlast (l : List α) : (init ++ [l]).getD (init.length + 1 - h + r) [] = l := by
      rw [List.getD_append_right _ _ _ _ hi.ge, hi, Nat.sub_self]
      rfl
    rw [hlast, hlast]
    rcases lt_trichotomy c last.length with hc | hc | hc
    · rw [if_neg (by omega), List.getD_append _ _ _ _ hc]
    · rw [if_pos (by omega), List.getD_append_right _ _ _ _ hc.ge, hc, Nat.sub_self]
      rfl
    · rw [if_neg (by omega), List.getD_eq_default _ _ (by simp; omega), List.getD_eq_default _ _ hc.le]
  · have hpast (l : List α) : (init ++ [l]).getD (init.length + 1 - h + r) [] = [] :=
      List.getD_eq_default _ _ (by simp; omega)
    rw [if_neg (by omega), hpast, hpast]

end Page
