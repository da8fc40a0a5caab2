import Mathlib.Data.List.Basic

/-!
# Going round a list

A search that starts behind the entry `c` of a list and goes round it looks at the list
in the order `B ++ (A ++ [c])`, where `A` stands before `c` and `B` behind it.  An entry
`x` is ahead of `y` if the search comes to `x` first.  It stays ahead when entries are
added at the end or removed, and when the search moves on to an entry that it finds
before `x`.

## Main definitions

* `Ahead` — the search comes to `x` before it comes to `y`.

## Main results

* `Ahead.turn` — the search moves on.
* `Ahead.find_ne` — the search does not find `y` while `x` can be found.
-/

variable {α : Type*} {L A B : List α} {c x y : α}

/-- Going round the list `L` from behind `c`, the entry `x` comes before `y`. -/
def Ahead (L : List α) (c x y : α) : Prop :=
  ∃ A B, L = A ++ c :: B ∧ [x, y].Sublist (B ++ (A ++ [c]))

namespace Ahead

open List

/-- The entry where the search starts comes last. -/
theorem of_mem (hc : y ∈ L) (hx : x ∈ L) (hxy : x ≠ y) : Ahead L y x y := by
  obtain ⟨A, B, rfl⟩ := append_of_mem hc
  refine ⟨A, B, rfl, ?_⟩
  have hmem : x ∈ B ++ A := by
    simp only [mem_append, mem_cons, hxy, false_or] at hx ⊢
    exact hx.symm
  rw [← append_assoc]
  exact (singleton_sublist.mpr hmem).append (List.Sublist.refl [y])

theorem append (h : Ahead L c x y) (t : α) : Ahead (L ++ [t]) c x y := by
  obtain ⟨A, B, rfl, hsub⟩ := h
  refine ⟨A, B ++ [t], by simp, hsub.trans ?_⟩
  exact (sublist_append_left B [t]).append (List.Sublist.refl _)

theorem filter [DecidableEq α] {z : α} (h : Ahead L c x y) (hc : c ≠ z) (hx : x ≠ z) (hy : y ≠ z) :
    Ahead (L.filter (· ≠ z)) c x y := by
  obtain ⟨A, B, rfl, hsub⟩ := h
  refine ⟨A.filter (· ≠ z), B.filter (· ≠ z), by simp [hc], ?_⟩
  have hkept := hsub.filter (· ≠ z)
  simpa [hx, hy, hc] using hkept

/-- The entries behind the first one that is found, and what a search from there looks at. -/
theorem split {n : α} {P R : List α} (h : B ++ (A ++ [c]) = P ++ n :: R) (hR : R ≠ []) :
    ∃ A' B', A ++ c :: B = A' ++ n :: B' ∧ B' ++ (A' ++ [n]) = R ++ (P ++ [n]) := by
  rcases append_eq_append_iff.mp h with ⟨P', rfl, h'⟩ | ⟨B', rfl, h'⟩
  · -- it is before `c` in the list
    rcases append_eq_append_iff.mp h' with ⟨M, rfl, hM⟩ | ⟨A', rfl, hA'⟩
    · cases M with
      | nil =>
        obtain ⟨rfl, rfl⟩ : c = n ∧ R = [] := by simpa using hM
        exact absurd rfl hR
      | cons a M => simp at hM
    · cases A' with
      | nil =>
        obtain ⟨rfl, rfl⟩ : n = c ∧ R = [] := by simpa using hA'
        exact absurd rfl hR
      | cons a A' =>
        obtain ⟨rfl, rfl⟩ : n = a ∧ R = A' ++ [c] := by simpa using hA'
        exact ⟨P', A' ++ c :: B, by simp, by simp⟩
  · -- it is behind `c`
    cases B' with
    | nil =>
      cases A with
      | nil =>
        obtain ⟨rfl, rfl⟩ : n = c ∧ R = [] := by simpa using h'
        exact absurd rfl hR
      | cons a A =>
        obtain ⟨rfl, rfl⟩ : n = a ∧ R = A ++ [c] := by simpa using h'
        exact ⟨[], A ++ c :: P, by simp, by simp⟩
    | cons b B' =>
      obtain ⟨rfl, rfl⟩ : n = b ∧ R = B' ++ (A ++ [c]) := by simpa using h'
      exact ⟨A ++ c :: P, B', by simp, by simp⟩

/-- What stands behind an entry that is not `x`, and behind others that are not. -/
theorem sublist_tail {n : α} {P R : List α} (h : [x, y].Sublist (P ++ n :: R)) (hP : x ∉ P)
    (hn : x ≠ n) : [x, y].Sublist R := by
  obtain ⟨l, l', hl, hP', hR⟩ := sublist_append_iff.mp h
  cases l with
  | nil =>
    obtain rfl : [x, y] = l' := hl
    cases hR with
    | cons _ hR => exact hR
    | cons_cons => exact absurd rfl hn
  | cons a l =>
    obtain ⟨rfl, -⟩ : x = a ∧ [y] = l ++ l' := by simpa using hl
    exact absurd (hP'.subset (mem_cons_self ..)) hP

variable {p : α → Bool}

/-- **The search moves on** to the first entry that it finds; `x` could be found and was
not, so it is still ahead. -/
theorem turn {n : α} (h : [x, y].Sublist (B ++ (A ++ [c])))
    (hfind : (B ++ (A ++ [c])).find? p = some n) (hx : p x) (hn : x ≠ n) :
    Ahead (A ++ c :: B) n x y := by
  obtain ⟨-, P, R, hsplit, hP⟩ := find?_eq_some_iff_append.mp hfind
  have hxP : x ∉ P := fun hmem => by simpa [hx] using hP x hmem
  rw [hsplit] at h
  have hR := sublist_tail h hxP hn
  have hne : R ≠ [] := by
    rintro rfl
    cases hR
  obtain ⟨A', B', hL, hround⟩ := split hsplit hne
  refine ⟨A', B', hL, ?_⟩
  rw [hround]
  exact hR.trans (sublist_append_left _ _)

/-- **The search does not find `y`** while `x` is ahead and can be found. -/
theorem find_ne (h : [x, y].Sublist (B ++ (A ++ [c]))) (hnodup : (B ++ (A ++ [c])).Nodup)
    (hx : p x) : (B ++ (A ++ [c])).find? p ≠ some y := by
  intro hfind
  obtain ⟨-, P, R, hsplit, hP⟩ := find?_eq_some_iff_append.mp hfind
  have hxP : x ∉ P := fun hmem => by simpa [hx] using hP x hmem
  rw [hsplit] at h hnodup
  have hxy : x ≠ y := by
    have hpair := hnodup.sublist h
    simpa using hpair
  have hy : y ∈ R := (sublist_tail h hxP hxy).subset (by simp)
  have hyR : y ∉ R := (nodup_cons.mp (nodup_append.mp hnodup).2.1).1
  exact hyR hy

end Ahead
