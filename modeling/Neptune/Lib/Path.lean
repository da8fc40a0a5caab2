import Mathlib.Data.List.TakeWhile

/-!
# Paths

A path is a list of characters; its components are the non-empty pieces between
separators.  Resolving a path goes through the components from left to right and keeps
a stack: one kind of component is ignored, one pops the stack, and the others are
pushed.

## Main definitions

* `components` — the components of a path.
* `resolveStep`, `pathText` — the stack, and the path that it spells.

## Main results

* `components_eq` — the components, one by one.
-/

section Components

open List

variable {α : Type*} [DecidableEq α] {sep : α} {xs c : List α}

/-- The non-empty pieces between separators. -/
def components (sep : α) (xs : List α) : List (List α) :=
  (xs.splitOn sep).filter (· ≠ [])

/-- The pieces of a list have no separator, and nothing that is not in the list. -/
theorem splitOn_pieces (hc : c ∈ xs.splitOn sep) : sep ∉ c ∧ ∀ x ∈ c, x ∈ xs := by
  induction xs generalizing c with
  | nil =>
    obtain rfl : c = [] := by simpa [List.splitOn] using hc
    exact ⟨not_mem_nil, nofun⟩
  | cons a xs ih =>
    have hcons : (a :: xs).splitOn sep =
        if a == sep then [] :: xs.splitOn sep else (xs.splitOn sep).modifyHead (List.cons a) :=
      splitOnP_cons_eq_if_modifyHead _ _
    rw [hcons] at hc
    split at hc
    · rcases mem_cons.mp hc with rfl | hc
      · exact ⟨not_mem_nil, nofun⟩
      · exact ⟨(ih hc).1, fun x hx => mem_cons_of_mem a ((ih hc).2 x hx)⟩
    · next ha =>
      cases hsplit : xs.splitOn sep with
      | nil =>
        rw [hsplit] at hc
        cases hc
      | cons c₀ rest =>
        rw [hsplit] at hc ih
        rcases mem_cons.mp hc with rfl | hc
        · obtain ⟨hsep, hmem⟩ := ih mem_cons_self
          refine ⟨?_, fun x hx => ?_⟩
          · rw [mem_cons, not_or]
            exact ⟨fun e => ha (by simp [e]), hsep⟩
          · rcases mem_cons.mp hx with rfl | hx
            · exact mem_cons_self
            · exact mem_cons_of_mem a (hmem x hx)
        · obtain ⟨hsep, hmem⟩ := ih (mem_cons_of_mem c₀ hc)
          exact ⟨hsep, fun x hx => mem_cons_of_mem a (hmem x hx)⟩

theorem splitOn_sublist (hc : c ∈ xs.splitOn sep) : c.Sublist xs := by
  induction xs generalizing c with
  | nil =>
    obtain rfl : c = [] := by simpa [List.splitOn] using hc
    exact .refl _
  | cons a xs ih =>
    rw [splitOn_cons_eq_if_modifyHead] at hc
    split at hc
    · rcases mem_cons.mp hc with rfl | hc
      · exact nil_sublist _
      · exact (ih hc).cons a
    · cases hsplit : xs.splitOn sep with
      | nil =>
        rw [hsplit] at hc
        cases hc
      | cons c₀ rest =>
        rw [hsplit] at hc ih
        rcases mem_cons.mp hc with rfl | hc
        · exact (ih mem_cons_self).cons_cons a
        · exact (ih (mem_cons_of_mem c₀ hc)).cons a

theorem components_sublist (hc : c ∈ components sep xs) : c.Sublist xs :=
  splitOn_sublist (mem_filter.mp hc).1

theorem components_pieces (hc : c ∈ components sep xs) : c ≠ [] ∧ sep ∉ c ∧ ∀ x ∈ c, x ∈ xs := by
  obtain ⟨hmem, hne⟩ := mem_filter.mp hc
  exact ⟨by simpa using hne, splitOn_pieces hmem⟩

@[simp] theorem components_nil (sep : α) : components sep [] = [] := by
  simp [components, List.splitOn]

/-- What stands before a separator is a component unless it is empty. -/
theorem components_append_cons (h : sep ∉ c) (xs : List α) :
    components sep (c ++ sep :: xs) = (if c = [] then [] else [c]) ++ components sep xs := by
  have hpiece : c.splitOn sep = [c] := by
    refine splitOnP_eq_singleton fun x hx => ?_
    simpa using fun e : x = sep => h (e ▸ hx)
  have hsplit : (c ++ sep :: xs).splitOn sep = c :: xs.splitOn sep := by
    have happ : (c ++ sep :: xs).splitOn sep = c.splitOn sep ++ xs.splitOn sep :=
      splitOnP_append_cons _ _ (by simp)
    rw [happ, hpiece]
    rfl
  rw [components, hsplit]
  by_cases hc : c = []
  · simp [components, hc]
  · simp [components, hc]

theorem components_of_notMem (h : sep ∉ c) : components sep c = if c = [] then [] else [c] := by
  have hpiece : c.splitOn sep = [c] := by
    refine splitOnP_eq_singleton fun x hx => ?_
    simpa using fun e : x = sep => h (e ▸ hx)
  rw [components, hpiece]
  by_cases hc : c = []
  · simp [hc]
  · simp [hc]

@[simp] theorem components_cons_sep (xs : List α) :
    components sep (sep :: xs) = components sep xs := by
  simpa using components_append_cons (c := []) not_mem_nil xs

/-- A separator at the end does not matter. -/
theorem components_append_sep (xs : List α) : components sep (xs ++ [sep]) = components sep xs := by
  have hsplit : (xs ++ [sep]).splitOn sep = xs.splitOn sep ++ ([] : List α).splitOn sep :=
    splitOnP_append_cons _ _ (by simp)
  rw [components, hsplit, filter_append]
  simp [components, List.splitOn]

/-- Separators at the beginning do not matter. -/
theorem components_dropWhile (xs : List α) :
    components sep (xs.dropWhile (· = sep)) = components sep xs := by
  induction xs with
  | nil => rfl
  | cons x xs ih =>
    by_cases hx : x = sep
    · subst hx
      simpa using ih
    · simp [hx]

theorem sep_notMem_takeWhile (xs : List α) : sep ∉ xs.takeWhile (· ≠ sep) := fun h => by
  simpa using mem_takeWhile_imp h

/-- The first component, and the components of what comes behind it and its separators. -/
theorem components_eq (xs : List α) :
    components sep xs = (if xs.takeWhile (· ≠ sep) = [] then [] else [xs.takeWhile (· ≠ sep)]) ++
        components sep ((xs.dropWhile (· ≠ sep)).dropWhile (· = sep)) := by
  have hsplit := takeWhile_append_dropWhile (p := fun x => decide (x ≠ sep)) (l := xs)
  have hnot : sep ∉ xs.takeWhile (· ≠ sep) := sep_notMem_takeWhile xs
  rw [components_dropWhile]
  cases hrest : xs.dropWhile (· ≠ sep) with
  | nil =>
    rw [hrest, append_nil] at hsplit
    rw [components_nil, append_nil, hsplit]
    rw [hsplit] at hnot
    exact components_of_notMem hnot
  | cons y ys =>
    -- what is not taken begins with a separator
    obtain rfl : y = sep := by
      have hhead := head_dropWhile_not (p := fun x => decide (x ≠ sep)) (l := xs) (by rw [hrest]; nofun)
      simp only [hrest, head_cons] at hhead
      simpa using hhead
    rw [hrest] at hsplit
    rw [components_cons_sep, ← components_append_cons hnot, hsplit]

/-- What a component does to the stack. -/
def resolveStep (skip pop : List α) (stack : List (List α)) (c : List α) : List (List α) :=
  if c = skip then stack else if c = pop then stack.dropLast else stack ++ [c]

end Components

/-! ### The text of a stack -/

variable {α : Type*}

/-- Every component of the stack with a separator before it. -/
def flatPath (sep : α) (stack : List (List α)) : List α := stack.flatMap fun c => sep :: c

@[simp] theorem flatPath_nil (sep : α) : flatPath sep [] = [] := rfl

@[simp] theorem flatPath_append (sep : α) (stack stack' : List (List α)) :
    flatPath sep (stack ++ stack') = flatPath sep stack ++ flatPath sep stack' :=
  List.flatMap_append

@[simp] theorem flatPath_singleton (sep : α) (c : List α) : flatPath sep [c] = sep :: c := by
  simp [flatPath]

/-- The pieces of what a stack spells. -/
theorem splitOn_append_flatPath [DecidableEq α] {sep : α} {stack : List (List α)}
    (hs : ∀ c ∈ stack, sep ∉ c) {c : List α} (hc : sep ∉ c) :
    (c ++ flatPath sep stack).splitOn sep = c :: stack := by
  have hpiece : ∀ {c : List α}, sep ∉ c → c.splitOn sep = [c] := by
    intro c hc
    refine List.splitOnP_eq_singleton fun x hx => ?_
    simpa using fun e : x = sep => hc (e ▸ hx)
  induction stack generalizing c with
  | nil =>
    rw [flatPath_nil, List.append_nil]
    exact hpiece hc
  | cons d stack ih =>
    have hd : sep ∉ d := hs d (by simp)
    have hflat : flatPath sep (d :: stack) = sep :: (d ++ flatPath sep stack) := rfl
    have happ : (c ++ sep :: (d ++ flatPath sep stack)).splitOn sep =
        c.splitOn sep ++ (d ++ flatPath sep stack).splitOn sep :=
      List.splitOnP_append_cons _ _ (by simp)
    rw [hflat, happ, hpiece hc, ih (fun c hc => hs c (List.mem_cons_of_mem _ hc)) hd]
    rfl

/-- The path that a stack spells. -/
def pathText (sep : α) : List (List α) → List α
  | [] => [sep]
  | stack => flatPath sep stack
