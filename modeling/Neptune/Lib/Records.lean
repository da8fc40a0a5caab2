import Mathlib.Data.List.Infix

/-!
# Records that tell their size

A sequence is cut into records from its beginning.  If no two records begin the same sequence, there is
one way to do it, which ends where no record begins.

## Main definitions

* `SelfSized whole` — no two records begin the same sequence.
* `LongestRecords whole l rs` — the records `rs` begin `l`, and no others go further.

## Main results

* `LongestRecords.nil`, `LongestRecords.cons` — the records one by one.
* `LongestRecords.unique` — there is one way.
-/

section

variable {α : Type*} {whole : List α → Prop} {r l : List α} {rs rs' : List (List α)}

/-- No two records begin the same sequence. -/
def SelfSized (whole : List α → Prop) : Prop :=
  ∀ ⦃r r' l : List α⦄, whole r → whole r' → r <+: l → r' <+: l → r = r'

/-- The records `rs` begin `l`, and all records that do begin `rs`. -/
structure LongestRecords (whole : List α → Prop) (l : List α) (rs : List (List α)) : Prop where
  all_whole : ∀ r ∈ rs, whole r
  begins : rs.flatten <+: l
  longest : ∀ rs', (∀ r ∈ rs', whole r) → rs'.flatten <+: l → rs' <+: rs

namespace LongestRecords

/-- There is nothing where no record begins. -/
theorem nil (h : ∀ r, whole r → ¬r <+: l) : LongestRecords whole l [] := by
  refine ⟨by simp, List.nil_prefix, fun rs' hall hbegins => ?_⟩
  cases rs' with
  | nil => exact List.nil_prefix
  | cons r rs' =>
    -- the first of the records would begin `l`
    have hr : r <+: l := (List.prefix_append r rs'.flatten).trans (by simpa using hbegins)
    exact absurd hr (h r (hall r (by simp)))

/-- One more record. -/
theorem cons (hsize : SelfSized whole) (hr : whole r) (h : LongestRecords whole l rs) :
    LongestRecords whole (r ++ l) (r :: rs) := by
  refine ⟨List.forall_mem_cons.mpr ⟨hr, h.all_whole⟩, ?_, fun rs' hall hbegins => ?_⟩
  · rw [List.flatten_cons]
    exact (List.prefix_append_right_inj r).mpr h.begins
  · cases rs' with
    | nil => exact List.nil_prefix
    | cons r' rs' =>
      obtain ⟨hr', hall'⟩ := List.forall_mem_cons.mp hall
      rw [List.flatten_cons] at hbegins
      have hfirst : r' <+: r ++ l := (List.prefix_append r' rs'.flatten).trans hbegins
      obtain rfl : r = r' := hsize hr hr' (List.prefix_append r l) hfirst
      exact (List.prefix_cons_inj r).mpr
        (h.longest rs' hall' ((List.prefix_append_right_inj r).mp hbegins))

/-- There is one way to cut a sequence into records. -/
theorem unique (h : LongestRecords whole l rs) (h' : LongestRecords whole l rs') : rs = rs' :=
  List.IsPrefix.eq_of_length_le (h'.longest rs h.all_whole h.begins)
    (h.longest rs' h'.all_whole h'.begins).length_le

end LongestRecords

end
