import Neptune.Mmu.Cow

/-!
# The check of user pointers

`user_ptr_range` looks every page of a buffer up and asks whether it is mapped for the
user.  The kernel finds a page exactly if the walk of the processor does and the tables
on the way are in the direct map.

## Main definitions

* `Phys.KernelWalk` — the tables on the way are where the kernel reads them.

## Main results

* `Phys.userPagePresent_iff` — the pages that are found.
* `Phys.rangeLoop_spec` — the loop finds every page of a buffer that it accepts.
-/

namespace Neptune

open Word64 (u64 not64)

variable {aspace virt level table a last fuel : ℕ} {s : Phys}

/-! ### One page -/

/-- The walk of `user_page_present` from a table on, level by level. -/
def Phys.presentFrom (s : Phys) (virt : ℕ) : ℕ → ℕ → Option Bool
  | 0, table => do
    let entry ← s.readHhdm table (indexAt 0 virt)
    return has entry ptePresent && has entry pteUser
  | level + 1, table => do
    let entry ← s.readHhdm table (indexAt (level + 1) virt)
    if !has entry ptePresent || !has entry pteUser then return false
    if level < 2 ∧ has entry ptePs then return true
    s.presentFrom virt level (pageOf entry)

theorem Phys.userPagePresent_eq (hne : aspace ≠ 0) :
    s.userPagePresent aspace virt = s.presentFrom virt 3 aspace := by
  simp [Phys.userPagePresent, Phys.presentFrom, hne]

/-- The tables on the way are where the kernel reads them, in the direct map. -/
def Phys.KernelWalk (s : Phys) (virt : ℕ) : ℕ → ℕ → Prop
  | 0, table => table + 8 * indexAt 0 virt + 8 ≤ s.hhdm
  | level + 1, table =>
    let entry := entryAt s.mem table (indexAt (level + 1) virt)
    table + 8 * indexAt (level + 1) virt + 8 ≤ s.hhdm ∧
      (level < 2 ∧ has entry ptePs ∨ s.KernelWalk virt level (pageOf entry))

theorem Phys.KernelWalk.lt (h : s.KernelWalk virt level table) : table < 2 ^ 47 := by
  have hle : hhdmBase + s.hhdm ≤ 2 ^ 64 := s.hhdm_le
  unfold hhdmBase at hle
  cases level with
  | zero =>
    rw [Phys.KernelWalk] at h
    omega
  | succ level =>
    have := h.1
    omega

/-- A table where the kernel reads it is where the processor looks. -/
theorem entryFrame_of_lt {e : ℕ} (he : e < 2 ^ 64) (h : pageOf e < 2 ^ 47) : entryFrame e = pageOf e := by
  refine entryFrame_eq_pageOf ?_
  rw [pageOf_eq he] at h
  omega

/-- **The kernel finds a page** exactly if the processor does and the tables are in the direct
map. -/
theorem Phys.presentFrom_iff (ha : table % 4096 = 0) (hlt : table < 2 ^ 64) :
    s.presentFrom virt level table = some true ↔
      (∃ tr, hwWalk s.mem virt level table = some tr ∧ tr.user = true) ∧
        s.KernelWalk virt level table := by
  have hindex : ∀ level, indexAt level virt < 512 := fun level => Nat.mod_lt _ (by decide)
  induction level generalizing table with
  | zero =>
    rw [Phys.presentFrom, Phys.KernelWalk, hwWalk, Phys.readHhdm_eq hlt ha (hindex 0)]
    by_cases hin : table + 8 * indexAt 0 virt + 8 ≤ s.hhdm
    · rw [if_pos hin]
      cases hp : has (entryAt s.mem table (indexAt 0 virt)) ptePresent <;>
        simp [-has_present, hp, hin, leafOf]
    · simp [hin]
  | succ level ih =>
    rw [Phys.presentFrom, Phys.KernelWalk, hwWalk, Phys.readHhdm_eq hlt ha (hindex (level + 1))]
    have he := entryAt_lt s.mem table (indexAt (level + 1) virt)
    generalize entryAt s.mem table (indexAt (level + 1) virt) = entry at he ⊢
    by_cases hin : table + 8 * indexAt (level + 1) virt + 8 ≤ s.hhdm
    swap
    · simp [hin]
    simp only [if_pos hin, Option.bind_eq_bind, Option.bind_some]
    cases hp : has entry ptePresent with
    | false => simp
    | true =>
      cases hu : has entry pteUser with
      | false =>
        -- nothing below gives the right back
        simp only [Bool.not_true, Bool.not_false, Bool.or_true, if_true]
        refine iff_of_false (by rintro ⟨⟩) ?_
        rintro ⟨⟨tr, hwalk, huser⟩, -⟩
        split at hwalk
        · obtain rfl := Option.some.inj hwalk
          rw [leafOf, hu] at huser
          cases huser
        · obtain ⟨below, -, rfl⟩ := Option.map_eq_some_iff.mp hwalk
          simp [Translation.under, hu] at huser
      | true =>
        simp only [Bool.not_true, Bool.or_false, Bool.false_eq_true, if_false]
        by_cases hlarge : level < 2 ∧ has entry ptePs = true
        · simp [hlarge, leafOf, hu, hin]
        · rw [if_neg hlarge, if_neg hlarge]
          refine Iff.trans (ih (pageOf_mod he) (pageOf_lt he)) ?_
          simp only [hin, hlarge, true_and, false_or, if_true]
          refine and_congr_left fun hbelow => ?_
          rw [entryFrame_of_lt he hbelow.lt]
          simp [Translation.under, hu]

theorem Phys.userPagePresent_iff (ha : aspace % 4096 = 0) (hlt : aspace < 2 ^ 64) (hne : aspace ≠ 0) :
    s.userPagePresent aspace virt = some true ↔
      (∃ tr, hwWalk s.mem virt 3 aspace = some tr ∧ tr.user = true) ∧ s.KernelWalk virt 3 aspace := by
  rw [Phys.userPagePresent_eq hne, Phys.presentFrom_iff ha hlt]

/-! ### A buffer -/

theorem indexAt_page (h : a / 4096 = virt / 4096) (level : ℕ) :
    indexAt level a = indexAt level virt := by
  have hpow : 2 ^ (12 + 9 * level) = 4096 * 2 ^ (9 * level) := Nat.pow_add 2 12 _
  rw [indexAt, indexAt, hpow, ← Nat.div_div_eq_div_mul, ← Nat.div_div_eq_div_mul, h]

theorem Phys.userPagePresent_page (h : a / 4096 = virt / 4096) :
    s.userPagePresent aspace a = s.userPagePresent aspace virt := by
  simp only [Phys.userPagePresent, indexAt_page h]

/-- The loop looks every page up. -/
theorem Phys.rangeLoop_spec (h : s.rangeLoop aspace last fuel virt = some true)
    (hlast : last < 2 ^ 64) (hle : virt ≤ a) (hlt : a < last) :
    s.userPagePresent aspace a = some true := by
  induction fuel generalizing virt with
  | zero => cases h
  | succ fuel ih =>
    rw [Phys.rangeLoop, if_pos (by omega)] at h
    obtain ⟨present, hpresent, h⟩ := Option.bind_eq_some_iff.mp h
    split at h
    · cases h
    next hfound =>
    dsimp only at h
    split at h
    · cases h
    next hnext =>
    have hpage : pageOf virt = virt / 4096 * 4096 := pageOf_eq (by omega)
    rw [hpage] at h hnext
    by_cases hsame : a / 4096 = virt / 4096
    · rw [Phys.userPagePresent_page hsame, hpresent]
      simpa using hfound
    · have hmod : u64 (virt / 4096 * 4096 + 0x1000) = virt / 4096 * 4096 + 0x1000 :=
        Word64.u64_of_lt (by omega)
      rw [hmod] at h
      exact ih h (by omega)

end Neptune
