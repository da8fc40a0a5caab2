import Mathlib.Order.CompletePartialOrder
import Neptune.Boot.Multiboot
import Neptune.Mem.Pmm
import Mathlib.Order.Interval.Set.Disjoint

/-!
# The memory that is handed out

`arch_mem_init` passes the available memory to the allocator, without what lies below the end of the
kernel and in whole pages.

## Main results

* `clipEntry_spec` — the part of an entry that is handed out.
* `archMemInit_added` — more than `MAX_PMM_REGIONS` regions are a panic.
* `usable_regions` — **only available memory outside of the kernel becomes allocatable**.
-/

namespace Neptune

open Word64 (u64 alignUp alignDown)

variable {m : ByteMem} {kernelStart kernelEnd infoPhys addr len start stop : ℕ} {tags : List ℕ}

/-- **The part of an entry that is handed out** is a run of pages of the entry above the kernel. -/
theorem clipEntry_spec (hend : addr + len < 2 ^ 52) (hkernel : kernelEnd < 2 ^ 52)
    (h : clipEntry kernelStart kernelEnd addr len = some (start, stop)) :
    start < stop ∧ start % 4096 = 0 ∧ stop % 4096 = 0 ∧ addr ≤ start ∧ stop ≤ addr + len ∧
      kernelEnd ≤ start := by
  have hsum : u64 (addr + len) = addr + len := Word64.u64_of_lt (by omega)
  rw [clipEntry, hsum] at h
  dsimp only at h
  split at h
  · cases h
  next habove =>
  -- the lower end is the entry's or the kernel's, whichever is above
  generalize hfrom : (if addr < kernelEnd ∧ addr + len > kernelStart then kernelEnd else addr) =
    low at h
  have hlow : addr ≤ low ∧ kernelEnd ≤ low ∧ low < 2 ^ 52 := by
    split at hfrom <;> omega
  have hup := Word64.alignUp_spec (x := low) (show 4096 = 2 ^ 12 from rfl) (by omega) (by decide)
  have hdown : alignDown (addr + len) 4096 = (addr + len) / 4096 * 4096 :=
    Word64.alignDown_eq (show 4096 = 2 ^ 12 from rfl) (by omega) (by decide)
  rw [hdown] at h
  split at h
  · obtain ⟨rfl, rfl⟩ := Prod.mk.inj (Option.some.inj h)
    omega
  · cases h

/-! ### `pmm_add_region` -/

/-- `pmm_add_region` takes regions that are not empty as long as there is room for them. -/
theorem Pmm.addRegions_isSome_iff {rs : List PmmRegion} {ranges : List (ℕ × ℕ)}
    (hrs : rs.length ≤ maxPmmRegions) (h : ∀ r ∈ ranges, r.1 < r.2) :
    (Pmm.addRegions rs ranges).isSome ↔ rs.length + ranges.length ≤ maxPmmRegions := by
  induction ranges generalizing rs with
  | nil => simpa [Pmm.addRegions] using hrs
  | cons r ranges ih =>
    obtain ⟨hr, hranges⟩ := List.forall_mem_cons.mp h
    rw [Pmm.addRegions, Pmm.addRegion, List.length_cons]
    split
    · next hfull => exact iff_of_false (by simp) (by omega)
    · rw [if_neg (by omega), Option.bind_some, ih (by simp; omega) hranges]
      simp [Nat.add_assoc, Nat.add_comm 1]

/-- **The regions of a block that can be walked** are all taken exactly if there are at most
`MAX_PMM_REGIONS` of them; the next one is a panic. -/
theorem archMemInit_added (kernelStart kernelEnd : ℕ) (hpos : 0 < infoPhys)
    (hlow : infoPhys + 8 < 2 ^ 31)
    (htags : TagList m (blockEnd m (physToVirt infoPhys)) (physToVirt infoPhys + 8) tags) :
    ∃ n₀, ∀ n ≥ n₀, ((archMemInit (m.only (BlockByte m (physToVirt infoPhys))) kernelStart kernelEnd
        infoPhys n).bind (Pmm.addRegions [])).isSome ↔
      (clipAll kernelStart kernelEnd (available m tags)).length ≤ maxPmmRegions := by
  obtain ⟨n₀, hn₀⟩ := archMemInit_spec kernelStart kernelEnd hpos hlow htags
  refine ⟨n₀, fun n hn => ?_⟩
  rw [hn₀ n hn, Option.bind_some, Pmm.addRegions_isSome_iff (Nat.zero_le _) fun r hr => ?_]
  · simp
  · obtain ⟨e, -, he⟩ := List.mem_filterMap.mp hr
    rw [clipEntry] at he
    dsimp only at he
    generalize (if e.1 < kernelEnd ∧ u64 (e.1 + e.2) > kernelStart then kernelEnd else e.1) = low at he
    split at he
    · cases he
    split at he
    · next hlt => exact Option.some.inj he ▸ hlt
    · cases he

/-! ### Available memory -/

/-- The addresses of a region, and those of an entry. -/
abbrev regionSet (r : ℕ × ℕ) : Set ℕ := Set.Ico r.1 r.2

abbrev entrySet (e : ℕ × ℕ) : Set ℕ := Set.Ico e.1 (e.1 + e.2)

/-- **Only available memory outside of the kernel becomes allocatable**: for every block of well-formed
tags whose available entries are disjoint and end below 2^52. -/
theorem usable_regions (kernelStart : ℕ) (hpos : 0 < infoPhys) (hlow : infoPhys + 8 < 2 ^ 31)
    (htags : TagList m (blockEnd m (physToVirt infoPhys)) (physToVirt infoPhys + 8) tags)
    (hdisjoint : (available m tags).Pairwise fun e e' => Disjoint (entrySet e) (entrySet e'))
    (hend : ∀ e ∈ available m tags, e.1 + e.2 < 2 ^ 52) (hkernel : kernelEnd < 2 ^ 52) :
    ∃ n₀ regions, (∀ n ≥ n₀, archMemInit (m.only (BlockByte m (physToVirt infoPhys))) kernelStart
      kernelEnd infoPhys n = some regions) ∧
      (∀ r ∈ regions, r.1 < r.2 ∧ r.1 % 4096 = 0 ∧ r.2 % 4096 = 0 ∧
        (∃ e ∈ available m tags, regionSet r ⊆ entrySet e) ∧
        Disjoint (regionSet r) (Set.Ico kernelStart kernelEnd)) ∧
      regions.Pairwise fun r r' => Disjoint (regionSet r) (regionSet r') := by
  obtain ⟨n₀, hn₀⟩ := archMemInit_spec kernelStart kernelEnd hpos hlow htags
  have hclip : ∀ e ∈ available m tags, ∀ r, clipEntry kernelStart kernelEnd e.1 e.2 = some r →
      regionSet r ⊆ entrySet e := by
    intro e he r hr
    obtain ⟨-, -, -, hge, hle, -⟩ := clipEntry_spec (hend e he) hkernel hr
    exact Set.Ico_subset_Ico hge hle
  refine ⟨n₀, _, hn₀, fun r hr => ?_, ?_⟩
  · obtain ⟨e, he, hr⟩ := List.mem_filterMap.mp hr
    obtain ⟨hlt, halign, halign', -, -, habove⟩ := clipEntry_spec (hend e he) hkernel hr
    refine ⟨hlt, halign, halign', ⟨e, he, hclip e he r hr⟩, ?_⟩
    exact (Set.Ico_disjoint_Ico_same (b := r.1) (a := kernelStart)).symm.mono_right
      (Set.Ico_subset_Ico_right habove)
  · -- parts of disjoint entries are disjoint
    refine List.pairwise_filterMap.mpr (hdisjoint.imp_of_mem fun he he' hdis r hr r' hr' => ?_)
    exact hdis.mono (hclip _ he r hr) (hclip _ he' r' hr')

/-- The kernel is at the beginning of the first of two available entries. -/
theorem usable_regions_mmapBlock : ∃ n₀ regions,
    (∀ n ≥ n₀, archMemInit (mmapBlock.only (BlockByte mmapBlock (physToVirt 0x1000))) 0x100000
      0x200800 0x1000 n = some regions) ∧
    (∀ r ∈ regions, Disjoint (regionSet r) (Set.Ico 0x100000 0x200800) ∧
      (regionSet r ⊆ Set.Ico 0x100000 0x400000 ∨ regionSet r ⊆ Set.Ico 0x500000 0x700000)) ∧
    regions.Pairwise fun r r' => Disjoint (regionSet r) (regionSet r') := by
  have havail : available mmapBlock [physToVirt 0x1000 + 8] =
      [(0x100000, 0x300000), (0x500000, 0x200000)] := by
    decide +kernel
  have hdisjoint : Disjoint (entrySet (0x100000, 0x300000)) (entrySet (0x500000, 0x200000)) :=
    Set.Ico_disjoint_Ico.mpr (by decide)
  obtain ⟨n₀, regions, hrun, hregions, hpairs⟩ := usable_regions 0x100000
    (show 0 < 0x1000 by decide) (by decide) tagList_mmapBlock
    (by rw [havail]; exact List.pairwise_pair.mpr hdisjoint) (by rw [havail]; decide)
    (show 0x200800 < 2 ^ 52 by decide)
  refine ⟨n₀, regions, hrun, fun r hr => ?_, hpairs⟩
  obtain ⟨-, -, -, ⟨e, he, hsub⟩, hkernel⟩ := hregions r hr
  refine ⟨hkernel, ?_⟩
  rw [havail, List.mem_pair] at he
  rcases he with rfl | rfl
  · exact .inl hsub
  · exact .inr hsub

end Neptune
