import Mathlib.Data.List.Pairwise
import Neptune.Mem.Pmm

/-!
# Regions, their bitmaps, and what the bits say

The bitmaps of the regions are disjoint, so a change of one bit is seen by the
page it is for and by no other page of any region.

## Main definitions

* `Separate` — every region has a bitmap of its own.
* `Geometry` — how regions and bitmaps lie in memory.
* `Bits` — which pages are marked.
-/

namespace Neptune

open ByteMem

namespace Pmm

/-- Bitmaps that are apart, with a bit for each page. -/
structure Separate (rs : List PmmRegion) : Prop where
  total_le : ∀ r ∈ rs, r.totalPages ≤ 8 * r.bitmapBytes
  bitmaps : rs.Pairwise fun r r' =>
    r.bitmapPhys + r.bitmapBytes ≤ r'.bitmapPhys ∨ r'.bitmapPhys + r'.bitmapBytes ≤ r.bitmapPhys

/-- Regions of whole pages whose bitmaps are apart and lie in the reserved pages of one of
them. -/
structure Layout (rs : List PmmRegion) : Prop where
  start_page : ∀ r ∈ rs, r.physStart % 4096 = 0
  end_eq : ∀ r ∈ rs, r.physEnd = r.pageAddr r.totalPages
  total_pos : ∀ r ∈ rs, 0 < r.totalPages
  reserved_le : ∀ r ∈ rs, r.reservedPages ≤ r.totalPages
  total_le : ∀ r ∈ rs, r.totalPages ≤ 8 * r.bitmapBytes
  bitmaps : rs.Pairwise fun r r' =>
    r.bitmapPhys + r.bitmapBytes ≤ r'.bitmapPhys ∨ r'.bitmapPhys + r'.bitmapBytes ≤ r.bitmapPhys
  home : ∃ h ∈ rs, ∀ r ∈ rs, h.physStart ≤ r.bitmapPhys ∧
    r.bitmapPhys + r.bitmapBytes ≤ h.pageAddr h.reservedPages

theorem Layout.separate {rs : List PmmRegion} (hg : Layout rs) : Separate rs :=
  ⟨hg.total_le, hg.bitmaps⟩

/-- Such regions that are apart from each other too. -/
structure Geometry (rs : List PmmRegion) : Prop extends Layout rs where
  apart : rs.Pairwise fun r r' => r.physEnd ≤ r'.physStart ∨ r'.physEnd ≤ r.physStart

/-- The pages that are marked in the bitmaps. -/
def Bits (m : ByteMem) (rs : List PmmRegion) (marked : PmmRegion → ℕ → Prop) : Prop :=
  ∀ r ∈ rs, ∀ p < r.totalPages, m.testBit r.bitmapPhys p = true ↔ marked r p

variable {m m' : ByteMem} {rs : List PmmRegion} {r r' : PmmRegion}
  {marked marked' : PmmRegion → ℕ → Prop}

theorem Bits.congr (h : Bits m rs marked)
    (hm : ∀ r ∈ rs, ∀ p < r.totalPages, (marked' r p ↔ marked r p)) : Bits m rs marked' :=
  fun r hr p hp => (h r hr p hp).trans (hm r hr p hp).symm

/-- Two regions of the list are the same, or their bitmaps are apart. -/
theorem Separate.bitmap_cases (hg : Separate rs) (hr : r ∈ rs) (hr' : r' ∈ rs) :
    r' = r ∨ r.bitmapPhys + r.bitmapBytes ≤ r'.bitmapPhys ∨
      r'.bitmapPhys + r'.bitmapBytes ≤ r.bitmapPhys := by
  by_cases h : r' = r
  · exact .inl h
  · have : Std.Symm fun r r' : PmmRegion => r.bitmapPhys + r.bitmapBytes ≤ r'.bitmapPhys ∨
        r'.bitmapPhys + r'.bitmapBytes ≤ r.bitmapPhys := ⟨fun _ _ h => h.symm⟩
    exact .inr (hg.bitmaps.forall hr hr' (Ne.symm h))

/-- Two regions of the list are the same, or apart. -/
theorem Geometry.region_cases (hg : Geometry rs) (hr : r ∈ rs) (hr' : r' ∈ rs) :
    r' = r ∨ r.physEnd ≤ r'.physStart ∨ r'.physEnd ≤ r.physStart := by
  by_cases h : r' = r
  · exact .inl h
  · have : Std.Symm fun r r' : PmmRegion => r.physEnd ≤ r'.physStart ∨ r'.physEnd ≤ r.physStart :=
      ⟨fun _ _ h => h.symm⟩
    exact .inr (hg.apart.forall hr hr' (Ne.symm h))

/-- The byte of a page's bit is in the bitmap of its region. -/
theorem Separate.byte_lt (hg : Separate rs) (hr : r ∈ rs) {p : ℕ} (hp : p < r.totalPages) :
    p / 8 < r.bitmapBytes := by
  have := hg.total_le r hr
  omega

/-- Pages of the regions have addresses of their own. -/
theorem Geometry.pageAddr_inj (hg : Geometry rs) (hr : r ∈ rs) (hr' : r' ∈ rs) {p p' : ℕ}
    (hp : p < r.totalPages) (hp' : p' < r'.totalPages) (h : r.pageAddr p = r'.pageAddr p') :
    r' = r ∧ p' = p := by
  have hend := hg.end_eq r hr
  have hend' := hg.end_eq r' hr'
  unfold PmmRegion.pageAddr at *
  rcases hg.region_cases hr hr' with rfl | hlt | hlt
  · exact ⟨rfl, by omega⟩
  · omega
  · omega

/-- Marking one page. -/
theorem Bits.setBit (hg : Separate rs) (h : Bits m rs marked) (hr : r ∈ rs) {p : ℕ}
    (hp : p < r.totalPages) :
    Bits (m.setBit r.bitmapPhys p) rs fun r' q => r' = r ∧ q = p ∨ marked r' q := by
  intro r' hr' q hq
  rcases hg.bitmap_cases hr hr' with rfl | hapart
  · rw [testBit_setBit, Bool.or_eq_true, decide_eq_true_eq, h r' hr' q hq]
    simp
  · have hb := hg.byte_lt hr hp
    have hb' := hg.byte_lt hr' hq
    have hne : r'.bitmapPhys + q / 8 ≠ r.bitmapPhys + p / 8 := by omega
    rw [testBit_congr (setBit_apply_of_ne m hne), h r' hr' q hq]
    refine ⟨.inr, fun hm => hm.resolve_left ?_⟩
    rintro ⟨rfl, rfl⟩
    exact hne rfl

/-- Unmarking one page. -/
theorem Bits.clearBit (hg : Separate rs) (h : Bits m rs marked) (hr : r ∈ rs) {p : ℕ}
    (hp : p < r.totalPages) :
    Bits (m.clearBit r.bitmapPhys p) rs fun r' q => ¬ (r' = r ∧ q = p) ∧ marked r' q := by
  intro r' hr' q hq
  rcases hg.bitmap_cases hr hr' with rfl | hapart
  · rw [testBit_clearBit, Bool.and_eq_true, Bool.not_eq_true', decide_eq_false_iff_not, h r' hr' q hq]
    simp
  · have hb := hg.byte_lt hr hp
    have hb' := hg.byte_lt hr' hq
    have hne : r'.bitmapPhys + q / 8 ≠ r.bitmapPhys + p / 8 := by omega
    rw [testBit_congr (clearBit_apply_of_ne m hne), h r' hr' q hq]
    refine ⟨fun hm => ⟨?_, hm⟩, And.right⟩
    rintro ⟨rfl, rfl⟩
    exact hne rfl

/-- Marking a run of pages. -/
theorem Bits.setBits (hg : Separate rs) (hr : r ∈ rs) {p n : ℕ} (h : Bits m rs marked)
    (hp : p + n ≤ r.totalPages) :
    Bits (setBits m r p n) rs fun r' q => r' = r ∧ p ≤ q ∧ q < p + n ∨ marked r' q := by
  induction n generalizing m marked p with
  | zero => exact h.congr fun r' _ q _ => or_iff_right (by omega)
  | succ n ih =>
    refine (ih (h.setBit hg hr (by omega)) (by omega)).congr fun r' _ q _ => ?_
    constructor
    · rintro (⟨rfl, hlo, hhi⟩ | hm)
      · by_cases hq : q = p
        · exact .inr (.inl ⟨rfl, hq⟩)
        · exact .inl ⟨rfl, by omega, by omega⟩
      · exact .inr (.inr hm)
    · rintro (⟨rfl, hlo, hhi⟩ | ⟨rfl, rfl⟩ | hm)
      · exact .inl ⟨rfl, by omega, by omega⟩
      · exact .inl ⟨rfl, le_rfl, by omega⟩
      · exact .inr hm

/-- Memory outside the bitmaps does not matter. -/
theorem Bits.of_bytes (hg : Separate rs) (h : Bits m rs marked)
    (hm : ∀ r ∈ rs, ∀ a, r.bitmapPhys ≤ a → a < r.bitmapPhys + r.bitmapBytes → m' a = m a) :
    Bits m' rs marked := by
  intro r hr p hp
  have hb := hg.byte_lt hr hp
  rw [testBit_congr (hm r hr _ (Nat.le_add_right _ _) (by omega))]
  exact h r hr p hp

end Pmm

end Neptune
