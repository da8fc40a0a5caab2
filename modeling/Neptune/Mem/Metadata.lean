import Neptune.Mem.PmmRun

/-!
# The bitmaps are out of the allocator's reach

`setup_bitmaps` lays all bitmaps into the first pages of one region and reserves those pages.  The
bitmap of that region describes the very pages it is stored in, so its own first bits are the ones
that are set.  From then on no call returns a page with a byte of a bitmap in it.

## Main definitions

* `Pmm.MetadataSafe` — how the bitmaps lie, what is marked and what is counted.
* `PmmState.ClearOfBitmaps` — no allocation returns a page of a bitmap.

## Main results

* `PmmState.metadata_placed` — both, on any regions of whole pages that are apart.
-/

namespace Neptune

/-- The bitmaps and the counts that `setup_bitmaps` leaves. -/
structure Pmm.MetadataSafe (rs : List PmmRegion) (s : Pmm) : Prop where
  /-- The regions are those given. -/
  kept : s.regions.map Pmm.keptFields = rs.map Pmm.keptFields
  disjoint : s.regions.Pairwise fun r r' =>
    r.bitmapPhys + r.bitmapBytes ≤ r'.bitmapPhys ∨ r'.bitmapPhys + r'.bitmapBytes ≤ r.bitmapPhys
  enough : ∀ r ∈ s.regions, r.totalPages ≤ 8 * r.bitmapBytes
  /-- One region holds them all in its first pages, and just these pages are marked. -/
  home : ∃ host ∈ s.regions, host.reservedPages ≤ host.totalPages ∧
    (∀ r ∈ s.regions, host.physStart ≤ r.bitmapPhys ∧
      r.bitmapPhys + r.bitmapBytes ≤ host.pageAddr host.reservedPages) ∧
    ∀ r ∈ s.regions, ∀ p < r.totalPages,
      (s.mem.testBit r.bitmapPhys p = true ↔ r = host ∧ p < host.reservedPages)
  counted : s.managedPages + s.reservedPages = (rs.map PmmRegion.totalPages).sum

namespace PmmState

variable {s : PmmState}

/-- The page at `a` has no byte of a bitmap. -/
def Apart (s : PmmState) (a : ℕ) : Prop :=
  ∀ r ∈ s.pmm.regions, a + 4096 ≤ r.bitmapPhys ∨ r.bitmapPhys + r.bitmapBytes ≤ a

/-- What the next allocation returns is apart from all bitmaps. -/
structure ClearOfBitmaps (s : PmmState) : Prop where
  allocPage : ∀ a p', s.pmm.allocPage = some (a, p') → s.Apart a
  allocPages : ∀ n a p', s.pmm.allocPages n = some (a, p') → ∀ k < n, s.Apart (a + k * 4096)

/-- A page that may be handed out is apart from the bitmaps, which are in reserved pages. -/
theorem Fresh.apart (hl : Pmm.Layout s.pmm.regions) {a : ℕ} (ha : s.Fresh a) : s.Apart a := by
  intro r hr
  obtain ⟨host, hmem, hhome⟩ := hl.home
  obtain ⟨hlo, hhi⟩ := hhome r hr
  have hres := ha.notReserved host hmem
  have hstart := hl.start_page host hmem
  have hpage := ha.page
  unfold PmmRegion.pageAddr at hhi hres
  omega

/-- Only the region of the bitmaps has reserved pages. -/
theorem reserved_unique {rs : List PmmRegion} {p : Pmm} (hset : Pmm.SetUp rs p)
    (hg : Pmm.Geometry p.regions) {r r' : PmmRegion} (hr : r ∈ p.regions) (hr' : r' ∈ p.regions)
    (h : r.reservedPages ≠ 0) (h' : r'.reservedPages ≠ 0) : r' = r := by
  obtain ⟨host, -, hhost⟩ := hset.host
  have hfields : Pmm.keptFields r = Pmm.keptFields r' :=
    ((hhost r hr).resolve_left h).trans ((hhost r' hr').resolve_left h').symm
  have hstart : r.physStart = r'.physStart := congrArg Prod.fst hfields
  -- regions that begin at one place are not apart
  have hpos := hg.total_pos r hr
  have hpos' := hg.total_pos r' hr'
  have hend := hg.end_eq r hr
  have hend' := hg.end_eq r' hr'
  unfold PmmRegion.pageAddr at hend hend'
  rcases hg.region_cases hr hr' with heq | hlt | hlt
  · exact heq
  · omega
  · omega

/-- **Allocator metadata is placed safely**: after `setup_bitmaps` the bitmaps are apart, large
enough and inside the reserved pages of one region, just these pages are marked, the counts add up,
and no page that is returned in any run overlaps a bitmap. -/
theorem metadata_placed {m : ByteMem} {ranges : List (ℕ × ℕ)} {rs : List PmmRegion} {p₀ : Pmm}
    (hranges : ∀ x ∈ ranges, x.1 % 4096 = 0 ∧ x.2 % 4096 = 0 ∧ x.2 < 2 ^ 64)
    (hadd : Pmm.addRegions [] ranges = some rs)
    (hapart : rs.Pairwise fun r r' => r.physEnd ≤ r'.physStart ∨ r'.physEnd ≤ r.physStart)
    (hsetup : Pmm.setupBitmaps m rs = some p₀) :
    Pmm.MetadataSafe rs p₀ ∧ ∀ s, ReachableFrom ⟨p₀, ∅⟩ s → s.ClearOfBitmaps := by
  obtain ⟨hset, hinit⟩ := inv_setUp hranges hadd hapart hsetup
  have hg : Pmm.Geometry p₀.regions := hinit.geometry
  refine ⟨⟨hset.kept, hg.bitmaps, hg.total_le, ?_, hset.counted⟩, fun s hs => ?_⟩
  · obtain ⟨host, hmem, hhome⟩ := hg.home
    refine ⟨host, hmem, hg.reserved_le host hmem, hhome, fun r hr p hp => ?_⟩
    rw [hset.bits r hr p hp]
    constructor
    · intro hlt
      -- the region of the bitmaps has a reserved page, since there is a bitmap in it
      have hpos : host.reservedPages ≠ 0 := by
        have hbytes := hg.total_le r hr
        obtain ⟨hlo, hhi⟩ := hhome r hr
        unfold PmmRegion.pageAddr at hhi
        intro hzero
        rw [hzero] at hhi
        omega
      obtain rfl := reserved_unique hset hg hmem hr hpos (by omega)
      exact ⟨rfl, hlt⟩
    · rintro ⟨rfl, hlt⟩
      exact hlt
  · obtain ⟨hi, -⟩ := hs.inv hinit
    have hl : Pmm.Layout s.pmm.regions := hi.geometry.toLayout
    refine ⟨fun a p' ha => (hi.allocPage ha).1.apart hl, fun n a p' ha k hk => ?_⟩
    exact ((hi.allocPages ha).1 k hk).apart hl

theorem metadata_placed_sample : ∃ rs p₀, Pmm.addRegions [] sampleRanges = some rs ∧
    Pmm.setupBitmaps (fun _ => 1) rs = some p₀ ∧ Pmm.MetadataSafe rs p₀ ∧
      ∀ s, ReachableFrom ⟨p₀, ∅⟩ s → s.ClearOfBitmaps := by
  let rs : List PmmRegion := [⟨0x100000, 0x104000, 0, 0, 4, 0⟩, ⟨0x200000, 0x203000, 0, 0, 3, 0⟩]
  have hadd : Pmm.addRegions [] sampleRanges = some rs := by decide
  have hsome : (Pmm.setupBitmaps (fun _ => 1) rs).isSome = true := by decide
  obtain ⟨p₀, hp₀⟩ := Option.isSome_iff_exists.mp hsome
  exact ⟨rs, p₀, hadd, hp₀, metadata_placed (by decide) hadd (by decide) hp₀⟩

end PmmState

end Neptune
