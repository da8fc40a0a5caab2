import Mathlib.Data.Finset.Union
import Neptune.Mem.PmmRun

/-!
# The window at `HIGHER_HALF_BASE`

`setup_paging` in `boot.s` maps the first GiB of physical memory at `HIGHER_HALF_BASE`.
The bitmaps and the page tables are reached through that window, and nothing keeps them
in it: `setup_bitmaps` compares only the start of a region with the limit, and
`pmm_alloc_page` returns pages of all regions.  They stay in the window exactly if all
regions do.

## Main definitions

* `setupPaging`, `BootMapped` — the window.
* `PmmState.InWindow` — the bitmaps and the next page lie in it.

## Main results

* `Pmm.allocPage_none` — `pmm_alloc_page` gives up only when there is no page.
* `PmmState.every_page` — every free page is handed out sooner or later.
* `in_window_iff` — when all memory reached through the window is inside it.
-/

namespace Neptune

open Nat Option

/-- The 2 MiB pages that the second loop of `setup_paging` maps. -/
def setupPaging : List ℕ := (List.range 512).map (· * 2 ^ 21)

/-- The address can be reached through the window. -/
def BootMapped (phys : ℕ) : Prop := ∃ base ∈ setupPaging, base ≤ phys ∧ phys < base + 2 ^ 21

theorem bootMapped_iff (phys : ℕ) : BootMapped phys ↔ phys < 2 ^ 30 := by
  unfold BootMapped setupPaging
  constructor
  · rintro ⟨base, hbase, hle, hlt⟩
    obtain ⟨i, hi, rfl⟩ := List.mem_map.mp hbase
    have hi' := List.mem_range.mp hi
    omega
  · intro hlt
    refine ⟨phys / 2 ^ 21 * 2 ^ 21, List.mem_map_of_mem (List.mem_range.mpr ?_), ?_, ?_⟩ <;> omega

namespace Pmm

variable {m : ByteMem} {r : PmmRegion} {s : Pmm}

/-! ### The scans find every free page -/

theorem scanFree_none {n page : ℕ} (h : scanFree m r n page = none) :
    ∀ q, page ≤ q → q < page + n → m.testBit r.bitmapPhys q = true := by
  induction n generalizing page with
  | zero => exact fun q hle hlt => absurd hlt (by omega)
  | succ n ih =>
    intro q hle hlt
    rw [scanFree] at h
    split at h
    · next hbit =>
      by_cases hq : q = page
      · exact hq ▸ hbit
      · exact ih h q (by omega) (by omega)
    · cases h

theorem scanRegion_none {atCursor : Bool} {cursorPage : ℕ}
    (h : scanRegion m r atCursor cursorPage = none) :
    ∀ q, r.reservedPages ≤ q → q < r.totalPages → m.testBit r.bitmapPhys q = true := by
  intro q hle hlt
  unfold scanRegion at h
  rw [if_neg (by omega)] at h
  dsimp only at h
  split at h
  · cases h
  next hlater =>
  by_cases hq : scanStart r atCursor cursorPage ≤ q
  · exact scanFree_none hlater q hq (by omega)
  · split at h
    · exact scanFree_none h q hle (by omega)
    · next hno =>
      -- the scan began with the first page of the region
      have hstart : scanStart r atCursor cursorPage ≤ r.reservedPages := by
        by_cases hc : atCursor = true
        · exact not_lt.mp fun hlt' => hno ⟨hc, hlt'⟩
        · unfold scanStart
          dsimp only
          rw [if_neg hc]
          split <;> omega
      omega

theorem scanRegions_none {n i : ℕ} (h : s.scanRegions n i = none) :
    ∀ j, i ≤ j → j < i + n → ∀ r, s.regions[(s.cursorRegion + j) % s.regions.length]? = some r →
      ∀ q, r.reservedPages ≤ q → q < r.totalPages → s.mem.testBit r.bitmapPhys q = true := by
  induction n generalizing i with
  | zero => exact fun j hle hlt => absurd hlt (by omega)
  | succ n ih =>
    intro j hle hlt r hr
    rw [scanRegions] at h
    split at h
    · next hnone =>
      -- an index below the number of regions
      have hlen : s.regions.length ≤ (s.cursorRegion + i) % s.regions.length := by
        simpa using hnone
      obtain ⟨hj, -⟩ := List.getElem?_eq_some_iff.mp hr
      exact absurd (mod_lt (s.cursorRegion + i) (zero_lt_of_lt hj)) (not_lt.mpr hlen)
    · next r' hr' =>
      split at h
      · cases h
      next hscan =>
      by_cases hj : j = i
      · subst hj
        obtain rfl := some.inj (hr'.symm.trans hr)
        exact scanRegion_none hscan
      · exact ih h j (by omega) (by omega) r hr

/-- **`pmm_alloc_page` panics only when every page is taken.** -/
theorem allocPage_none (h : s.allocPage = none) {r : PmmRegion} (hr : r ∈ s.regions) :
    ∀ q, r.reservedPages ≤ q → q < r.totalPages → s.mem.testBit r.bitmapPhys q = true := by
  obtain ⟨k, hk⟩ := List.mem_iff_getElem?.mp hr
  obtain ⟨hlt, -⟩ := List.getElem?_eq_some_iff.mp hk
  have hpos : 0 < s.regions.length := by omega
  have hmod := mod_lt s.cursorRegion hpos
  -- the pass that comes to the region
  obtain ⟨j, hj, hpass⟩ : ∃ j < s.regions.length, (s.cursorRegion + j) % s.regions.length = k := by
    refine ⟨(k + s.regions.length - s.cursorRegion % s.regions.length) % s.regions.length,
      mod_lt _ hpos, ?_⟩
    have hsplit := div_add_mod s.cursorRegion s.regions.length
    rw [add_mod_mod]
    have hsum : s.cursorRegion + (k + s.regions.length - s.cursorRegion % s.regions.length) =
        k + s.regions.length * (s.cursorRegion / s.regions.length + 1) := by
      rw [mul_add, mul_one]
      omega
    rw [hsum, add_mul_mod_self_left, mod_eq_of_lt hlt]
  exact scanRegions_none (map_eq_none_iff.mp h) j (zero_le j) (by omega) r (by rw [hpass]; exact hk)

end Pmm

namespace PmmState

variable {s s' s₀ : PmmState} {r : PmmRegion} {p : ℕ}

/-- The pages that `pmm_alloc_page` can still hand out. -/
def unmarked (s : Pmm) : Finset (PmmRegion × ℕ) :=
  s.regions.toFinset.biUnion fun r =>
    ((Finset.range r.totalPages).filter fun p =>
      s.mem.testBit r.bitmapPhys p = false).image fun p => (r, p)

theorem mem_unmarked {s : Pmm} :
    (r, p) ∈ unmarked s ↔ r ∈ s.regions ∧ p < r.totalPages ∧ s.mem.testBit r.bitmapPhys p = false := by
  simp only [unmarked, Finset.mem_biUnion, List.mem_toFinset, Finset.mem_image, Finset.mem_filter,
    Finset.mem_range, Prod.mk.injEq]
  constructor
  · rintro ⟨r', hr', p', ⟨hp', hbit⟩, rfl, rfl⟩
    exact ⟨hr', hp', hbit⟩
  · rintro ⟨hr, hp, hbit⟩
    exact ⟨r, hr, p, ⟨hp, hbit⟩, rfl, rfl⟩

/-- One call takes one page. -/
theorem unmarked_allocPage {s s' : Pmm} {a : ℕ} (hl : Pmm.Layout s.regions)
    (h : s.allocPage = some (a, s')) :
    s'.regions = s.regions ∧ ∃ r p, (r, p) ∈ unmarked s ∧ a = r.pageAddr p ∧
      unmarked s' = (unmarked s).erase (r, p) := by
  obtain ⟨⟨idx, r, p⟩, hscan, heq⟩ := map_eq_some_iff.mp h
  obtain ⟨rfl, rfl⟩ := Prod.mk.inj heq
  obtain ⟨hr, -, hp, hbit⟩ := Pmm.scanRegions_spec hscan
  refine ⟨rfl, r, p, mem_unmarked.mpr ⟨hr, hp, hbit⟩, rfl, ?_⟩
  have hbits : Pmm.Bits s.mem s.regions fun r p => s.mem.testBit r.bitmapPhys p = true :=
    fun _ _ _ _ => Iff.rfl
  ext ⟨r', q⟩
  rw [Finset.mem_erase, mem_unmarked, mem_unmarked]
  constructor
  · rintro ⟨hr', hq, hclear⟩
    have hset := hbits.setBit hl.separate hr hp r' hr' q hq
    dsimp only at hclear
    rw [hclear] at hset
    simp only [Bool.false_eq_true, false_iff, not_or, Bool.not_eq_true] at hset
    exact ⟨fun he => hset.1 (Prod.mk.inj he), hr', hq, hset.2⟩
  · rintro ⟨hne, hr', hq, hclear⟩
    refine ⟨hr', hq, ?_⟩
    have hset := hbits.setBit hl.separate hr hp r' hr' q hq
    by_contra hbit'
    rcases hset.mp (by simpa using hbit') with hsame | hmarked
    · exact hne (Prod.ext hsame.1 hsame.2)
    · rw [hclear] at hmarked
      cases hmarked

/-- **Every free page is handed out sooner or later**, if nothing is given back. -/
theorem every_page (hl : Pmm.Layout s.pmm.regions) (hfree : (r, p) ∈ unmarked s.pmm)
    (hres : r.reservedPages ≤ p) :
    ∃ s', ReachableFrom s s' ∧ ∃ p', s'.pmm.allocPage = some (r.pageAddr p, p') := by
  induction hn : (unmarked s.pmm).card generalizing s with
  | zero =>
    rw [Finset.card_eq_zero.mp hn] at hfree
    exact absurd hfree (Finset.notMem_empty _)
  | succ n ih =>
    cases halloc : s.pmm.allocPage with
    | none =>
      obtain ⟨hr, hp, hclear⟩ := mem_unmarked.mp hfree
      rw [Pmm.allocPage_none halloc hr p hres hp] at hclear
      cases hclear
    | some ap =>
      obtain ⟨a, next⟩ := ap
      obtain ⟨hregs, r', p', hfree', rfl, hrest⟩ := unmarked_allocPage hl halloc
      by_cases hsame : (r, p) = (r', p')
      · obtain ⟨rfl, rfl⟩ := Prod.mk.inj hsame
        exact ⟨s, .init rfl, next, halloc⟩
      · -- another page has been taken, and one less is left
        let t : PmmState := ⟨next, insert (r'.pageAddr p') s.live⟩
        have hstep : s.step .allocPage = some t := by
          rw [PmmState.step, halloc]
          rfl
        have hcard : (unmarked t.pmm).card = n := by
          have hcard' := Finset.card_erase_of_mem hfree'
          rw [← hrest] at hcard'
          exact hcard'.trans (by omega)
        obtain ⟨s', hreach, hs'⟩ := ih (s := t) (hregs ▸ hl)
          (hrest ▸ Finset.mem_erase.mpr ⟨hsame, hfree⟩) hcard
        refine ⟨s', ?_, hs'⟩
        -- a run from the next state is a run from this one
        exact Reach.trans hreach fun u hu => hu ▸ .step (.init rfl) ⟨_, hstep⟩

/-- The bitmaps, and the page that `pmm_alloc_page` returns next, can be reached through the
window. -/
structure InWindow (s : PmmState) : Prop where
  bitmaps : ∀ r ∈ s.pmm.regions, ∀ i < r.bitmapBytes, BootMapped (r.bitmapPhys + i)
  frames : ∀ a p', s.pmm.allocPage = some (a, p') → ∀ i < 4096, BootMapped (a + i)

/-- The regions stay as they are. -/
theorem step_regions {op : PmmOp} (h : s.step op = some s') : s'.pmm.regions = s.pmm.regions := by
  have halloc : ∀ {q : Pmm} {a q'}, q.allocPage = some (a, q') → q'.regions = q.regions := by
    intro q a q' hq
    obtain ⟨_, -, heq⟩ := map_eq_some_iff.mp hq
    exact (Prod.mk.inj heq).2 ▸ rfl
  cases op with
  | allocPage =>
    obtain ⟨⟨a, q⟩, hq, rfl⟩ := map_eq_some_iff.mp h
    exact halloc hq
  | allocPages n =>
    obtain ⟨⟨a, q⟩, hq, rfl⟩ := map_eq_some_iff.mp h
    unfold Pmm.allocPages at hq
    split at hq
    · obtain ⟨-, rfl⟩ := Prod.mk.inj (some.inj hq)
      rfl
    split at hq
    · exact halloc hq
    · obtain ⟨_, -, heq⟩ := map_eq_some_iff.mp hq
      exact (Prod.mk.inj heq).2 ▸ rfl
  | freePage addr =>
    obtain ⟨q, hq, rfl⟩ := map_eq_some_iff.mp h
    unfold Pmm.freePage at hq
    split at hq
    · cases hq
    dsimp only at hq
    split at hq
    · cases hq
    split at hq
    · cases hq
    split at hq
    · exact some.inj hq ▸ rfl
    · cases hq
  | write addr b =>
    rw [PmmState.step] at h
    split at h
    · exact some.inj h ▸ rfl
    · cases h

theorem ReachableFrom.regions (h : ReachableFrom s₀ s) : s.pmm.regions = s₀.pmm.regions :=
  Reach.invariant (I := fun s => s.pmm.regions = s₀.pmm.regions) h (by rintro s rfl; rfl)
    fun _ _ hi ⟨_, hs⟩ => (step_regions hs).trans hi

/-- Regions below 1 GiB are in the window with their bitmaps and all their pages. -/
theorem inWindow_of_regions (hl : Pmm.Layout s.pmm.regions)
    (hlow : ∀ r ∈ s.pmm.regions, r.physEnd ≤ 2 ^ 30) : s.InWindow := by
  refine ⟨fun r hr i hi => ?_, fun a p' ha i hi => ?_⟩
  · obtain ⟨h, hh, hhome⟩ := hl.home
    have hin := (hhome r hr).2
    have hres := hl.reserved_le h hh
    have hend := hl.end_eq h hh
    have hlt := hlow h hh
    rw [bootMapped_iff]
    unfold PmmRegion.pageAddr at hin hend
    omega
  · obtain ⟨-, r, p, hfree, rfl, -⟩ := unmarked_allocPage hl ha
    obtain ⟨hr, hp, -⟩ := mem_unmarked.mp hfree
    have hend := hl.end_eq r hr
    have hlt := hlow r hr
    rw [bootMapped_iff]
    unfold PmmRegion.pageAddr at hend ⊢
    omega

/-- **When all memory reached through the window is inside it**: exactly if no region goes
beyond 1 GiB. -/
theorem in_window_iff {m : ByteMem} {ranges : List (ℕ × ℕ)} {rs : List PmmRegion} {p₀ : Pmm}
    (hranges : ∀ x ∈ ranges, x.1 % 4096 = 0 ∧ x.2 % 4096 = 0 ∧ x.2 < 2 ^ 64)
    (hadd : Pmm.addRegions [] ranges = some rs) (hsetup : Pmm.setupBitmaps m rs = some p₀) :
    (∀ s, ReachableFrom ⟨p₀, ∅⟩ s → s.InWindow) ↔ ∀ r ∈ rs, r.physEnd ≤ 2 ^ 30 := by
  have hok : ∀ r ∈ rs, Pmm.RegionOk r := Pmm.addRegions_ok hranges hadd
  obtain ⟨hl, hbits, -, -, hkept, -, htight⟩ := Pmm.setupBitmaps_spec hok hsetup
  have hends : ∀ e, (∃ r ∈ p₀.regions, r.physEnd = e) ↔ ∃ r ∈ rs, r.physEnd = e := by
    intro e
    have hmap : p₀.regions.map (·.physEnd) = rs.map (·.physEnd) := by
      have := congrArg (List.map fun f : ℕ × ℕ × ℕ => f.2.1) hkept
      simpa [List.map_map, Function.comp_def, Pmm.keptFields] using this
    rw [← List.mem_map, ← List.mem_map, hmap]
  constructor
  · intro hall r₀ hr₀
    by_contra hhigh
    obtain ⟨r, hr, hend⟩ := (hends r₀.physEnd).mpr ⟨r₀, hr₀, rfl⟩
    have hpage := (hok r₀ hr₀).end_page
    have hend' := hl.end_eq r hr
    have htotal := hl.total_pos r hr
    unfold PmmRegion.pageAddr at hend'
    by_cases hres : r.reservedPages < r.totalPages
    · -- the last page of the region is handed out at some time
      have hclear : p₀.mem.testBit r.bitmapPhys (r.totalPages - 1) = false := by
        have hiff := hbits r hr (r.totalPages - 1) (by omega)
        by_contra hset
        exact absurd (hiff.mp (by simpa using hset)) (by omega)
      obtain ⟨s', hreach, p', halloc⟩ := every_page (s := ⟨p₀, ∅⟩) hl
        (mem_unmarked.mpr ⟨hr, by omega, hclear⟩) (by omega)
      have hmapped := (hall s' hreach).frames _ _ halloc 0 (by decide)
      rw [bootMapped_iff, PmmRegion.pageAddr] at hmapped
      omega
    · -- the bitmaps fill the region
      obtain hzero | ⟨r', hr', hlt⟩ := htight r hr
      · omega
      · have hbytes := hl.total_le r' hr'
        have htotal' := hl.total_pos r' hr'
        have hmapped := (hall _ (.init rfl)).bitmaps r' hr' (r'.bitmapBytes - 1) (by omega)
        rw [bootMapped_iff] at hmapped
        have hle := hl.reserved_le r hr
        obtain hresEq : r.reservedPages = r.totalPages := by omega
        rw [PmmRegion.pageAddr, hresEq] at hlt
        omega
  · intro hlow s hs
    have hregs : s.pmm.regions = p₀.regions := ReachableFrom.regions hs
    refine inWindow_of_regions (hregs ▸ hl) fun r hr => ?_
    obtain ⟨r₀, hr₀, hend⟩ := (hends r.physEnd).mp ⟨r, hregs ▸ hr, rfl⟩
    exact hend ▸ hlow r₀ hr₀

theorem in_window_iff_sample : ∃ rs p₀, Pmm.addRegions [] sampleRanges = some rs ∧
    Pmm.setupBitmaps (fun _ => 1) rs = some p₀ ∧
    ((∀ s, ReachableFrom ⟨p₀, ∅⟩ s → s.InWindow) ↔ ∀ r ∈ rs, r.physEnd ≤ 2 ^ 30) := by
  let rs : List PmmRegion := [⟨0x100000, 0x104000, 0, 0, 4, 0⟩, ⟨0x200000, 0x203000, 0, 0, 3, 0⟩]
  have hadd : Pmm.addRegions [] sampleRanges = some rs := by decide
  have hsome : (Pmm.setupBitmaps (fun _ => 1) rs).isSome = true := by decide
  obtain ⟨p₀, hp₀⟩ := isSome_iff_exists.mp hsome
  exact ⟨rs, p₀, hadd, hp₀, in_window_iff (by decide) hadd hp₀⟩

/-- Four pages below 1 GiB and two above. -/
def highRanges : List (ℕ × ℕ) := [(0x100000, 0x104000), (0x40000000, 0x40002000)]

/-- When the three free pages below 1 GiB are taken, `pmm_alloc_page` returns one above. -/
theorem page_table_above_window : ∃ rs p₀ s p', Pmm.addRegions [] highRanges = some rs ∧
    Pmm.setupBitmaps (fun _ => 1) rs = some p₀ ∧ ReachableFrom ⟨p₀, ∅⟩ s ∧
    s.pmm.allocPage = some (0x40000000, p') ∧ ¬BootMapped 0x40000000 := by
  let rs : List PmmRegion :=
    [⟨0x100000, 0x104000, 0, 0, 4, 0⟩, ⟨0x40000000, 0x40002000, 0, 0, 2, 0⟩]
  have hadd : Pmm.addRegions [] highRanges = some rs := by decide
  have hrun : (((Pmm.setupBitmaps (fun _ => 1) rs).bind fun p₀ =>
      runAll step ⟨p₀, ∅⟩ [.allocPage, .allocPage, .allocPage]).bind fun s =>
        s.pmm.allocPage.map Prod.fst) = some 0x40000000 := by decide +kernel
  obtain ⟨s, hs, halloc⟩ := bind_eq_some_iff.mp hrun
  obtain ⟨p₀, hp₀, hs⟩ := bind_eq_some_iff.mp hs
  obtain ⟨⟨a, p'⟩, halloc, rfl⟩ := map_eq_some_iff.mp halloc
  refine ⟨rs, p₀, s, p', hadd, hp₀, Reach.of_runAll (.init rfl) hs, halloc, ?_⟩
  rw [bootMapped_iff]
  decide

end PmmState

end Neptune
