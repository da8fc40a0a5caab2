import Neptune.Mem.Window

/-!
# Allocations fail only when they must

`pmm_alloc_page` begins at a rotating cursor and comes round to every page of every region, so it
panics only when all of them are taken.  `pmm_alloc_pages` looks for a run of free pages, but skips
a region that has exactly as many pages to hand out as are asked for.

## Main definitions

* `Pmm.FreeRun` — pages that can be handed out together.
* `Pmm.Marks` — what an allocation changes in the bitmaps.
* `Pmm.Serves` — `pmm_alloc_pages` fails only when it must.

## Main results

* `Pmm.alloc_pages_serves_iff` — when it does.
* `PmmState.alloc_page_finds_free` — `pmm_alloc_page` always does.
-/

namespace Neptune

open List Option
open Word64

namespace Pmm

variable {m : ByteMem} {r : PmmRegion} {s s' : Pmm} {n p a : ℕ}

/-- The `n` pages from `p` on are in the region, not reserved and free. -/
def FreeRun (m : ByteMem) (r : PmmRegion) (p n : ℕ) : Prop :=
  r.reservedPages ≤ p ∧ p + n ≤ r.totalPages ∧ ∀ k < n, m.testBit r.bitmapPhys (p + k) = false

instance : Decidable (FreeRun m r p n) :=
  inferInstanceAs (Decidable (_ ∧ _ ∧ ∀ k < n, _))

/-- Exactly the `n` pages from page `p` of the region `r` on have been marked. -/
def Marks (s s' : Pmm) (r : PmmRegion) (p n : ℕ) : Prop :=
  s'.regions = s.regions ∧ Bits s'.mem s.regions fun r' q =>
    r' = r ∧ p ≤ q ∧ q < p + n ∨ s.mem.testBit r'.bitmapPhys q = true

/-- The pages from `p` on are returned, and marked. -/
def Takes (s : Pmm) (n a : ℕ) (s' : Pmm) : Prop :=
  ∃ r ∈ s.regions, ∃ p, FreeRun s.mem r p n ∧ a = r.pageAddr p ∧ Marks s s' r p n

/-- `pmm_alloc_pages(n)` panics only if no region has a run of `n` free pages, and else takes one. -/
def Serves (s : Pmm) (n : ℕ) : Prop :=
  match s.allocPages n with
  | none => ∀ r ∈ s.regions, ∀ p, ¬FreeRun s.mem r p n
  | some (a, s') => s.Takes n a s'

/-! ### Single pages -/

theorem allocPage_takes (hs : Separate s.regions) (h : s.allocPage = some (a, s')) :
    s.Takes 1 a s' := by
  obtain ⟨⟨idx, r, p⟩, hscan, heq⟩ := map_eq_some_iff.mp h
  obtain ⟨rfl, rfl⟩ := Prod.mk.inj heq
  obtain ⟨hr, hlo, hhi, hbit⟩ := scanRegions_spec hscan
  have hfree : ∀ k < 1, s.mem.testBit r.bitmapPhys (p + k) = false := by
    intro k hk
    obtain rfl : k = 0 := by omega
    exact hbit
  refine ⟨r, hr, p, ⟨hlo, hhi, hfree⟩, rfl, rfl, ?_⟩
  have hmarked : Bits s.mem s.regions fun r' q => s.mem.testBit r'.bitmapPhys q = true :=
    fun _ _ _ _ => Iff.rfl
  exact hmarked.setBits hs hr (p := p) (n := 1) hhi

theorem allocPage_none_no_run (h : s.allocPage = none) (hr : r ∈ s.regions) :
    ¬FreeRun s.mem r p 1 := by
  rintro ⟨hlo, hhi, hfree⟩
  have htaken := allocPage_none h hr p hlo (by omega)
  have hbit := hfree 0 (by decide)
  rw [Nat.add_zero, htaken] at hbit
  cases hbit

/-! ### Runs of pages -/

/-- The loop invariant again: with the last `consecutive` pages free and too few, a scan that fails
has met a taken page in every place for a run. -/
theorem scanRun_none {want page consecutive startRun : ℕ} (hc : consecutive < want)
    (hle : consecutive ≤ page) (h : scanRun m r want n page consecutive startRun = none) :
    ∀ p, page - consecutive ≤ p → p + want ≤ page + n →
      ∃ q, p ≤ q ∧ q < p + want ∧ m.testBit r.bitmapPhys q = true := by
  induction n generalizing page consecutive startRun with
  | zero =>
    intro p hlo hhi
    omega
  | succ n ih =>
    intro p hlo hhi
    rw [scanRun] at h
    split at h
    · next hbit =>
      by_cases hp : p ≤ page
      · exact ⟨page, hp, by omega, hbit⟩
      · exact ih (by omega) (Nat.zero_le _) h p (by omega) (by omega)
    · dsimp only at h
      split at h
      · cases h
      · exact ih (by omega) (by omega) h p (by omega) (by omega)

/-- What the outer loop has looked at and refused. -/
theorem firstRun_none {rs : List PmmRegion} (hn : 0 < n) (h : firstRun m n rs = none) :
    ∀ r ∈ rs, u64 (r.reservedPages + n) < r.totalPages → ∀ p, ¬FreeRun m r p n := by
  induction rs with
  | nil => exact fun r hr => absurd hr not_mem_nil
  | cons r' rs ih =>
    intro r hr hlt p hrun
    rw [firstRun] at h
    rcases mem_cons.mp hr with rfl | hr
    · rw [if_neg (by omega)] at h
      split at h
      · cases h
      next hscan =>
      obtain ⟨hlo, hhi, hfree⟩ := hrun
      obtain ⟨q, hq, hq', hbit⟩ := scanRun_none hn (Nat.zero_le _) hscan p hlo (by omega)
      have hclear := hfree (q - p) (by omega)
      rw [Nat.add_sub_cancel' hq, hbit] at hclear
      cases hclear
    · split at h
      · exact ih h r hr hlt p hrun
      · split at h
        · cases h
        · exact ih h r hr hlt p hrun

/-- The outer loop stops at a region that has passed its test. -/
theorem firstRun_passed {rs : List PmmRegion} (h : firstRun m n rs = some (r, p)) :
    u64 (r.reservedPages + n) < r.totalPages := by
  induction rs with
  | nil => cases h
  | cons r' rs ih =>
    rw [firstRun] at h
    split at h
    · exact ih h
    next hpass =>
    split at h
    · obtain ⟨rfl, -⟩ := Prod.mk.inj (some.inj h)
      exact not_le.mp hpass
    · exact ih h

/-- The test of a region: where there is room for the run, it asks for one page more. -/
theorem u64_lt_totalPages_iff (hfit : r.pageAddr r.totalPages ≤ 2 ^ 64)
    (hroom : r.reservedPages + n ≤ r.totalPages) :
    u64 (r.reservedPages + n) < r.totalPages ↔ r.totalPages ≠ r.reservedPages + n := by
  unfold PmmRegion.pageAddr at hfit
  rw [u64_of_lt (by omega)]
  omega

theorem FreeRun.room (h : FreeRun m r p n) : r.reservedPages + n ≤ r.totalPages := by
  obtain ⟨hlo, hhi, -⟩ := h
  omega

/-- A run that fills the region begins with its first page. -/
theorem FreeRun.eq_reserved (h : FreeRun m r p n) (htotal : r.totalPages = r.reservedPages + n) :
    p = r.reservedPages := by
  obtain ⟨hlo, hhi, -⟩ := h
  omega

/-- **When `pmm_alloc_pages` fails only when it must**: exactly if `n` is 1, or if for every region
of exactly `n` pages to hand out that are all free there is another run of `n` free pages, in a
region that has more. -/
theorem alloc_pages_serves_iff (hs : Separate s.regions)
    (hfit : ∀ r ∈ s.regions, r.pageAddr r.totalPages ≤ 2 ^ 64) (hn : 1 ≤ n) :
    s.Serves n ↔ n = 1 ∨ ∀ r ∈ s.regions, r.totalPages = r.reservedPages + n →
      FreeRun s.mem r r.reservedPages n →
        ∃ r' ∈ s.regions, r'.reservedPages + n < r'.totalPages ∧ ∃ p, FreeRun s.mem r' p n := by
  by_cases hone : n = 1
  · subst hone
    refine iff_of_true ?_ (.inl rfl)
    rw [Serves, allocPages, if_neg (by decide), if_pos rfl]
    cases h : s.allocPage with
    | none => exact fun r hr p => allocPage_none_no_run h hr
    | some x => exact allocPage_takes hs h
  · rw [or_iff_right hone, Serves, allocPages, if_neg (by omega), if_neg hone]
    cases h : firstRun s.mem n s.regions with
    | none =>
      have hnone := firstRun_none (by omega) h
      constructor
      · intro hno r hr _ hrun
        exact absurd hrun (hno r hr _)
      · intro hmore r hr p hrun
        -- the region was skipped, so it has no more pages than these
        have hexact : r.totalPages = r.reservedPages + n := by
          by_contra hne
          exact hnone r hr ((u64_lt_totalPages_iff (hfit r hr) hrun.room).mpr hne) p hrun
        obtain rfl := hrun.eq_reserved hexact
        obtain ⟨r', hr', hlt, p, hrun'⟩ := hmore r hr hexact hrun
        refine hnone r' hr' ?_ p hrun'
        rw [u64_lt_totalPages_iff (hfit r' hr') hrun'.room]
        omega
    | some x =>
      obtain ⟨r, p⟩ := x
      obtain ⟨hr, hlo, hhi, hfree⟩ := firstRun_spec (by omega) h
      have hrun : FreeRun s.mem r p n := ⟨hlo, hhi, fun k hk => hfree _ (by omega) (by omega)⟩
      have hmarked : Bits s.mem s.regions fun r' q => s.mem.testBit r'.bitmapPhys q = true :=
        fun _ _ _ _ => Iff.rfl
      refine iff_of_true ⟨r, hr, p, hrun, rfl, rfl, hmarked.setBits hs hr hhi⟩ fun _ _ _ _ => ?_
      have hne := (u64_lt_totalPages_iff (hfit r hr) hrun.room).mp (firstRun_passed h)
      have hroom := hrun.room
      exact ⟨r, hr, by omega, p, hrun⟩

/-- The regions of the sample after `setup_bitmaps`. -/
def sampleSetUp : List PmmRegion :=
  [⟨0x100000, 0x104000, 0x100000, 1, 4, 1⟩, ⟨0x200000, 0x203000, 0x100001, 1, 3, 0⟩]

theorem alloc_pages_serves_sample : ∃ p₀,
    setupBitmaps (fun _ => 1) [⟨0x100000, 0x104000, 0, 0, 4, 0⟩, ⟨0x200000, 0x203000, 0, 0, 3, 0⟩] =
      some p₀ ∧ p₀.Serves 2 := by
  have hrun : (setupBitmaps (fun _ => 1) [⟨0x100000, 0x104000, 0, 0, 4, 0⟩,
      ⟨0x200000, 0x203000, 0, 0, 3, 0⟩]).map Pmm.regions = some sampleSetUp := by decide
  obtain ⟨p₀, hp₀, hregs⟩ := map_eq_some_iff.mp hrun
  refine ⟨p₀, hp₀, (alloc_pages_serves_iff ?_ ?_ (by decide)).mpr (.inr ?_)⟩
  · rw [hregs]
    exact ⟨by decide, by decide⟩
  · rw [hregs]
    decide
  · rw [hregs]
    intro r hr htotal
    have hnone : ∀ r ∈ sampleSetUp, r.totalPages ≠ r.reservedPages + 2 := by decide
    exact absurd htotal (hnone r hr)

/-- A machine with one region of three pages: after boot one of them is reserved, the two others
are free, and a request for two pages panics. -/
theorem alloc_pages_skips_exact_region : ∃ rs p₀ r,
    addRegions [] [(0x100000, 0x103000)] = some rs ∧ setupBitmaps (fun _ => 0) rs = some p₀ ∧
      p₀.regions = [r] ∧ FreeRun p₀.mem r 1 2 ∧ p₀.allocPages 2 = none ∧ ¬p₀.Serves 2 := by
  let rs : List PmmRegion := [⟨0x100000, 0x103000, 0, 0, 3, 0⟩]
  let r : PmmRegion := ⟨0x100000, 0x103000, 0x100000, 1, 3, 1⟩
  have hrun : (setupBitmaps (fun _ => 0) rs).map (fun p =>
      (p.regions, decide (FreeRun p.mem r 1 2), (p.allocPages 2).isNone)) =
        some ([r], true, true) := by decide
  obtain ⟨p₀, hp₀, heq⟩ := map_eq_some_iff.mp hrun
  simp only [Prod.mk.injEq, decide_eq_true_eq, isNone_iff_eq_none] at heq
  obtain ⟨hregs, hfree, hnone⟩ := heq
  refine ⟨rs, p₀, r, by decide, hp₀, hregs, hfree, hnone, fun hserves => ?_⟩
  rw [Serves, hnone] at hserves
  exact hserves r (by rw [hregs]; exact mem_singleton_self r) 1 hfree

/-! ### The bitmaps of any regions are apart -/

/-- A region as `pmm_add_region` makes it: it has no bitmap yet. -/
structure Bare (r : PmmRegion) : Prop where
  bitmapPhys : r.bitmapPhys = 0
  bitmapBytes : r.bitmapBytes = 0
  total_lt : r.totalPages < 2 ^ 52

theorem addRegions_bare {ranges : List (ℕ × ℕ)} {rs : List PmmRegion}
    (hranges : ∀ x ∈ ranges, x.2 < 2 ^ 64) (h : addRegions [] ranges = some rs) : ∀ r ∈ rs, Bare r := by
  refine forall_of_addRegions (fun x hx _ => ⟨rfl, rfl, ?_⟩) (by simp) h
  have hlt := hranges x hx
  dsimp only
  omega

/-- The loop lays the bitmaps one behind the other; a region without pages gets none. -/
theorem placeBitmaps_separate (m : ByteMem) (cursor : ℕ) {rs : List PmmRegion}
    (hrs : ∀ r ∈ rs, Bare r) :
    Separate (placeBitmaps m cursor rs).2.2 ∧ (∀ r ∈ (placeBitmaps m cursor rs).2.2,
        r.bitmapPhys + r.bitmapBytes = 0 ∨ cursor ≤ r.bitmapPhys) ∧
      (placeBitmaps m cursor rs).2.2.map keptFields = rs.map keptFields := by
  induction rs generalizing m cursor with
  | nil =>
    refine ⟨⟨fun r hr => ?_, List.Pairwise.nil⟩, fun r hr => ?_, rfl⟩
    · exact absurd hr not_mem_nil
    · exact absurd hr not_mem_nil
  | cons r rs ih =>
    have hbare := hrs r mem_cons_self
    have hrest : ∀ r ∈ rs, Bare r := fun r' hr' => hrs r' (mem_cons_of_mem _ hr')
    rw [placeBitmaps]
    split
    · next hzero =>
      obtain ⟨hsep, hlow, hkept⟩ := ih m cursor hrest
      have hnone : r.bitmapPhys + r.bitmapBytes = 0 := by rw [hbare.bitmapPhys, hbare.bitmapBytes]
      refine ⟨⟨forall_mem_cons.mpr ⟨by omega, hsep.total_le⟩,
        pairwise_cons.mpr ⟨fun r' _ => .inl (by omega), hsep.bitmaps⟩⟩,
        forall_mem_cons.mpr ⟨.inl hnone, hlow⟩, ?_⟩
      exact congrArg (List.cons (keptFields r)) hkept
    · obtain ⟨hsep, hlow, hkept⟩ := ih (m.fill r.bitmapSize cursor 0) (cursor + r.bitmapSize) hrest
      refine ⟨⟨forall_mem_cons.mpr ⟨le_bitmapSize hbare.total_lt, hsep.total_le⟩,
        pairwise_cons.mpr ⟨fun r' hr' => ?_, hsep.bitmaps⟩⟩,
        forall_mem_cons.mpr ⟨.inr le_rfl, fun r' hr' => ?_⟩, ?_⟩
      · rcases hlow r' hr' with hnone | hle
        · exact .inr (by rw [hnone]; exact Nat.zero_le _)
        · exact .inl hle
      · rcases hlow r' hr' with hnone | hle
        · exact .inl hnone
        · exact .inr (by omega)
      · exact congrArg (List.cons (keptFields r)) hkept

theorem reserveAll_regions (s : Pmm) (L : List PmmRegion) :
    (reserveAll s L).regions = s.regions := by
  induction L generalizing s with
  | nil => rfl
  | cons r L ih =>
    rw [reserveAll]
    split
    · exact ih s
    · exact ih _

/-- The number of reserved pages has nothing to do with the bitmaps. -/
theorem Separate.withReserved {rs : List PmmRegion} (hs : Separate rs) (i n : ℕ) :
    Separate (withReserved rs i n) := by
  refine ⟨fun r hr => ?_, ?_⟩
  · have hmem : (r.totalPages, r.bitmapBytes) ∈ rs.map fun r => (r.totalPages, r.bitmapBytes) := by
      rw [← map_withReserved (fun _ => rfl) rs i]
      exact mem_map_of_mem hr
    obtain ⟨r', hr', heq⟩ := mem_map.mp hmem
    obtain ⟨htotal, hbytes⟩ := Prod.mk.inj heq
    rw [← htotal, ← hbytes]
    exact hs.total_le r' hr'
  · exact pairwise_of_map_eq (g := bitmapFields)
      (R := fun a b => a.1 + a.2 ≤ b.1 ∨ b.1 + b.2 ≤ a.1) (map_withReserved (fun _ => rfl) rs i)
      hs.bitmaps

/-- Whatever the regions are, `setup_bitmaps` gives each a bitmap of its own. -/
theorem setupBitmaps_separate {rs : List PmmRegion} (hrs : ∀ r ∈ rs, Bare r)
    (h : setupBitmaps m rs = some s) :
    Separate s.regions ∧ s.regions.map keptFields = rs.map keptFields := by
  unfold setupBitmaps at h
  dsimp only at h
  split at h
  · cases h
  next i host _ =>
  split at h
  · cases h
  split at h
  · cases h
  obtain rfl := some.inj h
  obtain ⟨hsep, -, hkept⟩ := placeBitmaps_separate m (alignUp host.physStart 4096) hrs
  rw [reserveAll_regions]
  exact ⟨hsep.withReserved _ _, (map_withReserved (fun _ => rfl) _ i).trans hkept⟩

end Pmm

namespace PmmState

/-- **`pmm_alloc_page` finds every free page**, wherever the cursor stands: over every run of calls
it panics only if every page that is not reserved is marked, and otherwise marks exactly one page
that was free.  Its address is not 0 if all regions lie above the kernel image. -/
theorem alloc_page_finds_free {m : ByteMem} {ranges : List (ℕ × ℕ)} {rs : List PmmRegion}
    {p₀ : Pmm} {s : PmmState} (hranges : ∀ x ∈ ranges, x.2 < 2 ^ 64)
    (hadd : Pmm.addRegions [] ranges = some rs) (hsetup : Pmm.setupBitmaps m rs = some p₀)
    (h : ReachableFrom ⟨p₀, ∅⟩ s) :
    (s.pmm.allocPage = none → ∀ r ∈ s.pmm.regions, ∀ p, r.reservedPages ≤ p → p < r.totalPages →
      s.pmm.mem.testBit r.bitmapPhys p = true) ∧
    ∀ a p', s.pmm.allocPage = some (a, p') → s.pmm.Takes 1 a p' ∧
      ∀ kernelEnd > 0, (∀ r ∈ rs, kernelEnd ≤ r.physStart) → a ≠ 0 := by
  have hbare : ∀ r ∈ rs, Pmm.Bare r :=
    Pmm.addRegions_bare hranges hadd
  obtain ⟨hsep, hkept⟩ := Pmm.setupBitmaps_separate hbare hsetup
  have hregs : s.pmm.regions = p₀.regions := h.regions
  refine ⟨fun hnone r hr => Pmm.allocPage_none hnone hr, fun a p' ha => ?_⟩
  have htakes := Pmm.allocPage_takes (hregs ▸ hsep) ha
  refine ⟨htakes, fun kernelEnd hpos habove => ?_⟩
  obtain ⟨r, hr, p, -, rfl, -⟩ := htakes
  -- the region is one of those given
  have hmem : Pmm.keptFields r ∈ rs.map Pmm.keptFields := by
    rw [← hkept, ← hregs]
    exact mem_map_of_mem hr
  obtain ⟨r₀, hr₀, heq⟩ := mem_map.mp hmem
  have hstart : r₀.physStart = r.physStart := congrArg Prod.fst heq
  have hle := habove r₀ hr₀
  unfold PmmRegion.pageAddr
  omega

theorem alloc_page_finds_free_sample : ∃ rs p₀ s p', Pmm.addRegions [] sampleRanges = some rs ∧
    Pmm.setupBitmaps (fun _ => 1) rs = some p₀ ∧ ReachableFrom ⟨p₀, ∅⟩ s ∧
    s.live = {0x101000, 0x103000} ∧ s.pmm.allocPage = some (0x102000, p') ∧
    s.pmm.Takes 1 0x102000 p' := by
  obtain ⟨rs, p₀, s, hadd, -, hp₀, hs, hlive, halloc⟩ := sampleRanges_run
  obtain ⟨⟨a, p'⟩, halloc, rfl⟩ := map_eq_some_iff.mp halloc
  exact ⟨rs, p₀, s, p', hadd, hp₀, hs, hlive, halloc,
    ((alloc_page_finds_free (by decide) hadd hp₀ hs).2 _ p' halloc).1⟩

end PmmState

end Neptune
