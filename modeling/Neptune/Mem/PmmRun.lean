import Neptune.Mem.Setup

/-!
# Frames are handed out exclusively

The marked pages are the reserved ones and the live frames.  Every call keeps
that: an allocation takes pages that are not marked, and a free that does not
panic unmarks a live frame.

## Main results

* `pmm_exclusive` — what an allocation returns is new, and the count is right.
-/

namespace Neptune

open Nat Option
open Word64

namespace Pmm

variable {m : ByteMem} {r : PmmRegion} {s : Pmm}

/-! ### The scan loops -/

theorem scanFree_spec {n page p : ℕ} (h : scanFree m r n page = some p) :
    page ≤ p ∧ p < page + n ∧ m.testBit r.bitmapPhys p = false := by
  induction n generalizing page with
  | zero => cases h
  | succ n ih =>
    rw [scanFree] at h
    split at h
    · obtain ⟨hlo, hhi, hbit⟩ := ih h
      exact ⟨by omega, by omega, hbit⟩
    · next hbit =>
      obtain rfl := some.inj h
      exact ⟨le_rfl, by omega, by simpa using hbit⟩

theorem scanRegion_spec {atCursor : Bool} {cursorPage p : ℕ}
    (h : scanRegion m r atCursor cursorPage = some p) :
    r.reservedPages ≤ p ∧ p < r.totalPages ∧ m.testBit r.bitmapPhys p = false := by
  unfold scanRegion at h
  split at h
  · cases h
  · next hlt =>
    have hstart : r.reservedPages ≤ scanStart r atCursor cursorPage ∧
        scanStart r atCursor cursorPage < r.totalPages := by
      unfold scanStart
      dsimp only
      split <;> split <;> omega
    dsimp only at h
    split at h
    · next page hscan =>
      obtain rfl := some.inj h
      obtain ⟨hlo, hhi, hbit⟩ := scanFree_spec hscan
      exact ⟨by omega, by omega, hbit⟩
    · split at h
      · -- the pages before the cursor
        obtain ⟨hlo, hhi, hbit⟩ := scanFree_spec h
        exact ⟨hlo, by omega, hbit⟩
      · cases h

theorem scanRegions_spec {n i idx p : ℕ} (h : s.scanRegions n i = some (idx, r, p)) :
    r ∈ s.regions ∧ r.reservedPages ≤ p ∧ p < r.totalPages ∧ s.mem.testBit r.bitmapPhys p = false := by
  induction n generalizing i with
  | zero => cases h
  | succ n ih =>
    rw [scanRegions] at h
    split at h
    · cases h
    · next r' hr' =>
      split at h
      · next page hscan =>
        obtain ⟨-, rfl, rfl⟩ : _ ∧ r' = r ∧ page = p := by simpa using h
        exact ⟨List.mem_of_getElem? hr', scanRegion_spec hscan⟩
      · exact ih h

/-- The loop invariant: the last `consecutive` pages are free, from `startRun` on. -/
theorem scanRun_spec {want n page consecutive startRun p : ℕ} (hc : consecutive < want)
    (hrun : consecutive ≠ 0 → startRun + consecutive = page)
    (hfree : ∀ q, page - consecutive ≤ q → q < page → m.testBit r.bitmapPhys q = false)
    (hle : consecutive ≤ page) (h : scanRun m r want n page consecutive startRun = some p) :
    page - consecutive ≤ p ∧ p + want ≤ page + n ∧
      ∀ q, p ≤ q → q < p + want → m.testBit r.bitmapPhys q = false := by
  induction n generalizing page consecutive startRun with
  | zero => cases h
  | succ n ih =>
    rw [scanRun] at h
    split at h
    · obtain ⟨hlo, hhi, hq⟩ := ih (by omega) (fun h => absurd rfl h) (fun q h1 h2 => by omega)
        (zero_le _) h
      exact ⟨by omega, by omega, hq⟩
    · next hbit =>
      have hbit' : m.testBit r.bitmapPhys page = false := by simpa using hbit
      have hstart : (if consecutive = 0 then page else startRun) = page - consecutive := by
        split
        · omega
        · next hne => have := hrun hne; omega
      rw [hstart] at h
      have hfree' : ∀ q, page - consecutive ≤ q → q < page + 1 → m.testBit r.bitmapPhys q = false := by
        intro q h1 h2
        rcases Nat.lt_succ_iff_lt_or_eq.mp h2 with h2 | rfl
        · exact hfree q h1 h2
        · exact hbit'
      dsimp only at h
      split at h
      · next hwant =>
        obtain rfl := some.inj h
        exact ⟨le_rfl, by omega, fun q h1 h2 => hfree' q h1 (by omega)⟩
      · obtain ⟨hlo, hhi, hq⟩ := ih (by omega) (fun _ => by omega)
          (fun q h1 h2 => hfree' q (by omega) h2) (by omega) h
        exact ⟨by omega, by omega, hq⟩

theorem firstRun_spec {want p : ℕ} {rs : List PmmRegion} (hw : 0 < want)
    (h : firstRun m want rs = some (r, p)) :
    r ∈ rs ∧ r.reservedPages ≤ p ∧ p + want ≤ r.totalPages ∧
      ∀ q, p ≤ q → q < p + want → m.testBit r.bitmapPhys q = false := by
  induction rs with
  | nil => cases h
  | cons r' rs ih =>
    have hrest : firstRun m want rs = some (r, p) → _ := fun h => by
      obtain ⟨hmem, hp⟩ := ih h
      exact (⟨List.mem_cons_of_mem _ hmem, hp⟩ : r ∈ r' :: rs ∧ _)
    rw [firstRun] at h
    split at h
    · exact hrest h
    · split at h
      · next page hscan =>
        obtain ⟨rfl, rfl⟩ : r' = r ∧ page = p := by simpa using h
        obtain ⟨hlo, hhi, hq⟩ := scanRun_spec hw (fun h => absurd rfl h)
          (fun q h1 h2 => by omega) (zero_le _) hscan
        exact ⟨List.mem_cons_self, by omega, by omega, hq⟩
      · exact hrest h

end Pmm

namespace PmmState

variable {s s' : PmmState}

/-- A frame that an allocation may return: a whole page of a region, not reserved
and not live. -/
structure Fresh (s : PmmState) (a : ℕ) : Prop where
  inRegion : ∃ r ∈ s.pmm.regions, r.physStart ≤ a ∧ a + 4096 ≤ r.physEnd
  page : a % 4096 = 0
  notReserved : ∀ r ∈ s.pmm.regions, ¬ (r.physStart ≤ a ∧ a < r.pageAddr r.reservedPages)
  notLive : a ∉ s.live

/-- The marked pages are the reserved ones and the live frames. -/
structure Inv (s : PmmState) : Prop where
  geometry : Pmm.Geometry s.pmm.regions
  bits : Pmm.Bits s.pmm.mem s.pmm.regions fun r p => p < r.reservedPages ∨ r.pageAddr p ∈ s.live
  live : ∀ a ∈ s.live, ∃ r ∈ s.pmm.regions, ∃ p, r.reservedPages ≤ p ∧ p < r.totalPages ∧
    a = r.pageAddr p
  used : s.pmm.usedPages = s.pmm.reservedPages + s.live.card

/-- A page that is not marked is fresh. -/
theorem Inv.fresh (hi : s.Inv) {r : PmmRegion} {p : ℕ} (hr : r ∈ s.pmm.regions)
    (hlo : r.reservedPages ≤ p) (hhi : p < r.totalPages)
    (hbit : s.pmm.mem.testBit r.bitmapPhys p = false) : s.Fresh (r.pageAddr p) := by
  have hend := hi.geometry.end_eq r hr
  have hpage := hi.geometry.start_page r hr
  have hmark : ¬ (p < r.reservedPages ∨ r.pageAddr p ∈ s.live) := by
    intro h
    rw [(hi.bits r hr p hhi).mpr h] at hbit
    cases hbit
  refine ⟨⟨r, hr, ?_, ?_⟩, ?_, ?_, fun h => hmark (.inr h)⟩
  · unfold PmmRegion.pageAddr; omega
  · rw [hend]; unfold PmmRegion.pageAddr; omega
  · unfold PmmRegion.pageAddr; omega
  · rintro r' hr' ⟨h1, h2⟩
    have hend' := hi.geometry.end_eq r' hr'
    have hres := hi.geometry.reserved_le r' hr'
    unfold PmmRegion.pageAddr at *
    rcases hi.geometry.region_cases hr hr' with rfl | hlt | hlt <;> omega

/-- Taking a run of pages that are not marked. -/
theorem Inv.take (hi : s.Inv) {r : PmmRegion} {p n : ℕ} (hr : r ∈ s.pmm.regions)
    (hlo : r.reservedPages ≤ p) (hhi : p + n ≤ r.totalPages)
    (hfree : ∀ q, p ≤ q → q < p + n → s.pmm.mem.testBit r.bitmapPhys q = false) {p' : Pmm}
    (hmem : p'.mem = Pmm.setBits s.pmm.mem r p n) (hregs : p'.regions = s.pmm.regions)
    (hres : p'.reservedPages = s.pmm.reservedPages) (hused : p'.usedPages = s.pmm.usedPages + n) :
    (⟨p', framesFrom (r.pageAddr p) n ∪ s.live⟩ : PmmState).Inv := by
  have haddr : ∀ k, r.pageAddr p + k * 4096 = r.pageAddr (p + k) := by
    intro k
    unfold PmmRegion.pageAddr
    rw [add_mul, add_assoc]
  have hmemFrames : ∀ a, a ∈ framesFrom (r.pageAddr p) n ↔ ∃ k < n, r.pageAddr (p + k) = a := by
    intro a
    simp only [framesFrom, Finset.mem_image, Finset.mem_range, haddr]
  have hdisj : Disjoint (framesFrom (r.pageAddr p) n) s.live := by
    refine Finset.disjoint_left.mpr fun a ha => ?_
    obtain ⟨k, hk, rfl⟩ := (hmemFrames a).mp ha
    exact (hi.fresh hr (by omega) (by omega) (hfree _ (by omega) (by omega))).notLive
  have hcard : (framesFrom (r.pageAddr p) n).card = n := by
    rw [framesFrom, Finset.card_image_of_injective _ fun a b h => by simpa using h, Finset.card_range]
  refine ⟨hregs ▸ hi.geometry, ?_, ?_, ?_⟩
  · dsimp only
    rw [hmem, hregs]
    refine (hi.bits.setBits hi.geometry.toLayout.separate hr hhi).congr fun r' hr' q hq => ?_
    rw [Finset.mem_union, hmemFrames]
    constructor
    · rintro (h | ⟨k, hk, h⟩ | h)
      · exact .inr (.inl h)
      · obtain ⟨rfl, rfl⟩ := hi.geometry.pageAddr_inj hr hr' (by omega) hq h
        exact .inl ⟨rfl, by omega, by omega⟩
      · exact .inr (.inr h)
    · rintro (⟨rfl, h1, h2⟩ | h | h)
      · exact .inr (.inl ⟨q - p, by omega, by congr 1; omega⟩)
      · exact .inl h
      · exact .inr (.inr h)
  · intro a ha
    dsimp only at ha ⊢
    rw [hregs]
    rcases Finset.mem_union.mp ha with ha | ha
    · obtain ⟨k, hk, rfl⟩ := (hmemFrames a).mp ha
      exact ⟨r, hr, p + k, by omega, by omega, rfl⟩
    · exact hi.live a ha
  · dsimp only
    rw [hused, hres, hi.used, Finset.card_union_of_disjoint hdisj, hcard]
    omega

theorem Inv.allocPage (hi : s.Inv) {a : ℕ} {p' : Pmm} (h : s.pmm.allocPage = some (a, p')) :
    s.Fresh a ∧ (⟨p', framesFrom a 1 ∪ s.live⟩ : PmmState).Inv ∧
      p'.reservedPages = s.pmm.reservedPages := by
  obtain ⟨⟨idx, r, page⟩, hscan, heq⟩ := map_eq_some_iff.mp h
  obtain ⟨rfl, rfl⟩ := Prod.mk.inj heq
  obtain ⟨hr, hlo, hhi, hbit⟩ := Pmm.scanRegions_spec hscan
  have hfree : ∀ q, page ≤ q → q < page + 1 → s.pmm.mem.testBit r.bitmapPhys q = false := by
    intro q h1 h2
    obtain rfl : q = page := by omega
    exact hbit
  exact ⟨hi.fresh hr hlo hhi hbit, hi.take hr hlo hhi hfree rfl rfl rfl rfl, rfl⟩

theorem Inv.allocPages (hi : s.Inv) {n a : ℕ} {p' : Pmm} (h : s.pmm.allocPages n = some (a, p')) :
    (∀ k < n, s.Fresh (a + k * 4096)) ∧ (⟨p', framesFrom a n ∪ s.live⟩ : PmmState).Inv ∧
      p'.reservedPages = s.pmm.reservedPages := by
  unfold Pmm.allocPages at h
  split at h
  · next hn =>
    subst hn
    obtain ⟨-, rfl⟩ := Prod.mk.inj (some.inj h)
    refine ⟨fun k hk => absurd hk (not_lt_zero _), ?_, rfl⟩
    have hnone : framesFrom a 0 ∪ s.live = s.live := by rw [framesFrom]; simp
    rw [hnone]
    exact hi
  · split at h
    · next hn =>
      subst hn
      obtain ⟨hf, hinv⟩ := hi.allocPage h
      refine ⟨fun k hk => ?_, hinv⟩
      obtain rfl : k = 0 := by omega
      rwa [zero_mul, add_zero]
    · next hn _ =>
      obtain ⟨⟨r, page⟩, hscan, heq⟩ := map_eq_some_iff.mp h
      obtain ⟨rfl, rfl⟩ := Prod.mk.inj heq
      obtain ⟨hr, hlo, hhi, hfree⟩ := Pmm.firstRun_spec (pos_of_ne_zero hn) hscan
      refine ⟨fun k hk => ?_, hi.take hr hlo hhi hfree rfl rfl rfl rfl, rfl⟩
      have haddr : r.pageAddr page + k * 4096 = r.pageAddr (page + k) := by
        unfold PmmRegion.pageAddr
        rw [add_mul, add_assoc]
      rw [haddr]
      exact hi.fresh hr (by omega) (by omega) (hfree _ (by omega) (by omega))

/-- The frame of an address inside a region. -/
theorem frameOf_eq {r : PmmRegion} {addr : ℕ} (hpage : r.physStart % 4096 = 0)
    (hlo : r.physStart ≤ addr) : frameOf addr = r.pageAddr ((addr - r.physStart) / 4096) := by
  unfold frameOf PmmRegion.pageAddr
  omega

theorem Inv.freePage (hi : s.Inv) {addr : ℕ} {p' : Pmm} (h : s.pmm.freePage addr = some p') :
    (⟨p', s.live.erase (frameOf addr)⟩ : PmmState).Inv ∧ p'.reservedPages = s.pmm.reservedPages := by
  unfold Pmm.freePage at h
  split at h
  · cases h
  next r hfind =>
  have hr : r ∈ s.pmm.regions := List.mem_of_find?_eq_some hfind
  have hin := List.find?_some hfind
  simp only [Bool.and_eq_true, decide_eq_true_eq] at hin
  rw [frameOf_eq (hi.geometry.start_page r hr) hin.1.2]
  generalize (addr - r.physStart) / 4096 = idx at *
  dsimp only at h
  split at h
  · cases h
  next hhi =>
  split at h
  · cases h
  next hlo =>
  split at h
  · next hbit =>
    obtain rfl := some.inj h
    have hlive : r.pageAddr idx ∈ s.live :=
      ((hi.bits r hr idx (not_le.mp hhi)).mp hbit).resolve_left hlo
    refine ⟨⟨hi.geometry, ?_, fun a ha => hi.live a (Finset.mem_of_mem_erase ha), ?_⟩, rfl⟩
    · refine (hi.bits.clearBit hi.geometry.toLayout.separate hr (not_le.mp hhi)).congr
        fun r' hr' q hq => ?_
      rw [Finset.mem_erase]
      constructor
      · rintro (hq' | ⟨hne, hq'⟩)
        · refine ⟨?_, .inl hq'⟩
          rintro ⟨rfl, rfl⟩
          exact hlo hq'
        · refine ⟨?_, .inr hq'⟩
          rintro ⟨rfl, rfl⟩
          exact hne rfl
      · rintro ⟨hne, hq' | hq'⟩
        · exact .inl hq'
        · refine .inr ⟨fun he => hne ?_, hq'⟩
          exact hi.geometry.pageAddr_inj hr hr' (not_le.mp hhi) hq he.symm
    · have hcard := Finset.card_erase_add_one hlive
      have hused := hi.used
      dsimp only
      omega
  · cases h

/-- The bitmaps are in reserved pages, where no client writes. -/
theorem Inv.write (hi : s.Inv) {addr : ℕ} {b : UInt8} (hlive : frameOf addr ∈ s.live) :
    ({ s with pmm := { s.pmm with mem := Function.update s.pmm.mem addr b } } : PmmState).Inv := by
  refine ⟨hi.geometry, ?_, hi.live, hi.used⟩
  refine hi.bits.of_bytes hi.geometry.toLayout.separate
    fun r hr a hlo hhi => Function.update_of_ne ?_ _ _
  rintro rfl
  obtain ⟨h, hh, hhome⟩ := hi.geometry.home
  obtain ⟨r', hr', p, hres, htot, heq⟩ := hi.live _ hlive
  have h1 := hhome r hr
  have h2 := hi.geometry.end_eq r' hr'
  have h3 := hi.geometry.end_eq h hh
  have h4 := hi.geometry.reserved_le h hh
  unfold PmmRegion.pageAddr frameOf at *
  rcases hi.geometry.region_cases hh hr' with rfl | hlt | hlt <;> omega

theorem framesFrom_one (a : ℕ) : framesFrom a 1 = {a} := by
  rw [framesFrom, Finset.range_one, Finset.image_singleton, zero_mul, add_zero]

theorem Inv.step (hi : s.Inv) {op : PmmOp} (h : s.step op = some s') :
    s'.Inv ∧ s'.pmm.reservedPages = s.pmm.reservedPages := by
  cases op with
  | allocPage =>
    obtain ⟨⟨a, p⟩, heq, rfl⟩ := map_eq_some_iff.mp h
    have hinv := (hi.allocPage heq).2
    rw [framesFrom_one] at hinv
    exact hinv
  | allocPages n =>
    obtain ⟨⟨a, p⟩, heq, rfl⟩ := map_eq_some_iff.mp h
    exact (hi.allocPages heq).2
  | freePage addr =>
    obtain ⟨p, heq, rfl⟩ := map_eq_some_iff.mp h
    exact hi.freePage heq
  | write addr b =>
    rw [PmmState.step] at h
    split at h
    · next hlive => exact some.inj h ▸ ⟨hi.write hlive, rfl⟩
    · cases h

theorem ReachableFrom.inv {s₀ : PmmState} (hi : s₀.Inv) (h : ReachableFrom s₀ s) :
    s.Inv ∧ s.pmm.reservedPages = s₀.pmm.reservedPages := by
  refine Reach.invariant (I := fun s => s.Inv ∧ s.pmm.reservedPages = s₀.pmm.reservedPages) h ?_ ?_
  · rintro s rfl
    exact ⟨hi, rfl⟩
  · rintro s s' ⟨hi, hres⟩ ⟨op, hs⟩
    obtain ⟨hi', hres'⟩ := hi.step hs
    exact ⟨hi', hres'.trans hres⟩

/-- What `setup_bitmaps` leaves has no live frames, and exactly the reserved pages are marked. -/
theorem inv_setUp {m : ByteMem} {ranges : List (ℕ × ℕ)} {rs : List PmmRegion} {p₀ : Pmm}
    (hranges : ∀ x ∈ ranges, x.1 % 4096 = 0 ∧ x.2 % 4096 = 0 ∧ x.2 < 2 ^ 64)
    (hadd : Pmm.addRegions [] ranges = some rs)
    (hapart : rs.Pairwise fun r r' => r.physEnd ≤ r'.physStart ∨ r'.physEnd ≤ r.physStart)
    (hsetup : Pmm.setupBitmaps m rs = some p₀) : Pmm.SetUp rs p₀ ∧ (⟨p₀, ∅⟩ : PmmState).Inv := by
  have hok : ∀ r ∈ rs, Pmm.RegionOk r := Pmm.addRegions_ok hranges hadd
  have hset := Pmm.setupBitmaps_spec hok hsetup
  have hg : Pmm.Geometry p₀.regions := ⟨hset.layout, Pmm.pairwise_of_map_eq (g := Pmm.keptFields)
    (R := fun a b => a.2.1 ≤ b.1 ∨ b.2.1 ≤ a.1) hset.kept hapart⟩
  refine ⟨hset, hg, hset.bits.congr fun r _ p _ => or_iff_left (Finset.notMem_empty _), ?_, hset.used⟩
  exact fun a ha => absurd ha (Finset.notMem_empty a)

/-- What holds in every state of every run. -/
structure Exclusive (s : PmmState) : Prop where
  allocPage : ∀ a p', s.pmm.allocPage = some (a, p') → s.Fresh a
  allocPages : ∀ n a p', s.pmm.allocPages n = some (a, p') → ∀ k < n, s.Fresh (a + k * 4096)
  used : s.pmm.usedPages = s.pmm.reservedPages + s.live.card
  /-- With the same frames live again the count is the same again. -/
  balanced : ∀ s', ReachableFrom s s' → s'.live = s.live → s'.pmm.usedBytes = s.pmm.usedBytes

/-- **Physical frames are handed out exclusively**, on any regions of whole pages
that are apart, over every run of calls that do not panic. -/
theorem pmm_exclusive {m : ByteMem} {ranges : List (ℕ × ℕ)} {rs : List PmmRegion} {p₀ : Pmm}
    (hranges : ∀ x ∈ ranges, x.1 % 4096 = 0 ∧ x.2 % 4096 = 0 ∧ x.2 < 2 ^ 64)
    (hadd : Pmm.addRegions [] ranges = some rs)
    (hapart : rs.Pairwise fun r r' => r.physEnd ≤ r'.physStart ∨ r'.physEnd ≤ r.physStart)
    (hsetup : Pmm.setupBitmaps m rs = some p₀) (h : ReachableFrom ⟨p₀, ∅⟩ s) : s.Exclusive := by
  obtain ⟨-, hinit⟩ := inv_setUp hranges hadd hapart hsetup
  obtain ⟨hi, -⟩ := h.inv hinit
  refine ⟨fun a p' ha => (hi.allocPage ha).1, fun n a p' ha => (hi.allocPages ha).1, hi.used, ?_⟩
  intro s' hs' hlive
  obtain ⟨hi', hres⟩ := ReachableFrom.inv hi hs'
  rw [Pmm.usedBytes, Pmm.usedBytes, hi'.used, hi.used, hres, hlive]

/-- Two regions of four and three pages. -/
def sampleRanges : List (ℕ × ℕ) := [(0x100000, 0x104000), (0x200000, 0x203000)]

/-- A page and a run of two pages are taken, and one page in the middle is given back. -/
theorem sampleRanges_run : ∃ rs p₀ s, Pmm.addRegions [] sampleRanges = some rs ∧
    (rs.Pairwise fun r r' => r.physEnd ≤ r'.physStart ∨ r'.physEnd ≤ r.physStart) ∧
    Pmm.setupBitmaps (fun _ => 1) rs = some p₀ ∧ ReachableFrom ⟨p₀, ∅⟩ s ∧
    s.live = {0x101000, 0x103000} ∧ s.pmm.allocPage.map Prod.fst = some 0x102000 := by
  let rs : List PmmRegion := [⟨0x100000, 0x104000, 0, 0, 4, 0⟩, ⟨0x200000, 0x203000, 0, 0, 3, 0⟩]
  have hrun : (((Pmm.setupBitmaps (fun _ => 1) rs).bind fun p₀ =>
      runAll step ⟨p₀, ∅⟩ [.allocPage, .allocPages 2, .freePage 0x102000]).map fun s =>
        (s.live, s.pmm.allocPage.map Prod.fst)) = some ({0x101000, 0x103000}, some 0x102000) := by
    decide +kernel
  obtain ⟨s, hs, hout⟩ := map_eq_some_iff.mp hrun
  obtain ⟨p₀, hp₀, hs⟩ := bind_eq_some_iff.mp hs
  obtain ⟨hlive, halloc⟩ := Prod.mk.inj hout
  exact ⟨rs, p₀, s, by decide, by decide, hp₀, Reach.of_runAll (.init rfl) hs, hlive, halloc⟩

theorem pmm_exclusive_sample : ∃ rs p₀ s, Pmm.addRegions [] sampleRanges = some rs ∧
    Pmm.setupBitmaps (fun _ => 1) rs = some p₀ ∧ ReachableFrom ⟨p₀, ∅⟩ s ∧
    s.live = {0x101000, 0x103000} ∧ s.Exclusive := by
  obtain ⟨rs, p₀, s, hadd, hapart, hp₀, hs, hlive, -⟩ := sampleRanges_run
  exact ⟨rs, p₀, s, hadd, hp₀, hs, hlive, pmm_exclusive (by decide) hadd hapart hp₀ hs⟩

end PmmState

end Neptune
