import Neptune.Mem.Bits

/-!
# `setup_bitmaps`

The bitmaps are laid one behind the other from the start of the chosen region on,
and the pages they take are the reserved pages of that region.

## Main results

* `setupBitmaps_spec` — after it, exactly the reserved pages are marked and counted.
-/

namespace Neptune

open List Nat Option

namespace Pmm

open Word64

/-- A region as `pmm_add_region` makes it, of whole pages and below the top of the
address space. -/
structure RegionOk (r : PmmRegion) : Prop where
  start_page : r.physStart % 4096 = 0
  end_page : r.physEnd % 4096 = 0
  start_lt : r.physStart < r.physEnd
  end_lt : r.physEnd < 2 ^ 64
  total : r.totalPages = (r.physEnd - r.physStart) / 4096
  reserved : r.reservedPages = 0

theorem RegionOk.end_eq {r : PmmRegion} (h : RegionOk r) :
    r.physEnd = r.physStart + r.totalPages * 4096 := by
  obtain ⟨h1, h2, h3, -, h4, -⟩ := h
  omega

theorem RegionOk.total_pos {r : PmmRegion} (h : RegionOk r) : 0 < r.totalPages := by
  obtain ⟨h1, h2, h3, -, h4, -⟩ := h
  omega

theorem RegionOk.total_lt {r : PmmRegion} (h : RegionOk r) : r.totalPages < 2 ^ 52 := by
  have := h.end_eq
  have := h.end_lt
  omega

/-- A bitmap has a bit for every page. -/
theorem le_bitmapSize {r : PmmRegion} (hlt : r.totalPages < 2 ^ 52) :
    r.totalPages ≤ 8 * r.bitmapSize := by
  obtain ⟨hle, -, hmod⟩ := alignUp_spec (x := r.totalPages) (a := 8) (k := 3) (by decide)
    (by omega) (by decide)
  unfold PmmRegion.bitmapSize
  omega

/-! ### The regions -/

variable {ranges : List (ℕ × ℕ)} {rs rs' : List PmmRegion}

/-- What holds of every region that is added holds of all. -/
theorem forall_of_addRegions {P : PmmRegion → Prop}
    (hr : ∀ x ∈ ranges, x.1 < x.2 → P ⟨x.1, x.2, 0, 0, (x.2 - x.1) / 4096, 0⟩)
    (hrs : ∀ r ∈ rs, P r) (h : addRegions rs ranges = some rs') : ∀ r ∈ rs', P r := by
  induction ranges generalizing rs with
  | nil => exact some.inj h ▸ hrs
  | cons x ranges ih =>
    obtain ⟨rs₁, hadd, hrest⟩ := bind_eq_some_iff.mp h
    obtain ⟨hx, hranges⟩ := forall_mem_cons.mp hr
    refine ih hranges ?_ hrest
    unfold addRegion at hadd
    split at hadd
    · cases hadd
    split at hadd
    · exact some.inj hadd ▸ hrs
    · next hne =>
      obtain rfl := some.inj hadd
      exact forall_mem_append.mpr ⟨hrs, forall_mem_singleton.mpr (hx (not_le.mp hne))⟩

theorem addRegions_ok (hr : ∀ x ∈ ranges, x.1 % 4096 = 0 ∧ x.2 % 4096 = 0 ∧ x.2 < 2 ^ 64)
    (h : addRegions [] ranges = some rs) : ∀ r ∈ rs, RegionOk r := by
  refine forall_of_addRegions (fun x hx hne => ?_) (by simp) h
  obtain ⟨hs, he, hlt⟩ := hr x hx
  exact ⟨hs, he, hne, hlt, rfl, rfl⟩

/-! ### Choosing the region for the bitmaps -/

theorem selectMeta_spec {need : ℕ} {all rs : List PmmRegion} {i : ℕ}
    {best : Option (ℕ × PmmRegion)} (hrs : ∀ j, rs[j]? = all[i + j]?)
    (hbest : ∀ k h, best = some (k, h) → all[k]? = some h ∧ canHold need h = true)
    {k : ℕ} {h : PmmRegion} (hsel : selectMeta need rs i best = some (k, h)) :
    all[k]? = some h ∧ canHold need h = true := by
  induction rs generalizing i best with
  | nil => exact hbest k h hsel
  | cons r rs ih =>
    refine ih (i := i + 1) (fun j => ?_) (fun k h hb => ?_) hsel
    · rw [add_assoc, add_comm 1 j, ← hrs]; rfl
    · split at hb
      · next hc =>
        obtain ⟨rfl, rfl⟩ := Prod.mk.inj (some.inj hb)
        exact ⟨(hrs 0).symm, (Bool.and_eq_true_iff.mp hc).1⟩
      · exact hbest k h hb

/-! ### Laying out the bitmaps -/

/-- What the loop keeps of a region. -/
def keptFields (r : PmmRegion) : ℕ × ℕ × ℕ := (r.physStart, r.physEnd, r.totalPages)

structure Placed (m : ByteMem) (cursor : ℕ) (rs : List PmmRegion) (m' : ByteMem) (cursor' : ℕ)
    (rs' : List PmmRegion) : Prop where
  cursor_eq : cursor' = cursor + totalBitmapBytes rs
  kept : rs'.map keptFields = rs.map keptFields
  each : ∀ r ∈ rs', r.reservedPages = 0 ∧ r.bitmapBytes = r.bitmapSize ∧
    cursor ≤ r.bitmapPhys ∧ r.bitmapPhys + r.bitmapBytes ≤ cursor'
  apart : rs'.Pairwise fun r r' =>
    r.bitmapPhys + r.bitmapBytes ≤ r'.bitmapPhys ∨ r'.bitmapPhys + r'.bitmapBytes ≤ r.bitmapPhys
  last : rs ≠ [] → ∃ r ∈ rs', r.bitmapPhys + r.bitmapBytes = cursor'
  zero : ∀ a, cursor ≤ a → a < cursor' → m' a = 0
  below : ∀ a < cursor, m' a = m a

theorem placeBitmaps_spec (m : ByteMem) (cursor : ℕ) {rs : List PmmRegion}
    (hrs : ∀ r ∈ rs, 0 < r.totalPages) :
    Placed m cursor rs (placeBitmaps m cursor rs).1 (placeBitmaps m cursor rs).2.1
      (placeBitmaps m cursor rs).2.2 := by
  induction rs generalizing m cursor with
  | nil =>
    exact ⟨rfl, rfl, fun _ h => (nomatch h), List.Pairwise.nil, fun h => absurd rfl h, fun a h1 h2 => by
      simp only [placeBitmaps] at h2; omega, fun _ _ => rfl⟩
  | cons r rs ih =>
    have hne : r.totalPages ≠ 0 := (hrs r mem_cons_self).ne'
    obtain ⟨hc, hk, he, ha, hl, hz, hb⟩ := ih (m.fill r.bitmapSize cursor 0)
      (cursor + r.bitmapSize) fun r' h => hrs r' (mem_cons_of_mem _ h)
    rw [placeBitmaps, if_neg hne]
    dsimp only
    generalize placeBitmaps (m.fill r.bitmapSize cursor 0) (cursor + r.bitmapSize) rs = res at *
    refine ⟨?_, ?_, ?_, ?_, fun _ => ?_, ?_, ?_⟩
    · rw [hc, totalBitmapBytes, if_neg hne, add_assoc]
    · rw [map_cons, hk]; rfl
    · intro r' hr'
      rcases mem_cons.mp hr' with rfl | hr'
      · refine ⟨rfl, rfl, le_rfl, ?_⟩
        rw [hc]
        exact le_add_right _ _
      · obtain ⟨h1, h2, h3, h4⟩ := he r' hr'
        exact ⟨h1, h2, (le_add_right _ _).trans h3, h4⟩
    · refine pairwise_cons.mpr ⟨fun r' hr' => .inl ?_, ha⟩
      exact (he r' hr').2.2.1
    · cases rs with
      | nil =>
        refine ⟨_, mem_cons_self, ?_⟩
        rw [hc]
        rfl
      | cons r' rs =>
        obtain ⟨q, hq, hend⟩ := hl (by simp)
        exact ⟨q, mem_cons_of_mem _ hq, hend⟩
    · intro a hlo hhi
      by_cases hlt : a < cursor + r.bitmapSize
      · rw [hb a hlt]
        exact if_pos ⟨hlo, hlt⟩
      · exact hz a (not_lt.mp hlt) hhi
    · intro a hlt
      rw [hb a (by omega)]
      exact if_neg (by omega)

/-! ### Marking the reserved pages -/

theorem reserveAll_spec {rs L : List PmmRegion} {s : Pmm} {marked : PmmRegion → ℕ → Prop}
    (hg : Layout rs) (hL : ∀ r ∈ L, r ∈ rs) (hbits : Bits s.mem rs marked)
    (hused : s.usedPages = s.reservedPages) :
    Bits (reserveAll s L).mem rs (fun r p => r ∈ L ∧ p < r.reservedPages ∨ marked r p) ∧
      (reserveAll s L).usedPages = (reserveAll s L).reservedPages ∧
      (reserveAll s L).regions = s.regions ∧
      (reserveAll s L).managedPages + (reserveAll s L).reservedPages =
        s.managedPages + s.reservedPages + (L.map PmmRegion.totalPages).sum := by
  induction L generalizing s marked with
  | nil => exact ⟨hbits.congr fun r _ p _ => or_iff_right fun h => (nomatch h.1), hused, rfl, rfl⟩
  | cons r L ih =>
    have hr : r ∈ rs := hL r mem_cons_self
    rw [reserveAll, if_neg (hg.total_pos r hr).ne']
    have hset := hbits.setBits hg.separate hr (p := 0) (n := r.reservedPages)
      (by rw [zero_add]; exact hg.reserved_le r hr)
    have hres := hg.reserved_le r hr
    obtain ⟨hb, hu, hregs, hsum⟩ := ih (s := { s with
      mem := setBits s.mem r 0 r.reservedPages
      reservedPages := s.reservedPages + r.reservedPages
      usedPages := s.usedPages + r.reservedPages
      managedPages := s.managedPages + (r.totalPages - r.reservedPages) })
      (fun r' h => hL r' (mem_cons_of_mem _ h)) hset (by dsimp only; omega)
    refine ⟨hb.congr fun r' _ p _ => ?_, hu, hregs, ?_⟩
    · constructor
      · rintro (⟨hmem, hp⟩ | hm)
        · rcases mem_cons.mp hmem with rfl | hmem
          · exact .inr (.inl ⟨rfl, zero_le _, by omega⟩)
          · exact .inl ⟨hmem, hp⟩
        · exact .inr (.inr hm)
      · rintro (⟨hmem, hp⟩ | ⟨rfl, -, hp⟩ | hm)
        · exact .inl ⟨mem_cons_of_mem _ hmem, hp⟩
        · exact .inl ⟨mem_cons_self, by omega⟩
        · exact .inr hm
    · -- what is reserved of a region is not counted as managed
      rw [hsum, map_cons, sum_cons]
      dsimp only
      omega

/-! ### The whole of it -/

/-- A function that does not look at the reserved pages. -/
theorem map_withReserved {β : Type*} {g : PmmRegion → β} {n : ℕ}
    (hg : ∀ r, g { r with reservedPages := n } = g r) (rs : List PmmRegion) (i : ℕ) :
    (withReserved rs i n).map g = rs.map g := by
  refine ext_getElem? fun j => ?_
  rw [withReserved, getElem?_map, getElem?_map, getElem?_modify]
  cases rs[j]? with
  | none => rfl
  | some r =>
    by_cases hij : i = j
    · simp [hij, hg]
    · simp [hij]

/-- A relation of the images holds pairwise for two lists with the same images. -/
theorem pairwise_of_map_eq {α β : Type*} {g : α → β} {R : β → β → Prop} {l l' : List α}
    (h : l'.map g = l.map g) (hp : l.Pairwise fun a b => R (g a) (g b)) :
    l'.Pairwise fun a b => R (g a) (g b) := by
  rw [← pairwise_map] at hp ⊢
  rwa [h]

/-- The fields that the bitmaps' layout is about. -/
def bitmapFields (r : PmmRegion) : ℕ × ℕ := (r.bitmapPhys, r.bitmapBytes)

/-- The reserved pages of the chosen region hold all bitmaps and are its own. -/
theorem reserved_bounds {h : PmmRegion} {need : ℕ} (hok : RegionOk h)
    (hhold : canHold need h = true) :
    alignUp h.physStart 4096 = h.physStart ∧
      need ≤ alignUp need 4096 / 4096 * 4096 ∧ alignUp need 4096 / 4096 ≤ h.totalPages := by
  have hendeq := hok.end_eq
  obtain ⟨hpage, -, hlt, hend, -, -⟩ := hok
  obtain ⟨h1, h2, h3⟩ := alignUp_spec (x := h.physStart) (a := 4096) (k := 12) (by decide)
    (by omega) (by decide)
  have hstart : alignUp h.physStart 4096 = h.physStart := by omega
  unfold canHold at hhold
  rw [decide_eq_true_eq, hstart] at hhold
  have hneed : need ≤ h.physEnd - h.physStart := by
    have := hhold.2.2
    unfold u64 at this
    omega
  obtain ⟨h4, h5, h6⟩ := alignUp_spec (x := need) (a := 4096) (k := 12) (by decide)
    (by omega) (by decide)
  exact ⟨hstart, by omega, by omega⟩

section WithReserved

variable {m m' : ByteMem} {rs rs' : List PmmRegion} {i cursor n : ℕ} {host : PmmRegion}
  (hok : ∀ r ∈ rs, RegionOk r) (hhost : rs[i]? = some host)
  (hp : Placed m host.physStart rs m' cursor rs')

include hok hhost hp

/-- A region of the result is one of the regions given, with a bitmap. -/
theorem mem_withReserved {r : PmmRegion} (hr : r ∈ withReserved rs' i n) :
    (∃ r₀, RegionOk r₀ ∧ keptFields r₀ = keptFields r ∧
      (r.reservedPages = 0 ∨ r₀ = host ∧ r.reservedPages = n)) ∧
    r.bitmapBytes = r.bitmapSize ∧ host.physStart ≤ r.bitmapPhys ∧
      r.bitmapPhys + r.bitmapBytes ≤ cursor := by
  obtain ⟨j, hj⟩ := mem_iff_getElem?.mp hr
  have hj₀ : (rs.map keptFields)[j]? = some (keptFields r) := by
    rw [← hp.kept, ← map_withReserved (n := n) (fun _ => rfl) rs' i, getElem?_map, hj]
    rfl
  rw [getElem?_map] at hj₀
  obtain ⟨r₀, hr₀, hk⟩ := map_eq_some_iff.mp hj₀
  rw [withReserved, getElem?_modify] at hj
  obtain ⟨r₁, hr₁, rfl⟩ := map_eq_some_iff.mp hj
  obtain ⟨hres, heach⟩ := hp.each r₁ (mem_of_getElem? hr₁)
  by_cases hij : i = j
  · subst hij
    rw [if_pos rfl] at hk ⊢
    obtain rfl := some.inj (hr₀.symm.trans hhost)
    exact ⟨⟨r₀, hok r₀ (mem_of_getElem? hr₀), hk, .inr ⟨rfl, rfl⟩⟩, heach⟩
  · rw [if_neg hij] at hk ⊢
    exact ⟨⟨r₀, hok r₀ (mem_of_getElem? hr₀), hk, .inl hres⟩, heach⟩

theorem layout_withReserved
    (hneed : totalBitmapBytes rs ≤ n * 4096) (htotal : n ≤ host.totalPages) :
    Layout (withReserved rs' i n) := by
  have hkept : ∀ {r r₀ : PmmRegion}, keptFields r₀ = keptFields r → r.physStart = r₀.physStart ∧
      r.physEnd = r₀.physEnd ∧ r.totalPages = r₀.totalPages := by
    intro r r₀ h
    simp only [keptFields, Prod.mk.injEq] at h
    exact ⟨h.1.symm, h.2.1.symm, h.2.2.symm⟩
  refine ⟨fun r hr => ?_, fun r hr => ?_, fun r hr => ?_, fun r hr => ?_, fun r hr => ?_, ?_, ?_⟩
  · obtain ⟨⟨r₀, h₀, hk, -⟩, -⟩ := mem_withReserved hok hhost hp hr
    rw [(hkept hk).1]
    exact h₀.start_page
  · obtain ⟨⟨r₀, h₀, hk, -⟩, -⟩ := mem_withReserved hok hhost hp hr
    rw [PmmRegion.pageAddr, (hkept hk).1, (hkept hk).2.1, (hkept hk).2.2]
    exact h₀.end_eq
  · obtain ⟨⟨r₀, h₀, hk, -⟩, -⟩ := mem_withReserved hok hhost hp hr
    rw [(hkept hk).2.2]
    exact h₀.total_pos
  · obtain ⟨⟨r₀, h₀, hk, hres⟩, -⟩ := mem_withReserved hok hhost hp hr
    rw [(hkept hk).2.2]
    rcases hres with hres | ⟨rfl, hres⟩
    · rw [hres]; exact zero_le _
    · rw [hres]; exact htotal
  · obtain ⟨⟨r₀, h₀, hk, -⟩, hbytes, -⟩ := mem_withReserved hok hhost hp hr
    have hsize : r.bitmapSize = r₀.bitmapSize := by
      rw [PmmRegion.bitmapSize, PmmRegion.bitmapSize, (hkept hk).2.2]
    rw [hbytes, hsize, (hkept hk).2.2]
    exact le_bitmapSize h₀.total_lt
  · exact pairwise_of_map_eq (g := bitmapFields)
      (R := fun a b => a.1 + a.2 ≤ b.1 ∨ b.1 + b.2 ≤ a.1) (map_withReserved (fun _ => rfl) rs' i)
      hp.apart
  · -- the chosen region itself
    have hi : (rs'.map keptFields)[i]? = some (keptFields host) := by
      rw [hp.kept, getElem?_map, hhost]; rfl
    rw [getElem?_map] at hi
    obtain ⟨h₁, hget, hk⟩ := map_eq_some_iff.mp hi
    have hget' : (withReserved rs' i n)[i]? = some { h₁ with reservedPages := n } := by
      rw [withReserved, getElem?_modify, hget]
      simp
    refine ⟨_, mem_of_getElem? hget', fun r hr => ?_⟩
    obtain ⟨-, -, hlo, hhi⟩ := mem_withReserved hok hhost hp hr
    have hstart : h₁.physStart = host.physStart := (hkept hk.symm).1
    have hcur := hp.cursor_eq
    unfold PmmRegion.pageAddr
    dsimp only
    omega

/-- All bitmaps are clear. -/
theorem bits_withReserved (hg : Layout (withReserved rs' i n)) :
    Bits m' (withReserved rs' i n) fun _ _ => False := by
  intro r hr p hlt
  obtain ⟨-, -, hlo, hhi⟩ := mem_withReserved hok hhost hp hr
  have hbyte := hg.separate.byte_lt hr hlt
  have hzero : m' (r.bitmapPhys + p / 8) = 0 := hp.zero _ (by omega) (by omega)
  rw [ByteMem.testBit, hzero]
  simp

end WithReserved

/-- The state that `setup_bitmaps` leaves for the regions `rs`. -/
structure SetUp (rs : List PmmRegion) (s : Pmm) : Prop where
  layout : Layout s.regions
  /-- Exactly the reserved pages are marked. -/
  bits : Bits s.mem s.regions fun r p => p < r.reservedPages
  used : s.usedPages = s.reservedPages
  counted : s.managedPages + s.reservedPages = (rs.map PmmRegion.totalPages).sum
  kept : s.regions.map keptFields = rs.map keptFields
  /-- Only the region chosen for the bitmaps has reserved pages. -/
  host : ∃ host ∈ rs, ∀ r ∈ s.regions, r.reservedPages = 0 ∨ keptFields r = keptFields host
  /-- There are no more of them than the bitmaps take. -/
  tight : ∀ r ∈ s.regions, r.reservedPages = 0 ∨ ∃ r' ∈ s.regions,
    r.pageAddr r.reservedPages < r'.bitmapPhys + r'.bitmapBytes + 4096

/-- **After `setup_bitmaps` exactly the reserved pages are marked and counted.** -/
theorem setupBitmaps_spec {m : ByteMem} {rs : List PmmRegion} {s : Pmm}
    (hok : ∀ r ∈ rs, RegionOk r) (h : setupBitmaps m rs = some s) : SetUp rs s := by
  unfold setupBitmaps at h
  dsimp only at h
  split at h
  · cases h
  next i host hsel =>
  have hnone : ∀ k h, (none : Option (ℕ × PmmRegion)) = some (k, h) →
      rs[k]? = some h ∧ canHold (totalBitmapBytes rs) h = true := fun _ _ hb => nomatch hb
  obtain ⟨hhost, hhold⟩ := selectMeta_spec (fun j => by rw [zero_add]) hnone hsel
  obtain ⟨hstart, hneed, htotal⟩ := reserved_bounds (hok host (mem_of_getElem? hhost)) hhold
  rw [hstart] at h
  split at h
  · cases h
  next hfits =>
  have hp := placeBitmaps_spec m host.physStart fun r hr => (hok r hr).total_pos
  generalize placeBitmaps m host.physStart rs = res at *
  obtain ⟨m₁, cursor, rs₁⟩ := res
  dsimp only at h hp
  have hcur : cursor - host.physStart = totalBitmapBytes rs := by rw [hp.cursor_eq]; omega
  rw [hcur] at h
  set n := alignUp (totalBitmapBytes rs) 4096 / 4096 with hn
  split at h
  · cases h
  obtain rfl := some.inj h
  have hg := layout_withReserved hok hhost hp hneed htotal
  obtain ⟨hb, hu, hregs, hsum⟩ := reserveAll_spec (s := ⟨m₁, withReserved rs₁ i n, 0, 0, 0, 0, 0⟩) hg
    (fun r hr => hr) (bits_withReserved hok hhost hp hg) rfl
  have hkept : (withReserved rs₁ i n).map keptFields = rs.map keptFields :=
    (map_withReserved (fun _ => rfl) rs₁ i).trans hp.kept
  have htotals : (withReserved rs₁ i n).map PmmRegion.totalPages = rs.map PmmRegion.totalPages := by
    have hsnd := congrArg (List.map fun x : ℕ × ℕ × ℕ => x.2.2) hkept
    rwa [List.map_map, List.map_map] at hsnd
  refine ⟨by rwa [hregs], by rw [hregs]; exact hb.congr fun r hr p _ => by simp [hr], hu, ?_,
    by rwa [hregs], ⟨host, mem_of_getElem? hhost, ?_⟩, ?_⟩
  · rw [hsum, htotals]
    exact zero_add _
  · rw [hregs]
    intro r hr
    obtain ⟨⟨r₀, -, hk, hres⟩, -⟩ := mem_withReserved hok hhost hp hr
    rcases hres with hres | ⟨rfl, -⟩
    · exact .inl hres
    · exact .inr hk.symm
  rw [hregs]
  intro r hr
  obtain ⟨⟨r₀, -, hk, hres⟩, -⟩ := mem_withReserved hok hhost hp hr
  rcases hres with hres | ⟨rfl, hres⟩
  · exact .inl hres
  · have hlast : ∃ r' ∈ withReserved rs₁ i n, r'.bitmapPhys + r'.bitmapBytes = cursor := by
      obtain ⟨r₁, hr₁, hend⟩ := hp.last (ne_nil_of_mem (mem_of_getElem? hhost))
      obtain ⟨r', hr', hfields⟩ : ∃ r' ∈ withReserved rs₁ i n, bitmapFields r' = bitmapFields r₁ := by
        rw [← List.mem_map, map_withReserved (fun _ => rfl)]
        exact List.mem_map_of_mem hr₁
      simp only [bitmapFields, Prod.mk.injEq] at hfields
      exact ⟨r', hr', by rw [hfields.1, hfields.2, hend]⟩
    obtain ⟨r', hr', hend⟩ := hlast
    refine .inr ⟨r', hr', ?_⟩
    have hstart' : r.physStart = r₀.physStart := (congrArg Prod.fst hk).symm
    have hlt := (hok r₀ (mem_of_getElem? hhost)).end_lt
    have hpage := (hok r₀ (mem_of_getElem? hhost)).end_page
    obtain ⟨-, hup, -⟩ := alignUp_spec (x := totalBitmapBytes rs) (a := 4096) (k := 12) (by decide)
      (by omega) (by decide)
    rw [hend, PmmRegion.pageAddr, hstart', hres, hp.cursor_eq]
    omega

end Pmm

end Neptune
