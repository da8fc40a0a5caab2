import Neptune.Lib.Chains
import Neptune.Fat.Write

/-!
# The allocation table as a set of chains

On a regular volume the first copy of the table is a table of links in the sense of
`Neptune.Lib.Chains`: an entry of 0 is free, one from 0xFFF8 on ends a chain, any other names the
next cluster.  `fat_alloc_cluster` claims a free cluster, and `Geometry.advance` extends a chain at
its end.

## Main definitions

* `Geometry.Regular` — geometries with room for everything.
* `Geometry.link` — the table of links.
* `Geometry.freeCount` — the free clusters.
* `Geometry.InCluster`, `Geometry.InTable` — the regions of the disk.

## Main results

* `link_claim`, `link_extend` — what the updates of the table do to the links.
* `run_advance_next`, `run_advance_full`, `run_advance_new` — the next cluster of a chain.
-/

namespace Neptune

open DiskM List

namespace Geometry

variable {g : Geometry} {m m' : ByteMem} {c n v a : ℕ} {l : List ℕ}

/-- The cluster numbers of the volume. -/
def InRange (g : Geometry) (c : ℕ) : Prop := 2 ≤ c ∧ c < g.clusterCount + 2

instance (g : Geometry) (c : ℕ) : Decidable (g.InRange c) := inferInstanceAs (Decidable (_ ∧ _))

/-- The regions of the volume fit and there is a table with an entry for every cluster. -/
structure Regular (g : Geometry) : Prop where
  regions : g.dataStart ≤ g.totalSectors
  enough : fat16MinClusters ≤ g.clusterCount
  few : g.clusterCount ≤ 65524
  fats : 1 ≤ g.fatCount
  table : (g.clusterCount + 2) * 2 ≤ g.fatSize * 512

/-- The meaning of an entry. -/
def linkOf (e : ℕ) : Link ℕ :=
  if e = 0 then .free else if isEndCluster e = true then .last else .next e

/-- The links of the table; clusters outside the volume do not exist. -/
def link (g : Geometry) (m : ByteMem) (c : ℕ) : Link ℕ :=
  if g.InRange c then linkOf (g.fatEntry m c) else .free

theorem link_of_inRange (h : g.InRange c) : g.link m c = linkOf (g.fatEntry m c) := if_pos h

theorem inRange_of_link (h : g.link m c ≠ .free) : g.InRange c := by
  by_contra hc
  exact h (if_neg hc)

theorem link_eq_free (h : g.InRange c) : g.link m c = .free ↔ g.fatEntry m c = 0 := by
  rw [link_of_inRange h, linkOf]
  split
  · simp [*]
  · split <;> simp [*]

theorem link_eq_last (h : g.link m c = .last) :
    g.InRange c ∧ isEndCluster (g.fatEntry m c) = true := by
  have hc : g.InRange c := inRange_of_link (m := m) (by simp [h])
  rw [link_of_inRange hc, linkOf] at h
  split at h
  · cases h
  · split at h
    · exact ⟨hc, ‹_›⟩
    · cases h

theorem link_eq_next {b : ℕ} (h : g.link m c = .next b) : g.InRange c ∧ g.Follows m c b := by
  have hc : g.InRange c := inRange_of_link (m := m) (by simp [h])
  rw [link_of_inRange hc, linkOf] at h
  split at h
  · cases h
  · next hne =>
    split at h
    · cases h
    · next hend =>
      obtain rfl := Link.next.inj h
      exact ⟨hc, rfl, hne, by simpa using hend⟩

theorem Regular.lt (hg : g.Regular) (h : g.InRange c) : c < 0xFFF8 := by
  have := hg.few
  rw [InRange] at h
  omega

theorem Regular.linkOf_eq_next (hg : g.Regular) (h : g.InRange c) : linkOf c = .next c := by
  have := hg.lt h
  rw [linkOf, if_neg (by rw [InRange] at h; omega), if_neg]
  rw [isEndCluster, fat16Eoc, decide_eq_true_eq]
  omega

theorem linkOf_eoc : linkOf fat16Eoc = .last := by decide

/-! ### Updates of the table -/

theorem link_setEntry (hc : g.InRange c) (hv : v < 2 ^ 16) :
    g.link (g.setEntry m c v) = Function.update (g.link m) c (linkOf v) := by
  funext x
  by_cases hx : x = c
  · rw [hx, Function.update_self, link_of_inRange hc, fatEntry_setEntry_self hv]
  · rw [Function.update_of_ne hx, link, link, fatEntry_setEntry_of_ne hx]

theorem link_claim (hn : g.InRange n) :
    g.link (g.setEntry m n fat16Eoc) = Link.claim (g.link m) n := by
  rw [link_setEntry hn (by decide), linkOf_eoc]
  rfl

/-- The disk after a new cluster is claimed and linked. -/
def extendAt (g : Geometry) (m : ByteMem) (c n : ℕ) : ByteMem :=
  g.setEntry (g.setEntry m n fat16Eoc) c n

theorem link_extend (hg : g.Regular) (hc : g.InRange c) (hn : g.InRange n) :
    g.link (g.extendAt m c n) = Link.extend (g.link m) c n := by
  have hlt := hg.lt hn
  rw [extendAt, link_setEntry hc (by omega), link_claim hn, hg.linkOf_eq_next hn]
  rfl

/-! ### Free clusters -/

/-- The number of free clusters. -/
def freeCount (g : Geometry) (m : ByteMem) : ℕ :=
  (List.range' 2 g.clusterCount).countP fun c => g.link m c = .free

theorem firstFree_some (h : g.firstFree m = some n) : g.InRange n ∧ g.link m n = .free := by
  obtain ⟨hlo, hhi, hfree⟩ := firstFree_eq_some h
  have hn : g.InRange n := ⟨hlo, hhi⟩
  exact ⟨hn, (link_eq_free hn).mpr hfree⟩

theorem firstFree_none : g.firstFree m = none ↔ g.freeCount m = 0 := by
  rw [firstFree_eq_none, freeCount, countP_eq_zero]
  simp only [mem_range'_1, decide_eq_true_eq]
  constructor
  · rintro h c ⟨hlo, hhi⟩
    have hc : g.InRange c := ⟨hlo, by omega⟩
    rw [link_eq_free hc]
    exact h c hlo (by omega)
  · intro h c hlo hhi
    have hc : g.InRange c := ⟨hlo, hhi⟩
    exact mt (link_eq_free hc).mpr (h c ⟨hlo, by omega⟩)

/-- A table with one free cluster less. -/
theorem freeCount_of_update {t : ByteMem} (hn : g.InRange n) (hfree : g.link m n = .free)
    (hused : g.link t n ≠ .free) (hrest : ∀ x, x ≠ n → (g.link t x = .free ↔ g.link m x = .free)) :
    g.freeCount t + 1 = g.freeCount m := by
  have hmem : n ∈ List.range' 2 g.clusterCount := by
    rw [InRange] at hn
    rw [mem_range'_1]
    omega
  obtain ⟨pre, post, hsplit⟩ := append_of_mem hmem
  have hnodup : (pre ++ n :: post).Nodup := hsplit ▸ nodup_range'
  have hpre : ∀ x ∈ pre, x ≠ n := by
    rintro x hx rfl
    exact (nodup_append.mp hnodup).2.2 x hx x mem_cons_self rfl
  have hpost : ∀ x ∈ post, x ≠ n := by
    rintro x hx rfl
    exact (nodup_cons.mp (nodup_append.mp hnodup).2.1).1 hx
  have hcount : ∀ l : List ℕ, (∀ x ∈ l, x ≠ n) →
      l.countP (fun c => g.link t c = .free) = l.countP fun c => g.link m c = .free := by
    intro l hl
    refine countP_congr fun x hx => ?_
    simpa using hrest x (hl x hx)
  rw [freeCount, freeCount, hsplit, countP_append, countP_append,
    countP_cons_of_neg (by simpa using hused), countP_cons_of_pos (by simpa using hfree),
    hcount pre hpre, hcount post hpost, Nat.add_assoc]

/-! ### Chains of clusters -/

theorem inRange_of_chain (h : Chain (g.link m) c l) : ∀ x ∈ l, g.InRange x :=
  fun x hx => inRange_of_link (h.used x hx)

theorem isChain_of_chain (h : Chain (g.link m) c l) : l.IsChain (g.Follows m) := by
  induction h with
  | last _ => exact isChain_singleton _
  | next ha hl ih =>
    cases hl with
    | last _ => exact isChain_cons_cons.mpr ⟨(link_eq_next ha).2, ih⟩
    | next _ _ => exact isChain_cons_cons.mpr ⟨(link_eq_next ha).2, ih⟩

theorem last_of_chain (h : Chain (g.link m) c l) :
    ∀ x ∈ l.getLast?, isEndCluster (g.fatEntry m x) = true := by
  induction h with
  | last ha =>
    intro x hx
    obtain rfl := Option.some.inj hx
    exact (link_eq_last ha).2
  | next _ hl ih =>
    intro x hx
    cases hl with
    | last _ => exact ih x hx
    | next _ _ => exact ih x hx

/-! ### Regions of the disk -/

/-- Where a cluster's data starts. -/
def clusterAddr (g : Geometry) (c : ℕ) : ℕ := g.clusterToSector c * 512

/-- The bytes of the first copy of the table. -/
def InTable (g : Geometry) (a : ℕ) : Prop :=
  g.fatStart * 512 ≤ a ∧ a < (g.fatStart + g.fatSize) * 512

/-- The bytes of a cluster. -/
def InCluster (g : Geometry) (c a : ℕ) : Prop :=
  g.clusterAddr c ≤ a ∧ a < g.clusterAddr c + g.clusterSize

theorem Regular.clusterAddr_eq (hg : g.Regular) (hc : g.InRange c) :
    g.clusterAddr c = g.dataStart * 512 + (c - 2) * g.clusterSize := by
  have hlt := hg.lt hc
  rw [clusterAddr, clusterToSector_eq hc.1 (by omega), clusterSize]
  ring

/-- The table lies in front of the root directory. -/
theorem Regular.table_le (hg : g.Regular) : g.fatStart + g.fatSize ≤ g.rootStart := by
  have hmul : g.fatSize ≤ g.fatCount * g.fatSize := Nat.le_mul_of_pos_left _ hg.fats
  rw [rootStart]
  omega

theorem Regular.not_inTable (hg : g.Regular) (hc : g.InRange c) (ha : g.InCluster c a) :
    ¬g.InTable a := by
  have htable := hg.table_le
  rw [InCluster, hg.clusterAddr_eq hc, dataStart] at ha
  rw [InTable]
  omega

/-- Clusters do not overlap. -/
theorem Regular.eq_of_inCluster (hg : g.Regular) {c' : ℕ} (hc : g.InRange c) (hc' : g.InRange c')
    (ha : g.InCluster c a) (ha' : g.InCluster c' a) : c = c' := by
  rw [InCluster, hg.clusterAddr_eq hc] at ha
  rw [InCluster, hg.clusterAddr_eq hc'] at ha'
  rw [InRange] at hc hc'
  have hlt : ∀ {x y : ℕ}, x < y → x * g.clusterSize + g.clusterSize ≤ y * g.clusterSize := by
    intro x y hxy
    calc x * g.clusterSize + g.clusterSize = (x + 1) * g.clusterSize := by ring
      _ ≤ y * g.clusterSize := Nat.mul_le_mul_right _ hxy
  rcases Nat.lt_trichotomy (c - 2) (c' - 2) with h | h | h
  · have := hlt h
    omega
  · omega
  · have := hlt h
    omega

theorem Regular.entry_inTable (hg : g.Regular) (hc : g.InRange c) (h : g.entryAddr c ≤ a)
    (h' : a < g.entryAddr c + 2) : g.InTable a := by
  have htable := hg.table
  rw [InRange] at hc
  rw [entryAddr] at h h'
  rw [InTable]
  omega

theorem Regular.setEntry_apply (hg : g.Regular) (hc : g.InRange c) (ha : ¬g.InTable a) :
    g.setEntry m c v a = m a :=
  ByteMem.store_apply_of_not_mem m fun h => ha (hg.entry_inTable hc h.1 h.2)

theorem Regular.extendAt_apply (hg : g.Regular) (hc : g.InRange c) (hn : g.InRange n)
    (ha : ¬g.InTable a) : g.extendAt m c n a = m a := by
  rw [extendAt, hg.setEntry_apply hc ha, hg.setEntry_apply hn ha]

/-- The links depend on the table only. -/
theorem Regular.link_congr (hg : g.Regular) (h : ∀ a, g.InTable a → m' a = m a) :
    g.link m' = g.link m := by
  funext c
  by_cases hc : g.InRange c
  · have hentry : g.fatEntry m' c = g.fatEntry m c :=
      ByteMem.load_congr fun a h1 h2 => h a (hg.entry_inTable hc h1 h2)
    rw [link_of_inRange hc, link_of_inRange hc, hentry]
  · rw [link, link, if_neg hc, if_neg hc]

/-! ### The next cluster -/

theorem Regular.run_alloc (hg : g.Regular) (m : ByteMem) :
    g.fatAllocCluster.run (.ok m) =
      match g.firstFree m with
      | none => some (0, .ok m)
      | some x => some (x, .ok (g.setEntry m x fat16Eoc)) :=
  run_fatAllocCluster_ok (by have := hg.few; omega) m

theorem run_advance_next {b : ℕ} (h : g.link m c = .next b) :
    (g.advance c).run (.ok m) = some (some b, .ok m) := by
  obtain ⟨-, hentry, hne, hend⟩ := link_eq_next h
  rw [advance, run_bind_of (g.run_fatNextCluster_ok c m), hentry, if_neg (by simp [hne, hend])]
  rfl

theorem Regular.run_advance_full (hg : g.Regular) (h : g.link m c = .last)
    (hfree : g.firstFree m = none) : (g.advance c).run (.ok m) = some (none, .ok m) := by
  have halloc := hg.run_alloc m
  rw [hfree] at halloc
  rw [advance, run_bind_of (g.run_fatNextCluster_ok c m), if_pos (Or.inr (link_eq_last h).2),
    run_bind_of halloc, if_pos rfl]
  rfl

theorem Regular.run_advance_new (hg : g.Regular) (h : g.link m c = .last)
    (hfree : g.firstFree m = some n) :
    (g.advance c).run (.ok m) = some (some n, .ok (g.extendAt m c n)) := by
  have halloc := hg.run_alloc m
  have hn := (firstFree_some hfree).1
  rw [hfree] at halloc
  rw [advance, run_bind_of (g.run_fatNextCluster_ok c m), if_pos (Or.inr (link_eq_last h).2),
    run_bind_of halloc, if_neg (by rw [InRange] at hn; omega),
    run_bind_of (g.run_fatSetCluster_ok c n _)]
  rfl

end Geometry

end Neptune
