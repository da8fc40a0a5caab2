import Neptune.Fat.Table

/-!
# What `fat_init` accepts

The only check of the sizes is that there are enough clusters.  A volume whose regions do not
fit into `total_sectors` passes, because the subtraction wraps around; so does one with more
clusters than 16 bits can name, and one whose allocation table is too short for its clusters.

## Main definitions

* `Geometry.Consistent` — what the rest of the code takes for granted.
* `FitBoot` — the boot sectors whose fields fit together.

## Main results

* `fatInit_consistent_iff` — of the accepted boot sectors exactly those give a consistent
  geometry.
-/

namespace Neptune

namespace Geometry

variable {g : Geometry} {c : ℕ}

/-- The regions lie inside the volume, every cluster has a number below the reserved ones, its
entry lies in the first copy of the table and its sectors lie in the data area, and
`fat_alloc_cluster` stays inside. -/
structure Consistent (g : Geometry) : Prop where
  data_le : g.dataStart ≤ g.totalSectors
  number : ∀ c, 2 ≤ c → c < g.clusterCount + 2 → c < 0xFFF7
  entry : ∀ c, 2 ≤ c → c < g.clusterCount + 2 →
    g.fatStart ≤ g.fatSector c ∧ g.fatSector c < g.fatStart + g.fatSize
  data : ∀ c, 2 ≤ c → c < g.clusterCount + 2 → ∀ s < g.sectorsPerCluster,
    g.dataStart ≤ g.clusterToSector c + s ∧ g.clusterToSector c + s < g.totalSectors
  alloc : ∀ d r d', g.fatAllocCluster.run d = some (r, d') → (r = 0 ∨ 2 ≤ r ∧ r < g.clusterCount + 2) ∧
    ∀ a, a < g.fatStart * 512 ∨ (g.fatStart + g.fatSize) * 512 ≤ a → d'.mem a = d.mem a

/-- The sums of the source do not leave 32 bits. -/
theorem dataStart_lt (g : Geometry) : g.dataStart < 2 ^ 25 := by
  have h1 := g.reserved_lt
  have h2 := g.rootEntries_lt
  have h3 : g.fatCount * g.fatSize ≤ (2 ^ 8 - 1) * (2 ^ 16 - 1) :=
    Nat.mul_le_mul (by have := g.fatCount_lt; omega) (by have := g.fatSize_lt; omega)
  rw [dataStart, rootStart, fatStart, rootDirSectors]
  omega

theorem clusterToSector_eq (hlo : 2 ≤ c) (hhi : c < 2 ^ 16) :
    g.clusterToSector c = g.dataStart + (c - 2) * g.sectorsPerCluster := by
  have h1 := g.dataStart_lt
  have h2 : (c - 2) * g.sectorsPerCluster ≤ (2 ^ 16 - 1) * (2 ^ 8 - 1) :=
    Nat.mul_le_mul (by omega) (by have := g.spc_lt; omega)
  have h3 : (c + 2 ^ 32 - 2) % 2 ^ 32 = c - 2 := by omega
  rw [clusterToSector, h3, Nat.mod_eq_of_lt (by omega)]

theorem clusterCount_mul_le (h : g.dataStart ≤ g.totalSectors) :
    g.dataStart + g.clusterCount * g.sectorsPerCluster ≤ g.totalSectors := by
  have hsub : g.dataSectors = g.totalSectors - g.dataStart := by
    have := g.total_lt
    rw [dataSectors]
    omega
  have := Nat.div_mul_le_self g.dataSectors g.sectorsPerCluster
  rw [clusterCount]
  omega

/-- The last sector of a cluster still belongs to the data area. -/
theorem cluster_mul_le (hlo : 2 ≤ c) (hhi : c < g.clusterCount + 2) :
    (c - 2) * g.sectorsPerCluster + g.sectorsPerCluster ≤ g.clusterCount * g.sectorsPerCluster := by
  have hle : c - 2 + 1 ≤ g.clusterCount := by omega
  calc (c - 2) * g.sectorsPerCluster + g.sectorsPerCluster
      = (c - 2 + 1) * g.sectorsPerCluster := by ring
    _ ≤ g.clusterCount * g.sectorsPerCluster := Nat.mul_le_mul_right _ hle

/-- The three conditions that make a geometry consistent. -/
theorem consistent_iff (hmin : 0 < g.clusterCount) :
    g.Consistent ↔ g.dataStart ≤ g.totalSectors ∧ g.clusterCount ≤ 65525 ∧
        (g.clusterCount + 1) * 2 / 512 < g.fatSize := by
  constructor
  · intro h
    have hlast := h.number (g.clusterCount + 1) (by omega) (by omega)
    have hentry := (h.entry (g.clusterCount + 1) (by omega) (by omega)).2
    rw [fatSector] at hentry
    exact ⟨h.data_le, by omega, by omega⟩
  · rintro ⟨hdata, hcount, hfat⟩
    refine ⟨hdata, fun c _ hhi => by omega, fun c _ hhi => ?_, fun c hlo hhi s hs => ?_,
      fun d r d' hrun => ?_⟩
    · rw [fatSector]
      omega
    · have hin := cluster_mul_le hlo hhi
      have htotal := clusterCount_mul_le hdata
      rw [clusterToSector_eq hlo (by omega)]
      omega
    · have hn : (g.clusterCount + 2) % 2 ^ 32 - 2 = g.clusterCount := by omega
      rw [fatAllocCluster, hn] at hrun
      obtain ⟨hr, hd⟩ := allocLoop_spec _ (by omega) hrun
      refine ⟨by omega, fun a ha => ?_⟩
      rcases hd with hd | ⟨x, -, hx, hd⟩
      · rw [hd]
      · -- an entry of two bytes does not cross the end of the table
        have hx' : x * 2 / 512 < g.fatSize := by omega
        rw [hd, setEntry]
        exact ByteMem.store_apply_of_not_mem _ (by rw [entryAddr]; omega)

end Geometry

/-- The sectors in front of the data area. -/
def bootOverhead (buf : ByteMem) : ℕ :=
  buf.load 2 14 + buf.load 1 16 * buf.load 2 22 + (buf.load 2 17 * 32 + 511) / 512

/-- The fields of a boot sector fit together: the regions fit into the volume, and its clusters
have numbers and entries. -/
structure FitBoot (buf : ByteMem) : Prop where
  regions : bootOverhead buf ≤ bootTotal buf
  clusters : (bootTotal buf - bootOverhead buf) / buf.load 1 13 ≤ 65525
  table : ((bootTotal buf - bootOverhead buf) / buf.load 1 13 + 1) * 2 / 512 < buf.load 2 22

/-- **What `fat_init` accepts.**  Of the boot sectors that it accepts exactly those with fields
that fit together give a consistent geometry. -/
theorem fatInit_consistent_iff (buf : ByteMem) (g : Geometry) (h : fatInit buf = some g) :
    g.Consistent ↔ FitBoot buf := by
  obtain ⟨hok, hg, hmin⟩ := fatInit_eq_some h
  rw [fat16MinClusters] at hmin
  have hoverhead : g.dataStart = bootOverhead buf := by rw [hg]; rfl
  have htotal : g.totalSectors = bootTotal buf := by rw [hg]; rfl
  have hspc : g.sectorsPerCluster = buf.load 1 13 := by rw [hg]; rfl
  have hsize : g.fatSize = buf.load 2 22 := by rw [hg]; rfl
  rw [Geometry.consistent_iff (by omega)]
  -- where the regions fit, nothing wraps around
  have hcount : g.dataStart ≤ g.totalSectors →
      g.clusterCount = (bootTotal buf - bootOverhead buf) / buf.load 1 13 := by
    intro hle
    have := g.total_lt
    rw [Geometry.clusterCount, Geometry.dataSectors, hspc, ← hoverhead, ← htotal]
    congr 1
    omega
  constructor
  · rintro ⟨hdata, hle, hlt⟩
    rw [hcount hdata] at hle hlt
    exact ⟨hoverhead ▸ htotal ▸ hdata, hle, hsize ▸ hlt⟩
  · rintro ⟨hdata, hle, hlt⟩
    have hdata' : g.dataStart ≤ g.totalSectors := hoverhead ▸ htotal ▸ hdata
    rw [hcount hdata', hsize]
    exact ⟨hdata', hle, hlt⟩

/-- A boot sector with sectors of 512 bytes, one sector a cluster, one reserved sector, one
table of 17 sectors, 128 root entries, and the given number of sectors. -/
def sampleBoot (total : ℕ) : ByteMem :=
  ((ByteMem.blit (fun _ => 0) 11 (ByteMem.leBytes 2 512 ++ [1] ++ ByteMem.leBytes 2 1 ++ [1] ++
    ByteMem.leBytes 2 128)).blit 22 (ByteMem.leBytes 2 17)).blit 32 (ByteMem.leBytes 4 total)

/-- The volume with 8192 sectors is accepted and consistent. -/
theorem fatInit_consistent_8192 :
    ∃ g, fatInit (sampleBoot 8192) = some g ∧ (g.Consistent ↔ FitBoot (sampleBoot 8192)) := by
  have hsome : (fatInit (sampleBoot 8192)).isSome := by decide +kernel
  obtain ⟨g, hg⟩ := Option.isSome_iff_exists.mp hsome
  exact ⟨g, hg, fatInit_consistent_iff _ g hg⟩

/-- A volume of no sectors at all is accepted, though its data area starts at sector 26. -/
theorem fatInit_empty_volume :
    ∃ g, fatInit (sampleBoot 0) = some g ∧ g.totalSectors = 0 ∧ g.dataStart = 26 := by
  have hmap : ((fatInit (sampleBoot 0)).map fun g => (g.totalSectors, g.dataStart)) =
      some (0, 26) := by decide +kernel
  obtain ⟨g, hg, he⟩ := Option.map_eq_some_iff.mp hmap
  obtain ⟨htotal, hdata⟩ := Prod.mk.inj he
  exact ⟨g, hg, htotal, hdata⟩

end Neptune
