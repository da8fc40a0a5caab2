import Neptune.Lib.Disk

/-!
# The volume and its allocation table

`fat_init` reads the geometry of the volume from the boot sector and accepts it if it has
sectors of 512 bytes, clusters, an allocation table and at least 4085 clusters.  Of the
allocation table only the first copy is used.

Numbers of the source are natural numbers; where an operation of the source can leave its
type, the reduction is written out.

## Main definitions

* `Geometry`, `fatInit` — `struct fat_state` and `fat_init`.
* `Geometry.fatNextCluster`, `Geometry.fatSetCluster`, `Geometry.fatAllocCluster`.
* `Geometry.fatEntry` — the entry of a cluster, read off the disk.

## Main results

* `run_fatNextCluster_ok`, `run_fatSetCluster_ok`, `run_fatAllocCluster_ok` — what the functions do on
  a disk without faults.
-/

namespace Neptune

open ByteMem

/-- `struct fat_state` of a volume that is ready.  `bytes_per_sector` is always 512 then, and
the other fields are computed from these. -/
structure Geometry where
  sectorsPerCluster : ℕ
  reservedSectors : ℕ
  fatCount : ℕ
  rootEntries : ℕ
  fatSize : ℕ
  totalSectors : ℕ
  spc_pos : 0 < sectorsPerCluster
  spc_lt : sectorsPerCluster < 2 ^ 8
  reserved_lt : reservedSectors < 2 ^ 16
  fatCount_lt : fatCount < 2 ^ 8
  rootEntries_lt : rootEntries < 2 ^ 16
  fatSize_pos : 0 < fatSize
  fatSize_lt : fatSize < 2 ^ 16
  total_lt : totalSectors < 2 ^ 32

/-- `struct fat_file`. -/
structure FatFile where
  startCluster : ℕ
  size : ℕ
  dirSector : ℕ
  dirOffset : ℕ
  isDir : Bool
  attr : UInt8
  deriving DecidableEq, Repr

/-- `FAT16_MIN_CLUSTERS`. -/
def fat16MinClusters : ℕ := 4085

/-- `FAT16_EOC`. -/
def fat16Eoc : ℕ := 0xFFF8

/-- `is_end_cluster`. -/
def isEndCluster (value : ℕ) : Bool := decide (fat16Eoc ≤ value)

namespace Geometry

variable (g : Geometry)

/-- `root_dir_sectors`. -/
def rootDirSectors : ℕ := (g.rootEntries * 32 + 511) / 512

/-- `fat_start`. -/
def fatStart : ℕ := g.reservedSectors

/-- `root_start`. -/
def rootStart : ℕ := g.fatStart + g.fatCount * g.fatSize

/-- `data_start`. -/
def dataStart : ℕ := g.rootStart + g.rootDirSectors

/-- `data_sectors`; the subtraction is one of `uint32_t`. -/
def dataSectors : ℕ := (g.totalSectors + 2 ^ 32 - g.dataStart) % 2 ^ 32

/-- `cluster_count`. -/
def clusterCount : ℕ := g.dataSectors / g.sectorsPerCluster

/-- `cluster_size`. -/
def clusterSize : ℕ := g.sectorsPerCluster * 512

/-- `cluster_to_sector`; the cluster is a `uint16_t`, the rest is reckoned as `uint32_t`. -/
def clusterToSector (cluster : ℕ) : ℕ :=
  (g.dataStart + (cluster + 2 ^ 32 - 2) % 2 ^ 32 * g.sectorsPerCluster) % 2 ^ 32

/-- The sector of the allocation table that holds a cluster's entry. -/
def fatSector (cluster : ℕ) : ℕ := g.fatStart + cluster * 2 / 512

/-- `fat_next_cluster`; a sector that cannot be read gives 0. -/
def fatNextCluster (cluster : ℕ) : DiskM ℕ := do
  let off := cluster * 2 % 512
  let some buf ← readSector (g.fatSector cluster) | return 0
  return ByteMem.leNat ((buf.drop off).take 2)

/-- `fat_set_cluster`; whether it returns 0. -/
def fatSetCluster (cluster value : ℕ) : DiskM Bool := do
  let off := cluster * 2 % 512
  let some buf ← readSector (g.fatSector cluster) | return false
  writeSector (g.fatSector cluster) (patch buf off (ByteMem.leBytes 2 value))

/-- The loop of `fat_alloc_cluster`, with the number of passes left. -/
def allocLoop : ℕ → ℕ → DiskM ℕ
  | 0, _ => return 0
  | n + 1, cluster => do
    let val ← g.fatNextCluster (cluster % 2 ^ 16)
    if val = 0 then
      if ← g.fatSetCluster (cluster % 2 ^ 16) fat16Eoc then return cluster % 2 ^ 16 else return 0
    else allocLoop n (cluster + 1)

/-- `fat_alloc_cluster`. -/
def fatAllocCluster : DiskM ℕ := g.allocLoop ((g.clusterCount + 2) % 2 ^ 32 - 2) 2

end Geometry

/-- `total_sectors`: 16 bits of the boot sector, or 32 if those are zero. -/
def bootTotal (buf : ByteMem) : ℕ := if buf.load 2 19 ≠ 0 then buf.load 2 19 else buf.load 4 32

/-- The fields that must have certain values have them. -/
def BootOk (buf : ByteMem) : Prop :=
  buf.load 2 11 = 512 ∧ buf.load 1 13 ≠ 0 ∧ buf.load 2 22 ≠ 0

instance (buf : ByteMem) : Decidable (BootOk buf) := inferInstanceAs (Decidable (_ ∧ _ ∧ _))

/-- The fields of the boot sector. -/
def bootGeometry (buf : ByteMem) (h : BootOk buf) : Geometry where
  sectorsPerCluster := buf.load 1 13
  reservedSectors := buf.load 2 14
  fatCount := buf.load 1 16
  rootEntries := buf.load 2 17
  fatSize := buf.load 2 22
  totalSectors := bootTotal buf
  spc_pos := Nat.pos_of_ne_zero h.2.1
  spc_lt := buf.load_lt 1 13
  reserved_lt := buf.load_lt 2 14
  fatCount_lt := buf.load_lt 1 16
  rootEntries_lt := buf.load_lt 2 17
  fatSize_pos := Nat.pos_of_ne_zero h.2.2
  fatSize_lt := buf.load_lt 2 22
  total_lt := by
    have h16 := buf.load_lt 2 19
    have h32 := buf.load_lt 4 32
    rw [bootTotal]
    split <;> omega

/-- `fat_init` on the boot sector it has read; `none` is a return of -1. -/
def fatInit (buf : ByteMem) : Option Geometry :=
  if h : BootOk buf then
    if (bootGeometry buf h).clusterCount < fat16MinClusters then none
    else some (bootGeometry buf h)
  else none

theorem fatInit_eq_some {buf : ByteMem} {g : Geometry} (h : fatInit buf = some g) :
    ∃ hok, g = bootGeometry buf hok ∧ fat16MinClusters ≤ g.clusterCount := by
  rw [fatInit] at h
  split at h
  · next hok =>
    split at h
    · cases h
    · next hmin =>
      have hg := Option.some.inj h
      exact ⟨hok, hg.symm, hg ▸ not_lt.mp hmin⟩
  · cases h

/-! ### The functions on the table -/

namespace Geometry

variable {g : Geometry} {m : ByteMem} {d d' : Disk} {c v r : ℕ}

/-- Where a cluster's entry lies. -/
def entryAddr (g : Geometry) (c : ℕ) : ℕ := g.fatStart * 512 + c * 2

/-- The entry of a cluster in the first copy of the table. -/
def fatEntry (g : Geometry) (m : ByteMem) (c : ℕ) : ℕ := m.load 2 (g.entryAddr c)

/-- The disk after an entry is set. -/
def setEntry (g : Geometry) (m : ByteMem) (c v : ℕ) : ByteMem := m.store 2 (g.entryAddr c) v

theorem fatSector_addr (g : Geometry) (c : ℕ) :
    g.fatSector c * 512 + c * 2 % 512 = g.entryAddr c := by
  rw [fatSector, entryAddr]
  omega

theorem fatEntry_lt (g : Geometry) (m : ByteMem) (c : ℕ) : g.fatEntry m c < 2 ^ 16 :=
  m.load_lt 2 _

theorem fatEntry_setEntry_self (hv : v < 2 ^ 16) : g.fatEntry (g.setEntry m c v) c = v := by
  rw [fatEntry, setEntry, load_store_self]
  exact Nat.mod_eq_of_lt hv

theorem fatEntry_setEntry_of_ne {c' : ℕ} (h : c' ≠ c) :
    g.fatEntry (g.setEntry m c v) c' = g.fatEntry m c' :=
  m.load_store_of_disjoint (by simp only [entryAddr]; omega)

theorem run_fatNextCluster (g : Geometry) (c : ℕ) (d : Disk) :
    (g.fatNextCluster c).run d = some (if d.fails then 0 else g.fatEntry d.mem c, d.tick) := by
  rw [fatNextCluster, StateT.run_bind]
  cases hf : d.fails with
  | true => rw [run_readSector_fails hf]; rfl
  | false =>
    rw [run_readSector hf]
    show some (_, _) = _
    rw [drop_bytes _ _ (by omega), take_bytes _ _ (by omega), leNat_bytes,
      fatSector_addr, if_neg (by simp), fatEntry]

theorem run_fatNextCluster_ok (g : Geometry) (c : ℕ) (m : ByteMem) :
    (g.fatNextCluster c).run (.ok m) = some (g.fatEntry m c, .ok m) := by
  rw [run_fatNextCluster]
  rfl

theorem ensures_fatNextCluster {Q : ℕ → Disk → Prop}
    (h : Q (if d.fails then 0 else g.fatEntry d.mem c) d.tick) : (g.fatNextCluster c).Ensures d Q :=
  ⟨_, _, run_fatNextCluster g c d, h⟩

theorem blit_entry (g : Geometry) (m : ByteMem) (c v : ℕ) :
    m.blit (g.fatSector c * 512)
        (patch (m.bytes (g.fatSector c * 512) 512) (c * 2 % 512) (ByteMem.leBytes 2 v)) =
      g.setEntry m c v := by
  rw [blit_patch m _ (by rw [length_leBytes]; omega), blit_leBytes, fatSector_addr, setEntry]

theorem run_fatSetCluster (g : Geometry) (c v : ℕ) (d : Disk) :
    (g.fatSetCluster c v).run d = some (
      if d.fails then (false, d.tick)
      else if d.tick.fails then (false, d.tick.tick)
      else (true, ⟨g.setEntry d.mem c v, d.faults.tail.tail⟩)) := by
  rw [fatSetCluster, StateT.run_bind]
  cases hf : d.fails with
  | true => rw [run_readSector_fails hf]; rfl
  | false =>
    rw [run_readSector hf]
    show (writeSector _ _).run d.tick = _
    cases hf' : d.tick.fails with
    | true => rw [run_writeSector_fails hf']; rfl
    | false =>
      rw [run_writeSector hf']
      simp only [Disk.mem_tick, blit_entry]
      rfl

theorem run_fatSetCluster_ok (g : Geometry) (c v : ℕ) (m : ByteMem) :
    (g.fatSetCluster c v).run (.ok m) = some (true, .ok (g.setEntry m c v)) := by
  rw [run_fatSetCluster]
  rfl

/-! ### `fat_alloc_cluster` -/

/-- One pass of the loop. -/
theorem run_allocLoop_succ (n : ℕ) (hc : c < 2 ^ 16) (d : Disk) :
    (g.allocLoop (n + 1) c).run d =
      if d.fails = true ∨ g.fatEntry d.mem c = 0 then
        some (
          if d.tick.fails then (0, d.tick.tick)
          else if d.tick.tick.fails then (0, d.tick.tick.tick)
          else (c, ⟨g.setEntry d.mem c fat16Eoc, d.faults.tail.tail.tail⟩))
      else (g.allocLoop n (c + 1)).run d.tick := by
  have hmod : c % 2 ^ 16 = c := Nat.mod_eq_of_lt hc
  -- a failed read counts as a free entry
  have hval : (if d.fails then 0 else g.fatEntry d.mem c) = 0 ↔
      d.fails = true ∨ g.fatEntry d.mem c = 0 := by
    cases d.fails <;> simp
  rw [allocLoop, StateT.run_bind, hmod, run_fatNextCluster]
  show StateT.run (ite (_ = 0) _ _) d.tick = _
  by_cases h : d.fails = true ∨ g.fatEntry d.mem c = 0
  · rw [if_pos h, if_pos (hval.mpr h), StateT.run_bind, run_fatSetCluster]
    cases d.tick.fails
    · cases d.tick.tick.fails <;> rfl
    · rfl
  · rw [if_neg h, if_neg (mt hval.mp h)]

/-- Whatever fails, the loop returns 0 or a cluster it has looked at, and writes at most the
entry of one. -/
theorem allocLoop_spec (n : ℕ) (hc : c + n ≤ 2 ^ 16) (h : (g.allocLoop n c).run d = some (r, d')) :
    (r = 0 ∨ c ≤ r ∧ r < c + n) ∧
      (d'.mem = d.mem ∨ ∃ x, c ≤ x ∧ x < c + n ∧ d'.mem = g.setEntry d.mem x fat16Eoc) := by
  induction n generalizing c d with
  | zero =>
    obtain ⟨rfl, rfl⟩ := Prod.mk.inj (Option.some.inj h)
    exact ⟨.inl rfl, .inl rfl⟩
  | succ n ih =>
    rw [run_allocLoop_succ n (by omega)] at h
    split at h
    · split at h
      · obtain ⟨rfl, rfl⟩ := Prod.mk.inj (Option.some.inj h)
        exact ⟨.inl rfl, .inl rfl⟩
      · split at h
        · obtain ⟨rfl, rfl⟩ := Prod.mk.inj (Option.some.inj h)
          exact ⟨.inl rfl, .inl rfl⟩
        · obtain ⟨rfl, rfl⟩ := Prod.mk.inj (Option.some.inj h)
          exact ⟨.inr (by omega), .inr ⟨c, le_rfl, by omega, rfl⟩⟩
    · obtain ⟨hr, hd⟩ := ih (by omega) h
      refine ⟨by omega, hd.imp_right ?_⟩
      rintro ⟨x, hx, hx', he⟩
      exact ⟨x, by omega, by omega, he⟩

/-- The first cluster whose entry is 0. -/
def firstFree (g : Geometry) (m : ByteMem) : Option ℕ :=
  (List.range' 2 g.clusterCount).find? fun c => g.fatEntry m c = 0

/-- Without faults the loop claims the first free cluster. -/
theorem run_allocLoop_ok (n : ℕ) (hc : c + n ≤ 2 ^ 16) (m : ByteMem) :
    (g.allocLoop n c).run (.ok m) =
      match (List.range' c n).find? fun c => g.fatEntry m c = 0 with
      | none => some (0, .ok m)
      | some x => some (x, .ok (g.setEntry m x fat16Eoc)) := by
  induction n generalizing c with
  | zero => rfl
  | succ n ih =>
    rw [run_allocLoop_succ n (by omega), List.range'_succ, List.find?_cons]
    by_cases hfree : g.fatEntry m c = 0
    · simp [hfree, Disk.ok, Disk.tick, Disk.fails]
    · rw [if_neg (by simp [hfree])]
      simpa [hfree] using ih (by omega)

theorem run_fatAllocCluster_ok (hcount : g.clusterCount + 2 ≤ 2 ^ 16) (m : ByteMem) :
    g.fatAllocCluster.run (.ok m) =
      match g.firstFree m with
      | none => some (0, .ok m)
      | some x => some (x, .ok (g.setEntry m x fat16Eoc)) := by
  have hn : (g.clusterCount + 2) % 2 ^ 32 - 2 = g.clusterCount := by omega
  rw [fatAllocCluster, hn, run_allocLoop_ok _ (by omega), firstFree]

theorem firstFree_eq_some (h : g.firstFree m = some c) :
    2 ≤ c ∧ c < g.clusterCount + 2 ∧ g.fatEntry m c = 0 := by
  have hmem := List.mem_of_find?_eq_some h
  have hfree := List.find?_some h
  simp only [List.mem_range'_1, decide_eq_true_eq] at hmem hfree
  exact ⟨hmem.1, by omega, hfree⟩

theorem firstFree_eq_none :
    g.firstFree m = none ↔ ∀ c, 2 ≤ c → c < g.clusterCount + 2 → g.fatEntry m c ≠ 0 := by
  rw [firstFree, List.find?_eq_none]
  simp only [List.mem_range'_1, decide_eq_true_eq]
  constructor
  · intro h c hlo hhi
    exact h c ⟨hlo, by omega⟩
  · rintro h c ⟨hlo, hhi⟩
    exact h c hlo (by omega)

end Geometry

end Neptune
