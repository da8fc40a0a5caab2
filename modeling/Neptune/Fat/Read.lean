import Neptune.Fat.Geometry
import Mathlib.Data.List.Chain

/-!
# Reading a file

`fat_read` skips whole clusters up to the offset and then copies sector by sector, following
the chain.  On a chain that is long enough it copies a slice of the chain's data.

The loops have fuel.  `fatRead` gives them as many passes as there are bytes, and runs out on
no disk (`fatRead_returns`).

## Main definitions

* `Geometry.fatRead` — the function, with `readSkip`, `readClusters` and `readSectors` for its
  loops.
* `Geometry.ClustersFrom` — the clusters that the table links from a start cluster.
* `Geometry.chainData` — what they hold.

## Main results

* `fatRead_returns` — the function returns, whatever is on the disk and whatever fails.
* `fat_read_slices` — what it copies.
-/

namespace Neptune

open DiskM List Nat

namespace Geometry

variable {g : Geometry} {m : ByteMem} {d : Disk}

/-- The loop that skips clusters; `none` is a return of 0. -/
def readSkip (g : Geometry) : ℕ → ℕ → ℕ → DiskM (Option (ℕ × ℕ))
  | 0, _, _ => failure
  | n + 1, cluster, skip =>
    if g.clusterSize ≤ skip ∧ 2 ≤ cluster then do
      let next ← g.fatNextCluster cluster
      if next = 0 ∨ isEndCluster next = true then return none
      else readSkip g n next (skip - g.clusterSize)
    else return some (cluster, skip)

/-- The loop over the sectors of a cluster, with the bytes left and those copied so far; `none`
is a return of -1. -/
def readSectors (g : Geometry) (base : ℕ) : ℕ → ℕ → ℕ → List UInt8 → DiskM (Option (ℕ × List UInt8))
  | 0, _, _, _ => failure
  | n + 1, clusterOff, len, copied =>
    if clusterOff < g.clusterSize ∧ 0 < len then do
      let off := clusterOff % 512
      let some buf ← readSector ((base + clusterOff / 512) % 2 ^ 32) | return none
      let chunk := min (512 - off) len
      readSectors g base n (clusterOff + chunk) (len - chunk) (copied ++ (buf.drop off).take chunk)
    else return some (len, copied)

/-- The loop over the clusters. -/
def readClusters (g : Geometry) : ℕ → ℕ → ℕ → ℕ → List UInt8 → DiskM (Option (List UInt8))
  | 0, _, _, _, _ => failure
  | n + 1, cluster, skip, len, copied =>
    if 0 < len ∧ 2 ≤ cluster then do
      let some (len, copied) ←
        readSectors g (g.clusterToSector cluster) (len + 1) skip len copied | return none
      if len = 0 then return some copied
      else do
        let next ← g.fatNextCluster cluster
        if next = 0 ∨ isEndCluster next = true then return some copied
        else readClusters g n next 0 len copied
    else return some copied

/-- `fat_read`: the bytes copied, or `none` for -1, and the offset afterwards. -/
def fatRead (g : Geometry) (file : FatFile) (offset len : ℕ) : DiskM (Option (List UInt8) × ℕ) :=
  if file.startCluster = 0 ∨ file.size ≤ offset ∨ len = 0 then return (some [], offset)
  else do
    let len := min len (file.size - offset)
    match ← g.readSkip (offset + 1) (file.startCluster % 2 ^ 16) offset with
    | none => return (some [], offset)
    | some (cluster, skip) =>
      match ← g.readClusters (len + 1) cluster skip len [] with
      | none => return (none, offset)
      | some copied => return (some copied, offset + copied.length)

/-! ### The loops end -/

theorem clusterSize_pos (g : Geometry) : 0 < g.clusterSize := by
  have := g.spc_pos
  rw [clusterSize]
  omega

theorem readSkip_ends (n : ℕ) {cluster skip : ℕ} (h : skip < n) :
    (g.readSkip n cluster skip).Ensures d fun r _ =>
      ∀ c s, r = some (c, s) → s < g.clusterSize ∨ c < 2 := by
  induction n generalizing cluster skip d with
  | zero => omega
  | succ n ih =>
    rw [readSkip]
    split
    · have hpos := g.clusterSize_pos
      apply DiskM.Ensures.bind (ensures_fatNextCluster (Q := fun _ _ => True) trivial)
      intro next d' _
      split
      · exact ensures_pure (by simp)
      · exact ih (by omega)
    · apply ensures_pure
      intro c s hcs
      obtain ⟨rfl, rfl⟩ := Prod.mk.inj (Option.some.inj hcs)
      omega

/-- The loop over the sectors copies at least one byte. -/
theorem readSectors_ends (base n : ℕ) {clusterOff len : ℕ} {copied : List UInt8} (h : len < n) :
    (g.readSectors base n clusterOff len copied).Ensures d fun r _ =>
      ∀ l out, r = some (l, out) → l ≤ len ∧ (clusterOff < g.clusterSize → 0 < len → l < len) := by
  induction n generalizing clusterOff len copied d with
  | zero => omega
  | succ n ih =>
    rw [readSectors]
    split
    · apply DiskM.Ensures.bind (P := fun _ _ => True) ⟨_, _, rfl, trivial⟩
      intro buf d' _
      cases buf with
      | none => exact ensures_pure (by simp)
      | some buf =>
        refine (ih (by omega)).mono fun r _ hr l out he => ?_
        have := (hr l out he).1
        omega
    · apply ensures_pure
      intro l out he
      obtain ⟨rfl, rfl⟩ := Prod.mk.inj (Option.some.inj he)
      omega

theorem readClusters_ends (n : ℕ) {cluster skip len : ℕ} {copied : List UInt8} (h : len < n)
    (hskip : skip < g.clusterSize ∨ cluster < 2) :
    (g.readClusters n cluster skip len copied).Ensures d fun _ _ => True := by
  induction n generalizing cluster skip len copied d with
  | zero => omega
  | succ n ih =>
    rw [readClusters]
    split
    · apply DiskM.Ensures.bind (readSectors_ends _ _ (lt_succ_self len))
      intro r d' hr
      cases r with
      | none => exact ensures_pure trivial
      | some r =>
        obtain ⟨l, out⟩ := r
        have hlt := (hr l out rfl).2
        dsimp only
        split
        · exact ensures_pure trivial
        · apply DiskM.Ensures.bind (ensures_fatNextCluster (Q := fun _ _ => True) trivial)
          intro next d'' _
          split
          · exact ensures_pure trivial
          · exact ih (by omega) (Or.inl g.clusterSize_pos)
    · exact ensures_pure trivial

/-- **`fat_read` returns**, whatever is on the disk and whatever fails. -/
theorem fatRead_returns (file : FatFile) (offset len : ℕ) (d : Disk) :
    (g.fatRead file offset len).Ensures d fun _ _ => True := by
  rw [fatRead]
  split
  · exact ensures_pure trivial
  · apply DiskM.Ensures.bind (readSkip_ends _ (lt_succ_self offset))
    intro r d' hr
    cases r with
    | none => exact ensures_pure trivial
    | some r =>
      obtain ⟨cluster, skip⟩ := r
      apply DiskM.Ensures.bind (readClusters_ends _ (lt_succ_self _) (hr _ _ rfl))
      intro out d'' _
      cases out <;> exact ensures_pure trivial

/-! ### Chains and their data -/

/-- The table links `c` to `c'`. -/
def Follows (g : Geometry) (m : ByteMem) (c c' : ℕ) : Prop :=
  g.fatEntry m c = c' ∧ c' ≠ 0 ∧ isEndCluster c' = false

/-- The clusters of a list have numbers from 2 on, the first is `start`, and the table links
each to the next.  On a cycle they may go round. -/
structure ClustersFrom (g : Geometry) (m : ByteMem) (start : ℕ) (l : List ℕ) : Prop where
  head : ∀ c ∈ l.head?, c = start
  two_le : ∀ c ∈ l, 2 ≤ c
  linked : l.IsChain (g.Follows m)

/-- What a cluster holds. -/
def clusterData (g : Geometry) (m : ByteMem) (c : ℕ) : List UInt8 :=
  m.bytes (g.clusterToSector c * 512) g.clusterSize

/-- What the clusters of a list hold, one after the other. -/
def chainData (g : Geometry) (m : ByteMem) (l : List ℕ) : List UInt8 := l.flatMap (g.clusterData m)

@[simp] theorem length_clusterData (c : ℕ) : (g.clusterData m c).length = g.clusterSize :=
  m.length_bytes _ _

@[simp] theorem chainData_nil : g.chainData m [] = [] := rfl

@[simp] theorem chainData_cons (c : ℕ) (l : List ℕ) :
    g.chainData m (c :: l) = g.clusterData m c ++ g.chainData m l := rfl

@[simp] theorem length_chainData (l : List ℕ) :
    (g.chainData m l).length = l.length * g.clusterSize := by
  induction l with
  | nil => simp
  | cons c l ih => rw [chainData_cons, length_append, ih, length_clusterData, length_cons]; ring

theorem ClustersFrom.tail {start c : ℕ} {l : List ℕ} (h : g.ClustersFrom m start (c :: l)) :
    g.ClustersFrom m (g.fatEntry m c) l := by
  refine ⟨?_, fun x hx => h.two_le x (mem_cons_of_mem c hx), h.linked.tail⟩
  intro x hx
  cases l with
  | nil => cases hx
  | cons c' l =>
    obtain rfl := Option.some.inj hx
    exact (isChain_cons_cons.mp h.linked).1.1.symm

theorem ClustersFrom.follows {start c c' : ℕ} {l : List ℕ}
    (h : g.ClustersFrom m start (c :: c' :: l)) :
    ¬(g.fatEntry m c = 0 ∨ isEndCluster (g.fatEntry m c) = true) := by
  obtain ⟨he, hne, hend⟩ := (isChain_cons_cons.mp h.linked).1
  rw [he]
  simp [hne, hend]

/-! ### Slices -/

/-- The sectors of a cluster do not wrap around. -/
theorem clusterToSector_add_lt (g : Geometry) (c : ℕ) (hlo : 2 ≤ c) (hhi : c < 2 ^ 16) :
    g.clusterToSector c + g.sectorsPerCluster < 2 ^ 32 := by
  have h1 := g.dataStart_lt
  have h2 := g.spc_lt
  have h3 : (c - 2) * g.sectorsPerCluster ≤ (2 ^ 16 - 1) * (2 ^ 8 - 1) :=
    Nat.mul_le_mul (by omega) (by omega)
  rw [clusterToSector_eq hlo hhi]
  omega

/-- The loop over the sectors copies up to the end of the cluster. -/
theorem run_readSectors {base n clusterOff len : ℕ} {copied : List UInt8} (hn : len < n)
    (hbase : base + g.sectorsPerCluster < 2 ^ 32) :
    (g.readSectors base n clusterOff len copied).run (.ok m) =
      some (some (len - min len (g.clusterSize - clusterOff),
        copied ++ m.bytes (base * 512 + clusterOff) (min len (g.clusterSize - clusterOff))),
        .ok m) := by
  induction n generalizing clusterOff len copied with
  | zero => omega
  | succ n ih =>
    rw [readSectors]
    split
    · next hin =>
      obtain ⟨hoff, hlen⟩ := hin
      rw [clusterSize] at hoff
      rw [StateT.run_bind, run_readSector_ok]
      have hsector : (base + clusterOff / 512) % 2 ^ 32 = base + clusterOff / 512 :=
        mod_eq_of_lt (by omega)
      show StateT.run (g.readSectors base n _ _ _) (.ok m) = _
      have hchunk : min (512 - clusterOff % 512) len ≤ 512 - clusterOff % 512 := min_le_left _ _
      rw [ih (by omega), hsector, m.drop_bytes _ (by omega), m.take_bytes _ hchunk]
      have haddr : (base + clusterOff / 512) * 512 + clusterOff % 512 = base * 512 + clusterOff := by
        omega
      have hmin : min len (g.clusterSize - clusterOff) = min (512 - clusterOff % 512) len +
          min (len - min (512 - clusterOff % 512) len)
            (g.clusterSize - (clusterOff + min (512 - clusterOff % 512) len)) := by
        rw [clusterSize]
        omega
      rw [haddr, hmin, m.bytes_add, append_assoc, add_assoc]
      congr 4
      omega
    · next hout =>
      have hmin : min len (g.clusterSize - clusterOff) = 0 := by omega
      rw [hmin]
      simp [ByteMem.bytes]

/-- A slice that ends in the first cluster. -/
theorem slice_first {c skip len : ℕ} {l : List ℕ} (h : skip + len ≤ g.clusterSize) :
    ((g.chainData m (c :: l)).drop skip).take len = m.bytes (g.clusterToSector c * 512 + skip) len := by
  rw [chainData_cons, drop_append_of_le_length (by simp; omega), take_append_of_le_length
    (by simp; omega), clusterData, m.drop_bytes _ (by omega), m.take_bytes _ (by omega)]

/-- A slice that goes on behind the first cluster. -/
theorem slice_rest {c skip len : ℕ} {l : List ℕ} (hskip : skip ≤ g.clusterSize)
    (h : g.clusterSize ≤ skip + len) :
    ((g.chainData m (c :: l)).drop skip).take len =
      m.bytes (g.clusterToSector c * 512 + skip) (g.clusterSize - skip) ++
        (g.chainData m l).take (len - (g.clusterSize - skip)) := by
  have hdrop : (g.clusterData m c).drop skip =
      m.bytes (g.clusterToSector c * 512 + skip) (g.clusterSize - skip) := m.drop_bytes _ hskip
  rw [chainData_cons, drop_append_of_le_length (by simpa using hskip), hdrop,
    take_append, take_of_length_le (by simp; omega), ByteMem.length_bytes]

/-- The loop over the clusters copies a slice of their data. -/
theorem run_readClusters {n c skip len : ℕ} {l : List ℕ} {copied : List UInt8} (hn : len < n)
    (hl : g.ClustersFrom m c (c :: l)) (hc : c < 2 ^ 16) (hskip : skip < g.clusterSize)
    (hlen : skip + len ≤ (l.length + 1) * g.clusterSize) :
    (g.readClusters n c skip len copied).run (.ok m) =
      some (some (copied ++ ((g.chainData m (c :: l)).drop skip).take len), .ok m) := by
  induction n generalizing c l skip len copied with
  | zero => omega
  | succ n ih =>
    have htwo : 2 ≤ c := hl.two_le c mem_cons_self
    rw [readClusters]
    by_cases hzero : len = 0
    · subst hzero
      simp
    rw [if_pos ⟨pos_of_ne_zero hzero, htwo⟩, run_bind_of
      (run_readSectors (lt_succ_self len) (g.clusterToSector_add_lt c htwo hc))]
    dsimp only
    by_cases hfits : len ≤ g.clusterSize - skip
    · -- the slice ends in this cluster
      rw [min_eq_left hfits, if_pos (Nat.sub_self len), slice_first (by omega)]
      rfl
    · rw [min_eq_right (by omega), if_neg (by omega), slice_rest hskip.le (by omega),
        run_bind_of (g.run_fatNextCluster_ok c m)]
      cases l with
      | nil =>
        rw [length_nil] at hlen
        omega
      | cons c' l =>
        obtain rfl := hl.tail.head c' rfl
        rw [if_neg hl.follows]
        rw [length_cons] at hlen
        have hsum : (l.length + 1 + 1) * g.clusterSize =
            (l.length + 1) * g.clusterSize + g.clusterSize := by ring
        rw [ih (by omega) hl.tail (g.fatEntry_lt m c) g.clusterSize_pos (by omega),
          drop_zero, append_assoc]

/-- The skipping loop stops at the cluster of the offset. -/
theorem run_readSkip {n c skip : ℕ} {l : List ℕ} (hn : skip < n)
    (hl : g.ClustersFrom m c (c :: l)) (hc : c < 2 ^ 16)
    (hskip : skip < (l.length + 1) * g.clusterSize) :
    ∃ c' l' skip', (g.readSkip n c skip).run (.ok m) = some (some (c', skip'), .ok m) ∧
      g.ClustersFrom m c' (c' :: l') ∧ c' < 2 ^ 16 ∧ skip' < g.clusterSize ∧
      (l'.length + 1) * g.clusterSize - skip' = (l.length + 1) * g.clusterSize - skip ∧
      (g.chainData m (c' :: l')).drop skip' = (g.chainData m (c :: l)).drop skip := by
  induction n generalizing c l skip with
  | zero => omega
  | succ n ih =>
    have htwo : 2 ≤ c := hl.two_le c mem_cons_self
    have hpos := g.clusterSize_pos
    rw [readSkip]
    split
    · next hin =>
      obtain ⟨hle, -⟩ := hin
      rw [run_bind_of (g.run_fatNextCluster_ok c m)]
      cases l with
      | nil =>
        rw [length_nil] at hskip
        omega
      | cons c' l =>
        obtain rfl := hl.tail.head c' rfl
        rw [length_cons] at hskip ⊢
        have hsum : (l.length + 1 + 1) * g.clusterSize =
            (l.length + 1) * g.clusterSize + g.clusterSize := by ring
        obtain ⟨c'', l'', skip'', hrun, hl'', hc'', hskip'', hlen, hdata⟩ :=
          ih (by omega) hl.tail (g.fatEntry_lt m c)
            (show skip - g.clusterSize < (l.length + 1) * g.clusterSize by omega)
        refine ⟨c'', l'', skip'', ?_, hl'', hc'', hskip'', by omega, ?_⟩
        · rw [if_neg hl.follows]
          exact hrun
        · have hgone : (g.clusterData m c).drop skip = [] :=
            drop_of_length_le (by simpa using hle)
          rw [hdata, chainData_cons c, drop_append, hgone, nil_append, length_clusterData]
    · exact ⟨c, l, skip, rfl, hl, hc, by omega, rfl, rfl⟩

/-- `fat_read` copies a slice. -/
theorem run_fatRead {file : FatFile} {l : List ℕ}
    (hl : g.ClustersFrom m (file.startCluster % 2 ^ 16) l)
    (hsize : file.size ≤ l.length * g.clusterSize) (offset len : ℕ) :
    (g.fatRead file offset len).run (.ok m) =
      some ((some ((((g.chainData m l).take file.size).drop offset).take len),
        offset + ((((g.chainData m l).take file.size).drop offset).take len).length), .ok m) := by
  rw [fatRead]
  by_cases hnone : file.size ≤ offset ∨ len = 0
  · have hempty : (((g.chainData m l).take file.size).drop offset).take len = [] := by
      rcases hnone with h | h
      · rw [drop_of_length_le ((length_take_le _ _).trans h), take_nil]
      · rw [h, take_zero]
    rw [if_pos (Or.inr hnone), hempty]
    rfl
  · obtain ⟨hoff, hlen⟩ := not_or.mp hnone
    cases l with
    | nil =>
      rw [length_nil] at hsize
      omega
    | cons c l =>
      obtain rfl := hl.head c rfl
      have htwo := hl.two_le _ mem_cons_self
      rw [if_neg (by omega)]
      dsimp only
      rw [length_cons] at hsize
      obtain ⟨c', l', skip', hrun, hl', hc', hskip', hroom, hdata⟩ :=
        run_readSkip (lt_succ_self offset) hl (by omega) (by omega)
      rw [run_bind_of hrun]
      dsimp only
      rw [run_bind_of (run_readClusters (lt_succ_self _) hl' hc' hskip' (by omega)), hdata, nil_append]
      -- cutting at the size first or last is the same
      have hslice : ∀ data : List UInt8, (data.drop offset).take (min len (file.size - offset)) =
          ((data.take file.size).drop offset).take len := by
        intro data
        rw [drop_take, take_take]
      rw [hslice]
      rfl

/-! ### One read after the other -/

/-- Reads of the given lengths, each from where the one before ended: all the bytes copied, or
`none` if a read fails, and the offset at the end. -/
def readMany (g : Geometry) (file : FatFile) : ℕ → List ℕ → DiskM (Option (List UInt8) × ℕ)
  | offset, [] => return (some [], offset)
  | offset, len :: lens => do
    match ← g.fatRead file offset len with
    | (none, offset) => return (none, offset)
    | (some copied, offset) => do
      let rest ← readMany g file offset lens
      return (rest.1.map (copied ++ ·), rest.2)

/-- Two slices that follow each other are one. -/
theorem take_append_take (data : List UInt8) (i j : ℕ) :
    data.take i ++ (data.drop (data.take i).length).take j = data.take (i + j) := by
  rw [take_add]
  by_cases h : i ≤ data.length
  · rw [length_take, min_eq_left h]
  · rw [length_take, min_eq_right (by omega), drop_length, drop_of_length_le (by omega)]

theorem run_readMany {file : FatFile} {l : List ℕ}
    (hl : g.ClustersFrom m (file.startCluster % 2 ^ 16) l)
    (hsize : file.size ≤ l.length * g.clusterSize) (lens : List ℕ) (offset : ℕ) :
    (g.readMany file offset lens).run (.ok m) =
      some ((some ((((g.chainData m l).take file.size).drop offset).take lens.sum),
        offset + ((((g.chainData m l).take file.size).drop offset).take lens.sum).length),
        .ok m) := by
  induction lens generalizing offset with
  | nil => simp [readMany]
  | cons len lens ih =>
    rw [readMany, run_bind_of (run_fatRead hl hsize offset len)]
    dsimp only
    rw [run_bind_of (ih _), sum_cons]
    have hjoin := take_append_take (((g.chainData m l).take file.size).drop offset) len lens.sum
    rw [drop_drop] at hjoin
    rw [← hjoin, length_append]
    simp [add_assoc]

/-- **`fat_read` is slicing.**  On a file whose chain has clusters for its size, a read copies
the bytes of the chain's data from the offset up to the length asked for or the size, and moves
the offset behind them; reads one after the other, of whatever lengths, copy the contents. -/
theorem fat_read_slices (g : Geometry) (m : ByteMem) (file : FatFile) (l : List ℕ)
    (hl : g.ClustersFrom m (file.startCluster % 2 ^ 16) l)
    (hsize : file.size ≤ l.length * g.clusterSize) :
    (∀ offset len, ∃ copied, (g.fatRead file offset len).run (.ok m) =
        some ((some copied, offset + copied.length), .ok m) ∧
      copied = ((g.chainData m l).drop offset).take (min (offset + len) file.size - offset)) ∧
    (∀ lens : List ℕ, (∀ len ∈ lens, 0 < len) → ∃ copied, (g.readMany file 0 lens).run (.ok m) =
          some ((some copied, min lens.sum file.size), .ok m) ∧
        copied = ((g.chainData m l).take file.size).take lens.sum) := by
  constructor
  · intro offset len
    refine ⟨_, run_fatRead hl hsize offset len, ?_⟩
    rw [drop_take, take_take]
    congr 1
    omega
  · intro lens _
    refine ⟨_, ?_, rfl⟩
    have hlen : (g.chainData m l).length = l.length * g.clusterSize := length_chainData l
    rw [run_readMany hl hsize, drop_zero]
    congr 3
    rw [zero_add, length_take, length_take, hlen]
    omega

/-- A volume of 8192 sectors with one sector a cluster. -/
def sample : Geometry where
  sectorsPerCluster := 1
  reservedSectors := 1
  fatCount := 1
  rootEntries := 128
  fatSize := 32
  totalSectors := 8192
  spc_pos := by decide
  spc_lt := by decide
  reserved_lt := by decide
  fatCount_lt := by decide
  rootEntries_lt := by decide
  fatSize_pos := by decide
  fatSize_lt := by decide
  total_lt := by decide

/-- A file of 700 bytes in the clusters 2 and 3 of a disk full of the letter A. -/
theorem fat_read_slices_sample :
    (∀ offset len, ∃ copied, (sample.fatRead ⟨2, 700, 33, 0, false, 0x20⟩ offset len).run
          (.ok (sample.setEntry (fun _ => 0x41) 2 3)) =
        some ((some copied, offset + copied.length), .ok (sample.setEntry (fun _ => 0x41) 2 3)) ∧
      copied = ((sample.chainData (sample.setEntry (fun _ => 0x41) 2 3) [2, 3]).drop offset).take
        (min (offset + len) 700 - offset)) ∧
    (∀ lens : List ℕ, (∀ len ∈ lens, 0 < len) →
      ∃ copied, (sample.readMany ⟨2, 700, 33, 0, false, 0x20⟩ 0 lens).run
            (.ok (sample.setEntry (fun _ => 0x41) 2 3)) =
          some ((some copied, min lens.sum 700), .ok (sample.setEntry (fun _ => 0x41) 2 3)) ∧
        copied = ((sample.chainData (sample.setEntry (fun _ => 0x41) 2 3) [2, 3]).take 700).take
          lens.sum) := by
  refine fat_read_slices sample _ ⟨2, 700, 33, 0, false, 0x20⟩ [2, 3] ⟨?_, ?_, ?_⟩ (by decide)
  · simp
  · simp
  · rw [isChain_cons_cons]
    exact ⟨⟨fatEntry_setEntry_self (by decide), by decide, by decide⟩, isChain_singleton 3⟩

end Geometry

end Neptune
