import Neptune.Fat.Read

/-!
# Writing a file

`fat_write` gives a file without clusters its first one, walks to the cluster of the offset and
copies sector by sector, in both cases extending the chain where it ends.  At the end it sets the
size, in the handle and in the directory entry.

A write that cannot get another cluster half way returns what it has written so far, and sets
neither the size nor the offset.

## Main definitions

* `Geometry.advance` — the next cluster of a chain, a new one at its end.
* `Geometry.fatWrite` — the function, with `writeSkip`, `writeClusters` and `writeSectors` for its
  loops.

## Main results

* `fatWrite_returns` — the function returns, whatever is on the disk and whatever fails.
-/

namespace Neptune

open DiskM

namespace Geometry

variable {g : Geometry} {m : ByteMem} {d : Disk}

/-- The next cluster, or at the end of the chain a new one that is linked there; `none` where that
fails. -/
def advance (g : Geometry) (cluster : ℕ) : DiskM (Option ℕ) := do
  let next ← g.fatNextCluster cluster
  if next = 0 ∨ isEndCluster next = true then do
    let newCluster ← g.fatAllocCluster
    if newCluster = 0 then return none
    else if ← g.fatSetCluster cluster newCluster then return some newCluster
    else return none
  else return some next

/-- The loop that skips clusters; `none` is a return of -1. -/
def writeSkip (g : Geometry) : ℕ → ℕ → ℕ → DiskM (Option (ℕ × ℕ))
  | 0, _, _ => failure
  | n + 1, cluster, skip =>
    if g.clusterSize ≤ skip then do
      let some cluster ← g.advance cluster | return none
      writeSkip g n cluster (skip - g.clusterSize)
    else return some (cluster, skip)

/-- The loop over the sectors of a cluster, with the bytes that are left; `none` is a return of
-1. -/
def writeSectors (g : Geometry) (base : ℕ) : ℕ → ℕ → List UInt8 → DiskM (Option (List UInt8))
  | 0, _, _ => failure
  | n + 1, clusterOff, rest =>
    if clusterOff < g.clusterSize ∧ rest ≠ [] then do
      let sector := (base + clusterOff / 512) % 2 ^ 32
      let off := clusterOff % 512
      let some buf ← readSector sector | return none
      let chunk := min (512 - off) rest.length
      if ← writeSector sector (patch buf off (rest.take chunk)) then
        writeSectors g base n (clusterOff + chunk) (rest.drop chunk)
      else return none
    else return some rest

/-- How the loop over the clusters ends. -/
inductive WriteEnd
  /-- A return of -1. -/
  | failed
  /-- A return of what is written, with so many bytes left. -/
  | short (left : ℕ)
  /-- Everything is written. -/
  | done
  deriving DecidableEq, Repr

/-- The loop over the clusters. -/
def writeClusters (g : Geometry) : ℕ → ℕ → ℕ → List UInt8 → DiskM WriteEnd
  | 0, _, _, _ => failure
  | n + 1, cluster, skip, rest =>
    if rest ≠ [] then do
      let some rest ←
        writeSectors g (g.clusterToSector cluster) (rest.length + 1) skip rest | return .failed
      if rest = [] then return .done
      else do
        let some cluster ← g.advance cluster | return .short rest.length
        writeClusters g n cluster 0 rest
    else return .done

/-- The first cluster of a file that has none, in the handle and in the directory entry; whether
the write goes on. -/
def firstCluster (g : Geometry) (file : FatFile) : DiskM (Bool × FatFile) :=
  if file.startCluster = 0 then do
    let first ← g.fatAllocCluster
    if first = 0 then return (false, file)
    else do
      let some buf ← readSector file.dirSector | return (false, { file with startCluster := first })
      let ok ← writeSector file.dirSector (patch buf (file.dirOffset + 26) (ByteMem.leBytes 2 first))
      return (ok, { file with startCluster := first })
  else return (true, file)

/-- The new size, in the handle and in the directory entry; errors are ignored. -/
def updateSize (file : FatFile) (stop : ℕ) : DiskM FatFile :=
  if file.size < stop then do
    match ← readSector file.dirSector with
    | none => return { file with size := stop % 2 ^ 32 }
    | some buf => do
      let _ ← writeSector file.dirSector
        (patch buf (file.dirOffset + 28) (ByteMem.leBytes 4 (stop % 2 ^ 32)))
      return { file with size := stop % 2 ^ 32 }
  else return file

/-- `fat_write`: what it returns (`none` for -1), the handle and the offset afterwards. -/
def fatWrite (g : Geometry) (file : FatFile) (offset : ℕ) (data : List UInt8) :
    DiskM (Option ℕ × FatFile × ℕ) :=
  if file.isDir = true ∨ file.attr &&& 0x01 ≠ 0 then return (none, file, offset)
  else if data = [] then return (some 0, file, offset)
  else if 2 ^ 64 ≤ offset + data.length then return (none, file, offset)
  else do
    let (ok, file) ← g.firstCluster file
    if ok = false then return (none, file, offset)
    else do
      let some (cluster, skip) ← g.writeSkip (offset + 1) (file.startCluster % 2 ^ 16) offset
        | return (none, file, offset)
      match ← g.writeClusters (data.length + 1) cluster skip data with
      | .failed => return (none, file, offset)
      | .short left => return (some (data.length - left), file, offset)
      | .done => do
        let file ← updateSize file (offset + data.length)
        return (some data.length, file, offset + data.length)

/-! ### The loops end -/

theorem allocLoop_ends (n c : ℕ) : (g.allocLoop n c).Ensures d fun _ _ => True := by
  induction n generalizing c d with
  | zero => exact ensures_pure trivial
  | succ n ih =>
    rw [allocLoop]
    apply DiskM.Ensures.bind (ensures_fatNextCluster (Q := fun _ _ => True) trivial)
    intro val d' _
    split
    · apply DiskM.Ensures.bind (P := fun _ _ => True) ⟨_, _, run_fatSetCluster _ _ _ _, trivial⟩
      intro ok d'' _
      split <;> exact ensures_pure trivial
    · exact ih (c + 1)

theorem advance_ends (c : ℕ) : (g.advance c).Ensures d fun _ _ => True := by
  rw [advance]
  apply DiskM.Ensures.bind (ensures_fatNextCluster (Q := fun _ _ => True) trivial)
  intro next d' _
  split
  · apply DiskM.Ensures.bind (allocLoop_ends _ _)
    intro newCluster d'' _
    split
    · exact ensures_pure trivial
    · apply DiskM.Ensures.bind (P := fun _ _ => True) ⟨_, _, run_fatSetCluster _ _ _ _, trivial⟩
      intro ok d''' _
      split <;> exact ensures_pure trivial
  · exact ensures_pure trivial

theorem writeSkip_ends (n : ℕ) {cluster skip : ℕ} (h : skip < n) :
    (g.writeSkip n cluster skip).Ensures d fun r _ =>
      ∀ c s, r = some (c, s) → s < g.clusterSize := by
  induction n generalizing cluster skip d with
  | zero => omega
  | succ n ih =>
    rw [writeSkip]
    split
    · have hpos := g.clusterSize_pos
      apply DiskM.Ensures.bind (advance_ends cluster)
      intro r d' _
      cases r with
      | none => exact ensures_pure (by simp)
      | some c => exact ih (by omega)
    · apply ensures_pure
      intro c s hcs
      obtain ⟨rfl, rfl⟩ := Prod.mk.inj (Option.some.inj hcs)
      omega

/-- The loop over the sectors writes at least one byte. -/
theorem writeSectors_ends (base n : ℕ) {clusterOff : ℕ} {rest : List UInt8} (h : rest.length < n) :
    (g.writeSectors base n clusterOff rest).Ensures d fun r _ =>
      ∀ l, r = some l → l.length ≤ rest.length ∧
        (clusterOff < g.clusterSize → rest ≠ [] → l.length < rest.length) := by
  induction n generalizing clusterOff rest d with
  | zero => omega
  | succ n ih =>
    rw [writeSectors]
    split
    · next hin =>
      have hpos := List.length_pos_iff.mpr hin.2
      apply DiskM.Ensures.bind (P := fun _ _ => True) ⟨_, _, rfl, trivial⟩
      intro buf d' _
      cases buf with
      | none => exact ensures_pure (by simp)
      | some buf =>
        apply DiskM.Ensures.bind (P := fun _ _ => True) ⟨_, _, rfl, trivial⟩
        intro ok d'' _
        split
        · refine (ih (by rw [List.length_drop]; omega)).mono fun r _ hr l he => ?_
          have := (hr l he).1
          rw [List.length_drop] at this
          omega
        · exact ensures_pure (by simp)
    · next hout =>
      apply ensures_pure
      intro l he
      obtain rfl := Option.some.inj he
      exact ⟨le_rfl, fun h1 h2 => absurd ⟨h1, h2⟩ hout⟩

theorem writeClusters_ends (n : ℕ) {cluster skip : ℕ} {rest : List UInt8} (h : rest.length < n)
    (hskip : skip < g.clusterSize) :
    (g.writeClusters n cluster skip rest).Ensures d fun _ _ => True := by
  induction n generalizing cluster skip rest d with
  | zero => omega
  | succ n ih =>
    rw [writeClusters]
    split
    · next hne =>
      apply DiskM.Ensures.bind (writeSectors_ends _ _ (Nat.lt_succ_self rest.length))
      intro r d' hr
      cases r with
      | none => exact ensures_pure trivial
      | some l =>
        have hlt := (hr l rfl).2 hskip hne
        dsimp only
        split
        · exact ensures_pure trivial
        · apply DiskM.Ensures.bind (advance_ends cluster)
          intro c d'' _
          cases c with
          | none => exact ensures_pure trivial
          | some c => exact ih (by omega) g.clusterSize_pos
    · exact ensures_pure trivial

theorem firstCluster_ends (file : FatFile) : (g.firstCluster file).Ensures d fun _ _ => True := by
  rw [firstCluster]
  split
  · apply DiskM.Ensures.bind (allocLoop_ends _ _)
    intro first d' _
    split
    · exact ensures_pure trivial
    · apply DiskM.Ensures.bind (P := fun _ _ => True) ⟨_, _, rfl, trivial⟩
      intro buf d'' _
      cases buf with
      | none => exact ensures_pure trivial
      | some buf =>
        apply DiskM.Ensures.bind (P := fun _ _ => True) ⟨_, _, rfl, trivial⟩
        intro ok d''' _
        exact ensures_pure trivial
  · exact ensures_pure trivial

theorem updateSize_ends (file : FatFile) (stop : ℕ) :
    (updateSize file stop).Ensures d fun _ _ => True := by
  rw [updateSize]
  split
  · apply DiskM.Ensures.bind (P := fun _ _ => True) ⟨_, _, rfl, trivial⟩
    intro buf d' _
    cases buf with
    | none => exact ensures_pure trivial
    | some buf =>
      apply DiskM.Ensures.bind (P := fun _ _ => True) ⟨_, _, rfl, trivial⟩
      intro ok d'' _
      exact ensures_pure trivial
  · exact ensures_pure trivial

/-- **`fat_write` returns**, whatever is on the disk and whatever fails. -/
theorem fatWrite_returns (file : FatFile) (offset : ℕ) (data : List UInt8) (d : Disk) :
    (g.fatWrite file offset data).Ensures d fun _ _ => True := by
  rw [fatWrite]
  split
  · exact ensures_pure trivial
  split
  · exact ensures_pure trivial
  split
  · exact ensures_pure trivial
  apply DiskM.Ensures.bind (firstCluster_ends file)
  rintro ⟨ok, file⟩ d' _
  dsimp only
  split
  · exact ensures_pure trivial
  apply DiskM.Ensures.bind (writeSkip_ends _ (Nat.lt_succ_self offset))
  intro r d'' hr
  cases r with
  | none => exact ensures_pure trivial
  | some r =>
    obtain ⟨cluster, skip⟩ := r
    apply DiskM.Ensures.bind (writeClusters_ends _ (Nat.lt_succ_self data.length) (hr cluster skip rfl))
    intro e d''' _
    cases e with
    | failed => exact ensures_pure trivial
    | short left => exact ensures_pure trivial
    | done =>
      apply DiskM.Ensures.bind (updateSize_ends file _)
      intro file _ _
      exact ensures_pure trivial

end Geometry

end Neptune
