import Neptune.Fat.Content

/-!
# Device errors during a write

`fat_next_cluster` returns 0 for a sector that cannot be read, and 0 is also the mark of a free
entry.  So a failed read in the middle of a chain looks like its end: a cluster is claimed and linked
there, and the rest of the chain is lost.

## Main definitions

* `Geometry.KeepsClusters` — whatever fails, the clusters of the file stay linked.
* `Geometry.Walks` — the write goes beyond the first of several clusters.

## Main results

* `fatWrite_keeps_clusters_iff` — clusters can be lost exactly by such writes.
-/

namespace Neptune

open ByteMem DiskM List

namespace Geometry

variable {g : Geometry} {m m' : ByteMem} {c n s d offset : ℕ} {l : List ℕ} {loc : DirLoc}
  {file : FatFile} {path data : List UInt8} {dk : Disk}

/-- Clusters that the table links from `start`, itself included. -/
def Reaches (g : Geometry) (m : ByteMem) (start c : ℕ) : Prop :=
  Relation.ReflTransGen (g.Follows m) start c

/-- Whichever operations fail during a write, every cluster of the file is still linked from its
start cluster afterwards. -/
def KeepsClusters (g : Geometry) (m : ByteMem) (file : FatFile) (offset : ℕ) (data : List UInt8) :
    Prop :=
  ∀ faults r d', (g.fatWrite file offset data).run ⟨m, faults⟩ = some (r, d') →
    ∀ c ∈ g.fileClusters m file.startCluster, g.Reaches d'.mem file.startCluster c

/-- The write is carried out, the file has a second cluster, and the write goes beyond the first. -/
structure Walks (g : Geometry) (m : ByteMem) (file : FatFile) (offset : ℕ) (data : List UInt8) :
    Prop where
  writable : file.attr &&& 0x01 = 0
  some_data : data ≠ []
  no_wrap : offset + data.length < 2 ^ 64
  beyond : g.clusterSize < offset + data.length
  second : 2 ≤ (g.fileClusters m file.startCluster).length

/-! ### Writes that keep to the first cluster -/

/-- Every cluster of a chain is linked from its head. -/
theorem reaches_of_chain (h : Chain (g.link m) s l) : ∀ c ∈ l, g.Reaches m s c := by
  induction h with
  | last _ =>
    intro c hc
    rw [mem_singleton.mp hc]
    exact .refl
  | next hnext _ ih =>
    intro c hc
    rcases mem_cons.mp hc with rfl | hc
    · exact .refl
    · exact .head (link_eq_next hnext).2 (ih c hc)

/-- A sector of a cluster is written. -/
theorem Regular.blit_sector (hg : g.Regular) (hc : g.InRange c) {clusterOff a : ℕ} {buf : List UInt8}
    (hoff : clusterOff < g.clusterSize) (hbuf : buf.length = 512) (ha : g.InTable a) :
    m.blit ((g.clusterToSector c + clusterOff / 512) * 512) buf a = m a := by
  refine m.blit_apply_of_not_mem fun hin => hg.not_inTable hc ?_ ha
  rw [clusterSize] at hoff
  rw [InCluster, clusterAddr, clusterSize]
  constructor <;> omega

/-- Whatever fails, the loop over the sectors writes into its cluster only. -/
theorem Regular.writeSectors_table (hg : g.Regular) (hc : g.InRange c) (k : ℕ) {clusterOff : ℕ}
    {rest : List UInt8} (hk : rest.length < k) :
    (g.writeSectors (g.clusterToSector c) k clusterOff rest).Ensures dk fun r d' =>
      (∀ a, g.InTable a → d'.mem a = dk.mem a) ∧
        ∀ left, r = some left → left = rest.drop (g.clusterSize - clusterOff) := by
  induction k generalizing clusterOff rest dk with
  | zero => omega
  | succ k ih =>
    rw [writeSectors]
    split
    · next hin =>
      obtain ⟨hoff, hne⟩ := hin
      have hpos := length_pos_iff.mpr hne
      have hlt := hg.lt hc
      have hwrap := g.clusterToSector_add_lt c hc.1 (by omega)
      have hsize : g.clusterSize = g.sectorsPerCluster * 512 := rfl
      have hsector : (g.clusterToSector c + clusterOff / 512) % 2 ^ 32 =
          g.clusterToSector c + clusterOff / 512 := Nat.mod_eq_of_lt (by omega)
      rw [hsector]
      apply DiskM.Ensures.seq
      apply ensures_readSector
      · exact ensures_pure ⟨fun _ _ => rfl, (by rintro _ ⟨⟩)⟩
      apply DiskM.Ensures.seq
      apply ensures_writeSector
      · exact ensures_pure ⟨fun _ _ => rfl, (by rintro _ ⟨⟩)⟩
      rw [if_pos rfl]
      refine (ih (by rw [length_drop]; omega)).mono fun r d' hr => ⟨fun a ha => ?_, fun left he => ?_⟩
      · rw [hr.1 a ha]
        exact hg.blit_sector hc hoff (length_patch_bytes _ _ (by rw [length_take]; omega)) ha
      · rw [hr.2 left he, drop_drop]
        by_cases hshort : rest.length ≤ 512 - clusterOff % 512
        · rw [min_eq_right hshort, drop_of_length_le (by omega), drop_of_length_le (by omega)]
        · rw [min_eq_left (by omega)]
          congr 1
          omega
    · next hout =>
      apply ensures_pure
      refine ⟨fun _ _ => rfl, fun left he => ?_⟩
      obtain rfl := Option.some.inj he
      by_cases hne : rest = []
      · rw [hne, drop_nil]
      · have hzero : g.clusterSize - clusterOff = 0 := by
          have : ¬clusterOff < g.clusterSize := fun h => hout ⟨h, hne⟩
          omega
        rw [hzero, drop_zero]

/-- Whatever fails, the size is stored in the entry only. -/
theorem WellFormed.updateSize_table (h : g.WellFormed m) (hh : g.Handle m file d loc) (stop : ℕ) :
    (updateSize file stop).Ensures dk fun _ d' => ∀ a, g.InTable a → d'.mem a = dk.mem a := by
  have hoff := hh.offset_le
  rw [updateSize]
  split
  · apply DiskM.Ensures.seq
    apply ensures_readSector
    · exact ensures_pure fun _ _ => rfl
    apply DiskM.Ensures.seq
    apply ensures_writeSector
    · exact ensures_pure fun _ _ => rfl
    apply ensures_pure
    intro a ha
    simp only [Disk.mem_tick]
    rw [blit_patch _ _ (by rw [length_leBytes]; omega), blit_leBytes, ← Nat.add_assoc, hh.addr]
    refine store_apply_of_not_mem _ fun hin => ?_
    obtain ⟨i, rfl⟩ := Nat.exists_eq_add_of_le hin.1
    rw [Nat.add_assoc] at ha
    exact (h.entry_apart hh.entry.dir (mem_dirLocs_of_live hh.entry.live) (by omega)).1 ha
  · exact ensures_pure fun _ _ => rfl

/-- Whatever fails, a write that keeps to the first cluster leaves the table. -/
theorem WellFormed.fatWrite_table (h : g.WellFormed m) (hh : g.Handle m file d loc)
    (hstart : file.startCluster ≠ 0) (hstop : offset + data.length ≤ g.clusterSize) :
    (g.fatWrite file offset data).Ensures dk fun _ d' => ∀ a, g.InTable a → d'.mem a = dk.mem a := by
  have hrange := inRange_of_link (hh.start hstart).1
  have hlt := h.regular.lt hrange
  rw [fatWrite]
  split
  · exact ensures_pure fun _ _ => rfl
  split
  · exact ensures_pure fun _ _ => rfl
  next hdata =>
  have hpos := length_pos_iff.mpr hdata
  split
  · exact ensures_pure fun _ _ => rfl
  apply DiskM.Ensures.seq
  rw [firstCluster, if_neg hstart]
  apply ensures_pure
  dsimp only
  rw [if_neg (by decide), Nat.mod_eq_of_lt (by omega)]
  -- there is nothing to skip
  apply DiskM.Ensures.seq
  rw [writeSkip, if_neg (by omega)]
  apply ensures_pure
  dsimp only
  apply DiskM.Ensures.seq
  rw [writeClusters, if_pos hdata]
  apply DiskM.Ensures.seq
  refine (h.regular.writeSectors_table hrange _ (Nat.lt_succ_self _)).mono fun r d' hr => ?_
  cases r with
  | none => exact ensures_pure (ensures_pure hr.1)
  | some left =>
    have hleft : left = [] := by
      rw [hr.2 left rfl]
      exact drop_of_length_le (by omega)
    dsimp only
    rw [if_pos hleft]
    refine ensures_pure (DiskM.Ensures.seq ?_)
    refine (h.updateSize_table hh _).mono fun file' d'' hr' => ensures_pure fun a ha => ?_
    rw [hr' a ha, hr.1 a ha]

/-! ### How clusters are lost -/

/-- A cluster other than `next`. -/
def stray (next : ℕ) : ℕ := if next = 2 then 3 else 2

/-- The reads of the entry of a cluster linked to `next` and of the entry of `stray next` fail, the
operations that claim and link that one succeed. -/
def strayFaults (next : ℕ) : List Bool :=
  if next = 2 then [true, false, true, false, false, false, false]
  else [true, true, false, false, false, false]

theorem stray_ne (next : ℕ) : stray next ≠ next := by
  rw [stray]
  split <;> omega

theorem Regular.inRange_stray (hg : g.Regular) (next : ℕ) : g.InRange (stray next) := by
  have henough := hg.enough
  rw [fat16MinClusters] at henough
  rw [stray, InRange]
  split <;> omega

/-- A cluster that is in use is claimed, because its entry cannot be read. -/
theorem Regular.run_alloc_stray (hg : g.Regular) (hused : g.link m c ≠ .free) (faults : List Bool) :
    g.fatAllocCluster.run ⟨m, (strayFaults c).tail ++ faults⟩ =
      some (stray c, ⟨g.setEntry m (stray c) fat16Eoc, false :: false :: faults⟩) := by
  have henough := hg.enough
  have hfew := hg.few
  rw [fat16MinClusters] at henough
  obtain ⟨k, hk⟩ : ∃ k, (g.clusterCount + 2) % 2 ^ 32 - 2 = k + 1 + 1 :=
    ⟨g.clusterCount - 2, by omega⟩
  rw [fatAllocCluster, hk, run_allocLoop_succ _ (by omega)]
  by_cases hc : c = 2
  · subst hc
    have hentry : g.fatEntry m 2 ≠ 0 := mt (link_eq_free (inRange_of_link hused)).mpr hused
    rw [strayFaults, if_pos rfl, stray, if_pos rfl, if_neg (by simp [Disk.fails, hentry]),
      run_allocLoop_succ _ (by omega)]
    exact (if_pos (.inl rfl)).trans rfl
  · rw [strayFaults, if_neg hc, stray, if_neg hc]
    exact (if_pos (.inl rfl)).trans rfl

/-- So a cluster in the middle of a chain is linked to one that was not behind it. -/
theorem Regular.run_advance_stray (hg : g.Regular) (hused : g.link m n ≠ .free) (c : ℕ)
    (faults : List Bool) :
    (g.advance c).run ⟨m, strayFaults n ++ faults⟩ =
      some (some (stray n), ⟨g.extendAt m c (stray n), faults⟩) := by
  have htail : strayFaults n = true :: (strayFaults n).tail := by
    rw [strayFaults]
    split <;> rfl
  have hnext : (g.fatNextCluster c).run ⟨m, strayFaults n ++ faults⟩ =
      some (0, ⟨m, (strayFaults n).tail ++ faults⟩) := by
    rw [run_fatNextCluster, htail]
    rfl
  have hne : stray n ≠ 0 := by
    have := (hg.inRange_stray n).1
    omega
  have hset : (g.fatSetCluster c (stray n)).run
      ⟨g.setEntry m (stray n) fat16Eoc, false :: false :: faults⟩ =
      some (true, ⟨g.extendAt m c (stray n), faults⟩) := by
    rw [run_fatSetCluster]
    rfl
  rw [advance, run_bind_of hnext, if_pos (.inl rfl),
    run_bind_of (hg.run_alloc_stray hused faults), if_neg hne, run_bind_of hset]
  rfl

/-- Three operations that fail, and there is no next cluster. -/
theorem Regular.run_advance_fails (hg : g.Regular) (c : ℕ) (faults : List Bool) :
    (g.advance c).run ⟨m, true :: true :: true :: faults⟩ = some (none, ⟨m, faults⟩) := by
  have henough := hg.enough
  have hfew := hg.few
  rw [fat16MinClusters] at henough
  obtain ⟨k, hk⟩ : ∃ k, (g.clusterCount + 2) % 2 ^ 32 - 2 = k + 1 := ⟨g.clusterCount - 1, by omega⟩
  have hnext : (g.fatNextCluster c).run ⟨m, true :: true :: true :: faults⟩ =
      some (0, ⟨m, true :: true :: faults⟩) := by
    rw [run_fatNextCluster]
    rfl
  have halloc : g.fatAllocCluster.run ⟨m, true :: true :: faults⟩ = some (0, ⟨m, faults⟩) := by
    rw [fatAllocCluster, hk, run_allocLoop_succ _ (by omega)]
    exact (if_pos (.inl rfl)).trans rfl
  rw [advance, run_bind_of hnext, if_pos (.inl rfl), run_bind_of halloc, if_pos rfl]
  rfl

/-- What was linked behind the cluster is not any more. -/
theorem Regular.not_reaches_stray (hg : g.Regular) (hc : c ≠ n) :
    ¬g.Reaches (g.extendAt m c (stray n)) c n := by
  have hlt := hg.lt (hg.inRange_stray n)
  have hentry : g.fatEntry (g.extendAt m c (stray n)) c = stray n := fatEntry_setEntry_self (by omega)
  have hstray : stray n ≠ c → g.fatEntry (g.extendAt m c (stray n)) (stray n) = fat16Eoc := by
    intro hne
    rw [extendAt, fatEntry_setEntry_of_ne hne, fatEntry_setEntry_self (by decide)]
  -- from the cluster one gets to the stray one, and no further
  have hinv : ∀ x, g.Reaches (g.extendAt m c (stray n)) c x → x = c ∨ x = stray n := by
    intro x hx
    induction hx with
    | refl => exact .inl rfl
    | @tail y z _ hstep ih =>
      obtain ⟨hlink, -, hend⟩ := hstep
      by_cases hyc : y = c
      · rw [hyc] at hlink
        exact .inr (hlink.symm.trans hentry)
      · have hy := ih.resolve_left hyc
        rw [← hlink, hy, hstray (hy ▸ hyc)] at hend
        cases hend
  intro hreach
  rcases hinv n hreach with h | h
  · exact hc h.symm
  · exact stray_ne n h.symm

/-- A write on a disk that fails from now on. -/
theorem run_writeClusters_fails {k skip : ℕ} (hskip : skip < g.clusterSize) (hdata : data ≠ [])
    (m : ByteMem) (faults : List Bool) :
    (g.writeClusters (k + 1) c skip data).run ⟨m, true :: faults⟩ = some (.failed, ⟨m, faults⟩) := by
  have hsectors : (g.writeSectors (g.clusterToSector c) (data.length + 1) skip data).run
      ⟨m, true :: faults⟩ = some (none, ⟨m, faults⟩) := by
    rw [writeSectors, if_pos ⟨hskip, hdata⟩, run_bind_of (run_readSector_fails rfl)]
    rfl
  rw [writeClusters, if_pos hdata, run_bind_of hsectors]
  rfl

/-- The rest of the chain is lost while the write walks to its offset. -/
theorem run_after_stray (hg : g.Regular) (hdir : file.isDir = false)
    (hwalks : g.Walks m file offset data) (hne : file.startCluster ≠ 0) (hn : g.link m n ≠ .free)
    (hmod : file.startCluster % 2 ^ 16 = file.startCluster) (hskip : g.clusterSize ≤ offset) :
    ∃ r faults', (g.fatWrite file offset data).run ⟨m, strayFaults n ++ [true, true, true]⟩ =
      some (r, ⟨g.extendAt m file.startCluster (stray n), faults'⟩) := by
  have hpos := g.clusterSize_pos
  rw [run_fatWrite hdir hwalks.writable hwalks.some_data hwalks.no_wrap (run_firstCluster_set hne _),
    if_neg (by decide), hmod]
  obtain ⟨k, rfl⟩ : ∃ k, offset = k + 1 := ⟨offset - 1, by omega⟩
  have hstep : (g.writeSkip (k + 1 + 1) file.startCluster (k + 1)).run
      ⟨m, strayFaults n ++ [true, true, true]⟩ =
      (g.writeSkip (k + 1) (stray n) (k + 1 - g.clusterSize)).run
        ⟨g.extendAt m file.startCluster (stray n), [true, true, true]⟩ := by
    rw [writeSkip, if_pos hskip, run_bind_of (hg.run_advance_stray hn _ _)]
  by_cases hmore : g.clusterSize ≤ k + 1 - g.clusterSize
  · have hstop : (g.writeSkip (k + 1 + 1) file.startCluster (k + 1)).run
        ⟨m, strayFaults n ++ [true, true, true]⟩ =
        some (none, ⟨g.extendAt m file.startCluster (stray n), []⟩) := by
      rw [hstep, writeSkip, if_pos hmore, run_bind_of (hg.run_advance_fails _ _)]
      rfl
    rw [run_bind_of hstop]
    exact ⟨_, _, rfl⟩
  · have hstop : (g.writeSkip (k + 1 + 1) file.startCluster (k + 1)).run
        ⟨m, strayFaults n ++ [true, true, true]⟩ =
        some (some (stray n, k + 1 - g.clusterSize),
          ⟨g.extendAt m file.startCluster (stray n), [true, true, true]⟩) := by
      rw [hstep, writeSkip, if_neg hmore]
      rfl
    rw [run_bind_of hstop]
    dsimp only
    rw [run_bind_of (run_writeClusters_fails (by omega) hwalks.some_data _ _)]
    exact ⟨_, _, rfl⟩

/-- The rest of the chain is lost behind the data of the first cluster. -/
theorem run_data_stray (hg : g.Regular) (hdir : file.isDir = false)
    (hwalks : g.Walks m file offset data) (hne : file.startCluster ≠ 0)
    (hmod : file.startCluster % 2 ^ 16 = file.startCluster)
    (hnext : g.link m file.startCluster = .next n) (hn : g.link m n ≠ .free)
    (hskip : offset < g.clusterSize) :
    ∃ faults r m₀, (g.fatWrite file offset data).run ⟨m, faults⟩ =
      some (r, ⟨g.extendAt m₀ file.startCluster (stray n), [true, true]⟩) := by
  have hbeyond := hwalks.beyond
  have hrange := (link_eq_next hnext).1
  have hlt := hg.lt hrange
  obtain ⟨ops, hsectors⟩ := @succeeds_writeSectors g m (g.clusterToSector file.startCluster)
    (data.length + 1) offset data (Nat.lt_succ_self _)
    (g.clusterToSector_add_lt _ hrange.1 (by omega))
  -- the data goes into the first cluster, so the links are the same
  have hlink : g.link (m.blit (g.clusterToSector file.startCluster * 512 + offset)
      (data.take (g.clusterSize - offset))) = g.link m := by
    refine hg.link_congr fun a ha => m.blit_apply_of_not_mem fun hin => hg.not_inTable hrange ?_ ha
    rw [length_take] at hin
    rw [InCluster, clusterAddr]
    constructor <;> omega
  have hmore : data.drop (g.clusterSize - offset) ≠ [] := by
    rw [ne_eq, drop_eq_nil_iff]
    omega
  generalize hm₀ : m.blit (g.clusterToSector file.startCluster * 512 + offset)
    (data.take (g.clusterSize - offset)) = m₀ at hsectors hlink
  refine ⟨List.replicate ops false ++ (strayFaults n ++ [true, true, true]),
    (none, file, offset), m₀, ?_⟩
  have hnoskip : (g.writeSkip (offset + 1) file.startCluster offset).run
      ⟨m, List.replicate ops false ++ (strayFaults n ++ [true, true, true])⟩ =
      some (some (file.startCluster, offset),
        ⟨m, List.replicate ops false ++ (strayFaults n ++ [true, true, true])⟩) := by
    rw [writeSkip, if_neg (by omega)]
    rfl
  have hclusters : (g.writeClusters (data.length + 1) file.startCluster offset data).run
      ⟨m, List.replicate ops false ++ (strayFaults n ++ [true, true, true])⟩ =
      some (.failed, ⟨g.extendAt m₀ file.startCluster (stray n), [true, true]⟩) := by
    rw [writeClusters, if_pos hwalks.some_data, run_bind_of (hsectors.run_append _)]
    dsimp only
    rw [if_neg hmore, run_bind_of (hg.run_advance_stray (hlink ▸ hn) _ _)]
    obtain ⟨k, hk⟩ : ∃ k, data.length = k + 1 :=
      ⟨data.length - 1, by have := length_pos_iff.mpr hwalks.some_data; omega⟩
    rw [hk]
    exact run_writeClusters_fails g.clusterSize_pos hmore _ _
  rw [run_fatWrite hdir hwalks.writable hwalks.some_data hwalks.no_wrap (run_firstCluster_set hne _),
    if_neg (by decide), hmod, run_bind_of hnoskip]
  dsimp only
  rw [run_bind_of hclusters]
  rfl

/-- The cluster of a chain that the write leaves first, and a run in which the rest is lost. -/
theorem Walks.loses (h : g.WellFormed m) (hh : g.Handle m file d loc)
    (hwalks : g.Walks m file offset data) : ¬g.KeepsClusters m file offset data := by
  have hg := h.regular
  have hpos := g.clusterSize_pos
  have hne : file.startCluster ≠ 0 := by
    intro hzero
    have hsecond := hwalks.second
    rw [fileClusters, if_pos hzero] at hsecond
    simp at hsecond
  obtain ⟨hused, -, -⟩ := hh.start hne
  obtain ⟨l, hl⟩ := h.table.ends _ hused
  have hclusters := hg.fileClusters_of_chain hl
  have hsecond := hwalks.second
  rw [hclusters] at hsecond
  have hrange := inRange_of_chain hl _ hl.head_mem
  have hlt := hg.lt hrange
  -- the second cluster of the chain
  cases hl with
  | last _ => simp at hsecond
  | @next _ n l hnext hl =>
    have hn := hl.used n hl.head_mem
    have hcn : file.startCluster ≠ n := by
      rintro he
      exact (nodup_cons.mp (Chain.next hnext hl).nodup).1 (he ▸ hl.head_mem)
    obtain ⟨post, rfl⟩ := hl.eq_cons
    have hmem : n ∈ g.fileClusters m file.startCluster := by rw [hclusters]; simp
    suffices hrun : ∃ faults r m₀ faults', (g.fatWrite file offset data).run ⟨m, faults⟩ =
        some (r, ⟨g.extendAt m₀ file.startCluster (stray n), faults'⟩) by
      obtain ⟨faults, r, m₀, faults', hrun⟩ := hrun
      exact fun hkeeps => hg.not_reaches_stray hcn (hkeeps faults r _ hrun n hmem)
    have hmod : file.startCluster % 2 ^ 16 = file.startCluster := Nat.mod_eq_of_lt (by omega)
    by_cases hskip : g.clusterSize ≤ offset
    · obtain ⟨r, faults', hrun⟩ := run_after_stray hg hh.notDir hwalks hne hn hmod hskip
      exact ⟨_, r, m, faults', hrun⟩
    · obtain ⟨faults, r, m₀, hrun⟩ := run_data_stray hg hh.notDir hwalks hne hmod hnext hn (by omega)
      exact ⟨faults, r, m₀, _, hrun⟩

/-- **Device errors and the clusters of a file.**  Whatever fails, a write keeps the clusters of the
file linked exactly if it is refused, has nothing to write, keeps to the first cluster or finds at
most one. -/
theorem fatWrite_keeps_clusters_iff (h : g.WellFormed m)
    (hopen : (g.fatOpen path).run (.ok m) = some (some file, .ok m)) (offset : ℕ) (data : List UInt8) :
    g.KeepsClusters m file offset data ↔ ¬g.Walks m file offset data := by
  obtain ⟨d, loc, -, hloc, hfile, rfl⟩ := h.fatOpen_some hopen
  have hh := h.handle hloc hfile
  generalize entFile loc (loc.entry m) = file at hh hopen ⊢
  refine ⟨fun hkeeps hwalks => hwalks.loses h hh hkeeps, fun hwalks faults r d' hrun => ?_⟩
  by_cases hzero : file.startCluster = 0
  · rw [fileClusters, if_pos hzero]
    rintro _ ⟨⟩
  obtain ⟨l, hl⟩ := h.table.ends _ (hh.start hzero).1
  have hclusters := h.regular.fileClusters_of_chain hl
  rw [hclusters]
  by_cases hsecond : l.length < 2
  · -- the start cluster is the only one
    obtain ⟨rest, rfl⟩ := hl.eq_cons
    have hrest : rest = [] := eq_nil_of_length_eq_zero (by rw [length_cons] at hsecond; omega)
    intro c hc
    rw [hrest, mem_singleton] at hc
    rw [hc]
    exact .refl
  have htable : ∀ a, g.InTable a → d'.mem a = m a := by
    by_cases hgo : file.attr &&& 0x01 = 0 ∧ data ≠ [] ∧ offset + data.length < 2 ^ 64
    · refine (h.fatWrite_table hh hzero (not_lt.mp fun hbeyond => ?_)).of_run hrun
      exact hwalks ⟨hgo.1, hgo.2.1, hgo.2.2, hbeyond, by rw [hclusters]; omega⟩
    · obtain ⟨r', hidle⟩ := run_fatWrite_idle (g := g) hh.notDir hgo ⟨m, faults⟩
      rw [hidle] at hrun
      obtain ⟨-, rfl⟩ := Prod.mk.inj (Option.some.inj hrun)
      exact fun _ _ => rfl
  have hlink := h.regular.link_congr htable
  exact reaches_of_chain (hlink ▸ hl)

/-- A file of one cluster cannot lose it. -/
theorem fatWrite_keeps_clusters_sample :
    sample.KeepsClusters (sampleFile 0xFF 2 0) ⟨2, 0, 33, 0, false, 0x20⟩ 0 [0x42] := by
  have hfile : (0xFF : UInt8) = 0 ∧ 2 = 0 ∨ (0xFF : UInt8) = 0xFF ∧ sample.InRange 2 :=
    .inr ⟨rfl, by decide⟩
  have hlink : sample.link (sampleFile 0xFF 2 0) 2 = .last := by
    rw [sampleFile, link_sampleDisk, if_pos (by decide)]
    decide
  refine (fatWrite_keeps_clusters_iff (wellFormed_sampleFile hfile)
    (run_fatOpen_sampleFile hfile (by decide)) 0 [0x42]).mpr fun hwalks => ?_
  have hsecond := hwalks.second
  rw [regular_sample.fileClusters_of_chain (.last hlink)] at hsecond
  simp at hsecond

/-- The full sample volume with a file "A" in the clusters 2 and 3. -/
def sampleTwo : ByteMem := sample.setEntry (sampleFile 0xFF 2 1024) 2 3

theorem link_sampleTwo (c : ℕ) : sample.link sampleTwo c =
    if c = 2 then .next 3 else if sample.InRange c then .last else .free := by
  rw [sampleTwo, link_setEntry (by decide) (by decide), Function.update_apply]
  split
  · decide
  · rw [sampleFile, link_sampleDisk]
    split
    · decide
    · rfl

theorem soundTable_sampleTwo : SoundTable (sample.link sampleTwo) := by
  have hnext : ∀ a b, sample.link sampleTwo a = .next b → a = 2 ∧ b = 3 := by
    intro a b h
    rw [link_sampleTwo] at h
    split at h
    · next ha => exact ⟨ha, (Link.next.inj h).symm⟩
    · split at h <;> cases h
  have hlast : ∀ c, sample.InRange c → c ≠ 2 → sample.link sampleTwo c = .last := by
    intro c hc hne
    rw [link_sampleTwo, if_neg hne, if_pos hc]
  refine ⟨fun a b h => ?_, fun a b c h h' => (hnext a c h).1.trans (hnext b c h').1.symm, fun a h => ?_⟩
  · rw [(hnext a b h).2, hlast 3 (by decide) (by decide)]
    nofun
  · by_cases ha : a = 2
    · rw [ha]
      exact ⟨[2, 3], .next (link_sampleTwo 2) (.last (hlast 3 (by decide) (by decide)))⟩
    · exact ⟨[a], .last (hlast a (inRange_of_link h) ha)⟩

/-- The entry is that of the sample file. -/
theorem entry_sampleTwo {loc : DirLoc} (hloc : loc ∈ sample.rootLocs) :
    loc.entry sampleTwo = loc.entry (sampleFile 0xFF 2 1024) := by
  refine bytes_congr fun a ha ha' => regular_sample.setEntry_apply (by decide) ?_
  obtain ⟨i, rfl⟩ := Nat.exists_eq_add_of_le ha
  exact (regular_sample.root_apart hloc (by omega)).1

theorem oneFile_sampleTwo : sample.OneFile sampleTwo ⟨33, 0⟩ sample.rootLocs.tail := by
  have hone := oneFile_sampleFile 0xFF 2 1024
  have hroot := hone.root
  refine ⟨hroot, ?_, fun loc hloc => ?_⟩
  · rw [entry_sampleTwo (hroot ▸ mem_cons_self)]
    exact hone.isFile
  · rw [entry_sampleTwo (mem_of_mem_tail hloc)]
    exact hone.isLast loc hloc

/-- **A failed read truncates a file.**  The file "A" has the clusters 2 and 3, and a byte is written
behind the first.  The reads of the entries 2 and 2 again fail, the four operations that claim
cluster 2 and link it to itself succeed, and the rest fails: cluster 3 is lost. -/
theorem fatWrite_loses_cluster :
    sample.WellFormed sampleTwo ∧
    (sample.fatOpen [0x41]).run (.ok sampleTwo) =
      some (some ⟨2, 1024, 33, 0, false, 0x20⟩, .ok sampleTwo) ∧
    3 ∈ sample.fileClusters sampleTwo 2 ∧
    ∃ r d', (sample.fatWrite ⟨2, 1024, 33, 0, false, 0x20⟩ 512 [0x42]).run
        ⟨sampleTwo, [true, true, false, false, false, false, true, true, true]⟩ = some (r, d') ∧
      ¬sample.Reaches d'.mem 2 3 := by
  have hone := oneFile_sampleTwo
  have hentry : DirLoc.entry ⟨33, 0⟩ sampleTwo = newEntry sampleName 0x20 2 1024 := by
    rw [entry_sampleTwo (hone.root ▸ mem_cons_self), entry_sampleFile]
  have hlive : Live (DirLoc.entry ⟨33, 0⟩ sampleTwo) := by
    rw [hentry, ← entry_sampleFile 0xFF 2 1024]
    exact live_sampleFile 0xFF 2 1024
  have hnext : sample.link sampleTwo 2 = .next 3 := link_sampleTwo 2
  have hlast : sample.link sampleTwo 3 = .last := by
    rw [link_sampleTwo, if_neg (by decide), if_pos (by decide)]
  have hwf : sample.WellFormed sampleTwo := by
    refine hone.wellFormed regular_sample soundTable_sampleTwo fun _ => ?_
    have hstart : entStart (newEntry sampleName 0x20 2 1024) = 2 := entStart_newEntry rfl _ _ _
    rw [hentry, hstart]
    refine ⟨by rw [hnext]; nofun, fun b hb => ?_⟩
    rw [link_sampleTwo] at hb
    split at hb
    · cases hb
    · split at hb <;> cases hb
  have hclusters : sample.fileClusters sampleTwo 2 = [2, 3] :=
    regular_sample.fileClusters_of_chain (.next hnext (.last hlast))
  have hparts : traverseParts [0x41] = [[0x41]] := by decide
  have hres := hone.resolve (show partName [0x41] = some sampleName by decide) hlive
    (by rw [hentry, take_newEntry rfl])
  have hwalks : sample.Walks sampleTwo ⟨2, 1024, 33, 0, false, 0x20⟩ 512 [0x42] :=
    ⟨by decide, by simp, by simp, by decide, by rw [hclusters]; decide⟩
  obtain ⟨r, faults', hrun⟩ := run_after_stray regular_sample rfl hwalks (by decide)
    (show sample.link sampleTwo 3 ≠ .free by rw [hlast]; nofun) (by decide) (by decide)
  refine ⟨hwf, ?_, by rw [hclusters]; simp, r, _, hrun, regular_sample.not_reaches_stray (by decide)⟩
  rw [fatOpen, hwf.run_open false _ .root, hparts, hres, Option.map_some, hentry,
    entFile_sampleFile (by decide) (by decide)]

end Geometry

end Neptune
