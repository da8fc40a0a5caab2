import Neptune.Fat.Effect

/-!
# The contents of files

What `fat_read` copies from a file of a well-formed volume, and what it copies after a `fat_write`.

## Main definitions

* `Geometry.content` — the contents of the file at a place.
* `Geometry.Covered` — the files have clusters for their sizes.

## Main results

* `run_fatRead_chain` — `fat_read` on a chain that may be too short.
* `write_then_read` — a write that succeeds replaces its part of the contents, and nothing else.
-/

namespace Neptune

open DiskM List Nat

/-- A patch that reaches up to the end, cut off there. -/
theorem take_patch {buf l : List UInt8} {off n : ℕ} (hoff : off ≤ n) (hn : n ≤ buf.length) :
    (patch buf off l).take (max n (off + l.length)) = patch (buf.take n) off l := by
  have hlen : (buf.take off).length = off := length_take_of_le (by omega)
  have htake : (buf.take n).take off = buf.take off := by rw [take_take, min_eq_left hoff]
  have hmax : max n (off + l.length) =
      (buf.take off).length + (l.length + (n - (off + l.length))) := by omega
  rw [patch, patch, htake, hmax, take_length_add_append, take_length_add_append, drop_take]

/-- The patch read back. -/
theorem slice_patch {buf l : List UInt8} {off n : ℕ} (hoff : off ≤ buf.length)
    (hn : off + l.length ≤ n) : (((patch buf off l).take n).drop off).take l.length = l := by
  have hlen : (buf.take off).length = off := length_take_of_le hoff
  rw [drop_take, take_take, patch, drop_left' hlen, take_append_of_le_length
    (by omega), take_of_length_le (by omega)]

namespace Geometry

variable {g : Geometry} {m m' : ByteMem} {c s d offset : ℕ} {l : List ℕ} {loc loc' : DirLoc}
  {file : FatFile} {data : List UInt8}

/-! ### Reading a whole chain -/

/-- The loop over the clusters copies what the chain has. -/
theorem Regular.run_readClusters (hg : g.Regular) {n skip len : ℕ} {copied : List UInt8}
    (hn : len < n) (hl : Chain (g.link m) c l) (hskip : skip < g.clusterSize) :
    (g.readClusters n c skip len copied).run (.ok m) =
      some (some (copied ++ ((g.chainData m l).drop skip).take len), .ok m) := by
  induction n generalizing c l skip len copied with
  | zero => omega
  | succ n ih =>
    have hrange := inRange_of_chain hl c hl.head_mem
    have hlt := hg.lt hrange
    obtain ⟨rest, hrest⟩ := hl.eq_cons
    rw [readClusters]
    by_cases hzero : len = 0
    · subst hzero
      simp
    rw [if_pos ⟨pos_of_ne_zero hzero, hrange.1⟩, run_bind_of
      (run_readSectors (lt_succ_self len) (g.clusterToSector_add_lt c hrange.1 (by omega)))]
    dsimp only
    by_cases hfits : len ≤ g.clusterSize - skip
    · rw [min_eq_left hfits, if_pos (Nat.sub_self len), hrest, slice_first (by omega)]
      rfl
    rw [min_eq_right (by omega), if_neg (by omega), hrest, slice_rest hskip.le (by omega),
      run_bind_of (g.run_fatNextCluster_ok c m)]
    cases hl with
    | last hlast =>
      -- the chain ends, and so does the copy
      obtain rfl := (List.cons.inj hrest).2
      rw [if_pos (.inr (link_eq_last hlast).2), chainData_nil, take_nil, append_nil]
      rfl
    | next hnext hl' =>
      obtain rfl := (List.cons.inj hrest).2
      obtain ⟨-, hentry, hne, hend⟩ := link_eq_next hnext
      rw [hentry, if_neg (by simp [hne, hend]), ih (by omega) hl' g.clusterSize_pos, drop_zero,
        append_assoc]

/-- The loop that skips clusters stops at the cluster of the offset, or at the end of the chain. -/
theorem run_readSkip_chain {n skip : ℕ} (hn : skip < n) (hl : Chain (g.link m) c l) :
    (∃ c' l' skip', (g.readSkip n c skip).run (.ok m) = some (some (c', skip'), .ok m) ∧
      Chain (g.link m) c' l' ∧ skip' < g.clusterSize ∧
      (g.chainData m l').drop skip' = (g.chainData m l).drop skip) ∨
    (g.readSkip n c skip).run (.ok m) = some (none, .ok m) ∧ (g.chainData m l).drop skip = [] := by
  induction n generalizing c l skip with
  | zero => omega
  | succ n ih =>
    have hpos := g.clusterSize_pos
    have htwo := (inRange_of_chain hl c hl.head_mem).1
    rw [readSkip]
    by_cases hin : g.clusterSize ≤ skip
    · have hgone : ∀ x, (g.clusterData m x).drop skip = [] :=
        fun x => drop_of_length_le (by simpa using hin)
      rw [if_pos ⟨hin, htwo⟩, run_bind_of (g.run_fatNextCluster_ok c m)]
      cases hl with
      | last hlast =>
        rw [if_pos (.inr (link_eq_last hlast).2)]
        exact .inr ⟨rfl, by simp [hgone]⟩
      | next hnext hl' =>
        obtain ⟨-, hentry, hne, hend⟩ := link_eq_next hnext
        rw [hentry, if_neg (by simp [hne, hend]), chainData_cons, drop_append, hgone,
          nil_append, length_clusterData]
        exact ih (by omega) hl'
    · rw [if_neg (by omega)]
      exact .inl ⟨c, l, skip, rfl, hl, by omega, rfl⟩

/-- **`fat_read` on a chain** copies a slice of what the chain has. -/
theorem Regular.run_fatRead_chain (hg : g.Regular) (hl : Chain (g.link m) file.startCluster l)
    (offset len : ℕ) :
    (g.fatRead file offset len).run (.ok m) =
      some ((some ((((g.chainData m l).take file.size).drop offset).take len),
        offset + ((((g.chainData m l).take file.size).drop offset).take len).length), .ok m) := by
  have hrange := inRange_of_chain hl _ hl.head_mem
  have hlt := hg.lt hrange
  have htwo := hrange.1
  rw [fatRead]
  by_cases hnone : file.size ≤ offset ∨ len = 0
  · have hempty : (((g.chainData m l).take file.size).drop offset).take len = [] := by
      rcases hnone with h | h
      · rw [drop_of_length_le ((length_take_le _ _).trans h), take_nil]
      · rw [h, take_zero]
    rw [if_pos (.inr hnone), hempty]
    rfl
  obtain ⟨hoff, hlen⟩ := not_or.mp hnone
  have hslice : (((g.chainData m l).take file.size).drop offset).take len =
      ((g.chainData m l).drop offset).take (min len (file.size - offset)) := by
    rw [drop_take, take_take]
  rw [if_neg (by omega), mod_eq_of_lt (by omega), hslice]
  rcases run_readSkip_chain (lt_succ_self offset) hl with
    ⟨c', l', skip', hrun, hl', hskip', hdata⟩ | ⟨hrun, hdata⟩
  · rw [run_bind_of hrun]
    dsimp only
    rw [run_bind_of (hg.run_readClusters (lt_succ_self _) hl' hskip'), hdata, nil_append]
    rfl
  · rw [run_bind_of hrun, hdata, take_nil]
    rfl

/-- The same for a file, which may be without clusters. -/
theorem WellFormed.run_fatRead (h : g.WellFormed m) (file : FatFile)
    (hs : file.startCluster ≠ 0 → g.link m file.startCluster ≠ .free) (offset len : ℕ) :
    ∃ o, (g.fatRead file offset len).run (.ok m) =
      some ((some ((((g.chainData m (g.fileClusters m file.startCluster)).take
        file.size).drop offset).take len), o), .ok m) := by
  by_cases hzero : file.startCluster = 0
  · have hclusters : g.fileClusters m file.startCluster = [] := if_pos hzero
    rw [fatRead, if_pos (.inl hzero), hclusters]
    exact ⟨offset, by simp⟩
  · obtain ⟨l, hl⟩ := h.table.ends _ (hs hzero)
    rw [h.regular.fileClusters_of_chain hl]
    exact ⟨_, h.regular.run_fatRead_chain hl offset len⟩

/-! ### Contents -/

/-- The contents of the file at a place. -/
def content (g : Geometry) (m : ByteMem) (loc : DirLoc) : List UInt8 :=
  (g.chainData m (g.fileClusters m (entStart (loc.entry m)))).take (entSize (loc.entry m))

/-- The files have clusters for their sizes. -/
def Covered (g : Geometry) (m : ByteMem) : Prop :=
  ∀ d loc, g.HasEntry m d loc → entIsDir (loc.entry m) = false →
    entSize (loc.entry m) ≤ (g.fileClusters m (entStart (loc.entry m))).length * g.clusterSize

/-- A read of the whole file copies its contents. -/
theorem WellFormed.run_fatRead_all (h : g.WellFormed m) (hloc : g.HasEntry m d loc) {len : ℕ}
    (hlen : entSize (loc.entry m) ≤ len) :
    ∃ o, (g.fatRead (entFile loc (loc.entry m)) 0 len).run (.ok m) =
      some ((some (g.content m loc), o), .ok m) := by
  obtain ⟨o, ho⟩ := h.run_fatRead (entFile loc (loc.entry m))
    (fun hne => (h.heads d loc hloc hne).1) 0 len
  refine ⟨o, ho.trans ?_⟩
  rw [drop_zero, take_take, min_eq_right (show (entFile loc (loc.entry m)).size ≤ len from hlen)]
  rfl

/-- What `fat_open` has opened. -/
theorem WellFormed.fatOpen_some (h : g.WellFormed m) {path : List UInt8} {file : FatFile} {dk : Disk}
    (hopen : (g.fatOpen path).run (.ok m) = some (some file, dk)) :
    ∃ d loc, g.resolve m false (traverseParts path) 0 = some (d, loc) ∧ g.HasEntry m d loc ∧
      entIsDir (loc.entry m) = false ∧ file = entFile loc (loc.entry m) := by
  rw [fatOpen, h.run_open false _ .root] at hopen
  obtain ⟨⟨d, loc⟩, hres, hfile⟩ := Option.map_eq_some_iff.mp (Prod.mk.inj (Option.some.inj hopen)).1
  obtain ⟨hloc, hkind⟩ := resolve_some .root hres
  exact ⟨d, loc, hres, hloc, hkind, hfile.symm⟩

/-- The file is found again after an edit. -/
theorem Edits.run_fatOpen (he : g.Edits m m' s loc') (hwf : g.WellFormed m') {path : List UInt8}
    (hres : g.resolve m false (traverseParts path) 0 = some (d, loc)) :
    (g.fatOpen path).run (.ok m') = some (some (entFile loc (loc.entry m')), .ok m') := by
  rw [fatOpen, hwf.run_open false _ .root, he.tree.resolve_eq _ _ .root, hres]
  rfl

/-- The contents of other files stay. -/
theorem Edits.content_eq (h : g.WellFormed m) (he : g.Edits m m' s loc) (hloc' : g.HasEntry m d loc')
    (hfile : entIsDir (loc'.entry m) = false) (hne : loc' ≠ loc)
    (hs : entStart (loc'.entry m) ≠ 0 → entStart (loc'.entry m) ≠ s) :
    g.content m' loc' = g.content m loc' := by
  have hentry := he.entries d hloc'.dir loc' (mem_dirLocs_of_live hloc'.live) hne
  rw [content, content, hentry]
  by_cases hzero : entStart (loc'.entry m) = 0
  · rw [fileClusters, fileClusters, if_pos hzero, if_pos hzero]
    rfl
  · obtain ⟨hused, hhead⟩ := h.heads d loc' hloc' hzero
    obtain ⟨l, hl⟩ := h.table.ends _ hused
    rw [h.regular.fileClusters_of_chain hl,
      h.regular.fileClusters_of_chain (he.chains _ l hl hhead (hs hzero)),
      he.data _ l hl hhead (hs hzero) (h.file_not_dir hloc' hfile hzero)]

/-- A write through a handle that is up to date replaces a part of the contents. -/
theorem WriteDone.content {l' : List ℕ} (h : g.WellFormed m) (hc : g.Covered m)
    (hloc : g.HasEntry m d loc) (hfile : entIsDir (loc.entry m) = false)
    (heff : g.WriteEffect m m' (entFile loc (loc.entry m)) d loc s l')
    (hdone : g.WriteDone m m' (entFile loc (loc.entry m)) loc offset data l')
    (hoff : offset ≤ entSize (loc.entry m)) (hstop : offset + data.length < 2 ^ 32) :
    g.content m' loc = patch (g.content m loc) offset data := by
  obtain ⟨old, hpatch, hlen, hold⟩ := hdone.data
  have hcover := hc d loc hloc hfile
  have hsize : entSize (loc.entry m') = max (entSize (loc.entry m)) (offset + data.length) := by
    rw [hdone.storedSize, mod_eq_of_lt hstop]
    show (if entSize (loc.entry m) < _ then _ else _) = _
    split <;> omega
  have hstart : entStart (loc.entry m') = s := by
    rw [heff.storedStart]
    split
    · rfl
    · next hne => exact (heff.start hne).symm
  rw [Geometry.content, Geometry.content, hstart, h.regular.fileClusters_of_chain heff.chain, hsize,
    hpatch]
  by_cases hzero : entStart (loc.entry m) = 0
  · -- an empty file
    have hclusters : g.fileClusters m (entStart (loc.entry m)) = [] := if_pos hzero
    rw [hclusters, length_nil, zero_mul] at hcover
    obtain rfl : offset = 0 := by omega
    rw [take_patch (by omega) (by omega), hclusters, le_zero.mp hcover]
    simp [patch]
  · obtain ⟨l, hl⟩ := h.table.ends _ (h.heads d loc hloc hzero).1
    rw [h.regular.fileClusters_of_chain hl] at hcover ⊢
    have hgrown := heff.grown
    rw [show g.fileClusters m (entFile loc (loc.entry m)).startCluster = l from
      h.regular.fileClusters_of_chain hl] at hgrown
    have hle : l.length * g.clusterSize ≤ old.length := by
      rw [hlen]
      exact mul_le_mul_right _ hgrown
    rw [take_patch hoff (by omega), ← hold l hl, take_take, min_eq_left hcover]

/-- **A write, then a read.**  A write that returns the length asked for replaces its part of the
contents, moves the offset, and leaves every other entry and the contents of every other file. -/
theorem write_then_read (h : g.WellFormed m) (hc : g.Covered m) {path : List UInt8} {o : ℕ}
    {old : List UInt8} (hopen : (g.fatOpen path).run (.ok m) = some (some file, .ok m))
    (hold : (g.fatRead file 0 file.size).run (.ok m) = some ((some old, o), .ok m))
    (hoff : offset ≤ file.size) (hstop : offset + data.length < 2 ^ 32) {file' : FatFile}
    {offset' : ℕ} (hwrite : (g.fatWrite file offset data).run (.ok m) =
      some ((some data.length, file', offset'), .ok m')) :
    offset' = offset + data.length ∧
    (∃ file'' o', (g.fatOpen path).run (.ok m') = some (some file'', .ok m') ∧
      (g.fatRead file'' 0 file''.size).run (.ok m') =
        some ((some (patch old offset data), o'), .ok m')) ∧
    (∀ d, g.IsDirectory m' d ↔ g.IsDirectory m d) ∧
    (∀ d, g.IsDirectory m d → g.dirLocs m' d = g.dirLocs m d ∧
      ∀ loc ∈ g.dirLocs m d, loc ≠ ⟨file.dirSector, file.dirOffset⟩ → loc.entry m' = loc.entry m ∧
        (g.HasEntry m d loc → entIsDir (loc.entry m) = false → g.content m' loc = g.content m loc)) := by
  obtain ⟨d, loc, hres, hloc, hfile, rfl⟩ := h.fatOpen_some hopen
  have hsize : (entFile loc (loc.entry m)).size = entSize (loc.entry m) := rfl
  obtain ⟨o₁, hread⟩ := h.run_fatRead_all hloc (le_refl (entSize (loc.entry m)))
  obtain rfl : g.content m loc = old := by
    rw [hsize, hread] at hold
    simpa using congrArg (fun r => r.map fun p => p.1.1) hold
  by_cases hdata : data = []
  · -- nothing is written
    subst hdata
    have hwritable : (loc.entry m).getD 11 0 &&& 0x01 = 0 := by
      by_contra hro
      rw [run_fatWrite_refused (.inr (.inl hro))] at hwrite
      simp at hwrite
    rw [run_fatWrite_nil hfile hwritable] at hwrite
    simp only [Option.some.injEq, Prod.mk.injEq, Disk.ok, Disk.mk.injEq, and_true] at hwrite
    obtain ⟨⟨-, -, rfl⟩, rfl⟩ := hwrite
    exact ⟨rfl, ⟨_, o₁, hopen, by rw [patch_nil, hsize, hread]⟩, fun _ => Iff.rfl,
      fun d _ => ⟨rfl, fun _ _ _ => ⟨rfl, fun _ _ => rfl⟩⟩⟩
  obtain ⟨m₁, s, l', hm, heff, hdone, rfl, -⟩ := fatWrite_full h (h.handle hloc hfile) hdata hwrite
  obtain rfl : m' = m₁ := congrArg Disk.mem hm
  obtain ⟨o', hread'⟩ := heff.wf.run_fatRead_all heff.handle.entry le_rfl
  rw [hdone.content h hc hloc hfile heff hoff hstop] at hread'
  refine ⟨rfl, ⟨_, o', heff.edits.run_fatOpen heff.wf hres, hread'⟩,
    fun _ => heff.edits.tree.isDirectory_iff, fun d' hd' => ⟨heff.edits.tree.locs d' hd',
    fun loc' hloc' hne => ⟨heff.edits.entries d' hd' loc' hloc' hne, fun hentry hfile' => ?_⟩⟩⟩
  refine heff.edits.content_eq h hentry hfile' hne fun hzero hs => ?_
  -- the start cluster is that of the file written to, or was free
  by_cases hnew : entStart (loc.entry m) = 0
  · exact (h.heads d' loc' hentry hzero).1 (hs ▸ heff.fresh hnew)
  · have heq : entStart (loc'.entry m) = entStart (loc.entry m) := hs.trans (heff.start hnew)
    exact hne (h.distinct d' d loc' loc hentry hloc hzero heq)

theorem freeCount_sampleDisk_full (ent : List UInt8) : sample.freeCount (sampleDisk 0xFF ent) = 0 := by
  rw [freeCount, countP_eq_zero]
  intro c hc
  rw [mem_range'_1] at hc
  have hlink : sample.link (sampleDisk 0xFF ent) c = .last := by
    rw [link_sampleDisk, if_pos ⟨hc.1, by omega⟩]
    decide
  simp [hlink]

theorem handle_sampleFile {fill : UInt8} (start size : ℕ)
    (h : fill = 0 ∧ start = 0 ∨ fill = 0xFF ∧ sample.InRange start) (hsize : size < 2 ^ 32) :
    sample.Handle (sampleFile fill start size) ⟨start, size, 33, 0, false, 0x20⟩ 0 ⟨33, 0⟩ := by
  have hopen := run_fatOpen_sampleFile h hsize
  obtain ⟨d, loc, hres, hloc, hfile, heq⟩ := (wellFormed_sampleFile h).fatOpen_some hopen
  rw [resolve_sampleFile] at hres
  obtain ⟨rfl, rfl⟩ := Prod.mk.inj (Option.some.inj hres)
  rw [heq]
  exact (wellFormed_sampleFile h).handle hloc hfile

theorem fileClusters_sampleFile (size : ℕ) :
    sample.fileClusters (sampleFile 0xFF 2 size) 2 = [2] := by
  have hlink : sample.link (sampleFile 0xFF 2 size) 2 = .last := by
    rw [sampleFile, link_sampleDisk, if_pos (by decide)]
    decide
  exact regular_sample.fileClusters_of_chain (.last hlink)

/-- On the full sample volume the file "A" in cluster 2 has room for one cluster. -/
theorem room_sampleFile (size : ℕ) :
    sample.room (sampleFile 0xFF 2 size) ⟨2, size, 33, 0, false, 0x20⟩ = 512 := by
  rw [room, fileClusters_sampleFile, sampleFile, freeCount_sampleDisk_full]
  decide

/-- A file "A" of five bytes: three bytes are written over the last one and behind it. -/
theorem write_then_read_extends :
    ∃ m' file' file'' o, (sample.fatWrite ⟨2, 5, 33, 0, false, 0x20⟩ 4 [0x42, 0x43, 0x44]).run
          (.ok (sampleFile 0xFF 2 5)) = some ((some 3, file', 7), .ok m') ∧
      (sample.fatOpen [0x41]).run (.ok m') = some (some file'', .ok m') ∧
      (sample.fatRead file'' 0 file''.size).run (.ok m') =
        some ((some [0, 0, 0, 0, 0x42, 0x43, 0x44], o), .ok m') := by
  have hfile : (0xFF : UInt8) = 0 ∧ 2 = 0 ∨ (0xFF : UInt8) = 0xFF ∧ sample.InRange 2 :=
    .inr ⟨rfl, by decide⟩
  have hwf : sample.WellFormed (sampleFile 0xFF 2 5) := wellFormed_sampleFile hfile
  have hhandle := handle_sampleFile 2 5 hfile (by decide)
  have hentry := entry_sampleFile 0xFF 2 5
  have hclusters : sample.fileClusters (sampleFile 0xFF 2 5) (2 % 2 ^ 16) = [2] :=
    fileClusters_sampleFile 5
  have hcov : sample.Covered (sampleFile 0xFF 2 5) := by
    intro d loc h _
    rw [((oneFile_sampleFile 0xFF 2 5).eq_of_hasEntry h).2, hentry, entSize_newEntry rfl,
      entStart_newEntry rfl, hclusters]
    decide
  have hold : sample.content (sampleFile 0xFF 2 5) ⟨33, 0⟩ = [0, 0, 0, 0, 0] := by
    rw [content, hentry, entSize_newEntry rfl, entStart_newEntry rfl, hclusters]
    decide +kernel
  obtain ⟨o, hread⟩ := hwf.run_fatRead_all hhandle.entry (le_refl _)
  rw [hold, hentry, entFile_sampleFile (by decide) (by decide), entSize_newEntry rfl] at hread
  have hroom := room_sampleFile 5
  rcases fatWrite_spec hwf hhandle (by decide) (show [0x42, 0x43, 0x44] ≠ [] by simp)
      (show 4 + [0x42, 0x43, 0x44].length < 2 ^ 64 by simp) with
    ⟨hzero, -, -⟩ | ⟨m', s, l', -, -, ⟨hle, -⟩ | ⟨-, hlt, -⟩ | ⟨-, hrun, -⟩⟩
  · cases hzero
  · omega
  · rw [hroom] at hlt
    simp at hlt
  · obtain ⟨-, ⟨file'', o, hopen, hread'⟩, -⟩ := write_then_read hwf hcov
      (run_fatOpen_sampleFile hfile (by decide)) hread (by decide) (by decide) hrun
    exact ⟨m', _, file'', o, hrun, hopen, hread'⟩

end Geometry

end Neptune
