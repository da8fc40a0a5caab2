import Neptune.Fat.Edit

/-!
# What `fat_write` does

The calls of `fat_write` put together, on a well-formed volume without faults and with a handle that
may be out of date.  How a write ends is a matter of numbers: with the clusters of the handle's chain
and the free ones there is room for so many bytes, and the write fails if the offset lies behind
them, is cut short if its end does, and succeeds otherwise.

## Main definitions

* `Geometry.fileClusters`, `Geometry.room`.
* `Geometry.WriteEffect` — what has happened to the volume, however the write ends.

## Main results

* `fatWrite_spec` — the three ways a write can end.
-/

namespace Neptune

open ByteMem DiskM Nat

namespace Geometry

variable {g : Geometry} {m m' m₁ m₂ : ByteMem} {c n s d a v offset : ℕ} {l l' : List ℕ}
  {loc loc' : DirLoc} {file : FatFile} {data : List UInt8}

/-- The clusters of a file with this start cluster. -/
def fileClusters (g : Geometry) (m : ByteMem) (s : ℕ) : List ℕ :=
  if s = 0 then [] else g.chainPrefix m s (2 ^ 16)

theorem Regular.fileClusters_of_chain (hg : g.Regular) (h : Chain (g.link m) s l) :
    g.fileClusters m s = l := by
  have htwo := (inRange_of_chain h s h.head_mem).1
  have hlen := length_le_of_chain h
  have := hg.few
  rw [fileClusters, if_neg (by omega), chainPrefix_of_chain h (by omega)]

/-- The bytes for which a file has clusters or can get them. -/
def room (g : Geometry) (m : ByteMem) (file : FatFile) : ℕ :=
  ((g.fileClusters m file.startCluster).length + g.freeCount m) * g.clusterSize

/-! ### The start cluster and the size -/

theorem run_firstCluster_set (h : file.startCluster ≠ 0) (dk : Disk) :
    (g.firstCluster file).run dk = some ((true, file), dk) := by
  rw [firstCluster, if_neg h]
  rfl

theorem Regular.run_firstCluster_full (hg : g.Regular) (h : file.startCluster = 0)
    (hfull : g.firstFree m = none) :
    (g.firstCluster file).run (.ok m) = some ((false, file), .ok m) := by
  have halloc := hg.run_alloc m
  rw [hfull] at halloc
  rw [firstCluster, if_pos h, run_bind_of halloc, if_pos rfl]
  rfl

theorem Regular.run_firstCluster_new (hg : g.Regular) (hh : g.Handle m file d loc)
    (h : file.startCluster = 0) (hfree : g.firstFree m = some n) :
    (g.firstCluster file).run (.ok m) =
      some ((true, { file with startCluster := n }),
        .ok ((g.setEntry m n fat16Eoc).store 2 (loc.addr + 26) n)) := by
  have halloc := hg.run_alloc m
  have hn := (firstFree_some hfree).1.1
  have hoff := hh.offset_le
  rw [hfree] at halloc
  rw [firstCluster, if_pos h, run_bind_of halloc, if_neg (by omega), run_bind_of run_readSector_ok]
  dsimp only
  rw [run_bind_of run_writeSector_ok, blit_patch _ _ (by rw [length_leBytes]; omega),
    blit_leBytes, ← add_assoc, hh.addr]
  rfl

theorem run_updateSize (hh : g.Handle m' file d loc) (stop : ℕ) :
    (updateSize file stop).run (.ok m) =
      some (if file.size < stop then { file with size := stop % 2 ^ 32 } else file,
        .ok (if file.size < stop then m.store 4 (loc.addr + 28) (stop % 2 ^ 32) else m)) := by
  have hoff := hh.offset_le
  rw [updateSize]
  split
  · rw [run_bind_of run_readSector_ok]
    dsimp only
    rw [run_bind_of run_writeSector_ok, blit_patch _ _ (by rw [length_leBytes]; omega),
      blit_leBytes, ← add_assoc, hh.addr]
    rfl
  · rfl

/-! ### The effect on the volume -/

/-- What has happened to the volume after a write through `file`: the chain is now `l'`, from `s`
on. -/
structure WriteEffect (g : Geometry) (m m' : ByteMem) (file : FatFile) (d : ℕ) (loc : DirLoc) (s : ℕ)
    (l' : List ℕ) : Prop where
  edits : g.Edits m m' s loc
  wf : g.WellFormed m'
  handle : g.Handle m' { file with startCluster := s } d loc
  ne_zero : s ≠ 0
  start : file.startCluster ≠ 0 → s = file.startCluster
  fresh : file.startCluster = 0 → g.link m s = .free
  storedStart : entStart (loc.entry m') =
    if file.startCluster = 0 then s else entStart (loc.entry m)
  chain : Chain (g.link m') s l'
  grown : (g.fileClusters m file.startCluster).length ≤ l'.length
  count : g.freeCount m' + l'.length = g.freeCount m + (g.fileClusters m file.startCluster).length
  frame : ∀ a, (g.InTable a → l'.length = (g.fileClusters m file.startCluster).length) →
    (∀ c ∈ l', ¬g.InCluster c a) → (∀ i < 32, a ≠ loc.addr + i) → m' a = m a

theorem store_start (m : ByteMem) (loc : DirLoc) (hv : v < 2 ^ 16) : entStart (loc.entry (m.store 2 (loc.addr + 26) v)) = v := by
  rw [DirLoc.entStart_entry, load_store_self]
  exact mod_eq_of_lt hv

/-- A store of the size changes nothing that `WriteEffect` speaks of. -/
theorem WriteEffect.setSize (h : g.WriteEffect m m₁ file d loc s l') (size : ℕ) :
    g.WriteEffect m (m₁.store 4 (loc.addr + 28) size) file d loc s l' := by
  have hstart : entStart (loc.entry (m₁.store 4 (loc.addr + 28) size)) = entStart (loc.entry m₁) := by
    rw [DirLoc.entStart_entry, DirLoc.entStart_entry, load_store_of_disjoint _ (by omega)]
  have hedit : g.Edits m₁ (m₁.store 4 (loc.addr + 28) size) s loc := by
    rw [← blit_leBytes, add_comm loc.addr, add_comm 28]
    exact Edits.blit h.wf h.handle.entry h.handle.isFile (by omega) (by rw [length_leBytes]) s
  have hout : ∀ a, (∀ i < 32, a ≠ loc.addr + i) → m₁.store 4 (loc.addr + 28) size a = m₁ a := by
    intro a ha
    exact store_apply_of_not_mem _ fun hin => ha (a - loc.addr) (by omega) (by omega)
  have hlink : g.link (m₁.store 4 (loc.addr + 28) size) = g.link m₁ := by
    refine h.wf.regular.link_congr fun a ha => hout a ?_
    rintro i hi rfl
    exact (h.wf.entry_apart h.handle.entry.dir (mem_dirLocs_of_live h.handle.entry.live) hi).1 ha
  have hcount : g.freeCount (m₁.store 4 (loc.addr + 28) size) = g.freeCount m₁ := by
    rw [freeCount, freeCount, hlink]
  exact ⟨h.edits.trans hedit, hedit.wellFormed h.wf (.inl hstart), hedit.handle h.handle, h.ne_zero,
    h.start, h.fresh, hstart.trans h.storedStart, hlink ▸ h.chain, h.grown, by rw [hcount, h.count],
    fun a ht hc ha => (hout a ha).trans (h.frame a ht hc ha)⟩

/-- Nor does it change the data of the file. -/
theorem WriteEffect.chainData_size (h : g.WriteEffect m m₁ file d loc s l') (size : ℕ) :
    g.chainData (m₁.store 4 (loc.addr + 28) size) l' = g.chainData m₁ l' := by
  obtain ⟨-, hhead, hdir⟩ := h.handle.start h.ne_zero
  rw [← blit_leBytes]
  exact (Edits.blit h.wf h.handle.entry h.handle.isFile (by omega) (by rw [length_leBytes])
    (s + 1)).data s l' h.chain hhead (by omega) hdir

/-- A chain that grows further. -/
theorem WriteEffect.grows (h : g.WriteEffect m m₁ file d loc s l) (hgrow : g.Grows m₁ m₂ s l l') :
    g.WriteEffect m m₂ file d loc s l' := by
  have hs := h.handle.start h.ne_zero
  have hedit := Edits.grows h.wf hs.2.1 hs.2.2 h.chain hgrow loc
  have hsame : loc.entry m₂ = loc.entry m₁ := h.wf.entry_grows hs.2.1 hs.2.2 h.chain hgrow
    h.handle.entry.dir (mem_dirLocs_of_live h.handle.entry.live)
  have hcount := hgrow.count
  have hcount' := h.count
  have hgrown := h.grown
  obtain ⟨new, hnew⟩ := hgrow.isPrefix
  have hlen : l'.length = l.length + new.length := by rw [hnew, List.length_append]
  refine ⟨h.edits.trans hedit, hedit.wellFormed h.wf (.inl (by rw [hsame])), hedit.handle h.handle,
    h.ne_zero, h.start, h.fresh, by rw [hsame, h.storedStart], hgrow.chain, by omega, by omega,
    fun a ht hc ha => ?_⟩
  have hnil : g.InTable a → new = [] := by
    intro hin
    have := ht hin
    exact List.eq_nil_of_length_eq_zero (by omega)
  refine (hgrow.frame a (fun hin => ?_) hc).trans
    (h.frame a (fun hin => ?_) (fun c hcl => hc c (hgrow.subset c hcl)) ha)
  · rw [hnew, hnil hin, List.append_nil]
  · have := ht hin
    omega

/-- A first cluster is claimed and its number stored in the entry. -/
theorem WriteEffect.claim (h : g.WellFormed m) (hh : g.Handle m file d loc)
    (hzero : file.startCluster = 0) (hn : g.InRange n) (hfree : g.link m n = .free) :
    g.WriteEffect m ((g.setEntry m n fat16Eoc).store 2 (loc.addr + 26) n) file d loc n [n] ∧
      entSize (loc.entry ((g.setEntry m n fat16Eoc).store 2 (loc.addr + 26) n)) =
        entSize (loc.entry m) := by
  have hg := h.regular
  have hlt := hg.lt hn
  have hmem := mem_dirLocs_of_live hh.entry.live
  have hclaim := Edits.claim h hn hfree n loc
  have hsame : loc.entry (g.setEntry m n fat16Eoc) = loc.entry m := h.entry_setEntry hn hh.entry.dir hmem
  have hwf := hclaim.wellFormed h (.inl (by rw [hsame]))
  have hh₁ := hclaim.handle hh
  have hstore : g.Edits (g.setEntry m n fat16Eoc)
      ((g.setEntry m n fat16Eoc).store 2 (loc.addr + 26) n) n loc := by
    rw [← blit_leBytes]
    exact Edits.blit hwf hh₁.entry hh₁.isFile (by omega) (by rw [length_leBytes]; omega) n
  have hedit := hclaim.trans hstore
  have hout : ∀ a, (∀ i < 32, a ≠ loc.addr + i) →
      (g.setEntry m n fat16Eoc).store 2 (loc.addr + 26) n a = g.setEntry m n fat16Eoc a := by
    intro a ha
    exact store_apply_of_not_mem _ fun hin => ha (a - loc.addr) (by omega) (by omega)
  have hlink : g.link ((g.setEntry m n fat16Eoc).store 2 (loc.addr + 26) n) =
      Link.claim (g.link m) n := by
    rw [← link_claim hn]
    refine hg.link_congr fun a ha => hout a ?_
    rintro i hi rfl
    exact (h.entry_apart hh.entry.dir hmem hi).1 ha
  have hlast : g.link ((g.setEntry m n fat16Eoc).store 2 (loc.addr + 26) n) n = .last := by
    rw [hlink, Link.claim_self]
  have hhead : IsHead (g.link ((g.setEntry m n fat16Eoc).store 2 (loc.addr + 26) n)) n := by
    rw [hlink]
    exact (h.table.isHead_of_free hfree).claim
  have hdir : ¬g.IsDirectory ((g.setEntry m n fat16Eoc).store 2 (loc.addr + 26) n) n := by
    intro hd
    exact h.dir_used (hedit.tree.isDirectory_iff.mp hd) (by rw [InRange] at hn; omega) hfree
  have hcount : g.freeCount ((g.setEntry m n fat16Eoc).store 2 (loc.addr + 26) n) + 1 =
      g.freeCount m := by
    refine freeCount_of_update hn hfree (by simp [hlast]) fun x hx => ?_
    rw [hlink, Link.claim_of_ne hx]
  have hstart := store_start (g.setEntry m n fat16Eoc) loc (show n < 2 ^ 16 by omega)
  have hclusters : g.fileClusters m file.startCluster = [] := if_pos hzero
  have hh₂ := hedit.handle hh
  refine ⟨⟨hedit, hedit.wellFormed h ?_, ⟨hh₂.entry, hh₂.isFile, hh₂.sector, hh₂.offset, hh₂.notDir,
    fun _ => ⟨by simp [hlast], hhead, hdir⟩⟩, by rw [InRange] at hn; omega,
    fun hne => absurd hzero hne, fun _ => hfree, by rw [hstart, if_pos hzero], .last hlast, by simp [hclusters],
    by simpa [hclusters] using hcount, fun a ht hc ha => ?_⟩, ?_⟩
  · rw [hstart]
    exact .inr ⟨hfree, by simp [hlast], hhead⟩
  · refine (hout a ha).trans (hg.setEntry_apply hn fun hin => ?_)
    have := ht hin
    simp [hclusters] at this
  · rw [DirLoc.entSize_entry, load_store_of_disjoint _ (by omega), ← DirLoc.entSize_entry, hsame]

/-- The start cluster of a write: that of the handle, or a new one. -/
theorem firstCluster_spec (h : g.WellFormed m) (hh : g.Handle m file d loc) :
    (file.startCluster = 0 ∧ g.firstFree m = none ∧
      (g.firstCluster file).run (.ok m) = some ((false, file), .ok m)) ∨
    ∃ m₁ s l, (g.firstCluster file).run (.ok m) =
        some ((true, { file with startCluster := s }), .ok m₁) ∧
      g.WriteEffect m m₁ file d loc s l ∧ l.length ≤ max 1 (g.fileClusters m file.startCluster).length ∧
      (file.startCluster ≠ 0 → m₁ = m) ∧ entSize (loc.entry m₁) = entSize (loc.entry m) := by
  have hg := h.regular
  by_cases hzero : file.startCluster = 0
  · cases hfree : g.firstFree m with
    | none => exact .inl ⟨hzero, rfl, hg.run_firstCluster_full hzero hfree⟩
    | some n =>
      right
      obtain ⟨hn, hnfree⟩ := firstFree_some hfree
      obtain ⟨heffect, hsize⟩ := WriteEffect.claim h hh hzero hn hnfree
      exact ⟨_, n, [n], hg.run_firstCluster_new hh hzero hfree, heffect, by simp,
        fun hne => absurd hzero hne, hsize⟩
  · right
    obtain ⟨hused, hhead, hdir⟩ := hh.start hzero
    obtain ⟨l, hl⟩ := h.table.ends _ hused
    have hclusters := hg.fileClusters_of_chain hl
    refine ⟨m, file.startCluster, l, run_firstCluster_set hzero _, ⟨Edits.refl h _ loc, h, hh, hzero,
      fun _ => rfl, fun he => absurd he hzero, by rw [if_neg hzero], hl, by rw [hclusters], by rw [hclusters], fun _ _ _ _ => rfl⟩,
      by rw [hclusters]; omega, fun _ => rfl, rfl⟩

/-! ### The write -/

/-- The handle after a write that has set the start cluster and reached up to `stop`. -/
def writtenFile (file : FatFile) (s stop : ℕ) : FatFile :=
  if file.size < stop then { file with startCluster := s, size := stop % 2 ^ 32 }
  else { file with startCluster := s }

/-- What a write that succeeds has done to the file itself. -/
structure WriteDone (g : Geometry) (m m' : ByteMem) (file : FatFile) (loc : DirLoc) (offset : ℕ)
    (data : List UInt8) (l' : List ℕ) : Prop where
  storedSize : entSize (loc.entry m') =
    if file.size < offset + data.length then (offset + data.length) % 2 ^ 32
    else entSize (loc.entry m)
  fits : offset + data.length ≤ l'.length * g.clusterSize
  data : ∃ old, g.chainData m' l' = patch old offset data ∧ old.length = l'.length * g.clusterSize ∧
    ∀ l, Chain (g.link m) file.startCluster l → old.take (l.length * g.clusterSize) = g.chainData m l

/-- A write that is refused or has nothing to write leaves everything. -/
theorem run_fatWrite_refused (h : file.isDir = true ∨ file.attr &&& 0x01 ≠ 0 ∨
      data ≠ [] ∧ 2 ^ 64 ≤ offset + data.length) (dk : Disk) :
    (g.fatWrite file offset data).run dk = some ((none, file, offset), dk) := by
  rw [fatWrite]
  by_cases hro : file.isDir = true ∨ file.attr &&& 0x01 ≠ 0
  · rw [if_pos hro]
    rfl
  · obtain ⟨hdata, hstop⟩ : data ≠ [] ∧ 2 ^ 64 ≤ offset + data.length := by
      rcases h with h | h | h
      · exact absurd (.inl h) hro
      · exact absurd (.inr h) hro
      · exact h
    rw [if_neg hro, if_neg hdata, if_pos hstop]
    rfl

theorem run_fatWrite_nil (hdir : file.isDir = false) (hwritable : file.attr &&& 0x01 = 0) (dk : Disk) :
    (g.fatWrite file offset []).run dk = some ((some 0, file, offset), dk) := by
  rw [fatWrite, if_neg (by simp [hdir, hwritable]), if_pos rfl]
  rfl

/-- A write that is not carried out leaves the disk. -/
theorem run_fatWrite_idle (hdir : file.isDir = false)
    (h : ¬(file.attr &&& 0x01 = 0 ∧ data ≠ [] ∧ offset + data.length < 2 ^ 64)) (dk : Disk) :
    ∃ r, (g.fatWrite file offset data).run dk = some ((r, file, offset), dk) := by
  by_cases hro : file.attr &&& 0x01 = 0
  · by_cases hdata : data = []
    · subst hdata
      exact ⟨_, run_fatWrite_nil hdir hro dk⟩
    · exact ⟨_, run_fatWrite_refused (.inr (.inr ⟨hdata, not_lt.mp fun hlt => h ⟨hro, hdata, hlt⟩⟩)) dk⟩
  · exact ⟨_, run_fatWrite_refused (.inr (.inl hro)) dk⟩

/-- The write is one that is carried out. -/
theorem run_fatWrite {ok : Bool} {file' : FatFile} {dk dk₁ : Disk} (hdir : file.isDir = false)
    (hwritable : file.attr &&& 0x01 = 0) (hdata : data ≠ []) (hstop : offset + data.length < 2 ^ 64)
    (hfirst : (g.firstCluster file).run dk = some ((ok, file'), dk₁)) :
    (g.fatWrite file offset data).run dk =
      if ok = false then some ((none, file', offset), dk₁)
      else (do
        let some (cluster, skip) ← g.writeSkip (offset + 1) (file'.startCluster % 2 ^ 16) offset
          | return (none, file', offset)
        match ← g.writeClusters (data.length + 1) cluster skip data with
        | .failed => return (none, file', offset)
        | .short left => return (some (data.length - left), file', offset)
        | .done => do
          let file ← updateSize file' (offset + data.length)
          return (some data.length, file, offset + data.length) :
            DiskM (Option ℕ × FatFile × ℕ)).run dk₁ := by
  rw [fatWrite, if_neg (by simp [hdir, hwritable]), if_neg hdata, if_neg (by omega), run_bind_of hfirst]
  dsimp only
  split
  · rfl
  · rfl

/-- **The ways a write can end.**  Without a first cluster nothing happens; otherwise the chain
grows as far as the write needs it and the volume allows it. -/
theorem fatWrite_spec (h : g.WellFormed m) (hh : g.Handle m file d loc)
    (hwritable : file.attr &&& 0x01 = 0) (hdata : data ≠ []) (hstop : offset + data.length < 2 ^ 64) :
    (file.startCluster = 0 ∧ g.freeCount m = 0 ∧
      (g.fatWrite file offset data).run (.ok m) = some ((none, file, offset), .ok m)) ∨
    ∃ m' s l', g.WriteEffect m m' file d loc s l' ∧
      (l'.length ≤ (g.fileClusters m file.startCluster).length ∨
        (l'.length - 1) * g.clusterSize < offset + data.length) ∧
      (g.room m file ≤ offset ∧ (g.fatWrite file offset data).run (.ok m) =
          some ((none, { file with startCluster := s }, offset), .ok m') ∨
        offset < g.room m file ∧ g.room m file < offset + data.length ∧
          (g.fatWrite file offset data).run (.ok m) =
            some ((some (g.room m file - offset), { file with startCluster := s }, offset), .ok m') ∨
        offset + data.length ≤ g.room m file ∧ (g.fatWrite file offset data).run (.ok m) =
            some ((some data.length, writtenFile file s (offset + data.length),
              offset + data.length), .ok m') ∧
          g.WriteDone m m' file loc offset data l') := by
  have hg := h.regular
  have hpos := List.length_pos_iff.mpr hdata
  rcases firstCluster_spec h hh with ⟨hzero, hfull, hrun⟩ | ⟨m₁, s, l, hrun, heff, hl, hsame, hsize⟩
  · exact .inl ⟨hzero, firstFree_none.mp hfull,
      (run_fatWrite hh.notDir hwritable hdata hstop hrun).trans (if_pos rfl)⟩
  right
  rw [run_fatWrite hh.notDir hwritable hdata hstop hrun, if_neg (by decide)]
  dsimp only
  have hrange := inRange_of_chain heff.chain s heff.chain.head_mem
  have hmod : s % 2 ^ 16 = s := mod_eq_of_lt (by have := hg.lt hrange; omega)
  rw [hmod]
  -- the room is what the chain has when no cluster is free
  have hroom : ∀ {t l''}, g.WriteEffect m t file d loc s l'' → g.firstFree t = none →
      g.room m file = l''.length * g.clusterSize := by
    intro t l'' heff'' hfull
    have hcount := heff''.count
    rw [firstFree_none.mp hfull] at hcount
    rw [room]
    congr 1
    omega
  obtain ⟨post, rfl⟩ := heff.chain.eq_cons
  obtain ⟨r, m₂, l₂, hskip, hgrow, hdata₂, hmin, hr⟩ := writeSkip_spec hg
    (lt_succ_self offset) heff.wf.table (show Chain _ s ([] ++ s :: post) from heff.chain)
  have heff₂ := heff.grows hgrow
  rw [run_bind_of hskip]
  rw [List.nil_append] at hmin hgrow
  have htight₂ : l₂.length ≤ (g.fileClusters m file.startCluster).length ∨
      (l₂.length - 1) * g.clusterSize ≤ offset := by
    rcases hmin with rfl | hmin
    · rcases le_total 1 (g.fileClusters m file.startCluster).length with hone | hone
      · exact .inl (by omega)
      · right
        have : (s :: post).length - 1 = 0 := by omega
        rw [this, zero_mul]
        exact zero_le offset
    · right
      simpa using hmin
  rcases hr with ⟨rfl, hfull, hle⟩ | ⟨pre, c, post', skip, rfl, rfl, hskip', hsum⟩
  · -- the offset lies behind the last cluster there is
    refine ⟨m₂, s, l₂, heff₂, htight₂.imp_right fun h => by omega, .inl ⟨?_, rfl⟩⟩
    rw [hroom heff₂ hfull]
    simpa using hle
  dsimp only
  rw [List.length_nil, zero_mul, zero_add] at hsum
  obtain ⟨e, m₃, l₃, written, hrun₃, hwrote⟩ := writeClusters_spec hg (lt_succ_self data.length)
    heff₂.wf.table heff₂.chain hskip'
  rw [hsum] at hwrote
  have heff₃ := heff₂.grows hwrote.grows
  have hsize₃ : entSize (loc.entry m₃) = entSize (loc.entry m) := by
    have hs := heff.handle.start heff.ne_zero
    have hs₂ := heff₂.handle.start heff₂.ne_zero
    rw [heff₂.wf.entry_grows hs₂.2.1 hs₂.2.2 heff₂.chain hwrote.grows heff₂.handle.entry.dir
      (mem_dirLocs_of_live heff₂.handle.entry.live), heff.wf.entry_grows hs.2.1 hs.2.2 heff.chain hgrow
      heff.handle.entry.dir (mem_dirLocs_of_live heff.handle.entry.live), hsize]
  rw [run_bind_of hrun₃]
  have hin : offset < (pre ++ c :: post').length * g.clusterSize := by
    have : (pre ++ c :: post').length * g.clusterSize =
        pre.length * g.clusterSize + (post'.length + 1) * g.clusterSize := by
      rw [List.length_append, List.length_cons, add_mul]
    have : g.clusterSize ≤ (post'.length + 1) * g.clusterSize := Nat.le_mul_of_pos_left _ (by omega)
    omega
  have hlen₃ : (pre ++ c :: post').length * g.clusterSize ≤ l₃.length * g.clusterSize := by
    obtain ⟨new, rfl⟩ := hwrote.grows.isPrefix
    refine mul_le_mul_right _ ?_
    simp only [List.length_append]
    omega
  have htight₃ : l₃.length ≤ (g.fileClusters m file.startCluster).length ∨
      (l₃.length - 1) * g.clusterSize < offset + data.length := by
    rcases hwrote.tight with htight | htight
    · rw [htight]
      exact htight₂.imp_right fun h => by omega
    · right
      rcases hwrote.ending with ⟨-, hw⟩ | ⟨-, hw, -, -⟩ <;> omega
  rcases hwrote.ending with ⟨rfl, rfl⟩ | ⟨rfl, hw, hfull, heq⟩
  · dsimp only
    rw [run_bind_of (run_updateSize heff₃.handle _)]
    refine ⟨if file.size < offset + data.length then
        m₃.store 4 (loc.addr + 28) ((offset + data.length) % 2 ^ 32) else m₃, s, l₃, ?_, htight₃,
      .inr (.inr ⟨?_, ?_, ?_, hwrote.fits, g.chainData m₁ l₃, ?_, length_chainData l₃, ?_⟩)⟩
    · split
      · exact heff₃.setSize _
      · exact heff₃
    · refine hwrote.fits.trans (mul_le_mul_right _ ?_)
      have := heff₃.count
      omega
    · rw [writtenFile]
      split <;> rfl
    · split
      · rw [DirLoc.entSize_entry, load_store_self]
        exact mod_mod _ _
      · exact hsize₃
    · have htake : data.take data.length = data := List.take_length
      have hdata₃ : g.chainData m₂ l₃ = g.chainData m₁ l₃ := chainData_congr fun x hx a ha =>
        hdata₂ a (hg.not_inTable (inRange_of_chain heff₃.chain x hx) ha)
      rw [← hdata₃, ← htake, ← hwrote.data, htake]
      split
      · exact heff₃.chainData_size _
      · rfl
    · intro l hl
      have hne : file.startCluster ≠ 0 := by
        have := (inRange_of_chain hl _ hl.head_mem).1
        omega
      obtain rfl := hsame hne
      obtain rfl := heff.chain.unique (heff.start hne ▸ hl)
      obtain ⟨new, hnew⟩ := (hgrow.trans hwrote.grows).isPrefix
      rw [hnew, chainData_append, List.take_left' (length_chainData _)]
  · refine ⟨m₃, s, l₃, heff₃, htight₃, .inr (.inl ?_)⟩
    rw [hroom heff₃ hfull, ← heq]
    refine ⟨by omega, by omega, ?_⟩
    have : data.length - (data.length - written) = offset + written - offset := by omega
    show some ((some _, _), _) = _
    rw [this]

/-- A write that returns the length asked for. -/
theorem fatWrite_full (h : g.WellFormed m) (hh : g.Handle m file d loc) (hdata : data ≠ [])
    {file' : FatFile} {offset' : ℕ} {dk : Disk} (hwrite : (g.fatWrite file offset data).run (.ok m) =
      some ((some data.length, file', offset'), dk)) :
    ∃ m' s l', dk = .ok m' ∧ g.WriteEffect m m' file d loc s l' ∧
      g.WriteDone m m' file loc offset data l' ∧ offset' = offset + data.length ∧
      file' = writtenFile file s (offset + data.length) := by
  -- the other ways to end return something else
  have hother : ∀ {r : Option ℕ} {f t}, (g.fatWrite file offset data).run (.ok m) = some ((r, f), t) →
      r = some data.length := by
    intro r f t hrun
    have := hwrite.symm.trans hrun
    simp only [Option.some.injEq, Prod.mk.injEq] at this
    exact this.1.1.symm
  have hgo : file.attr &&& 0x01 = 0 ∧ offset + data.length < 2 ^ 64 := by
    by_contra hrefused
    have : (none : Option ℕ) = some data.length := hother (run_fatWrite_refused (by
      by_cases hro : file.attr &&& 0x01 = 0
      · exact .inr (.inr ⟨hdata, not_lt.mp fun hlt => hrefused ⟨hro, hlt⟩⟩)
      · exact .inr (.inl hro)) _)
    cases this
  rcases fatWrite_spec h hh hgo.1 hdata hgo.2 with
    ⟨-, -, hrun⟩ | ⟨m', s, l', heff, -, ⟨-, hrun⟩ | ⟨hlt, hlt', hrun⟩ | ⟨-, hrun, hdone⟩⟩
  · cases hother hrun
  · cases hother hrun
  · have := Option.some.inj (hother hrun)
    omega
  · have := hwrite.symm.trans hrun
    simp only [Option.some.injEq, Prod.mk.injEq] at this
    obtain ⟨⟨-, rfl, rfl⟩, rfl⟩ := this
    exact ⟨m', s, l', rfl, heff, hdone, rfl, rfl⟩

end Geometry

end Neptune
