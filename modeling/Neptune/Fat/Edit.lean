import Neptune.Fat.Lookup

/-!
# Changes that keep the tree

The disk updates of `fat_write`: a cluster is claimed, a field of the directory entry is stored, a
chain grows.  All of them leave the directories, the names and the other files as they are.
`Geometry.Edits` says so, is transitive, and holds of each of them.

## Main definitions

* `Geometry.Edits` — only the chain of one start cluster and one entry change.
* `Geometry.Handle` — handles of files, which may be out of date.

## Main results

* `Edits.claim`, `Edits.blit`, `Edits.grows` — the updates.
* `Edits.wellFormed`, `Edits.handle` — what they keep.
-/

namespace Neptune

open ByteMem

namespace Geometry

variable {g : Geometry} {m m' m'' : ByteMem} {c n s d a : ℕ} {l l' : List ℕ} {loc loc' : DirLoc}

/-! ### Where directories are not -/

/-- The bytes of the root directory are neither in the table nor in a cluster. -/
theorem Regular.root_apart (hg : g.Regular) (hloc : loc ∈ g.rootLocs) {i : ℕ} (hi : i < 32) :
    ¬g.InTable (loc.addr + i) ∧ ∀ c, g.InRange c → ¬g.InCluster c (loc.addr + i) := by
  obtain ⟨hlo, hhi⟩ := entry_inRoot hloc
  have htable := hg.table_le
  constructor
  · rw [InTable]
    omega
  · intro c hc hin
    rw [InCluster, hg.clusterAddr_eq hc] at hin
    omega

namespace WellFormed

/-- The bytes of an entry are not in the table, and not in a cluster outside its directory. -/
theorem entry_apart (h : g.WellFormed m) (hd : g.IsDirectory m d) (hloc : loc ∈ g.dirLocs m d) {i : ℕ}
    (hi : i < 32) : ¬g.InTable (loc.addr + i) ∧
      ∀ c, g.InRange c → g.InCluster c (loc.addr + i) → d ≠ 0 ∧ ∀ l, Chain (g.link m) d l → c ∈ l := by
  rcases h.mem_dirLocs hd hloc with ⟨rfl, hin⟩ | ⟨hne, l, hl, -, x, hx, hin⟩
  · obtain ⟨htable, hcluster⟩ := h.regular.root_apart hin hi
    exact ⟨htable, fun c hc hc' => absurd hc' (hcluster c hc)⟩
  · have hrange := inRange_of_chain hl x hx
    have hinx := h.regular.entry_inCluster hrange hin hi
    refine ⟨h.regular.not_inTable hrange hinx, fun c hc hinc => ⟨hne, fun l' hl' => ?_⟩⟩
    obtain rfl := h.regular.eq_of_inCluster hrange hc hinx hinc
    exact hl.unique hl' ▸ hx

/-- A directory other than the root is a cluster in use. -/
theorem dir_used (h : g.WellFormed m) (hd : g.IsDirectory m d) (hne : d ≠ 0) : g.link m d ≠ .free := by
  obtain ⟨⟨l, hl⟩, -⟩ := h.dir_chain hd hne
  exact hl.used d hl.head_mem

/-- The start cluster of a file is not a directory. -/
theorem file_not_dir (h : g.WellFormed m) (hloc : g.HasEntry m d loc)
    (hfile : entIsDir (loc.entry m) = false) (hne : entStart (loc.entry m) ≠ 0) :
    ¬g.IsDirectory m (entStart (loc.entry m)) := by
  intro hdir
  obtain ⟨d', loc', hloc', hdir', hstart⟩ := hdir.entry hne
  obtain rfl := h.distinct d d' loc loc' hloc hloc' hne hstart.symm
  rw [hfile] at hdir'
  cases hdir'

/-- The tree is the same if the chains of the directories and the heads of the entries are. -/
theorem sameTree (h : g.WellFormed m)
    (hlink : ∀ d, g.IsDirectory m d → d ≠ 0 → ∀ l, Chain (g.link m) d l → Chain (g.link m') d l)
    (hhead : ∀ d, g.IsDirectory m d → ∀ loc ∈ g.dirLocs m d, SameHead (loc.entry m) (loc.entry m'))
    (hsub : ∀ d loc, g.HasEntry m d loc → entIsDir (loc.entry m) = true →
      entStart (loc.entry m') = entStart (loc.entry m)) : g.SameTree m m' := by
  refine ⟨fun d hd => ?_, hhead, hsub⟩
  by_cases hne : d = 0
  · rw [dirLocs, dirLocs, if_pos hne, if_pos hne]
  · obtain ⟨⟨l, hl⟩, -⟩ := h.dir_chain hd hne
    rw [h.regular.dirLocs_of_chain hl, h.regular.dirLocs_of_chain (hlink d hd hne l hl)]

/-- A table entry that is set leaves the directory entries as they are. -/
theorem entry_setEntry (h : g.WellFormed m) (hn : g.InRange n) {v : ℕ} (hd : g.IsDirectory m d)
    (hloc : loc ∈ g.dirLocs m d) : loc.entry (g.setEntry m n v) = loc.entry m := by
  refine bytes_congr fun a ha ha' => h.regular.setEntry_apply hn ?_
  obtain ⟨i, rfl⟩ := Nat.exists_eq_add_of_le ha
  exact (h.entry_apart hd hloc (by omega)).1

end WellFormed

/-- The clusters of other chains are not in a chain that grows. -/
theorem Grows.apart (hgrow : g.Grows m m' s l l') (ht : SoundTable (g.link m))
    (hs : IsHead (g.link m) s) (hl : Chain (g.link m) s l) {lc : List ℕ}
    (hlc : Chain (g.link m) c lc) (hc : IsHead (g.link m) c) (hne : c ≠ s) : ∀ x ∈ lc, x ∉ l' := by
  intro x hx hx'
  by_cases hxl : x ∈ l
  · exact ht.heads_disjoint hc hs hne hlc hl x hx hxl
  · exact hlc.used x hx (hgrow.fresh x hx' hxl)

/-- A chain that grows leaves the directory entries as they are. -/
theorem WellFormed.entry_grows (h : g.WellFormed m) (hs : IsHead (g.link m) s)
    (hdir : ¬g.IsDirectory m s) (hl : Chain (g.link m) s l) (hgrow : g.Grows m m' s l l')
    (hd : g.IsDirectory m d) (hloc : loc ∈ g.dirLocs m d) : loc.entry m' = loc.entry m := by
  refine bytes_congr fun a ha ha' => ?_
  obtain ⟨i, rfl⟩ := Nat.exists_eq_add_of_le ha
  obtain ⟨htable, hcluster⟩ := h.entry_apart hd hloc (i := i) (by omega)
  refine hgrow.frame _ (fun hin => absurd hin htable) fun x hx hin => ?_
  obtain ⟨hne, hmem⟩ := hcluster x (inRange_of_chain hgrow.chain x hx) hin
  obtain ⟨⟨ld, hld⟩, hdhead⟩ := h.dir_chain hd hne
  have hds : d ≠ s := by
    rintro rfl
    exact hdir hd
  exact hgrow.apart h.table hs hl hld hdhead hds x (hmem ld hld) hx

/-! ### Edits -/

/-- Nothing changes but the chain from `s` on and the entry at `loc`, and that keeps its name and
attributes. -/
structure Edits (g : Geometry) (m m' : ByteMem) (s : ℕ) (loc : DirLoc) : Prop where
  sound : SoundTable (g.link m')
  tree : g.SameTree m m'
  used : ∀ c, g.link m c ≠ .free → g.link m' c ≠ .free
  heads : ∀ c, g.link m c ≠ .free → IsHead (g.link m) c → IsHead (g.link m') c
  chains : ∀ c l, Chain (g.link m) c l → IsHead (g.link m) c → c ≠ s → Chain (g.link m') c l
  data : ∀ c l, Chain (g.link m) c l → IsHead (g.link m) c → c ≠ s → ¬g.IsDirectory m c →
    g.chainData m' l = g.chainData m l
  entries : ∀ d, g.IsDirectory m d → ∀ loc' ∈ g.dirLocs m d, loc' ≠ loc → loc'.entry m' = loc'.entry m

namespace Edits

theorem refl (h : g.WellFormed m) (s : ℕ) (loc : DirLoc) : g.Edits m m s loc where
  sound := h.table
  tree := ⟨fun _ _ => rfl, fun _ _ _ _ => rfl, fun _ _ _ _ => rfl⟩
  used _ hc := hc
  heads _ _ hc := hc
  chains _ _ hl _ _ := hl
  data _ _ _ _ _ _ := rfl
  entries _ _ _ _ _ := rfl

theorem trans (h : g.Edits m m' s loc) (h' : g.Edits m' m'' s loc) : g.Edits m m'' s loc where
  sound := h'.sound
  tree := h.tree.trans h'.tree
  used c hc := h'.used c (h.used c hc)
  heads c hc hhead := h'.heads c (h.used c hc) (h.heads c hc hhead)
  chains c l hl hhead hne :=
    h'.chains c l (h.chains c l hl hhead hne) (h.heads c (hl.used c hl.head_mem) hhead) hne
  data c l hl hhead hne hdir :=
    (h'.data c l (h.chains c l hl hhead hne) (h.heads c (hl.used c hl.head_mem) hhead) hne
      (mt h.tree.isDirectory_iff.mp hdir)).trans (h.data c l hl hhead hne hdir)
  entries d hd loc' hloc' hne :=
    (h'.entries d (h.tree.isDirectory hd) loc' (h.tree.locs d hd ▸ hloc') hne).trans
      (h.entries d hd loc' hloc' hne)

/-- The volume stays well formed, if the start cluster of the entry stays or is a new one. -/
theorem wellFormed (h : g.WellFormed m) (he : g.Edits m m' s loc)
    (hstart : entStart (loc.entry m') = entStart (loc.entry m) ∨
      g.link m (entStart (loc.entry m')) = .free ∧ g.link m' (entStart (loc.entry m')) ≠ .free ∧
        IsHead (g.link m') (entStart (loc.entry m'))) : g.WellFormed m' := by
  refine h.of_sameTree he.tree he.sound he.used he.heads loc fun d loc' hloc' => ?_
  by_cases hne : loc' = loc
  · subst hne
    exact hstart.imp_right fun hn => ⟨rfl, hn⟩
  · rw [he.entries d hloc'.dir loc' (mem_dirLocs_of_live hloc'.live) hne]
    exact Or.inl rfl

/-- A free cluster is claimed. -/
theorem claim (h : g.WellFormed m) (hn : g.InRange n) (hfree : g.link m n = .free) (s : ℕ)
    (loc : DirLoc) : g.Edits m (g.setEntry m n fat16Eoc) s loc := by
  have hlink := link_claim (m := m) hn
  have hne : ∀ c, g.link m c ≠ .free → c ≠ n := by
    rintro c hc rfl
    exact hc hfree
  have hchain : ∀ c l, Chain (g.link m) c l → Chain (g.link (g.setEntry m n fat16Eoc)) c l := by
    intro c l hl
    rw [hlink]
    exact hl.claim hfree
  have hentry : ∀ d, g.IsDirectory m d → ∀ loc' ∈ g.dirLocs m d,
      loc'.entry (g.setEntry m n fat16Eoc) = loc'.entry m :=
    fun d hd loc' hloc' => h.entry_setEntry hn hd hloc'
  refine ⟨hlink ▸ h.table.claim hfree, h.sameTree (fun d _ _ l hl => hchain d l hl)
    (fun d hd loc' hloc' => congrArg (List.take 12) (hentry d hd loc' hloc'))
    (fun d loc' hloc' _ => congrArg entStart (hentry d hloc'.dir loc' (mem_dirLocs_of_live hloc'.live))),
    fun c hc => ?_, fun c _ hhead => ?_, fun c l hl _ _ => hchain c l hl, fun c l hl _ _ _ => ?_,
    fun d hd loc' hloc' _ => hentry d hd loc' hloc'⟩
  · rwa [hlink, Link.claim_of_ne (hne c hc)]
  · rw [hlink]
    exact hhead.claim
  · refine chainData_congr fun x hx a ha => h.regular.setEntry_apply hn ?_
    exact h.regular.not_inTable (inRange_of_chain hl x hx) ha

/-- Bytes behind the attributes of a file's entry are stored. -/
theorem blit (h : g.WellFormed m) (hloc : g.HasEntry m d loc) (hfile : entIsDir (loc.entry m) = false)
    {off : ℕ} {bytes : List UInt8} (hoff : 12 ≤ off) (hfit : off + bytes.length ≤ 32) (s : ℕ) :
    g.Edits m (m.blit (loc.addr + off) bytes) s loc := by
  have hmem := mem_dirLocs_of_live hloc.live
  have hout : ∀ a, (∀ i < 32, a ≠ loc.addr + i) → m.blit (loc.addr + off) bytes a = m a := by
    intro a ha
    refine m.blit_apply_of_not_mem fun hin => ha (a - loc.addr) (by omega) (by omega)
  have hlink : g.link (m.blit (loc.addr + off) bytes) = g.link m := by
    refine h.regular.link_congr fun a ha => hout a ?_
    rintro i hi rfl
    exact (h.entry_apart hloc.dir hmem hi).1 ha
  have hentry : ∀ d', g.IsDirectory m d' → ∀ loc' ∈ g.dirLocs m d', loc' ≠ loc →
      loc'.entry (m.blit (loc.addr + off) bytes) = loc'.entry m := by
    intro d' hd' loc' hloc' hne
    have hdisj := (aligned_of_mem_dirLocs hloc').disjoint (aligned_of_mem_dirLocs hmem) hne
    exact m.bytes_blit_of_disjoint (by omega)
  have hhead : SameHead (loc.entry m) (loc.entry (m.blit (loc.addr + off) bytes)) := by
    rw [SameHead, DirLoc.entry, DirLoc.entry, take_bytes _ _ (by omega), take_bytes _ _ (by omega)]
    exact m.bytes_blit_of_disjoint (by omega)
  refine ⟨hlink ▸ h.table, h.sameTree (fun d _ _ l hl => hlink ▸ hl) (fun d' hd' loc' hloc' => ?_)
    (fun d' loc' hloc' hdir => ?_), fun c hc => hlink ▸ hc, fun c _ hc => hlink ▸ hc,
    fun c l hl _ _ => hlink ▸ hl, fun c l hl hc _ hdir => ?_, hentry⟩
  · by_cases hne : loc' = loc
    · rw [hne]
      exact hhead
    · exact congrArg (List.take 12) (hentry d' hd' loc' hloc' hne)
  · have hne : loc' ≠ loc := by
      rintro rfl
      rw [hfile] at hdir
      cases hdir
    rw [hentry d' hloc'.dir loc' (mem_dirLocs_of_live hloc'.live) hne]
  · -- the entry lies in the root or in the chain of a directory, and this one is not
    refine chainData_congr fun x hx a ha => hout a ?_
    rintro i hi rfl
    obtain ⟨hne, hchain⟩ := (h.entry_apart hloc.dir hmem hi).2 x (inRange_of_chain hl x hx) ha
    obtain ⟨⟨ld, hld⟩, hdhead⟩ := h.dir_chain hloc.dir hne
    have hdc : d ≠ c := by
      rintro rfl
      exact hdir hloc.dir
    exact h.table.heads_disjoint hdhead hc hdc hld hl x (hchain ld hld) hx

/-- A chain that is not a directory grows. -/
theorem grows (h : g.WellFormed m) (hs : IsHead (g.link m) s) (hdir : ¬g.IsDirectory m s)
    (hl : Chain (g.link m) s l) (hgrow : g.Grows m m' s l l') (loc : DirLoc) :
    g.Edits m m' s loc := by
  have hapart : ∀ c lc, Chain (g.link m) c lc → IsHead (g.link m) c → c ≠ s → ∀ x ∈ lc, x ∉ l' :=
    fun c lc hlc hc hne => hgrow.apart h.table hs hl hlc hc hne
  have hchain : ∀ c lc, Chain (g.link m) c lc → IsHead (g.link m) c → c ≠ s →
      Chain (g.link m') c lc := by
    intro c lc hlc hc hne
    exact hlc.congr fun x hx => hgrow.others x (hapart c lc hlc hc hne x hx)
  have hdirs : ∀ d, g.IsDirectory m d → d ≠ s := by
    rintro d hd rfl
    exact hdir hd
  have hentry : ∀ d, g.IsDirectory m d → ∀ loc' ∈ g.dirLocs m d, loc'.entry m' = loc'.entry m :=
    fun d hd loc' hloc' => h.entry_grows hs hdir hl hgrow hd hloc'
  refine ⟨hgrow.sound, h.sameTree (fun d hd hne lc hlc => ?_)
    (fun d hd loc' hloc' => congrArg (List.take 12) (hentry d hd loc' hloc'))
    (fun d loc' hloc' _ => congrArg entStart (hentry d hloc'.dir loc' (mem_dirLocs_of_live hloc'.live))),
    hgrow.used, hgrow.heads, hchain, fun c lc hlc hc hne _ => ?_,
    fun d hd loc' hloc' _ => hentry d hd loc' hloc'⟩
  · exact hchain d lc hlc (h.dir_chain hd hne).2 (hdirs d hd)
  · refine chainData_congr fun x hx a ha => ?_
    have hrange := inRange_of_chain hlc x hx
    refine hgrow.frame a (fun hin => absurd hin (h.regular.not_inTable hrange ha)) fun y hy hin => ?_
    obtain rfl := h.regular.eq_of_inCluster hrange (inRange_of_chain hgrow.chain y hy) ha hin
    exact hapart c lc hlc hc hne x hx hy

end Edits

/-! ### Handles -/

/-- A handle of the file at `loc`.  Its size and start cluster need not be those of the entry, but
its chain is not that of a directory. -/
structure Handle (g : Geometry) (m : ByteMem) (file : FatFile) (d : ℕ) (loc : DirLoc) : Prop where
  entry : g.HasEntry m d loc
  isFile : entIsDir (loc.entry m) = false
  sector : file.dirSector = loc.sector
  offset : file.dirOffset = loc.offset
  notDir : file.isDir = false
  start : file.startCluster ≠ 0 → g.link m file.startCluster ≠ .free ∧
    IsHead (g.link m) file.startCluster ∧ ¬g.IsDirectory m file.startCluster

/-- What `fat_open` returns is a handle. -/
theorem WellFormed.handle (h : g.WellFormed m) (hloc : g.HasEntry m d loc)
    (hfile : entIsDir (loc.entry m) = false) : g.Handle m (entFile loc (loc.entry m)) d loc where
  entry := hloc
  isFile := hfile
  sector := rfl
  offset := rfl
  notDir := hfile
  start hne := by
    obtain ⟨hused, hhead⟩ := h.heads d loc hloc hne
    exact ⟨hused, hhead, h.file_not_dir hloc hfile hne⟩

/-- Handles stay handles, whichever file changes. -/
theorem Edits.handle {file : FatFile} (he : g.Edits m m' s loc') (hh : g.Handle m file d loc) :
    g.Handle m' file d loc where
  entry := he.tree.hasEntry_iff.mpr hh.entry
  isFile := (he.tree.sameHead_entry hh.entry).entIsDir_eq.trans hh.isFile
  sector := hh.sector
  offset := hh.offset
  notDir := hh.notDir
  start hne := by
    obtain ⟨hused, hhead, hdir⟩ := hh.start hne
    exact ⟨he.used _ hused, he.heads _ hused hhead, mt he.tree.isDirectory_iff.mp hdir⟩

namespace Handle

variable {file : FatFile}

theorem addr (hh : g.Handle m file d loc) : file.dirSector * 512 + file.dirOffset = loc.addr := by
  rw [hh.sector, hh.offset, DirLoc.addr]

theorem offset_le (hh : g.Handle m file d loc) : file.dirOffset + 32 ≤ 512 :=
  hh.offset ▸ (aligned_of_mem_dirLocs (mem_dirLocs_of_live hh.entry.live)).2

end Handle

end Geometry

end Neptune
