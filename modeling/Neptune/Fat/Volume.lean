import Mathlib.Data.List.Perm.Subperm
import Neptune.Fat.Path
import Neptune.Fat.Grow

/-!
# Well-formed volumes

A volume is well formed if its table is a disjoint union of chains and its directories, from the root
on, use it properly: directories have clusters, and the start clusters in the entries are the heads
of different chains.  Behind the end of a directory there is nothing but free entries.

## Main definitions

* `Geometry.dirLocs`, `Geometry.liveLocs` — the places of a directory, and those with an entry.
* `Geometry.IsDirectory` — the directories that can be reached from the root.
* `Geometry.WellFormed`.

## Main results

* `run_visitDir` — what a visit does on a well-formed volume.
-/

namespace Neptune

open ByteMem List

/-- The start cluster in an entry. -/
def entStart (ent : List UInt8) : ℕ := ByteMem.leNat ((ent.drop 26).take 2)

/-- The size in an entry. -/
def entSize (ent : List UInt8) : ℕ := ByteMem.leNat ((ent.drop 28).take 4)

/-- The entry is neither free nor part of a long name. -/
def Live (ent : List UInt8) : Prop := ¬IsFree ent ∧ ent.getD 11 0 ≠ 0x0F

/-- The entries '.' and '..'. -/
def IsDot (ent : List UInt8) : Prop :=
  ent.take 11 = Geometry.dotName ∨ ent.take 11 = Geometry.dotDotName

instance (ent : List UInt8) : Decidable (Live ent) := inferInstanceAs (Decidable (_ ∧ _))

section NewEntry

variable {name : List UInt8} (hname : name.length = 11) (attr : UInt8) (cluster size : ℕ)

include hname

theorem length_newEntry : (newEntry name attr cluster size).length = 32 := by
  simp [newEntry, hname]

theorem take_newEntry : (newEntry name attr cluster size).take 11 = name := by
  rw [newEntry, append_assoc, append_assoc, append_assoc, take_left' hname]

theorem attr_newEntry : (newEntry name attr cluster size).getD 11 0 = attr := by
  rw [newEntry, append_assoc, append_assoc, append_assoc, getD_eq_getElem?_getD,
    getElem?_append_right hname.le, hname]
  rfl

theorem drop_newEntry : (newEntry name attr cluster size).drop 26 =
    ByteMem.leBytes 2 cluster ++ ByteMem.leBytes 4 size := by
  rw [newEntry, append_assoc, drop_left' (by simp [hname])]

theorem entStart_newEntry : entStart (newEntry name attr cluster size) = cluster % 2 ^ 16 := by
  rw [entStart, drop_newEntry hname, take_left' (length_leBytes 2 cluster), leNat_leBytes]
  norm_num

theorem entSize_newEntry : entSize (newEntry name attr cluster size) = size % 2 ^ 32 := by
  have hdrop : (newEntry name attr cluster size).drop 28 = ByteMem.leBytes 4 size := by
    rw [show 28 = 26 + 2 from rfl, ← drop_drop, drop_newEntry hname,
      drop_left' (length_leBytes 2 cluster)]
  rw [entSize, hdrop, take_of_length_le (by simp), leNat_leBytes]
  norm_num

theorem getD_zero_newEntry : (newEntry name attr cluster size).getD 0 0 = name.getD 0 0 := by
  rw [newEntry, append_assoc, append_assoc, append_assoc, getD_eq_getElem?_getD,
    getElem?_append_left (by omega), getD_eq_getElem?_getD]

theorem entIsDir_newEntry : entIsDir (newEntry name attr cluster size) = decide (attr &&& 0x10 ≠ 0) := by
  rw [entIsDir, attr_newEntry hname]

end NewEntry

namespace DirLoc

variable {m : ByteMem} {loc loc' : DirLoc}

theorem getD_entry (loc : DirLoc) (m : ByteMem) {i : ℕ} (hi : i < 32) :
    (loc.entry m).getD i 0 = m (loc.addr + i) := m.getD_bytes _ hi

theorem entStart_entry (loc : DirLoc) (m : ByteMem) :
    entStart (loc.entry m) = m.load 2 (loc.addr + 26) := by
  rw [entStart, entry, m.drop_bytes _ (by omega), m.take_bytes _ (by omega), leNat_bytes]

theorem entSize_entry (loc : DirLoc) (m : ByteMem) :
    entSize (loc.entry m) = m.load 4 (loc.addr + 28) := by
  rw [entSize, entry, m.drop_bytes _ (by omega), m.take_bytes _ (by omega), leNat_bytes]

theorem entStart_lt (loc : DirLoc) (m : ByteMem) : entStart (loc.entry m) < 2 ^ 16 :=
  entStart_entry loc m ▸ m.load_lt 2 _

/-- Entries start at multiples of 32 and do not cross the end of their sector. -/
def Aligned (loc : DirLoc) : Prop := loc.offset % 32 = 0 ∧ loc.offset + 32 ≤ 512

/-- Different entries do not overlap. -/
theorem Aligned.disjoint (h : loc.Aligned) (h' : loc'.Aligned) (hne : loc ≠ loc') :
    loc.addr + 32 ≤ loc'.addr ∨ loc'.addr + 32 ≤ loc.addr := by
  obtain ⟨s, o⟩ := loc
  obtain ⟨s', o'⟩ := loc'
  simp only [Aligned, addr, ne_eq, DirLoc.mk.injEq] at *
  omega

end DirLoc

theorem mem_sectorLocs {start i n : ℕ} {loc : DirLoc} :
    loc ∈ sectorLocs start i n ↔
      ∃ j, i ≤ j ∧ j < i + n ∧ ∃ e < 16, loc = ⟨(start + j) % 2 ^ 32, e * 32⟩ := by
  simp only [sectorLocs, mem_flatMap, mem_range'_1, mem_map, mem_range]
  constructor
  · rintro ⟨j, ⟨h1, h2⟩, e, he, rfl⟩
    exact ⟨j, h1, h2, e, he, rfl⟩
  · rintro ⟨j, h1, h2, e, he, rfl⟩
    exact ⟨j, ⟨h1, h2⟩, e, he, rfl⟩

theorem aligned_of_mem_sectorLocs {start i n : ℕ} {loc : DirLoc} (h : loc ∈ sectorLocs start i n) :
    loc.Aligned := by
  obtain ⟨j, -, -, e, he, rfl⟩ := mem_sectorLocs.mp h
  exact ⟨by simp, by simp only; omega⟩

namespace Geometry

variable {g : Geometry} {m m' : ByteMem} {c d d' : ℕ} {l : List ℕ} {loc loc' : DirLoc}

/-! ### The places of a directory -/

/-- The places of a directory. -/
def dirLocs (g : Geometry) (m : ByteMem) (d : ℕ) : List DirLoc :=
  if d = 0 then g.rootLocs else (g.chainPrefix m d (2 ^ 16)).flatMap g.clusterLocs

/-- The places before the end of a directory. -/
def shownLocs (g : Geometry) (m : ByteMem) (d : ℕ) : List DirLoc :=
  (g.dirLocs m d).takeWhile fun loc => ¬IsLast (loc.entry m)

/-- The places with an entry. -/
def liveLocs (g : Geometry) (m : ByteMem) (d : ℕ) : List DirLoc :=
  (g.shownLocs m d).filter fun loc => Live (loc.entry m)

theorem chainPrefix_of_chain (h : Chain (g.link m) c l) {n : ℕ} (hn : l.length ≤ n) :
    g.chainPrefix m c n = l := by
  induction h generalizing n with
  | last ha =>
    obtain ⟨n, rfl⟩ := Nat.exists_eq_add_of_le' hn
    rw [length_singleton, chainPrefix, if_pos (.inr (link_eq_last ha).2)]
  | @next a b l ha hl ih =>
    rw [length_cons] at hn
    obtain ⟨n, rfl⟩ : ∃ k, n = k + 1 := ⟨n - 1, by omega⟩
    obtain ⟨-, hentry, hne, hend⟩ := link_eq_next ha
    rw [chainPrefix_succ (by rw [hentry]; simp [hne, hend]), hentry, ih (by omega)]

theorem length_le_of_chain (h : Chain (g.link m) c l) : l.length ≤ g.clusterCount := by
  have hsub : l ⊆ List.range' 2 g.clusterCount := by
    intro x hx
    have hrange := inRange_of_chain h x hx
    rw [InRange] at hrange
    rw [mem_range'_1]
    omega
  simpa using (subperm_of_subset h.nodup hsub).length_le

theorem Regular.dirLocs_of_chain (hg : g.Regular) (h : Chain (g.link m) d l) :
    g.dirLocs m d = l.flatMap g.clusterLocs := by
  have hd := (inRange_of_chain h d h.head_mem).1
  have hlen := length_le_of_chain h
  have := hg.few
  rw [dirLocs, if_neg (by omega), chainPrefix_of_chain h (by omega)]

/-- The directory can be gone through: it is the root, or its chain ends. -/
def HasChain (g : Geometry) (m : ByteMem) (d : ℕ) : Prop := d = 0 ∨ g.link m d ≠ .free

/-- **A visit of a directory** on a disk without faults. -/
theorem Regular.run_visitDir (hg : g.Regular) (ht : SoundTable (g.link m)) (hd : g.HasChain m d)
    {σ β : Type} (v : Visitor σ β) {fuel : ℕ} (hfuel : 2 ^ 16 ≤ fuel) (s : σ) :
    (g.visitDir v fuel d s).run (.ok m) = some (v.scan m (g.dirLocs m d) s, .ok m) := by
  rcases hd with rfl | hd
  · rw [run_visitDir_root, dirLocs, if_pos rfl]
  · obtain ⟨l, hl⟩ := ht.ends d hd
    have hlen := length_le_of_chain hl
    have := hg.few
    have htwo := (inRange_of_chain hl d hl.head_mem).1
    rw [visitDir, if_neg (by omega), hg.dirLocs_of_chain hl]
    obtain ⟨rest, rfl⟩ := hl.eq_cons
    refine run_visitClusters v ?_ (isChain_of_chain hl) (fun x hx => .inr (last_of_chain hl x hx)) s
    rw [length_cons] at hlen
    omega

theorem Regular.run_dirFindEntry (hg : g.Regular) (ht : SoundTable (g.link m)) (hd : g.HasChain m d)
    (q : Query) :
    (g.dirFindEntry d q).run (.ok m) = some (q.visitor.scan m (g.dirLocs m d) none, .ok m) :=
  hg.run_visitDir ht hd _ le_rfl none

/-! ### Where the places lie -/

theorem Regular.entry_inCluster (hg : g.Regular) (hc : g.InRange c) (h : loc ∈ g.clusterLocs c) {i : ℕ}
    (hi : i < 32) : g.InCluster c (loc.addr + i) := by
  obtain ⟨j, -, hj, e, he, rfl⟩ := mem_sectorLocs.mp h
  have hlt := hg.lt hc
  have hwrap := g.clusterToSector_add_lt c hc.1 (by omega)
  have hmod : (g.clusterToSector c + j) % 2 ^ 32 = g.clusterToSector c + j :=
    Nat.mod_eq_of_lt (by omega)
  rw [DirLoc.addr, hmod, InCluster, clusterAddr, clusterSize]
  constructor <;> · dsimp only; omega

theorem entry_inRoot (h : loc ∈ g.rootLocs) :
    g.rootStart * 512 ≤ loc.addr ∧ loc.addr + 32 ≤ g.dataStart * 512 := by
  obtain ⟨j, -, hj, e, he, rfl⟩ := mem_sectorLocs.mp (mem_of_mem_take h)
  have hlt := g.dataStart_lt
  rw [dataStart] at hlt ⊢
  have hmod : (g.rootStart + j) % 2 ^ 32 = g.rootStart + j := Nat.mod_eq_of_lt (by omega)
  rw [DirLoc.addr, hmod]
  constructor <;> · dsimp only; omega

theorem aligned_of_mem_dirLocs (h : loc ∈ g.dirLocs m d) : loc.Aligned := by
  rw [dirLocs] at h
  split at h
  · exact aligned_of_mem_sectorLocs (mem_of_mem_take h)
  · obtain ⟨c, -, hc⟩ := mem_flatMap.mp h
    exact aligned_of_mem_sectorLocs hc

theorem mem_shownLocs_of_live (h : loc ∈ g.liveLocs m d) : loc ∈ g.shownLocs m d :=
  (mem_filter.mp h).1

theorem mem_dirLocs_of_live (h : loc ∈ g.liveLocs m d) : loc ∈ g.dirLocs m d :=
  (takeWhile_sublist _).subset (mem_shownLocs_of_live h)

theorem live_of_mem_liveLocs (h : loc ∈ g.liveLocs m d) : Live (loc.entry m) := by
  simpa using (mem_filter.mp h).2

/-! ### Directories -/

/-- The directories that can be reached from the root, by their clusters. -/
inductive IsDirectory (g : Geometry) (m : ByteMem) : ℕ → Prop
  | root : IsDirectory g m 0
  | sub {d : ℕ} {loc : DirLoc} : IsDirectory g m d → loc ∈ g.liveLocs m d → ¬IsDot (loc.entry m) →
      entIsDir (loc.entry m) = true → IsDirectory g m (entStart (loc.entry m))

/-- An entry of a directory, other than '.' and '..'. -/
structure HasEntry (g : Geometry) (m : ByteMem) (d : ℕ) (loc : DirLoc) : Prop where
  dir : g.IsDirectory m d
  live : loc ∈ g.liveLocs m d
  notDot : ¬IsDot (loc.entry m)

/-- A well-formed volume. -/
structure WellFormed (g : Geometry) (m : ByteMem) : Prop where
  regular : g.Regular
  table : SoundTable (g.link m)
  subdirs : ∀ d loc, g.HasEntry m d loc → entIsDir (loc.entry m) = true →
    g.link m (entStart (loc.entry m)) ≠ .free
  heads : ∀ d loc, g.HasEntry m d loc → entStart (loc.entry m) ≠ 0 →
    g.link m (entStart (loc.entry m)) ≠ .free ∧ IsHead (g.link m) (entStart (loc.entry m))
  distinct : ∀ d d' loc loc', g.HasEntry m d loc → g.HasEntry m d' loc' →
    entStart (loc.entry m) ≠ 0 → entStart (loc.entry m) = entStart (loc'.entry m) → loc = loc'
  tail : ∀ d, g.IsDirectory m d → ∀ loc ∈ (g.dirLocs m d).dropWhile fun loc => ¬IsLast (loc.entry m),
    IsLast (loc.entry m)

/-- The directories other than the root have an entry. -/
theorem IsDirectory.entry (hd : g.IsDirectory m d) (hne : d ≠ 0) :
    ∃ d' loc, g.HasEntry m d' loc ∧ entIsDir (loc.entry m) = true ∧ entStart (loc.entry m) = d := by
  cases hd with
  | root => exact absurd rfl hne
  | sub hd' hlive hdot hdir => exact ⟨_, _, ⟨hd', hlive, hdot⟩, hdir, rfl⟩

namespace WellFormed

theorem dir_chain (h : g.WellFormed m) (hd : g.IsDirectory m d) (hne : d ≠ 0) :
    (∃ l, Chain (g.link m) d l) ∧ IsHead (g.link m) d := by
  obtain ⟨d', loc, hloc, -, rfl⟩ := hd.entry hne
  obtain ⟨hused, hhead⟩ := h.heads d' loc hloc hne
  exact ⟨h.table.ends _ hused, hhead⟩

theorem hasChain (h : g.WellFormed m) (hd : g.IsDirectory m d) : g.HasChain m d := by
  by_cases hne : d = 0
  · exact .inl hne
  · obtain ⟨⟨l, hl⟩, -⟩ := h.dir_chain hd hne
    exact .inr (hl.used d hl.head_mem)

/-- A place of a directory lies in the root's sectors or in a cluster of its chain. -/
theorem mem_dirLocs (h : g.WellFormed m) (hd : g.IsDirectory m d) (hloc : loc ∈ g.dirLocs m d) :
    d = 0 ∧ loc ∈ g.rootLocs ∨
      d ≠ 0 ∧ ∃ l, Chain (g.link m) d l ∧ IsHead (g.link m) d ∧ ∃ c ∈ l, loc ∈ g.clusterLocs c := by
  by_cases hne : d = 0
  · subst hne
    rw [dirLocs, if_pos rfl] at hloc
    exact .inl ⟨rfl, hloc⟩
  · obtain ⟨⟨l, hl⟩, hhead⟩ := h.dir_chain hd hne
    rw [h.regular.dirLocs_of_chain hl] at hloc
    exact .inr ⟨hne, l, hl, hhead, mem_flatMap.mp hloc⟩

end WellFormed

/-! ### Volumes with one file -/

section OneFile

variable {first : DirLoc} {rest : List DirLoc}

/-- The first place of the root has a file's entry, and the others are at the end. -/
structure OneFile (g : Geometry) (m : ByteMem) (first : DirLoc) (rest : List DirLoc) : Prop where
  root : g.rootLocs = first :: rest
  isFile : entIsDir (first.entry m) = false
  isLast : ∀ loc ∈ rest, IsLast (loc.entry m)

theorem OneFile.eq_of_hasEntry (h : g.OneFile m first rest) (hloc : g.HasEntry m d loc) :
    d = 0 ∧ loc = first := by
  have hroot : ∀ {x}, x ∈ g.liveLocs m 0 → x = first := by
    intro x hx
    have hmem := mem_dirLocs_of_live hx
    rw [dirLocs, if_pos rfl, h.root, mem_cons] at hmem
    rcases hmem with hmem | hmem
    · exact hmem
    · exact absurd (.inl (h.isLast x hmem)) (live_of_mem_liveLocs hx).1
  have hdir : ∀ {x}, g.IsDirectory m x → x = 0 := by
    intro x hx
    induction hx with
    | root => rfl
    | @sub y loc _ hlive _ hkind hy =>
      subst hy
      rw [hroot hlive, h.isFile] at hkind
      cases hkind
  obtain rfl := hdir hloc.dir
  exact ⟨rfl, hroot hloc.live⟩

theorem OneFile.wellFormed (h : g.OneFile m first rest) (hg : g.Regular) (ht : SoundTable (g.link m))
    (hstart : entStart (first.entry m) ≠ 0 →
      g.link m (entStart (first.entry m)) ≠ .free ∧ IsHead (g.link m) (entStart (first.entry m))) :
    g.WellFormed m := by
  refine ⟨hg, ht, fun d loc hloc hkind => ?_, fun d loc hloc hne => ?_,
    fun d d' loc loc' hloc hloc' _ _ => ?_, fun d hd => ?_⟩
  · rw [(h.eq_of_hasEntry hloc).2, h.isFile] at hkind
    cases hkind
  · rw [(h.eq_of_hasEntry hloc).2] at hne ⊢
    exact hstart hne
  · rw [(h.eq_of_hasEntry hloc).2, (h.eq_of_hasEntry hloc').2]
  · have hzero : d = 0 := by
      by_contra hne
      obtain ⟨d', loc, hloc, hkind, -⟩ := hd.entry hne
      rw [(h.eq_of_hasEntry hloc).2, h.isFile] at hkind
      cases hkind
    intro loc hloc
    rw [dirLocs, if_pos hzero, h.root] at hloc
    by_cases hfirst : IsLast (first.entry m)
    · have hmem := (dropWhile_sublist _).subset hloc
      rcases mem_cons.mp hmem with rfl | hmem
      · exact hfirst
      · exact h.isLast loc hmem
    · rw [dropWhile_cons_of_pos (by simpa using hfirst)] at hloc
      exact h.isLast loc ((dropWhile_sublist _).subset hloc)

end OneFile

/-! ### A sample -/

/-- A disk for `sample` with a table full of one byte and one entry in the root. -/
def sampleDisk (fill : UInt8) (ent : List UInt8) : ByteMem :=
  ByteMem.blit (fun a => if 512 ≤ a ∧ a < 16896 then fill else 0) 16896 ent

variable {fill : UInt8} {ent : List UInt8}

theorem sampleDisk_apply {a : ℕ} (ha : a < 16896 ∨ 16896 + ent.length ≤ a) :
    sampleDisk fill ent a = if 512 ≤ a ∧ a < 16896 then fill else 0 :=
  blit_apply_of_not_mem _ (by omega)

theorem entry_sampleDisk (hlen : ent.length = 32) :
    DirLoc.entry ⟨33, 0⟩ (sampleDisk fill ent) = ent := by
  have := bytes_blit_self (fun a => if 512 ≤ a ∧ a < 16896 then fill else 0) 16896 ent
  rwa [hlen] at this

theorem oneFile_sampleDisk (hlen : ent.length = 32) (hfile : entIsDir ent = false) :
    sample.OneFile (sampleDisk fill ent) ⟨33, 0⟩ sample.rootLocs.tail := by
  refine ⟨by decide, by rw [entry_sampleDisk hlen, hfile], fun loc hloc => ?_⟩
  have haddr : ∀ x ∈ sample.rootLocs.tail, 16896 + 32 ≤ x.addr := by decide +kernel
  have := haddr loc hloc
  rw [IsLast, DirLoc.getD_entry loc _ (by omega), sampleDisk_apply (by omega), if_neg (by omega)]

theorem link_sampleDisk (c : ℕ) : sample.link (sampleDisk fill ent) c =
    if sample.InRange c then linkOf (ByteMem.leNat [fill, fill]) else .free := by
  rw [link]
  split
  · next hc =>
    have hlt : c < 8153 := hc.2
    have haddr : sample.entryAddr c = 512 + c * 2 := rfl
    have hbytes : (sampleDisk fill ent).bytes (512 + c * 2) 2 = [fill, fill] := by
      show [sampleDisk fill ent (512 + c * 2 + 0), sampleDisk fill ent (512 + c * 2 + 1)] = _
      rw [sampleDisk_apply (by omega), sampleDisk_apply (by omega), if_pos (by omega),
        if_pos (by omega)]
    rw [fatEntry, haddr, ← leNat_bytes, hbytes]
  · rfl

theorem regular_sample : sample.Regular := by
  constructor <;> decide

theorem soundTable_sampleDisk (ent : List UInt8) (hfill : fill = 0 ∨ fill = 0xFF) :
    SoundTable (sample.link (sampleDisk fill ent)) ∧
      ∀ c, IsHead (sample.link (sampleDisk fill ent)) c := by
  have hnext : ∀ a b, sample.link (sampleDisk fill ent) a ≠ .next b := by
    intro a b
    rw [link_sampleDisk]
    rcases hfill with rfl | rfl
    · split <;> simp [linkOf, ByteMem.leNat]
    · split <;> simp [linkOf, ByteMem.leNat, isEndCluster, fat16Eoc]
  exact ⟨.of_no_next hnext, fun c b => hnext b c⟩

/-- The sample is well formed, if its entry's start cluster is 0 or the table is full. -/
theorem wellFormed_sampleDisk (hlen : ent.length = 32) (hfile : entIsDir ent = false)
    (hfill : fill = 0 ∧ entStart ent = 0 ∨ fill = 0xFF ∧ sample.InRange (entStart ent)) :
    sample.WellFormed (sampleDisk fill ent) := by
  obtain ⟨hsound, hheads⟩ := soundTable_sampleDisk ent (hfill.imp And.left And.left)
  refine (oneFile_sampleDisk hlen hfile).wellFormed regular_sample hsound fun hne => ?_
  rw [entry_sampleDisk hlen] at hne ⊢
  rcases hfill with ⟨-, hzero⟩ | ⟨rfl, hrange⟩
  · exact absurd hzero hne
  · refine ⟨?_, hheads _⟩
    rw [link_sampleDisk, if_pos hrange]
    decide

end Geometry

end Neptune
