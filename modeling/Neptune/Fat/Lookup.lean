import Neptune.Fat.Volume

/-!
# Lookups on a well-formed volume

Without faults `fat_open` and `fat_open_dir` are a search for a place, component by component.  What
they find depends on the links of the directories and on the first twelve bytes of the entries, so it
stays the same when other bytes change.

## Main definitions

* `Geometry.findLoc`, `Geometry.resolve` — the search.
* `Geometry.SameTree` — two disks with the same directories and names.

## Main results

* `WellFormed.run_open` — `fat_open` and `fat_open_dir` return what the search finds.
* `SameTree.resolve_eq` — it finds the same.
* `WellFormed.of_sameTree` — when the volume stays well formed.
-/

namespace Neptune

open List Option

/-- Two entries with the same name and attributes. -/
def SameHead (ent ent' : List UInt8) : Prop := ent'.take 12 = ent.take 12

namespace SameHead

variable {ent ent' : List UInt8}

theorem getD (h : SameHead ent ent') {i : ℕ} (hi : i < 12) : ent'.getD i 0 = ent.getD i 0 := by
  have htake : ∀ l : List UInt8, (l.take 12).getD i 0 = l.getD i 0 := by
    intro l
    rw [getD_eq_getElem?_getD, getD_eq_getElem?_getD, getElem?_take_of_lt hi]
  rw [← htake ent', ← htake ent, h]

theorem name (h : SameHead ent ent') : ent'.take 11 = ent.take 11 := by
  have htake : ∀ l : List UInt8, l.take 11 = (l.take 12).take 11 := fun l => by
    rw [take_take]
    rfl
  rw [htake ent', htake ent, h]

theorem isLast_iff (h : SameHead ent ent') : IsLast ent' ↔ IsLast ent := by
  rw [IsLast, IsLast, h.getD (by omega)]

theorem isFree_iff (h : SameHead ent ent') : IsFree ent' ↔ IsFree ent := by
  rw [IsFree, IsFree, h.getD (by omega)]

theorem live_iff (h : SameHead ent ent') : Live ent' ↔ Live ent := by
  rw [Live, Live, h.isFree_iff, h.getD (by omega)]

theorem isDot_iff (h : SameHead ent ent') : IsDot ent' ↔ IsDot ent := by
  rw [IsDot, IsDot, h.name]

theorem entIsDir_eq (h : SameHead ent ent') : entIsDir ent' = entIsDir ent := by
  rw [entIsDir, entIsDir, h.getD (by omega)]

theorem matches_iff (h : SameHead ent ent') (q : Query) : q.Matches ent' ↔ q.Matches ent := by
  rw [Query.Matches, Query.Matches, h.getD (by omega), h.getD (by omega), h.entIsDir_eq, h.name]

end SameHead

/-- Up to the first element that fails two tests agree if they do on the elements of the list. -/
theorem takeWhile_congr_mem {α : Type*} {p p' : α → Bool} {l : List α} (h : ∀ x ∈ l, p' x = p x) :
    l.takeWhile p' = l.takeWhile p := by
  induction l with
  | nil => rfl
  | cons x l ih =>
    rw [takeWhile_cons, takeWhile_cons, h x mem_cons_self, ih fun y hy => h y (mem_cons_of_mem x hy)]

theorem dropWhile_congr_mem {α : Type*} {p p' : α → Bool} {l : List α} (h : ∀ x ∈ l, p' x = p x) :
    l.dropWhile p' = l.dropWhile p := by
  induction l with
  | nil => rfl
  | cons x l ih =>
    rw [dropWhile_cons, dropWhile_cons, h x mem_cons_self, ih fun y hy => h y (mem_cons_of_mem x hy)]

theorem find?_congr_mem {α : Type*} {p p' : α → Bool} {l : List α} (h : ∀ x ∈ l, p' x = p x) :
    l.find? p' = l.find? p := by
  induction l with
  | nil => rfl
  | cons x l ih =>
    rw [find?_cons, find?_cons, h x mem_cons_self, ih fun y hy => h y (mem_cons_of_mem x hy)]

namespace Geometry

variable {g : Geometry} {m m' : ByteMem} {d d' : ℕ} {loc loc' : DirLoc} {q : Query}

/-! ### The search -/

/-- The place of the first entry that is looked for. -/
def findLoc (g : Geometry) (m : ByteMem) (d : ℕ) (q : Query) : Option DirLoc :=
  (g.shownLocs m d).find? fun loc => q.Matches (loc.entry m)

/-- The directory and the place of the entry a path leads to. -/
def resolve (g : Geometry) (m : ByteMem) (wantDirLast : Bool) :
    List (List UInt8) → ℕ → Option (ℕ × DirLoc)
  | [], _ => none
  | comp :: rest, d => do
    let name ← partName comp
    let loc ← g.findLoc m d ⟨name, some (if rest.isEmpty then wantDirLast else true), false⟩
    if rest.isEmpty then some (d, loc)
    else resolve g m wantDirLast rest (entStart (loc.entry m))

theorem resolve_cons (w : Bool) (comp : List UInt8) (rest : List (List UInt8)) (d : ℕ) :
    g.resolve m w (comp :: rest) d = (partName comp).bind fun name =>
        (g.findLoc m d ⟨name, some (if rest.isEmpty then w else true), false⟩).bind fun loc =>
          if rest.isEmpty then some (d, loc) else g.resolve m w rest (entStart (loc.entry m)) := rfl

theorem findLoc_some (h : g.findLoc m d q = some loc) :
    loc ∈ g.liveLocs m d ∧ q.Matches (loc.entry m) := by
  have hmem := mem_of_find?_eq_some h
  have hmatch : q.Matches (loc.entry m) := by simpa using find?_some h
  have hlast : ¬IsLast (loc.entry m) := by simpa using mem_takeWhile_imp hmem
  refine ⟨mem_filter.mpr ⟨hmem, ?_⟩, hmatch⟩
  have hlive : Live (loc.entry m) := ⟨not_or.mpr ⟨hlast, hmatch.1⟩, hmatch.2.1⟩
  simpa using hlive

/-- Short names have 11 bytes and no dots. -/
theorem partName_spec {comp name : List UInt8} (h : partName comp = some name) :
    name.length = 11 ∧ dot ∉ name := by
  rw [partName] at h
  split at h
  · cases h
  · exact buildShortName_spec h

theorem not_isDot_of_notMem {ent : List UInt8} (h : dot ∉ ent.take 11) : ¬IsDot ent := by
  rintro (he | he)
  · exact h (by simp [he, dotName])
  · exact h (by simp [he, dotDotName])

/-- A name that is looked for is not '.' or '..'. -/
theorem not_isDot_of_matches {comp name : List UInt8} (hname : partName comp = some name)
    {wantDir : Option Bool} {allowFree : Bool} {ent : List UInt8}
    (h : Query.Matches ⟨name, wantDir, allowFree⟩ ent) : ¬IsDot ent := by
  have hdot := (partName_spec hname).2
  have hent : ent.take 11 = name := h.2.2.2
  rw [← hent] at hdot
  exact not_isDot_of_notMem hdot

theorem entIsDir_of_matches {name : List UInt8} {b allowFree : Bool} {ent : List UInt8}
    (h : Query.Matches ⟨name, some b, allowFree⟩ ent) : entIsDir ent = b := by
  rcases h.2.2.1 with hkind | hkind
  · cases hkind
  · exact (some.inj hkind).symm

/-- What a search for an entry that need not be created returns. -/
theorem scan_eq_findLoc {name : List UInt8} {wantDir : Option Bool} (d : ℕ) :
    (Query.visitor ⟨name, wantDir, false⟩).scan m (g.dirLocs m d) none =
      match g.findLoc m d ⟨name, wantDir, false⟩ with
      | some loc => .found (entFile loc (loc.entry m))
      | none => .absent := by
  rw [Query.scan_eq]
  rfl

/-- Where a path leads: a place of a directory, with an entry of the kind that is looked for. -/
theorem resolve_some {w : Bool} {comps : List (List UInt8)} (hd : g.IsDirectory m d)
    (h : g.resolve m w comps d = some (d', loc)) :
    g.HasEntry m d' loc ∧ entIsDir (loc.entry m) = w := by
  induction comps generalizing d with
  | nil => cases h
  | cons comp rest ih =>
    obtain ⟨name, hname, h⟩ := bind_eq_some_iff.mp h
    obtain ⟨loc', hloc', h⟩ := bind_eq_some_iff.mp h
    obtain ⟨hlive, hmatch⟩ := findLoc_some hloc'
    have hdot := not_isDot_of_matches hname hmatch
    have hkind := entIsDir_of_matches hmatch
    split at h
    · next hlast =>
      obtain ⟨rfl, rfl⟩ := Prod.mk.inj (some.inj h)
      rw [if_pos hlast] at hkind
      exact ⟨⟨hd, hlive, hdot⟩, hkind⟩
    · next hlast =>
      rw [if_neg hlast] at hkind
      exact ih (.sub hd hlive hdot hkind) h

/-- **`fat_open` and `fat_open_dir`** return what the search finds. -/
theorem WellFormed.run_open (h : g.WellFormed m) (w : Bool) (comps : List (List UInt8))
    (hd : g.IsDirectory m d) :
    (g.traverse false w comps d).run (.ok m) =
      some ((g.resolve m w comps d).map fun p => entFile p.2 (p.2.entry m), .ok m) := by
  induction comps generalizing d with
  | nil => rfl
  | cons comp rest ih =>
    rw [traverse, resolve_cons]
    cases hname : partName comp with
    | none => rfl
    | some name =>
      dsimp only
      rw [Bool.and_false, Bool.false_and,
        DiskM.run_bind_of (h.regular.run_dirFindEntry h.table (h.hasChain hd) _), scan_eq_findLoc,
        bind_some]
      cases hfind : g.findLoc m d ⟨name, some (if rest.isEmpty then w else true), false⟩ with
      | none => rfl
      | some loc =>
        dsimp only
        rw [bind_some]
        split
        · rfl
        · next hlast =>
          obtain ⟨hlive, hmatch⟩ := findLoc_some hfind
          have hdir := entIsDir_of_matches hmatch
          rw [if_neg hlast] at hdir
          have hstart : (entFile loc (loc.entry m)).startCluster % 2 ^ 16 = entStart (loc.entry m) :=
            Nat.mod_eq_of_lt (loc.entStart_lt m)
          rw [hstart]
          exact ih (.sub hd hlive (not_isDot_of_matches hname hmatch) hdir)

/-- On a volume with one file the search finds it, if it is the one looked for. -/
theorem OneFile.findLoc {first : DirLoc} {rest : List DirLoc} (h : g.OneFile m first rest)
    (hlast : ¬IsLast (first.entry m)) (hmatch : q.Matches (first.entry m)) :
    g.findLoc m 0 q = some first := by
  rw [Geometry.findLoc, shownLocs, dirLocs, if_pos rfl, h.root,
    takeWhile_cons_of_pos (by simpa using hlast), find?_cons_of_pos (by simpa using hmatch)]

theorem OneFile.resolve {first : DirLoc} {rest : List DirLoc} (h : g.OneFile m first rest)
    {comp name : List UInt8} (hname : partName comp = some name) (hlive : Live (first.entry m))
    (hent : (first.entry m).take 11 = name) : g.resolve m false [comp] 0 = some (0, first) := by
  have hlast : ¬IsLast (first.entry m) := fun hlast => hlive.1 (.inl hlast)
  have hmatch : Query.Matches ⟨name, some false, false⟩ (first.entry m) :=
    ⟨fun hfree => hlive.1 (.inr hfree), hlive.2, .inr (congrArg some h.isFile.symm), hent⟩
  rw [resolve_cons, hname, bind_some]
  show (g.findLoc m 0 ⟨name, some false, false⟩).bind _ = _
  rw [h.findLoc hlast hmatch]
  rfl

/-- The name of a file "A". -/
def sampleName : List UInt8 := 0x41 :: List.replicate 10 space

/-- The sample volume with a file "A". -/
def sampleFile (fill : UInt8) (start size : ℕ) : ByteMem :=
  sampleDisk fill (newEntry sampleName 0x20 start size)

section SampleFile

variable {fill : UInt8} {start size : ℕ}

theorem entry_sampleFile (fill : UInt8) (start size : ℕ) :
    DirLoc.entry ⟨33, 0⟩ (sampleFile fill start size) = newEntry sampleName 0x20 start size :=
  entry_sampleDisk (length_newEntry rfl _ _ _)

theorem oneFile_sampleFile (fill : UInt8) (start size : ℕ) :
    sample.OneFile (sampleFile fill start size) ⟨33, 0⟩ sample.rootLocs.tail :=
  oneFile_sampleDisk (length_newEntry rfl _ _ _) (entIsDir_newEntry rfl _ _ _)

theorem wellFormed_sampleFile (h : fill = 0 ∧ start = 0 ∨ fill = 0xFF ∧ sample.InRange start) :
    sample.WellFormed (sampleFile fill start size) := by
  refine wellFormed_sampleDisk (length_newEntry rfl _ _ _) (entIsDir_newEntry rfl _ _ _) ?_
  rw [entStart_newEntry rfl]
  rcases h with ⟨hfill, rfl⟩ | ⟨hfill, hrange⟩
  · exact .inl ⟨hfill, rfl⟩
  · have hlt : start < 8153 := hrange.2
    rw [Nat.mod_eq_of_lt (by omega)]
    exact .inr ⟨hfill, hrange⟩

theorem live_sampleFile (fill : UInt8) (start size : ℕ) :
    Live (DirLoc.entry ⟨33, 0⟩ (sampleFile fill start size)) := by
  rw [entry_sampleFile, Live, IsFree, getD_zero_newEntry rfl, attr_newEntry rfl]
  decide

theorem resolve_sampleFile (fill : UInt8) (start size : ℕ) :
    sample.resolve (sampleFile fill start size) false (traverseParts [0x41]) 0 = some (0, ⟨33, 0⟩) := by
  have hparts : traverseParts [0x41] = [[0x41]] := by decide
  rw [hparts]
  refine (oneFile_sampleFile fill start size).resolve (show partName [0x41] = some sampleName by decide)
    (live_sampleFile fill start size) ?_
  rw [entry_sampleFile, take_newEntry rfl]

theorem entFile_sampleFile (hstart : start < 2 ^ 16) (hsize : size < 2 ^ 32) :
    entFile ⟨33, 0⟩ (newEntry sampleName 0x20 start size) = ⟨start, size, 33, 0, false, 0x20⟩ := by
  have hname : sampleName.length = 11 := rfl
  have h1 := entStart_newEntry hname 0x20 start size
  have h2 := entSize_newEntry hname 0x20 start size
  rw [Nat.mod_eq_of_lt hstart] at h1
  rw [Nat.mod_eq_of_lt hsize] at h2
  rw [entStart] at h1
  rw [entSize] at h2
  simp only [entFile, h1, h2, entIsDir_newEntry hname, attr_newEntry hname]
  rfl

/-- What `fat_open` returns for "A". -/
theorem run_fatOpen_sampleFile (h : fill = 0 ∧ start = 0 ∨ fill = 0xFF ∧ sample.InRange start)
    (hsize : size < 2 ^ 32) :
    (sample.fatOpen [0x41]).run (.ok (sampleFile fill start size)) =
      some (some ⟨start, size, 33, 0, false, 0x20⟩, .ok (sampleFile fill start size)) := by
  have hstart : start < 2 ^ 16 := by
    rcases h with ⟨-, rfl⟩ | ⟨-, hrange⟩
    · decide
    · have hlt : start < 8153 := hrange.2
      omega
  rw [fatOpen, (wellFormed_sampleFile h).run_open false _ .root, resolve_sampleFile, map_some,
    entry_sampleFile, entFile_sampleFile hstart hsize]

end SampleFile

/-! ### The same directories and names -/

/-- Two disks with the same directories, names and kinds of entries. -/
structure SameTree (g : Geometry) (m m' : ByteMem) : Prop where
  locs : ∀ d, g.IsDirectory m d → g.dirLocs m' d = g.dirLocs m d
  sameHead : ∀ d, g.IsDirectory m d → ∀ loc ∈ g.dirLocs m d, SameHead (loc.entry m) (loc.entry m')
  subdirs : ∀ d loc, g.HasEntry m d loc → entIsDir (loc.entry m) = true →
    entStart (loc.entry m') = entStart (loc.entry m)

namespace SameTree

theorem shownLocs_eq (h : g.SameTree m m') (hd : g.IsDirectory m d) :
    g.shownLocs m' d = g.shownLocs m d := by
  rw [shownLocs, shownLocs, h.locs d hd]
  refine takeWhile_congr_mem fun loc hloc => ?_
  exact decide_eq_decide.mpr (not_congr (h.sameHead d hd loc hloc).isLast_iff)

theorem sameHead_shown (h : g.SameTree m m') (hd : g.IsDirectory m d) (hloc : loc ∈ g.shownLocs m d) :
    SameHead (loc.entry m) (loc.entry m') :=
  h.sameHead d hd loc ((takeWhile_sublist _).subset hloc)

theorem liveLocs_eq (h : g.SameTree m m') (hd : g.IsDirectory m d) :
    g.liveLocs m' d = g.liveLocs m d := by
  rw [liveLocs, liveLocs, h.shownLocs_eq hd]
  refine filter_congr fun loc hloc => ?_
  exact decide_eq_decide.mpr (h.sameHead_shown hd hloc).live_iff

theorem findLoc_eq (h : g.SameTree m m') (hd : g.IsDirectory m d) (q : Query) :
    g.findLoc m' d q = g.findLoc m d q := by
  rw [findLoc, findLoc, h.shownLocs_eq hd]
  refine find?_congr_mem fun loc hloc => ?_
  exact decide_eq_decide.mpr ((h.sameHead_shown hd hloc).matches_iff q)

/-- What was a directory is one. -/
theorem isDirectory (h : g.SameTree m m') (hd : g.IsDirectory m d) : g.IsDirectory m' d := by
  induction hd with
  | root => exact .root
  | @sub d loc hd hlive hdot hdir ih =>
    have hhead := h.sameHead_shown hd (mem_shownLocs_of_live hlive)
    rw [← h.subdirs d loc ⟨hd, hlive, hdot⟩ hdir]
    refine .sub ih ?_ (mt hhead.isDot_iff.mp hdot) (hhead.entIsDir_eq.trans hdir)
    rwa [h.liveLocs_eq hd]

/-- There are no other directories. -/
theorem isDirectory_iff (h : g.SameTree m m') : g.IsDirectory m' d ↔ g.IsDirectory m d := by
  refine ⟨fun hd => ?_, h.isDirectory⟩
  induction hd with
  | root => exact .root
  | @sub d loc _ hlive hdot hdir hd =>
    rw [h.liveLocs_eq hd] at hlive
    have hhead := h.sameHead_shown hd (mem_shownLocs_of_live hlive)
    have hdot' := mt hhead.isDot_iff.mpr hdot
    have hdir' := hhead.entIsDir_eq.symm.trans hdir
    rw [h.subdirs d loc ⟨hd, hlive, hdot'⟩ hdir']
    exact .sub hd hlive hdot' hdir'

theorem hasEntry_iff (h : g.SameTree m m') : g.HasEntry m' d loc ↔ g.HasEntry m d loc := by
  constructor
  · rintro ⟨hd, hlive, hdot⟩
    rw [h.isDirectory_iff] at hd
    rw [h.liveLocs_eq hd] at hlive
    exact ⟨hd, hlive, mt (h.sameHead_shown hd (mem_shownLocs_of_live hlive)).isDot_iff.mpr hdot⟩
  · rintro ⟨hd, hlive, hdot⟩
    refine ⟨h.isDirectory hd, ?_,
      mt (h.sameHead_shown hd (mem_shownLocs_of_live hlive)).isDot_iff.mp hdot⟩
    rwa [h.liveLocs_eq hd]

theorem sameHead_entry (h : g.SameTree m m') (hloc : g.HasEntry m d loc) :
    SameHead (loc.entry m) (loc.entry m') :=
  h.sameHead_shown hloc.dir (mem_shownLocs_of_live hloc.live)

/-- **Paths lead to the same places.** -/
theorem resolve_eq (h : g.SameTree m m') (w : Bool) (comps : List (List UInt8))
    (hd : g.IsDirectory m d) : g.resolve m' w comps d = g.resolve m w comps d := by
  induction comps generalizing d with
  | nil => rfl
  | cons comp rest ih =>
    rw [resolve_cons, resolve_cons]
    refine bind_congr fun name hname => ?_
    rw [h.findLoc_eq hd]
    refine bind_congr fun loc hloc => ?_
    split
    · rfl
    · next hlast =>
      obtain ⟨hlive, hmatch⟩ := findLoc_some hloc
      have hdir := entIsDir_of_matches hmatch
      have hdot := not_isDot_of_matches hname hmatch
      rw [if_neg hlast] at hdir
      rw [h.subdirs d loc ⟨hd, hlive, hdot⟩ hdir]
      exact ih (.sub hd hlive hdot hdir)

theorem trans {m'' : ByteMem} (h : g.SameTree m m') (h' : g.SameTree m' m'') : g.SameTree m m'' where
  locs d hd := (h'.locs d (h.isDirectory hd)).trans (h.locs d hd)
  sameHead d hd loc hloc :=
    (h'.sameHead d (h.isDirectory hd) loc (h.locs d hd ▸ hloc)).trans (h.sameHead d hd loc hloc)
  subdirs d loc hloc hdir :=
    (h'.subdirs d loc (h.hasEntry_iff.mpr hloc) ((h.sameHead_entry hloc).entIsDir_eq.trans hdir)).trans
      (h.subdirs d loc hloc hdir)

end SameTree

/-- The volume stays well formed if the tree stays the same, the chains in use stay in use with
their heads, and a start cluster that is new was free. -/
theorem WellFormed.of_sameTree (h : g.WellFormed m) (hs : g.SameTree m m')
    (ht : SoundTable (g.link m')) (hused : ∀ c, g.link m c ≠ .free → g.link m' c ≠ .free)
    (hheads : ∀ c, g.link m c ≠ .free → IsHead (g.link m) c → IsHead (g.link m') c) (loc₀ : DirLoc)
    (hstart : ∀ d loc, g.HasEntry m d loc → entStart (loc.entry m') = entStart (loc.entry m) ∨
      loc = loc₀ ∧ g.link m (entStart (loc.entry m')) = .free ∧
        g.link m' (entStart (loc.entry m')) ≠ .free ∧
        IsHead (g.link m') (entStart (loc.entry m'))) : g.WellFormed m' := by
  refine ⟨h.regular, ht, fun d loc hloc hdir => ?_, fun d loc hloc hne => ?_,
    fun d d' loc loc' hloc hloc' hne heq => ?_, fun d hd => ?_⟩
  · rw [hs.hasEntry_iff] at hloc
    have hdir' := (hs.sameHead_entry hloc).entIsDir_eq.symm.trans hdir
    rw [hs.subdirs d loc hloc hdir']
    exact hused _ (h.subdirs d loc hloc hdir')
  · rw [hs.hasEntry_iff] at hloc
    rcases hstart d loc hloc with he | ⟨-, -, hn⟩
    · rw [he] at hne ⊢
      obtain ⟨huse, hhead⟩ := h.heads d loc hloc hne
      exact ⟨hused _ huse, hheads _ huse hhead⟩
    · exact hn
  · rw [hs.hasEntry_iff] at hloc hloc'
    -- a start cluster that was free is not that of another entry
    rcases hstart d loc hloc with he | ⟨rfl, hfree, -⟩ <;>
      rcases hstart d' loc' hloc' with he' | ⟨rfl, hfree', -⟩
    · rw [he] at hne heq
      exact h.distinct d d' loc loc' hloc hloc' hne (heq.trans he')
    · rw [he] at hne heq
      exact absurd (heq ▸ hfree') (h.heads d loc hloc hne).1
    · rw [heq, he'] at hne hfree
      exact absurd hfree (h.heads d' loc' hloc' hne).1
    · rfl
  · rw [hs.isDirectory_iff] at hd
    rw [hs.locs d hd, dropWhile_congr_mem fun loc hloc =>
      decide_eq_decide.mpr (not_congr (hs.sameHead d hd loc hloc).isLast_iff)]
    intro loc hloc
    have hmem := (dropWhile_sublist _).subset hloc
    exact (hs.sameHead d hd loc hmem).isLast_iff.mpr (h.tail d hd loc hloc)

end Geometry

end Neptune
