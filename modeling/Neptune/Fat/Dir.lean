import Neptune.Fat.Name
import Neptune.Fat.Read

/-!
# Directories

A directory is a row of entries of 32 bytes: the root directory in its own sectors, every other
one in the clusters of a chain.  `dir_find_entry` and `list_dir` go through them in the same
way, so the way through is written once (`Geometry.visitDir`) and what they do at an entry is a
`Visitor`.

## Main definitions

* `DirLoc`, `sectorSlots` — `struct dir_loc`, and the entries of a sector.
* `Visitor`, `Geometry.visitDir` — the loops.
* `Query`, `Geometry.dirFindEntry` — `dir_find_entry`.
* `listVisit`, `Geometry.listDir` — `list_dir`.
* `Visitor.scan` — a visit as a fold over the entries.

## Main results

* `run_visitDir_root`, `run_visitClusters` — without faults the loops are that fold.
-/

namespace Neptune

open DiskM List

/-- `struct dir_loc`. -/
structure DirLoc where
  sector : ℕ
  offset : ℕ
  deriving DecidableEq, Repr

/-- The entries of a sector, each with its place. -/
def sectorSlots (lba : ℕ) (buf : List UInt8) : List (DirLoc × List UInt8) :=
  (List.range 16).map fun e => (⟨lba, e * 32⟩, (buf.drop (e * 32)).take 32)

/-- What a function does on its way through a directory, with what it has gathered. -/
structure Visitor (σ β : Type) where
  /-- At an entry: return (`error`), or go on. -/
  visit : σ → DirLoc → List UInt8 → Except β σ
  /-- Behind the last entry. -/
  finish : σ → β
  /-- At a sector that cannot be read. -/
  broken : σ → β

section Loops

variable {σ β : Type} (v : Visitor σ β)

/-- The loop over the entries of a sector.  In the root directory only `root_entries` count. -/
def visitSlots (limit : Option ℕ) : List (DirLoc × List UInt8) → ℕ → σ → Except β (ℕ × σ)
  | [], seen, s => .ok (seen, s)
  | (loc, ent) :: rest, seen, s =>
    if limit.any (· ≤ seen) then .error (v.finish s)
    else match v.visit s loc ent with
      | .error b => .error b
      | .ok s => visitSlots limit rest (seen + 1) s

/-- The loop over the sectors, with the number of those left. -/
def visitSectors (limit : Option ℕ) (start : ℕ) : ℕ → ℕ → ℕ → σ → DiskM (Except β (ℕ × σ))
  | 0, _, seen, s => return .ok (seen, s)
  | n + 1, i, seen, s => do
    let lba := (start + i) % 2 ^ 32
    let some buf ← readSector lba | return .error (v.broken s)
    match visitSlots v limit (sectorSlots lba buf) seen s with
    | .error b => return .error b
    | .ok (seen, s) => visitSectors limit start n (i + 1) seen s

/-- The loop over the clusters of a directory other than the root. -/
def Geometry.visitClusters (g : Geometry) : ℕ → ℕ → σ → DiskM β
  | 0, _, _ => failure
  | n + 1, cluster, s => do
    match ← visitSectors v none (g.clusterToSector cluster) g.sectorsPerCluster 0 0 s with
    | .error b => return b
    | .ok (_, s) =>
      let next ← g.fatNextCluster cluster
      if next = 0 ∨ isEndCluster next = true then return v.finish s
      else visitClusters g n next s

/-- The way through a directory; cluster 0 is the root. -/
def Geometry.visitDir (g : Geometry) (fuel dirCluster : ℕ) (s : σ) : DiskM β :=
  if dirCluster = 0 then do
    match ← visitSectors v (some g.rootEntries) g.rootStart g.rootDirSectors 0 0 s with
    | .error b => return b
    | .ok (_, s) => return v.finish s
  else g.visitClusters v fuel dirCluster s

end Loops

/-! ### `dir_find_entry` -/

/-- What is looked for: `want_dir` is `none` for -1. -/
structure Query where
  name : List UInt8
  wantDir : Option Bool
  allowFree : Bool

/-- What `dir_find_entry` returns: 0 with the entry, 1 with a free place, or -1. -/
inductive Lookup
  | found (file : FatFile)
  | free (loc : DirLoc)
  | absent
  deriving DecidableEq, Repr

/-- At the end of the directory; a free place is noted only where it is asked for. -/
def endScan : Option DirLoc → Lookup
  | some loc => .free loc
  | none => .absent

/-- `is_dir`. -/
def entIsDir (ent : List UInt8) : Bool := decide (ent.getD 11 0 &&& 0x10 ≠ 0)

/-- The file at an entry. -/
def entFile (loc : DirLoc) (ent : List UInt8) : FatFile where
  startCluster := ByteMem.leNat ((ent.drop 26).take 2)
  size := ByteMem.leNat ((ent.drop 28).take 4)
  dirSector := loc.sector
  dirOffset := loc.offset
  isDir := entIsDir ent
  attr := ent.getD 11 0

/-- The body of the loop of `dir_find_entry`, with the first free place so far. -/
def Query.visit (q : Query) (free : Option DirLoc) (loc : DirLoc) (ent : List UInt8) :
    Except Lookup (Option DirLoc) :=
  let noted := if q.allowFree then some (free.getD loc) else free
  if ent.getD 0 0 = 0x00 then .error (endScan noted)
  else if ent.getD 0 0 = 0xE5 then .ok noted
  else if ent.getD 11 0 = 0x0F then .ok free
  else if q.wantDir = some true ∧ entIsDir ent = false then .ok free
  else if q.wantDir = some false ∧ entIsDir ent = true then .ok free
  else if ent.take 11 = q.name then .error (.found (entFile loc ent))
  else .ok free

/-- What `dir_find_entry` does at an entry, at the end and at an error. -/
def Query.visitor (q : Query) : Visitor (Option DirLoc) Lookup := ⟨q.visit, endScan, fun _ => .absent⟩

/-- `dir_find_entry`.  There are 2^16 cluster numbers: a way with more steps never ends. -/
def Geometry.dirFindEntry (g : Geometry) (dirCluster : ℕ) (q : Query) : DiskM Lookup :=
  g.visitDir q.visitor (2 ^ 16) dirCluster none

/-! ### `list_dir` -/

def newline : UInt8 := 0x0A

/-- The text of a C string: what stands before the first NUL. -/
def cText (s : List UInt8) : List UInt8 := s.takeWhile (· ≠ 0)

/-- `append_str`: what is written is short of a buffer of `len` bytes by one. -/
def appendStr (len : ℕ) (written s : List UInt8) : List UInt8 :=
  written ++ (cText s).take (len - 1 - written.length)

/-- The body of the loop of `list_dir`, with what is written so far. -/
def listVisit (lead : List UInt8) (len : ℕ) (written : List UInt8) (ent : List UInt8) :
    Except (List UInt8) (List UInt8) :=
  if ent.getD 0 0 = 0x00 then .error written
  else if ent.getD 0 0 = 0xE5 ∨ ent.getD 11 0 = 0x0F ∨ ent.getD 11 0 &&& 0x08 ≠ 0 then .ok written
  else if ent.getD 0 0 = dot ∧ (ent.getD 1 0 = space ∨ ent.getD 1 0 = dot) then .ok written
  else
    let written := appendStr len (appendStr len written lead) (formatName ent 16)
    if ent.getD 11 0 &&& 0x10 ≠ 0 then
      if len ≤ written.length + 2 then .error written else .ok (written ++ [slash, newline])
    else
      if len ≤ written.length + 1 then .error written else .ok (written ++ [newline])

/-- What `list_dir` does at an entry, at the end and at an error. -/
def listVisitor (lead : List UInt8) (len : ℕ) : Visitor (List UInt8) (List UInt8) :=
  ⟨fun written _ ent => listVisit lead len written ent, id, id⟩

/-- `list_dir`: what it writes into a buffer of `len` bytes.  A cluster that is visited again adds
to the buffer, or the way never ends. -/
def Geometry.listDir (g : Geometry) (dirCluster : ℕ) (lead : List UInt8) (len : ℕ) :
    DiskM (List UInt8) :=
  if len = 0 then return []
  else g.visitDir (listVisitor lead len) (2 ^ 16 * (len + 1)) dirCluster []

/-! ### The way through a directory as a fold -/

namespace DirLoc

/-- Where the entry lies on the disk. -/
def addr (loc : DirLoc) : ℕ := loc.sector * 512 + loc.offset

/-- The entry there. -/
def entry (loc : DirLoc) (m : ByteMem) : List UInt8 := m.bytes loc.addr 32

end DirLoc

/-- The places in `n` sectors from the `i`-th behind `start` on. -/
def sectorLocs (start i n : ℕ) : List DirLoc :=
  (List.range' i n).flatMap fun j => (List.range 16).map fun e => ⟨(start + j) % 2 ^ 32, e * 32⟩

/-- The places in the root directory. -/
def Geometry.rootLocs (g : Geometry) : List DirLoc :=
  (sectorLocs g.rootStart 0 g.rootDirSectors).take g.rootEntries

/-- The places in a cluster. -/
def Geometry.clusterLocs (g : Geometry) (c : ℕ) : List DirLoc :=
  sectorLocs (g.clusterToSector c) 0 g.sectorsPerCluster

section Fold

variable {σ β : Type} (v : Visitor σ β) {g : Geometry} {m : ByteMem} {s : σ}

/-- The visits at the entries of a list of places. -/
def Visitor.fold (m : ByteMem) (locs : List DirLoc) (s : σ) : Except β σ :=
  locs.foldlM (fun s loc => v.visit s loc (loc.entry m)) s

/-- What the function returns in the end. -/
def Visitor.result : Except β σ → β
  | .error b => b
  | .ok s => v.finish s

/-- What the function returns for a directory with these places. -/
def Visitor.scan (m : ByteMem) (locs : List DirLoc) (s : σ) : β := v.result (v.fold m locs s)

@[simp] theorem Visitor.fold_nil : v.fold m [] s = .ok s := rfl

theorem Visitor.fold_cons (loc : DirLoc) (locs : List DirLoc) :
    v.fold m (loc :: locs) s = (v.visit s loc (loc.entry m)).bind (v.fold m locs) := by
  rw [Visitor.fold, foldlM_cons]
  rfl

theorem Visitor.fold_append (locs locs' : List DirLoc) :
    v.fold m (locs ++ locs') s = (v.fold m locs s).bind (v.fold m locs') := by
  rw [Visitor.fold, foldlM_append]
  rfl

theorem Visitor.fold_append_ok {locs locs' : List DirLoc} {t : σ} (h : v.fold m locs s = .ok t) :
    v.fold m (locs ++ locs') s = v.fold m locs' t := by
  rw [Visitor.fold_append, h]
  rfl

theorem Visitor.fold_append_error {locs locs' : List DirLoc} {b : β}
    (h : v.fold m locs s = .error b) : v.fold m (locs ++ locs') s = .error b := by
  rw [Visitor.fold_append, h]
  rfl

theorem sectorLocs_succ (start i n : ℕ) :
    sectorLocs start i (n + 1) =
      ((List.range 16).map fun e => (⟨(start + i) % 2 ^ 32, e * 32⟩ : DirLoc)) ++
        sectorLocs start (i + 1) n := by
  rw [sectorLocs, range'_succ, flatMap_cons]
  rfl

/-- The entries of a sector as the disk has them. -/
theorem sectorSlots_bytes (lba : ℕ) :
    sectorSlots lba (m.bytes (lba * 512) 512) =
      ((List.range 16).map fun e => (⟨lba, e * 32⟩ : DirLoc)).map fun loc => (loc, loc.entry m) := by
  rw [sectorSlots, map_map]
  refine map_congr_left fun e he => ?_
  have := mem_range.mp he
  rw [m.drop_bytes _ (by omega), m.take_bytes _ (by omega)]
  rfl

/-- Without a limit the loop over the entries is the fold. -/
theorem visitSlots_none (locs : List DirLoc) (seen : ℕ) :
    visitSlots v none (locs.map fun loc => (loc, loc.entry m)) seen s =
      (v.fold m locs s).map fun t => (seen + locs.length, t) := by
  induction locs generalizing seen s with
  | nil => rfl
  | cons loc locs ih =>
    rw [map_cons, visitSlots, if_neg (by simp), Visitor.fold_cons]
    cases v.visit s loc (loc.entry m) with
    | error b => rfl
    | ok t =>
      rw [length_cons, Nat.add_comm locs.length, ← Nat.add_assoc]
      exact ih (seen + 1)

/-- With a limit it is the fold up to there. -/
theorem visitSlots_some (limit : ℕ) (locs : List DirLoc) (seen : ℕ) :
    visitSlots v (some limit) (locs.map fun loc => (loc, loc.entry m)) seen s =
      if limit - seen < locs.length then .error (v.scan m (locs.take (limit - seen)) s)
      else (v.fold m locs s).map fun t => (seen + locs.length, t) := by
  induction locs generalizing seen s with
  | nil => rfl
  | cons loc locs ih =>
    rw [map_cons, visitSlots]
    by_cases hlimit : limit ≤ seen
    · have hzero : limit - seen = 0 := by omega
      rw [if_pos (by simpa using hlimit), hzero, if_pos (by simp)]
      rfl
    · obtain ⟨k, hk⟩ : ∃ k, limit - seen = k + 1 := ⟨limit - seen - 1, by omega⟩
      have hk' : limit - (seen + 1) = k := by omega
      rw [if_neg (by simpa using hlimit), hk, take_succ_cons, Visitor.scan,
        Visitor.fold_cons, Visitor.fold_cons, length_cons]
      cases hv : v.visit s loc (loc.entry m) with
      | error b =>
        dsimp only [Except.bind, Except.map, Visitor.result]
        split <;> rfl
      | ok t =>
        dsimp only
        rw [ih (seen + 1), hk', Nat.add_assoc, Nat.add_comm 1]
        simp only [Nat.add_lt_add_iff_right]
        rfl

theorem run_visitSectors_none (start n i seen : ℕ) (s : σ) :
    (visitSectors v none start n i seen s).run (.ok m) =
      some ((v.fold m (sectorLocs start i n) s).map fun t =>
        (seen + (sectorLocs start i n).length, t), .ok m) := by
  induction n generalizing i seen s with
  | zero => rfl
  | succ n ih =>
    rw [visitSectors, run_bind_of run_readSector_ok]
    dsimp only
    rw [sectorSlots_bytes, visitSlots_none, sectorLocs_succ, Visitor.fold_append]
    cases v.fold m ((List.range 16).map fun e => (⟨(start + i) % 2 ^ 32, e * 32⟩ : DirLoc)) s with
    | error b => rfl
    | ok t =>
      dsimp only [Except.map, Except.bind]
      rw [ih, length_append, Nat.add_assoc]
      rfl

/-- The loop over the sectors of the root directory, and what is done behind it. -/
theorem run_visitSectors_some (limit start n i seen : ℕ) (s : σ) :
    ∃ r, (visitSectors v (some limit) start n i seen s).run (.ok m) = some (r, .ok m) ∧
      v.result (r.map Prod.snd) = v.scan m ((sectorLocs start i n).take (limit - seen)) s := by
  induction n generalizing i seen s with
  | zero => exact ⟨_, rfl, by simp [sectorLocs, Visitor.scan, Except.map]⟩
  | succ n ih =>
    rw [visitSectors, run_bind_of run_readSector_ok]
    dsimp only
    rw [sectorSlots_bytes, visitSlots_some, sectorLocs_succ]
    generalize hslots : ((List.range 16).map fun e =>
      (⟨(start + i) % 2 ^ 32, e * 32⟩ : DirLoc)) = slots
    by_cases hlimit : limit - seen < slots.length
    · rw [if_pos hlimit, take_append_of_le_length hlimit.le]
      exact ⟨_, rfl, rfl⟩
    · rw [if_neg hlimit, take_append, take_of_length_le (by omega), Visitor.scan]
      cases hfold : v.fold m slots s with
      | error b =>
        rw [Visitor.fold_append_error v hfold]
        exact ⟨_, rfl, rfl⟩
      | ok t =>
        obtain ⟨r, hrun, hr⟩ := ih (i + 1) (seen + slots.length) t
        refine ⟨r, hrun, ?_⟩
        rw [hr, Visitor.fold_append_ok v hfold, Nat.sub_sub]
        rfl

/-- **The root directory.** -/
theorem run_visitDir_root (g : Geometry) (fuel : ℕ) (s : σ) :
    (g.visitDir v fuel 0 s).run (.ok m) = some (v.scan m g.rootLocs s, .ok m) := by
  obtain ⟨r, hrun, hr⟩ :=
    run_visitSectors_some v g.rootEntries g.rootStart g.rootDirSectors 0 0 s
  rw [Geometry.visitDir, if_pos rfl, run_bind_of hrun, Geometry.rootLocs]
  rw [Nat.sub_zero] at hr
  rw [← hr]
  cases r <;> rfl

/-- **The other directories**, if the chain of their clusters ends. -/
theorem run_visitClusters {fuel c : ℕ} {l : List ℕ} (hfuel : l.length < fuel)
    (hl : (c :: l).IsChain (g.Follows m))
    (hend : ∀ x ∈ (c :: l).getLast?, g.fatEntry m x = 0 ∨ isEndCluster (g.fatEntry m x) = true)
    (s : σ) :
    (g.visitClusters v fuel c s).run (.ok m) =
      some (v.scan m ((c :: l).flatMap g.clusterLocs) s, .ok m) := by
  induction fuel generalizing c l s with
  | zero => omega
  | succ fuel ih =>
    have hlocs : sectorLocs (g.clusterToSector c) 0 g.sectorsPerCluster = g.clusterLocs c := rfl
    rw [Geometry.visitClusters, run_bind_of (run_visitSectors_none v _ _ _ _ _), hlocs,
      flatMap_cons, Visitor.scan]
    cases hfold : v.fold m (g.clusterLocs c) s with
    | error b =>
      rw [Visitor.fold_append_error v hfold]
      rfl
    | ok t =>
      rw [Visitor.fold_append_ok v hfold]
      dsimp only [Except.map]
      rw [run_bind_of (g.run_fatNextCluster_ok c m)]
      cases l with
      | nil =>
        rw [if_pos (hend c rfl)]
        rfl
      | cons c' l =>
        obtain ⟨⟨he, hne, hgo⟩, hl'⟩ := isChain_cons_cons.mp hl
        rw [he, if_neg (by simp [hne, hgo])]
        exact ih (by simpa using hfuel) hl' hend t

end Fold

/-! ### What `dir_find_entry` finds -/

/-- The entry is the end of the directory. -/
def IsLast (ent : List UInt8) : Prop := ent.getD 0 0 = 0x00

/-- The entry can be used for a new file. -/
def IsFree (ent : List UInt8) : Prop := ent.getD 0 0 = 0x00 ∨ ent.getD 0 0 = 0xE5

/-- The entry is the one looked for, unless it is the end of the directory. -/
def Query.Matches (q : Query) (ent : List UInt8) : Prop :=
  ent.getD 0 0 ≠ 0xE5 ∧ ent.getD 11 0 ≠ 0x0F ∧
    (q.wantDir = none ∨ q.wantDir = some (entIsDir ent)) ∧ ent.take 11 = q.name

instance (ent : List UInt8) : Decidable (IsLast ent) := inferInstanceAs (Decidable (_ = _))

instance (ent : List UInt8) : Decidable (IsFree ent) := inferInstanceAs (Decidable (_ ∨ _))

instance (q : Query) (ent : List UInt8) : Decidable (q.Matches ent) :=
  inferInstanceAs (Decidable (_ ∧ _ ∧ _ ∧ _))

section Find

variable {q : Query} {m : ByteMem} {free : Option DirLoc} {loc : DirLoc} {ent : List UInt8}

/-- The free place noted at an entry that can be used. -/
def Query.note (q : Query) (free : Option DirLoc) (loc : DirLoc) : Option DirLoc :=
  if q.allowFree then some (free.getD loc) else free

theorem Query.visit_last (h : IsLast ent) :
    q.visit free loc ent = .error (endScan (q.note free loc)) := if_pos h

theorem Query.visit_matches (hlast : ¬IsLast ent) (h : q.Matches ent) :
    q.visit free loc ent = .error (.found (entFile loc ent)) := by
  obtain ⟨hlive, hattr, hkind, hname⟩ := h
  have hkind' : ∀ b, q.wantDir = some b → entIsDir ent = b := by
    intro b hb
    rcases hkind with hkind | hkind
    · rw [hkind] at hb
      cases hb
    · exact Option.some.inj (hkind.symm.trans hb)
  rw [IsLast] at hlast
  simp only [Query.visit]
  rw [if_neg hlast, if_neg hlive, if_neg hattr, if_neg fun h => ?_, if_neg fun h => ?_, if_pos hname]
  · rw [hkind' false h.1] at h
    cases h.2
  · rw [hkind' true h.1] at h
    cases h.2

theorem Query.visit_other (hlast : ¬IsLast ent) (h : ¬q.Matches ent) :
    q.visit free loc ent = .ok (if IsFree ent then q.note free loc else free) := by
  rw [IsLast] at hlast
  simp only [Query.visit]
  rw [if_neg hlast]
  by_cases hlive : ent.getD 0 0 = 0xE5
  · have hfree : IsFree ent := .inr hlive
    rw [if_pos hlive, if_pos hfree]
    rfl
  have hfree : ¬IsFree ent := not_or.mpr ⟨hlast, hlive⟩
  rw [if_neg hlive, if_neg hfree]
  split
  · rfl
  split
  · rfl
  split
  · rfl
  rw [if_neg]
  intro hname
  refine h ⟨hlive, ‹_›, ?_, hname⟩
  cases hw : q.wantDir with
  | none => exact .inl rfl
  | some b => cases b <;> cases hd : entIsDir ent <;> simp_all

/-- The first place that can be used, noted or in the list. -/
def Query.firstFree (q : Query) (m : ByteMem) (locs : List DirLoc) (free : Option DirLoc) :
    Option DirLoc :=
  if q.allowFree then free.or (locs.find? fun loc => IsFree (loc.entry m)) else free

/-- **What `dir_find_entry` returns**: the first entry before the end that is the one looked for,
or else, if it is asked for, the first place that can be used. -/
theorem Query.scan_eq (q : Query) (m : ByteMem) (locs : List DirLoc) (free : Option DirLoc) :
    q.visitor.scan m locs free =
      match (locs.takeWhile fun loc => ¬IsLast (loc.entry m)).find? fun loc =>
        q.Matches (loc.entry m) with
      | some loc => .found (entFile loc (loc.entry m))
      | none => endScan (q.firstFree m locs free) := by
  induction locs generalizing free with
  | nil => cases free <;> simp [Visitor.scan, Visitor.result, Query.visitor, Query.firstFree]
  | cons loc locs ih =>
    rw [Visitor.scan, Visitor.fold_cons]
    by_cases hlast : IsLast (loc.entry m)
    · have hfree : IsFree (loc.entry m) := .inl hlast
      have hnote : q.firstFree m (loc :: locs) free = q.note free loc := by
        cases free <;> simp [Query.firstFree, Query.note, hfree]
      rw [takeWhile_cons_of_neg (by simpa using hlast), hnote]
      show q.visitor.result ((q.visit free loc (loc.entry m)).bind _) = _
      rw [Query.visit_last hlast]
      rfl
    rw [takeWhile_cons_of_pos (by simpa using hlast)]
    by_cases hmatch : q.Matches (loc.entry m)
    · rw [find?_cons_of_pos (by simpa using hmatch)]
      show q.visitor.result ((q.visit free loc (loc.entry m)).bind _) = _
      rw [Query.visit_matches hlast hmatch]
      rfl
    · rw [find?_cons_of_neg (by simpa using hmatch)]
      show q.visitor.result ((q.visit free loc (loc.entry m)).bind _) = _
      rw [Query.visit_other hlast hmatch]
      have hnote : q.firstFree m (loc :: locs) free =
          q.firstFree m locs (if IsFree (loc.entry m) then q.note free loc else free) := by
        by_cases hfree : IsFree (loc.entry m)
        · cases q.allowFree <;> cases free <;> simp_all [Query.firstFree, Query.note]
        · simp [Query.firstFree, hfree]
      rw [hnote]
      exact ih _

/-- Nothing makes `dir_find_entry` return at these places. -/
theorem Query.fold_ok_iff (locs : List DirLoc) (free : Option DirLoc) :
    (∃ t, q.visitor.fold m locs free = .ok t) ↔
      ∀ loc ∈ locs, ¬IsLast (loc.entry m) ∧ ¬q.Matches (loc.entry m) := by
  induction locs generalizing free with
  | nil => simp
  | cons loc locs ih =>
    rw [Visitor.fold_cons, forall_mem_cons]
    show (∃ t, (q.visit free loc (loc.entry m)).bind _ = .ok t) ↔ _
    by_cases hlast : IsLast (loc.entry m)
    · rw [Query.visit_last hlast]
      exact iff_of_false (fun ⟨t, ht⟩ => by cases ht) fun h => h.1.1 hlast
    by_cases hmatch : q.Matches (loc.entry m)
    · rw [Query.visit_matches hlast hmatch]
      exact iff_of_false (fun ⟨t, ht⟩ => by cases ht) fun h => h.1.2 hmatch
    · rw [Query.visit_other hlast hmatch, and_iff_right ⟨hlast, hmatch⟩]
      exact ih _

end Find

/-! ### What `list_dir` writes -/

/-- The entry is listed, unless it is the end of the directory. -/
def Listed (ent : List UInt8) : Prop :=
  ¬(ent.getD 0 0 = 0xE5 ∨ ent.getD 11 0 = 0x0F ∨ ent.getD 11 0 &&& 0x08 ≠ 0) ∧
    ¬(ent.getD 0 0 = dot ∧ (ent.getD 1 0 = space ∨ ent.getD 1 0 = dot))

instance (ent : List UInt8) : Decidable (Listed ent) := inferInstanceAs (Decidable (_ ∧ _))

/-- The line of an entry that is listed: its name up to a NUL, a slash for a directory, and a
newline. -/
def listLine (lead ent : List UInt8) : List UInt8 :=
  cText lead ++ cText (formatName ent 16) ++ if entIsDir ent then [slash, newline] else [newline]

/-- The lines of the entries at a list of places. -/
def listText (lead : List UInt8) (m : ByteMem) (locs : List DirLoc) : List UInt8 :=
  (locs.filter fun loc => Listed (loc.entry m)).flatMap fun loc => listLine lead (loc.entry m)

section List

variable {lead written ent s : List UInt8} {len : ℕ} {m : ByteMem}

theorem appendStr_of_lt (h : (written ++ cText s).length < len) :
    appendStr len written s = written ++ cText s := by
  rw [length_append] at h
  rw [appendStr, take_of_length_le (by omega)]

theorem length_appendStr (h : written.length < len) :
    (appendStr len written s).length = min (written ++ cText s).length (len - 1) := by
  rw [appendStr, length_append, length_append, length_take]
  omega

/-- At an entry that is listed the line is written, if there is room for it and one byte more. -/
theorem listVisit_listed (hlast : ¬IsLast ent) (hlisted : Listed ent) (hw : written.length < len) :
    if len ≤ (written ++ listLine lead ent).length then
      ∃ out, listVisit lead len written ent = .error out
    else listVisit lead len written ent = .ok (written ++ listLine lead ent) := by
  rw [IsLast] at hlast
  have hlen1 := @length_appendStr written lead len hw
  have hlen2 := @length_appendStr (appendStr len written lead) (formatName ent 16) len (by omega)
  have hvisit : listVisit lead len written ent =
      if entIsDir ent then
        if len ≤ (appendStr len (appendStr len written lead) (formatName ent 16)).length + 2 then
          .error (appendStr len (appendStr len written lead) (formatName ent 16))
        else .ok (appendStr len (appendStr len written lead) (formatName ent 16) ++ [slash, newline])
      else
        if len ≤ (appendStr len (appendStr len written lead) (formatName ent 16)).length + 1 then
          .error (appendStr len (appendStr len written lead) (formatName ent 16))
        else .ok (appendStr len (appendStr len written lead) (formatName ent 16) ++ [newline]) := by
    rw [listVisit, if_neg hlast, if_neg hlisted.1, if_neg hlisted.2]
    simp only [entIsDir, decide_eq_true_eq]
  rw [hvisit, listLine]
  have hfull : ∀ tail : List UInt8, 0 < tail.length →
      (len ≤ (appendStr len (appendStr len written lead) (formatName ent 16)).length + tail.length ↔
        len ≤ (written ++ (cText lead ++ cText (formatName ent 16) ++ tail)).length) := by
    intro tail htail
    simp only [length_append] at hlen1 hlen2 ⊢
    omega
  have hroom : ∀ tail : List UInt8,
      ¬len ≤ (written ++ (cText lead ++ cText (formatName ent 16) ++ tail)).length →
      appendStr len (appendStr len written lead) (formatName ent 16) ++ tail =
        written ++ (cText lead ++ cText (formatName ent 16) ++ tail) := by
    intro tail hle
    simp only [length_append] at hle
    rw [@appendStr_of_lt written lead len (by rw [length_append]; omega), appendStr_of_lt (by
      simp only [length_append]; omega)]
    simp
  cases entIsDir ent with
  | true =>
    simp only [if_true]
    have hiff := hfull [slash, newline] (by simp)
    rw [length_cons, length_singleton] at hiff
    split
    · next h => exact ⟨_, if_pos (hiff.mpr h)⟩
    · next h => rw [if_neg (mt hiff.mp h), hroom _ h]
  | false =>
    simp only [Bool.false_eq_true, if_false]
    have hiff := hfull [newline] (by simp)
    rw [length_singleton] at hiff
    split
    · next h => exact ⟨_, if_pos (hiff.mpr h)⟩
    · next h => rw [if_neg (mt hiff.mp h), hroom _ h]

theorem listVisit_other (hlast : ¬IsLast ent) (hlisted : ¬Listed ent) :
    listVisit lead len written ent = .ok written := by
  rw [IsLast] at hlast
  rw [listVisit, if_neg hlast]
  by_cases h : ent.getD 0 0 = 0xE5 ∨ ent.getD 11 0 = 0x0F ∨ ent.getD 11 0 &&& 0x08 ≠ 0
  · rw [if_pos h]
  · rw [if_neg h, if_pos]
    by_contra hdot
    exact hlisted ⟨h, hdot⟩

/-- **What `list_dir` has written** where nothing has made it return: the lines of the entries. -/
theorem listVisitor_fold_iff (locs : List DirLoc) (hw : written.length < len) (t : List UInt8) :
    (listVisitor lead len).fold m locs written = .ok t ↔
      (∀ loc ∈ locs, ¬IsLast (loc.entry m)) ∧ (written ++ listText lead m locs).length < len ∧
        t = written ++ listText lead m locs := by
  induction locs generalizing written with
  | nil =>
    constructor
    · intro h
      obtain rfl := Except.ok.inj h
      simpa [listText] using hw
    · rintro ⟨-, -, rfl⟩
      simp [listText]
  | cons loc locs ih =>
    rw [Visitor.fold_cons, forall_mem_cons]
    show (listVisit lead len written (loc.entry m)).bind _ = .ok t ↔ _
    by_cases hlast : IsLast (loc.entry m)
    · have hvisit : listVisit lead len written (loc.entry m) = .error written := if_pos hlast
      rw [hvisit]
      exact iff_of_false (fun h => by cases h) fun h => h.1.1 hlast
    by_cases hlisted : Listed (loc.entry m)
    · have htext : listText lead m (loc :: locs) =
          listLine lead (loc.entry m) ++ listText lead m locs := by
        rw [listText, filter_cons_of_pos (by simpa using hlisted), flatMap_cons]
        rfl
      have hvisit := @listVisit_listed lead written (loc.entry m) len hlast hlisted hw
      rw [htext, ← append_assoc]
      split at hvisit
      · next hfull =>
        obtain ⟨out, hout⟩ := hvisit
        rw [hout]
        refine iff_of_false (fun h => by cases h) fun h => ?_
        have := h.2.1
        rw [length_append] at this
        omega
      · next hroom =>
        rw [hvisit, and_iff_right hlast]
        exact ih (by omega)
    · have htext : listText lead m (loc :: locs) = listText lead m locs := by
        rw [listText, filter_cons_of_neg (by simpa using hlisted)]
        rfl
      rw [htext, listVisit_other hlast hlisted, and_iff_right hlast]
      exact ih hw

end List

end Neptune
