import Mathlib.Data.List.Nodup
import Neptune.Ramfs.Files

/-!
# The files are a map from paths to bytes

The table of files, read as a map from paths to byte strings, answers every sequence of calls as the
map does: blocks are replaced and cleared without a trace, and no write reaches the block of another
file.

## Main definitions

* `overwrite` — bytes that replace others from an offset on.
* `MapRun`, `MapRun.call` — the map, with all pairs of a path and an offset that there are.
* `Refines` — the table stands for the map.

## Main results

* `Refines.open`, `Refines.read`, `Refines.write` — the calls.
* `ramfs_refines_map` — every run of calls.
-/

namespace Neptune

open ByteMem Function List Nat Option
open Word64 (u64 int64)

/-! ### The map -/

/-- The bytes from `offset` on are replaced, and there are more of them if need be. -/
def overwrite (l : List UInt8) (offset : ℕ) (buf : List UInt8) : List UInt8 :=
  l.take offset ++ buf ++ l.drop (offset + buf.length)

/-- A map from paths to bytes, in which there are at most 32 paths.  Each pair of a path and an offset
stands for an open file. -/
structure MapRun where
  paths : List (List UInt8)
  content : List UInt8 → List UInt8
  handles : List (List UInt8 × ℕ)

namespace MapRun

def blank : MapRun := ⟨[], fun _ => [], []⟩

/-- Whether a path may name a file. -/
def named (path : List UInt8) : Bool :=
  decide (path.head? = some slash) && decide (path.length < ramfsPathMax)

/-- A call on the map. -/
def call (t : MapRun) : RamCall → Option (RamResult × MapRun)
  | .open path =>
    if !named path then some (.opened none, t)
    else if path ∈ t.paths then
      some (.opened (some (t.paths.idxOf path)), { t with handles := t.handles ++ [(path, 0)] })
    else if t.paths.length < ramfsMaxFiles then
      some (.opened (some t.paths.length),
        ⟨t.paths ++ [path], update t.content path [], t.handles ++ [(path, 0)]⟩)
    else some (.opened none, t)
  | .read h len =>
    match t.handles[h]? with
    | none => some (.read 0 [], t)
    | some (path, offset) =>
      let bytes := ((t.content path).drop offset).take len
      some (.read bytes.length bytes,
        { t with handles := t.handles.set h (path, offset + bytes.length) })
  | .write h buf _ =>
    match t.handles[h]? with
    | none => some (.wrote 0, t)
    | some (path, offset) =>
      some (.wrote buf.length, { t with
        content := update t.content path (overwrite (t.content path) offset buf)
        handles := t.handles.set h (path, offset + buf.length) })

end MapRun

/-! ### The table stands for the map -/

/-- The file at `i` has this path and these bytes. -/
structure Ramfs.Holds (fs : Ramfs) (i : ℕ) (path bytes : List UInt8) : Prop where
  path : (fs.files i).path = path
  bytes : fs.mem.bytes (fs.files i).data (fs.files i).size = bytes
  size_le : (fs.files i).size ≤ (fs.files i).capacity
  size_lt : (fs.files i).size < 2 ^ 63

/-- The blocks of two files do not overlap. -/
def Ramfs.Apart (fs : Ramfs) (i j : ℕ) : Prop :=
  (fs.files i).data + (fs.files i).capacity ≤ (fs.files j).data ∨
    (fs.files j).data + (fs.files j).capacity ≤ (fs.files i).data

structure Refines (s : RamRun) (t : MapRun) : Prop where
  count : t.paths.length ≤ ramfsMaxFiles
  nodup : t.paths.Nodup
  used : ∀ i < ramfsMaxFiles, ((s.fs.files i).used = true ↔ i < t.paths.length)
  holds : ∀ i path, t.paths[i]? = some path → s.fs.Holds i path (t.content path)
  apart : ∀ i j, i < t.paths.length → j < t.paths.length → i ≠ j → s.fs.Apart i j
  handles : t.handles = s.handles.map fun hd => (hd.path, hd.offset)
  opened : ∀ hd ∈ s.handles, t.paths[hd.file]? = some hd.path ∧ hd.offset ≤ (s.fs.files hd.file).size

variable {s : RamRun} {t : MapRun} {i h len block : ℕ} {path buf : List UInt8} {hd : RamHandle}

theorem refines_blank (m : ByteMem) : Refines (RamRun.blank m) MapRun.blank where
  count := zero_le _
  nodup := nodup_nil
  used i _ := by simp [RamRun.blank, MapRun.blank]
  holds i path hi := by simp [MapRun.blank] at hi
  apart i j hi := by simp [MapRun.blank] at hi
  handles := rfl
  opened hd hmem := by simp [RamRun.blank] at hmem

theorem Refines.handle (hr : Refines s t) (h : ℕ) :
    t.handles[h]? = (s.handles[h]?).map fun hd => (hd.path, hd.offset) := by
  rw [hr.handles, getElem?_map]

/-- Equal paths are the same file, and different paths different ones. -/
theorem Refines.same_file (hr : Refines s t) {hd' : RamHandle} (hmem : hd ∈ s.handles)
    (hmem' : hd' ∈ s.handles) : hd.file = hd'.file ↔ hd.path = hd'.path := by
  obtain ⟨hfile, -⟩ := hr.opened hd hmem
  obtain ⟨hfile', -⟩ := hr.opened hd' hmem'
  constructor
  · intro hsame
    rw [hsame, hfile'] at hfile
    exact (some.inj hfile).symm
  · intro hsame
    obtain ⟨hlt, -⟩ := List.getElem?_eq_some_iff.mp hfile
    refine (List.getElem?_inj hlt hr.nodup).mp ?_
    rw [hfile, hfile', hsame]

/-! ### Opening -/

/-- The first search of `ramfs_open`. -/
theorem Refines.find_path (hr : Refines s t) (path : List UInt8) :
    s.fs.find (fun file => file.used && streq file.path path) =
      if path ∈ t.paths then some (t.paths.idxOf path) else none := by
  have hcount := hr.count
  have hfound : ∀ i < ramfsMaxFiles, ((s.fs.files i).used && streq (s.fs.files i).path path) = true ↔
      t.paths[i]? = some path := by
    intro i hi
    rw [Bool.and_eq_true, hr.used i hi, streq_iff]
    constructor
    · rintro ⟨hlt, rfl⟩
      rw [getElem?_eq_getElem hlt, (hr.holds i _ (getElem?_eq_getElem hlt)).path]
    · intro hpath
      obtain ⟨hlt, -⟩ := List.getElem?_eq_some_iff.mp hpath
      exact ⟨hlt, (hr.holds i path hpath).path⟩
  unfold Ramfs.find
  split
  · next hmem =>
    have hlt := idxOf_lt_length_of_mem hmem
    rw [find?_range_eq_some]
    refine ⟨(hfound _ (by omega)).mpr (getElem?_idxOf hmem), mem_range.mpr (by omega), ?_⟩
    intro j hj
    rw [Bool.not_eq_true', ← Bool.not_eq_true, hfound j (by omega)]
    intro hpath
    obtain ⟨hjlt, hjpath⟩ := List.getElem?_eq_some_iff.mp hpath
    have hidx : t.paths.idxOf t.paths[j] = j := hr.nodup.idxOf_getElem j hjlt
    rw [hjpath] at hidx
    omega
  · next hmem =>
    rw [find?_range_eq_none]
    intro i hi
    rw [Bool.not_eq_true', ← Bool.not_eq_true, hfound i hi]
    exact fun hpath => hmem (mem_of_getElem? hpath)

/-- The second search: the files are used from the front. -/
theorem Refines.find_unused (hr : Refines s t) :
    s.fs.find (fun file => !file.used) =
      if t.paths.length < ramfsMaxFiles then some t.paths.length else none := by
  have hunused : ∀ i < ramfsMaxFiles, (!(s.fs.files i).used) = true ↔ t.paths.length ≤ i := by
    intro i hi
    rw [Bool.not_eq_true', ← Bool.not_eq_true, hr.used i hi, not_lt]
  unfold Ramfs.find
  split
  · next hlt =>
    rw [find?_range_eq_some]
    refine ⟨(hunused _ hlt).mpr le_rfl, mem_range.mpr hlt, fun j hj => ?_⟩
    rw [Bool.not_eq_true', ← Bool.not_eq_true, hunused j (by omega)]
    omega
  · next hfull =>
    rw [find?_range_eq_none]
    intro i hi
    rw [Bool.not_eq_true', ← Bool.not_eq_true, hunused i hi]
    omega

/-- A new file is empty and has no block. -/
theorem Refines.newFile (hr : Refines s t) (hlt : t.paths.length < ramfsMaxFiles)
    (hnew : path ∉ t.paths) (hlen : path.length < ramfsPathMax) :
    Refines ⟨s.fs.setFile t.paths.length ⟨copyPath path, 0, 0, 0, true⟩,
        s.handles ++ [⟨path, t.paths.length, 0⟩]⟩
      ⟨t.paths ++ [path], update t.content path [], t.handles ++ [(path, 0)]⟩ := by
  have hself : (s.fs.setFile t.paths.length ⟨copyPath path, 0, 0, 0, true⟩).files t.paths.length =
      ⟨copyPath path, 0, 0, 0, true⟩ := update_self ..
  have hother : ∀ i, i ≠ t.paths.length →
      (s.fs.setFile t.paths.length ⟨copyPath path, 0, 0, 0, true⟩).files i = s.fs.files i :=
    fun i hi => update_of_ne hi ..
  have hlast : (t.paths ++ [path])[t.paths.length]? = some path := by simp
  refine ⟨?_, ?_, fun i hi => ?_, fun i p hp => ?_, fun i j hi hj hij => ?_, ?_, fun hd hmem => ?_⟩
  · rw [length_append]
    exact hlt
  · dsimp only
    rw [← concat_eq_append]
    exact hr.nodup.concat hnew
  · rw [length_append, length_singleton]
    by_cases hit : i = t.paths.length
    · rw [hit, hself]
      simp
    · rw [hother i hit, hr.used i hi]
      omega
  · by_cases hit : i = t.paths.length
    · rw [hit, hlast] at hp
      obtain rfl := some.inj hp
      have hcopy : copyPath path = path := take_of_length_le (by unfold ramfsPathMax at *; omega)
      constructor
      · rw [hit, hself, hcopy]
      · rw [hit, hself]
        exact (update_self path [] t.content).symm
      · rw [hit, hself]
      · rw [hit, hself]
        exact Nat.two_pow_pos 63
    · have hold : t.paths[i]? = some p := by
        rw [getElem?_append] at hp
        split at hp
        · exact hp
        · rw [getElem?_singleton] at hp
          split at hp
          · omega
          · cases hp
      have hne : p ≠ path := fun heq => hnew (heq ▸ mem_of_getElem? hold)
      obtain ⟨hpath, hbytes, hle, hsize⟩ := hr.holds i p hold
      constructor
      · rw [hother i hit, hpath]
      · rw [hother i hit]
        exact hbytes.trans (update_of_ne hne [] t.content).symm
      · rwa [hother i hit]
      · rwa [hother i hit]
  · rw [length_append, length_singleton] at hi hj
    unfold Ramfs.Apart
    by_cases hit : i = t.paths.length
    · rw [hit, hself]
      exact .inl (zero_le _)
    by_cases hjt : j = t.paths.length
    · rw [hjt, hself]
      exact .inr (zero_le _)
    · rw [hother i hit, hother j hjt]
      exact hr.apart i j (by omega) (by omega) hij
  · rw [map_append, ← hr.handles]
    rfl
  · rcases mem_append.mp hmem with hold | hnewest
    · obtain ⟨hfile, hoff⟩ := hr.opened hd hold
      obtain ⟨hfl, -⟩ := List.getElem?_eq_some_iff.mp hfile
      rw [hother hd.file (by omega), List.getElem?_append_left hfl]
      exact ⟨hfile, hoff⟩
    · obtain rfl := mem_singleton.mp hnewest
      exact ⟨hlast, zero_le _⟩

/-- A file that there is gets one more pair. -/
theorem Refines.addHandle (hr : Refines s t) (hi : t.paths[i]? = some path) :
    Refines ⟨s.fs, s.handles ++ [⟨path, i, 0⟩]⟩ { t with handles := t.handles ++ [(path, 0)] } := by
  refine ⟨hr.count, hr.nodup, hr.used, hr.holds, hr.apart, ?_, fun hd hmem => ?_⟩
  · rw [map_append, ← hr.handles]
    rfl
  · rcases mem_append.mp hmem with hold | hnewest
    · exact hr.opened hd hold
    · obtain rfl := mem_singleton.mp hnewest
      exact ⟨hi, zero_le _⟩

/-- **Opening.** -/
theorem Refines.open (hr : Refines s t) (path : List UInt8) :
    ∃ b s' t', s.call (.open path) = some (b, s') ∧ t.call (.open path) = some (b, t') ∧
      Refines s' t' := by
  unfold RamRun.call MapRun.call Ramfs.openFile MapRun.named
  dsimp only
  by_cases hslash : path.head? = some slash
  swap
  · exact ⟨.opened none, s, t, by rw [if_pos hslash], by simp [hslash], hr⟩
  by_cases hlen : path.length < ramfsPathMax
  swap
  · refine ⟨.opened none, s, t, ?_, by simp [hlen], hr⟩
    rw [if_neg (not_not.mpr hslash), if_pos (not_lt.mp hlen)]
  have hnamed : (decide (path.head? = some slash) && decide (path.length < ramfsPathMax)) = true := by
    rw [decide_eq_true hslash, decide_eq_true hlen]
    rfl
  rw [if_neg (not_not.mpr hslash), if_neg (not_le.mpr hlen), hr.find_path, hr.find_unused, hnamed,
    if_neg (show ¬(!true) = true by decide)]
  by_cases hmem : path ∈ t.paths
  · rw [if_pos hmem, if_pos hmem]
    exact ⟨_, _, _, rfl, rfl, hr.addHandle (getElem?_idxOf hmem)⟩
  rw [if_neg hmem, if_neg hmem]
  by_cases hlt : t.paths.length < ramfsMaxFiles
  · rw [if_pos hlt, if_pos hlt]
    exact ⟨_, _, _, rfl, rfl, hr.newFile hlt hmem hlen⟩
  · rw [if_neg hlt, if_neg hlt]
    exact ⟨_, _, _, rfl, rfl, hr⟩

/-! ### Reading -/

/-- A pair moves on in its file. -/
theorem Refines.setOffset {offset : ℕ} (hr : Refines s t) (hh : s.handles[h]? = some hd)
    (hoff : offset ≤ (s.fs.files hd.file).size) :
    Refines { s with handles := s.handles.set h { hd with offset } }
      { t with handles := t.handles.set h (hd.path, offset) } := by
  refine ⟨hr.count, hr.nodup, hr.used, hr.holds, hr.apart, ?_, fun hd' hmem => ?_⟩
  · rw [hr.handles, map_set]
  · rcases mem_or_eq_of_mem_set hmem with hold | rfl
    · exact hr.opened hd' hold
    · exact ⟨(hr.opened hd (mem_of_getElem? hh)).1, hoff⟩

/-- **Reading.** -/
theorem Refines.read (hr : Refines s t) (h len : ℕ) :
    ∃ b s' t', s.call (.read h len) = some (b, s') ∧ t.call (.read h len) = some (b, t') ∧
      Refines s' t' := by
  unfold RamRun.call MapRun.call
  dsimp only
  rw [hr.handle]
  cases hh : s.handles[h]? with
  | none => exact ⟨_, _, _, rfl, rfl, hr⟩
  | some hd =>
  obtain ⟨hfile, hoff⟩ := hr.opened hd (mem_of_getElem? hh)
  obtain ⟨-, hbytes, -, hsize⟩ := hr.holds _ _ hfile
  -- what the code reads is what the map has there
  have hread : s.fs.read hd.file hd.offset len =
      (((((t.content hd.path).drop hd.offset).take len).length : ℤ),
        ((t.content hd.path).drop hd.offset).take len,
        hd.offset + (((t.content hd.path).drop hd.offset).take len).length) := by
    rw [← hbytes, drop_bytes _ _ hoff, length_take, length_bytes, Ramfs.read]
    dsimp only
    by_cases hz : len = 0
    · simp [hz]
    rw [if_neg hz]
    by_cases hend : hd.offset ≥ (s.fs.files hd.file).size
    · have hnone : (s.fs.files hd.file).size - hd.offset = 0 := by omega
      rw [if_pos hend, hnone]
      simp [ByteMem.bytes]
    rw [if_neg hend]
    have hmin : (if len > (s.fs.files hd.file).size - hd.offset then
        (s.fs.files hd.file).size - hd.offset else len) =
        min len ((s.fs.files hd.file).size - hd.offset) := by
      split <;> omega
    rw [hmin, Word64.int64_of_lt (by omega), Word64.u64_of_lt (by omega)]
    congr 2
    by_cases hle : len ≤ (s.fs.files hd.file).size - hd.offset
    · rw [take_bytes _ _ hle, min_eq_left hle]
    · rw [take_of_length_le (by rw [length_bytes]; omega), min_eq_right (by omega)]
  have hinside : hd.offset + (((t.content hd.path).drop hd.offset).take len).length ≤
      (s.fs.files hd.file).size := by
    rw [← hbytes, length_take, length_drop, length_bytes]
    omega
  dsimp only [map_some]
  rw [hread]
  exact ⟨_, _, _, rfl, rfl, hr.setOffset hh hinside⟩

/-! ### Writing -/

/-- The loop that looks for a capacity ends with one that is large enough. -/
theorem growLoop_spec {need n cap : ℕ} (hneed : need < 2 ^ 63) (hcap : cap < need + ramfsGrowStep)
    (hfuel : need ≤ cap + ramfsGrowStep * n) :
    ∃ cap', growLoop need (n + 1) cap = some cap' ∧ need ≤ cap' := by
  unfold ramfsGrowStep at hcap hfuel
  induction n generalizing cap with
  | zero =>
    refine ⟨cap, ?_, by omega⟩
    rw [growLoop, if_neg (by omega)]
  | succ n ih =>
    rw [growLoop]
    by_cases hlt : cap < need
    · have hword : u64 (cap + ramfsGrowStep) = cap + 64 := Word64.u64_of_lt (by
        unfold ramfsGrowStep
        omega)
      rw [if_pos hlt, hword]
      exact ih (by omega) (by omega)
    · exact ⟨cap, if_neg hlt, not_lt.mp hlt⟩

theorem newCapacity_spec {capacity need : ℕ} (hneed : need < 2 ^ 63) (hlt : capacity < need) :
    ∃ cap, newCapacity capacity need = some cap ∧ need ≤ cap := by
  unfold newCapacity
  split
  · exact growLoop_spec hneed (by omega) (by unfold ramfsGrowStep; omega)
  · exact growLoop_spec hneed (by unfold ramfsGrowStep; omega) (by unfold ramfsGrowStep; omega)

/-- A write into the block of a file, which leaves the other files alone. -/
theorem Refines.store {file : RamfsFile} {m : ByteMem} {bytes : List UInt8} (hr : Refines s t)
    (hi : t.paths[i]? = some path) (hpath : file.path = path) (hused : file.used = true)
    (hbytes : m.bytes file.data file.size = bytes) (hle : file.size ≤ file.capacity)
    (hlt : file.size < 2 ^ 63) (hgrow : (s.fs.files i).size ≤ file.size)
    (happart : ∀ j < t.paths.length, j ≠ i → file.data + file.capacity ≤ (s.fs.files j).data ∨
      (s.fs.files j).data + (s.fs.files j).capacity ≤ file.data)
    (hother : ∀ x, ¬(file.data ≤ x ∧ x < file.data + file.capacity) → m x = s.fs.mem x) :
    Refines ⟨{ s.fs with mem := m }.setFile i file, s.handles⟩
      { t with content := update t.content path bytes } := by
  obtain ⟨hil, hip⟩ := List.getElem?_eq_some_iff.mp hi
  have hself : ({ s.fs with mem := m }.setFile i file).files i = file := Function.update_self ..
  have hrest : ∀ j, j ≠ i → ({ s.fs with mem := m }.setFile i file).files j = s.fs.files j :=
    fun j hj => update_of_ne hj ..
  refine ⟨hr.count, hr.nodup, fun j hj => ?_, fun j p hp => ?_, fun j k hj hk hjk => ?_, hr.handles,
    fun hd hmem => ?_⟩
  · by_cases hji : j = i
    · rw [hji, hself, hused]
      exact iff_of_true rfl hil
    · rw [hrest j hji]
      exact hr.used j hj
  · by_cases hji : j = i
    · rw [hji, hi] at hp
      obtain rfl := some.inj hp
      constructor
      · rw [hji, hself, hpath]
      · rw [hji, hself]
        exact hbytes.trans (update_self path bytes t.content).symm
      · rwa [hji, hself]
      · rwa [hji, hself]
    · obtain ⟨hjl, hjp⟩ := List.getElem?_eq_some_iff.mp hp
      have hne : p ≠ path := by
        intro heq
        refine hji ((getElem?_inj hjl hr.nodup).mp ?_)
        rw [hp, hi, heq]
      obtain ⟨hjpath, hjbytes, hjle, hjlt⟩ := hr.holds j p hp
      constructor
      · rw [hrest j hji, hjpath]
      · rw [hrest j hji]
        refine Eq.trans ?_ (update_of_ne hne bytes t.content).symm
        refine Eq.trans (bytes_congr fun x hx hx' => hother x ?_) hjbytes
        have := happart j hjl hji
        omega
      · rwa [hrest j hji]
      · rwa [hrest j hji]
  · unfold Ramfs.Apart
    by_cases hji : j = i
    · rw [hji, hself, hrest k (fun h => hjk (hji.trans h.symm))]
      exact happart k hk fun h => hjk (hji.trans h.symm)
    by_cases hki : k = i
    · rw [hki, hself, hrest j hji]
      exact (happart j hj hji).symm
    · rw [hrest j hji, hrest k hki]
      exact hr.apart j k hj hk hjk
  · obtain ⟨hfile, hoff⟩ := hr.opened hd hmem
    refine ⟨hfile, ?_⟩
    by_cases hfi : hd.file = i
    · rw [hfi, hself]
      rw [hfi] at hoff
      omega
    · rwa [hrest _ hfi]

/-- **A larger block** holds what the old one held. -/
theorem Refines.expand {need : ℕ} (hr : Refines s t) (hi : t.paths[i]? = some path)
    (hneed : need < 2 ^ 63) (hfresh : ∀ cap ∈ newCapacity (s.fs.files i).capacity need,
      (s.fs.files i).capacity < need → RamRun.Fresh s.fs block cap) :
    ∃ fs, s.fs.expand i need block = some (0, fs) ∧ Refines ⟨fs, s.handles⟩ t ∧
      need ≤ (fs.files i).capacity ∧ (fs.files i).size = (s.fs.files i).size := by
  rw [Ramfs.expand]
  dsimp only
  by_cases henough : need ≤ (s.fs.files i).capacity
  · exact ⟨s.fs, if_pos henough, hr, henough, rfl⟩
  obtain ⟨cap, hcap, hle⟩ := newCapacity_spec hneed (not_le.mp henough)
  obtain ⟨hblock, hapart⟩ := hfresh cap hcap (not_le.mp henough)
  obtain ⟨hil, -⟩ := List.getElem?_eq_some_iff.mp hi
  have hcount := hr.count
  obtain ⟨hpath, hbytes, hsize, hlt⟩ := hr.holds i path hi
  have hown := hapart i (by omega) ((hr.used i (by omega)).mpr hil)
  -- the old block is not cleared
  have hkept : (s.fs.mem.fill cap block 0).bytes (s.fs.files i).data (s.fs.files i).size =
      t.content path :=
    (bytes_congr fun x hx hx' => if_neg (by omega)).trans hbytes
  have hlen : (t.content path).length = (s.fs.files i).size := by
    rw [← hbytes, length_bytes]
  let file : RamfsFile := { s.fs.files i with data := block, capacity := cap }
  let m := (s.fs.mem.fill cap block 0).blit block (t.content path)
  have hcopied : m.bytes file.data file.size = t.content path := by
    have hself := (s.fs.mem.fill cap block 0).bytes_blit_self block (t.content path)
    rwa [hlen] at hself
  have happart : ∀ j < t.paths.length, j ≠ i → file.data + file.capacity ≤ (s.fs.files j).data ∨
      (s.fs.files j).data + (s.fs.files j).capacity ≤ file.data := by
    intro j hj _
    exact hapart j (by omega) ((hr.used j (by omega)).mpr hj)
  have hother : ∀ x, ¬(file.data ≤ x ∧ x < file.data + file.capacity) → m x = s.fs.mem x := by
    intro x hx
    have hout : ¬(block ≤ x ∧ x < block + (t.content path).length) := by
      rw [hlen]
      intro hin
      exact hx ⟨hin.1, show x < block + cap by omega⟩
    exact ((s.fs.mem.fill cap block 0).blit_apply_of_not_mem hout).trans (if_neg hx)
  have hstore : Refines ⟨{ s.fs with mem := m }.setFile i file, s.handles⟩
      { t with content := update t.content path (t.content path) } :=
    hr.store hi hpath ((hr.used i (by omega)).mpr hil) hcopied
      (show (s.fs.files i).size ≤ cap by omega) hlt le_rfl happart hother
  rw [update_eq_self] at hstore
  have hself : ({ s.fs with mem := m }.setFile i file).files i = file := update_self ..
  refine ⟨{ s.fs with mem := m }.setFile i file, ?_, hstore, ?_, ?_⟩
  · rw [if_neg henough, hcap, bind_eq_bind, bind_some, if_neg hblock, hkept]
    rfl
  · rw [hself]
    exact hle
  · rw [hself]

/-- The bytes of a block after a write into it. -/
theorem bytes_blit_overwrite {a n offset : ℕ} (m : ByteMem) (hoff : offset ≤ n) :
    (m.blit (a + offset) buf).bytes a (max n (offset + buf.length)) =
      overwrite (m.bytes a n) offset buf := by
  have hfront : (m.blit (a + offset) buf).bytes a offset = m.bytes a offset :=
    m.bytes_blit_of_disjoint (.inr le_rfl)
  have hmiddle := m.bytes_blit_self (a + offset) buf
  unfold overwrite
  rw [take_bytes _ _ hoff]
  by_cases hle : offset + buf.length ≤ n
  · obtain ⟨k, rfl⟩ := Nat.exists_eq_add_of_le hle
    have hback : (m.blit (a + offset) buf).bytes (a + (offset + buf.length)) k =
        m.bytes (a + (offset + buf.length)) k := m.bytes_blit_of_disjoint (.inl (by omega))
    rw [max_eq_left hle, drop_bytes _ _ hle, bytes_add, bytes_add, hfront,
      hmiddle, hback, Nat.add_sub_cancel_left]
  · rw [Nat.max_eq_right (by omega), bytes_add, hfront, hmiddle,
      drop_eq_nil_of_le (by rw [length_bytes]; omega), append_nil]

/-- **Writing.** -/
theorem Refines.write (hr : Refines s t) (hfair : s.Fair (.write h buf block)) :
    ∃ b s' t', s.call (.write h buf block) = some (b, s') ∧ t.call (.write h buf block) = some (b, t') ∧
      Refines s' t' := by
  unfold RamRun.call MapRun.call
  dsimp only
  rw [hr.handle]
  cases hh : s.handles[h]? with
  | none => exact ⟨_, _, _, rfl, rfl, hr⟩
  | some hd =>
  obtain ⟨hlt, hfresh⟩ := hfair hd hh
  obtain ⟨hfile, hoff⟩ := hr.opened hd (mem_of_getElem? hh)
  dsimp only [map_some]
  rw [Ramfs.write]
  by_cases hnone : buf.length = 0
  · obtain rfl := length_eq_zero_iff.mp hnone
    have hsame : overwrite (t.content hd.path) hd.offset [] = t.content hd.path := by
      simp [overwrite]
    rw [hsame, update_eq_self]
    exact ⟨_, _, _, rfl, rfl, hr.setOffset hh hoff⟩
  have hstop : u64 (hd.offset + buf.length) = hd.offset + buf.length := Word64.u64_of_lt (by omega)
  obtain ⟨fs, hexpand, hr₁, hcap, hsize⟩ := hr.expand hfile hlt hfresh
  obtain ⟨hil, -⟩ := List.getElem?_eq_some_iff.mp hfile
  have hcount := hr.count
  obtain ⟨hpath, hbytes, hle, hsmall⟩ := hr₁.holds _ _ hfile
  -- the write stays inside the block
  let file : RamfsFile :=
    { fs.files hd.file with size := max (fs.files hd.file).size (hd.offset + buf.length) }
  let m := fs.mem.blit ((fs.files hd.file).data + hd.offset) buf
  have hwritten : m.bytes file.data file.size = overwrite (t.content hd.path) hd.offset buf := by
    rw [← hbytes]
    exact bytes_blit_overwrite fs.mem (hsize ▸ hoff)
  have hother : ∀ x, ¬(file.data ≤ x ∧ x < file.data + file.capacity) → m x = fs.mem x := by
    intro x hx
    refine fs.mem.blit_apply_of_not_mem fun hin => hx ⟨?_, ?_⟩
    · exact le_trans (le_add_right _ _) hin.1
    · show x < (fs.files hd.file).data + (fs.files hd.file).capacity
      omega
  have hstore : Refines ⟨{ fs with mem := m }.setFile hd.file file, s.handles⟩
      { t with
        content := update t.content hd.path (overwrite (t.content hd.path) hd.offset buf) } :=
    hr₁.store hfile hpath ((hr₁.used _ (by omega)).mpr hil) hwritten (max_le hle hcap)
      (max_lt hsmall hlt) (le_max_left _ _)
      (fun j hj hne => hr₁.apart _ j hil hj (Ne.symm hne)) hother
  have hself : ({ fs with mem := m }.setFile hd.file file).files hd.file = file :=
    update_self ..
  have hmax : (if hd.offset + buf.length > (fs.files hd.file).size then hd.offset + buf.length
      else (fs.files hd.file).size) = max (fs.files hd.file).size (hd.offset + buf.length) := by
    split <;> omega
  refine ⟨.wrote buf.length, ?_⟩
  refine ⟨⟨{ fs with mem := m }.setFile hd.file file,
    s.handles.set h { hd with offset := hd.offset + buf.length }⟩, _, ?_, rfl, ?_⟩
  · rw [if_neg hnone, hstop, if_neg (by omega), hexpand, bind_eq_bind, bind_some]
    dsimp only
    rw [if_neg (by decide), hmax, Word64.int64_of_lt (by omega)]
    rfl
  · refine hstore.setOffset hh ?_
    rw [hself]
    exact le_max_right _ _

/-! ### Runs -/

theorem Refines.call (hr : Refines s t) {c : RamCall} (hfair : s.Fair c) :
    ∃ b s' t', s.call c = some (b, s') ∧ t.call c = some (b, t') ∧ Refines s' t' := by
  cases c with
  | «open» path => exact hr.open path
  | read h len => exact hr.read h len
  | write h buf block => exact hr.write hfair

/-- **The files are a map from paths to bytes.**  Every sequence of calls, through any number of pairs
of a file and an offset, is answered as the map answers it.  Pairs have the same file if their paths
are equal and only then, there are at most 32 files, and no size exceeds a capacity. -/
theorem ramfs_refines_map (m : ByteMem) (calls : List RamCall)
    (h : Meets RamRun.call RamRun.Fair (RamRun.blank m) calls) :
    ∃ results s t, answers RamRun.call (RamRun.blank m) calls = some (results, s) ∧
      answers MapRun.call MapRun.blank calls = some (results, t) ∧ Refines s t ∧
      (∀ hd ∈ s.handles, ∀ hd' ∈ s.handles, hd.file = hd'.file ↔ hd.path = hd'.path) ∧
      t.paths.length ≤ ramfsMaxFiles ∧
      ∀ i < ramfsMaxFiles, (s.fs.files i).used = true →
        (s.fs.files i).size ≤ (s.fs.files i).capacity := by
  have hstep : ∀ (s : RamRun) (t : MapRun) (c : RamCall), Refines s t → s.Fair c → ∃ b s' t',
      s.call c = some (b, s') ∧ t.call c = some (b, t') ∧ Refines s' t' :=
    fun s t c hr hfair => hr.call hfair
  obtain ⟨results, s, t, hs, ht, hr⟩ := answers_simulates hstep (refines_blank m) h
  refine ⟨results, s, t, hs, ht, hr, fun hd hmem hd' hmem' => hr.same_file hmem hmem', hr.count,
    fun i hi hused => ?_⟩
  have hil := (hr.used i hi).mp hused
  exact (hr.holds i _ (getElem?_eq_getElem hil)).size_le

/-- Two pairs for one file: what is written through the one is read through the other, also after the
file has moved to a larger block. -/
def sampleCalls : List RamCall :=
  [.open [slash, 97], .write 0 [1, 2, 3] 0x1000, .open [slash, 97], .read 1 2,
    .write 0 (List.replicate 70 4) 0x2000, .read 1 100]

theorem ramfs_refines_map_sample :
    Meets RamRun.call RamRun.Fair (RamRun.blank fun _ => 0) sampleCalls ∧
    ∃ results s t, answers RamRun.call (RamRun.blank fun _ => 0) sampleCalls = some (results, s) ∧
      answers MapRun.call MapRun.blank sampleCalls = some (results, t) ∧ Refines s t := by
  have hmeets : Meets RamRun.call RamRun.Fair (RamRun.blank fun _ => 0) sampleCalls := by
    decide +kernel
  obtain ⟨results, s, t, hs, ht, hr, -⟩ := ramfs_refines_map (fun _ => 0) sampleCalls hmeets
  exact ⟨hmeets, results, s, t, hs, ht, hr⟩

end Neptune
