import Neptune.Fat.Content

/-!
# What `fat_write` accounts for

A write returns how many bytes it has written; the offset, the sizes and what a reader sees should
agree with that.  They do not where the volume fills up half way: then the number is returned, but
neither the offset nor the sizes have changed.  A handle that is out of date can do harm too.

## Main definitions

* `Geometry.Accounts` — offset, sizes and contents agree with what is returned.
* `Geometry.Accountable` — the condition.

## Main results

* `fatWrite_accounts_iff` — it is the condition.
-/

namespace Neptune

open List

namespace Geometry

variable {g : Geometry} {m m' : ByteMem} {s d offset : ℕ} {l : List ℕ} {loc : DirLoc}
  {file : FatFile} {path data : List UInt8}

/-- Whatever number a write returns, the offset has advanced by it, the size of the handle and that
in the directory entry reach up to there, and a reader who opens the file anew gets the bytes. -/
def Accounts (g : Geometry) (m : ByteMem) (path : List UInt8) (file : FatFile) (offset : ℕ)
    (data : List UInt8) : Prop :=
  ∀ n file' offset' m', (g.fatWrite file offset data).run (.ok m) =
      some ((some n, file', offset'), .ok m') →
    offset' = offset + n ∧ offset + n ≤ file'.size ∧
    offset + n ≤ entSize (DirLoc.entry ⟨file.dirSector, file.dirOffset⟩ m') ∧
    ∃ fresh o, (g.fatOpen path).run (.ok m') = some (some fresh, .ok m') ∧
      (g.fatRead fresh offset n).run (.ok m') = some ((some (data.take n), o), .ok m')

/-- There is room for the whole write, its end fits into 32 bits, and if the handle is out of date
the entry is long enough and its own clusters have the bytes already. -/
structure Roomy (g : Geometry) (m : ByteMem) (file : FatFile) (loc : DirLoc) (offset : ℕ)
    (data : List UInt8) : Prop where
  fits : offset + data.length ≤ g.room m file
  grows : file.size < offset + data.length → offset + data.length < 2 ^ 32
  size : offset + data.length ≤ file.size → offset + data.length ≤ entSize (loc.entry m)
  start : file.startCluster ≠ 0 → file.startCluster ≠ entStart (loc.entry m) →
    ((g.chainData m (g.fileClusters m (entStart (loc.entry m)))).drop offset).take data.length = data

/-- The write is refused, or there is nothing to write, or no room for its first byte, or room for
all of it. -/
def Accountable (g : Geometry) (m : ByteMem) (file : FatFile) (offset : ℕ) (data : List UInt8) : Prop :=
  file.attr &&& 0x01 ≠ 0 ∨
  data = [] ∧ offset ≤ entSize (DirLoc.entry ⟨file.dirSector, file.dirOffset⟩ m) ∨
  data ≠ [] ∧ (2 ^ 64 ≤ offset + data.length ∨ g.room m file ≤ offset ∨
    g.Roomy m file ⟨file.dirSector, file.dirOffset⟩ offset data)

/-- A reader who opens the file anew. -/
theorem WriteEffect.run_fatRead {l' : List ℕ} (heff : g.WriteEffect m m' file d loc s l')
    (offset len : ℕ) :
    ∃ o, (g.fatRead (entFile loc (loc.entry m')) offset len).run (.ok m') =
      some ((some ((((g.chainData m' (g.fileClusters m' (entStart (loc.entry m')))).take
        (entSize (loc.entry m'))).drop offset).take len), o), .ok m') :=
  heff.wf.run_fatRead (entFile loc (loc.entry m'))
    (fun hne => (heff.wf.heads d loc heff.handle.entry hne).1) offset len

/-- What that reader gets is what has been written, if the handle's start cluster was up to date;
otherwise it is what has been there before. -/
theorem WriteDone.slice {l' : List ℕ} (h : g.WellFormed m) (hh : g.Handle m file d loc)
    (heff : g.WriteEffect m m' file d loc s l') (hdone : g.WriteDone m m' file loc offset data l')
    (hsize : offset + data.length ≤ entSize (loc.entry m')) :
    (((g.chainData m' (g.fileClusters m' (entStart (loc.entry m')))).take
        (entSize (loc.entry m'))).drop offset).take data.length =
      if file.startCluster = 0 ∨ file.startCluster = entStart (loc.entry m) then data
      else ((g.chainData m (g.fileClusters m (entStart (loc.entry m)))).drop offset).take
        data.length := by
  obtain ⟨old, hpatch, hlen, -⟩ := hdone.data
  have hfits := hdone.fits
  by_cases hcur : file.startCluster = 0 ∨ file.startCluster = entStart (loc.entry m)
  · have hstart : entStart (loc.entry m') = s := by
      rw [heff.storedStart]
      split
      · rfl
      · next hne => exact (hcur.resolve_left hne).symm.trans (heff.start hne).symm
    rw [if_pos hcur, hstart, h.regular.fileClusters_of_chain heff.chain, hpatch,
      slice_patch (by omega) hsize]
  · obtain ⟨hne, hother⟩ := not_or.mp hcur
    have hstart : entStart (loc.entry m') = entStart (loc.entry m) := by rw [heff.storedStart, if_neg hne]
    rw [if_neg hcur, hstart, drop_take, take_take, min_eq_left (by omega)]
    by_cases hzero : entStart (loc.entry m) = 0
    · rw [fileClusters, fileClusters, if_pos hzero, if_pos hzero]
      rfl
    · obtain ⟨hused, hhead⟩ := h.heads d loc hh.entry hzero
      obtain ⟨l, hl⟩ := h.table.ends _ hused
      have hns : entStart (loc.entry m) ≠ s := fun he => hother ((heff.start hne).symm.trans he.symm)
      rw [h.regular.fileClusters_of_chain hl,
        h.regular.fileClusters_of_chain (heff.edits.chains _ l hl hhead hns),
        heff.edits.data _ l hl hhead hns (h.file_not_dir hh.entry hh.isFile hzero)]

theorem accounts_of_none {p : FatFile × ℕ}
    (hrun : (g.fatWrite file offset data).run (.ok m) = some ((none, p), .ok m')) :
    g.Accounts m path file offset data := by
  intro n file' offset' m'' h
  rw [hrun] at h
  simp at h

theorem accounts_iff_of_some {n offset' : ℕ} {file' : FatFile}
    (hrun : (g.fatWrite file offset data).run (.ok m) = some ((some n, file', offset'), .ok m')) :
    g.Accounts m path file offset data ↔ offset' = offset + n ∧ offset + n ≤ file'.size ∧
      offset + n ≤ entSize (DirLoc.entry ⟨file.dirSector, file.dirOffset⟩ m') ∧
      ∃ fresh o, (g.fatOpen path).run (.ok m') = some (some fresh, .ok m') ∧
        (g.fatRead fresh offset n).run (.ok m') = some ((some (data.take n), o), .ok m') := by
  constructor
  · intro h
    exact h n file' offset' m' hrun
  · intro h n₁ file₁ offset₁ m₁ hrun₁
    rw [hrun] at hrun₁
    simp only [Option.some.injEq, Prod.mk.injEq, Disk.ok, Disk.mk.injEq, and_true] at hrun₁
    obtain ⟨⟨rfl, rfl, rfl⟩, rfl⟩ := hrun₁
    exact h

/-- A write for which there is room is accounted for if the rest of the condition holds. -/
theorem WriteDone.accounts_iff {l' : List ℕ} {d' : ℕ} (h : g.WellFormed m)
    (hh : g.Handle m file d loc) (heff : g.WriteEffect m m' file d loc s l')
    (hdone : g.WriteDone m m' file loc offset data l') (hroom : offset + data.length ≤ g.room m file)
    (hres : g.resolve m false (traverseParts path) 0 = some (d', loc))
    (hrun : (g.fatWrite file offset data).run (.ok m) =
      some ((some data.length, writtenFile file s (offset + data.length), offset + data.length),
        .ok m')) :
    g.Accounts m path file offset data ↔ g.Roomy m file loc offset data := by
  have hplace : (⟨file.dirSector, file.dirOffset⟩ : DirLoc) = loc := by rw [hh.sector, hh.offset]
  have hopen := heff.edits.run_fatOpen heff.wf hres
  obtain ⟨o, hread⟩ := heff.run_fatRead offset data.length
  have hfileSize : (writtenFile file s (offset + data.length)).size =
      if file.size < offset + data.length then (offset + data.length) % 2 ^ 32 else file.size := by
    rw [writtenFile]
    split <;> rfl
  have hmod := Nat.mod_le (offset + data.length) (2 ^ 32)
  have hmod' := Nat.mod_lt (offset + data.length) (by decide : 2 ^ 32 > 0)
  rw [accounts_iff_of_some hrun, hplace, hfileSize, take_length]
  constructor
  · rintro ⟨-, hsize, hsize', fresh, o', hopen', hread'⟩
    rw [hopen] at hopen'
    obtain rfl := Option.some.inj (Prod.mk.inj (Option.some.inj hopen')).1
    rw [hread, hdone.slice h hh heff hsize'] at hread'
    have hdata := Option.some.inj (Prod.mk.inj (Prod.mk.inj (Option.some.inj hread')).1).1
    rw [hdone.storedSize] at hsize'
    refine ⟨hroom, fun hlt => ?_, fun hle => ?_, fun hne hother => ?_⟩
    · rw [if_pos hlt] at hsize
      omega
    · rwa [if_neg (by omega)] at hsize'
    · rwa [if_neg (by simp [hne, hother])] at hdata
  · intro hroomy
    have hsize : offset + data.length ≤ entSize (loc.entry m') := by
      rw [hdone.storedSize]
      split
      · next hlt => exact (Nat.mod_eq_of_lt (hroomy.grows hlt)).ge
      · next hle => exact hroomy.size (by omega)
    refine ⟨rfl, ?_, hsize, _, o, hopen, ?_⟩
    · split
      · next hlt => exact (Nat.mod_eq_of_lt (hroomy.grows hlt)).ge
      · omega
    · rw [hread, hdone.slice h hh heff hsize]
      split
      · rfl
      · next hcur =>
        obtain ⟨hne, hother⟩ := not_or.mp hcur
        rw [hroomy.start hne hother]

/-- **What a write returns is accounted for** exactly if it is refused, or there is nothing to write,
or the volume has no room for its first byte, or it has room for all of it and the handle is not
misleadingly out of date. -/
theorem fatWrite_accounts_iff (h : g.WellFormed m) (hh : g.Handle m file d loc) {opened : FatFile}
    (hopen : (g.fatOpen path).run (.ok m) = some (some opened, .ok m))
    (hsector : opened.dirSector = file.dirSector) (hplace : opened.dirOffset = file.dirOffset)
    (hoff : offset ≤ file.size) :
    g.Accounts m path file offset data ↔ g.Accountable m file offset data := by
  obtain ⟨d', loc', hres, hloc', -, rfl⟩ := h.fatOpen_some hopen
  have hsame : (⟨file.dirSector, file.dirOffset⟩ : DirLoc) = loc := by rw [hh.sector, hh.offset]
  obtain rfl : loc' = loc := by
    rw [← hsame, ← hsector, ← hplace]
    rfl
  rw [Accountable, hsame]
  by_cases hro : file.attr &&& 0x01 ≠ 0
  · exact iff_of_true (accounts_of_none (run_fatWrite_refused (.inr (.inl hro)) _)) (.inl hro)
  rw [or_iff_right hro]
  rw [not_not] at hro
  by_cases hdata : data = []
  · subst hdata
    rw [accounts_iff_of_some (run_fatWrite_nil hh.notDir hro _), hsame]
    obtain ⟨o, hread⟩ := h.run_fatRead (entFile loc' (loc'.entry m))
      (fun hne => (h.heads d loc' hh.entry hne).1) offset 0
    simp only [Nat.add_zero, true_and, ne_eq, not_true_eq_false, false_and, or_false]
    refine ⟨fun hacc => hacc.2.1, fun hle => ⟨hoff, hle, _, o, hopen, ?_⟩⟩
    rw [hread, take_zero]
    rfl
  rw [or_iff_right (fun h => hdata h.1), and_iff_right hdata]
  by_cases hwrap : 2 ^ 64 ≤ offset + data.length
  · exact iff_of_true (accounts_of_none (run_fatWrite_refused (.inr (.inr ⟨hdata, hwrap⟩)) _))
      (.inl hwrap)
  rw [or_iff_right hwrap]
  have hpos := length_pos_iff.mpr hdata
  rcases fatWrite_spec h hh hro hdata (not_le.mp hwrap) with
    ⟨hzero, hfull, hrun⟩ | ⟨m', s, l', heff, -, ⟨hle, hrun⟩ | ⟨hlt, hlt', hrun⟩ | ⟨hle, hrun, hdone⟩⟩
  · refine iff_of_true (accounts_of_none hrun) (.inl ?_)
    rw [room, hfull, fileClusters, if_pos hzero, length_nil, Nat.zero_mul]
    exact Nat.zero_le offset
  · exact iff_of_true (accounts_of_none hrun) (.inl hle)
  · -- cut short: the offset has not moved
    refine iff_of_false (fun hacc => ?_) fun hcond => ?_
    · have := ((accounts_iff_of_some hrun).mp hacc).1
      omega
    · rcases hcond with hle | hroomy
      · omega
      · have := hroomy.fits
        omega
  · rw [or_iff_right (by omega), hdone.accounts_iff h hh heff hle hres hrun]

theorem fatWrite_accounts_iff_sample :
    sample.Accounts (sampleFile 0xFF 2 0) [0x41] ⟨2, 0, 33, 0, false, 0x20⟩ 0 [0x42] := by
  have hfile : (0xFF : UInt8) = 0 ∧ 2 = 0 ∨ (0xFF : UInt8) = 0xFF ∧ sample.InRange 2 :=
    .inr ⟨rfl, by decide⟩
  refine (fatWrite_accounts_iff (wellFormed_sampleFile hfile) (handle_sampleFile 2 0 hfile (by decide))
    (run_fatOpen_sampleFile hfile (by decide)) rfl rfl le_rfl).mpr
    (.inr (.inr ⟨by simp, .inr (.inr ⟨?_, fun _ => by simp, fun hle => ?_, fun _ hne => ?_⟩)⟩))
  · rw [room_sampleFile]
    simp
  · simp at hle
  · rw [entry_sampleFile, entStart_newEntry rfl] at hne
    exact absurd rfl hne

/-- **A write that is cut short.**  The volume is full and the file "A" has one cluster: of 513 bytes
512 are written and returned, but the offset and the size stay 0. -/
theorem fatWrite_short_unaccounted :
    sample.WellFormed (sampleFile 0xFF 2 0) ∧
    (sample.fatOpen [0x41]).run (.ok (sampleFile 0xFF 2 0)) =
      some (some ⟨2, 0, 33, 0, false, 0x20⟩, .ok (sampleFile 0xFF 2 0)) ∧
    (∃ m', (sample.fatWrite ⟨2, 0, 33, 0, false, 0x20⟩ 0 (List.replicate 513 0x42)).run
        (.ok (sampleFile 0xFF 2 0)) = some ((some 512, ⟨2, 0, 33, 0, false, 0x20⟩, 0), .ok m')) ∧
    ¬sample.Accounts (sampleFile 0xFF 2 0) [0x41] ⟨2, 0, 33, 0, false, 0x20⟩ 0
      (List.replicate 513 0x42) := by
  have hfile : (0xFF : UInt8) = 0 ∧ 2 = 0 ∨ (0xFF : UInt8) = 0xFF ∧ sample.InRange 2 :=
    .inr ⟨rfl, by decide⟩
  have hwf : sample.WellFormed (sampleFile 0xFF 2 0) := wellFormed_sampleFile hfile
  have hroom := room_sampleFile 0
  have hlen : (List.replicate 513 (0x42 : UInt8)).length = 513 := length_replicate
  have hrun : ∃ m', (sample.fatWrite ⟨2, 0, 33, 0, false, 0x20⟩ 0 (List.replicate 513 0x42)).run
      (.ok (sampleFile 0xFF 2 0)) = some ((some 512, ⟨2, 0, 33, 0, false, 0x20⟩, 0), .ok m') := by
    rcases fatWrite_spec hwf (handle_sampleFile 2 0 hfile (by decide)) (by decide)
        (ne_nil_of_length_pos (by omega))
        (show 0 + (List.replicate 513 (0x42 : UInt8)).length < 2 ^ 64 by omega) with
      ⟨hzero, -, -⟩ | ⟨m', s, l', heff, -, ⟨hle, -⟩ | ⟨-, -, hrun⟩ | ⟨hle, -, -⟩⟩
    · cases hzero
    · omega
    · rw [hroom, heff.start (by decide)] at hrun
      exact ⟨m', hrun⟩
    · omega
  refine ⟨hwf, run_fatOpen_sampleFile hfile (by decide), hrun, fun hacc => ?_⟩
  obtain ⟨m', hrun⟩ := hrun
  have := (hacc _ _ _ m' hrun).1
  omega

end Geometry

end Neptune
