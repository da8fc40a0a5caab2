import Neptune.Fat.Content
import Neptune.Lib.Runs

/-!
# Open files

Any number of open files on one volume, and writes through them in any order; what a file holds of
its start cluster and size may be out of date.

## Main results

* `Geometry.fat_files_keep_volume` — the volume stays well formed, with the same directories.
-/

namespace Neptune
namespace Geometry

/-- One more call, from one volume with its open files to the next. -/
inductive FatStep (g : Geometry) : ByteMem × List FatFile → ByteMem × List FatFile → Prop
  | opens {m : ByteMem} {path : List UInt8} {file : FatFile} (files : List FatFile) :
      (g.fatOpen path).run (.ok m) = some (some file, .ok m) → FatStep g (m, files) (m, files ++ [file])
  | writes {m m' : ByteMem} {i offset : ℕ} {file : FatFile} {data : List UInt8}
      {r : Option ℕ × FatFile × ℕ} {files : List FatFile} : files[i]? = some file →
      (g.fatWrite file offset data).run (.ok m) = some (r, .ok m') →
      FatStep g (m, files) (m', files.set i r.2.1)

variable {g : Geometry} {m m₀ : ByteMem} {files : List FatFile}

/-- A write through a handle keeps the volume and the handle. -/
theorem Handle.write {file : FatFile} {d : ℕ} {loc : DirLoc} (hh : g.Handle m file d loc)
    (h : g.WellFormed m) (offset : ℕ) (data : List UInt8) :
    ∃ r m' s, (g.fatWrite file offset data).run (.ok m) = some (r, .ok m') ∧ g.WellFormed m' ∧
      g.Edits m m' s loc ∧ g.Handle m' r.2.1 d loc := by
  by_cases hgo : file.attr &&& 0x01 = 0 ∧ data ≠ [] ∧ offset + data.length < 2 ^ 64
  · rcases fatWrite_spec h hh hgo.1 hgo.2.1 hgo.2.2 with ⟨-, -, hrun⟩ | ⟨m', s, l', heff, -, hruns⟩
    · exact ⟨_, m, 0, hrun, h, .refl h 0 loc, hh⟩
    · rcases hruns with ⟨-, hrun⟩ | ⟨-, -, hrun⟩ | ⟨-, hrun, -⟩
      · exact ⟨_, m', s, hrun, heff.wf, heff.edits, heff.handle⟩
      · exact ⟨_, m', s, hrun, heff.wf, heff.edits, heff.handle⟩
      · refine ⟨_, m', s, hrun, heff.wf, heff.edits, ?_⟩
        dsimp only [writtenFile]
        split
        · exact { heff.handle with }
        · exact heff.handle
  · obtain ⟨r, hrun⟩ := run_fatWrite_idle (g := g) hh.notDir hgo (.ok m)
    exact ⟨_, m, 0, hrun, h, .refl h 0 loc, hh⟩

/-- **Open files keep the volume.**  After any calls of `fat_open` and `fat_write` on a well-formed
volume, through any of the open files and in any order, it is well formed, its directories have the
same entries, and the next write through any of the files returns. -/
theorem fat_files_keep_volume (h : g.WellFormed m₀)
    (hr : Reach (· = (m₀, [])) (FatStep g) (m, files)) :
    g.WellFormed m ∧ g.SameTree m₀ m ∧ ∀ file ∈ files, ∀ offset data,
      ((g.fatWrite file offset data).run (.ok m)).isSome := by
  have hinv : ∀ v, Reach (· = (m₀, [])) (FatStep g) v → g.WellFormed v.1 ∧ g.SameTree m₀ v.1 ∧
      ∀ file ∈ v.2, ∃ d loc, g.Handle v.1 file d loc := by
    intro v hv
    induction hv with
    | init hv => exact hv ▸ ⟨h, (Edits.refl h 0 ⟨0, 0⟩).tree, by simp⟩
    | step _ hstep ih =>
      obtain ⟨hwf, htree, hfiles⟩ := ih
      cases hstep with
      | opens _ hopen =>
        obtain ⟨d, loc, -, hloc, hkind, rfl⟩ := hwf.fatOpen_some hopen
        refine ⟨hwf, htree, List.forall_mem_append.mpr ⟨hfiles, ?_⟩⟩
        exact List.forall_mem_singleton.mpr ⟨d, loc, hwf.handle hloc hkind⟩
      | writes hi hrun =>
        obtain ⟨d, loc, hh⟩ := hfiles _ (List.mem_of_getElem? hi)
        obtain ⟨r, m', s, hrun', hwf', hedits, hh'⟩ := hh.write hwf _ _
        obtain ⟨rfl, hm⟩ := Prod.mk.inj (Option.some.inj (hrun'.symm.trans hrun))
        obtain rfl := congrArg Disk.mem hm
        refine ⟨hwf', htree.trans hedits.tree, fun file hfile => ?_⟩
        rcases List.mem_or_eq_of_mem_set hfile with hfile | rfl
        · obtain ⟨d', loc', hf⟩ := hfiles file hfile
          exact ⟨d', loc', hedits.handle hf⟩
        · exact ⟨d, loc, hh'⟩
  obtain ⟨hwf, htree, hfiles⟩ := hinv _ hr
  refine ⟨hwf, htree, fun file hfile offset data => ?_⟩
  obtain ⟨d, loc, hh⟩ := hfiles file hfile
  obtain ⟨r, m', -, hrun, -⟩ := hh.write hwf offset data
  rw [hrun]
  rfl

theorem fat_files_keep_volume_sample : ∃ m file,
    Reach (· = (sampleFile 0 0 0, [])) (FatStep sample) (m, [file]) ∧ sample.WellFormed m := by
  have hwf : sample.WellFormed (sampleFile 0 0 0) := wellFormed_sampleFile (.inl ⟨rfl, rfl⟩)
  have hhandle := handle_sampleFile 0 0 (.inl ⟨rfl, rfl⟩) (by decide)
  obtain ⟨r, m, -, hrun, -⟩ := hhandle.write hwf 0 [0x42]
  have hopen : FatStep sample _ (_, [⟨0, 0, 33, 0, false, 0x20⟩]) :=
    .opens [] (run_fatOpen_sampleFile (.inl ⟨rfl, rfl⟩) (by decide))
  have hwrite : FatStep sample (_, [⟨0, 0, 33, 0, false, 0x20⟩]) (m, [r.2.1]) :=
    .writes (i := 0) rfl hrun
  have hr : Reach (· = (_, [])) (FatStep sample) (m, [r.2.1]) :=
    .step (.step (.init rfl) hopen) hwrite
  exact ⟨m, _, hr, (fat_files_keep_volume hwf hr).1⟩

end Geometry

end Neptune
