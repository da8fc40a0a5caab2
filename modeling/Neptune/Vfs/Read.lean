import Neptune.Fat.Content
import Neptune.Ipc.Pipe
import Neptune.Ramfs.Refine
import Neptune.Vfs.Route

/-!
# Reading files

`vfs_read` over all backends, and the program `cat`, which reads 64 bytes at a time until nothing is
left.  A read of a pipe that has to wait yields, and `cat` then asks again.

## Main definitions

* `vfsRead`, `catLoop` — `vfs_read` and the loop of `cat`.
* `VfsHolds` — what a file holds.

## Main results

* `cat_prints` — `cat` prints what the file holds, once and in full, whatever file system it is on.
-/

namespace Neptune

open ByteMem List
open Word64 (u64 int64)

/-- `enum vfs_backend`, with what each keeps in `struct vfs_file`. -/
inductive VfsBackend
  | memfs (file : ℕ)
  | ramfs (file : ℕ)
  | list (path : List UInt8)
  | fat (file : FatFile)
  | pipe (p : ℕ)

structure VfsFile where
  backend : VfsBackend
  offset : ℕ

/-- What is read besides the disk: the data of `memfs_files`, `ramfs_files` and the pipes. -/
structure VfsState where
  images : ℕ → List UInt8
  ram : Ramfs
  pipes : ℕ → Pipe

/-- `memfs_read`; the listings are read the same way. -/
def memfsRead (data : List UInt8) (offset len : ℕ) : List UInt8 :=
  if offset ≥ data.length then []
  else (data.drop offset).take (if len > data.length - offset then data.length - offset else len)

/-- The loop of `memfs_list`, with what is written so far. -/
def memfsList (len : ℕ) : List (List UInt8) → List UInt8 → List UInt8
  | [], written => written
  | path :: paths, written =>
    let written := appendStr len written path
    if written.length + 1 ≥ len then written else memfsList len paths (written ++ [newline])

/-- The listing that `vfs_read` makes, in a buffer of 4096 bytes. -/
def Geometry.listing (g : Geometry) (path : List UInt8) : DiskM (List UInt8) :=
  if path ≠ [] ∧ startsWith path (ascii "/disk") = true then
    let fatPath := path.drop 5
    g.fatListDir (if fatPath.head? = some slash then fatPath.tail else fatPath) 4096
  else return memfsList 4096 memfsPaths []

/-- `vfs_read`: what it returns, or `none` where it yields, the bytes, and the file afterwards. -/
def vfsRead (g : Geometry) (s : VfsState) (file : VfsFile) (len : ℕ) :
    DiskM (Option ℤ × List UInt8 × VfsFile × VfsState) :=
  let moved (read : List UInt8) : Option ℤ × List UInt8 × VfsFile × VfsState :=
    (some (int64 read.length), read, { file with offset := u64 (file.offset + read.length) }, s)
  if len = 0 then return (some 0, [], file, s)
  else match file.backend with
  | .memfs i => return moved (memfsRead (s.images i) file.offset len)
  | .ramfs i =>
    let (r, bytes, offset) := s.ram.read i file.offset len
    return (some r, bytes, { file with offset }, s)
  | .list path => do
    let listing ← g.listing path
    return moved (memfsRead listing file.offset len)
  | .fat f => do
    let (copied, offset) ← g.fatRead f file.offset len
    match copied with
    | none => return (some syscallEio, [], { file with offset }, s)
    | some bytes => return (some (int64 bytes.length), bytes, { file with offset }, s)
  | .pipe i =>
    let (p, got, ret) := (s.pipes i).readSegment len
    return (ret, got, file, { s with pipes := Function.update s.pipes i p })

/-- The loop of `cat`: what it has written to the standard output in the end. -/
def catLoop (g : Geometry) : ℕ → VfsState → VfsFile → List UInt8 → DiskM (List UInt8)
  | 0, _, _, _ => fun _ => none
  | fuel + 1, s, file, out => do
    match ← vfsRead g s file 64 with
    | (none, _, file, s) => catLoop g fuel s file out
    | (some r, bytes, file, s) => if r ≤ 0 then return out else catLoop g fuel s file (out ++ bytes)

section

variable (g : Geometry) (m : ByteMem) (s : VfsState)

/-- What a file holds. -/
def VfsHolds : VfsBackend → List UInt8 → Prop
  | .memfs i, bytes => s.images i = bytes ∧ bytes.length < 2 ^ 63
  | .ramfs i, bytes => ∃ path, s.ram.Holds i path bytes
  | .list path, bytes => (g.listing path).run (.ok m) = some (bytes, .ok m) ∧ bytes.length < 2 ^ 63
  | .fat f, bytes => g.WellFormed m ∧
      ∃ d loc, g.HasEntry m d loc ∧ f = entFile loc (loc.entry m) ∧ bytes = g.content m loc
  | .pipe _, _ => False

/-- Every read returns the bytes behind the offset, and moves it behind them. -/
def Slices (b : VfsBackend) (bytes : List UInt8) : Prop :=
  ∀ off ≤ bytes.length, ∀ len, 0 < len → (vfsRead g s ⟨b, off⟩ len).run (.ok m) =
    some ((some (((bytes.drop off).take len).length : ℤ), (bytes.drop off).take len,
      ⟨b, off + ((bytes.drop off).take len).length⟩, s), .ok m)

variable {g m s} {b : VfsBackend} {bytes : List UInt8}

theorem memfsRead_eq (off len : ℕ) : memfsRead bytes off len = (bytes.drop off).take len := by
  rw [memfsRead]
  split
  · next h => rw [drop_of_length_le h, take_nil]
  · split
    · rw [take_of_length_le (by simp), take_of_length_le (by simp; omega)]
    · rfl

theorem length_slice_le {off : ℕ} (hoff : off ≤ bytes.length) (len : ℕ) :
    off + ((bytes.drop off).take len).length ≤ bytes.length := by
  simp
  omega

/-- `ramfs_read` copies as `memfs_read` does. -/
theorem Ramfs.Holds.read {fs : Ramfs} {i off len : ℕ} {path : List UInt8} (h : fs.Holds i path bytes)
    (hoff : off ≤ bytes.length) (hlen : 0 < len) :
    fs.read i off len = (int64 (memfsRead bytes off len).length, memfsRead bytes off len,
      u64 (off + (memfsRead bytes off len).length)) := by
  have hsize : bytes.length = (fs.files i).size := by rw [← h.bytes, length_bytes]
  have hlt := h.size_lt
  rw [Ramfs.read, if_neg hlen.ne', memfsRead, hsize]
  split
  · rw [length_nil, Nat.add_zero, Word64.u64_of_lt (by omega), Word64.int64_of_lt (by omega)]
    rfl
  · dsimp only
    generalize hk : (if len > (fs.files i).size - off then _ else len) = k
    have hle : k ≤ (fs.files i).size - off := by split at hk <;> omega
    rw [← h.bytes, drop_bytes _ _ (by omega), take_bytes _ _ hle, length_bytes]

theorem slices_fat (h : g.WellFormed m) {d : ℕ} {loc : DirLoc} (hloc : g.HasEntry m d loc) :
    Slices g m s (.fat (entFile loc (loc.entry m))) (g.content m loc) := by
  intro off hoff len hlen
  have hread : (g.fatRead (entFile loc (loc.entry m)) off len).run (.ok m) =
      some ((some (((g.content m loc).drop off).take len),
        off + (((g.content m loc).drop off).take len).length), .ok m) := by
    by_cases hzero : (entFile loc (loc.entry m)).startCluster = 0
    · have hclusters : g.fileClusters m (entStart (loc.entry m)) = [] := if_pos hzero
      have hnone : g.content m loc = [] := by simp [Geometry.content, hclusters]
      rw [Geometry.fatRead, if_pos (Or.inl hzero), hnone]
      simp
    · obtain ⟨l, hl⟩ := h.table.ends _ (h.heads d loc hloc hzero).1
      rw [Geometry.content, h.regular.fileClusters_of_chain hl]
      exact h.regular.run_fatRead_chain hl off len
  have hlt : entSize (loc.entry m) < 2 ^ 32 := loc.entSize_entry m ▸ m.load_lt 4 _
  have hlen' : (((g.content m loc).drop off).take len).length ≤ entSize (loc.entry m) := by
    simp [Geometry.content]
  rw [vfsRead, if_neg hlen.ne']
  dsimp only
  rw [DiskM.run_bind_of hread]
  dsimp only
  rw [Word64.int64_of_lt (by omega)]
  rfl

theorem slices_of_memfsRead (hlt : bytes.length < 2 ^ 63)
    (h : ∀ off ≤ bytes.length, ∀ len, 0 < len → (vfsRead g s ⟨b, off⟩ len).run (.ok m) =
      some ((some (int64 (memfsRead bytes off len).length), memfsRead bytes off len,
        ⟨b, u64 (off + (memfsRead bytes off len).length)⟩, s), .ok m)) : Slices g m s b bytes := by
  intro off hoff len hlen
  have hle := length_slice_le hoff len
  rw [h off hoff len hlen, memfsRead_eq, Word64.int64_of_lt (by omega), Word64.u64_of_lt (by omega)]

/-- Reads of a file return what it holds. -/
theorem VfsHolds.slices (h : VfsHolds g m s b bytes) : Slices g m s b bytes := by
  cases b with
  | memfs i =>
    obtain ⟨rfl, hlt⟩ := h
    refine slices_of_memfsRead hlt fun off _ len hlen => ?_
    rw [vfsRead, if_neg hlen.ne']
    rfl
  | ramfs i =>
    obtain ⟨path, h⟩ := h
    refine slices_of_memfsRead ?_ fun off hoff len hlen => ?_
    · rw [← h.bytes, length_bytes]
      exact h.size_lt
    · simp only [vfsRead, if_neg hlen.ne', h.read hoff hlen]
      rfl
  | list path =>
    obtain ⟨hlist, hlt⟩ := h
    refine slices_of_memfsRead hlt fun off _ len hlen => ?_
    simp only [vfsRead, if_neg hlen.ne', DiskM.run_bind_of hlist]
    rfl
  | fat f =>
    obtain ⟨hwf, d, loc, hloc, rfl, rfl⟩ := h
    exact slices_fat hwf hloc
  | pipe i => exact h.elim

theorem Slices.run_catLoop (h : Slices g m s b bytes) {fuel off : ℕ} (hoff : off ≤ bytes.length)
    (hfuel : bytes.length < off + fuel) (out : List UInt8) :
    (catLoop g fuel s ⟨b, off⟩ out).run (.ok m) = some (out ++ bytes.drop off, .ok m) := by
  induction fuel generalizing off out with
  | zero => omega
  | succ fuel ih =>
    rw [catLoop, DiskM.run_bind_of (h off hoff 64 (by omega))]
    dsimp only
    by_cases hend : bytes.length ≤ off
    · rw [drop_of_length_le hend]
      simp
    · -- the read returns at least one byte, so the rest is shorter
      have hpos : 0 < ((bytes.drop off).take 64).length := by simp; omega
      rw [if_neg (by omega), ih (length_slice_le hoff 64) (by omega), append_assoc]
      congr 3
      rw [← drop_drop]
      exact List.prefix_iff_eq_append.mp (List.take_prefix 64 _)

/-- **`cat` prints the file**: what it writes is what the file holds, on every file system. -/
theorem cat_prints (h : VfsHolds g m s b bytes) {fuel : ℕ} (hfuel : bytes.length < fuel) :
    (catLoop g fuel s ⟨b, 0⟩ []).run (.ok m) = some (bytes, .ok m) := by
  have hrun := h.slices.run_catLoop (Nat.zero_le _) (by omega : bytes.length < 0 + fuel) []
  rwa [drop_zero, nil_append] at hrun

theorem cat_prints_builtin :
    (catLoop .sample 80 ⟨fun _ => [], (RamRun.blank fun _ => 0).fs, fun _ => .allocStruct⟩
      ⟨.list [], 0⟩ []).run (.ok fun _ => 0) =
        some (memfsPaths.flatMap (· ++ [newline]), .ok fun _ => 0) := by
  have hlist : memfsList 4096 memfsPaths [] = memfsPaths.flatMap (· ++ [newline]) := by
    decide +kernel
  refine cat_prints (b := .list []) ⟨?_, by decide⟩ (by decide)
  rw [← hlist]
  rfl

end

end Neptune
