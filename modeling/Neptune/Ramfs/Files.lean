import Neptune.Lib.Simulation
import Neptune.Lib.Word64
import Neptune.Syscall.Normalize
import Neptune.Vfs.Memfs

/-!
# Files in memory

`ramfs.c`: a table of 32 files with their contents in blocks of the heap.  A write past the end of a
block gets a new one, which is larger by multiples of 64 bytes, clears it and copies the old contents.
Opening a path that there is no file for makes one; files are never removed.

The block that `kalloc` returns is an argument of the calls that may ask for one, and 0 if there is
none.  Callers hold a file and an offset, and pass both to every read and write.

## Main definitions

* `Ramfs.openFile`, `Ramfs.expand`, `Ramfs.read`, `Ramfs.write` — the calls.
* `RamRun`, `RamRun.call` — the files with all pairs of a file and an offset that there are.
-/

namespace Neptune

open Word64 (u64 int64)

/-- `RAMFS_MAX_FILES`. -/
def ramfsMaxFiles : ℕ := 32

/-- `RAMFS_PATH_MAX`. -/
def ramfsPathMax : ℕ := 64

/-- `RAMFS_GROW_STEP`. -/
def ramfsGrowStep : ℕ := 64

/-- `struct ramfs_file`, with the bytes of its path before the NUL. -/
structure RamfsFile where
  path : List UInt8
  data : ℕ
  size : ℕ
  capacity : ℕ
  used : Bool
  deriving DecidableEq, Repr

/-- `ramfs_files`, and the memory with the blocks. -/
structure Ramfs where
  mem : ByteMem
  files : ℕ → RamfsFile

/-- `copy_path`. -/
def copyPath (path : List UInt8) : List UInt8 := path.take (ramfsPathMax - 1)

/-- `while (new_cap < need) new_cap += RAMFS_GROW_STEP`, with fuel. -/
def growLoop (need : ℕ) : ℕ → ℕ → Option ℕ
  | 0, _ => none
  | n + 1, cap => if cap < need then growLoop need n (u64 (cap + ramfsGrowStep)) else some cap

/-- The capacity that `ramfs_expand` asks for. -/
def newCapacity (capacity need : ℕ) : Option ℕ :=
  growLoop need (need / ramfsGrowStep + 2) (if capacity = 0 then ramfsGrowStep else capacity)

namespace Ramfs

def setFile (s : Ramfs) (i : ℕ) (file : RamfsFile) : Ramfs :=
  { s with files := Function.update s.files i file }

/-- The first file with a property. -/
def find (s : Ramfs) (p : RamfsFile → Bool) : Option ℕ :=
  (List.range ramfsMaxFiles).find? fun i => p (s.files i)

/-- `ramfs_open`: the index of the file, or `none` for -1. -/
def openFile (s : Ramfs) (path : List UInt8) : Option ℕ × Ramfs :=
  if path.head? ≠ some slash then (none, s)
  else if path.length ≥ ramfsPathMax then (none, s)
  else
    match s.find fun file => file.used && streq file.path path with
    | some i => (some i, s)
    | none =>
      match s.find fun file => !file.used with
      | some i => (some i, s.setFile i ⟨copyPath path, 0, 0, 0, true⟩)
      | none => (none, s)

/-- `ramfs_expand`.  The new block does not overlap the old one, so the loop that copies is a copy of
the bytes that were there before it. -/
def expand (s : Ramfs) (i need block : ℕ) : Option (ℤ × Ramfs) :=
  let file := s.files i
  if need ≤ file.capacity then some (0, s)
  else do
    let cap ← newCapacity file.capacity need
    if block = 0 then return (-1, s)
    let mem := s.mem.fill cap block 0
    let mem := mem.blit block (mem.bytes file.data file.size)
    return (0, { s with mem := mem }.setFile i { file with data := block, capacity := cap })

/-- `ramfs_read`: what it returns, the bytes that it copies, and the new offset. -/
def read (s : Ramfs) (i offset len : ℕ) : ℤ × List UInt8 × ℕ :=
  let file := s.files i
  if len = 0 then (0, [], offset)
  else if offset ≥ file.size then (0, [], offset)
  else
    let len := if len > file.size - offset then file.size - offset else len
    (int64 len, s.mem.bytes (file.data + offset) len, u64 (offset + len))

/-- `ramfs_write`: what it returns, and the new offset. -/
def write (s : Ramfs) (i offset : ℕ) (buf : List UInt8) (block : ℕ) : Option (ℤ × ℕ × Ramfs) :=
  if buf.length = 0 then some (0, offset, s)
  else
    let stop := u64 (offset + buf.length)
    if stop < offset then some (-1, offset, s)
    else do
      let (r, s) ← s.expand i stop block
      if r ≠ 0 then return (-1, offset, s)
      let file := s.files i
      let s := { s with mem := s.mem.blit (file.data + offset) buf }
      return (int64 buf.length, stop,
        s.setFile i { file with size := if stop > file.size then stop else file.size })

end Ramfs

/-! ### Runs -/

/-- A pair of a file and an offset, with the path that was opened. -/
structure RamHandle where
  path : List UInt8
  file : ℕ
  offset : ℕ
  deriving DecidableEq, Repr

/-- The files and the pairs. -/
structure RamRun where
  fs : Ramfs
  handles : List RamHandle

/-- The calls; a pair is given by its number, and a write with the block that is to be had. -/
inductive RamCall
  | open (path : List UInt8)
  | read (h len : ℕ)
  | write (h : ℕ) (buf : List UInt8) (block : ℕ)
  deriving DecidableEq, Repr

/-- What a call returns. -/
inductive RamResult
  | opened (file : Option ℕ)
  | read (r : ℤ) (bytes : List UInt8)
  | wrote (r : ℤ)
  deriving DecidableEq, Repr

namespace RamRun

/-- No file is used. -/
def blank (m : ByteMem) : RamRun := ⟨⟨m, fun _ => ⟨[], 0, 0, 0, false⟩⟩, []⟩

/-- A call.  Where there is no pair the file is NULL. -/
def call (s : RamRun) : RamCall → Option (RamResult × RamRun)
  | .open path =>
    match s.fs.openFile path with
    | (none, fs) => some (.opened none, { s with fs })
    | (some i, fs) => some (.opened (some i), ⟨fs, s.handles ++ [⟨path, i, 0⟩]⟩)
  | .read h len =>
    match s.handles[h]? with
    | none => some (.read 0 [], s)
    | some hd =>
      let (r, bytes, offset) := s.fs.read hd.file hd.offset len
      some (.read r bytes, { s with handles := s.handles.set h { hd with offset } })
  | .write h buf block =>
    match s.handles[h]? with
    | none => some (.wrote 0, s)
    | some hd =>
      (s.fs.write hd.file hd.offset buf block).map fun (r, offset, fs) =>
        (.wrote r, ⟨fs, s.handles.set h { hd with offset }⟩)

/-- The block is there, and overlaps no block of a file. -/
def Fresh (fs : Ramfs) (block cap : ℕ) : Prop :=
  block ≠ 0 ∧ ∀ i < ramfsMaxFiles, (fs.files i).used = true →
    block + cap ≤ (fs.files i).data ∨ (fs.files i).data + (fs.files i).capacity ≤ block

/-- What is assumed of a write: the file stays below 2^63 bytes, and a block that is asked for is
fresh. -/
def Fair (s : RamRun) : RamCall → Prop
  | .write h buf block => ∀ hd ∈ s.handles[h]?, hd.offset + buf.length < 2 ^ 63 ∧
      ∀ cap ∈ newCapacity (s.fs.files hd.file).capacity (hd.offset + buf.length),
        (s.fs.files hd.file).capacity < hd.offset + buf.length → Fresh s.fs block cap
  | _ => True

instance Fresh.decidable (fs : Ramfs) (block cap : ℕ) : Decidable (Fresh fs block cap) :=
  inferInstanceAs (Decidable (_ ∧ _))

instance Fair.decidable (s : RamRun) : ∀ c, Decidable (s.Fair c)
  | .write h buf block => inferInstanceAs (Decidable (∀ hd ∈ s.handles[h]?,
      hd.offset + buf.length < 2 ^ 63 ∧
        ∀ cap ∈ newCapacity (s.fs.files hd.file).capacity (hd.offset + buf.length),
          (s.fs.files hd.file).capacity < hd.offset + buf.length → Fresh s.fs block cap))
  | .open _ => .isTrue trivial
  | .read _ _ => .isTrue trivial

end RamRun

end Neptune
