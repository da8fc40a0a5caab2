import Neptune.Fat.Loops

/-!
# Paths, and new entries

`fat_traverse_path` takes a path component by component: all but the last must be directories, and
the last is looked up as a file or a directory, or created.

A path is a list of bytes without a NUL.

## Main definitions

* `newEntry` — `dir_entry_init`.
* `Geometry.traverse`, `Geometry.fatOpen`, `Geometry.fatOpenDir` — `fat_traverse_path`.
* `Geometry.fatListDir`.
-/

namespace Neptune

/-- `dir_entry_init`. -/
def newEntry (name : List UInt8) (attr : UInt8) (cluster size : ℕ) : List UInt8 :=
  name ++ [attr] ++ List.replicate 14 0 ++ ByteMem.leBytes 2 cluster ++ ByteMem.leBytes 4 size

/-- `dir_write_entry`; whether it returns 0. -/
def dirWriteEntry (loc : DirLoc) (entry : List UInt8) : DiskM Bool := do
  let some buf ← readSector loc.sector | return false
  writeSector loc.sector (patch buf loc.offset entry)

/-- The file that `fat_traverse_path` has created at a place. -/
def createdFile (loc : DirLoc) : FatFile := ⟨0, 0, loc.sector, loc.offset, false, 0x20⟩

/-- The components of a path as `fat_traverse_path` takes them: one slash in front is skipped, and
every further slash ends a component, which may be empty. -/
def traverseParts (path : List UInt8) : List (List UInt8) :=
  (if path.head? = some slash then path.tail else path).splitOn slash

/-- The name a component stands for; `none` where the functions return -1. -/
def partName (comp : List UInt8) : Option (List UInt8) :=
  if comp = [] ∨ 16 ≤ comp.length then none else buildShortName comp

namespace Geometry

variable (g : Geometry)

/-- The loop of `fat_traverse_path`. -/
def traverse (create wantDirLast : Bool) : List (List UInt8) → ℕ → DiskM (Option FatFile)
  | [], _ => return none
  | comp :: rest, dirCluster =>
    match partName comp with
    | none => return none
    | some name => do
      let last := rest.isEmpty
      let wantDir := if last then wantDirLast else true
      let allowFree := last && create && !wantDirLast
      match ← g.dirFindEntry dirCluster ⟨name, some wantDir, allowFree⟩ with
      | .found file =>
        if last then return some file
        else traverse create wantDirLast rest (file.startCluster % 2 ^ 16)
      | .free loc =>
        if allowFree then do
          if ← dirWriteEntry loc (newEntry name 0x20 0 0) then return some (createdFile loc)
          else return none
        else return none
      | .absent => return none

/-- `fat_open`. -/
def fatOpen (path : List UInt8) : DiskM (Option FatFile) :=
  g.traverse false false (traverseParts path) 0

/-- `fat_open_dir`. -/
def fatOpenDir (path : List UInt8) : DiskM (Option FatFile) :=
  g.traverse false true (traverseParts path) 0

/-- The names of the first two entries of a directory. -/
def dotName : List UInt8 := dot :: List.replicate 10 space

@[inherit_doc dotName]
def dotDotName : List UInt8 := dot :: dot :: List.replicate 9 space

/-- `normalize_path` of `fat.c` with a buffer of `outLen` bytes: the slashes in front and behind
are taken off; `none` is a return of -1, where the path does not fit. -/
def trimPath (path : List UInt8) (outLen : ℕ) : Option (List UInt8) :=
  let p := path.dropWhile (· = slash)
  if p.length < outLen then some (p.reverse.dropWhile (· = slash)).reverse else none

/-- The letters "/disk/". -/
def diskLead : List UInt8 := [slash, 0x64, 0x69, 0x73, 0x6B, slash]

/-- What stands in front of the names of a listing, in a buffer of 96 bytes. -/
def listLead (trimmed : List UInt8) : List UInt8 :=
  if trimmed = [] then diskLead else (diskLead ++ trimmed ++ [slash]).take 95

/-- `fat_list_dir`: what it writes into a buffer of `len` bytes. -/
def fatListDir (path : List UInt8) (len : ℕ) : DiskM (List UInt8) :=
  if len = 0 then return []
  else match trimPath path 64 with
  | none => return []
  | some [] => g.listDir 0 (listLead []) len
  | some trimmed => do
    match ← g.fatOpenDir trimmed with
    | none => return []
    | some dir =>
      if dir.isDir then g.listDir (dir.startCluster % 2 ^ 16) (listLead trimmed) len else return []

end Geometry

end Neptune
