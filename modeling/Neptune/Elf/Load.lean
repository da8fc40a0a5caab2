import Neptune.Elf.Image
import Neptune.Lib.Loop

/-!
# Loading an image

`elf_load_user` goes through the program headers.  For each page of a segment it takes a frame, maps
it, clears it and copies the part of the file that lies in the page.

## Main definitions

* `UserSpace` — `struct user_space`.
* `Image.loadPage`, `Image.loadPages`, `Image.loadHeader`, `Image.loadHeaders` — the loops.
* `elfLoadUser` — `elf_load_user`.
-/

namespace Neptune

open Word64 (u64)

/-- A result that there may not be. -/
def orStop {α : Type} : Option α → Except Stop α
  | some a => .ok a
  | none => .error .memory

theorem orStop_eq_ok {α : Type} {x : Option α} {a : α} : orStop x = .ok a ↔ x = some a := by
  cases x with
  | none => simp [orStop]
  | some b => simp [orStop]

/-- A sequence of calls returns if each of them does. -/
theorem bind_eq_ok {α β : Type} {x : Except Stop α} {f : α → Except Stop β} {b : β} :
    x >>= f = .ok b ↔ ∃ a, x = .ok a ∧ f a = .ok b := by
  cases x with
  | error e => exact iff_of_false nofun fun ⟨_, h, _⟩ => nomatch h
  | ok a => exact ⟨fun h => ⟨a, rfl, h⟩, fun ⟨_, rfl, h⟩ => h⟩

theorem ok_of_map_eq_ok {α β : Type} {x : Except Stop α} {f : α → β} {b : β}
    (h : x.map f = .ok b) : ∃ a, x = .ok a ∧ f a = b := by
  cases x with
  | error e => cases h
  | ok a => exact ⟨a, rfl, Except.ok.inj h⟩

/-- `struct user_space`. -/
structure UserSpace where
  pml4 : ℕ
  entry : ℕ
  stackTop : ℕ
  stackBottom : ℕ
  stackPages : ℕ
  stackPhys : List ℕ
  deriving DecidableEq, Repr

namespace Phys

/-- `user_space_map_page`. -/
def userSpaceMapPage (s : Phys) (pml4 virt phys flags : ℕ) : Option (ℤ × Phys) :=
  if pml4 = 0 then some (-1, s) else s.mapPageIn pml4 virt phys (flags ||| mmuFlagUser)

/-- A list of bytes stored at an offset in a frame, in the direct map. -/
def blitHhdm (s : Phys) (phys off : ℕ) (l : List UInt8) : Option Phys :=
  (windowAddr hhdmBase s.hhdm phys off l.length).map fun a => { s with mem := s.mem.blit a l }

end Phys

namespace Image

/-- The part of the file that lies in the page at `v` is copied to the frame of the page. -/
def copyFile (img : Image) (ph : Phdr) (v phys : ℕ) (s : Phys) : Except Stop Phys :=
  let pageEnd := u64 (v + 4096)
  let dataEnd := u64 (ph.vaddr + ph.filesz)
  let copyStart := if v > ph.vaddr then v else ph.vaddr
  let copyEnd := if pageEnd < dataEnd then pageEnd else dataEnd
  if copyStart < copyEnd then do
    let srcOff := u64 (ph.offset + (copyStart - ph.vaddr))
    img.touch srcOff (copyEnd - copyStart)
    orStop (s.blitHhdm phys (copyStart - v) (img.mem.bytes srcOff (copyEnd - copyStart)))
  else .ok s

/-- The page at `v` of a segment. -/
def loadPage (img : Image) (pml4 : ℕ) (ph : Phdr) (v : ℕ) (s : Phys) : Except Stop (ℤ × Phys) := do
  let (phys, s) ← orStop s.pmmAllocPage
  if phys = 0 then return (-1, s)
  let (r, s) ← orStop (s.userSpaceMapPage pml4 v phys ph.mapFlags)
  if r ≠ 0 then return (-1, s)
  let s ← orStop (s.blitHhdm phys 0 (List.replicate 4096 0))
  let s ← img.copyFile ph v phys s
  return (0, s)

/-- The loop over the pages of a segment.  Its bounds are multiples of the page size, so it makes as
many passes as there are pages between them, and none if they are the wrong way round. -/
def loadPages (img : Image) (pml4 : ℕ) (ph : Phdr) (s : Phys) : Except Stop (ℤ × Phys) :=
  forEach (fun k => img.loadPage pml4 ph (u64 (ph.segStart + k * 4096))) ph.pageCount 0 s

/-- A program header. -/
def loadHeader (img : Image) (pml4 i : ℕ) (s : Phys) : Except Stop (ℤ × Phys) := do
  img.touch (img.phdrAt i) 4
  let ph := img.phdr i
  if ph.type ≠ ptLoad then return (0, s)
  let ok ← img.checkSegment i
  if !ok then return (-1, s)
  img.touch (img.phdrAt i + 4) 4
  img.loadPages pml4 ph s

/-- The loop over the program headers. -/
def loadHeaders (img : Image) (pml4 : ℕ) (s : Phys) : Except Stop (ℤ × Phys) :=
  forEach (img.loadHeader pml4) img.phnum 0 s

end Image

/-- `elf_load_user`. -/
def elfLoadUser (img : Image) (space : UserSpace) (s : Phys) : Except Stop (ℤ × UserSpace × Phys) :=
  if img.size = 0 then .ok (-1, space, s)
  else do
    let r ← elfCheckHeader img
    if r ≠ 0 then return (-1, space, s)
    let (r, s) ← img.loadHeaders space.pml4 s
    if r ≠ 0 then return (-1, space, s)
    return (0, { space with entry := img.entry }, s)

end Neptune
