import Neptune.Mmu.Paging

/-!
# ELF images

An image is given to `elf_load_user` as a pointer and a size.  The loader reads it at 64-bit indices
that it computes from fields of the image, so an index can be outside; then the byte belongs to
something else, or cannot be read at all.

## Main definitions

* `Image` — the image and what is around it.
* `elfCheckHeader` — `elf_check_header`.
* `Phdr`, `Image.phdr` — program headers.
* `Phdr.accepted` — the checks of `elf_load_user` on a header.
-/

namespace Neptune

open Word64 (u64)

/-- Why a call does not return. -/
inductive Stop
  /-- A read outside of the image. -/
  | image
  /-- `pmm_alloc_page` panics, or an access to memory that is not mapped. -/
  | memory
  deriving DecidableEq

/-- An image of `size` bytes. -/
structure Image where
  size : ℕ
  /-- The bytes at 64-bit indices from its first byte on. -/
  byte : ByteMem
  /-- The indices where a byte can be read. -/
  readable : ℕ → Bool
  /-- It is an object in the upper half of the address space. -/
  size_le : size ≤ 2 ^ 63
  inside : ∀ k < size, readable k = true

namespace Image

/-- The bytes at indices that are computed modulo 2^64. -/
def mem (img : Image) : ByteMem := fun k => img.byte (u64 k)

/-- A read of `n` bytes from index `k` on. -/
def touch (img : Image) (k n : ℕ) : Except Stop Unit :=
  if (List.range n).all fun j => img.readable (u64 (k + j)) then .ok () else .error .image

/-! ### `Elf64_Ehdr` -/

def ehdrSize : ℕ := 64

def phdrSize : ℕ := 56

def entry (img : Image) : ℕ := img.mem.load 8 24

def phoff (img : Image) : ℕ := img.mem.load 8 32

def phentsize (img : Image) : ℕ := img.mem.load 2 54

def phnum (img : Image) : ℕ := img.mem.load 2 56

/-- The bytes of `e_ident` that are checked. -/
def ident (img : Image) : List UInt8 := img.mem.bytes 0 7

end Image

/-- `elf_check_header`. -/
def elfCheckHeader (img : Image) : Except Stop ℤ :=
  if img.size < Image.ehdrSize then .ok (-1)
  else do
    img.touch 0 7
    -- ELFMAG0 to ELFMAG3, ELFCLASS64, ELFDATA2LSB, and version 1
    if img.ident ≠ [0x7F, 0x45, 0x4C, 0x46, 2, 1, 1] then return -1
    img.touch 54 4
    if img.phentsize ≠ Image.phdrSize ∨ img.phnum = 0 then return -1
    img.touch 32 8
    if u64 (img.phoff + img.phnum * Image.phdrSize) > img.size then return -1
    return 0

/-! ### `Elf64_Phdr` -/

def ptLoad : ℕ := 1

def pfX : ℕ := 1

def pfW : ℕ := 2

/-- The fields of a program header that are used. -/
structure Phdr where
  type : ℕ
  flags : ℕ
  offset : ℕ
  vaddr : ℕ
  filesz : ℕ
  memsz : ℕ
  deriving DecidableEq, Repr

/-- The index of `phdrs[i]`, not reduced. -/
def Image.phdrAt (img : Image) (i : ℕ) : ℕ := img.phoff + i * Image.phdrSize

/-- `phdrs[i]`. -/
def Image.phdr (img : Image) (i : ℕ) : Phdr where
  type := img.mem.load 4 (img.phdrAt i)
  flags := img.mem.load 4 (img.phdrAt i + 4)
  offset := img.mem.load 8 (img.phdrAt i + 8)
  vaddr := img.mem.load 8 (img.phdrAt i + 16)
  filesz := img.mem.load 8 (img.phdrAt i + 32)
  memsz := img.mem.load 8 (img.phdrAt i + 40)

namespace Phdr

/-- `align_down(p_vaddr, 4096)`. -/
def segStart (ph : Phdr) : ℕ := Word64.alignDown ph.vaddr 4096

/-- `align_up(p_vaddr + p_memsz, 4096)`. -/
def segEnd (ph : Phdr) : ℕ := Word64.alignUp (u64 (ph.vaddr + ph.memsz)) 4096

/-- The number of pages of the segment. -/
def pageCount (ph : Phdr) : ℕ := (ph.segEnd - ph.segStart) / 4096

/-- `USER_BASE - 0x1000`. -/
def loadMin : ℕ := Phys.userBase - 0x1000

/-- The checks of `elf_load_user` on a header. -/
def accepted (ph : Phdr) (size : ℕ) : Bool :=
  !decide (ph.memsz = 0 ∨ ph.filesz > ph.memsz) && !decide (u64 (ph.offset + ph.filesz) > size) &&
    !decide (u64 (ph.vaddr + ph.memsz) < ph.vaddr) &&
    !decide (ph.segStart < loadMin ∨ ph.segEnd > Phys.userStackTop)

/-- The flags of the pages of a segment. -/
def mapFlags (ph : Phdr) : ℕ :=
  (if has ph.flags pfW then mmuFlagWrite else 0) ||| if !has ph.flags pfX then mmuFlagNoexec else 0

end Phdr

/-- The checks, with the reads in their order: `true` if the header is accepted. -/
def Image.checkSegment (img : Image) (i : ℕ) : Except Stop Bool := do
  let ph := img.phdr i
  img.touch (img.phdrAt i + 40) 8
  if ph.memsz = 0 then return false
  img.touch (img.phdrAt i + 32) 8
  if ph.filesz > ph.memsz then return false
  img.touch (img.phdrAt i + 8) 8
  if u64 (ph.offset + ph.filesz) > img.size then return false
  img.touch (img.phdrAt i + 16) 8
  if u64 (ph.vaddr + ph.memsz) < ph.vaddr then return false
  if ph.segStart < Phdr.loadMin ∨ ph.segEnd > Phys.userStackTop then return false
  return true

end Neptune
