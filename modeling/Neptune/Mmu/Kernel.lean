import Neptune.Mmu.Paging

/-!
# The mappings of the kernel

The part of `mmu.c` and `mmu.h` that works on the tables of the kernel: `mmu_map_page`, the direct
map, and the protection of the sections of the kernel.  A panic has no result.

## Main definitions

* `Phys.mapPage` — `mmu_map_page`.
* `Phys.mapHhdm2m` — `mmu_map_hhdm_2m`.
* `virtToPhys` — `virt_to_phys`.
* `Phys.protectKernelSections` — `mmu_protect_kernel_sections`.
-/

namespace Neptune

open Word64 (u64 not64 alignDown alignUp)

/-! ### `mmu.h` -/

/-- `ARCH_PHYS_BASE`. -/
def archPhysBase : ℕ := 0

def physToHigherHalf (phys : ℕ) : ℕ := u64 (phys + higherHalfBase)

/-- `virt - HIGHER_HALF_BASE`, which wraps. -/
def higherHalfToPhys (virt : ℕ) : ℕ := u64 (virt + (2 ^ 64 - higherHalfBase))

def physToHhdm (phys : ℕ) : ℕ := u64 (phys + hhdmBase)

/-- `virt - HHDM_BASE`, which wraps. -/
def hhdmToPhys (virt : ℕ) : ℕ := u64 (virt + (2 ^ 64 - hhdmBase))

theorem physToHhdm_eq {phys : ℕ} (hphys : phys < 2 ^ 47) : physToHhdm phys = phys + hhdmBase :=
  Word64.u64_of_lt (by unfold hhdmBase; omega)

def physToVirt (phys : ℕ) : ℕ := physToHigherHalf phys

/-- `virt_to_phys`. -/
def virtToPhys (v : ℕ) : ℕ :=
  if v ≥ hhdmBase then hhdmToPhys v else u64 (higherHalfToPhys v + archPhysBase)

/-! ### `mmu.c` -/

/-- `HHDM_PML4_INDEX`. -/
def hhdmPml4Index : ℕ := hhdmBase / 2 ^ 39 % 512

/-- `PAGE_SIZE_2M`. -/
def pageSize2m : ℕ := 2 ^ 21

/-- The entry of a large page of the direct map. -/
def hhdmEntry (phys : ℕ) : ℕ :=
  alignDown phys pageSize2m ||| ptePresent ||| pteRw ||| ptePs ||| pteNx

def textFlags : ℕ := mmuFlagGlobal

def roFlags : ℕ := mmuFlagGlobal ||| mmuFlagNoexec

def dataFlags : ℕ := mmuFlagGlobal ||| mmuFlagWrite ||| mmuFlagNoexec

namespace Phys

/-! ### `mmu_map_page` -/

/-- `mmu_map_page`, with the tables of the kernel at `pml4`. -/
def mapPage (s : Phys) (pml4 virt phys flags : ℕ) : Option Phys :=
  if has virt 0xFFF ∨ has phys 0xFFF then none
  else do
    let (pdpt, s) ← s.ensureTable pml4 (indexAt 3 virt) flags
    let (pd, s) ← s.ensureTable pdpt (indexAt 2 virt) flags
    let (pt, s) ← s.ensureTable pd (indexAt 1 virt) flags
    let existing ← s.readTable pt (indexAt 0 virt)
    -- a page that is mapped keeps its frame
    if has existing ptePresent && pageOf existing != pageOf phys then none
    else s.writeTable pt (indexAt 0 virt) (pteFor phys flags)

/-! ### The direct map -/

/-- What `ensure_hhdm_pdpt` and `ensure_hhdm_pd` have in common: the table below an entry. -/
def ensureHhdmTable (s : Phys) (parent index : ℕ) : Option (ℕ × Phys) := do
  let entry ← s.readTable parent index
  if !has entry ptePresent then
    let (phys, s) ← s.pmmAllocPage
    let s ← s.zeroPage phys
    let s ← s.writeTable parent index (phys ||| ptePresent ||| pteRw)
    return (phys, s)
  else return (pageOf entry, s)

/-- `ensure_hhdm_pdpt`. -/
def ensureHhdmPdpt (s : Phys) (pml4 : ℕ) : Option (ℕ × Phys) := s.ensureHhdmTable pml4 hhdmPml4Index

/-- `ensure_hhdm_pd`. -/
def ensureHhdmPd (s : Phys) (pdpt pdptIndex : ℕ) : Option (ℕ × Phys) :=
  s.ensureHhdmTable pdpt pdptIndex

/-- The loop of `mmu_map_hhdm_2m`, from `phys` on. -/
def hhdmLoop (s : Phys) (pdpt last : ℕ) : ℕ → ℕ → Option Phys
  | 0, _ => none
  | fuel + 1, phys =>
    if phys < last then do
      let virt := physToHhdm phys
      let (pd, s) ← s.ensureHhdmPd pdpt (virt / 2 ^ 30 % 512)
      let s ← s.writeTable pd (virt / 2 ^ 21 % 512) (hhdmEntry phys)
      s.hhdmLoop pdpt last fuel (u64 (phys + pageSize2m))
    else some s

/-- `mmu_map_hhdm_2m`. -/
def mapHhdm2m (s : Phys) (pml4 physStart physEnd : ℕ) : Option Phys :=
  let start := alignDown physStart pageSize2m
  let last := alignUp physEnd pageSize2m
  if start ≥ last then some s
  else do
    let (pdpt, s) ← s.ensureHhdmPdpt pml4
    s.hhdmLoop pdpt last (last / pageSize2m + 1) start

/-! ### The sections of the kernel -/

end Phys

/-- Where the linker has put a section: its first address and the one behind its end. -/
structure Section where
  start : ℕ
  stop : ℕ
  deriving DecidableEq, Repr

/-- The sections that `mmu_protect_kernel_sections` reads off the linker's symbols. -/
structure KernelImage where
  text : Section
  rodata : Section
  data : Section
  bss : Section
  deriving DecidableEq, Repr

namespace Phys

/-- One of the four loops of `mmu_protect_kernel_sections`, from `phys` on. -/
def protectLoop (s : Phys) (pml4 last flags : ℕ) : ℕ → ℕ → Option Phys
  | 0, _ => none
  | fuel + 1, phys =>
    if phys < last then do
      let s ← s.mapPage pml4 (physToHigherHalf phys) phys flags
      s.protectLoop pml4 last flags fuel (u64 (phys + 4096))
    else some s

/-- The protection of one section. -/
def protectSection (s : Phys) (pml4 : ℕ) (sec : Section) (flags : ℕ) : Option Phys :=
  let first := alignDown (virtToPhys sec.start) 4096
  let last := alignUp (virtToPhys sec.stop) 4096
  s.protectLoop pml4 last flags (last / 4096 + 1) first

/-- `mmu_protect_kernel_sections`. -/
def protectKernelSections (s : Phys) (pml4 : ℕ) (image : KernelImage) : Option Phys := do
  let s ← s.protectSection pml4 image.text textFlags
  let s ← s.protectSection pml4 image.rodata roFlags
  let s ← s.protectSection pml4 image.data dataFlags
  s.protectSection pml4 image.bss dataFlags

/-- A machine as it boots: 1 GiB is mapped at `HIGHER_HALF_BASE`, and there is no direct map. -/
def booting (mem : ByteMem) (pool : List ℕ) : Phys where
  mem := mem
  window := 0x40000000
  window_le := by decide
  hhdm := 0
  hhdm_le := by decide
  pool := pool
  zeroPhys := 0

end Phys

end Neptune
