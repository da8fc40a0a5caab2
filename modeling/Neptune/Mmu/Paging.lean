import Neptune.Lib.ByteMem
import Neptune.Lib.Word64

/-!
# Page tables

The four-level page tables of `mmu.c`, the page faults of `idt.c` and the checks of
user pointers of `syscall.c`, over the bytes of physical memory.  The kernel reaches
physical memory through two windows: the tables through the one at
`HIGHER_HALF_BASE`, everything else through the direct map at `HHDM_BASE`.  An access
outside its window, and an allocation when there is no page left, has no result.

`hwWalk` is what the processor does with the tables.

## Main definitions

* `hwWalk` — the walk of the processor.
* `Phys` — physical memory and the two windows.
* `Phys.ensureTable`, `Phys.mapPageIn`, `Phys.createUserPml4` — `mmu.c`.
* `Phys.handleUserCowFault`, `Phys.handleUserPageFault` — `idt.c`.
* `Phys.userPagePresent`, `Phys.userPtrRange` — `syscall.c`.
-/

namespace Neptune

open Word64 (u64 not64)

/-! ### Entries -/

def ptePresent : ℕ := 0x1

def pteRw : ℕ := 0x2

def pteUser : ℕ := 0x4

def ptePs : ℕ := 0x80

/-- `1ULL << 8`. -/
def pteGlobal : ℕ := 0x100

def pteCow : ℕ := 0x200

/-- `1ULL << 63`. -/
def pteNx : ℕ := 0x8000000000000000

def mmuFlagWrite : ℕ := 0x2

def mmuFlagUser : ℕ := 0x4

def mmuFlagGlobal : ℕ := 0x100

def mmuFlagCow : ℕ := 0x200

def mmuFlagNoexec : ℕ := 0x8000000000000000

/-- `x & mask`, as a condition. -/
def has (x mask : ℕ) : Bool := x &&& mask != 0

/-- `entry & ~0xFFFULL`. -/
def pageOf (entry : ℕ) : ℕ := entry &&& not64 0xFFF

def entryAt (m : ByteMem) (table i : ℕ) : ℕ := m.load 8 (table + 8 * i)

def setEntry (m : ByteMem) (table i entry : ℕ) : ByteMem := m.store 8 (table + 8 * i) entry

/-- The entry that `mmu_map_page` and `mmu_map_page_in` write. -/
def pteFor (phys flags : ℕ) : ℕ :=
  pageOf phys ||| ptePresent ||| (if has flags mmuFlagWrite then pteRw else 0) |||
    (if has flags mmuFlagUser then pteUser else 0) |||
    (if has flags mmuFlagGlobal then pteGlobal else 0) |||
    (if has flags mmuFlagCow then pteCow else 0) |||
    (if has flags mmuFlagNoexec then pteNx else 0)

/-- The index of an address in the table of a level; the page tables are level 0. -/
def indexAt (level virt : ℕ) : ℕ := virt / 2 ^ (12 + 9 * level) % 512

/-! ### The processor -/

/-- A translated page: its frame and what may be done with it. -/
structure Translation where
  frame : ℕ
  write : Bool
  user : Bool
  noExec : Bool
  deriving DecidableEq, Repr

/-- The frame in an entry: its bits 12 to 51. -/
def entryFrame (entry : ℕ) : ℕ := entry / 2 ^ 12 % 2 ^ 40 * 2 ^ 12

/-- The 4 KiB page at `virt` of a mapping of a level. -/
def leafOf (level entry virt : ℕ) : Translation where
  frame := entryFrame entry / 2 ^ (12 + 9 * level) * 2 ^ (12 + 9 * level) +
    virt / 2 ^ 12 % 2 ^ (9 * level) * 2 ^ 12
  write := has entry pteRw
  user := has entry pteUser
  noExec := has entry pteNx

/-- The rights that are left under an entry. -/
def Translation.under (t : Translation) (entry : ℕ) : Translation :=
  { t with
    write := t.write && has entry pteRw
    user := t.user && has entry pteUser
    noExec := t.noExec || has entry pteNx }

/-- The walk of the processor from a table on.  An entry of a page directory or of the
table above it can map a large page. -/
def hwWalk (m : ByteMem) (virt : ℕ) : ℕ → ℕ → Option Translation
  | 0, table =>
    let entry := entryAt m table (indexAt 0 virt)
    if has entry ptePresent then some (leafOf 0 entry virt) else none
  | level + 1, table =>
    let entry := entryAt m table (indexAt (level + 1) virt)
    if has entry ptePresent then
      if level < 2 ∧ has entry ptePs then some (leafOf (level + 1) entry virt)
      else (hwWalk m virt level (entryFrame entry)).map (·.under entry)
    else none

/-! ### Physical memory -/

def higherHalfBase : ℕ := 0xFFFFFFFF80000000

def hhdmBase : ℕ := 0xFFFF800000000000

/-- Physical memory. -/
structure Phys where
  mem : ByteMem
  /-- How much of it is mapped at `HIGHER_HALF_BASE`. -/
  window : ℕ
  window_le : higherHalfBase + window ≤ 2 ^ 64
  /-- How much of it is mapped at `HHDM_BASE`. -/
  hhdm : ℕ
  hhdm_le : hhdmBase + hhdm ≤ 2 ^ 64
  /-- What `pmm_alloc_page` returns, in turn. -/
  pool : List ℕ
  /-- `zero_phys`. -/
  zeroPhys : ℕ

/-- The physical address behind the offset `off` in the object at `phys`, of which `n` bytes
are accessed, in the window of `size` bytes at `base`. -/
def windowAddr (base size phys off n : ℕ) : Option ℕ :=
  let v := u64 (u64 (phys + base) + off)
  if base ≤ v ∧ v + n ≤ base + size then some (v - base) else none

namespace Phys

/-- `table_ptr(phys)[i]`. -/
def readTable (s : Phys) (phys i : ℕ) : Option ℕ :=
  (windowAddr higherHalfBase s.window phys (8 * i) 8).map (s.mem.load 8 ·)

/-- `table_ptr(phys)[i] = entry`. -/
def writeTable (s : Phys) (phys i entry : ℕ) : Option Phys :=
  (windowAddr higherHalfBase s.window phys (8 * i) 8).map fun a =>
    { s with mem := s.mem.store 8 a entry }

/-- An entry of a table in the direct map. -/
def readHhdm (s : Phys) (phys i : ℕ) : Option ℕ :=
  (windowAddr hhdmBase s.hhdm phys (8 * i) 8).map (s.mem.load 8 ·)

def pmmAllocPage (s : Phys) : Option (ℕ × Phys) :=
  match s.pool with
  | [] => none
  | phys :: pool => some (phys, { s with pool })

/-- `zero_page`. -/
def zeroPage (s : Phys) (phys : ℕ) : Option Phys :=
  (windowAddr higherHalfBase s.window phys 0 4096).map fun a =>
    { s with mem := s.mem.fill 4096 a 0 }

/-! ### `mmu.c` -/

/-- The loop that fills the page table of a 2 MiB page. -/
def splitLoop (s : Phys) (pt base flagsKeep : ℕ) : ℕ → ℕ → Option Phys
  | 0, _ => some s
  | n + 1, i => do
    let s ← s.writeTable pt i (u64 (base + i * 4096) ||| flagsKeep)
    s.splitLoop pt base flagsKeep n (i + 1)

/-- `ensure_table`, with the address of the table that the entry leads to. -/
def ensureTable (s : Phys) (parent index flags : ℕ) : Option (ℕ × Phys) := do
  let entry ← s.readTable parent index
  if has entry ptePs then
    -- a 2 MiB page is split
    let base := entry &&& not64 (2 ^ 21 - 1)
    let flagsKeep := entry &&& (ptePresent ||| pteRw ||| pteUser ||| pteGlobal ||| pteNx)
    let (phys, s) ← s.pmmAllocPage
    let s ← s.splitLoop phys base flagsKeep 512 0
    let s ← s.writeTable parent index
      (phys ||| ptePresent ||| (flagsKeep &&& (pteRw ||| pteUser ||| pteGlobal ||| pteNx)))
    return (phys, s)
  else if has entry ptePresent then
    if has flags mmuFlagUser && !has entry pteUser then
      let s ← s.writeTable parent index (entry ||| pteUser)
      return (pageOf entry, s)
    else return (pageOf entry, s)
  else
    let (phys, s) ← s.pmmAllocPage
    let s ← s.zeroPage phys
    let s ← s.writeTable parent index
      (phys ||| ptePresent ||| pteRw ||| if has flags mmuFlagUser then pteUser else 0)
    return (phys, s)

/-- `mmu_map_page_in`. -/
def mapPageIn (s : Phys) (pml4 virt phys flags : ℕ) : Option (ℤ × Phys) :=
  if pml4 = 0 ∨ has pml4 0xFFF ∨ has virt 0xFFF ∨ has phys 0xFFF then some (-1, s)
  else do
    let (pdpt, s) ← s.ensureTable pml4 (indexAt 3 virt) flags
    let (pd, s) ← s.ensureTable pdpt (indexAt 2 virt) flags
    let (pt, s) ← s.ensureTable pd (indexAt 1 virt) flags
    let existing ← s.readTable pt (indexAt 0 virt)
    if has existing ptePresent && pageOf existing != pageOf phys then return (-1, s)
    let s ← s.writeTable pt (indexAt 0 virt) (pteFor phys flags)
    return (0, s)

/-- The loop of `mmu_create_user_pml4`. -/
def copyEntries (s : Phys) (dst src : ℕ) : ℕ → ℕ → Option Phys
  | 0, _ => some s
  | n + 1, i => do
    let entry ← s.readTable src i
    let s ← s.writeTable dst i entry
    s.copyEntries dst src n (i + 1)

/-- `mmu_create_user_pml4`, with the tables of the kernel at `kernelPml4`. -/
def createUserPml4 (s : Phys) (kernelPml4 : ℕ) : Option (ℕ × Phys) := do
  let (phys, s) ← s.pmmAllocPage
  if phys = 0 then return (0, s)
  let s ← s.zeroPage phys
  let s ← s.copyEntries phys kernelPml4 256 256
  return (phys, s)

/-! ### `idt.c` -/

/-- `pte_lookup`: the page table and the index in it, or `none` for `NULL`. -/
def pteLookup (s : Phys) (pml4 virt : ℕ) : Option (Option (ℕ × ℕ)) := do
  let pml4e ← s.readHhdm pml4 (indexAt 3 virt)
  if !has pml4e ptePresent then return none
  let pdpte ← s.readHhdm (pageOf pml4e) (indexAt 2 virt)
  if !has pdpte ptePresent || has pdpte ptePs then return none
  let pde ← s.readHhdm (pageOf pdpte) (indexAt 1 virt)
  if !has pde ptePresent || has pde ptePs then return none
  return some (pageOf pde, indexAt 0 virt)

/-- The loop that copies a page, byte by byte. -/
def copyLoop (s : Phys) (dst src : ℕ) : ℕ → ℕ → Option Phys
  | 0, _ => some s
  | n + 1, i => do
    let a ← windowAddr hhdmBase s.hhdm src i 1
    let b ← windowAddr hhdmBase s.hhdm dst i 1
    copyLoop { s with mem := s.mem.store 1 b (s.mem a).toNat } dst src n (i + 1)

/-- `handle_user_cow_fault`. -/
def handleUserCowFault (s : Phys) (aspace page : ℕ) : Option (ℕ × Phys) := do
  let pte ← s.pteLookup aspace page
  match pte with
  | none => return (0, s)
  | some (pt, i) =>
    let entry ← s.readHhdm pt i
    if !has entry ptePresent || !has entry pteCow then return (0, s)
    let (newPhys, s) ← s.pmmAllocPage
    if newPhys = 0 then return (0, s)
    let s ← s.copyLoop newPhys (pageOf entry) 4096 0
    let flags := ((entry &&& 0xFFF) ||| pteRw) &&& not64 pteCow
    let a ← windowAddr hhdmBase s.hhdm pt (8 * i) 8
    return (1, { s with
      mem := s.mem.store 8 a (pageOf newPhys ||| flags ||| (entry &&& pteNx)) })

/-- `get_zero_page`. -/
def getZeroPage (s : Phys) : Option (ℕ × Phys) :=
  if s.zeroPhys ≠ 0 then some (s.zeroPhys, s)
  else do
    let (phys, s) ← s.pmmAllocPage
    if phys = 0 then return (0, s)
    let a ← windowAddr hhdmBase s.hhdm phys 0 4096
    return (phys, { s with mem := s.mem.fill 4096 a 0, zeroPhys := phys })

def userBase : ℕ := 0x400000

def userStackTop : ℕ := 0x7FFFFFF000

def userStackMaxPages : ℕ := 4

def userStackGuardPages : ℕ := 4

/-- `handle_user_page_fault`, with `sched_current_aspace()`. -/
def handleUserPageFault (s : Phys) (aspace cr2 err rsp : ℕ) : Option (ℕ × Phys) :=
  let page := pageOf cr2
  if aspace = 0 then some (0, s)
  else if has err 0x1 then
    if has err 0x2 then s.handleUserCowFault aspace page else some (0, s)
  else
    let stackLow := userStackTop - userStackMaxPages * 4096
    let guardSize := userStackGuardPages * 4096
    let low := max (if rsp > guardSize then rsp - guardSize else stackLow) stackLow
    if page < stackLow ∨ page ≥ userStackTop then some (0, s)
    else if rsp < stackLow ∨ rsp ≥ userStackTop then some (0, s)
    else if page < low then some (0, s)
    else do
      let (phys, s) ← s.getZeroPage
      if phys = 0 then return (0, s)
      let (r, s) ← s.mapPageIn aspace page phys (mmuFlagUser ||| mmuFlagNoexec ||| mmuFlagCow)
      if r ≠ 0 then return (0, s) else return (1, s)

/-! ### `syscall.c` -/

/-- `user_page_present`. -/
def userPagePresent (s : Phys) (pml4 virt : ℕ) : Option Bool :=
  if pml4 = 0 then some false
  else do
    let pml4e ← s.readHhdm pml4 (indexAt 3 virt)
    if !has pml4e ptePresent || !has pml4e pteUser then return false
    let pdpte ← s.readHhdm (pageOf pml4e) (indexAt 2 virt)
    if !has pdpte ptePresent || !has pdpte pteUser then return false
    if has pdpte ptePs then return true
    let pde ← s.readHhdm (pageOf pdpte) (indexAt 1 virt)
    if !has pde ptePresent || !has pde pteUser then return false
    if has pde ptePs then return true
    let pte ← s.readHhdm (pageOf pde) (indexAt 0 virt)
    return has pte ptePresent && has pte pteUser

/-- The loop of `user_ptr_range`. -/
def rangeLoop (s : Phys) (pml4 last : ℕ) : ℕ → ℕ → Option Bool
  | 0, _ => none
  | fuel + 1, addr =>
    if addr < last then do
      let present ← s.userPagePresent pml4 addr
      if !present then return false
      let next := u64 (pageOf addr + 0x1000)
      if next ≤ addr then return false
      s.rangeLoop pml4 last fuel next
    else some true

/-- `user_ptr_range`, with `sched_current_aspace()`. -/
def userPtrRange (s : Phys) (aspace ptr len : ℕ) : Option Bool :=
  if len = 0 then some false
  else if ptr < userBase then some false
  else if u64 (ptr + len) < ptr then some false
  else if u64 (ptr + len) > userStackTop then some false
  else s.rangeLoop aspace (u64 (ptr + len)) (len / 4096 + 3) ptr

end Phys

end Neptune
