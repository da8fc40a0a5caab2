import Mathlib.Data.Finset.Card
import Neptune.Lib.Bitmap
import Neptune.Lib.Runs
import Neptune.Lib.Word64

/-!
# The physical memory manager

`mem.c`: one bitmap per region, all of them in the first pages of one region low
in memory.  Single pages are handed out from a rotating cursor on, runs of pages
by first fit.  A panic is `none`.

The bitmaps are bytes of physical memory, at the addresses that `setup_bitmaps`
gives them, and a client may write to the frames it holds.

## Main definitions

* `Pmm.setupBitmaps` — the regions get their bitmaps.
* `Pmm.allocPage`, `Pmm.allocPages`, `Pmm.freePage` — the calls.
* `PmmState.step`, `PmmState.ReachableFrom` — runs, with the live frames.
-/

namespace Neptune

open Word64

/-- `struct pmm_region`. -/
structure PmmRegion where
  physStart : ℕ
  physEnd : ℕ
  bitmapPhys : ℕ
  bitmapBytes : ℕ
  totalPages : ℕ
  reservedPages : ℕ
  deriving DecidableEq, Repr

/-- The variables of `mem.c`, and the memory. -/
structure Pmm where
  mem : ByteMem
  regions : List PmmRegion
  managedPages : ℕ
  reservedPages : ℕ
  usedPages : ℕ
  cursorRegion : ℕ
  cursorPageIdx : ℕ

/-- `MAX_PMM_REGIONS`. -/
def maxPmmRegions : ℕ := 32

/-- `META_REGION_LIMIT`. -/
def metaRegionLimit : ℕ := 2 ^ 30

namespace PmmRegion

/-- The address of a page. -/
def pageAddr (r : PmmRegion) (page : ℕ) : ℕ := r.physStart + page * 4096

/-- `align_up(total_pages, 8) / 8`. -/
def bitmapSize (r : PmmRegion) : ℕ := alignUp r.totalPages 8 / 8

end PmmRegion

namespace Pmm

/-- `pmm_add_region`. -/
def addRegion (rs : List PmmRegion) (start stop : ℕ) : Option (List PmmRegion) :=
  if maxPmmRegions ≤ rs.length then none
  else if stop ≤ start then some rs
  else some (rs ++ [⟨start, stop, 0, 0, (stop - start) / 4096, 0⟩])

/-- The regions that the platform reports, in turn. -/
def addRegions : List PmmRegion → List (ℕ × ℕ) → Option (List PmmRegion)
  | rs, [] => some rs
  | rs, (start, stop) :: ranges => (addRegion rs start stop).bind fun rs => addRegions rs ranges

/-! ### `setup_bitmaps` -/

/-- The first pass: the space that all bitmaps take. -/
def totalBitmapBytes : List PmmRegion → ℕ
  | [] => 0
  | r :: rs => (if r.totalPages = 0 then 0 else r.bitmapSize) + totalBitmapBytes rs

/-- Whether a region can hold the bitmaps. -/
def canHold (need : ℕ) (r : PmmRegion) : Bool :=
  decide (r.totalPages ≠ 0 ∧ r.physStart < metaRegionLimit ∧
    need ≤ u64 (r.physEnd + 2 ^ 64 - alignUp r.physStart 4096))

/-- Whether a region comes before the best one so far. -/
def isBetter (r : PmmRegion) : Option (ℕ × PmmRegion) → Bool
  | none => true
  | some (_, best) => decide (r.physStart < best.physStart)

/-- The loop that chooses the region for the bitmaps, by its index. -/
def selectMeta (need : ℕ) : List PmmRegion → ℕ → Option (ℕ × PmmRegion) → Option (ℕ × PmmRegion)
  | [], _, best => best
  | r :: rs, i, best =>
    selectMeta need rs (i + 1) (if canHold need r && isBetter r best then some (i, r) else best)

/-- The loop that places and clears the bitmaps; it also returns `meta_cursor`. -/
def placeBitmaps : ByteMem → ℕ → List PmmRegion → ByteMem × ℕ × List PmmRegion
  | m, cursor, [] => (m, cursor, [])
  | m, cursor, r :: rs =>
    if r.totalPages = 0 then
      let (m', cursor', rs') := placeBitmaps m cursor rs
      (m', cursor', r :: rs')
    else
      let r' := { r with bitmapPhys := cursor, bitmapBytes := r.bitmapSize, reservedPages := 0 }
      let (m', cursor', rs') := placeBitmaps (m.fill r.bitmapSize cursor 0) (cursor + r.bitmapSize) rs
      (m', cursor', r' :: rs')

/-- Set the bits of `n` pages from `page` on. -/
def setBits (m : ByteMem) (r : PmmRegion) (page : ℕ) : ℕ → ByteMem
  | 0 => m
  | n + 1 => setBits (m.setBit r.bitmapPhys page) r (page + 1) n

/-- The last loop: mark the reserved pages and count. -/
def reserveAll : Pmm → List PmmRegion → Pmm
  | s, [] => s
  | s, r :: rs =>
    if r.totalPages = 0 then reserveAll s rs
    else
      reserveAll
        { s with
          mem := setBits s.mem r 0 r.reservedPages
          reservedPages := s.reservedPages + r.reservedPages
          usedPages := s.usedPages + r.reservedPages
          managedPages := s.managedPages + (r.totalPages - r.reservedPages) } rs

/-- The region at `i` gets its number of reserved pages. -/
def withReserved (rs : List PmmRegion) (i n : ℕ) : List PmmRegion :=
  rs.modify i fun r => { r with reservedPages := n }

/-- `setup_bitmaps`. -/
def setupBitmaps (m : ByteMem) (rs : List PmmRegion) : Option Pmm :=
  let need := totalBitmapBytes rs
  match selectMeta need rs 0 none with
  | none => none
  | some (i, host) =>
    let cursor := alignUp host.physStart 4096
    if host.physEnd < cursor + need then none
    else
      let (m', cursor', rs') := placeBitmaps m cursor rs
      let reserved := alignUp (cursor' - host.physStart) 4096 / 4096
      let rs'' := withReserved rs' i reserved
      let s := reserveAll ⟨m', rs'', 0, 0, 0, 0, 0⟩ rs''
      if s.managedPages = 0 then none else some s

/-! ### The calls -/

/-- `find_region`. -/
def findRegion (s : Pmm) (addr : ℕ) : Option PmmRegion :=
  s.regions.find? fun r =>
    decide (r.totalPages ≠ 0) && decide (r.physStart ≤ addr) && decide (addr < r.physEnd)

/-- The scan loops of `pmm_alloc_page`: the first free page of `n` from `page` on. -/
def scanFree (m : ByteMem) (r : PmmRegion) : ℕ → ℕ → Option ℕ
  | 0, _ => none
  | n + 1, page => if m.testBit r.bitmapPhys page then scanFree m r n (page + 1) else some page

/-- Where the scan of a region begins. -/
def scanStart (r : PmmRegion) (atCursor : Bool) (cursorPage : ℕ) : ℕ :=
  let page := if atCursor then cursorPage else r.reservedPages
  if r.totalPages ≤ page ∨ page < r.reservedPages then r.reservedPages else page

/-- One pass of the outer loop of `pmm_alloc_page`. -/
def scanRegion (m : ByteMem) (r : PmmRegion) (atCursor : Bool) (cursorPage : ℕ) : Option ℕ :=
  if r.totalPages ≤ r.reservedPages then none
  else
    let start := scanStart r atCursor cursorPage
    match scanFree m r (r.totalPages - start) start with
    | some page => some page
    | none =>
      if atCursor = true ∧ r.reservedPages < start then
        scanFree m r (start - r.reservedPages) r.reservedPages
      else none

/-- The outer loop of `pmm_alloc_page`, with `n` passes left. -/
def scanRegions (s : Pmm) : ℕ → ℕ → Option (ℕ × PmmRegion × ℕ)
  | 0, _ => none
  | n + 1, i =>
    let idx := (s.cursorRegion + i) % s.regions.length
    match s.regions[idx]? with
    | none => none
    | some r =>
      match scanRegion s.mem r (decide (idx = s.cursorRegion)) s.cursorPageIdx with
      | some page => some (idx, r, page)
      | none => scanRegions s n (i + 1)

/-- `pmm_alloc_page`. -/
def allocPage (s : Pmm) : Option (ℕ × Pmm) :=
  (s.scanRegions s.regions.length 0).map fun (idx, r, page) =>
    (r.pageAddr page,
      { s with
        mem := s.mem.setBit r.bitmapPhys page
        usedPages := s.usedPages + 1
        cursorRegion := idx
        cursorPageIdx := page + 1 })

/-- The scan loop of `pmm_alloc_pages`: the start of the first run of `want` free
pages, with `n` pages left to look at. -/
def scanRun (m : ByteMem) (r : PmmRegion) (want : ℕ) : ℕ → ℕ → ℕ → ℕ → Option ℕ
  | 0, _, _, _ => none
  | n + 1, page, consecutive, startRun =>
    if m.testBit r.bitmapPhys page then scanRun m r want n (page + 1) 0 startRun
    else
      let startRun := if consecutive = 0 then page else startRun
      if consecutive + 1 = want then some startRun
      else scanRun m r want n (page + 1) (consecutive + 1) startRun

/-- The outer loop of `pmm_alloc_pages`. -/
def firstRun (m : ByteMem) (want : ℕ) : List PmmRegion → Option (PmmRegion × ℕ)
  | [] => none
  | r :: rs =>
    if r.totalPages ≤ u64 (r.reservedPages + want) then firstRun m want rs
    else
      match scanRun m r want (r.totalPages - r.reservedPages) r.reservedPages 0 0 with
      | some page => some (r, page)
      | none => firstRun m want rs

/-- `pmm_alloc_pages`. -/
def allocPages (s : Pmm) (n : ℕ) : Option (ℕ × Pmm) :=
  if n = 0 then some (0, s)
  else if n = 1 then s.allocPage
  else
    (firstRun s.mem n s.regions).map fun (r, page) =>
      (r.pageAddr page, { s with mem := setBits s.mem r page n, usedPages := s.usedPages + n })

/-- `pmm_free_page`. -/
def freePage (s : Pmm) (addr : ℕ) : Option Pmm :=
  match s.findRegion addr with
  | none => none
  | some r =>
    let idx := (addr - r.physStart) / 4096
    if r.totalPages ≤ idx then none
    else if idx < r.reservedPages then none
    else if s.mem.testBit r.bitmapPhys idx then
      some { s with mem := s.mem.clearBit r.bitmapPhys idx, usedPages := s.usedPages - 1 }
    else none

/-- `pmm_used_bytes`. -/
def usedBytes (s : Pmm) : ℕ := u64 (s.usedPages * 4096)

end Pmm

/-! ### Runs -/

/-- The manager, and the frames handed out and not given back. -/
structure PmmState where
  pmm : Pmm
  live : Finset ℕ

inductive PmmOp
  | allocPage
  | allocPages (n : ℕ)
  | freePage (addr : ℕ)
  /-- A client writes to a frame it holds. -/
  | write (addr : ℕ) (b : UInt8)
  deriving DecidableEq, Repr

/-- The frame of an address. -/
def frameOf (addr : ℕ) : ℕ := addr - addr % 4096

/-- The `n` frames from an address on. -/
def framesFrom (addr n : ℕ) : Finset ℕ := (Finset.range n).image fun k => addr + k * 4096

namespace PmmState

def step (s : PmmState) : PmmOp → Option PmmState
  | .allocPage => s.pmm.allocPage.map fun (a, p) => ⟨p, insert a s.live⟩
  | .allocPages n => (s.pmm.allocPages n).map fun (a, p) => ⟨p, framesFrom a n ∪ s.live⟩
  | .freePage addr => (s.pmm.freePage addr).map fun p => ⟨p, s.live.erase (frameOf addr)⟩
  | .write addr b =>
    if frameOf addr ∈ s.live then
      some { s with pmm := { s.pmm with mem := Function.update s.pmm.mem addr b } }
    else none

/-- The states that calls which do not panic lead to. -/
def ReachableFrom (s₀ : PmmState) : PmmState → Prop :=
  Reach (· = s₀) fun s s' => ∃ op, s.step op = some s'

end PmmState

end Neptune
