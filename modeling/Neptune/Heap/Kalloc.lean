import Neptune.Lib.ByteMem
import Neptune.Lib.Extent
import Neptune.Lib.Word64

/-!
# The kernel heap

`heap.c` serves allocations from three places: a first-fit list of large free
nodes, eight lists of slab blocks, and the bump region between `heap_cur` and
the end of the heap.  Headers and free-list nodes live in the heap's own memory
and overlay each other: the first word of a block is its class while it is
allocated and the link of its list while it is free.  The model keeps that
memory as bytes, so a stale header is read back as whatever was written last.

`pmm_alloc_page` and `mmu_map_page` always succeed here, so mapping a page only
moves `heap_end`.  The pointer loops run on `walkFuel` steps, more than there are
addresses: a walk that uses them up has met a node twice and never ends, and the
functions return `none`.

## Main definitions

* `Kheap` — the allocator's variables and the heap memory.
* `Kheap.insertLargeNode`, `Kheap.insertLargeFragment` — the large free list.
* `Kheap.kalloc`, `Kheap.kfree`, `kheapInit`, `Kheap.kallocEnableFrees`.
-/

namespace Neptune

open Function
open Word64

/-- `HEAP_BASE`. -/
def heapBase : ℕ := 0xFFFF900000000000

/-- `HEAP_HDR_SIZE`, the size of `struct alloc_hdr`. -/
def heapHdrSize : ℕ := 24

/-- `HEAP_PAYLOAD_OFFSET`, where the bytes handed to the caller start. -/
def heapPayloadOffset : ℕ := (heapHdrSize + 15) &&& not64 15

/-- `LARGE_CLASS`, the class index of blocks that belong to no slab class. -/
def largeClass : ℕ := 2 ^ 64 - 1

/-- `slab_classes`. -/
def slabClasses : List ℕ := [64, 128, 256, 512, 1024, 2048, 4096, 8192]

/-- `slab_count`. -/
def slabCount : ℕ := slabClasses.length

/-- `slab_classes[i]`. -/
def slabClass (i : ℕ) : ℕ := slabClasses.getD i 0

/-- `large_split_min`: smaller pieces of a split node are dropped. -/
def largeSplitMin : ℕ := heapPayloadOffset + 32

/-- Steps after which a pointer walk has repeated an address. -/
def walkFuel : ℕ := 2 ^ 64

/-- Pages in the address space, and so the most `ensure_space` can map. -/
def pageFuel : ℕ := 2 ^ 52

/-- The variables of `heap.c`, with the memory the heap manages. -/
structure Kheap where
  mem : ByteMem
  heapCur : ℕ
  heapEnd : ℕ
  heapReady : Bool
  freesEnabled : Bool
  /-- Heads of the slab free lists. -/
  freeLists : ℕ → ℕ
  /-- Head of the list of large free nodes. -/
  freeLarge : ℕ
  totalAllocs : ℕ
  totalFrees : ℕ
  slabAllocs : ℕ → ℕ
  slabReuses : ℕ → ℕ
  largeAllocs : ℕ
  largeReuses : ℕ

namespace Kheap

/-! ### Headers and free nodes

`struct alloc_hdr` is `class_idx, size, align` and `struct free_node` is
`next, size, align`, at the same three words. -/

/-- `node->next`. -/
def next (h : Kheap) (a : ℕ) : ℕ := h.mem.load 8 a

/-- `hdr->class_idx`, the word that holds `next` in a free node. -/
def classIdx (h : Kheap) (a : ℕ) : ℕ := h.mem.load 8 a

/-- `hdr->size`, also `node->size`. -/
def size (h : Kheap) (a : ℕ) : ℕ := h.mem.load 8 (a + 8)

/-- `hdr->align`, also `node->align`. -/
def align (h : Kheap) (a : ℕ) : ℕ := h.mem.load 8 (a + 16)

def setNext (h : Kheap) (a v : ℕ) : Kheap := { h with mem := h.mem.store 8 a v }

def setClassIdx (h : Kheap) (a v : ℕ) : Kheap := { h with mem := h.mem.store 8 a v }

def setSize (h : Kheap) (a v : ℕ) : Kheap := { h with mem := h.mem.store 8 (a + 8) v }

def setAlign (h : Kheap) (a v : ℕ) : Kheap := { h with mem := h.mem.store 8 (a + 16) v }

/-- The three header stores of `kalloc`. -/
def setHdr (h : Kheap) (a cls size align : ℕ) : Kheap :=
  ((h.setClassIdx a cls).setSize a size).setAlign a align

/-- The bytes a block or free node takes up, by its own size word. -/
def extent (h : Kheap) (a : ℕ) : Extent := ⟨a, h.size a⟩

/-! ### The large free list -/

/-- `is_canonical`. -/
def isCanonical (addr : ℕ) : Bool := addr >>> 47 == 0 || addr >>> 47 == 0x1FFFF

/-- The search loop of `insert_large_node`: the last node below `addr`, null if
there is none, and the node after it. -/
def findLargeSpot (m : ByteMem) (addr : ℕ) : ℕ → ℕ → ℕ → Option (ℕ × ℕ)
  | 0, _, _ => none
  | fuel + 1, prev, cur =>
    if cur ≠ 0 ∧ cur < addr then findLargeSpot m addr fuel cur (m.load 8 cur)
    else some (prev, cur)

/-- Store `v` through `prev`, where null stands for `&free_large`. -/
def setLink (h : Kheap) (prev v : ℕ) : Kheap :=
  if prev = 0 then { h with freeLarge := v } else h.setNext prev v

/-- `x->size += y->size; x->next = y->next`. -/
def absorb (h : Kheap) (x y : ℕ) : Kheap :=
  let h := h.setSize x (h.size x + h.size y)
  h.setNext x (h.next y)

/-- Coalesce `x` with the node `y` if `y` starts where `x` ends. -/
def coalesce (h : Kheap) (x y : ℕ) : Kheap :=
  if y ≠ 0 ∧ u64 (x + h.size x) = y then h.absorb x y else h

/-- Coalesce `node` with its predecessor, and the result with what follows. -/
def coalescePrev (h : Kheap) (prev node : ℕ) : Kheap :=
  if prev ≠ 0 ∧ u64 (prev + h.size prev) = node then
    let h := h.absorb prev node
    h.coalesce prev (h.next prev)
  else h

/-- `insert_large_node`. -/
def insertLargeNode (h : Kheap) (node : ℕ) : Option Kheap :=
  if node = 0 ∨ isCanonical node = false then some h
  else
    let h := h.setAlign node 16
    (findLargeSpot h.mem node walkFuel 0 h.freeLarge).map fun (prev, cur) =>
      let h := (h.setNext node cur).setLink prev node
      (h.coalesce node cur).coalescePrev prev node

/-- `insert_large_fragment`. -/
def insertLargeFragment (h : Kheap) (addr size : ℕ) : Option Kheap :=
  if size < largeSplitMin then some h
  else if isCanonical addr = false then some h
  else (h.setSize addr size).insertLargeNode addr

/-! ### Allocation -/

/-- `pick_slab_class`, with `none` for `-1`. -/
def pickSlabClass (size align : ℕ) : Option ℕ :=
  let need := u64 (size + heapHdrSize)
  let reqAlign := if align < 16 then 16 else align
  slabClasses.findIdx? fun c => decide (need ≤ c ∧ reqAlign ≤ c)

/-- `ensure_space`: map pages until `[alignedStart, alignedStart + need)` is
below `heap_end`. -/
def ensureSpace (alignedStart need : ℕ) : ℕ → ℕ → Option ℕ
  | 0, _ => none
  | fuel + 1, heapEnd =>
    if heapEnd < u64 (alignedStart + need) then ensureSpace alignedStart need fuel (u64 (heapEnd + 4096))
    else some heapEnd

/-- Where a block carved out of `node` starts: its payload is aligned. -/
def fitStart (reqAlign node : ℕ) : ℕ :=
  u64 (alignUp (u64 (node + heapPayloadOffset)) reqAlign + (2 ^ 64 - heapPayloadOffset))

/-- The test of the first-fit loop. -/
def fitsAt (m : ByteMem) (totalNeed reqAlign node : ℕ) : Prop :=
  totalNeed ≤ m.load 8 (node + 8) ∧ node ≤ fitStart reqAlign node ∧
    u64 (fitStart reqAlign node + totalNeed) ≤ u64 (node + m.load 8 (node + 8))

instance (m : ByteMem) (totalNeed reqAlign node : ℕ) : Decidable (fitsAt m totalNeed reqAlign node) :=
  inferInstanceAs (Decidable (_ ∧ _ ∧ _))

/-- The first-fit loop of `kalloc` over `free_large`: the link to the node that
fits and the node, `some none` when no node does. -/
def findLargeFit (m : ByteMem) (totalNeed reqAlign : ℕ) : ℕ → ℕ → ℕ → Option (Option (ℕ × ℕ))
  | 0, _, _ => none
  | fuel + 1, prev, node =>
    if node = 0 then some none
    else if fitsAt m totalNeed reqAlign node then some (some (prev, node))
    else findLargeFit m totalNeed reqAlign fuel node (m.load 8 node)

/-- The header and the counters of a block from the large list. -/
def finishCarve (h : Kheap) (block totalNeed reqAlign : ℕ) : Kheap :=
  let h := h.setHdr block largeClass totalNeed reqAlign
  { h with totalAllocs := h.totalAllocs + 1, largeReuses := h.largeReuses + 1 }

/-- Carve a block out of `node`, which `prev` links to, and give the pieces in
front of it and behind it back to the list. -/
def carveLarge (h : Kheap) (totalNeed reqAlign prev node : ℕ) : Option (ℕ × Kheap) :=
  let nodeEnd := u64 (node + h.size node)
  let alignedStart := fitStart reqAlign node
  let blockEnd := u64 (alignedStart + totalNeed)
  let h := h.setLink prev (h.next node)
  (if node < alignedStart then h.insertLargeFragment node (alignedStart - node) else some h).bind fun h =>
  (if blockEnd < nodeEnd then h.insertLargeFragment blockEnd (nodeEnd - blockEnd) else some h).bind fun h =>
  some (u64 (alignedStart + heapPayloadOffset), h.finishCarve alignedStart totalNeed reqAlign)

/-- Take the first block off slab list `idx`.  Its header is left as it is. -/
def popSlab (h : Kheap) (idx : ℕ) : ℕ × Kheap :=
  let node := h.freeLists idx
  (u64 (node + heapPayloadOffset),
    { h with
      freeLists := update h.freeLists idx (h.next node)
      totalAllocs := h.totalAllocs + 1
      slabReuses := update h.slabReuses idx (h.slabReuses idx + 1) })

/-- `heap_cur`, the header and the counters for a fresh slab block at `block`. -/
def placeSlab (h : Kheap) (block heapEnd idx reqAlign : ℕ) : Kheap :=
  let h := { h with heapCur := u64 (block + slabClass idx), heapEnd := heapEnd }
  let h := h.setHdr block idx (slabClass idx) reqAlign
  { h with
    totalAllocs := h.totalAllocs + 1
    slabAllocs := update h.slabAllocs idx (h.slabAllocs idx + 1) }

/-- A fresh slab block of class `idx` from the bump region. -/
def bumpSlab (h : Kheap) (idx reqAlign : ℕ) : Option (ℕ × Kheap) :=
  let block := alignUp h.heapCur reqAlign
  (ensureSpace block (slabClass idx) pageFuel h.heapEnd).map fun heapEnd =>
    (u64 (block + heapPayloadOffset), h.placeSlab block heapEnd idx reqAlign)

/-- `heap_cur`, the header and the counters for a fresh large block at `block`. -/
def placeLarge (h : Kheap) (block heapEnd totalNeed reqAlign : ℕ) : Kheap :=
  let h := { h with heapCur := u64 (block + totalNeed), heapEnd := heapEnd }
  let h := h.setHdr block largeClass totalNeed reqAlign
  { h with totalAllocs := h.totalAllocs + 1, largeAllocs := h.largeAllocs + 1 }

/-- A fresh large block from the bump region. -/
def bumpLarge (h : Kheap) (totalNeed reqAlign : ℕ) : Option (ℕ × Kheap) :=
  let block := fitStart reqAlign h.heapCur
  (ensureSpace block totalNeed pageFuel h.heapEnd).map fun heapEnd =>
    (u64 (block + heapPayloadOffset), h.placeLarge block heapEnd totalNeed reqAlign)

/-- `align`, with the default for 0. -/
def effAlign (align : ℕ) : ℕ := if align = 0 then 8 else align

/-- `req_align`. -/
def reqAlign (align : ℕ) : ℕ := if effAlign align < 16 then 16 else effAlign align

/-- `total_need`. -/
def totalNeed (size : ℕ) : ℕ := u64 (size + heapPayloadOffset)

/-- The first-fit search of a request, which comes first whatever its size. -/
def largeFit (h : Kheap) (size align : ℕ) : Option (Option (ℕ × ℕ)) :=
  findLargeFit h.mem (totalNeed size) (reqAlign align) walkFuel 0 h.freeLarge

/-- `kalloc`: the pointer, null for an empty request, and the heap after. -/
def kalloc (h : Kheap) (size align : ℕ) : Option (ℕ × Kheap) :=
  if size = 0 then some (0, h)
  else (h.largeFit size align).bind fun
    | some (prev, node) => h.carveLarge (totalNeed size) (reqAlign align) prev node
    | none =>
      match pickSlabClass size (effAlign align) with
      | some idx =>
        if h.freeLists idx ≠ 0 then some (h.popSlab idx) else h.bumpSlab idx (reqAlign align)
      | none => h.bumpLarge (totalNeed size) (reqAlign align)

/-- `kfree`. -/
def kfree (h : Kheap) (ptr : ℕ) : Option Kheap :=
  if ptr = 0 ∨ h.freesEnabled = false then some h
  else
    let block := u64 (ptr + (2 ^ 64 - heapPayloadOffset))
    let idx := h.classIdx block
    if idx = largeClass then
      let h := (h.setSize block (h.size block)).setAlign block (h.align block)
      if isCanonical block = false then some h
      else (h.insertLargeNode block).map fun h => { h with totalFrees := h.totalFrees + 1 }
    else if slabCount ≤ idx then some h
    else if isCanonical block = false then some h
    else
      let h := h.setNext block (h.freeLists idx)
      some { h with
        freeLists := update h.freeLists idx block
        totalFrees := h.totalFrees + 1 }

/-- `kalloc_enable_frees`. -/
def kallocEnableFrees (h : Kheap) : Kheap := { h with freesEnabled := true }

end Kheap

/-- The heap after `kheap_init`, on memory with contents `mem`. -/
def kheapInit (mem : ByteMem) : Kheap where
  mem := mem
  heapCur := heapBase + 4096
  heapEnd := u64 (heapBase + 4096 + 4096)
  heapReady := true
  freesEnabled := false
  freeLists := fun _ => 0
  freeLarge := 0
  totalAllocs := 0
  totalFrees := 0
  slabAllocs := fun _ => 0
  slabReuses := fun _ => 0
  largeAllocs := 0
  largeReuses := 0

end Neptune
