import Neptune.Heap.Alloc
import Neptune.Lib.Runs

/-!
# Runs of the kernel heap

A run starts at `kheap_init` and is any sequence of `kalloc` and `kfree` calls,
of writes by the owners of blocks, and of `kalloc_enable_frees`.  The state
records the blocks that are live, with the extent each was handed out with.

## Main results

* `heapBlocks_disjoint` — live blocks and free nodes never overlap.
* `kalloc_holds_iff` — when a block holds the bytes that were asked for.
-/

namespace Neptune

open Function List Option
open Extent (Apart Packed)
open Kheap (Layout NoWrap slabNodes)

/-- A block that `kalloc` has returned and nobody has freed. -/
structure LiveBlock where
  /-- The address of its header. -/
  block : ℕ
  /-- Its length, header included. -/
  size : ℕ
  /-- The slab class the request was served from. -/
  cls : Option ℕ

namespace LiveBlock

/-- The pointer the owner has. -/
def ptr (l : LiveBlock) : ℕ := l.block + heapPayloadOffset

def extent (l : LiveBlock) : Extent := ⟨l.block, l.size⟩

end LiveBlock

/-- The heap and its live blocks. -/
structure HeapState where
  heap : Kheap
  live : List LiveBlock

/-- What can happen to the heap. -/
inductive HeapOp
  | alloc (size align : ℕ)
  | free (ptr : ℕ)
  /-- A block's owner stores a byte. -/
  | write (addr : ℕ) (byte : UInt8)
  | enableFrees

namespace HeapState

/-- Requests are not empty and do not wrap, only live pointers are freed, and
owners write from their pointer up to the end of their block. -/
def Allowed (s : HeapState) : HeapOp → Prop
  | .alloc size align => 0 < size ∧ NoWrap s.heap size align
  | .free ptr => ∃ l ∈ s.live, l.ptr = ptr
  | .write addr _ => ∃ l ∈ s.live, l.ptr ≤ addr ∧ addr < l.extent.limit
  | .enableFrees => True

instance (s : HeapState) : (op : HeapOp) → Decidable (s.Allowed op)
  | .alloc _ _ => inferInstanceAs (Decidable (_ ∧ _))
  | .free _ => inferInstanceAs (Decidable (∃ l ∈ s.live, _))
  | .write _ _ => inferInstanceAs (Decidable (∃ l ∈ s.live, _))
  | .enableFrees => inferInstanceAs (Decidable True)

/-- Do one operation. -/
def exec (s : HeapState) : HeapOp → Option HeapState
  | .alloc size align => (s.heap.kalloc size align).map fun (ptr, heap) =>
      ⟨heap, ⟨ptr - heapPayloadOffset, s.heap.blockSize size align,
        s.heap.servedClass size align⟩ :: s.live⟩
  | .free ptr => (s.heap.kfree ptr).map fun heap => ⟨heap, s.live.eraseP (·.ptr = ptr)⟩
  | .write addr byte =>
      some { s with heap := { s.heap with mem := update s.heap.mem addr byte } }
  | .enableFrees => some { s with heap := s.heap.kallocEnableFrees }

/-- The states after `kheap_init`, on memory with any contents. -/
def Booted (s : HeapState) : Prop := ∃ mem, s = ⟨kheapInit mem, []⟩

/-- The states a run of allowed operations reaches. -/
def Reachable : HeapState → Prop :=
  Reach Booted fun s t => ∃ op, s.Allowed op ∧ s.exec op = some t

/-- The heap has a layout, and the live blocks are the ones handed out. -/
structure Inv (s : HeapState) (slab : ℕ → List ℕ) (L : List Extent) : Prop where
  layout : Layout s.heap (s.live.map LiveBlock.block) slab L
  size : ∀ l ∈ s.live, s.heap.size l.block = l.size
  cls : ∀ l ∈ s.live, ∀ i, l.cls = some i → slabClass i ≤ l.size ∧ l.size ∈ slabClasses

theorem inv_booted (mem : ByteMem) : Inv ⟨kheapInit mem, []⟩ (fun _ => []) [] := by
  have hnil : slabNodes (fun _ => []) = [] := by decide
  refine ⟨⟨⟨⟨rfl, by simp⟩, List.Pairwise.nil, ?_, ?_⟩, fun i _ => rfl, by simp, by simp, ?_, ?_, ?_,
    ?_⟩, by simp, by simp⟩
  · rw [hnil]; exact Packed.nil
  · show heapBase + 4096 < 2 ^ 64; decide
  · exact le_rfl
  · show heapBase + 4096 ≤ Word64.u64 (heapBase + 4096 + 4096); decide
  · show Word64.u64 (heapBase + 4096 + 4096) % 4096 = 0; decide
  · show Word64.u64 (heapBase + 4096 + 4096) ≤ 2 ^ 64 - 4096; decide

section steps

variable {s : HeapState} {slab : ℕ → List ℕ} {L : List Extent}

/-- A new block joins the live ones. -/
theorem Inv.alloc (hi : Inv s slab L) {size align : ℕ} (hs : 0 < size)
    (hw : NoWrap s.heap size align) :
    ∃ b h' slab' L', s.heap.kalloc size align = some (b + heapPayloadOffset, h') ∧
      Inv ⟨h', ⟨b, s.heap.blockSize size align, s.heap.servedClass size align⟩ :: s.live⟩ slab' L' := by
  obtain ⟨b, h', slab', L', heq, hl', hss, hsize⟩ := hi.layout.alloc hs hw
  refine ⟨b, h', slab', L', heq, hl', ?_, ?_⟩
  · intro l hl
    rcases mem_cons.mp hl with rfl | hl
    · exact hsize
    · exact (hss _ (mem_map_of_mem hl)).trans (hi.size l hl)
  · intro l hl i hc
    rcases mem_cons.mp hl with rfl | hl
    · exact hi.layout.blockSize_of_class hc
    · exact hi.cls l hl i hc

/-- A freed block leaves the live ones. -/
theorem Inv.free (hi : Inv s slab L) {ptr : ℕ} (hp : ∃ l ∈ s.live, l.ptr = ptr) :
    ∃ h' slab' L', s.heap.kfree ptr = some h' ∧ Inv ⟨h', s.live.eraseP (·.ptr = ptr)⟩ slab' L' := by
  obtain ⟨l, hl, hlp⟩ := hp
  obtain ⟨a, l₁, l₂, -, hap, hsplit, herase⟩ :=
    exists_of_eraseP (p := (·.ptr = ptr)) hl (by simpa using hlp)
  obtain rfl : a.ptr = ptr := by simpa using hap
  have hperm : (s.live.map LiveBlock.block).Perm
      (a.block :: (s.live.eraseP (·.ptr = a.ptr)).map LiveBlock.block) := by
    rw [herase, hsplit]
    exact (perm_middle (a := a)).map LiveBlock.block
  have hsub : ∀ c ∈ s.live.eraseP (·.ptr = a.ptr), c ∈ s.live := fun c hc =>
    mem_of_mem_eraseP hc
  obtain ⟨h', slab', L', heq, hl', hss⟩ := (hi.layout.perm hperm).free
  refine ⟨h', slab', L', heq, hl', ?_, fun c hc => hi.cls c (hsub c hc)⟩
  exact fun c hc => (hss _ (mem_map_of_mem hc)).trans (hi.size c (hsub c hc))

/-- Owners' writes leave every header alone. -/
theorem Inv.write (hi : Inv s slab L) {l : LiveBlock} (hl : l ∈ s.live) {addr : ℕ} (byte : UInt8)
    (hlo : l.ptr ≤ addr) (hhi : addr < l.extent.limit) :
    Inv { s with heap := { s.heap with mem := update s.heap.mem addr byte } } slab L := by
  have hoff : heapPayloadOffset = 32 := by decide
  have hpack := hi.layout.large.packed
  have hlext : s.heap.extent l.block = l.extent := by rw [Kheap.extent, hi.size l hl]; rfl
  have hlmem : l.extent ∈ (s.live.map LiveBlock.block ++ slabNodes slab).map s.heap.extent ++ L := by
    rw [← hlext]
    exact mem_append_left _ (mem_map_of_mem (mem_append_left _ (mem_map_of_mem hl)))
  -- the store is apart from every other block and above `l`'s own header
  have hsame : ∀ e ∈ (s.live.map LiveBlock.block ++ slabNodes slab).map s.heap.extent ++ L,
      Kheap.SameHdr s.heap { s.heap with mem := update s.heap.mem addr byte } e.base := by
    intro e he
    refine Kheap.sameHdr_of_bytes fun x hx hx' => update_of_ne ?_ _ _
    have hsz := hpack.size_le e he
    rcases eq_or_ne e l.extent with rfl | hne
    · unfold LiveBlock.ptr at hlo
      have : l.extent.base = l.block := rfl
      omega
    · have := hpack.apart_of_ne he hlmem hne
      unfold LiveBlock.ptr Apart Extent.limit LiveBlock.extent at *
      dsimp only at *
      omega
  have hblocks : ∀ b ∈ s.live.map LiveBlock.block ++ slabNodes slab, Kheap.SameHdr s.heap
      { s.heap with mem := update s.heap.mem addr byte } b := fun b hb =>
    hsame (s.heap.extent b) (mem_append_left _ (mem_map_of_mem hb))
  refine ⟨hi.layout.keep hblocks ⟨rfl, rfl, rfl, rfl⟩ (hi.layout.large.congr rfl rfl fun c hc =>
    hsame c (mem_append_right _ hc)), fun c hc => ?_, hi.cls⟩
  rw [← hi.size c hc]
  exact (hblocks _ (mem_append_left _ (mem_map_of_mem hc))).size

/-- **Every allowed operation returns and keeps the invariant.** -/
theorem Inv.exec (hi : Inv s slab L) {op : HeapOp} (ha : s.Allowed op) :
    ∃ t slab' L', s.exec op = some t ∧ Inv t slab' L' := by
  cases op with
  | alloc size align =>
    obtain ⟨b, h', slab', L', heq, hi'⟩ := hi.alloc ha.1 ha.2
    refine ⟨_, slab', L', ?_, hi'⟩
    simp only [HeapState.exec, heq, map_some, Nat.add_sub_cancel]
  | free ptr =>
    obtain ⟨h', slab', L', heq, hi'⟩ := hi.free ha
    exact ⟨_, slab', L', by rw [HeapState.exec, heq, map_some], hi'⟩
  | write addr byte =>
    obtain ⟨l, hl, hlo, hhi⟩ := ha
    exact ⟨_, slab, L, rfl, hi.write hl byte hlo hhi⟩
  | enableFrees =>
    refine ⟨_, slab, L, rfl, ⟨?_, hi.size, hi.cls⟩⟩
    have hl := hi.layout
    exact ⟨hl.large.congr rfl rfl fun c _ => ⟨rfl, rfl, rfl⟩, hl.slabSeg, hl.slabSize, hl.liveHdr,
      hl.start_le, hl.cur_le, hl.end_page, hl.end_le⟩

end steps

theorem Reachable.inv {s : HeapState} (hr : s.Reachable) : ∃ slab L, Inv s slab L := by
  refine hr.invariant (I := fun s => ∃ slab L, Inv s slab L) ?_ ?_
  · rintro _ ⟨mem, rfl⟩
    exact ⟨_, _, inv_booted mem⟩
  · rintro s t ⟨slab, L, hi⟩ ⟨op, ha, hex⟩
    obtain ⟨t', slab', L', hex', hi'⟩ := hi.exec ha
    obtain rfl : t = t' := some_injective _ (hex.symm.trans hex')
    exact ⟨slab', L', hi'⟩

/-! ### Separation -/

/-- The live blocks, the nodes `slab` of the slab lists and the nodes `large` of
the large list are disjoint. -/
structure Separated (s : HeapState) (slab : ℕ → List ℕ) (large : List ℕ) : Prop where
  slabList : ∀ i < slabCount, Seg s.heap.next (s.heap.freeLists i) (slab i) 0
  largeList : Seg s.heap.next s.heap.freeLarge large 0
  apart : (s.live.map LiveBlock.extent ++ (slabNodes slab ++ large).map s.heap.extent).Pairwise Apart
  within : ∀ e ∈ s.live.map LiveBlock.extent ++ (slabNodes slab ++ large).map s.heap.extent,
    e.Within heapStart s.heap.heapCur
  /-- A node on a slab list is at least as long as the list's class. -/
  slabSize : ∀ i < slabCount, ∀ b ∈ slab i, slabClass i ≤ s.heap.size b
  /-- A live block is as long as its header says, and a block served from a slab
  class has a class size, its own class at least. -/
  liveSize : ∀ l ∈ s.live, s.heap.size l.block = l.size ∧
    ∀ i, l.cls = some i → slabClass i ≤ l.size ∧ l.size ∈ slabClasses
  cur_le : s.heap.heapCur ≤ s.heap.heapEnd

theorem Inv.separated {s : HeapState} {slab : ℕ → List ℕ} {L : List Extent} (hi : Inv s slab L) :
    s.Separated slab (L.map Extent.base) := by
  have hl := hi.layout
  have hlarge : (L.map Extent.base).map s.heap.extent = L := by
    rw [List.map_map]
    refine (List.map_congr_left fun e he => ?_).trans (List.map_id L)
    rw [comp_apply, Kheap.extent, hl.large.rep.size e he, id]
  have hlive : (s.live.map LiveBlock.block).map s.heap.extent = s.live.map LiveBlock.extent := by
    rw [List.map_map]
    refine List.map_congr_left fun l hl => ?_
    rw [comp_apply, Kheap.extent, hi.size l hl, LiveBlock.extent]
  have hall : s.live.map LiveBlock.extent ++ (slabNodes slab ++ L.map Extent.base).map s.heap.extent =
      (s.live.map LiveBlock.block ++ slabNodes slab).map s.heap.extent ++ L := by
    rw [map_append, map_append, hlarge, hlive, append_assoc]
  exact ⟨hl.slabSeg, hl.large.rep.seg, hall ▸ hl.large.packed.apart, hall ▸ hl.large.packed.within,
    fun i hi b hb => (hl.slabSize i hi b hb).2, fun l hl => ⟨hi.size l hl, hi.cls l hl⟩, hl.cur_le⟩

/-- **Live blocks and free nodes never overlap.** -/
theorem heapBlocks_disjoint {s : HeapState} (hr : s.Reachable) :
    ∃ slab large, s.Separated slab large := by
  obtain ⟨slab, L, hi⟩ := hr.inv
  exact ⟨slab, L.map Extent.base, hi.separated⟩

/-- Do the operations one after the other, as long as they are allowed. -/
def execAll (s : HeapState) : List HeapOp → Option HeapState
  | [] => some s
  | op :: ops => if s.Allowed op then (s.exec op).bind fun t => t.execAll ops else none

theorem Reachable.execAll {s t : HeapState} {ops : List HeapOp} (hr : s.Reachable)
    (h : s.execAll ops = some t) : t.Reachable := by
  induction ops generalizing s with
  | nil => exact (some_injective _ h) ▸ hr
  | cons op ops ih =>
    rw [HeapState.execAll] at h
    split at h
    · next ha =>
      obtain ⟨u, hu, hrest⟩ := bind_eq_some_iff.mp h
      exact ih (.step hr ⟨op, ha, hu⟩) hrest
    · cases h

/-- The heap right after `kheap_init` on zeroed memory. -/
def booted : HeapState := ⟨kheapInit fun _ => 0, []⟩

theorem booted_reachable : booted.Reachable := .init ⟨_, rfl⟩

/-- Three blocks, a write, and the first two blocks freed again. -/
def sampleOps : List HeapOp :=
  [.enableFrees, .alloc 40 8, .alloc 9000 64, .alloc 20 0, .write (heapStart + 32) 7,
    .free (heapStart + 32), .free (heapStart + 128)]

theorem heapBlocks_disjoint_sample :
    ∃ t, booted.execAll sampleOps = some t ∧ t.live.length = 1 ∧
      ∃ slab large, t.Separated slab large := by
  have hlen : (booted.execAll sampleOps).map (·.live.length) = some 1 := by decide +kernel
  obtain ⟨t, ht, hone⟩ := map_eq_some_iff.mp hlen
  exact ⟨t, ht, hone, heapBlocks_disjoint (booted_reachable.execAll ht)⟩

/-! ### Room for the payload

`pick_slab_class` counts `HEAP_HDR_SIZE` bytes in front of the payload, but the
payload starts `HEAP_PAYLOAD_OFFSET` bytes into the block. -/

/-- A request from a slab class leaves room for the payload offset: in the class,
or in the longer block that happens to be first on the class's list. -/
def PayloadFits (h : Kheap) (size align : ℕ) : Prop :=
  ∀ i, h.servedClass size align = some i → size + heapPayloadOffset ≤ slabClass i ∨
      h.freeLists i ≠ 0 ∧ size + heapPayloadOffset ≤ h.size (h.freeLists i)

/-- The block a request takes is long enough exactly when the payload fits. -/
theorem Inv.le_blockSize_iff {s : HeapState} {slab : ℕ → List ℕ} {L : List Extent}
    (hi : Inv s slab L) (size align : ℕ) :
    size + heapPayloadOffset ≤ s.heap.blockSize size align ↔ PayloadFits s.heap size align := by
  unfold PayloadFits
  cases hc : s.heap.servedClass size align with
  | none =>
    rw [Kheap.blockSize_of_none hc]
    exact ⟨fun _ i hi => (nomatch hi), fun _ => le_rfl⟩
  | some i =>
    have hcls := (hi.layout.blockSize_of_class hc).1
    rw [Kheap.blockSize_of_some hc] at hcls ⊢
    by_cases h0 : s.heap.freeLists i = 0
    · simp [h0]
    · rw [if_pos h0] at hcls ⊢
      constructor
      · intro hle j hj
        obtain rfl := some_injective _ hj
        exact Or.inr ⟨h0, hle⟩
      · intro hfit
        rcases hfit i rfl with hle | ⟨-, hle⟩
        · exact le_trans hle hcls
        · exact hle

/-- **When a block holds the bytes that were asked for**: `kalloc` returns a
pointer whose `size` bytes lie in its block exactly when the payload fits, and
then they are apart from every other block and free node. -/
theorem kalloc_holds_iff {s : HeapState} (hr : s.Reachable) {size align : ℕ} (hs : 0 < size)
    (hw : NoWrap s.heap size align) :
    ∃ b h', s.heap.kalloc size align = some (b + heapPayloadOffset, h') ∧
      h'.size b = s.heap.blockSize size align ∧
      ((⟨b + heapPayloadOffset, size⟩ : Extent).Within b (b + h'.size b) ↔
        PayloadFits s.heap size align) ∧
      (PayloadFits s.heap size align → ∃ slab large,
        Separated ⟨h', ⟨b, s.heap.blockSize size align, s.heap.servedClass size align⟩ :: s.live⟩
          slab large ∧
        ∀ e ∈ s.live.map LiveBlock.extent ++ (slabNodes slab ++ large).map h'.extent,
          Apart ⟨b + heapPayloadOffset, size⟩ e) := by
  obtain ⟨slab, L, hi⟩ := hr.inv
  obtain ⟨b, h', slab', L', heq, hi'⟩ := hi.alloc hs hw
  have hsize : h'.size b = s.heap.blockSize size align := hi'.size _ mem_cons_self
  have hin : (⟨b + heapPayloadOffset, size⟩ : Extent).Within b (b + h'.size b) ↔
      PayloadFits s.heap size align := by
    rw [← hi.le_blockSize_iff, hsize]
    unfold Extent.Within Extent.limit
    dsimp only
    omega
  refine ⟨b, h', heq, hsize, hin, fun hfit => ⟨slab', L'.map Extent.base, hi'.separated, ?_⟩⟩
  intro e he
  have hblock : Apart ⟨b, h'.size b⟩ e := by
    rw [hsize]
    exact (pairwise_cons.mp hi'.separated.apart).1 e he
  exact hblock.of_within (hin.mpr hfit)

theorem kalloc_holds_ninety :
    ∃ b h', booted.heap.kalloc 90 16 = some (b + heapPayloadOffset, h') ∧
      (⟨b + heapPayloadOffset, 90⟩ : Extent).Within b (b + h'.size b) := by
  have hw : NoWrap booted.heap 90 16 := by decide +kernel
  obtain ⟨b, h', heq, -, hiff, -⟩ := kalloc_holds_iff booted_reachable (by decide) hw
  refine ⟨b, h', heq, hiff.mpr fun i hi => Or.inl ?_⟩
  have h1 : booted.heap.servedClass 90 16 = some 1 := by decide +kernel
  obtain rfl := some_injective _ (h1.symm.trans hi)
  decide

/-- The first request of the boot-time smoke test, `kalloc(40, 8)`, gets a block
that is 8 bytes too short: the last bytes of the payload are the class word of
the block the next request gets. -/
theorem kalloc_forty_overruns :
    booted.Reachable ∧ NoWrap booted.heap 40 8 ∧
      ∃ b h', booted.heap.kalloc 40 8 = some (b + heapPayloadOffset, h') ∧
        ¬ (⟨b + heapPayloadOffset, 40⟩ : Extent).Within b (b + h'.size b) ∧
        ∃ c h'', h'.kalloc 40 8 = some (c + heapPayloadOffset, h'') ∧
          ¬ Apart ⟨b + heapPayloadOffset, 40⟩ ⟨c, heapHdrSize⟩ := by
  have hptr : (booted.heap.kalloc 40 8).map (fun r => (r.1, r.2.size heapStart)) =
      some (heapStart + heapPayloadOffset, 64) := by decide +kernel
  have hnext : ((booted.heap.kalloc 40 8).bind fun r => r.2.kalloc 40 8).map (·.1) =
      some (heapStart + 64 + heapPayloadOffset) := by decide +kernel
  obtain ⟨⟨p, h'⟩, heq, hp⟩ := map_eq_some_iff.mp hptr
  obtain ⟨rfl, hsize⟩ := Prod.mk.inj hp
  obtain ⟨⟨q, h''⟩, heq', rfl⟩ := map_eq_some_iff.mp hnext
  rw [heq, bind_some] at heq'
  refine ⟨booted_reachable, by decide +kernel, heapStart, h', heq, ?_, _, h'', heq', ?_⟩
  · rw [hsize]; decide
  · decide

end HeapState

end Neptune
