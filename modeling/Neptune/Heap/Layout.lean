import Neptune.Heap.Carve

/-!
# The layout of the kernel heap

`Layout h live slab L` describes a whole heap: the live blocks, the nodes of the
eight slab lists and the large free nodes take up disjoint extents between
`HEAP_BASE + 4096` and `heap_cur`.  The size word of a block is written when it
is carved and says how long it is for as long as it exists, while its class word
is overwritten by the links of the lists the block goes through.

## Main results

* `Layout.alloc` — `kalloc` returns, and its block joins the live blocks.
* `Layout.free` — `kfree` of a live block returns and keeps the layout.
-/

namespace Neptune

open Function List
open Word64 Extent

namespace Kheap

/-- The nodes of all the slab lists. -/
def slabNodes (slab : ℕ → List ℕ) : List ℕ := (List.range slabCount).flatMap slab

/-- What the header of a live block says.  The class word of a slab block may be
stale: a block that came from a slab list has its old link there. -/
def LiveHdr (h : Kheap) (b : ℕ) : Prop :=
  h.classIdx b = largeClass ∨ h.classIdx b ≠ largeClass ∧ h.size b ∈ slabClasses ∧
      (h.classIdx b < slabCount → slabClass (h.classIdx b) ≤ h.size b)

/-- The heap is made of the live blocks `live`, the slab lists `slab` and the
large free list `L`. -/
structure Layout (h : Kheap) (live : List ℕ) (slab : ℕ → List ℕ) (L : List Extent) : Prop where
  large : LargeInv h ((live ++ slabNodes slab).map h.extent) L
  slabSeg : ∀ i < slabCount, Seg h.next (h.freeLists i) (slab i) 0
  slabSize : ∀ i < slabCount, ∀ b ∈ slab i, h.size b ∈ slabClasses ∧ slabClass i ≤ h.size b
  liveHdr : ∀ b ∈ live, LiveHdr h b
  start_le : heapStart ≤ h.heapCur
  cur_le : h.heapCur ≤ h.heapEnd
  end_page : h.heapEnd % 4096 = 0
  end_le : h.heapEnd ≤ 2 ^ 64 - 4096

theorem mem_slabNodes {slab : ℕ → List ℕ} {b i : ℕ} (hi : i < slabCount) (hb : b ∈ slab i) :
    b ∈ slabNodes slab := mem_flatMap.mpr ⟨i, mem_range.mpr hi, hb⟩

theorem SameHdr.liveHdr {h h' : Kheap} {b : ℕ} (hs : SameHdr h h' b) (hl : LiveHdr h b) :
    LiveHdr h' b := by
  have hcls : h'.classIdx b = h.classIdx b := hs.next
  unfold LiveHdr
  rw [hcls, hs.size]
  exact hl

/-- The size words of the blocks `l` are the same in both heaps. -/
def SameSizes (l : List ℕ) (h h' : Kheap) : Prop := ∀ b ∈ l, h'.size b = h.size b

theorem map_extent_congr {h h' : Kheap} {l : List ℕ} (hs : SameSizes l h h') :
    l.map h'.extent = l.map h.extent :=
  map_congr_left fun b hb => by rw [extent, extent, hs b hb]

namespace Layout

variable {h h' : Kheap} {live : List ℕ} {slab : ℕ → List ℕ} {L L' : List Extent} {b : ℕ}

theorem within (hl : Layout h live slab L) (hb : b ∈ live ++ slabNodes slab) :
    (h.extent b).Within heapStart h.heapCur :=
  hl.large.packed.within _ (mem_append_left _ (mem_map_of_mem hb))

theorem room (hl : Layout h live slab L) (hb : b ∈ live ++ slabNodes slab) : 33 ≤ h.size b :=
  hl.large.packed.size_le _ (mem_append_left _ (mem_map_of_mem hb))

/-- A block's address and size do not wrap. -/
theorem block_lt (hl : Layout h live slab L) (hb : b ∈ live ++ slabNodes slab) :
    heapBase ≤ b ∧ b + h.size b < 2 ^ 64 := by
  obtain ⟨h1, h2⟩ := hl.within hb
  have := hl.large.cur_lt
  unfold extent limit at *
  dsimp only at *
  exact ⟨le_trans (Nat.le_add_right _ _) h1, by omega⟩

/-- Blocks whose bytes are kept have the same header. -/
theorem sameHdr (hl : Layout h live slab L)
    (hk : Keeps ((live ++ slabNodes slab).map h.extent) h h') :
    ∀ b ∈ live ++ slabNodes slab, SameHdr h h' b := fun b hb =>
  hk.sameHdr (e := h.extent b) (mem_map_of_mem hb) (le_trans (by omega) (hl.room hb))

theorem sameSizes (hl : Layout h live slab L)
    (hk : Keeps ((live ++ slabNodes slab).map h.extent) h h') : SameSizes live h h' :=
  fun c hc => (hl.sameHdr hk c (mem_append_left _ hc)).size

/-- Assemble a layout for a heap whose slab nodes and live blocks have kept
their headers, with the blocks `new` added to the live ones. -/
theorem extend {N : List ℕ} (hl : Layout h live slab L)
    (hsame : ∀ b ∈ live ++ slabNodes slab, SameHdr h h' b)
    (hinv : LargeInv h' (N.map h'.extent ++ (live ++ slabNodes slab).map h.extent) L')
    (hf : h'.freeLists = h.freeLists) (hnew : ∀ b ∈ N, LiveHdr h' b)
    (hstart : heapStart ≤ h'.heapCur) (hcur : h'.heapCur ≤ h'.heapEnd)
    (hpage : h'.heapEnd % 4096 = 0) (hend : h'.heapEnd ≤ 2 ^ 64 - 4096) :
    Layout h' (N ++ live) slab L' := by
  refine ⟨?_, ?_, ?_, ?_, hstart, hcur, hpage, hend⟩
  · rw [append_assoc, map_append,
      map_extent_congr (l := live ++ slabNodes slab) fun b hb => (hsame b hb).size]
    exact hinv
  · intro i hi
    rw [hf]
    exact (hl.slabSeg i hi).congr fun a ha =>
      (hsame a (mem_append_right _ (mem_slabNodes hi ha))).next
  · intro i hi b hb
    rw [(hsame b (mem_append_right _ (mem_slabNodes hi hb))).size]
    exact hl.slabSize i hi b hb
  · intro b hb
    rcases mem_append.mp hb with hb | hb
    · exact hnew b hb
    · exact (hsame b (mem_append_left _ hb)).liveHdr (hl.liveHdr b hb)

/-- The same blocks in a heap with the same variables. -/
theorem keep (hl : Layout h live slab L)
    (hsame : ∀ b ∈ live ++ slabNodes slab, SameHdr h h' b) (hv : SameVars h h')
    (hinv : LargeInv h' ((live ++ slabNodes slab).map h.extent) L') : Layout h' live slab L' :=
  hl.extend (N := []) hsame hinv hv.freeLists (by simp) (hv.heapCur ▸ hl.start_le)
    (hv.heapCur ▸ hv.heapEnd ▸ hl.cur_le) (hv.heapEnd ▸ hl.end_page) (hv.heapEnd ▸ hl.end_le)

/-- Forget a live block. -/
theorem drop (hl : Layout h (b :: live) slab L) : Layout h live slab L :=
  ⟨hl.large.sublist (sublist_cons_self _ _), hl.slabSeg, hl.slabSize,
    fun c hc => hl.liveHdr c (mem_cons_of_mem _ hc), hl.start_le, hl.cur_le, hl.end_page,
    hl.end_le⟩

theorem perm {live' : List ℕ} (hl : Layout h live slab L) (hp : live.Perm live') :
    Layout h live' slab L :=
  ⟨hl.large.perm ((hp.append_right _).map _), hl.slabSeg, hl.slabSize,
    fun c hc => hl.liveHdr c (hp.mem_iff.mpr hc), hl.start_le, hl.cur_le, hl.end_page, hl.end_le⟩

/-! ### The slab lists -/

theorem slabNodes_push (slab : ℕ → List ℕ) {i : ℕ} (hi : i < slabCount) (b : ℕ) :
    (slabNodes (update slab i (b :: slab i))).Perm (b :: slabNodes slab) :=
  perm_flatMap_push slab b hi

/-- Head pointers of slab lists are machine words. -/
theorem freeLists_lt (hl : Layout h live slab L) {i : ℕ} (hi : i < slabCount) :
    h.freeLists i < 2 ^ 64 := by
  have hseg := hl.slabSeg i hi
  cases hs : slab i with
  | nil =>
    rw [hs] at hseg
    have : h.freeLists i = 0 := hseg
    omega
  | cons b t =>
    rw [hs] at hseg
    have hb : b ∈ live ++ slabNodes slab :=
      mem_append_right _ (mem_slabNodes hi (hs ▸ mem_cons_self))
    have := hl.block_lt hb
    rw [hseg.1]
    omega

/-- Taking the first block off a slab list makes it live. -/
theorem pop (hl : Layout h live slab L) {i : ℕ} (hi : i < slabCount) {t : List ℕ}
    (hs : slab i = b :: t) :
    h.freeLists i = b ∧ Layout (h.popSlab i).2 (b :: live) (update slab i t) L := by
  have hseg := hl.slabSeg i hi
  rw [hs] at hseg
  obtain ⟨hhead, -, ht⟩ := hseg
  have hback : update (update slab i t) i (b :: t) = slab := by
    rw [update_idem, ← hs, update_eq_self]
  have hperm : (slabNodes slab).Perm (b :: slabNodes (update slab i t)) := by
    have := slabNodes_push (update slab i t) hi b
    rwa [update_self, hback] at this
  have hbmem : b ∈ live ++ slabNodes slab :=
    mem_append_right _ (mem_slabNodes hi (hs ▸ mem_cons_self))
  refine ⟨hhead, ?_, ?_, ?_, ?_, hl.start_le, hl.cur_le, hl.end_page, hl.end_le⟩
  · exact (hl.large.perm (((hperm.append_left live).trans perm_middle).map h.extent)).congr
      rfl rfl fun c _ => ⟨rfl, rfl, rfl⟩
  · intro j hj
    show Seg h.next (update h.freeLists i (h.next (h.freeLists i)) j) _ 0
    rcases eq_or_ne j i with rfl | hne
    · rwa [update_self, update_self, hhead]
    · rw [update_of_ne hne, update_of_ne hne]
      exact hl.slabSeg j hj
  · intro j hj c hc
    refine hl.slabSize j hj c ?_
    rcases eq_or_ne j i with rfl | hne
    · rw [update_self] at hc; simp [hs, hc]
    · rwa [update_of_ne hne] at hc
  · intro c hc
    rcases mem_cons.mp hc with rfl | hc
    · -- the class word is the link to the next block, or null: class 0 fits any block
      obtain ⟨hcls, hsz⟩ := hl.slabSize i hi c (hs ▸ mem_cons_self)
      have hnext : h.next c = 0 ∨ heapBase ≤ h.next c ∧ h.next c < 2 ^ 64 - 1 := by
        cases t with
        | nil => exact .inl ht
        | cons d t =>
          have hd := hl.block_lt (b := d) (mem_append_right _ (mem_slabNodes hi (by simp [hs])))
          have hroom := hl.room (b := d) (mem_append_right _ (mem_slabNodes hi (by simp [hs])))
          rw [ht.1]
          exact .inr ⟨hd.1, by omega⟩
      have hbig : slabCount < heapBase := by decide
      refine .inr ⟨?_, hcls, ?_⟩
      · show h.next c ≠ largeClass
        unfold largeClass
        omega
      · intro hlt
        have h0 : h.next c = 0 := by
          rcases hnext with h0 | h0
          · exact h0
          · exact absurd (lt_of_lt_of_le hbig h0.1) (not_lt.mpr (le_of_lt hlt))
        show slabClass (h.next c) ≤ h.size c
        rw [h0]
        revert hcls
        generalize h.size c = n
        decide +revert
    · exact hl.liveHdr c hc

/-- Freeing a live block to the slab list its class word names. -/
theorem push (hl : Layout h (b :: live) slab L) {i : ℕ} (hi : i < slabCount)
    (hcls : h.size b ∈ slabClasses) (hfit : slabClass i ≤ h.size b)
    (hm : h'.mem = (h.setNext b (h.freeLists i)).mem) (hfl : h'.freeLarge = h.freeLarge)
    (hcur : h'.heapCur = h.heapCur) (hend : h'.heapEnd = h.heapEnd)
    (hf : h'.freeLists = update h.freeLists i b) :
    Layout h' live (update slab i (b :: slab i)) L ∧ SameSizes live h h' := by
  have hb : b ∈ b :: live ++ slabNodes slab := mem_cons_self
  have ho : OnlyHdrs [b] h.mem h'.mem := hm ▸ onlyHdrs_setNext h b _
  have hsize : h'.size b = h.size b := by unfold Kheap.size; rw [hm]; exact size_setNext h b _
  have hnext : h'.next b = h.freeLists i := by
    unfold Kheap.next; rw [hm]; exact next_setNext (hl.freeLists_lt hi)
  -- the store touches the block's own header only
  obtain ⟨hinv, hk⟩ := hl.large.setUsed (e := h.extent b) ho hfl hcur
  have hsame : ∀ c ∈ live ++ slabNodes slab, SameHdr h h' c := fun c hc =>
    hk.sameHdr (e := h.extent c) (mem_map_of_mem hc)
      (le_trans (by omega) (hl.room (mem_cons_of_mem b hc)))
  have hperm : (live ++ slabNodes (update slab i (b :: slab i))).Perm (b :: (live ++ slabNodes slab)) :=
    ((slabNodes_push slab hi b).append_left live).trans perm_middle
  have hsizes : ∀ c ∈ live ++ slabNodes (update slab i (b :: slab i)), h'.size c = h.size c := by
    intro c hc
    rcases mem_cons.mp (hperm.mem_iff.mp hc) with rfl | hc
    · exact hsize
    · exact (hsame c hc).size
  refine ⟨⟨?_, ?_, ?_, ?_, hcur ▸ hl.start_le, hcur ▸ hend ▸ hl.cur_le, hend ▸ hl.end_page,
    hend ▸ hl.end_le⟩, fun c hc => (hsame c (mem_append_left _ hc)).size⟩
  · rw [map_extent_congr hsizes]
    exact hinv.perm (hperm.map h.extent).symm
  · intro j hj
    rw [hf]
    rcases eq_or_ne j i with rfl | hne
    · rw [update_self, update_self]
      refine ⟨rfl, ?_, ?_⟩
      · have := (hl.block_lt hb).1
        have : 0 < heapBase := by decide
        omega
      · rw [hnext]
        exact (hl.slabSeg j hj).congr fun a ha =>
          (hsame a (mem_append_right _ (mem_slabNodes hj ha))).next
    · rw [update_of_ne hne, update_of_ne hne]
      exact (hl.slabSeg j hj).congr fun a ha =>
        (hsame a (mem_append_right _ (mem_slabNodes hj ha))).next
  · intro j hj c hc
    rcases eq_or_ne j i with rfl | hne
    · rw [update_self] at hc
      rcases mem_cons.mp hc with rfl | hc
      · rw [hsize]; exact ⟨hcls, hfit⟩
      · rw [(hsame c (mem_append_right _ (mem_slabNodes hj hc))).size]
        exact hl.slabSize j hj c hc
    · rw [update_of_ne hne] at hc
      rw [(hsame c (mem_append_right _ (mem_slabNodes hj hc))).size]
      exact hl.slabSize j hj c hc
  · intro c hc
    exact (hsame c (mem_append_left _ hc)).liveHdr (hl.liveHdr c (mem_cons_of_mem _ hc))

end Layout

end Kheap

end Neptune
