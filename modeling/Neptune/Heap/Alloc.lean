import Neptune.Heap.Layout

/-!
# `kalloc` and `kfree` keep the layout

Each of the three places a block can come from adds one block to the live ones;
`kfree` takes one away.

## Main results

* `Layout.alloc` — `kalloc` returns, and its block joins the live blocks.
* `Layout.free` — `kfree` of a live block returns and keeps the layout.
-/

namespace Neptune

open List
open Word64 Extent

namespace Kheap

/-- The slab class a request is served from, `none` when its block comes from
the large list or is too big for any class. -/
def servedClass (h : Kheap) (size align : ℕ) : Option ℕ :=
  match h.largeFit size align with
  | some (some _) => none
  | _ => pickSlabClass size (effAlign align)

/-- How long the block is that a request takes: blocks from a slab list keep the
size they were carved with. -/
def blockSize (h : Kheap) (size align : ℕ) : ℕ :=
  match h.servedClass size align with
  | some i => if h.freeLists i ≠ 0 then h.size (h.freeLists i) else slabClass i
  | none => size + heapPayloadOffset

/-- No wrap on the bump paths: neither the block's address nor `heap_end`, which
ends less than a page after the block. -/
def BumpNoWrap (h : Kheap) (size align : ℕ) : Option ℕ → Prop
  | some i => h.freeLists i = 0 → h.heapCur + reqAlign align - 1 < 2 ^ 64 ∧
        alignUp h.heapCur (reqAlign align) + slabClass i ≤ 2 ^ 64 - 4096
  | none =>
      h.heapCur + heapPayloadOffset + reqAlign align - 1 < 2 ^ 64 ∧
        fitStart (reqAlign align) h.heapCur + (size + heapPayloadOffset) ≤ 2 ^ 64 - 4096

/-- No wrap on the path a request takes after its first-fit search. -/
def PathNoWrap (h : Kheap) (size align : ℕ) : Option (Option (ℕ × ℕ)) → Prop
  | some (some (_, node)) =>
      node + heapPayloadOffset + reqAlign align - 1 < 2 ^ 64 ∧
        fitStart (reqAlign align) node + (size + heapPayloadOffset) < 2 ^ 64
  | _ => BumpNoWrap h size align (pickSlabClass size (effAlign align))

/-- The additions that `kalloc(size, align)` does on its path do not wrap. -/
def NoWrap (h : Kheap) (size align : ℕ) : Prop :=
  size + heapPayloadOffset < 2 ^ 64 ∧ PathNoWrap h size align (h.largeFit size align)

instance (h : Kheap) (size align : ℕ) : (c : Option ℕ) → Decidable (BumpNoWrap h size align c)
  | some _ => inferInstanceAs (Decidable (_ → _ ∧ _))
  | none => inferInstanceAs (Decidable (_ ∧ _))

instance (h : Kheap) (size align : ℕ) :
    (f : Option (Option (ℕ × ℕ))) → Decidable (PathNoWrap h size align f)
  | some (some (_, _)) => inferInstanceAs (Decidable (_ ∧ _))
  | some none => inferInstanceAs (Decidable (BumpNoWrap _ _ _ _))
  | none => inferInstanceAs (Decidable (BumpNoWrap _ _ _ _))

instance (h : Kheap) (size align : ℕ) : Decidable (NoWrap h size align) :=
  inferInstanceAs (Decidable (_ ∧ _))

/-! ### The paths of a request -/

section paths

variable {h : Kheap} {size align prev node i : ℕ}

theorem kalloc_of_class (hs : size ≠ 0) (hf : h.largeFit size align = some none)
    (hc : pickSlabClass size (effAlign align) = some i) :
    h.kalloc size align = if h.freeLists i ≠ 0 then some (h.popSlab i)
      else h.bumpSlab i (reqAlign align) := by
  rw [kalloc, if_neg hs, hf, Option.bind_some, hc]

theorem kalloc_of_large (hs : size ≠ 0) (hf : h.largeFit size align = some none)
    (hc : pickSlabClass size (effAlign align) = none) :
    h.kalloc size align = h.bumpLarge (totalNeed size) (reqAlign align) := by
  rw [kalloc, if_neg hs, hf, Option.bind_some, hc]

theorem servedClass_of_fit (hf : h.largeFit size align = some (some (prev, node))) :
    h.servedClass size align = none := by
  rw [servedClass, hf]

theorem servedClass_of_not_fit (hf : h.largeFit size align = some none) :
    h.servedClass size align = pickSlabClass size (effAlign align) := by
  rw [servedClass, hf]

theorem blockSize_of_none (hc : h.servedClass size align = none) :
    h.blockSize size align = size + heapPayloadOffset := by
  rw [blockSize, hc]

theorem blockSize_of_some (hc : h.servedClass size align = some i) :
    h.blockSize size align =
      if h.freeLists i ≠ 0 then h.size (h.freeLists i) else slabClass i := by
  rw [blockSize, hc]

theorem NoWrap.of_fit (hw : NoWrap h size align)
    (hf : h.largeFit size align = some (some (prev, node))) :
    node + heapPayloadOffset + reqAlign align - 1 < 2 ^ 64 ∧
      fitStart (reqAlign align) node + (size + heapPayloadOffset) < 2 ^ 64 := by
  have := hw.2
  rwa [hf, PathNoWrap] at this

theorem NoWrap.of_class (hw : NoWrap h size align) (hf : h.largeFit size align = some none)
    (hc : pickSlabClass size (effAlign align) = some i) (h0 : h.freeLists i = 0) :
    h.heapCur + reqAlign align - 1 < 2 ^ 64 ∧
      alignUp h.heapCur (reqAlign align) + slabClass i ≤ 2 ^ 64 - 4096 := by
  have := hw.2
  rw [hf, PathNoWrap, hc, BumpNoWrap] at this
  · exact this h0
  · rintro _ _ ⟨⟩

theorem NoWrap.of_large (hw : NoWrap h size align) (hf : h.largeFit size align = some none)
    (hc : pickSlabClass size (effAlign align) = none) :
    h.heapCur + heapPayloadOffset + reqAlign align - 1 < 2 ^ 64 ∧
      fitStart (reqAlign align) h.heapCur + (size + heapPayloadOffset) ≤ 2 ^ 64 - 4096 := by
  have := hw.2
  rwa [hf, PathNoWrap, hc, BumpNoWrap] at this
  rintro _ _ ⟨⟩

theorem totalNeed_eq (hw : NoWrap h size align) : totalNeed size = size + heapPayloadOffset :=
  u64_of_lt hw.1

end paths

theorem reqAlign_pos (align : ℕ) : 0 < reqAlign align := by
  unfold reqAlign
  split <;> omega

/-! ### The bump region -/

/-- `ensure_space` maps pages up to the end of the request and no further than
one page beyond it. -/
theorem ensureSpace_spec {start need : ℕ} (hw : start + need ≤ 2 ^ 64 - 4096) :
    ∀ {fuel heapEnd : ℕ}, heapEnd % 4096 = 0 → heapEnd ≤ 2 ^ 64 - 4096 →
      start + need ≤ heapEnd + 4096 * fuel →
      ∃ e, ensureSpace start need (fuel + 1) heapEnd = some e ∧ start + need ≤ e ∧
        e % 4096 = 0 ∧ e ≤ 2 ^ 64 - 4096 := by
  have hu : u64 (start + need) = start + need := u64_of_lt (by omega)
  intro fuel
  induction fuel with
  | zero =>
    intro heapEnd hp hend hfuel
    rw [ensureSpace, hu, if_neg (by omega)]
    exact ⟨heapEnd, rfl, hfuel, hp, hend⟩
  | succ fuel ih =>
    intro heapEnd hp hend hfuel
    rw [ensureSpace, hu]
    by_cases hlt : heapEnd < start + need
    · have hnext : u64 (heapEnd + 4096) = heapEnd + 4096 := u64_of_lt (by omega)
      rw [if_pos hlt, hnext]
      exact ih (by omega) (by omega) (by omega)
    · rw [if_neg hlt]
      exact ⟨heapEnd, rfl, by omega, hp, hend⟩

theorem pickSlabClass_spec {size align i : ℕ} (h : pickSlabClass size align = some i) :
    i < slabCount ∧ slabClass i ∈ slabClasses := by
  obtain ⟨hlt, -⟩ := findIdx?_eq_some_iff_findIdx_eq.mp h
  have hi : i < slabCount := hlt
  refine ⟨hi, ?_⟩
  unfold slabClass
  rw [getD_eq_getElem _ _ hlt]
  exact getElem_mem hlt

theorem slabClasses_bounds : ∀ c ∈ slabClasses, 33 ≤ c ∧ c < 2 ^ 64 := by decide

namespace Layout

variable {h h' : Kheap} {live : List ℕ} {slab : ℕ → List ℕ} {L : List Extent} {b : ℕ}

/-- A block placed at or above `heap_cur`. -/
theorem place (hl : Layout h live slab L) {n e : ℕ} (hb : h.heapCur ≤ b) (hn : 33 ≤ n)
    (he : b + n ≤ e) (hpage : e % 4096 = 0) (hend : e ≤ 2 ^ 64 - 4096)
    (ho : OnlyHdrs [b] h.mem h'.mem) (hfl : h'.freeLarge = h.freeLarge)
    (hf : h'.freeLists = h.freeLists) (hcur : h'.heapCur = b + n) (hhe : h'.heapEnd = e)
    (hsize : h'.size b = n) (hhdr : LiveHdr h' b) :
    Layout h' (b :: live) slab L ∧ SameSizes live h h' := by
  have hstart := hl.start_le
  have hbelow : ∀ f ∈ (live ++ slabNodes slab).map h.extent ++ L, Apart f ⟨b, 24⟩ := fun f hf =>
    .inl (le_trans (hl.large.packed.within f hf).2 hb)
  have hk : Keeps ((live ++ slabNodes slab).map h.extent) h h' :=
    ho.keeps fun a ha f hf => by
      obtain rfl := mem_singleton.mp ha
      exact hbelow f (mem_append_left _ hf)
  refine ⟨hl.extend (N := [b]) (hl.sameHdr hk) ?_ hf ?_ ?_ ?_ ?_ ?_, hl.sameSizes hk⟩
  · refine ⟨hl.large.rep.congr hfl fun c hc => ho.sameHdr fun a ha => ?_, hl.large.gapped, ?_, ?_⟩
    · obtain rfl := mem_singleton.mp ha
      have h1 := hl.large.packed.within c (mem_append_right _ hc)
      have h2 := hl.large.packed.size_le c (mem_append_right _ hc)
      unfold Within limit at h1
      omega
    · rw [hcur, map_singleton, extent, hsize]
      exact hl.large.packed.cons_top (le_trans hstart hb) hb le_rfl hn
    · rw [hcur]; omega
  · intro c hc
    obtain rfl := mem_singleton.mp hc
    exact hhdr
  · rw [hcur]; omega
  · rw [hcur, hhe]; exact he
  · rw [hhe]; exact hpage
  · rw [hhe]; exact hend

theorem placeSlab (hl : Layout h live slab L) {e idx : ℕ} (req : ℕ) (hb : h.heapCur ≤ b)
    (hidx : idx < slabCount) (hcls : slabClass idx ∈ slabClasses) (he : b + slabClass idx ≤ e)
    (hpage : e % 4096 = 0) (hend : e ≤ 2 ^ 64 - 4096) :
    Layout (h.placeSlab b e idx req) (b :: live) slab L ∧ SameSizes live h (h.placeSlab b e idx req) ∧
      (h.placeSlab b e idx req).size b = slabClass idx := by
  obtain ⟨hn, hn64⟩ := slabClasses_bounds _ hcls
  have hcount : slabCount < 2 ^ 64 - 1 := by decide
  have hsize : (h.placeSlab b e idx req).size b = slabClass idx := size_setHdr hn64
  have hcls' : (h.placeSlab b e idx req).classIdx b = idx := classIdx_setHdr (by omega)
  have hhdr : LiveHdr (h.placeSlab b e idx req) b := by
    refine .inr ⟨?_, ?_, ?_⟩
    · rw [hcls']; unfold largeClass; omega
    · rw [hsize]; exact hcls
    · rw [hcls', hsize]; exact fun _ => le_rfl
  have ho : OnlyHdrs [b] h.mem (h.placeSlab b e idx req).mem := onlyHdrs_setHdr _ b idx _ req
  obtain ⟨hl', hss⟩ := hl.place hb hn he hpage hend ho rfl rfl (u64_of_lt (by omega)) rfl hsize hhdr
  exact ⟨hl', hss, hsize⟩

theorem placeLarge (hl : Layout h live slab L) {e need : ℕ} (req : ℕ) (hb : h.heapCur ≤ b)
    (hn : 33 ≤ need) (he : b + need ≤ e) (hpage : e % 4096 = 0) (hend : e ≤ 2 ^ 64 - 4096) :
    Layout (h.placeLarge b e need req) (b :: live) slab L ∧
      SameSizes live h (h.placeLarge b e need req) ∧
      (h.placeLarge b e need req).size b = need := by
  have hsize : (h.placeLarge b e need req).size b = need := size_setHdr (by omega)
  have ho : OnlyHdrs [b] h.mem (h.placeLarge b e need req).mem :=
    onlyHdrs_setHdr _ b largeClass _ req
  obtain ⟨hl', hss⟩ := hl.place hb hn he hpage hend ho rfl rfl (u64_of_lt (by omega)) rfl hsize
    (.inl (classIdx_setHdr (by decide)))
  exact ⟨hl', hss, hsize⟩

/-- A block carved out of the large list. -/
theorem carved (hl : Layout h live slab L) {need : ℕ} {L' : List Extent}
    (hinv : LargeInv h' (⟨b, need⟩ :: (live ++ slabNodes slab).map h.extent) L')
    (hv : SameVars h h') (hk : Keeps ((live ++ slabNodes slab).map h.extent) h h')
    (hcls : h'.classIdx b = largeClass) (hsize : h'.size b = need) :
    Layout h' (b :: live) slab L' := by
  refine hl.extend (N := [b]) (hl.sameHdr hk) ?_ hv.freeLists ?_
    (hv.heapCur ▸ hl.start_le) (hv.heapCur ▸ hv.heapEnd ▸ hl.cur_le) (hv.heapEnd ▸ hl.end_page) (hv.heapEnd ▸ hl.end_le)
  · rw [map_singleton, extent, hsize]
    exact hinv
  · intro c hc
    obtain rfl := mem_singleton.mp hc
    exact .inl hcls

/-- Enough pages can always be mapped for a block that ends below the last page. -/
theorem ensure (hl : Layout h live slab L) {start need : ℕ} (hw : start + need ≤ 2 ^ 64 - 4096) :
    ∃ e, ensureSpace start need pageFuel h.heapEnd = some e ∧ start + need ≤ e ∧
      e % 4096 = 0 ∧ e ≤ 2 ^ 64 - 4096 := by
  have hfuel : pageFuel = 4503599627370495 + 1 := by decide
  rw [hfuel]
  exact ensureSpace_spec hw hl.end_page hl.end_le (by omega)

/-! ### The two calls -/

/-- The head of a slab list that is not empty. -/
theorem slab_head (hl : Layout h live slab L) {i : ℕ} (hi : i < slabCount)
    (h0 : h.freeLists i ≠ 0) : ∃ t, slab i = h.freeLists i :: t := by
  have hseg := hl.slabSeg i hi
  obtain ⟨b, t, hst⟩ : ∃ b t, slab i = b :: t :=
    exists_cons_of_ne_nil fun hnil => h0 (hseg.eq_nil_iff.mp hnil)
  rw [hst] at hseg
  exact ⟨t, by rw [hst, hseg.1]⟩

/-- Its payload lies in the address space. -/
theorem head_lt (hl : Layout h live slab L) {i : ℕ} (hi : i < slabCount)
    (h0 : h.freeLists i ≠ 0) : h.freeLists i + heapPayloadOffset < 2 ^ 64 := by
  obtain ⟨t, hst⟩ := hl.slab_head hi h0
  have hmem : h.freeLists i ∈ live ++ slabNodes slab :=
    mem_append_right _ (mem_slabNodes hi (hst ▸ mem_cons_self))
  have hoff : heapPayloadOffset = 32 := by decide
  have hlt := hl.block_lt hmem
  have hroom := hl.room hmem
  omega

/-- A request served from a slab class takes a block of that class or a bigger one. -/
theorem blockSize_of_class (hl : Layout h live slab L) {size align i : ℕ}
    (hc : h.servedClass size align = some i) :
    slabClass i ≤ h.blockSize size align ∧ h.blockSize size align ∈ slabClasses := by
  have hpick : pickSlabClass size (effAlign align) = some i := by
    unfold servedClass at hc
    split at hc
    · cases hc
    · exact hc
  obtain ⟨hi, hcls⟩ := pickSlabClass_spec hpick
  rw [blockSize_of_some hc]
  split
  · next h0 =>
    obtain ⟨t, hst⟩ := hl.slab_head hi h0
    exact (hl.slabSize i hi _ (hst ▸ mem_cons_self)).symm
  · exact ⟨le_rfl, hcls⟩

/-- A request that a node of the large list fits. -/
theorem alloc_of_fit (hl : Layout h live slab L) {size align : ℕ} (hs : 0 < size)
    (hw : NoWrap h size align) {A B : List Extent} {e : Extent} (hL : L = A ++ e :: B)
    (hfit : fitsAt h.mem (totalNeed size) (reqAlign align) e.base)
    (hlf : h.largeFit size align = some (some (lastBase 0 A, e.base))) :
    ∃ b h' slab' L', h.kalloc size align = some (b + heapPayloadOffset, h') ∧
      Layout h' (b :: live) slab' L' ∧ SameSizes live h h' ∧
      h'.size b = h.blockSize size align := by
  obtain ⟨hw₁, hw₂⟩ := hw.of_fit hlf
  have htn := totalNeed_eq hw
  have hoff : heapPayloadOffset = 32 := by decide
  rw [← htn] at hw₂
  subst hL
  obtain ⟨h', L', heq, hinv, hv, hk, hcls, hsize⟩ :=
    hl.large.carve (reqAlign_pos align) (by omega) hfit hw₁ hw₂
  refine ⟨_, h', slab, L', ?_, hl.carved hinv hv hk hcls hsize, hl.sameSizes hk, ?_⟩
  · rw [kalloc_of_fit (by omega) hlf]; exact heq
  · rw [hsize, blockSize_of_none (servedClass_of_fit hlf), htn]

/-- A request served from slab class `i`. -/
theorem alloc_of_class (hl : Layout h live slab L) {size align i : ℕ} (hs : 0 < size)
    (hw : NoWrap h size align) (hlf : h.largeFit size align = some none)
    (hc : pickSlabClass size (effAlign align) = some i) :
    ∃ b h' slab' L', h.kalloc size align = some (b + heapPayloadOffset, h') ∧
      Layout h' (b :: live) slab' L' ∧ SameSizes live h h' ∧
      h'.size b = h.blockSize size align := by
  obtain ⟨hi, hcls⟩ := pickSlabClass_spec hc
  have hoff : heapPayloadOffset = 32 := by decide
  rw [kalloc_of_class (by omega) hlf hc, blockSize_of_some ((servedClass_of_not_fit hlf).trans hc)]
  by_cases h0 : h.freeLists i = 0
  · -- the list is empty: a fresh block
    obtain ⟨hw1, hw2⟩ := hw.of_class hlf hc h0
    obtain ⟨hle, -⟩ := alignUp_bounds (reqAlign_pos align) hw1
    obtain ⟨e, heq, he, hpage, hend⟩ := hl.ensure hw2
    obtain ⟨hl', hss, hsize⟩ := hl.placeSlab (reqAlign align) hle hi hcls he hpage hend
    have hu : u64 (alignUp h.heapCur (reqAlign align) + heapPayloadOffset) =
        alignUp h.heapCur (reqAlign align) + heapPayloadOffset :=
      u64_of_lt (by have := (slabClasses_bounds _ hcls).1; omega)
    rw [if_neg (not_not.mpr h0), if_neg (not_not.mpr h0)]
    refine ⟨_, _, slab, L, ?_, hl', hss, hsize⟩
    rw [bumpSlab, heq, Option.map_some, hu]
  · -- its first block is reused
    obtain ⟨t, hst⟩ := hl.slab_head hi h0
    obtain ⟨-, hl'⟩ := hl.pop hi hst
    rw [if_pos h0, if_pos h0]
    refine ⟨h.freeLists i, _, _, L, ?_, hl', fun _ _ => rfl, rfl⟩
    rw [← u64_of_lt (hl.head_lt hi h0)]
    rfl

/-- A request too big for the slab classes. -/
theorem alloc_of_large (hl : Layout h live slab L) {size align : ℕ} (hs : 0 < size)
    (hw : NoWrap h size align) (hlf : h.largeFit size align = some none)
    (hc : pickSlabClass size (effAlign align) = none) :
    ∃ b h' slab' L', h.kalloc size align = some (b + heapPayloadOffset, h') ∧
      Layout h' (b :: live) slab' L' ∧ SameSizes live h h' ∧
      h'.size b = h.blockSize size align := by
  obtain ⟨hw₁, hw₂⟩ := hw.of_large hlf hc
  have htn := totalNeed_eq hw
  have hoff : heapPayloadOffset = 32 := by decide
  rw [← htn] at hw₂
  obtain ⟨-, hstart⟩ := fitStart_spec (reqAlign_pos align) hw₁
  obtain ⟨e, heq, he, hpage, hend⟩ := hl.ensure hw₂
  obtain ⟨hl', hss, hsize⟩ := hl.placeLarge (reqAlign align) hstart (by omega) he hpage hend
  have hu : u64 (fitStart (reqAlign align) h.heapCur + heapPayloadOffset) =
      fitStart (reqAlign align) h.heapCur + heapPayloadOffset := u64_of_lt (by omega)
  refine ⟨_, _, slab, L, ?_, hl', hss, ?_⟩
  · rw [kalloc_of_large (by omega) hlf hc, bumpLarge, heq, Option.map_some, hu]
  · rw [hsize, htn, blockSize_of_none ((servedClass_of_not_fit hlf).trans hc)]

/-- **`kalloc` returns, and its block joins the live blocks.** -/
theorem alloc (hl : Layout h live slab L) {size align : ℕ} (hs : 0 < size)
    (hw : NoWrap h size align) :
    ∃ b h' slab' L', h.kalloc size align = some (b + heapPayloadOffset, h') ∧
      Layout h' (b :: live) slab' L' ∧ SameSizes live h h' ∧
      h'.size b = h.blockSize size align := by
  rcases @findLargeFit_spec h.mem (totalNeed size) (reqAlign align) _ _ 0 _
    hl.large.rep.seg hl.large.largeList.nodesOk.length_lt with hnone | ⟨A, e, B, hL, hfit, hsome⟩
  · cases hc : pickSlabClass size (effAlign align) with
    | some i => exact hl.alloc_of_class hs hw hnone hc
    | none => exact hl.alloc_of_large hs hw hnone hc
  · exact hl.alloc_of_fit hs hw hL hfit hsome

/-- Rewriting a large block's size and alignment with their own values. -/
theorem rewriteHdr (hl : Layout h (b :: live) slab L) :
    LargeInv ((h.setSize b (h.size b)).setAlign b (h.align b))
      ((b :: live ++ slabNodes slab).map h.extent) L ∧
    Keeps ((live ++ slabNodes slab).map h.extent) h ((h.setSize b (h.size b)).setAlign b (h.align b)) ∧
    ((h.setSize b (h.size b)).setAlign b (h.align b)).size b = h.size b := by
  have ho : OnlyHdrs [b] h.mem ((h.setSize b (h.size b)).setAlign b (h.align b)).mem :=
    (onlyHdrs_setSize h b _).trans (onlyHdrs_setAlign _ b _)
  obtain ⟨hinv, hk⟩ := hl.large.setUsed (e := h.extent b) ho rfl rfl
  exact ⟨hinv, hk, (size_setAlign _ _ _).trans (size_setSize (h.size_lt b))⟩

/-- **`kfree` of a live block returns and keeps the layout.** -/
theorem free (hl : Layout h (b :: live) slab L) :
    ∃ h' slab' L', h.kfree (b + heapPayloadOffset) = some h' ∧ Layout h' live slab' L' ∧
      SameSizes live h h' := by
  have hmem : b ∈ b :: live ++ slabNodes slab := mem_cons_self
  obtain ⟨hlo, hlt⟩ := hl.block_lt hmem
  have hroom := hl.room hmem
  have hcan : isCanonical b = true := isCanonical_of_le hlo (by omega)
  have hblock : u64 (b + heapPayloadOffset + (2 ^ 64 - heapPayloadOffset)) = b := by
    have hoff : heapPayloadOffset = 32 := by decide
    unfold u64
    omega
  have hoff : 0 < heapPayloadOffset := by decide
  unfold kfree
  by_cases hen : h.freesEnabled = false
  · rw [if_pos (.inr hen)]
    exact ⟨h, slab, L, rfl, hl.drop, fun _ _ => rfl⟩
  rw [if_neg (by rintro (h0 | h0); exacts [absurd h0 (by omega), hen h0]), hblock]
  by_cases hlarge : h.classIdx b = largeClass
  · -- a large block goes to the large list
    rw [if_pos hlarge, hcan, if_neg (by simp)]
    obtain ⟨hinv, hk, hsize⟩ := hl.rewriteHdr
    obtain ⟨h', heq, hinv', hv, hk'⟩ := hinv.insert (e := h.extent b) hsize
    refine ⟨{ h' with totalFrees := h'.totalFrees + 1 }, slab, insertExtent (h.extent b) L, ?_, ?_,
      hl.drop.sameSizes (hk.trans hk')⟩
    · exact congrArg (Option.map _) heq
    · refine hl.drop.keep (hl.drop.sameHdr (hk.trans hk')) ?_ (hinv'.congr rfl rfl fun c _ => ⟨rfl, rfl, rfl⟩)
      have hrew : SameVars h ((h.setSize b (h.size b)).setAlign b (h.align b)) :=
        ⟨rfl, rfl, rfl, rfl⟩
      exact hrew.trans (hv.trans ⟨rfl, rfl, rfl, rfl⟩)
  rw [if_neg hlarge]
  by_cases hidx : slabCount ≤ h.classIdx b
  · -- a stale class word that is a link: the block is leaked
    rw [if_pos hidx]
    exact ⟨h, slab, L, rfl, hl.drop, fun _ _ => rfl⟩
  · -- the list its class word names
    rw [if_neg hidx, hcan, if_neg (by simp)]
    obtain ⟨-, hcls, hfit⟩ := (hl.liveHdr b mem_cons_self).resolve_left hlarge
    have hi : h.classIdx b < slabCount := not_le.mp hidx
    let pushed : Kheap := { h.setNext b (h.freeLists (h.classIdx b)) with
      freeLists := Function.update h.freeLists (h.classIdx b) b, totalFrees := h.totalFrees + 1 }
    have hmem : pushed.mem = (h.setNext b (h.freeLists (h.classIdx b))).mem := rfl
    obtain ⟨hl', hss⟩ := hl.push hi hcls (hfit hi) hmem rfl rfl rfl rfl
    exact ⟨_, _, L, rfl, hl', hss⟩

end Layout

end Kheap

end Neptune
