import Neptune.Heap.FreeLarge

/-!
# The large free list as a set of free addresses

A `LargeList` is linked in memory in the order of its addresses, and no two of its nodes touch.
Insertion adds the addresses of the node, and a block that is carved out of a node takes its own
addresses away and those of the pieces in front of it and behind it that are too small to be nodes.

`kalloc` does its sums in 64 bits and checks only what comes out of them, so that a huge size or
alignment carves a block that is not in the node at all.

## Main definitions

* `Kheap.LargeList` — a coalesced list in memory.
* `Kheap.CarvesFrom` — what carving is to do.
* `Kheap.RoomFor` — the block ends in the node, without wrapping.

## Main results

* `LargeList.insert`, `LargeList.carve` — insertion and carving.
* `large_list_iff` — **insertion loses nothing, and carving takes the block from a node that has room**.
-/

namespace Neptune

open List Nat Option
open Word64 Extent

namespace Kheap

variable {h h' : Kheap} {A B L : List Extent} {e f b : Extent} {req size align prev node p : ℕ}

/-- The extent is memory, with room for a node. -/
structure IsMemory (e : Extent) : Prop where
  size_le : 24 ≤ e.size
  canonical : ∀ x, e.Has x → isCanonical x = true

theorem lt_of_isCanonical {a : ℕ} (ha : isCanonical a = true) : a < 2 ^ 64 := by
  simp only [isCanonical, shiftRight_eq_div_pow, Bool.or_eq_true, beq_iff_eq] at ha
  omega

theorem IsMemory.limit_le (he : IsMemory e) : e.limit ≤ 2 ^ 64 := by
  have hsize := he.size_le
  have hlast := lt_of_isCanonical (he.canonical (e.limit - 1) ⟨by unfold limit; omega, by
    unfold limit; omega⟩)
  omega

theorem IsMemory.part (he : IsMemory e) (hf : f.Within e.base e.limit) (hs : 24 ≤ f.size) :
    IsMemory f :=
  ⟨hs, fun x hx => he.canonical x ⟨le_trans hf.1 hx.1, lt_of_lt_of_le hx.2 hf.2⟩⟩

theorem IsMemory.isCanonical_base (he : IsMemory e) : isCanonical e.base = true :=
  he.canonical e.base ⟨le_rfl, by have := he.size_le; unfold limit; omega⟩

/-- The large free list: in order, linked in memory, and with gaps between its nodes. -/
structure LargeList (h : Kheap) (L : List Extent) : Prop where
  rep : RepLarge h L
  gapped : Gapped L
  memory : ∀ e ∈ L, IsMemory e

namespace LargeList

theorem nodesOk (hl : LargeList h L) : NodesOk L :=
  ⟨hl.gapped.imp fun hlt => le_of_lt hlt, fun c hc => (hl.memory c hc).size_le,
    fun c hc => (hl.memory c hc).limit_le⟩

theorem congr (hl : LargeList h L) (hf : h'.freeLarge = h.freeLarge)
    (hs : ∀ c ∈ L, SameHdr h h' c.base) : LargeList h' L :=
  ⟨hl.rep.congr hf hs, hl.gapped, hl.memory⟩

/-- Header stores into an extent that is apart from the list. -/
theorem setApart (hl : LargeList h L) (ho : OnlyHdrs [b.base] h.mem h'.mem)
    (hf : h'.freeLarge = h.freeLarge) (hb : 24 ≤ b.size) (ha : ∀ c ∈ L, Apart c b) :
    LargeList h' L := by
  refine hl.congr hf fun c hc => ho.sameHdr fun a hab => ?_
  obtain rfl := mem_singleton.mp hab
  have hsize := (hl.memory c hc).size_le
  have hapart := ha c hc
  unfold Apart limit at hapart
  omega

/-- **`insert_large_node`** on a node that is apart from the list. -/
theorem insert (hl : LargeList h L) (he : IsMemory e) (he0 : e.base ≠ 0)
    (hes : h.size e.base = e.size) (ha : ∀ c ∈ L, Apart e c) :
    ∃ h', h.insertLargeNode e.base = some h' ∧ LargeList h' (insertExtent e L) ∧
      InsertedLarge h h' e L := by
  have hpos : ∀ c ∈ L, 0 < c.size := fun c hc => by have := (hl.memory c hc).size_le; omega
  have hepos : 0 < e.size := by have := he.size_le; omega
  obtain ⟨h', heq, hins⟩ := insertLargeNode_spec hl.rep hl.gapped hl.nodesOk he.size_le he0
    he.isCanonical_base he.limit_le hes ha
  refine ⟨h', heq, ⟨hins.rep, gapped_insertExtent hl.gapped hpos hepos ha, ?_⟩, hins⟩
  intro c hc
  refine ⟨size_le_insertExtent he.size_le (fun d hd => (hl.memory d hd).size_le) c hc, ?_⟩
  intro x hx
  rcases covers_insertExtent.mp ⟨c, hc, hx⟩ with ⟨d, hd, hdx⟩ | hex
  · exact (hl.memory d hd).canonical x hdx
  · exact he.canonical x hex

end LargeList

/-! ### Fragments -/

/-- What `insert_large_fragment` keeps of a piece: nothing below the split size. -/
def fragment (f : Extent) : List Extent := if f.size < largeSplitMin then [] else [f]

theorem mem_fragment {c : Extent} : c ∈ fragment f ↔ c = f ∧ largeSplitMin ≤ f.size := by
  rw [fragment]
  split
  · next hlt => exact iff_of_false not_mem_nil fun hc => absurd hc.2 (not_le.mpr hlt)
  · next hge => exact ⟨fun hc => ⟨mem_singleton.mp hc, not_lt.mp hge⟩, fun hc => mem_singleton.mpr hc.1⟩

/-- The guard around a fragment is the test the fragment's size fails anyway. -/
theorem guarded_fragment (h : Kheap) (a b x : ℕ) :
    (if a < b then h.insertLargeFragment x (b - a) else some h) = h.insertLargeFragment x (b - a) := by
  split
  · rfl
  · next hlt =>
    have : b - a < largeSplitMin := by
      have : largeSplitMin = 64 := by decide
      omega
    rw [insertLargeFragment, if_pos this]

/-- A fragment between the nodes of the list goes back to it, or is dropped. -/
theorem LargeList.insertFragment (hl : LargeList h (A ++ B)) (hg : Gapped (A ++ fragment f ++ B))
    (hm : ∀ c ∈ fragment f, IsMemory c) (hf0 : f.base ≠ 0) :
    ∃ h', h.insertLargeFragment f.base f.size = some h' ∧ LargeList h' (A ++ fragment f ++ B) ∧
      SameVars h h' ∧ OnlyHdrs ((A ++ fragment f ++ B).map Extent.base) h.mem h'.mem := by
  rw [insertLargeFragment]
  by_cases hs : f.size < largeSplitMin
  · rw [if_pos hs, fragment, if_pos hs, append_nil]
    exact ⟨h, rfl, hl, SameVars.refl h, OnlyHdrs.refl _ _⟩
  have hfrag : fragment f = [f] := if_neg hs
  rw [hfrag, append_assoc, singleton_append] at hg ⊢
  have hmem : IsMemory f := hm f (by rw [hfrag]; exact mem_singleton_self f)
  have hapart : ∀ c ∈ A ++ B, Apart c f := by
    obtain ⟨-, hfB, hcross⟩ := pairwise_append.mp hg
    intro c hc
    rcases mem_append.mp hc with hc | hc
    · exact .inl (hcross c hc f mem_cons_self).le
    · exact .inr ((pairwise_cons.mp hfB).1 c hc).le
  have hsize : f.size < 2 ^ 64 := by
    have hlimit := hmem.limit_le
    unfold limit at hlimit
    omega
  have hl₁ := hl.setApart (onlyHdrs_setSize h f.base f.size) rfl hmem.size_le hapart
  obtain ⟨h', heq, hl', hins⟩ := hl₁.insert hmem hf0 (size_setSize hsize)
    (fun c hc => (hapart c hc).symm)
  rw [insertExtent_of_gapped hg] at hl'
  have hvars : SameVars h (h.setSize f.base f.size) := ⟨rfl, rfl, rfl, rfl⟩
  have hhdrs : OnlyHdrs (f.base :: (A ++ B).map Extent.base) h.mem h'.mem :=
    ((onlyHdrs_setSize h f.base f.size).mono (by simp)).trans hins.hdrs
  refine ⟨h', ?_, hl', hvars.trans hins.vars, hhdrs.mono ?_⟩
  · rw [if_neg hs, if_neg (by simp [hmem.isCanonical_base])]
    exact heq
  · intro a ha
    simp only [map_append, map_cons, mem_append, mem_cons] at ha ⊢
    tauto

/-- What is left of a node around a block. -/
def pieces (e b : Extent) : List Extent :=
  fragment ⟨e.base, b.base - e.base⟩ ++ fragment ⟨b.limit, e.limit - b.limit⟩

theorem pieces_spec (hlo : e.base ≤ b.base) (hhi : b.limit ≤ e.limit) (hb : 0 < b.size) :
    Gapped (pieces e b) ∧ ∀ c ∈ pieces e b, c.Within e.base e.limit ∧ 64 ≤ c.size ∧ Apart c b := by
  have hmin : largeSplitMin = 64 := by decide
  have hgap : ∀ g, Gapped (fragment g) := by
    intro g
    rw [fragment]
    split
    · exact List.Pairwise.nil
    · exact pairwise_singleton _ _
  constructor
  · refine pairwise_append.mpr ⟨hgap _, hgap _, fun c hc d hd => ?_⟩
    obtain ⟨rfl, -⟩ := mem_fragment.mp hc
    obtain ⟨rfl, -⟩ := mem_fragment.mp hd
    unfold limit
    dsimp only
    omega
  · intro c hc
    unfold Within Apart
    rcases mem_append.mp hc with hc | hc
    · obtain ⟨rfl, hsize⟩ := mem_fragment.mp hc
      unfold limit at *
      dsimp only at *
      omega
    · obtain ⟨rfl, hsize⟩ := mem_fragment.mp hc
      unfold limit at *
      dsimp only at *
      omega

/-! ### First fit -/

/-- The first-fit loop stops at the first node that fits. -/
theorem findLargeFit_spec {m : ByteMem} {need req : ℕ} : ∀ {L : List Extent} {fuel prev cur : ℕ},
    Seg (fun a => m.load 8 a) cur (L.map Extent.base) 0 → L.length < fuel →
      findLargeFit m need req fuel prev cur = some none ∨
      ∃ A e B, L = A ++ e :: B ∧ fitsAt m need req e.base ∧
        findLargeFit m need req fuel prev cur = some (some (lastBase prev A, e.base)) := by
  intro L
  induction L with
  | nil =>
    intro fuel prev cur hseg hlt
    obtain ⟨fuel, rfl⟩ : ∃ f, fuel = f + 1 := ⟨fuel - 1, by omega⟩
    have hcur : cur = 0 := hseg
    exact .inl (by simp [findLargeFit, hcur])
  | cons c L ih =>
    intro fuel prev cur hseg hlt
    obtain ⟨fuel, rfl⟩ : ∃ f, fuel = f + 1 := ⟨fuel - 1, by simp at hlt; omega⟩
    obtain ⟨rfl, hne, hseg⟩ := hseg
    rw [findLargeFit, if_neg hne]
    by_cases hfit : fitsAt m need req c.base
    · rw [if_pos hfit]
      exact .inr ⟨[], c, L, rfl, hfit, rfl⟩
    · rw [if_neg hfit]
      have hlt' : L.length < fuel := by simpa using hlt
      rcases @ih fuel c.base _ hseg hlt' with hnone | ⟨A, e, B, rfl, hfit, heq⟩
      · exact .inl hnone
      · exact .inr ⟨c :: A, e, B, rfl, hfit, by rw [heq, lastBase_cons]⟩

/-- Where a block goes when nothing wraps: less than one alignment further on. -/
theorem fitStart_spec {req node : ℕ} (hreq : 0 < req)
    (hw : node + heapPayloadOffset + req - 1 < 2 ^ 64) :
    fitStart req node + heapPayloadOffset = alignUp (node + heapPayloadOffset) req ∧
      node ≤ fitStart req node := by
  obtain ⟨hle, hlt⟩ := alignUp_bounds hreq hw
  have hoff : heapPayloadOffset = 32 := by decide
  have hu : u64 (node + heapPayloadOffset) = node + heapPayloadOffset := u64_of_lt (by omega)
  have hfit : fitStart req node + heapPayloadOffset = alignUp (node + heapPayloadOffset) req := by
    unfold fitStart
    rw [hu]
    unfold u64
    omega
  exact ⟨hfit, by omega⟩

/-- Unlinking a node leaves the rest of the list. -/
theorem RepLarge.unlink {h : Kheap} {A B : List Extent} {e : Extent}
    (hr : RepLarge h (A ++ e :: B)) (hok : NodesOk (A ++ e :: B)) :
    RepLarge (h.setLink (lastBase 0 A) (h.next e.base)) (A ++ B) := by
  have hseg := hr.seg
  simp only [map_append, map_cons, Seg.append_iff, Seg.cons_iff] at hseg
  obtain ⟨r, hA, rfl, he0, hB⟩ := hseg
  rcases eq_nil_or_concat A with rfl | ⟨A', p, rfl⟩
  · rw [lastBase_nil, setLink, if_pos rfl, nil_append]
    exact ⟨hB, fun c hc => hr.size c (by simp [hc])⟩
  · rw [concat_eq_append] at *
    have hp0 : p.base ≠ 0 := hr.base_ne_zero (e := p) (by simp)
    rw [lastBase_concat, setLink, if_neg hp0]
    have hother : ∀ c, c ∈ A' ∨ c ∈ e :: B → SameHdr h (h.setNext p.base (h.next e.base)) c.base := by
      intro c hc
      refine OnlyHdrs.sameHdr (onlyHdrs_setNext h _ _) fun a ha => ?_
      obtain rfl := mem_singleton.mp ha
      exact NodesOk.hdr_apart (A := A') (B := e :: B) (by simpa using hok) hc
    refine ⟨?_, ?_⟩
    · rw [map_append, Seg.append_iff]
      refine ⟨h.next e.base, ?_, ?_⟩
      · rw [map_append, map_singleton] at hA ⊢
        refine hA.relink (fun a ha => ?_) (next_setNext (h.next_lt _))
        obtain ⟨c, hc, rfl⟩ := mem_map.mp ha
        exact (hother c (.inl hc)).next
      · refine hB.congr fun a ha => ?_
        obtain ⟨c, hc, rfl⟩ := mem_map.mp ha
        exact (hother c (.inr (by simp [hc]))).next
    · intro c hc
      rw [append_assoc, singleton_append, mem_append, mem_cons] at hc
      rcases hc with hc | rfl | hc
      · exact (hother c (.inl hc)).size.trans (hr.size c (by simp [hc]))
      · exact (size_setNext h _ _).trans (hr.size c (by simp))
      · exact (hother c (.inr (by simp [hc]))).size.trans (hr.size c (by simp [hc]))

/-- What is left of the list is apart from a block that is in one of its nodes. -/
theorem LargeList.apart_block (hl : LargeList h (A ++ e :: B)) (hlo : e.base ≤ b.base)
    (hhi : b.limit ≤ e.limit) (hb : 0 < b.size) : ∀ c ∈ A ++ pieces e b ++ B, Apart c b := by
  obtain ⟨-, heB, hcross⟩ := pairwise_append.mp hl.gapped
  intro c hc
  rcases mem_append.mp hc with hc | hc
  · rcases mem_append.mp hc with hc | hc
    · exact .inl (le_trans (hcross c hc e mem_cons_self).le hlo)
    · exact ((pieces_spec hlo hhi hb).2 c hc).2.2
  · exact .inr (le_trans hhi ((pairwise_cons.mp heB).1 c hc).le)

/-- The piece behind the block: both ends may be at the end of the address space. -/
theorem guarded_tail (h : Kheap) {stop limit : ℕ} (hpos : 0 < stop) (hle : stop ≤ limit)
    (hlim : limit ≤ 2 ^ 64) (hfit : u64 stop ≤ u64 limit) :
    (if u64 stop < u64 limit then h.insertLargeFragment (u64 stop) (u64 limit - u64 stop)
      else some h) = h.insertLargeFragment stop (limit - stop) := by
  rw [guarded_fragment]
  by_cases heq : stop = limit
  · have hmin : 0 < largeSplitMin := by decide
    rw [heq, Nat.sub_self, Nat.sub_self, insertLargeFragment, insertLargeFragment, if_pos hmin,
      if_pos hmin]
  · have hstop : u64 stop = stop := u64_of_lt (by omega)
    have hlimit : u64 limit = limit := by
      rw [hstop] at hfit
      unfold u64 at hfit ⊢
      omega
    rw [hstop, hlimit]

/-- **Carving a block out of a node.** -/
theorem LargeList.carve (hl : LargeList h (A ++ e :: B)) (hstart : fitStart req e.base = b.base)
    (hsize : 24 ≤ b.size) (hlo : e.base ≤ b.base) (hhi : b.limit ≤ e.limit)
    (hfit : u64 b.limit ≤ u64 e.limit) :
    ∃ h', h.carveLarge b.size req (lastBase 0 A) e.base = some (u64 (b.base + heapPayloadOffset), h') ∧
      LargeList h' (A ++ pieces e b ++ B) ∧ SameVars h h' ∧
      OnlyHdrs (b.base :: (A ++ pieces e b ++ B).map Extent.base) h.mem h'.mem ∧
      h'.classIdx b.base = largeClass ∧ h'.size b.base = b.size := by
  have hmem := hl.memory e (by simp)
  have he0 : e.base ≠ 0 := hl.rep.base_ne_zero (by simp)
  have hes : h.size e.base = e.size := hl.rep.size e (by simp)
  have hlim := hmem.limit_le
  have hpos : 0 < b.limit := by unfold limit; omega
  obtain ⟨hgp, hparts⟩ := pieces_spec hlo hhi (by omega)
  have hgap : Gapped (A ++ pieces e b ++ B) := hl.gapped.replace hgp fun c hc => (hparts c hc).1
  have hmemory : ∀ c ∈ pieces e b, IsMemory c := fun c hc =>
    hmem.part (hparts c hc).1 (le_trans (by decide) (hparts c hc).2.1)
  have hapart := hl.apart_block hlo hhi (by omega)
  -- unlink the node, and give back what is in front of the block and behind it
  have hl₁ : LargeList (h.setLink (lastBase 0 A) (h.next e.base)) (A ++ B) := by
    have hsub : (A ++ B).Sublist (A ++ e :: B) := (sublist_cons_self e B).append_left A
    exact ⟨hl.rep.unlink hl.nodesOk, hl.gapped.sublist hsub, fun c hc => hl.memory c (hsub.subset hc)⟩
  rw [pieces] at hmemory
  rw [pieces, ← append_assoc] at hgap hapart ⊢
  have hsub : (A ++ fragment ⟨e.base, b.base - e.base⟩ ++ B).Sublist
      (A ++ fragment ⟨e.base, b.base - e.base⟩ ++ fragment ⟨b.limit, e.limit - b.limit⟩ ++ B) :=
    (sublist_append_left _ _).append_right B
  obtain ⟨h₂, heq₂, hl₂, hv₂, ho₂⟩ := hl₁.insertFragment (hgap.sublist hsub)
    (fun c hc => hmemory c (mem_append_left _ hc)) he0
  obtain ⟨h₃, heq₃, hl₃, hv₃, ho₃⟩ := hl₂.insertFragment hgap
    (fun c hc => hmemory c (mem_append_right _ hc)) hpos.ne'
  have hlt : b.size < 2 ^ 64 := by
    unfold limit at hhi hlim
    omega
  have ho : OnlyHdrs [b.base] h₃.mem (h₃.finishCarve b.base b.size req).mem :=
    onlyHdrs_setHdr h₃ b.base largeClass b.size req
  refine ⟨h₃.finishCarve b.base b.size req, ?_, hl₃.setApart ho rfl hsize hapart, ?_, ?_,
    classIdx_setHdr (by decide), size_setHdr hlt⟩
  · have htail := guarded_tail h₂ hpos hhi hlim hfit
    rw [carveLarge, hes, hstart, guarded_fragment, heq₂, bind_some]
    exact congrArg (Option.bind · _) (htail.trans heq₃)
  · have hv₄ : SameVars h₃ (h₃.finishCarve b.base b.size req) := ⟨rfl, rfl, rfl, rfl⟩
    exact (sameVars_setLink _ _ _).trans (hv₂.trans (hv₃.trans hv₄))
  · refine (onlyHdrs_setLink fun hne => ?_).trans ((ho₂.mono ?_).trans ((ho₃.mono ?_).trans
      (ho.mono ?_)))
    · rcases eq_nil_or_concat A with rfl | ⟨A', p, rfl⟩
      · exact absurd rfl hne
      · rw [concat_eq_append, lastBase_concat]
        simp
    · intro a ha
      exact mem_cons_of_mem _ (map_subset _ hsub.subset ha)
    · intro a ha
      exact mem_cons_of_mem _ ha
    · simp

/-! ### What the list covers -/

/-- What is dropped of a fragment: all of it, or nothing. -/
theorem exists_dropped (f : Extent) : ∃ d : Extent, d.Within f.base f.limit ∧
    d.size < largeSplitMin ∧ ∀ x, Covers (fragment f) x ↔ f.Has x ∧ ¬d.Has x := by
  by_cases hs : f.size < largeSplitMin
  · refine ⟨f, ⟨le_rfl, le_rfl⟩, hs, fun x => ?_⟩
    rw [fragment, if_pos hs, covers_nil]
    exact iff_of_false id fun hx => hx.2 hx.1
  · refine ⟨⟨f.base, 0⟩, ⟨le_rfl, le_add_right _ _⟩, zero_lt_succ _, fun x => ?_⟩
    have hnone : ¬(⟨f.base, 0⟩ : Extent).Has x := by
      unfold Has limit
      dsimp only
      omega
    rw [fragment, if_neg hs, covers_cons, covers_nil, or_false]
    exact ⟨fun hx => ⟨hx, hnone⟩, And.left⟩

/-- The block and two small pieces at the ends of the node are taken from the list. -/
structure Carved (L L' : List Extent) (node block front back : Extent) : Prop where
  inside : block.Within node.base node.limit
  front_small : front.Within node.base block.base ∧ front.size < largeSplitMin
  back_small : back.Within block.limit node.limit ∧ back.size < largeSplitMin
  covers : ∀ x, Covers L' x ↔ Covers L x ∧ ¬block.Has x ∧ ¬front.Has x ∧ ¬back.Has x

theorem exists_carved (hg : Gapped (A ++ e :: B)) (hlo : e.base ≤ b.base) (hhi : b.limit ≤ e.limit) :
    ∃ front back, Carved (A ++ e :: B) (A ++ pieces e b ++ B) e b front back := by
  obtain ⟨-, heB, hcross⟩ := pairwise_append.mp hg
  have hA : ∀ x, Covers A x → x < e.base := by
    rintro x ⟨c, hc, hx⟩
    exact hx.2.trans (hcross c hc e mem_cons_self)
  have hB : ∀ x, Covers B x → e.limit ≤ x := by
    rintro x ⟨c, hc, hx⟩
    exact le_trans ((pairwise_cons.mp heB).1 c hc).le hx.1
  obtain ⟨d, hd, hdsize, hdcov⟩ := exists_dropped ⟨e.base, b.base - e.base⟩
  obtain ⟨d', hd', hdsize', hdcov'⟩ := exists_dropped ⟨b.limit, e.limit - b.limit⟩
  have hfront : (⟨e.base, b.base - e.base⟩ : Extent).limit = b.base := Nat.add_sub_cancel' hlo
  have hback : (⟨b.limit, e.limit - b.limit⟩ : Extent).limit = e.limit := Nat.add_sub_cancel' hhi
  replace hd : d.Within e.base b.base := by rwa [hfront] at hd
  replace hd' : d'.Within b.limit e.limit := by rwa [hback] at hd'
  refine ⟨d, d', ⟨hlo, hhi⟩, ⟨hd, hdsize⟩, ⟨hd', hdsize'⟩, fun x => ?_⟩
  simp only [pieces, covers_append, covers_cons, hdcov, hdcov']
  have hAx := hA x
  have hBx := hB x
  unfold Has Within at *
  rw [hfront, hback]
  dsimp only
  have hb : b.base ≤ b.limit := le_add_right _ _
  have hdl : d.base ≤ d.limit := le_add_right _ _
  have hdl' : d'.base ≤ d'.limit := le_add_right _ _
  by_cases hax : Covers A x
  · simp only [hax, true_or, true_and, true_iff]
    have := hAx hax
    omega
  · by_cases hbx : Covers B x
    · simp only [hbx, or_true, true_and, true_iff]
      have := hBx hbx
      omega
    · simp only [hax, hbx, false_or, or_false]
      omega

/-- `kalloc` carves a block with room for the header and `size` bytes out of the node, and leaves a
coalesced list. -/
def CarvesFrom (h : Kheap) (L : List Extent) (size align : ℕ) (node : Extent) : Prop :=
  ∃ (block front back : Extent) (h' : Kheap) (L' : List Extent),
    h.kalloc size align = some (block.base + heapPayloadOffset, h') ∧
      block.size = size + heapPayloadOffset ∧ LargeList h' L' ∧ Carved L L' node block front back

/-- The payload, at the first aligned address behind the header, ends in the node.  These sums do not
wrap. -/
def RoomFor (node : Extent) (size align : ℕ) : Prop :=
  node.base + heapPayloadOffset ≤ alignUp (u64 (node.base + heapPayloadOffset)) (reqAlign align) ∧
    alignUp (u64 (node.base + heapPayloadOffset)) (reqAlign align) + size ≤ node.limit

instance (node : Extent) (size align : ℕ) : Decidable (RoomFor node size align) :=
  inferInstanceAs (Decidable (_ ∧ _))

theorem kalloc_of_fit (hs : size ≠ 0) (hf : h.largeFit size align = some (some (prev, node))) :
    h.kalloc size align = h.carveLarge (totalNeed size) (reqAlign align) prev node := by
  rw [kalloc, if_neg hs, hf, bind_some]

theorem carveLarge_ptr {need : ℕ} (heq : h.carveLarge need req prev node = some (p, h')) :
    p = u64 (fitStart req node + heapPayloadOffset) := by
  unfold carveLarge at heq
  obtain ⟨h₁, -, heq⟩ := bind_eq_some_iff.mp heq
  obtain ⟨h₂, -, heq⟩ := bind_eq_some_iff.mp heq
  exact (Prod.mk.inj (some.inj heq)).1.symm

/-- The pointer is the aligned address behind the header. -/
theorem fitStart_add : u64 (fitStart req node + heapPayloadOffset) =
    alignUp (u64 (node + heapPayloadOffset)) req := by
  have hlt : alignUp (u64 (node + heapPayloadOffset)) req < 2 ^ 64 :=
    lt_of_le_of_lt and_le_left (u64_lt _)
  have hoff : heapPayloadOffset = 32 := by decide
  rw [fitStart]
  unfold u64 at hlt ⊢
  omega

/-- A node with room is carved. -/
theorem LargeList.carvesFrom (hl : LargeList h (A ++ e :: B)) (hs : 0 < size)
    (hroom : RoomFor e size align) (hfits : fitsAt h.mem (totalNeed size) (reqAlign align) e.base)
    (hf : h.largeFit size align = some (some (lastBase 0 A, e.base))) :
    CarvesFrom h (A ++ e :: B) size align e := by
  have hlim := (hl.memory e (by simp)).limit_le
  have he0 := hl.rep.base_ne_zero (e := e) (by simp)
  have hes : h.mem.load 8 (e.base + 8) = e.size := hl.rep.size e (by simp)
  have hoff : heapPayloadOffset = 32 := by decide
  obtain ⟨hlo, hhi⟩ := hroom
  set p := alignUp (u64 (e.base + heapPayloadOffset)) (reqAlign align) with hp
  have hstart : fitStart (reqAlign align) e.base = p - heapPayloadOffset := by
    rw [fitStart, ← hp]
    unfold u64
    omega
  have hneed : totalNeed size = size + heapPayloadOffset := u64_of_lt (by omega)
  obtain ⟨b, hb, hbs⟩ : ∃ b : Extent, b.base + heapPayloadOffset = p ∧
      b.size = size + heapPayloadOffset := ⟨⟨p - heapPayloadOffset, _⟩, by dsimp only; omega, rfl⟩
  have hblim : b.limit = p + size := by unfold limit; omega
  have hfit : u64 b.limit ≤ u64 e.limit := by
    have hend := hfits.2.2
    rw [hstart, hneed, hes, show p - heapPayloadOffset + (size + heapPayloadOffset) = b.limit by omega]
      at hend
    exact hend
  have hbase : fitStart (reqAlign align) e.base = b.base := by omega
  obtain ⟨h', heq, hl', -⟩ := hl.carve hbase (by omega) (by omega) (by omega) hfit
  obtain ⟨front, back, hcarved⟩ := exists_carved hl.gapped (b := b) (by omega) (by omega)
  refine ⟨b, front, back, h', _, ?_, hbs, hl', hcarved⟩
  rw [kalloc_of_fit hs.ne' hf, hneed, ← hbs, heq, u64_of_lt (by omega)]

/-- **The large free list loses nothing.**  Inserting a node that is apart from a coalesced list gives
a coalesced list with the addresses of the node added.  A carve takes the block and at most two small
end pieces away, and leaves a coalesced list, exactly if the node has room for it. -/
theorem large_list_iff (hl : LargeList h L) :
    (∀ e : Extent, IsMemory e → e.base ≠ 0 → h.size e.base = e.size → (∀ c ∈ L, Apart e c) →
      ∃ h' L', h.insertLargeNode e.base = some h' ∧ LargeList h' L' ∧
        ∀ x, Covers L' x ↔ Covers L x ∨ e.Has x) ∧
    ∀ size align prev node, 0 < size → h.largeFit size align = some (some (prev, node)) →
      (CarvesFrom h L size align (h.extent node) ↔ RoomFor (h.extent node) size align) := by
  constructor
  · intro e he he0 hes ha
    obtain ⟨h', heq, hl', -⟩ := hl.insert he he0 hes ha
    exact ⟨h', _, heq, hl', fun x => covers_insertExtent⟩
  · intro size align prev node hs hf
    rcases @findLargeFit_spec h.mem (totalNeed size) (reqAlign align) L walkFuel 0 _ hl.rep.seg
      hl.nodesOk.length_lt with hnone | ⟨A, e, B, rfl, hfits, heq⟩
    · cases hnone.symm.trans hf
    obtain ⟨rfl, rfl⟩ := Prod.mk.inj (some.inj (some.inj (heq.symm.trans hf)))
    have hes : h.extent e.base = e := Extent.ext rfl (hl.rep.size e (by simp))
    rw [hes]
    refine ⟨?_, fun hroom => hl.carvesFrom hs hroom hfits hf⟩
    rintro ⟨block, front, back, h', L', hk, hsize, -, hcarved⟩
    rw [kalloc_of_fit hs.ne' hf] at hk
    have hptr := (carveLarge_ptr hk).trans fitStart_add
    obtain ⟨hlo, hhi⟩ := hcarved.inside
    unfold limit at hhi
    rw [RoomFor, ← hptr]
    unfold limit
    omega

/-- A heap with one large free node. -/
def oneNode : Kheap :=
  { kheapInit (ByteMem.store (fun _ => 0) 8 (heapBase + 4104) 8192) with freeLarge := heapBase + 4096 }

theorem largeList_oneNode : LargeList oneNode [⟨heapBase + 4096, 8192⟩] := by
  have hnext : oneNode.next (heapBase + 4096) = 0 := by decide +kernel
  refine ⟨⟨⟨rfl, by decide, hnext⟩, ?_⟩, pairwise_singleton _ _, ?_⟩
  · intro e he
    obtain rfl := mem_singleton.mp he
    decide +kernel
  · intro e he
    obtain rfl := mem_singleton.mp he
    refine ⟨by decide, fun x hx => isCanonical_of_le ?_ ?_⟩
    · exact le_trans (le_add_right _ _) hx.1
    · exact hx.2.trans (by decide)

theorem large_list_iff_oneNode :
    CarvesFrom oneNode [⟨heapBase + 4096, 8192⟩] 100 64 (oneNode.extent (heapBase + 4096)) :=
  ((large_list_iff largeList_oneNode).2 100 64 0 (heapBase + 4096) (by decide) (by decide +kernel)).mpr
    (by decide +kernel)

/-- The size with the header wraps to 0: the free node is put back and then written over by the header
of the empty block, so that it links to the end of the address space. -/
theorem kalloc_wraps_large_list : LargeList oneNode [⟨heapBase + 4096, 8192⟩] ∧
    oneNode.largeFit (2 ^ 64 - 32) 8 = some (some (0, heapBase + 4096)) ∧
    ¬∃ p h' L', oneNode.kalloc (2 ^ 64 - 32) 8 = some (p, h') ∧ LargeList h' L' := by
  refine ⟨largeList_oneNode, by decide +kernel, ?_⟩
  rintro ⟨p, h', L', hk, hl⟩
  have hwords : (oneNode.kalloc (2 ^ 64 - 32) 8).map
      (fun r => (r.2.freeLarge, r.2.next (heapBase + 4096))) =
      some (heapBase + 4096, 2 ^ 64 - 1) := by decide +kernel
  rw [hk] at hwords
  obtain ⟨hhead, hnext⟩ := Prod.mk.inj (some.inj hwords)
  dsimp only at hhead hnext
  have hseg := hl.rep.seg
  rw [hhead] at hseg
  cases L' with
  | nil => exact absurd (Seg.nil_iff.mp hseg) (by decide)
  | cons c T =>
    obtain ⟨hc, -, hT⟩ := hseg
    rw [← hc, hnext] at hT
    cases T with
    | nil => exact absurd (Seg.nil_iff.mp hT) (by decide)
    | cons d T =>
      have hd := hl.memory d (by simp)
      have hlim := hd.limit_le
      have hsize := hd.size_le
      have hbase : 2 ^ 64 - 1 = d.base := hT.1
      unfold limit at hlim
      omega

end Kheap

end Neptune
