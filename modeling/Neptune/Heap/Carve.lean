import Neptune.Heap.LargeList
import Neptune.Lib.Packing

/-!
# Taking blocks from the large free list and giving them back

`LargeInv h E L` says that the large free list is `L` and that its nodes are
packed together with the extents `E` of everything else.  Freeing a large block
moves its extent from `E` to `L`; the first-fit path of `kalloc` moves a node
from `L` to `E`, less the fragments it gives back.

## Main results

* `LargeInv.insert` — `insert_large_node` takes an extent from `E` into the list.
* `LargeInv.carve` — the first-fit path adds the block it returns to `E`.
-/

namespace Neptune

open List
open Word64 Extent

/-- The first address `kalloc` hands out. -/
def heapStart : ℕ := heapBase + 4096

namespace Kheap

/-- The large list `L` is coalesced and packed with the extents `E` in use. -/
structure LargeInv (h : Kheap) (E L : List Extent) : Prop where
  rep : RepLarge h L
  gapped : Gapped L
  packed : Packed heapStart h.heapCur 33 (E ++ L)
  cur_lt : h.heapCur < 2 ^ 64

/-- The bytes of the extents `E` are the same in both heaps. -/
def Keeps (E : List Extent) (h h' : Kheap) : Prop :=
  ∀ e ∈ E, ∀ x, e.base ≤ x → x < e.limit → h'.mem x = h.mem x

theorem Keeps.trans {E : List Extent} {h h' h'' : Kheap} (h₁ : Keeps E h h')
    (h₂ : Keeps E h' h'') : Keeps E h h'' :=
  fun e he x hx hx' => (h₂ e he x hx hx').trans (h₁ e he x hx hx')

theorem Keeps.sameHdr {E : List Extent} {h h' : Kheap} (hk : Keeps E h h') {e : Extent}
    (he : e ∈ E) (hs : 24 ≤ e.size) : SameHdr h h' e.base :=
  sameHdr_of_bytes fun x hx hx' => hk e he x hx (by unfold limit; omega)

/-- Header stores into nodes apart from `E` keep the bytes of `E`. -/
theorem OnlyHdrs.keeps {l : List ℕ} {E : List Extent} {h h' : Kheap} (hl : OnlyHdrs l h.mem h'.mem)
    (ha : ∀ a ∈ l, ∀ e ∈ E, Apart e ⟨a, 24⟩) : Keeps E h h' := by
  intro e he x hx hx'
  refine hl x fun a hal => ?_
  have := ha a hal e he
  unfold Apart limit at *
  dsimp only at *
  omega

theorem apart_hdr {e f : Extent} (h : Apart e f) (hf : 33 ≤ f.size) : Apart e ⟨f.base, 24⟩ := by
  have hin : (⟨f.base, 24⟩ : Extent).Within f.base f.limit :=
    ⟨le_rfl, by unfold limit; dsimp only; omega⟩
  exact (h.symm.of_within hin).symm

namespace LargeInv

variable {h h' : Kheap} {E E' L : List Extent} {e : Extent}

theorem largeList (hi : LargeInv h E L) : LargeList h L := by
  refine ⟨hi.rep, hi.gapped, fun c hc => ⟨?_, fun x hx => ?_⟩⟩
  · exact le_trans (by decide) (hi.packed.size_le c (by simp [hc]))
  · have hin := hi.packed.within c (by simp [hc])
    exact isCanonical_of_le (le_trans (Nat.le_add_right _ _) (le_trans hin.1 hx.1))
      (lt_of_lt_of_le hx.2 (le_trans hin.2 hi.cur_lt.le))

theorem perm (hi : LargeInv h E L) (hp : E.Perm E') : LargeInv h E' L :=
  ⟨hi.rep, hi.gapped, hi.packed.perm (hp.append_right L), hi.cur_lt⟩

theorem sublist (hi : LargeInv h E L) (hs : E'.Sublist E) : LargeInv h E' L :=
  ⟨hi.rep, hi.gapped, hi.packed.sublist (hs.append_right L), hi.cur_lt⟩

/-- The invariant reads the headers of the list's nodes only. -/
theorem congr (hi : LargeInv h E L) (hf : h'.freeLarge = h.freeLarge)
    (hc : h'.heapCur = h.heapCur) (hs : ∀ c ∈ L, SameHdr h h' c.base) : LargeInv h' E L :=
  ⟨hi.rep.congr hf hs, hi.gapped, hc ▸ hi.packed, hc ▸ hi.cur_lt⟩

theorem apart_hdr_of_mem (hi : LargeInv h E L) {f : Extent} (he : e ∈ E) (hf : f ∈ L) :
    Apart e ⟨f.base, 24⟩ :=
  apart_hdr (hi.packed.apart_of_mem he hf) (hi.packed.size_le f (by simp [hf]))

/-- Header stores into a block in use. -/
theorem setUsed (hi : LargeInv h (e :: E) L) (ho : OnlyHdrs [e.base] h.mem h'.mem)
    (hf : h'.freeLarge = h.freeLarge) (hc : h'.heapCur = h.heapCur) :
    LargeInv h' (e :: E) L ∧ Keeps E h h' := by
  have hp := (pairwise_cons.mp hi.packed.apart).1
  have hes := hi.packed.size_le e (by simp)
  constructor
  · refine hi.congr hf hc fun c hcL => ho.sameHdr fun a ha => ?_
    obtain rfl := mem_singleton.mp ha
    have h1 := hp c (by simp [hcL])
    have h2 := hi.packed.size_le c (by simp [hcL])
    unfold Apart limit at h1
    omega
  · refine ho.keeps fun a ha g hg => ?_
    obtain rfl := mem_singleton.mp ha
    exact apart_hdr (hp g (by simp [hg])).symm hes

/-- **`insert_large_node` takes an extent from `E` into the list.** -/
theorem insert (hi : LargeInv h (e :: E) L) (hes : h.size e.base = e.size) :
    ∃ h', h.insertLargeNode e.base = some h' ∧ LargeInv h' E (insertExtent e L) ∧
      SameVars h h' ∧ Keeps E h h' := by
  have hpe := (pairwise_cons.mp hi.packed.apart).1
  have hin := hi.packed.within e (by simp)
  have hsz := hi.packed.size_le e (by simp)
  have hlo : heapBase ≤ e.base := le_trans (Nat.le_add_right _ _) hin.1
  have hmem : IsMemory e := ⟨le_trans (by decide) hsz, fun x hx =>
    isCanonical_of_le (le_trans hlo hx.1) (lt_of_lt_of_le hx.2 (le_trans hin.2 hi.cur_lt.le))⟩
  have he0 : e.base ≠ 0 := by
    unfold heapBase at hlo
    omega
  obtain ⟨h', heq, -, hins⟩ := hi.largeList.insert hmem he0 hes (fun c hc => hpe c (by simp [hc]))
  obtain ⟨hgap, hpack⟩ := hi.packed.insert (by omega) hi.gapped
  refine ⟨h', heq, ⟨hins.rep, hgap, ?_, ?_⟩, hins.vars, ?_⟩
  · rw [hins.vars.heapCur]; exact hpack
  · rw [hins.vars.heapCur]; exact hi.cur_lt
  · refine hins.hdrs.keeps fun a ha g hg => ?_
    rcases mem_cons.mp ha with rfl | ha
    · exact apart_hdr (hpe g (by simp [hg])).symm hsz
    · obtain ⟨c, hc, rfl⟩ := mem_map.mp ha
      exact hi.apart_hdr_of_mem (by simp [hg]) hc

/-- A block and what is left around it are packed where the node was. -/
theorem packed_pieces {lo hi : ℕ} {A B : List Extent} {b : Extent}
    (hp : Packed lo hi 33 (E ++ (A ++ e :: B))) (hlo : e.base ≤ b.base) (hhi : b.limit ≤ e.limit)
    (hb : 33 ≤ b.size) : Packed lo hi 33 (b :: E ++ (A ++ pieces e b ++ B)) := by
  obtain ⟨hgp, hparts⟩ := pieces_spec hlo hhi (by omega)
  have hnode : (E ++ (A ++ e :: B)).Perm (e :: (E ++ (A ++ B))) := by
    rw [← append_assoc, ← append_assoc]
    exact perm_middle
  have hsplit : Packed lo hi 33 (b :: pieces e b ++ (E ++ (A ++ B))) := by
    refine (hp.perm hnode).split ?_ ?_ ?_
    · exact pairwise_cons.mpr ⟨fun c hc => (hparts c hc).2.2.symm, hgp.pairwise_apart⟩
    · exact forall_mem_cons.mpr ⟨⟨hlo, hhi⟩, fun c hc => (hparts c hc).1⟩
    · exact forall_mem_cons.mpr ⟨hb, fun c hc => le_trans (by decide) (hparts c hc).2.1⟩
  refine hsplit.perm (List.Perm.cons b ?_)
  rw [append_assoc]
  exact (perm_append_comm_assoc _ _ _).trans ((perm_append_comm_assoc _ _ _).append_left E)

/-- **The first-fit path adds the block it returns to the extents in use.** -/
theorem carve {A B : List Extent} {need req : ℕ} (hi : LargeInv h E (A ++ e :: B)) (hreq : 0 < req)
    (hneed : 33 ≤ need) (hfit : fitsAt h.mem need req e.base)
    (hw : e.base + heapPayloadOffset + req - 1 < 2 ^ 64)
    (hw' : fitStart req e.base + need < 2 ^ 64) :
    ∃ h' L', h.carveLarge need req (lastBase 0 A) e.base =
        some (fitStart req e.base + heapPayloadOffset, h') ∧
      LargeInv h' (⟨fitStart req e.base, need⟩ :: E) L' ∧ SameVars h h' ∧ Keeps E h h' ∧
      h'.classIdx (fitStart req e.base) = largeClass ∧ h'.size (fitStart req e.base) = need := by
  obtain ⟨-, hstart⟩ := fitStart_spec hreq hw
  obtain ⟨b, hb, rfl⟩ : ∃ b : Extent, fitStart req e.base = b.base ∧ need = b.size :=
    ⟨⟨_, _⟩, rfl, rfl⟩
  rw [hb] at hstart hw' ⊢
  have hes : h.mem.load 8 (e.base + 8) = e.size := hi.rep.size e (by simp)
  have helim : e.limit < 2 ^ 64 := lt_of_le_of_lt (hi.packed.within e (by simp)).2 hi.cur_lt
  have hoff : heapPayloadOffset = 32 := by decide
  have hend : u64 b.limit ≤ u64 e.limit := by
    have hend := hfit.2.2
    rwa [hb, hes] at hend
  have hblim : b.limit < 2 ^ 64 := hw'
  have hhi : b.limit ≤ e.limit := by rwa [u64_of_lt hblim, u64_of_lt helim] at hend
  obtain ⟨h', heq, hl', hv, ho, hcls, hsize⟩ :=
    hi.largeList.carve hb (le_trans (by decide) hneed) hstart hhi hend
  have hpack := packed_pieces hi.packed hstart hhi hneed
  have hptr : u64 (b.base + heapPayloadOffset) = b.base + heapPayloadOffset := u64_of_lt (by omega)
  rw [hptr] at heq
  refine ⟨h', _, heq, ⟨hl'.rep, hl'.gapped, hv.heapCur ▸ hpack, hv.heapCur ▸ hi.cur_lt⟩, hv, ?_, hcls,
    hsize⟩
  -- only headers of the block and of free nodes are written
  refine ho.keeps fun a ha g hg => ?_
  rcases mem_cons.mp ha with rfl | ha
  · exact apart_hdr ((pairwise_cons.mp hpack.apart).1 g (by simp [hg])).symm hneed
  · obtain ⟨c, hc, rfl⟩ := mem_map.mp ha
    exact apart_hdr (hpack.apart_of_mem (mem_cons_of_mem _ hg) hc)
      (hpack.size_le c (mem_append_right _ hc))

end LargeInv

end Kheap

end Neptune
