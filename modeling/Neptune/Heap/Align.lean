import Neptune.Heap.Run

/-!
# The alignment of what `kalloc` returns

Blocks from the large list and fresh large blocks are laid so that the payload is aligned.  For slab
blocks it is the start of the block that is aligned, 32 bytes in front of the payload, and a block
from a slab list is taken as it is.  So a slab block is aligned as was asked for alignments up to 32
if it is fresh, and otherwise if its first owner's request happened to put it there.

## Main definitions

* `Kheap.blockStart` — where the block of a request begins.
* `HeapState.AlignFits` — when a slab block is aligned.

## Main results

* `HeapState.kalloc_aligned_iff` — the pointer is aligned exactly then.
-/

namespace Neptune

open Option
open Word64
open Kheap (NoWrap)

namespace Kheap

variable {h h' : Kheap} {size align p : ℕ}

/-- Where the block that a request takes begins. -/
def blockStart (h : Kheap) (size align : ℕ) : ℕ :=
  match h.largeFit size align with
  | some (some (_, node)) => fitStart (reqAlign align) node
  | _ =>
    match pickSlabClass size (effAlign align) with
    | some i => if h.freeLists i ≠ 0 then h.freeLists i else alignUp h.heapCur (reqAlign align)
    | none => fitStart (reqAlign align) h.heapCur

/-- On every path the pointer is the payload offset behind the start of the block. -/
theorem kalloc_ptr (hs : 0 < size) (heq : h.kalloc size align = some (p, h')) :
    p = u64 (h.blockStart size align + heapPayloadOffset) := by
  cases hf : h.largeFit size align with
  | none =>
    rw [kalloc, if_neg (by omega), hf] at heq
    cases heq
  | some fit =>
    cases fit with
    | some pn =>
      rw [kalloc_of_fit (by omega) hf] at heq
      rw [blockStart, hf]
      exact carveLarge_ptr heq
    | none =>
      rw [blockStart, hf]
      cases hc : pickSlabClass size (effAlign align) with
      | some i =>
        rw [kalloc_of_class (by omega) hf hc] at heq
        dsimp only
        split at heq
        · next h0 =>
          rw [if_pos h0]
          exact (Prod.mk.inj (some.inj heq)).1.symm
        · next h0 =>
          rw [if_neg h0]
          obtain ⟨e, -, heq⟩ := map_eq_some_iff.mp heq
          exact (Prod.mk.inj heq).1.symm
      | none =>
        rw [kalloc_of_large (by omega) hf hc] at heq
        obtain ⟨e, -, heq⟩ := map_eq_some_iff.mp heq
        exact (Prod.mk.inj heq).1.symm

/-- The alignment that is used for a power of two. -/
theorem reqAlign_two_pow (k : ℕ) : reqAlign (2 ^ k) = 2 ^ max k 4 := by
  have heff : effAlign (2 ^ k) = 2 ^ k := if_neg (Nat.two_pow_pos k).ne'
  rw [reqAlign, heff]
  rcases Nat.lt_or_ge k 4 with hk | hk
  · have hlt : 2 ^ k < 2 ^ 4 := Nat.pow_lt_pow_right (by decide) hk
    rw [if_pos (by omega), Nat.max_eq_right (by omega)]
    rfl
  · have hle : 2 ^ 4 ≤ 2 ^ k := Nat.pow_le_pow_right (by decide) hk
    rw [if_neg (by omega), Nat.max_eq_left hk]

theorem max_two_pow (k : ℕ) : max (2 ^ k) 16 = reqAlign (2 ^ k) := by
  rw [reqAlign_two_pow]
  rcases Nat.lt_or_ge k 4 with hk | hk
  · have hlt : 2 ^ k < 2 ^ 4 := Nat.pow_lt_pow_right (by decide) hk
    rw [Nat.max_eq_right (by omega), Nat.max_eq_right (by omega)]
    rfl
  · have hle : 2 ^ 4 ≤ 2 ^ k := Nat.pow_le_pow_right (by decide) hk
    rw [Nat.max_eq_left (by omega), Nat.max_eq_left hk]

/-- Rounding up makes a multiple of the alignment. -/
theorem dvd_alignUp {x k : ℕ} (hx : x + reqAlign (2 ^ k) - 1 < 2 ^ 64) :
    reqAlign (2 ^ k) ∣ alignUp x (reqAlign (2 ^ k)) := by
  rw [reqAlign_two_pow] at hx ⊢
  have hle : max k 4 ≤ 64 := by
    rw [← Nat.pow_le_pow_iff_right (a := 2) (by decide)]
    omega
  exact Nat.dvd_of_mod_eq_zero (alignUp_spec rfl hx hle).2.2

/-- The payload of a block that `kalloc` lays by its payload is aligned. -/
theorem dvd_fitStart {node k : ℕ} (hw : node + heapPayloadOffset + reqAlign (2 ^ k) - 1 < 2 ^ 64) :
    reqAlign (2 ^ k) ∣ fitStart (reqAlign (2 ^ k)) node + heapPayloadOffset := by
  rw [(fitStart_spec (reqAlign_pos _) hw).1]
  exact dvd_alignUp hw

/-- A fresh slab block is laid by its start: its payload is aligned for alignments up to 32. -/
theorem dvd_fresh_iff {x k : ℕ} (hx : x + reqAlign (2 ^ k) - 1 < 2 ^ 64) :
    reqAlign (2 ^ k) ∣ alignUp x (reqAlign (2 ^ k)) + heapPayloadOffset ↔ 2 ^ k ≤ 32 := by
  have hoff : heapPayloadOffset = 2 ^ 5 := by decide
  rw [Nat.dvd_add_right (dvd_alignUp hx), hoff, reqAlign_two_pow,
    Nat.pow_dvd_pow_iff_le_right (by decide), show (32 : ℕ) = 2 ^ 5 from rfl,
    Nat.pow_le_pow_iff_right (by decide)]
  omega

end Kheap

namespace HeapState

/-- A request from a slab class gets an aligned block: a fresh one for an alignment up to 32, or the
first one on the list if its payload happens to be aligned. -/
def AlignFits (h : Kheap) (size align : ℕ) : Prop :=
  ∀ i, h.servedClass size align = some i →
    if h.freeLists i = 0 then align ≤ 32
    else max align 16 ∣ h.freeLists i + heapPayloadOffset

/-- **When `kalloc` honours the alignment**: it returns a pointer, and that is a multiple of the
alignment and of 16 exactly if the request is not served from a slab class or the slab block it gets
is aligned. -/
theorem kalloc_aligned_iff {s : HeapState} (hr : s.Reachable) {size k : ℕ} (hs : 0 < size)
    (hw : NoWrap s.heap size (2 ^ k)) :
    ∃ p h', s.heap.kalloc size (2 ^ k) = some (p, h') ∧
      (max (2 ^ k) 16 ∣ p ↔ AlignFits s.heap size (2 ^ k)) := by
  obtain ⟨slab, L, hi⟩ := hr.inv
  obtain ⟨b, h', slab', L', heq, hi'⟩ := hi.alloc hs hw
  refine ⟨_, h', heq, ?_⟩
  have hptr := Kheap.kalloc_ptr hs heq
  have hoff : heapPayloadOffset = 32 := by decide
  unfold AlignFits
  rw [hptr, Kheap.max_two_pow, Kheap.blockStart]
  cases hf : s.heap.largeFit size (2 ^ k) with
  | none =>
    rw [Kheap.kalloc, if_neg (by omega), hf] at heq
    cases heq
  | some fit =>
    cases fit with
    | some pn =>
      -- carved out of a node of the large list
      obtain ⟨hw₁, hw₂⟩ := hw.of_fit hf
      dsimp only
      rw [u64_of_lt (by omega), Kheap.servedClass_of_fit hf]
      exact iff_of_true (Kheap.dvd_fitStart hw₁) (by rintro i ⟨⟩)
    | none =>
      rw [Kheap.servedClass_of_not_fit hf]
      dsimp only
      cases hc : Kheap.pickSlabClass size (Kheap.effAlign (2 ^ k)) with
      | none =>
        obtain ⟨hw₁, hw₂⟩ := hw.of_large hf hc
        dsimp only
        rw [u64_of_lt (by omega)]
        exact iff_of_true (Kheap.dvd_fitStart hw₁) (by rintro i ⟨⟩)
      | some i =>
        obtain ⟨hlt, hcls⟩ := Kheap.pickSlabClass_spec hc
        have hsize := (Kheap.slabClasses_bounds _ hcls).1
        dsimp only
        simp only [some.injEq, forall_eq']
        by_cases h0 : s.heap.freeLists i = 0
        · obtain ⟨hw₁, hw₂⟩ := hw.of_class hf hc h0
          rw [if_neg (not_not.mpr h0), if_pos h0, u64_of_lt (by omega)]
          exact Kheap.dvd_fresh_iff hw₁
        · -- the first block of the list, whatever its alignment
          rw [if_pos h0, if_neg h0, u64_of_lt (hi.layout.head_lt hlt h0)]

/-- A request of the boot-time smoke test: a slab block with an alignment of 32. -/
theorem kalloc_aligned_slab :
    ∃ p h', booted.heap.kalloc 1800 32 = some (p, h') ∧ max 32 16 ∣ p := by
  have hw : NoWrap booted.heap 1800 (2 ^ 5) := by decide +kernel
  obtain ⟨p, h', heq, hiff⟩ := kalloc_aligned_iff booted_reachable (by decide) hw
  refine ⟨p, h', heq, hiff.mpr fun i hi => ?_⟩
  have hclass : booted.heap.servedClass 1800 (2 ^ 5) = some 5 := by decide +kernel
  obtain rfl := some_injective _ (hclass.symm.trans hi)
  decide

/-- The first request after `kheap_init`, for 40 bytes with an alignment of 64, returns a pointer
that is 32 bytes behind a multiple of 64. -/
theorem kalloc_sixty_four_misaligned :
    booted.Reachable ∧ NoWrap booted.heap 40 64 ∧
      ∃ p h', booted.heap.kalloc 40 64 = some (p, h') ∧ ¬max 64 16 ∣ p := by
  have hptr : (booted.heap.kalloc 40 64).map Prod.fst = some (heapStart + heapPayloadOffset) := by
    decide +kernel
  obtain ⟨⟨p, h'⟩, heq, rfl⟩ := map_eq_some_iff.mp hptr
  exact ⟨booted_reachable, by decide +kernel, _, h', heq, by decide⟩

end HeapState

end Neptune
