import Mathlib.Data.List.Pairwise
import Mathlib.Data.List.Perm.Basic
import Neptune.Lib.Extent

/-!
# Packings of extents

`Packed lo hi n E` says that the extents `E` lie in `[lo, hi)`, share no address
and are at least `n` long: what an allocator's blocks and free nodes do, whatever
lists it keeps them on.  The lemmas are the moves of an allocator: rearranging,
dropping, taking fresh space, splitting an extent and giving one back to a
coalescing free list.
-/

namespace Extent

/-- Disjoint extents of length at least `n` inside `[lo, hi)`. -/
structure Packed (lo hi n : ℕ) (E : List Extent) : Prop where
  apart : E.Pairwise Apart
  within : ∀ e ∈ E, e.Within lo hi
  size_le : ∀ e ∈ E, n ≤ e.size

namespace Packed

variable {lo hi n : ℕ} {E E' L : List Extent} {e : Extent}

theorem nil : Packed lo hi n [] := ⟨List.Pairwise.nil, by simp, by simp⟩

theorem perm (h : Packed lo hi n E) (hp : E.Perm E') : Packed lo hi n E' where
  apart := (hp.pairwise_iff Apart.symm).mp h.apart
  within := fun e he => h.within e (hp.mem_iff.mpr he)
  size_le := fun e he => h.size_le e (hp.mem_iff.mpr he)

theorem sublist (h : Packed lo hi n E) (hs : E'.Sublist E) : Packed lo hi n E' where
  apart := h.apart.sublist hs
  within := fun e he => h.within e (hs.subset he)
  size_le := fun e he => h.size_le e (hs.subset he)

/-- More room at the top. -/
theorem mono {hi' : ℕ} (h : Packed lo hi n E) (hh : hi ≤ hi') : Packed lo hi' n E where
  apart := h.apart
  within := fun e he => ⟨(h.within e he).1, le_trans (h.within e he).2 hh⟩
  size_le := h.size_le

/-- Replace the extent `e` by disjoint parts of it. -/
theorem split {P : List Extent} (h : Packed lo hi n (e :: E)) (hP : P.Pairwise Apart)
    (hsub : ∀ f ∈ P, f.Within e.base e.limit) (hsize : ∀ f ∈ P, n ≤ f.size) :
    Packed lo hi n (P ++ E) := by
  obtain ⟨he, hE⟩ := List.pairwise_cons.mp h.apart
  have hin := h.within e List.mem_cons_self
  refine ⟨List.pairwise_append.mpr ⟨hP, hE, fun f hf g hg => (he g hg).of_within (hsub f hf)⟩, ?_, ?_⟩
  · intro f hf
    rcases List.mem_append.mp hf with hf | hf
    · exact ⟨le_trans hin.1 (hsub f hf).1, le_trans (hsub f hf).2 hin.2⟩
    · exact h.within f (List.mem_cons_of_mem _ hf)
  · intro f hf
    rcases List.mem_append.mp hf with hf | hf
    · exact hsize f hf
    · exact h.size_le f (List.mem_cons_of_mem _ hf)

/-- Take fresh space at the top. -/
theorem cons_top {hi' : ℕ} (h : Packed lo hi n E) (hlo : lo ≤ e.base) (hbase : hi ≤ e.base)
    (hlim : e.limit ≤ hi') (hsize : n ≤ e.size) : Packed lo hi' n (e :: E) := by
  have hh : hi ≤ hi' := by unfold limit at hlim; omega
  refine ⟨List.pairwise_cons.mpr ⟨fun f hf => ?_, h.apart⟩, ?_, ?_⟩
  · exact Or.inr (le_trans (h.within f hf).2 hbase)
  · intro f hf
    rcases List.mem_cons.mp hf with rfl | hf
    · exact ⟨hlo, hlim⟩
    · exact (h.mono hh).within f hf
  · intro f hf
    rcases List.mem_cons.mp hf with rfl | hf
    · exact hsize
    · exact h.size_le f hf

/-- Give `e` back to the coalescing list `L`. -/
theorem insert (h : Packed lo hi n (e :: E ++ L)) (hn : 0 < n) (hL : Gapped L) :
    Gapped (insertExtent e L) ∧ Packed lo hi n (E ++ insertExtent e L) := by
  obtain ⟨heEL, hEL⟩ := List.pairwise_cons.mp h.apart
  obtain ⟨hE, -, hcross⟩ := List.pairwise_append.mp hEL
  have hpos : ∀ f ∈ e :: E ++ L, 0 < f.size := fun f hf => lt_of_lt_of_le hn (h.size_le f hf)
  have hgap : Gapped (insertExtent e L) :=
    gapped_insertExtent hL (fun c hc => hpos c (by simp [hc])) (hpos e (by simp))
      (fun c hc => heEL c (by simp [hc]))
  refine ⟨hgap, List.pairwise_append.mpr ⟨hE, hgap.pairwise_apart, ?_⟩, ?_, ?_⟩
  · intro g hg
    exact apart_insertExtent (hpos g (by simp [hg])) (heEL g (by simp [hg])).symm (hcross g hg)
  · intro f hf
    rcases List.mem_append.mp hf with hf | hf
    · exact h.within f (by simp [hf])
    · exact within_insertExtent (h.within e (by simp)) (fun c hc => h.within c (by simp [hc])) f hf
  · intro f hf
    rcases List.mem_append.mp hf with hf | hf
    · exact h.size_le f (by simp [hf])
    · exact size_le_insertExtent (h.size_le e (by simp)) (fun c hc => h.size_le c (by simp [hc])) f hf

/-- An extent on the left of a packing is apart from every extent on the right. -/
theorem apart_of_mem (h : Packed lo hi n (E ++ L)) {f : Extent} (he : e ∈ E) (hf : f ∈ L) :
    Apart e f := (List.pairwise_append.mp h.apart).2.2 e he f hf

/-- Two different extents of a packing are apart. -/
theorem apart_of_ne (h : Packed lo hi n E) {f : Extent} (he : e ∈ E) (hf : f ∈ E) (hne : e ≠ f) :
    Apart e f := by
  have : Std.Symm Apart := ⟨fun _ _ => Apart.symm⟩
  exact h.apart.forall he hf hne

end Packed

end Extent
