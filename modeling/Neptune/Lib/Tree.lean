import Mathlib.Order.CompletePartialOrder
import Mathlib.Data.Set.Lattice

/-!
# Trees of linked nodes and the memory they take

`next t i` is the node that entry `i` of the node `t` leads to.  `Tree next ok l t S` says that the
nodes that are reached from `t` in up to `l` steps form a tree, that `S` is the set of them, and that
each of them is `ok` at its height.  The subtrees of a node are apart, so that a change in one of them
leaves the others as they are: `Tree.split` takes one subtree out and `Split.replace` puts another in
its place.
-/

namespace Linked

open Function
open Set

variable {ι : Type*}

/-- The nodes `S` below `t` down to `l` steps form a tree, and all are in order. -/
def Tree (next : ℕ → ι → Option ℕ) (ok : ℕ → ℕ → Prop) : ℕ → ℕ → Set ℕ → Prop
  | 0, t, S => ok 0 t ∧ S = {t}
  | l + 1, t, S => ok (l + 1) t ∧ ∃ C : ι → Set ℕ,
      S = insert t (⋃ i, C i) ∧ (∀ i, t ∉ C i) ∧ (∀ i j, i ≠ j → Disjoint (C i) (C j)) ∧
        ∀ i, match next t i with
          | none => C i = ∅
          | some u => Tree next ok l u (C i)

/-- The nodes `C` below one entry: none, or a tree. -/
def Branch (next : ℕ → ι → Option ℕ) (ok : ℕ → ℕ → Prop) (l t : ℕ) (i : ι) (C : Set ℕ) : Prop :=
  match next t i with
  | none => C = ∅
  | some u => Tree next ok l u C

section

variable {next next' : ℕ → ι → Option ℕ} {ok ok' : ℕ → ℕ → Prop} {l t u : ℕ} {S C R : Set ℕ} {i : ι}

theorem Tree.root_mem (h : Tree next ok l t S) : t ∈ S := by
  cases l with
  | zero => rw [h.2]; exact mem_singleton t
  | succ l =>
    obtain ⟨-, C, rfl, -⟩ := h
    exact mem_insert t _

theorem Tree.root_ok (h : Tree next ok l t S) : ok l t := by
  cases l with
  | zero => exact h.1
  | succ l => exact h.1

theorem Branch.of_some (h : Branch next ok l t i C) (hu : next t i = some u) :
    Tree next ok l u C := by
  rwa [Branch, hu] at h

theorem Branch.of_none (h : Branch next ok l t i C) (hu : next t i = none) : C = ∅ := by
  rwa [Branch, hu] at h

/-- A tree is a tree still if its nodes keep their entries. -/
theorem Tree.congr (h : Tree next ok l t S)
    (hsame : ∀ u ∈ S, (∀ i, next' u i = next u i) ∧ ∀ k, ok k u → ok' k u) :
    Tree next' ok' l t S := by
  induction l generalizing t S with
  | zero =>
    obtain ⟨hok, rfl⟩ := h
    exact ⟨(hsame t (mem_singleton t)).2 0 hok, rfl⟩
  | succ l ih =>
    obtain ⟨hok, C, rfl, ht, hdisj, hsub⟩ := h
    obtain ⟨hnext, hok'⟩ := hsame t (mem_insert t _)
    refine ⟨hok' _ hok, C, rfl, ht, hdisj, fun i => ?_⟩
    have hi := hsub i
    rw [hnext i]
    cases hu : next t i with
    | none => rwa [hu] at hi
    | some u =>
      rw [hu] at hi
      exact ih hi fun v hv => hsame v (mem_insert_of_mem t (mem_iUnion.mpr ⟨i, hv⟩))

/-- One subtree `C` of a tree, and the nodes `R` of the others. -/
structure Split (next : ℕ → ι → Option ℕ) (ok : ℕ → ℕ → Prop) (l t : ℕ) (i : ι) (S C R : Set ℕ) :
    Prop where
  eq : S = insert t (C ∪ R)
  root : t ∉ C ∧ t ∉ R
  disjoint : Disjoint C R
  branch : Branch next ok l t i C
  /-- The other subtrees are among `R`. -/
  others : ∀ j, j ≠ i → ∃ D, D ⊆ R ∧ Branch next ok l t j D
  /-- Another subtree in the place of `C`. -/
  replace : ∀ {next' : ℕ → ι → Option ℕ} {ok' : ℕ → ℕ → Prop} {C' : Set ℕ}, ok' (l + 1) t →
    (∀ j, j ≠ i → next' t j = next t j) →
    (∀ u ∈ R, (∀ j, next' u j = next u j) ∧ ∀ k, ok k u → ok' k u) →
    Branch next' ok' l t i C' → t ∉ C' → Disjoint C' R →
    Tree next' ok' (l + 1) t (insert t (C' ∪ R))

theorem Split.mem_branch (h : Split next ok l t i S C R) (hu : u ∈ C) : u ∈ S := by
  rw [h.eq]
  exact mem_insert_of_mem t (.inl hu)

theorem Split.mem_rest (h : Split next ok l t i S C R) (hu : u ∈ R) : u ∈ S := by
  rw [h.eq]
  exact mem_insert_of_mem t (.inr hu)

theorem Branch.congr {t' : ℕ} (h : Branch next ok l t i C) (hnext : next' t' i = next t i)
    (hsame : ∀ u ∈ C, (∀ j, next' u j = next u j) ∧ ∀ k, ok k u → ok' k u) :
    Branch next' ok' l t' i C := by
  unfold Branch at h ⊢
  rw [hnext]
  cases hu : next t i with
  | none => rwa [hu] at h
  | some u =>
    rw [hu] at h
    exact h.congr hsame

/-- **A tree and one of its subtrees.** -/
theorem Tree.split (h : Tree next ok (l + 1) t S) (i : ι) : ∃ C R, Split next ok l t i S C R := by
  classical
  obtain ⟨hok, C, rfl, ht, hdisj, hsub⟩ := h
  let R : Set ℕ := {u | ∃ j, j ≠ i ∧ u ∈ C j}
  have hall : ∀ C', ⋃ j, update C i C' j = C' ∪ R := by
    intro C'
    ext u
    rw [mem_iUnion, mem_union]
    constructor
    · rintro ⟨j, hu⟩
      by_cases hj : j = i
      · subst hj
        rw [update_self] at hu
        exact .inl hu
      · rw [update_of_ne hj] at hu
        exact .inr ⟨j, hj, hu⟩
    · rintro (hu | ⟨j, hj, hu⟩)
      · exact ⟨i, by rwa [update_self]⟩
      · exact ⟨j, by rwa [update_of_ne hj]⟩
  have hCR : Disjoint (C i) R := by
    rw [disjoint_left]
    rintro u hu ⟨j, hj, hu'⟩
    exact disjoint_left.mp (hdisj i j (Ne.symm hj)) hu hu'
  have htR : t ∉ R := by
    rintro ⟨j, -, hu⟩
    exact ht j hu
  refine ⟨C i, R, by rw [← hall, update_eq_self], ⟨ht i, htR⟩, hCR, hsub i,
    fun j hj => ⟨C j, fun u hu => ⟨j, hj, hu⟩, hsub j⟩, ?_⟩
  intro next' ok' C' hok' hnext hsame hbranch htC' hC'R
  refine ⟨hok', update C i C', by rw [hall], ?_, fun j k hjk => ?_, ?_⟩
  · exact (forall_update_iff C fun _ D => t ∉ D).mpr ⟨htC', fun j _ => ht j⟩
  · -- the new subtree is apart from the others, which are apart as before
    have hnew : ∀ {k}, k ≠ i → Disjoint C' (C k) := fun {k} hk =>
      hC'R.mono_right (show C k ⊆ R from fun u hu => ⟨k, hk, hu⟩)
    by_cases hj : j = i
    · subst hj
      rw [update_self, update_of_ne (Ne.symm hjk)]
      exact hnew (Ne.symm hjk)
    · rw [update_of_ne hj]
      by_cases hk : k = i
      · subst hk
        rw [update_self]
        exact (hnew hj).symm
      · rw [update_of_ne hk]
        exact hdisj j k hjk
  · refine (forall_update_iff C fun j D => Branch next' ok' l t j D).mpr ⟨hbranch, fun j hj => ?_⟩
    have hold : Branch next ok l t j (C j) := hsub j
    exact hold.congr (hnext j hj) fun u hu => hsame u ⟨j, hj, hu⟩

/-- A node without entries is a tree. -/
theorem tree_singleton (hok : ok l t) (hnone : l ≠ 0 → ∀ i, next t i = none) :
    Tree next ok l t {t} := by
  cases l with
  | zero => exact ⟨hok, rfl⟩
  | succ l =>
    refine ⟨hok, fun _ => ∅, ?_, fun _ => notMem_empty t, fun _ _ _ => disjoint_bot_left, fun i => ?_⟩
    · rw [iUnion_empty]
      exact (insert_empty_eq t).symm
    · rw [hnone (Nat.succ_ne_zero l) i]

theorem Tree.eq_singleton (h : Tree next ok l t S) (hnone : ∀ i, next t i = none) : S = {t} := by
  cases l with
  | zero => exact h.2
  | succ l =>
    obtain ⟨-, C, rfl, -, -, hsub⟩ := h
    have hempty : ∀ i, C i = ∅ := fun i => by
      have hi := hsub i
      rwa [hnone i] at hi
    rw [iUnion_congr hempty, iUnion_empty]
    exact insert_empty_eq t

/-- A node with one entry is a tree over the tree of that entry. -/
theorem Tree.link (h : Tree next ok l u C) (hok : ok (l + 1) t) (hu : next t i = some u)
    (hnone : ∀ j, j ≠ i → next t j = none) (ht : t ∉ C) : Tree next ok (l + 1) t (insert t C) := by
  classical
  -- the tree replaces the empty subtree of a node without entries
  have hbare : Tree (update next t fun _ => none) ok (l + 1) t {t} :=
    tree_singleton hok fun _ i => by rw [update_self]
  obtain ⟨D, R, hsplit⟩ := hbare.split i
  have hR : R = ∅ := eq_empty_of_forall_notMem fun v hv => by
    have hvt : v ∈ ({t} : Set ℕ) := hsplit.eq ▸ mem_insert_of_mem t (.inr hv)
    exact hsplit.root.2 (mem_singleton_iff.mp hvt ▸ hv)
  subst hR
  have htree : Tree next ok (l + 1) t (insert t (C ∪ ∅)) := hsplit.replace hok
    (fun j hj => by rw [update_self, hnone j hj]) (fun v hv => absurd hv (notMem_empty v))
    (by rwa [Branch, hu]) ht disjoint_bot_right
  rwa [union_empty] at htree

/-- A node with two entries is a tree over the trees of these. -/
theorem Tree.link₂ {v : ℕ} {D : Set ℕ} {j : ι} (hij : i ≠ j) (h : Tree next ok l u C)
    (h' : Tree next ok l v D) (hok : ok (l + 1) t) (hu : next t i = some u)
    (hv : next t j = some v) (hnone : ∀ k, k ≠ i → k ≠ j → next t k = none) (ht : t ∉ C)
    (ht' : t ∉ D) (hCD : Disjoint C D) : Tree next ok (l + 1) t (insert t (C ∪ D)) := by
  classical
  -- the second tree replaces the empty subtree of a node with one entry
  let next₁ := update next t fun k => if k = j then none else next t k
  have hself : ∀ k, next₁ t k = if k = j then none else next t k := fun k => by
    rw [show next₁ t = _ from update_self ..]
  have hother : ∀ w, w ≠ t → ∀ k, next w k = next₁ w k := fun w hw k => by
    rw [show next₁ w = _ from update_of_ne hw ..]
  have hC : Tree next₁ ok l u C := h.congr fun w hw =>
    ⟨fun k => (hother w (fun hwt => ht (hwt ▸ hw)) k).symm, fun _ hk => hk⟩
  have hone : Tree next₁ ok (l + 1) t (insert t C) := by
    refine hC.link hok (i := i) (by rw [hself, if_neg hij, hu]) (fun k hk => ?_) ht
    rw [hself]
    split
    · rfl
    · next hkj => exact hnone k hk hkj
  obtain ⟨E, R, hsplit⟩ := hone.split j
  obtain rfl : E = ∅ := hsplit.branch.of_none (by rw [hself, if_pos rfl])
  have hR : R = C := by
    have heq := hsplit.eq
    rw [empty_union] at heq
    rw [← insert_sdiff_self_of_notMem hsplit.root.2, ← heq, insert_sdiff_self_of_notMem ht]
  subst hR
  have htree : Tree next ok (l + 1) t (insert t (D ∪ R)) := hsplit.replace hok
    (fun k hk => by rw [hself, if_neg hk])
    (fun w hw => ⟨hother w fun hwt => ht (hwt ▸ hw), fun _ hk => hk⟩) (by rwa [Branch, hv]) ht'
    hCD.symm
  rwa [union_comm] at htree

end

end Linked
