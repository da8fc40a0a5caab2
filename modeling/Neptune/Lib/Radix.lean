import Mathlib.Data.Nat.Notation
import Mathlib.Data.Option.Basic

/-!
# Radix tables

A radix table looks a number up digit by digit: `next t i` is the node that entry `i`
of the node `t` leads to, and `nodeAt next b root d x` the node at depth `d` for the
numbers that start with the digits `x` in base `b`.  A table in which no node is
reached in two ways (`Unshared`) can be changed in one place without a change
anywhere else: `nodeAt_congr` says so for a change of what is stored in the nodes and
`nodeAt_link` for a new node.

The set `dom` of the positions in question contains with a position the one above it.
-/

/-- The node at depth `d` for the leading digits `x`. -/
def nodeAt (next : ℕ → ℕ → Option ℕ) (b root : ℕ) : ℕ → ℕ → Option ℕ
  | 0, _ => some root
  | d + 1, x => (nodeAt next b root d (x / b)).bind fun t => next t (x % b)

section

variable {next next' : ℕ → ℕ → Option ℕ} {b root D : ℕ} {dom : ℕ → ℕ → Prop}

theorem nodeAt_succ (d x : ℕ) :
    nodeAt next b root (d + 1) x = (nodeAt next b root d (x / b)).bind fun t => next t (x % b) := rfl

/-- The node above one that there is. -/
theorem nodeAt_parent {d x t : ℕ} (h : nodeAt next b root (d + 1) x = some t) :
    ∃ u, nodeAt next b root d (x / b) = some u ∧ next u (x % b) = some t :=
  Option.bind_eq_some_iff.mp h

/-- Positions look up the same nodes as long as the entries on the way are the same. -/
theorem nodeAt_congr (hdom : ∀ d x, dom (d + 1) x → dom d (x / b))
    (h : ∀ d x t, d < D → dom (d + 1) x → nodeAt next b root d (x / b) = some t →
      next' t (x % b) = next t (x % b)) :
    ∀ d x, d ≤ D → dom d x → nodeAt next' b root d x = nodeAt next b root d x := by
  intro d
  induction d with
  | zero => intro x _ _; rfl
  | succ d ih =>
    intro x hd hx
    rw [nodeAt_succ, nodeAt_succ, ih (x / b) (by omega) (hdom d x hx)]
    cases ht : nodeAt next b root d (x / b) with
    | none => rfl
    | some t => exact h d x t (by omega) hx ht

/-- No node down to depth `D` is reached in two ways. -/
structure Unshared (next : ℕ → ℕ → Option ℕ) (b root D : ℕ) (dom : ℕ → ℕ → Prop) : Prop where
  inj : ∀ {d d' x x' t}, d ≤ D → d' ≤ D → dom d x → dom d' x' →
    nodeAt next b root d x = some t → nodeAt next b root d' x' = some t → d = d' ∧ x = x'

/-- **Linking a new node**, which leads nowhere yet, into an empty entry adds that node and
changes no other. -/
theorem nodeAt_link (hdom : ∀ d x, dom (d + 1) x → dom d (x / b))
    (hun : Unshared next b root D dom) {d₀ y t f : ℕ} (hd₀ : d₀ < D) (hy : dom (d₀ + 1) y)
    (ht : nodeAt next b root d₀ (y / b) = some t) (hnone : next t (y % b) = none)
    (hnew : ∀ x, next' f (x % b) = none) (hset : next' t (y % b) = some f)
    (hother : ∀ d x u, d < D → dom (d + 1) x → nodeAt next b root d (x / b) = some u →
      ¬(u = t ∧ x % b = y % b) → next' u (x % b) = next u (x % b)) :
    ∀ d x, d ≤ D → dom d x → nodeAt next' b root d x =
      if d = d₀ + 1 ∧ x = y then some f else nodeAt next b root d x := by
  have hempty : nodeAt next b root (d₀ + 1) y = none := by
    rw [nodeAt_succ, ht]
    exact hnone
  intro d
  induction d with
  | zero =>
    intro x _ _
    rw [if_neg (by omega)]
    rfl
  | succ d ih =>
    intro x hd hx
    rw [nodeAt_succ, ih (x / b) (by omega) (hdom d x hx)]
    by_cases hbelow : d = d₀ + 1 ∧ x / b = y
    · -- below the new node there is nothing, as before
      rw [if_pos hbelow, if_neg (by omega), nodeAt_succ, hbelow.1, hbelow.2, hempty]
      exact hnew _
    · rw [if_neg hbelow]
      cases hu : nodeAt next b root d (x / b) with
      | none =>
        have hne : ¬(d + 1 = d₀ + 1 ∧ x = y) := by
          rintro ⟨hd', rfl⟩
          rw [Nat.succ.inj hd', ht] at hu
          cases hu
        rw [if_neg hne, nodeAt_succ, hu]
        rfl
      | some u =>
        by_cases hhere : u = t ∧ x % b = y % b
        · obtain ⟨rfl, hmod⟩ := hhere
          obtain ⟨rfl, hdiv⟩ := hun.inj (by omega) (by omega) (hdom d x hx) (hdom d₀ y hy) hu ht
          have hxy : x = y := by
            rw [← Nat.div_add_mod x b, ← Nat.div_add_mod y b, hdiv, hmod]
          rw [if_pos ⟨rfl, hxy⟩, Option.bind_some, hmod]
          exact hset
        · have hne : ¬(d + 1 = d₀ + 1 ∧ x = y) := by
            rintro ⟨hd', rfl⟩
            rw [Nat.succ.inj hd', ht] at hu
            exact hhere ⟨(Option.some.inj hu).symm, rfl⟩
          rw [if_neg hne, nodeAt_succ, hu]
          exact hother d x u (by omega) hx hu hhere

theorem Unshared.congr (h : Unshared next b root D dom)
    (he : ∀ d x, d ≤ D → dom d x → nodeAt next' b root d x = nodeAt next b root d x) :
    Unshared next' b root D dom := by
  refine ⟨fun {d d' x x' t} hd hd' hx hx' ht ht' => ?_⟩
  rw [he d x hd hx] at ht
  rw [he d' x' hd' hx'] at ht'
  exact h.inj hd hd' hx hx' ht ht'

/-- A table that only gains a node that it did not have is unshared still. -/
theorem Unshared.link (h : Unshared next b root D dom) {d₀ y f : ℕ}
    (hfresh : ∀ d x, d ≤ D → dom d x → nodeAt next b root d x ≠ some f)
    (he : ∀ d x, d ≤ D → dom d x → nodeAt next' b root d x =
      if d = d₀ ∧ x = y then some f else nodeAt next b root d x) :
    Unshared next' b root D dom := by
  refine ⟨fun {d d' x x' t} hd hd' hx hx' ht ht' => ?_⟩
  rw [he d x hd hx] at ht
  rw [he d' x' hd' hx'] at ht'
  split at ht
  · next hpos =>
    split at ht'
    · next hpos' => exact ⟨hpos.1.trans hpos'.1.symm, hpos.2.trans hpos'.2.symm⟩
    · obtain rfl := Option.some.inj ht
      exact absurd ht' (hfresh d' x' hd' hx')
  · split at ht'
    · obtain rfl := Option.some.inj ht'
      exact absurd ht (hfresh d x hd hx)
    · exact h.inj hd hd' hx hx' ht ht'

end
