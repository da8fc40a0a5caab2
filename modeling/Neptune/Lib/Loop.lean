import Mathlib.Data.Nat.Basic

/-!
# Counted loops that can fail

A loop runs its body for one index after the other.  The body returns a status and a new state, and
a status other than 0 ends the loop with -1.  A body may also stop without returning.

## Main definitions

* `forEach` — the loop.

## Main results

* `forEach_rule` — the invariant rule.
* `foldlM_range'_progress` — loops over a range whose bodies all succeed.
-/

section

variable {ε σ : Type*}

/-- The loop over the indices `i`, `i + 1`, … with `n` passes that remain. -/
def forEach (body : ℕ → σ → Except ε (ℤ × σ)) : ℕ → ℕ → σ → Except ε (ℤ × σ)
  | 0, _, s => .ok (0, s)
  | n + 1, i, s =>
    match body i s with
    | .error e => .error e
    | .ok (r, s) => if r ≠ 0 then .ok (-1, s) else forEach body n (i + 1) s

variable {body : ℕ → σ → Except ε (ℤ × σ)} {n i : ℕ} {s s' : σ} {r : ℤ}

/-- **The invariant rule**: what holds before a body holds after it if it succeeds, and if it fails
what is to hold at a failure does. -/
theorem forEach_rule {ok : ℕ → σ → Prop} {fail : σ → Prop}
    (step : ∀ k u r u', i ≤ k → k < i + n → ok k u → body k u = .ok (r, u') →
      if r = 0 then ok (k + 1) u' else fail u')
    (h : ok i s) (he : forEach body n i s = .ok (r, s')) :
    (r = 0 ∧ ok (i + n) s') ∨ (r = -1 ∧ fail s') := by
  induction n generalizing i s with
  | zero =>
    obtain ⟨rfl, rfl⟩ := Prod.mk.inj (Except.ok.inj he)
    exact Or.inl ⟨rfl, h⟩
  | succ n ih =>
    rw [forEach] at he
    split at he
    · cases he
    next r₁ s₁ hbody =>
    have hstep := step i s r₁ s₁ le_rfl (by omega) h hbody
    split at he
    · next hr =>
      obtain ⟨rfl, rfl⟩ := Prod.mk.inj (Except.ok.inj he)
      rw [if_neg hr] at hstep
      exact Or.inr ⟨rfl, hstep⟩
    · next hr =>
      rw [if_pos (not_not.mp hr)] at hstep
      have hrest := ih (fun k u r u' hle hlt => step k u r u' (by omega) (by omega)) hstep he
      rwa [Nat.add_right_comm] at hrest

/-- A loop over a range whose bodies all succeed, for bodies without a status. -/
theorem foldlM_range'_progress {f : σ → ℕ → Option σ} {P : ℕ → σ → Prop}
    (step : ∀ k u, i ≤ k → k < i + n → P k u → ∃ u', f u k = some u' ∧ P (k + 1) u')
    (h : P i s) : ∃ s', (List.range' i n).foldlM f s = some s' ∧ P (i + n) s' := by
  induction n generalizing i s with
  | zero => exact ⟨s, rfl, h⟩
  | succ n ih =>
    obtain ⟨u, hbody, hu⟩ := step i s le_rfl (by omega) h
    obtain ⟨s', hrest, hs'⟩ := ih (fun k u hle hlt => step k u (by omega) (by omega)) hu
    rw [Nat.add_right_comm] at hs'
    refine ⟨s', ?_, hs'⟩
    rw [List.range'_succ, List.foldlM_cons, hbody]
    exact hrest

end
