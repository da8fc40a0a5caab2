import Mathlib.Logic.Basic

/-!
# Simulation

A machine answers each action and moves on, and it may get stuck.  A relation between the states of
two machines that every action keeps, with the same answer on both sides, makes whole runs give the
same answers.  What is assumed of the actions may depend on the states in which they are done.

## Main definitions

* `answers` — the answers on a run, and the state that it ends in.
* `Meets` — every action of a run meets an assumption.

## Main results

* `answers_simulates` — from one action to a run.
-/

section

variable {σ τ α β : Type*}

/-- The answers to a list of actions, and the last state. -/
def answers (step : σ → α → Option (β × σ)) : σ → List α → Option (List β × σ)
  | s, [] => some ([], s)
  | s, a :: as =>
    (step s a).bind fun r => (answers step r.2 as).map fun rest => (r.1 :: rest.1, rest.2)

/-- Every action meets the assumption in the state in which it is done. -/
def Meets (step : σ → α → Option (β × σ)) (ok : σ → α → Prop) : σ → List α → Prop
  | _, [] => True
  | s, a :: as => ok s a ∧ ∀ r ∈ step s a, Meets step ok r.2 as

instance Meets.decidable {step : σ → α → Option (β × σ)} {ok : σ → α → Prop}
    [∀ s a, Decidable (ok s a)] : ∀ s as, Decidable (Meets step ok s as)
  | _, [] => .isTrue trivial
  | s, a :: as =>
    have : DecidablePred fun r : β × σ => Meets step ok r.2 as := fun r => Meets.decidable r.2 as
    inferInstanceAs (Decidable (ok s a ∧ ∀ r ∈ step s a, Meets step ok r.2 as))

/-- **Runs simulate runs**: if each action that is done on both sides gives the same answer and leaves
related states, so do all of them. -/
theorem answers_simulates {step : σ → α → Option (β × σ)} {spec : τ → α → Option (β × τ)}
    {ok : σ → α → Prop} {R : σ → τ → Prop}
    (hstep : ∀ s t a, R s t → ok s a → ∃ b s' t',
      step s a = some (b, s') ∧ spec t a = some (b, t') ∧ R s' t') :
    ∀ {as : List α} {s : σ} {t : τ}, R s t → Meets step ok s as →
      ∃ bs s' t', answers step s as = some (bs, s') ∧ answers spec t as = some (bs, t') ∧ R s' t' := by
  intro as
  induction as with
  | nil =>
    intro s t hR _
    exact ⟨[], s, t, rfl, rfl, hR⟩
  | cons a as ih =>
    intro s t hR hmeets
    obtain ⟨hok, hrest⟩ := hmeets
    obtain ⟨b, s₁, t₁, hs, ht, hR₁⟩ := hstep s t a hR hok
    obtain ⟨bs, s', t', hs', ht', hR'⟩ := ih hR₁ (hrest (b, s₁) hs)
    refine ⟨b :: bs, s', t', ?_, ?_, hR'⟩
    · rw [answers, hs, Option.bind_some, hs', Option.map_some]
    · rw [answers, ht, Option.bind_some, ht', Option.map_some]

end
