import Mathlib.Logic.Basic

/-!
# Runs of a transition system

`Reach init step s` says that some run from an initial state ends in `s`.  A
restriction on the steps of a run is a stronger step relation.
-/

/-- The states on runs that start in `init` and follow `step`. -/
inductive Reach {σ : Type*} (init : σ → Prop) (step : σ → σ → Prop) : σ → Prop
  | init {s : σ} : init s → Reach init step s
  | step {s t : σ} : Reach init step s → step s t → Reach init step t

/-- Do the actions one after the other. -/
def runAll {σ α : Type*} (step : σ → α → Option σ) (s : σ) : List α → Option σ
  | [] => some s
  | a :: as => (step s a).bind fun t => runAll step t as

/-- The actions of a run, each with the state in which it is done. -/
def trail {σ α : Type*} (next : σ → α → Option σ) : σ → List α → List (σ × α)
  | _, [] => []
  | s, a :: as => (s, a) :: ((next s a).map fun t => trail next t as).getD []

/-- A run that goes on begins with the first of its actions. -/
theorem trail_head {σ α : Type*} {next : σ → α → Option σ} {s t : σ} {as : List α} (b : α)
    (h : runAll next s as = some t) : ∃ a, (s, a) ∈ trail next s as ++ [(t, b)] := by
  cases as with
  | nil => exact ⟨b, by simp [Option.some.inj h]⟩
  | cons a as => exact ⟨a, by simp [trail]⟩

namespace Reach

variable {σ : Type*} {init : σ → Prop} {step : σ → σ → Prop} {s : σ}

/-- A property of the initial states that every step preserves holds on every run. -/
theorem invariant {I : σ → Prop} (h : Reach init step s) (h0 : ∀ s, init s → I s)
    (hstep : ∀ s t, I s → step s t → I t) : I s := by
  induction h with
  | init hi => exact h0 _ hi
  | step _ hst ih => exact hstep _ _ ih hst

/-- Runs of a stronger step relation are runs of the weaker one. -/
theorem mono {step' : σ → σ → Prop} (h : Reach init step s)
    (hs : ∀ s t, step s t → step' s t) : Reach init step' s := by
  induction h with
  | init hi => exact .init hi
  | step _ hst ih => exact .step ih (hs _ _ hst)

/-- A run can start where another one has ended. -/
theorem trans {init' : σ → Prop} (h : Reach init step s)
    (h0 : ∀ s, init s → Reach init' step s) : Reach init' step s :=
  h.invariant h0 fun _ _ hr hst => .step hr hst

/-- What a list of actions leads to is reached, where they can be done. -/
theorem of_runAll {α : Type*} {next : σ → α → Option σ} {as : List α} {t : σ}
    (h : Reach init (fun s t => ∃ a, next s a = some t) s) (hr : runAll next s as = some t) :
    Reach init (fun s t => ∃ a, next s a = some t) t := by
  induction as generalizing s with
  | nil => exact Option.some.inj hr ▸ h
  | cons a as ih =>
    obtain ⟨u, hs, hr⟩ := Option.bind_eq_some_iff.mp hr
    exact ih (.step h ⟨a, hs⟩) hr

/-- The same where every action meets a condition. -/
theorem of_runAll_if {α : Type*} {next : σ → α → Option σ} {ok : σ → α → Prop}
    [∀ s a, Decidable (ok s a)] {as : List α} {t : σ}
    (h : Reach init (fun s t => ∃ a, ok s a ∧ next s a = some t) s)
    (hr : runAll (fun s a => if ok s a then next s a else none) s as = some t) :
    Reach init (fun s t => ∃ a, ok s a ∧ next s a = some t) t := by
  induction as generalizing s with
  | nil => exact Option.some.inj hr ▸ h
  | cons a as ih =>
    obtain ⟨u, hs, hr⟩ := Option.bind_eq_some_iff.mp hr
    dsimp only at hs
    split at hs
    · next hok => exact ih (.step h ⟨a, hok, hs⟩) hr
    · cases hs

theorem runAll_getD {α : Type*} {next : σ → α → Option σ}
    (h : Reach init (fun s t => ∃ a, next s a = some t) s) (as : List α) :
    Reach init (fun s t => ∃ a, next s a = some t) ((runAll next s as).getD s) := by
  cases hr : runAll next s as with
  | none => exact h
  | some t => exact h.of_runAll hr

end Reach
