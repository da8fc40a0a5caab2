import Mathlib.Logic.Function.Basic
import Neptune.Lib.Runs

/-!
# Spin locks

`spinlock_acquire_irqsave` and `spinlock_release_irqrestore` of one lock, on any number of
processors.  Each access to the lock is a step of its own, and the steps of the processors
interleave.  Of the flags only the interrupt flag is ever read.

The flags are stored in the lock before the lock is taken, so a processor that waits for the lock
overwrites those of the processor that holds it.

## Main definitions

* `SpinState`, `SpinState.Moves` — the lock and the processors.
* `SpinState.Alone` — stores of the flags that disturb nobody.

## Main results

* `SpinState.spinlock_exclusive` — at most one processor is inside, with its interrupts off.
* `SpinState.irqrestore_alone` — the interrupt flag comes back where stores are alone.
-/

namespace Neptune

open Function

/-- Where a processor is. -/
inductive SpinPc
  | outside
  /-- Interrupts are off, and the old flags are not yet in the lock. -/
  | storing (flags : Bool)
  | spinning
  | holding
  /-- The flags are loaded, and the lock is still set. -/
  | clearing (flags : Bool)
  /-- Before `arch_irq_restore`. -/
  | restoring (flags : Bool)
  deriving DecidableEq, Repr

/-- A processor, with the interrupt flag that it had when it asked for the lock. -/
structure SpinCpu where
  pc : SpinPc
  ifFlag : Bool
  before : Bool
  deriving DecidableEq, Repr

/-- `spinlock_t` and the processors. -/
structure SpinState (C : Type*) where
  lock : Bool
  flags : Bool
  cpu : C → SpinCpu

/-- The lock was taken and is not yet given back. -/
def SpinPc.Inside : SpinPc → Prop
  | .holding | .clearing _ => True
  | _ => False

namespace SpinState

variable {C : Type*} [DecidableEq C] {s : SpinState C} {c : C} {p : SpinCpu} {lock flags : Bool}
  {ok : SpinState C → C → Prop}

/-- A step of a processor: what becomes of the processor, of the lock and of its flags. -/
inductive Moves (s : SpinState C) (c : C) : SpinCpu → Bool → Bool → Prop
  /-- `spinlock_acquire_irqsave` is called: `arch_irq_save`. -/
  | save : (s.cpu c).pc = .outside →
      Moves s c ⟨.storing (s.cpu c).ifFlag, false, (s.cpu c).ifFlag⟩ s.lock s.flags
  | store (flags : Bool) : (s.cpu c).pc = .storing flags →
      Moves s c { s.cpu c with pc := .spinning } s.lock flags
  /-- `__atomic_test_and_set` returns true. -/
  | spin : (s.cpu c).pc = .spinning → s.lock = true → Moves s c (s.cpu c) s.lock s.flags
  | take : (s.cpu c).pc = .spinning → s.lock = false →
      Moves s c { s.cpu c with pc := .holding } true s.flags
  /-- `spinlock_release_irqrestore` is called. -/
  | load : (s.cpu c).pc = .holding →
      Moves s c { s.cpu c with pc := .clearing s.flags } s.lock s.flags
  | clear (flags : Bool) : (s.cpu c).pc = .clearing flags →
      Moves s c { s.cpu c with pc := .restoring flags } false s.flags
  /-- `arch_irq_restore` enables interrupts or does nothing. -/
  | restore (flags : Bool) : (s.cpu c).pc = .restoring flags →
      Moves s c ⟨.outside, (s.cpu c).ifFlag || flags, (s.cpu c).before⟩ s.lock s.flags
  /-- Outside, interrupts are disabled and enabled. -/
  | setIf (b : Bool) : (s.cpu c).pc = .outside →
      Moves s c { s.cpu c with ifFlag := b } s.lock s.flags

/-- One processor moves, where it may. -/
def Step (ok : SpinState C → C → Prop) (s s' : SpinState C) : Prop :=
  ∃ c p lock flags, ok s c ∧ Moves s c p lock flags ∧ s' = ⟨lock, flags, update s.cpu c p⟩

/-- The runs from a free lock that nobody has asked for. -/
def Reachable (ok : SpinState C → C → Prop) : SpinState C → Prop :=
  Reach (fun s => s.lock = false ∧ ∀ c, (s.cpu c).pc = .outside) (Step ok)

/-- A processor stores its flags only while no other waits for the lock or holds it. -/
def Alone (s : SpinState C) (c : C) : Prop := (∃ flags, (s.cpu c).pc = .storing flags) →
  ∀ c' ≠ c, (s.cpu c').pc ≠ .spinning ∧ (s.cpu c').pc ≠ .holding

theorem reach_moves {init : SpinState C → Prop} (h : Reach init (Step ok) s) (hok : ok s c)
    (hm : Moves s c p lock flags) : Reach init (Step ok) ⟨lock, flags, update s.cpu c p⟩ :=
  .step h ⟨c, p, lock, flags, hok, hm, rfl⟩

/-- Two processors, of which the one with its interrupts on has taken the lock. -/
theorem reachable_taken : ∃ s : SpinState Bool, Reachable Alone s ∧
    s.cpu false = ⟨.holding, false, true⟩ := by
  have h0 : Reachable Alone ⟨false, false, fun c : Bool => ⟨.outside, !c, false⟩⟩ :=
    .init ⟨rfl, fun _ => rfl⟩
  have h1 := reach_moves h0 (by simp [Alone]) (.save (c := false) rfl)
  have h2 := reach_moves h1 (by simp [Alone]) (.store (c := false) true (by simp))
  have h3 := reach_moves h2 (by simp [Alone]) (.take (c := false) (by simp) rfl)
  exact ⟨_, h3, by simp⟩

/-! ### Exclusion -/

/-- The lock is free and nobody is inside, or it is set and one processor is. -/
def Owned (s : SpinState C) : Prop :=
  s.lock = false ∧ (∀ c, ¬(s.cpu c).pc.Inside) ∨ s.lock = true ∧ ∃ o, ∀ c, (s.cpu c).pc.Inside ↔ c = o

theorem Owned.moves (h : s.Owned) (hm : Moves s c p lock flags) :
    Owned ⟨lock, flags, update s.cpu c p⟩ := by
  -- most steps change neither the lock nor who is inside
  have hkeep : (p.pc.Inside ↔ (s.cpu c).pc.Inside) → Owned ⟨s.lock, flags, update s.cpu c p⟩ := by
    intro hp
    have hsame : ∀ x, (update s.cpu c p x).pc.Inside ↔ (s.cpu x).pc.Inside := by
      intro x
      by_cases hx : x = c
      · rw [hx, update_self, hp]
      · rw [update_of_ne hx]
    simpa only [Owned, hsame] using h
  cases hm with
  | take hpc hfree =>
    obtain ⟨-, hnone⟩ | ⟨hset, -⟩ := h
    · refine .inr ⟨rfl, c, fun x => ?_⟩
      by_cases hx : x = c
      · simp [hx, SpinPc.Inside]
      · simp [hx, hnone x]
    · simp [hfree] at hset
  | clear _ hpc =>
    obtain ⟨-, hnone⟩ | ⟨-, o, ho⟩ := h
    · exact absurd (by simp [hpc, SpinPc.Inside]) (hnone c)
    · obtain rfl : c = o := (ho c).mp (by simp [hpc, SpinPc.Inside])
      refine .inl ⟨rfl, fun x => ?_⟩
      by_cases hx : x = c
      · simp [hx, SpinPc.Inside]
      · simp [hx, ho x]
  | save hpc | store _ hpc | spin hpc | load hpc | restore _ hpc | setIf _ hpc =>
    exact hkeep (by simp [hpc, SpinPc.Inside])

/-- Interrupts are off from the call that asks for the lock on. -/
def IrqOff (s : SpinState C) : Prop := ∀ c, (s.cpu c).pc ≠ .outside → (s.cpu c).ifFlag = false

theorem IrqOff.moves (h : s.IrqOff) (hm : Moves s c p lock flags) :
    IrqOff ⟨lock, flags, update s.cpu c p⟩ := by
  refine (forall_update_iff s.cpu
    (p := fun _ q => q.pc ≠ .outside → q.ifFlag = false)).mpr ⟨?_, fun x _ => h x⟩
  have := h c
  cases hm <;> simp_all

theorem Reachable.inv (h : Reachable ok s) : s.Owned ∧ s.IrqOff := by
  refine Reach.invariant (I := fun s => s.Owned ∧ s.IrqOff) h ?_ ?_
  · rintro s ⟨hfree, hout⟩
    refine ⟨.inl ⟨hfree, fun c => ?_⟩, fun c hc => absurd (hout c) hc⟩
    simp [hout c, SpinPc.Inside]
  · rintro s _ ⟨hown, hoff⟩ ⟨c, p, lock, flags, -, hm, rfl⟩
    exact ⟨hown.moves hm, hoff.moves hm⟩

/-- **Exclusion.**  On any number of processors and in every interleaving of their steps, the lock is
set just while some processor is inside, no two are, and its interrupts are off. -/
theorem spinlock_exclusive (h : Reachable ok s) :
    (s.lock = true ↔ ∃ c, (s.cpu c).pc.Inside) ∧
    (∀ c c', (s.cpu c).pc.Inside → (s.cpu c').pc.Inside → c = c') ∧
    ∀ c, (s.cpu c).pc.Inside → (s.cpu c).ifFlag = false := by
  obtain ⟨hown, hoff⟩ := h.inv
  have hirq : ∀ c, (s.cpu c).pc.Inside → (s.cpu c).ifFlag = false := by
    intro c hc
    refine hoff c fun hout => ?_
    rw [hout] at hc
    exact hc
  obtain ⟨hfree, hnone⟩ | ⟨hset, o, ho⟩ := hown
  · exact ⟨by simp [hfree, hnone], fun c c' hc => absurd hc (hnone c), hirq⟩
  · refine ⟨by simp [hset, ho], fun c c' hc hc' => ?_, hirq⟩
    rw [(ho c).mp hc, (ho c').mp hc']

theorem spinlock_exclusive_taken : ∃ s : SpinState Bool, Reachable Alone s ∧
    (s.cpu false).pc.Inside ∧ s.lock = true ∧ ¬(s.cpu true).pc.Inside := by
  obtain ⟨s, hs, h0⟩ := reachable_taken
  have hin : (s.cpu false).pc.Inside := by simp [h0, SpinPc.Inside]
  have hex := spinlock_exclusive hs
  exact ⟨s, hs, hin, hex.1.mpr ⟨false, hin⟩, fun h => Bool.noConfusion (hex.2.1 _ _ hin h)⟩

/-! ### The interrupt flag -/

/-- The flags on the way of a processor are those that it had. -/
def Kept (s : SpinState C) (c : C) : Prop :=
  match (s.cpu c).pc with
  | .outside => True
  | .storing flags | .clearing flags | .restoring flags => flags = (s.cpu c).before
  | .spinning | .holding => s.flags = (s.cpu c).before

theorem Kept.moves (h : ∀ c, s.Kept c) (hm : Moves s c p lock flags) (halone : s.Alone c) (x : C) :
    Kept ⟨lock, flags, update s.cpu c p⟩ x := by
  have hx := h x
  by_cases hxc : x = c
  · subst hxc
    cases hm <;> simp_all [Kept]
  · -- the flags in the lock change only by a store, and then `x` does not rely on them
    have hflags : flags = s.flags ∨ (s.cpu x).pc ≠ .spinning ∧ (s.cpu x).pc ≠ .holding := by
      cases hm with
      | store _ hpc => exact .inr (halone ⟨_, hpc⟩ x hxc)
      | _ => exact .inl rfl
    simp only [Kept, update_of_ne hxc] at hx ⊢
    obtain rfl | ⟨hspin, hhold⟩ := hflags
    · exact hx
    · revert hx
      cases hpc : (s.cpu x).pc <;> simp_all

theorem Reachable.kept (h : Reachable Alone s) (c : C) : s.Kept c := by
  refine Reach.invariant (I := fun s => ∀ c, s.Kept c) h (fun s hs c => by simp [Kept, hs.2 c]) ?_ c
  rintro s _ hs ⟨c, p, lock, flags, hok, hm, rfl⟩
  exact Kept.moves hs hm hok

/-- **The flag comes back.**  On runs on which a processor stores its flags only while no other waits
for the lock or holds it, a release leaves the interrupt flag as it was at the acquire. -/
theorem irqrestore_alone (h : Reachable Alone s) (hpc : (s.cpu c).pc = .restoring flags) :
    ((s.cpu c).ifFlag || flags) = (s.cpu c).before := by
  have hoff : (s.cpu c).ifFlag = false := h.inv.2 c (by simp [hpc])
  simpa [Kept, hpc, hoff] using h.kept c

theorem irqrestore_alone_taken : ∃ s : SpinState Bool, (s.cpu false).pc = .restoring true ∧
    ((s.cpu false).ifFlag || true) = (s.cpu false).before := by
  obtain ⟨s, hs, h0⟩ := reachable_taken
  have hflags : s.flags = true := by simpa [Kept, h0] using hs.kept false
  have h1 := reach_moves hs (by simp [Alone, h0]) (.load (c := false) (by simp [h0]))
  have h2 := reach_moves h1 (by simp [Alone]) (.clear (c := false) true (by simp [hflags]))
  exact ⟨_, by simp, irqrestore_alone h2 (by simp)⟩

end SpinState

end Neptune
