import Neptune.Sched.Threads

/-!
# The address space of the current thread

CR3 is loaded by `sched_resched_locked`, when the next thread has an address space,
and by `arch_enter_user`; a switch to a kernel thread leaves it alone.  A thread with
an address space always runs on it nevertheless, from the moment that it enters user
mode.

## Main definitions

* `SchedState.OwnSpace` — the current thread is on its own address space.
* `SchedState.Fades` — what an operation that loads nothing can do to it.

## Main results

* `SchedState.cr3_eq_aspace` — it is so in every state of every run, and a thread that
  comes back after other threads have run is on the address space that it had.
-/

namespace Neptune

namespace SchedState

open Function Option

variable {s s' u : SchedState} {t q : ℕ}

/-- The current thread is on its own address space, and every thread enters user mode on
the one that it has. -/
structure OwnSpace (s : SchedState) : Prop where
  entering : ∀ t p, s.entering t = some p → s.aspace t = p ∨ s.aspace t = 0
  cr3 : s.entering s.currentThread = none → s.aspace s.currentThread ≠ 0 →
    s.cr3 = s.aspace s.currentThread

/-- The same thread runs on the same tables, and threads at most lose their address space. -/
structure Fades (s s' : SchedState) : Prop where
  cr3 : s'.cr3 = s.cr3
  current : s'.currentThread = s.currentThread
  aspace : ∀ t, s'.aspace t = s.aspace t ∧ s'.entering t = s.entering t ∨
    s'.aspace t = 0 ∧ (s'.entering t = s.entering t ∨ s'.entering t = none)

theorem Fades.of_eq (h3 : s'.cr3 = s.cr3) (hc : s'.currentThread = s.currentThread)
    (ha : s'.aspace = s.aspace) (he : s'.entering = s.entering) : Fades s s' :=
  ⟨h3, hc, fun t => .inl ⟨congrFun ha t, congrFun he t⟩⟩

theorem Fades.refl : Fades s s := .of_eq rfl rfl rfl rfl

theorem Fades.trans (h : Fades s u) (h' : Fades u s') : Fades s s' := by
  refine ⟨h'.cr3.trans h.cr3, h'.current.trans h.current, fun t => ?_⟩
  rcases h'.aspace t with ⟨ha', he'⟩ | ⟨ha', he'⟩ <;> rcases h.aspace t with ⟨ha, he⟩ | ⟨ha, he⟩ <;>
    grind

theorem OwnSpace.fades (h : OwnSpace s) (hf : Fades s s') : OwnSpace s' := by
  refine ⟨fun t p hp => ?_, fun he hne => ?_⟩
  · rcases hf.aspace t with ⟨ha, he⟩ | ⟨ha, -⟩
    · rw [ha]
      exact h.entering t p (he ▸ hp)
    · exact .inr ha
  · rcases hf.aspace s'.currentThread with ⟨ha, he'⟩ | ⟨ha, -⟩
    · rw [ha, hf.cr3, hf.current]
      rw [ha, hf.current] at hne
      rw [he', hf.current] at he
      exact h.cr3 he hne
    · exact absurd ha hne

/-! ### The operations -/

theorem create_fades {role : Role} {parentPid : Option ℤ} {stack : Bool}
    (he : s.create t role parentPid stack = some s') : Fades s s' := by
  rw [create] at he
  split at he
  · cases he
  · obtain rfl := some.inj he
    refine ⟨?_, ?_, fun v => ?_⟩
    · cases stack <;> cases parentPid <;> rfl
    · cases stack <;> cases parentPid <;> rfl
    · by_cases hv : v = t
      · right
        cases stack <;> cases parentPid <;>
          simp [initThread, threadAlloc, kallocThread, listAppend, listRemove, kfreeThread, hv]
      · left
        cases stack <;> cases parentPid <;>
          simp [initThread, threadAlloc, kallocThread, listAppend, listRemove, kfreeThread, hv]

theorem setState_fades {st : ThreadState} : Fades s (s.setState t st) := .of_eq rfl rfl rfl rfl

theorem enqueue_fades : Fades s (s.enqueue q) := .of_eq rfl rfl rfl rfl

theorem wakeOne_fades : Fades s (s.wakeOne q) := by
  rw [wakeOne]
  dsimp only
  split
  · exact .refl
  · exact .of_eq rfl rfl rfl rfl

theorem wakeLoop_fades {fuel : ℕ} (he : s.wakeLoop q fuel t = some s') : Fades s s' := by
  induction fuel generalizing s t with
  | zero => cases he
  | succ fuel ih =>
    rw [wakeLoop] at he
    split at he
    · obtain rfl := some.inj he
      exact .refl
    · refine Fades.trans ?_ (ih he)
      exact .of_eq rfl rfl rfl rfl

theorem kill_fades : Fades s (s.kill t) := by
  refine ⟨rfl, rfl, fun v => ?_⟩
  by_cases hv : v = t
  · exact .inr ⟨by simp [kill, hv], .inl rfl⟩
  · exact .inl ⟨by simp [kill, hv], rfl⟩

theorem killLoop_fades {fuel : ℕ} (he : s.killLoop fuel t = some s') : Fades s s' := by
  induction fuel generalizing s t with
  | zero => cases he
  | succ fuel ih =>
    rw [killLoop] at he
    split at he
    · obtain rfl := some.inj he
      exact .refl
    · split at he
      · exact kill_fades.trans (ih he)
      · exact ih he

theorem waitPass_fades {parentPid : ℤ} (he : (s.waitPass parentPid).map Prod.snd = some s') :
    Fades s s' := by
  obtain ⟨⟨r, v⟩, hpass, rfl⟩ := map_eq_some_iff.mp he
  rw [waitPass] at hpass
  split at hpass
  · cases hpass
    exact .refl
  · obtain ⟨x, -, hx⟩ := map_eq_some_iff.mp hpass
    split at hx
    · cases hx
      exact .of_eq rfl rfl rfl rfl
    · split at hx <;> cases hx <;> exact .refl

/-- Rescheduling loads the address space of the thread that it switches to. -/
theorem resched_fades (he : s.resched = some s') : Fades s s' ∨ ∃ n, s' = s.switchTo n := by
  rw [resched] at he
  obtain ⟨n, -, hn⟩ := map_eq_some_iff.mp he
  split at hn
  · split at hn <;> subst hn <;> exact .inl (.of_eq rfl rfl rfl rfl)
  · split at hn
    · subst hn
      exact .inl .refl
    · exact .inr ⟨n, hn.symm⟩

theorem OwnSpace.switchTo {n : ℕ} (h : OwnSpace s) : OwnSpace (s.switchTo n) :=
  ⟨h.entering, fun _ hne => if_pos hne⟩

/-- What a step does to the address spaces. -/
inductive SpaceStep (s s' : SchedState) : Op → Prop
  | fades {op : Op} : Fades s s' → SpaceStep s s' op
  | switch {op : Op} {u : SchedState} {n : ℕ} : Fades s u → s' = u.switchTo n → SpaceStep s s' op
  | set {p : ℕ} : s' = s.setCurrentAspace p → SpaceStep s s' (.setCurrentAspace p)
  | enter : s.enterUser = some s' → SpaceStep s s' .enterUser

theorem SpaceStep.of_resched {op : Op} (hf : Fades s u) (he : u.resched = some s') :
    SpaceStep s s' op := by
  rcases resched_fades he with hf' | ⟨n, hn⟩
  · exact .fades (hf.trans hf')
  · exact .switch hf hn

theorem boot_spaceStep {configured : Bool} {op : Op} (he : s.boot t configured = some s') :
    SpaceStep s s' op := by
  have hcreate : ∀ {role : Role} {parentPid : Option ℤ},
      (s.create t role parentPid true).map (fun u => { u with bootPc := u.bootPc + 1 }) = some s' →
      SpaceStep s s' op := by
    intro role parentPid he
    obtain ⟨u, hu, rfl⟩ := map_eq_some_iff.mp he
    exact .fades ((create_fades hu).trans (.of_eq rfl rfl rfl rfl))
  have hskip : some { s with bootPc := s.bootPc + 1 } = some s' → SpaceStep s s' op := by
    intro he
    obtain rfl := some.inj he
    exact .fades (.of_eq rfl rfl rfl rfl)
  rw [boot] at he
  split at he
  · exact hcreate he
  · split at he
    · exact hcreate he
    · exact hskip he
  · split at he
    · exact hcreate he
    · exact hskip he
  · have hpc : Fades s { s with bootPc := s.bootPc + 1 } := .of_eq rfl rfl rfl rfl
    exact .of_resched (hpc.trans setState_fades) he
  · cases he

theorem step_spaceStep {op : Op} (hs : s.step op = some s') : SpaceStep s s' op := by
  rw [step] at hs
  split at hs
  · cases hs
  · cases op with
    | boot t configured =>
      simp only [run] at hs
      split at hs
      · exact boot_spaceStep hs
      · cases hs
    | create t parentPid stack => exact .fades (create_fades hs)
    | yield => exact .of_resched .refl hs
    | sleep q => exact .of_resched enqueue_fades hs
    | sleepCond q cond =>
      cases cond with
      | true =>
        obtain rfl := some.inj hs
        exact .fades .refl
      | false => exact .of_resched enqueue_fades hs
    | wakeOne q =>
      obtain rfl := some.inj hs
      exact .fades wakeOne_fades
    | wakeAll q =>
      obtain ⟨u, hu, rfl⟩ := map_eq_some_iff.mp hs
      exact .fades ((wakeLoop_fades hu).trans (.of_eq rfl rfl rfl rfl))
    | setExitCode code =>
      obtain rfl := some.inj hs
      exact .fades (.of_eq rfl rfl rfl rfl)
    | exit => exact .of_resched setState_fades hs
    | waitChild parentPid => exact .fades (waitPass_fades hs)
    | killUserThreads => exact .fades (killLoop_fades hs)
    | setCurrentAspace pml4 => exact .set (some.inj hs).symm
    | enterUser => exact .enter hs

/-! ### Runs -/

theorem OwnSpace.step {op : Op} (h : OwnSpace s) (hs : s.step op = some s') : OwnSpace s' := by
  cases step_spaceStep hs with
  | fades hf => exact h.fades hf
  | switch hf hn =>
    subst hn
    exact (h.fades hf).switchTo
  | @set p hset =>
    subst hset
    refine ⟨fun t p' hp => ?_, fun he => ?_⟩
    · by_cases ht : t = s.currentThread
      · subst ht
        left
        simpa [setCurrentAspace] using hp
      · simp only [setCurrentAspace, update_of_ne ht] at hp ⊢
        exact h.entering t p' hp
    · simp [setCurrentAspace] at he
  | enter he =>
    obtain ⟨p, hp, rfl⟩ := map_eq_some_iff.mp he
    refine ⟨fun t p' hp' => ?_, fun _ hne => ?_⟩
    · by_cases ht : t = s.currentThread
      · simp [ht] at hp'
      · exact h.entering t p' ((update_of_ne ht _ _).symm.trans hp')
    · -- the address that CR3 is loaded with is the one that the thread was given
      have hspace : s.aspace s.currentThread = p := (h.entering _ p hp).resolve_right hne
      have hp0 : p ≠ 0 := hspace ▸ hne
      exact (if_pos hp0).trans hspace.symm

theorem ReachableIf.ownSpace {ok : SchedState → Op → Prop} (h : s.ReachableIf ok) : OwnSpace s := by
  refine Reach.invariant h ?_ ?_
  · rintro _ ⟨t, pml4, -, rfl⟩
    exact ⟨nofun, fun _ hne => absurd rfl hne⟩
  · rintro s s' hown ⟨op, -, hs⟩
    exact hown.step hs

/-- A thread keeps its address space, or loses it, unless it takes another one. -/
theorem keeps_aspace {op : Op} {a : ℕ} (hs : s.step op = some s')
    (hop : s.currentThread = t → ∀ p, op ≠ .setCurrentAspace p)
    (h : s.entering t = none ∧ (s.aspace t = a ∨ s.aspace t = 0)) :
    s'.entering t = none ∧ (s'.aspace t = a ∨ s'.aspace t = 0) := by
  have hfades : ∀ {u}, Fades s u → u.entering t = none ∧ (u.aspace t = a ∨ u.aspace t = 0) := by
    intro u hf
    rcases hf.aspace t with ⟨ha, he⟩ | ⟨ha, he⟩
    · rw [ha, he]
      exact h
    · exact ⟨he.elim (fun he => he.trans h.1) id, .inr ha⟩
  cases step_spaceStep hs with
  | fades hf => exact hfades hf
  | switch hf hn =>
    have hkept := hfades hf
    subst hn
    exact hkept
  | @set p hset =>
    have ht : t ≠ s.currentThread := fun e => hop e.symm p rfl
    subst hset
    simpa [setCurrentAspace, ht] using h
  | enter he =>
    obtain ⟨p, -, rfl⟩ := map_eq_some_iff.mp he
    refine ⟨?_, h.2⟩
    by_cases ht : t = s.currentThread
    · simp [ht]
    · simpa [ht] using h.1

/-- **A user thread runs on its own address space.**  In every run, CR3 is the address
space of the current thread if it has one and is not about to load it; and when a thread
runs again after any steps, none of them its own change of address space, CR3 is the
address space that it had before, if it still has one. -/
theorem cr3_eq_aspace (h : s.ReachableIf fun _ _ => True) :
    (s.entering s.currentThread = none → s.aspace s.currentThread ≠ 0 →
      s.cr3 = s.aspace s.currentThread) ∧
    (s.entering s.currentThread = none → ∀ s', Reach (· = s) (fun u v => ∃ op,
        (u.currentThread = s.currentThread → ∀ p, op ≠ .setCurrentAspace p) ∧ u.step op = some v) s' →
      s'.currentThread = s.currentThread → s'.aspace s.currentThread ≠ 0 →
      s'.cr3 = s.aspace s.currentThread) := by
  refine ⟨h.ownSpace.cr3, fun he s' hrun hcur hne => ?_⟩
  obtain ⟨hown, he', ha⟩ : OwnSpace s' ∧ s'.entering s.currentThread = none ∧
      (s'.aspace s.currentThread = s.aspace s.currentThread ∨ s'.aspace s.currentThread = 0) := by
    refine Reach.invariant (I := fun u => OwnSpace u ∧ u.entering s.currentThread = none ∧
      (u.aspace s.currentThread = s.aspace s.currentThread ∨ u.aspace s.currentThread = 0))
      hrun ?_ ?_
    · rintro _ rfl
      exact ⟨h.ownSpace, he, .inl rfl⟩
    · rintro u v ⟨hown, hkeep⟩ ⟨op, hop, hs⟩
      exact ⟨hown.step hs, keeps_aspace hs hop hkeep⟩
  rw [hown.cr3 (hcur ▸ he') (hcur ▸ hne), hcur]
  exact ha.resolve_right hne

/-- The kernel starts, the first user thread enters user mode, and it runs again after the
idle thread has run. -/
def enterAndYield : List Op :=
  [.boot 2 true, .boot 3 false, .boot 3 true, .boot 0 false, .yield, .setCurrentAspace 0x1000,
    .enterUser, .yield, .yield]

def afterYield : SchedState := (runAll step (schedInit 1 0) enterAndYield).getD (schedInit 1 0)

theorem afterYield_reachable : afterYield.ReachableIf fun _ _ => True := by
  have hreach : Reach (fun s => ∃ t pml4, t ≠ 0 ∧ s = schedInit t pml4)
      (fun s s' => ∃ op, s.step op = some s') afterYield :=
    Reach.runAll_getD (.init ⟨1, 0, by decide, rfl⟩) enterAndYield
  exact hreach.mono fun s s' ⟨op, hs⟩ => ⟨op, trivial, hs⟩

theorem cr3_eq_aspace_afterYield :
    (afterYield.currentThread = 3 ∧ afterYield.aspace 3 = 0x1000 ∧ afterYield.entering 3 = none) ∧
      afterYield.cr3 = afterYield.aspace afterYield.currentThread :=
  ⟨by decide +kernel, (cr3_eq_aspace afterYield_reachable).1 (by decide +kernel) (by decide +kernel)⟩

end SchedState

end Neptune
