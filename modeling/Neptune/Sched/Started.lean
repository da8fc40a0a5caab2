import Neptune.Sched.Invariant

/-!
# The scheduler with an idle thread

The kernel starts as `kernel_main` starts it: the boot thread makes the idle thread,
which never sleeps or exits, before anybody else sleeps or exits.  There is then always
a thread to switch to, so that a thread that blocks or dies stops running at once.

## Main definitions

* `SchedState.Started` — the operations of such a run.
* `SchedState.Running` — one thread runs, and the idle thread can.

## Main results

* `SchedState.started_list` — the thread list, the current thread and the blocks.
* `SchedState.started_queues` — the wait queues.
* `SchedState.Running.step_isSome` — every operation returns.
-/

namespace Neptune

namespace SchedState

open Function List Option

variable {s s' : SchedState} {L A B : List ℕ} {Q : ℕ → List ℕ} {t q : ℕ}

/-- The operations of a kernel that `kernel_main` has started: `sched_kill_user_threads` is not
used, and only threads other than the idle thread sleep and exit, once there is one. -/
def Started (s : SchedState) : Op → Prop
  | .sleep _ | .sleepCond _ _ | .exit => s.role s.currentThread ≠ .idle ∧ s.bootPc ≠ 0
  | .killUserThreads => False
  | _ => True

/-- There is an idle thread that can run. -/
def HasIdle (s : SchedState) (L : List ℕ) : Prop :=
  s.bootPc ≠ 0 → ∃ i ∈ L, s.role i = .idle ∧ (s.state i = .runnable ∨ s.state i = .running)

/-- One thread runs, and the idle thread can. -/
structure Running (s : SchedState) (L : List ℕ) : Prop where
  running : s.state s.currentThread = .running
  single : ∀ t ∈ L, s.state t = .running → t = s.currentThread
  idle : HasIdle s L

/-! ### Choosing the next thread -/

theorem Base.running_switchTo {n : ℕ} (hn : n ≠ s.currentThread)
    (hsingle : ∀ t ∈ L, s.state t = .running → t = s.currentThread) (hidle : HasIdle s L) :
    Running (s.switchTo n) L := by
  have hself : (s.switchTo n).state n = .running := update_self ..
  have hcur : s.state s.currentThread = .running →
      (s.switchTo n).state s.currentThread = .runnable := fun hc => by
    simp [SchedState.switchTo, hc, hn.symm]
  have hother : ∀ {t}, t ≠ n → (t = s.currentThread → s.state t ≠ .running) →
      (s.switchTo n).state t = s.state t := by
    intro t htn htc
    simp only [SchedState.switchTo]
    rw [update_of_ne htn]
    split
    · next hc => rw [update_of_ne fun e => htc e (e ▸ hc)]
    · rfl
  refine ⟨hself, fun t ht hrun => ?_, fun hpc => ?_⟩
  · by_contra htn
    by_cases hc : t = s.currentThread ∧ s.state t = .running
    · rw [hc.1, hcur (hc.1 ▸ hc.2)] at hrun
      cases hrun
    · have hold := hother htn (not_and.mp hc)
      rw [hold] at hrun
      exact hc ⟨hsingle t ht hrun, hrun⟩
  · obtain ⟨i, hi, hrole, hstate⟩ := hidle hpc
    refine ⟨i, hi, hrole, ?_⟩
    by_cases hin : i = n
    · exact .inr (hin ▸ hself)
    · by_cases hc : i = s.currentThread ∧ s.state i = .running
      · exact .inl (hc.1 ▸ hcur (hc.1 ▸ hc.2))
      · rwa [hother hin (not_and.mp hc)]

/-- **After rescheduling the current thread runs**, if it could go on or there is another
thread that can. -/
theorem Base.running_resched (h : Base s L Q)
    (hsingle : ∀ t ∈ L, s.state t = .running → t = s.currentThread) (hidle : HasIdle s L)
    (hgo : s.state s.currentThread = .running ∨ ∃ n ∈ L, n ≠ s.currentThread ∧ s.state n = .runnable)
    (he : s.resched = some s') : Running s' L := by
  rcases h.linked.resched_cases h.current with ⟨n, hn, hnc, hrun, hsome⟩ | ⟨hnone, hsome⟩
  · obtain rfl := some.inj (hsome.symm.trans he)
    exact Base.running_switchTo hnc hsingle hidle
  · rcases hgo with hrun | ⟨n, hn, hnc, hrun⟩
    · rw [if_neg (by rw [hrun]; nofun)] at hsome
      obtain rfl := some.inj (hsome.symm.trans he)
      exact ⟨hrun, hsingle, hidle⟩
    · exact absurd hrun (hnone n hn hnc)

/-- The idle thread waits its turn while another one runs. -/
theorem Running.idle_runnable (h : Running s L) (hpc : s.bootPc ≠ 0)
    (hrole : s.role s.currentThread ≠ .idle) :
    ∃ i ∈ L, i ≠ s.currentThread ∧ s.role i = .idle ∧ s.state i = .runnable := by
  obtain ⟨i, hi, hidle, hstate⟩ := h.idle hpc
  have hic : i ≠ s.currentThread := fun e => hrole (e ▸ hidle)
  exact ⟨i, hi, hic, hidle, hstate.resolve_right fun hrun => hic (h.single i hi hrun)⟩

/-- A thread that stops is followed by another one: `s'` is `s` with the current thread
blocked or dead. -/
theorem Running.stop {u : SchedState} {st : ThreadState} (h : Running s L) (hpc : s.bootPc ≠ 0)
    (hrole : s.role s.currentThread ≠ .idle) (hbase : Base u L Q)
    (hstate : u.state = update s.state s.currentThread st)
    (hcur : u.currentThread = s.currentThread) (hroles : u.role = s.role)
    (he : u.resched = some s') : Running s' L := by
  obtain ⟨i, hi, hic, hidle, hrun⟩ := h.idle_runnable hpc hrole
  have hi' : u.state i = .runnable := by rw [hstate, update_of_ne hic, hrun]
  refine hbase.running_resched (fun t ht hrun' => ?_) (fun _ => ?_) ?_ he
  · by_cases htc : t = s.currentThread
    · rw [htc, hcur]
    · rw [hstate, update_of_ne htc] at hrun'
      exact absurd (h.single t ht hrun') htc
  · exact ⟨i, hi, hroles ▸ hidle, .inl hi'⟩
  · exact .inr ⟨i, hi, hcur ▸ hic, hi'⟩

/-! ### Creating, waking and reaping -/

theorem Running.create {role : Role} {parentPid : Option ℤ} {stack : Bool} (hg : Good s L Q)
    (h : Running s L) (he : s.create t role parentPid stack = some s') :
    Running s' (if stack then L ++ [t] else L) := by
  obtain ⟨-, hfree, hnew, -, -⟩ := create_spec he
  have hne : ∀ {u}, u ∈ L → u ≠ t := fun hu e => hfree ((hg.allocated t).mpr (e ▸ hu))
  have hmem : ∀ {u}, u ∈ L → u ∈ if stack then L ++ [t] else L := fun hu => by
    split
    · exact mem_append_left _ hu
    · exact hu
  refine ⟨?_, fun u hu hrun => ?_, fun hpc => ?_⟩
  · rw [hnew.current, hnew.state (hne hg.current)]
    exact h.running
  · by_cases hut : u = t
    · rw [hut, hnew.runnable] at hrun
      cases hrun
    · have huL : u ∈ L := by
        split at hu
        · simpa [hut] using hu
        · exact hu
      rw [hnew.state hut] at hrun
      rw [hnew.current]
      exact h.single u huL hrun
  · obtain ⟨i, hi, hrole, hstate⟩ := h.idle (hnew.bootPc ▸ hpc)
    refine ⟨i, hmem hi, ?_⟩
    rw [hnew.role (hne hi), hnew.state (hne hi)]
    exact ⟨hrole, hstate⟩

/-- The threads `R` have been woken. -/
theorem Running.woken {R : List ℕ} (hg : Good s L Q) (h : Running s L) (hR : ∀ u ∈ R, ∃ q, u ∈ Q q)
    (hstate : ∀ u, s'.state u = if u ∈ R then .runnable else s.state u)
    (hcur : s'.currentThread = s.currentThread) (hrole : s'.role = s.role)
    (hpc : s'.bootPc = s.bootPc) : Running s' L := by
  have hcR : s.currentThread ∉ R := fun hmem => by
    have hb := (hg.blocked _ hg.current).mpr (hR _ hmem)
    rw [h.running] at hb
    cases hb
  refine ⟨?_, fun u hu hrun => ?_, fun hpc' => ?_⟩
  · rw [hcur, hstate, if_neg hcR]
    exact h.running
  · rw [hstate] at hrun
    split at hrun
    · cases hrun
    · exact hcur ▸ h.single u hu hrun
  · obtain ⟨i, hi, hidle, hrun⟩ := h.idle (hpc ▸ hpc')
    refine ⟨i, hi, hrole ▸ hidle, ?_⟩
    rw [hstate]
    split
    · exact .inl rfl
    · exact hrun

theorem Running.wakeOne (hg : Good s L Q) (h : Running s L) : Running (s.wakeOne q) L := by
  by_cases hhead : s.head q = 0
  · rwa [SchedState.wakeOne, if_pos hhead]
  · have hmem : s.head q ∈ Q q := by
      have hseg := hg.queued.seg q
      cases hq : Q q with
      | nil => exact absurd (by simpa [hq] using hseg) hhead
      | cons t Q' =>
        rw [hq] at hseg
        simp [hseg.1]
    rw [SchedState.wakeOne, if_neg hhead]
    refine Running.woken (R := [s.head q]) hg h (fun u hu => ⟨q, ?_⟩) (fun u => ?_) rfl rfl rfl
    · rwa [mem_singleton.mp hu]
    · simp [update_apply]

theorem Running.wakeAll (hg : Good s L Q) (h : Running s L) (he : s.wakeAll q = some s') :
    Running s' L := by
  obtain ⟨hu, -⟩ := hg.queued.wakeAll (q := q) hg.length_le
  obtain rfl := some.inj (hu.symm.trans he)
  exact Running.woken (R := Q q) hg h (fun u hu => ⟨q, hu⟩) (fun _ => rfl) rfl rfl rfl

theorem Running.reap {z : ℕ} (h : Running s (A ++ z :: B)) (hz : s.state z = .dead) :
    Running (s.reap z) (A ++ B) := by
  refine ⟨h.running, fun t ht => h.single t (by simp at ht ⊢; tauto), fun hpc => ?_⟩
  obtain ⟨i, hi, hidle, hrun⟩ := h.idle hpc
  have hiz : i ≠ z := by
    rintro rfl
    rw [hz] at hrun
    simp at hrun
  exact ⟨i, by simp [hiz] at hi ⊢; exact hi, hidle, hrun⟩

/-! ### Steps -/

theorem Running.congr {u : SchedState} (h : Running s L) (hstate : u.state = s.state)
    (hcur : u.currentThread = s.currentThread) (hrole : u.role = s.role)
    (hpc : u.bootPc ≠ 0 → s.bootPc ≠ 0) : Running u L := by
  refine ⟨?_, ?_, fun hpc' => ?_⟩
  · rw [hstate, hcur]
    exact h.running
  · rw [hstate, hcur]
    exact h.single
  · rw [hrole, hstate]
    exact h.idle (hpc hpc')

/-- The current thread of a started kernel is not on a queue. -/
theorem Running.not_blocked (h : Running s L) : s.state s.currentThread ≠ .blocked := by
  rw [h.running]
  nofun

theorem Running.not_dead (h : Running s L) : s.state s.currentThread ≠ .dead := by
  rw [h.running]
  nofun

theorem Running.sleep (hg : Good s L Q) (h : Running s L) (hpc : s.bootPc ≠ 0)
    (hrole : s.role s.currentThread ≠ .idle) (he : s.sleep q = some s') :
    ∃ L' Q', Good s' L' Q' ∧ Running s' L' := by
  obtain ⟨u, hu, hgood, -⟩ := hg.sleep h.not_blocked h.not_dead
  obtain rfl := some.inj (hu.symm.trans he)
  exact ⟨L, _, hgood, h.stop hpc hrole (hg.enqueue h.not_blocked) rfl rfl rfl he⟩

theorem Running.exit (hg : Good s L Q) (h : Running s L) (hpc : s.bootPc ≠ 0)
    (hrole : s.role s.currentThread ≠ .idle) (he : s.exit = some s') :
    ∃ L' Q', Good s' L' Q' ∧ Running s' L' := by
  obtain ⟨u, hu, hgood, -⟩ := hg.exit h.not_blocked
  obtain rfl := some.inj (hu.symm.trans he)
  exact ⟨L, Q, hgood, h.stop hpc hrole (hg.die h.not_blocked) rfl rfl rfl he⟩

theorem Running.waitPass {parentPid : ℤ} (hg : Good s L Q) (h : Running s L)
    (he : (s.waitPass parentPid).map Prod.snd = some s') :
    ∃ L' Q', Good s' L' Q' ∧ Running s' L' := by
  by_cases hp : parentPid < 0
  · rw [SchedState.waitPass, if_pos hp] at he
    obtain rfl := some.inj he
    exact ⟨L, Q, hg, h⟩
  · rcases hg.linked.waitPass_cases (Int.not_lt.mp hp) with ⟨z, hz, ⟨-, hdead, -⟩, hsome⟩ | ⟨-, hsome⟩
    · rw [hsome] at he
      obtain rfl := some.inj he
      obtain ⟨A, B, rfl⟩ := append_of_mem hz
      have hzc : z ≠ s.currentThread := fun e => h.not_dead (e ▸ hdead)
      exact ⟨A ++ B, Q, (hg.reap hdead hzc).1, h.reap hdead⟩
    · rw [hsome] at he
      obtain rfl := some.inj he
      exact ⟨L, Q, hg, h⟩

/-- The next part of `kernel_main`.  The first one makes the idle thread. -/
theorem Running.boot {configured : Bool} (hg : Good s L Q) (h : Running s L)
    (hrole : s.role s.currentThread = .boot) (he : s.boot t configured = some s') :
    ∃ L' Q', Good s' L' Q' ∧ Running s' L' := by
  have hcreate : ∀ {role : Role} {parentPid : Option ℤ}, (s.bootPc = 0 → role = .idle) →
      (s.create t role parentPid true).map (fun u => { u with bootPc := u.bootPc + 1 }) = some s' →
      ∃ L' Q', Good s' L' Q' ∧ Running s' L' := by
    intro role parentPid hidle he
    obtain ⟨u, hu, rfl⟩ := map_eq_some_iff.mp he
    have hrun := Running.create hg h hu
    refine ⟨L ++ [t], Q, (hg.create hu).1.congr rfl, hrun.running, hrun.single, fun _ => ?_⟩
    by_cases hpc : s.bootPc = 0
    · obtain ⟨-, -, hnew, hnewrole, -⟩ := create_spec hu
      exact ⟨t, by simp, hnewrole.trans (hidle hpc), .inl hnew.runnable⟩
    · exact hrun.idle ((create_spec hu).2.2.1.bootPc ▸ hpc)
  have hskip : s.bootPc ≠ 0 → some { s with bootPc := s.bootPc + 1 } = some s' →
      ∃ L' Q', Good s' L' Q' ∧ Running s' L' := by
    intro hpc he
    obtain rfl := some.inj he
    exact ⟨L, Q, hg.congr rfl, h.congr rfl rfl rfl fun _ => hpc⟩
  rw [SchedState.boot] at he
  split at he
  · exact hcreate (fun _ => rfl) he
  · next hpc =>
    have hpc0 : s.bootPc ≠ 0 := by omega
    split at he
    · exact hcreate (fun e => absurd e hpc0) he
    · exact hskip hpc0 he
  · next hpc =>
    have hpc0 : s.bootPc ≠ 0 := by omega
    split at he
    · exact hcreate (fun e => absurd e hpc0) he
    · exact hskip hpc0 he
  · next hpc =>
    -- `sched_start` makes the boot thread exit
    have hpc0 : s.bootPc ≠ 0 := by omega
    have hrun : Running { s with bootPc := s.bootPc + 1 } L := h.congr rfl rfl rfl fun _ => hpc0
    have hgood : Good { s with bootPc := s.bootPc + 1 } L Q := hg.congr rfl
    exact hrun.exit hgood (Nat.succ_ne_zero _) (by rw [hrole]; rintro ⟨⟩) he
  · cases he

/-- **One step** of a started kernel. -/
theorem Running.step {op : Op} (hg : Good s L Q) (h : Running s L) (hst : s.Started op)
    (hs : s.step op = some s') : ∃ L' Q', Good s' L' Q' ∧ Running s' L' := by
  rw [SchedState.step] at hs
  split at hs
  · cases hs
  · cases op with
    | boot t configured =>
      simp only [run] at hs
      split at hs
      · next hrole => exact Running.boot hg h hrole hs
      · cases hs
    | create t parentPid stack => exact ⟨_, Q, (hg.create hs).1, Running.create hg h hs⟩
    | yield =>
      obtain ⟨u, hu, hgood, -⟩ := hg.resched
      obtain rfl := some.inj (hu.symm.trans hs)
      exact ⟨L, Q, hgood, hg.running_resched h.single h.idle (.inl h.running) hs⟩
    | sleep q => exact h.sleep hg hst.2 hst.1 hs
    | sleepCond q cond =>
      cases cond with
      | true =>
        obtain rfl := some.inj hs
        exact ⟨L, Q, hg, h⟩
      | false => exact h.sleep hg hst.2 hst.1 hs
    | wakeOne q =>
      obtain ⟨Q', hgood, -⟩ := hg.wakeOne (q := q)
      obtain rfl := some.inj hs
      exact ⟨L, _, hgood, h.wakeOne hg⟩
    | wakeAll q =>
      obtain ⟨u, hu, hgood, -⟩ := hg.wakeAll
      obtain rfl := some.inj (hu.symm.trans hs)
      exact ⟨L, _, hgood, h.wakeAll hg hs⟩
    | setExitCode code =>
      obtain rfl := some.inj hs
      exact ⟨L, Q, hg.congr rfl, h.congr rfl rfl rfl id⟩
    | exit => exact h.exit hg hst.2 hst.1 hs
    | waitChild parentPid => exact h.waitPass hg hs
    | killUserThreads => exact absurd hst not_false
    | setCurrentAspace pml4 =>
      obtain rfl := some.inj hs
      exact ⟨L, Q, hg.congr rfl, h.congr rfl rfl rfl id⟩
    | enterUser =>
      simp only [run, SchedState.enterUser] at hs
      obtain ⟨pml4, -, rfl⟩ := map_eq_some_iff.mp hs
      exact ⟨L, Q, hg.congr rfl, h.congr rfl rfl rfl id⟩

theorem ReachableIf.running (h : s.ReachableIf Started) : ∃ L Q, Good s L Q ∧ Running s L := by
  refine Reach.invariant (I := fun s => ∃ L Q, Good s L Q ∧ Running s L) h ?_ ?_
  · rintro _ ⟨t, pml4, ht, rfl⟩
    refine ⟨_, _, schedInit_good ht, if_pos rfl, fun u hu _ => ?_, fun hpc => absurd rfl hpc⟩
    exact mem_singleton.mp hu
  · rintro s s' ⟨L, Q, hg, hrun⟩ ⟨op, hst, hs⟩
    exact hrun.step hg hst hs

/-! ### Every operation returns -/

/-- The operation can be called: a new thread gets a free block, `kernel_main` has something
left to do, `arch_enter_user` is called with an address space, and the caller does not halt. -/
def Enabled (s : SchedState) (op : Op) : Prop :=
  (s.halted s.currentThread → op.interrupt) ∧
  match op with
  | .boot t _ =>
    s.role s.currentThread = .boot ∧ s.bootPc ≤ 3 ∧ t ≠ 0 ∧ ¬s.allocated t
  | .create t _ _ => t ≠ 0 ∧ ¬s.allocated t
  | .enterUser => (s.entering s.currentThread).isSome
  | _ => True

theorem create_isSome {role : Role} {parentPid : Option ℤ} {stack : Bool} (ht : t ≠ 0)
    (hfree : ¬s.allocated t) : (s.create t role parentPid stack).isSome := by
  rw [create, if_neg (not_or.mpr ⟨ht, hfree⟩)]
  rfl

theorem Running.boot_isSome {configured : Bool} (hg : Good s L Q) (h : Running s L)
    (hpc : s.bootPc ≤ 3) (ht : t ≠ 0) (hfree : ¬s.allocated t) : (s.boot t configured).isSome := by
  have hcreate : ∀ {role : Role} {parentPid : Option ℤ} {f : SchedState → SchedState},
      ((s.create t role parentPid true).map f).isSome := by
    intro role parentPid f
    rw [isSome_map]
    exact create_isSome ht hfree
  rw [SchedState.boot]
  split
  · exact hcreate
  · split
    · exact hcreate
    · rfl
  · split
    · exact hcreate
    · rfl
  · have hbase : Base { s with bootPc := s.bootPc + 1 } L Q := hg.toBase.congr rfl
    obtain ⟨u, hu, -⟩ := hbase.exit h.not_blocked
    exact isSome_iff_exists.mpr ⟨u, hu⟩
  · next h0 h1 h2 h3 =>
    have hcases : s.bootPc = 0 ∨ s.bootPc = 1 ∨ s.bootPc = 2 ∨ s.bootPc = 3 := by omega
    exact absurd hcases (by simp only [not_or]; exact ⟨h0, h1, h2, h3⟩)

/-- **No operation follows a null pointer or loops** in a started kernel. -/
theorem Running.step_isSome {op : Op} (hg : Good s L Q) (h : Running s L) (hst : s.Started op)
    (hen : s.Enabled op) : (s.step op).isSome := by
  obtain ⟨hhalt, hen⟩ := hen
  have hnot : ¬(s.halted s.currentThread && !op.interrupt) = true := by
    simpa using hhalt
  rw [SchedState.step, if_neg hnot]
  cases op with
  | boot t configured =>
    obtain ⟨hrole, hpc, ht, hfree⟩ := hen
    rw [run, if_pos hrole]
    exact h.boot_isSome hg hpc ht hfree
  | create t parentPid stack => exact create_isSome hen.1 hen.2
  | yield =>
    obtain ⟨u, hu, -⟩ := hg.resched
    exact isSome_iff_exists.mpr ⟨u, hu⟩
  | sleep q =>
    obtain ⟨u, hu, -⟩ := hg.sleep (q := q) h.not_blocked h.not_dead
    exact isSome_iff_exists.mpr ⟨u, hu⟩
  | sleepCond q cond =>
    cases cond with
    | true => rfl
    | false =>
      obtain ⟨u, hu, -⟩ := hg.sleep (q := q) h.not_blocked h.not_dead
      exact isSome_iff_exists.mpr ⟨u, hu⟩
  | wakeOne q => rfl
  | wakeAll q =>
    obtain ⟨u, hu, -⟩ := hg.wakeAll (q := q)
    exact isSome_iff_exists.mpr ⟨u, hu⟩
  | setExitCode code => rfl
  | exit =>
    obtain ⟨u, hu, -⟩ := hg.exit h.not_blocked
    exact isSome_iff_exists.mpr ⟨u, hu⟩
  | waitChild parentPid =>
    have hhalted : s.halted s.currentThread = false := by simpa [Op.interrupt] using hhalt
    obtain ⟨r, u, -, hu, -⟩ := hg.waitPass parentPid hhalted
    rw [run, hu]
    rfl
  | killUserThreads => exact absurd hst not_false
  | setCurrentAspace pml4 => rfl
  | enterUser =>
    rw [run, SchedState.enterUser, isSome_map]
    exact hen

/-! ### The states of a started kernel -/

/-- **The scheduler's state**: the thread list is doubly linked and of the length that
`thread_count` says, the current thread is the only running one, no freed block is on the
list, on a queue or current, and every operation returns. -/
theorem started_list (h : s.ReachableIf Started) :
    DList s.next s.prev s.threadsHead s.threadsTail s.threads ∧
    s.threads.length = s.threadCount ∧ s.currentThread ∈ s.threads ∧
    (∀ t ∈ s.threads, s.state t = .running ↔ t = s.currentThread) ∧
    ((∀ t ∈ s.threads, s.allocated t) ∧ s.allocated s.currentThread ∧
      ∀ q, ∀ t ∈ s.queue q, s.allocated t) ∧
    ∀ op, s.Started op → s.Enabled op → (s.step op).isSome := by
  obtain ⟨L, Q, hg, hrun⟩ := h.running
  rw [hg.linked.threads_eq]
  refine ⟨hg.linked.dlist, hg.linked.count.symm, hg.current, fun t ht => ⟨hrun.single t ht, ?_⟩,
    ⟨fun t ht => (hg.allocated t).mpr ht, (hg.allocated _).mpr hg.current, fun q t ht => ?_⟩,
    fun op hst hen => hrun.step_isSome hg hst hen⟩
  · rintro rfl
    exact hrun.running
  · rw [hg.queue_eq] at ht
    exact (hg.allocated t).mpr (hg.listed ht)

/-- **The wait queues**: the blocked threads are those on a queue, each on one and once; every
queue is a chain from its head to its tail; and threads leave it in the order in which they
entered. -/
theorem started_queues (h : s.ReachableIf Started) :
    (∀ t ∈ s.threads, s.state t = .blocked ↔ ∃ q, t ∈ s.queue q ∧ ∀ p, t ∈ s.queue p → p = q) ∧
    (∀ q, (s.queue q).Nodup ∧ ∀ t ∈ s.queue q, t ∈ s.threads ∧ s.state t = .blocked) ∧
    (∀ q, Seg s.waitNext (s.head q) (s.queue q) 0 ∧ s.tail q = (s.queue q).getLast?.getD 0 ∧
      (s.head q = 0 ↔ s.tail q = 0)) ∧
    ∀ q, s.entered q = s.left q ++ s.queue q := by
  obtain ⟨L, Q, hg, -⟩ := h.running
  have hqueue : ∀ q, s.queue q = Q q := fun q => hg.queue_eq
  simp only [hg.linked.threads_eq, hqueue]
  refine ⟨fun t ht => ?_, fun q => ⟨hg.queued.nodup q, fun t ht => ?_⟩, fun q => ?_, hg.queued.order⟩
  · rw [hg.blocked t ht]
    constructor
    · rintro ⟨q, hq⟩
      refine ⟨q, hq, fun p hp => ?_⟩
      by_contra hpq
      exact hg.queued.disjoint hpq hp hq
    · rintro ⟨q, hq, -⟩
      exact ⟨q, hq⟩
  · exact ⟨hg.listed ht, (hg.blocked t (hg.listed ht)).mpr ⟨q, ht⟩⟩
  · refine ⟨hg.queued.seg q, hg.queued.last q, ?_⟩
    rw [← (hg.queued.seg q).eq_nil_iff, hg.queued.last q]
    constructor
    · intro hnil
      rw [hnil]
      rfl
    · intro htail
      by_contra hne
      have hmem := getLast_mem hne
      rw [getLast?_eq_some_getLast hne, getD_some] at htail
      exact hg.linked.ne_zero _ (hg.listed hmem) htail

/-! ### A run -/

instance (s : SchedState) : (op : Op) → Decidable (s.Started op)
  | .sleep _ | .sleepCond _ _ | .exit => inferInstanceAs (Decidable (_ ∧ _))
  | .killUserThreads => inferInstanceAs (Decidable False)
  | .boot _ _ | .create .. | .yield | .wakeOne _ | .wakeAll _ | .setExitCode _ | .waitChild _
  | .setCurrentAspace _ | .enterUser => inferInstanceAs (Decidable True)

def startedStep (s : SchedState) (op : Op) : Option SchedState :=
  if s.Started op then s.step op else none

/-- The kernel starts, two children of the first user thread go to sleep, a third one exits
and is reaped, and one of the sleepers is woken. -/
def sleepAndWait : List Op :=
  [.boot 2 true, .boot 3 false, .boot 3 true, .boot 0 false, .yield, .create 4 (some 1) true,
    .create 5 (some 1) true, .create 6 (some 1) true, .yield, .sleep 0, .sleepCond 0 false, .exit,
    .yield, .waitChild 1, .wakeOne 0]

def afterWait : SchedState := (runAll startedStep (schedInit 1 0) sleepAndWait).getD (schedInit 1 0)

theorem afterWait_reachable : afterWait.ReachableIf Started := by
  have hsome : (runAll startedStep (schedInit 1 0) sleepAndWait).isSome = true := by
    decide +kernel
  obtain ⟨s, hs⟩ := isSome_iff_exists.mp hsome
  rw [afterWait, hs, getD_some]
  exact Reach.of_runAll_if (.init ⟨1, 0, by decide, rfl⟩) hs

theorem started_list_afterWait :
    afterWait.threads = [1, 2, 3, 4, 5] ∧ afterWait.currentThread = 3 ∧
      ∀ t ∈ afterWait.threads, afterWait.state t = .running ↔ t = afterWait.currentThread :=
  ⟨by decide +kernel, by decide +kernel, (started_list afterWait_reachable).2.2.2.1⟩

theorem started_queues_afterWait :
    afterWait.queue 0 = [5] ∧ afterWait.left 0 = [4] ∧
      ∀ q, afterWait.entered q = afterWait.left q ++ afterWait.queue q :=
  ⟨by decide +kernel, by decide +kernel, (started_queues afterWait_reachable).2.2.2⟩

end SchedState

end Neptune
