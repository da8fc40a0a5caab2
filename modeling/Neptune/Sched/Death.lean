import Neptune.Sched.Invariant

/-!
# Death is final

`sched_kill_user_threads` marks a thread dead wherever it is.  A thread that it
kills on a wait queue stays on the queue, and the next `sched_wake_one` makes it
runnable again; and it marks the thread as waited for but leaves it on the list, so
that a parent that waits for it never comes back.  Where no sleeping thread is killed,
no killed thread goes to sleep and nobody waits for a killed child, death is final.

## Main results

* `SchedState.killed_thread_wakes` — a run in which both go wrong.
* `SchedState.death_final` — runs without such steps.
-/

namespace Neptune

namespace SchedState

variable {s s' : SchedState} {t : ℕ}

/-! ### What goes wrong -/

/-- The kernel starts, the first user thread makes a child, the child goes to sleep on queue
0, and the user threads are killed. -/
def killSleeper : List Op :=
  [.boot 2 true, .boot 3 false, .boot 3 true, .boot 0 false, .yield, .setCurrentAspace 0x1000,
    .enterUser, .create 4 (some 1) true, .yield, .setCurrentAspace 0x2000, .enterUser, .sleep 0,
    .killUserThreads]

def afterKill : SchedState := (runAll step (schedInit 1 0) killSleeper).getD (schedInit 1 0)

theorem runAll_killSleeper : runAll step (schedInit 1 0) killSleeper = some afterKill := by
  have hsome : (runAll step (schedInit 1 0) killSleeper).isSome = true := by decide +kernel
  rw [afterKill]
  obtain ⟨s, hs⟩ := Option.isSome_iff_exists.mp hsome
  rw [hs, Option.getD_some]

/-- The child is dead and on the queue, where the next `sched_wake_one` finds it; and a
caller all of whose children are dead and waited for makes another pass. -/
theorem killed_thread_wakes :
    runAll step (schedInit 1 0) killSleeper = some afterKill ∧
    (afterKill.state 4 = .dead ∧ 4 ∈ afterKill.queue 0 ∧
      ((afterKill.step (.wakeOne 0)).map fun s => s.state 4) = some .runnable) ∧
    (∀ t ∈ afterKill.threads, afterKill.IsChild 0 t → afterKill.state t = .dead ∧ afterKill.reaped t) ∧
    (afterKill.waitPass 0).map Prod.fst = some .again := by
  refine ⟨runAll_killSleeper, ?_, ?_, ?_⟩ <;> decide +kernel

/-! ### Runs without such steps -/

/-- **Death is final** in every run of calm steps: no dead thread is on a queue, a dead
thread stays dead until its block is freed, and waiting for children that are all dead and
waited for comes back with -1. -/
theorem death_final (h : s.ReachableIf Calm) :
    (∀ q, Seg s.waitNext (s.head q) (s.queue q) 0 ∧ ∀ t ∈ s.queue q, s.state t ≠ .dead) ∧
    (∀ t ∈ s.threads, s.state t = .dead → ∀ s',
      Reach (· = s) (fun u v => u.allocated t ∧ ∃ op, u.Calm op ∧ u.step op = some v) s' →
      s'.allocated t → s'.state t = .dead) ∧
    (∀ parentPid, s.Calm (.waitChild parentPid) →
      (∀ t ∈ s.threads, s.IsChild parentPid t → s.state t = .dead ∧ s.reaped t) →
      s.waitPass parentPid = some (.noChild, s)) := by
  obtain ⟨L, Q, hgood⟩ := h.good
  rw [hgood.linked.threads_eq]
  refine ⟨fun q => ?_, fun t ht hdead s' hrun => ?_, fun parentPid hcalm hall => ?_⟩
  · rw [hgood.queue_eq]
    refine ⟨hgood.queued.seg q, fun t ht hdead => ?_⟩
    have hb := (hgood.blocked t (hgood.listed ht)).mpr ⟨q, ht⟩
    rw [hdead] at hb
    cases hb
  · -- as long as its block is not freed the thread stays on the list
    have hinv : (∃ L Q, Good s' L Q) ∧ (s'.allocated t → s'.state t = .dead) := by
      refine Reach.invariant
        (I := fun u => (∃ L Q, Good u L Q) ∧ (u.allocated t → u.state t = .dead)) hrun ?_ ?_
      · rintro _ rfl
        exact ⟨⟨L, Q, hgood⟩, fun _ => hdead⟩
      · rintro u v ⟨⟨L, Q, hu⟩, hd⟩ ⟨halloc, op, hcalm, hstep⟩
        obtain ⟨hv, hkeep⟩ := hu.step hcalm hstep
        refine ⟨hv, fun hv' => ?_⟩
        have hkept := hkeep t ((hu.allocated t).mp halloc) (hd halloc)
        exact hkept.resolve_right (by simp [hv'])
    exact hinv.2
  · by_cases hp : parentPid < 0
    · rw [waitPass, if_pos hp]
    · have hnone : ¬∃ t ∈ L, s.IsChild parentPid t := by
        rintro ⟨t, ht, hchild⟩
        exact hcalm t (by rwa [hgood.linked.threads_eq]) hchild (hall t ht hchild)
      rcases hgood.linked.waitPass_cases (Int.not_lt.mp hp) with ⟨z, hz, hzombie, -⟩ | ⟨-, he⟩
      · exact absurd ⟨z, hz, hzombie.1⟩ hnone
      · rw [he, if_neg hnone]

/-- The kernel starts, the first user thread makes a child, and the child exits. -/
def exitChild : List Op :=
  [.boot 2 true, .boot 3 false, .boot 3 true, .boot 0 false, .yield, .create 4 (some 1) true,
    .yield, .setExitCode 7, .exit]

def calmStep (s : SchedState) (op : Op) : Option SchedState :=
  if s.Calm op then s.step op else none

def afterExit : SchedState := (runAll calmStep (schedInit 1 0) exitChild).getD (schedInit 1 0)

theorem afterExit_reachable : afterExit.ReachableIf Calm := by
  have hsome : (runAll calmStep (schedInit 1 0) exitChild).isSome = true := by decide +kernel
  obtain ⟨s, hs⟩ := Option.isSome_iff_exists.mp hsome
  rw [afterExit, hs, Option.getD_some]
  exact Reach.of_runAll_if (.init ⟨1, 0, by decide, rfl⟩) hs

theorem death_final_afterExit :
    (4 ∈ afterExit.threads ∧ afterExit.state 4 = .dead) ∧
      ∀ q, ∀ t ∈ afterExit.queue q, afterExit.state t ≠ .dead :=
  ⟨by decide +kernel, fun q => ((death_final afterExit_reachable).1 q).2⟩

end SchedState

end Neptune
