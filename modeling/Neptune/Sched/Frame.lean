import Neptune.Sched.Started

/-!
# What a step leaves alone

An operation of the scheduler works on the current thread and on one wait queue.  The
other queues stay as they are, and no other thread is put to sleep, dies or is freed.

## Main definitions

* `SchedState.Aside` — a thread that a step leaves alone.

## Main results

* `SchedState.Running.step_frame` — one step of a started kernel.
-/

namespace Neptune

namespace SchedState

open Function Option

variable {s s' u : SchedState} {L L' A B : List ℕ} {Q Q' : ℕ → List ℕ} {t q w : ℕ}

/-- The queue that an operation works on. -/
def Op.queue : Op → Option ℕ
  | .sleep q | .sleepCond q _ | .wakeOne q | .wakeAll q => some q
  | _ => none

/-- A step neither frees the thread nor puts it to sleep nor lets it die. -/
structure Aside (s s' : SchedState) (t : ℕ) : Prop where
  allocated : s.allocated t → s'.allocated t
  blocked : s'.state t = .blocked → s.state t = .blocked
  dead : s'.state t = .dead → s.state t = .dead

theorem Aside.trans (h : Aside s u t) (h' : Aside u s' t) : Aside s s' t :=
  ⟨fun ha => h'.allocated (h.allocated ha), fun hb => h.blocked (h'.blocked hb),
    fun hd => h.dead (h'.dead hd)⟩

theorem Aside.of_eq (ha : s'.allocated = s.allocated) (hs : s'.state = s.state) : Aside s s' t := by
  constructor
  · rw [ha]
    exact id
  · rw [hs]
    exact id
  · rw [hs]
    exact id

/-- A thread whose state is set to something else than asleep or dead. -/
theorem Aside.of_update {v : ℕ} {st : ThreadState} (ha : s'.allocated = s.allocated)
    (hs : s'.state = update s.state v st) (hst : t = v → st ≠ .blocked ∧ st ≠ .dead) :
    Aside s s' t := by
  by_cases htv : t = v
  · obtain ⟨hb, hd⟩ := hst htv
    have hnow : s'.state t = st := by rw [hs, htv, update_self]
    exact ⟨fun h => ha ▸ h, fun h => absurd (hnow.symm.trans h) hb,
      fun h => absurd (hnow.symm.trans h) hd⟩
  · have hnow : s'.state t = s.state t := by rw [hs, update_of_ne htv]
    exact ⟨fun h => ha ▸ h, fun h => hnow ▸ h, fun h => hnow ▸ h⟩

theorem switchTo_aside (n : ℕ) : Aside s (s.switchTo n) t := by
  have hin : ∀ {v : SchedState}, v.allocated = s.allocated →
      (s.switchTo n).state = update v.state n .running → Aside v (s.switchTo n) t :=
    fun ha hs => .of_update ha.symm hs fun _ => ⟨nofun, nofun⟩
  by_cases hrun : s.state s.currentThread = .running
  · have hout : Aside s (s.setState s.currentThread .runnable) t :=
      .of_update rfl rfl fun _ => ⟨nofun, nofun⟩
    exact hout.trans (hin rfl (by simp [SchedState.switchTo, hrun, setState]))
  · exact hin rfl (by simp [SchedState.switchTo, hrun])

theorem Base.resched_aside (h : Base s L Q) (he : s.resched = some s') : Aside s s' t := by
  rcases h.linked.resched_cases h.current with ⟨n, -, -, -, hsome⟩ | ⟨-, hsome⟩
  · obtain rfl := some.inj (hsome.symm.trans he)
    exact switchTo_aside n
  · obtain rfl := some.inj (hsome.symm.trans he)
    split
    · exact .of_eq rfl rfl
    · exact .of_eq rfl rfl

theorem wakeOne_aside : Aside s (s.wakeOne q) t := by
  rw [SchedState.wakeOne]
  split
  · exact .of_eq rfl rfl
  · exact .of_update rfl rfl fun _ => ⟨(by rintro ⟨⟩), (by rintro ⟨⟩)⟩

theorem Base.wakeAll_aside (h : Base s L Q) (he : s.wakeAll q = some s') : Aside s s' t := by
  obtain ⟨hsome, -⟩ := h.queued.wakeAll (q := q) h.length_le
  obtain rfl := some.inj (hsome.symm.trans he)
  constructor
  · exact id
  · simp only [wokenAll]
    split
    · rintro ⟨⟩
    · exact id
  · simp only [wokenAll]
    split
    · rintro ⟨⟩
    · exact id

theorem Good.create_aside {v : ℕ} {role : Role} {parentPid : Option ℤ} {stack : Bool}
    (h : Good s L Q) (ht : t ∈ L) (he : s.create v role parentPid stack = some s') :
    Aside s s' t := by
  obtain ⟨-, hfree, hnew, -, -⟩ := create_spec he
  have htv : t ≠ v := fun e => hfree ((h.allocated v).mpr (e ▸ ht))
  refine ⟨fun ha => ?_, ?_, ?_⟩
  · rwa [hnew.allocated htv]
  · rw [hnew.state htv]
    exact id
  · rw [hnew.state htv]
    exact id

/-- Only the dead are freed. -/
theorem waitPass_aside {parentPid : ℤ} {res : WaitResult} (h : Linked s L)
    (hd : s.state t ≠ .dead) (he : s.waitPass parentPid = some (res, s')) : Aside s s' t := by
  have hsame : ∀ res', s.waitPass parentPid = some (res', s) → Aside s s' t := by
    intro res' hres
    obtain ⟨-, rfl⟩ := Prod.mk.inj (some.inj (hres.symm.trans he))
    exact .of_eq rfl rfl
  by_cases hp : parentPid < 0
  · exact hsame .noChild (by rw [SchedState.waitPass, if_pos hp])
  · rcases h.waitPass_cases (Int.not_lt.mp hp) with ⟨z, -, ⟨-, hdead, -⟩, hsome⟩ | ⟨-, hsome⟩
    · obtain ⟨-, rfl⟩ := Prod.mk.inj (some.inj (hsome.symm.trans he))
      have htz : t ≠ z := fun e => hd (e ▸ hdead)
      exact ⟨fun ha => (update_of_ne htz _ _).trans ha, id, id⟩
    · exact hsame _ hsome

/-- A pass of `sched_wait_child` is not about the queues. -/
theorem Good.waitPass_queue {parentPid : ℤ} {res : WaitResult} (h : Good s L Q)
    (hc : s.state s.currentThread ≠ .dead) (he : s.waitPass parentPid = some (res, s')) :
    ∃ L', Good s' L' Q := by
  have hsame : ∀ res', s.waitPass parentPid = some (res', s) → ∃ L', Good s' L' Q := by
    intro res' hres
    obtain ⟨-, rfl⟩ := Prod.mk.inj (some.inj (hres.symm.trans he))
    exact ⟨L, h⟩
  by_cases hp : parentPid < 0
  · exact hsame .noChild (by rw [SchedState.waitPass, if_pos hp])
  · rcases h.linked.waitPass_cases (Int.not_lt.mp hp) with ⟨z, hz, ⟨-, hdead, -⟩, hsome⟩ | ⟨-, hsome⟩
    · obtain ⟨-, rfl⟩ := Prod.mk.inj (some.inj (hsome.symm.trans he))
      obtain ⟨A, B, rfl⟩ := List.append_of_mem hz
      have hzc : z ≠ s.currentThread := fun e => hc (e ▸ hdead)
      exact ⟨A ++ B, (h.reap hdead hzc).1⟩
    · exact hsame _ hsome

/-! ### Steps -/

/-- What a step leaves alone: the queues `w` that it does not work on, and the live threads on
the list other than the current one; a thread that only yields is left alone too. -/
structure Frame (s : SchedState) (op : Op) (L : List ℕ) (s' : SchedState) : Prop where
  queue : ∀ w, op.queue ≠ some w → s'.queue w = s.queue w
  aside : ∀ t ∈ L, s.state t ≠ .dead → t ≠ s.currentThread ∨ op = .yield → Aside s s' t

theorem Good.queue_same (h : Good s L Q) (h' : Good s' L' Q') (hw : Q' w = Q w) :
    s'.queue w = s.queue w := by
  rw [h'.queue_eq, h.queue_eq, hw]

/-- The current thread dies. -/
theorem Good.exit_frame {op : Op} (h : Good s L Q) (hb : s.state s.currentThread ≠ .blocked)
    (hop : op ≠ .yield) (he : s.exit = some s') : Frame s op L s' := by
  obtain ⟨v, hv, hgood, -⟩ := h.toBase.exit hb
  obtain rfl := some.inj (hv.symm.trans he)
  refine ⟨fun w _ => h.queue_same hgood rfl, fun t _ _ hc => ?_⟩
  have hdie : Aside s (s.setState s.currentThread .dead) t :=
    .of_update rfl rfl fun e => absurd e (hc.resolve_right hop)
  exact hdie.trans ((h.toBase.die hb).resched_aside he)

/-- The current thread goes to sleep. -/
theorem Good.sleep_frame {op : Op} (h : Good s L Q) (hb : s.state s.currentThread ≠ .blocked)
    (hd : s.state s.currentThread ≠ .dead) (hop : op ≠ .yield) (hq : op.queue = some q)
    (he : s.sleep q = some s') : Frame s op L s' := by
  obtain ⟨v, hv, hgood, -⟩ := h.toBase.sleep (q := q) hb hd
  obtain rfl := some.inj (hv.symm.trans he)
  refine ⟨fun w hw => h.queue_same hgood ?_, fun t _ _ hc => ?_⟩
  · have hwq : w ≠ q := by
      rintro rfl
      exact hw hq
    exact update_of_ne hwq _ _
  · have hasleep : Aside s (s.enqueue q) t :=
      .of_update rfl rfl fun e => absurd e (hc.resolve_right hop)
    exact hasleep.trans ((h.toBase.enqueue hb).resched_aside he)

theorem Good.boot_frame {configured : Bool} (h : Good s L Q)
    (hb : s.state s.currentThread ≠ .blocked) (he : s.boot t configured = some s') :
    Frame s (.boot t configured) L s' := by
  have hcreate : ∀ {role : Role} {parentPid : Option ℤ},
      (s.create t role parentPid true).map (fun v => { v with bootPc := v.bootPc + 1 }) = some s' →
      Frame s (.boot t configured) L s' := by
    intro role parentPid he
    obtain ⟨v, hv, rfl⟩ := map_eq_some_iff.mp he
    exact ⟨fun w _ => h.queue_same ((h.create hv).1.congr rfl) rfl, fun _ hmem _ _ =>
      (h.create_aside hmem hv).trans (.of_eq rfl rfl)⟩
  have hskip : some { s with bootPc := s.bootPc + 1 } = some s' →
      Frame s (.boot t configured) L s' := by
    intro he
    obtain rfl := some.inj he
    exact ⟨fun _ _ => rfl, fun _ _ _ _ => .of_eq rfl rfl⟩
  rw [SchedState.boot] at he
  split at he
  · exact hcreate he
  · split at he
    · exact hcreate he
    · exact hskip he
  · split at he
    · exact hcreate he
    · exact hskip he
  · have hgood : Good { s with bootPc := s.bootPc + 1 } L Q := h.congr rfl
    have hframe : Frame { s with bootPc := s.bootPc + 1 } (.boot t configured) L s' :=
      hgood.exit_frame hb (by rintro ⟨⟩) he
    have hcount : ∀ v, Aside s { s with bootPc := s.bootPc + 1 } v := fun _ => .of_eq rfl rfl
    exact ⟨hframe.queue, fun v hv hd hc => (hcount v).trans (hframe.aside v hv hd hc)⟩
  · cases he

/-- **What one step** of a started kernel leaves alone. -/
theorem Running.step_frame {op : Op} (hg : Good s L Q) (h : Running s L) (hst : s.Started op)
    (hs : s.step op = some s') : Frame s op L s' := by
  have hsame : s'.allocated = s.allocated → s'.state = s.state →
      (∀ w, s'.queue w = s.queue w) → Frame s op L s' :=
    fun ha hstate hqueue => ⟨fun w _ => hqueue w, fun _ _ _ _ => .of_eq ha hstate⟩
  rw [SchedState.step] at hs
  split at hs
  · cases hs
  · cases op with
    | boot t configured =>
      simp only [run] at hs
      split at hs
      · exact hg.boot_frame h.not_blocked hs
      · cases hs
    | create v parentPid stack =>
      exact ⟨fun w _ => hg.queue_same (hg.create hs).1 rfl, fun t ht _ _ => hg.create_aside ht hs⟩
    | yield =>
      obtain ⟨v, hv, hgood, -⟩ := hg.toBase.resched
      obtain rfl := some.inj (hv.symm.trans hs)
      exact ⟨fun w _ => hg.queue_same hgood rfl, fun t _ _ _ => hg.toBase.resched_aside hs⟩
    | sleep q => exact hg.sleep_frame h.not_blocked h.not_dead (by rintro ⟨⟩) rfl hs
    | sleepCond q cond =>
      cases cond with
      | true =>
        obtain rfl := some.inj hs
        exact hsame rfl rfl fun _ => rfl
      | false => exact hg.sleep_frame h.not_blocked h.not_dead (by rintro ⟨⟩) rfl hs
    | wakeOne q =>
      obtain ⟨Q', hgood, -⟩ := hg.wakeOne (q := q)
      obtain rfl := some.inj hs
      refine ⟨fun w hw => hg.queue_same hgood ?_, fun _ _ _ _ => wakeOne_aside⟩
      exact update_of_ne (fun e => hw (congrArg some e.symm)) _ _
    | wakeAll q =>
      obtain ⟨v, hv, hgood, -⟩ := hg.wakeAll (q := q)
      obtain rfl := some.inj (hv.symm.trans hs)
      refine ⟨fun w hw => hg.queue_same hgood ?_, fun _ _ _ _ => hg.toBase.wakeAll_aside hs⟩
      exact update_of_ne (fun e => hw (congrArg some e.symm)) _ _
    | setExitCode code =>
      obtain rfl := some.inj hs
      exact hsame rfl rfl fun _ => rfl
    | exit => exact hg.exit_frame h.not_blocked (by rintro ⟨⟩) hs
    | waitChild parentPid =>
      obtain ⟨⟨res, v⟩, hv, rfl⟩ := map_eq_some_iff.mp hs
      obtain ⟨L', hgood⟩ := hg.waitPass_queue h.not_dead hv
      exact ⟨fun w _ => hg.queue_same hgood rfl, fun t _ hd _ => waitPass_aside hg.linked hd hv⟩
    | killUserThreads => exact absurd hst not_false
    | setCurrentAspace pml4 =>
      obtain rfl := some.inj hs
      exact hsame rfl rfl fun _ => rfl
    | enterUser =>
      obtain ⟨pml4, -, rfl⟩ := map_eq_some_iff.mp hs
      exact hsame rfl rfl fun _ => rfl

end SchedState

end Neptune
