import Neptune.Sched.Lists

/-!
# The scheduler's invariant

Every operation of the scheduler keeps the thread list and the wait queues well
formed, as long as no thread goes to sleep or dies while it is still on a queue.

## Main definitions

* `SchedState.Good` — the invariant.
* `SchedState.Calm` — the operations that keep it.
* `SchedState.Keeps` — what is dead stays dead.

## Main results

* `SchedState.Good.step`, `SchedState.ReachableIf.good` — the invariant holds along
  every run of such operations.
-/

namespace Neptune

namespace SchedState

open Function List Option

variable {s s' : SchedState} {L A B : List ℕ} {Q : ℕ → List ℕ} {t q : ℕ}

/-! ### The invariant -/

/-- The invariant, also while a thread is on its way into `sched_resched_locked`. -/
structure Base (s : SchedState) (L : List ℕ) (Q : ℕ → List ℕ) : Prop where
  linked : Linked s L
  queued : Queued s Q
  allocated : ∀ t, s.allocated t ↔ t ∈ L
  current : s.currentThread ∈ L
  listed : ∀ {q t}, t ∈ Q q → t ∈ L
  blocked : ∀ t ∈ L, (s.state t = .blocked ↔ ∃ q, t ∈ Q q)

/-- The invariant.  A dead thread that still runs has been killed, or it halts. -/
structure Good (s : SchedState) (L : List ℕ) (Q : ℕ → List ℕ) : Prop extends Base s L Q where
  dead : s.state s.currentThread = .dead → s.reaped s.currentThread ∨ s.halted s.currentThread

/-- No listed thread comes back from the dead, unless its block is freed. -/
def Keeps (L : List ℕ) (s s' : SchedState) : Prop :=
  ∀ t ∈ L, s.state t = .dead → s'.state t = .dead ∨ s'.allocated t = false

/-- The state without what the invariant says nothing about. -/
def skeleton (s : SchedState) : SchedState :=
  { s with
    aspace := fun _ => 0
    pid := fun _ => 0
    ppid := fun _ => 0
    exitCode := fun _ => 0
    isUser := fun _ => false
    role := fun _ => .other
    entering := fun _ => none
    nextPid := 0
    cr3 := 0
    bootPc := 0 }

theorem Base.congr (h : Base s L Q) (he : s'.skeleton = s.skeleton) : Base s' L Q := by
  have hs : Base s.skeleton L Q :=
    ⟨⟨h.linked.dlist, h.linked.count⟩, h.queued.congr rfl rfl rfl rfl rfl, h.allocated,
      h.current, h.listed, h.blocked⟩
  rw [← he] at hs
  exact ⟨⟨hs.linked.dlist, hs.linked.count⟩, hs.queued.congr rfl rfl rfl rfl rfl, hs.allocated,
    hs.current, hs.listed, hs.blocked⟩

theorem Good.congr (h : Good s L Q) (he : s'.skeleton = s.skeleton) : Good s' L Q := by
  have hdead : s.skeleton.state s.skeleton.currentThread = .dead →
      s.skeleton.reaped s.skeleton.currentThread ∨ s.skeleton.halted s.skeleton.currentThread :=
    h.dead
  rw [← he] at hdead
  exact ⟨h.toBase.congr he, hdead⟩

theorem Linked.threads_eq (h : Linked s L) : s.threads = L :=
  h.dlist.fwd.walk_eq (Nat.le_of_eq h.count.symm)

theorem Base.length_le (h : Base s L Q) : (Q q).length ≤ s.threadCount := by
  rw [h.linked.count]
  exact (subperm_of_subset (h.queued.nodup q) fun _ ht => h.listed ht).length_le

theorem Base.queue_eq (h : Base s L Q) : s.queue q = Q q :=
  (h.queued.seg q).walk_eq h.length_le

/-- A thread that is not blocked is on no queue. -/
theorem Base.notMem_queue (h : Base s L Q) (ht : t ∈ L) (hb : s.state t ≠ .blocked) :
    ∀ q, t ∉ Q q := fun _ hq => hb ((h.blocked t ht).mpr ⟨_, hq⟩)

/-! ### Choosing the next thread -/

theorem Base.switchTo {n : ℕ} (h : Base s L Q) (hn : n ∈ L) (hrun : s.state n = .runnable) :
    Good (s.switchTo n) L Q := by
  have hstate : ∀ t, (s.switchTo n).state t = .blocked ↔ s.state t = .blocked := by
    intro t
    simp only [SchedState.switchTo]
    by_cases htn : t = n
    · subst htn
      simp [hrun]
    · rw [update_of_ne htn]
      split
      · next hc =>
        by_cases htc : t = s.currentThread
        · subst htc
          simp [hc]
        · rw [update_of_ne htc]
      · rfl
  refine ⟨⟨⟨h.linked.dlist, h.linked.count⟩, h.queued.congr rfl rfl rfl rfl rfl, h.allocated, hn,
    h.listed, fun t ht => (hstate t).trans (h.blocked t ht)⟩, fun hdead => ?_⟩
  simp [SchedState.switchTo] at hdead

theorem switchTo_keeps {n : ℕ} (hrun : s.state n = .runnable) : Keeps L s (s.switchTo n) := by
  intro t _ hdead
  have htn : t ≠ n := fun e => by rw [e, hrun] at hdead; cases hdead
  left
  simp only [SchedState.switchTo]
  rw [update_of_ne htn]
  split
  · next hc =>
    have htc : t ≠ s.currentThread := fun e => by rw [e, hc] at hdead; cases hdead
    rwa [update_of_ne htc]
  · exact hdead

/-- **Rescheduling keeps the invariant**, and brings it back where a thread has just been
put to sleep or has died. -/
theorem Base.resched (h : Base s L Q) : ∃ s', s.resched = some s' ∧ Good s' L Q ∧ Keeps L s s' := by
  rcases h.linked.resched_cases h.current with ⟨n, hn, -, hrun, he⟩ | ⟨-, he⟩
  · exact ⟨_, he, h.switchTo hn hrun, switchTo_keeps hrun⟩
  · refine ⟨_, he, ?_⟩
    by_cases hdead : s.state s.currentThread = .dead
    · rw [if_pos hdead]
      refine ⟨⟨⟨⟨h.linked.dlist, h.linked.count⟩, h.queued.congr rfl rfl rfl rfl rfl, h.allocated,
        h.current, h.listed, h.blocked⟩, fun _ => .inr ?_⟩, fun _ _ => .inl⟩
      exact update_self ..
    · rw [if_neg hdead]
      exact ⟨⟨h, fun hd => absurd hd hdead⟩, fun _ _ => .inl⟩

theorem Base.die (h : Base s L Q) (hb : s.state s.currentThread ≠ .blocked) :
    Base (s.setState s.currentThread .dead) L Q := by
  refine ⟨⟨h.linked.dlist, h.linked.count⟩, h.queued.congr rfl rfl rfl rfl rfl, h.allocated,
    h.current, h.listed, fun t ht => ?_⟩
  by_cases htc : t = s.currentThread
  · have hnot : ¬∃ q, t ∈ Q q := by
      rintro ⟨q, hq⟩
      exact h.notMem_queue ht (htc ▸ hb) q hq
    simp [setState, htc, htc ▸ hnot]
  · rw [setState_state, update_of_ne htc]
    exact h.blocked t ht

theorem Base.exit (h : Base s L Q) (hb : s.state s.currentThread ≠ .blocked) :
    ∃ s', s.exit = some s' ∧ Good s' L Q ∧ Keeps L s s' := by
  obtain ⟨s', he, hgood, hkeep⟩ := (h.die hb).resched
  refine ⟨s', he, hgood, fun t ht hdead => hkeep t ht ?_⟩
  by_cases htc : t = s.currentThread
  · rw [htc]
    exact update_self ..
  · rwa [setState_state, update_of_ne htc]

/-! ### Creating threads -/

/-- The block `t` holds a new thread, and the other threads are as before. -/
structure Created (s s' : SchedState) (t : ℕ) : Prop where
  runnable : s'.state t = .runnable
  state : ∀ {u}, u ≠ t → s'.state u = s.state u
  role : ∀ {u}, u ≠ t → s'.role u = s.role u
  reaped : ∀ {u}, u ≠ t → s'.reaped u = s.reaped u
  halted : ∀ {u}, u ≠ t → s'.halted u = s.halted u
  allocated : ∀ {u}, u ≠ t → s'.allocated u = s.allocated u
  current : s'.currentThread = s.currentThread
  bootPc : s'.bootPc = s.bootPc

theorem create_spec {role : Role} {parentPid : Option ℤ} {stack : Bool}
    (he : s.create t role parentPid stack = some s') :
    t ≠ 0 ∧ ¬s.allocated t ∧ Created s s' t ∧ s'.role t = role ∧ s'.allocated t = stack := by
  rw [create] at he
  split at he
  · cases he
  · next hfree =>
    obtain ⟨ht, hfree⟩ := not_or.mp hfree
    obtain rfl := some.inj he
    refine ⟨ht, hfree, ?_⟩
    cases stack <;> cases parentPid <;>
      refine ⟨⟨update_self .., fun hu => ?_, fun hu => ?_, fun hu => ?_, fun hu => ?_,
        fun hu => ?_, rfl, rfl⟩, update_self .., update_self ..⟩ <;>
      simp [initThread, threadAlloc, kallocThread, listAppend, listRemove, kfreeThread, hu]

theorem Linked.kallocThread (h : Linked s L) (hL : t ∉ L) : Linked (s.kallocThread t) L := by
  have hne : ∀ u ∈ L, u ≠ t := fun u hu e => hL (e ▸ hu)
  refine ⟨⟨h.dlist.fwd.congr fun u hu => ?_, h.dlist.bwd.congr fun u hu => ?_, h.dlist.nodup⟩, h.count⟩
  · exact update_of_ne (hne u hu) _ _
  · exact update_of_ne (hne u (mem_reverse.mp hu)) _ _

theorem Queued.kallocThread (h : Queued s Q) (hQ : ∀ q, t ∉ Q q) :
    Queued (s.kallocThread t) Q where
  seg q := (h.seg q).congr fun u hu =>
    update_of_ne (fun e : u = t => hQ q (e ▸ hu)) _ _
  last := h.last
  nodup := h.nodup
  disjoint := h.disjoint
  order := h.order

theorem Linked.create {role : Role} {parentPid : Option ℤ} {stack : Bool} (h : Linked s L)
    (hL : t ∉ L) (he : s.create t role parentPid stack = some s') :
    Linked s' (if stack then L ++ [t] else L) := by
  rw [SchedState.create] at he
  split at he
  · cases he
  · next hfree =>
    have hadd := (h.kallocThread hL).listAppend (not_or.mp hfree).1 hL
    have hlinked : Linked ((s.threadAlloc t).initThread t role parentPid) (L ++ [t]) := by
      cases parentPid <;> exact ⟨hadd.dlist, hadd.count⟩
    obtain rfl := some.inj he
    cases stack with
    | true => exact hlinked
    | false =>
      have hgone := hlinked.listRemove
      rw [append_nil] at hgone
      exact ⟨hgone.dlist, hgone.count⟩

theorem create_allocated {role : Role} {parentPid : Option ℤ} {stack : Bool}
    (ha : ∀ u, s.allocated u ↔ u ∈ L) (he : s.create t role parentPid stack = some s') :
    ∀ u, s'.allocated u ↔ u ∈ if stack then L ++ [t] else L := by
  obtain ⟨-, hfree, hnew, -, halloc⟩ := create_spec he
  intro u
  by_cases hu : u = t
  · subst hu
    rw [halloc]
    cases stack with
    | true => simp
    | false => simpa using fun hmem => hfree ((ha u).mpr hmem)
  · rw [hnew.allocated hu, ha u]
    cases stack with
    | true => simp [hu]
    | false => simp

theorem Good.create {role : Role} {parentPid : Option ℤ} {stack : Bool} (h : Good s L Q)
    (he : s.create t role parentPid stack = some s') :
    Good s' (if stack then L ++ [t] else L) Q ∧ Keeps L s s' := by
  obtain ⟨ht, hfree, hnew, -, -⟩ := create_spec he
  have hL : t ∉ L := fun hmem => hfree ((h.allocated t).mpr hmem)
  have hne : ∀ {u}, u ∈ L → u ≠ t := fun hu e => hL (e ▸ hu)
  have hlinked := h.linked.create hL he
  have halloc := create_allocated h.allocated he
  have hqueued : Queued ((s.threadAlloc t).initThread t role parentPid) Q := by
    have hadd := h.queued.kallocThread fun q hq => hL (h.listed hq)
    cases parentPid <;> exact hadd.congr rfl rfl rfl rfl rfl
  have hcur : s'.currentThread ≠ t := hnew.current ▸ hne h.current
  have hblocked : ∀ u ∈ L, (s'.state u = .blocked ↔ ∃ q, u ∈ Q q) := fun u hu => by
    rw [hnew.state (hne hu)]
    exact h.blocked u hu
  have hdead : s'.state s'.currentThread = .dead →
      s'.reaped s'.currentThread ∨ s'.halted s'.currentThread := by
    rw [hnew.state hcur, hnew.reaped hcur, hnew.halted hcur, hnew.current]
    exact h.dead
  have hkeep : Keeps L s s' := fun u hu hd => .inl ((hnew.state (hne hu)).trans hd)
  have hcurrent : s'.currentThread ∈ L := hnew.current ▸ h.current
  rw [SchedState.create, if_neg (not_or.mpr ⟨ht, hfree⟩)] at he
  obtain rfl := some.inj he
  cases stack with
  | false =>
    exact ⟨⟨⟨hlinked, hqueued.congr rfl rfl rfl rfl rfl, halloc, hcurrent, h.listed, hblocked⟩,
      hdead⟩, hkeep⟩
  | true =>
    refine ⟨⟨⟨hlinked, hqueued, halloc, mem_append_left _ hcurrent,
      fun hq => mem_append_left _ (h.listed hq), fun u hu => ?_⟩, hdead⟩, hkeep⟩
    rcases mem_append.mp hu with hu | hu
    · exact hblocked u hu
    · rw [mem_singleton.mp hu]
      have hnot : ¬∃ q, t ∈ Q q := fun ⟨q, hq⟩ => hL (h.listed hq)
      exact iff_of_false (by rw [hnew.runnable]; nofun) hnot

/-! ### Sleeping and waking -/

theorem exists_mem_push {u c : ℕ} :
    (∃ p, u ∈ update Q q (Q q ++ [c]) p) ↔ (∃ p, u ∈ Q p) ∨ u = c := by
  constructor
  · rintro ⟨p, hp⟩
    by_cases hpq : p = q
    · subst hpq
      rw [update_self, mem_append, mem_singleton] at hp
      exact hp.imp_left fun hu => ⟨p, hu⟩
    · rw [update_of_ne hpq] at hp
      exact .inl ⟨p, hp⟩
  · rintro (⟨p, hp⟩ | rfl)
    · by_cases hpq : p = q
      · subst hpq
        exact ⟨p, by rw [update_self]; exact mem_append_left _ hp⟩
      · exact ⟨p, by rwa [update_of_ne hpq]⟩
    · exact ⟨q, by rw [update_self]; simp⟩

theorem Base.enqueue (h : Base s L Q) (hb : s.state s.currentThread ≠ .blocked) :
    Base (s.enqueue q) L (update Q q (Q q ++ [s.currentThread])) := by
  refine ⟨⟨h.linked.dlist, h.linked.count⟩,
    h.queued.enqueue (h.linked.ne_zero _ h.current) (h.notMem_queue h.current hb), h.allocated,
    h.current, fun {p t} hp => ?_, fun t ht => ?_⟩
  · rcases exists_mem_push.mp ⟨p, hp⟩ with ⟨p', hp'⟩ | rfl
    · exact h.listed hp'
    · exact h.current
  · rw [exists_mem_push]
    by_cases htc : t = s.currentThread
    · simp [SchedState.enqueue, htc]
    · simp only [SchedState.enqueue, setState_state, update_of_ne htc, htc, or_false]
      exact h.blocked t ht

theorem Base.sleep (h : Base s L Q) (hb : s.state s.currentThread ≠ .blocked)
    (hd : s.state s.currentThread ≠ .dead) :
    ∃ s', s.sleep q = some s' ∧ Good s' L (update Q q (Q q ++ [s.currentThread])) ∧ Keeps L s s' := by
  obtain ⟨s', he, hgood, hkeep⟩ := (h.enqueue hb).resched (s := s.enqueue q)
  refine ⟨s', he, hgood, fun t ht hdead => hkeep t ht ?_⟩
  have htc : t ≠ s.currentThread := fun e => hd (e ▸ hdead)
  simp only [SchedState.enqueue, setState_state, update_of_ne htc]
  exact hdead

/-- What has left a queue is on no queue. -/
theorem Queued.exists_mem_leave {R Q' : List ℕ} {u : ℕ} (h : Queued s Q) (hq : Q q = R ++ Q') :
    (∃ p, u ∈ update Q q Q' p) ↔ (∃ p, u ∈ Q p) ∧ u ∉ R := by
  have hnodup := nodup_append.mp (hq ▸ h.nodup q)
  constructor
  · rintro ⟨p, hp⟩
    by_cases hpq : p = q
    · subst hpq
      rw [update_self] at hp
      exact ⟨⟨p, hq ▸ mem_append_right _ hp⟩, fun hR => hnodup.2.2 u hR u hp rfl⟩
    · rw [update_of_ne hpq] at hp
      exact ⟨⟨p, hp⟩, fun hR => h.disjoint hpq hp (hq ▸ mem_append_left _ hR)⟩
  · rintro ⟨⟨p, hp⟩, hR⟩
    refine ⟨p, ?_⟩
    by_cases hpq : p = q
    · subst hpq
      rw [update_self]
      exact (mem_append.mp (hq ▸ hp)).resolve_left hR
    · rwa [update_of_ne hpq]

/-- **Waking keeps the invariant**: the threads `R` have left the queue `q` and are
runnable. -/
theorem Good.leave {R Q' : List ℕ} (h : Good s L Q) (hq : Q q = R ++ Q')
    (hlinked : Linked s' L) (hqueued : Queued s' (update Q q Q'))
    (hstate : ∀ u, s'.state u = if u ∈ R then .runnable else s.state u)
    (hcur : s'.currentThread = s.currentThread) (halloc : s'.allocated = s.allocated)
    (hreaped : s'.reaped = s.reaped) (hhalted : s'.halted = s.halted) :
    Good s' L (update Q q Q') ∧ Keeps L s s' := by
  have hmem : ∀ {u}, (∃ p, u ∈ update Q q Q' p) ↔ (∃ p, u ∈ Q p) ∧ u ∉ R :=
    h.queued.exists_mem_leave hq
  refine ⟨⟨⟨hlinked, hqueued, halloc ▸ h.allocated, hcur ▸ h.current, fun {p t} hp => ?_,
    fun t ht => ?_⟩, ?_⟩, fun t ht hdead => .inl ?_⟩
  · obtain ⟨p', hp'⟩ := (hmem.mp ⟨p, hp⟩).1
    exact h.listed hp'
  · rw [hmem, hstate, ← h.blocked t ht]
    split
    · next hR => simp [hR]
    · next hR => simp [hR]
  · rw [hcur, hstate, hreaped, hhalted]
    split
    · nofun
    · exact h.dead
  · have hR : t ∉ R := fun hR => by
      have hb := (h.blocked t ht).mpr ⟨q, hq ▸ mem_append_left _ hR⟩
      rw [hdead] at hb
      cases hb
    rw [hstate, if_neg hR, hdead]

theorem Good.wakeOne (h : Good s L Q) :
    ∃ Q', Good (s.wakeOne q) L (update Q q Q') ∧ Keeps L s (s.wakeOne q) := by
  cases hq : Q q with
  | nil =>
    have hhead : s.head q = 0 := by simpa [hq] using h.queued.seg q
    refine ⟨[], ?_⟩
    rw [SchedState.wakeOne, if_pos hhead, ← hq, update_eq_self]
    exact ⟨h, fun _ _ => .inl⟩
  | cons t Q' =>
    obtain ⟨hhead, ht, hqueued⟩ := h.queued.wakeOne hq
    refine ⟨Q', ?_⟩
    have hhead0 : s.head q ≠ 0 := hhead ▸ ht
    rw [SchedState.wakeOne, if_neg hhead0, hhead] at hqueued ⊢
    refine h.leave (R := [t]) hq ⟨h.linked.dlist, h.linked.count⟩ hqueued (fun u => ?_)
      rfl rfl rfl rfl
    simp [update_apply]

theorem Good.wakeAll (h : Good s L Q) :
    ∃ s', s.wakeAll q = some s' ∧ Good s' L (update Q q []) ∧ Keeps L s s' := by
  obtain ⟨he, hqueued⟩ := h.queued.wakeAll (q := q) h.length_le
  refine ⟨_, he, ?_⟩
  exact h.leave (R := Q q) (by simp) ⟨h.linked.dlist, h.linked.count⟩ hqueued (fun _ => rfl)
    rfl rfl rfl rfl

/-! ### Reaping and killing -/

theorem Linked.reap {z : ℕ} (h : Linked s (A ++ z :: B)) : Linked (s.reap z) (A ++ B) := by
  have hbase : Linked { s with reaped := update s.reaped z true } (A ++ z :: B) :=
    ⟨h.dlist, h.count⟩
  exact ⟨hbase.listRemove.dlist, hbase.listRemove.count⟩

theorem Linked.reap_allocated {z : ℕ} (h : Linked s (A ++ z :: B))
    (ha : ∀ u, s.allocated u ↔ u ∈ A ++ z :: B) (t : ℕ) : (s.reap z).allocated t ↔ t ∈ A ++ B := by
  have hz : z ∉ A ++ B := (nodup_cons.mp (perm_middle.nodup_iff.mp h.dlist.nodup)).1
  by_cases htz : t = z
  · subst htz
    have hfreed : (s.reap t).allocated t = false := update_self ..
    simp only [hfreed, Bool.false_eq_true, false_iff]
    exact hz
  · have hsame : (s.reap z).allocated t = s.allocated t := update_of_ne htz _ _
    rw [hsame, ha t]
    simp [htz]

theorem Good.reap {z : ℕ} (h : Good s (A ++ z :: B) Q) (hz : s.state z = .dead)
    (hc : z ≠ s.currentThread) : Good (s.reap z) (A ++ B) Q ∧ Keeps (A ++ z :: B) s (s.reap z) := by
  have hsub : ∀ {t}, t ∈ A ++ B → t ∈ A ++ z :: B := fun ht => by simp at ht ⊢; tauto
  have hmem : ∀ {t}, t ∈ A ++ z :: B → t ≠ z → t ∈ A ++ B := fun ht hne => by
    simp at ht ⊢
    tauto
  have hzL : z ∈ A ++ z :: B := by simp
  refine ⟨⟨⟨h.linked.reap, h.queued.congr rfl rfl rfl rfl rfl, h.linked.reap_allocated h.allocated,
    hmem h.current hc.symm, fun {q t} hq => hmem (h.listed hq) fun e => ?_,
    fun t ht => h.blocked t (hsub ht)⟩, fun hd => ?_⟩, fun t _ hd => .inl hd⟩
  · have hb := (h.blocked z hzL).mpr ⟨q, e ▸ hq⟩
    rw [hz] at hb
    cases hb
  · exact (h.dead hd).imp_left (update_of_ne hc.symm _ _).trans

theorem Good.waitPass (parentPid : ℤ) (h : Good s L Q) (hh : s.halted s.currentThread = false) :
    ∃ r s' L', s.waitPass parentPid = some (r, s') ∧ Good s' L' Q ∧ Keeps L s s' := by
  by_cases hp : parentPid < 0
  · exact ⟨.noChild, s, L, by rw [SchedState.waitPass, if_pos hp], h, fun _ _ => .inl⟩
  · rcases h.linked.waitPass_cases (Int.not_lt.mp hp) with ⟨z, hz, ⟨-, hdead, hre⟩, he⟩ | ⟨-, he⟩
    · obtain ⟨A, B, rfl⟩ := append_of_mem hz
      have hc : z ≠ s.currentThread := by
        rintro rfl
        simpa [hre, hh] using h.dead hdead
      exact ⟨_, _, A ++ B, he, h.reap hdead hc⟩
    · exact ⟨_, s, L, he, h, fun _ _ => .inl⟩

theorem Good.killed (h : Good s L Q) (hb : ∀ t ∈ L, s.aspace t ≠ 0 → s.state t ≠ .blocked) :
    Good (s.killed L) L Q ∧ Keeps L s (s.killed L) := by
  refine ⟨⟨⟨⟨h.linked.dlist, h.linked.count⟩, h.queued.congr rfl rfl rfl rfl rfl, h.allocated,
    h.current, h.listed, fun t ht => ?_⟩, fun hd => ?_⟩, fun t _ hd => .inl ?_⟩
  · rw [← h.blocked t ht]
    by_cases hspace : s.aspace t ≠ 0
    · simp [SchedState.killed, ht, hspace, hb t ht hspace]
    · simp [SchedState.killed, not_not.mp hspace]
  · by_cases hspace : s.aspace s.currentThread ≠ 0
    · exact .inl (if_pos ⟨h.current, hspace⟩)
    · have hno : ¬(s.currentThread ∈ L ∧ s.aspace s.currentThread ≠ 0) := fun hand => hspace hand.2
      have hold := h.dead ((if_neg hno).symm.trans hd)
      exact hold.imp_left (if_neg hno).trans
  · simp only [SchedState.killed, hd, ite_self]

/-! ### Steps -/

/-- The operations that keep the invariant: a thread neither goes to sleep again nor dies
while it is on a queue, a killed thread does not go to sleep, and nobody waits while there
is a killed child. -/
def Calm (s : SchedState) : Op → Prop
  | .sleep _ | .sleepCond _ false =>
    s.state s.currentThread ≠ .blocked ∧ s.state s.currentThread ≠ .dead
  | .exit => s.state s.currentThread ≠ .blocked
  | .boot _ _ => s.bootPc = 3 → s.state s.currentThread ≠ .blocked
  | .killUserThreads => ∀ t ∈ s.threads, s.aspace t ≠ 0 → s.state t ≠ .blocked
  | .waitChild parentPid =>
    ∀ t ∈ s.threads, s.IsChild parentPid t → ¬(s.state t = .dead ∧ s.reaped t)
  | _ => True

instance (s : SchedState) : (op : Op) → Decidable (s.Calm op)
  | .sleep _ | .sleepCond _ false => inferInstanceAs (Decidable (_ ∧ _))
  | .exit | .boot _ _ => inferInstanceAs (Decidable (_ → _))
  | .killUserThreads | .waitChild _ => inferInstanceAs (Decidable (∀ t ∈ s.threads, _))
  | .create .. | .yield | .sleepCond _ true | .wakeOne _ | .wakeAll _ | .setExitCode _
  | .setCurrentAspace _ | .enterUser => inferInstanceAs (Decidable True)

/-- The state after a step is good, and the dead are dead. -/
def Advances (L : List ℕ) (s s' : SchedState) : Prop :=
  (∃ L' Q', Good s' L' Q') ∧ Keeps L s s'

theorem Advances.of_create {role : Role} {parentPid : Option ℤ} {stack : Bool} (h : Good s L Q)
    (he : s.create t role parentPid stack = some s') : Advances L s s' :=
  ⟨⟨_, _, (h.create he).1⟩, (h.create he).2⟩

theorem Advances.of_some {u : SchedState} (h : Good u L Q ∧ Keeps L s u) (he : some u = some s') :
    Advances L s s' := by
  obtain rfl := some.inj he
  exact ⟨⟨L, Q, h.1⟩, h.2⟩

/-- Counting how far `kernel_main` is changes nothing. -/
theorem Advances.bootPc {u : SchedState} {n : ℕ} (h : Advances L s u) :
    Advances L s { u with bootPc := n } := by
  obtain ⟨⟨L', Q', hgood⟩, hkeep⟩ := h
  exact ⟨⟨L', Q', hgood.congr rfl⟩, hkeep⟩

theorem Good.boot {configured : Bool} (h : Good s L Q)
    (hb : s.bootPc = 3 → s.state s.currentThread ≠ .blocked)
    (he : s.boot t configured = some s') : Advances L s s' := by
  have hcreate : ∀ {role : Role} {parentPid : Option ℤ},
      (s.create t role parentPid true).map (fun u => { u with bootPc := u.bootPc + 1 }) = some s' →
      Advances L s s' := by
    intro role parentPid he
    obtain ⟨u, hu, rfl⟩ := map_eq_some_iff.mp he
    exact (Advances.of_create h hu).bootPc
  have hskip : some { s with bootPc := s.bootPc + 1 } = some s' → Advances L s s' :=
    Advances.of_some ⟨h.congr rfl, fun _ _ => .inl⟩
  rw [SchedState.boot] at he
  split at he
  · exact hcreate he
  · split at he
    · exact hcreate he
    · exact hskip he
  · split at he
    · exact hcreate he
    · exact hskip he
  · next hpc =>
    have hbase : Base { s with bootPc := s.bootPc + 1 } L Q := h.toBase.congr rfl
    obtain ⟨u, hu, hgood, hkeep⟩ := hbase.exit (hb hpc)
    exact Advances.of_some ⟨hgood, hkeep⟩ (hu.symm.trans he)
  · cases he

/-- **One step**: what is allowed keeps the invariant and leaves the dead alone. -/
theorem Good.step {op : Op} (h : Good s L Q) (hc : s.Calm op) (hs : s.step op = some s') :
    Advances L s s' := by
  have hthreads := h.linked.threads_eq
  rw [SchedState.step] at hs
  split at hs
  · cases hs
  · next hhalt =>
    cases op with
    | boot t configured =>
      simp only [run] at hs
      split at hs
      · exact h.boot hc hs
      · cases hs
    | create t parentPid stack => exact Advances.of_create h hs
    | yield =>
      obtain ⟨u, hu, hgood⟩ := h.resched
      exact Advances.of_some hgood (hu.symm.trans hs)
    | sleep q =>
      obtain ⟨u, hu, hgood⟩ := h.sleep hc.1 hc.2
      exact Advances.of_some hgood (hu.symm.trans hs)
    | sleepCond q cond =>
      cases cond with
      | true => exact Advances.of_some ⟨h, fun _ _ => .inl⟩ hs
      | false =>
        obtain ⟨u, hu, hgood⟩ := h.sleep hc.1 hc.2
        exact Advances.of_some hgood (hu.symm.trans hs)
    | wakeOne q =>
      obtain ⟨Q', hgood⟩ := h.wakeOne
      exact Advances.of_some hgood hs
    | wakeAll q =>
      obtain ⟨u, hu, hgood⟩ := h.wakeAll
      exact Advances.of_some hgood (hu.symm.trans hs)
    | setExitCode code =>
      obtain rfl := some.inj hs
      exact ⟨⟨L, Q, h.congr rfl⟩, fun _ _ => .inl⟩
    | exit =>
      obtain ⟨u, hu, hgood⟩ := h.exit hc
      exact Advances.of_some hgood (hu.symm.trans hs)
    | waitChild parentPid =>
      have hhalted : s.halted s.currentThread = false := by simpa [Op.interrupt] using hhalt
      obtain ⟨r, u, L', hu, hgood, hkeep⟩ := h.waitPass parentPid hhalted
      obtain rfl : u = s' := by simpa [run, hu] using hs
      exact ⟨⟨L', Q, hgood⟩, hkeep⟩
    | killUserThreads =>
      rw [run, h.linked.killUserThreads] at hs
      exact Advances.of_some (h.killed (hthreads ▸ hc)) hs
    | setCurrentAspace pml4 =>
      obtain rfl := some.inj hs
      exact ⟨⟨L, Q, h.congr rfl⟩, fun _ _ => .inl⟩
    | enterUser =>
      simp only [run, SchedState.enterUser] at hs
      obtain ⟨pml4, -, rfl⟩ := map_eq_some_iff.mp hs
      exact ⟨⟨L, Q, h.congr rfl⟩, fun _ _ => .inl⟩

theorem schedInit_good {pml4 : ℕ} (ht : t ≠ 0) : Good (schedInit t pml4) [t] fun _ => [] := by
  have hdlist : DList (fun _ => 0) (fun _ => 0) t t [t] :=
    ⟨⟨rfl, ht, rfl⟩, ⟨rfl, ht, rfl⟩, by simp⟩
  have hqueued : Queued (schedInit t pml4) fun _ => [] :=
    ⟨fun _ => rfl, fun _ => rfl, fun _ => nodup_nil, nofun, fun _ => rfl⟩
  refine ⟨⟨⟨hdlist, rfl⟩, hqueued, fun u => ?_, mem_singleton_self t, nofun, fun u hu => ?_⟩, ?_⟩
  · simp [schedInit]
  · simp [schedInit, mem_singleton.mp hu]
  · simp [schedInit]

theorem ReachableIf.good (h : s.ReachableIf Calm) : ∃ L Q, Good s L Q := by
  refine Reach.invariant (I := fun s => ∃ L Q, Good s L Q) h ?_ ?_
  · rintro _ ⟨t, pml4, ht, rfl⟩
    exact ⟨_, _, schedInit_good ht⟩
  · rintro s s' ⟨L, Q, hgood⟩ ⟨op, hc, hs⟩
    exact (hgood.step hc hs).1

end SchedState

end Neptune
