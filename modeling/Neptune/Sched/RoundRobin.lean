import Neptune.Lib.Round
import Neptune.Sched.Invariant

/-!
# Round robin

`sched_resched_locked` looks for the next thread behind the current one and goes round
the list.  Between two selections of a thread, every thread that can run the whole time
is selected: the search comes to it first, and this stays so when threads are created
at the end of the list or removed from it.

The argument needs the thread list and nothing about the wait queues, so it holds in
every run, whatever the queues have come to.

## Main definitions

* `SchedState.reschedState`, `SchedState.Selects` — the calls of `sched_resched_locked`
  and what they choose.
* `SchedState.Chained` — the invariant of the thread list.

## Main results

* `SchedState.Chained.step_cases` — what one step does to the list and the current thread.
* `SchedState.round_robin` — no thread that can run is passed over.
-/

namespace Neptune

namespace SchedState

open Function List Option

variable {s s' u : SchedState} {L A B : List ℕ} {t q x y n : ℕ} {op : Op}

/-! ### Selections -/

/-- The state in which an operation calls `sched_resched_locked`. -/
def reschedState (s : SchedState) : Op → Option SchedState
  | .yield => some s
  | .sleep q | .sleepCond q false => some (s.enqueue q)
  | .exit => some (s.setState s.currentThread .dead)
  | .boot _ _ =>
    if s.bootPc = 3 then
      some ({ s with bootPc := s.bootPc + 1 }.setState s.currentThread .dead)
    else none
  | _ => none

/-- `next_thread` when the search of `sched_resched_locked` is over; 0 is `NULL`. -/
def nextThread (s : SchedState) : Option ℕ :=
  if s.succ s.currentThread = 0 then some 0
  else s.search (s.succ s.currentThread) s.threadCount (s.succ s.currentThread)

/-- The operation calls `sched_resched_locked`, which selects the thread `n`. -/
def Selects (s : SchedState) (op : Op) (n : ℕ) : Prop :=
  (s.step op).isSome ∧ n ≠ 0 ∧ (s.reschedState op).bind nextThread = some n

instance (s : SchedState) (op : Op) (n : ℕ) : Decidable (s.Selects op n) :=
  inferInstanceAs (Decidable (_ ∧ _))

/-- The search goes once round the list. -/
theorem Linked.nextThread_eq (h : Linked s (A ++ s.currentThread :: B)) :
    s.nextThread = some (((B ++ (A ++ [s.currentThread])).find? fun t =>
      decide (s.state t = .runnable)).getD 0) := by
  obtain ⟨hstart, hsearch⟩ := h.search
  rw [nextThread, if_neg hstart, hsearch]
  rfl

/-- A thread that is selected is the first one that can run. -/
theorem Linked.find_of_nextThread (h : Linked s (A ++ s.currentThread :: B))
    (he : s.nextThread = some n) (hn : n ≠ 0) :
    (B ++ (A ++ [s.currentThread])).find? (fun t => decide (s.state t = .runnable)) = some n := by
  rw [h.nextThread_eq] at he
  cases hfind : (B ++ (A ++ [s.currentThread])).find? fun t => decide (s.state t = .runnable) with
  | none =>
    rw [hfind] at he
    exact absurd (some.inj he).symm hn
  | some m =>
    rw [hfind] at he
    exact he

/-- The current thread is the one that has been selected, if one has been. -/
theorem resched_current (he : s.resched = some s') :
    ∃ n, s.nextThread = some n ∧ s'.currentThread = if n = 0 then s.currentThread else n := by
  obtain ⟨n, hn, rfl⟩ := map_eq_some_iff.mp he
  refine ⟨n, hn, ?_⟩
  by_cases hn0 : n = 0
  · simp only [if_pos hn0]
    split <;> rfl
  · simp only [if_neg hn0]
    split
    · next hnc => exact hnc.symm
    · rfl

/-! ### The thread list -/

/-- The invariant of the thread list.  A dead thread that still runs has been killed, or it
halts. -/
structure Chained (s : SchedState) (L : List ℕ) : Prop where
  linked : Linked s L
  allocated : ∀ t, s.allocated t ↔ t ∈ L
  current : s.currentThread ∈ L
  dead : s.state s.currentThread = .dead → s.reaped s.currentThread ∨ s.halted s.currentThread

/-- The fields that hold the thread list together. -/
def chain (s : SchedState) :
    (ℕ → ℕ) × (ℕ → ℕ) × ℕ × ℕ × ℕ × (ℕ → Bool) × ℕ × (ℕ → Bool) × (ℕ → Bool) :=
  (s.next, s.prev, s.threadsHead, s.threadsTail, s.threadCount, s.allocated, s.currentThread,
    s.reaped, s.halted)

theorem Linked.congr (h : Linked s L) (hc : s'.chain = s.chain) : Linked s' L := by
  simp only [chain, Prod.mk.injEq] at hc
  obtain ⟨hnext, hprev, hhead, htail, hcount, -⟩ := hc
  refine ⟨?_, hcount.trans h.count⟩
  rw [hnext, hprev, hhead, htail]
  exact h.dlist

/-- A step that leaves the list alone and lets nobody die. -/
theorem Chained.congr (h : Chained s L) (hc : s'.chain = s.chain)
    (hdead : ∀ t, s'.state t = .dead → s.state t = .dead) : Chained s' L := by
  have hlinked := h.linked.congr hc
  simp only [chain, Prod.mk.injEq] at hc
  obtain ⟨-, -, -, -, -, halloc, hcur, hreaped, hhalted⟩ := hc
  refine ⟨hlinked, ?_, ?_, ?_⟩
  · rw [halloc]
    exact h.allocated
  · rw [hcur]
    exact h.current
  · rw [hcur, hreaped, hhalted]
    exact fun hd => h.dead (hdead _ hd)

/-- **Rescheduling** brings the invariant back where the current thread has just died. -/
theorem Linked.resched_chained (h : Linked s L) (ha : ∀ t, s.allocated t ↔ t ∈ L)
    (hc : s.currentThread ∈ L) (he : s.resched = some s') : Chained s' L := by
  rcases h.resched_cases hc with ⟨n, hn, -, hrun, hsome⟩ | ⟨-, hsome⟩
  · obtain rfl := some.inj (hsome.symm.trans he)
    refine ⟨⟨h.dlist, h.count⟩, ha, hn, fun hd => ?_⟩
    simp [SchedState.switchTo] at hd
  · obtain rfl := some.inj (hsome.symm.trans he)
    by_cases hdead : s.state s.currentThread = .dead
    · rw [if_pos hdead]
      exact ⟨⟨h.dlist, h.count⟩, ha, hc, fun _ => .inr (update_self ..)⟩
    · rw [if_neg hdead]
      exact ⟨h, ha, hc, fun hd => absurd hd hdead⟩

/-- Waking threads leaves the list alone, also if the queue has come to nothing good. -/
theorem wakeLoop_chain {fuel : ℕ} (he : s.wakeLoop q fuel t = some s') :
    s'.chain = s.chain ∧ ∀ t, s'.state t = .dead → s.state t = .dead := by
  induction fuel generalizing s t with
  | zero => cases he
  | succ fuel ih =>
    rw [wakeLoop] at he
    split at he
    · obtain rfl := some.inj he
      exact ⟨rfl, fun _ hd => hd⟩
    · obtain ⟨hchain, hdead⟩ := ih he
      refine ⟨hchain, fun v hd => ?_⟩
      have hv := hdead v hd
      by_cases hvt : v = t
      · subst hvt
        simp [setState] at hv
      · simpa [setState, hvt] using hv

theorem wakeOne_chain : (s.wakeOne q).chain = s.chain := by
  rw [SchedState.wakeOne]
  split <;> rfl

theorem wakeOne_dead (hd : (s.wakeOne q).state t = .dead) : s.state t = .dead := by
  rw [SchedState.wakeOne] at hd
  split at hd
  · exact hd
  · by_cases ht : t = s.head q
    · simp [setState, ht] at hd
    · simpa [setState, ht] using hd

theorem Chained.killed (h : Chained s L) : Chained (s.killed L) L := by
  refine ⟨⟨h.linked.dlist, h.linked.count⟩, h.allocated, h.current, fun hd => ?_⟩
  by_cases hspace : s.aspace s.currentThread ≠ 0
  · exact .inl (if_pos ⟨h.current, hspace⟩)
  · have hno : ¬(s.currentThread ∈ L ∧ s.aspace s.currentThread ≠ 0) := fun hand => hspace hand.2
    have hold := h.dead ((if_neg hno).symm.trans hd)
    exact hold.imp_left (if_neg hno).trans

theorem Chained.create {role : Role} {parentPid : Option ℤ} {stack : Bool} (h : Chained s L)
    (he : s.create t role parentPid stack = some s') :
    Chained s' (if stack then L ++ [t] else L) ∧ s'.currentThread = s.currentThread := by
  obtain ⟨-, hfree, hnew, -, -⟩ := create_spec he
  have hL : t ∉ L := fun hmem => hfree ((h.allocated t).mpr hmem)
  have hcur : s.currentThread ≠ t := fun e => hL (e ▸ h.current)
  refine ⟨⟨h.linked.create hL he, create_allocated h.allocated he, ?_, ?_⟩, hnew.current⟩
  · rw [hnew.current]
    split
    · exact mem_append_left _ h.current
    · exact h.current
  · rw [hnew.current, hnew.state hcur, hnew.reaped hcur, hnew.halted hcur]
    exact h.dead

theorem Chained.reap (h : Chained s (A ++ t :: B)) (ht : t ≠ s.currentThread) :
    Chained (s.reap t) (A ++ B) := by
  refine ⟨h.linked.reap, h.linked.reap_allocated h.allocated, ?_, fun hd => ?_⟩
  · have hcur : s.currentThread ∈ A ++ t :: B := h.current
    simp only [mem_append, mem_cons, ht.symm, false_or] at hcur ⊢
    exact hcur
  · exact (h.dead hd).imp_left (update_of_ne ht.symm _ _).trans

/-! ### Steps -/

/-- What a step that does not reschedule does to the list: nothing, or a thread is created at
its end, or one that is not current is removed. -/
inductive Relisted (c : ℕ) (L : List ℕ) : List ℕ → Prop
  | same : Relisted c L L
  | created (t : ℕ) : Relisted c L (L ++ [t])
  | removed (z : ℕ) (hz : c ≠ z) : Relisted c L (L.filter (· ≠ z))

/-- The step does not reschedule. -/
structure Stays (s : SchedState) (L : List ℕ) (s' : SchedState) (L' : List ℕ) : Prop where
  chained : Chained s' L'
  current : s'.currentThread = s.currentThread
  listed : Relisted s.currentThread L L'

theorem Chained.stays (h : Chained s L) (hc : s'.chain = s.chain)
    (hdead : ∀ t, s'.state t = .dead → s.state t = .dead) : Stays s L s' L := by
  refine ⟨h.congr hc hdead, ?_, .same⟩
  simp only [chain, Prod.mk.injEq] at hc
  exact hc.2.2.2.2.2.2.1

theorem Chained.create_stays {role : Role} {parentPid : Option ℤ} {stack : Bool}
    (h : Chained s L) (he : s.create t role parentPid stack = some s') :
    Stays s L s' (if stack then L ++ [t] else L) := by
  obtain ⟨hchained, hcur⟩ := h.create he
  refine ⟨hchained, hcur, ?_⟩
  split
  · exact .created t
  · exact .same

theorem Chained.waitPass_stays {parentPid : ℤ} {res : WaitResult} (h : Chained s L)
    (hh : s.halted s.currentThread = false) (he : s.waitPass parentPid = some (res, s')) :
    ∃ L', Stays s L s' L' := by
  have hsame : ∀ res', s.waitPass parentPid = some (res', s) → ∃ L', Stays s L s' L' := by
    intro res' hres
    obtain ⟨rfl, rfl⟩ := Prod.mk.inj (some.inj (hres.symm.trans he))
    exact ⟨L, h.stays rfl fun _ hd => hd⟩
  by_cases hp : parentPid < 0
  · exact hsame .noChild (by rw [SchedState.waitPass, if_pos hp])
  · rcases h.linked.waitPass_cases (Int.not_lt.mp hp) with ⟨z, hz, ⟨-, hdead, hre⟩, hsome⟩ | ⟨-, hsome⟩
    · obtain ⟨-, rfl⟩ := Prod.mk.inj (some.inj (hsome.symm.trans he))
      obtain ⟨A, B, rfl⟩ := append_of_mem hz
      have hc : z ≠ s.currentThread := by
        rintro rfl
        simpa [hre, hh] using h.dead hdead
      have hz : z ∉ A ∧ z ∉ B := by
        have hnodup := (perm_middle.nodup_iff.mp h.linked.dlist.nodup)
        simpa using (nodup_cons.mp hnodup).1
      have hkeep : ∀ C : List ℕ, z ∉ C → C.filter (· ≠ z) = C := by
        intro C hC
        refine filter_eq_self.mpr fun a ha => decide_eq_true ?_
        rintro rfl
        exact hC ha
      have hfilter : (A ++ z :: B).filter (· ≠ z) = A ++ B := by
        rw [filter_append, filter_cons_of_neg (by simp), hkeep A hz.1, hkeep B hz.2]
      exact ⟨A ++ B, h.reap hc, rfl, hfilter ▸ .removed z hc.symm⟩
    · exact hsame _ hsome

/-- The step calls `sched_resched_locked` in the state `u`. -/
structure Rescheds (s : SchedState) (op : Op) (L : List ℕ) (u s' : SchedState) : Prop where
  state : s.reschedState op = some u
  linked : Linked u L
  current : u.currentThread = s.currentThread
  resched : u.resched = some s'
  chained : Chained s' L

theorem Chained.rescheds (h : Chained s L) (hu : s.reschedState op = some u)
    (hc : u.chain = s.chain) (he : u.resched = some s') : Rescheds s op L u s' := by
  have hlinked := h.linked.congr hc
  simp only [chain, Prod.mk.injEq] at hc
  obtain ⟨-, -, -, -, -, halloc, hcur, -⟩ := hc
  exact ⟨hu, hlinked, hcur, he, hlinked.resched_chained (halloc ▸ h.allocated) (hcur ▸ h.current) he⟩

theorem Chained.boot_cases {configured : Bool} (h : Chained s L)
    (he : s.boot t configured = some s') :
    (∃ u, Rescheds s (.boot t configured) L u s') ∨
      s.reschedState (.boot t configured) = none ∧ ∃ L', Stays s L s' L' := by
  have hcreate : ∀ {role : Role} {parentPid : Option ℤ},
      (s.create t role parentPid true).map (fun v => { v with bootPc := v.bootPc + 1 }) =
        some s' → ∃ L', Stays s L s' L' := by
    intro role parentPid he
    obtain ⟨v, hv, rfl⟩ := map_eq_some_iff.mp he
    have hstays := h.create_stays hv
    exact ⟨_, hstays.chained.congr rfl fun _ hd => hd, hstays.current, hstays.listed⟩
  have hskip : some { s with bootPc := s.bootPc + 1 } = some s' → ∃ L', Stays s L s' L' := by
    intro he
    obtain rfl := some.inj he
    exact ⟨L, h.stays rfl fun _ hd => hd⟩
  rw [SchedState.boot] at he
  rw [reschedState]
  split at he
  · next hpc => exact .inr ⟨by simp [hpc], hcreate he⟩
  · next hpc =>
    refine .inr ⟨by simp [hpc], ?_⟩
    split at he
    · exact hcreate he
    · exact hskip he
  · next hpc =>
    refine .inr ⟨by simp [hpc], ?_⟩
    split at he
    · exact hcreate he
    · exact hskip he
  · next hpc =>
    exact .inl ⟨_, h.rescheds (if_pos hpc) rfl he⟩
  · cases he

/-- **What one step does** to the thread list and the current thread: it calls
`sched_resched_locked`, or the current thread goes on. -/
theorem Chained.step_cases (h : Chained s L) (hs : s.step op = some s') :
    (∃ u, Rescheds s op L u s') ∨ s.reschedState op = none ∧ ∃ L', Stays s L s' L' := by
  rw [SchedState.step] at hs
  split at hs
  · cases hs
  · next hhalt =>
    cases op with
    | boot t configured =>
      simp only [run] at hs
      split at hs
      · exact h.boot_cases hs
      · cases hs
    | create t parentPid stack => exact .inr ⟨rfl, _, h.create_stays hs⟩
    | yield => exact .inl ⟨s, h.rescheds rfl rfl hs⟩
    | sleep q => exact .inl ⟨_, h.rescheds rfl rfl hs⟩
    | sleepCond q cond =>
      cases cond with
      | true =>
        obtain rfl := some.inj hs
        exact .inr ⟨rfl, L, h.stays rfl fun _ hd => hd⟩
      | false => exact .inl ⟨_, h.rescheds rfl rfl hs⟩
    | wakeOne q =>
      obtain rfl := some.inj hs
      exact .inr ⟨rfl, L, h.stays wakeOne_chain fun _ => wakeOne_dead⟩
    | wakeAll q =>
      obtain ⟨v, hv, rfl⟩ := map_eq_some_iff.mp hs
      obtain ⟨hchain, hdead⟩ := wakeLoop_chain hv
      exact .inr ⟨rfl, L, h.stays hchain hdead⟩
    | setExitCode code =>
      obtain rfl := some.inj hs
      exact .inr ⟨rfl, L, h.stays rfl fun _ hd => hd⟩
    | exit => exact .inl ⟨_, h.rescheds rfl rfl hs⟩
    | waitChild parentPid =>
      have hhalted : s.halted s.currentThread = false := by simpa [Op.interrupt] using hhalt
      obtain ⟨⟨res, v⟩, hv, rfl⟩ := map_eq_some_iff.mp hs
      exact .inr ⟨rfl, h.waitPass_stays hhalted hv⟩
    | killUserThreads =>
      rw [run, h.linked.killUserThreads] at hs
      obtain rfl := some.inj hs
      exact .inr ⟨rfl, L, h.killed, rfl, .same⟩
    | setCurrentAspace pml4 =>
      obtain rfl := some.inj hs
      exact .inr ⟨rfl, L, h.stays rfl fun _ hd => hd⟩
    | enterUser =>
      obtain ⟨pml4, -, rfl⟩ := map_eq_some_iff.mp hs
      exact .inr ⟨rfl, L, h.stays rfl fun _ hd => hd⟩

theorem Chained.step (h : Chained s L) (hs : s.step op = some s') : ∃ L', Chained s' L' := by
  rcases h.step_cases hs with ⟨u, hu⟩ | ⟨-, L', hstays⟩
  · exact ⟨L, hu.chained⟩
  · exact ⟨L', hstays.chained⟩

theorem ReachableIf.chained {ok : SchedState → Op → Prop} (h : s.ReachableIf ok) :
    ∃ L, Chained s L := by
  refine Reach.invariant (I := fun s => ∃ L, Chained s L) h ?_ ?_
  · rintro _ ⟨t, pml4, ht, rfl⟩
    have hgood : Good (schedInit t pml4) [t] fun _ => [] := schedInit_good ht
    exact ⟨[t], hgood.linked, hgood.allocated, hgood.current, hgood.dead⟩
  · rintro s s' ⟨L, hL⟩ ⟨op, -, hs⟩
    exact hL.step hs

/-! ### Round robin -/

/-- The thread `x` waits for its turn and comes before `y`. -/
structure Watched (s : SchedState) (L : List ℕ) (x y : ℕ) : Prop where
  chained : Chained s L
  ahead : Ahead L s.currentThread x y
  waits : s.currentThread ≠ x

theorem Chained.watched {c : ℕ} (h : Chained s L) (hc : s.currentThread = c)
    (ha : Ahead L c x y) (hcx : c ≠ x) : Watched s L x y := by
  subst hc
  exact ⟨h, ha, hcx⟩

/-- The thread that a step selects is current after it. -/
theorem Selects.current (h : s.Selects op n) (hL : Chained s L) (hs : s.step op = some s') :
    Chained s' L ∧ s'.currentThread = n := by
  obtain ⟨-, hn, hnext⟩ := h
  obtain ⟨u, hu, hnext⟩ := bind_eq_some_iff.mp hnext
  rcases hL.step_cases hs with ⟨v, hv⟩ | ⟨hnone, -⟩
  · obtain rfl := some.inj (hu.symm.trans hv.state)
    obtain ⟨m, hm, hcur⟩ := resched_current hv.resched
    obtain rfl := some.inj (hm.symm.trans hnext)
    exact ⟨hv.chained, hcur.trans (if_neg hn)⟩
  · exact absurd (hnone.symm.trans hu) nofun

/-- **One step**: unless `x` is selected, it still comes before `y`. -/
theorem Watched.step (h : Watched s L x y) (hs : s.step op = some s') (hsel : ¬s.Selects op x)
    (hrun : ∀ u, s.reschedState op = some u → u.state x = .runnable)
    (hx : x ∈ s'.threads) (hy : y ∈ s'.threads) : ∃ L', Watched s' L' x y := by
  rcases h.chained.step_cases hs with ⟨u, hu⟩ | ⟨-, L', hstays⟩
  · obtain ⟨n, hn, hcur⟩ := resched_current hu.resched
    refine ⟨L, ?_⟩
    by_cases hn0 : n = 0
    · rw [if_pos hn0, hu.current] at hcur
      exact hu.chained.watched hcur h.ahead h.waits
    · rw [if_neg hn0] at hcur
      have hnx : x ≠ n := by
        rintro rfl
        exact hsel ⟨by simp [hs], hn0, by simp [hu.state, hn]⟩
      refine hu.chained.watched hcur ?_ hnx.symm
      obtain ⟨A, B, rfl, hsub⟩ := h.ahead
      rw [← hu.current] at hsub ⊢
      have hlinked : Linked u (A ++ u.currentThread :: B) := hu.current ▸ hu.linked
      exact Ahead.turn hsub (hlinked.find_of_nextThread hn hn0) (decide_eq_true (hrun u hu.state)) hnx
  · rw [hstays.chained.linked.threads_eq] at hx hy
    have hahead : Ahead L' s.currentThread x y := by
      obtain ⟨-, -, hlisted⟩ := hstays
      cases hlisted with
      | same => exact h.ahead
      | created t => exact h.ahead.append t
      | removed z hz =>
        have hne : ∀ {v}, v ∈ L.filter (· ≠ z) → v ≠ z := fun hv => by
          simpa using (mem_filter.mp hv).2
        exact h.ahead.filter hz (hne hx) (hne hy)
    exact ⟨L', hstays.chained.watched hstays.current hahead h.waits⟩

/-- While `x` comes first and can run, `y` is not selected. -/
theorem Watched.not_selects (h : Watched s L x y)
    (hrun : ∀ u, s.reschedState op = some u → u.state x = .runnable) : ¬s.Selects op y := by
  rintro ⟨hstep, hy, hnext⟩
  obtain ⟨s', hs⟩ := isSome_iff_exists.mp hstep
  obtain ⟨u, hu, hnext⟩ := bind_eq_some_iff.mp hnext
  rcases h.chained.step_cases hs with ⟨v, hv⟩ | ⟨hnone, -⟩
  · obtain rfl := some.inj (hu.symm.trans hv.state)
    obtain ⟨A, B, rfl, hsub⟩ := h.ahead
    rw [← hv.current] at hsub
    have hlinked : Linked u (A ++ u.currentThread :: B) := hv.current ▸ hv.linked
    have hnodup : (B ++ (A ++ [u.currentThread])).Nodup := by
      refine List.Perm.nodup_iff ?_ |>.mpr hlinked.dlist.nodup
      simpa using @perm_append_comm _ B (A ++ [u.currentThread])
    exact Ahead.find_ne hsub hnodup (decide_eq_true (hrun u hu)) (hlinked.find_of_nextThread hnext hy)
  · exact absurd (hnone.symm.trans hu) nofun

/-- **Round robin**: between two selections of `y`, a thread `x` that can run whenever
`sched_resched_locked` is called is selected.  Both stay on the list, so that their blocks
do not come to hold other threads. -/
theorem round_robin {s₀ s₁ : SchedState} {op₀ : Op} {ops : List Op} (hxy : x ≠ y)
    (h₀ : s₀.ReachableIf fun _ _ => True) (hy₀ : s₀.Selects op₀ y)
    (h₁ : s₀.step op₀ = some s₁) (hrun : runAll step s₁ ops = some s) (hy : s.Selects op y)
    (hthreads : ∀ p ∈ trail step s₁ ops ++ [(s, op)], x ∈ p.1.threads ∧ y ∈ p.1.threads)
    (hrunnable : ∀ p ∈ trail step s₁ ops ++ [(s, op)], ∀ u ∈ p.1.reschedState p.2,
      u.state x = .runnable ∨ p.1.currentThread = x) :
    ∃ p ∈ trail step s₁ ops, p.1.Selects p.2 x := by
  obtain ⟨L, hL⟩ := h₀.chained
  obtain ⟨hL₁, hcur⟩ := hy₀.current hL h₁
  have hwatched : ∃ L, Watched s₁ L x y := by
    obtain ⟨a, ha⟩ := trail_head op hrun
    have hmem := hthreads _ ha
    rw [hL₁.linked.threads_eq] at hmem
    exact ⟨L, hL₁.watched hcur (Ahead.of_mem hmem.2 hmem.1 hxy) hxy.symm⟩
  clear h₁ hcur hL₁
  induction ops generalizing s₁ with
  | nil =>
    obtain rfl := some.inj hrun
    obtain ⟨L, hw⟩ := hwatched
    refine absurd hy (hw.not_selects fun u hu => ?_)
    exact (hrunnable (s₁, op) (by simp [trail]) u hu).resolve_right hw.waits
  | cons a ops ih =>
    obtain ⟨L, hw⟩ := hwatched
    obtain ⟨s₂, hs₂, hrun⟩ := bind_eq_some_iff.mp hrun
    have htrail : trail step s₁ (a :: ops) = (s₁, a) :: trail step s₂ ops := by
      simp [trail, hs₂]
    rw [htrail] at hthreads hrunnable ⊢
    by_cases hsel : s₁.Selects a x
    · exact ⟨(s₁, a), by simp, hsel⟩
    · have hnow : ∀ u, s₁.reschedState a = some u → u.state x = .runnable := fun u hu =>
        (hrunnable (s₁, a) (by simp) u hu).resolve_right hw.waits
      obtain ⟨b, hb⟩ := trail_head op hrun
      have hmem := hthreads _ (mem_cons_of_mem _ hb)
      obtain ⟨p, hp, hpx⟩ := ih hrun (fun p hp => hthreads p (mem_cons_of_mem _ hp))
        (fun p hp => hrunnable p (mem_cons_of_mem _ hp))
        (hw.step hs₂ hsel hnow hmem.1 hmem.2)
      exact ⟨p, mem_cons_of_mem _ hp, hpx⟩

/-- The kernel has started the idle thread 2 and the thread 3. -/
def twoStarted : SchedState :=
  (runAll step (schedInit 1 0) [.boot 2 true, .boot 3 true, .boot 0 false]).getD (schedInit 1 0)

/-- `kernel_main` has exited, and the idle thread is selected. -/
def idleSelected : SchedState := (twoStarted.step (.boot 0 false)).getD twoStarted

theorem twoStarted_reachable : twoStarted.ReachableIf fun _ _ => True := by
  have hinit : Reach (fun s => ∃ t pml4, t ≠ 0 ∧ s = schedInit t pml4)
      (fun s s' => ∃ op, step s op = some s') (schedInit 1 0) := .init ⟨1, 0, by decide, rfl⟩
  exact (hinit.runAll_getD _).mono fun _ _ ⟨op, hs⟩ => ⟨op, trivial, hs⟩

theorem round_robin_idleSelected :
    twoStarted.Selects (.boot 0 false) 2 ∧
      ∃ p ∈ trail step idleSelected [.yield], p.1.Selects p.2 3 := by
  have hsome : (twoStarted.step (.boot 0 false)).isSome = true := by decide +kernel
  have hfirst : twoStarted.step (.boot 0 false) = some idleSelected := by
    rw [idleSelected]
    obtain ⟨s, hs⟩ := isSome_iff_exists.mp hsome
    rw [hs, getD_some]
  have hsecond : (runAll step idleSelected [.yield]).isSome = true := by decide +kernel
  obtain ⟨s, hs⟩ := isSome_iff_exists.mp hsecond
  have hget : s = (runAll step idleSelected [.yield]).getD idleSelected := by rw [hs]; rfl
  subst hget
  have hselects : twoStarted.Selects (.boot 0 false) 2 := by decide +kernel
  have hagain : ((runAll step idleSelected [.yield]).getD idleSelected).Selects .yield 2 := by
    decide +kernel
  refine ⟨hselects, round_robin (by decide) twoStarted_reachable hselects hfirst hs hagain ?_ ?_⟩
  · decide +kernel
  · decide +kernel

end SchedState

end Neptune
