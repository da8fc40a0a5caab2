import Mathlib.Data.List.Find
import Mathlib.Data.List.Nodup
import Neptune.Sched.Lists
import Neptune.Sched.Steps

/-!
# The calls of the machine on the thread list

`Machine` and `SchedState` are two models of `sched.c`: one has numbered threads and the boundary
of the kernel, the other the blocks of the threads and the links between them.  With the block
`a i` for the thread `i` the calls that give up the processor do the same in both.

## Main definitions

* `SchedState.Agrees` — the same threads are in the same states, and the same one runs.

## Main results

* `SchedState.Agrees.init` — the states after `sched_init` agree.
* `SchedState.Agrees.schedCall` — a call of the machine is an operation of the scheduler.
-/

namespace Neptune

open Function List Option

/-- What a call is for the scheduler. -/
def Machine.Call.op : Machine.Call → SchedState.Op
  | .yield | .preempt => .yield
  | .sleep q => .sleep q
  | .sleepCond q cond => .sleepCond q cond
  | .exit => .exit

namespace SchedState

/-- The same threads are in the same states, and the same one runs. -/
structure Agrees (a : ℕ → ℕ) (m : Machine) (s : SchedState) : Prop where
  linked : Linked s (m.order.map a)
  current : m.current ∈ m.order
  currentThread : s.currentThread = a m.current
  state : ∀ i ∈ m.order, s.state (a i) = (m.th i).state

namespace Agrees

variable {a : ℕ → ℕ} {m m' : Machine} {s : SchedState} {i n : ℕ}

/-- The states after `sched_init` agree. -/
theorem init {t : ℕ} (ht : t ≠ 0) (pml4 : ℕ) :
    Agrees (fun _ => t) Machine.booted (schedInit t pml4) where
  linked := ⟨⟨⟨rfl, ht, rfl⟩, ⟨rfl, ht, rfl⟩, nodup_singleton t⟩, rfl⟩
  current := mem_cons_self
  currentThread := rfl
  state _ _ := if_pos rfl

theorem inj (h : Agrees a m s) {j : ℕ} (hi : i ∈ m.order) (hj : j ∈ m.order) (he : a i = a j) :
    i = j := inj_on_of_nodup_map h.linked.dlist.nodup hi hj he

/-- A change of the machine that the scheduler does not see. -/
theorem congr (h : Agrees a m s) (ho : m'.order = m.order) (hc : m'.current = m.current)
    (hst : ∀ i, (m'.th i).state = (m.th i).state) : Agrees a m' s where
  linked := ho ▸ h.linked
  current := by rw [ho, hc]; exact h.current
  currentThread := hc ▸ h.currentThread
  state i hi := (h.state i (ho ▸ hi)).trans (hst i).symm

/-- A thread changes its state. -/
theorem set (h : Agrees a m s) (hi : i ∈ m.order) {f : Thread → Thread} {st : ThreadState}
    (hf : (f (m.th i)).state = st) : Agrees a (m.modify i f) (s.setState (a i) st) := by
  refine ⟨⟨h.linked.dlist, h.linked.count⟩, h.current, h.currentThread, fun j hj => ?_⟩
  rw [setState_state]
  rcases eq_or_ne j i with rfl | hne
  · rw [update_self, Machine.modify_th_self, hf]
  · rw [update_of_ne (fun he => hne (h.inj hj hi he)), Machine.modify_th_of_ne m f hne, h.state j hj]

theorem switchTo (h : Agrees a m s) (hn : n ∈ m.order) :
    Agrees a (m.switchTo n) (s.switchTo (a n)) := by
  have hout : Agrees a (m.modify m.current (Thread.switchOut m.ifFlag)) { s with
      state := if s.state s.currentThread = .running then update s.state s.currentThread .runnable
        else s.state } := by
    have hset := h.set h.current (f := Thread.switchOut m.ifFlag) rfl
    rw [setState, Thread.switchOut, ← h.state _ h.current, ← h.currentThread] at hset
    split
    · next hr => rwa [if_pos hr] at hset
    · next hr => rwa [if_neg hr, update_eq_self] at hset
  have hin := hout.set hn (f := Thread.switchIn) rfl
  exact ⟨⟨hin.linked.dlist, hin.linked.count⟩, hn, rfl, hin.state⟩

/-- **The two models look for the next thread in the same order**, and switch to the same one. -/
theorem resched (h : Agrees a m s) :
    ∃ s', s.resched = some s' ∧ Agrees a m.schedReschedLocked s' := by
  obtain ⟨A, B, hsplit, hA⟩ := eq_append_cons_of_mem h.current
  have hscan : m.scanOrder = B ++ (A ++ [m.current]) := by
    have hne : ∀ i ∈ A, decide (i ≠ m.current) = true := fun i hi =>
      decide_eq_true fun he => hA (he ▸ hi)
    rw [Machine.scanOrder, hsplit, dropWhile_append_of_pos hne, takeWhile_append_of_pos hne]
    simp
  have hmem : ∀ i ∈ m.scanOrder, i ∈ m.order := fun i hi =>
    (Machine.mem_scanOrder hi).elim id fun he => he ▸ h.current
  have hmap : scanOrder (A.map a) s.currentThread (B.map a) = m.scanOrder.map a := by
    simp [scanOrder, hscan, h.currentThread]
  have hl : Linked s (A.map a ++ s.currentThread :: B.map a) := by
    rw [h.currentThread, ← map_cons, ← map_append, ← hsplit]
    exact h.linked
  obtain ⟨hstart, hsearch⟩ := hl.search
  have hfind : ((m.scanOrder.map a).find? fun t => decide (s.state t = .runnable)) =
      m.nextThread.map a := by
    rw [find?_map, Machine.nextThread]
    exact congrArg _ (find?_congr fun i hi => by rw [comp_apply, h.state i (hmem i hi)])
  rw [SchedState.resched]
  simp only [if_neg hstart, hsearch, hmap, hfind, map_some, some.injEq, exists_eq_left']
  rw [Machine.schedReschedLocked]
  cases hn : m.nextThread with
  | none =>
    rw [map_none, getD_none, if_pos rfl]
    dsimp only
    split
    · exact ⟨⟨h.linked.dlist, h.linked.count⟩, h.current, h.currentThread, h.state⟩
    · exact h
  | some n =>
    have hno := hmem n (mem_of_find?_eq_some hn)
    rw [map_some, getD_some, if_neg (h.linked.ne_zero _ (mem_map_of_mem hno)), h.currentThread]
    dsimp only
    by_cases hc : n = m.current
    · rw [if_pos hc, if_pos (congrArg a hc)]
      exact h
    · rw [if_neg hc, if_neg fun he => hc (h.inj hno h.current he)]
      exact h.switchTo hno

theorem enqueue {q : ℕ} (h : Agrees a m s) (he : m.enqueue q = some m') :
    Agrees a m' (s.enqueue q) := by
  have hset := h.set h.current (f := Thread.block) rfl
  rw [← h.currentThread] at hset
  have hq : Agrees a (m.modify m.current Thread.block) (s.enqueue q) :=
    ⟨⟨hset.linked.dlist, hset.linked.count⟩, hset.current, hset.currentThread, hset.state⟩
  rw [Machine.enqueue] at he
  split at he
  · split at he
    · obtain rfl := some.inj he
      exact hq.congr rfl rfl (Machine.modify_field _ _ _ rfl)
    · cases he
  · obtain rfl := some.inj he
    exact hq.congr rfl rfl fun _ => rfl

theorem callBody {c : Machine.Call} (h : Agrees a m s) (he : m.callBody c = some m') :
    ∃ s', Agrees a m' s' ∧ s.run c.op = if c.reschedules then s'.resched else some s' := by
  cases c with
  | yield | preempt => exact ⟨s, some.inj he ▸ h, rfl⟩
  | sleep q => exact ⟨_, h.enqueue he, rfl⟩
  | sleepCond q cond =>
    cases cond with
    | true => exact ⟨s, some.inj he ▸ h, rfl⟩
    | false => exact ⟨_, h.enqueue he, rfl⟩
  | exit =>
    obtain rfl := some.inj he
    exact ⟨_, h.set h.current rfl, by rw [← h.currentThread]; rfl⟩

/-- **A call of the machine is an operation of the scheduler**: afterwards the same thread has the
processor in both models. -/
theorem schedCall {c : Machine.Call} (h : Agrees a m s) (hc : m.schedCall c = some m') :
    ∃ s', s.run c.op = some s' ∧ Agrees a m' s' := by
  obtain ⟨m₁, hl, rfl⟩ := map_eq_some_iff.mp hc
  obtain ⟨m₂, hacq, hbody⟩ := bind_eq_some_iff.mp hl
  have henter : Agrees a (m.enterCall c) s := by
    cases c with
    | preempt => exact h.congr rfl rfl (Machine.modify_field _ _ _ rfl)
    | yield | sleep | sleepCond | exit => exact h
  have h₂ : Agrees a m₂ s := by
    obtain ⟨-, rfl⟩ := Machine.spinlockAcquireIrqsave_spec hacq
    exact henter.congr rfl rfl (Machine.modify_field _ _ _ rfl)
  obtain ⟨s₁, h₁, hrun⟩ := h₂.callBody hbody
  have hleave : ∀ {m u}, Agrees a m u → Agrees a m.leaveSched u := fun {m _} hu => by
    have hleft := Machine.leaveSched_spec m
    exact hu.congr (by rw [hleft.eq]) (by rw [hleft.eq]) hleft.state
  rw [hrun]
  split
  · obtain ⟨s', hs', h'⟩ := h₁.resched
    exact ⟨s', hs', hleave h'⟩
  · exact ⟨s₁, rfl, hleave h₁⟩

end Agrees

end SchedState

end Neptune
