import Mathlib.Data.Int.Notation
import Neptune.Lib.Segment
import Neptune.Sched.Machine

/-!
# The thread list and the wait queues

`sched.c` keeps its threads in a doubly linked list and in singly linked wait
queues.  Here every field of `struct thread` is a function of the address of the
thread, and 0 is `NULL`.  A thread block is allocated or not; a new thread gets any
block that is not allocated.

An operation that holds `sched_lock` from beginning to end is one step; a step that
follows a null pointer or does not end has no successor.  `sched_wait_child` takes
the lock once for every pass over the list, and a pass is a step.

## Main definitions

* `SchedState` — threads, list, queues and CR3.
* `SchedState.listAppend`, `SchedState.listRemove` — the list.
* `SchedState.resched` — `sched_resched_locked`.
* `SchedState.waitPass` — a pass of `sched_wait_child`.
* `SchedState.step`, `SchedState.ReachableIf` — the operations, and runs of them.
-/

namespace Neptune

/-- What a thread runs. -/
inductive Role
  /-- `kernel_main`. -/
  | boot
  /-- `idle_thread`. -/
  | idle
  | other
  deriving DecidableEq, Repr

/-- The scheduler.  A field that takes an address is one of `struct thread`, one that
takes the number of a queue is one of `wait_queue_t`. -/
structure SchedState where
  next : ℕ → ℕ
  prev : ℕ → ℕ
  waitNext : ℕ → ℕ
  state : ℕ → ThreadState
  aspace : ℕ → ℕ
  pid : ℕ → ℤ
  ppid : ℕ → ℤ
  exitCode : ℕ → ℤ
  isUser : ℕ → Bool
  reaped : ℕ → Bool
  role : ℕ → Role
  /-- The thread is between `sched_set_current_aspace` and the load of CR3 in
  `arch_enter_user`, which it calls with this address. -/
  entering : ℕ → Option ℕ
  /-- The thread is in the endless loop that ends `sched_exit`. -/
  halted : ℕ → Bool
  allocated : ℕ → Bool
  threadsHead : ℕ
  threadsTail : ℕ
  threadCount : ℕ
  currentThread : ℕ
  nextPid : ℤ
  head : ℕ → ℕ
  tail : ℕ → ℕ
  /-- The threads that have been put on a queue, in turn. -/
  entered : ℕ → List ℕ
  /-- The threads that have been taken off a queue, in turn. -/
  left : ℕ → List ℕ
  cr3 : ℕ
  /-- How far `kernel_main` is. -/
  bootPc : ℕ

namespace SchedState

open Function (update)

/-- The threads on the list, from the head. -/
def threads (s : SchedState) : List ℕ := walk s.next s.threadCount s.threadsHead

/-- The threads on a queue, from the head. -/
def queue (s : SchedState) (q : ℕ) : List ℕ := walk s.waitNext s.threadCount (s.head q)

/-! ### The list -/

def setState (s : SchedState) (t : ℕ) (st : ThreadState) : SchedState :=
  { s with state := update s.state t st }

@[simp] theorem setState_state (s : SchedState) (t : ℕ) (st : ThreadState) :
    (s.setState t st).state = update s.state t st := rfl

/-- `list_append`. -/
def listAppend (s : SchedState) (t : ℕ) : SchedState :=
  { s with
    next := if s.threadsTail ≠ 0 then update (update s.next t 0) s.threadsTail t
      else update s.next t 0
    prev := update s.prev t s.threadsTail
    threadsHead := if s.threadsTail ≠ 0 then s.threadsHead else t
    threadsTail := t
    threadCount := s.threadCount + 1 }

/-- `list_remove`. -/
def listRemove (s : SchedState) (t : ℕ) : SchedState :=
  { s with
    -- the neighbours are joined before the links of the thread itself are cleared
    next := update (if s.prev t ≠ 0 then update s.next (s.prev t) (s.next t) else s.next) t 0
    prev := update (if s.next t ≠ 0 then update s.prev (s.next t) (s.prev t) else s.prev) t 0
    threadsHead := if s.prev t ≠ 0 then s.threadsHead else s.next t
    threadsTail := if s.next t ≠ 0 then s.threadsTail else s.prev t
    threadCount := s.threadCount - 1 }

/-- `kalloc_zero` of a thread. -/
def kallocThread (s : SchedState) (t : ℕ) : SchedState :=
  { s with
    next := update s.next t 0
    prev := update s.prev t 0
    waitNext := update s.waitNext t 0
    state := update s.state t .unused
    aspace := update s.aspace t 0
    pid := update s.pid t 0
    ppid := update s.ppid t 0
    exitCode := update s.exitCode t 0
    isUser := update s.isUser t false
    reaped := update s.reaped t false
    role := update s.role t .other
    entering := update s.entering t none
    halted := update s.halted t false
    allocated := update s.allocated t true }

/-- `thread_alloc`. -/
def threadAlloc (s : SchedState) (t : ℕ) : SchedState := (s.kallocThread t).listAppend t

def kfreeThread (s : SchedState) (t : ℕ) : SchedState :=
  { s with allocated := update s.allocated t false }

/-! ### Creating threads -/

/-- What `sched_create` and `sched_create_user` set; `parentPid` is that of a user
thread. -/
def initThread (s : SchedState) (t : ℕ) (role : Role) : Option ℤ → SchedState
  | none =>
    { s with
      state := update s.state t .runnable
      role := update s.role t role
      reaped := update s.reaped t true }
  | some parentPid =>
    { s with
      state := update s.state t .runnable
      role := update s.role t role
      pid := update s.pid t s.nextPid
      ppid := update s.ppid t parentPid
      isUser := update s.isUser t true
      reaped := update s.reaped t false
      nextPid := s.nextPid + 1 }

/-- `sched_create` and `sched_create_user`, in the block `t`; without a stack the thread is
taken off the list again. -/
def create (s : SchedState) (t : ℕ) (role : Role) (parentPid : Option ℤ) (stack : Bool) :
    Option SchedState :=
  if t = 0 ∨ s.allocated t then none
  else
    let s := (s.threadAlloc t).initThread t role parentPid
    some (if stack then s else (s.listRemove t).kfreeThread t)

/-! ### Choosing the next thread -/

/-- The thread after this one, going round. -/
def succ (s : SchedState) (t : ℕ) : ℕ := if s.next t = 0 then s.threadsHead else s.next t

/-- The search of `sched_resched_locked`; 0 if it comes back to where it began. -/
def search (s : SchedState) (start : ℕ) : ℕ → ℕ → Option ℕ
  | 0, _ => none
  | fuel + 1, t =>
    if t = 0 then none
    else if s.state t = .runnable then some t
    else if s.succ t = start then some 0
    else s.search start fuel (s.succ t)

/-- The switch to another thread. -/
def switchTo (s : SchedState) (t : ℕ) : SchedState :=
  let old := s.currentThread
  { s with
    state := update (if s.state old = .running then update s.state old .runnable else s.state) t
      .running
    currentThread := t
    cr3 := if s.aspace t ≠ 0 then s.aspace t else s.cr3 }

/-- `sched_resched_locked`. -/
def resched (s : SchedState) : Option SchedState :=
  let start := s.succ s.currentThread
  (if start = 0 then some 0 else s.search start s.threadCount start).map fun next =>
    if next = 0 then
      if s.state s.currentThread = .dead then
        { s with halted := update s.halted s.currentThread true }
      else s
    else if next = s.currentThread then s
    else s.switchTo next

/-- `sched_exit`. -/
def exit (s : SchedState) : Option SchedState := (s.setState s.currentThread .dead).resched

/-! ### Wait queues -/

/-- Block the current thread at the end of a queue. -/
def enqueue (s : SchedState) (q : ℕ) : SchedState :=
  let t := s.currentThread
  { s.setState t .blocked with
    waitNext := if s.tail q ≠ 0 then update (update s.waitNext t 0) (s.tail q) t
      else update s.waitNext t 0
    head := update s.head q (if s.tail q ≠ 0 then s.head q else t)
    tail := update s.tail q t
    entered := update s.entered q (s.entered q ++ [t]) }

/-- `sched_sleep`. -/
def sleep (s : SchedState) (q : ℕ) : Option SchedState := (s.enqueue q).resched

/-- `sched_sleep_cond`, with what its condition says. -/
def sleepCond (s : SchedState) (q : ℕ) (cond : Bool) : Option SchedState :=
  if cond then some s else s.sleep q

/-- `sched_wake_one`. -/
def wakeOne (s : SchedState) (q : ℕ) : SchedState :=
  let t := s.head q
  if t = 0 then s
  else
    { s.setState t .runnable with
      head := update s.head q (s.waitNext t)
      tail := if s.waitNext t = 0 then update s.tail q 0 else s.tail
      waitNext := update s.waitNext t 0
      left := update s.left q (s.left q ++ [t]) }

/-- The loop of `sched_wake_all`. -/
def wakeLoop (s : SchedState) (q : ℕ) : ℕ → ℕ → Option SchedState
  | 0, _ => none
  | fuel + 1, t =>
    if t = 0 then some s
    else
      SchedState.wakeLoop
        { s.setState t .runnable with
          waitNext := update s.waitNext t 0
          left := update s.left q (s.left q ++ [t]) } q fuel (s.waitNext t)

/-- `sched_wake_all`. -/
def wakeAll (s : SchedState) (q : ℕ) : Option SchedState :=
  (s.wakeLoop q (s.threadCount + 1) (s.head q)).map fun s =>
    { s with head := update s.head q 0, tail := update s.tail q 0 }

/-! ### Waiting for children and killing -/

/-- The pass of `sched_wait_child` over the list: the child to be reaped, or 0, and whether
there is a child. -/
def waitScan (s : SchedState) (parentPid : ℤ) : ℕ → ℕ → Bool → Option (ℕ × Bool)
  | 0, _, _ => none
  | fuel + 1, t, hasChild =>
    if t = 0 then some (0, hasChild)
    else if s.isUser t ∧ s.ppid t = parentPid then
      if s.state t = .dead ∧ s.reaped t = false then some (t, true)
      else s.waitScan parentPid fuel (s.next t) true
    else s.waitScan parentPid fuel (s.next t) hasChild

/-- What a pass comes to. -/
inductive WaitResult
  /-- The call returns a child and its exit code. -/
  | reaped (pid code : ℤ)
  /-- The call returns -1. -/
  | noChild
  /-- The call yields and makes another pass. -/
  | again
  deriving DecidableEq, Repr

/-- Take a dead child off the list and free it. -/
def reap (s : SchedState) (t : ℕ) : SchedState :=
  ({ s with reaped := update s.reaped t true }.listRemove t).kfreeThread t

/-- A pass of `sched_wait_child`. -/
def waitPass (s : SchedState) (parentPid : ℤ) : Option (WaitResult × SchedState) :=
  if parentPid < 0 then some (.noChild, s)
  else
    (s.waitScan parentPid (s.threadCount + 1) s.threadsHead false).map fun r =>
      if r.1 ≠ 0 then (.reaped (s.pid r.1) (s.exitCode r.1), s.reap r.1)
      else if r.2 then (.again, s)
      else (.noChild, s)

/-- Kill a thread. -/
def kill (s : SchedState) (t : ℕ) : SchedState :=
  { s with
    state := update s.state t .dead
    aspace := update s.aspace t 0
    reaped := update s.reaped t true }

/-- The loop of `sched_kill_user_threads`. -/
def killLoop (s : SchedState) : ℕ → ℕ → Option SchedState
  | 0, _ => none
  | fuel + 1, t =>
    if t = 0 then some s
    else if s.aspace t ≠ 0 then (s.kill t).killLoop fuel (s.next t)
    else s.killLoop fuel (s.next t)

/-- `sched_kill_user_threads`. -/
def killUserThreads (s : SchedState) : Option SchedState :=
  s.killLoop (s.threadCount + 1) s.threadsHead

/-! ### Address spaces -/

/-- `sched_set_current_aspace`, called with what `arch_enter_user` is called with next. -/
def setCurrentAspace (s : SchedState) (pml4 : ℕ) : SchedState :=
  { s with
    aspace := update s.aspace s.currentThread pml4
    entering := update s.entering s.currentThread (some pml4) }

/-- The load of CR3 in `arch_enter_user`. -/
def enterUser (s : SchedState) : Option SchedState :=
  (s.entering s.currentThread).map fun pml4 =>
    { s with
      cr3 := if pml4 ≠ 0 then pml4 else s.cr3
      entering := update s.entering s.currentThread none }

/-! ### Runs -/

/-- `sched_init`, with the boot thread in the block `t` on the page tables `pml4`. -/
def schedInit (t pml4 : ℕ) : SchedState where
  next := fun _ => 0
  prev := fun _ => 0
  waitNext := fun _ => 0
  state := fun i => if i = t then .running else .unused
  aspace := fun _ => 0
  pid := fun _ => 0
  ppid := fun _ => 0
  exitCode := fun _ => 0
  isUser := fun _ => false
  reaped := fun i => decide (i = t)
  role := fun i => if i = t then .boot else .other
  entering := fun _ => none
  halted := fun _ => false
  allocated := fun i => decide (i = t)
  threadsHead := t
  threadsTail := t
  threadCount := 1
  currentThread := t
  nextPid := 1
  head := fun _ => 0
  tail := fun _ => 0
  entered := fun _ => []
  left := fun _ => []
  cr3 := pml4
  bootPc := 0

/-- What `kernel_main` does after `sched_init`: the idle thread, the terminal and the first
user thread if they are configured, and `sched_start`. -/
def boot (s : SchedState) (t : ℕ) (configured : Bool) : Option SchedState :=
  let next (s : SchedState) : SchedState := { s with bootPc := s.bootPc + 1 }
  match s.bootPc with
  | 0 => (s.create t .idle none true).map next
  | 1 => if configured then (s.create t .other none true).map next else some (next s)
  | 2 => if configured then (s.create t .other (some 0) true).map next else some (next s)
  | 3 => (next s).exit
  | _ => none

/-- The operations. -/
inductive Op
  /-- `kernel_main` goes on; a thread that it creates gets the block `t`. -/
  | boot (t : ℕ) (configured : Bool)
  | create (t : ℕ) (parentPid : Option ℤ) (stack : Bool)
  | yield
  | sleep (q : ℕ)
  | sleepCond (q : ℕ) (cond : Bool)
  | wakeOne (q : ℕ)
  | wakeAll (q : ℕ)
  | setExitCode (code : ℤ)
  | exit
  | waitChild (parentPid : ℤ)
  | killUserThreads
  | setCurrentAspace (pml4 : ℕ)
  | enterUser
  deriving DecidableEq, Repr

/-- What an interrupt can do, also while the current thread halts. -/
def Op.interrupt : Op → Bool
  | .yield | .wakeOne _ | .wakeAll _ => true
  | _ => false

def run (s : SchedState) : Op → Option SchedState
  | .boot t configured =>
    if s.role s.currentThread = .boot then s.boot t configured else none
  | .create t parentPid stack => s.create t .other parentPid stack
  | .yield => s.resched
  | .sleep q => s.sleep q
  | .sleepCond q cond => s.sleepCond q cond
  | .wakeOne q => some (s.wakeOne q)
  | .wakeAll q => s.wakeAll q
  | .setExitCode code => some { s with exitCode := update s.exitCode s.currentThread code }
  | .exit => s.exit
  | .waitChild parentPid => (s.waitPass parentPid).map Prod.snd
  | .killUserThreads => s.killUserThreads
  | .setCurrentAspace pml4 => some (s.setCurrentAspace pml4)
  | .enterUser => s.enterUser

def step (s : SchedState) (op : Op) : Option SchedState :=
  if s.halted s.currentThread && !op.interrupt then none else s.run op

/-- The states that runs reach whose steps all meet the condition. -/
def ReachableIf (ok : SchedState → Op → Prop) : SchedState → Prop :=
  Reach (fun s => ∃ t pml4, t ≠ 0 ∧ s = schedInit t pml4)
    fun s s' => ∃ op, ok s op ∧ s.step op = some s'

end SchedState

end Neptune
