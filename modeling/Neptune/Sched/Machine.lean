import Mathlib.Data.List.Basic
import Neptune.Lib.Runs

/-!
# The processor, the scheduler and the ways in and out of the kernel

One processor runs the threads of `sched.c`.  The state is what the threads
share: the GS bases, the interrupt flag, the per-CPU slot at `gs:0x8`, the lock
of the scheduler with its one saved-flags field, and the thread list.  A step is
what the thread that has the processor does next, or an interrupt.

A call into the scheduler is one step that may end on another thread: the caller
stays suspended inside `sched_resched_locked`, and the thread that comes back
from its own earlier call, or starts in `thread_trampoline`, releases the lock.

Instructions run with interrupts off, or touch nothing that other steps share,
between the points modelled here.  Waking or enqueueing behind a thread that has
been freed is undefined behaviour, and such a step has no successor.

## Main definitions

* `Thread`, `Machine` — the state.
* `Machine.schedReschedLocked`, `Machine.schedCall` — the scheduler.
* `Machine.cpuStep`, `Machine.lockedStep`, `Machine.step` — the transitions.
* `Machine.booted`, `Machine.ReachableIf` — the machine after `sched_init`, and runs.
-/

namespace Neptune

/-- What the GS base points to. -/
inductive GsBase
  /-- `bsp_cpu_data`. -/
  | percpu
  /-- The user's base. -/
  | user
  deriving DecidableEq, Repr

/-- `enum thread_state`. -/
inductive ThreadState
  | unused | runnable | running | blocked | dead
  deriving DecidableEq, Repr

/-- Where a thread is with respect to the kernel boundary. -/
inductive Path
  /-- In the kernel, not on behalf of user code. -/
  | kernel
  /-- Running user code. -/
  | user
  /-- Inside `syscall_entry`, entered with this user RSP. -/
  | fast (rsp : ℕ)
  /-- Inside `isr_syscall`. -/
  | int80
  /-- Inside `exception_handler`, entered from user code. -/
  | exception
  /-- Inside `sched_exit`, which it never leaves; `side` is the GS base that was
  active on the path it came from. -/
  | exited (side : GsBase)
  deriving DecidableEq, Repr

/-- The GS base that the code on a path is written for: only `syscall_entry` and
`arch_enter_user` execute `swapgs`. -/
def Path.side : Path → GsBase
  | .kernel => .percpu
  | .user => .user
  | .fast _ => .percpu
  | .int80 => .user
  | .exception => .user
  | .exited side => side

/-- Kernel code that may call the scheduler and go on. -/
def Path.inKernel : Path → Bool
  | .kernel => true
  | .fast _ => true
  | .int80 => true
  | _ => false

/-- `struct thread`, as far as the scheduler uses it, and where its code is. -/
structure Thread where
  state : ThreadState
  isUser : Bool
  /-- `aspace` is not zero. -/
  hasAspace : Bool
  pid : ℕ
  ppid : ℕ
  reaped : Bool
  waitNext : Option ℕ
  /-- The interrupt flag in `ctx.rflags`. -/
  ctxIf : Bool
  path : Path
  /-- Preempt trampolines it still has to return from. -/
  tramps : ℕ
  /-- While inside a scheduler call: the interrupt flag before the call. -/
  call : Option Bool
  /-- In the halt loop of `sched_exit`. -/
  halted : Bool
  deriving DecidableEq, Repr

namespace Thread

def block (t : Thread) : Thread := { t with state := .blocked, waitNext := none }

def linkTo (i : ℕ) (t : Thread) : Thread := { t with waitNext := some i }

def wake (t : Thread) : Thread := { t with state := .runnable, waitNext := none }

def reap (t : Thread) : Thread := { t with reaped := true }

def die (t : Thread) : Thread := { t with state := .dead, path := .exited t.path.side }

def halt (t : Thread) : Thread := { t with halted := true, call := none }

def startCall (before : Bool) (t : Thread) : Thread := { t with call := some before }

def endCall (t : Thread) : Thread := { t with call := none }

/-- A running thread that is switched away from stays runnable. -/
def switchOut (rflagsIf : Bool) (t : Thread) : Thread :=
  { t with state := if t.state = .running then .runnable else t.state, ctxIf := rflagsIf }

def switchIn (t : Thread) : Thread := { t with state := .running }

def goTo (path : Path) (t : Thread) : Thread := { t with path := path }

def setAspace (t : Thread) : Thread := { t with hasAspace := true }

def pushTramp (t : Thread) : Thread := { t with tramps := t.tramps + 1 }

def popTramp (t : Thread) : Thread := { t with tramps := t.tramps - 1 }

end Thread

/-- `wait_queue_t`. -/
structure WaitQueue where
  head : Option ℕ
  tail : Option ℕ
  deriving DecidableEq, Repr

/-- What a run can be asked about afterwards. -/
inductive Event
  /-- Code of `syscall_entry` accessed `gs:0x0` or `gs:0x8`. -/
  | gsAccess (tid : ℕ) (base : GsBase)
  /-- A fast system call entered with one user RSP and returned with another. -/
  | syscallReturn (tid entered left : ℕ)
  /-- A scheduler call returned, with the interrupt flag before and after it. -/
  | callReturn (tid : ℕ) (before after : Bool)
  deriving DecidableEq, Repr

/-- The processor and the scheduler's variables.  Threads are numbered in the
order in which they are created. -/
structure Machine where
  /-- The active GS base. -/
  gs : GsBase
  /-- `MSR_KERNEL_GS_BASE`, the one that `swapgs` exchanges it with. -/
  kernelGs : GsBase
  /-- RFLAGS.IF. -/
  ifFlag : Bool
  /-- `gs:0x8` of the per-CPU data. -/
  userRsp : ℕ
  /-- `sched_lock.lock`. -/
  lockHeld : Bool
  /-- The interrupt flag in `sched_lock.flags`. -/
  lockFlags : Bool
  /-- The thread list, from `threads_head` on. -/
  order : List ℕ
  th : ℕ → Thread
  /-- `current_thread`. -/
  current : ℕ
  nextTid : ℕ
  /-- `next_pid`. -/
  nextPid : ℕ
  wq : ℕ → WaitQueue
  panicked : Bool
  /-- What has happened, newest first. -/
  trace : List Event

namespace Machine

/-- The thread that has the processor. -/
def cur (m : Machine) : Thread := m.th m.current

/-- Change one thread. -/
def modify (m : Machine) (i : ℕ) (f : Thread → Thread) : Machine :=
  { m with th := Function.update m.th i (f (m.th i)) }

def emit (m : Machine) (e : Event) : Machine := { m with trace := e :: m.trace }

def setIf (m : Machine) (b : Bool) : Machine := { m with ifFlag := b }

def setWq (m : Machine) (q : ℕ) (w : WaitQueue) : Machine :=
  { m with wq := Function.update m.wq q w }

/-! ### The lock -/

/-- `spinlock_acquire_irqsave(&sched_lock)`; with the lock held it spins for ever. -/
def spinlockAcquireIrqsave (m : Machine) : Option Machine :=
  if m.lockHeld then none
  else some { m with lockHeld := true, lockFlags := m.ifFlag, ifFlag := false }

/-- `spinlock_release_irqrestore(&sched_lock)`: `arch_irq_restore` enables
interrupts if the saved flag is set and never disables them. -/
def spinlockReleaseIrqrestore (m : Machine) : Machine :=
  { m with lockHeld := false, ifFlag := m.ifFlag || m.lockFlags }

/-! ### Choosing and switching -/

/-- The order of the search loop: the threads after the current one, then from
the head of the list up to it. -/
def scanOrder (m : Machine) : List ℕ :=
  (m.order.dropWhile (· ≠ m.current)).tail ++ m.order.takeWhile (· ≠ m.current) ++ [m.current]

/-- The next runnable thread. -/
def nextThread (m : Machine) : Option ℕ :=
  m.scanOrder.find? fun i => decide ((m.th i).state = .runnable)

/-- The switch itself: `context_switch` saves RFLAGS of the one thread and loads
those of the other. -/
def switchTo (m : Machine) (next : ℕ) : Machine :=
  let m := (m.modify m.current (Thread.switchOut m.ifFlag)).modify next Thread.switchIn
  { m with current := next, ifFlag := (m.th next).ctxIf }

/-- `sched_resched_locked`, up to where it returns on whichever thread then has
the processor. -/
def schedReschedLocked (m : Machine) : Machine :=
  match m.nextThread with
  | none => m
  | some next => if next = m.current then m else m.switchTo next

/-- What a thread does when `sched_resched_locked` returns to it, or when it
starts in `thread_trampoline`: release the lock, then halt if it is in
`sched_exit`, return to its caller, or run its entry function. -/
def leaveSched (m : Machine) : Machine :=
  let m := m.spinlockReleaseIrqrestore
  match m.cur.path, m.cur.halted, m.cur.call with
  | .exited _, false, _ => m.modify m.current Thread.halt
  | _, _, some before =>
    (m.modify m.current Thread.endCall).emit (.callReturn m.current before m.ifFlag)
  | _, _, none => m

/-! ### Scheduler calls -/

/-- The calls that can give up the processor. -/
inductive Call
  /-- `sched_yield`. -/
  | yield
  /-- `sched_yield` called by `sched_preempt_trampoline`. -/
  | preempt
  /-- `sched_sleep`. -/
  | sleep (q : ℕ)
  /-- `sched_sleep_cond`, with what its condition says. -/
  | sleepCond (q : ℕ) (cond : Bool)
  /-- `sched_exit`. -/
  | exit
  deriving DecidableEq, Repr

/-- Block the current thread at the end of a wait queue. -/
def enqueue (m : Machine) (q : ℕ) : Option Machine :=
  let blocked := m.modify m.current Thread.block
  match (m.wq q).tail with
  | some tail =>
    if tail ∈ m.order then
      some ((blocked.modify tail (Thread.linkTo m.current)).setWq q ⟨(m.wq q).head, some m.current⟩)
    else none
  | none => some (blocked.setWq q ⟨some m.current, some m.current⟩)

/-- What a call does between taking the lock and looking for another thread. -/
def callBody (m : Machine) : Call → Option Machine
  | .yield => some m
  | .preempt => some m
  | .sleep q => m.enqueue q
  | .sleepCond q cond => if cond then some m else m.enqueue q
  | .exit => some (m.modify m.current Thread.die)

/-- `sched_sleep_cond` does not reschedule when its condition holds. -/
def Call.reschedules : Call → Bool
  | .sleepCond _ cond => !cond
  | _ => true

/-- The trampoline pushes the flags and executes `cli` before it calls
`sched_yield`. -/
def enterCall (m : Machine) : Call → Machine
  | .preempt => (m.modify m.current Thread.pushTramp).setIf false
  | _ => m

/-- The current thread runs kernel code of its own. -/
def runsKernel (m : Machine) : Bool :=
  m.cur.path.inKernel && decide (m.cur.tramps = 0) && !m.cur.halted

/-- When a call can be made.  The timer interrupt redirects kernel code to the
trampoline if interrupts are on and the thread has no address space. -/
def canCall (m : Machine) : Call → Bool
  | .preempt => m.ifFlag && decide (m.cur.path ≠ .user) && !m.cur.hasAspace
  | .exit => m.runsKernel || decide (m.cur.path = .exception)
  | _ => m.runsKernel

/-- The machine when the call has taken the lock and done its own part. -/
def callLocked (m : Machine) (c : Call) : Option Machine :=
  let m := m.enterCall c
  (m.modify m.current (Thread.startCall m.ifFlag)).spinlockAcquireIrqsave.bind fun m => m.callBody c

/-- A scheduler call, up to where some thread leaves the scheduler. -/
def schedCall (m : Machine) (c : Call) : Option Machine :=
  (m.callLocked c).map fun m =>
    if c.reschedules then m.schedReschedLocked.leaveSched else m.leaveSched

/-! ### Other users of the lock -/

/-- What else is done under the lock. -/
inductive LockedOp
  /-- `sched_create`, or `sched_create_user` with this parent. -/
  | create (parent : Option ℕ)
  /-- `sched_wake_one` called by kernel code. -/
  | wakeOne (q : ℕ)
  /-- `sched_wake_one` called by an interrupt handler. -/
  | irqWakeOne (q : ℕ)
  /-- One pass of `sched_wait_child` over the thread list. -/
  | waitChild
  deriving DecidableEq, Repr

/-- A thread as `arch_thread_setup` leaves it. -/
def freshThread (pid ppid : ℕ) (isUser : Bool) : Thread where
  state := .runnable
  isUser := isUser
  hasAspace := false
  pid := pid
  ppid := ppid
  reaped := !isUser
  waitNext := none
  ctxIf := false
  path := .kernel
  tramps := 0
  call := none
  halted := false

/-- The thread list with a new thread at its end. -/
def append (m : Machine) (t : Thread) : Machine :=
  { m with
    order := m.order ++ [m.nextTid]
    th := Function.update m.th m.nextTid t
    nextTid := m.nextTid + 1 }

/-- Take the first thread off a wait queue. -/
def wakeHead (m : Machine) (q : ℕ) : Option Machine :=
  match (m.wq q).head with
  | none => some m
  | some t =>
    if t ∈ m.order then
      let next := (m.th t).waitNext
      some ((m.modify t Thread.wake).setWq q ⟨next, if next = none then none else (m.wq q).tail⟩)
    else none

/-- The child that `sched_wait_child` reaps. -/
def deadChild (m : Machine) : Option ℕ :=
  m.order.find? fun i => (m.th i).isUser && decide ((m.th i).ppid = m.cur.pid) &&
    decide ((m.th i).state = .dead) && !(m.th i).reaped

def lockedBody (m : Machine) : LockedOp → Option Machine
  | .create none => some (m.append (freshThread 0 0 false))
  | .create (some parent) =>
    some { m.append (freshThread m.nextPid parent true) with nextPid := m.nextPid + 1 }
  | .wakeOne q => m.wakeHead q
  | .irqWakeOne q => m.wakeHead q
  | .waitChild =>
    match m.deadChild with
    | some i => some { m.modify i Thread.reap with order := m.order.erase i }
    | none => some m

/-- Interrupt handlers run with interrupts off; `iretq` turns them on again. -/
def lockedStep (m : Machine) (op : LockedOp) : Option Machine :=
  match op with
  | .irqWakeOne q =>
    if m.ifFlag then
      ((m.setIf false).spinlockAcquireIrqsave.bind fun m => m.lockedBody (.irqWakeOne q)).map
        fun m => m.spinlockReleaseIrqrestore.setIf true
    else none
  | op =>
    if m.runsKernel then
      (m.spinlockAcquireIrqsave.bind fun m => m.lockedBody op).map spinlockReleaseIrqrestore
    else none

/-! ### Entering and leaving the kernel -/

/-- What the current thread does at the boundary of the kernel. -/
inductive CpuOp
  /-- `syscall` with this RSP, up to the call of `syscall_handler_fast`. -/
  | syscall (rsp : ℕ)
  /-- The return path of `syscall_entry`. -/
  | sysret
  /-- `int 0x80`. -/
  | int80
  /-- An exception in user code. -/
  | exception
  /-- `iretq` of `isr_syscall` or of an exception handler that returns. -/
  | iret
  /-- `arch_enter_user`, at the end of a user thread's entry function or in the
  `EXEC` system call. -/
  | enterUser
  /-- The end of `sched_preempt_trampoline`: `popfq` restores flags that were
  pushed with interrupts on. -/
  | trampolineReturn
  deriving DecidableEq, Repr

def swapgs (m : Machine) : Machine := { m with gs := m.kernelGs, kernelGs := m.gs }

/-- An access of `syscall_entry` to the per-CPU data.  With the user's base it
faults in kernel mode and the kernel panics. -/
def accessGs (m : Machine) (next : Machine → Machine) : Machine :=
  let m := m.emit (.gsAccess m.current m.gs)
  if m.gs = .percpu then next m else { m with panicked := true }

/-- Run user code, with interrupts on. -/
def toUser (m : Machine) : Machine := (m.modify m.current (Thread.goTo .user)).setIf true

def cpuStep (m : Machine) : CpuOp → Option Machine
  | .syscall rsp =>
    if m.cur.path = .user then
      some (((m.swapgs.modify m.current (Thread.goTo (.fast rsp))).setIf false).accessGs fun m =>
        { m with userRsp := rsp })
    else none
  | .sysret =>
    match m.cur.path, m.runsKernel with
    | .fast rsp, true =>
      some (m.accessGs fun m =>
        m.swapgs.toUser.emit (.syscallReturn m.current rsp m.userRsp))
    | _, _ => none
  | .int80 =>
    if m.cur.path = .user then
      some ((m.modify m.current (Thread.goTo .int80)).setIf false)
    else none
  | .exception =>
    if m.cur.path = .user then
      some ((m.modify m.current (Thread.goTo .exception)).setIf false)
    else none
  | .iret =>
    if m.cur.path = .int80 ∧ m.runsKernel ∨ m.cur.path = .exception then some m.toUser else none
  | .enterUser =>
    if m.cur.isUser ∧ m.runsKernel then
      some (m.swapgs.toUser.modify m.current Thread.setAspace)
    else none
  | .trampolineReturn =>
    if 0 < m.cur.tramps then
      some ((m.modify m.current Thread.popTramp).setIf true)
    else none

/-! ### Steps and runs -/

inductive Action
  | cpu (op : CpuOp)
  | call (c : Call)
  | locked (op : LockedOp)
  deriving DecidableEq, Repr

/-- One step. -/
def step (m : Machine) (a : Action) : Option Machine :=
  if m.panicked then none
  else match a with
    | .cpu op => m.cpuStep op
    | .call c => if m.canCall c then m.schedCall c else none
    | .locked op => m.lockedStep op

/-- The thread that `sched_init` makes of `kernel_main`. -/
def bootThread : Thread :=
  { freshThread 0 0 false with state := .running }

/-- The machine after `sched_init`: interrupts on, the per-CPU base active. -/
def booted : Machine where
  gs := .percpu
  kernelGs := .user
  ifFlag := true
  userRsp := 0
  lockHeld := false
  lockFlags := false
  order := [0]
  th := fun _ => bootThread
  current := 0
  nextTid := 1
  nextPid := 1
  wq := fun _ => ⟨none, none⟩
  panicked := false
  trace := []

/-- The machines that runs reach whose steps all meet the condition `ok`, which
looks at the machine before the step. -/
def ReachableIf (ok : Machine → Action → Prop) : Machine → Prop :=
  Reach (· = booted) fun m m' => ∃ a, ok m a ∧ m.step a = some m'

/-- The machines that runs reach. -/
def Reachable : Machine → Prop := ReachableIf fun _ _ => True

/-- Do the actions one after the other, as long as each meets the condition. -/
def runIf (ok : Machine → Action → Prop) [∀ m a, Decidable (ok m a)] (m : Machine) :
    List Action → Option Machine
  | [] => some m
  | a :: as => if ok m a then (m.step a).bind fun m => m.runIf ok as else none

end Machine

end Neptune
