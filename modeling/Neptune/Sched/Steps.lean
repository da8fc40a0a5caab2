import Neptune.Sched.Machine

/-!
# What a step of the machine can do

The lemmas here say once, for each kind of step, which parts of the machine it
changes; the properties of runs are derived from them.

## Main results

* `schedCall_cases` — a scheduler call ends on the caller, or on the thread that
  the search loop found.
* `lockedStep_spec` — the other users of the lock.
* `Wf` and `Wf.step` — well-formed machines stay well formed.
-/

namespace Neptune

open Function List Option

namespace Machine

variable {m m' : Machine}

/-! ### Threads that only change state -/

/-- The thread is in the same place, inside the same call; it may have been woken
up, queued or reaped, but it has not died. -/
structure SameCtl (t t' : Thread) : Prop where
  path : t'.path = t.path
  call : t'.call = t.call
  ctxIf : t'.ctxIf = t.ctxIf
  dead : t'.state = .dead → t.state = .dead

theorem SameCtl.refl (t : Thread) : SameCtl t t := ⟨rfl, rfl, rfl, id⟩

theorem SameCtl.trans {t t' t'' : Thread} (h : SameCtl t t') (h' : SameCtl t' t'') :
    SameCtl t t'' :=
  ⟨h'.path.trans h.path, h'.call.trans h.call, h'.ctxIf.trans h.ctxIf, fun hd => h.dead (h'.dead hd)⟩

@[simp] theorem modify_th_self (m : Machine) (i : ℕ) (f : Thread → Thread) :
    (m.modify i f).th i = f (m.th i) := update_self _ _ _

theorem modify_th_of_ne (m : Machine) {i j : ℕ} (f : Thread → Thread) (h : j ≠ i) :
    (m.modify i f).th j = m.th j := update_of_ne h _ _

theorem sameCtl_modify (m : Machine) (i : ℕ) {f : Thread → Thread}
    (hf : SameCtl (m.th i) (f (m.th i))) (j : ℕ) : SameCtl (m.th j) ((m.modify i f).th j) := by
  rcases eq_or_ne j i with rfl | hne
  · rw [modify_th_self]; exact hf
  · rw [modify_th_of_ne m f hne]; exact SameCtl.refl _

/-- Queueing changes threads' states and links, and the queue. -/
theorem enqueue_spec {q : ℕ} (h : m.enqueue q = some m') :
    m' = { m with th := m'.th, wq := m'.wq } ∧ ∀ i, SameCtl (m.th i) (m'.th i) := by
  have hblock : ∀ i, SameCtl (m.th i) ((m.modify m.current Thread.block).th i) :=
    sameCtl_modify m m.current ⟨rfl, rfl, rfl, fun h => nomatch h⟩
  unfold enqueue at h
  dsimp only at h
  split at h
  · next tail htail =>
    split at h
    · obtain rfl := some.inj h
      refine ⟨rfl, fun i => (hblock i).trans ?_⟩
      exact sameCtl_modify (m.modify m.current Thread.block) tail ⟨rfl, rfl, rfl, id⟩ i
    · cases h
  · obtain rfl := some.inj h
    exact ⟨rfl, hblock⟩

theorem wakeHead_spec {q : ℕ} (h : m.wakeHead q = some m') :
    m' = { m with th := m'.th, wq := m'.wq } ∧ ∀ i, SameCtl (m.th i) (m'.th i) := by
  unfold wakeHead at h
  split at h
  · obtain rfl := some.inj h
    exact ⟨rfl, fun i => SameCtl.refl _⟩
  · next t ht =>
    split at h
    · obtain rfl := some.inj h
      exact ⟨rfl, sameCtl_modify m t ⟨rfl, rfl, rfl, fun h => nomatch h⟩⟩
    · cases h

/-! ### Scheduler calls -/

/-- The interrupt flag with which a call enters the scheduler. -/
def callIf (m : Machine) : Call → Bool
  | .preempt => false
  | _ => m.ifFlag

/-- The thread that a call switches to, if it switches. -/
def callTarget (m : Machine) (c : Call) : Option ℕ :=
  (m.callLocked c).bind fun m =>
    if c.reschedules then m.nextThread.bind fun next => if next = m.current then none else some next
    else none

/-- The machine when a call holds the lock: its saved flag is the caller's. -/
structure Locked (m : Machine) (c : Call) (m' : Machine) : Prop where
  eq : m' = { m with
    th := m'.th, wq := m'.wq, lockHeld := true, lockFlags := m.callIf c, ifFlag := false }
  free : m.lockHeld = false
  others : ∀ i, i ≠ m.current → SameCtl (m.th i) (m'.th i)
  call : m'.cur.call = some (m.callIf c)
  ctxIf : m'.cur.ctxIf = m.cur.ctxIf
  path : m'.cur.path = m.cur.path ∨ m'.cur.path = .exited m.cur.path.side
  dead : m'.cur.state = .dead → m.cur.state = .dead ∨ m'.cur.path = .exited m.cur.path.side

/-- What a call does of its own while it holds the lock: to its caller, and to
the queue behind which it blocks. -/
structure Marked (m m' : Machine) : Prop where
  eq : m' = { m with th := m'.th, wq := m'.wq }
  others : ∀ i, i ≠ m.current → SameCtl (m.th i) (m'.th i)
  call : m'.cur.call = m.cur.call
  ctxIf : m'.cur.ctxIf = m.cur.ctxIf
  path : m'.cur.path = m.cur.path ∨ m'.cur.path = .exited m.cur.path.side
  dead : m'.cur.state = .dead → m.cur.state = .dead ∨ m'.cur.path = .exited m.cur.path.side

theorem Marked.of_sameCtl (heq : m' = { m with th := m'.th, wq := m'.wq })
    (hctl : ∀ i, SameCtl (m.th i) (m'.th i)) : Marked m m' := by
  have hc : m'.current = m.current := by rw [heq]
  have hcur : SameCtl m.cur m'.cur := by
    rw [cur, cur, hc]
    exact hctl m.current
  exact ⟨heq, fun i _ => hctl i, hcur.call, hcur.ctxIf, .inl hcur.path, fun hd => .inl (hcur.dead hd)⟩

theorem callBody_spec {c : Call} (h : m.callBody c = some m') : Marked m m' := by
  cases c with
  | yield | preempt =>
    obtain rfl := some.inj h
    exact .of_sameCtl rfl fun i => SameCtl.refl _
  | sleep q =>
    obtain ⟨heq, hctl⟩ := enqueue_spec h
    exact .of_sameCtl heq hctl
  | sleepCond q cond =>
    rw [callBody] at h
    split at h
    · obtain rfl := some.inj h
      exact .of_sameCtl rfl fun i => SameCtl.refl _
    · obtain ⟨heq, hctl⟩ := enqueue_spec h
      exact .of_sameCtl heq hctl
  | exit =>
    obtain rfl := some.inj h
    have hcur : (m.modify m.current Thread.die).cur = m.cur.die := modify_th_self _ _ _
    refine ⟨rfl, fun i hi => ?_, ?_, ?_, ?_, ?_⟩
    · rw [modify_th_of_ne m _ hi]; exact SameCtl.refl _
    · rw [hcur]; rfl
    · rw [hcur]; rfl
    · rw [hcur]; exact .inr rfl
    · rw [hcur]; exact fun _ => .inr rfl

/-- Entering the trampoline touches the caller's own frame and the interrupt flag. -/
theorem enterCall_spec (m : Machine) (c : Call) :
    m.enterCall c = { m with th := (m.enterCall c).th, ifFlag := m.callIf c } ∧
      ∀ i, SameCtl (m.th i) ((m.enterCall c).th i) := by
  cases c with
  | preempt => exact ⟨rfl, sameCtl_modify m m.current ⟨rfl, rfl, rfl, id⟩⟩
  | yield | sleep | sleepCond | exit => exact ⟨rfl, fun i => SameCtl.refl _⟩

theorem spinlockAcquireIrqsave_spec (h : m.spinlockAcquireIrqsave = some m') :
    m.lockHeld = false ∧
      m' = { m with lockHeld := true, lockFlags := m.ifFlag, ifFlag := false } := by
  unfold spinlockAcquireIrqsave at h
  split at h
  · cases h
  · next hfree => exact ⟨by simpa using hfree, (some.inj h).symm⟩

/-- A call that gets the lock. -/
theorem callLocked_spec {c : Call} (h : m.callLocked c = some m') : Locked m c m' := by
  obtain ⟨m₂, hacq, hbody⟩ := bind_eq_some_iff.mp h
  obtain ⟨heq₁, hctl⟩ := enterCall_spec m c
  generalize m.enterCall c = m₁ at *
  obtain ⟨hfree, heq₂⟩ := spinlockAcquireIrqsave_spec hacq
  have hm := callBody_spec hbody
  have hc₁ : m₁.current = m.current := by rw [heq₁]
  have hif₁ : m₁.ifFlag = m.callIf c := by rw [heq₁]
  have hc₂ : m₂.current = m.current := by rw [heq₂]; exact hc₁
  have hth₂ : m₂.th = (m₁.modify m₁.current (Thread.startCall m₁.ifFlag)).th := by rw [heq₂]
  have hcur₂ : m₂.cur = (m₁.th m.current).startCall (m.callIf c) := by
    rw [cur, hth₂, hc₂, ← hif₁, ← hc₁]
    exact modify_th_self _ _ _
  refine ⟨?_, ?_, fun i hi => ?_, ?_, ?_, ?_, fun hd => ?_⟩
  · rw [hm.eq, heq₂, heq₁]; rfl
  · rw [← hfree, heq₁]; rfl
  · refine (hctl i).trans (SameCtl.trans ?_ (hm.others i (by rw [hc₂]; exact hi)))
    rw [hth₂, modify_th_of_ne m₁ _ (by rw [hc₁]; exact hi)]
    exact SameCtl.refl _
  · rw [hm.call, hcur₂]; rfl
  · rw [hm.ctxIf, hcur₂]; exact (hctl m.current).ctxIf
  · have hp : m₂.cur.path = m.cur.path := by rw [hcur₂]; exact (hctl m.current).path
    rw [← hp]
    exact hm.path
  · have hp : m₂.cur.path = m.cur.path := by rw [hcur₂]; exact (hctl m.current).path
    rw [← hp]
    refine (hm.dead hd).imp_left fun hd₂ => (hctl m.current).dead ?_
    rw [hcur₂] at hd₂
    exact hd₂

/-- **A scheduler call ends on its caller, or on the thread that the search loop
found.** -/
theorem schedCall_cases {c : Call} (h : m.schedCall c = some m') :
    ∃ m₁, Locked m c m₁ ∧ (m.callTarget c = none ∧ m' = m₁.leaveSched ∨
        ∃ n, m.callTarget c = some n ∧ n ≠ m.current ∧ m₁.nextThread = some n ∧
          m' = (m₁.switchTo n).leaveSched) := by
  obtain ⟨m₁, hl, rfl⟩ := map_eq_some_iff.mp h
  have hlk := callLocked_spec hl
  have hc : m₁.current = m.current := by rw [hlk.eq]
  refine ⟨m₁, hlk, ?_⟩
  unfold callTarget schedReschedLocked
  rw [hl, bind_some]
  cases hr : c.reschedules with
  | false => exact .inl ⟨rfl, rfl⟩
  | true =>
    cases hn : m₁.nextThread with
    | none => exact .inl ⟨rfl, rfl⟩
    | some n =>
      simp only [bind_some, if_true]
      by_cases hne : n = m₁.current
      · rw [if_pos hne, if_pos hne]; exact .inl ⟨rfl, rfl⟩
      · rw [if_neg hne, if_neg hne]
        exact .inr ⟨n, rfl, hc ▸ hne, rfl, rfl⟩

/-- The threads after a switch. -/
theorem switchTo_th {n i : ℕ} (hn : n ≠ m.current) : (m.switchTo n).th i =
    if i = n then (m.th n).switchIn
    else if i = m.current then m.cur.switchOut m.ifFlag else m.th i := by
  have hth : (m.switchTo n).th =
      ((m.modify m.current (Thread.switchOut m.ifFlag)).modify n Thread.switchIn).th := rfl
  rw [hth]
  rcases eq_or_ne i n with rfl | hin
  · rw [modify_th_self, modify_th_of_ne m _ hn, if_pos rfl]
  · rw [modify_th_of_ne _ _ hin, if_neg hin]
    rcases eq_or_ne i m.current with rfl | hic
    · rw [modify_th_self, if_pos rfl]; rfl
    · rw [modify_th_of_ne m _ hic, if_neg hic]

/-- A change of one thread that keeps a field of it keeps the field everywhere. -/
theorem modify_field {α : Type} (p : Thread → α) (m : Machine) (i : ℕ) {f : Thread → Thread}
    (hf : p (f (m.th i)) = p (m.th i)) (j : ℕ) : p ((m.modify i f).th j) = p (m.th j) := by
  rcases eq_or_ne j i with rfl | hne
  · rw [modify_th_self]; exact hf
  · rw [modify_th_of_ne m f hne]

/-- Leaving the scheduler: the lock is free, the saved flag is restored, and a
call that returns says so. -/
structure Left (m m' : Machine) : Prop where
  eq : m' = { m with
    th := m'.th, trace := m'.trace, lockHeld := false, ifFlag := m.ifFlag || m.lockFlags }
  path : ∀ i, (m'.th i).path = (m.th i).path
  ctxIf : ∀ i, (m'.th i).ctxIf = (m.th i).ctxIf
  state : ∀ i, (m'.th i).state = (m.th i).state
  trace : m'.trace = m.trace ∨ ∃ before, m.cur.call = some before ∧
    m'.trace = .callReturn m.current before (m.ifFlag || m.lockFlags) :: m.trace

theorem leaveSched_spec (m : Machine) : Left m m.leaveSched := by
  unfold leaveSched
  dsimp only
  split
  · exact ⟨rfl, modify_field _ m _ rfl, modify_field _ m _ rfl, modify_field _ m _ rfl, .inl rfl⟩
  · next before hcall _ =>
    exact ⟨rfl, modify_field _ m _ rfl, modify_field _ m _ rfl, modify_field _ m _ rfl,
      .inr ⟨before, hcall, rfl⟩⟩
  · exact ⟨rfl, fun _ => rfl, fun _ => rfl, fun _ => rfl, .inl rfl⟩

/-! ### The other users of the lock -/

/-- What is done under the lock outside the calls: threads change state, one is
added at the end of the list or a dead one is taken out. -/
structure Relisted (m m' : Machine) : Prop where
  gs : m'.gs = m.gs
  kernelGs : m'.kernelGs = m.kernelGs
  userRsp : m'.userRsp = m.userRsp
  current : m'.current = m.current
  trace : m'.trace = m.trace
  threads : ∀ i, i ≠ m.nextTid ∨ m'.nextTid = m.nextTid → SameCtl (m.th i) (m'.th i)
  order : m'.order = m.order ∧ m'.nextTid = m.nextTid ∨
    m'.order = m.order ++ [m.nextTid] ∧ m'.nextTid = m.nextTid + 1 ∧
      (∃ pid ppid isUser, m'.th m.nextTid = freshThread pid ppid isUser) ∨
    m'.nextTid = m.nextTid ∧ ∃ i, (m.th i).state = .dead ∧ m'.order = m.order.erase i

theorem lockedBody_spec {op : LockedOp} (h : m.lockedBody op = some m') :
    Relisted m m' ∧ m'.ifFlag = m.ifFlag ∧ m'.lockFlags = m.lockFlags := by
  have happend : ∀ pid ppid isUser nextPid,
      Relisted m { m.append (freshThread pid ppid isUser) with nextPid := nextPid } := by
    intro pid ppid isUser nextPid
    refine ⟨rfl, rfl, rfl, rfl, rfl, fun i hi => ?_,
      .inr (.inl ⟨rfl, rfl, pid, ppid, isUser, update_self _ _ _⟩)⟩
    have hne : i ≠ m.nextTid := hi.resolve_right (Nat.succ_ne_self _)
    have hth : (m.append (freshThread pid ppid isUser)).th i = m.th i :=
      update_of_ne hne _ _
    exact hth ▸ SameCtl.refl _
  cases op with
  | create parent =>
    cases parent with
    | none => obtain rfl := some.inj h; exact ⟨happend 0 0 false m.nextPid, rfl, rfl⟩
    | some parent =>
      obtain rfl := some.inj h
      exact ⟨happend m.nextPid parent true _, rfl, rfl⟩
  | wakeOne q | irqWakeOne q =>
    obtain ⟨heq, hctl⟩ := wakeHead_spec h
    rw [heq]
    exact ⟨⟨rfl, rfl, rfl, rfl, rfl, fun i _ => hctl i, .inl ⟨rfl, rfl⟩⟩, rfl, rfl⟩
  | waitChild =>
    rw [lockedBody] at h
    split at h
    · next i hi =>
      obtain rfl := some.inj h
      have hdead : (m.th i).state = .dead := by
        have := find?_some hi
        simp only [Bool.and_eq_true, decide_eq_true_eq] at this
        exact this.1.2
      exact ⟨⟨rfl, rfl, rfl, rfl, rfl, fun j _ => sameCtl_modify m i ⟨rfl, rfl, rfl, id⟩ j,
        .inr (.inr ⟨rfl, i, hdead, rfl⟩)⟩, rfl, rfl⟩
    · obtain rfl := some.inj h
      exact ⟨⟨rfl, rfl, rfl, rfl, rfl, fun i _ => SameCtl.refl _, .inl ⟨rfl, rfl⟩⟩, rfl, rfl⟩

/-- The lock is taken and released, and the interrupt flag is what it was. -/
theorem lockedStep_spec {op : LockedOp} (h : m.lockedStep op = some m') :
    Relisted m m' ∧ m'.ifFlag = m.ifFlag ∧ m'.lockHeld = false ∧
      (m.runsKernel = true ∨ m'.order = m.order) := by
  cases op with
  | irqWakeOne q =>
    rw [lockedStep] at h
    split at h
    · next hif =>
      obtain ⟨m₂, h₂, rfl⟩ := map_eq_some_iff.mp h
      obtain ⟨m₁, hacq, hbody⟩ := bind_eq_some_iff.mp h₂
      obtain ⟨-, rfl⟩ := spinlockAcquireIrqsave_spec hacq
      obtain ⟨hr, -, -⟩ := lockedBody_spec hbody
      refine ⟨⟨hr.gs, hr.kernelGs, hr.userRsp, hr.current, hr.trace, hr.threads, hr.order⟩,
        hif.symm, rfl, .inr ?_⟩
      have hwake : wakeHead _ q = some m₂ := hbody
      obtain ⟨heq, -⟩ := wakeHead_spec hwake
      rw [heq]
      rfl
    · cases h
  | create parent | wakeOne q | waitChild =>
    rw [lockedStep] at h
    · split at h
      · next hk =>
        obtain ⟨m₂, h₂, rfl⟩ := map_eq_some_iff.mp h
        obtain ⟨m₁, hacq, hbody⟩ := bind_eq_some_iff.mp h₂
        obtain ⟨-, rfl⟩ := spinlockAcquireIrqsave_spec hacq
        obtain ⟨hr, hif, hfl⟩ := lockedBody_spec hbody
        refine ⟨⟨hr.gs, hr.kernelGs, hr.userRsp, hr.current, hr.trace, hr.threads, hr.order⟩,
          ?_, rfl, .inl hk⟩
        show (m₂.ifFlag || m₂.lockFlags) = m.ifFlag
        rw [hif, hfl, Bool.false_or]
      · cases h
    · rintro q ⟨⟩

/-! ### The boundary of the kernel -/

/-- The machine after `syscall`, `swapgs` and the access to the per-CPU data. -/
def enterFast (m : Machine) (rsp : ℕ) : Machine :=
  ((m.swapgs.modify m.current (Thread.goTo (.fast rsp))).setIf false).emit
    (.gsAccess m.current m.kernelGs)

/-- The outcomes of the steps at the boundary. -/
inductive CpuCases (m : Machine) : CpuOp → Machine → Prop
  | syscall (rsp : ℕ) : m.cur.path = .user → m.kernelGs = .percpu →
      CpuCases m (.syscall rsp) { m.enterFast rsp with userRsp := rsp }
  | syscallFault (rsp : ℕ) : m.cur.path = .user → m.kernelGs = .user →
      CpuCases m (.syscall rsp) { m.enterFast rsp with panicked := true }
  | sysret (rsp : ℕ) : m.cur.path = .fast rsp → m.gs = .percpu →
      CpuCases m .sysret ((m.emit (.gsAccess m.current m.gs)).swapgs.toUser.emit
        (.syscallReturn m.current rsp m.userRsp))
  | sysretFault (rsp : ℕ) : m.cur.path = .fast rsp → m.gs = .user →
      CpuCases m .sysret { m.emit (.gsAccess m.current m.gs) with panicked := true }
  | int80 : m.cur.path = .user →
      CpuCases m .int80 ((m.modify m.current (Thread.goTo .int80)).setIf false)
  | exception : m.cur.path = .user →
      CpuCases m .exception ((m.modify m.current (Thread.goTo .exception)).setIf false)
  | iret : m.cur.path = .int80 ∨ m.cur.path = .exception → CpuCases m .iret m.toUser
  | enterUser : m.runsKernel = true →
      CpuCases m .enterUser (m.swapgs.toUser.modify m.current Thread.setAspace)
  | trampolineReturn :
      CpuCases m .trampolineReturn ((m.modify m.current Thread.popTramp).setIf true)

theorem GsBase.eq_user_of_ne {b : GsBase} (h : b ≠ .percpu) : b = .user := by
  cases b
  · exact absurd rfl h
  · rfl

theorem accessGs_of_percpu (h : m.gs = .percpu) (next : Machine → Machine) :
    m.accessGs next = next (m.emit (.gsAccess m.current m.gs)) := if_pos h

theorem accessGs_of_user (h : m.gs ≠ .percpu) (next : Machine → Machine) :
    m.accessGs next = { m.emit (.gsAccess m.current m.gs) with panicked := true } := if_neg h

theorem cpuStep_cases {op : CpuOp} (h : m.cpuStep op = some m') : CpuCases m op m' := by
  cases op with
  | syscall rsp =>
    rw [cpuStep] at h
    split at h
    · next hp =>
      obtain rfl := some.inj h
      by_cases hg : m.kernelGs = .percpu
      · rw [accessGs_of_percpu hg]; exact .syscall rsp hp hg
      · rw [accessGs_of_user hg]; exact .syscallFault rsp hp (GsBase.eq_user_of_ne hg)
    · cases h
  | sysret =>
    rw [cpuStep] at h
    split at h
    · next rsp hp _ =>
      obtain rfl := some.inj h
      by_cases hg : m.gs = .percpu
      · rw [accessGs_of_percpu hg]; exact .sysret rsp hp hg
      · rw [accessGs_of_user hg]; exact .sysretFault rsp hp (GsBase.eq_user_of_ne hg)
    · cases h
  | int80 =>
    rw [cpuStep] at h
    split at h
    · next hp => obtain rfl := some.inj h; exact .int80 hp
    · cases h
  | exception =>
    rw [cpuStep] at h
    split at h
    · next hp => obtain rfl := some.inj h; exact .exception hp
    · cases h
  | iret =>
    rw [cpuStep] at h
    split at h
    · next hp => obtain rfl := some.inj h; exact .iret (hp.imp_left And.left)
    · cases h
  | enterUser =>
    rw [cpuStep] at h
    split at h
    · next hp => obtain rfl := some.inj h; exact .enterUser hp.2
    · cases h
  | trampolineReturn =>
    rw [cpuStep] at h
    split at h
    · obtain rfl := some.inj h; exact .trampolineReturn
    · cases h

/-- What every step at the boundary leaves alone, and that only a thread that has
not exited goes anywhere. -/
structure AtBoundary (m m' : Machine) : Prop where
  order : m'.order = m.order
  nextTid : m'.nextTid = m.nextTid
  current : m'.current = m.current
  lockHeld : m'.lockHeld = m.lockHeld
  others : ∀ i, i ≠ m.current → m'.th i = m.th i
  state : m'.cur.state = m.cur.state
  ctxIf : m'.cur.ctxIf = m.cur.ctxIf
  call : m'.cur.call = m.cur.call
  path : m'.cur.path = m.cur.path ∨ ∀ side, m.cur.path ≠ .exited side

/-- A step that changes the current thread and nothing of the scheduler's. -/
theorem AtBoundary.of_modify {f : Thread → Thread}
    (hm : m' = { m with
      th := (m.modify m.current f).th, gs := m'.gs, kernelGs := m'.kernelGs, ifFlag := m'.ifFlag,
      userRsp := m'.userRsp, panicked := m'.panicked, trace := m'.trace })
    (hstate : (f m.cur).state = m.cur.state) (hctxIf : (f m.cur).ctxIf = m.cur.ctxIf)
    (hcall : (f m.cur).call = m.cur.call)
    (hpath : (f m.cur).path = m.cur.path ∨ ∀ side, m.cur.path ≠ .exited side) :
    AtBoundary m m' := by
  have hcur : m'.cur = f m.cur := by
    rw [hm]
    exact modify_th_self m m.current f
  rw [← hcur] at hstate hctxIf hcall hpath
  refine ⟨by rw [hm], by rw [hm], by rw [hm], by rw [hm], fun i hi => ?_, hstate, hctxIf, hcall, hpath⟩
  rw [hm]
  exact modify_th_of_ne m f hi

theorem CpuCases.atBoundary {op : CpuOp} (h : CpuCases m op m') : AtBoundary m m' := by
  have hne : ∀ {p : Path}, m.cur.path = p → (∀ side, p ≠ .exited side) →
      ∀ side, m.cur.path ≠ .exited side := fun hp hn side => hp ▸ hn side
  cases h with
  | syscall rsp hp | syscallFault rsp hp =>
    exact .of_modify (f := Thread.goTo (.fast rsp)) rfl rfl rfl rfl (.inr (hne hp fun _ => nofun))
  | sysret rsp hp =>
    exact .of_modify (f := Thread.goTo .user) rfl rfl rfl rfl (.inr (hne hp fun _ => nofun))
  | sysretFault rsp hp =>
    exact ⟨rfl, rfl, rfl, rfl, fun _ _ => rfl, rfl, rfl, rfl, .inl rfl⟩
  | int80 hp =>
    exact .of_modify (f := Thread.goTo .int80) rfl rfl rfl rfl (.inr (hne hp fun _ => nofun))
  | exception hp =>
    exact .of_modify (f := Thread.goTo .exception) rfl rfl rfl rfl (.inr (hne hp fun _ => nofun))
  | iret hp =>
    refine .of_modify (f := Thread.goTo .user) rfl rfl rfl rfl (.inr ?_)
    rcases hp with hp | hp <;> exact hne hp fun _ => nofun
  | enterUser hk =>
    refine .of_modify (f := fun t => (t.goTo .user).setAspace) ?_ rfl rfl rfl (.inr ?_)
    · simp only [modify, toUser, setIf, swapgs, update_self, update_idem]
    · rintro side hp
      simp [runsKernel, hp, Path.inKernel] at hk
  | trampolineReturn =>
    exact .of_modify (f := Thread.popTramp) rfl rfl rfl rfl (.inl rfl)

/-- Where a step at the boundary takes the current thread. -/
def cpuTarget (p : Path) : CpuOp → Path
  | .syscall rsp => .fast rsp
  | .sysret => .user
  | .int80 => .int80
  | .exception => .exception
  | .iret => .user
  | .enterUser => .user
  | .trampolineReturn => p

theorem CpuCases.cur_path {op : CpuOp} (h : CpuCases m op m') (hp : m'.panicked = false) :
    m'.cur.path = cpuTarget m.cur.path op := by
  cases h with
  | syscallFault | sysretFault => cases hp
  | syscall | sysret | int80 | exception | iret | enterUser | trampolineReturn =>
    simp [cur, cpuTarget, enterFast, modify, emit, setIf, swapgs, toUser, Thread.goTo,
      Thread.setAspace, Thread.popTramp]

/-! ### Well-formed machines -/

/-- The dead have exited, and the saved flags have interrupts off. -/
structure ThreadOk (t : Thread) : Prop where
  dead : t.state = .dead → ∃ side, t.path = .exited side
  ctxIf : t.ctxIf = false

theorem SameCtl.ok {t t' : Thread} (h : SameCtl t t') (ht : ThreadOk t) : ThreadOk t' :=
  ⟨fun hd => h.path ▸ ht.dead (h.dead hd), h.ctxIf ▸ ht.ctxIf⟩

theorem ThreadOk.switchIn {t : Thread} (ht : ThreadOk t) : ThreadOk t.switchIn :=
  ⟨fun hd => (nomatch hd), ht.ctxIf⟩

theorem ThreadOk.switchOut {t : Thread} (ht : ThreadOk t) : ThreadOk (t.switchOut false) := by
  refine ⟨fun hd => ?_, rfl⟩
  unfold Thread.switchOut at hd
  dsimp only at hd
  split at hd
  · cases hd
  · exact ht.dead hd

/-- Between steps the lock is free and the current thread is on the list. -/
structure Wf (m : Machine) : Prop where
  current_mem : m.current ∈ m.order
  order_lt : ∀ i ∈ m.order, i < m.nextTid
  threads : ∀ i, ThreadOk (m.th i)
  free : m.lockHeld = false

theorem wf_booted : Wf booted :=
  ⟨by decide, by decide, fun _ => ⟨fun h => (nomatch h), rfl⟩, rfl⟩

theorem mem_scanOrder {i : ℕ} (h : i ∈ m.scanOrder) : i ∈ m.order ∨ i = m.current := by
  unfold scanOrder at h
  rcases mem_append.mp h with h | h
  · rcases mem_append.mp h with h | h
    · exact .inl ((dropWhile_sublist _).subset (mem_of_mem_tail h))
    · exact .inl ((takeWhile_sublist _).subset h)
  · exact .inr (mem_singleton.mp h)

theorem mem_order_of_nextThread {n : ℕ} (h : m.nextThread = some n) (hn : n ≠ m.current) :
    n ∈ m.order := (mem_scanOrder (mem_of_find?_eq_some h)).resolve_right hn

theorem Locked.threadOk {c : Call} (hl : Locked m c m') (h : ∀ i, ThreadOk (m.th i)) (i : ℕ) :
    ThreadOk (m'.th i) := by
  rcases eq_or_ne i m.current with rfl | hi
  · have hcur : m'.th m.current = m'.cur := by rw [cur, hl.eq]
    rw [hcur]
    refine ⟨fun hd => ?_, hl.ctxIf.trans (h _).ctxIf⟩
    rcases hl.path with hp | hp
    · rcases hl.dead hd with hd' | hp'
      · exact hp ▸ (h _).dead hd'
      · exact ⟨_, hp'⟩
    · exact ⟨_, hp⟩
  · exact (hl.others i hi).ok (h i)

theorem Left.threadOk (hl : Left m m') (h : ∀ i, ThreadOk (m.th i)) (i : ℕ) : ThreadOk (m'.th i) :=
  ⟨fun hd => by rw [hl.path]; exact (h i).dead (hl.state i ▸ hd), (hl.ctxIf i).trans (h i).ctxIf⟩

theorem switchTo_threadOk {n : ℕ} (hn : n ≠ m.current) (hif : m.ifFlag = false)
    (h : ∀ i, ThreadOk (m.th i)) (i : ℕ) : ThreadOk ((m.switchTo n).th i) := by
  rw [switchTo_th hn]
  split
  · exact (h n).switchIn
  · split
    · rw [hif]; exact (h m.current).switchOut
    · exact h i

theorem Wf.schedCall (hw : Wf m) {c : Call} (h : m.schedCall c = some m') : Wf m' := by
  obtain ⟨m₁, hl, hcase⟩ := schedCall_cases h
  have hc : m₁.current = m.current := by rw [hl.eq]
  have hlt : ∀ i ∈ m₁.order, i < m₁.nextTid := by rw [hl.eq]; exact hw.order_lt
  have hok := hl.threadOk hw.threads
  rcases hcase with ⟨-, rfl⟩ | ⟨n, -, hne, hnext, rfl⟩
  · have hleft := leaveSched_spec m₁
    refine ⟨?_, ?_, hleft.threadOk hok, by rw [hleft.eq]⟩
    · rw [hleft.eq, hl.eq]; exact hw.current_mem
    · rw [hleft.eq]; exact hlt
  · have hne₁ : n ≠ m₁.current := by rw [hc]; exact hne
    have hleft := leaveSched_spec (m₁.switchTo n)
    refine ⟨?_, ?_, hleft.threadOk (switchTo_threadOk hne₁ (by rw [hl.eq]) hok), by rw [hleft.eq]⟩
    · have hmem : n ∈ m₁.order := mem_order_of_nextThread hnext hne₁
      rw [hleft.eq]
      exact hmem
    · rw [hleft.eq]; exact hlt

/-- A thread that runs kernel code is not dead, so waiting for a child never takes
the current thread off the list. -/
theorem Wf.lockedStep (hw : Wf m) {op : LockedOp} (h : m.lockedStep op = some m') : Wf m' := by
  obtain ⟨hr, -, hfree, hk⟩ := lockedStep_spec h
  refine ⟨?_, fun i hi => ?_, fun i => ?_, hfree⟩
  · rw [hr.current]
    rcases hr.order with ⟨ho, -⟩ | ⟨ho, -⟩ | ⟨-, i, hd, ho⟩
    · rw [ho]; exact hw.current_mem
    · rw [ho]; exact mem_append_left _ hw.current_mem
    · rcases hk with hk | hk
      · have hne : m.current ≠ i := by
          rintro rfl
          obtain ⟨side, hp⟩ := (hw.threads _).dead hd
          simp [runsKernel, cur, hp, Path.inKernel] at hk
        rw [ho]
        exact (mem_erase_of_ne hne).mpr hw.current_mem
      · rw [hk]; exact hw.current_mem
  · rcases hr.order with ⟨ho, hn⟩ | ⟨ho, hn, -⟩ | ⟨hn, j, -, ho⟩
    · rw [ho] at hi; rw [hn]; exact hw.order_lt i hi
    · rw [ho] at hi
      rw [hn]
      rcases mem_append.mp hi with hi | hi
      · exact Nat.lt_succ_of_lt (hw.order_lt i hi)
      · rw [mem_singleton.mp hi]; exact Nat.lt_succ_self _
    · rw [ho] at hi; rw [hn]; exact hw.order_lt i (mem_of_mem_erase hi)
  · by_cases hi : i ≠ m.nextTid ∨ m'.nextTid = m.nextTid
    · exact (hr.threads i hi).ok (hw.threads i)
    · obtain ⟨rfl, hn⟩ : i = m.nextTid ∧ m'.nextTid ≠ m.nextTid := by
        rwa [not_or, not_not] at hi
      rcases hr.order with ⟨-, hn'⟩ | ⟨-, -, pid, ppid, isUser, hth⟩ | ⟨hn', -⟩
      · exact absurd hn' hn
      · rw [hth]; exact ⟨fun hd => (nomatch hd), rfl⟩
      · exact absurd hn' hn

theorem Wf.cpuStep (hw : Wf m) {op : CpuOp} (h : m.cpuStep op = some m') : Wf m' := by
  have hb := (cpuStep_cases h).atBoundary
  refine ⟨by rw [hb.current, hb.order]; exact hw.current_mem,
    by rw [hb.order, hb.nextTid]; exact hw.order_lt, fun i => ?_, hb.lockHeld.trans hw.free⟩
  rcases eq_or_ne i m.current with rfl | hi
  · have hcur : m'.th m.current = m'.cur := by rw [cur, hb.current]
    rw [hcur]
    refine ⟨fun hd => ?_, hb.ctxIf.trans (hw.threads _).ctxIf⟩
    obtain ⟨side, hp⟩ := (hw.threads m.current).dead (hb.state ▸ hd)
    rcases hb.path with hp' | hne
    · exact ⟨side, hp'.trans hp⟩
    · exact absurd hp (hne side)
  · rw [hb.others i hi]; exact hw.threads i

/-- What a step is. -/
theorem step_cases {a : Action} (h : m.step a = some m') : m.panicked = false ∧
    ((∃ op, a = .cpu op ∧ m.cpuStep op = some m') ∨
      (∃ c, a = .call c ∧ m.canCall c = true ∧ m.schedCall c = some m') ∨
      ∃ op, a = .locked op ∧ m.lockedStep op = some m') := by
  unfold step at h
  split at h
  · cases h
  · next hp =>
    refine ⟨by simpa using hp, ?_⟩
    cases a with
    | cpu op => exact .inl ⟨op, rfl, h⟩
    | locked op => exact .inr (.inr ⟨op, rfl, h⟩)
    | call c =>
      dsimp only at h
      split at h
      · next hcan => exact .inr (.inl ⟨c, rfl, hcan, h⟩)
      · cases h

theorem Wf.step (hw : Wf m) {a : Action} (h : m.step a = some m') : Wf m' := by
  obtain ⟨-, ⟨op, -, hs⟩ | ⟨c, -, -, hs⟩ | ⟨op, -, hs⟩⟩ := step_cases h
  · exact hw.cpuStep hs
  · exact hw.schedCall hs
  · exact hw.lockedStep hs

/-- **Invariant rule.**  A property that holds after `sched_init`, and that every
step which meets the condition keeps in well-formed machines, holds in every
machine that such steps reach. -/
theorem ReachableIf.invariant {ok : Machine → Action → Prop} {P : Machine → Prop} (hboot : P booted)
    (hstep : ∀ m a m', Wf m → P m → ok m a → m.step a = some m' → P m') :
    ReachableIf ok m → Wf m ∧ P m := by
  intro hr
  refine Reach.invariant (I := fun m => Wf m ∧ P m) hr ?_ ?_
  · rintro m rfl
    exact ⟨wf_booted, hboot⟩
  · rintro m m' ⟨hw, hp⟩ ⟨a, hok, hs⟩
    exact ⟨hw.step hs, hstep m a m' hw hp hok hs⟩

theorem ReachableIf.runIf {ok : Machine → Action → Prop} [∀ m a, Decidable (ok m a)]
    {as : List Action} (h : ReachableIf ok m) (hr : m.runIf ok as = some m') :
    ReachableIf ok m' := by
  induction as generalizing m with
  | nil => exact some.inj hr ▸ h
  | cons a as ih =>
    rw [Machine.runIf] at hr
    split at hr
    · next hok =>
      obtain ⟨m₁, hs, hr⟩ := bind_eq_some_iff.mp hr
      exact ih (.step h ⟨a, hok, hs⟩) hr
    · cases hr

/-- The machine after the actions, or the same one if they cannot be done. -/
theorem ReachableIf.runIf_getD {ok : Machine → Action → Prop} [∀ m a, Decidable (ok m a)]
    (h : ReachableIf ok m) (as : List Action) : ReachableIf ok ((m.runIf ok as).getD m) := by
  cases hr : m.runIf ok as with
  | none => exact h
  | some m' => exact h.runIf hr

end Machine

end Neptune
