import Mathlib.Data.Option.Basic
import Neptune.Sched.Steps

/-!
# What a thread finds when it comes back from a switch

Three things of the processor are shared by all threads while their code treats
them as its own: the slot `gs:0x8` with the user stack pointer, the interrupt
flag saved in the lock of the scheduler, and the parity of `swapgs`.  For each of
them this file says under which condition on the steps of a run every thread
finds it as it left it, and gives a run without the condition where it does not.

## Main results

* `syscallReturn_rsp` — fast system calls return with the RSP they entered with.
* `callReturn_if` — scheduler calls return with the interrupt flag of the caller.
* `gs_parity` — `syscall_entry` accesses the per-CPU data, user code has its own base.
-/

namespace Neptune

open List

namespace Machine

variable {m m' : Machine}

/-! ### The frame of a scheduler call -/

theorem switchTo_path {n : ℕ} (hn : n ≠ m.current) (i : ℕ) :
    ((m.switchTo n).th i).path = (m.th i).path := by
  rw [switchTo_th hn]
  split
  · next hi => rw [hi]; rfl
  · split
    · next hi => rw [hi]; rfl
    · rfl

/-- A call leaves every thread where it is, but for a caller that exits. -/
structure Called (m : Machine) (c : Call) (m' : Machine) : Prop where
  gs : m'.gs = m.gs
  kernelGs : m'.kernelGs = m.kernelGs
  userRsp : m'.userRsp = m.userRsp
  order : m'.order = m.order
  panicked : m'.panicked = m.panicked
  path : ∀ i, (m'.th i).path = (m.th i).path ∨ (m'.th i).path = .exited (m.th i).path.side
  current : m'.current = m.current ∨ m.callTarget c = some m'.current
  trace : m'.trace = m.trace ∨ ∃ tid before after, m'.trace = .callReturn tid before after :: m.trace

theorem Locked.path_all {c : Call} (hl : Locked m c m') (i : ℕ) :
    (m'.th i).path = (m.th i).path ∨ (m'.th i).path = .exited (m.th i).path.side := by
  rcases eq_or_ne i m.current with rfl | hi
  · have hcur : m'.th m.current = m'.cur := by rw [cur, hl.eq]
    rw [hcur]
    exact hl.path
  · exact .inl (hl.others i hi).path

theorem Left.trace_cases (hl : Left m m') : m'.trace = m.trace ∨
    ∃ tid before after, m'.trace = .callReturn tid before after :: m.trace := by
  rcases hl.trace with h | ⟨before, -, h⟩
  · exact .inl h
  · exact .inr ⟨_, _, _, h⟩

theorem schedCall_called {c : Call} (h : m.schedCall c = some m') : Called m c m' := by
  obtain ⟨m₁, hl, ⟨-, rfl⟩ | ⟨n, htarget, hne, -, rfl⟩⟩ := schedCall_cases h
  · have hleft := leaveSched_spec m₁
    have htr : m₁.trace = m.trace := by rw [hl.eq]
    refine ⟨by rw [hleft.eq, hl.eq], by rw [hleft.eq, hl.eq], by rw [hleft.eq, hl.eq],
      by rw [hleft.eq, hl.eq], by rw [hleft.eq, hl.eq], fun i => ?_,
      .inl (by rw [hleft.eq, hl.eq]), htr ▸ hleft.trace_cases⟩
    rw [hleft.path]
    exact hl.path_all i
  · have hne₁ : n ≠ m₁.current := by rw [hl.eq]; exact hne
    have hleft := leaveSched_spec (m₁.switchTo n)
    have htr : (m₁.switchTo n).trace = m.trace := by rw [hl.eq]; rfl
    have hcur : (m₁.switchTo n).leaveSched.current = n := by rw [hleft.eq]; rfl
    refine ⟨by rw [hleft.eq, hl.eq]; rfl, by rw [hleft.eq, hl.eq]; rfl,
      by rw [hleft.eq, hl.eq]; rfl, by rw [hleft.eq, hl.eq]; rfl, by rw [hleft.eq, hl.eq]; rfl,
      fun i => ?_, .inr (by rw [hcur]; exact htarget), htr ▸ hleft.trace_cases⟩
    rw [hleft.path, switchTo_path hne₁]
    exact hl.path_all i

theorem Called.side {c : Call} (h : Called m c m') (i : ℕ) :
    (m'.th i).path.side = (m.th i).path.side := by
  rcases h.path i with hp | hp
  · rw [hp]
  · rw [hp]; rfl

theorem Called.mem_trace {c : Call} (h : Called m c m') {e : Event} (he : e ∈ m'.trace) :
    e ∈ m.trace ∨ ∃ tid before after, e = .callReturn tid before after := by
  rcases h.trace with ht | ⟨tid, before, after, ht⟩
  · exact .inl (ht ▸ he)
  · rw [ht] at he
    rcases mem_cons.mp he with he | he
    · exact .inr ⟨tid, before, after, he⟩
    · exact .inl he

/-! ### The user stack pointer -/

/-- The RSP with which a thread inside `syscall_entry` came in. -/
def Path.fastRsp : Path → Option ℕ
  | .fast rsp => some rsp
  | _ => none

/-- Every other thread that is inside a fast system call came in with the RSP of
the system call that begins. -/
def SlotFree (m : Machine) : Action → Prop
  | .cpu (.syscall rsp) => ∀ i ∈ m.order, i ≠ m.current →
      Path.fastRsp (m.th i).path = none ∨ Path.fastRsp (m.th i).path = some rsp
  | _ => True

instance (m : Machine) (a : Action) : Decidable (SlotFree m a) := by
  unfold SlotFree
  split <;> infer_instance

/-- The slot holds the RSP of every thread on the list that will load it. -/
def SlotKept (m : Machine) : Prop :=
  m.panicked = false → ∀ i ∈ m.order, ∀ r, (m.th i).path = .fast r → m.userRsp = r

def RspReturned (m : Machine) : Prop :=
  ∀ tid entered left, .syscallReturn tid entered left ∈ m.trace → left = entered

theorem SlotKept.schedCall {c : Call} (hk : SlotKept m) (h : Called m c m') : SlotKept m' := by
  intro hp i hi r hr
  rw [h.userRsp]
  rcases h.path i with hpath | hpath
  · exact hk (h.panicked ▸ hp) i (h.order ▸ hi) r (hpath ▸ hr)
  · rw [hpath] at hr
    cases hr

theorem SlotKept.lockedStep {op : LockedOp} (hk : SlotKept m)
    (hp : m.panicked = false) (h : m.lockedStep op = some m') : SlotKept m' := by
  obtain ⟨hr, -⟩ := lockedStep_spec h
  intro _ i hi r hpath
  rw [hr.userRsp]
  by_cases hnew : i ≠ m.nextTid ∨ m'.nextTid = m.nextTid
  · have hmem : i ∈ m.order := by
      rcases hr.order with ⟨ho, -⟩ | ⟨ho, hn, -⟩ | ⟨-, j, -, ho⟩
      · exact ho ▸ hi
      · rw [ho] at hi
        rcases mem_append.mp hi with hi | hi
        · exact hi
        · have := hnew.resolve_right (by omega)
          exact absurd (mem_singleton.mp hi) this
      · exact mem_of_mem_erase (ho ▸ hi)
    exact hk hp i hmem r ((hr.threads i hnew).path ▸ hpath)
  · obtain ⟨rfl, hn⟩ : i = m.nextTid ∧ m'.nextTid ≠ m.nextTid := by
      rwa [not_or, not_not] at hnew
    rcases hr.order with ⟨-, hn'⟩ | ⟨-, -, pid, ppid, isUser, hth⟩ | ⟨hn', -⟩
    · exact absurd hn' hn
    · rw [hth] at hpath; cases hpath
    · exact absurd hn' hn

/-- Only `syscall` brings a thread into the fast path. -/
theorem SlotKept.cpuStep {op : CpuOp} (hk : SlotKept m) (hp : m.panicked = false)
    (hok : SlotFree m (.cpu op)) (h : CpuCases m op m') : SlotKept m' := by
  intro hp' i hi r hr
  have hb := h.atBoundary
  have htarget := h.cur_path hp'
  rw [hb.order] at hi
  -- the slot is written by `syscall` alone
  have hrsp : (∀ rsp, op ≠ .syscall rsp) → m'.userRsp = m.userRsp := by
    intro hne
    cases h with
    | syscall rsp => exact absurd rfl (hne rsp)
    | syscallFault | sysret | sysretFault | int80 | exception | iret | enterUser
    | trampolineReturn => rfl
  rcases eq_or_ne i m.current with rfl | hne
  · have hth : m'.th m.current = m'.cur := by rw [Machine.cur, hb.current]
    rw [hth, htarget] at hr
    cases op with
    | syscall rsp =>
      obtain rfl := Path.fast.inj hr
      cases h with
      | syscall => rfl
      | syscallFault => cases hp'
    | trampolineReturn =>
      rw [hrsp (by rintro _ ⟨⟩)]
      exact hk hp _ hi r hr
    | sysret | int80 | exception | iret | enterUser => cases hr
  · rw [hb.others i hne] at hr
    cases op with
    | syscall rsp =>
      have hfree := hok i hi hne
      rw [hr] at hfree
      have hr' : rsp = r := (Option.some.inj (hfree.resolve_left (by rintro ⟨⟩))).symm
      cases h with
      | syscall => exact hr'
      | syscallFault => cases hp'
    | sysret | int80 | exception | iret | enterUser | trampolineReturn =>
      rw [hrsp (by rintro _ ⟨⟩)]
      exact hk hp i hi r hr

/-- The thread that returns is on the list, so the slot holds its RSP. -/
theorem RspReturned.cpuStep {op : CpuOp} (hw : Wf m) (hk : SlotKept m) (hp : m.panicked = false)
    (hret : RspReturned m) (h : CpuCases m op m') : RspReturned m' := by
  intro tid entered left hmem
  cases h with
  | sysret rsp hpath =>
    rcases mem_cons.mp hmem with he | hmem
    · obtain ⟨-, rfl, rfl⟩ := Event.syscallReturn.inj he
      exact hk hp m.current hw.current_mem entered hpath
    · rcases mem_cons.mp hmem with he | hmem
      · cases he
      · exact hret tid entered left hmem
  | syscall | syscallFault | sysretFault =>
    rcases mem_cons.mp hmem with he | hmem
    · cases he
    · exact hret tid entered left hmem
  | int80 | exception | iret | enterUser | trampolineReturn => exact hret tid entered left hmem

/-- **Fast system calls return with the RSP they entered with**, in every run in
which a system call only begins while the other threads inside fast system calls
came in with the same RSP. -/
theorem syscallReturn_rsp (h : ReachableIf SlotFree m) {tid entered left : ℕ}
    (hret : .syscallReturn tid entered left ∈ m.trace) : left = entered := by
  refine (ReachableIf.invariant (P := fun m => SlotKept m ∧ RspReturned m) ?_ ?_ h).2.2
    tid entered left hret
  · exact ⟨fun _ _ _ _ hr => (nomatch hr), fun _ _ _ hmem => (nomatch hmem)⟩
  · rintro m a m' hw ⟨hk, hr⟩ hok hstep
    obtain ⟨hp, ⟨op, rfl, hs⟩ | ⟨c, rfl, -, hs⟩ | ⟨op, rfl, hs⟩⟩ := step_cases hstep
    · have hc := cpuStep_cases hs
      exact ⟨hk.cpuStep hp hok hc, hr.cpuStep hw hk hp hc⟩
    · have hc := schedCall_called hs
      refine ⟨hk.schedCall hc, fun tid entered left hmem => ?_⟩
      rcases hc.mem_trace hmem with hmem | ⟨_, _, _, he⟩
      · exact hr tid entered left hmem
      · cases he
    · refine ⟨hk.lockedStep hp hs, fun tid entered left hmem => ?_⟩
      rw [(lockedStep_spec hs).1.trace] at hmem
      exact hr tid entered left hmem

/-- Two user threads; the first yields inside a fast system call, and the second
makes one of its own before the first returns. -/
def crossedCalls (rsp rsp' : ℕ) : List Action :=
  [.locked (.create (some 0)), .locked (.create (some 0)), .call .exit, .cpu .enterUser,
    .cpu (.syscall rsp), .call .yield, .cpu .enterUser, .cpu (.syscall rsp'), .call .yield,
    .cpu .sysret]

theorem syscallReturn_rsp_crossed : ∃ left, left = 111 ∧ .syscallReturn 1 111 left ∈
    ((booted.runIf SlotFree (crossedCalls 111 111)).getD booted).trace := by
  have hr : ReachableIf SlotFree booted := .init rfl
  have hmem : Event.syscallReturn 1 111 111 ∈
      ((booted.runIf SlotFree (crossedCalls 111 111)).getD booted).trace := by decide
  exact ⟨111, syscallReturn_rsp (hr.runIf_getD _) hmem, hmem⟩

/-- The second system call overwrites the slot of the first. -/
theorem syscallReturn_rsp_lost : ∃ m, Reachable m ∧
    ∃ tid entered left, .syscallReturn tid entered left ∈ m.trace ∧ left ≠ entered := by
  have hr : Reachable booted := .init rfl
  exact ⟨_, hr.runIf_getD (crossedCalls 111 222), 1, 111, 222, by decide, by decide⟩

/-! ### The interrupt flag -/

/-- The thread that a call switches to is not inside a call that it made with
another interrupt flag than the caller has now. -/
def FlagsMatch (m : Machine) : Action → Prop
  | .call c => ∀ n ∈ m.callTarget c, (m.th n).call = none ∨ (m.th n).call = some (m.callIf c)
  | _ => True

instance (m : Machine) (a : Action) : Decidable (FlagsMatch m a) := by
  unfold FlagsMatch
  split <;> infer_instance

def IfRestored (m : Machine) : Prop :=
  ∀ tid before after, .callReturn tid before after ∈ m.trace → after = before

theorem Left.ifRestored (hl : Left m m') (hret : IfRestored m)
    (hcall : ∀ before, m.cur.call = some before → (m.ifFlag || m.lockFlags) = before) :
    IfRestored m' := by
  intro tid before after hmem
  rcases hl.trace with ht | ⟨b, hb, ht⟩
  · exact hret tid before after (ht ▸ hmem)
  · rw [ht] at hmem
    rcases mem_cons.mp hmem with he | hmem
    · obtain ⟨-, rfl, rfl⟩ := Event.callReturn.inj he
      exact hcall _ hb
    · exact hret tid before after hmem

/-- The lock's flag is the caller's, and a thread is switched to with interrupts off. -/
theorem IfRestored.schedCall {c : Call} (hw : Wf m) (hret : IfRestored m)
    (hok : FlagsMatch m (.call c)) (h : m.schedCall c = some m') : IfRestored m' := by
  obtain ⟨m₁, hl, ⟨-, rfl⟩ | ⟨n, htarget, hne, -, rfl⟩⟩ := schedCall_cases h
  · refine (leaveSched_spec m₁).ifRestored (by rw [IfRestored, hl.eq]; exact hret) fun b hb => ?_
    rw [hl.call] at hb
    rw [hl.eq]
    exact Option.some.inj hb
  · have hne₁ : n ≠ m₁.current := by rw [hl.eq]; exact hne
    have hcur : (m₁.switchTo n).cur = (m₁.th n).switchIn :=
      (switchTo_th hne₁).trans (if_pos rfl)
    have hif : (m₁.switchTo n).ifFlag = false :=
      (switchTo_threadOk hne₁ (by rw [hl.eq]) (hl.threadOk hw.threads) n).ctxIf
    have hflags : (m₁.switchTo n).lockFlags = m.callIf c := by rw [hl.eq]; rfl
    refine (leaveSched_spec (m₁.switchTo n)).ifRestored ?_ fun b hb => ?_
    · rw [IfRestored, hl.eq]; exact hret
    · rw [hcur] at hb
      have hb' : (m.th n).call = some b := (hl.others n hne).call ▸ hb
      rw [hif, hflags, Bool.false_or]
      rcases hok n htarget with hnone | hsome
      · rw [hnone] at hb'; cases hb'
      · exact Option.some.inj (hsome.symm.trans hb')

/-- **Scheduler calls return with the interrupt flag of their caller**, in every
run in which a switch only goes to threads that were suspended with the flag of
the thread that switches. -/
theorem callReturn_if (h : ReachableIf FlagsMatch m) {tid : ℕ} {before after : Bool}
    (hret : .callReturn tid before after ∈ m.trace) : after = before := by
  refine (ReachableIf.invariant (P := IfRestored) ?_ ?_ h).2 tid before after hret
  · exact fun _ _ _ hmem => nomatch hmem
  · intro m a m' hw hr hok hstep
    obtain ⟨-, ⟨op, rfl, hs⟩ | ⟨c, rfl, -, hs⟩ | ⟨op, rfl, hs⟩⟩ := step_cases hstep
    · have hc := cpuStep_cases hs
      intro tid before after hmem
      cases hc with
      | sysret =>
        rcases mem_cons.mp hmem with he | hmem
        · cases he
        · rcases mem_cons.mp hmem with he | hmem
          · cases he
          · exact hr tid before after hmem
      | syscall | syscallFault | sysretFault =>
        rcases mem_cons.mp hmem with he | hmem
        · cases he
        · exact hr tid before after hmem
      | int80 | exception | iret | enterUser | trampolineReturn => exact hr tid before after hmem
    · exact hr.schedCall hw hok hs
    · intro tid before after hmem
      rw [(lockedStep_spec hs).1.trace] at hmem
      exact hr tid before after hmem

/-- Two kernel threads that yield to each other with interrupts on. -/
def kernelYields : List Action := [.locked (.create none), .call .yield, .call .yield]

theorem callReturn_if_kernelYields : ∃ after, after = true ∧ .callReturn 0 true after ∈
    ((booted.runIf FlagsMatch kernelYields).getD booted).trace := by
  have hr : ReachableIf FlagsMatch booted := .init rfl
  have hmem : .callReturn 0 true true ∈
      ((booted.runIf FlagsMatch kernelYields).getD booted).trace := by decide
  exact ⟨true, callReturn_if (hr.runIf_getD _) hmem, hmem⟩

/-- The idle thread yields with interrupts on to a user thread, which yields back
inside a fast system call, where they are off. -/
def idleAndCall : List Action :=
  [.locked (.create none), .locked (.create (some 0)), .call .exit, .call .yield,
    .cpu .enterUser, .cpu (.syscall 222), .call .yield]

/-- The idle thread comes back with interrupts off. -/
theorem callReturn_if_lost : ∃ m, Reachable m ∧
    ∃ tid before after, .callReturn tid before after ∈ m.trace ∧ after ≠ before := by
  have hr : Reachable booted := .init rfl
  exact ⟨_, hr.runIf_getD idleAndCall, 1, true, false, by decide, by decide⟩

/-! ### The parity of `swapgs` -/

/-- A switch goes to a thread whose code is written for the same GS base, and
`arch_enter_user` begins with the per-CPU base. -/
def SidesMatch (m : Machine) : Action → Prop
  | .call c => ∀ n ∈ m.callTarget c, (m.th n).path.side = m.cur.path.side
  | .cpu .enterUser => m.cur.path.side = .percpu
  | _ => True

instance (m : Machine) (a : Action) : Decidable (SidesMatch m a) := by
  unfold SidesMatch
  split <;> infer_instance

/-- The base that `swapgs` exchanges the given one with. -/
def GsBase.other : GsBase → GsBase
  | .percpu => .user
  | .user => .percpu

/-- The active base is the one that the current thread's code is written for. -/
structure Parity (m : Machine) : Prop where
  gs : m.gs = m.cur.path.side
  kernelGs : m.kernelGs = GsBase.other m.cur.path.side
  accesses : ∀ tid base, .gsAccess tid base ∈ m.trace → base = .percpu

theorem Parity.schedCall {c : Call} (hp : Parity m) (hok : SidesMatch m (.call c))
    (h : Called m c m') : Parity m' := by
  have hside : m'.cur.path.side = m.cur.path.side := by
    rw [cur, h.side]
    rcases h.current with hc | hc
    · rw [hc]; rfl
    · exact hok _ hc
  refine ⟨by rw [h.gs, hside]; exact hp.gs, by rw [h.kernelGs, hside]; exact hp.kernelGs, ?_⟩
  intro tid base hmem
  rcases h.mem_trace hmem with hmem | ⟨_, _, _, he⟩
  · exact hp.accesses tid base hmem
  · cases he

theorem Parity.lockedStep {op : LockedOp} (hw : Wf m) (hp : Parity m)
    (h : m.lockedStep op = some m') : Parity m' := by
  obtain ⟨hr, -⟩ := lockedStep_spec h
  have hpath : m'.cur.path = m.cur.path := by
    rw [cur, hr.current]
    exact (hr.threads _ (.inl (Nat.ne_of_lt (hw.order_lt _ hw.current_mem)))).path
  exact ⟨by rw [hr.gs, hpath]; exact hp.gs, by rw [hr.kernelGs, hpath]; exact hp.kernelGs,
    by rw [hr.trace]; exact hp.accesses⟩

theorem Parity.of_path {p : Path} (hpath : m.cur.path = p) (hgs : m.gs = p.side)
    (hkgs : m.kernelGs = GsBase.other p.side)
    (hacc : ∀ tid base, .gsAccess tid base ∈ m.trace → base = .percpu) : Parity m :=
  ⟨hpath ▸ hgs, hpath ▸ hkgs, hacc⟩

/-- With the right parity no access faults, and `swapgs` keeps it right. -/
theorem Parity.cpuStep {op : CpuOp} (hp : Parity m) (hok : SidesMatch m (.cpu op))
    (hpan : m.panicked = false) (h : CpuCases m op m') : Parity m' := by
  have hgs := hp.gs
  have hkgs := hp.kernelGs
  have htarget := h.cur_path
  cases h with
  | syscall rsp hpath hg =>
    rw [hpath] at hgs
    refine .of_path (htarget hpan) hg hgs fun tid base hmem => ?_
    rcases mem_cons.mp hmem with he | hmem
    · rw [(Event.gsAccess.inj he).2, hg]
    · exact hp.accesses tid base hmem
  | syscallFault rsp hpath hg => rw [hpath, hg] at hkgs; cases hkgs
  | sysret rsp hpath hg =>
    rw [hpath] at hkgs
    refine .of_path (htarget hpan) hkgs hg fun tid base hmem => ?_
    rcases mem_cons.mp hmem with he | hmem
    · cases he
    · rcases mem_cons.mp hmem with he | hmem
      · rw [(Event.gsAccess.inj he).2, hg]
      · exact hp.accesses tid base hmem
  | sysretFault rsp hpath hg => rw [hpath, hg] at hgs; cases hgs
  | int80 hpath | exception hpath =>
    rw [hpath] at hgs hkgs
    exact .of_path (htarget hpan) hgs hkgs hp.accesses
  | iret hpath =>
    have hside : m.cur.path.side = .user := by rcases hpath with hpath | hpath <;> rw [hpath] <;> rfl
    rw [hside] at hgs hkgs
    exact .of_path (htarget hpan) hgs hkgs hp.accesses
  | enterUser hk =>
    rw [show m.cur.path.side = .percpu from hok] at hgs hkgs
    exact .of_path (htarget hpan) hkgs hgs hp.accesses
  | trampolineReturn => exact .of_path (htarget hpan) hgs hkgs hp.accesses

/-- **The parity of `swapgs`**, in every run in which switches only pair threads
whose code is written for the same base, and `arch_enter_user` begins with the
per-CPU base: `syscall_entry` accesses the per-CPU data, and user code has its own
base. -/
theorem gs_parity (h : ReachableIf SidesMatch m) :
    (∀ tid base, .gsAccess tid base ∈ m.trace → base = .percpu) ∧
      (m.cur.path = .user → m.gs = .user) := by
  have hp : Parity m := by
    refine (ReachableIf.invariant ⟨rfl, rfl, fun _ _ hmem => (nomatch hmem)⟩ ?_ h).2
    intro m a m' hw hp hok hstep
    obtain ⟨hpan, ⟨op, rfl, hs⟩ | ⟨c, rfl, -, hs⟩ | ⟨op, rfl, hs⟩⟩ := step_cases hstep
    · exact hp.cpuStep hok hpan (cpuStep_cases hs)
    · exact hp.schedCall hok (schedCall_called hs)
    · exact hp.lockedStep hw hs
  refine ⟨hp.accesses, fun hpath => ?_⟩
  rw [hp.gs, hpath]
  rfl

/-- Two user threads make fast system calls and yield inside them. -/
theorem gs_parity_crossed :
    ((booted.runIf SidesMatch (crossedCalls 111 222)).getD booted).cur.path = .user ∧
      ((booted.runIf SidesMatch (crossedCalls 111 222)).getD booted).gs = .user := by
  have hr : ReachableIf SidesMatch booted := .init rfl
  have hpath : ((booted.runIf SidesMatch (crossedCalls 111 222)).getD booted).cur.path = .user := by
    decide
  exact ⟨hpath, (gs_parity (hr.runIf_getD _)).2 hpath⟩

/-- A user thread that makes the `EXEC` system call through `int 0x80`: nothing has
executed `swapgs` when `arch_enter_user` does. -/
def execByInt80 : List Action :=
  [.locked (.create (some 0)), .call .exit, .cpu .enterUser, .cpu .int80, .cpu .enterUser]

theorem gs_parity_lost : ∃ m, Reachable m ∧ ¬ ((∀ tid base, .gsAccess tid base ∈ m.trace →
    base = .percpu) ∧ (m.cur.path = .user → m.gs = .user)) := by
  have hr : Reachable booted := .init rfl
  refine ⟨_, hr.runIf_getD execByInt80, fun h => ?_⟩
  exact absurd (h.2 (by decide)) (by decide)

end Machine

end Neptune
