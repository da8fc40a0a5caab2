import Neptune.Sched.Invariant

/-!
# Waiting for children

A run of the scheduler together with its history: what every process was started with,
the exit code it set last, the processes that have exited, and the children that
`sched_wait_child` has returned.  Every child is returned at most once, to its own
parent and with its own exit code.

The processes are told apart by their pids, which are never used again; a block of
memory is.

## Main definitions

* `SchedState.Waits` — runs without `sched_kill_user_threads`.
* `WaitRun` — the scheduler and the history.
* `WaitRun.Accounts` — what the history says about the threads on the list.

## Main results

* `WaitRun.Fits.step` — one step.
* `WaitRun.exit_codes_delivered` — what holds along every run.
-/

namespace Neptune

namespace SchedState

open Function Option

variable {s s' : SchedState} {L A B : List ℕ} {Q : ℕ → List ℕ} {t q : ℕ}

/-! ### The operations -/

/-- Nobody calls `sched_kill_user_threads`, a parent is a process or the kernel, and a thread
goes to sleep only when another one can take over. -/
def Waits (s : SchedState) : Op → Prop
  | .killUserThreads => False
  | .sleep _ | .sleepCond _ false => s.state s.currentThread = .running ∧
    ∃ n ∈ s.threads, n ≠ s.currentThread ∧ s.state n = .runnable
  | .create _ (some parentPid) _ => 0 ≤ parentPid
  | _ => True

instance (s : SchedState) : (op : Op) → Decidable (s.Waits op)
  | .killUserThreads => inferInstanceAs (Decidable False)
  | .sleep _ | .sleepCond _ false => inferInstanceAs (Decidable (_ ∧ _))
  | .create _ (some _) _ => inferInstanceAs (Decidable (_ ≤ _))
  | .create _ none _ | .yield | .sleepCond _ true | .wakeOne _ | .wakeAll _ | .setExitCode _
  | .setCurrentAspace _ | .enterUser | .exit | .boot _ _ | .waitChild _ =>
    inferInstanceAs (Decidable True)

/-- The fields that a process is known by. -/
def account (s : SchedState) : (ℕ → ℤ) × (ℕ → ℤ) × (ℕ → Bool) × (ℕ → ℤ) × (ℕ → Bool) × ℤ :=
  (s.pid, s.ppid, s.isUser, s.exitCode, s.reaped, s.nextPid)

/-- A step that changes no account and lets nobody die. -/
structure Quiet (s s' : SchedState) : Prop where
  account : s'.account = s.account
  dead : ∀ t, s'.state t = .dead → s.state t = .dead

theorem Quiet.trans {u : SchedState} (h : Quiet s u) (h' : Quiet u s') : Quiet s s' :=
  ⟨h'.account.trans h.account, fun t ht => h.dead t (h'.dead t ht)⟩

theorem switchTo_quiet (n : ℕ) : Quiet s (s.switchTo n) := by
  refine ⟨rfl, fun t ht => ?_⟩
  simp only [SchedState.switchTo] at ht
  by_cases htn : t = n
  · subst htn
    simp at ht
  · rw [update_of_ne htn] at ht
    split at ht
    · next hrun =>
      by_cases htc : t = s.currentThread
      · subst htc
        simp at ht
      · rwa [update_of_ne htc] at ht
    · exact ht

/-- Rescheduling is quiet, and ends with a thread that is not blocked if there is one. -/
theorem Base.resched_quiet (h : Base s L Q) (he : s.resched = some s') :
    Quiet s s' ∧ ((s.state s.currentThread ≠ .blocked ∨
      ∃ n ∈ L, n ≠ s.currentThread ∧ s.state n = .runnable) →
      s'.state s'.currentThread ≠ .blocked) := by
  rcases h.linked.resched_cases h.current with ⟨n, -, -, -, hsome⟩ | ⟨hnone, hsome⟩
  · obtain rfl := some.inj (hsome.symm.trans he)
    refine ⟨switchTo_quiet n, fun _ => ?_⟩
    simp [SchedState.switchTo]
  · obtain rfl := some.inj (hsome.symm.trans he)
    have hawake : (s.state s.currentThread ≠ .blocked ∨
        ∃ n ∈ L, n ≠ s.currentThread ∧ s.state n = .runnable) →
        s.state s.currentThread ≠ .blocked := by
      rintro (hb | ⟨n, hn, hnc, hrun⟩)
      · exact hb
      · exact absurd hrun (hnone n hn hnc)
    split
    · exact ⟨⟨rfl, fun _ ht => ht⟩, hawake⟩
    · exact ⟨⟨rfl, fun _ ht => ht⟩, hawake⟩

theorem Quiet.of_update {st : ThreadState} (ha : s'.account = s.account)
    (hs : s'.state = update s.state t st) (hst : st ≠ .dead) : Quiet s s' := by
  refine ⟨ha, fun u hu => ?_⟩
  rw [hs] at hu
  by_cases hut : u = t
  · subst hut
    rw [update_self] at hu
    exact absurd hu hst
  · rwa [update_of_ne hut] at hu

theorem enqueue_quiet : Quiet s (s.enqueue q) := .of_update rfl rfl nofun

theorem wakeOne_quiet : Quiet s (s.wakeOne q) := by
  rw [SchedState.wakeOne]
  split
  · exact ⟨rfl, fun _ hu => hu⟩
  · exact .of_update rfl rfl (by rintro ⟨⟩)

theorem wakeAll_quiet (h : Base s L Q) (he : s.wakeAll q = some s') : Quiet s s' := by
  obtain ⟨hsome, -⟩ := h.queued.wakeAll (q := q) h.length_le
  obtain rfl := some.inj (hsome.symm.trans he)
  refine ⟨rfl, fun u hu => ?_⟩
  simp only [wokenAll] at hu
  split at hu
  · cases hu
  · exact hu

/-- The current thread still is not blocked when others have been woken. -/
theorem wakeOne_awake (hb : s.state s.currentThread ≠ .blocked) :
    (s.wakeOne q).state (s.wakeOne q).currentThread ≠ .blocked := by
  rw [SchedState.wakeOne]
  split
  · exact hb
  · by_cases hc : s.currentThread = s.head q
    · simp [setState, hc]
    · simp only [setState, update_of_ne hc]
      exact hb

theorem Base.wakeAll_awake (h : Base s L Q) (hb : s.state s.currentThread ≠ .blocked)
    (he : s.wakeAll q = some s') : s'.state s'.currentThread ≠ .blocked := by
  obtain ⟨hsome, -⟩ := h.queued.wakeAll (q := q) h.length_le
  obtain rfl := some.inj (hsome.symm.trans he)
  simp only [wokenAll]
  split
  · rintro ⟨⟩
  · exact hb

/-- What a new thread is known by. -/
theorem create_account {role : Role} {parentPid : Option ℤ} {stack : Bool}
    (he : s.create t role parentPid stack = some s') :
    (∀ u, u ≠ t → s'.pid u = s.pid u ∧ s'.ppid u = s.ppid u ∧ s'.isUser u = s.isUser u ∧
      s'.exitCode u = s.exitCode u ∧ s'.reaped u = s.reaped u) ∧
    s'.exitCode t = 0 ∧
    (parentPid = none → s'.isUser t = false ∧ s'.pid t = 0 ∧ s'.nextPid = s.nextPid) ∧
    ∀ p, parentPid = some p → s'.isUser t = true ∧ s'.pid t = s.nextPid ∧ s'.ppid t = p ∧
      s'.reaped t = false ∧ s'.nextPid = s.nextPid + 1 := by
  rw [create] at he
  split at he
  · cases he
  · obtain rfl := some.inj he
    cases stack <;> cases parentPid <;>
      simp +contextual [initThread, threadAlloc, kallocThread, listAppend, listRemove, kfreeThread]

end SchedState

/-! ### Runs with their history -/

/-- A call of `sched_wait_child` that has returned a child. -/
structure Delivery where
  parentPid : ℤ
  pid : ℤ
  code : ℤ
  deriving DecidableEq, Repr

/-- The scheduler, and what has happened. -/
structure WaitRun where
  sched : SchedState
  /-- The parent that a process was started with. -/
  parentOf : ℤ → ℤ
  /-- The exit code that a process has set last. -/
  codeOf : ℤ → ℤ
  /-- The processes that have exited, newest first. -/
  exited : List ℤ
  /-- The children that have been returned, newest first. -/
  returned : List Delivery

namespace WaitRun

open Function List Option
open SchedState (Op Good Base Quiet WaitResult)

/-- The parent of the process that a step starts. -/
def starts (s : SchedState) : Op → Option ℤ
  | .create _ parentPid _ => parentPid
  | .boot _ configured => if s.bootPc = 2 ∧ configured then some 0 else none
  | _ => none

/-- The process that exits. -/
def exits (s : SchedState) : Op → List ℤ
  | .exit => [s.pid s.currentThread]
  | .boot _ _ => if s.bootPc = 3 then [s.pid s.currentThread] else []
  | _ => []

/-- What a pass of `sched_wait_child` returns. -/
def returns (s : SchedState) : Op → List Delivery
  | .waitChild parentPid =>
    match s.waitPass parentPid with
    | some (.reaped pid code, _) => [⟨parentPid, pid, code⟩]
    | _ => []
  | _ => []

/-- The parents when a process may have been started. -/
def parents (r : WaitRun) : Option ℤ → ℤ → ℤ
  | some p => update r.parentOf r.sched.nextPid p
  | none => r.parentOf

/-- A step, with the history. -/
def step (r : WaitRun) (op : Op) : Option WaitRun :=
  (r.sched.step op).map fun s' =>
    { sched := s'
      parentOf := r.parents (starts r.sched op)
      codeOf := match op with
        | .setExitCode code => update r.codeOf (r.sched.pid r.sched.currentThread) code
        | _ => r.codeOf
      exited := exits r.sched op ++ r.exited
      returned := returns r.sched op ++ r.returned }

/-- `sched_init`. -/
def init (t pml4 : ℕ) : WaitRun := ⟨SchedState.schedInit t pml4, fun _ => 0, fun _ => 0, [], []⟩

/-- The runs in which nobody calls `sched_kill_user_threads`. -/
def Reachable : WaitRun → Prop :=
  Reach (fun r => ∃ t pml4, t ≠ 0 ∧ r = init t pml4)
    fun r r' => ∃ op, r.sched.Waits op ∧ r.step op = some r'

/-- What the history says about a user thread. -/
structure Known (r : WaitRun) (t : ℕ) : Prop where
  pid_pos : 1 ≤ r.sched.pid t
  pid_lt : r.sched.pid t < r.sched.nextPid
  parent : r.sched.ppid t = r.parentOf (r.sched.pid t)
  parent_nonneg : 0 ≤ r.sched.ppid t
  code : r.sched.exitCode t = r.codeOf (r.sched.pid t)
  waiting : r.sched.reaped t = false
  dead : r.sched.state t = .dead → r.sched.pid t ∈ r.exited
  gone : ∀ d ∈ r.returned, r.sched.pid t ≠ d.pid

/-- What the history says about a child that has been returned. -/
structure Told (r : WaitRun) (d : Delivery) : Prop where
  pid_pos : 1 ≤ d.pid
  pid_lt : d.pid < r.sched.nextPid
  parent : d.parentPid = r.parentOf d.pid
  code : d.code = r.codeOf d.pid
  exited : d.pid ∈ r.exited

/-- The history fits the threads on the list `L`. -/
structure Accounts (r : WaitRun) (L : List ℕ) : Prop where
  next_pos : 1 ≤ r.sched.nextPid
  kernel : ∀ t ∈ L, r.sched.isUser t = false → r.sched.pid t = 0
  known : ∀ t ∈ L, r.sched.isUser t → r.Known t
  inj : ∀ t ∈ L, ∀ t' ∈ L, r.sched.isUser t → r.sched.isUser t' →
    r.sched.pid t = r.sched.pid t' → t = t'
  code_fresh : ∀ p, r.sched.nextPid ≤ p → r.codeOf p = 0
  once : (r.returned.map Delivery.pid).Nodup
  told : ∀ d ∈ r.returned, r.Told d

variable {r r' : WaitRun} {s' : SchedState} {L L' A B : List ℕ} {Q : ℕ → List ℕ} {t z : ℕ}

/-! ### What a step does to the history -/

/-- The history gets longer, and what it says about old processes stays. -/
structure Longer (r r' : WaitRun) : Prop where
  next : r.sched.nextPid ≤ r'.sched.nextPid
  parent : ∀ p, p < r.sched.nextPid → r'.parentOf p = r.parentOf p
  exited : ∀ p ∈ r.exited, p ∈ r'.exited

/-- A thread is known by the same things; if it is dead now it was before, or has exited. -/
structure Same (r r' : WaitRun) (t : ℕ) : Prop where
  isUser : r'.sched.isUser t = r.sched.isUser t
  pid : r'.sched.pid t = r.sched.pid t
  ppid : r'.sched.ppid t = r.sched.ppid t
  reaped : r'.sched.reaped t = r.sched.reaped t
  code : r.sched.isUser t → r.sched.exitCode t = r.codeOf (r.sched.pid t) →
    r'.sched.exitCode t = r'.codeOf (r.sched.pid t)
  dead : r'.sched.state t = .dead → r.sched.state t = .dead ∨ r.sched.pid t ∈ r'.exited

theorem Known.same (h : Known r t) (hu : r.sched.isUser t) (hl : Longer r r') (hs : Same r r' t)
    (hgone : ∀ d ∈ r'.returned, r.sched.pid t ≠ d.pid) : Known r' t := by
  have hpid := hs.pid
  constructor
  · exact hpid ▸ h.pid_pos
  · rw [hpid]
    exact Int.lt_of_lt_of_le h.pid_lt hl.next
  · rw [hs.ppid, hpid, hl.parent _ h.pid_lt]
    exact h.parent
  · exact hs.ppid ▸ h.parent_nonneg
  · rw [hpid]
    exact hs.code hu h.code
  · exact hs.reaped ▸ h.waiting
  · intro hdead
    rw [hpid]
    exact (hs.dead hdead).elim (fun hd => hl.exited _ (h.dead hd)) id
  · exact hpid ▸ hgone

/-- **The accounts after a step**: the old threads are the same, a new user thread has a new
pid, and the children that are returned are told about. -/
theorem Accounts.advance (h : Accounts r L) (hl : Longer r r')
    (hold : ∀ t ∈ L', t ∈ L → Same r r' t)
    (hkernel : ∀ t ∈ L', t ∉ L → r'.sched.isUser t = false → r'.sched.pid t = 0)
    (hnew : ∀ t ∈ L', t ∉ L → r'.sched.isUser t → r'.Known t ∧ r'.sched.pid t = r.sched.nextPid)
    (hone : ∀ t ∈ L', ∀ t' ∈ L', t ∉ L → t' ∉ L → t = t')
    (hfresh : ∀ p, r'.sched.nextPid ≤ p → r'.codeOf p = 0)
    (honce : (r'.returned.map Delivery.pid).Nodup) (htold : ∀ d ∈ r'.returned, r'.Told d)
    (hgone : ∀ t ∈ L', t ∈ L → r.sched.isUser t → ∀ d ∈ r'.returned, r.sched.pid t ≠ d.pid) :
    Accounts r' L' := by
  have hlt : ∀ t ∈ L', t ∈ L → r'.sched.isUser t → r'.sched.pid t < r.sched.nextPid := by
    intro t ht htL hu
    have hs := hold t ht htL
    rw [hs.pid]
    exact (h.known t htL (hs.isUser ▸ hu)).pid_lt
  refine ⟨Int.le_trans h.next_pos hl.next, fun t ht hu => ?_, fun t ht hu => ?_,
    fun t ht t' ht' hu hu' hpid => ?_, hfresh, honce, htold⟩
  · by_cases htL : t ∈ L
    · have hs := hold t ht htL
      exact hs.pid.trans (h.kernel t htL (hs.isUser ▸ hu))
    · exact hkernel t ht htL hu
  · by_cases htL : t ∈ L
    · have hs := hold t ht htL
      have hu' := hs.isUser ▸ hu
      exact (h.known t htL hu').same hu' hl hs (hgone t ht htL hu')
    · exact (hnew t ht htL hu).1
  · by_cases htL : t ∈ L
    · by_cases htL' : t' ∈ L
      · have hs := hold t ht htL
        have hs' := hold t' ht' htL'
        rw [hs.pid, hs'.pid] at hpid
        exact h.inj t htL t' htL' (hs.isUser ▸ hu) (hs'.isUser ▸ hu') hpid
      · -- an old pid and a new one
        have h₁ := hlt t ht htL hu
        have h₂ := (hnew t' ht' htL' hu').2
        omega
    · by_cases htL' : t' ∈ L
      · have h₁ := hlt t' ht' htL' hu'
        have h₂ := (hnew t ht htL hu).2
        omega
      · exact hone t ht t' ht' htL htL'

/-- A step that starts no process and returns no child. -/
theorem Accounts.same (h : Accounts r L) (hl : Longer r r') (hsub : ∀ t ∈ L', t ∈ L)
    (hold : ∀ t ∈ L', Same r r' t) (hnext : r'.sched.nextPid = r.sched.nextPid)
    (hcode : ∀ p, 1 ≤ p → (∀ t ∈ L, r.sched.isUser t → r.sched.pid t ≠ p) → r'.codeOf p = r.codeOf p)
    (hret : r'.returned = r.returned) : Accounts r' L' := by
  have hgone : ∀ d ∈ r.returned, ∀ t ∈ L, r.sched.isUser t → r.sched.pid t ≠ d.pid :=
    fun d hd t ht hu => (h.known t ht hu).gone d hd
  refine h.advance hl (fun t ht _ => hold t ht) (fun t ht hn => absurd (hsub t ht) hn)
    (fun t ht hn => absurd (hsub t ht) hn) (fun t ht _ _ hn => absurd (hsub t ht) hn)
    (fun p hp => ?_) (hret ▸ h.once) (fun d hd => ?_)
    (fun t _ ht hu d hd => hgone d (hret ▸ hd) t ht hu)
  · rw [hnext] at hp
    rw [hcode p (Int.le_trans h.next_pos hp)
      fun t ht hu => Int.ne_of_lt (Int.lt_of_lt_of_le (h.known t ht hu).pid_lt hp)]
    exact h.code_fresh p hp
  · rw [hret] at hd
    have ht := h.told d hd
    refine ⟨ht.pid_pos, hnext ▸ ht.pid_lt, ?_, ?_, hl.exited _ ht.exited⟩
    · rw [hl.parent _ ht.pid_lt]
      exact ht.parent
    · rw [hcode _ ht.pid_pos (hgone d hd)]
      exact ht.code

theorem Longer.sched (hnext : s'.nextPid = r.sched.nextPid) : Longer r { r with sched := s' } :=
  ⟨Int.le_of_eq hnext.symm, fun _ _ => rfl, fun _ hp => hp⟩

/-! ### The operations -/

theorem Accounts.quiet (h : Accounts r L) (hq : Quiet r.sched s') :
    Accounts { r with sched := s' } L := by
  have hacc := hq.account
  simp only [SchedState.account, Prod.mk.injEq] at hacc
  obtain ⟨hpid, hppid, huser, hcode, hreaped, hnext⟩ := hacc
  refine h.same (.sched hnext) (fun _ ht => ht) (fun t _ => ?_) hnext (fun _ _ _ => rfl) rfl
  exact ⟨congrFun huser t, congrFun hpid t, congrFun hppid t, congrFun hreaped t,
    fun _ => (congrFun hcode t).trans, fun hd => .inl (hq.dead t hd)⟩

theorem Accounts.subset (h : Accounts r L) (hsub : ∀ t ∈ L', t ∈ L) : Accounts r L' :=
  h.same (.sched rfl) hsub (fun _ _ => ⟨rfl, rfl, rfl, rfl, fun _ => id, .inl⟩) rfl (fun _ _ _ => rfl) rfl

/-- The current thread exits. -/
theorem Accounts.die (h : Accounts r L)
    (hq : Quiet (r.sched.setState r.sched.currentThread .dead) s') :
    Accounts { r with sched := s', exited := r.sched.pid r.sched.currentThread :: r.exited } L := by
  have hacc := hq.account
  simp only [SchedState.account, SchedState.setState, Prod.mk.injEq] at hacc
  obtain ⟨hpid, hppid, huser, hcode, hreaped, hnext⟩ := hacc
  have hl : Longer r
      { r with sched := s', exited := r.sched.pid r.sched.currentThread :: r.exited } :=
    ⟨Int.le_of_eq hnext.symm, fun _ _ => rfl, fun _ hp => mem_cons_of_mem _ hp⟩
  refine h.same hl (fun _ ht => ht) (fun t _ => ?_) hnext (fun _ _ _ => rfl) rfl
  refine ⟨congrFun huser t, congrFun hpid t, congrFun hppid t, congrFun hreaped t,
    fun _ => (congrFun hcode t).trans, fun hd => ?_⟩
  have hdead := hq.dead t hd
  by_cases htc : t = r.sched.currentThread
  · subst htc
    right
    simp
  · rw [SchedState.setState_state, update_of_ne htc] at hdead
    exact .inl hdead

/-- The current thread sets its exit code. -/
theorem Accounts.setExitCode {code : ℤ} (h : Accounts r L) (hc : r.sched.currentThread ∈ L) :
    Accounts
      { r with
        sched := { r.sched with exitCode := update r.sched.exitCode r.sched.currentThread code }
        codeOf := update r.codeOf (r.sched.pid r.sched.currentThread) code } L := by
  -- a kernel thread has pid 0, which no process has
  have hother : ∀ p, 1 ≤ p → (∀ t ∈ L, r.sched.isUser t → r.sched.pid t = p →
      t ≠ r.sched.currentThread) → p ≠ r.sched.pid r.sched.currentThread := by
    intro p hp hne hpid
    cases hu : r.sched.isUser r.sched.currentThread with
    | true => exact hne _ hc hu hpid.symm rfl
    | false =>
      have hzero := h.kernel _ hc hu
      omega
  refine h.same ⟨Int.le_refl _, fun _ _ => rfl, fun _ hp => hp⟩ (fun _ ht => ht) (fun t ht => ?_)
    rfl (fun p hp hnone => ?_) rfl
  · refine ⟨rfl, rfl, rfl, rfl, fun hu hcode => ?_, .inl⟩
    by_cases htc : t = r.sched.currentThread
    · simp [htc]
    · have hne := hother (r.sched.pid t) (h.known t ht hu).pid_pos
        fun t' ht' hu' hpid => (h.inj t' ht' t ht hu' hu hpid).symm ▸ htc
      simp only [update_of_ne htc, update_of_ne hne]
      exact hcode
  · exact update_of_ne (hother p hp fun t ht hu hpid => absurd hpid (hnone t ht hu)) _ _

/-- A thread is started. -/
theorem Accounts.append {role : Role} {parentPid : Option ℤ} {stack : Bool} (h : Accounts r L)
    (ht : t ∉ L) (hp : ∀ p, parentPid = some p → 0 ≤ p)
    (he : r.sched.create t role parentPid stack = some s') :
    Accounts { r with sched := s', parentOf := r.parents parentPid } (L ++ [t]) := by
  obtain ⟨hold, hcode, hkernel, hnew⟩ := SchedState.create_account he
  obtain ⟨-, -, hcreated, -, -⟩ := SchedState.create_spec he
  have honly : ∀ {u}, u ∈ L ++ [t] → u ∉ L → u = t := by
    intro u hu hn
    simpa [hn] using hu
  have hnext : r.sched.nextPid ≤ s'.nextPid := by
    cases parentPid with
    | none => exact Int.le_of_eq (hkernel rfl).2.2.symm
    | some p =>
      obtain ⟨-, -, -, -, hnext⟩ := hnew p rfl
      omega
  have hparent : ∀ q, q < r.sched.nextPid → r.parents parentPid q = r.parentOf q := by
    intro q hq
    cases parentPid with
    | none => rfl
    | some p => exact update_of_ne (Int.ne_of_lt hq) _ _
  refine h.advance ⟨hnext, hparent, fun _ hp => hp⟩ (fun u _ hu => ?_) (fun u hu hn hk => ?_)
    (fun u hu hn huser => ?_) (fun u hu u' hu' hn hn' => (honly hu hn).trans (honly hu' hn').symm)
    (fun q hq => h.code_fresh q (Int.le_trans hnext hq)) h.once (fun d hd => ?_)
    (fun u _ hu huser => (h.known u hu huser).gone)
  · have hut : u ≠ t := fun e => ht (e ▸ hu)
    obtain ⟨hpid, hppid, huser, hexit, hreaped⟩ := hold u hut
    refine ⟨huser, hpid, hppid, hreaped, fun _ => hexit.trans, fun hd => .inl ?_⟩
    exact (hcreated.state hut).symm.trans hd
  · obtain rfl := honly hu hn
    cases parentPid with
    | none => exact (hkernel rfl).2.1
    | some p => exact absurd ((hnew p rfl).1.symm.trans hk) nofun
  · obtain rfl := honly hu hn
    cases parentPid with
    | none => exact absurd ((hkernel rfl).1.symm.trans huser) nofun
    | some p =>
      obtain ⟨-, hpid, hppid, hreaped, hnext'⟩ := hnew p rfl
      refine ⟨⟨?_, ?_, ?_, ?_, ?_, hreaped, fun hd => ?_, fun d hd => ?_⟩, hpid⟩
      · exact hpid ▸ h.next_pos
      · rw [hpid, hnext']
        exact Int.lt_succ _
      · simp [hpid, hppid, parents]
      · exact hppid ▸ hp p rfl
      · rw [hpid, hcode]
        exact (h.code_fresh _ (Int.le_refl _)).symm
      · exact absurd (hcreated.runnable.symm.trans hd) nofun
      · rw [hpid]
        exact (Int.ne_of_lt (h.told d hd).pid_lt).symm
  · have htold := h.told d hd
    exact ⟨htold.pid_pos, Int.lt_of_lt_of_le htold.pid_lt hnext,
      htold.parent.trans (hparent _ htold.pid_lt).symm, htold.code, htold.exited⟩

/-- A zombie is returned. -/
theorem Accounts.reap {parentPid : ℤ} (h : Accounts r (A ++ z :: B))
    (hnodup : (A ++ z :: B).Nodup) (hz : r.sched.IsZombie parentPid z) :
    Accounts
      { r with
        sched := r.sched.reap z
        returned := ⟨parentPid, r.sched.pid z, r.sched.exitCode z⟩ :: r.returned } (A ++ B) := by
  obtain ⟨⟨huser, hppid⟩, hdead, -⟩ := hz
  have hzL : z ∈ A ++ z :: B := by simp
  have hknown := h.known z hzL huser
  have hsub : ∀ t ∈ A ++ B, t ∈ A ++ z :: B := by
    intro t ht
    simp only [mem_append, mem_cons] at ht ⊢
    tauto
  have hne : ∀ t ∈ A ++ B, t ≠ z := by
    rintro t ht rfl
    exact (nodup_cons.mp (perm_middle.nodup_iff.mp hnodup)).1 ht
  refine h.advance ⟨Int.le_refl _, fun _ _ => rfl, fun _ hp => hp⟩ (fun t ht _ => ?_)
    (fun t ht hn => absurd (hsub t ht) hn) (fun t ht hn => absurd (hsub t ht) hn)
    (fun t ht _ _ hn => absurd (hsub t ht) hn) h.code_fresh ?_ (fun d hd => ?_)
    (fun t ht htL hu d hd => ?_)
  · exact ⟨rfl, rfl, rfl, update_of_ne (hne t ht) _ _, fun _ => id, .inl⟩
  · refine nodup_cons.mpr ⟨fun hmem => ?_, h.once⟩
    obtain ⟨d, hd, hpid⟩ := mem_map.mp hmem
    exact hknown.gone d hd hpid.symm
  · rcases mem_cons.mp hd with rfl | hd
    · exact ⟨hknown.pid_pos, hknown.pid_lt, hppid.symm.trans hknown.parent, hknown.code,
        hknown.dead hdead⟩
    · have ht := h.told d hd
      exact ⟨ht.pid_pos, ht.pid_lt, ht.parent, ht.code, ht.exited⟩
  · rcases mem_cons.mp hd with rfl | hd
    · -- two threads on the list have different pids
      exact fun hpid => hne t ht (h.inj t htL z hzL hu huser hpid)
    · exact (h.known t htL hu).gone d hd

/-! ### Steps and runs -/

/-- The invariant of a run with its history. -/
structure Fits (r : WaitRun) (L : List ℕ) (Q : ℕ → List ℕ) : Prop where
  good : Good r.sched L Q
  accounts : Accounts r L
  awake : r.sched.state r.sched.currentThread ≠ .blocked

/-- A step that only changes what the invariant says nothing about. -/
theorem Fits.still (h : Fits r L Q) (hskel : s'.skeleton = r.sched.skeleton)
    (hacc : s'.account = r.sched.account) (hstate : s'.state = r.sched.state)
    (hcur : s'.currentThread = r.sched.currentThread) : Fits { r with sched := s' } L Q := by
  refine ⟨h.good.congr hskel, h.accounts.quiet ⟨hacc, fun t ht => ?_⟩, ?_⟩
  · rwa [hstate] at ht
  · rw [hstate, hcur]
    exact h.awake

theorem Fits.create {role : Role} {parentPid : Option ℤ} {stack : Bool} (h : Fits r L Q)
    (hp : ∀ p, parentPid = some p → 0 ≤ p) (he : r.sched.create t role parentPid stack = some s') :
    Fits { r with sched := s', parentOf := r.parents parentPid } (if stack then L ++ [t] else L)
      Q := by
  obtain ⟨-, hfree, hnew, -, -⟩ := SchedState.create_spec he
  have ht : t ∉ L := fun hmem => hfree ((h.good.allocated t).mpr hmem)
  have hcur : r.sched.currentThread ≠ t := fun e => ht (e ▸ h.good.current)
  refine ⟨(h.good.create he).1, (h.accounts.append ht hp he).subset fun u hu => ?_, ?_⟩
  · split at hu
    · exact hu
    · exact mem_append_left _ hu
  · rw [hnew.current, hnew.state hcur]
    exact h.awake

theorem Fits.resched (h : Fits r L Q) (he : r.sched.resched = some s') :
    Fits { r with sched := s' } L Q := by
  obtain ⟨u, hu, hgood, -⟩ := h.good.toBase.resched
  obtain rfl := some.inj (hu.symm.trans he)
  obtain ⟨hq, hawake⟩ := h.good.resched_quiet he
  exact ⟨hgood, h.accounts.quiet hq, hawake (.inl h.awake)⟩

theorem Fits.exit (h : Fits r L Q) (he : r.sched.exit = some s') :
    Fits { r with sched := s', exited := r.sched.pid r.sched.currentThread :: r.exited } L Q := by
  obtain ⟨u, hu, hgood, -⟩ := h.good.toBase.exit h.awake
  obtain rfl := some.inj (hu.symm.trans he)
  obtain ⟨hq, hawake⟩ := (h.good.toBase.die h.awake).resched_quiet he
  refine ⟨hgood, h.accounts.die hq, hawake (.inl ?_)⟩
  simp [SchedState.setState]

/-- Somebody else takes over when a thread goes to sleep. -/
theorem Fits.sleep {q : ℕ} (h : Fits r L Q) (hw : r.sched.Waits (.sleep q))
    (he : r.sched.sleep q = some s') : ∃ Q', Fits { r with sched := s' } L Q' := by
  obtain ⟨hrun, n, hn, hnc, hnrun⟩ := hw
  rw [h.good.linked.threads_eq] at hn
  obtain ⟨u, hu, hgood, -⟩ := h.good.toBase.sleep (q := q) h.awake (by rw [hrun]; nofun)
  obtain rfl := some.inj (hu.symm.trans he)
  obtain ⟨hq, hawake⟩ := (h.good.toBase.enqueue (q := q) h.awake).resched_quiet he
  refine ⟨_, hgood, h.accounts.quiet (SchedState.enqueue_quiet.trans hq),
    hawake (.inr ⟨n, hn, hnc, ?_⟩)⟩
  exact (update_of_ne hnc _ _).trans hnrun

/-- A pass of `sched_wait_child`. -/
theorem Fits.waitPass {parentPid : ℤ} {res : WaitResult} (h : Fits r L Q)
    (hh : r.sched.halted r.sched.currentThread = false)
    (he : r.sched.waitPass parentPid = some (res, s')) :
    ∃ L', Fits
      { r with
        sched := s'
        returned := returns r.sched (.waitChild parentPid) ++ r.returned } L' Q := by
  have hsame : ∀ res', r.sched.waitPass parentPid = some (res', r.sched) →
      (∀ pid code, res' ≠ .reaped pid code) →
      ∃ L', Fits
        { r with
          sched := s'
          returned := returns r.sched (.waitChild parentPid) ++ r.returned } L' Q := by
    intro res' hres hne
    obtain ⟨rfl, rfl⟩ := Prod.mk.inj (some.inj (hres.symm.trans he))
    refine ⟨L, ?_⟩
    rw [returns, hres]
    cases res' with
    | reaped pid code => exact absurd rfl (hne pid code)
    | noChild => exact h
    | again => exact h
  by_cases hp : parentPid < 0
  · exact hsame .noChild (by rw [SchedState.waitPass, if_pos hp]) (by rintro _ _ ⟨⟩)
  · rcases h.good.linked.waitPass_cases (Int.not_lt.mp hp) with ⟨z, hzL, hz, hsome⟩ | ⟨-, hsome⟩
    · obtain ⟨rfl, rfl⟩ := Prod.mk.inj (some.inj (hsome.symm.trans he))
      obtain ⟨A, B, rfl⟩ := append_of_mem hzL
      -- the caller itself is no zombie
      have hc : z ≠ r.sched.currentThread := by
        rintro rfl
        simpa [hz.2.2, hh] using h.good.dead hz.2.1
      refine ⟨A ++ B, (h.good.reap hz.2.1 hc).1, ?_, h.awake⟩
      rw [returns, hsome]
      exact h.accounts.reap h.good.linked.dlist.nodup hz
    · exact hsame _ hsome (by split <;> rintro _ _ ⟨⟩)

theorem Fits.boot {configured : Bool} (h : Fits r L Q) (he : r.sched.boot t configured = some s') :
    ∃ L', Fits
      { r with
        sched := s'
        parentOf := r.parents (starts r.sched (.boot t configured))
        exited := exits r.sched (.boot t configured) ++ r.exited } L' Q := by
  have hcreate : ∀ {role : Role} {parentPid : Option ℤ}, (∀ p, parentPid = some p → 0 ≤ p) →
      (r.sched.create t role parentPid true).map (fun u => { u with bootPc := u.bootPc + 1 }) =
        some s' →
      Fits { r with sched := s', parentOf := r.parents parentPid } (L ++ [t]) Q := by
    intro role parentPid hp he
    obtain ⟨u, hu, rfl⟩ := map_eq_some_iff.mp he
    have hnew := h.create hp hu
    exact hnew.still rfl rfl rfl rfl
  have hskip : some { r.sched with bootPc := r.sched.bootPc + 1 } = some s' →
      Fits { r with sched := s' } L Q := by
    intro he
    obtain rfl := some.inj he
    exact h.still rfl rfl rfl rfl
  rw [SchedState.boot] at he
  simp only [starts, exits]
  split at he
  · next hpc =>
    rw [hpc]
    exact ⟨_, hcreate (by intro p hp; simp at hp) he⟩
  · next hpc =>
    rw [hpc]
    split at he
    · exact ⟨_, hcreate (by intro p hp; simp at hp) he⟩
    · exact ⟨_, hskip he⟩
  · next hpc =>
    rw [hpc]
    split at he
    · next hconf =>
      subst hconf
      exact ⟨_, hcreate (by simp) he⟩
    · next hconf =>
      rw [if_neg (by simp [hconf])]
      exact ⟨_, hskip he⟩
  · next hpc =>
    -- `sched_start` ends `kernel_main`
    rw [hpc]
    have hnext : Fits { r with sched := { r.sched with bootPc := r.sched.bootPc + 1 } } L Q :=
      h.still rfl rfl rfl rfl
    exact ⟨_, hnext.exit he⟩
  · cases he

/-- **One step** keeps the history right. -/
theorem Fits.step {op : Op} (h : Fits r L Q) (hw : r.sched.Waits op) (hs : r.step op = some r') :
    ∃ L' Q', Fits r' L' Q' := by
  obtain ⟨s', hs', rfl⟩ := map_eq_some_iff.mp hs
  rw [SchedState.step] at hs'
  split at hs'
  · cases hs'
  · next hhalt =>
    cases op with
    | boot t configured =>
      simp only [SchedState.run] at hs'
      split at hs'
      · obtain ⟨L', hfits⟩ := h.boot hs'
        exact ⟨L', Q, hfits⟩
      · cases hs'
    | create t parentPid stack =>
      have hp : ∀ p, parentPid = some p → 0 ≤ p := by
        rintro p rfl
        exact hw
      exact ⟨_, Q, h.create hp hs'⟩
    | yield => exact ⟨L, Q, h.resched hs'⟩
    | sleep q =>
      obtain ⟨Q', hfits⟩ := h.sleep hw hs'
      exact ⟨L, Q', hfits⟩
    | sleepCond q cond =>
      cases cond with
      | true =>
        obtain rfl := some.inj hs'
        exact ⟨L, Q, h⟩
      | false =>
        obtain ⟨Q', hfits⟩ := h.sleep hw hs'
        exact ⟨L, Q', hfits⟩
    | wakeOne q =>
      obtain rfl := some.inj hs'
      obtain ⟨Q', hgood, -⟩ := h.good.wakeOne (q := q)
      exact ⟨L, _, hgood, h.accounts.quiet SchedState.wakeOne_quiet, SchedState.wakeOne_awake h.awake⟩
    | wakeAll q =>
      obtain ⟨u, hu, hgood, -⟩ := h.good.wakeAll (q := q)
      obtain rfl := some.inj (hu.symm.trans hs')
      exact ⟨L, _, hgood, h.accounts.quiet (SchedState.wakeAll_quiet h.good.toBase hu),
        h.good.toBase.wakeAll_awake h.awake hu⟩
    | setExitCode code =>
      obtain rfl := some.inj hs'
      exact ⟨L, Q, h.good.congr rfl, h.accounts.setExitCode h.good.current, h.awake⟩
    | exit => exact ⟨L, Q, h.exit hs'⟩
    | waitChild parentPid =>
      have hhalted : r.sched.halted r.sched.currentThread = false := by
        simpa [Op.interrupt] using hhalt
      obtain ⟨⟨res, u⟩, hu, rfl⟩ := map_eq_some_iff.mp hs'
      obtain ⟨L', hfits⟩ := h.waitPass hhalted hu
      exact ⟨L', Q, hfits⟩
    | killUserThreads => exact hw.elim
    | setCurrentAspace pml4 =>
      obtain rfl := some.inj hs'
      exact ⟨L, Q, h.still rfl rfl rfl rfl⟩
    | enterUser =>
      obtain ⟨pml4, -, rfl⟩ := map_eq_some_iff.mp hs'
      exact ⟨L, Q, h.still rfl rfl rfl rfl⟩

theorem init_fits {pml4 : ℕ} (ht : t ≠ 0) : Fits (init t pml4) [t] fun _ => [] := by
  refine ⟨SchedState.schedInit_good ht, ⟨Int.le_refl _, fun _ _ _ => rfl, nofun, nofun,
    fun _ _ => rfl, nodup_nil, nofun⟩, ?_⟩
  simp [init, SchedState.schedInit]

theorem Reachable.fits (h : r.Reachable) : ∃ L Q, Fits r L Q := by
  refine Reach.invariant (I := fun r => ∃ L Q, Fits r L Q) h ?_ ?_
  · rintro _ ⟨t, pml4, ht, rfl⟩
    exact ⟨_, _, init_fits ht⟩
  · rintro r r' ⟨L, Q, hfits⟩ ⟨op, hw, hs⟩
    exact hfits.step hw hs

/-- **Exit codes are delivered exactly once**, along every run: no child is returned twice,
and each is returned after it has exited, to the parent it was started with and with the
exit code it has set.  A pass that returns a child takes this child off the list and leaves
the others; one that returns -1 finds no child on the list. -/
theorem exit_codes_delivered (h : r.Reachable) :
    (r.returned.map Delivery.pid).Nodup ∧
    (∀ d ∈ r.returned, d.parentPid = r.parentOf d.pid ∧ d.code = r.codeOf d.pid ∧ d.pid ∈ r.exited) ∧
    ∀ parentPid, r.sched.halted r.sched.currentThread = false →
      ∃ res s', r.sched.waitPass parentPid = some (res, s') ∧
        match res with
        | .reaped pid code => ∃ z ∈ r.sched.threads, r.sched.IsChild parentPid z ∧
            r.sched.state z = .dead ∧ pid = r.sched.pid z ∧ code = r.sched.exitCode z ∧
            (∀ d ∈ r.returned, d.pid ≠ pid) ∧ s'.threads = r.sched.threads.erase z
        | .noChild => (∀ t ∈ r.sched.threads, ¬r.sched.IsChild parentPid t) ∧ s' = r.sched
        | .again => s' = r.sched := by
  obtain ⟨L, Q, hgood, hacc, -⟩ := h.fits
  refine ⟨hacc.once, fun d hd => ?_, fun parentPid hh => ?_⟩
  · have ht := hacc.told d hd
    exact ⟨ht.parent, ht.code, ht.exited⟩
  · rw [hgood.linked.threads_eq]
    by_cases hp : parentPid < 0
    · refine ⟨.noChild, r.sched, by rw [SchedState.waitPass, if_pos hp], fun t ht hchild => ?_, rfl⟩
      have hparent := (hacc.known t ht hchild.1).parent_nonneg
      rw [hchild.2] at hparent
      omega
    · rcases hgood.linked.waitPass_cases (Int.not_lt.mp hp) with ⟨z, hzL, hz, hsome⟩ | ⟨-, hsome⟩
      · have hknown := hacc.known z hzL hz.1.1
        refine ⟨_, _, hsome, z, hzL, hz.1, hz.2.1, rfl, rfl,
          fun d hd hpid => hknown.gone d hd hpid.symm, ?_⟩
        obtain ⟨A, B, rfl⟩ := append_of_mem hzL
        have hc : z ≠ r.sched.currentThread := by
          rintro rfl
          simpa [hz.2.2, hh] using hgood.dead hz.2.1
        have hA : z ∉ A := fun hA =>
          (nodup_append.mp hgood.linked.dlist.nodup).2.2 z hA z (by simp) rfl
        rw [(hgood.reap hz.2.1 hc).1.linked.threads_eq, erase_append_right _ hA, erase_cons_head]
      · refine ⟨_, _, hsome, ?_⟩
        split
        · next hif => split at hif <;> cases hif
        · next hif =>
          refine ⟨fun t ht hchild => ?_, rfl⟩
          rw [if_pos ⟨t, ht, hchild⟩] at hif
          cases hif
        · rfl

/-- The kernel starts, the first user thread makes a child, the child sets its exit code and
exits, and its parent waits for it. -/
def waitForChild : List Op :=
  [.boot 2 true, .boot 3 false, .boot 3 true, .boot 0 false, .yield, .create 4 (some 1) true,
    .yield, .setExitCode 7, .exit, .waitChild 1]

def waitStep (r : WaitRun) (op : Op) : Option WaitRun :=
  if r.sched.Waits op then r.step op else none

def afterWait : WaitRun := (runAll waitStep (init 1 0) waitForChild).getD (init 1 0)

theorem afterWait_reachable : afterWait.Reachable := by
  have hsome : (runAll waitStep (init 1 0) waitForChild).isSome = true := by decide +kernel
  obtain ⟨r, hr⟩ := isSome_iff_exists.mp hsome
  rw [afterWait, hr, getD_some]
  exact Reach.of_runAll_if (.init ⟨1, 0, by decide, rfl⟩) hr

theorem exit_codes_delivered_afterWait :
    afterWait.returned = [⟨1, 2, 7⟩] ∧ (afterWait.returned.map Delivery.pid).Nodup ∧
      ∀ d ∈ afterWait.returned, d.parentPid = afterWait.parentOf d.pid ∧
        d.code = afterWait.codeOf d.pid ∧ d.pid ∈ afterWait.exited :=
  ⟨by decide +kernel, (exit_codes_delivered afterWait_reachable).1,
    (exit_codes_delivered afterWait_reachable).2.1⟩

end WaitRun

end Neptune
