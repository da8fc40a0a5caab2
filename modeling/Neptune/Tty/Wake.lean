import Neptune.Tty.Read

/-!
# No wake-up is lost

While a thread sleeps on `input_wq`, there are at most as many bytes in the rings as there
are threads inside `tty_read` that are awake and will look at the rings before they
return.  The rings are empty when a thread goes to sleep, every byte that comes later wakes
a sleeper, and a reader that takes itself out of the count has taken a byte.

## Main definitions

* `TtyState.Willing` — a reader that is awake and looks at the rings before it returns.
* `TtyState.Sound` — the invariant.

## Main results

* `TtyState.Sound.step` — one step.
* `TtyState.no_lost_wakeup` — no sleeper is left alone with a byte.
-/

namespace Neptune

namespace TtyState

open Function List Option
open SchedState (Op Good Running Frame)

variable {s s' : TtyState} {u : SchedState} {op : Op} {L L' : List ℕ} {Q Q' : ℕ → List ℕ} {t : ℕ}
  {r : Reader}

/-- A reader that is awake and looks at the rings before it returns. -/
def Willing (s : TtyState) (t : ℕ) : Prop :=
  ∃ r, s.reader t = some r ∧ r.Willing ∧ s.sched.state t ≠ .blocked

/-- There are as many willing readers as bytes. -/
def Served (s : TtyState) : Prop :=
  ∃ W : List ℕ, W.Nodup ∧ (∀ t ∈ W, s.Willing t) ∧ s.input.count ≤ W.length

/-- A reader is a live thread, and has room for a byte when it waits for one. -/
structure ReaderOk (s : TtyState) (L : List ℕ) (t : ℕ) (r : Reader) : Prop where
  listed : t ∈ L
  alive : s.sched.state t ≠ .dead
  room : r.phase ≠ .loop → r.Willing

/-- The invariant. -/
structure Sound (s : TtyState) (L : List ℕ) (Q : ℕ → List ℕ) : Prop where
  good : Good s.sched L Q
  running : Running s.sched L
  input : s.input.Ok
  readers : ∀ t r, s.reader t = some r → ReaderOk s L t r
  sleepers : ∀ t ∈ s.sched.queue inputWq, ∃ r, s.reader t = some r ∧ r.Willing
  served : s.sched.queue inputWq ≠ [] → s.Served

/-! ### The current thread -/

/-- The current thread does not sleep. -/
theorem Sound.current_awake (h : Sound s L Q) : s.sched.currentThread ∉ s.sched.queue inputWq := by
  rw [h.good.queue_eq]
  exact h.good.toBase.notMem_queue h.good.current h.running.not_blocked inputWq

/-- The current thread becomes the reader `o`, or returns if this is `none`. -/
structure Goes (s s' : TtyState) (o : Option Reader) : Prop where
  sched : s'.sched = s.sched
  reader : s'.reader = update s.reader s.sched.currentThread o
  input : s'.input.Ok

/-- **The current thread goes on** and the scheduler has nothing to do with it.  It is still
willing, or it has taken a byte. -/
theorem Sound.goes {o : Option Reader} (h : Sound s L Q) (hg : Goes s s' o)
    (hroom : ∀ r, o = some r → r.phase ≠ .loop → r.Willing)
    (hcount : s'.input.count ≤ s.input.count)
    (htook : (∃ r, o = some r ∧ r.Willing) ∨ s'.input.count < s.input.count ∨
      ¬s.Willing s.sched.currentThread) : Sound s' L Q := by
  have hother : ∀ {t}, t ≠ s.sched.currentThread → s'.reader t = s.reader t := by
    intro t ht
    rw [hg.reader, update_of_ne ht]
  have hself : s'.reader s.sched.currentThread = o := by rw [hg.reader, update_self]
  have hwilling : ∀ {t}, t ≠ s.sched.currentThread → s.Willing t → s'.Willing t := by
    rintro t ht ⟨r, hr, hw⟩
    refine ⟨r, (hother ht).trans hr, ?_⟩
    rw [hg.sched]
    exact hw
  refine ⟨hg.sched ▸ h.good, hg.sched ▸ h.running, hg.input, fun t r hr => ?_, fun t ht => ?_,
    fun hne => ?_⟩
  · by_cases htc : t = s.sched.currentThread
    · subst htc
      refine ⟨h.good.current, ?_, hroom r (hself.symm.trans hr)⟩
      rw [hg.sched]
      exact h.running.not_dead
    · have hok := h.readers t r ((hother htc).symm.trans hr)
      exact ⟨hok.listed, hg.sched ▸ hok.alive, hok.room⟩
  · rw [hg.sched] at ht
    have htc : t ≠ s.sched.currentThread := fun e => h.current_awake (e ▸ ht)
    obtain ⟨r, hr, hw⟩ := h.sleepers t ht
    exact ⟨r, (hother htc).trans hr, hw⟩
  · rw [hg.sched] at hne
    obtain ⟨W, hnodup, hW, hlen⟩ := h.served hne
    by_cases hc : s.sched.currentThread ∈ W
    · rcases htook with ⟨r, hr, hw⟩ | htook | htook
      · -- the current thread stays willing
        refine ⟨W, hnodup, fun t ht => ?_, hcount.trans hlen⟩
        by_cases htc : t = s.sched.currentThread
        · subst htc
          refine ⟨r, hself.trans hr, hw, ?_⟩
          rw [hg.sched]
          exact h.running.not_blocked
        · exact hwilling htc (hW t ht)
      · -- it has taken a byte
        refine ⟨W.erase s.sched.currentThread, hnodup.erase _, fun t ht => ?_, ?_⟩
        · exact hwilling (hnodup.mem_erase_iff.mp ht).1 (hW t (mem_of_mem_erase ht))
        · rw [length_erase_of_mem hc]
          omega
      · exact absurd (hW _ hc) htook
    · exact ⟨W, hnodup, fun t ht => hwilling (fun e => hc (e ▸ ht)) (hW t ht), hcount.trans hlen⟩

/-- A reader that has taken a character is at the head of the loop or has returned. -/
theorem took_goes {p : Reader ⊕ List UInt8} (hinput : s'.input.Ok) (hsched : s'.sched = s.sched)
    (hreader : s'.reader = s.reader) (hloop : ∀ r, p = .inl r → r.phase = .loop) :
    ∃ o, Goes s (s'.took s.sched.currentThread p) o ∧ ∀ r, o = some r → r.phase = .loop := by
  cases p with
  | inl r =>
    refine ⟨some r, ⟨hsched, ?_, hinput⟩, fun r' hr' => hloop r' ?_⟩
    · simp [took, setReader, hreader]
    · rw [some.inj hr']
  | inr buf =>
    refine ⟨none, ⟨hsched, ?_, hinput⟩, nofun⟩
    simp [took, leave, hreader]

theorem take_loop (r : Reader) (ch : UInt8) : ∀ r', r.take ch = .inl r' → r'.phase = .loop := by
  intro r' hr'
  rw [Reader.take] at hr'
  split at hr'
  · obtain rfl := Sum.inl.inj hr'
    rfl
  · split at hr'
    · cases hr'
    · obtain rfl := Sum.inl.inj hr'
      rfl

/-- A reader has taken a byte from a ring. -/
theorem Sound.took {p : Reader ⊕ List UInt8} (h : Sound s L Q) (hinput : s'.input.Ok)
    (hcount : s'.input.count < s.input.count) (hsched : s'.sched = s.sched)
    (hreader : s'.reader = s.reader) (hloop : ∀ r, p = .inl r → r.phase = .loop) :
    Sound (s'.took s.sched.currentThread p) L Q := by
  obtain ⟨o, hgoes, ho⟩ := took_goes hinput hsched hreader hloop
  have hsame : (s'.took s.sched.currentThread p).input = s'.input := by cases p <;> rfl
  refine h.goes hgoes (fun r hr hne => absurd (ho r hr) hne) ?_ (.inr (.inl ?_))
  · rw [hsame]
    exact hcount.le
  · rw [hsame]
    exact hcount

/-- A reader at the head of the loop. -/
theorem Sound.goLoop (h : Sound s L Q) (hr : s.reader s.sched.currentThread = some r) :
    Sound (s.goLoop s.sched.currentThread r) L Q := by
  rw [TtyState.goLoop]
  split
  · next hlen =>
    split
    · next ch com hpop =>
      obtain ⟨hok, hcount⟩ := h.input.com.pop hpop
      refine h.took ⟨h.input.kb, hok⟩ ?_ rfl rfl (take_loop _ _)
      simp only [Input.count]
      omega
    · exact h.goes ⟨rfl, rfl, h.input⟩ (fun r' hr' _ => some.inj hr' ▸ hlen) le_rfl
        (.inl ⟨_, rfl, hlen⟩)
  · next hlen =>
    -- it has all the bytes it was asked for
    refine h.goes ⟨rfl, rfl, h.input⟩ (by rintro _ ⟨⟩) le_rfl (.inr (.inr ?_))
    rintro ⟨r', hr', hw, -⟩
    exact hlen (some.inj (hr'.symm.trans hr) ▸ hw)

/-- A reader that looks at the keyboard. -/
theorem Sound.goKeyboard (h : Sound s L Q) (hr : s.reader s.sched.currentThread = some r)
    (hphase : r.phase = .keyboard) : Sound (s.goKeyboard s.sched.currentThread r) L Q := by
  have hroom : r.Willing := (h.readers _ r hr).room (by rw [hphase]; nofun)
  rw [TtyState.goKeyboard]
  split
  · next sc kb hpop =>
    obtain ⟨hok, hcount⟩ := h.input.kb.pop hpop
    have hless : kb.count kbBufSize + s.input.com.count comBufSize < s.input.count := by
      simp only [Input.count]
      omega
    dsimp only
    split
    · exact h.took ⟨hok, h.input.com⟩ hless rfl rfl (take_loop _ _)
    · refine h.goes (o := some { r with phase := .loop }) ⟨rfl, rfl, hok, h.input.com⟩
        (fun r' hr' hne => ?_) hless.le (.inr (.inl hless))
      exact absurd (by rw [← some.inj hr']) hne
  · exact h.goes ⟨rfl, rfl, h.input⟩ (fun r' hr' _ => some.inj hr' ▸ hroom) le_rfl
      (.inl ⟨_, rfl, hroom⟩)

/-! ### The scheduler -/

/-- A reader that the scheduler leaves alone. -/
theorem Sound.reader_aside (h : Sound s L Q) (hgood : Good u L' Q')
    (hframe : Frame s.sched op L u) (hr : s.reader t = some r)
    (ht : t ≠ s.sched.currentThread ∨ op = .yield) :
    ReaderOk { s with sched := u } L' t r ∧
      (u.state t = .blocked → s.sched.state t = .blocked) := by
  have hok := h.readers t r hr
  have haside := hframe.aside t hok.listed hok.alive ht
  refine ⟨⟨?_, fun hd => hok.alive (haside.dead hd), hok.room⟩, haside.blocked⟩
  exact (hgood.allocated t).mp (haside.allocated ((h.good.allocated t).mpr hok.listed))

/-- A step of the scheduler that is not about `input_wq`. -/
theorem Sound.other (h : Sound s L Q) (hst : s.sched.Started op)
    (hc : s.reader s.sched.currentThread = none ∨ op = .yield) (hop : op.queue ≠ some inputWq)
    (hs : s.sched.step op = some u) : ∃ L' Q', Sound { s with sched := u } L' Q' := by
  obtain ⟨L', Q', hgood, hrunning⟩ := h.running.step h.good hst hs
  have hframe := h.running.step_frame h.good hst hs
  have hqueue := hframe.queue inputWq hop
  have haside : ∀ {t r}, s.reader t = some r →
      ReaderOk { s with sched := u } L' t r ∧
        (u.state t = .blocked → s.sched.state t = .blocked) := by
    intro t r hr
    refine h.reader_aside hgood hframe hr (hc.imp_left fun hnone e => ?_)
    rw [e, hnone] at hr
    cases hr
  refine ⟨L', Q', hgood, hrunning, h.input, fun t r hr => (haside hr).1, fun t ht => ?_, fun hne => ?_⟩
  · rw [hqueue] at ht
    exact h.sleepers t ht
  · rw [hqueue] at hne
    obtain ⟨W, hnodup, hW, hlen⟩ := h.served hne
    refine ⟨W, hnodup, fun t ht => ?_, hlen⟩
    obtain ⟨r, hr, hw, hawake⟩ := hW t ht
    exact ⟨r, hr, hw, fun hb => hawake ((haside hr).2 hb)⟩

/-- The rings are empty, and the current thread goes to sleep. -/
theorem Sound.sleep (h : Sound s L Q) (hroom : r.Willing) (hinput : s.input.hasInput = false)
    (hst : s.sched.Started (.sleepCond inputWq false))
    (hu : s.sched.step (.sleepCond inputWq false) = some u)
    (hsleep : s.sched.sleep inputWq = some u) :
    ∃ L' Q', Sound ({ s with sched := u }.setReader s.sched.currentThread
      { r with phase := .loop }) L' Q' := by
  obtain ⟨L', Q', hgood, hrunning⟩ := h.running.step h.good hst hu
  have hframe := h.running.step_frame h.good hst hu
  obtain ⟨v, hv, hgood', -⟩ :=
    h.good.toBase.sleep (q := inputWq) h.running.not_blocked h.running.not_dead
  obtain rfl := some.inj (hv.symm.trans hsleep)
  have hlist : L' = L := hgood.linked.threads_eq.symm.trans hgood'.linked.threads_eq
  have hqueue : v.queue inputWq = s.sched.queue inputWq ++ [s.sched.currentThread] := by
    rw [hgood'.queue_eq, update_self, h.good.queue_eq]
  have hasleep : v.state s.sched.currentThread = .blocked := by
    refine (hgood'.blocked _ h.good.current).mpr ⟨inputWq, ?_⟩
    rw [← hgood'.queue_eq, hqueue]
    simp
  refine ⟨L', Q', hgood, hrunning, h.input, fun t r' hr' => ?_, fun t ht => ?_, fun _ => ?_⟩
  · by_cases htc : t = s.sched.currentThread
    · subst htc
      obtain rfl : { r with phase := .loop } = r' := by simpa [setReader] using hr'
      exact ⟨hlist ▸ h.good.current, fun hd => absurd (hasleep.symm.trans hd) nofun,
        fun hne => absurd rfl hne⟩
    · have hr : s.reader t = some r' := by simpa [setReader, htc] using hr'
      have hok := (h.reader_aside hgood hframe hr (.inl htc)).1
      exact ⟨hok.listed, hok.alive, hok.room⟩
  · have ht' : t ∈ v.queue inputWq := ht
    rw [hqueue] at ht'
    by_cases htc : t = s.sched.currentThread
    · subst htc
      exact ⟨_, update_self .., hroom⟩
    · have hmem : t ∈ s.sched.queue inputWq := by simpa [htc] using ht'
      obtain ⟨r', hr', hw⟩ := h.sleepers t hmem
      exact ⟨r', (update_of_ne htc _ _).trans hr', hw⟩
  · -- there is nothing to be served
    have hcount : s.input.count = 0 := h.input.hasInput_eq.mp hinput
    exact ⟨[], nodup_nil, nofun, Nat.le_of_eq hcount⟩

/-- `irq_wait_input`: with input the thread goes on, and without it goes to sleep. -/
theorem Sound.irqWaitInput (h : Sound s L Q) (hr : s.reader s.sched.currentThread = some r)
    (hphase : r.phase = .wait)
    (hst : s.sched.role s.sched.currentThread ≠ .idle ∧ s.sched.bootPc ≠ 0)
    (he : s.irqWaitInput s.sched.currentThread r = some s') : ∃ L' Q', Sound s' L' Q' := by
  have hroom : r.Willing := (h.readers _ r hr).room (by rw [hphase]; nofun)
  obtain ⟨u, hu, rfl⟩ := map_eq_some_iff.mp he
  have hstep := hu
  rw [SchedState.step] at hstep
  split at hstep
  · cases hstep
  · cases hinput : s.input.hasInput with
    | true =>
      -- the condition is tested again with interrupts off
      rw [hinput] at hstep
      obtain rfl := some.inj hstep
      refine ⟨L, Q, h.goes (o := some { r with phase := .loop }) ⟨rfl, rfl, h.input⟩
        (fun r' hr' hne => ?_) le_rfl (.inl ⟨_, rfl, hroom⟩)⟩
      exact absurd (by rw [← some.inj hr']) hne
    | false =>
      rw [hinput] at hstep hu
      exact h.sleep hroom hinput hst hu hstep

/-- **An interrupt** has put a byte into a ring and wakes a sleeper. -/
theorem Sound.wake {i : Input} (h : Sound s L Q) (hi : i.Ok)
    (hcount : i.count = s.input.count + 1) :
    ∃ Q', Sound { s with sched := s.sched.wakeOne inputWq, input := i } L Q' := by
  obtain ⟨Q', hgood, -⟩ := h.good.wakeOne (q := inputWq)
  have hrunning := h.running.wakeOne (q := inputWq) h.good
  have haside : ∀ t, s.sched.Aside (s.sched.wakeOne inputWq) t :=
    fun _ => SchedState.wakeOne_aside
  have hreaders : ∀ t r, s.reader t = some r → ReaderOk
      { s with sched := s.sched.wakeOne inputWq, input := i } L t r := by
    intro t r hr
    have hok := h.readers t r hr
    exact ⟨hok.listed, fun hd => hok.alive ((haside t).dead hd), hok.room⟩
  cases hq : Q inputWq with
  | nil =>
    -- nobody sleeps
    have hqueue : (s.sched.wakeOne inputWq).queue inputWq = [] := by
      have hhead : s.sched.head inputWq = 0 := by simpa [hq] using h.good.queued.seg inputWq
      rw [SchedState.wakeOne, if_pos hhead, h.good.queue_eq, hq]
    refine ⟨_, hgood, hrunning, hi, hreaders, fun t ht => ?_, fun hne => absurd hqueue hne⟩
    exact absurd (hqueue ▸ ht) (not_mem_nil)
  | cons t R =>
    have hold : s.sched.queue inputWq = t :: R := by rw [h.good.queue_eq, hq]
    obtain ⟨hhead, ht, hqueued⟩ := h.good.queued.wakeOne hq
    have hlen : R.length ≤ (s.sched.wakeOne inputWq).threadCount := by
      have hall := h.good.toBase.length_le (q := inputWq)
      have hsame : (s.sched.wakeOne inputWq).threadCount = s.sched.threadCount := by
        rw [SchedState.wakeOne]
        split <;> rfl
      rw [hq, length_cons] at hall
      omega
    have hqueue : (s.sched.wakeOne inputWq).queue inputWq = R := by
      have hseg := hqueued.seg inputWq
      rw [update_self] at hseg
      exact hseg.walk_eq hlen
    have hawake : (s.sched.wakeOne inputWq).state t ≠ .blocked := by
      rw [SchedState.wakeOne, if_neg (hhead ▸ ht)]
      simp [SchedState.setState, hhead]
    refine ⟨_, hgood, hrunning, hi, hreaders, fun v hv => ?_, fun _ => ?_⟩
    · have hv' : v ∈ R := hqueue ▸ hv
      exact h.sleepers v (hold ▸ mem_cons_of_mem _ hv')
    · obtain ⟨W, hnodup, hW, hserved⟩ := h.served (by rw [hold]; rintro ⟨⟩)
      have htW : t ∉ W := fun hmem => by
        obtain ⟨-, -, -, hnot⟩ := hW t hmem
        refine hnot ((h.good.blocked t ?_).mpr ⟨inputWq, by simp [hq]⟩)
        exact h.good.listed (q := inputWq) (by simp [hq])
      refine ⟨t :: W, nodup_cons.mpr ⟨htW, hnodup⟩, fun v hv => ?_, ?_⟩
      · rcases mem_cons.mp hv with rfl | hv
        · obtain ⟨r, hr, hw⟩ := h.sleepers v (hold ▸ mem_cons_self ..)
          exact ⟨r, hr, hw, hawake⟩
        · obtain ⟨r, hr, hw, hnot⟩ := hW v hv
          exact ⟨r, hr, hw, fun hb => hnot ((haside v).blocked hb)⟩
      · have hbytes : i.count ≤ (t :: W).length := by
          rw [hcount, length_cons]
          omega
        exact hbytes

/-! ### Steps and runs -/

/-- Interrupts come at any time. -/
theorem step_wakeOne (s : SchedState) (q : ℕ) : s.step (.wakeOne q) = some (s.wakeOne q) := by
  simp [SchedState.step, SchedState.run, Op.interrupt]

theorem Sound.kbPush {sc : UInt8} (h : Sound s L Q) (he : s.kbPush sc = some s') :
    ∃ L' Q', Sound s' L' Q' := by
  rw [TtyState.kbPush] at he
  split at he
  · next kb hpush =>
    obtain ⟨hok, hcount⟩ := h.input.kb.push hpush
    rw [step_wakeOne] at he
    obtain rfl := some.inj he
    refine ⟨L, h.wake ⟨hok, h.input.com⟩ ?_⟩
    simp only [Input.count]
    omega
  · -- the byte is dropped
    obtain rfl := some.inj he
    exact ⟨L, Q, h⟩

theorem Sound.irqComPush {ch : UInt8} (h : Sound s L Q) (he : s.irqComPush ch = some s') :
    ∃ L' Q', Sound s' L' Q' := by
  rw [TtyState.irqComPush] at he
  split at he
  · next com hpush =>
    obtain ⟨hok, hcount⟩ := h.input.com.push hpush
    rw [step_wakeOne] at he
    obtain rfl := some.inj he
    refine ⟨L, h.wake ⟨h.input.kb, hok⟩ ?_⟩
    simp only [Input.count]
    omega
  · obtain rfl := some.inj he
    exact ⟨L, Q, h⟩

/-- Somebody outside `tty_read` takes a byte. -/
theorem Sound.taken {i : Input} (h : Sound s L Q) (hi : i.Ok) (hcount : i.count < s.input.count) :
    Sound { s with input := i } L Q := by
  refine h.goes (o := s.reader s.sched.currentThread) ⟨rfl, ?_, hi⟩ (fun r hr => ?_) hcount.le
    (.inr (.inl hcount))
  · exact (update_eq_self ..).symm
  · exact (h.readers _ r hr).room

theorem Sound.read {len : ℕ} (h : Sound s L Q) (he : s.step (.read len) = some s') :
    Sound s' L Q := by
  simp only [TtyState.step] at he
  split at he
  · next hnone =>
    split at he
    · obtain rfl := some.inj he
      refine h.goes ⟨rfl, rfl, h.input⟩ nofun le_rfl (.inr (.inr ?_))
      rintro ⟨r, hr, -⟩
      exact absurd (hnone.symm.trans hr) nofun
    · next hlen =>
      obtain rfl := some.inj he
      have hroom : Reader.Willing ⟨len, [], .loop⟩ := Nat.pos_of_ne_zero hlen
      exact h.goes ⟨rfl, rfl, h.input⟩ (fun r hr _ => some.inj hr ▸ hroom) le_rfl (.inl ⟨_, rfl, hroom⟩)
  · cases he

theorem Sound.go (h : Sound s L Q) (hst : s.Started .go) (he : s.go = some s') :
    ∃ L' Q', Sound s' L' Q' := by
  obtain ⟨r, hr, he⟩ := bind_eq_some_iff.mp he
  cases hphase : r.phase with
  | loop =>
    rw [hphase] at he
    obtain rfl := some.inj he
    exact ⟨L, Q, h.goLoop hr⟩
  | keyboard =>
    rw [hphase] at he
    obtain rfl := some.inj he
    exact ⟨L, Q, h.goKeyboard hr hphase⟩
  | wait =>
    rw [hphase] at he
    exact h.irqWaitInput hr hphase hst he

/-- **One step** keeps the invariant. -/
theorem Sound.step {e : Event} (h : Sound s L Q) (hst : s.Started e) (he : s.step e = some s') :
    ∃ L' Q', Sound s' L' Q' := by
  cases e with
  | keyboard sc => exact h.kbPush he
  | serial ch => exact h.irqComPush he
  | read len => exact ⟨L, Q, h.read he⟩
  | go => exact h.go hst he
  | terminalKb =>
    obtain ⟨⟨b, kb⟩, hpop, rfl⟩ := map_eq_some_iff.mp he
    obtain ⟨hok, hcount⟩ := h.input.kb.pop hpop
    refine ⟨L, Q, h.taken ⟨hok, h.input.com⟩ ?_⟩
    simp only [Input.count]
    omega
  | terminalCom =>
    obtain ⟨⟨b, com⟩, hpop, rfl⟩ := map_eq_some_iff.mp he
    obtain ⟨hok, hcount⟩ := h.input.com.pop hpop
    refine ⟨L, Q, h.taken ⟨h.input.kb, hok⟩ ?_⟩
    simp only [Input.count]
    omega
  | sched op =>
    simp only [TtyState.step] at he
    split at he
    · next hcond =>
      obtain ⟨u, hu, rfl⟩ := map_eq_some_iff.mp he
      exact h.other hst hcond.1 hcond.2 hu
    · cases he

theorem Reachable.sound (h : s.Reachable) : ∃ L Q, Sound s L Q := by
  refine Reach.invariant (I := fun s => ∃ L Q, Sound s L Q) h ?_ ?_
  · rintro _ ⟨t, pml4, ht, rfl⟩
    have hreach : (SchedState.schedInit t pml4).ReachableIf SchedState.Started :=
      .init ⟨t, pml4, ht, rfl⟩
    obtain ⟨L, Q, hgood, hrunning⟩ := hreach.running
    have hqueue : (SchedState.schedInit t pml4).queue inputWq = [] := rfl
    refine ⟨L, Q, hgood, hrunning, Input.empty_ok, nofun, fun v hv => ?_, fun hne => ?_⟩
    · exact absurd (hqueue ▸ hv) (not_mem_nil)
    · exact absurd hqueue hne
  · rintro s s' ⟨L, Q, hsound⟩ ⟨e, hst, he⟩
    exact hsound.step hst he

/-- **No wake-up is lost**: it does not happen that a thread sleeps on `input_wq`, a ring is
not empty, and every thread inside `tty_read` sleeps. -/
theorem no_lost_wakeup (h : s.Reachable) :
    ¬((∃ t ∈ s.sched.queue inputWq, s.sched.state t = .blocked) ∧ s.input.hasInput = true ∧
      ∀ t ∈ s.sched.threads, (s.reader t).isSome → s.sched.state t = .blocked) := by
  obtain ⟨L, Q, hsound⟩ := h.sound
  rintro ⟨⟨t, ht, -⟩, hinput, hall⟩
  obtain ⟨W, -, hW, hlen⟩ := hsound.served (ne_nil_of_mem ht)
  have hcount : s.input.count ≠ 0 := by
    intro hzero
    rw [hsound.input.hasInput_eq.mpr hzero] at hinput
    cases hinput
  cases W with
  | nil => exact hcount (Nat.le_zero.mp hlen)
  | cons v W =>
    obtain ⟨r, hr, -, hawake⟩ := hW v (mem_cons_self ..)
    refine hawake (hall v ?_ (by simp [hr]))
    rw [hsound.good.linked.threads_eq]
    exact (hsound.readers v r hr).listed

/-- The kernel starts, the first user thread goes to sleep inside `tty_read`, and a key is
pressed. -/
def sleepAndType : List Event :=
  [.sched (.boot 2 true), .sched (.boot 3 false), .sched (.boot 3 true), .sched (.boot 0 false),
    .sched .yield, .read 4, .go, .go, .go, .keyboard 0x1E]

def startedStep (s : TtyState) (e : Event) : Option TtyState :=
  if s.Started e then s.step e else none

def afterKey : TtyState := (runAll startedStep (init 1 0) sleepAndType).getD (init 1 0)

theorem afterKey_reachable : afterKey.Reachable := by
  have hsome : (runAll startedStep (init 1 0) sleepAndType).isSome = true := by decide +kernel
  obtain ⟨s, hs⟩ := isSome_iff_exists.mp hsome
  rw [afterKey, hs, getD_some]
  exact Reach.of_runAll_if (.init ⟨1, 0, by decide, rfl⟩) hs

theorem no_lost_wakeup_afterKey :
    afterKey.input.hasInput = true ∧
    ¬((∃ t ∈ afterKey.sched.queue inputWq, afterKey.sched.state t = .blocked) ∧
      afterKey.input.hasInput = true ∧
      ∀ t ∈ afterKey.sched.threads, (afterKey.reader t).isSome → afterKey.sched.state t = .blocked) :=
  ⟨by decide +kernel, no_lost_wakeup afterKey_reachable⟩

end TtyState

end Neptune
