import Neptune.Sched.Threads

/-!
# The lists behind the pointers

`Linked s L` says that the thread list of `sched.c` is the doubly linked list `L`,
and `Queued s Q` that the wait queues are the singly linked lists `Q`.  Every
operation on pointers is an operation on these lists: `list_append` appends,
`list_remove` removes, a thread goes to sleep at the end of a queue and is woken at
its head, and the search for the next thread goes once round the list.

## Main definitions

* `SchedState.Linked`, `SchedState.Queued` — what the pointers stand for.

## Main results

* `SchedState.Linked.listAppend`, `SchedState.Linked.listRemove` — the thread list.
* `SchedState.Queued.enqueue`, `SchedState.Queued.wakeOne`, `SchedState.Queued.wakeAll`
  — the wait queues.
* `SchedState.Linked.search` — the next thread is the first runnable one behind the
  current thread, going round.
-/

namespace Neptune

namespace SchedState

open Function List Option

/-- The thread list is `L`. -/
structure Linked (s : SchedState) (L : List ℕ) : Prop where
  dlist : DList s.next s.prev s.threadsHead s.threadsTail L
  count : s.threadCount = L.length

/-- The wait queues are `Q`, and they are what has entered and not left. -/
structure Queued (s : SchedState) (Q : ℕ → List ℕ) : Prop where
  seg : ∀ q, Seg s.waitNext (s.head q) (Q q) 0
  last : ∀ q, s.tail q = (Q q).getLast?.getD 0
  nodup : ∀ q, (Q q).Nodup
  disjoint : ∀ {q q'}, q ≠ q' → ∀ {t}, t ∈ Q q → t ∉ Q q'
  order : ∀ q, s.entered q = s.left q ++ Q q

variable {s s' : SchedState} {L A B : List ℕ} {Q : ℕ → List ℕ} {t q : ℕ}

/-! ### The thread list -/

theorem Linked.ne_zero (h : Linked s L) : ∀ t ∈ L, t ≠ 0 := h.dlist.ne_zero

theorem Linked.listAppend (h : Linked s L) (ht : t ≠ 0) (hL : t ∉ L) :
    Linked (s.listAppend t) (L ++ [t]) :=
  ⟨h.dlist.append ht hL, by rw [length_append, ← h.count]; rfl⟩

theorem Linked.listRemove (h : Linked s (A ++ t :: B)) : Linked (s.listRemove t) (A ++ B) := by
  refine ⟨h.dlist.remove, ?_⟩
  have hcount : s.threadCount = (A ++ t :: B).length := h.count
  rw [SchedState.listRemove, hcount]
  simp

/-! ### The search -/

/-- The order in which `sched_resched_locked` looks at the threads. -/
def scanOrder (A : List ℕ) (c : ℕ) (B : List ℕ) : List ℕ := B ++ (A ++ [c])

theorem search_eq {start p : ℕ} {R : List ℕ} (h : Seg s.succ p R start) (hne : R ≠ [])
    (hstart : start ∉ R.tail) {fuel : ℕ} (hfuel : R.length ≤ fuel) :
    s.search start fuel p = some ((R.find? fun t => decide (s.state t = .runnable)).getD 0) := by
  induction R generalizing p fuel with
  | nil => exact absurd rfl hne
  | cons t R ih =>
    obtain ⟨rfl, ht, hseg⟩ := h
    obtain ⟨fuel, rfl⟩ : ∃ n, fuel = n + 1 := ⟨fuel - 1, by simp at hfuel; omega⟩
    rw [SchedState.search, if_neg ht]
    by_cases hrun : s.state p = .runnable
    · rw [if_pos hrun, find?_cons_of_pos (by simpa using hrun)]
      rfl
    · rw [if_neg hrun, find?_cons_of_neg (by simpa using hrun)]
      cases R with
      | nil =>
        have hback : s.succ p = start := hseg
        rw [if_pos hback]; rfl
      | cons t' R =>
        have hsucc : s.succ p ≠ start := by
          rw [hseg.1]
          exact fun e => hstart (by simp [e])
        rw [if_neg hsucc]
        refine ih hseg (by simp) (fun hmem => hstart ?_) (by simpa using hfuel)
        exact mem_cons_of_mem _ hmem

/-- **The search goes once round the list**, from the thread behind the current one. -/
theorem Linked.search (h : Linked s (A ++ s.currentThread :: B)) :
    s.succ s.currentThread ≠ 0 ∧
      s.search (s.succ s.currentThread) s.threadCount (s.succ s.currentThread) =
        some (((scanOrder A s.currentThread B).find? fun t =>
          decide (s.state t = .runnable)).getD 0) := by
  have hround : Seg s.succ (s.succ s.currentThread) (scanOrder A s.currentThread B)
      (s.succ s.currentThread) := h.dlist.fwd.round fun _ => rfl
  have hnodup : (scanOrder A s.currentThread B).Nodup := by
    have hperm : (scanOrder A s.currentThread B).Perm (A ++ s.currentThread :: B) := by
      rw [scanOrder]
      refine perm_append_comm.trans ?_
      rw [append_assoc]
      rfl
    exact hperm.nodup_iff.mpr h.dlist.nodup
  have hlen : (scanOrder A s.currentThread B).length = s.threadCount := by
    rw [h.count, scanOrder]
    simp
    omega
  have hne : scanOrder A s.currentThread B ≠ [] := by simp [scanOrder]
  obtain ⟨t, R, hR⟩ := exists_cons_of_ne_nil hne
  have hseg : Seg s.succ (s.succ s.currentThread) (t :: R) (s.succ s.currentThread) := hR ▸ hround
  refine ⟨hseg.1 ▸ hseg.2.1, ?_⟩
  refine search_eq hround hne ?_ (Nat.le_of_eq hlen)
  rw [hR, tail_cons, hseg.1]
  exact (nodup_cons.mp (hR ▸ hnodup)).1

/-- **What `sched_resched_locked` does**: it switches to another runnable thread if there
is one. -/
theorem Linked.resched_cases (h : Linked s L) (hc : s.currentThread ∈ L) :
    (∃ n ∈ L, n ≠ s.currentThread ∧ s.state n = .runnable ∧ s.resched = some (s.switchTo n)) ∨
    ((∀ n ∈ L, n ≠ s.currentThread → s.state n ≠ .runnable) ∧
      s.resched = some (if s.state s.currentThread = .dead then
        { s with halted := update s.halted s.currentThread true } else s)) := by
  obtain ⟨A, B, rfl⟩ := append_of_mem hc
  obtain ⟨hstart, hsearch⟩ := h.search
  rw [resched]
  simp only [if_neg hstart, hsearch, map_some]
  have hmem : ∀ n, n ∈ B ++ A ↔ n ∈ A ++ s.currentThread :: B ∧ n ≠ s.currentThread := by
    have hnodup := h.dlist.nodup
    intro n
    simp only [nodup_append, nodup_cons, mem_append, mem_cons] at hnodup ⊢
    grind
  -- the current thread is the last one that the search looks at
  rw [scanOrder, ← append_assoc, find?_append]
  cases hfind : (B ++ A).find? fun t => decide (s.state t = .runnable) with
  | some n =>
    obtain ⟨hn, hnc⟩ := (hmem n).mp (mem_of_find?_eq_some hfind)
    have hrun : s.state n = .runnable := by simpa using find?_some hfind
    refine .inl ⟨n, hn, hnc, hrun, ?_⟩
    rw [some_or, getD_some, if_neg (h.ne_zero n hn), if_neg hnc]
  | none =>
    refine .inr ⟨fun n hn hnc => ?_, ?_⟩
    · simpa using find?_eq_none.mp hfind n ((hmem n).mpr ⟨hn, hnc⟩)
    · rw [none_or]
      by_cases hrun : s.state s.currentThread = .runnable
      · rw [find?_cons_of_pos (by simpa using hrun), getD_some,
          if_neg (h.ne_zero _ hc), if_pos rfl, if_neg (by rw [hrun]; nofun)]
      · rw [find?_cons_of_neg (by simpa using hrun)]
        rfl

/-! ### The wait queues -/

/-- The queues do not depend on anything but their own links. -/
theorem Queued.congr (h : Queued s Q) (hw : s'.waitNext = s.waitNext) (hh : s'.head = s.head)
    (ht : s'.tail = s.tail) (he : s'.entered = s.entered) (hl : s'.left = s.left) :
    Queued s' Q where
  seg q := by rw [hw, hh]; exact h.seg q
  last q := by rw [ht]; exact h.last q
  nodup := h.nodup
  disjoint := h.disjoint
  order q := by rw [he, hl]; exact h.order q

theorem Queued.tail_mem (h : Queued s Q) (ht : s.tail q ≠ 0) : s.tail q ∈ Q q := by
  have hlast := h.last q
  cases hl : (Q q).getLast? with
  | none => exact absurd (by rw [hlast, hl]; rfl) ht
  | some t =>
    rw [hlast, hl]
    exact mem_of_getLast? hl

/-- A queue is extended by the thread that goes to sleep. -/
theorem Queued.enqueue (h : Queued s Q) (hc : s.currentThread ≠ 0)
    (hQ : ∀ q, s.currentThread ∉ Q q) :
    Queued (s.enqueue q) (update Q q (Q q ++ [s.currentThread])) where
  seg q' := by
    by_cases hq : q' = q
    · subst hq
      simp only [SchedState.enqueue, update_self]
      exact (h.seg q').push (h.last q') (h.nodup q') hc (hQ q')
    · simp only [SchedState.enqueue, update_of_ne hq]
      refine (h.seg q').congr fun a ha => ?_
      have hac : a ≠ s.currentThread := fun e => hQ q' (e ▸ ha)
      split
      · next htail =>
        have hat : a ≠ s.tail q := fun e => h.disjoint hq ha (e ▸ h.tail_mem htail)
        rw [update_of_ne hat, update_of_ne hac]
      · rw [update_of_ne hac]
  last q' := by
    by_cases hq : q' = q
    · subst hq
      simp [SchedState.enqueue]
    · simp only [SchedState.enqueue, update_of_ne hq]
      exact h.last q'
  nodup q' := by
    by_cases hq : q' = q
    · subst hq
      rw [update_self]
      refine nodup_append.mpr ⟨h.nodup q', by simp, fun a ha b hb => ?_⟩
      rw [mem_singleton.mp hb]
      exact fun e => hQ q' (e ▸ ha)
    · rw [update_of_ne hq]
      exact h.nodup q'
  disjoint {q₁ q₂} hne t h₁ h₂ := by
    have hmem : ∀ q', t ∈ update Q q (Q q ++ [s.currentThread]) q' →
        t ∈ Q q' ∨ q' = q ∧ t = s.currentThread := by
      intro q' ht
      by_cases hq : q' = q
      · subst hq
        rw [update_self, mem_append, mem_singleton] at ht
        exact ht.imp_right fun e => ⟨rfl, e⟩
      · rw [update_of_ne hq] at ht
        exact .inl ht
    rcases hmem q₁ h₁ with hold₁ | ⟨hq₁, ht⟩
    · rcases hmem q₂ h₂ with hold₂ | ⟨-, ht⟩
      · exact h.disjoint hne hold₁ hold₂
      · exact hQ q₁ (ht ▸ hold₁)
    · rcases hmem q₂ h₂ with hold₂ | ⟨hq₂, -⟩
      · exact hQ q₂ (ht ▸ hold₂)
      · exact hne (hq₁.trans hq₂.symm)
  order q' := by
    by_cases hq : q' = q
    · subst hq
      simp only [SchedState.enqueue, update_self]
      rw [h.order q', append_assoc]
      rfl
    · simp only [SchedState.enqueue, update_of_ne hq]
      exact h.order q'

/-- **Waking takes from the head**: the queues after `R`, a beginning of the queue `q`, has
left it. -/
theorem Queued.leave {R Q' : List ℕ} (h : Queued s Q) (hq : Q q = R ++ Q')
    (hseg : Seg s'.waitNext (s'.head q) Q' 0) (hw : ∀ t, t ∉ R → s'.waitNext t = s.waitNext t)
    (hh : ∀ {p}, p ≠ q → s'.head p = s.head p) (ht : ∀ {p}, p ≠ q → s'.tail p = s.tail p)
    (htail : s'.tail q = Q'.getLast?.getD 0) (he : s'.entered = s.entered)
    (hl : s'.left = update s.left q (s.left q ++ R)) : Queued s' (update Q q Q') := by
  have hsub : ∀ {p t}, t ∈ update Q q Q' p → t ∈ Q p := by
    intro p t hmem
    by_cases hp : p = q
    · subst hp
      rw [update_self] at hmem
      rw [hq]
      exact mem_append_right _ hmem
    · rwa [update_of_ne hp] at hmem
  refine ⟨fun p => ?_, fun p => ?_, fun p => ?_,
    fun hne _ h₁ h₂ => h.disjoint hne (hsub h₁) (hsub h₂), fun p => ?_⟩
  all_goals by_cases hp : p = q
  · subst hp
    rwa [update_self]
  · rw [update_of_ne hp, hh hp]
    refine (h.seg p).congr fun a ha => hw a fun haR => ?_
    exact h.disjoint hp ha (hq ▸ mem_append_left _ haR)
  · subst hp
    rwa [update_self]
  · rw [update_of_ne hp, ht hp]
    exact h.last p
  · subst hp
    rw [update_self]
    exact (nodup_append.mp (hq ▸ h.nodup p)).2.1
  · rw [update_of_ne hp]
    exact h.nodup p
  · subst hp
    rw [he, hl, update_self, update_self, h.order, hq, append_assoc]
  · rw [he, hl, update_of_ne hp, update_of_ne hp]
    exact h.order p

theorem Queued.wakeOne {Q' : List ℕ} (h : Queued s Q) (hq : Q q = t :: Q') :
    s.head q = t ∧ t ≠ 0 ∧ Queued (s.wakeOne q) (update Q q Q') := by
  obtain ⟨hhead, ht, hseg⟩ : s.head q = t ∧ t ≠ 0 ∧ Seg s.waitNext (s.waitNext t) Q' 0 := by
    simpa [hq] using h.seg q
  have hnot : t ∉ Q' := (nodup_cons.mp (hq ▸ h.nodup q)).1
  refine ⟨hhead, ht, ?_⟩
  have hhead0 : s.head q ≠ 0 := hhead ▸ ht
  rw [SchedState.wakeOne, if_neg hhead0, hhead]
  refine h.leave (R := [t]) hq ?_ (fun a ha => ?_) (fun hp => ?_) (fun hp => ?_) ?_ rfl rfl
  · dsimp only
    rw [update_self]
    exact hseg.congr fun a ha => update_of_ne (fun e => hnot (by rwa [← e])) _ _
  · exact update_of_ne (by simpa using ha) _ _
  · exact update_of_ne hp _ _
  · dsimp only
    split
    · exact update_of_ne hp _ _
    · rfl
  · -- the queue is empty now exactly if the thread had no successor
    dsimp only
    have hnil := hseg.eq_nil_iff
    split
    · next hnext => rw [update_self, hnil.mpr hnext]; rfl
    · next hnext =>
      obtain ⟨a, R, rfl⟩ := exists_cons_of_ne_nil (mt hnil.mp hnext)
      rw [h.last q, hq, getLast?_cons_cons]

/-- The threads `R` of a queue woken together. -/
def wokenAll (s : SchedState) (q : ℕ) (R : List ℕ) : SchedState :=
  { s with
    state := fun t => if t ∈ R then .runnable else s.state t
    waitNext := fun t => if t ∈ R then 0 else s.waitNext t
    left := update s.left q (s.left q ++ R) }

theorem wakeLoop_eq {R : List ℕ} (h : Seg s.waitNext t R 0) (hn : R.Nodup) {fuel : ℕ}
    (hfuel : R.length < fuel) : s.wakeLoop q fuel t = some (s.wokenAll q R) := by
  induction R generalizing s t fuel with
  | nil =>
    obtain rfl : t = 0 := h
    obtain ⟨fuel, rfl⟩ : ∃ n, fuel = n + 1 := ⟨fuel - 1, by simp at hfuel; omega⟩
    simp [wakeLoop, wokenAll]
  | cons a R ih =>
    obtain ⟨rfl, ht, hseg⟩ := h
    obtain ⟨fuel, rfl⟩ : ∃ n, fuel = n + 1 := ⟨fuel - 1, by omega⟩
    obtain ⟨hnot, hn⟩ := nodup_cons.mp hn
    rw [wakeLoop, if_neg ht, ih (hseg.congr fun b hb => ?_) hn (by simpa using hfuel)]
    · simp only [wokenAll, setState, update_self, update_idem, append_assoc, singleton_append, mem_cons]
      congr 2 <;> funext b <;> by_cases hb : b = t <;> simp [hb, hnot]
    · exact update_of_ne (fun e => hnot (by rwa [← e])) _ _

theorem Queued.wakeAll (h : Queued s Q) (hlen : (Q q).length ≤ s.threadCount) :
    s.wakeAll q = some { s.wokenAll q (Q q) with
      head := update s.head q 0, tail := update s.tail q 0 } ∧
    Queued { s.wokenAll q (Q q) with head := update s.head q 0, tail := update s.tail q 0 }
      (update Q q []) := by
  refine ⟨?_, ?_⟩
  · rw [SchedState.wakeAll, wakeLoop_eq (h.seg q) (h.nodup q) (by omega)]
    rfl
  · refine h.leave (R := Q q) (by simp) ?_ (fun t ht => if_neg ht)
      (fun hp => update_of_ne hp _ _) (fun hp => update_of_ne hp _ _) ?_ rfl rfl
    · exact update_self ..
    · exact update_self ..

/-! ### Passes over the list -/

/-- The thread is a user thread that this process has started. -/
def IsChild (s : SchedState) (parentPid : ℤ) (t : ℕ) : Prop := s.isUser t ∧ s.ppid t = parentPid

/-- It is dead and nobody has waited for it. -/
def IsZombie (s : SchedState) (parentPid : ℤ) (t : ℕ) : Prop :=
  s.IsChild parentPid t ∧ s.state t = .dead ∧ s.reaped t = false

instance (s : SchedState) (parentPid : ℤ) : DecidablePred (s.IsChild parentPid) :=
  fun _ => inferInstanceAs (Decidable (_ ∧ _))

instance (s : SchedState) (parentPid : ℤ) : DecidablePred (s.IsZombie parentPid) :=
  fun _ => inferInstanceAs (Decidable (_ ∧ _))

theorem waitScan_eq {R : List ℕ} {parentPid : ℤ} {hasChild : Bool} (h : Seg s.next t R 0)
    {fuel : ℕ} (hfuel : R.length < fuel) :
    s.waitScan parentPid fuel t hasChild = some (match R.find? (s.IsZombie parentPid ·) with
        | some z => (z, true)
        | none => (0, hasChild || R.any (s.IsChild parentPid ·))) := by
  induction R generalizing t fuel hasChild with
  | nil =>
    obtain rfl : t = 0 := h
    obtain ⟨fuel, rfl⟩ : ∃ n, fuel = n + 1 := ⟨fuel - 1, by simp at hfuel; omega⟩
    simp [waitScan]
  | cons a R ih =>
    obtain ⟨rfl, ht, hseg⟩ := h
    obtain ⟨fuel, rfl⟩ : ∃ n, fuel = n + 1 := ⟨fuel - 1, by omega⟩
    have ih' := fun b => @ih (s.next t) b hseg fuel (by simpa using hfuel)
    rw [waitScan, if_neg ht]
    by_cases hchild : s.IsChild parentPid t
    · have hif : s.isUser t = true ∧ s.ppid t = parentPid := hchild
      rw [if_pos hif]
      by_cases hdead : s.state t = .dead ∧ s.reaped t = false
      · rw [if_pos hdead, find?_cons_of_pos (by simpa using ⟨hchild, hdead⟩)]
      · have hz : ¬s.IsZombie parentPid t := fun hz => hdead hz.2
        rw [if_neg hdead, ih', find?_cons_of_neg (by simpa using hz)]
        simp [hchild]
    · have hz : ¬s.IsZombie parentPid t := fun hz => hchild hz.1
      have hif : ¬(s.isUser t = true ∧ s.ppid t = parentPid) := hchild
      rw [if_neg hif, ih', find?_cons_of_neg (by simpa using hz)]
      simp [hchild]

/-- **A pass of `sched_wait_child`** reaps the first zombie of the caller; without one it
ends the call exactly if the caller has no child on the list. -/
theorem Linked.waitPass_cases {parentPid : ℤ} (h : Linked s L) (hp : 0 ≤ parentPid) :
    (∃ z ∈ L, s.IsZombie parentPid z ∧
      s.waitPass parentPid = some (.reaped (s.pid z) (s.exitCode z), s.reap z)) ∨
    ((∀ z ∈ L, ¬s.IsZombie parentPid z) ∧ s.waitPass parentPid =
        some (if ∃ t ∈ L, s.IsChild parentPid t then .again else .noChild, s)) := by
  have hlen : L.length < s.threadCount + 1 := by rw [h.count]; omega
  rw [waitPass, if_neg (by omega), waitScan_eq h.dlist.fwd hlen]
  cases hfind : L.find? (s.IsZombie parentPid ·) with
  | some z =>
    have hz := mem_of_find?_eq_some hfind
    refine .inl ⟨z, hz, by simpa using find?_some hfind, ?_⟩
    simp [h.ne_zero z hz]
  | none =>
    refine .inr ⟨by simpa using hfind, ?_⟩
    by_cases hchild : ∃ t ∈ L, s.IsChild parentPid t
    · rw [if_pos hchild]
      simpa using hchild
    · rw [if_neg hchild]
      simpa using hchild

/-- The threads of `R` with an address space killed. -/
def killed (s : SchedState) (R : List ℕ) : SchedState :=
  { s with
    state := fun t => if t ∈ R ∧ s.aspace t ≠ 0 then .dead else s.state t
    aspace := fun t => if t ∈ R then 0 else s.aspace t
    reaped := fun t => if t ∈ R ∧ s.aspace t ≠ 0 then true else s.reaped t }

theorem killLoop_eq {R : List ℕ} (h : Seg s.next t R 0) {fuel : ℕ} (hfuel : R.length < fuel) :
    s.killLoop fuel t = some (s.killed R) := by
  induction R generalizing s t fuel with
  | nil =>
    obtain rfl : t = 0 := h
    obtain ⟨fuel, rfl⟩ : ∃ n, fuel = n + 1 := ⟨fuel - 1, by simp at hfuel; omega⟩
    simp [killLoop, killed]
  | cons a R ih =>
    obtain ⟨rfl, ht, hseg⟩ := h
    obtain ⟨fuel, rfl⟩ : ∃ n, fuel = n + 1 := ⟨fuel - 1, by omega⟩
    have hfuel' : R.length < fuel := by simpa using hfuel
    rw [killLoop, if_neg ht]
    by_cases hspace : s.aspace t ≠ 0
    · have hseg' : Seg (s.kill t).next (s.next t) R 0 := hseg
      rw [if_pos hspace, ih hseg' hfuel']
      simp only [killed, kill, mem_cons]
      congr 2 <;> funext b <;> by_cases hb : b = t <;> simp [hb, hspace]
    · rw [if_neg hspace, ih hseg hfuel']
      simp only [killed, mem_cons]
      congr 2 <;> funext b <;> by_cases hb : b = t <;> simp [hb, not_not.mp hspace]

theorem Linked.killUserThreads (h : Linked s L) : s.killUserThreads = some (s.killed L) :=
  killLoop_eq h.dlist.fwd (by rw [h.count]; omega)

end SchedState

end Neptune
