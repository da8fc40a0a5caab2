import Neptune.Fd.Counts

/-!
# `SPAWN` and the references of the child

`SYSCALL_SPAWN` acquires the handles that the fourth argument names and stores them
in the launch record; `sched_create_user` lets the child inherit the descriptors of
its parent.  Nobody reads the record: the child runs with what it inherited, and the
references of the record are lost.  If the thread gets no stack, those of its
descriptors are lost too.

## Main definitions

* `FdState.Wf` — what holds in every reachable state of the threads and the counts.
* `FdState.SpawnOk` — the map is applied, and once the child is gone every handle
  is as if it had not been.

## Main results

* `FdState.balanced_iff` — when the handles are as if the child had not been.
* `FdState.spawnOk_iff` — when `SPAWN` does what it is for.
-/

namespace Neptune

namespace FdState

variable {s : FdState} {tid i : ℕ} {t : FdThread}

/-! ### Well-formed states -/

/-- Threads are found by their process number, and counts are not negative. -/
structure Wf (s : FdState) : Prop where
  pid_inj : ∀ {j k : ℕ} {t u : FdThread}, s.threads[j]? = some t → s.threads[k]? = some u →
    t.pid = u.pid → 0 < t.pid → j = k
  user_pid : ∀ {k : ℕ} {t : FdThread}, s.threads[k]? = some t → t.entry ≠ .kernel → 0 < t.pid
  pid_lt : ∀ {k : ℕ} {t : FdThread}, s.threads[k]? = some t → t.pid < s.nextPid
  nextPid_pos : 0 < s.nextPid
  refcount : ∀ i < handleMax, (s.handles i).type ≠ .free → 0 ≤ (s.handles i).refcount
  unready : s.ready = false → ∀ i < handleMax, s.handles i = blank

theorem Wf.prepared (h : s.Wf) : s.prepared.Wf := by
  cases hr : s.ready with
  | true => rwa [prepared_of_ready hr]
  | false =>
    have hp : s.prepared = s.handlesInit := by rw [FdState.prepared, hr]; rfl
    rw [hp]
    refine ⟨h.pid_inj, h.user_pid, h.pid_lt, h.nextPid_pos, fun i hi _ => ?_, (by rintro ⟨⟩)⟩
    simp [handlesInit, Nat.not_le.mpr hi, h.unready hr i hi, blank]

/-- `sched_create_user` finds the caller. -/
theorem Wf.find_parent (h : s.Wf) (ht : s.threads[tid]? = some t) (hpid : 0 < t.pid) :
    s.threads.find? (fun u => decide (u.pid = t.pid)) = some t := by
  cases hf : s.threads.find? fun u => decide (u.pid = t.pid) with
  | none =>
    have hno := List.find?_eq_none.mp hf t (List.mem_of_getElem? ht)
    simp at hno
  | some u =>
    obtain ⟨k, hk⟩ := List.mem_iff_getElem?.mp (List.mem_of_find?_eq_some hf)
    have hup : u.pid = t.pid := by simpa using List.find?_some hf
    obtain rfl : tid = k := h.pid_inj ht hk hup.symm hpid
    exact hk ▸ ht

theorem fdsOf_eq (ht : s.threads[tid]? = some t) : s.fdsOf tid = t.fds := by
  rw [fdsOf, ht]; rfl

theorem pidOf_eq (ht : s.threads[tid]? = some t) : s.pidOf tid = t.pid := by
  rw [pidOf, ht]; rfl

/-! ### What `SPAWN` does -/

/-- The state once the references for the child are acquired. -/
def acquiredFor (s : FdState) (overrides : Vector (Option ℕ) 3) (fds : FdTable) : FdState :=
  { (s.acquireAll overrides.toList).acquireAll fds.toList with nextPid := s.nextPid + 1 }

theorem rest_acquireAll (fds : List (Option ℕ)) : (s.acquireAll fds).rest = s.rest := by
  induction fds generalizing s with
  | nil => rfl
  | cons fd fds ih =>
    cases fd with
    | none => exact ih
    | some g => exact ih.trans (rest_acquire g)

theorem sysSpawn_eq (h : s.Wf) (ht : s.threads[tid]? = some t) (hpid : 0 < t.pid)
    (m : Option (Vector ℤ 3)) (stack : Bool) :
    (s.sysSpawn tid true m stack).2 =
      if stack then (s.acquiredFor (s.overrideFds tid m) t.fds).appendThread
        ⟨s.nextPid, false, t.fds, .launch (s.overrideFds tid m)⟩
      else s.acquiredFor (s.overrideFds tid m) t.fds := by
  have hnext : (s.acquireAll (s.overrideFds tid m).toList).nextPid = s.nextPid :=
    congrArg (fun r => r.2.1) (rest_acquireAll _)
  have hfds : (s.acquireAll (s.overrideFds tid m).toList).inheritedFds t.pid = t.fds := by
    rw [inheritedFds, if_pos hpid, threads_acquireAll, h.find_parent ht hpid]
  simp only [sysSpawn, Bool.not_true, schedCreateUser, pidOf_eq ht, hfds, hnext]
  cases stack with
  | true => rfl
  | false => rfl

theorem acquiredFor_handles (hi : i < handleMax) (overrides : Vector (Option ℕ) 3) (fds : FdTable) :
    (s.acquiredFor overrides fds).handles i =
      (s.handles i).add (overrides.toList.count (some i) + fds.refs i) := by
  change ((s.acquireAll overrides.toList).acquireAll fds.toList).handles i = _
  rw [acquireAll_handles hi, acquireAll_handles hi, Handle.add_add, FdTable.refs]

/-! ### Two tallies -/

/-- A handle that others hold too keeps their references, and one that the thread does
not hold stays as it is. -/
def Kept (base h : Handle) (n : ℕ) : Prop :=
  h = base.add n ∧ base.type ≠ .free ∧ (1 ≤ base.refcount ∨ n = 0)

/-- A handle that only the thread holds is gone with its last reference. -/
def Gone (h : Handle) (n : ℕ) : Prop :=
  h.type = .free ∨ 1 ≤ h.refcount ∧ h.refcount ≤ n

theorem tally_kept (base : Handle) : Tally (Kept base) where
  free := by
    rintro h h' n hf - ⟨rfl, hlive, -⟩
    exact absurd hf (by simpa using hlive)
  acquired := by
    rintro h n hn ⟨rfl, hlive, href⟩
    refine ⟨?_, hlive, .inl (href.resolve_right (by omega))⟩
    simp [Handle.acquired, Handle.add, hlive, add_assoc]
  released := by
    rintro h n ⟨rfl, hlive, href⟩
    have hpos : 1 ≤ base.refcount := href.resolve_right (by omega)
    refine ⟨?_, hlive, .inl hpos⟩
    simp only [Handle.released, Handle.add, hlive, if_false]
    rw [if_neg (by push_cast; omega)]
    congr 1
    push_cast
    omega
  taken := by
    rintro h h' n hf - - ⟨rfl, hlive, -⟩
    exact absurd hf (by simpa using hlive)

theorem tally_gone : Tally Gone where
  free _ hf _ := .inl hf
  acquired := by
    rintro h n - (hf | ⟨hpos, hle⟩)
    · exact .inl (by simp [Handle.acquired, hf])
    · by_cases hf : h.type = .free
      · exact .inl (by simp [Handle.acquired, hf])
      · refine .inr ?_
        simp only [Handle.acquired, hf, if_false]
        push_cast
        omega
  released := by
    rintro h n (hf | ⟨hpos, hle⟩)
    · exact .inl (by simp [Handle.released, hf])
    · by_cases hf : h.type = .free
      · exact .inl (by simp [Handle.released, hf])
      · simp only [Handle.released, hf, if_false]
        push_cast at hle
        split
        · exact .inl rfl
        · refine .inr ⟨?_, ?_⟩ <;> dsimp only <;> omega
  taken := by
    rintro h h' n - - href -
    exact .inr ⟨by omega, by push_cast; omega⟩

/-! ### What `SPAWN` is for -/

/-- A descriptor of the thread that is open. -/
def OpenFd (s : FdState) (tid : ℕ) (fd : ℤ) : Prop :=
  ∃ g < handleMax, s.getFd tid fd = some g ∧ (s.handles g).type ≠ .free

/-- The same handles; what else is in a free slot does not matter. -/
def SameHandles (s s' : FdState) : Prop :=
  ∀ i < handleMax, (s'.handles i).type = (s.handles i).type ∧
    ((s.handles i).type ≠ .free → s'.handles i = s.handles i)

/-- What becomes of the child: there is no stack for it, its image does not load, or it
runs, makes calls on descriptors and exits. -/
inductive Fate
  | notCreated
  | notLoaded
  | runs (calls : List FdCall)

/-- The state when the child enters user mode. -/
def started (s : FdState) (tid : ℕ) (fdMap : Vector ℤ 3) : FdState :=
  (s.syscall tid (.spawn true (some fdMap) true)).2.start s.threads.length true

/-- The state when the child is gone. -/
def ended (s : FdState) (tid : ℕ) (fdMap : Vector ℤ 3) : Fate → FdState
  | .notCreated => (s.syscall tid (.spawn true (some fdMap) false)).2
  | .notLoaded => (s.syscall tid (.spawn true (some fdMap) true)).2.start s.threads.length false
  | .runs calls =>
    (((s.started tid fdMap).fdCalls s.threads.length calls).syscall s.threads.length .exit).2

/-- The map is applied: the first descriptors of the child are those that the map names
where these are open, and inherited otherwise. -/
def Applied (s : FdState) (tid : ℕ) (fdMap : Vector ℤ 3) : Prop :=
  ∀ k : Fin 3,
    (s.prepared.OpenFd tid fdMap[k] →
      ((s.started tid fdMap).fdsOf s.threads.length)[k] = s.prepared.getFd tid fdMap[k]) ∧
    (¬s.prepared.OpenFd tid fdMap[k] →
      ((s.started tid fdMap).fdsOf s.threads.length)[k] = (s.fdsOf tid)[k])

/-- The map is applied, and the references are balanced. -/
structure SpawnOk (s : FdState) (tid : ℕ) (fdMap : Vector ℤ 3) (fate : Fate) : Prop where
  applied : ∀ calls, fate = .runs calls → s.Applied tid fdMap
  balanced : SameHandles s.prepared (s.ended tid fdMap fate)

theorem refs_pos_iff : 0 < (s.fdsOf tid).refs i ↔ ∃ fd, s.getFd tid fd = some i := by
  constructor
  · intro h
    obtain ⟨n, hn, hget⟩ := List.mem_iff_getElem.mp (List.count_pos_iff.mp h)
    have hn' : n < 16 := by simpa using hn
    refine ⟨n, ?_⟩
    rw [getFd, if_neg (by omega)]
    have hget' : (s.fdsOf tid)[n] = some i := by simpa using hget
    simp [hn', hget']
  · rintro ⟨fd, h⟩
    obtain ⟨n, -, hn, hget⟩ := getFd_eq_some h
    exact FdTable.refs_pos hn hget

theorem overrides_pos_iff {fdMap : Vector ℤ 3} :
    0 < (s.overrideFds tid (some fdMap)).toList.count (some i) ↔
      ∃ k : Fin 3, s.getFd tid fdMap[k] = some i := by
  rw [List.count_pos_iff, Vector.mem_toList_iff, overrideFds, Vector.mem_map]
  constructor
  · rintro ⟨fd, hfd, h⟩
    obtain ⟨k, hk, rfl⟩ := Vector.mem_iff_getElem.mp hfd
    exact ⟨⟨k, hk⟩, h⟩
  · rintro ⟨k, h⟩
    exact ⟨_, Vector.getElem_mem k.isLt, h⟩

section Child

variable {fdMap : Vector ℤ 3} {fate : Fate}

/-- The state with the child on the list. -/
def spawned (s : FdState) (tid : ℕ) (fdMap : Vector ℤ 3) (t : FdThread) : FdState :=
  (s.acquiredFor (s.overrideFds tid (some fdMap)) t.fds).appendThread
    ⟨s.nextPid, false, t.fds, .launch (s.overrideFds tid (some fdMap))⟩

theorem threads_spawned : (s.spawned tid fdMap t).threads =
    s.threads ++ [⟨s.nextPid, false, t.fds, .launch (s.overrideFds tid (some fdMap))⟩] := by
  change ((s.acquireAll _).acquireAll _).threads ++ _ = _
  rw [threads_acquireAll, threads_acquireAll]

theorem fdsOf_spawned : (s.spawned tid fdMap t).fdsOf s.threads.length = t.fds := by
  rw [fdsOf, threads_spawned, List.getElem?_concat_length]
  rfl

theorem handles_spawned (hi : i < handleMax) : (s.spawned tid fdMap t).handles i =
    (s.handles i).add ((s.overrideFds tid (some fdMap)).toList.count (some i) + t.fds.refs i) :=
  acquiredFor_handles hi _ _

theorem ready_spawned : (s.spawned tid fdMap t).ready = s.ready := by
  have hrest : ((s.acquireAll (s.overrideFds tid (some fdMap)).toList).acquireAll
      t.fds.toList).rest = s.rest := (rest_acquireAll _).trans (rest_acquireAll _)
  exact congrArg Prod.fst hrest

theorem fdsOf_start (k : ℕ) : (s.start k true).fdsOf tid = s.fdsOf tid := by
  rw [start, if_pos rfl, fdsOf, fdsOf, modifyThread, List.getElem?_modify]
  cases s.threads[tid]? with
  | none => rfl
  | some t => by_cases hk : k = tid <;> simp [hk]

/-- A tally of the child holds without references once it is gone. -/
theorem tally_ended {P : Handle → ℕ → Prop} (hP : Tally P) (hi : i < handleMax)
    (hready : s.ready = true) (hwf : s.Wf) (ht : s.threads[tid]? = some t) (hpid : 0 < t.pid)
    (hfate : fate ≠ .notCreated) (h : P ((s.spawned tid fdMap t).handles i) (t.fds.refs i)) :
    P ((s.ended tid fdMap fate).handles i) 0 := by
  have hspawn : (s.syscall tid (.spawn true (some fdMap) true)).2 = s.spawned tid fdMap t := by
    rw [syscall, prepared_of_ready hready, sysSpawn_eq hwf ht hpid, if_pos rfl, spawned]
  have h' : P ((s.spawned tid fdMap t).handles i)
      (((s.spawned tid fdMap t).fdsOf s.threads.length).refs i) := by
    rwa [fdsOf_spawned]
  cases fate with
  | notCreated => exact absurd rfl hfate
  | notLoaded =>
    rw [ended, hspawn, start]
    exact hP.schedExit hi h'
  | runs calls =>
    have hstarted : s.started tid fdMap = (s.spawned tid fdMap t).start s.threads.length true := by
      rw [started, hspawn]
    have hready' : (s.started tid fdMap).ready = true := by
      rw [hstarted]
      exact ready_spawned.trans hready
    have hlen : s.threads.length < (s.started tid fdMap).threads.length := by
      rw [hstarted, start, if_pos rfl, modifyThread, List.length_modify, threads_spawned]
      simp
    have h'' : P ((s.started tid fdMap).handles i)
        (((s.started tid fdMap).fdsOf s.threads.length).refs i) := by
      rw [hstarted, fdsOf_start]
      exact h'
    obtain ⟨hrest, hcalls⟩ := hP.fdCalls hi calls hlen hready' h''
    have hready'' := (congrArg Prod.fst hrest).trans hready'
    rw [ended, syscall, prepared_of_ready hready'']
    exact hP.schedExit hi hcalls

end Child

theorem prepared_prepared (s : FdState) : s.prepared.prepared = s.prepared :=
  prepared_of_ready s.ready_prepared

theorem syscall_prepared (s : FdState) (tid : ℕ) (c : Syscall) :
    s.prepared.syscall tid c = s.syscall tid c := by
  cases c <;> rw [syscall, syscall, prepared_prepared]

theorem started_prepared (s : FdState) (tid : ℕ) (fdMap : Vector ℤ 3) :
    s.prepared.started tid fdMap = s.started tid fdMap := by
  rw [started, started, syscall_prepared, s.prepared_frame.1]

theorem ended_prepared (s : FdState) (tid : ℕ) (fdMap : Vector ℤ 3) (fate : Fate) :
    s.prepared.ended tid fdMap fate = s.ended tid fdMap fate := by
  cases fate with
  | notCreated => exact congrArg Prod.snd (syscall_prepared _ _ _)
  | notLoaded => rw [ended, ended, syscall_prepared, s.prepared_frame.1]
  | runs calls => rw [ended, ended, started_prepared, s.prepared_frame.1]

section Balance

variable {fdMap : Vector ℤ 3} {fate : Fate} (hready : s.ready = true) (hwf : s.Wf)
  (ht : s.threads[tid]? = some t) (hpid : 0 < t.pid) (hi : i < handleMax)

include hready hwf ht hpid hi

/-- If the thread is not created all its references stay. -/
theorem ended_notCreated : (s.ended tid fdMap .notCreated).handles i = (s.handles i).add
    ((s.overrideFds tid (some fdMap)).toList.count (some i) + (s.fdsOf tid).refs i) := by
  rw [ended, syscall, prepared_of_ready hready, sysSpawn_eq hwf ht hpid, fdsOf_eq ht]
  exact acquiredFor_handles hi _ _

/-- A free slot is free again when the child is gone. -/
theorem ended_of_free (hfree : (s.handles i).type = .free) :
    ((s.ended tid fdMap fate).handles i).type = .free := by
  by_cases hfate : fate = .notCreated
  · rw [hfate, ended_notCreated hready hwf ht hpid hi, Handle.type_add, hfree]
  · have hstart : Gone ((s.spawned tid fdMap t).handles i) (t.fds.refs i) :=
      .inl (by rw [handles_spawned hi, Handle.type_add, hfree])
    have hgone := tally_ended tally_gone hi hready hwf ht hpid hfate hstart
    exact hgone.resolve_right fun h => by omega

/-- The references of the launch record stay when the child is gone. -/
theorem ended_of_live (hlive : (s.handles i).type ≠ .free) (hfate : fate ≠ .notCreated)
    (href : 1 ≤ (s.handles i).refcount + (s.overrideFds tid (some fdMap)).toList.count (some i) ∨
      (s.fdsOf tid).refs i = 0) :
    (s.ended tid fdMap fate).handles i =
      (s.handles i).add ((s.overrideFds tid (some fdMap)).toList.count (some i)) := by
  rw [fdsOf_eq ht] at href
  have hstart : Kept ((s.handles i).add ((s.overrideFds tid (some fdMap)).toList.count (some i)))
      ((s.spawned tid fdMap t).handles i) (t.fds.refs i) := by
    refine ⟨by rw [handles_spawned hi, Handle.add_add], by rwa [Handle.type_add], ?_⟩
    rwa [Handle.add, if_neg hlive]
  have hkept := tally_ended (tally_kept _) hi hready hwf ht hpid hfate hstart
  rw [hkept.1, Handle.add_zero]

/-- A handle without a count is gone with the child that inherits it. -/
theorem ended_of_zero (hfate : fate ≠ .notCreated) (hzero : (s.handles i).refcount = 0)
    (hover : (s.overrideFds tid (some fdMap)).toList.count (some i) = 0)
    (hrefs : 0 < (s.fdsOf tid).refs i) : ((s.ended tid fdMap fate).handles i).type = .free := by
  by_cases hfree : (s.handles i).type = .free
  · exact ended_of_free hready hwf ht hpid hi hfree
  rw [fdsOf_eq ht] at hrefs
  have hstart : Gone ((s.spawned tid fdMap t).handles i) (t.fds.refs i) := by
    refine .inr ?_
    rw [handles_spawned hi, Handle.add, if_neg hfree, hover]
    simp only [hzero]
    omega
  have hgone := tally_ended tally_gone hi hready hwf ht hpid hfate hstart
  exact hgone.resolve_right fun h => by omega

end Balance

/-! ### The whole of it -/

/-- A handle whose count has grown is not the same. -/
theorem add_ne_self {h : Handle} (hlive : h.type ≠ .free) {n : ℕ} (hn : 0 < n) : h.add n ≠ h := by
  intro he
  have href := congrArg Handle.refcount he
  rw [Handle.add, if_neg hlive] at href
  simp only at href
  omega

section

variable {fdMap : Vector ℤ 3} {fate : Fate} (hready : s.ready = true) (hwf : s.Wf)
  (ht : s.threads[tid]? = some t) (hpid : 0 < t.pid)

include hready hwf ht hpid

/-- A reference in the launch record is lost whatever becomes of the child. -/
theorem not_openFd_of_balanced (h : SameHandles s (s.ended tid fdMap fate)) (k : Fin 3) :
    ¬s.OpenFd tid fdMap[k] := by
  rintro ⟨g, hi, hg, hlive⟩
  have hover := overrides_pos_iff.mpr ⟨k, hg⟩
  have hsame := (h g hi).2 hlive
  by_cases hfate : fate = .notCreated
  · rw [hfate, ended_notCreated hready hwf ht hpid hi] at hsame
    exact add_ne_self hlive (by omega) hsame
  · have hnonneg := hwf.refcount g hi hlive
    rw [ended_of_live hready hwf ht hpid hi hlive hfate (.inl (by omega))] at hsame
    exact add_ne_self hlive hover hsame

/-- **When the references are balanced.** -/
theorem balanced_iff (fdMap : Vector ℤ 3) (fate : Fate) : SameHandles s (s.ended tid fdMap fate) ↔
    (∀ k : Fin 3, ¬s.OpenFd tid fdMap[k]) ∧
    (fate = .notCreated → ∀ fd, ¬s.OpenFd tid fd) ∧
    (fate ≠ .notCreated → ∀ fd, ∀ g < handleMax, s.getFd tid fd = some g →
      (s.handles g).type ≠ .free → 1 ≤ (s.handles g).refcount) := by
  have hover : (∀ k : Fin 3, ¬s.OpenFd tid fdMap[k]) → ∀ i < handleMax,
      (s.handles i).type ≠ .free →
        (s.overrideFds tid (some fdMap)).toList.count (some i) = 0 := by
    intro hmap i hi hlive
    refine Nat.eq_zero_of_not_pos fun hpos => ?_
    obtain ⟨k, hk⟩ := overrides_pos_iff.mp hpos
    exact hmap k ⟨i, hi, hk, hlive⟩
  constructor
  · intro h
    have hmap := not_openFd_of_balanced hready hwf ht hpid h
    refine ⟨hmap, ?_, ?_⟩
    · rintro rfl fd ⟨g, hi, hg, hlive⟩
      have hrefs := refs_pos_iff.mpr ⟨fd, hg⟩
      have hsame := (h g hi).2 hlive
      rw [ended_notCreated hready hwf ht hpid hi] at hsame
      exact add_ne_self hlive (by omega) hsame
    · intro hfate fd g hi hg hlive
      have hnonneg := hwf.refcount g hi hlive
      by_contra hlt
      have hfree := ended_of_zero hready hwf ht hpid hi hfate (by omega) (hover hmap g hi hlive)
        (refs_pos_iff.mpr ⟨fd, hg⟩)
      exact hlive ((h g hi).1.symm.trans hfree)
  · rintro ⟨hmap, hnot, hcreated⟩ i hi
    by_cases hfree : (s.handles i).type = .free
    · exact ⟨(ended_of_free hready hwf ht hpid hi hfree).trans hfree.symm, absurd hfree⟩
    · suffices hsame : (s.ended tid fdMap fate).handles i = s.handles i from
        ⟨congrArg Handle.type hsame, fun _ => hsame⟩
      have hzero := hover hmap i hi hfree
      by_cases hfate : fate = .notCreated
      · have hrefs : (s.fdsOf tid).refs i = 0 := by
          refine Nat.eq_zero_of_not_pos fun hpos => ?_
          obtain ⟨fd, hfd⟩ := refs_pos_iff.mp hpos
          exact hnot hfate fd ⟨i, hi, hfd, hfree⟩
        rw [hfate, ended_notCreated hready hwf ht hpid hi, hzero, hrefs, Handle.add_zero]
      · have href : 1 ≤ (s.handles i).refcount +
            (s.overrideFds tid (some fdMap)).toList.count (some i) ∨ (s.fdsOf tid).refs i = 0 := by
          rcases Nat.eq_zero_or_pos ((s.fdsOf tid).refs i) with h0 | hpos
          · exact .inr h0
          · obtain ⟨fd, hfd⟩ := refs_pos_iff.mp hpos
            have := hcreated hfate fd i hi hfd hfree
            exact .inl (by omega)
        rw [ended_of_live hready hwf ht hpid hi hfree hfate href, hzero, Handle.add_zero]

/-- The child runs with the descriptors of its parent. -/
theorem fdsOf_started (fdMap : Vector ℤ 3) :
    (s.started tid fdMap).fdsOf s.threads.length = s.fdsOf tid := by
  rw [started, syscall, prepared_of_ready hready, sysSpawn_eq hwf ht hpid, if_pos rfl, fdsOf_start,
    fdsOf_eq ht]
  exact fdsOf_spawned

end

/-- **When `SPAWN` does what it is for**: the map names no open descriptor, and a thread
that cannot be created would have inherited none, while a thread that is created inherits
no handle whose count is zero already. -/
theorem spawnOk_iff {s : FdState} {tid : ℕ} {t : FdThread} (hwf : s.Wf)
    (ht : s.threads[tid]? = some t) (hu : t.entry ≠ .kernel) (fdMap : Vector ℤ 3) (fate : Fate) :
    s.SpawnOk tid fdMap fate ↔
      (∀ k : Fin 3, ¬s.prepared.OpenFd tid fdMap[k]) ∧
      (fate = .notCreated → ∀ fd, ¬s.prepared.OpenFd tid fd) ∧
      (fate ≠ .notCreated → ∀ fd, ∀ g < handleMax, s.prepared.getFd tid fd = some g →
        (s.prepared.handles g).type ≠ .free → 1 ≤ (s.prepared.handles g).refcount) := by
  have hthreads := s.prepared_frame.1
  have ht' : s.prepared.threads[tid]? = some t := by rwa [hthreads]
  have hpid := hwf.user_pid ht hu
  have hbalanced := balanced_iff s.ready_prepared hwf.prepared ht' hpid fdMap fate
  rw [← hbalanced, ended_prepared]
  refine ⟨fun h => h.balanced, fun h => ⟨fun calls _ k => ?_, h⟩⟩
  have hnone := not_openFd_of_balanced s.ready_prepared hwf.prepared ht' hpid
    (by rwa [ended_prepared]) k
  refine ⟨fun hopen => absurd hopen hnone, fun _ => ?_⟩
  have hfds := fdsOf_started s.ready_prepared hwf.prepared ht' hpid fdMap
  rw [started_prepared, hthreads, fdsOf_eq ht'] at hfds
  rw [fdsOf_eq ht]
  exact congrArg (·[k]) hfds

/-- A shell that has opened a file, as its fourth descriptor. -/
def shellThread : FdThread :=
  ⟨1, false, Vector.ofFn fun i => if i.val < 4 then some i.val else none, .user⟩

def shell : FdState where
  handles i :=
    if i < 3 then ⟨.tty, none, 0, 1⟩ else if i = 3 then ⟨.vfs, some 0, 1, 1⟩ else blank
  ready := true
  threads := [shellThread]
  nextPid := 2
  nextFile := 1
  closes := []
  bootPc := 4

theorem shell_handles_of_le {i : ℕ} (hi : 4 ≤ i) : shell.handles i = blank := by
  simp [shell, show ¬i < 3 by omega, show i ≠ 3 by omega]

theorem shell_handles_of_live {i : ℕ} (hi : (shell.handles i).type ≠ .free) : i < 4 :=
  Nat.lt_of_not_le fun hle => hi (by rw [shell_handles_of_le hle]; rfl)

theorem shell_refcount {i : ℕ} (hi : i < 4) : (shell.handles i).refcount = 1 := by
  obtain rfl | rfl | rfl | rfl : i = 0 ∨ i = 1 ∨ i = 2 ∨ i = 3 := by omega
  all_goals rfl

theorem shell_wf : shell.Wf where
  pid_inj {j k t u} hj hk _ _ := by
    have hj' : j < 1 := (List.getElem?_eq_some_iff.mp hj).1
    have hk' : k < 1 := (List.getElem?_eq_some_iff.mp hk).1
    omega
  user_pid {k t} hk _ := by
    obtain rfl : t = shellThread := by simpa [shell] using List.mem_of_getElem? hk
    decide
  pid_lt {k t} hk := by
    obtain rfl : t = shellThread := by simpa [shell] using List.mem_of_getElem? hk
    decide
  nextPid_pos := by decide
  refcount i _ hi := by
    rw [shell_refcount (shell_handles_of_live hi)]
    decide
  unready := nofun

theorem shell_exact : shell.Exact where
  refcount i hi := by
    have hlt := shell_handles_of_live hi
    obtain rfl | rfl | rfl | rfl : i = 0 ∨ i = 1 ∨ i = 2 ∨ i = 3 := by omega
    all_goals decide
  named t ht _ i hi := by
    obtain rfl : t = shellThread := by simpa [shell] using ht
    have hall : ∀ fd ∈ shellThread.fds.toList, fd.all (· < 4) = true := by decide
    have hlt : i < 4 := by simpa using hall _ hi
    obtain rfl | rfl | rfl | rfl : i = 0 ∨ i = 1 ∨ i = 2 ∨ i = 3 := by omega
    all_goals decide

/-- Without a map everything is as it should be, also if the child closes the file. -/
theorem spawnOk_shell : shell.SpawnOk 0 #v[-1, -1, -1] (.runs [.close 3]) := by
  refine (spawnOk_iff shell_wf (t := shellThread) rfl nofun _ _).mpr ⟨?_, nofun, ?_⟩
  · rintro k ⟨g, -, hg, -⟩
    have hnone : ∀ k : Fin 3, shell.prepared.getFd 0 #v[-1, -1, -1][k] = none := by decide
    exact nomatch (hnone k).symm.trans hg
  · rintro - fd g - - hlive
    rw [prepared_of_ready rfl] at hlive ⊢
    exact Int.le_of_eq (shell_refcount (shell_handles_of_live hlive)).symm

/-- The counts are exact, and the shell redirects the output of the child to its file: the
child writes to the terminal, and the file is never closed. -/
theorem spawn_loses_map :
    shell.Exact ∧ shell.getFd 0 3 = some 3 ∧
      ((shell.started 0 #v[-1, 3, -1]).fdsOf 1)[1] = some 1 ∧
      (shell.handles 3).refcount = 1 ∧
      ((shell.ended 0 #v[-1, 3, -1] (.runs [])).handles 3).refcount = 2 ∧
      ¬shell.SpawnOk 0 #v[-1, 3, -1] (.runs []) := by
  have hcount : ((shell.ended 0 #v[-1, 3, -1] (.runs [])).handles 3).refcount = 2 := by
    decide +kernel
  refine ⟨shell_exact, by decide, by decide +kernel, rfl, hcount, fun h => ?_⟩
  have hsame := (h.balanced 3 (by decide)).2 (by decide)
  rw [hsame] at hcount
  exact absurd hcount (by decide)

end FdState

end Neptune
