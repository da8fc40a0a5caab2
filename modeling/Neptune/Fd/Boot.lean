import Mathlib.Algebra.Order.BigOperators.Group.List
import Mathlib.Algebra.Order.Group.Nat
import Neptune.Fd.Spawn

/-!
# Descriptors from boot on

`sched_create` gives the idle thread the descriptors 0, 1 and 2 before there is a
handle table, and acquiring a free slot does nothing.  The first system call makes
the three slots terminals and leaves their counts at zero.  The idle thread never
makes a call and never exits, so its reference to slot 0 is never counted: as long
as no reference is lost elsewhere, the count of slot 0 stays below the number of its
references, or the slot is free and the idle thread names it.

## Main definitions

* `FdState.liveRefs` — the descriptors of live threads that name a slot.
* `FdState.Plain` — the steps that lose no reference.
* `FdState.IdleUncounted` — the reference of the idle thread is not counted.

## Main results

* `FdState.Wf.step` — the steps keep the states well formed.
* `FdState.counts_never_exact` — the counts are exact in no state of a plain run.
-/

namespace Neptune

open Option

namespace FdState

variable {s s' : FdState} {tid i : ℕ} {t : FdThread}

/-! ### What the steps do to threads -/

/-- What well-formedness says about threads. -/
def ids (s : FdState) : List (ℕ × Bool) := s.threads.map fun t => (t.pid, decide (t.entry = .kernel))

theorem ids_of_rest (h : s'.rest = s.rest) : s'.ids = s.ids ∧ s'.nextPid = s.nextPid := by
  have hmap : s'.threads.map (fun t => (t.pid, t.dead, t.entry)) =
      s.threads.map fun t => (t.pid, t.dead, t.entry) := congrArg (fun r => r.2.2.2) h
  have hids := congrArg (List.map fun r : ℕ × Bool × Entry => (r.1, decide (r.2.2 = .kernel))) hmap
  simp only [List.map_map] at hids
  exact ⟨hids, congrArg (fun r => r.2.1) h⟩

theorem ids_modifyThread {f : FdThread → FdThread}
    (hf : ∀ t, s.threads[tid]? = some t → (f t).pid = t.pid ∧
      decide ((f t).entry = .kernel) = decide (t.entry = .kernel)) :
    (s.modifyThread tid f).ids = s.ids := by
  refine List.ext_getElem? fun k => ?_
  rw [ids, ids, List.getElem?_map, List.getElem?_map, modifyThread, List.getElem?_modify]
  cases hk : s.threads[k]? with
  | none => rfl
  | some t =>
    by_cases htk : tid = k
    · obtain ⟨hpid, hentry⟩ := hf t (htk ▸ hk)
      simp [htk, hpid, hentry]
    · simp [htk]

/-- Well-formedness only depends on the process numbers and the handles. -/
theorem Wf.of_ids (h : s.Wf) (hids : s'.ids = s.ids) (hnext : s'.nextPid = s.nextPid)
    (href : ∀ i < handleMax, (s'.handles i).type ≠ .free → 0 ≤ (s'.handles i).refcount)
    (hready : s'.ready = false → ∀ i < handleMax, s'.handles i = blank) : s'.Wf := by
  have hthread : ∀ {k : ℕ} {u : FdThread}, s'.threads[k]? = some u → ∃ t, s.threads[k]? = some t ∧
      t.pid = u.pid ∧ (t.entry = .kernel ↔ u.entry = .kernel) := by
    intro k u hk
    have hget : s'.ids[k]? = s.ids[k]? := by rw [hids]
    rw [ids, ids, List.getElem?_map, List.getElem?_map, hk] at hget
    obtain ⟨t, ht, htu⟩ := map_eq_some_iff.mp hget.symm
    rw [Prod.mk.injEq, decide_eq_decide] at htu
    exact ⟨t, ht, htu.1, htu.2⟩
  refine ⟨?_, ?_, ?_, hnext ▸ h.nextPid_pos, href, hready⟩
  · intro j k t u hj hk hpid hpos
    obtain ⟨t', hj', hpid', -⟩ := hthread hj
    obtain ⟨u', hk', hpid'', -⟩ := hthread hk
    exact h.pid_inj hj' hk' (by omega) (by omega)
  · intro k t hk hu
    obtain ⟨t', hk', hpid', hentry⟩ := hthread hk
    exact hpid' ▸ h.user_pid hk' (fun e => hu (hentry.mp e))
  · intro k t hk
    obtain ⟨t', hk', hpid', -⟩ := hthread hk
    exact hpid' ▸ hnext ▸ h.pid_lt hk'

/-- Appending a thread with a new number, or a kernel thread. -/
theorem Wf.append {u : FdThread} {n : ℕ} (h : s.Wf) (hn : s.nextPid ≤ n) (hlt : u.pid < n)
    (hnew : 0 < u.pid → s.nextPid ≤ u.pid) (huser : u.entry ≠ .kernel → 0 < u.pid) :
    ({ s with threads := s.threads ++ [u], nextPid := n } : FdState).Wf := by
  have hcases : ∀ {k : ℕ} {t : FdThread}, (s.threads ++ [u])[k]? = some t →
      s.threads[k]? = some t ∨ k = s.threads.length ∧ t = u := by
    intro k t hk
    rcases Nat.lt_trichotomy k s.threads.length with hlt | heq | hgt
    · exact .inl (by rwa [List.getElem?_append_left hlt] at hk)
    · rw [heq, List.getElem?_concat_length] at hk
      exact .inr ⟨heq, (some.inj hk).symm⟩
    · rw [List.getElem?_eq_none (by rw [List.length_append, List.length_singleton]; omega)] at hk
      exact nomatch hk
  refine ⟨?_, ?_, ?_, Nat.lt_of_lt_of_le h.nextPid_pos hn, h.refcount, h.unready⟩
  · intro j k t v hj hk hpid hpos
    rcases hcases hj with hj' | ⟨hj', rfl⟩ <;> rcases hcases hk with hk' | ⟨hk', rfl⟩
    · exact h.pid_inj hj' hk' hpid hpos
    · have hold := h.pid_lt hj'
      have hge := hnew (by omega)
      omega
    · have hold := h.pid_lt hk'
      have hge := hnew hpos
      omega
    · rw [hj', hk']
  · intro k t hk hu
    rcases hcases hk with hk | ⟨-, rfl⟩
    · exact h.user_pid hk hu
    · exact huser hu
  · intro k t hk
    rcases hcases hk with hk | ⟨-, rfl⟩
    · exact Nat.lt_of_lt_of_le (h.pid_lt hk) hn
    · exact hlt

theorem Wf.acquireAll (h : s.Wf) (fds : List (Option ℕ)) : (s.acquireAll fds).Wf := by
  obtain ⟨hids, hnext⟩ := ids_of_rest (rest_acquireAll (s := s) fds)
  have hready : (s.acquireAll fds).ready = s.ready := congrArg Prod.fst (rest_acquireAll fds)
  refine h.of_ids hids hnext (fun i hi hlive => ?_) (fun hr i hi => ?_)
  · rw [acquireAll_handles hi] at hlive ⊢
    rw [Handle.type_add] at hlive
    have hnonneg := h.refcount i hi hlive
    rw [Handle.add, if_neg hlive]
    exact Int.add_nonneg hnonneg (Int.natCast_nonneg _)
  · rw [acquireAll_handles hi, h.unready (hready ▸ hr) i hi]
    exact Handle.add_of_free rfl _

theorem Wf.schedCreate (h : s.Wf) : s.schedCreate.Wf :=
  (h.acquireAll _).append (Nat.le_refl _) (h.acquireAll _).nextPid_pos nofun nofun

theorem Wf.schedCreateUser (h : s.Wf) {e : Entry} (parentPid : ℕ) (stack : Bool) :
    (s.schedCreateUser e parentPid stack).2.Wf := by
  have hacq := h.acquireAll (s.inheritedFds parentPid).toList
  have hnext : (s.acquireAll (s.inheritedFds parentPid).toList).nextPid = s.nextPid :=
    (ids_of_rest (rest_acquireAll _)).2
  cases stack with
  | true =>
    refine hacq.append (u := ⟨s.nextPid, false, s.inheritedFds parentPid, e⟩) (n := s.nextPid + 1)
      (by omega) (Nat.lt_succ_self _) (fun _ => Nat.le_of_eq hnext) (fun _ => h.nextPid_pos)
  | false =>
    exact ⟨hacq.pid_inj, hacq.user_pid, fun hk => Nat.lt_succ_of_lt (hnext ▸ hacq.pid_lt hk),
      Nat.succ_pos _, hacq.refcount, hacq.unready⟩

/-- A property of handles that releasing keeps. -/
theorem releaseAll_handles_of {Q : Handle → Prop} (hQ : ∀ h, Q h → Q h.released)
    (hi : i < handleMax) (fds : List (Option ℕ)) (h : Q (s.handles i)) :
    Q ((s.releaseAll fds).handles i) := by
  induction fds generalizing s with
  | nil => exact h
  | cons fd fds ih =>
    cases fd with
    | none => exact ih h
    | some g =>
      refine ih ?_
      rw [release_handles hi]
      split
      · exact hQ _ h
      · exact h

theorem rest_releaseAll (fds : List (Option ℕ)) : (s.releaseAll fds).rest = s.rest := by
  induction fds generalizing s with
  | nil => rfl
  | cons fd fds ih =>
    cases fd with
    | none => exact ih
    | some g => exact ih.trans (rest_release g)

/-- A live handle does not get a negative count. -/
theorem released_nonneg (h : Handle) (hh : h.type ≠ .free → 0 ≤ h.refcount) :
    h.released.type ≠ .free → 0 ≤ h.released.refcount := by
  rw [Handle.released]
  split
  · exact hh
  split
  · exact fun hf => absurd rfl hf
  · intro _
    dsimp only
    omega

theorem Wf.schedExit (h : s.Wf) (tid : ℕ) : (s.schedExit tid).Wf := by
  have hrest := rest_releaseAll (s := s.modifyThread tid fun t =>
    { t with dead := true, fds := Vector.replicate 16 none }) (s.fdsOf tid).toList
  obtain ⟨hids, hnext⟩ := ids_of_rest hrest
  have hready := congrArg Prod.fst hrest
  refine h.of_ids (hids.trans (ids_modifyThread fun t _ => ⟨rfl, rfl⟩)) hnext
    (fun i hi => ?_) (fun hr i hi => ?_)
  · exact releaseAll_handles_of released_nonneg hi _ (h.refcount i hi)
  · refine releaseAll_handles_of (Q := (· = blank)) ?_ hi _ (h.unready (hready.symm.trans hr) i hi)
    rintro _ rfl
    rfl

theorem Wf.start (h : s.Wf) (ht : s.threads[tid]? = some t) (hp : t.entry.pending = true)
    (loads : Bool) : (s.start tid loads).Wf := by
  cases loads with
  | false => exact h.schedExit tid
  | true =>
    refine h.of_ids (ids_modifyThread fun u hu => ⟨rfl, ?_⟩) rfl h.refcount h.unready
    obtain rfl : t = u := some.inj (ht.symm.trans hu)
    have hk : t.entry ≠ .kernel := by
      intro hk
      rw [hk] at hp
      exact nomatch hp
    simp [hk]

theorem tally_nonneg : Tally fun h _ => h.type ≠ .free → 0 ≤ h.refcount where
  free _ hf _ hlive := absurd hf hlive
  acquired := by
    intro h n _ hh hlive
    rw [Handle.acquired] at hlive ⊢
    split
    · next hf => exact absurd (by rw [if_pos hf]; exact hf) hlive
    · next hf =>
      have := hh hf
      dsimp only
      omega
  released hh := released_nonneg _ hh
  taken _ _ href _ _ := by rw [href]; decide

theorem Wf.fdCall (h : s.Wf) (hready : s.ready = true) (ht : tid < s.threads.length) (c : FdCall) :
    (s.fdCall tid c).2.Wf := by
  obtain ⟨hmoves, hrest⟩ := fdCall_moves s tid c
  obtain ⟨hids, hnext⟩ := ids_of_rest hrest
  refine h.of_ids hids hnext (fun i hi => ?_) (fun hr => ?_)
  · exact tally_nonneg.moves hi ht hmoves (h.refcount i hi)
  · rw [show (s.fdCall tid c).2.ready = true from (congrArg Prod.fst hrest).trans hready] at hr
    exact nomatch hr

theorem Wf.sysSpawn (h : s.Wf) (argsOk : Bool) (fdMap : Option (Vector ℤ 3)) (stack : Bool) :
    (s.sysSpawn tid argsOk fdMap stack).2.Wf := by
  cases argsOk with
  | false => exact h
  | true =>
    have hcreate := (h.acquireAll (s.overrideFds tid fdMap).toList).schedCreateUser
      (e := .launch (s.overrideFds tid fdMap)) (s.pidOf tid) stack
    rw [FdState.sysSpawn]
    cases stack with
    | true => exact hcreate
    | false => exact hcreate

theorem Wf.syscall (h : s.Wf) (ht : tid < s.threads.length) (c : Syscall) :
    (s.syscall tid c).2.Wf := by
  have hlen : tid < s.prepared.threads.length := by rwa [s.prepared_frame.1]
  cases c with
  | fd c => exact h.prepared.fdCall s.ready_prepared hlen c
  | spawn argsOk fdMap stack => exact h.prepared.sysSpawn argsOk fdMap stack
  | exit => exact h.prepared.schedExit tid

theorem Wf.bootNext (h : s.Wf) : s.bootNext.Wf :=
  ⟨h.pid_inj, h.user_pid, h.pid_lt, h.nextPid_pos, h.refcount, h.unready⟩

theorem Wf.boot {configured : Bool} (h : s.Wf) (hs : s.boot configured = some s') : s'.Wf := by
  unfold FdState.boot at hs
  split at hs <;> cases hs
  · exact h.schedCreate.bootNext
  · cases configured with
    | true => exact h.schedCreate.bootNext
    | false => exact h.bootNext
  · cases configured with
    | true => exact (h.schedCreateUser 0 true).bootNext
    | false => exact h.bootNext
  · exact (h.schedExit 0).bootNext

/-- What a step is. -/
theorem step_cases {a : Action} (h : s.step a = some s') :
    (∃ configured, s.boot configured = some s') ∨
    (∃ tid t loads, s.threads[tid]? = some t ∧ t.dead = false ∧ t.entry.pending = true ∧
      s' = s.start tid loads) ∨
    (∃ tid t c, a = .syscall tid c ∧ s.threads[tid]? = some t ∧ t.dead = false ∧ t.entry = .user ∧
      s' = (s.syscall tid c).2) := by
  cases a with
  | boot configured => exact .inl ⟨configured, h⟩
  | start tid loads =>
    rw [step] at h
    split at h
    · next t ht =>
      split at h
      · next hcond =>
        simp only [Bool.and_eq_true, Bool.not_eq_true'] at hcond
        exact .inr (.inl ⟨tid, t, loads, ht, hcond.1, hcond.2, (some.inj h).symm⟩)
      · exact nomatch h
    · exact nomatch h
  | syscall tid c =>
    rw [step] at h
    split at h
    · next t ht =>
      split at h
      · next hcond =>
        simp only [Bool.and_eq_true, Bool.not_eq_true', decide_eq_true_eq] at hcond
        exact .inr (.inr ⟨tid, t, c, rfl, ht, hcond.1, hcond.2, (some.inj h).symm⟩)
      · exact nomatch h
    · exact nomatch h

theorem Wf.step {a : Action} (h : s.Wf) (hs : s.step a = some s') : s'.Wf := by
  rcases step_cases hs with ⟨configured, hb⟩ | ⟨tid, t, loads, ht, -, hp, rfl⟩ |
    ⟨tid, t, c, -, ht, -, -, rfl⟩
  · exact h.boot hb
  · exact h.start ht hp loads
  · exact h.syscall (List.getElem?_eq_some_iff.mp ht).1 c

theorem schedInit_wf : schedInit.Wf where
  pid_inj {j k t u} hj hk _ _ := by
    have hj' : j < 1 := (List.getElem?_eq_some_iff.mp hj).1
    have hk' : k < 1 := (List.getElem?_eq_some_iff.mp hk).1
    omega
  user_pid {k t} hk hu := by
    obtain rfl : t = _ := List.mem_singleton.mp (List.mem_of_getElem? hk)
    exact absurd rfl hu
  pid_lt {k t} hk := by
    obtain rfl : t = _ := List.mem_singleton.mp (List.mem_of_getElem? hk)
    exact Nat.zero_lt_one
  nextPid_pos := Nat.zero_lt_one
  refcount _ _ hlive := absurd rfl hlive
  unready _ _ _ := rfl

/-! ### The reference of the idle thread -/

/-- The descriptors of live threads that name a slot. -/
def liveRefs (s : FdState) (i : ℕ) : ℕ :=
  (s.threads.map fun t => if t.dead then 0 else t.fds.refs i).sum

/-- The same without one thread. -/
def othersRefs (s : FdState) (tid i : ℕ) : ℕ :=
  ((s.threads.eraseIdx tid).map fun t => if t.dead then 0 else t.fds.refs i).sum

theorem liveRefs_eq (ht : s.threads[tid]? = some t) (i : ℕ) :
    s.liveRefs i = (if t.dead then 0 else t.fds.refs i) + s.othersRefs tid i := by
  obtain ⟨hlt, hget⟩ := List.getElem?_eq_some_iff.mp ht
  have hperm := (List.getElem_cons_eraseIdx_perm hlt).map fun t => if t.dead then 0 else t.fds.refs i
  rw [liveRefs, ← hperm.sum_eq, List.map_cons, List.sum_cons, hget, othersRefs]

theorem othersRefs_congr (hk : ∀ k ≠ tid, s'.threads[k]? = s.threads[k]?) (i : ℕ) :
    s'.othersRefs tid i = s.othersRefs tid i := by
  have herase : s'.threads.eraseIdx tid = s.threads.eraseIdx tid := by
    refine List.ext_getElem? fun k => ?_
    rw [List.getElem?_eraseIdx, List.getElem?_eraseIdx]
    split
    · exact hk k (by omega)
    · exact hk (k + 1) (by omega)
  rw [othersRefs, othersRefs, herase]

/-- The idle thread. -/
def idle : FdThread := ⟨0, false, defaultFds, .kernel⟩

/-- The reference of the idle thread to slot 0 is not counted. -/
structure IdleUncounted (s : FdState) : Prop where
  idle : s.threads[1]? = some idle
  short : (s.handles 0).type = .free ∨ (s.handles 0).refcount < s.liveRefs 0

theorem othersRefs_pos (h : s.threads[1]? = some idle) (htid : tid ≠ 1) :
    1 ≤ s.othersRefs tid 0 := by
  have hmem : idle ∈ s.threads.eraseIdx tid := by
    rw [List.mem_eraseIdx_iff_getElem?]
    exact ⟨1, htid.symm, h⟩
  have hle := List.single_le_sum (l := (s.threads.eraseIdx tid).map fun t =>
    if t.dead then 0 else t.fds.refs 0) (fun _ _ => Nat.zero_le _) _
    (List.mem_map_of_mem hmem)
  exact Nat.le_trans (by decide) hle

/-- A count below the number of references, `c` of which others hold. -/
theorem tally_short {c : ℕ} (hc : 1 ≤ c) :
    Tally fun h n => h.type = .free ∨ h.refcount < ((c + n : ℕ) : ℤ) where
  free _ hf _ := .inl hf
  acquired := by
    rintro h n - hh
    by_cases hf : h.type = .free
    · exact .inl (by simp [Handle.acquired, hf])
    · have hlt := hh.resolve_left hf
      refine .inr ?_
      rw [Handle.acquired, if_neg hf]
      push_cast at hlt ⊢
      omega
  released := by
    rintro h n hh
    by_cases hf : h.type = .free
    · exact .inl (by simp [Handle.released, hf])
    · have hlt := hh.resolve_left hf
      rw [Handle.released, if_neg hf]
      split
      · exact .inl rfl
      · refine .inr ?_
        push_cast at hlt ⊢
        omega
  taken := by
    rintro h h' n - - href -
    exact .inr (by rw [href]; omega)

/-- The count after a call on descriptors by a thread other than the idle one. -/
theorem IdleUncounted.fdCall (h : s.IdleUncounted) (ht : s.threads[tid]? = some t)
    (hdead : t.dead = false) (htid : tid ≠ 1) (c : FdCall) : (s.fdCall tid c).2.IdleUncounted := by
  obtain ⟨hmoves, hrest⟩ := fdCall_moves s tid c
  have hlt := (List.getElem?_eq_some_iff.mp ht).1
  obtain ⟨hlen, hothers⟩ := hmoves.others
  obtain ⟨t', ht'⟩ : ∃ t', (s.fdCall tid c).2.threads[tid]? = some t' :=
    ⟨_, List.getElem?_eq_getElem (hlen ▸ hlt)⟩
  have hdead' : t'.dead = false := by
    have hmap := congrArg (fun r => (r.2.2.2)[tid]?) hrest
    simp only [rest, List.getElem?_map, ht, ht', map_some, some.injEq,
      Prod.mk.injEq] at hmap
    exact hmap.2.1.trans hdead
  refine ⟨(hothers 1 htid.symm).trans h.idle, ?_⟩
  have hsplit := liveRefs_eq ht 0
  rw [hdead, if_neg (by simp), Nat.add_comm] at hsplit
  rw [liveRefs_eq ht' 0, hdead', if_neg (by simp), othersRefs_congr hothers, ← fdsOf_eq ht',
    Nat.add_comm]
  refine (tally_short (othersRefs_pos h.idle htid)).moves (by decide) hlt hmoves ?_
  rw [fdsOf_eq ht, ← hsplit]
  exact h.short

/-- The count after the exit of a thread other than the idle one. -/
theorem IdleUncounted.schedExit (h : s.IdleUncounted) (htid : tid ≠ 1)
    (hlt : tid < s.threads.length) : (s.schedExit tid).IdleUncounted := by
  obtain ⟨t, ht⟩ : ∃ t, s.threads[tid]? = some t := ⟨_, List.getElem?_eq_getElem hlt⟩
  have hthreads : (s.schedExit tid).threads = s.threads.modify tid fun t =>
      { t with dead := true, fds := Vector.replicate 16 none } := threads_releaseAll _
  have hothers : ∀ k ≠ tid, (s.schedExit tid).threads[k]? = s.threads[k]? := by
    intro k hk
    rw [hthreads]
    simp [Ne.symm hk]
  have ht' : (s.schedExit tid).threads[tid]? =
      some { t with dead := true, fds := Vector.replicate 16 none } := by
    rw [hthreads]
    simp [ht]
  refine ⟨(hothers 1 htid.symm).trans h.idle, ?_⟩
  rw [liveRefs_eq ht' 0, if_pos rfl, othersRefs_congr hothers, Nat.add_comm]
  refine (tally_short (othersRefs_pos h.idle htid)).schedExit (by decide) ?_
  -- a thread that is dead already counts for nothing
  have hle : s.liveRefs 0 ≤ s.othersRefs tid 0 + (s.fdsOf tid).refs 0 := by
    rw [liveRefs_eq ht 0, fdsOf_eq ht]
    split <;> omega
  exact h.short.imp_right fun hlt => by omega

theorem liveRefs_append (u : FdThread) (i : ℕ) :
    (s.appendThread u).liveRefs i = s.liveRefs i + if u.dead then 0 else u.fds.refs i := by
  simp [liveRefs, appendThread]

/-- A new thread comes with as many references as it acquires. -/
theorem IdleUncounted.create (h : s.IdleUncounted) {u : FdThread} {n : ℕ} (hu : u.dead = false) :
    ({ s.acquireAll u.fds.toList with nextPid := n }.appendThread u).IdleUncounted := by
  have hlive : ({ s.acquireAll u.fds.toList with nextPid := n } : FdState).liveRefs 0 =
      s.liveRefs 0 := by
    rw [liveRefs, liveRefs]
    exact congrArg (fun l : List FdThread =>
      (l.map fun t => if t.dead then 0 else t.fds.refs 0).sum) (threads_acquireAll _)
  refine ⟨?_, ?_⟩
  · change ((s.acquireAll u.fds.toList).threads ++ [u])[1]? = _
    rw [threads_acquireAll, List.getElem?_append_left (List.getElem?_eq_some_iff.mp h.idle).1]
    exact h.idle
  · rw [liveRefs_append, hlive, hu, if_neg (by simp)]
    change ((s.acquireAll u.fds.toList).handles 0).type = .free ∨
      ((s.acquireAll u.fds.toList).handles 0).refcount < _
    rw [acquireAll_handles (by decide), Handle.type_add]
    by_cases hf : (s.handles 0).type = .free
    · exact .inl hf
    · have hlt := h.short.resolve_left hf
      refine .inr ?_
      rw [Handle.add, if_neg hf, FdTable.refs]
      push_cast
      omega

theorem IdleUncounted.schedCreate (h : s.IdleUncounted) : s.schedCreate.IdleUncounted :=
  h.create (u := FdState.idle) (n := (s.acquireAll defaultFds.toList).nextPid) rfl

theorem IdleUncounted.schedCreateUser (h : s.IdleUncounted) (e : Entry) (parentPid : ℕ) :
    (s.schedCreateUser e parentPid true).2.IdleUncounted :=
  h.create (u := ⟨s.nextPid, false, s.inheritedFds parentPid, e⟩) (n := s.nextPid + 1) rfl

theorem IdleUncounted.prepared (h : s.IdleUncounted) (hwf : s.Wf) : s.prepared.IdleUncounted := by
  cases hr : s.ready with
  | true => rwa [prepared_of_ready hr]
  | false =>
    have hp : s.prepared = s.handlesInit := by rw [FdState.prepared, hr]; rfl
    have hpos : 1 ≤ s.liveRefs 0 := by
      rw [liveRefs_eq h.idle 0]
      exact Nat.le_add_right_of_le (by decide)
    rw [hp]
    refine ⟨h.idle, .inr ?_⟩
    change (s.handles 0).refcount < (s.liveRefs 0 : ℤ)
    rw [hwf.unready hr 0 (by decide)]
    exact Int.natCast_pos.mpr hpos

/-! ### Runs -/

/-- A step that loses no reference: no `SPAWN` names an open descriptor in its map, and
every thread gets its stack. -/
def Plain (s : FdState) : Action → Prop
  | .syscall tid (.spawn _ fdMap stack) =>
    stack = true ∧ ∀ fd ∈ (s.prepared.overrideFds tid fdMap).toList, fd = none
  | _ => True

theorem acquireAll_none {fds : List (Option ℕ)} (h : ∀ fd ∈ fds, fd = none) :
    s.acquireAll fds = s := by
  induction fds with
  | nil => rfl
  | cons fd fds ih =>
    obtain rfl : fd = none := h fd List.mem_cons_self
    exact ih fun fd hfd => h fd (List.mem_cons_of_mem _ hfd)

theorem IdleUncounted.ne_one (h : s.IdleUncounted) (ht : s.threads[tid]? = some t)
    (hk : t.entry ≠ .kernel) : tid ≠ 1 := by
  rintro rfl
  obtain rfl : t = FdState.idle := some.inj (ht.symm.trans h.idle)
  exact hk rfl

theorem IdleUncounted.start (h : s.IdleUncounted) (ht : s.threads[tid]? = some t)
    (hp : t.entry.pending = true) (loads : Bool) : (s.start tid loads).IdleUncounted := by
  have hk : t.entry ≠ .kernel := by
    intro hk
    rw [hk] at hp
    exact nomatch hp
  have htid := h.ne_one ht hk
  cases loads with
  | false => exact h.schedExit htid (List.getElem?_eq_some_iff.mp ht).1
  | true =>
    have hothers : ∀ k ≠ tid, (s.start tid true).threads[k]? = s.threads[k]? := by
      intro k hne
      simp [FdState.start, modifyThread, Ne.symm hne]
    have ht' : (s.start tid true).threads[tid]? = some { t with entry := .user } := by
      simp [FdState.start, modifyThread, ht]
    refine ⟨(hothers 1 htid.symm).trans h.idle, ?_⟩
    rw [liveRefs_eq ht' 0, othersRefs_congr hothers, ← liveRefs_eq ht 0]
    exact h.short

theorem IdleUncounted.syscall (h : s.IdleUncounted) (hwf : s.Wf) (ht : s.threads[tid]? = some t)
    (hdead : t.dead = false) (hu : t.entry = .user) {c : Syscall}
    (hplain : s.Plain (.syscall tid c)) : (s.syscall tid c).2.IdleUncounted := by
  have htid := h.ne_one ht (by rw [hu]; nofun)
  have ht' : s.prepared.threads[tid]? = some t := by rwa [s.prepared_frame.1]
  have h' := h.prepared hwf
  cases c with
  | fd c => exact h'.fdCall ht' hdead htid c
  | spawn argsOk fdMap stack =>
    obtain ⟨rfl, hnone⟩ := hplain
    cases argsOk with
    | false => exact h'
    | true =>
      have hcreate : (s.syscall tid (.spawn true fdMap true)).2 =
          ((s.prepared.acquireAll (s.prepared.overrideFds tid fdMap).toList).schedCreateUser
            (.launch (s.prepared.overrideFds tid fdMap)) (s.prepared.pidOf tid) true).2 := rfl
      rw [hcreate, acquireAll_none hnone]
      exact h'.schedCreateUser _ _
  | exit => exact h'.schedExit htid (List.getElem?_eq_some_iff.mp ht').1

theorem IdleUncounted.boot {configured : Bool} (h : s.IdleUncounted)
    (hs : s.boot configured = some s') : s'.IdleUncounted := by
  have hnext : ∀ {u : FdState}, u.IdleUncounted → u.bootNext.IdleUncounted :=
    fun hu => ⟨hu.idle, hu.short⟩
  unfold FdState.boot at hs
  split at hs <;> cases hs
  · exact hnext h.schedCreate
  · cases configured with
    | true => exact hnext h.schedCreate
    | false => exact hnext h
  · cases configured with
    | true => exact hnext (h.schedCreateUser _ _)
    | false => exact hnext h
  · have hlt := (List.getElem?_eq_some_iff.mp h.idle).1
    exact hnext (h.schedExit (by decide) (by omega))

/-- The boot thread can only create the idle thread. -/
theorem idleUncounted_of_step_schedInit {a : Action} (h : schedInit.step a = some s') :
    s'.IdleUncounted := by
  have hboot : ∀ {k : ℕ} {u : FdThread}, schedInit.threads[k]? = some u → u.entry = .kernel := by
    intro k u hk
    obtain rfl : u = _ := List.mem_singleton.mp (List.mem_of_getElem? hk)
    rfl
  rcases step_cases h with ⟨configured, hb⟩ | ⟨tid, t, loads, ht, -, hp, -⟩ |
    ⟨tid, t, c, -, ht, -, hu, -⟩
  · obtain rfl := some.inj hb
    exact ⟨rfl, .inl rfl⟩
  · rw [hboot ht] at hp
    exact nomatch hp
  · rw [hboot ht] at hu
    exact nomatch hu

theorem plain_invariant (h : ReachableIf Plain s) : s = schedInit ∨ s.IdleUncounted := by
  have hinv : s.Wf ∧ (s = schedInit ∨ s.IdleUncounted) := by
    refine Reach.invariant (I := fun s => s.Wf ∧ (s = schedInit ∨ s.IdleUncounted)) h ?_ ?_
    · rintro _ rfl
      exact ⟨schedInit_wf, .inl rfl⟩
    · rintro s s' ⟨hwf, hs⟩ ⟨a, hplain, hstep⟩
      refine ⟨hwf.step hstep, .inr ?_⟩
      rcases hs with rfl | hs
      · exact idleUncounted_of_step_schedInit hstep
      · rcases step_cases hstep with ⟨configured, hb⟩ | ⟨tid, t, loads, ht, -, hp, rfl⟩ |
          ⟨tid, t, c, rfl, ht, hdead, hu, rfl⟩
        · exact hs.boot hb
        · exact hs.start ht hp loads
        · exact hs.syscall hwf ht hdead hu hplain
  exact hinv.2

theorem liveRefs_le_holders (s : FdState) (i : ℕ) : s.liveRefs i ≤ s.holders i := by
  refine List.sum_le_sum fun t _ => ?_
  rw [FdThread.refs]
  split
  · exact Nat.le_refl _
  · exact Nat.le_add_right _ _

theorem IdleUncounted.not_exact (h : s.IdleUncounted) : ¬s.Exact := by
  intro hexact
  rcases h.short with hfree | hlt
  · have hmem := List.mem_of_getElem? h.idle
    exact hexact.named _ hmem rfl 0 (by decide) hfree
  · by_cases hfree : (s.handles 0).type = .free
    · have hmem := List.mem_of_getElem? h.idle
      exact hexact.named _ hmem rfl 0 (by decide) hfree
    · have hcount := hexact.refcount 0 hfree
      have hle := s.liveRefs_le_holders 0
      omega

theorem schedInit_not_exact : ¬schedInit.Exact := fun h =>
  h.named _ List.mem_cons_self rfl 0 (by decide) rfl

/-- **The counts are never exact**: not in the state that every run starts in, and in no
state of a run without lost references. -/
theorem counts_never_exact (s : FdState) : ¬schedInit.Exact ∧ (ReachableIf Plain s → ¬s.Exact) := by
  refine ⟨schedInit_not_exact, fun h => ?_⟩
  rcases plain_invariant h with rfl | h
  · exact schedInit_not_exact
  · exact h.not_exact

/-- A run of steps that are plain in every state. -/
theorem ReachableIf.of_runAll {as : List Action} (h : ReachableIf Plain s)
    (has : ∀ a ∈ as, ∀ s, Plain s a) (hr : runAll step s as = some s') : ReachableIf Plain s' := by
  induction as generalizing s with
  | nil => exact some.inj hr ▸ h
  | cons a as ih =>
    obtain ⟨u, hu, hr⟩ := bind_eq_some_iff.mp hr
    refine ih (.step h ⟨a, has a List.mem_cons_self s, hu⟩) (fun b hb => ?_) hr
    exact has b (List.mem_cons_of_mem _ hb)

/-- The system starts, and its first process makes a call. -/
def firstCall : List Action :=
  [.boot true, .boot false, .boot true, .boot true, .start 2 true, .syscall 2 (.fd (.close (-1)))]

def afterFirstCall : FdState := (runAll step schedInit firstCall).getD schedInit

theorem runAll_firstCall : runAll step schedInit firstCall = some afterFirstCall := by
  have hsome : (runAll step schedInit firstCall).isSome = true := by decide +kernel
  obtain ⟨s, hs⟩ := isSome_iff_exists.mp hsome
  rw [afterFirstCall, hs]
  rfl

theorem afterFirstCall_plain : ReachableIf Plain afterFirstCall := by
  refine ReachableIf.of_runAll (.init rfl) ?_ runAll_firstCall
  intro a ha s
  simp only [firstCall, List.mem_cons, List.not_mem_nil, or_false] at ha
  rcases ha with rfl | rfl | rfl | rfl | rfl | rfl <;> trivial

theorem counts_never_exact_firstCall : ¬afterFirstCall.Exact :=
  (counts_never_exact _).2 afterFirstCall_plain

/-- After the first call slot 0 is a terminal that two threads name and nobody is
counted for. -/
theorem idle_not_counted :
    Reachable afterFirstCall ∧ (afterFirstCall.handles 0).type = .tty ∧
      (afterFirstCall.handles 0).refcount = 0 ∧ afterFirstCall.holders 0 = 2 ∧
      ¬afterFirstCall.Exact := by
  have htype : (afterFirstCall.handles 0).type = .tty := by decide +kernel
  have hcount : (afterFirstCall.handles 0).refcount = 0 := by decide +kernel
  have hholders : afterFirstCall.holders 0 = 2 := by decide +kernel
  refine ⟨?_, htype, hcount, hholders, fun h => ?_⟩
  · exact afterFirstCall_plain.mono fun _ _ ⟨a, _, hs⟩ => ⟨a, trivial, hs⟩
  · have hexact := h.refcount 0 (by rw [htype]; nofun)
    rw [hcount, hholders] at hexact
    exact absurd hexact (by decide)

end FdState

end Neptune
