import Mathlib.Algebra.BigOperators.Group.List.Basic
import Neptune.Fd.Calls

/-!
# References that a thread takes and drops

A relation between a handle and the number of descriptors of a thread that name it
is kept by every call on descriptors if the moves of the thread keep it.

## Main definitions

* `Tally` — a relation between handle and number that the moves keep.

## Main results

* `FdState.fdCall_moves` — a call on descriptors is a sequence of moves.
* `Tally.moves` — a tally is kept by every sequence of moves.
* `Tally.schedExit` — the exit of the thread keeps it too, and leaves no descriptor.
-/

namespace Neptune

/-! ### One handle -/

/-- The handle after `syscall_acquire_handle`. -/
def Handle.acquired (h : Handle) : Handle :=
  if h.type = .free then h else { h with refcount := h.refcount + 1 }

/-- The handle after `syscall_release_handle`. -/
def Handle.released (h : Handle) : Handle :=
  if h.type = .free then h
  else if h.refcount - 1 ≤ 0 then FdState.blank
  else { h with refcount := h.refcount - 1 }

/-- The handle with more references. -/
def Handle.add (h : Handle) (n : ℕ) : Handle :=
  if h.type = .free then h else { h with refcount := h.refcount + n }

@[simp] theorem Handle.add_zero (h : Handle) : h.add 0 = h := by
  rw [add]; split <;> simp

@[simp] theorem Handle.type_add (h : Handle) (n : ℕ) : (h.add n).type = h.type := by
  rw [add]; split <;> rfl

theorem Handle.add_of_free {h : Handle} (hf : h.type = .free) (n : ℕ) : h.add n = h := if_pos hf

theorem Handle.acquired_add (h : Handle) (n : ℕ) : h.acquired.add n = h.add (n + 1) := by
  by_cases hf : h.type = .free
  · simp [add, acquired, hf]
  · simp only [add, acquired, hf, if_false]
    congr 1
    omega

theorem Handle.add_add (h : Handle) (m n : ℕ) : (h.add m).add n = h.add (m + n) := by
  by_cases hf : h.type = .free
  · simp [add, hf]
  · simp only [add, hf, if_false]
    congr 1
    omega

/-- The number of descriptors that name a slot. -/
def FdTable.refs (t : FdTable) (i : ℕ) : ℕ := t.toList.count (some i)

namespace FdTable

variable {t : FdTable} {fd g i : ℕ}

theorem refs_set_of_none (hfd : fd < 16) (h : t[fd]?.join = none) :
    FdTable.refs (t.setIfInBounds fd (some g)) i = FdTable.refs t i + if g = i then 1 else 0 := by
  have hlen : fd < t.toList.length := by simpa using hfd
  have hnone : t.toList[fd] = none := by simpa [hfd] using h
  rw [refs, refs, Vector.toList_setIfInBounds, List.count_set hlen, hnone]
  simp

theorem refs_set_none (hfd : fd < 16) (h : t[fd]?.join = some g) :
    FdTable.refs t i = FdTable.refs (t.setIfInBounds fd none) i + if g = i then 1 else 0 := by
  have hback : (t.setIfInBounds fd none).setIfInBounds fd (some g) = t := by
    have hg : t[fd] = some g := by simpa [hfd] using h
    ext j hj : 1
    by_cases hji : fd = j
    · subst hji; simpa using hg.symm
    · simp [hji]
  rw [← refs_set_of_none hfd (by simp [hfd]), hback]

theorem refs_pos (hfd : fd < 16) (h : t[fd]?.join = some g) : 0 < FdTable.refs t g := by
  rw [refs_set_none hfd h, if_pos rfl]
  omega

end FdTable

namespace FdState

variable {s s' : FdState} {tid : ℕ}

theorem acquire_handles {g i : ℕ} (hi : i < handleMax) :
    (s.acquire g).handles i = if g = i then (s.handles i).acquired else s.handles i := by
  by_cases hg : g = i
  · subst hg
    rw [if_pos rfl, acquire, if_neg (Nat.not_le.mpr hi), Handle.acquired]
    split
    · rfl
    · simp [setHandle]
  · rw [if_neg hg, acquire]
    split
    · rfl
    split
    · rfl
    · simp [setHandle, Ne.symm hg]

@[simp] theorem closeHandleFile_handles (h : Handle) :
    (s.closeHandleFile h).handles = s.handles := by
  rw [closeHandleFile]; split <;> rfl

theorem release_handles {g i : ℕ} (hi : i < handleMax) :
    (s.release g).handles i = if g = i then (s.handles i).released else s.handles i := by
  by_cases hg : g = i
  · subst hg
    rw [if_pos rfl, release, if_neg (Nat.not_le.mpr hi), Handle.released]
    split
    · rfl
    split
    · simp [setHandle, blank]
    · simp [setHandle]
  · rw [if_neg hg, release]
    split
    · rfl
    split
    · rfl
    split
    · simp [setHandle, Ne.symm hg]
    · simp [setHandle, Ne.symm hg]

theorem fdCall_moves (s : FdState) (tid : ℕ) (c : FdCall) :
    Moves tid s (s.fdCall tid c).2 ∧ (s.fdCall tid c).2.rest = s.rest := by
  by_cases hr : s.Refused tid c
  · by_cases h2 : s.ClosesTwice tid c
    · obtain ⟨rfl, hs, hfd⟩ := h2
      obtain ⟨-, hrest, htables, -⟩ := openFile_closesTwice hs hfd
      exact ⟨.same htables, hrest⟩
    · have hfailed := fdCall_failed hr h2
      exact ⟨.same hfailed.clean.tables, hfailed.rest⟩
  · obtain ⟨-, hrest, hmoves⟩ := fdCall_ok hr
    exact ⟨hmoves, hrest⟩

/-! ### Threads other than the one that moves -/

@[simp] theorem threads_release (g : ℕ) : (s.release g).threads = s.threads := by
  have hclose : ∀ h, (s.closeHandleFile h).threads = s.threads := by
    intro h
    rw [closeHandleFile]; split <;> rfl
  rw [release]
  split
  · rfl
  split
  · rfl
  split
  · exact hclose _
  · rfl

@[simp] theorem threads_acquire (g : ℕ) : (s.acquire g).threads = s.threads := by
  rw [acquire]
  split
  · rfl
  · split <;> rfl

/-- The moves of a thread change no other thread. -/
theorem Moves.others (h : Moves tid s s') :
    s'.threads.length = s.threads.length ∧ ∀ k ≠ tid, s'.threads[k]? = s.threads[k]? := by
  have hset : ∀ (s : FdState) (fd : ℤ) (g : Option ℕ),
      (s.setFd tid fd g).threads.length = s.threads.length ∧
        ∀ k ≠ tid, (s.setFd tid fd g).threads[k]? = s.threads[k]? := by
    intro s fd g
    rw [setFd]
    split
    · exact ⟨rfl, fun _ _ => rfl⟩
    · refine ⟨List.length_modify _ _ _, fun k hk => ?_⟩
      simp [modifyThread, Ne.symm hk]
  induction h with
  | same h => rw [h.threads]; exact ⟨rfl, fun _ _ => rfl⟩
  | take => exact hset _ _ _
  | drop => rw [threads_release]; exact hset _ _ _
  | copy => rw [threads_acquire]; exact hset _ _ _
  | trans _ _ ih ih' => exact ⟨ih'.1.trans ih.1, fun k hk => (ih'.2 k hk).trans (ih.2 k hk)⟩

end FdState

open FdState

/-! ### Tallies -/

/-- A relation between a handle and the number of its references that is kept when a
reference is copied, dropped or made, and that does not look into free slots. -/
structure Tally (P : Handle → ℕ → Prop) : Prop where
  free : ∀ {h h' n}, h.type = .free → h'.type = .free → P h n → P h' n
  acquired : ∀ {h n}, 0 < n → P h n → P h.acquired (n + 1)
  released : ∀ {h n}, P h (n + 1) → P h.released n
  taken : ∀ {h h' n}, h.type = .free → h'.type ≠ .free → h'.refcount = 1 → P h n → P h' (n + 1)

namespace Tally

variable {P : Handle → ℕ → Prop} {s s' : FdState} {tid i : ℕ}

theorem same (hP : Tally P) (hst : SameTables s s')
    (h : P (s.handles i) ((s.fdsOf tid).refs i)) : P (s'.handles i) ((s'.fdsOf tid).refs i) := by
  rw [show s'.fdsOf tid = s.fdsOf tid by rw [fdsOf, fdsOf, hst.threads]]
  by_cases hfree : (s.handles i).type = .free
  · exact hP.free hfree ((hst.type i).trans hfree) h
  · rw [hst.handle i hfree]
    exact h

theorem take (hP : Tally P) (ht : tid < s.threads.length) {g fd : ℕ} {hd : Handle}
    (hg : (s.handles g).type = .free) (hty : hd.type ≠ .free) (href : hd.refcount = 1)
    (hfd : fd < 16) (hnone : (s.fdsOf tid)[fd]?.join = none)
    (h : P (s.handles i) ((s.fdsOf tid).refs i)) :
    P (((s.setHandle g hd).setFd tid fd (some g)).handles i)
      ((((s.setHandle g hd).setFd tid fd (some g)).fdsOf tid).refs i) := by
  rw [setFd_handles, fdsOf_setFd hfd (by exact ht), fdsOf_setHandle, FdTable.refs_set_of_none hfd hnone]
  by_cases hgi : g = i
  · subst hgi
    simpa [setHandle] using hP.taken hg hty href h
  · simpa [setHandle, hgi, Ne.symm hgi] using h

theorem drop (hP : Tally P) (hi : i < handleMax) (ht : tid < s.threads.length) {g fd : ℕ}
    (hfd : fd < 16) (hg : (s.fdsOf tid)[fd]?.join = some g)
    (h : P (s.handles i) ((s.fdsOf tid).refs i)) :
    P (((s.setFd tid fd none).release g).handles i)
      ((((s.setFd tid fd none).release g).fdsOf tid).refs i) := by
  rw [release_handles hi, setFd_handles, fdsOf_release, fdsOf_setFd hfd ht]
  rw [FdTable.refs_set_none hfd hg] at h
  by_cases hgi : g = i
  · rw [if_pos hgi] at h ⊢
    exact hP.released h
  · rw [if_neg hgi] at h ⊢
    exact h

theorem copy (hP : Tally P) (hi : i < handleMax) (ht : tid < s.threads.length) {g fd fd' : ℕ}
    (hfd : fd < 16) (hnone : (s.fdsOf tid)[fd]?.join = none) (hfd' : fd' < 16)
    (hg : (s.fdsOf tid)[fd']?.join = some g) (h : P (s.handles i) ((s.fdsOf tid).refs i)) :
    P (((s.setFd tid fd (some g)).acquire g).handles i)
      ((((s.setFd tid fd (some g)).acquire g).fdsOf tid).refs i) := by
  have hfds : ((s.setFd tid fd (some g)).acquire g).fdsOf tid =
      (s.fdsOf tid).setIfInBounds fd (some g) := by
    rw [← fdsOf_setFd hfd ht, fdsOf, fdsOf, threads_acquire]
  rw [acquire_handles hi, setFd_handles, hfds, FdTable.refs_set_of_none hfd hnone]
  by_cases hgi : g = i
  · subst hgi
    rw [if_pos rfl, if_pos rfl]
    -- the descriptor that is copied is a reference already
    exact hP.acquired (FdTable.refs_pos hfd' hg) h
  · rw [if_neg hgi, if_neg hgi]
    exact h

/-- **A tally is kept by every sequence of moves.** -/
theorem moves (hP : Tally P) (hi : i < handleMax) (ht : tid < s.threads.length)
    (hm : Moves tid s s') (h : P (s.handles i) ((s.fdsOf tid).refs i)) :
    P (s'.handles i) ((s'.fdsOf tid).refs i) := by
  induction hm with
  | same hst => exact hP.same hst h
  | take hd _ hg hty href hfd hnone => exact hP.take ht hg hty href hfd hnone h
  | drop hfd hg => exact hP.drop hi ht hfd hg h
  | copy hfd hnone hfd' hg => exact hP.copy hi ht hfd hnone hfd' hg h
  | trans hm _ ih ih' => exact ih' (hm.others.1 ▸ ht) (ih ht h)

/-! ### The beginning and the end of a thread -/

/-- Releasing the descriptors in a list takes as many references away. -/
theorem releaseAll (hP : Tally P) (hi : i < handleMax) (fds : List (Option ℕ)) (n : ℕ)
    (h : P (s.handles i) (fds.count (some i) + n)) : P ((s.releaseAll fds).handles i) n := by
  induction fds generalizing s with
  | nil => simpa [FdState.releaseAll] using h
  | cons fd fds ih =>
    cases fd with
    | none => exact ih (by simpa using h)
    | some g =>
      refine ih ?_
      rw [release_handles hi]
      by_cases hgi : g = i
      · rw [if_pos hgi]
        refine hP.released ?_
        rw [hgi, List.count_cons_self] at h
        rwa [Nat.add_right_comm] at h
      · rw [if_neg hgi]
        simpa [hgi] using h

end Tally

namespace FdState

variable {s : FdState} {tid i : ℕ}

@[simp] theorem threads_releaseAll (fds : List (Option ℕ)) :
    (s.releaseAll fds).threads = s.threads := by
  induction fds generalizing s with
  | nil => rfl
  | cons fd fds ih =>
    cases fd with
    | none => exact ih
    | some g => exact ih.trans (threads_release g)

@[simp] theorem threads_acquireAll (fds : List (Option ℕ)) :
    (s.acquireAll fds).threads = s.threads := by
  induction fds generalizing s with
  | nil => rfl
  | cons fd fds ih =>
    cases fd with
    | none => exact ih
    | some g => exact ih.trans (threads_acquire g)

/-- Acquiring the descriptors in a list adds as many references to a handle. -/
theorem acquireAll_handles (hi : i < handleMax) (fds : List (Option ℕ)) :
    (s.acquireAll fds).handles i = (s.handles i).add (fds.count (some i)) := by
  induction fds generalizing s with
  | nil => simp [acquireAll]
  | cons fd fds ih =>
    cases fd with
    | none => rw [acquireAll, ih, List.count_cons_of_ne (by simp)]
    | some g =>
      rw [acquireAll, ih, acquire_handles hi]
      by_cases hgi : g = i
      · rw [if_pos hgi, Handle.acquired_add, hgi, List.count_cons_self]
      · rw [if_neg hgi, List.count_cons_of_ne (by simpa using hgi)]

theorem prepared_of_ready (h : s.ready = true) : s.prepared = s := if_pos h

theorem ready_prepared (s : FdState) : s.prepared.ready = true := by
  rw [prepared]
  split
  · assumption
  · rfl

/-- Calls on descriptors, one after the other. -/
def fdCalls (s : FdState) (tid : ℕ) (calls : List FdCall) : FdState :=
  calls.foldl (fun s c => (s.syscall tid (.fd c)).2) s

end FdState

namespace Tally

variable {P : Handle → ℕ → Prop} {s : FdState} {tid i : ℕ}

/-- A tally is kept by any number of calls. -/
theorem fdCalls (hP : Tally P) (hi : i < handleMax) (calls : List FdCall)
    (ht : tid < s.threads.length) (hready : s.ready = true)
    (h : P (s.handles i) ((s.fdsOf tid).refs i)) :
    (s.fdCalls tid calls).rest = s.rest ∧
      P ((s.fdCalls tid calls).handles i) (((s.fdCalls tid calls).fdsOf tid).refs i) := by
  induction calls generalizing s with
  | nil => exact ⟨rfl, h⟩
  | cons c calls ih =>
    have hcall : (s.syscall tid (.fd c)).2 = (s.fdCall tid c).2 := by
      rw [syscall, prepared_of_ready hready]
    obtain ⟨hmoves, hrest⟩ := fdCall_moves s tid c
    have hready' : (s.fdCall tid c).2.ready = true := (congrArg Prod.fst hrest).trans hready
    obtain ⟨hrest', h'⟩ := ih (hmoves.others.1 ▸ ht) hready' (hP.moves hi ht hmoves h)
    rw [FdState.fdCalls, List.foldl_cons, hcall]
    exact ⟨hrest'.trans hrest, h'⟩

/-- **The exit of a thread drops all its references.** -/
theorem schedExit (hP : Tally P) (hi : i < handleMax)
    (h : P (s.handles i) ((s.fdsOf tid).refs i)) : P ((s.schedExit tid).handles i) 0 :=
  hP.releaseAll hi _ 0 h

end Tally

end Neptune
