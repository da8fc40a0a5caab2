import Mathlib.Data.List.Basic
import Neptune.Fd.Handles

/-!
# The calls on descriptors

A call on descriptors takes up to five things (two files, two handles, two
descriptors) and gives them back when a later one is not to be had.  It gives
back exactly what it took, except in `OPEN`: where the handle is there and the
descriptor is not, releasing the handle closes the file, and the file is then
closed again.

What a call that succeeds does to the tables is a sequence of moves: it takes a
slot for an empty descriptor, it empties a descriptor and releases its handle, or
it copies a descriptor and acquires its handle.

## Main definitions

* `FdState.Clean` — no table has changed, and the files that were created have
  each been closed once.
* `FdState.Refused` — when a call returns an error.
* `FdState.ClosesTwice` — the case of `OPEN` above.
* `FdState.Moves` — the moves of a thread.

## Main results

* `FdState.fdCall_ok` — a call that is not refused returns a value and makes moves.
* `FdState.fdCall_failed` — a refused call is clean, unless it closes a file twice.
* `FdState.failedCall_clean_iff` — this for the system call, which may be the first.
-/

namespace Neptune

open Function List

/-- Taking the first of the elements with a property out leaves the others. -/
theorem filter_and_ne_of_filter_eq_cons {l rest : List ℕ} {p : ℕ → Bool} {i : ℕ} (hl : l.Nodup)
    (h : l.filter p = i :: rest) : l.filter (fun j => p j && j != i) = rest := by
  have hnodup : (i :: rest).Nodup := h ▸ hl.filter p
  have hfilter : l.filter (fun j => p j && j != i) = (l.filter p).filter (· != i) := by
    rw [filter_filter]
    exact filter_congr fun j _ => Bool.and_comm _ _
  rw [hfilter, h, filter_cons_of_neg (by simp), filter_eq_self]
  intro j hj
  have hne : i ≠ j := fun e => (nodup_cons.mp hnodup).1 (e ▸ hj)
  simpa using hne.symm

namespace FdState

variable {s s' : FdState} {tid : ℕ}

/-! ### Free slots and free descriptors -/

/-- The slots that `handle_alloc` can take, first to last. -/
def freeSlots (s : FdState) : List ℕ :=
  (List.range handleMax).filter fun i => decide ((s.handles i).type = .free)

/-- The descriptors that `sched_allocate_fd` can take, first to last. -/
def freeFds (s : FdState) (tid : ℕ) : List ℕ :=
  (List.range 16).filter fun i => decide ((s.fdsOf tid)[i]?.join = none)

theorem freeSlot_eq_head? (s : FdState) : s.freeSlot = s.freeSlots.head? :=
  (head?_filter).symm

theorem freeFd_eq_head? (s : FdState) (tid : ℕ) : s.freeFd tid = (s.freeFds tid).head? :=
  (head?_filter).symm

theorem freeSlot_spec {i : ℕ} (h : s.freeSlot = some i) :
    i < handleMax ∧ (s.handles i).type = .free :=
  ⟨mem_range.mp (mem_of_find?_eq_some h), by simpa using find?_some h⟩

theorem freeFd_spec {i : ℕ} (h : s.freeFd tid = some i) : i < 16 ∧ (s.fdsOf tid)[i]?.join = none :=
  ⟨mem_range.mp (mem_of_find?_eq_some h), by simpa using find?_some h⟩

theorem freeSlots_setHandle {i : ℕ} {rest : List ℕ} {h : Handle} (hs : s.freeSlots = i :: rest)
    (hh : h.type ≠ .free) : (s.setHandle i h).freeSlots = rest := by
  rw [← filter_and_ne_of_filter_eq_cons nodup_range hs]
  refine filter_congr fun j _ => ?_
  by_cases hj : j = i
  · simp [setHandle, hj, hh]
  · simp [setHandle, hj]

@[simp] theorem fdsOf_setHandle (i : ℕ) (h : Handle) : (s.setHandle i h).fdsOf tid = s.fdsOf tid :=
  rfl

@[simp] theorem freeFds_setHandle (i : ℕ) (h : Handle) :
    (s.setHandle i h).freeFds tid = s.freeFds tid := rfl

@[simp] theorem freeFd_setHandle (i : ℕ) (h : Handle) :
    (s.setHandle i h).freeFd tid = s.freeFd tid := rfl

theorem getFd_eq_some {fd : ℤ} {g : ℕ} (h : s.getFd tid fd = some g) :
    ∃ n : ℕ, fd = n ∧ n < 16 ∧ (s.fdsOf tid)[n]?.join = some g := by
  rw [getFd] at h
  split at h
  · exact nomatch h
  · exact ⟨fd.toNat, by omega, by omega, h⟩

theorem setFd_natCast {i : ℕ} (hi : i < 16) (g : Option ℕ) :
    s.setFd tid i g =
      s.modifyThread tid fun t => { t with fds := t.fds.setIfInBounds i g } := by
  rw [setFd, if_neg (by omega), Int.toNat_natCast]

@[simp] theorem setFd_handles (fd : ℤ) (g : Option ℕ) : (s.setFd tid fd g).handles = s.handles := by
  rw [setFd]; split <;> rfl

@[simp] theorem freeSlots_setFd (fd : ℤ) (g : Option ℕ) :
    (s.setFd tid fd g).freeSlots = s.freeSlots := by
  rw [freeSlots, setFd_handles, freeSlots]

theorem fdsOf_of_length_le (h : s.threads.length ≤ tid) :
    s.fdsOf tid = Vector.replicate 16 none := by
  rw [fdsOf, getElem?_eq_none h]; rfl

/-- A thread that has a descriptor exists. -/
theorem lt_length_of_fd {n g : ℕ} (h : (s.fdsOf tid)[n]?.join = some g) :
    tid < s.threads.length := by
  by_contra hlt
  rw [fdsOf_of_length_le (Nat.not_lt.mp hlt), Vector.getElem?_replicate] at h
  split at h <;> exact nomatch h

/-- The descriptors of a thread that exists, after one of them is set. -/
theorem fdsOf_setFd {i : ℕ} (hi : i < 16) (ht : tid < s.threads.length) (g : Option ℕ) :
    (s.setFd tid i g).fdsOf tid = (s.fdsOf tid).setIfInBounds i g := by
  rw [setFd_natCast hi]
  simp [fdsOf, modifyThread, ht]

theorem freeFds_setFd {i g : ℕ} {rest : List ℕ} (ht : tid < s.threads.length)
    (hs : s.freeFds tid = i :: rest) : (s.setFd tid i (some g)).freeFds tid = rest := by
  have hi : i < 16 := (freeFd_spec (by rw [freeFd_eq_head?, hs]; rfl)).1
  rw [← filter_and_ne_of_filter_eq_cons nodup_range hs]
  refine filter_congr fun j hj => ?_
  rw [fdsOf_setFd hi ht]
  by_cases hji : j = i
  · simp [hji, hi]
  · simp [hji, Ne.symm hji]

/-- Emptying a descriptor that was empty before it was set undoes the setting. -/
theorem setFd_none_setFd {i : ℕ} (h : s.freeFd tid = some i) (g : Option ℕ) :
    (s.setFd tid i g).setFd tid i none = s := by
  obtain ⟨hi, hfree⟩ := freeFd_spec h
  rw [setFd_natCast hi, setFd_natCast hi]
  have hthreads : (s.threads.modify tid fun t => { t with fds := t.fds.setIfInBounds i g }).modify
      tid (fun t => { t with fds := t.fds.setIfInBounds i none }) = s.threads := by
    refine ext_getElem? fun k => ?_
    rw [getElem?_modify, getElem?_modify]
    by_cases hk : tid = k
    · subst hk
      cases ht : s.threads[tid]? with
      | none => rfl
      | some t =>
        have hnone : t.fds[i] = none := by simpa [fdsOf, ht, hi] using hfree
        have hback : (t.fds.setIfInBounds i g).setIfInBounds i none = t.fds := by
          ext j hj : 1
          by_cases hji : i = j
          · subst hji; simpa using hnone.symm
          · simp [hji]
        simp [hback]
    · simp [hk]
  simp [modifyThread, hthreads]

/-! ### What else is in the state -/

/-- All that a call on descriptors leaves alone. -/
def rest (s : FdState) : Bool × ℕ × ℕ × List (ℕ × Bool × Entry) :=
  (s.ready, s.nextPid, s.bootPc, s.threads.map fun t => (t.pid, t.dead, t.entry))

@[simp] theorem rest_setHandle (i : ℕ) (h : Handle) : (s.setHandle i h).rest = s.rest := rfl

@[simp] theorem rest_vfsClose (f : ℕ) : (s.vfsClose f).rest = s.rest := rfl

@[simp] theorem rest_newFile : s.newFile.rest = s.rest := rfl

@[simp] theorem rest_acquire (g : ℕ) : (s.acquire g).rest = s.rest := by
  rw [acquire]
  split
  · rfl
  · split <;> rfl

@[simp] theorem rest_closeHandleFile (h : Handle) : (s.closeHandleFile h).rest = s.rest := by
  rw [closeHandleFile]; split <;> rfl

@[simp] theorem rest_release (g : ℕ) : (s.release g).rest = s.rest := by
  rw [release]
  split
  · rfl
  split
  · rfl
  split
  · rw [rest_setHandle, rest_closeHandleFile]
  · rfl

@[simp] theorem rest_setFd (fd : ℤ) (g : Option ℕ) : (s.setFd tid fd g).rest = s.rest := by
  rw [setFd]
  split
  · rfl
  · have hmap : (s.threads.modify tid fun t => { t with fds := t.fds.setIfInBounds fd.toNat g }).map
        (fun t => (t.pid, t.dead, t.entry)) = s.threads.map fun t => (t.pid, t.dead, t.entry) := by
      refine ext_getElem? fun k => ?_
      rw [getElem?_map, getElem?_map, getElem?_modify]
      cases s.threads[k]? with
      | none => rfl
      | some t => by_cases hk : tid = k <;> simp [hk]
    simp only [rest, modifyThread, hmap]

/-! ### What is given back -/

/-- The slot of a released handle. -/
def blank : Handle := ⟨.free, none, 0, 0⟩

/-- What releasing the last reference to a handle closes. -/
def closedBy (type : HandleType) (file : Option ℕ) : List ℕ :=
  if type = .vfs then file.toList else []

/-- Releasing a handle with one reference. -/
theorem release_last {i : ℕ} {type : HandleType} {file : Option ℕ} {pid : ℕ} (hi : i < handleMax)
    (hh : s.handles i = ⟨type, file, pid, 1⟩) (ht : type ≠ .free) :
    s.release i = { s with
      handles := update s.handles i blank
      closes := closedBy type file ++ s.closes } := by
  rw [release, if_neg (Nat.not_le.mpr hi), hh, if_neg ht, if_pos (by simp)]
  cases type with
  | free => exact absurd rfl ht
  | tty => rfl
  | vfs => cases file <;> rfl

/-- The descriptors of every thread and the handle table are the same.  What else
is in a free slot does not matter: `handle_alloc` sets it all. -/
structure SameTables (s s' : FdState) : Prop where
  threads : s'.threads = s.threads
  type : ∀ i, (s'.handles i).type = (s.handles i).type
  handle : ∀ i, (s.handles i).type ≠ .free → s'.handles i = s.handles i

theorem SameTables.trans {s₁ s₂ s₃ : FdState} (h : SameTables s₁ s₂) (h' : SameTables s₂ s₃) :
    SameTables s₁ s₃ where
  threads := h'.threads.trans h.threads
  type i := (h'.type i).trans (h.type i)
  handle i hi := (h'.handle i (h.type i ▸ hi)).trans (h.handle i hi)

theorem SameTables.symm (h : SameTables s s') : SameTables s' s where
  threads := h.threads.symm
  type i := (h.type i).symm
  handle i hi := (h.handle i (h.type i ▸ hi)).symm

theorem SameTables.of_eq (ht : s'.threads = s.threads) (hh : s'.handles = s.handles) :
    SameTables s s' :=
  ⟨ht, fun i => by rw [hh], fun i _ => by rw [hh]⟩

/-- Blanking a free slot changes nothing. -/
theorem SameTables.update_blank {s₀ : FdState} {i : ℕ} (h : SameTables s s₀)
    (hi : (s.handles i).type = .free) (ht : s'.threads = s₀.threads)
    (hh : s'.handles = update s₀.handles i blank) : SameTables s s' where
  threads := ht.trans h.threads
  type j := by
    rw [hh]
    by_cases hj : j = i
    · subst hj; simp [hi, blank]
    · simpa [hj] using h.type j
  handle j hj := by
    have hne : j ≠ i := fun e => hj (e ▸ hi)
    rw [hh]
    simpa [hne] using h.handle j hj

/-- The tables are the same, every file that was created has been closed once, and
no other file has been closed. -/
structure Clean (s s' : FdState) : Prop where
  tables : SameTables s s'
  closes : ∃ new, s'.closes = new ++ s.closes ∧
    ∀ f, new.count f = if s.nextFile ≤ f ∧ f < s'.nextFile then 1 else 0

/-- The case of `OPEN` where releasing the handle closes the file that is then
closed again: there is a free slot and no free descriptor. -/
def ClosesTwice (s : FdState) (tid : ℕ) (c : FdCall) : Prop :=
  c = .open (.file .opened) ∧ s.freeSlots ≠ [] ∧ s.freeFds tid = []

/-- When a call returns an error. -/
def Refused (s : FdState) (tid : ℕ) : FdCall → Prop
  | .open .unresolved => True
  | .open .tty => s.freeSlots = [] ∨ s.freeFds tid = []
  | .open (.file (.failed _ _)) => True
  | .open (.file .opened) => s.freeSlots = [] ∨ s.freeFds tid = []
  | .close fd => s.getFd tid fd = none
  | .dup2 oldfd newfd => s.getFd tid oldfd = none ∨ newfd < 0 ∨ 16 ≤ newfd
  | .pipe inRange created =>
    inRange = false ∨ created = false ∨ s.freeSlots.length < 2 ∨ (s.freeFds tid).length < 2

/-- What a thread does to the tables when a call succeeds. -/
inductive Moves (tid : ℕ) : FdState → FdState → Prop
  | same {s s' : FdState} : SameTables s s' → Moves tid s s'
  /-- A free slot is taken for an empty descriptor. -/
  | take {s : FdState} {g fd : ℕ} (h : Handle) : g < handleMax → (s.handles g).type = .free →
      h.type ≠ .free → h.refcount = 1 → fd < 16 → (s.fdsOf tid)[fd]?.join = none →
      Moves tid s ((s.setHandle g h).setFd tid fd (some g))
  /-- A descriptor is emptied and its handle released. -/
  | drop {s : FdState} {g fd : ℕ} : fd < 16 → (s.fdsOf tid)[fd]?.join = some g →
      Moves tid s ((s.setFd tid fd none).release g)
  /-- An empty descriptor becomes a copy of another one. -/
  | copy {s : FdState} {g fd fd' : ℕ} : fd < 16 → (s.fdsOf tid)[fd]?.join = none →
      fd' < 16 → (s.fdsOf tid)[fd']?.join = some g →
      Moves tid s ((s.setFd tid fd (some g)).acquire g)
  | trans {s s' s'' : FdState} : Moves tid s s' → Moves tid s' s'' → Moves tid s s''

/-! ### The calls -/

theorem handleAlloc_nil (h : s.freeSlots = []) (type : HandleType) (file : Option ℕ) (pid : ℕ) :
    s.handleAlloc type file pid = none := by
  rw [handleAlloc, freeSlot_eq_head?, h]; rfl

theorem handleAlloc_cons {i : ℕ} {rest : List ℕ} (h : s.freeSlots = i :: rest) (type : HandleType)
    (file : Option ℕ) (pid : ℕ) :
    s.handleAlloc type file pid = some (i, s.setHandle i ⟨type, file, pid, 1⟩) := by
  rw [handleAlloc, freeSlot_eq_head?, h]; rfl

theorem allocateFd_nil (h : s.freeFds tid = []) (g : ℕ) : s.allocateFd tid g = none := by
  rw [allocateFd, freeFd_eq_head?, h]; rfl

theorem allocateFd_cons {i : ℕ} {rest : List ℕ} (h : s.freeFds tid = i :: rest) (g : ℕ) :
    s.allocateFd tid g = some (i, s.setFd tid i (some g)) := by
  rw [allocateFd, freeFd_eq_head?, h]; rfl

theorem freeSlots_spec {i : ℕ} {rest : List ℕ} (h : s.freeSlots = i :: rest) :
    i < handleMax ∧ (s.handles i).type = .free :=
  freeSlot_spec (by rw [freeSlot_eq_head?, h]; rfl)

/-- Taking a slot and releasing it again. -/
theorem release_setHandle {i : ℕ} {rest : List ℕ} (h : s.freeSlots = i :: rest)
    (type : HandleType) (ht : type ≠ .free) (file : Option ℕ) (pid : ℕ) :
    (s.setHandle i ⟨type, file, pid, 1⟩).release i = { s with
      handles := update s.handles i blank
      closes := closedBy type file ++ s.closes } := by
  have hh : (s.setHandle i ⟨type, file, pid, 1⟩).handles i = ⟨type, file, pid, 1⟩ := by
    simp [setHandle]
  rw [release_last (freeSlots_spec h).1 hh ht]
  simp [setHandle]

/-- The call has returned an error and left everything as it was. -/
structure Failed (s : FdState) (r : SysRet × FdState) : Prop where
  isError : ∃ e, r.1 = .error e
  rest : r.2.rest = s.rest
  clean : Clean s r.2

theorem clean_self : Clean s s :=
  ⟨.of_eq rfl rfl, [], rfl, fun f => by rw [if_neg (by omega)]; rfl⟩

theorem openTty_failed (h : s.freeSlots = [] ∨ s.freeFds tid = []) : Failed s (s.openTty tid) := by
  rw [openTty]
  cases hs : s.freeSlots with
  | nil => rw [handleAlloc_nil hs]; exact ⟨⟨_, rfl⟩, rfl, clean_self⟩
  | cons i rest =>
    have hfd : s.freeFds tid = [] := h.resolve_left (by simp [hs])
    have hrelease := release_setHandle hs .tty nofun none (s.pidOf tid)
    rw [handleAlloc_cons hs]
    simp only [allocateFd_nil (s := s.setHandle _ _) hfd, hrelease]
    refine ⟨⟨_, rfl⟩, rfl, .update_blank (.of_eq rfl rfl) (freeSlots_spec hs).2 rfl rfl, [], rfl, ?_⟩
    intro f
    rw [if_neg (by simp)]; rfl

theorem openTty_cons {i fd : ℕ} {rest fds : List ℕ} (hs : s.freeSlots = i :: rest)
    (hfd : s.freeFds tid = fd :: fds) :
    s.openTty tid = (.ok fd, (s.setHandle i ⟨.tty, none, s.pidOf tid, 1⟩).setFd tid fd (some i)) := by
  rw [openTty, handleAlloc_cons hs]
  simp only [allocateFd_cons (s := s.setHandle _ _) hfd]

/-- The files that a failed call has closed are the only one it created. -/
theorem count_newFile (n f : ℕ) : [n].count f = if n ≤ f ∧ f < n + 1 then 1 else 0 := by
  by_cases h : n = f
  · simp [h]
  · rw [if_neg (by omega)]; simp [h]

theorem openFile_failed (h : s.freeSlots = []) : Failed s (s.newFile.openFile tid s.nextFile) := by
  rw [openFile, handleAlloc_nil (s := s.newFile) h]
  exact ⟨⟨_, rfl⟩, rfl, .of_eq rfl rfl, [s.nextFile], rfl, count_newFile _⟩

/-- **Without a free descriptor `OPEN` closes its file twice.** -/
theorem openFile_closesTwice (hs : s.freeSlots ≠ []) (hfd : s.freeFds tid = []) :
    (∃ e, (s.newFile.openFile tid s.nextFile).1 = .error e) ∧
      (s.newFile.openFile tid s.nextFile).2.rest = s.rest ∧
      SameTables s (s.newFile.openFile tid s.nextFile).2 ∧
      (s.newFile.openFile tid s.nextFile).2.closes = s.nextFile :: s.nextFile :: s.closes := by
  obtain ⟨i, rest, hs⟩ := exists_cons_of_ne_nil hs
  have hs' : s.newFile.freeSlots = i :: rest := hs
  have hrelease := release_setHandle hs' .vfs nofun (some s.nextFile) (s.newFile.pidOf tid)
  rw [openFile, handleAlloc_cons hs']
  simp only [allocateFd_nil (s := s.newFile.setHandle _ _) hfd, hrelease]
  have htables : SameTables s s.newFile := .of_eq rfl rfl
  exact ⟨⟨_, rfl⟩, rfl, htables.update_blank (freeSlots_spec hs).2 rfl rfl, rfl⟩

theorem openFile_cons {i fd : ℕ} {rest fds : List ℕ} (hs : s.freeSlots = i :: rest)
    (hfd : s.freeFds tid = fd :: fds) (file : ℕ) :
    s.openFile tid file =
      (.ok fd, (s.setHandle i ⟨.vfs, some file, s.pidOf tid, 1⟩).setFd tid fd (some i)) := by
  rw [openFile, handleAlloc_cons hs]
  simp only [allocateFd_cons (s := s.setHandle _ _) hfd]

/-! ### `PIPE` -/

theorem count_twoFiles (n f : ℕ) : [n + 1, n].count f = if n ≤ f ∧ f < n + 1 + 1 then 1 else 0 := by
  rw [count_cons, count_newFile]
  by_cases h : n + 1 = f
  · simp [← h]
  · simp only [beq_iff_eq, h, if_false, Nat.add_zero]
    exact if_congr (by omega) rfl rfl

/-- The second descriptor is there iff two were free. -/
theorem freeFds_setFd_eq_nil_iff {i g : ℕ} {rest : List ℕ} (hs : s.freeFds tid = i :: rest) :
    (s.setFd tid i (some g)).freeFds tid = [] ↔ rest = [] := by
  by_cases ht : tid < s.threads.length
  · rw [freeFds_setFd ht hs]
  · -- a thread that does not exist has 16 free descriptors, before and after
    have hset : s.setFd tid i (some g) = s := by
      rw [setFd_natCast (freeFd_spec (by rw [freeFd_eq_head?, hs]; rfl)).1, modifyThread,
        modify_eq_self (by omega)]
    have hall : s.freeFds tid = List.range 16 := by
      rw [freeFds, fdsOf_of_length_le (by omega)]; decide
    have hlen : (i :: rest).length = 16 := by rw [← hs, hall]; rfl
    rw [hset, hs]
    refine ⟨nofun, fun h => ?_⟩
    rw [h] at hlen
    simp at hlen

/-- A new handle of a file. -/
abbrev fileHandle (file pid : ℕ) : Handle := ⟨.vfs, some file, pid, 1⟩

theorem freeSlots_setHandle_file {i : ℕ} {rest : List ℕ} (h : s.freeSlots = i :: rest)
    (file pid : ℕ) : (s.setHandle i (fileHandle file pid)).freeSlots = rest :=
  freeSlots_setHandle h (show HandleType.vfs ≠ .free by decide)

/-- Taking two slots for files and releasing them again. -/
theorem release_release {h₁ h₂ : ℕ} {rest : List ℕ} (h : s.freeSlots = h₁ :: h₂ :: rest)
    (r w pid : ℕ) :
    ((((s.setHandle h₁ (fileHandle r pid)).setHandle h₂ (fileHandle w pid)).release h₁).release
      h₂) = { s with
        handles := update (update s.handles h₁ blank) h₂ blank
        closes := w :: r :: s.closes } := by
  have h' := freeSlots_setHandle_file h r pid
  have hne : h₁ ≠ h₂ := by
    rintro rfl
    have hfree := (freeSlots_spec h').2
    simp [setHandle] at hfree
  have hh₁ : ((s.setHandle h₁ (fileHandle r pid)).setHandle h₂ (fileHandle w pid)).handles h₁ =
      fileHandle r pid := by simp [setHandle, hne]
  rw [release_last (freeSlots_spec h).1 hh₁ nofun]
  refine (release_last (freeSlots_spec h').1 (?_ : _ = fileHandle w pid) nofun).trans ?_
  · simp [setHandle, hne.symm]
  · simp [setHandle, closedBy, update_comm hne]

/-- The two handles without two descriptors. -/
theorem pipeFds_failed {h₁ h₂ : ℕ} (h : (s.freeFds tid).length < 2) :
    s.pipeFds tid h₁ h₂ = (.error .enomem, (s.release h₁).release h₂) := by
  cases hfd : s.freeFds tid with
  | nil => simp only [pipeFds, allocateFd_nil hfd]
  | cons fd fds =>
    have hfds : fds = [] := by
      rw [hfd, length_cons] at h
      exact eq_nil_of_length_eq_zero (by omega)
    have hnext : (s.setFd tid fd (some h₁)).freeFds tid = [] :=
      (freeFds_setFd_eq_nil_iff hfd).mpr hfds
    have hback : (s.setFd tid fd (some h₁)).setFd tid fd none = s :=
      setFd_none_setFd (by rw [freeFd_eq_head?, hfd]; rfl) _
    simp only [pipeFds, allocateFd_cons hfd, allocateFd_nil hnext, hback]

/-- The two handles with two descriptors. -/
theorem pipeFds_ok (h₁ h₂ : ℕ) (h : 2 ≤ (s.freeFds tid).length) :
    ∃ fd fd', s.freeFd tid = some fd ∧ (s.setFd tid fd (some h₁)).freeFd tid = some fd' ∧
      s.pipeFds tid h₁ h₂ = (.ok 0, (s.setFd tid fd (some h₁)).setFd tid fd' (some h₂)) := by
  obtain ⟨fd, fds, hfd⟩ := exists_cons_of_length_pos (show 0 < (s.freeFds tid).length by omega)
  have hne : (s.setFd tid fd (some h₁)).freeFds tid ≠ [] := by
    rw [Ne, freeFds_setFd_eq_nil_iff hfd]
    rintro rfl
    simp [hfd] at h
  obtain ⟨fd', fds', hfd'⟩ := exists_cons_of_ne_nil hne
  refine ⟨fd, fd', by rw [freeFd_eq_head?, hfd]; rfl, by rw [freeFd_eq_head?, hfd']; rfl, ?_⟩
  simp only [pipeFds, allocateFd_cons hfd, allocateFd_cons hfd']

theorem pipeHandles_cons {h₁ h₂ : ℕ} {rest : List ℕ} (h : s.freeSlots = h₁ :: h₂ :: rest)
    (r w : ℕ) :
    s.pipeHandles tid r w = ((s.setHandle h₁ (fileHandle r (s.pidOf tid))).setHandle h₂
      (fileHandle w (s.pidOf tid))).pipeFds tid h₁ h₂ := by
  rw [pipeHandles, handleAlloc_cons h]
  simp only [handleAlloc_cons (freeSlots_setHandle_file h r (s.pidOf tid))]
  rfl

theorem pipeHandles_failed (h : s.freeSlots.length < 2 ∨ (s.freeFds tid).length < 2) :
    Failed s (s.newFile.newFile.pipeHandles tid s.nextFile (s.nextFile + 1)) := by
  match hs : s.freeSlots with
  | [] =>
    rw [pipeHandles, handleAlloc_nil (s := s.newFile.newFile) hs]
    exact ⟨⟨_, rfl⟩, rfl, .of_eq rfl rfl, [s.nextFile + 1, s.nextFile], rfl, count_twoFiles _⟩
  | [h₁] =>
    have hs' : s.newFile.newFile.freeSlots = [h₁] := hs
    have hnext := freeSlots_setHandle_file hs' s.nextFile (s.newFile.newFile.pidOf tid)
    have hrelease := release_setHandle hs' .vfs nofun (some s.nextFile) (s.newFile.newFile.pidOf tid)
    rw [pipeHandles, handleAlloc_cons hs']
    simp only [handleAlloc_nil hnext, hrelease]
    exact ⟨⟨_, rfl⟩, rfl, .update_blank (.of_eq rfl rfl) (freeSlots_spec hs).2 rfl rfl,
      [s.nextFile + 1, s.nextFile], rfl, count_twoFiles _⟩
  | h₁ :: h₂ :: rest =>
    have hs' : s.newFile.newFile.freeSlots = h₁ :: h₂ :: rest := hs
    have hfree : (s.handles h₂).type = .free := by
      have hmem : h₂ ∈ s.freeSlots := by simp [hs]
      simpa using (mem_filter.mp hmem).2
    have hfd : (s.freeFds tid).length < 2 := h.resolve_left (by simp [hs])
    rw [pipeHandles_cons hs', pipeFds_failed (by exact hfd), release_release hs']
    refine ⟨⟨_, rfl⟩, rfl, ?_, [s.nextFile + 1, s.nextFile], rfl, count_twoFiles _⟩
    have hone : SameTables s { s with handles := update s.handles h₁ blank } :=
      .update_blank (.of_eq rfl rfl) (freeSlots_spec hs).2 rfl rfl
    exact hone.update_blank hfree rfl rfl

theorem setFd_setHandle (i : ℕ) (h : Handle) (fd : ℤ) (g : Option ℕ) :
    (s.setHandle i h).setFd tid fd g = (s.setFd tid fd g).setHandle i h := by
  rw [setFd, setFd]
  split <;> rfl

theorem Moves.newFile : Moves tid s s.newFile := .same (.of_eq rfl rfl)

theorem Moves.take_of_free {g fd : ℕ} {rest : List ℕ} (hs : s.freeSlots = g :: rest)
    (hfd : s.freeFd tid = some fd) (h : Handle) (hty : h.type ≠ .free) (href : h.refcount = 1) :
    Moves tid s ((s.setHandle g h).setFd tid fd (some g)) :=
  .take h (freeSlots_spec hs).1 (freeSlots_spec hs).2 hty href (freeFd_spec hfd).1 (freeFd_spec hfd).2

/-- Two slots and two descriptors. -/
theorem pipeHandles_ok (hs : 2 ≤ s.freeSlots.length) (hfd : 2 ≤ (s.freeFds tid).length) (r w : ℕ) :
    (∃ v, (s.pipeHandles tid r w).1 = .ok v) ∧ (s.pipeHandles tid r w).2.rest = s.rest ∧
      Moves tid s (s.pipeHandles tid r w).2 := by
  match hslots : s.freeSlots with
  | [] | [_] => simp [hslots] at hs
  | h₁ :: h₂ :: rest =>
    have hnext := freeSlots_setHandle_file hslots r (s.pidOf tid)
    obtain ⟨fd, fd', hfd, hfd', hcall⟩ := pipeFds_ok (s := (s.setHandle h₁ (fileHandle r
      (s.pidOf tid))).setHandle h₂ (fileHandle w (s.pidOf tid))) h₁ h₂ hfd
    rw [setFd_setHandle] at hcall hfd'
    rw [pipeHandles_cons hslots, hcall]
    have hslot : ((s.setHandle h₁ (fileHandle r (s.pidOf tid))).setFd tid fd (some h₁)).freeSlots =
        h₂ :: rest := by
      rw [freeSlots_setFd, hnext]
    refine ⟨⟨0, rfl⟩, by simp, ?_⟩
    exact (Moves.take_of_free hslots hfd (fileHandle r (s.pidOf tid)) nofun rfl).trans
      (.take_of_free hslot hfd' (fileHandle w (s.pidOf tid)) nofun rfl)

/-! ### `DUP2` -/

@[simp] theorem fdsOf_release (g : ℕ) : (s.release g).fdsOf tid = s.fdsOf tid := by
  have hclose : ∀ h, (s.closeHandleFile h).fdsOf tid = s.fdsOf tid := by
    intro h
    rw [closeHandleFile]; split <;> rfl
  rw [release]
  split
  · rfl
  split
  · rfl
  split
  · rw [fdsOf_setHandle, hclose]
  · rfl

@[simp] theorem rest_dropFd (fd : ℤ) : (s.dropFd tid fd).rest = s.rest := by
  rw [dropFd]
  split
  · rfl
  · simp

/-- `DUP2` empties the new descriptor before it sets it. -/
theorem dropFd_moves {newfd : ℕ} (hnew : newfd < 16) (ht : tid < s.threads.length) :
    Moves tid s (s.dropFd tid newfd) ∧
      (s.dropFd tid newfd).fdsOf tid = (s.fdsOf tid).setIfInBounds newfd none := by
  rw [dropFd]
  split
  · next hg =>
    refine ⟨.same (.of_eq rfl rfl), ?_⟩
    have hnone : (s.fdsOf tid)[newfd] = none := by
      rw [getFd, if_neg (by omega)] at hg
      simpa [hnew] using hg
    ext j hj : 1
    by_cases hji : newfd = j
    · subst hji; simpa using hnone
    · simp [hji]
  · next g hg =>
    obtain ⟨n, hn, -, hg'⟩ := getFd_eq_some hg
    obtain rfl : newfd = n := by omega
    exact ⟨.drop hnew hg', by rw [fdsOf_release, fdsOf_setFd hnew ht]⟩

theorem dup2_moves {oldfd newfd : ℤ} {g : ℕ} (hg : s.getFd tid oldfd = some g)
    (hnew : ¬(newfd < 0 ∨ 16 ≤ newfd)) (hne : oldfd ≠ newfd) :
    Moves tid s (((s.dropFd tid newfd).setFd tid newfd (some g)).acquire g) := by
  obtain ⟨old, rfl, hold, hg'⟩ := getFd_eq_some hg
  obtain ⟨new, rfl⟩ : ∃ n : ℕ, newfd = n := ⟨newfd.toNat, by omega⟩
  have hne' : new ≠ old := fun e => hne (by rw [e])
  have hlt : new < 16 := by omega
  obtain ⟨hmoves, hfds⟩ := dropFd_moves hlt (lt_length_of_fd hg')
  refine hmoves.trans (.copy hlt ?_ hold ?_)
  · rw [hfds]
    simp [hlt]
  · rw [hfds, Vector.getElem?_setIfInBounds, if_neg hne']
    exact hg'

/-! ### All of them -/

/-- **A call that is not refused returns a value and makes moves.** -/
theorem fdCall_ok {c : FdCall} (h : ¬s.Refused tid c) :
    (∃ v, (s.fdCall tid c).1 = .ok v) ∧ (s.fdCall tid c).2.rest = s.rest ∧
      Moves tid s (s.fdCall tid c).2 := by
  match c with
  | .open .unresolved => exact absurd trivial h
  | .open .tty =>
    obtain ⟨hs, hfd⟩ := not_or.mp h
    obtain ⟨i, rest, hs⟩ := exists_cons_of_ne_nil hs
    obtain ⟨fd, fds, hfd⟩ := exists_cons_of_ne_nil hfd
    have hfd' : s.freeFd tid = some fd := by rw [freeFd_eq_head?, hfd]; rfl
    simp only [fdCall, sysOpen, openTty_cons hs hfd]
    exact ⟨⟨_, rfl⟩, by simp, .take_of_free hs hfd' _ nofun rfl⟩
  | .open (.file (.failed _ _)) => exact absurd trivial h
  | .open (.file .opened) =>
    obtain ⟨hs, hfd⟩ := not_or.mp h
    obtain ⟨i, rest, hs⟩ := exists_cons_of_ne_nil hs
    obtain ⟨fd, fds, hfd⟩ := exists_cons_of_ne_nil hfd
    have hs' : s.newFile.freeSlots = i :: rest := hs
    have hfd' : s.newFile.freeFd tid = some fd := by
      rw [freeFd_eq_head?]; exact congrArg List.head? hfd
    simp only [fdCall, sysOpen, openFile_cons hs' (by exact hfd)]
    exact ⟨⟨_, rfl⟩, by simp, Moves.newFile.trans (.take_of_free hs' hfd' _ nofun rfl)⟩
  | .close fd =>
    obtain ⟨g, hg⟩ := Option.ne_none_iff_exists'.mp h
    obtain ⟨n, rfl, hn, hg'⟩ := getFd_eq_some hg
    simp only [fdCall, sysClose, hg]
    exact ⟨⟨_, rfl⟩, by simp, .drop hn hg'⟩
  | .dup2 oldfd newfd =>
    obtain ⟨hold, hnew⟩ := not_or.mp h
    obtain ⟨g, hg⟩ := Option.ne_none_iff_exists'.mp hold
    simp only [fdCall, sysDup2, hg, if_neg hnew]
    split
    · exact ⟨⟨_, rfl⟩, rfl, .same (.of_eq rfl rfl)⟩
    · next hne => exact ⟨⟨_, rfl⟩, by simp, dup2_moves hg hnew hne⟩
  | .pipe inRange created =>
    simp only [Refused, not_or, Bool.not_eq_false, Nat.not_lt] at h
    obtain ⟨rfl, rfl, hs, hfd⟩ := h
    obtain ⟨hv, hrest, hmoves⟩ := pipeHandles_ok (s := s.newFile.newFile) hs hfd s.nextFile
      (s.nextFile + 1)
    exact ⟨hv, hrest, (Moves.newFile.trans .newFile).trans hmoves⟩

/-- A refused call fails, unless it closes its file twice. -/
theorem fdCall_failed {c : FdCall} (h : s.Refused tid c) (h2 : ¬s.ClosesTwice tid c) :
    Failed s (s.fdCall tid c) := by
  match c with
  | .open .unresolved => exact ⟨⟨_, rfl⟩, rfl, clean_self⟩
  | .open .tty => exact openTty_failed h
  | .open (.file (.failed e false)) => exact ⟨⟨_, rfl⟩, rfl, clean_self⟩
  | .open (.file (.failed e true)) =>
    exact ⟨⟨_, rfl⟩, rfl, .of_eq rfl rfl, [s.nextFile], rfl, count_newFile _⟩
  | .open (.file .opened) =>
    refine openFile_failed (Classical.byContradiction fun hs => h2 ⟨rfl, hs, ?_⟩)
    exact h.resolve_left hs
  | .close fd =>
    simp only [fdCall, sysClose, show s.getFd tid fd = none from h]
    exact ⟨⟨_, rfl⟩, rfl, clean_self⟩
  | .dup2 oldfd newfd =>
    cases hold : s.getFd tid oldfd with
    | none =>
      simp only [fdCall, sysDup2, hold]
      exact ⟨⟨_, rfl⟩, rfl, clean_self⟩
    | some g =>
      have hnew : newfd < 0 ∨ 16 ≤ newfd := h.resolve_left (by simp [hold])
      simp only [fdCall, sysDup2, hold, if_pos hnew]
      exact ⟨⟨_, rfl⟩, rfl, clean_self⟩
  | .pipe inRange created =>
    match inRange, created with
    | false, _ => exact ⟨⟨_, rfl⟩, rfl, clean_self⟩
    | true, false => exact ⟨⟨_, rfl⟩, rfl, clean_self⟩
    | true, true => exact pipeHandles_failed (by simpa [Refused] using h)

/-- A file that is closed twice is not closed once. -/
theorem not_clean_of_closesTwice {c : FdCall} (h : s.ClosesTwice tid c) (s₀ : FdState)
    (hcloses : s₀.closes = s.closes) :
    (∃ e, (s.fdCall tid c).1 = .error e) ∧ ¬Clean s₀ (s.fdCall tid c).2 := by
  obtain ⟨rfl, hs, hfd⟩ := h
  obtain ⟨herror, -, -, htwice⟩ := openFile_closesTwice hs hfd
  refine ⟨herror, fun hclean => ?_⟩
  obtain ⟨new, hnew, hcount⟩ := hclean.closes
  have hnew' : new ++ s.closes = [s.nextFile, s.nextFile] ++ s.closes := by
    rw [← hcloses, ← hnew, hcloses]; exact htwice
  have htwo : new.count s.nextFile = 2 := by
    rw [append_cancel_right hnew']; simp
  have hone := hcount s.nextFile
  rw [htwo] at hone
  split at hone <;> simp at hone

theorem prepared_frame (s : FdState) : s.prepared.threads = s.threads ∧
    s.prepared.nextFile = s.nextFile ∧ s.prepared.closes = s.closes := by
  rw [prepared]
  split
  · exact ⟨rfl, rfl, rfl⟩
  · exact ⟨rfl, rfl, rfl⟩

/-- **A failed call on descriptors is clean** but for two cases: an `OPEN` that finds
a slot and no descriptor closes its file twice, and the first system call sets the
handle table up, also where it fails. -/
theorem failedCall_clean_iff (s : FdState) (tid : ℕ) (c : FdCall) :
    (∀ e, (s.syscall tid (.fd c)).1 = .error e → Clean s (s.syscall tid (.fd c)).2) ↔
      ¬s.prepared.ClosesTwice tid c ∧ (s.prepared.Refused tid c → SameTables s s.prepared) := by
  obtain ⟨hthreads, hfile, hcloses⟩ := s.prepared_frame
  change (∀ e, (s.prepared.fdCall tid c).1 = _ → Clean s (s.prepared.fdCall tid c).2) ↔ _
  constructor
  · intro h
    have htwice : ¬s.prepared.ClosesTwice tid c := fun h2 =>
      have ⟨⟨e, he⟩, hn⟩ := not_clean_of_closesTwice h2 s hcloses.symm
      hn (h e he)
    refine ⟨htwice, fun hr => ?_⟩
    obtain ⟨⟨e, he⟩, -, hclean⟩ := fdCall_failed hr htwice
    exact (h e he).tables.trans hclean.tables.symm
  · rintro ⟨htwice, hsame⟩ e he
    have hr : s.prepared.Refused tid c := Classical.byContradiction fun hn => by
      obtain ⟨⟨v, hv⟩, -⟩ := fdCall_ok hn
      exact nomatch hv.symm.trans he
    have hclean := (fdCall_failed hr htwice).clean
    refine ⟨(hsame hr).trans hclean.tables, ?_⟩
    rw [← hfile, ← hcloses]
    exact hclean.closes

/-- A process whose descriptors all name the terminal. -/
def fullTable : FdState where
  handles i := if i = 0 then ⟨.tty, none, 0, 16⟩ else blank
  ready := true
  threads := [⟨1, false, Vector.replicate 16 (some 0), .user⟩]
  nextPid := 2
  nextFile := 0
  closes := []
  bootPc := 4

theorem fullTable_exact : Exact fullTable where
  refcount i hi := by
    by_cases h0 : i = 0
    · subst h0; decide
    · simp [fullTable, h0, blank] at hi
  named t ht _ i hi := by
    obtain rfl : t = ⟨1, false, Vector.replicate 16 (some 0), .user⟩ := by simpa [fullTable] using ht
    obtain rfl : i = 0 := by simpa using hi
    decide

/-- Exact counts, and an `OPEN` that returns `ENOMEM` and has closed file 0 twice. -/
theorem open_closes_twice :
    Exact fullTable ∧ (fullTable.syscall 0 (.fd (.open (.file .opened)))).1 = .error .enomem ∧
      (fullTable.syscall 0 (.fd (.open (.file .opened)))).2.closes = [0, 0] ∧
      ¬Clean fullTable (fullTable.syscall 0 (.fd (.open (.file .opened)))).2 := by
  have h2 : fullTable.ClosesTwice 0 (.open (.file .opened)) := by
    refine ⟨rfl, ?_, ?_⟩ <;> decide +kernel
  refine ⟨fullTable_exact, ?_, ?_, (not_clean_of_closesTwice h2 _ rfl).2⟩
  · decide +kernel
  · decide +kernel

end FdState

end Neptune
