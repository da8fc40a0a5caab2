import Mathlib.Algebra.GroupWithZero.Nat
import Mathlib.Logic.Function.Basic
import Neptune.Lib.Runs

/-!
# Handles and descriptors

`syscall.c` keeps one table of 128 handles with reference counts, and `sched.c`
gives every thread 16 descriptors that name handles.  A descriptor is `none`
where the source has `-1`.  Of the scheduler there is only the list of threads, on
which dead ones stay: they have no descriptors.

What other parts of the kernel decide (whether a path resolves, what `vfs_open`
finds, whether an allocation succeeds) is an argument of a system call.  Every
`vfs_file` gets a number when it is created, and the state records the calls of
`vfs_close`; no file is ever duplicated, so the first one is final.

## Main definitions

* `FdState.acquire`, `FdState.release`, `FdState.handleAlloc` — the handle table.
* `FdState.syscall` — the system calls on descriptors.
* `FdState.step` — these, `kernel_main` and the start of launched threads.
-/

namespace Neptune

/-- `enum handle_type`. -/
inductive HandleType
  | free | tty | vfs
  deriving DecidableEq, Repr

/-- `struct handle`. -/
structure Handle where
  type : HandleType
  file : Option ℕ
  ownerPid : ℕ
  refcount : ℤ
  deriving DecidableEq, Repr

/-- The 16 descriptors of a thread. -/
abbrev FdTable := Vector (Option ℕ) 16

/-- What a thread runs first. -/
inductive Entry
  /-- A kernel thread. -/
  | kernel
  /-- `user_smoke_thread`. -/
  | smoke
  /-- `user_launch_thread`, with the `override_fds` of its launch record. -/
  | launch (overrideFds : Vector (Option ℕ) 3)
  /-- It has entered user mode. -/
  | user
  deriving DecidableEq, Repr

/-- The entry function of a user thread has not run yet. -/
def Entry.pending : Entry → Bool
  | .smoke => true
  | .launch _ => true
  | _ => false

/-- `struct thread`, as far as descriptors go. -/
structure FdThread where
  pid : ℕ
  dead : Bool
  fds : FdTable
  entry : Entry
  deriving DecidableEq, Repr

/-- The references of a launch record that has not been read. -/
def Entry.refs : Entry → ℕ → ℕ
  | .launch overrideFds, i => overrideFds.toList.count (some i)
  | _, _ => 0

/-- The references of a live thread to a slot. -/
def FdThread.refs (t : FdThread) (i : ℕ) : ℕ :=
  if t.dead then 0 else t.fds.toList.count (some i) + t.entry.refs i

/-- `enum syscall_error`, the ones returned here. -/
inductive SyscallError
  | einval | enoent | ebadf | enomem
  deriving DecidableEq, Repr

/-- The handle table, the threads from `threads_head` on, and what was closed. -/
structure FdState where
  handles : ℕ → Handle
  ready : Bool
  threads : List FdThread
  nextPid : ℕ
  /-- The number of the next `vfs_file`. -/
  nextFile : ℕ
  /-- The arguments of `vfs_close`, latest first. -/
  closes : List ℕ
  /-- How far `kernel_main` is. -/
  bootPc : ℕ

/-- `HANDLE_MAX`. -/
def handleMax : ℕ := 128

namespace FdState

/-! ### The handle table -/

def setHandle (s : FdState) (id : ℕ) (h : Handle) : FdState :=
  { s with handles := Function.update s.handles id h }

/-- `syscall_acquire_handle`. -/
def acquire (s : FdState) (id : ℕ) : FdState :=
  if handleMax ≤ id then s
  else if (s.handles id).type = .free then s
  else s.setHandle id { s.handles id with refcount := (s.handles id).refcount + 1 }

/-- `vfs_close` of a file that nothing else refers to. -/
def vfsClose (s : FdState) (file : ℕ) : FdState := { s with closes := file :: s.closes }

/-- What `syscall_release_handle` does with the file of the handle. -/
def closeHandleFile (s : FdState) (h : Handle) : FdState :=
  match h.type, h.file with
  | .vfs, some file => s.vfsClose file
  | _, _ => s

/-- `syscall_release_handle`. -/
def release (s : FdState) (id : ℕ) : FdState :=
  if handleMax ≤ id then s
  else if (s.handles id).type = .free then s
  else if (s.handles id).refcount - 1 ≤ 0 then
    (s.closeHandleFile (s.handles id)).setHandle id ⟨.free, none, 0, 0⟩
  else s.setHandle id { s.handles id with refcount := (s.handles id).refcount - 1 }

/-- `handles_init`: it leaves the reference counts as they are. -/
def handlesInit (s : FdState) : FdState :=
  { s with
    handles := fun i =>
      if handleMax ≤ i then s.handles i
      else ⟨if i < 3 then .tty else .free, none, 0, (s.handles i).refcount⟩
    ready := true }

/-- The slot that `handle_alloc` takes. -/
def freeSlot (s : FdState) : Option ℕ :=
  (List.range handleMax).find? fun i => decide ((s.handles i).type = .free)

/-- `handle_alloc`. -/
def handleAlloc (s : FdState) (type : HandleType) (file : Option ℕ) (ownerPid : ℕ) :
    Option (ℕ × FdState) :=
  s.freeSlot.map fun i => (i, s.setHandle i ⟨type, file, ownerPid, 1⟩)

/-! ### Descriptors of a thread -/

def modifyThread (s : FdState) (tid : ℕ) (f : FdThread → FdThread) : FdState :=
  { s with threads := s.threads.modify tid f }

/-- The descriptors of a thread. -/
def fdsOf (s : FdState) (tid : ℕ) : FdTable :=
  (s.threads[tid]?.map FdThread.fds).getD (Vector.replicate 16 none)

/-- `sched_get_fd`. -/
def getFd (s : FdState) (tid : ℕ) (fd : ℤ) : Option ℕ :=
  if fd < 0 ∨ 16 ≤ fd then none else (s.fdsOf tid)[fd.toNat]?.join

/-- `sched_set_fd`. -/
def setFd (s : FdState) (tid : ℕ) (fd : ℤ) (handle : Option ℕ) : FdState :=
  if fd < 0 ∨ 16 ≤ fd then s
  else s.modifyThread tid fun t => { t with fds := t.fds.setIfInBounds fd.toNat handle }

/-- The descriptor that `sched_allocate_fd` takes. -/
def freeFd (s : FdState) (tid : ℕ) : Option ℕ :=
  (List.range 16).find? fun i => decide ((s.fdsOf tid)[i]?.join = none)

/-- `sched_allocate_fd`. -/
def allocateFd (s : FdState) (tid handle : ℕ) : Option (ℕ × FdState) :=
  (s.freeFd tid).map fun i => (i, s.setFd tid i (some handle))

def pidOf (s : FdState) (tid : ℕ) : ℕ := (s.threads[tid]?.map FdThread.pid).getD 0

/-! ### Threads -/

def acquireAll (s : FdState) : List (Option ℕ) → FdState
  | [] => s
  | none :: fds => s.acquireAll fds
  | some id :: fds => (s.acquire id).acquireAll fds

def releaseAll (s : FdState) : List (Option ℕ) → FdState
  | [] => s
  | none :: fds => s.releaseAll fds
  | some id :: fds => (s.release id).releaseAll fds

/-- The descriptors of a thread without a parent. -/
def defaultFds : FdTable := Vector.ofFn fun i => if i.val < 3 then some i.val else none

def appendThread (s : FdState) (t : FdThread) : FdState := { s with threads := s.threads ++ [t] }

/-- `sched_create`. -/
def schedCreate (s : FdState) : FdState :=
  (s.acquireAll defaultFds.toList).appendThread ⟨0, false, defaultFds, .kernel⟩

/-- The descriptors that a new thread inherits. -/
def inheritedFds (s : FdState) (parentPid : ℕ) : FdTable :=
  match (if 0 < parentPid then s.threads.find? fun t => t.pid = parentPid else none) with
  | some parent => parent.fds
  | none => defaultFds

/-- `sched_create_user`.  If there is no stack for the thread it is taken off the
list again; the references of its descriptors stay.  The exit without a block for the
thread is dead: `kalloc` of more than 0 bytes returns a block or panics. -/
def schedCreateUser (s : FdState) (entry : Entry) (parentPid : ℕ) (stack : Bool) : Bool × FdState :=
  let fds := s.inheritedFds parentPid
  let s' := { s.acquireAll fds.toList with nextPid := s.nextPid + 1 }
  if stack then (true, s'.appendThread ⟨s.nextPid, false, fds, entry⟩) else (false, s')

/-- `sched_exit`. -/
def schedExit (s : FdState) (tid : ℕ) : FdState :=
  (s.modifyThread tid fun t => { t with dead := true, fds := Vector.replicate 16 none }).releaseAll
    (s.fdsOf tid).toList

/-! ### System calls -/

/-- What `vfs_open` does: a failure may create a file and close it again. -/
inductive VfsOpen
  | opened
  | failed (err : SyscallError) (temporary : Bool)
  deriving DecidableEq, Repr

/-- What becomes of the path of an `OPEN`. -/
inductive OpenPath
  | unresolved
  | tty
  | file (result : VfsOpen)
  deriving DecidableEq, Repr

/-- The arguments of the calls on descriptors, with what the rest of the kernel answers. -/
inductive FdCall
  | open (path : OpenPath)
  | close (fd : ℤ)
  | dup2 (oldfd newfd : ℤ)
  /-- `inRange` says that `pipefd` passes the check, `created` that `pipe_create` succeeds. -/
  | pipe (inRange created : Bool)
  deriving DecidableEq, Repr

/-- The system calls that change descriptors. -/
inductive Syscall
  | fd (c : FdCall)
  /-- `argsOk` says that path and arguments can be copied; `fdMap` is the fourth
  argument if it passes the check; `stack` is whether the thread gets a stack. -/
  | spawn (argsOk : Bool) (fdMap : Option (Vector ℤ 3)) (stack : Bool)
  | exit
  deriving DecidableEq, Repr

/-- A result: the value, or an error. -/
abbrev SysRet := Except SyscallError ℕ

/-- `SYSCALL_OPEN` of a terminal. -/
def openTty (s : FdState) (tid : ℕ) : SysRet × FdState :=
  match s.handleAlloc .tty none (s.pidOf tid) with
  | none => (.error .enomem, s)
  | some (global, s) =>
    match s.allocateFd tid global with
    | none => (.error .enomem, s.release global)
    | some (fd, s) => (.ok fd, s)

/-- `SYSCALL_OPEN` of a file that `vfs_open` has opened. -/
def openFile (s : FdState) (tid file : ℕ) : SysRet × FdState :=
  match s.handleAlloc .vfs (some file) (s.pidOf tid) with
  | none => (.error .enomem, s.vfsClose file)
  | some (global, s) =>
    match s.allocateFd tid global with
    | none => (.error .enomem, (s.release global).vfsClose file)
    | some (fd, s) => (.ok fd, s)

/-- A new `vfs_file`. -/
def newFile (s : FdState) : FdState := { s with nextFile := s.nextFile + 1 }

def sysOpen (s : FdState) (tid : ℕ) : OpenPath → SysRet × FdState
  | .unresolved => (.error .einval, s)
  | .tty => s.openTty tid
  | .file (.failed err false) => (.error err, s)
  | .file (.failed err true) => (.error err, s.newFile.vfsClose s.nextFile)
  | .file .opened => s.newFile.openFile tid s.nextFile

def sysClose (s : FdState) (tid : ℕ) (fd : ℤ) : SysRet × FdState :=
  match s.getFd tid fd with
  | none => (.error .ebadf, s)
  | some global => (.ok 0, (s.setFd tid fd none).release global)

/-- The part of `DUP2` that empties the new descriptor. -/
def dropFd (s : FdState) (tid : ℕ) (fd : ℤ) : FdState :=
  match s.getFd tid fd with
  | none => s
  | some global => (s.setFd tid fd none).release global

def sysDup2 (s : FdState) (tid : ℕ) (oldfd newfd : ℤ) : SysRet × FdState :=
  match s.getFd tid oldfd with
  | none => (.error .ebadf, s)
  | some global =>
    if newfd < 0 ∨ 16 ≤ newfd then (.error .ebadf, s)
    else if oldfd = newfd then (.ok newfd.toNat, s)
    else (.ok newfd.toNat, ((s.dropFd tid newfd).setFd tid newfd (some global)).acquire global)

/-- `SYSCALL_PIPE` from the first descriptor on. -/
def pipeFds (s : FdState) (tid h1 h2 : ℕ) : SysRet × FdState :=
  let (fd1, s) := match s.allocateFd tid h1 with
    | none => (none, s)
    | some (fd, s) => (some fd, s)
  let (fd2, s) := match s.allocateFd tid h2 with
    | none => (none, s)
    | some (fd, s) => (some fd, s)
  match fd1, fd2 with
  | some _, some _ => (.ok 0, s)
  | fd1, fd2 =>
    let s := match fd1 with
      | some fd => s.setFd tid fd none
      | none => s
    let s := match fd2 with
      | some fd => s.setFd tid fd none
      | none => s
    (.error .enomem, (s.release h1).release h2)

/-- `SYSCALL_PIPE` with the two ends that `pipe_create` has made. -/
def pipeHandles (s : FdState) (tid r w : ℕ) : SysRet × FdState :=
  match s.handleAlloc .vfs (some r) (s.pidOf tid) with
  | none => (.error .enomem, (s.vfsClose r).vfsClose w)
  | some (h1, s) =>
    match s.handleAlloc .vfs (some w) (s.pidOf tid) with
    | none => (.error .enomem, (s.release h1).vfsClose w)
    | some (h2, s) => s.pipeFds tid h1 h2

def sysPipe (s : FdState) (tid : ℕ) (inRange created : Bool) : SysRet × FdState :=
  if !inRange then (.error .einval, s)
  else if !created then (.error .enomem, s)
  else s.newFile.newFile.pipeHandles tid s.nextFile (s.nextFile + 1)

/-- The `override_fds` of the launch record. -/
def overrideFds (s : FdState) (tid : ℕ) : Option (Vector ℤ 3) → Vector (Option ℕ) 3
  | some userMap => userMap.map fun fd => s.getFd tid fd
  | none => Vector.replicate 3 none

def sysSpawn (s : FdState) (tid : ℕ) (argsOk : Bool) (fdMap : Option (Vector ℤ 3))
    (stack : Bool) : SysRet × FdState :=
  if !argsOk then (.error .einval, s)
  else
    let overrides := s.overrideFds tid fdMap
    match (s.acquireAll overrides.toList).schedCreateUser (.launch overrides) (s.pidOf tid)
      stack with
    | (true, s') => (.ok s.nextPid, s')
    | (false, s') => (.error .enomem, s')

/-- The first system call sets the handle table up. -/
def prepared (s : FdState) : FdState := if s.ready then s else s.handlesInit

/-- A call on descriptors, with the table set up. -/
def fdCall (s : FdState) (tid : ℕ) : FdCall → SysRet × FdState
  | .open path => s.sysOpen tid path
  | .close fd => s.sysClose tid fd
  | .dup2 oldfd newfd => s.sysDup2 tid oldfd newfd
  | .pipe inRange created => s.sysPipe tid inRange created

/-- `syscall_handle` for a thread; `EXIT` does not return. -/
def syscall (s : FdState) (tid : ℕ) : Syscall → SysRet × FdState
  | .fd c => s.prepared.fdCall tid c
  | .spawn argsOk fdMap stack => s.prepared.sysSpawn tid argsOk fdMap stack
  | .exit => (.ok 0, s.prepared.schedExit tid)

/-! ### What reference counts are for -/

/-- The references of all live threads to a slot. -/
def holders (s : FdState) (i : ℕ) : ℕ := (s.threads.map fun t => t.refs i).sum

/-- The count of every handle is the number of its references, and no descriptor of a
live thread names a free slot. -/
structure Exact (s : FdState) : Prop where
  refcount : ∀ i, (s.handles i).type ≠ .free → (s.handles i).refcount = s.holders i
  named : ∀ t ∈ s.threads, t.dead = false → ∀ i, some i ∈ t.fds.toList → (s.handles i).type ≠ .free

/-! ### Runs -/

/-- `sched_init`: the descriptors of the boot thread are zero. -/
def schedInit : FdState where
  handles := fun _ => ⟨.free, none, 0, 0⟩
  ready := false
  threads := [⟨0, false, Vector.replicate 16 (some 0), .kernel⟩]
  nextPid := 1
  nextFile := 0
  closes := []
  bootPc := 0

def bootNext (s : FdState) : FdState := { s with bootPc := s.bootPc + 1 }

/-- What `kernel_main` does next after `sched_init`: the idle thread, the terminal
and the first user thread if they are configured, and `sched_start`. -/
def boot (s : FdState) (configured : Bool) : Option FdState :=
  match s.bootPc with
  | 0 => some s.schedCreate.bootNext
  | 1 => some (if configured then s.schedCreate else s).bootNext
  | 2 => some (if configured then (s.schedCreateUser .smoke 0 true).2 else s).bootNext
  | 3 => some (s.schedExit 0).bootNext
  | _ => none

/-- A new user thread runs its entry function: it enters user mode, which frees the
launch record, or it returns and exits. -/
def start (s : FdState) (tid : ℕ) (loads : Bool) : FdState :=
  if loads then s.modifyThread tid fun t => { t with entry := .user } else s.schedExit tid

inductive Action
  | boot (configured : Bool)
  | start (tid : ℕ) (loads : Bool)
  | syscall (tid : ℕ) (c : Syscall)
  deriving DecidableEq, Repr

def step (s : FdState) : Action → Option FdState
  | .boot configured => s.boot configured
  | .start tid loads =>
    match s.threads[tid]? with
    | some t => if !t.dead && t.entry.pending then some (s.start tid loads) else none
    | none => none
  | .syscall tid c =>
    match s.threads[tid]? with
    | some t => if !t.dead && decide (t.entry = .user) then some (s.syscall tid c).2 else none
    | none => none

/-- The states that runs reach whose steps all meet the condition. -/
def ReachableIf (ok : FdState → Action → Prop) : FdState → Prop :=
  Reach (· = schedInit) fun s s' => ∃ a, ok s a ∧ s.step a = some s'

/-- The states that runs reach. -/
def Reachable : FdState → Prop := ReachableIf fun _ _ => True

end FdState

end Neptune
