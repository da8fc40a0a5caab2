import Neptune.Mmu.UserRange
import Neptune.User.Launch

/-!
# The limits of argument vectors

`user_launch_fill` accepts a vector of fewer than `USER_ARG_MAX` pointers to strings of fewer than
`USER_STR_MAX` bytes.  What it accepts is copied, and the copies pass the count of
`user_stack_setup`; what reaches a limit without going over it is refused.

## Main definitions

* `LaunchExact` — the vectors within the limits are accepted and copied.
* `Phys.userMem` — the memory of a task, with its page tables.

## Main results

* `UserMem.launchFill_ok_iff`, `UserMem.launchFill_copies` — what `user_launch_fill` does.
* `launch_fill_iff` — when it does what it should.
* `Phys.userMem_str` — what it copies is mapped for the user.
-/

namespace Neptune

open Option

/-! ### `user_launch_fill` -/

section

variable {u : UserMem} {l l' : UserLaunch} {path : List UInt8} {argv envp : ℕ}
  {args envs : List (List UInt8)}

/-- What `user_launch_fill` leaves behind. -/
def UserLaunch.filled (l : UserLaunch) (path : List UInt8) (args envs : List (List UInt8)) :
    UserLaunch where
  path := l.path.blit 0 (path.take (userPathMax - 1) ++ [0])
  argv := if args = [] then ((l.argv.copied 0 []).setPtr 0 .path).setPtr 1 .null
    else l.argv.copied 0 args
  envp := l.envp.copied 0 envs
  overrideFds := [-1, -1, -1]

/-- `user_launch_fill` succeeds if both vectors are copied. -/
theorem UserMem.launchFill_ok_iff (hargv : argv < 2 ^ 64) (henvp : envp < 2 ^ 64) :
    u.launchFill l path argv envp = some (0, l') ↔
      ∃ args envs, (u.Args argv args ∧ args.length < userArgMax ∧
          ∀ s ∈ args, s.length + 1 < userStrMax) ∧
        (u.Args envp envs ∧ envs.length < userEnvMax ∧ ∀ s ∈ envs, s.length + 1 < userStrMax) ∧
        l' = l.filled path args envs := by
  rw [UserMem.launchFill]
  constructor
  · intro h
    obtain ⟨⟨r, v⟩, hcopy, h⟩ := bind_eq_some_iff.mp h
    dsimp only at h
    split at h
    · cases h
    next hr =>
    obtain rfl : r = 0 := not_not.mp hr
    obtain ⟨args, hargs, hcount, hshort, rfl⟩ := (vecCopy_ok_iff hargv (by decide)).mp hcopy
    obtain ⟨⟨r, v⟩, hcopy, h⟩ := bind_eq_some_iff.mp h
    dsimp only at h
    split at h
    · cases h
    next hr =>
    obtain rfl : r = 0 := not_not.mp hr
    obtain ⟨-, rfl⟩ := Prod.mk.inj (some.inj h)
    obtain ⟨envs, henvs, hcount', hshort', rfl⟩ := (vecCopy_ok_iff henvp (by decide)).mp hcopy
    refine ⟨args, envs, ⟨hargs, hcount, hshort⟩, ⟨henvs, hcount', hshort'⟩, ?_⟩
    simp only [UserLaunch.defaultArgv, ArgVec.copied_null, UserLaunch.filled]
    split
    · next hnil => simp [hnil]
    · rfl
  · rintro ⟨args, envs, ⟨hargs, hcount, hshort⟩, ⟨henvs, hcount', hshort'⟩, rfl⟩
    have hcopy : u.vecCopy argv userArgMax l.argv = some (0, l.argv.copied 0 args) :=
      (vecCopy_ok_iff hargv (by decide)).mpr ⟨args, hargs, hcount, hshort, rfl⟩
    have hcopy' : u.vecCopy envp userEnvMax l.envp = some (0, l.envp.copied 0 envs) :=
      (vecCopy_ok_iff henvp (by decide)).mpr ⟨envs, henvs, hcount', hshort', rfl⟩
    simp only [hcopy, bind_eq_bind, bind_some, ne_eq, not_true_eq_false, if_false,
      UserLaunch.defaultArgv, ArgVec.copied_null]
    split
    · next hnil => simp [hcopy', hnil, UserLaunch.filled]
    · next hne => simp [hcopy', hne, UserLaunch.filled]

/-- The copies of the arguments, or the path. -/
theorem UserLaunch.argv_filled (hpath : path.length < userPathMax) (hnul : 0 ∉ path)
    (hargs : ∀ s ∈ args, 0 ∉ s) (hshort : ∀ s ∈ args, s.length + 1 ≤ userStrMax) :
    NullTerminated ((l.filled path args envs).argv.strings (l.filled path args envs).path)
      (if args = [] then [path] else args) := by
  intro k hk
  by_cases hnil : args = []
  · have htake : path.take (userPathMax - 1) = path := List.take_of_length_le (by omega)
    have hbytes : (l.filled path args envs).path.bytes 0 (path.length + 1) = path ++ [0] := by
      have hself := l.path.bytes_blit_self 0 (path ++ [0])
      rw [List.length_append] at hself
      rwa [UserLaunch.filled, htake]
    rw [if_pos hnil] at hk ⊢
    have hcases : k = 0 ∨ k = 1 := by
      rw [List.length_singleton] at hk
      omega
    rw [ArgVec.strings, stringAt_of_bytes hbytes hnul hpath]
    rcases hcases with rfl | rfl
    · simp [UserLaunch.filled, hnil, ArgVec.setPtr]
    · simp [UserLaunch.filled, hnil, ArgVec.setPtr]
  · rw [if_neg hnil] at hk ⊢
    have hcopied : (l.argv.copied 0 args).strings (l.filled path args envs).path (0 + k) = args[k]? :=
      ArgVec.strings_copied hargs hshort hk
    rw [Nat.zero_add] at hcopied
    simpa only [UserLaunch.filled, if_neg hnil] using hcopied

/-- **The vectors that should be accepted are**, and the copies are what they should be. -/
def LaunchExact (u : UserMem) (l : UserLaunch) (path : List UInt8) (argv envp : ℕ) : Prop :=
  ((∃ l', u.launchFill l path argv envp = some (0, l')) ↔
    (∃ args, u.Args argv args ∧ WithinLimits userArgMax args) ∧
      ∃ envs, u.Args envp envs ∧ WithinLimits userEnvMax envs) ∧
  ∀ l' args envs, u.launchFill l path argv envp = some (0, l') → u.Args argv args → u.Args envp envs →
      NullTerminated (l'.argv.strings l'.path) (if args = [] then [path] else args) ∧
      NullTerminated (l'.envp.strings l'.path) envs ∧
      countsOk (l'.argv.strings l'.path) (l'.envp.strings l'.path) = true

/-- The copies, and the count of them. -/
theorem UserMem.launchFill_copies (hpath : path.length < userPathMax) (hnul : 0 ∉ path)
    (hargv : argv < 2 ^ 64) (henvp : envp < 2 ^ 64)
    (h : u.launchFill l path argv envp = some (0, l')) (hargs : u.Args argv args)
    (henvs : u.Args envp envs) :
    NullTerminated (l'.argv.strings l'.path) (if args = [] then [path] else args) ∧
      NullTerminated (l'.envp.strings l'.path) envs ∧
      countsOk (l'.argv.strings l'.path) (l'.envp.strings l'.path) = true := by
  obtain ⟨args', envs', ⟨hargs', hcount, hshort⟩, ⟨henvs', hcount', hshort'⟩, rfl⟩ :=
    (UserMem.launchFill_ok_iff hargv henvp).mp h
  obtain rfl := hargs.unique hargs'
  obtain rfl := henvs.unique henvs'
  have hterm : NullTerminated ((l.filled path args envs).argv.strings (l.filled path args envs).path)
      (if args = [] then [path] else args) :=
    UserLaunch.argv_filled hpath hnul hargs.nul_notMem fun s hs => (hshort s hs).le
  have hterm' : NullTerminated
      ((l.filled path args envs).envp.strings (l.filled path args envs).path) envs := by
    intro k hk
    have hcopied : (l.envp.copied 0 envs).strings (l.filled path args envs).path (0 + k) = envs[k]? :=
      ArgVec.strings_copied henvs.nul_notMem (fun s hs => (hshort' s hs).le) hk
    rwa [Nat.zero_add] at hcopied
  have hmax : (if args = [] then [path] else args).length ≤ userArgMax := by
    split
    · exact Nat.le_of_ble_eq_true rfl
    · exact hcount.le
  refine ⟨hterm, hterm', ?_⟩
  rw [countsOk, hterm.isNone hmax, hterm'.isNone hcount'.le]
  rfl

theorem within_and_not_at_iff {max : ℕ} {ss : List (List UInt8)} :
    WithinLimits max ss ∧ ¬AtLimit max ss ↔ ss.length < max ∧ ∀ s ∈ ss, s.length + 1 < userStrMax := by
  simp only [WithinLimits, AtLimit, not_or, not_exists, not_and]
  constructor
  · rintro ⟨⟨hcount, hlen⟩, hne, hfull⟩
    exact ⟨by omega, fun s hs => lt_of_le_of_ne (hlen s hs) (hfull s hs)⟩
  · rintro ⟨hcount, hlen⟩
    exact ⟨⟨hcount.le, fun s hs => (hlen s hs).le⟩, hcount.ne, fun s hs => (hlen s hs).ne⟩

/-- **Argument vectors up to the limits are accepted** exactly if, where both are within them, none
reaches one. -/
theorem launch_fill_iff (hpath : path.length < userPathMax) (hnul : 0 ∉ path)
    (hargv : argv < 2 ^ 64) (henvp : envp < 2 ^ 64) :
    LaunchExact u l path argv envp ↔
      ∀ args envs, u.Args argv args → u.Args envp envs → WithinLimits userArgMax args →
        WithinLimits userEnvMax envs → ¬AtLimit userArgMax args ∧ ¬AtLimit userEnvMax envs := by
  constructor
  · rintro ⟨hexact, -⟩ args envs hargs henvs hin hin'
    obtain ⟨l', hfill⟩ := hexact.mpr ⟨⟨args, hargs, hin⟩, envs, henvs, hin'⟩
    obtain ⟨args', envs', ⟨hargs', hok⟩, ⟨henvs', hok'⟩, -⟩ :=
      (UserMem.launchFill_ok_iff hargv henvp).mp hfill
    rw [hargs.unique hargs', henvs.unique henvs']
    exact ⟨(within_and_not_at_iff.mpr hok).2, (within_and_not_at_iff.mpr hok').2⟩
  · intro h
    refine ⟨⟨?_, ?_⟩, fun l' args envs hfill hargs henvs =>
      UserMem.launchFill_copies hpath hnul hargv henvp hfill hargs henvs⟩
    · rintro ⟨l', hfill⟩
      obtain ⟨args, envs, ⟨hargs, hok⟩, ⟨henvs, hok'⟩, -⟩ :=
        (UserMem.launchFill_ok_iff hargv henvp).mp hfill
      exact ⟨⟨args, hargs, (within_and_not_at_iff.mpr hok).1⟩,
        envs, henvs, (within_and_not_at_iff.mpr hok').1⟩
    · rintro ⟨⟨args, hargs, hin⟩, envs, henvs, hin'⟩
      obtain ⟨hnot, hnot'⟩ := h args envs hargs henvs hin hin'
      exact ⟨_, (UserMem.launchFill_ok_iff hargv henvp).mpr ⟨args, envs,
        ⟨hargs, within_and_not_at_iff.mp ⟨hin, hnot⟩⟩,
        ⟨henvs, within_and_not_at_iff.mp ⟨hin', hnot'⟩⟩, rfl⟩⟩

end

/-! ### The memory of a task -/

/-- The memory of the task with the tables `aspace`. -/
def Phys.userMem (s : Phys) (aspace : ℕ) : UserMem where
  ptrRange := s.userPtrRange aspace
  byte a := ((hwWalk s.mem a 3 aspace).map fun tr => s.mem (tr.frame + a % 4096)).getD 0
  below _ hlen h := ((Phys.userPtrRange_iff hlen).mp h).2.2.2.1

/-- **A string that is copied is the user's**: the processor finds every byte of it, and its NUL,
mapped for the user. -/
theorem Phys.userMem_str {s : Phys} {aspace p : ℕ} {str : List UInt8} (ha : aspace % 4096 = 0)
    (hlt : aspace < 2 ^ 64) (hne : aspace ≠ 0) (h : (s.userMem aspace).Str p str) :
    ∀ i ≤ str.length, ∃ tr, hwWalk s.mem (p + i) 3 aspace = some tr ∧ tr.user = true := by
  have hfirst : ∀ {p}, s.userPtrRange aspace p 1 = some true →
      ∃ tr, hwWalk s.mem p 3 aspace = some tr ∧ tr.user = true := fun hp =>
    ((Phys.userPtrRange_followed ha hlt hne (by decide)).mp hp).1.2.2.2.2 _ le_rfl (Nat.lt_succ_self _)
  induction str generalizing p with
  | nil =>
    intro i hi
    obtain rfl : i = 0 := Nat.le_zero.mp hi
    exact hfirst h.1
  | cons c str ih =>
    intro i hi
    cases i with
    | zero => exact hfirst h.1
    | succ i =>
      rw [← Nat.add_assoc, Nat.add_right_comm]
      exact ih h.2.2.2 i (Nat.le_of_succ_le_succ hi)

/-! ### Vectors of empty strings -/

/-- A vector of `n` pointers to an empty string at 0x800000, at 0x400000. -/
def sampleMem (n : ℕ) : UserMem where
  ptrRange ptr len := some (decide (Phys.userBase ≤ ptr ∧ ptr + len ≤ 0x900000))
  byte x := if 0x400000 ≤ x ∧ x < 0x400000 + 8 * n ∧ x % 8 = 2 then 0x80 else 0
  below hptr hlen h := by
    simp only [some.injEq, decide_eq_true_eq] at h
    unfold Phys.userStackTop
    omega

def emptyLaunch : UserLaunch where
  path _ := 0
  argv := ⟨fun _ => 0, fun _ => .null⟩
  envp := ⟨fun _ => 0, fun _ => .null⟩
  overrideFds := [0, 0, 0]

theorem launch_fill_sample : LaunchExact (sampleMem 1) emptyLaunch [0x2F] 0x400000 0 := by
  refine (launch_fill_iff (by decide) (by decide) (by decide) (by decide)).mpr ?_
  intro args envs hargs henvs _ _
  have hone : (sampleMem 1).Args 0x400000 [[]] := by decide +kernel
  obtain rfl := hargs.unique hone
  obtain rfl : envs = [] := henvs
  exact ⟨by decide, by decide⟩

/-- **Eight arguments**: `USER_ARG_MAX` empty strings are within the limits and are refused. -/
theorem launch_fill_eight :
    (sampleMem 8).Args 0x400000 (List.replicate 8 []) ∧
      WithinLimits userArgMax (List.replicate 8 []) ∧ (sampleMem 8).Args 0 [] ∧
      ((sampleMem 8).launchFill emptyLaunch [0x2F] 0x400000 0).map Prod.fst = some (-1) :=
  ⟨by decide +kernel, by decide, rfl, by decide +kernel⟩

end Neptune
