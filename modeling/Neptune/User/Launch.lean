import Neptune.Mmu.UserPtr

/-!
# Argument vectors

A program is started with two vectors of strings, the arguments and the environment.  The kernel
copies them from the memory of the caller into a `struct user_launch` (`user_launch_fill`), and
`user_stack_setup` counts the copies once more.  The copy of a string gives up after
`USER_STR_MAX - 1` bytes, before it has seen the NUL of a string that fills its row, and the copy of
a vector gives up after `USER_ARG_MAX` pointers, before it has seen the NULL behind them.

## Main definitions

* `UserMem` — the memory of the caller, as the kernel sees it.
* `UserMem.strCopy`, `UserMem.vecCopy`, `UserMem.launchFill` — the functions of `syscall.c`.
* `vecCount`, `countsOk` — the counting of `user_stack_setup`.
* `UserMem.Str`, `UserMem.Vec` — a string and a vector in the memory of the caller.

## Main results

* `UserMem.strCopy_ok_iff`, `UserMem.vecCopy_ok_iff` — what is copied.
* `ArgVec.strings_copied` — the copies.
-/

namespace Neptune

open Function List Option
open Word64 (u64)

def userArgMax : ℕ := 8

def userEnvMax : ℕ := 8

def userPathMax : ℕ := 64

def userStrMax : ℕ := 64

/-- The memory of the caller: the answers of `user_ptr_range`, and the bytes that the kernel reads. -/
structure UserMem where
  ptrRange : ℕ → ℕ → Option Bool
  byte : ByteMem
  below : ∀ {ptr len : ℕ}, ptr < 2 ^ 64 → len < 2 ^ 64 → ptrRange ptr len = some true →
    ptr + len ≤ Phys.userStackTop

/-! ### `syscall.c` -/

namespace UserMem

/-- The loop of `user_str_copy`, with the passes that remain. -/
def strLoop (u : UserMem) (user dst dstLen : ℕ) : ℕ → ℕ → ByteMem → Option (ℤ × ByteMem)
  | 0, _, m => some (-1, m.blit (dst + (dstLen - 1)) [0])
  | n + 1, i, m => do
    let addr := u64 (user + i)
    let ok ← u.ptrRange addr 1
    if !ok then return (-1, m)
    let c := u.byte addr
    let m := m.blit (dst + i) [c]
    if c = 0 then return (0, m)
    u.strLoop user dst dstLen n (i + 1) m

/-- `user_str_copy`: the string at `user` goes to `dst`. -/
def strCopy (u : UserMem) (user dst dstLen : ℕ) (m : ByteMem) : Option (ℤ × ByteMem) :=
  if user = 0 ∨ dstLen = 0 then some (-1, m)
  else u.strLoop user dst dstLen (dstLen - 1) 0 m

end UserMem

/-- A pointer in the vectors of `struct user_launch`. -/
inductive ArgPtr
  | null
  /-- To `launch->path`. -/
  | path
  /-- To a row of the storage of the vector. -/
  | row (i : ℕ)
  deriving DecidableEq

/-- A vector of `struct user_launch` and its storage, with rows of `USER_STR_MAX` bytes. -/
structure ArgVec where
  storage : ByteMem
  out : ℕ → ArgPtr

namespace ArgVec

def setPtr (v : ArgVec) (i : ℕ) (p : ArgPtr) : ArgVec := { v with out := update v.out i p }

end ArgVec

namespace UserMem

/-- The loop of `user_vec_copy`, with the passes that remain. -/
def vecLoop (u : UserMem) (vec max : ℕ) : ℕ → ℕ → ArgVec → Option (ℤ × ArgVec)
  | 0, _, v => some (-1, v.setPtr max .null)
  | n + 1, i, v => do
    let addr := u64 (vec + 8 * i)
    let ok ← u.ptrRange addr 8
    if !ok then return (-1, v)
    let ptr := u.byte.load 8 addr
    if ptr = 0 then return (0, v.setPtr i .null)
    let (r, storage) ← u.strCopy ptr (userStrMax * i) userStrMax v.storage
    let v := { v with storage := storage }
    if r ≠ 0 then return (-1, v)
    u.vecLoop vec max n (i + 1) (v.setPtr i (.row i))

/-- `user_vec_copy`. -/
def vecCopy (u : UserMem) (vec max : ℕ) (v : ArgVec) : Option (ℤ × ArgVec) :=
  if vec = 0 then some (0, v.setPtr 0 .null) else u.vecLoop vec max max 0 v

end UserMem

/-- `struct user_launch`. -/
structure UserLaunch where
  path : ByteMem
  argv : ArgVec
  envp : ArgVec
  overrideFds : List ℤ

/-- An empty vector of arguments becomes the path. -/
def UserLaunch.defaultArgv (l : UserLaunch) : UserLaunch :=
  if l.argv.out 0 = .null then { l with argv := (l.argv.setPtr 0 .path).setPtr 1 .null } else l

/-- `user_launch_fill`, with the bytes of `path` before its NUL. -/
def UserMem.launchFill (u : UserMem) (l : UserLaunch) (path : List UInt8) (argv envp : ℕ) :
    Option (ℤ × UserLaunch) := do
  let l := { l with path := l.path.blit 0 (path.take (userPathMax - 1) ++ [0]) }
  let (r, v) ← u.vecCopy argv userArgMax l.argv
  let l := { l with argv := v }
  if r ≠ 0 then return (-1, l)
  let l := l.defaultArgv
  let (r, v) ← u.vecCopy envp userEnvMax l.envp
  let l := { l with envp := v }
  if r ≠ 0 then return (-1, l)
  return (0, { l with overrideFds := [-1, -1, -1] })

/-! ### `user.c` -/

/-- A vector as `user_stack_setup` reads it: the strings, and `none` for NULL. -/
def StrVec := ℕ → Option (List UInt8)

/-- `while (argv[argc] && argc < MAX)`, with the passes that remain. -/
def vecCount (v : StrVec) : ℕ → ℕ → ℕ
  | 0, i => i
  | n + 1, i => if (v i).isSome then vecCount v n (i + 1) else i

/-- The checks of `user_stack_setup` on the vectors. -/
def countsOk (argv envp : StrVec) : Bool :=
  (argv (vecCount argv userArgMax 0)).isNone && (envp (vecCount envp userEnvMax 0)).isNone

/-- The bytes before the NUL in a buffer. -/
def stringAt (m : ByteMem) (a size : ℕ) : List UInt8 := (m.bytes a size).takeWhile (· ≠ 0)

/-- The strings that the pointers of a vector point to. -/
def ArgVec.strings (v : ArgVec) (path : ByteMem) : StrVec := fun i =>
  match v.out i with
  | .null => none
  | .path => some (stringAt path 0 userPathMax)
  | .row i => some (stringAt v.storage (userStrMax * i) userStrMax)

/-- The vector with copies of strings from slot `i` on. -/
def ArgVec.copied (v : ArgVec) : ℕ → List (List UInt8) → ArgVec
  | i, [] => v.setPtr i .null
  | i, s :: ss =>
    ArgVec.copied
      ({ v with storage := v.storage.blit (userStrMax * i) (s ++ [0]) }.setPtr i (.row i)) (i + 1) ss

/-! ### Strings and vectors of the caller -/

namespace UserMem

/-- The string at an address: readable up to its NUL. -/
def Str (u : UserMem) : ℕ → List UInt8 → Prop
  | p, [] => u.ptrRange p 1 = some true ∧ u.byte p = 0
  | p, c :: s => u.ptrRange p 1 = some true ∧ u.byte p = c ∧ c ≠ 0 ∧ u.Str (p + 1) s

/-- The vector at an address: readable up to its NULL, with readable strings. -/
def Vec (u : UserMem) : ℕ → List (List UInt8) → Prop
  | p, [] => u.ptrRange p 8 = some true ∧ u.byte.load 8 p = 0
  | p, s :: ss => u.ptrRange p 8 = some true ∧ u.byte.load 8 p ≠ 0 ∧
      u.Str (u.byte.load 8 p) s ∧ u.Vec (p + 8) ss

/-- The strings of a vector argument: none for NULL. -/
def Args (u : UserMem) (vec : ℕ) (ss : List (List UInt8)) : Prop :=
  if vec = 0 then ss = [] else u.Vec vec ss

instance decidableStr (u : UserMem) : ∀ p s, Decidable (u.Str p s)
  | _, [] => inferInstanceAs (Decidable (_ ∧ _))
  | p, _ :: s =>
    have := u.decidableStr (p + 1) s
    inferInstanceAs (Decidable (_ ∧ _ ∧ _ ∧ _))

instance decidableVec (u : UserMem) : ∀ p ss, Decidable (u.Vec p ss)
  | _, [] => inferInstanceAs (Decidable (_ ∧ _))
  | p, _ :: ss =>
    have := u.decidableVec (p + 8) ss
    inferInstanceAs (Decidable (_ ∧ _ ∧ _ ∧ _))

instance (u : UserMem) (vec : ℕ) (ss : List (List UInt8)) : Decidable (u.Args vec ss) :=
  inferInstanceAs (Decidable (if vec = 0 then ss = [] else u.Vec vec ss))

end UserMem

/-- The limits: at most `max` strings of at most `USER_STR_MAX` bytes with the NUL. -/
def WithinLimits (max : ℕ) (ss : List (List UInt8)) : Prop :=
  ss.length ≤ max ∧ ∀ s ∈ ss, s.length + 1 ≤ userStrMax

instance (max : ℕ) (ss : List (List UInt8)) : Decidable (WithinLimits max ss) :=
  inferInstanceAs (Decidable (_ ∧ _))

/-- A limit is reached: `max` strings, or a string of `USER_STR_MAX` bytes with the NUL. -/
def AtLimit (max : ℕ) (ss : List (List UInt8)) : Prop :=
  ss.length = max ∨ ∃ s ∈ ss, s.length + 1 = userStrMax

instance (max : ℕ) (ss : List (List UInt8)) : Decidable (AtLimit max ss) :=
  inferInstanceAs (Decidable (_ ∨ _))

/-! ### Copying a string -/

namespace UserMem

variable {u : UserMem} {user dst dstLen vec max n i p : ℕ} {m m' : ByteMem} {s s' : List UInt8}
  {ss ss' : List (List UInt8)} {v v' : ArgVec}

theorem Str.readable (h : u.Str p s) : u.ptrRange p 1 = some true := by
  cases s with
  | nil => exact h.1
  | cons c s => exact h.1

theorem Vec.readable (h : u.Vec p ss) : u.ptrRange p 8 = some true := by
  cases ss with
  | nil => exact h.1
  | cons s ss => exact h.1

/-- There is one string at an address. -/
theorem Str.unique (h : u.Str p s) (h' : u.Str p s') : s = s' := by
  induction s generalizing p s' with
  | nil =>
    cases s' with
    | nil => rfl
    | cons c s' => exact absurd (h'.2.1.symm.trans h.2) h'.2.2.1
  | cons c s ih =>
    cases s' with
    | nil => exact absurd (h.2.1.symm.trans h'.2) h.2.2.1
    | cons c' s' => rw [ih h.2.2.2 h'.2.2.2, ← h.2.1, ← h'.2.1]

theorem Str.nul_notMem (h : u.Str p s) : 0 ∉ s := by
  induction s generalizing p with
  | nil => exact not_mem_nil
  | cons c s ih =>
    rw [mem_cons, not_or]
    exact ⟨Ne.symm h.2.2.1, ih h.2.2.2⟩

/-- The loop copies a string whose NUL it comes to. -/
theorem strLoop_ok_iff (hi : user + i < 2 ^ 64) :
    u.strLoop user dst dstLen n i m = some (0, m') ↔
      ∃ s, u.Str (user + i) s ∧ s.length < n ∧ m' = m.blit (dst + i) (s ++ [0]) := by
  induction n generalizing i m with
  | zero => simp [strLoop]
  | succ n ih =>
    rw [strLoop, Word64.u64_of_lt hi]
    by_cases hok : u.ptrRange (user + i) 1 = some true
    swap
    · -- no string starts at a byte that cannot be read
      have hnone : ¬∃ s, u.Str (user + i) s ∧ s.length < n + 1 ∧ m' = m.blit (dst + i) (s ++ [0]) :=
        fun ⟨s, hs, _⟩ => hok hs.readable
      refine iff_of_false ?_ hnone
      rcases hrange : u.ptrRange (user + i) 1 with _ | _ | _
      · simp
      · simp
      · exact absurd hrange hok
    have hbelow := u.below hi (by decide) hok
    unfold Phys.userStackTop at hbelow
    simp only [hok, bind_eq_bind, bind_some, Bool.not_true, Bool.false_eq_true, if_false]
    by_cases hc : u.byte (user + i) = 0
    · rw [if_pos hc, hc]
      constructor
      · intro h
        obtain ⟨-, rfl⟩ := Prod.mk.inj (some.inj h)
        exact ⟨[], ⟨hok, hc⟩, by simp, rfl⟩
      · rintro ⟨s, hs, -, rfl⟩
        have hnil : s = [] := hs.unique ⟨hok, hc⟩
        rw [hnil]
        rfl
    · rw [if_neg hc]
      refine Iff.trans (ih (by omega)) ?_
      have happ : ∀ s, (m.blit (dst + i) [u.byte (user + i)]).blit (dst + (i + 1)) (s ++ [0]) =
          m.blit (dst + i) (u.byte (user + i) :: s ++ [0]) := fun s =>
        (m.blit_append (dst + i) [u.byte (user + i)] (s ++ [0])).symm
      constructor
      · rintro ⟨s, hs, hlen, rfl⟩
        exact ⟨u.byte (user + i) :: s, ⟨hok, rfl, hc, hs⟩, by simpa using hlen, happ s⟩
      · rintro ⟨s, hs, hlen, rfl⟩
        cases s with
        | nil => exact absurd hs.2 hc
        | cons c s =>
          obtain ⟨-, rfl, -, hs⟩ := hs
          exact ⟨s, hs, by simpa using hlen, (happ s).symm⟩

/-- **What `user_str_copy` copies**: the strings whose NUL is before the last byte of the buffer. -/
theorem strCopy_ok_iff (huser : user < 2 ^ 64) (hne : user ≠ 0) :
    u.strCopy user dst dstLen m = some (0, m') ↔
      ∃ s, u.Str user s ∧ s.length + 1 < dstLen ∧ m' = m.blit dst (s ++ [0]) := by
  rw [strCopy]
  split
  · next h =>
    refine iff_of_false (by simp) ?_
    rintro ⟨s, -, hlen, -⟩
    omega
  · next h =>
    refine Iff.trans (strLoop_ok_iff (by omega)) ?_
    refine exists_congr fun s => and_congr_right fun _ => and_congr_left fun _ => ?_
    omega

/-! ### Copying a vector -/

/-- The loop copies a vector whose NULL it comes to. -/
theorem vecLoop_ok_iff (hi : vec + 8 * i < 2 ^ 64) :
    u.vecLoop vec max n i v = some (0, v') ↔
      ∃ ss, u.Vec (vec + 8 * i) ss ∧ ss.length < n ∧ (∀ s ∈ ss, s.length + 1 < userStrMax) ∧
        v' = v.copied i ss := by
  induction n generalizing i v with
  | zero => simp [vecLoop]
  | succ n ih =>
    rw [vecLoop, Word64.u64_of_lt hi]
    by_cases hok : u.ptrRange (vec + 8 * i) 8 = some true
    swap
    · have hnone : ¬∃ ss, u.Vec (vec + 8 * i) ss ∧ ss.length < n + 1 ∧
          (∀ s ∈ ss, s.length + 1 < userStrMax) ∧ v' = v.copied i ss :=
        fun ⟨ss, hss, _⟩ => hok hss.readable
      refine iff_of_false ?_ hnone
      rcases hrange : u.ptrRange (vec + 8 * i) 8 with _ | _ | _
      · simp
      · simp
      · exact absurd hrange hok
    have hbelow := u.below hi (by decide) hok
    unfold Phys.userStackTop at hbelow
    have hptr : u.byte.load 8 (vec + 8 * i) < 2 ^ 64 := u.byte.load_lt 8 _
    simp only [hok, bind_eq_bind, bind_some, Bool.not_true, Bool.false_eq_true, if_false]
    by_cases hnull : u.byte.load 8 (vec + 8 * i) = 0
    · rw [if_pos hnull]
      constructor
      · intro h
        obtain ⟨-, rfl⟩ := Prod.mk.inj (some.inj h)
        exact ⟨[], ⟨hok, hnull⟩, by simp, by simp, rfl⟩
      · rintro ⟨ss, hss, -, -, rfl⟩
        cases ss with
        | nil => rfl
        | cons s ss => exact absurd hnull hss.2.1
    rw [if_neg hnull]
    constructor
    · intro h
      obtain ⟨⟨r, storage⟩, hcopy, h⟩ := bind_eq_some_iff.mp h
      dsimp only at h
      split at h
      · cases h
      next hr =>
      obtain rfl : r = 0 := not_not.mp hr
      obtain ⟨s, hs, hlen, rfl⟩ := (strCopy_ok_iff hptr hnull).mp hcopy
      obtain ⟨ss, hss, hcount, hshort, rfl⟩ := (ih (by omega)).mp h
      exact ⟨s :: ss, ⟨hok, hnull, hs, hss⟩, by simpa using hcount,
        forall_mem_cons.mpr ⟨hlen, hshort⟩, rfl⟩
    · rintro ⟨ss, hss, hcount, hshort, rfl⟩
      cases ss with
      | nil => exact absurd hss.2 hnull
      | cons s ss =>
        obtain ⟨hlen, hshort⟩ := forall_mem_cons.mp hshort
        rw [(strCopy_ok_iff hptr hnull).mpr ⟨s, hss.2.2.1, hlen, rfl⟩, bind_some]
        exact (ih (by omega)).mpr ⟨ss, hss.2.2.2, by simpa using hcount, hshort, rfl⟩

/-- There is one vector at an address. -/
theorem Vec.unique (h : u.Vec p ss) (h' : u.Vec p ss') : ss = ss' := by
  induction ss generalizing p ss' with
  | nil =>
    cases ss' with
    | nil => rfl
    | cons s ss' => exact absurd h.2 h'.2.1
  | cons s ss ih =>
    cases ss' with
    | nil => exact absurd h'.2 h.2.1
    | cons s' ss' => rw [h.2.2.1.unique h'.2.2.1, ih h.2.2.2 h'.2.2.2]

theorem Vec.nul_notMem (h : u.Vec p ss) : ∀ s ∈ ss, 0 ∉ s := by
  induction ss generalizing p with
  | nil => exact nofun
  | cons s ss ih => exact forall_mem_cons.mpr ⟨h.2.2.1.nul_notMem, ih h.2.2.2⟩

theorem Args.unique (h : u.Args vec ss) (h' : u.Args vec ss') : ss = ss' := by
  unfold Args at h h'
  split at h
  · next hnull => rw [h, if_pos hnull] at *; exact h'.symm
  · next hnull => exact h.unique (by rwa [if_neg hnull] at h')

theorem Args.nul_notMem (h : u.Args vec ss) : ∀ s ∈ ss, 0 ∉ s := by
  unfold Args at h
  split at h
  · subst h
    exact nofun
  · exact h.nul_notMem

/-- **What `user_vec_copy` copies**: fewer strings than there are slots, each with its NUL before the
last byte of its row. -/
theorem vecCopy_ok_iff (hvec : vec < 2 ^ 64) (hmax : 0 < max) :
    u.vecCopy vec max v = some (0, v') ↔
      ∃ ss, u.Args vec ss ∧ ss.length < max ∧ (∀ s ∈ ss, s.length + 1 < userStrMax) ∧
        v' = v.copied 0 ss := by
  rw [vecCopy]
  simp only [Args]
  split
  · constructor
    · intro h
      obtain ⟨-, rfl⟩ := Prod.mk.inj (some.inj h)
      exact ⟨[], rfl, hmax, nofun, rfl⟩
    · rintro ⟨ss, rfl, -, -, rfl⟩
      rfl
  · exact vecLoop_ok_iff (by omega)

end UserMem

/-! ### The copies -/

section

variable {v : ArgVec} {path : ByteMem} {m : ByteMem} {s : List UInt8} {ss : List (List UInt8)}
  {a size i j k n max x : ℕ}

/-- A vector of strings ends with NULL. -/
def NullTerminated (v : StrVec) (ss : List (List UInt8)) : Prop := ∀ k ≤ ss.length, v k = ss[k]?

theorem stringAt_of_bytes (h : m.bytes a (s.length + 1) = s ++ [0]) (hs : 0 ∉ s)
    (hsize : s.length + 1 ≤ size) : stringAt m a size = s := by
  obtain ⟨rest, rfl⟩ := Nat.exists_eq_add_of_le hsize
  have hne : ∀ c ∈ s, decide (c ≠ 0) = true := fun c hc =>
    decide_eq_true fun e => hs (e ▸ hc)
  rw [stringAt, ByteMem.bytes_add, h, append_assoc, takeWhile_append_of_pos hne]
  simp

theorem ArgVec.copied_out (h : j < i) : (v.copied i ss).out j = v.out j := by
  induction ss generalizing v i with
  | nil => exact update_of_ne (by omega) _ _
  | cons s ss ih =>
    rw [ArgVec.copied, ih (by omega)]
    exact update_of_ne (by omega) _ _

theorem ArgVec.copied_storage (h : x < userStrMax * i) : (v.copied i ss).storage x = v.storage x := by
  induction ss generalizing v i with
  | nil => rfl
  | cons s ss ih =>
    rw [ArgVec.copied, ih (by unfold userStrMax at h ⊢; omega)]
    exact v.storage.blit_apply_of_not_mem (by omega)

/-- **The copied vector** holds the strings. -/
theorem ArgVec.strings_copied (hnul : ∀ s ∈ ss, 0 ∉ s) (hlen : ∀ s ∈ ss, s.length + 1 ≤ userStrMax)
    (hk : k ≤ ss.length) : (v.copied i ss).strings path (i + k) = ss[k]? := by
  induction ss generalizing v i k with
  | nil =>
    obtain rfl : k = 0 := by simpa using hk
    simp [ArgVec.copied, ArgVec.strings, ArgVec.setPtr]
  | cons s ss ih =>
    obtain ⟨hs, hnul⟩ := forall_mem_cons.mp hnul
    obtain ⟨hfit, hlen⟩ := forall_mem_cons.mp hlen
    cases k with
    | zero =>
      -- the later copies leave the row and its pointer alone
      have hrow : (v.copied i (s :: ss)).out i = .row i := by
        rw [ArgVec.copied, ArgVec.copied_out (by omega)]
        exact update_self _ _ _
      have hbytes : (v.copied i (s :: ss)).storage.bytes (userStrMax * i) (s.length + 1) = s ++ [0] := by
        rw [ArgVec.copied, ByteMem.bytes_congr fun x hle hlt => ArgVec.copied_storage
          (by unfold userStrMax at hlt hfit ⊢; omega)]
        have hself := v.storage.bytes_blit_self (userStrMax * i) (s ++ [0])
        rwa [length_append] at hself
      rw [Nat.add_zero, ArgVec.strings, hrow, getElem?_cons_zero]
      exact congrArg some (stringAt_of_bytes hbytes hs hfit)
    | succ k =>
      rw [ArgVec.copied, getElem?_cons_succ, ← ih hnul hlen (by simpa using hk)]
      congr 1
      omega

/-- An empty vector is one that starts with NULL. -/
theorem ArgVec.copied_null : (v.copied 0 ss).out 0 = .null ↔ ss = [] := by
  cases ss with
  | nil => simp [ArgVec.copied, ArgVec.setPtr]
  | cons s ss =>
    rw [ArgVec.copied, ArgVec.copied_out (by omega)]
    simp [ArgVec.setPtr]

/-- Counting stops at the NULL. -/
theorem NullTerminated.vecCount {v : StrVec} (h : NullTerminated v ss) (hi : i ≤ ss.length)
    (hn : ss.length ≤ i + n) : vecCount v n i = ss.length := by
  induction n generalizing i with
  | zero => exact le_antisymm hi hn
  | succ n ih =>
    rw [Neptune.vecCount, h i hi]
    by_cases hlt : i < ss.length
    · rw [if_pos (by simp [hlt])]
      exact ih hlt (by omega)
    · rw [if_neg (by simp; omega)]
      omega

theorem NullTerminated.isNone {v : StrVec} (h : NullTerminated v ss) (hmax : ss.length ≤ max) :
    (v (Neptune.vecCount v max 0)).isNone := by
  rw [h.vecCount (Nat.zero_le _) (by omega), h _ le_rfl]
  simp

end

end Neptune
