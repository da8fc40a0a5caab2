import Neptune.Syscall.Resolve
import Neptune.Vfs.Memfs
import Neptune.Vfs.Normalize

/-!
# Where a path leads

`vfs_open` normalises a path and sends it to one of four backends.  A path below `/disk/` is opened as
a file, or made a directory and opened as one if the path that `vfs_open` was given ends with a slash.
That path has been normalised by `resolve_path` before, which takes the slash at the end of a path
away, and leaves one at the end of a path that goes up.

## Main definitions

* `vfsRoute` — the branches of `vfs_open`.
* `UserMem.openRoute` — the branches of `SYSCALL_OPEN`.

## Main results

* `vfsRoute_below_disk` — the branch of a path below `/disk/`.
* `open_trailing_slash_iff` — when a slash at the end asks for a directory.
-/

namespace Neptune

open List

/-- `VFS_LIST_PATH_MAX`. -/
def vfsListPathMax : ℕ := 64

/-- `VFS_PATH_MAX`. -/
def vfsPathMax : ℕ := 128

/-- `starts_with`. -/
def startsWith : List UInt8 → List UInt8 → Bool
  | _, [] => true
  | [], _ :: _ => false
  | c :: s, d :: p => if c ≠ d then false else startsWith s p

/-- `copy_trimmed`: the path without the slashes at its end. -/
def copyTrimmed (src : List UInt8) (dstLen : ℕ) : Option (List UInt8) :=
  let trimmed := (src.reverse.dropWhile (· = slash)).reverse
  if trimmed.length = 0 ∨ trimmed.length + 1 > dstLen then none else some trimmed

/-- What `vfs_open` comes to. -/
inductive VfsRoute
  /-- `SYSCALL_EINVAL`. -/
  | invalid
  /-- `SYSCALL_ENOENT`. -/
  | noEntry
  /-- A list of the files, below a path. -/
  | list (path : List UInt8)
  | memfs (file : ℕ)
  /-- `fat_mkdir` and `fat_open_dir`. -/
  | fatDir (path : List UInt8)
  /-- `fat_open`, or else `fat_create`. -/
  | fatFile (path : List UInt8)
  /-- `ramfs_open`. -/
  | ramfs (path : List UInt8)
  deriving DecidableEq, Repr

/-- The branches for `/dev/ls`, with what stands behind it. -/
def listRoute (suffix : List UInt8) (out : ByteMem) : VfsRoute :=
  if suffix ≠ [] ∧ suffix.head? ≠ some slash then .invalid
  else if suffix.head? = some slash ∧ suffix.tail ≠ [] then
    match vfsNormalizePath suffix vfsListPathMax out with
    | (0, buf) => .list (cString buf vfsListPathMax)
    | _ => .invalid
  else .list []

/-- The branches for a path that is normalised, with what was found out about its end. -/
def pathRoute (path : List UInt8) (dir : Bool) : VfsRoute :=
  match memfsLookup path with
  | some file => .memfs file
  | none =>
    if startsWith path (ascii "/disk/") then
      if dir then
        match copyTrimmed (path.drop 6) vfsListPathMax with
        | none => .invalid
        | some trimmed => .fatDir trimmed
      else .fatFile (path.drop 6)
    else if startsWith path (ascii "/bin") then .noEntry
    else .ramfs path

/-- `vfs_open` as far as the branches go; `out` is what is in its buffers. -/
def vfsRoute (path : List UInt8) (out : ByteMem) : VfsRoute :=
  if path.head? ≠ some slash then .invalid
  else if startsWith path (ascii "/dev/ls") then listRoute (path.drop 7) out
  else
    match vfsNormalizePath path vfsPathMax out with
    | (0, buf) => pathRoute (cString buf vfsPathMax) (wantDir path)
    | _ => .invalid

/-- What `SYSCALL_OPEN` comes to. -/
inductive OpenRoute
  /-- `SYSCALL_EINVAL`. -/
  | invalid
  | tty
  | vfs (route : VfsRoute)
  deriving DecidableEq, Repr

/-- `SYSCALL_OPEN` as far as the branches go. -/
def UserMem.openRoute (u : UserMem) (cwd : List UInt8) (user : ℕ) (out : ByteMem) :
    Option OpenRoute := do
  let (r, buf) ← u.resolvePath cwd user userPathMax out
  if r ≠ 0 then return .invalid
  let path := cString buf userPathMax
  if streq path (ascii "/dev/tty") || streq path (ascii "/dev/console") then return .tty
  return .vfs (vfsRoute path out)

variable {u : UserMem} {cwd path s p : List UInt8} {user : ℕ} {out buf : ByteMem}
  {st : List (List UInt8)}

theorem startsWith_iff : startsWith s p = true ↔ p <+: s := by
  induction p generalizing s with
  | nil => cases s <;> simp [startsWith]
  | cons d p ih =>
    cases s with
    | nil => simp [startsWith]
    | cons c s =>
      rw [startsWith, cons_prefix_cons]
      by_cases hcd : c = d
      · simp [hcd, ih]
      · simp [hcd, Ne.symm hcd]

/-- The programs are all below `/bin`. -/
theorem memfsLookup_of_not_bin (h : startsWith path (ascii "/bin") = false) :
    memfsLookup path = none := by
  have hbin : ∀ p ∈ memfsPaths, startsWith p (ascii "/bin") = true := by decide
  rw [memfsLookup, findIdx?_eq_none_iff]
  intro p hp
  by_contra heq
  rw [Bool.not_eq_false, streq_iff] at heq
  rw [← heq, hbin p hp] at h
  cases h

/-! ### A path that has been normalised once -/

/-- The string that `resolve_path` leaves: names, and a slash that may be left behind them. -/
def leftText (st : List (List UInt8)) (up : Bool) : List UInt8 :=
  pathText slash st ++ if up then [slash] else []

theorem components_leftText (hst : ∀ c ∈ st, PathBuf.IsName c) (up : Bool) :
    components slash (leftText st up) = st := by
  cases up with
  | false =>
    rw [leftText, if_neg (by decide), append_nil]
    exact components_pathText hst
  | true =>
    rw [leftText, if_pos rfl, components_append_sep]
    exact components_pathText hst

theorem nul_notMem_leftText (hst : ∀ c ∈ st, PathBuf.IsName c) (up : Bool) : 0 ∉ leftText st up := by
  rw [leftText, mem_append, not_or]
  refine ⟨nul_notMem_pathText hst, ?_⟩
  cases up with
  | false => exact not_mem_nil
  | true => decide

theorem head_pathText (st : List (List UInt8)) : (pathText slash st).head? = some slash := by
  cases st with
  | nil => rfl
  | cons c st => rfl

theorem head_leftText (st : List (List UInt8)) (up : Bool) :
    (leftText st up).head? = some slash := by
  rw [leftText, head?_append, head_pathText]
  rfl

theorem pathText_ne_root (hst : ∀ c ∈ st, PathBuf.IsName c) (hne : st ≠ []) :
    pathText slash st ≠ [slash] := by
  intro hroot
  have hcomps := components_pathText hst
  rw [hroot] at hcomps
  exact hne (hcomps.symm.trans (by decide))

/-- The second normalisation finds the slash that the first one left. -/
theorem wantDir_leftText (hst : ∀ c ∈ st, PathBuf.IsName c) (hne : st ≠ []) (up : Bool) :
    wantDir (leftText st up) = up := by
  cases up with
  | false =>
    rw [leftText, if_neg (by decide), append_nil, wantDir]
    have hlast := last_pathText hst (pathText_ne_root hst hne)
    rw [beq_eq_false_iff_ne.mpr hlast, Bool.and_false]
  | true =>
    have hlen : 0 < (pathText slash st).length := by
      rw [length_pos_iff]
      intro hnil
      have hhead := head_pathText st
      rw [hnil] at hhead
      cases hhead
    rw [leftText, if_pos rfl, wantDir, getLast?_concat, length_append, length_singleton,
      decide_eq_true (by omega)]
    decide

/-- **The branch of a path that has been normalised once** is that of the path without the slash. -/
theorem vfsRoute_leftText (hst : ∀ c ∈ st, PathBuf.IsName c) (hne : st ≠ [])
    (hfit : PathBuf.need st ≤ vfsPathMax) {up : Bool}
    (hls : startsWith (leftText st up) (ascii "/dev/ls") = false) (out : ByteMem) :
    vfsRoute (leftText st up) out = pathRoute (pathText slash st) up := by
  have hhead := head_leftText st up
  obtain ⟨hok, htext⟩ := normalized_of_names (nul_notMem_leftText hst up)
    (components_leftText hst up) hst (by decide) hfit out
  rw [normalized, ← vfsNormalizePath_eq hhead] at htext
  rw [← vfsNormalizePath_eq hhead] at hok
  rw [vfsRoute, if_neg (not_not.mpr hhead), hls, if_neg (by decide)]
  cases hrun : vfsNormalizePath (leftText st up) vfsPathMax out with
  | mk r buf =>
    rw [hrun] at hok htext
    dsimp only at hok htext
    subst hok
    show pathRoute (cString buf vfsPathMax) _ = _
    rw [htext, wantDir_leftText hst hne]

/-! ### Below `/disk/` -/

/-- A directory of the volume, with the names that lead to it. -/
def disk : List UInt8 := ascii "disk"

theorem pathText_disk (c : List UInt8) (rest : List (List UInt8)) :
    pathText slash (disk :: c :: rest) = ascii "/disk/" ++ (c ++ flatPath slash rest) := by
  have hdisk : ascii "/disk/" = slash :: disk ++ [slash] := by decide
  rw [hdisk]
  simp [pathText, flatPath]

/-- A path below `/disk/` is not trimmed any more. -/
theorem copyTrimmed_self (hlast : s.getLast? ≠ some slash) (hne : s ≠ [])
    (hlen : s.length + 1 ≤ vfsListPathMax) : copyTrimmed s vfsListPathMax = some s := by
  have hkeep : s.reverse.dropWhile (· = slash) = s.reverse := by
    cases hrev : s.reverse with
    | nil => rfl
    | cons x xs =>
      rw [dropWhile_cons_of_neg]
      intro hx
      apply hlast
      rw [← head?_reverse, hrev, head?_cons, of_decide_eq_true hx]
  have hpos : s.length ≠ 0 := fun hz => hne (length_eq_zero_iff.mp hz)
  rw [copyTrimmed, hkeep, reverse_reverse]
  exact if_neg (by omega)

/-- **The branch of a path below `/disk/`.** -/
theorem vfsRoute_below_disk {c : List UInt8} {rest : List (List UInt8)}
    (hst : ∀ c' ∈ disk :: c :: rest, PathBuf.IsName c')
    (hfit : PathBuf.need (disk :: c :: rest) ≤ userPathMax) (up : Bool) (out : ByteMem) :
    vfsRoute (leftText (disk :: c :: rest) up) out =
      if up then .fatDir (c ++ flatPath slash rest) else .fatFile (c ++ flatPath slash rest) := by
  have htext := pathText_disk c rest
  have hls : startsWith (leftText (disk :: c :: rest) up) (ascii "/dev/ls") = false := by
    rw [leftText, htext]
    rfl
  have hbin : startsWith (pathText slash (disk :: c :: rest)) (ascii "/bin") = false := by
    rw [htext]
    rfl
  have hdisk : startsWith (pathText slash (disk :: c :: rest)) (ascii "/disk/") = true := by
    rw [htext, startsWith_iff]
    exact List.prefix_append _ _
  have hdrop : (pathText slash (disk :: c :: rest)).drop 6 = c ++ flatPath slash rest := by
    rw [htext]
    rfl
  rw [vfsRoute_leftText hst nofun (hfit.trans (by decide)) hls, pathRoute, memfsLookup_of_not_bin hbin]
  dsimp only
  rw [if_pos hdisk, hdrop]
  cases up with
  | false => rfl
  | true =>
    have hne : c ++ flatPath slash rest ≠ [] := by
      intro hnil
      exact (hst c (by simp)).ne_nil (append_eq_nil_iff.mp hnil).1
    have hlast : (c ++ flatPath slash rest).getLast? ≠ some slash := by
      have hend := last_pathText hst (pathText_ne_root hst nofun)
      rwa [htext, getLast?_append_of_ne_nil _ hne] at hend
    have hlen : (c ++ flatPath slash rest).length + 1 ≤ vfsListPathMax := by
      rw [PathBuf.need, htext, length_append] at hfit
      have hmax : userPathMax = vfsListPathMax := rfl
      omega
    rw [if_pos rfl, copyTrimmed_self hlast hne hlen]
    rfl

/-! ### `SYSCALL_OPEN` -/

/-- The path leads to a place strictly below `/disk/`. -/
def BelowDisk (cwd path : List UInt8) : Prop :=
  ∃ c rest, resolve (components slash (fullPath cwd path)) = disk :: c :: rest

/-- A path below `/disk/` is made a directory if it goes up at its end, and opened as a file if it does
not. -/
theorem UserMem.openRoute_below_disk {c : List UInt8} {rest : List (List UInt8)}
    (huser : user < 2 ^ 64) (hcwd : 0 ∉ cwd) (hstr : u.Str user path)
    (hres : u.resolvePath cwd user userPathMax out = some (0, buf))
    (hbelow : resolve (components slash (fullPath cwd path)) = disk :: c :: rest) :
    u.openRoute cwd user out = some (.vfs
      (if EndsUp (fullPath cwd path) then .fatDir (c ++ flatPath slash rest)
      else .fatFile (c ++ flatPath slash rest))) := by
  obtain ⟨path', hstr', hnorm⟩ := UserMem.resolvePath_ok huser hres
  obtain rfl : path' = path := hstr'.unique hstr
  have hnul := nul_notMem_fullPath hcwd hstr.nul_notMem
  have hok : (normalizePath (fullPath cwd path') userPathMax out).1 = 0 := by rw [hnorm]
  obtain ⟨hneed, hnames, htext⟩ := normalized_of_ok hnul (by decide) hok
  have hfit : PathBuf.need (disk :: c :: rest) ≤ userPathMax := by
    have hall := hneed (components slash (fullPath cwd path')).length
    rwa [needAfter, take_length, hbelow] at hall
  rw [hbelow] at hnames
  -- the slash at the end is left exactly if the path goes up
  have hleft : cString buf userPathMax =
      leftText (disk :: c :: rest) (decide (EndsUp (fullPath cwd path'))) := by
    have hleaves : LeavesSlash (fullPath cwd path') ↔ EndsUp (fullPath cwd path') := by
      rw [LeavesSlash, hbelow]
      exact and_iff_right (by rintro ⟨⟩)
    rw [normalized, hnorm, hbelow] at htext
    rw [htext, leftText]
    simp only [hleaves, decide_eq_true_eq]
  have htty : (streq (cString buf userPathMax) (ascii "/dev/tty") ||
      streq (cString buf userPathMax) (ascii "/dev/console")) = false := by
    rw [hleft, leftText, pathText_disk]
    rfl
  rw [UserMem.openRoute, hres, Option.bind_eq_bind, Option.bind_some]
  dsimp only
  rw [if_neg (by decide), htty, if_neg (by decide), hleft, vfsRoute_below_disk hnames hfit]
  simp only [decide_eq_true_eq]
  rfl

/-- A slash at the end asks for a directory, and no slash for a file. -/
def SlashMeansDir (route : Option OpenRoute) (path : List UInt8) : Prop :=
  ((∃ p, route = some (.vfs (.fatDir p))) ↔ path.getLast? = some slash) ∧
    (path.getLast? ≠ some slash → ∃ p, route = some (.vfs (.fatFile p)))

/-- **A slash at the end of a path below `/disk/`** asks for a directory exactly where the paths that end
with a slash are those that go up at their end. -/
theorem open_trailing_slash_iff (huser : user < 2 ^ 64) (hcwd : 0 ∉ cwd) (hstr : u.Str user path)
    (hres : u.resolvePath cwd user userPathMax out = some (0, buf)) (hbelow : BelowDisk cwd path) :
    SlashMeansDir (u.openRoute cwd user out) path ↔
      (path.getLast? = some slash ↔ EndsUp (fullPath cwd path)) := by
  obtain ⟨c, rest, hbelow⟩ := hbelow
  rw [UserMem.openRoute_below_disk huser hcwd hstr hres hbelow]
  unfold SlashMeansDir
  by_cases hup : EndsUp (fullPath cwd path)
  · rw [if_pos hup]
    constructor
    · intro h
      exact iff_of_true (h.1.mp ⟨_, rfl⟩) hup
    · intro h
      exact ⟨iff_of_true ⟨_, rfl⟩ (h.mpr hup), fun hno => absurd (h.mpr hup) hno⟩
  · rw [if_neg hup]
    have hfile : ¬∃ p, some (OpenRoute.vfs (.fatFile (c ++ flatPath slash rest))) =
        some (.vfs (.fatDir p)) := by
      rintro ⟨p, hp⟩
      cases hp
    constructor
    · intro h
      exact iff_of_false (fun hslash => hfile (h.1.mpr hslash)) hup
    · intro h
      have hslash : path.getLast? ≠ some slash := fun hslash => hup (h.mp hslash)
      exact ⟨iff_of_false hfile hslash, fun _ => ⟨_, rfl⟩⟩

/-- A caller with a string at the beginning of its memory, all of which can be read. -/
def stringMem (s : List UInt8) : UserMem where
  ptrRange ptr len := some (decide (ptr + len ≤ Phys.userStackTop))
  byte := ByteMem.blit (fun _ => 0) Phys.userBase (s ++ [0])
  below _ _ h := of_decide_eq_true (Option.some.inj h)

/-- The path `a` in the working directory `/disk`. -/
theorem open_trailing_slash_file :
    SlashMeansDir ((stringMem (ascii "a")).openRoute (ascii "/disk") Phys.userBase fun _ => 0)
      (ascii "a") := by
  have hrun : ((stringMem (ascii "a")).resolvePath (ascii "/disk") Phys.userBase userPathMax
      fun _ => 0).map Prod.fst = some 0 := by decide +kernel
  obtain ⟨⟨r, buf⟩, hres, rfl⟩ := Option.map_eq_some_iff.mp hrun
  refine (open_trailing_slash_iff (by decide) (by decide) (by decide +kernel) hres
    ⟨ascii "a", [], by decide⟩).mpr (by decide)

/-- **A slash is lost**: `/disk/a/` is opened as a file, and a directory is made for `/disk/a/b/..`. -/
theorem open_trailing_slash_lost :
    BelowDisk (ascii "/") (ascii "/disk/a/") ∧ BelowDisk (ascii "/") (ascii "/disk/a/b/..") ∧
    (stringMem (ascii "/disk/a/")).openRoute (ascii "/") Phys.userBase (fun _ => 0) =
      some (.vfs (.fatFile (ascii "a"))) ∧
    (stringMem (ascii "/disk/a/b/..")).openRoute (ascii "/") Phys.userBase (fun _ => 0) =
      some (.vfs (.fatDir (ascii "a"))) :=
  ⟨⟨ascii "a", [], by decide⟩, ⟨ascii "a", [], by decide⟩, by decide +kernel⟩

end Neptune
