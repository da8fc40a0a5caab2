import Neptune.Syscall.Normalize

/-!
# The path normalisation of the VFS

`vfs_open` normalises the path that it is given once more, with a `normalize_path` of its own.  It
skips all slashes in front before the loop, where `syscall.c` skips one and leaves the others to the
loop, which takes them for empty components.

## Main definitions

* `vfsNormalizePath`, `wantDir` — `normalize_path` of `vfs.c`.

## Main results

* `normalize_paths_agree` — both functions do the same.
-/

namespace Neptune

/-- `normalize_path` of `vfs.c`: what it returns, and the buffer.  The loop is that of `syscall.c`. -/
def vfsNormalizePath (path : List UInt8) (outLen : ℕ) (out : ByteMem) : ℤ × ByteMem :=
  if outLen < 2 then (-1, out)
  else if path.head? ≠ some slash then (-1, out)
  else
    match PathBuf.loop outLen path.length (path.dropWhile (· = slash)) ⟨out.blit 0 [slash], 1⟩ with
    | .ok b => (0, b.finish)
    | .error b => (-1, b.out)

/-- What it stores in `out_dir`: the path ends with a slash. -/
def wantDir (path : List UInt8) : Bool := decide (1 < path.length) && path.getLast? == some slash

variable {path : List UInt8}

/-- The function takes the components of the path one after the other. -/
theorem vfsNormalizePath_eq (hpath : path.head? = some slash) (outLen : ℕ) (out : ByteMem) :
    vfsNormalizePath path outLen out = normalizePath path outLen out := by
  have hfuel : (path.dropWhile (· = slash)).length ≤ path.length :=
    (List.dropWhile_sublist _).length_le
  unfold vfsNormalizePath
  rw [normalizePath_eq, PathBuf.loop_eq hfuel, components_dropWhile]
  exact congrArg (fun r => if outLen < 2 then (-1, out) else r) (if_neg (not_not.mpr hpath))

/-- `normalize_path` returns 0 or -1. -/
theorem normalizePath_returns (path : List UInt8) (outLen : ℕ) (out : ByteMem) :
    (normalizePath path outLen out).1 = 0 ∨ (normalizePath path outLen out).1 = -1 := by
  rw [normalizePath_eq]
  split
  · exact .inr rfl
  · split
    · exact .inl rfl
    · exact .inr rfl

/-- **The two path normalisers agree**: on an absolute path both return -1, or both return 0 and leave
the same bytes in the buffer. -/
theorem normalize_paths_agree (hpath : path.head? = some slash) (outLen : ℕ) (out : ByteMem) :
    (normalizePath path outLen out).1 = -1 ∧ (vfsNormalizePath path outLen out).1 = -1 ∨
    (normalizePath path outLen out).1 = 0 ∧ (vfsNormalizePath path outLen out).1 = 0 ∧
      (normalizePath path outLen out).2 = (vfsNormalizePath path outLen out).2 := by
  rw [vfsNormalizePath_eq hpath]
  rcases normalizePath_returns path outLen out with hok | hfail
  · exact .inr ⟨hok, hok, rfl⟩
  · exact .inl ⟨hfail, hfail⟩

/-- `///a` in a buffer of three bytes. -/
theorem normalize_paths_agree_sample :
    (normalizePath [slash, slash, slash, 97] 3 fun _ => 0).1 = -1 ∧
      (vfsNormalizePath [slash, slash, slash, 97] 3 fun _ => 0).1 = -1 ∨
    (normalizePath [slash, slash, slash, 97] 3 fun _ => 0).1 = 0 ∧
      (vfsNormalizePath [slash, slash, slash, 97] 3 fun _ => 0).1 = 0 ∧
      (normalizePath [slash, slash, slash, 97] 3 fun _ => 0).2 =
        (vfsNormalizePath [slash, slash, slash, 97] 3 fun _ => 0).2 :=
  normalize_paths_agree rfl 3 fun _ => 0

end Neptune
