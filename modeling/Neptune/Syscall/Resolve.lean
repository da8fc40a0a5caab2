import Neptune.Syscall.Canonical
import Neptune.User.Launch

/-!
# Paths of the caller

`resolve_path` copies a path from the memory of the caller, puts the working directory in front of it
unless it begins with a slash, and normalises it.

## Main definitions

* `joinCwd`, `fullPath` — the path that is normalised.
* `UserMem.resolvePath` — `resolve_path`.

## Main results

* `UserMem.resolvePath_ok` — what is left in the buffer.
-/

namespace Neptune

open Option

/-- The size of `temp` and `cwd`. -/
def resolveMax : ℕ := 256

/-- The working directory and a path, with a slash between them. -/
def joinCwd (cwd path : List UInt8) : List UInt8 :=
  cwd ++ (if cwd ≠ [] ∧ cwd.getLast? ≠ some slash then [slash] else []) ++ path

/-- `resolve_path`, with the working directory of the caller. -/
def UserMem.resolvePath (u : UserMem) (cwd : List UInt8) (user outLen : ℕ) (out : ByteMem) :
    Option (ℤ × ByteMem) :=
  if user = 0 ∨ outLen = 0 then some (-1, out)
  else do
    let ok ← u.ptrRange user 1
    if !ok then return (-1, out)
    let (r, temp) ← u.strCopy user 0 resolveMax fun _ => 0
    if r ≠ 0 then return (-1, out)
    let path := stringAt temp 0 resolveMax
    if path.head? = some slash then return normalizePath path outLen out
    if cwd.length + 1 + path.length ≥ resolveMax then return (-1, out)
    return normalizePath (joinCwd cwd path) outLen out

/-- The path that is normalised. -/
def fullPath (cwd path : List UInt8) : List UInt8 :=
  if path.head? = some slash then path else joinCwd cwd path

variable {u : UserMem} {cwd path : List UInt8} {user outLen : ℕ} {out buf : ByteMem}

theorem nul_notMem_fullPath (hcwd : 0 ∉ cwd) (hpath : 0 ∉ path) : 0 ∉ fullPath cwd path := by
  unfold fullPath joinCwd
  split
  · exact hpath
  · rw [List.mem_append, List.mem_append]
    rintro ((hmem | hmem) | hmem)
    · exact hcwd hmem
    · split at hmem
      · exact absurd (List.mem_singleton.mp hmem) (by decide)
      · cases hmem
    · exact hpath hmem

/-- A path that resolves is a string of the caller, and its full path is normalised. -/
theorem UserMem.resolvePath_ok (huser : user < 2 ^ 64)
    (h : u.resolvePath cwd user outLen out = some (0, buf)) :
    ∃ path, u.Str user path ∧ normalizePath (fullPath cwd path) outLen out = (0, buf) := by
  rw [UserMem.resolvePath] at h
  split at h
  · exact absurd (Prod.mk.inj (some.inj h)).1 (by decide)
  next hnull =>
  rw [not_or] at hnull
  obtain ⟨ok, -, h⟩ := bind_eq_some_iff.mp h
  split at h
  · exact absurd (Prod.mk.inj (some.inj h)).1 (by decide)
  obtain ⟨⟨r, temp⟩, hcopy, h⟩ := bind_eq_some_iff.mp h
  dsimp only at h
  split at h
  · exact absurd (Prod.mk.inj (some.inj h)).1 (by decide)
  next hr =>
  obtain rfl : r = 0 := not_not.mp hr
  obtain ⟨path, hstr, hlen, rfl⟩ := (UserMem.strCopy_ok_iff huser hnull.1).mp hcopy
  -- the copy is the string
  have htemp : stringAt (ByteMem.blit (fun _ => 0) 0 (path ++ [0])) 0 resolveMax = path := by
    refine stringAt_of_bytes ?_ hstr.nul_notMem (by omega)
    have hself := ByteMem.bytes_blit_self (fun _ => 0) 0 (path ++ [0])
    rwa [List.length_append] at hself
  rw [htemp] at h
  refine ⟨path, hstr, ?_⟩
  unfold fullPath
  split at h
  · next hslash =>
    rw [if_pos hslash]
    exact some.inj h
  · next hslash =>
    rw [if_neg hslash]
    split at h
    · exact absurd (Prod.mk.inj (some.inj h)).1 (by decide)
    · exact some.inj h

end Neptune
