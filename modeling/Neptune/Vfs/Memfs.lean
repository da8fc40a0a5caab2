import Mathlib.Data.List.Basic

/-!
# The files in the kernel image

`fs.c`: seven programs, found by their paths.

## Main definitions

* `streq` — the comparison of two strings.
* `memfsLookup` — `memfs_lookup`.

## Main results

* `streq_iff` — the comparison is equality.
-/

namespace Neptune

/-- The bytes of a string literal. -/
def ascii (s : String) : List UInt8 := s.toList.map fun c => c.toNat.toUInt8

/-- `streq`, on strings without their NULs. -/
def streq : List UInt8 → List UInt8 → Bool
  | a :: as, b :: bs => if a ≠ b then false else streq as bs
  -- one of the strings is at its NUL
  | as, bs => as.isEmpty && bs.isEmpty

theorem streq_iff (as bs : List UInt8) : streq as bs = true ↔ as = bs := by
  induction as generalizing bs with
  | nil => cases bs <;> simp [streq]
  | cons a as ih =>
    cases bs with
    | nil => simp [streq]
    | cons b bs =>
      by_cases hab : a = b
      · simp [streq, hab, ih]
      · simp [streq, hab]

/-- The paths of `memfs_files`. -/
def memfsPaths : List (List UInt8) :=
  [ascii "/bin/hello", ascii "/bin/shell", ascii "/bin/init", ascii "/bin/echo", ascii "/bin/ls",
    ascii "/bin/cat", ascii "/bin/fuzz"]

/-- `memfs_lookup`: the index of the file. -/
def memfsLookup (path : List UInt8) : Option ℕ := memfsPaths.findIdx? fun p => streq p path

end Neptune
