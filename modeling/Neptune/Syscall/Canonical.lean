import Neptune.Syscall.Normalize

/-!
# Spellings of a path

`normalize_path` resolves every spelling of a path to the same components, but `..` leaves a separator
behind in the buffer: a path whose last step goes up, other than to the root, is normalised to a
string with a slash at its end, and normalising that string once more takes it away.

## Main definitions

* `EndsUp` — the last component of a path that does something is `..`.
* `LeavesSlash` — the output ends with a slash that it should not have.
* `Canonical` — the output of a path is its own normal form.

## Main results

* `normalizePath_spec` — the output, byte for byte.
* `normalize_canonical_iff` — when two spellings have one canonical output.
-/

namespace Neptune

open List

variable {path p q : List UInt8} {outLen : ℕ} {out : ByteMem} {st comps : List (List UInt8)}

/-- The last component of the path that is not `.` is `..`. -/
def EndsUp (path : List UInt8) : Prop :=
  ((components slash path).filter (· ≠ [dot])).getLast? = some [dot, dot]

/-- The path goes up at its end, but not to the root. -/
def LeavesSlash (path : List UInt8) : Prop := resolve (components slash path) ≠ [] ∧ EndsUp path

instance (path : List UInt8) : Decidable (EndsUp path) := inferInstanceAs (Decidable (_ = _))

instance (path : List UInt8) : Decidable (LeavesSlash path) := inferInstanceAs (Decidable (_ ∧ _))

/-! ### The output -/

/-- What the steps leave behind the stack is decided by the last one that does something. -/
theorem foldl_upStep (comps : List (List UInt8)) (up : Bool) :
    comps.foldl PathBuf.upStep up =
      ((comps.filter (· ≠ [dot])).getLast?.map fun c => decide (c = [dot, dot])).getD up := by
  induction comps generalizing up with
  | nil => rfl
  | cons c comps ih =>
    rw [foldl_cons, ih, PathBuf.upStep]
    by_cases hdot : c = [dot]
    · rw [if_pos hdot, filter_cons_of_neg (by simpa using hdot)]
    · rw [if_neg hdot, filter_cons_of_pos (by simpa using hdot), getLast?_cons]
      cases (comps.filter (· ≠ [dot])).getLast? <;> rfl

/-- The components `.` do nothing. -/
theorem resolve_filter (comps : List (List UInt8)) :
    resolve comps = resolve (comps.filter (· ≠ [dot])) := by
  suffices h : ∀ st, comps.foldl (resolveStep [dot] [dot, dot]) st =
      (comps.filter (· ≠ [dot])).foldl (resolveStep [dot] [dot, dot]) st from h []
  induction comps with
  | nil => exact fun _ => rfl
  | cons c comps ih =>
    intro st
    by_cases hdot : c = [dot]
    · rw [filter_cons_of_neg (by simpa using hdot), foldl_cons, resolveStep, if_pos hdot, ih]
    · rw [filter_cons_of_pos (by simpa using hdot), foldl_cons, foldl_cons, ih]

/-- The string of a stack, with the slash that may be left. -/
theorem flatPath_upStep (path : List UInt8) :
    flatPath slash (resolve (components slash path)) ++
        (if (components slash path).foldl PathBuf.upStep true then [slash] else []) =
      pathText slash (resolve (components slash path)) ++ if LeavesSlash path then [slash] else [] := by
  have hup := foldl_upStep (components slash path) true
  cases hlast : ((components slash path).filter (· ≠ [dot])).getLast? with
  | none =>
    have hnil : resolve (components slash path) = [] := by
      rw [resolve_filter, getLast?_eq_none_iff.mp hlast]
      rfl
    have hleaves : ¬LeavesSlash path := fun h => h.1 hnil
    rw [hup, hlast, hnil, if_neg hleaves]
    rfl
  | some c =>
    rw [hup, hlast]
    by_cases hdotdot : c = [dot, dot]
    · have hends : EndsUp path := by rw [EndsUp, hlast, hdotdot]
      cases hst : resolve (components slash path) with
      | nil =>
        have hleaves : ¬LeavesSlash path := fun h => h.1 hst
        rw [if_neg hleaves, if_pos (by simpa using hdotdot)]
        rfl
      | cons c' st =>
        have hleaves : LeavesSlash path := ⟨by rw [hst]; nofun, hends⟩
        rw [if_pos hleaves, if_pos (by simpa using hdotdot)]
        rfl
    · -- the last step puts a name on the stack
      have hdot : c ≠ [dot] := by
        have hmem := mem_of_getLast? hlast
        simpa using (mem_filter.mp hmem).2
      have hends : ¬LeavesSlash path := by
        rintro ⟨-, hends⟩
        exact hdotdot (Option.some.inj (hlast.symm.trans hends))
      have hst : resolve (components slash path) ≠ [] := by
        obtain ⟨init, hinit⟩ := getLast?_eq_some_iff.mp hlast
        rw [resolve_filter, hinit, resolve, foldl_append, foldl_cons, foldl_nil,
          resolveStep, if_neg hdot, if_neg hdotdot]
        simp
      obtain ⟨c', st, hst⟩ := exists_cons_of_ne_nil hst
      rw [if_neg hends, if_neg (by simpa using hdotdot), hst]
      rfl

/-- The bytes of the path after some of the components. -/
abbrev needAfter (path : List UInt8) (k : ℕ) : ℕ :=
  PathBuf.need (resolve ((components slash path).take k))

/-- **What `normalize_path` leaves in its buffer**, and when it returns -1. -/
theorem normalizePath_spec (hnul : 0 ∉ path) (hlen : 2 ≤ outLen) (out : ByteMem) :
    ((∀ k, needAfter path k ≤ outLen) ∧ (normalizePath path outLen out).1 = 0 ∧
      (∀ c ∈ resolve (components slash path), PathBuf.IsName c) ∧
      cString (normalizePath path outLen out).2 outLen =
        pathText slash (resolve (components slash path)) ++
          if LeavesSlash path then [slash] else []) ∨
    (∃ k ≤ (components slash path).length, outLen < needAfter path k) ∧
      (normalizePath path outLen out).1 = -1 := by
  have hloop := (PathBuf.spells_root hlen out).foldlM (isComponent_of_mem hnul)
  rw [normalizePath_eq, if_neg (by omega), ← flatPath_upStep]
  cases hres : (components slash path).foldlM (fun b c => PathBuf.component b outLen c)
      ⟨out.blit 0 [slash], 1⟩ with
  | error b =>
    rw [hres] at hloop
    exact Or.inr ⟨hloop.1, rfl⟩
  | ok b =>
    rw [hres] at hloop
    obtain ⟨⟨hshows, htext⟩, hneed⟩ := hloop
    exact Or.inl ⟨hneed, rfl, hshows.names, hshows.finish.2.1.trans htext⟩

/-- The output as a string. -/
abbrev normalized (path : List UInt8) (outLen : ℕ) (out : ByteMem) : List UInt8 :=
  cString (normalizePath path outLen out).2 outLen

theorem normalized_of_ok (hnul : 0 ∉ path) (hlen : 2 ≤ outLen)
    (hok : (normalizePath path outLen out).1 = 0) :
    (∀ k, needAfter path k ≤ outLen) ∧
    (∀ c ∈ resolve (components slash path), PathBuf.IsName c) ∧
    normalized path outLen out = pathText slash (resolve (components slash path)) ++
      if LeavesSlash path then [slash] else [] := by
  rcases normalizePath_spec hnul hlen out with ⟨hneed, -, hnames, htext⟩ | ⟨-, hfail⟩
  · exact ⟨hneed, hnames, htext⟩
  · rw [hok] at hfail
    cases hfail

/-! ### Normal forms -/

/-- The names of a stack are resolved to the stack. -/
theorem resolve_names (hst : ∀ c ∈ st, PathBuf.IsName c) : resolve st = st := by
  suffices h : ∀ st', st.foldl (resolveStep [dot] [dot, dot]) st' = st' ++ st from h []
  induction st with
  | nil => exact fun st' => (append_nil st').symm
  | cons c st ih =>
    intro st'
    obtain ⟨hc, hst⟩ := forall_mem_cons.mp hst
    rw [foldl_cons, resolveStep, if_neg hc.ne_dot, if_neg hc.ne_dotdot, ih hst, append_assoc]
    rfl

/-- The components of the path that a stack spells. -/
theorem components_pathText (hst : ∀ c ∈ st, PathBuf.IsName c) :
    components slash (pathText slash st) = st := by
  cases st with
  | nil => exact (components_cons_sep []).trans (components_nil slash)
  | cons c st =>
    have hsplit := splitOn_append_flatPath (c := []) (fun x hx => (hst x hx).slash) not_mem_nil
    rw [nil_append] at hsplit
    have hkeep : (c :: st).filter (· ≠ []) = c :: st :=
      filter_eq_self.mpr fun x hx => decide_eq_true (hst x hx).ne_nil
    rw [components, pathText, hsplit, filter_cons_of_neg (by simp), hkeep]
    rintro ⟨⟩

theorem nul_notMem_pathText (hst : ∀ c ∈ st, PathBuf.IsName c) : 0 ∉ pathText slash st := by
  cases st with
  | nil => decide
  | cons c st => exact PathBuf.nul_notMem_flatPath hst

/-- A path of names only does not go up. -/
theorem not_leavesSlash_pathText (hst : ∀ c ∈ st, PathBuf.IsName c) :
    ¬LeavesSlash (pathText slash st) := by
  rintro ⟨-, hends⟩
  rw [EndsUp, components_pathText hst] at hends
  exact (hst _ (mem_filter.mp (mem_of_getLast? hends)).1).ne_dotdot rfl

theorem need_mono (st st' : List (List UInt8)) : PathBuf.need st ≤ PathBuf.need (st ++ st') := by
  cases st with
  | nil =>
    cases st' with
    | nil => exact le_rfl
    | cons c st' => simp [PathBuf.need, pathText, flatPath]
  | cons c st =>
    rw [PathBuf.need_eq (by simp), PathBuf.need_eq (by simp), flatPath_append, length_append]
    omega

/-- A path of names is normalised to the path that they spell. -/
theorem normalized_of_names (hnul : 0 ∉ path) (hcomps : components slash path = st)
    (hst : ∀ c ∈ st, PathBuf.IsName c) (hlen : 2 ≤ outLen) (hfit : PathBuf.need st ≤ outLen)
    (out : ByteMem) :
    (normalizePath path outLen out).1 = 0 ∧ normalized path outLen out = pathText slash st := by
  rcases normalizePath_spec hnul hlen out with ⟨-, hok, -, htext⟩ | ⟨⟨k, -, hover⟩, -⟩
  · have hleaves : ¬LeavesSlash path := by
      have hnames := not_leavesSlash_pathText hst
      rwa [LeavesSlash, EndsUp, components_pathText hst, ← hcomps] at hnames
    rw [hcomps, resolve_names hst, if_neg hleaves, append_nil] at htext
    exact ⟨hok, htext⟩
  · rw [needAfter, hcomps, resolve_names fun c hc => hst c (mem_of_mem_take hc)] at hover
    have hmono := need_mono (st.take k) (st.drop k)
    rw [take_append_drop] at hmono
    omega

/-- The path that a stack spells is its own normal form. -/
theorem normalized_pathText (hst : ∀ c ∈ st, PathBuf.IsName c) (hlen : 2 ≤ outLen)
    (hfit : PathBuf.need st ≤ outLen) (out : ByteMem) :
    (normalizePath (pathText slash st) outLen out).1 = 0 ∧
      normalized (pathText slash st) outLen out = pathText slash st :=
  normalized_of_names (nul_notMem_pathText hst) (components_pathText hst) hst hlen hfit out

/-- The output of a path that leaves no slash. -/
theorem last_pathText (hst : ∀ c ∈ st, PathBuf.IsName c) (hne : pathText slash st ≠ [slash]) :
    (pathText slash st).getLast? ≠ some slash := by
  rcases eq_nil_or_concat st with rfl | ⟨st, c, rfl⟩
  · exact absurd rfl hne
  · rw [concat_eq_append] at hst ⊢
    have hname := hst c (by simp)
    have htext : pathText slash (st ++ [c]) = flatPath slash st ++ slash :: c := by
      cases st <;> simp [pathText, flatPath]
    obtain ⟨c', y, rfl⟩ := (eq_nil_or_concat c).resolve_left hname.ne_nil
    rw [htext, concat_eq_append, ← cons_append, ← append_assoc, getLast?_concat]
    intro hy
    exact hname.slash (by simp [Option.some.inj hy])

/-- The output of a path is normalised to itself, and has no slash at its end unless it is "/". -/
def Canonical (path : List UInt8) (outLen : ℕ) (out : ByteMem) : Prop :=
  (∀ out', (normalizePath (normalized path outLen out) outLen out').1 = 0 ∧
    normalized (normalized path outLen out) outLen out' = normalized path outLen out) ∧
  (normalized path outLen out ≠ [slash] → (normalized path outLen out).getLast? ≠ some slash)

/-- A path has a canonical output exactly if it leaves no slash. -/
theorem canonical_iff (hnul : 0 ∉ path) (hlen : 2 ≤ outLen)
    (hok : (normalizePath path outLen out).1 = 0) :
    Canonical path outLen out ↔ ¬LeavesSlash path := by
  obtain ⟨hneed, hnames, htext⟩ := normalized_of_ok hnul hlen hok
  constructor
  · rintro ⟨-, hend⟩ hleaves
    rw [htext, if_pos hleaves] at hend
    refine hend ?_ getLast?_concat
    intro hslash
    have hlength := congrArg List.length hslash
    cases hst : resolve (components slash path) with
    | nil => exact hleaves.1 hst
    | cons c st =>
      rw [hst] at hlength
      simp [pathText, flatPath] at hlength
  · intro hleaves
    rw [if_neg hleaves, append_nil] at htext
    have hfit : PathBuf.need (resolve (components slash path)) ≤ outLen := by
      have hall := hneed (components slash path).length
      rwa [needAfter, take_length] at hall
    refine ⟨fun out' => ?_, fun hne => ?_⟩
    · rw [htext]
      exact normalized_pathText hnames hlen hfit out'
    · rw [htext] at hne ⊢
      exact last_pathText hnames hne

/-- **Two spellings of a path** have the same output, and a canonical one, exactly if neither of them
goes up at its end to a directory other than the root. -/
theorem normalize_canonical_iff {out' : ByteMem} (hnulp : 0 ∉ p) (hnulq : 0 ∉ q) (hlen : 2 ≤ outLen)
    (hokp : (normalizePath p outLen out).1 = 0) (hokq : (normalizePath q outLen out').1 = 0)
    (hres : resolve (components slash p) = resolve (components slash q)) :
    (normalized p outLen out = normalized q outLen out' ∧ Canonical p outLen out ∧
      Canonical q outLen out') ↔ ¬LeavesSlash p ∧ ¬LeavesSlash q := by
  rw [canonical_iff hnulp hlen hokp, canonical_iff hnulq hlen hokq]
  refine ⟨fun h => h.2, fun h => ⟨?_, h⟩⟩
  rw [(normalized_of_ok hnulp hlen hokp).2.2, (normalized_of_ok hnulq hlen hokq).2.2, if_neg h.1,
    if_neg h.2, hres]

/-- `/a/./b` and `//a/b/` in a buffer of eight bytes. -/
theorem normalize_canonical_sample :
    normalized [slash, 97, slash, dot, slash, 98] 8 (fun _ => 0) =
      normalized [slash, slash, 97, slash, 98, slash] 8 fun _ => 0 :=
  ((normalize_canonical_iff (p := [slash, 97, slash, dot, slash, 98])
    (q := [slash, slash, 97, slash, 98, slash]) (by decide) (by decide) (by decide) (by decide)
    (by decide) (by decide)).mpr (by decide)).1

/-- **A slash is left**: `/a/b/..` is normalised to "/a/", and `/a` to "/a". -/
theorem normalize_leaves_slash :
    (normalizePath [slash, 97, slash, 98, slash, dot, dot] 8 fun _ => 0).1 = 0 ∧
    (normalizePath [slash, 97] 8 fun _ => 0).1 = 0 ∧
    resolve (components slash [slash, 97, slash, 98, slash, dot, dot]) =
      resolve (components slash [slash, 97]) ∧
    normalized [slash, 97, slash, 98, slash, dot, dot] 8 (fun _ => 0) = [slash, 97, slash] ∧
    normalized [slash, 97] 8 (fun _ => 0) = [slash, 97] ∧
    ¬(normalized [slash, 97, slash, 98, slash, dot, dot] 8 (fun _ => 0) =
        normalized [slash, 97] 8 (fun _ => 0) ∧
      Canonical [slash, 97, slash, 98, slash, dot, dot] 8 (fun _ => 0) ∧
      Canonical [slash, 97] 8 fun _ => 0) := by
  have hup : normalized [slash, 97, slash, 98, slash, dot, dot] 8 (fun _ => 0) = [slash, 97, slash] := by
    decide
  have hdown : normalized [slash, 97] 8 (fun _ => 0) = [slash, 97] := by decide
  refine ⟨by decide, by decide, by decide, hup, hdown, ?_⟩
  rintro ⟨heq, -⟩
  rw [hup, hdown] at heq
  exact absurd heq (by decide)

end Neptune
