import Neptune.Lib.ByteMem
import Neptune.Lib.Path

/-!
# Path normalisation

`normalize_path` of `syscall.c` resolves a path into a buffer.  The stack of components
is kept in the buffer itself: a component is appended behind a separator, and `..` goes
back to the last separator, which stays behind in the buffer and is used by the next
component.

A path is the list of the bytes before its NUL.

## Main definitions

* `PathBuf` — the buffer and `out_pos`.
* `normalizePath` — the function.

## Main results

* `PathBuf.Spells.foldlM` — the buffer spells the stack.
* `normalize_path_resolves` — what `normalize_path` returns and writes.
-/

namespace Neptune

open ByteMem List

def slash : UInt8 := 0x2F

def dot : UInt8 := 0x2E

/-- `out` and `out_pos`. -/
structure PathBuf where
  out : ByteMem
  pos : ℕ

namespace PathBuf

/-- Back to behind the last separator, or to position 1. -/
def back (out : ByteMem) : ℕ → ℕ
  | 0 => 0
  | n + 1 => if 1 < n + 1 ∧ out n ≠ slash then back out n else n + 1

/-- What `..` does. -/
def popComponent (b : PathBuf) : PathBuf :=
  if 1 < b.pos then
    { b with pos := back b.out (if b.out (b.pos - 1) = slash then b.pos - 1 else b.pos) }
  else b

/-- A separator, if one is needed; `error` is a return of -1. -/
def pushSlash (b : PathBuf) (outLen : ℕ) : Except PathBuf PathBuf :=
  if 1 < b.pos ∧ b.out (b.pos - 1) ≠ slash then
    if outLen ≤ b.pos + 1 then .error b else .ok ⟨b.out.blit b.pos [slash], b.pos + 1⟩
  else .ok b

def pushName (b : PathBuf) (outLen : ℕ) (c : List UInt8) : Except PathBuf PathBuf :=
  if outLen ≤ b.pos + c.length then .error b
  else .ok ⟨b.out.blit b.pos c, b.pos + c.length⟩

/-- A component. -/
def component (b : PathBuf) (outLen : ℕ) (c : List UInt8) : Except PathBuf PathBuf :=
  if c = [dot] then .ok b
  else if c = [dot, dot] then .ok b.popComponent
  else if 0 < c.length then (b.pushSlash outLen).bind fun b => b.pushName outLen c
  else .ok b

/-- The loop over the path. -/
def loop (outLen : ℕ) : ℕ → List UInt8 → PathBuf → Except PathBuf PathBuf
  | 0, _, b => .ok b
  | fuel + 1, p, b =>
    if p = [] then .ok b
    else (b.component outLen (p.takeWhile (· ≠ slash))).bind fun b =>
      loop outLen fuel ((p.dropWhile (· ≠ slash)).dropWhile (· = slash)) b

/-- The NUL at the end. -/
def finish (b : PathBuf) : ByteMem :=
  let b := if b.pos = 0 then ⟨b.out.blit b.pos [slash], b.pos + 1⟩ else b
  b.out.blit b.pos [0]

end PathBuf

/-- `normalize_path`: what it returns, and the buffer. -/
def normalizePath (path : List UInt8) (outLen : ℕ) (out : ByteMem) : ℤ × ByteMem :=
  if outLen < 2 then (-1, out)
  else
    match PathBuf.loop outLen path.length (if path.head? = some slash then path.tail else path)
      ⟨out.blit 0 [slash], 1⟩ with
    | .ok b => (0, b.finish)
    | .error b => (-1, b.out)

/-- The components of a path, `.` and empty ones ignored and `..` popping the last one. -/
def resolve (cs : List (List UInt8)) : List (List UInt8) :=
  cs.foldl (resolveStep [dot] [dot, dot]) []

namespace PathBuf

variable {b b' : PathBuf} {st : List (List UInt8)} {c X : List UInt8} {outLen : ℕ} {out : ByteMem}

/-! ### The text in the buffer -/

/-- What the buffer holds before `out_pos`. -/
def text (b : PathBuf) : List UInt8 := b.out.bytes 0 b.pos

theorem length_text (b : PathBuf) : b.text.length = b.pos := b.out.length_bytes 0 b.pos

theorem text_succ (out : ByteMem) (n : ℕ) : text ⟨out, n + 1⟩ = text ⟨out, n⟩ ++ [out n] := by
  simpa [text] using out.bytes_succ 0 n

theorem text_blit (b : PathBuf) (c : List UInt8) :
    text ⟨b.out.blit b.pos c, b.pos + c.length⟩ = b.text ++ c := by
  rw [text, bytes_add, bytes_blit_of_disjoint _ (.inr (by simp)), Nat.zero_add, bytes_blit_self]
  rfl

/-- The last byte, and the text before it. -/
theorem text_last (b : PathBuf) (h : 0 < b.pos) :
    b.text = text ⟨b.out, b.pos - 1⟩ ++ [b.out (b.pos - 1)] := by
  rw [← text_succ, Nat.sub_add_cancel h]

/-- Going back stops behind the last separator. -/
theorem back_eq {out : ByteMem} {n : ℕ} (h : text ⟨out, n⟩ = X ++ slash :: c) (hc : slash ∉ c) :
    back out n = X.length + 1 := by
  induction n generalizing c with
  | zero => exact absurd h.symm (by simp [text, ByteMem.bytes])
  | succ n ih =>
    rw [text_succ] at h
    rcases eq_nil_or_concat c with rfl | ⟨c', y, rfl⟩
    · obtain ⟨hX, hlast⟩ := append_inj' h rfl
      have hslash : out n = slash := singleton_inj.mp hlast
      have hlen : n = X.length := by rw [← hX, length_text]
      rw [back, if_neg fun hand => hand.2 hslash, hlen]
    · rw [concat_eq_append, ← cons_append, ← append_assoc] at h
      obtain ⟨hX, hlast⟩ := append_inj' h rfl
      have hne : out n ≠ slash := by
        rw [singleton_inj.mp hlast]
        exact fun e => hc (by simp [e])
      have hpos : 1 < n + 1 := by
        have hlen := congrArg List.length hX
        rw [length_text] at hlen
        simp at hlen
        omega
      rw [back, if_pos ⟨hpos, hne⟩]
      exact ih hX fun hmem => hc (by simp [hmem])

/-! ### The buffer spells the stack -/

/-- A component that is pushed. -/
structure IsName (c : List UInt8) : Prop where
  slash : slash ∉ c
  nul : 0 ∉ c
  ne_nil : c ≠ []
  ne_dot : c ≠ [dot]
  ne_dotdot : c ≠ [dot, dot]

/-- The buffer spells the stack `st`, perhaps with a separator behind it, and nothing behind
the end of the buffer has been written. -/
structure Shows (outLen : ℕ) (out : ByteMem) (b : PathBuf) (st : List (List UInt8)) : Prop where
  text : b.text = flatPath slash st ++ [slash] ∨ st ≠ [] ∧ b.text = flatPath slash st
  fits : b.pos < outLen
  frame : ∀ i, outLen ≤ i → b.out i = out i
  names : ∀ c ∈ st, IsName c

/-- The bytes that the path of a stack needs, with its NUL. -/
def need (st : List (List UInt8)) : ℕ := (pathText slash st).length + 1

theorem need_eq (h : st ≠ []) : need st = (flatPath slash st).length + 1 := by
  cases st with
  | nil => exact absurd rfl h
  | cons c st => rfl

theorem Shows.need_le (h : Shows outLen out b st) : need st ≤ outLen := by
  have hfits := h.fits
  have hlen := length_text b
  rcases h.text with htext | ⟨hne, htext⟩
  · rw [htext, length_append, length_singleton] at hlen
    by_cases hst : st = []
    · subst hst
      simp only [need, pathText, flatPath_nil, length_nil, length_singleton] at hlen ⊢
      omega
    · rw [need_eq hst]
      omega
  · rw [htext] at hlen
    rw [need_eq hne]
    omega

/-- The byte before `out_pos`, where the text ends with `y`. -/
theorem out_last {y : UInt8} (h : b.text = X ++ [y]) :
    0 < b.pos ∧ b.out (b.pos - 1) = y ∧ text ⟨b.out, b.pos - 1⟩ = X := by
  have hpos : 0 < b.pos := by
    rw [← length_text, h]
    simp
  rw [text_last b hpos] at h
  obtain ⟨hX, hy⟩ := append_inj' h rfl
  exact ⟨hpos, singleton_inj.mp hy, hX⟩

theorem text_take {n : ℕ} (hn : n ≤ b.pos) : text ⟨b.out, n⟩ = b.text.take n := by
  obtain ⟨k, hk⟩ := Nat.exists_eq_add_of_le hn
  rw [text, text, hk, bytes_add, take_left' (b.out.length_bytes 0 n)]

/-- `..` takes the last component away and leaves its separator. -/
theorem Shows.pop_text (h : Shows outLen out b st) :
    b.popComponent.text = flatPath slash st.dropLast ++ [slash] ∧ b.popComponent.out = b.out ∧
      b.popComponent.pos ≤ b.pos := by
  rcases eq_nil_or_concat st with rfl | ⟨st', c, rfl⟩
  · -- at the root nothing happens
    have htext : b.text = [slash] := by
      rcases h.text with htext | ⟨hne, -⟩
      · exact htext
      · exact absurd rfl hne
    have hpos : b.pos = 1 := by
      rw [← length_text, htext]
      rfl
    rw [popComponent, if_neg (by omega)]
    exact ⟨htext, rfl, le_rfl⟩
  · rw [concat_eq_append] at h ⊢
    have hname := h.names c (by simp)
    have hback : back b.out (if b.out (b.pos - 1) = slash then b.pos - 1 else b.pos) =
        (flatPath slash st').length + 1 := by
      rcases h.text with htext | ⟨-, htext⟩
      · obtain ⟨-, hlast, hbefore⟩ := out_last htext
        rw [if_pos hlast]
        refine back_eq ?_ hname.slash
        simpa using hbefore
      · rw [flatPath_append, flatPath_singleton] at htext
        have hlast : b.out (b.pos - 1) ≠ slash := by
          obtain ⟨c', y, rfl⟩ := (eq_nil_or_concat c).resolve_left hname.ne_nil
          rw [concat_eq_append, ← cons_append, ← append_assoc] at htext
          rw [(out_last htext).2.1]
          exact fun e => hname.slash (by simp [e])
        rw [if_neg hlast]
        exact back_eq htext hname.slash
    -- the text begins with the rest of the stack and a separator
    obtain ⟨rest, htext⟩ : ∃ rest, b.text = (flatPath slash st' ++ [slash]) ++ rest := by
      rcases h.text with htext | ⟨-, htext⟩
      · exact ⟨c ++ [slash], by simpa using htext⟩
      · exact ⟨c, by simpa using htext⟩
    have hle : (flatPath slash st').length + 1 ≤ b.pos := by
      rw [← length_text b, htext]
      simp
    have hone : 1 < b.pos := by
      have hne := length_pos_iff.mpr hname.ne_nil
      rcases h.text with htext' | ⟨-, htext'⟩
      · rw [← length_text b, htext']
        simp
        omega
      · rw [← length_text b, htext']
        simp
        omega
    rw [popComponent, if_pos hone, hback, dropLast_concat]
    refine ⟨?_, rfl, hle⟩
    rw [text_take hle, htext, take_left' (by simp)]

theorem Shows.pop (h : Shows outLen out b st) : Shows outLen out b.popComponent st.dropLast := by
  obtain ⟨htext, hout, hle⟩ := h.pop_text
  exact ⟨.inl htext, Nat.lt_of_le_of_lt hle h.fits, hout ▸ h.frame,
    fun c hc => h.names c ((dropLast_sublist st).subset hc)⟩

/-- A separator stands before the next component. -/
theorem Shows.pushSlash (h : Shows outLen out b st) :
    match b.pushSlash outLen with
    | .ok b' => b'.text = flatPath slash st ++ [slash] ∧ ∀ i, outLen ≤ i → b'.out i = out i
    | .error b' => outLen ≤ (flatPath slash st).length + 1 ∧ ∀ i, outLen ≤ i → b'.out i = out i := by
  have hfits := h.fits
  rw [PathBuf.pushSlash]
  rcases h.text with htext | ⟨hne, htext⟩
  · obtain ⟨-, hlast, -⟩ := out_last htext
    rw [if_neg fun hand => hand.2 hlast]
    exact ⟨htext, h.frame⟩
  · obtain ⟨st', c, rfl⟩ := (eq_nil_or_concat st).resolve_left hne
    rw [concat_eq_append] at h htext ⊢
    have hname := h.names c (by simp)
    have hlen : b.pos = (flatPath slash (st' ++ [c])).length := by rw [← htext, length_text]
    obtain ⟨c', y, rfl⟩ := (eq_nil_or_concat c).resolve_left hname.ne_nil
    have hlast : b.out (b.pos - 1) ≠ slash := by
      rw [flatPath_append, flatPath_singleton, concat_eq_append, ← cons_append, ← append_assoc] at htext
      rw [(out_last htext).2.1]
      exact fun e => hname.slash (by simp [e])
    have hone : 1 < b.pos := by
      rw [hlen]
      simp
      omega
    rw [if_pos ⟨hone, hlast⟩]
    split
    · next heq =>
      split at heq
      · cases heq
      · obtain rfl := Except.ok.inj heq
        refine ⟨htext ▸ text_blit b [slash], fun i hi => ?_⟩
        rw [← h.frame i hi]
        exact blit_apply_of_not_mem _ (by simp; omega)
    · next heq =>
      split at heq
      · next hfull =>
        obtain rfl := Except.error.inj heq
        exact ⟨by omega, h.frame⟩
      · cases heq

/-- A component goes behind the separator, if there is room for it. -/
theorem Shows.push (h : Shows outLen out b st) (hc : IsName c) :
    match (b.pushSlash outLen).bind fun b => b.pushName outLen c with
    | .ok b' => Shows outLen out b' (st ++ [c]) ∧ b'.text = flatPath slash (st ++ [c])
    | .error b' => outLen < need (st ++ [c]) ∧ ∀ i, outLen ≤ i → b'.out i = out i := by
  have hneed : need (st ++ [c]) = (flatPath slash st).length + c.length + 2 := by
    rw [need_eq (by simp)]
    simp
    omega
  have hpush := h.pushSlash
  cases hslash : b.pushSlash outLen with
  | error b' =>
    rw [hslash] at hpush
    exact ⟨by omega, hpush.2⟩
  | ok b' =>
    rw [hslash] at hpush
    obtain ⟨htext, hframe⟩ := hpush
    have hpos : b'.pos = (flatPath slash st).length + 1 := by
      rw [← length_text, htext]
      simp
    simp only [Except.bind, pushName]
    by_cases hfull : outLen ≤ b'.pos + c.length
    · rw [if_pos hfull]
      exact ⟨by omega, hframe⟩
    · rw [if_neg hfull]
      have hnew : PathBuf.text ⟨b'.out.blit b'.pos c, b'.pos + c.length⟩ = flatPath slash (st ++ [c]) := by
        rw [text_blit, htext]
        simp
      refine ⟨⟨.inr ⟨by simp, hnew⟩, Nat.lt_of_not_le hfull, fun i hi => ?_, fun c' hc' => ?_⟩, hnew⟩
      · rw [← hframe i hi]
        exact blit_apply_of_not_mem _ (by omega)
      · rcases mem_append.mp hc' with hold | hnew
        · exact h.names c' hold
        · rw [mem_singleton.mp hnew]
          exact hc

/-- What is behind the last name of the stack: whether the last component that does something is
`..`, or there has been none. -/
def upStep (up : Bool) (c : List UInt8) : Bool := if c = [dot] then up else decide (c = [dot, dot])

/-- The buffer spells the stack, with a separator behind it exactly if `up`. -/
structure Spells (outLen : ℕ) (out : ByteMem) (b : PathBuf) (st : List (List UInt8)) (up : Bool) :
    Prop where
  shows : Shows outLen out b st
  exact : b.text = flatPath slash st ++ if up then [slash] else []

/-- A component is resolved against the stack. -/
theorem Spells.component {up : Bool} (h : Spells outLen out b st up) (hslash : slash ∉ c)
    (hnul : 0 ∉ c) (hne : c ≠ []) :
    match b.component outLen c with
    | .ok b' => Spells outLen out b' (resolveStep [dot] [dot, dot] st c) (upStep up c)
    | .error b' => outLen < need (resolveStep [dot] [dot, dot] st c) ∧
        ∀ i, outLen ≤ i → b'.out i = out i := by
  rw [PathBuf.component, resolveStep, upStep]
  by_cases hdot : c = [dot]
  · simp only [if_pos hdot]
    exact h
  · simp only [if_neg hdot]
    by_cases hdotdot : c = [dot, dot]
    · simp only [if_pos hdotdot]
      refine ⟨h.shows.pop, ?_⟩
      rw [h.shows.pop_text.1, decide_eq_true hdotdot]
      rfl
    · simp only [if_neg hdotdot, if_pos (length_pos_iff.mpr hne)]
      have hpush := h.shows.push ⟨hslash, hnul, hne, hdot, hdotdot⟩
      cases hres : (b.pushSlash outLen).bind fun b => b.pushName outLen c with
      | error b' =>
        rw [hres] at hpush
        exact hpush
      | ok b' =>
        rw [hres] at hpush
        refine ⟨hpush.1, ?_⟩
        rw [hpush.2, decide_eq_false hdotdot, if_neg (by decide), append_nil]

/-! ### The loop -/

/-- The loop takes the components one after the other. -/
theorem loop_eq {fuel : ℕ} {p : List UInt8} (hfuel : p.length ≤ fuel) (b : PathBuf) :
    PathBuf.loop outLen fuel p b = (components slash p).foldlM (fun b c => b.component outLen c) b := by
  induction fuel generalizing p b with
  | zero =>
    obtain rfl : p = [] := length_eq_zero_iff.mp (Nat.le_zero.mp hfuel)
    rw [components_nil]
    rfl
  | succ fuel ih =>
    rw [PathBuf.loop]
    by_cases hp : p = []
    · rw [if_pos hp, hp, components_nil]
      rfl
    · rw [if_neg hp]
      have hrest : ((p.dropWhile (· ≠ slash)).dropWhile (· = slash)).length ≤ fuel := by
        obtain ⟨x, xs, rfl⟩ := exists_cons_of_ne_nil hp
        have hdrop : ∀ {f : UInt8 → Bool} (l : List UInt8), (l.dropWhile f).length ≤ l.length :=
          fun l => (dropWhile_sublist _).length_le
        by_cases hx : x = slash
        · subst hx
          have hall := hdrop (f := fun x => decide (x = slash)) xs
          simp at hfuel ⊢
          omega
        · have hone := hdrop (f := fun x => decide (x ≠ slash)) xs
          have htwo := hdrop (f := fun x => decide (x = slash)) (xs.dropWhile (· ≠ slash))
          simp only [length_cons] at hfuel
          simp only [dropWhile_cons, hx, ne_eq, not_false_eq_true, decide_true, if_true]
          exact Nat.le_trans htwo (Nat.le_trans hone (Nat.le_of_succ_le_succ hfuel))
      rw [components_eq p]
      by_cases hc : p.takeWhile (· ≠ slash) = []
      · -- an empty component is ignored
        have hskip : b.component outLen [] = .ok b := rfl
        rw [if_pos hc, hc, hskip, nil_append, ← ih hrest]
        rfl
      · rw [if_neg hc, singleton_append, foldlM_cons]
        cases b.component outLen (p.takeWhile (· ≠ slash)) with
        | error b' => rfl
        | ok b' => exact ih hrest b'

/-- **The loop** resolves the components, as long as there is room after each of them. -/
theorem Spells.foldlM {comps : List (List UInt8)} {up : Bool}
    (hcomps : ∀ c ∈ comps, c ≠ [] ∧ slash ∉ c ∧ 0 ∉ c) (h : Spells outLen out b st up) :
    match comps.foldlM (fun b c => b.component outLen c) b with
    | .ok b' =>
        Spells outLen out b' (comps.foldl (resolveStep [dot] [dot, dot]) st) (comps.foldl upStep up) ∧
        ∀ k, need ((comps.take k).foldl (resolveStep [dot] [dot, dot]) st) ≤ outLen
    | .error b' => (∃ k ≤ comps.length,
          outLen < need ((comps.take k).foldl (resolveStep [dot] [dot, dot]) st)) ∧
        ∀ i, outLen ≤ i → b'.out i = out i := by
  induction comps generalizing b st up with
  | nil => simpa using ⟨h, h.shows.need_le⟩
  | cons c comps ih =>
    obtain ⟨⟨hne, hslash, hnul⟩, hcomps⟩ := forall_mem_cons.mp hcomps
    have hstep := h.component hslash hnul hne
    rw [foldlM_cons]
    cases hcomp : b.component outLen c with
    | error b' =>
      rw [hcomp] at hstep
      exact ⟨⟨1, by simp, by simpa using hstep.1⟩, hstep.2⟩
    | ok b' =>
      rw [hcomp] at hstep
      have hnext := ih hcomps hstep
      have hbind : ((Except.ok b' : Except PathBuf PathBuf) >>= fun b =>
          comps.foldlM (fun b c => b.component outLen c) b) =
          comps.foldlM (fun b c => b.component outLen c) b' := rfl
      rw [hbind]
      cases hloop : comps.foldlM (fun b c => b.component outLen c) b' with
      | error b'' =>
        rw [hloop] at hnext
        obtain ⟨⟨k, hk, hlt⟩, hframe⟩ := hnext
        exact ⟨⟨k + 1, by simpa using hk, by simpa using hlt⟩, hframe⟩
      | ok b'' =>
        rw [hloop] at hnext
        refine ⟨hnext.1, fun k => ?_⟩
        cases k with
        | zero => simpa using h.shows.need_le
        | succ k => simpa using hnext.2 k

/-- The buffer before anything is resolved. -/
theorem shows_root (hlen : 2 ≤ outLen) (out : ByteMem) :
    Shows outLen out ⟨out.blit 0 [slash], 1⟩ [] := by
  refine ⟨.inl ?_, hlen, fun i hi => ?_, nofun⟩
  · exact text_blit ⟨out, 0⟩ [slash]
  · exact blit_apply_of_not_mem _ (by simp; omega)

theorem spells_root (hlen : 2 ≤ outLen) (out : ByteMem) :
    Spells outLen out ⟨out.blit 0 [slash], 1⟩ [] true :=
  ⟨shows_root hlen out, text_blit ⟨out, 0⟩ [slash]⟩

theorem nul_notMem_flatPath (h : ∀ c ∈ st, IsName c) : 0 ∉ flatPath slash st := by
  intro hmem
  obtain ⟨c, hc, h0⟩ := mem_flatMap.mp hmem
  rcases mem_cons.mp h0 with h0 | h0
  · exact absurd h0 (by decide)
  · exact (h c hc).nul h0

/-- The pieces of the text are the stack, with an empty piece at either end. -/
theorem Shows.pieces (h : Shows outLen out b st) :
    ∃ last : List (List UInt8), (last = [] ∨ last = [[]]) ∧ 0 ∉ b.text ∧
      b.text.head? = some slash ∧ b.text.splitOn slash = [] :: (st ++ last) := by
  have hnames : ∀ c ∈ st, slash ∉ c := fun c hc => (h.names c hc).slash
  have hnul := nul_notMem_flatPath h.names
  rcases h.text with htext | ⟨hne, htext⟩
  · have hflat : flatPath slash st ++ [slash] = flatPath slash (st ++ [[]]) := by simp
    refine ⟨[[]], .inr rfl, ?_, ?_, ?_⟩
    · rw [htext]
      simpa [show (0 : UInt8) ≠ slash by decide] using hnul
    · rw [htext]
      cases st with
      | nil => rfl
      | cons c st => rfl
    · rw [htext, hflat]
      refine splitOn_append_flatPath (c := []) (fun c hc => ?_) not_mem_nil
      rcases mem_append.mp hc with hc | hc
      · exact hnames c hc
      · rw [mem_singleton.mp hc]
        exact not_mem_nil
  · refine ⟨[], .inl rfl, htext ▸ hnul, ?_, ?_⟩
    · rw [htext]
      obtain ⟨c, st', rfl⟩ := exists_cons_of_ne_nil hne
      rfl
    · rw [htext, append_nil]
      exact splitOn_append_flatPath (c := []) hnames not_mem_nil

end PathBuf

/-- The string in a buffer of `n` bytes. -/
def cString (m : ByteMem) (n : ℕ) : List UInt8 := (m.bytes 0 n).takeWhile (· ≠ 0)

/-- A text with a NUL behind it. -/
theorem cString_of_nul {m : ByteMem} {n k : ℕ} (hk : k < n) (htext : 0 ∉ m.bytes 0 k)
    (hnul : m k = 0) : cString m n = m.bytes 0 k ∧ 0 ∈ m.bytes 0 n := by
  obtain ⟨j, rfl⟩ := Nat.exists_eq_add_of_lt hk
  have hsplit : m.bytes 0 (k + j + 1) = m.bytes 0 k ++ (0 :: m.bytes (k + 1) j) := by
    rw [show k + j + 1 = k + (1 + j) by omega, bytes_add, bytes_add, Nat.zero_add]
    congr 1
    have hone : m.bytes k 1 = [0] := by simp [ByteMem.bytes, hnul]
    rw [hone]
    rfl
  constructor
  · rw [cString, hsplit, takeWhile_append_of_pos]
    · simp
    · intro x hx
      simpa using fun e : x = 0 => htext (e ▸ hx)
  · rw [hsplit]
    simp

namespace PathBuf

variable {b : PathBuf} {st : List (List UInt8)} {outLen : ℕ} {out : ByteMem}

/-- The string that is left in the buffer. -/
theorem Shows.finish (h : Shows outLen out b st) :
    (∀ i, outLen ≤ i → b.finish i = out i) ∧ cString b.finish outLen = b.text ∧
      0 ∈ b.finish.bytes 0 outLen := by
  have hpos : b.pos ≠ 0 := by
    rw [← length_text]
    rcases h.text with htext | ⟨hne, htext⟩
    · rw [htext]
      simp
    · obtain ⟨c, st', rfl⟩ := exists_cons_of_ne_nil hne
      rw [htext]
      simp [flatPath]
  have hfinish : b.finish = b.out.blit b.pos [0] := by rw [PathBuf.finish, if_neg hpos]
  have hsame : b.finish.bytes 0 b.pos = b.text := by
    rw [hfinish, bytes_blit_of_disjoint _ (.inr (by simp))]
    rfl
  have hnul : b.finish b.pos = 0 := by
    rw [hfinish]
    exact blit_apply _ (i := 0) (by simp)
  obtain ⟨-, -, htext, -⟩ := h.pieces
  obtain ⟨hstring, hend⟩ := cString_of_nul h.fits (hsame ▸ htext) hnul
  refine ⟨fun i hi => ?_, hstring.trans hsame, hend⟩
  rw [hfinish, ← h.frame i hi]
  have hfits := h.fits
  exact blit_apply_of_not_mem _ (by simp; omega)

end PathBuf

theorem isComponent_of_mem {path : List UInt8} (hnul : 0 ∉ path) :
    ∀ c ∈ components slash path, c ≠ [] ∧ slash ∉ c ∧ 0 ∉ c := by
  intro c hc
  obtain ⟨hne, hslash, hmem⟩ := components_pieces hc
  exact ⟨hne, hslash, fun h0 => hnul (hmem 0 h0)⟩

/-- `normalize_path` takes the components of the path one after the other. -/
theorem normalizePath_eq (path : List UInt8) (outLen : ℕ) (out : ByteMem) :
    normalizePath path outLen out =
      if outLen < 2 then (-1, out)
      else match (components slash path).foldlM (fun b c => PathBuf.component b outLen c)
        ⟨out.blit 0 [slash], 1⟩ with
      | .ok b => (0, b.finish)
      | .error b => (-1, b.out) := by
  have hcomps : components slash (if path.head? = some slash then path.tail else path) =
      components slash path := by
    cases path with
    | nil => rfl
    | cons x path =>
      split
      · next hx =>
        obtain rfl : x = slash := by simpa using hx
        simp
      · rfl
  have hfuel : (if path.head? = some slash then path.tail else path).length ≤ path.length := by
    split
    · simp
    · exact le_rfl
  rw [normalizePath, PathBuf.loop_eq hfuel, hcomps]

/-- **Path normalisation resolves a path and stays in its buffer.**  Nothing behind the buffer
is written.  A return of 0 leaves an absolute path whose components are those of the input,
resolved; a return of -1 means that after some of the components the resolved path and its
NUL do not fit. -/
theorem normalize_path_resolves (path : List UInt8) (outLen : ℕ) (out : ByteMem)
    (hnul : 0 ∉ path) (hlen : 2 ≤ outLen) :
    (∀ i, outLen ≤ i → (normalizePath path outLen out).2 i = out i) ∧
    ((normalizePath path outLen out).1 = 0 ∨ (normalizePath path outLen out).1 = -1) ∧
    ((normalizePath path outLen out).1 = 0 → 0 ∈ (normalizePath path outLen out).2.bytes 0 outLen ∧
      components slash (cString (normalizePath path outLen out).2 outLen) =
        resolve (components slash path) ∧
      (cString (normalizePath path outLen out).2 outLen).head? = some slash ∧
      (∀ c ∈ (cString (normalizePath path outLen out).2 outLen).splitOn slash,
        c ≠ [dot] ∧ c ≠ [dot, dot]) ∧
      [] ∉ ((cString (normalizePath path outLen out).2 outLen).splitOn slash).tail.dropLast) ∧
    ((normalizePath path outLen out).1 = -1 ↔ ∃ k ≤ (components slash path).length,
        outLen < (pathText slash (resolve ((components slash path).take k))).length + 1) := by
  have hloop := (PathBuf.spells_root hlen out).foldlM (isComponent_of_mem hnul)
  rw [normalizePath_eq, if_neg (by omega)]
  cases hres : (components slash path).foldlM (fun b c => PathBuf.component b outLen c)
      ⟨out.blit 0 [slash], 1⟩ with
  | error b =>
    rw [hres] at hloop
    obtain ⟨hover, hframe⟩ := hloop
    exact ⟨hframe, .inr rfl, (by rintro ⟨⟩), iff_of_true rfl hover⟩
  | ok b =>
    rw [hres] at hloop
    obtain ⟨⟨hshows, -⟩, hneed⟩ := hloop
    obtain ⟨hframe, hstring, hend⟩ := hshows.finish
    obtain ⟨last, hlast, -, hhead, hsplit⟩ := hshows.pieces
    refine ⟨hframe, .inl rfl, fun _ => ⟨hend, ?_, ?_, ?_, ?_⟩, iff_of_false (by rintro ⟨⟩) ?_⟩
    · have hkeep : (resolve (components slash path)).filter (· ≠ []) =
          resolve (components slash path) :=
        filter_eq_self.mpr fun c hc => decide_eq_true (hshows.names c hc).ne_nil
      rw [hstring, components, hsplit]
      rcases hlast with rfl | rfl
      · simpa [resolve] using hkeep
      · simpa [resolve] using hkeep
    · rw [hstring]
      exact hhead
    · rw [hstring, hsplit]
      intro c hc
      rcases mem_cons.mp hc with rfl | hc
      · exact ⟨(by rintro ⟨⟩), (by rintro ⟨⟩)⟩
      · rcases mem_append.mp hc with hc | hc
        · exact ⟨(hshows.names c hc).ne_dot, (hshows.names c hc).ne_dotdot⟩
        · rcases hlast with rfl | rfl
          · cases hc
          · rw [mem_singleton.mp hc]
            exact ⟨(by rintro ⟨⟩), (by rintro ⟨⟩)⟩
    · rw [hstring, hsplit, tail_cons]
      intro hmem
      rcases hlast with rfl | rfl
      · rw [append_nil] at hmem
        exact (hshows.names [] ((dropLast_sublist _).subset hmem)).ne_nil rfl
      · rw [dropLast_concat] at hmem
        exact (hshows.names [] hmem).ne_nil rfl
    · rintro ⟨k, -, hover⟩
      exact absurd (hneed k) (Nat.not_le.mpr hover)

/-- `/a/../b` in a buffer of eight bytes. -/
theorem normalize_path_resolves_sample :
    (normalizePath [slash, 97, slash, dot, dot, slash, 98] 8 fun _ => 0).1 = 0 ∧
    ∀ i, 8 ≤ i → (normalizePath [slash, 97, slash, dot, dot, slash, 98] 8 fun _ => 0).2 i = 0 :=
  ⟨by decide, (normalize_path_resolves [slash, 97, slash, dot, dot, slash, 98] 8 (fun _ => 0)
    (by decide) (by decide)).1⟩

end Neptune
