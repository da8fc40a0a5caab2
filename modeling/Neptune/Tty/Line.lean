import Mathlib.Data.List.Infix
import Neptune.Tty.Read

/-!
# The line editor

A call of `tty_read` takes bytes from the serial ring and scancodes from the keyboard ring, makes
characters of them and edits a line.  Here one thread is inside `tty_read` while interrupts bring more
input and the other threads do what they like, except for reading from the terminal themselves.

## Main definitions

* `Item`, `translate` — the merged input, and the characters it stands for.
* `edit`, `Stops` — the line editor.
* `TtyState.Run` — a run during a call, with what was taken from the rings and what came into them.

## Main results

* `Edits.step` — what every step keeps.
* `tty_read_edits` — **`tty_read` is a line editor over the merged input**.
-/

namespace Neptune

open Function List Option

/-! ### The editor -/

/-- What comes out of the rings. -/
inductive Item
  | serial (ch : UInt8)
  | key (sc : UInt8)
  deriving DecidableEq, Repr

namespace Item

/-- The character of an item, if there is one, and the shift state after it.  A carriage return of the
serial port is a newline. -/
def char (shift : Bool) : Item → Bool × Option UInt8
  | .serial ch => (shift, some (if ch = 13 then 10 else ch))
  | .key sc => scancodeToChar shift sc

/-- The bytes of the serial port. -/
def serialOf (items : List Item) : List UInt8 := items.filterMap fun
  | .serial ch => some ch
  | .key _ => none

/-- The scancodes of the keyboard. -/
def keysOf (items : List Item) : List UInt8 := items.filterMap fun
  | .serial _ => none
  | .key sc => some sc

@[simp] theorem serialOf_append (l l' : List Item) : serialOf (l ++ l') = serialOf l ++ serialOf l' :=
  filterMap_append

@[simp] theorem keysOf_append (l l' : List Item) : keysOf (l ++ l') = keysOf l ++ keysOf l' :=
  filterMap_append

end Item

/-- The characters of the input, and the shift state after it. -/
def translate (shift : Bool) (items : List Item) : Bool × List UInt8 :=
  items.foldl (fun p item => ((item.char p.1).1, p.2 ++ (item.char p.1).2.toList)) (shift, [])

theorem translate_concat (shift : Bool) (items : List Item) (item : Item) :
    translate shift (items ++ [item]) = ((item.char (translate shift items).1).1,
      (translate shift items).2 ++ (item.char (translate shift items).1).2.toList) := by
  rw [translate, foldl_append]
  rfl

/-- A backspace removes the last character, and any other character is appended. -/
def edit (line : List UInt8) (c : UInt8) : List UInt8 := if c = 8 then line.dropLast else line ++ [c]

/-- The line of the characters. -/
def lineOf (chars : List UInt8) : List UInt8 := chars.foldl edit []

/-- The editor stops after a newline, and when the line has `len` characters. -/
def Stops (len : ℕ) (chars : List UInt8) : Prop :=
  (lineOf chars).getLast? = some 10 ∨ (lineOf chars).length = len

theorem lineOf_concat (chars : List UInt8) (c : UInt8) : lineOf (chars ++ [c]) = edit (lineOf chars) c := by
  rw [lineOf, foldl_append]
  rfl

/-! ### Runs -/

namespace TtyState

open Item

/-- The events while nobody but `t` reads from the terminal. -/
def Alone (t : ℕ) (s : TtyState) : Event → Prop
  | .keyboard _ | .serial _ | .sched _ => True
  | .go => s.sched.currentThread = t
  | .read _ => s.sched.currentThread ≠ t
  | .terminalKb | .terminalCom => False

/-- What a thread takes from the rings in a step: a byte of the serial port if there is one, and otherwise
a scancode. -/
def takes (t : ℕ) (s : TtyState) : Event → List Item
  | .go =>
    match s.reader t with
    | none => []
    | some r =>
      match r.phase with
      | .loop =>
        if r.buf.length < r.len then ((s.input.com.contents comBufSize).take 1).map .serial else []
      | .keyboard => ((s.input.kb.contents kbBufSize).take 1).map .key
      | .wait => []
  | _ => []

/-- What comes into the rings in a step.  A full ring drops it. -/
def arrives (s : TtyState) : Event → List Item
  | .serial ch => if s.input.com.count comBufSize + 1 < comBufSize then [.serial ch] else []
  | .keyboard sc => if s.input.kb.count kbBufSize + 1 < kbBufSize then [.key sc] else []
  | _ => []

/-- A run from `s₀` in which nobody but `t` reads, with what was taken and what came. -/
inductive Run (t : ℕ) (s₀ : TtyState) : List Item → List Item → TtyState → Prop
  | start : Run t s₀ [] [] s₀
  | step {taken came : List Item} {s s' : TtyState} {e : Event} (h : Run t s₀ taken came s)
      (halone : s.Alone t e) (he : s.step e = some s') :
      Run t s₀ (taken ++ s.takes t e) (came ++ s.arrives e) s'

/-- What holds during a call for at most `len` characters that began in `s₀`. -/
structure Edits (t len : ℕ) (s₀ : TtyState) (taken came : List Item) (s : TtyState) : Prop where
  ok : s.input.Ok
  shift : s.shiftState = (translate s₀.shiftState taken).1
  com : serialOf taken ++ s.input.com.contents comBufSize
    = s₀.input.com.contents comBufSize ++ serialOf came
  kb : keysOf taken ++ s.input.kb.contents kbBufSize = s₀.input.kb.contents kbBufSize ++ keysOf came
  /-- The editor has not stopped before. -/
  first : ∀ p, p <+: (translate s₀.shiftState taken).2 → p ≠ (translate s₀.shiftState taken).2 →
    ¬Stops len p
  running : ∀ r, s.reader t = some r → r.len = len ∧ r.buf = lineOf (translate s₀.shiftState taken).2 ∧
    10 ∉ r.buf ∧ r.buf.length ≤ len ∧ (r.phase ≠ .loop → r.buf.length < len)
  returned : s.reader t = none → Stops len (translate s₀.shiftState taken).2 ∧
    s.result t = lineOf (translate s₀.shiftState taken).2

variable {t len : ℕ} {s₀ s s' : TtyState} {taken came new : List Item} {r : Reader} {e : Event}

/-- A step that the reader does not notice. -/
theorem Edits.aside (h : Edits t len s₀ taken came s) (hok : s'.input.Ok)
    (hshift : s'.shiftState = s.shiftState) (hreader : s'.reader t = s.reader t)
    (hresult : s'.result t = s.result t)
    (hcom : s'.input.com.contents comBufSize = s.input.com.contents comBufSize ++ serialOf new)
    (hkb : s'.input.kb.contents kbBufSize = s.input.kb.contents kbBufSize ++ keysOf new) :
    Edits t len s₀ taken (came ++ new) s' := by
  refine ⟨hok, hshift.trans h.shift, ?_, ?_, h.first, ?_, ?_⟩
  · rw [hcom, ← append_assoc, h.com, serialOf_append, append_assoc]
  · rw [hkb, ← append_assoc, h.kb, keysOf_append, append_assoc]
  · rw [hreader]
    exact h.running
  · rw [hreader, hresult]
    exact h.returned

/-- The reader with one character more. -/
theorem took_take (s : TtyState) (t : ℕ) (r : Reader) (c : UInt8) :
    (s.took t (r.take c)).reader t
        = (if c = 10 then none else some { r with buf := edit r.buf c, phase := .loop }) ∧
      (c = 10 → (s.took t (r.take c)).result t = edit r.buf c) ∧
      (s.took t (r.take c)).input = s.input ∧ (s.took t (r.take c)).shiftState = s.shiftState := by
  rw [Reader.take, edit]
  by_cases hback : c = 8
  · subst hback
    simp [took, setReader]
  · by_cases hnewline : c = 10
    · subst hnewline
      simp [took, leave]
    · simp [hback, hnewline, took, setReader]

theorem not_mem_edit {line : List UInt8} {c : UInt8} (h : 10 ∉ line) (hc : c ≠ 10) : 10 ∉ edit line c := by
  rw [edit]
  split
  · exact fun hmem => h (mem_of_mem_dropLast hmem)
  · rw [mem_append, mem_singleton]
    rintro (hmem | rfl)
    · exact h hmem
    · exact hc rfl

theorem length_edit_le (line : List UInt8) (c : UInt8) : (edit line c).length ≤ line.length + 1 := by
  rw [edit]
  split
  · rw [length_dropLast]
    omega
  · simp

/-- The reader takes an item. -/
theorem Edits.take (h : Edits t len s₀ taken came s) (item : Item) (hr : s.reader t = some r)
    (hroom : r.buf.length < len) (hok : s'.input.Ok)
    (hcom : s.input.com.contents comBufSize = serialOf [item] ++ s'.input.com.contents comBufSize)
    (hkb : s.input.kb.contents kbBufSize = keysOf [item] ++ s'.input.kb.contents kbBufSize)
    (hshift : s'.shiftState = (item.char s.shiftState).1)
    (hnone : (item.char s.shiftState).2 = none → s'.reader t = some { r with phase := .loop })
    (hsome : ∀ c, (item.char s.shiftState).2 = some c →
      s'.reader t = (if c = 10 then none else some { r with buf := edit r.buf c, phase := .loop }) ∧
        (c = 10 → s'.result t = edit r.buf c)) :
    Edits t len s₀ (taken ++ [item]) came s' := by
  obtain ⟨hlen, hbuf, hno, hle, -⟩ := h.running r hr
  -- so far the editor has not stopped
  have hgoes : ¬Stops len (translate s₀.shiftState taken).2 := by
    rintro (hlast | hfull)
    · exact hno (hbuf ▸ mem_of_getLast? hlast)
    · rw [← hbuf] at hfull
      omega
  have htranslate := translate_concat s₀.shiftState taken item
  rw [← h.shift] at htranslate
  have hcom' : serialOf (taken ++ [item]) ++ s'.input.com.contents comBufSize
      = s₀.input.com.contents comBufSize ++ serialOf came := by
    rw [serialOf_append, append_assoc, ← hcom, h.com]
  have hkb' : keysOf (taken ++ [item]) ++ s'.input.kb.contents kbBufSize
      = s₀.input.kb.contents kbBufSize ++ keysOf came := by
    rw [keysOf_append, append_assoc, ← hkb, h.kb]
  have hshift' : s'.shiftState = (translate s₀.shiftState (taken ++ [item])).1 := by
    rw [htranslate, hshift]
  cases hchar : (item.char s.shiftState).2 with
  | none =>
    rw [hchar, toList_none, append_nil] at htranslate
    refine ⟨hok, hshift', hcom', hkb', ?_, ?_, ?_⟩
    · rw [htranslate]
      exact h.first
    · rw [htranslate, hnone hchar]
      rintro r' ⟨⟩
      exact ⟨hlen, hbuf, hno, hle, fun hphase => absurd rfl hphase⟩
    · rw [hnone hchar]
      nofun
  | some c =>
    rw [hchar, toList_some] at htranslate
    obtain ⟨hreader, hresult⟩ := hsome c hchar
    have hline : lineOf (translate s₀.shiftState (taken ++ [item])).2 = edit r.buf c := by
      rw [htranslate, lineOf_concat, hbuf]
    refine ⟨hok, hshift', hcom', hkb', ?_, ?_, ?_⟩
    · rw [htranslate]
      intro p hp hne
      rcases List.prefix_concat_iff.mp hp with heq | hp
      · exact absurd heq hne
      · rcases eq_or_ne p (translate s₀.shiftState taken).2 with rfl | hne'
        · exact hgoes
        · exact h.first p hp hne'
    · rw [hreader, hline]
      split
      · nofun
      · next hc =>
        rintro r' ⟨⟩
        have hlength := length_edit_le r.buf c
        exact ⟨hlen, rfl, not_mem_edit hno hc, by dsimp only; omega, fun hphase => absurd rfl hphase⟩
    · rw [hreader]
      split
      · next hc =>
        intro _
        refine ⟨.inl ?_, by rw [hline, hresult hc]⟩
        rw [hline, hc]
        simp [edit]
      · nofun

/-- The reader goes on without an item. -/
theorem Edits.goes (h : Edits t len s₀ taken came s) (hr : s.reader t = some r) (r' : Reader)
    (hroom : r.buf.length < len) (hlen : r'.len = r.len) (hbuf : r'.buf = r.buf)
    (hinput : s'.input = s.input) (hshift : s'.shiftState = s.shiftState)
    (hreader : s'.reader t = some r') : Edits t len s₀ taken came s' := by
  obtain ⟨hlen₀, hbuf₀, hno, hle, -⟩ := h.running r hr
  refine ⟨hinput ▸ h.ok, hshift.trans h.shift, hinput ▸ h.com, hinput ▸ h.kb, h.first, ?_, ?_⟩
  · rw [hreader]
    rintro u ⟨⟩
    rw [hlen, hbuf]
    exact ⟨hlen₀, hbuf₀, hno, hle, fun _ => hroom⟩
  · rw [hreader]
    nofun

theorem Edits.goLoop (h : Edits t len s₀ taken came s) (hr : s.reader t = some r) :
    Edits t len s₀ (taken ++ if r.buf.length < r.len
      then ((s.input.com.contents comBufSize).take 1).map .serial else []) came (s.goLoop t r) := by
  obtain ⟨hlen, hbuf, hno, hle, -⟩ := h.running r hr
  rw [TtyState.goLoop]
  split
  · next hroom =>
    have hpop := h.ok.com.pop_spec
    split at hpop
    · next hempty =>
      rw [hpop, hempty, take_nil, map_nil, append_nil]
      exact h.goes hr { r with phase := .keyboard } (hlen ▸ hroom) rfl rfl rfl rfl
        (update_self ..)
    · next b rest hcontents =>
      obtain ⟨com, hpop, hcom, hrest⟩ := hpop
      rw [hpop, hcontents]
      dsimp only
      obtain ⟨hreader, hresult, hinput, hshift⟩ := took_take
        { s with input := { s.input with com := com } } t r (if b = 13 then 10 else b)
      refine h.take (.serial b) hr (hlen ▸ hroom) ?_ ?_ ?_ ?_ ?_ ?_
      · rw [hinput]
        exact ⟨h.ok.kb, hcom⟩
      · rw [hinput, hcontents, hrest]
        rfl
      · rw [hinput]
        rfl
      · rw [hshift]
        rfl
      · nofun
      · rintro c ⟨⟩
        exact ⟨hreader, hresult⟩
  · next hfull =>
    rw [append_nil]
    refine ⟨h.ok, h.shift, h.com, h.kb, h.first, ?_, ?_⟩
    · simp [leave]
    · intro _
      refine ⟨.inr ?_, ?_⟩
      · rw [← hbuf]
        omega
      · simpa [leave] using hbuf

theorem Edits.goKeyboard (h : Edits t len s₀ taken came s) (hr : s.reader t = some r)
    (hphase : r.phase = .keyboard) :
    Edits t len s₀ (taken ++ ((s.input.kb.contents kbBufSize).take 1).map .key) came
      (s.goKeyboard t r) := by
  obtain ⟨hlen, hbuf, hno, hle, hroom⟩ := h.running r hr
  have hroom := hroom (by rw [hphase]; decide)
  rw [TtyState.goKeyboard]
  have hpop := h.ok.kb.pop_spec
  split at hpop
  · next hempty =>
    rw [hpop, hempty, take_nil, map_nil, append_nil]
    exact h.goes hr { r with phase := .wait } hroom rfl rfl rfl rfl (update_self ..)
  · next sc rest hcontents =>
    obtain ⟨kb, hpop, hkb, hrest⟩ := hpop
    rw [hpop, hcontents]
    dsimp only
    have hok : ({ s.input with kb := kb } : Input).Ok := ⟨hkb, h.ok.com⟩
    cases hchar : (scancodeToChar s.shiftState sc).2 with
    | none =>
      refine h.take (.key sc) hr hroom hok rfl ?_ rfl ?_ ?_
      · rw [hcontents]
        exact congrArg _ hrest.symm
      · intro _
        exact update_self ..
      · intro c hc
        cases hchar.symm.trans hc
    | some c =>
      dsimp only
      obtain ⟨hreader, hresult, hinput, hshift⟩ := took_take { s with
        input := { s.input with kb := kb }, shiftState := (scancodeToChar s.shiftState sc).1 } t r c
      refine h.take (.key sc) hr hroom ?_ ?_ ?_ ?_ ?_ ?_
      · rw [hinput]
        exact hok
      · rw [hinput]
        rfl
      · rw [hinput, hcontents, ← hrest]
        rfl
      · rw [hshift]
        rfl
      · intro hc
        cases hchar.symm.trans hc
      · intro c' hc
        obtain rfl := some.inj (hchar.symm.trans hc)
        exact ⟨hreader, hresult⟩

theorem Edits.go (h : Edits t len s₀ taken came s) (halone : s.sched.currentThread = t)
    (he : s.go = some s') : Edits t len s₀ (taken ++ s.takes t .go) came s' := by
  rw [TtyState.go, halone] at he
  obtain ⟨r, hr, he⟩ := bind_eq_some_iff.mp he
  rw [takes, hr]
  cases hphase : r.phase with
  | loop =>
    simp only [hphase] at he ⊢
    obtain rfl := some.inj he
    exact h.goLoop hr
  | keyboard =>
    simp only [hphase] at he ⊢
    obtain rfl := some.inj he
    exact h.goKeyboard hr hphase
  | wait =>
    simp only [hphase] at he ⊢
    obtain ⟨-, -, -, -, hroom⟩ := h.running r hr
    rw [irqWaitInput] at he
    obtain ⟨sched, -, rfl⟩ := map_eq_some_iff.mp he
    rw [append_nil]
    exact h.goes hr { r with phase := .loop } (hroom (by rw [hphase]; decide)) rfl rfl rfl rfl
      (update_self ..)

/-- A byte of the serial port. -/
theorem Edits.irqComPush {ch : UInt8} (h : Edits t len s₀ taken came s)
    (he : s.irqComPush ch = some s') : Edits t len s₀ taken (came ++ s.arrives (.serial ch)) s' := by
  have hpush := h.ok.com.push_spec ch
  rw [TtyState.irqComPush] at he
  rw [arrives]
  split at hpush
  · next hroom =>
    obtain ⟨com, hpush, hcom, hcontents⟩ := hpush
    rw [hpush] at he
    obtain ⟨sched, -, rfl⟩ := map_eq_some_iff.mp he
    rw [if_pos hroom]
    exact h.aside ⟨h.ok.kb, hcom⟩ rfl rfl rfl hcontents (append_nil _).symm
  · next hfull =>
    rw [hpush] at he
    obtain rfl := some.inj he
    rw [if_neg hfull, append_nil]
    exact h

/-- A scancode of the keyboard. -/
theorem Edits.kbPush {sc : UInt8} (h : Edits t len s₀ taken came s) (he : s.kbPush sc = some s') :
    Edits t len s₀ taken (came ++ s.arrives (.keyboard sc)) s' := by
  have hpush := h.ok.kb.push_spec sc
  rw [TtyState.kbPush] at he
  rw [arrives]
  split at hpush
  · next hroom =>
    obtain ⟨kb, hpush, hkb, hcontents⟩ := hpush
    rw [hpush] at he
    obtain ⟨sched, -, rfl⟩ := map_eq_some_iff.mp he
    rw [if_pos hroom]
    exact h.aside ⟨hkb, h.ok.com⟩ rfl rfl rfl (append_nil _).symm hcontents
  · next hfull =>
    rw [hpush] at he
    obtain rfl := some.inj he
    rw [if_neg hfull, append_nil]
    exact h

/-- A step that changes nothing that the call depends on. -/
theorem Edits.quiet (h : Edits t len s₀ taken came s) (hinput : s'.input = s.input)
    (hshift : s'.shiftState = s.shiftState) (hreader : s'.reader t = s.reader t)
    (hresult : s'.result t = s.result t) : Edits t len s₀ (taken ++ []) (came ++ []) s' := by
  rw [append_nil]
  refine h.aside (hinput ▸ h.ok) hshift hreader hresult ?_ ?_
  · rw [hinput]
    exact (append_nil _).symm
  · rw [hinput]
    exact (append_nil _).symm

/-- What every step keeps. -/
theorem Edits.step (h : Edits t len s₀ taken came s) (halone : s.Alone t e) (he : s.step e = some s') :
    Edits t len s₀ (taken ++ s.takes t e) (came ++ s.arrives e) s' := by
  cases e with
  | keyboard sc =>
    have hnone : taken ++ s.takes t (.keyboard sc) = taken := append_nil taken
    rw [hnone]
    exact h.kbPush he
  | serial ch =>
    have hnone : taken ++ s.takes t (.serial ch) = taken := append_nil taken
    rw [hnone]
    exact h.irqComPush he
  | read n =>
    -- another thread calls `tty_read`
    have hother : t ≠ s.sched.currentThread := Ne.symm halone
    rw [TtyState.step] at he
    split at he
    · split at he
      · obtain rfl := some.inj he
        exact h.quiet rfl rfl (update_of_ne hother ..) (update_of_ne hother ..)
      · obtain rfl := some.inj he
        exact h.quiet rfl rfl (update_of_ne hother ..) rfl
    · cases he
  | go =>
    have hnone : came ++ s.arrives .go = came := append_nil came
    rw [hnone]
    exact h.go halone he
  | terminalKb => exact halone.elim
  | terminalCom => exact halone.elim
  | sched op =>
    rw [TtyState.step] at he
    split at he
    · obtain ⟨sched, -, rfl⟩ := map_eq_some_iff.mp he
      exact h.quiet rfl rfl rfl rfl
    · cases he

theorem Run.edits (h : Run t s₀ taken came s) (hstart : Edits t len s₀ [] [] s₀) :
    Edits t len s₀ taken came s := by
  induction h with
  | start => exact hstart
  | step _ halone he ih => exact ih.step halone he

/-- **`tty_read` is a line editor over the merged input.**  In a run after a call for `len` characters, let
`taken` be what the reader took from the rings, with the serial port first, and `came` what came into them.
The reader holds the line of the characters of `taken`, none of which but the last one stopped the
editor.  It returns the line exactly when the editor has stopped, and what it did not take is in the rings
in the order in which it came. -/
theorem tty_read_edits (hok : s₀.input.Ok) (hlen : 0 < len) (hcall : s₀.step (.read len) = some s')
    (hrun : Run s₀.sched.currentThread s' taken came s) :
    s.shiftState = (translate s₀.shiftState taken).1 ∧ serialOf taken ++ s.input.com.contents comBufSize
        = s₀.input.com.contents comBufSize ++ serialOf came ∧
      keysOf taken ++ s.input.kb.contents kbBufSize = s₀.input.kb.contents kbBufSize ++ keysOf came ∧
      (∀ p, p <+: (translate s₀.shiftState taken).2 → p ≠ (translate s₀.shiftState taken).2 →
        ¬Stops len p) ∧
      match s.reader s₀.sched.currentThread with
      | none => Stops len (translate s₀.shiftState taken).2 ∧
          s.result s₀.sched.currentThread = lineOf (translate s₀.shiftState taken).2
      | some r => r.buf = lineOf (translate s₀.shiftState taken).2 ∧
          (Stops len (translate s₀.shiftState taken).2 →
            r.phase = .loop ∧ s.goLoop s₀.sched.currentThread r = s.leave s₀.sched.currentThread r.buf) := by
  obtain ⟨hshift, hinput, hreader⟩ : s'.shiftState = s₀.shiftState ∧ s'.input = s₀.input ∧
      s'.reader s₀.sched.currentThread = some ⟨len, [], .loop⟩ := by
    rw [TtyState.step] at hcall
    split at hcall
    · rw [if_neg (by omega)] at hcall
      obtain rfl := some.inj hcall
      exact ⟨rfl, rfl, update_self ..⟩
    · cases hcall
  have hstart : Edits s₀.sched.currentThread len s' [] [] s' := by
    refine ⟨hinput ▸ hok, rfl, (append_nil _).symm, (append_nil _).symm, ?_, ?_, ?_⟩
    · intro p hp hne
      exact absurd (List.prefix_nil.mp hp) hne
    · rw [hreader]
      rintro r ⟨⟩
      exact ⟨rfl, rfl, not_mem_nil, Nat.zero_le _, fun hphase => absurd rfl hphase⟩
    · rw [hreader]
      nofun
  have hedits := hrun.edits hstart
  rw [← hshift, ← hinput]
  refine ⟨hedits.shift, hedits.com, hedits.kb, hedits.first, ?_⟩
  split
  · next hnone => exact hedits.returned hnone
  · next r hr =>
    obtain ⟨hlen', hbuf, hno, -, hphase⟩ := hedits.running r hr
    refine ⟨hbuf, fun hstops => ?_⟩
    -- a newline would have ended the call
    have hfull : r.buf.length = len := by
      rcases hstops with hlast | hfull
      · exact absurd (hbuf ▸ mem_of_getLast? hlast) hno
      · rw [hbuf]
        exact hfull
    refine ⟨?_, ?_⟩
    · by_contra hne
      have := hphase hne
      omega
    · rw [TtyState.goLoop, if_neg (by omega)]

instance (t : ℕ) (s : TtyState) : (e : Event) → Decidable (s.Alone t e)
  | .keyboard _ | .serial _ | .sched _ => inferInstanceAs (Decidable True)
  | .go => inferInstanceAs (Decidable (_ = _))
  | .read _ => inferInstanceAs (Decidable (_ ≠ _))
  | .terminalKb | .terminalCom => inferInstanceAs (Decidable False)

/-- A step with what was taken and what came before. -/
def aloneStep (t : ℕ) (p : List Item × List Item × TtyState) (e : Event) :
    Option (List Item × List Item × TtyState) :=
  if p.2.2.Alone t e then
    (p.2.2.step e).map fun s' => (p.1 ++ p.2.2.takes t e, p.2.1 ++ p.2.2.arrives e, s')
  else none

theorem Run.of_runAll {p q : List Item × List Item × TtyState} {es : List Event}
    (h : Run t s₀ p.1 p.2.1 p.2.2) (hrun : runAll (aloneStep t) p es = some q) :
    Run t s₀ q.1 q.2.1 q.2.2 := by
  induction es generalizing p with
  | nil => exact some.inj hrun ▸ h
  | cons e es ih =>
    obtain ⟨u, hu, hrun⟩ := bind_eq_some_iff.mp hrun
    rw [aloneStep] at hu
    split at hu
    · next halone =>
      obtain ⟨s', hs', rfl⟩ := map_eq_some_iff.mp hu
      exact ih (.step h halone hs') hrun
    · cases hu

/-- A thread has called `tty_read` for three characters. -/
def calledForThree : TtyState := ((init 1 0).step (.read 3)).getD (init 1 0)

/-- Shift and `a` on the keyboard, then a backspace, `b` and a carriage return on the serial port, and one
byte more. -/
def typedLine : List Event :=
  [.go, .keyboard 0x2A, .keyboard 0x1E, .go, .go, .go, .serial 8, .serial 98, .serial 13, .serial 99, .go, .go,
    .go]

def afterLine : List Item × List Item × TtyState :=
  (runAll (aloneStep 1) ([], [], calledForThree) typedLine).getD ([], [], calledForThree)

theorem run_afterLine : Run 1 calledForThree afterLine.1 afterLine.2.1 afterLine.2.2 := by
  have hsome : (runAll (aloneStep 1) ([], [], calledForThree) typedLine).isSome = true := by
    decide +kernel
  obtain ⟨q, hq⟩ := isSome_iff_exists.mp hsome
  rw [afterLine, hq, getD_some]
  exact .of_runAll .start hq

theorem tty_read_edits_typedLine :
    (afterLine.2.2.reader 1 = none ∧ afterLine.2.2.result 1 = [98, 10]) ∧
      serialOf afterLine.1 ++ afterLine.2.2.input.com.contents comBufSize
        = (init 1 0).input.com.contents comBufSize ++ serialOf afterLine.2.1 := by
  have hcall : (init 1 0).step (.read 3) = some calledForThree := by
    have hsome : ((init 1 0).step (.read 3)).isSome = true := by decide +kernel
    obtain ⟨u, hu⟩ := isSome_iff_exists.mp hsome
    rw [calledForThree, hu, getD_some]
  exact ⟨by decide +kernel, (tty_read_edits Input.empty_ok (by decide) hcall run_afterLine).2.1⟩

end TtyState

end Neptune
