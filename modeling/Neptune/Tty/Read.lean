import Neptune.Sched.Frame
import Neptune.Tty.Input

/-!
# Reading from the terminal

`tty_read` takes bytes from the serial ring and then from the keyboard ring until it has
a line or enough of them, and sleeps on `input_wq` when both rings are empty.  Any number
of threads can be inside it.  An interrupt puts one byte into a ring and wakes one
sleeper; it can come between any two of the steps here.

A call of `irq_com_pop` or `irq_kb_pop` is one step: an interrupt in the middle of it only
moves the head of the ring, so that it could as well have come before or after the call.

## Main definitions

* `scancodeToChar` — the keyboard.
* `Reader` — a thread inside `tty_read`.
* `TtyState`, `TtyState.step` — rings, readers and scheduler, and what can happen.
-/

namespace Neptune

/-! ### The keyboard -/

/-- A table of characters, as rows of keys with consecutive scancodes; 0 where there is no
key. -/
def scancodeTable (rows : List (ℕ × String)) (sc : UInt8) : UInt8 :=
  (rows.findSome? fun row =>
    if row.1 ≤ sc.toNat then (row.2.toList[sc.toNat - row.1]?).map fun c => c.toNat.toUInt8
    else none).getD 0

/-- `scancode_map`. -/
def scancodeMap : UInt8 → UInt8 :=
  scancodeTable [(0x02, "1234567890-="), (0x10, "qwertyuiop[]"), (0x1E, "asdfghjkl;'`"),
    (0x2B, "\\zxcvbnm,./"), (0x39, " ")]

/-- `scancode_shift_map`. -/
def scancodeShiftMap : UInt8 → UInt8 :=
  scancodeTable [(0x02, "!@#$%^&*()_+"), (0x10, "QWERTYUIOP\x7b\x7d"), (0x1E, "ASDFGHJKL:\"~"),
    (0x2B, "|ZXCVBNM<>?"), (0x39, " ")]

/-- `scancode_to_char`: the new `shift_state`, and the character if there is one. -/
def scancodeToChar (shiftState : Bool) (sc : UInt8) : Bool × Option UInt8 :=
  if sc = 0x2A ∨ sc = 0x36 then (true, none)
  else if sc = 0xAA ∨ sc = 0xB6 then (false, none)
  else if sc &&& 0x80 ≠ 0 then (shiftState, none)
  else if sc = 0x1C then (shiftState, some 10)
  else if sc = 0x0E then (shiftState, some 8)
  else
    let c := if shiftState then scancodeShiftMap sc else scancodeMap sc
    (shiftState, if c = 0 then none else some c)

/-! ### Readers -/

/-- Where a thread is in the loop of `tty_read`. -/
inductive Phase
  /-- At the head of the loop. -/
  | loop
  /-- The serial ring was empty. -/
  | keyboard
  /-- Both rings were empty. -/
  | wait
  deriving DecidableEq, Repr

/-- A thread inside `tty_read`; `buf` holds the first `count` bytes. -/
structure Reader where
  len : ℕ
  buf : List UInt8
  phase : Phase
  deriving DecidableEq, Repr

namespace Reader

/-- What the loop does with a character: a backspace takes one away, a newline is the last
one.  `inr` is what the call returns. -/
def take (r : Reader) (ch : UInt8) : Reader ⊕ List UInt8 :=
  if ch = 8 then .inl { r with buf := r.buf.dropLast, phase := .loop }
  else if ch = 10 then .inr (r.buf ++ [ch])
  else .inl { r with buf := r.buf ++ [ch], phase := .loop }

/-- The thread looks at the rings before it returns. -/
def Willing (r : Reader) : Prop := r.buf.length < r.len

end Reader

/-! ### Runs -/

open SchedState (Op schedInit)

/-- The terminal and the scheduler. -/
structure TtyState where
  sched : SchedState
  input : Input
  shiftState : Bool
  /-- The threads inside `tty_read`. -/
  reader : ℕ → Option Reader
  /-- What the last call of a thread has returned. -/
  result : ℕ → List UInt8

namespace TtyState

open Function (update)

/-- `input_wq`. -/
def inputWq : ℕ := 0

def setReader (s : TtyState) (t : ℕ) (r : Reader) : TtyState :=
  { s with reader := update s.reader t (some r) }

/-- `tty_read` returns. -/
def leave (s : TtyState) (t : ℕ) (buf : List UInt8) : TtyState :=
  { s with reader := update s.reader t none, result := update s.result t buf }

/-- A thread has taken a character. -/
def took (s : TtyState) (t : ℕ) : Reader ⊕ List UInt8 → TtyState
  | .inl r => s.setReader t r
  | .inr buf => s.leave t buf

/-- A reader at the head of the loop. -/
def goLoop (s : TtyState) (t : ℕ) (r : Reader) : TtyState :=
  if r.buf.length < r.len then
    match s.input.com.pop comBufSize with
    | some (ch, com) =>
      { s with input := { s.input with com := com } }.took t (r.take (if ch = 13 then 10 else ch))
    | none => s.setReader t { r with phase := .keyboard }
  else s.leave t r.buf

/-- A reader that looks at the keyboard. -/
def goKeyboard (s : TtyState) (t : ℕ) (r : Reader) : TtyState :=
  match s.input.kb.pop kbBufSize with
  | some (sc, kb) =>
    let typed := scancodeToChar s.shiftState sc
    let s := { s with input := { s.input with kb := kb }, shiftState := typed.1 }
    match typed.2 with
    | some ch => s.took t (r.take ch)
    | none => s.setReader t { r with phase := .loop }
  | none => s.setReader t { r with phase := .wait }

/-- `irq_wait_input`. -/
def irqWaitInput (s : TtyState) (t : ℕ) (r : Reader) : Option TtyState :=
  (s.sched.step (.sleepCond inputWq s.input.hasInput)).map fun sched =>
    { s with sched := sched }.setReader t { r with phase := .loop }

/-- The next step of the current thread inside `tty_read`. -/
def go (s : TtyState) : Option TtyState :=
  (s.reader s.sched.currentThread).bind fun r =>
    match r.phase with
    | .loop => some (s.goLoop s.sched.currentThread r)
    | .keyboard => some (s.goKeyboard s.sched.currentThread r)
    | .wait => s.irqWaitInput s.sched.currentThread r

/-- `kb_push`, in the keyboard interrupt. -/
def kbPush (s : TtyState) (sc : UInt8) : Option TtyState :=
  match s.input.kb.push kbBufSize sc with
  | some kb => (s.sched.step (.wakeOne inputWq)).map fun sched =>
      { s with sched := sched, input := { s.input with kb := kb } }
  | none => some s

/-- `irq_com_push`, in the serial interrupt. -/
def irqComPush (s : TtyState) (ch : UInt8) : Option TtyState :=
  match s.input.com.push comBufSize ch with
  | some com => (s.sched.step (.wakeOne inputWq)).map fun sched =>
      { s with sched := sched, input := { s.input with com := com } }
  | none => some s

/-- What can happen. -/
inductive Event
  | keyboard (sc : UInt8)
  | serial (ch : UInt8)
  /-- The current thread calls `tty_read`. -/
  | read (len : ℕ)
  /-- The current thread goes on inside `tty_read`. -/
  | go
  /-- `terminal_thread` takes a byte from the keyboard ring. -/
  | terminalKb
  /-- `terminal_thread` takes a byte from the serial ring. -/
  | terminalCom
  /-- A thread outside `tty_read` calls the scheduler, or the current thread is preempted. -/
  | sched (op : Op)
  deriving DecidableEq, Repr

def step (s : TtyState) : Event → Option TtyState
  | .keyboard sc => s.kbPush sc
  | .serial ch => s.irqComPush ch
  | .read len =>
    if s.reader s.sched.currentThread = none then
      if len = 0 then some (s.leave s.sched.currentThread [])
      else some (s.setReader s.sched.currentThread ⟨len, [], .loop⟩)
    else none
  | .go => s.go
  | .terminalKb => (s.input.kb.pop kbBufSize).map fun p =>
      { s with input := { s.input with kb := p.2 } }
  | .terminalCom => (s.input.com.pop comBufSize).map fun p =>
      { s with input := { s.input with com := p.2 } }
  | .sched op =>
    -- nobody else uses `input_wq`
    if (s.reader s.sched.currentThread = none ∨ op = .yield) ∧ op.queue ≠ some inputWq then
      (s.sched.step op).map fun sched => { s with sched := sched }
    else none

/-- The kernel is started as `kernel_main` starts it, and the idle thread does not read. -/
def Started (s : TtyState) : Event → Prop
  | .read _ | .go => s.sched.role s.sched.currentThread ≠ .idle ∧ s.sched.bootPc ≠ 0
  | .sched op => s.sched.Started op
  | _ => True

instance (s : TtyState) : (e : Event) → Decidable (s.Started e)
  | .read _ | .go => inferInstanceAs (Decidable (_ ∧ _))
  | .sched op => inferInstanceAs (Decidable (s.sched.Started op))
  | .keyboard _ | .serial _ | .terminalKb | .terminalCom => inferInstanceAs (Decidable True)

def init (t pml4 : ℕ) : TtyState := ⟨schedInit t pml4, .empty, false, fun _ => none, fun _ => []⟩

def Reachable : TtyState → Prop :=
  Reach (fun s => ∃ t pml4, t ≠ 0 ∧ s = init t pml4) fun s s' => ∃ e, s.Started e ∧ s.step e = some s'

end TtyState

end Neptune
