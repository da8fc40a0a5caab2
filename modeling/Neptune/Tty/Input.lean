import Mathlib.Data.List.Induction
import Neptune.Lib.Ring

/-!
# The input rings

`irq.c` keeps what the keyboard and the serial port have sent in two rings of 64 and
128 cells.  One cell stays free, so that the ring is empty exactly if its head is its
tail; a byte that comes when the ring is full is dropped.

## Main definitions

* `InputRing` — a ring, with `push`, `pop` and its `contents`.
* `Input` — both rings.
* `inputRun` — any interleaving of pushes and pops, with what went in and what came out.

## Main results

* `InputRing.Ok.push_spec`, `InputRing.Ok.pop_spec` — a byte goes in last, the oldest comes out.
* `input_rings_fifo` — **the rings are lossy queues**, in every run.
-/

namespace Neptune

open Nat

/-- The cells, and where the next byte goes in and comes out. -/
structure InputRing where
  buf : ℕ → UInt8
  head : ℕ
  tail : ℕ

namespace InputRing

open Function (update)

variable {r r' : InputRing} {size : ℕ} {b : UInt8}

/-- The body of `kb_push` and `irq_com_push` before the wake-up; `none` if the byte is
dropped. -/
def push (size : ℕ) (r : InputRing) (b : UInt8) : Option InputRing :=
  let next := (r.head + 1) % size
  if next ≠ r.tail then some { r with buf := update r.buf r.head b, head := next } else none

/-- `irq_kb_pop` and `irq_com_pop`; `none` if the ring is empty. -/
def pop (size : ℕ) (r : InputRing) : Option (UInt8 × InputRing) :=
  if r.tail = r.head then none
  else some (r.buf r.tail, { r with tail := (r.tail + 1) % size })

/-- The bytes in a ring. -/
def count (size : ℕ) (r : InputRing) : ℕ := (r.head + size - r.tail) % size

def empty : InputRing := ⟨fun _ => 0, 0, 0⟩

/-- Head and tail are in range. -/
structure Ok (size : ℕ) (r : InputRing) : Prop where
  head : r.head < size
  tail : r.tail < size

theorem empty_ok (h : 0 < size) : Ok size empty := ⟨h, h⟩

/-- The distance from the tail to the head. -/
theorem Ok.count_eq (h : Ok size r) :
    r.count size = if r.tail ≤ r.head then r.head - r.tail else r.head + size - r.tail := by
  have hhead := h.head
  have htail := h.tail
  rw [count]
  split
  · next hle =>
    rw [show r.head + size - r.tail = (r.head - r.tail) + size by omega, add_mod_right]
    exact mod_eq_of_lt (by omega)
  · exact mod_eq_of_lt (by omega)

theorem Ok.count_eq_zero (h : Ok size r) : r.count size = 0 ↔ r.head = r.tail := by
  have hhead := h.head
  have htail := h.tail
  rw [h.count_eq]
  split <;> omega

/-- One cell further, going round. -/
theorem succ_mod {i : ℕ} (h : i < size) : (i + 1) % size = if i + 1 = size then 0 else i + 1 := by
  split
  · next he => rw [he, mod_self]
  · exact mod_eq_of_lt (by omega)

/-- A byte that goes in is one more. -/
theorem Ok.push (h : Ok size r) (he : r.push size b = some r') :
    Ok size r' ∧ r'.count size = r.count size + 1 := by
  have hhead := h.head
  have htail := h.tail
  rw [InputRing.push] at he
  split at he
  · next hne =>
    obtain rfl := Option.some.inj he
    have hok : Ok size { r with buf := update r.buf r.head b, head := (r.head + 1) % size } :=
      ⟨mod_lt _ (by omega), htail⟩
    refine ⟨hok, ?_⟩
    rw [hok.count_eq, h.count_eq]
    dsimp only
    rw [succ_mod hhead] at hne ⊢
    -- the head is at the end of the buffer, or it is not
    by_cases hend : r.head + 1 = size
    · simp only [if_pos hend] at hne ⊢
      split <;> split <;> omega
    · simp only [if_neg hend] at hne ⊢
      split <;> split <;> omega
  · cases he

/-- A byte that comes out is one less. -/
theorem Ok.pop (h : Ok size r) (he : r.pop size = some (b, r')) :
    Ok size r' ∧ r.count size = r'.count size + 1 := by
  have hhead := h.head
  have htail := h.tail
  rw [InputRing.pop] at he
  split at he
  · cases he
  · next hne =>
    obtain ⟨-, rfl⟩ := Prod.mk.inj (Option.some.inj he)
    have hok : Ok size { r with tail := (r.tail + 1) % size } := ⟨hhead, mod_lt _ (by omega)⟩
    refine ⟨hok, ?_⟩
    rw [hok.count_eq, h.count_eq]
    dsimp only
    rw [succ_mod htail]
    by_cases hend : r.tail + 1 = size
    · simp only [if_pos hend]
      split <;> split <;> omega
    · simp only [if_neg hend]
      split <;> split <;> omega

theorem Ok.pop_none (h : Ok size r) (he : r.pop size = none) : r.count size = 0 := by
  rw [InputRing.pop] at he
  split at he
  · next htail => exact h.count_eq_zero.mpr htail.symm
  · cases he

/-! ### Rings as queues -/

/-- The bytes in a ring, the oldest first. -/
def contents (size : ℕ) (r : InputRing) : List UInt8 := ringContents r.buf size r.tail (r.count size)

theorem Ok.count_lt (h : Ok size r) : r.count size < size := mod_lt _ (by have := h.head; omega)

/-- The head is behind the last byte. -/
theorem Ok.head_eq (h : Ok size r) : (r.tail + r.count size) % size = r.head := by
  have hhead := h.head
  have htail := h.tail
  rw [h.count_eq]
  split
  · rw [show r.tail + (r.head - r.tail) = r.head by omega]
    exact mod_eq_of_lt hhead
  · rw [show r.tail + (r.head + size - r.tail) = r.head + size by omega, add_mod_right]
    exact mod_eq_of_lt hhead

/-- A byte goes in behind the others, unless the ring is full. -/
theorem Ok.push_spec (h : Ok size r) (b : UInt8) : if r.count size + 1 < size
    then ∃ r', r.push size b = some r' ∧ Ok size r' ∧ r'.contents size = r.contents size ++ [b]
    else r.push size b = none := by
  have hhead := h.head
  have htail := h.tail
  have hnext : (r.head + 1) % size = r.tail ↔ r.count size + 1 = size := by
    rw [h.count_eq, succ_mod hhead]
    split <;> split <;> omega
  have hlt := h.count_lt
  split
  · next hroom =>
    have hne : (r.head + 1) % size ≠ r.tail := fun he => by have := hnext.mp he; omega
    have hpush : r.push size b
        = some { r with buf := Function.update r.buf r.head b, head := (r.head + 1) % size } := if_pos hne
    obtain ⟨hok, hcount⟩ := h.push hpush
    refine ⟨_, hpush, hok, ?_⟩
    rw [contents, hcount, contents, ← ringContents_put _ hlt, h.head_eq]
  · next hfull => exact if_neg (not_not.mpr (hnext.mpr (by omega)))

/-- The oldest byte comes out. -/
theorem Ok.pop_spec (h : Ok size r) : match r.contents size with
    | [] => r.pop size = none
    | b :: rest => ∃ r', r.pop size = some (b, r') ∧ Ok size r' ∧ r'.contents size = rest := by
  cases hpop : r.pop size with
  | none => rw [contents, h.pop_none hpop, ringContents_zero]
  | some p =>
    obtain ⟨b, r'⟩ := p
    obtain ⟨hok, hcount⟩ := h.pop hpop
    have hcells : b = r.buf r.tail ∧ r' = { r with tail := (r.tail + 1) % size } := by
      rw [InputRing.pop] at hpop
      split at hpop
      · cases hpop
      · obtain ⟨rfl, rfl⟩ := Prod.mk.inj (Option.some.inj hpop)
        exact ⟨rfl, rfl⟩
    have hcontents : r.contents size = b :: r'.contents size := by
      rw [contents, hcount, ringContents_get, mod_eq_of_lt h.tail, contents, hcells.1, hcells.2]
    rw [hcontents]
    exact ⟨r', rfl, hok, rfl⟩

end InputRing

/-- `KB_BUF_SIZE`. -/
def kbBufSize : ℕ := 64

/-- `COM_BUF_SIZE`. -/
def comBufSize : ℕ := 128

/-- Both rings. -/
structure Input where
  kb : InputRing
  com : InputRing

namespace Input

variable {i : Input}

def empty : Input := ⟨.empty, .empty⟩

/-- `irq_has_input`. -/
def hasInput (i : Input) : Bool := i.kb.head ≠ i.kb.tail || i.com.head ≠ i.com.tail

/-- The bytes in both rings. -/
def count (i : Input) : ℕ := i.kb.count kbBufSize + i.com.count comBufSize

structure Ok (i : Input) : Prop where
  kb : i.kb.Ok kbBufSize
  com : i.com.Ok comBufSize

theorem empty_ok : empty.Ok :=
  ⟨InputRing.empty_ok (by decide), InputRing.empty_ok (by decide)⟩

/-- There is input exactly if there is a byte. -/
theorem Ok.hasInput_eq (h : i.Ok) : i.hasInput = false ↔ i.count = 0 := by
  rw [count, Nat.add_eq_zero_iff, h.kb.count_eq_zero, h.com.count_eq_zero]
  simp [hasInput]

end Input

/-! ### Runs -/

/-- The device that a ring belongs to. -/
inductive Port
  | kb
  | com
  deriving DecidableEq, Repr

def Port.bufSize : Port → ℕ
  | .kb => kbBufSize
  | .com => comBufSize

/-- A call of a push or a pop. -/
inductive RingCall
  | push (b : UInt8)
  | pop
  deriving DecidableEq, Repr

/-- A ring, with the bytes that it has accepted and the bytes that have been popped. -/
structure RingLog where
  ring : InputRing
  accepted : List UInt8
  popped : List UInt8

namespace RingLog

variable {s : RingLog} {size : ℕ}

def start : RingLog := ⟨.empty, [], []⟩

def step (size : ℕ) (s : RingLog) : RingCall → RingLog
  | .push b =>
    match s.ring.push size b with
    | some ring => { s with ring := ring, accepted := s.accepted ++ [b] }
    | none => s
  | .pop =>
    match s.ring.pop size with
    | some (b, ring) => { s with ring := ring, popped := s.popped ++ [b] }
    | none => s

/-- What has come out and what is stored is what went in. -/
structure Fifo (size : ℕ) (s : RingLog) : Prop where
  ok : s.ring.Ok size
  queue : s.popped ++ s.ring.contents size = s.accepted

theorem start_fifo (h : 0 < size) : Fifo size start := by
  refine ⟨InputRing.empty_ok h, ?_⟩
  have hcount : InputRing.empty.count size = 0 := (InputRing.empty_ok h).count_eq_zero.mpr rfl
  rw [start, InputRing.contents, hcount, ringContents_zero]
  rfl

theorem Fifo.step (h : Fifo size s) (call : RingCall) : Fifo size (s.step size call) := by
  cases call with
  | push b =>
    have hpush := h.ok.push_spec b
    rw [RingLog.step]
    split at hpush
    · obtain ⟨r, hr, hok, hcontents⟩ := hpush
      rw [hr]
      refine ⟨hok, ?_⟩
      dsimp only
      rw [hcontents, ← List.append_assoc, h.queue]
    · rw [hpush]
      exact h
  | pop =>
    have hpop := h.ok.pop_spec
    have hqueue := h.queue
    rw [RingLog.step]
    split at hpop
    · rw [hpop]
      exact h
    · next b rest hcontents =>
      obtain ⟨r, hr, hok, hrest⟩ := hpop
      rw [hr]
      refine ⟨hok, ?_⟩
      dsimp only
      rw [hrest, ← hqueue, hcontents, List.append_assoc]
      rfl

/-- A byte is dropped only by a full ring. -/
theorem Fifo.of_dropped {b : UInt8} (h : Fifo size s) (hdrop : s.ring.push size b = none) :
    (s.ring.contents size).length = size - 1 := by
  have hlt := h.ok.count_lt
  have hpush := h.ok.push_spec b
  rw [InputRing.contents, length_ringContents]
  split at hpush
  · obtain ⟨r, hr, -⟩ := hpush
    rw [hdrop] at hr
    cases hr
  · omega

end RingLog

/-- Any interleaving of calls on the two rings, from the start of the kernel on. -/
def inputRun (calls : List (Port × RingCall)) : Port → RingLog :=
  calls.foldl (fun s c => Function.update s c.1 ((s c.1).step c.1.bufSize c.2)) fun _ => .start

theorem fifo_inputRun (calls : List (Port × RingCall)) (port : Port) :
    (inputRun calls port).Fifo port.bufSize := by
  -- the invariant of both rings, over the calls from the last one back
  induction calls using List.reverseRecOn generalizing port with
  | nil =>
    refine RingLog.start_fifo ?_
    cases port <;> decide
  | append_singleton calls call ih =>
    rw [inputRun, List.foldl_append]
    show (Function.update (inputRun calls) call.1 _ port).Fifo port.bufSize
    by_cases hport : port = call.1
    · subst hport
      rw [Function.update_self]
      exact (ih call.1).step call.2
    · rw [Function.update_of_ne hport]
      exact ih port

/-- **The input rings are lossy queues**: in every interleaving of pushes and pops head and tail stay
in range, what has been popped and what is stored is what was accepted, and a byte is dropped only by
a ring that holds one byte less than it has cells. -/
theorem input_rings_fifo (calls : List (Port × RingCall)) (port : Port) :
    let s := inputRun calls port
    s.ring.head < port.bufSize ∧ s.ring.tail < port.bufSize ∧
      s.popped ++ s.ring.contents port.bufSize = s.accepted ∧
      ∀ b, s.ring.push port.bufSize b = none →
        (s.ring.contents port.bufSize).length = port.bufSize - 1 := by
  have hfifo := fifo_inputRun calls port
  refine ⟨hfifo.ok.head, hfifo.ok.tail, hfifo.queue, ?_⟩
  intro b hdrop
  exact hfifo.of_dropped hdrop

end Neptune
