import Neptune.Lib.Ring
import Neptune.Lib.Runs
import Neptune.Lib.Word64

/-!
# Pipes

`pipe.c`: a ring buffer of 4096 bytes under a lock.  A read on an empty pipe and
a write on a full one drop the lock, yield, and try again, so a call is a number
of segments between which any other call may run.  Each segment holds the lock
with interrupts off and is one step.

The state records, beside the pipe, the bytes that the calls have stored and
delivered, in that order, each with the call that did it.

## Main definitions

* `Pipe.readSegment`, `Pipe.writeLoop` — what a call does while it holds the lock.
* `PipeState.step` — beginning a call, running one of its segments, closing an end.
* `PipeState.Reachable` — the states that interleavings reach.

## Main results

* `fifo` — no byte is lost, duplicated or reordered, and what the results mean.
-/

namespace Neptune

open Function List Nat Option
open Word64 (int64)

/-- `PIPE_SIZE`. -/
def pipeSize : ℕ := 4096

/-- `-SYSCALL_EIO`. -/
def syscallEio : ℤ := -6

/-- `struct pipe`, without its lock and its unused wait queues. -/
structure Pipe where
  buffer : ℕ → UInt8
  readPos : ℕ
  writePos : ℕ
  used : ℕ
  readers : ℤ
  writers : ℤ

namespace Pipe

/-- `pipe_alloc_struct`. -/
def allocStruct : Pipe where
  buffer := fun _ => 0
  readPos := 0
  writePos := 0
  used := 0
  readers := 1
  writers := 1

/-- The body of the copy loop of `pipe_read_impl`, without the copy. -/
def advance (p : Pipe) : Pipe :=
  { p with readPos := (p.readPos + 1) % pipeSize, used := p.used - 1 }

/-- The body of the store loop of `pipe_write_impl`. -/
def put (p : Pipe) (b : UInt8) : Pipe :=
  { p with
    buffer := update p.buffer p.writePos b
    writePos := (p.writePos + 1) % pipeSize
    used := p.used + 1 }

/-- The copy loop, with the bytes it copies out. -/
def readLoop (p : Pipe) : ℕ → Pipe × List UInt8
  | 0 => (p, [])
  | len + 1 =>
    if 0 < p.used then
      let (p', bytes) := p.advance.readLoop len
      (p', p.buffer p.readPos :: bytes)
    else (p, [])

/-- `pipe_read_impl` from an acquisition of the lock to the next release: the
bytes copied out and the result, or `none` for the result when it yields. -/
def readSegment (p : Pipe) (len : ℕ) : Pipe × List UInt8 × Option ℤ :=
  if p.used = 0 then
    if p.writers = 0 then (p, [], some 0) else (p, [], none)
  else
    let (p', bytes) := p.readLoop len
    (p', bytes, some (int64 bytes.length))

/-- The store loop: `written` counts the bytes stored, and the list holds those
that are not. -/
def storeLoop (p : Pipe) (written : ℕ) : List UInt8 → Pipe × ℕ × List UInt8
  | [] => (p, written, [])
  | b :: rest =>
    if p.used < pipeSize then (p.put b).storeLoop (written + 1) rest
    else (p, written, b :: rest)

/-- The outer loop of `pipe_write_impl` up to the next release of the lock.  With
more than `pipeSize` bytes in use it would never end. -/
def writeLoop : ℕ → Pipe → ℕ → List UInt8 → Option (Pipe × ℕ × Option ℤ)
  | 0, _, _, _ => none
  | _ + 1, p, written, [] => some (p, written, some (int64 written))
  | fuel + 1, p, written, b :: rest =>
    if p.used = pipeSize then
      some (p, written, if p.readers = 0 then some syscallEio else none)
    else
      let (p', written', rest') := p.storeLoop written (b :: rest)
      writeLoop fuel p' written' rest'

/-- The segment of a write that has stored `written` bytes of `data`. -/
def writeSegment (p : Pipe) (written : ℕ) (data : List UInt8) : Option (Pipe × ℕ × Option ℤ) :=
  writeLoop (data.length + 1) p written (data.drop written)

/-- `pipe_close_impl`, with whether it frees the pipe. -/
def closeImpl (p : Pipe) (isWriter : Bool) : Pipe × Bool :=
  let p := if isWriter then { p with writers := p.writers - 1 }
    else { p with readers := p.readers - 1 }
  (p, decide (p.readers = 0 ∧ p.writers = 0))

/-- The bytes in the pipe, oldest first. -/
def contents (p : Pipe) : List UInt8 := ringContents p.buffer pipeSize p.readPos p.used

end Pipe

/-! ### Calls and their interleavings -/

/-- The arguments of a call; `buf` says whether the buffer is not `NULL`. -/
inductive PipeRequest
  | read (buf : Bool) (len : ℕ)
  | write (buf : Bool) (data : List UInt8)
  deriving DecidableEq, Repr

/-- Where a call is. -/
inductive PipeStatus
  | called
  /-- In `sched_yield`, with this many bytes written. -/
  | yielding (written : ℕ)
  | returned (ret : ℤ)
  deriving DecidableEq, Repr

/-- A pipe, its calls, and the bytes they have stored and delivered so far. -/
structure PipeState where
  pipe : Pipe
  freed : Bool
  calls : ℕ → Option (PipeRequest × PipeStatus)
  stored : List (ℕ × UInt8)
  delivered : List (ℕ × UInt8)

inductive PipeAction
  | begin (id : ℕ) (req : PipeRequest)
  | run (id : ℕ)
  | close (isWriter : Bool)
  deriving DecidableEq, Repr

namespace PipeState

/-- The status after a segment. -/
def statusOf (written : ℕ) : Option ℤ → PipeStatus
  | some ret => .returned ret
  | none => .yielding written

def setCall (s : PipeState) (id : ℕ) (req : PipeRequest) (st : PipeStatus) : PipeState :=
  { s with calls := update s.calls id (some (req, st)) }

/-- The next segment of a read. -/
def runRead (s : PipeState) (id : ℕ) (buf : Bool) (len : ℕ) : PipeState :=
  if buf then
    let (p, bytes, ret) := s.pipe.readSegment len
    { s.setCall id (.read buf len) (statusOf 0 ret) with
      pipe := p, delivered := s.delivered ++ bytes.map (id, ·) }
  else s.setCall id (.read buf len) (.returned (-1))

/-- The loop of a write that has stored `written` bytes. -/
def runWriteLoop (s : PipeState) (id : ℕ) (buf : Bool) (data : List UInt8) (written : ℕ) :
    Option PipeState :=
  (s.pipe.writeSegment written data).map fun (p, written', ret) =>
    { s.setCall id (.write buf data) (statusOf written' ret) with
      pipe := p
      stored := s.stored ++ ((data.drop written).take (written' - written)).map (id, ·) }

/-- The first segment of a write. -/
def beginWrite (s : PipeState) (id : ℕ) (buf : Bool) (data : List UInt8) : Option PipeState :=
  if buf then
    if s.pipe.readers = 0 then some (s.setCall id (.write buf data) (.returned syscallEio))
    else s.runWriteLoop id buf data 0
  else some (s.setCall id (.write buf data) (.returned (-1)))

/-- The next segment of a call. -/
def run (s : PipeState) (id : ℕ) : Option PipeState :=
  match s.calls id with
  | none => none
  | some (_, .returned _) => none
  | some (.read buf len, _) => some (s.runRead id buf len)
  | some (.write buf data, .called) => s.beginWrite id buf data
  | some (.write buf data, .yielding written) => s.runWriteLoop id buf data written

/-- One step; on a freed pipe there is none. -/
def step (s : PipeState) (a : PipeAction) : Option PipeState :=
  if s.freed then none
  else match a with
    | .begin id req =>
      match s.calls id with
      | none => some (s.setCall id req .called)
      | some _ => none
    | .run id => s.run id
    | .close isWriter =>
      let (p, loose) := s.pipe.closeImpl isWriter
      some { s with pipe := p, freed := loose }

/-- A new pipe, before any call. -/
def created : PipeState where
  pipe := .allocStruct
  freed := false
  calls := fun _ => none
  stored := []
  delivered := []

/-- The states that interleavings of calls and closes reach. -/
def Reachable : PipeState → Prop := Reach (· = created) fun s s' => ∃ a, s.step a = some s'

end PipeState

/-! ### The ring buffer -/

namespace Pipe

variable {p : Pipe}

/-- The positions and the number of bytes agree. -/
structure Ok (p : Pipe) : Prop where
  used_le : p.used ≤ pipeSize
  readPos_lt : p.readPos < pipeSize
  writePos_eq : p.writePos = (p.readPos + p.used) % pipeSize

theorem pipeSize_pos : 0 < pipeSize := by decide

theorem Ok.advance (h : p.Ok) (hu : 0 < p.used) : p.advance.Ok := by
  have hle := h.used_le
  refine ⟨by unfold Pipe.advance; dsimp only; omega, mod_lt _ pipeSize_pos, ?_⟩
  show p.writePos = ((p.readPos + 1) % pipeSize + (p.used - 1)) % pipeSize
  rw [mod_add_mod, h.writePos_eq]
  congr 1
  omega

theorem Ok.contents_advance (h : p.Ok) (hu : 0 < p.used) :
    p.contents = p.buffer p.readPos :: p.advance.contents := by
  obtain ⟨n, hn⟩ : ∃ n, p.used = n + 1 := ⟨p.used - 1, by omega⟩
  have hadv : p.advance.used = n := by
    show p.used - 1 = n
    omega
  rw [contents, hn, ringContents_get, mod_eq_of_lt h.readPos_lt, contents, hadv]
  rfl

theorem Ok.put (h : p.Ok) (hu : p.used < pipeSize) (b : UInt8) : (p.put b).Ok := by
  refine ⟨hu, h.readPos_lt, ?_⟩
  show (p.writePos + 1) % pipeSize = (p.readPos + (p.used + 1)) % pipeSize
  rw [h.writePos_eq, mod_add_mod, add_assoc]

theorem Ok.contents_put (h : p.Ok) (hu : p.used < pipeSize) (b : UInt8) :
    (p.put b).contents = p.contents ++ [b] := by
  show ringContents (update p.buffer p.writePos b) pipeSize p.readPos (p.used + 1) = _
  rw [h.writePos_eq, ringContents_put _ hu]
  rfl

/-- The copy loop takes bytes off the front until it has enough or there are none. -/
theorem readLoop_spec (h : p.Ok) (len : ℕ) :
    (p.readLoop len).1.Ok ∧ p.contents = (p.readLoop len).2 ++ (p.readLoop len).1.contents ∧
      (p.readLoop len).2.length = min len p.used := by
  induction len generalizing p with
  | zero => exact ⟨h, rfl, (zero_min _).symm⟩
  | succ len ih =>
    rw [readLoop]
    split
    · next hu =>
      obtain ⟨hok, hc, hl⟩ := ih (h.advance hu)
      refine ⟨hok, ?_, ?_⟩
      · rw [h.contents_advance hu, hc]; rfl
      · have hadv : p.advance.used = p.used - 1 := rfl
        rw [length_cons, hl, hadv]
        omega
    · next hu => exact ⟨h, rfl, by simp; omega⟩

theorem int64_of_le {n : ℕ} (h : n ≤ pipeSize) : int64 n = n := by
  have hsize : pipeSize = 4096 := rfl
  exact Word64.int64_of_lt (by omega)

/-- The segment of a read: it yields, or it returns the number of bytes copied;
that is zero only at the end of the file, or when none were asked for. -/
theorem readSegment_spec (h : p.Ok) (len : ℕ) : ∃ p' got ret, p.readSegment len = (p', got, ret) ∧
    p'.Ok ∧ p.contents = got ++ p'.contents ∧ got.length ≤ len ∧
    (ret = none ∧ got = [] ∨ ret = some (got.length : ℤ)) ∧
    (ret = some 0 → len = 0 ∨ p.used = 0 ∧ p.writers = 0) := by
  unfold readSegment
  by_cases hu : p.used = 0
  · rw [if_pos hu]
    by_cases hw : p.writers = 0
    · rw [if_pos hw]
      exact ⟨p, [], _, rfl, h, rfl, zero_le _, .inr rfl, fun _ => .inr ⟨hu, hw⟩⟩
    · rw [if_neg hw]
      exact ⟨p, [], _, rfl, h, rfl, zero_le _, .inl ⟨rfl, rfl⟩, fun h => nomatch h⟩
  · rw [if_neg hu]
    obtain ⟨hok, hc, hl⟩ := readLoop_spec h len
    have hle := h.used_le
    have hret : int64 (p.readLoop len).2.length = ((p.readLoop len).2.length : ℤ) :=
      int64_of_le (by omega)
    refine ⟨_, _, _, rfl, hok, hc, by omega, .inr (congrArg some hret), fun h0 => .inl ?_⟩
    rw [hret] at h0
    have := some.inj h0
    omega

/-- The store loop appends bytes until all are stored or the buffer is full. -/
theorem storeLoop_spec (written : ℕ) (rest : List UInt8) (h : p.Ok) :
    ∃ p' n, p.storeLoop written rest = (p', written + n, rest.drop n) ∧ n ≤ rest.length ∧ p'.Ok ∧
      p'.contents = p.contents ++ rest.take n ∧ (p.used < pipeSize → rest ≠ [] → 0 < n) := by
  induction rest generalizing p written with
  | nil => exact ⟨p, 0, rfl, le_rfl, h, (append_nil _).symm, fun _ hne => absurd rfl hne⟩
  | cons b rest ih =>
    rw [storeLoop]
    split
    · next hu =>
      obtain ⟨p', n, heq, hn, hok, hc, -⟩ := ih (written + 1) (h.put hu b)
      refine ⟨p', n + 1, ?_, succ_le_succ hn, hok, ?_, fun _ _ => succ_pos n⟩
      · rw [heq, add_assoc, add_comm 1 n]; rfl
      · rw [hc, h.contents_put hu, append_assoc]; rfl
    · next hu =>
      exact ⟨p, 0, rfl, zero_le _, h, (append_nil _).symm, fun hlt => absurd hlt hu⟩

/-- **The loop of a write ends**: it has stored everything and returns the count,
or the buffer is full and it fails or yields. -/
theorem writeLoop_spec {fuel : ℕ} (written : ℕ) {rest : List UInt8} (h : p.Ok)
    (hfuel : rest.length < fuel) :
    ∃ p' n ret, writeLoop fuel p written rest = some (p', written + n, ret) ∧ n ≤ rest.length ∧
      p'.Ok ∧ p'.contents = p.contents ++ rest.take n ∧
      (ret = none ∨ ret = some syscallEio ∨ ret = some (int64 (written + n)) ∧ n = rest.length) := by
  induction fuel generalizing p written rest with
  | zero => exact absurd hfuel (not_lt_zero _)
  | succ fuel ih =>
    cases rest with
    | nil =>
      exact ⟨p, 0, _, rfl, le_rfl, h, (append_nil _).symm, .inr (.inr ⟨rfl, rfl⟩)⟩
    | cons b rest =>
      rw [writeLoop]
      split
      · refine ⟨p, 0, _, rfl, zero_le _, h, (append_nil _).symm, ?_⟩
        split
        · exact .inr (.inl rfl)
        · exact .inl rfl
      · next hfull =>
        have hlt : p.used < pipeSize := lt_of_le_of_ne h.used_le hfull
        obtain ⟨p₁, n₁, heq₁, hn₁, hok₁, hc₁, hpos⟩ := storeLoop_spec written (b :: rest) h
        have hlen : ((b :: rest).drop n₁).length < fuel := by
          have := hpos hlt (cons_ne_nil _ _)
          rw [length_drop]
          omega
        obtain ⟨p₂, n₂, ret, heq₂, hn₂, hok₂, hc₂, hret⟩ := ih (written + n₁) hok₁ hlen
        rw [length_drop] at hn₂ hret
        refine ⟨p₂, n₁ + n₂, ret, ?_, by omega, hok₂, ?_, ?_⟩
        · rw [heq₁, ← add_assoc]; exact heq₂
        · rw [hc₂, hc₁, append_assoc, take_add]
        · rw [← add_assoc]
          rcases hret with hret | hret | ⟨hret, hn⟩
          · exact .inl hret
          · exact .inr (.inl hret)
          · exact .inr (.inr ⟨hret, by omega⟩)

end Pipe

/-! ### Interleavings -/

namespace PipeState

variable {s s' : PipeState}

/-- The bytes of one call in a record. -/
def bytesOf (id : ℕ) (log : List (ℕ × UInt8)) : List UInt8 :=
  (log.filter fun e => e.1 = id).map Prod.snd

theorem bytesOf_append_self (id : ℕ) (log : List (ℕ × UInt8)) (bytes : List UInt8) :
    bytesOf id (log ++ bytes.map (id, ·)) = bytesOf id log ++ bytes := by
  have hall : (bytes.map (id, ·)).filter (fun e => decide (e.1 = id)) = bytes.map (id, ·) := by
    refine filter_eq_self.mpr fun e he => ?_
    obtain ⟨b, -, rfl⟩ := mem_map.mp he
    exact decide_eq_true rfl
  rw [bytesOf, List.filter_append, hall, List.map_append, List.map_map]
  exact congrArg _ (List.map_id _)

theorem bytesOf_append_of_ne {id id' : ℕ} (h : id' ≠ id) (log : List (ℕ × UInt8))
    (bytes : List UInt8) : bytesOf id' (log ++ bytes.map (id, ·)) = bytesOf id' log := by
  have hnone : (bytes.map (id, ·)).filter (fun e => decide (e.1 = id')) = [] := by
    refine filter_eq_nil_iff.mpr fun e he => ?_
    obtain ⟨b, -, rfl⟩ := mem_map.mp he
    simpa using h.symm
  rw [bytesOf, filter_append, hnone, append_nil]
  rfl

/-- What a call has stored and received, by where it is. -/
def CallOk (got put : List UInt8) : Option (PipeRequest × PipeStatus) → Prop
  | none => got = [] ∧ put = []
  | some (.read _ len, .returned ret) =>
    put = [] ∧ got.length ≤ len ∧ (0 ≤ ret → ret = got.length)
  | some (.read _ _, _) => got = [] ∧ put = []
  | some (.write _ _, .called) => got = [] ∧ put = []
  | some (.write _ data, .yielding written) =>
    got = [] ∧ written ≤ data.length ∧ put = data.take written
  | some (.write _ data, .returned ret) =>
    got = [] ∧ put <+: data ∧ (0 ≤ ret → put = data)

/-- The invariant of the interleavings. -/
structure Inv (s : PipeState) : Prop where
  ok : s.pipe.Ok
  queue : s.delivered.map Prod.snd ++ s.pipe.contents = s.stored.map Prod.snd
  calls : ∀ id, CallOk (bytesOf id s.delivered) (bytesOf id s.stored) (s.calls id)

theorem inv_created : created.Inv :=
  ⟨⟨by decide, by decide, rfl⟩, rfl, fun _ => ⟨rfl, rfl⟩⟩

/-- A segment of one call, which stores or delivers bytes of its own. -/
theorem Inv.segment (hi : s.Inv) (id : ℕ) (req : PipeRequest) (st : PipeStatus) {p : Pipe}
    (got put : List UInt8) (hok : p.Ok) (hq : s.pipe.contents ++ put = got ++ p.contents)
    (hcall : CallOk (bytesOf id s.delivered ++ got) (bytesOf id s.stored ++ put) (some (req, st))) :
    ({ s.setCall id req st with
      pipe := p
      delivered := s.delivered ++ got.map (id, ·)
      stored := s.stored ++ put.map (id, ·) } : PipeState).Inv := by
  have hsnd : ∀ l : List UInt8, (l.map (id, ·)).map Prod.snd = l := fun l => by
    rw [List.map_map]; exact List.map_id _
  refine ⟨hok, ?_, fun j => ?_⟩
  · dsimp only
    rw [map_append, map_append, hsnd, hsnd, ← hi.queue, append_assoc, append_assoc, hq]
  · rcases eq_or_ne j id with rfl | hj
    · dsimp only [setCall]
      rw [bytesOf_append_self, bytesOf_append_self, update_self]
      exact hcall
    · dsimp only [setCall]
      rw [bytesOf_append_of_ne hj, bytesOf_append_of_ne hj, update_of_ne hj]
      exact hi.calls j

/-- A call that changes its status only. -/
theorem Inv.setCall (hi : s.Inv) {id : ℕ} {req : PipeRequest} {st : PipeStatus}
    (hcall : CallOk (bytesOf id s.delivered) (bytesOf id s.stored) (some (req, st))) :
    (s.setCall id req st).Inv := by
  refine ⟨hi.ok, hi.queue, fun j => ?_⟩
  rcases eq_or_ne j id with rfl | hj
  · dsimp only [PipeState.setCall]
    rw [update_self]
    exact hcall
  · dsimp only [PipeState.setCall]
    rw [update_of_ne hj]
    exact hi.calls j

theorem Inv.runRead (hi : s.Inv) {id len : ℕ} {buf : Bool} {st : PipeStatus}
    (hc : s.calls id = some (.read buf len, st)) (hst : ∀ ret, st ≠ .returned ret) :
    (s.runRead id buf len).Inv := by
  obtain ⟨hgot, hput⟩ : bytesOf id s.delivered = [] ∧ bytesOf id s.stored = [] := by
    have := hi.calls id
    rw [hc] at this
    cases st with
    | called | yielding => exact this
    | returned ret => exact absurd rfl (hst ret)
  unfold PipeState.runRead
  split
  · obtain ⟨p, got, ret, heq, hok, hcont, hlen, hret, -⟩ := Pipe.readSegment_spec hi.ok len
    rw [heq]
    have hseg := hi.segment id (.read buf len) (statusOf 0 ret) got [] hok
      ((append_nil _).trans hcont) ?_
    · rwa [map_nil, append_nil] at hseg
    · rw [hgot, hput]
      rcases hret with ⟨rfl, rfl⟩ | rfl
      · exact ⟨rfl, rfl⟩
      · exact ⟨rfl, hlen, fun _ => rfl⟩
  · exact hi.setCall (by rw [hgot, hput]; exact ⟨rfl, zero_le _, fun h => absurd h (by decide)⟩)

theorem Inv.runWriteLoop (hi : s.Inv) {id written : ℕ} {buf : Bool} {data : List UInt8}
    (hgot : bytesOf id s.delivered = []) (hw : written ≤ data.length)
    (hput : bytesOf id s.stored = data.take written)
    (h : s.runWriteLoop id buf data written = some s') : s'.Inv := by
  obtain ⟨⟨p, written', ret⟩, heq, rfl⟩ := map_eq_some_iff.mp h
  have hfuel : (data.drop written).length < data.length + 1 := by rw [length_drop]; omega
  obtain ⟨p₁, n, ret₁, heq₁, hn, hok, hcont, hret⟩ := Pipe.writeLoop_spec written hi.ok hfuel
  obtain ⟨rfl, rfl, rfl⟩ : p₁ = p ∧ written + n = written' ∧ ret₁ = ret := by
    simpa using heq₁.symm.trans heq
  rw [length_drop] at hn hret
  have hseg := hi.segment id (.write buf data) (statusOf (written + n) ret₁) []
    ((data.drop written).take n) hok (by rw [nil_append, hcont]) ?_
  · rw [map_nil, append_nil] at hseg
    dsimp only
    rw [Nat.add_sub_cancel_left]
    exact hseg
  · have htake : bytesOf id s.stored ++ (data.drop written).take n = data.take (written + n) := by
      rw [hput, take_add]
    rw [hgot, htake]
    rcases hret with rfl | rfl | ⟨rfl, hn'⟩
    · exact ⟨rfl, by omega, rfl⟩
    · exact ⟨rfl, List.take_prefix _ _, fun h => absurd h (by decide)⟩
    · refine ⟨rfl, List.take_prefix _ _, fun _ => take_of_length_le (by omega)⟩

theorem Inv.run (hi : s.Inv) {id : ℕ} (h : s.run id = some s') : s'.Inv := by
  have hcall := hi.calls id
  unfold PipeState.run at h
  split at h
  · cases h
  · cases h
  · next buf len st hst hc =>
    obtain rfl := some.inj h
    exact hi.runRead hc hst
  · next buf data hc =>
    rw [hc] at hcall
    obtain ⟨hgot, hput⟩ := hcall
    unfold PipeState.beginWrite at h
    split at h
    · split at h
      · obtain rfl := some.inj h
        exact hi.setCall (by
          rw [hgot, hput]; exact ⟨rfl, List.nil_prefix, fun h => absurd h (by decide)⟩)
      · exact hi.runWriteLoop hgot (zero_le _) hput h
    · obtain rfl := some.inj h
      exact hi.setCall (by
        rw [hgot, hput]; exact ⟨rfl, List.nil_prefix, fun h => absurd h (by decide)⟩)
  · next buf data written hc =>
    rw [hc] at hcall
    obtain ⟨hgot, hw, hput⟩ := hcall
    exact hi.runWriteLoop hgot hw hput h

theorem Inv.step (hi : s.Inv) {a : PipeAction} (h : s.step a = some s') : s'.Inv := by
  unfold PipeState.step at h
  split at h
  · cases h
  · cases a with
    | begin id req =>
      dsimp only at h
      split at h
      · next hc =>
        obtain rfl := some.inj h
        have hcall := hi.calls id
        rw [hc] at hcall
        exact hi.setCall (by cases req <;> exact hcall)
      · cases h
    | run id => exact hi.run h
    | close isWriter =>
      obtain rfl := some.inj h
      cases isWriter <;> exact ⟨⟨hi.ok.used_le, hi.ok.readPos_lt, hi.ok.writePos_eq⟩, hi.queue, hi.calls⟩

/-- A read returns zero only when no byte was asked for, or at the end of the file. -/
theorem Inv.read_zero (hi : s.Inv) {id len : ℕ} {buf : Bool} {st : PipeStatus}
    (hc : s.calls id = some (.read buf len, st)) (h : s.run id = some s')
    (hret : s'.calls id = some (.read buf len, .returned 0)) :
    len = 0 ∨ s.pipe.used = 0 ∧ s.pipe.writers = 0 := by
  obtain ⟨p, got, ret, heq, -, -, -, -, hzero⟩ := Pipe.readSegment_spec hi.ok len
  have hs' : s' = s.runRead id buf len := by
    unfold PipeState.run at h
    rw [hc] at h
    cases st with
    | called | yielding => exact (some.inj h).symm
    | returned => cases h
  rw [hs', PipeState.runRead] at hret
  split at hret
  · rw [heq] at hret
    have hst : statusOf 0 ret = .returned 0 := by
      simpa [PipeState.setCall] using hret
    cases ret with
    | none => cases hst
    | some r => exact hzero (congrArg some (PipeStatus.returned.inj hst))
  · simp [PipeState.setCall] at hret

/-- What holds of a pipe at every point of every interleaving. -/
structure Fifo (s : PipeState) : Prop where
  used_le : s.pipe.used ≤ pipeSize
  writePos_eq : s.pipe.writePos = (s.pipe.readPos + s.pipe.used) % pipeSize
  /-- The bytes delivered, then those in the buffer, are the bytes stored. -/
  queue : s.delivered.map Prod.snd ++ s.pipe.contents = s.stored.map Prod.snd
  /-- Each writer's bytes are stored in its own order. -/
  writes : ∀ id buf data st, s.calls id = some (.write buf data, st) → bytesOf id s.stored <+: data
  /-- A write that returns a count has stored all its bytes. -/
  written : ∀ id buf data ret, s.calls id = some (.write buf data, .returned ret) → 0 ≤ ret →
    bytesOf id s.stored = data
  /-- A read that returns a count has received that many bytes. -/
  received : ∀ id buf len ret, s.calls id = some (.read buf len, .returned ret) → 0 ≤ ret →
    ret = (bytesOf id s.delivered).length ∧ ret ≤ len
  /-- A read that now returns zero asked for nothing, or is at the end of the file. -/
  read_zero : ∀ id buf len st s', s.calls id = some (.read buf len, st) → s.run id = some s' →
    s'.calls id = some (.read buf len, .returned 0) →
    len = 0 ∨ s.pipe.used = 0 ∧ s.pipe.writers = 0

theorem Inv.fifo (hi : s.Inv) : s.Fifo where
  used_le := hi.ok.used_le
  writePos_eq := hi.ok.writePos_eq
  queue := hi.queue
  writes := by
    intro id buf data st hc
    have hcall := hi.calls id
    rw [hc] at hcall
    cases st with
    | called => rw [hcall.2]; exact List.nil_prefix
    | yielding written => rw [hcall.2.2]; exact List.take_prefix _ _
    | returned ret => exact hcall.2.1
  written := by
    intro id buf data ret hc hret
    have hcall := hi.calls id
    rw [hc] at hcall
    exact hcall.2.2 hret
  received := by
    intro id buf len ret hc hret
    have hcall := hi.calls id
    rw [hc] at hcall
    have := hcall.2.2 hret
    have := hcall.2.1
    exact ⟨hcall.2.2 hret, by omega⟩
  read_zero := fun _ _ _ _ _ hc h hret => hi.read_zero hc h hret

/-- **A pipe is a first-in first-out queue**, over every interleaving of reads,
writes and closes. -/
theorem pipe_fifo (h : s.Reachable) : s.Fifo := by
  refine Inv.fifo (Reach.invariant h ?_ ?_)
  · rintro s rfl
    exact inv_created
  · rintro s s' hi ⟨a, hs⟩
    exact hi.step hs

/-- A read on the empty pipe yields, two writes run, and the read is resumed. -/
def sampleActions : List PipeAction :=
  [.begin 0 (.read true 3), .run 0, .begin 1 (.write true [1, 2]), .begin 2 (.write true [3, 4]),
    .run 2, .run 1, .close true, .run 0]

theorem pipe_fifo_sample :
    ((runAll step created sampleActions).getD created).delivered = [(0, 3), (0, 4), (0, 1)] ∧
      ((runAll step created sampleActions).getD created).Fifo := by
  have hr : created.Reachable := .init rfl
  exact ⟨by decide, pipe_fifo (hr.runAll_getD sampleActions)⟩

end PipeState

end Neptune
