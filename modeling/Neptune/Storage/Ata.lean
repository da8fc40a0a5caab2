import Neptune.Lib.ByteMem
import Mathlib.Data.List.Flatten
import Mathlib.Data.List.Range

/-!
# The ATA driver

`ata_init` identifies the disk and returns a pointer to the `struct block_device` that is embedded in its
`struct ata_device`.  `ata_read` and `ata_write` get this pointer and cast it to the outer structure, so
that they see the embedded one in its place: the ports and the drive are taken from the pointer to the
name, and the number of sectors is the size of a sector.

A bus answers the reads of the driver in turn and logs what the driver does.

## Main definitions

* `Bus` — the ports.
* `ataInit`, `ataRead`, `ataWrite` — the driver.
* `Command` — a command as the disk sees it.
* `Serves` — what the driver is to do.

## Main results

* `ataTransfer_spec` — the commands of a transfer.
* `ata_serves_iff` — **when the driver serves the disk it identified**.
-/

namespace Neptune

open ByteMem List

/-! ### Ports -/

/-- What the driver does with its ports.  The outcome of a poll is noted as well. -/
inductive PortEvent where
  | outb (port value : ℕ)
  | outw (port value : ℕ)
  | inb (port : ℕ)
  | inw (port : ℕ)
  | polled (ok : Bool)
  deriving DecidableEq, Repr

/-- The values that the ports are going to give, and what has been done so far. -/
structure Bus where
  inputs : ℕ → ℕ
  log : List PortEvent

/-- The number of a port. -/
def u16 (x : ℕ) : ℕ := x % 2 ^ 16

namespace Bus

def note (b : Bus) (e : PortEvent) : Bus := { b with log := b.log ++ [e] }

def outb (b : Bus) (port value : ℕ) : Bus := b.note (.outb (u16 port) (value % 256))

def outw (b : Bus) (port value : ℕ) : Bus := b.note (.outw (u16 port) (value % 2 ^ 16))

/-- The next value of a port.  What is read depends on all that has been done before. -/
def inb (b : Bus) (port : ℕ) : ℕ × Bus := (b.inputs b.log.length % 256, b.note (.inb (u16 port)))

def inw (b : Bus) (port : ℕ) : ℕ × Bus := (b.inputs b.log.length % 2 ^ 16, b.note (.inw (u16 port)))

end Bus

/-! ### The driver -/

/-- The fields of a `struct ata_device` before the embedded `struct block_device`. -/
structure AtaDevice where
  io : ℕ
  ctrl : ℕ
  drive : ℕ
  sectors : ℕ
  deriving DecidableEq, Repr

/-- The structure at an address. -/
def ataDeviceAt (m : ByteMem) (a : ℕ) : AtaDevice :=
  ⟨m.load 2 a, m.load 2 (a + 2), m.load 1 (a + 4), m.load 4 (a + 8)⟩

/-- The offset of `dev` in `struct ata_device`. -/
def ataDevOffset : ℕ := 16

def ataSrErr : ℕ := 0x01
def ataSrDrq : ℕ := 0x08
def ataSrDf : ℕ := 0x20
def ataSrBsy : ℕ := 0x80
def ataCmdIdentify : ℕ := 0xEC
def ataCmdRead : ℕ := 0x20
def ataCmdWrite : ℕ := 0x30
def ataCmdFlush : ℕ := 0xE7

/-- The passes of a waiting loop. -/
def ataSpins : ℕ := 100000

/-- The words of a sector. -/
def sectorWords : ℕ := 256

/-- The loop that waits for `BSY` to go, with the last status. -/
def bsyLoop (io : ℕ) : ℕ → ℕ → Bus → ℕ × Bus
  | 0, status, b => (status, b)
  | n + 1, _, b =>
    let (status, b) := b.inb (io + 7)
    if status &&& ataSrBsy = 0 then (status, b) else bsyLoop io n status b

/-- `ata_wait_not_bsy`. -/
def ataWaitNotBsy (io : ℕ) (b : Bus) : ℤ × Bus :=
  let (status, b) := bsyLoop io ataSpins ataSrBsy b
  (if status &&& ataSrBsy = 0 then 0 else -1, b)

/-- The loop that waits for `DRQ`. -/
def drqLoop (io : ℕ) : ℕ → Bus → Bool × Bus
  | 0, b => (false, b)
  | n + 1, b =>
    let (status, b) := b.inb (io + 7)
    if status &&& ataSrDrq ≠ 0 then (true, b)
    else if status &&& (ataSrErr ||| ataSrDf) ≠ 0 then (false, b)
    else drqLoop io n b

/-- `ata_poll`, which succeeds or not. -/
def ataPoll (io : ℕ) (b : Bus) : Bool × Bus :=
  let (status, b) := bsyLoop io ataSpins 0 b
  let (ok, b) := if status &&& (ataSrErr ||| ataSrDf) ≠ 0 then (false, b) else drqLoop io ataSpins b
  (ok, b.note (.polled ok))

/-- The words of a sector are read. -/
def inWords (io : ℕ) : ℕ → Bus → List ℕ × Bus
  | 0, b => ([], b)
  | n + 1, b =>
    let (w, b) := b.inw io
    let (ws, b) := inWords io n b
    (w :: ws, b)

/-- The words of a sector are written. -/
def outWords (io : ℕ) (src : ℕ → ℕ) : ℕ → ℕ → Bus → Bus
  | 0, _, b => b
  | n + 1, i, b => outWords io src n (i + 1) (b.outw io (src i))

/-- `ata_identify`.  It returns the number of sectors. -/
def ataIdentify (dev : AtaDevice) (b : Bus) : Option ℕ × Bus :=
  let io := dev.io
  let b := b.outb dev.ctrl 0x02
  let b := b.outb (io + 6) (0xA0 ||| dev.drive <<< 4)
  let b := b.outb (io + 2) 0
  let b := b.outb (io + 3) 0
  let b := b.outb (io + 4) 0
  let b := b.outb (io + 5) 0
  let b := b.outb (io + 7) ataCmdIdentify
  let (status, b) := b.inb (io + 7)
  if status = 0 then (none, b)
  else
    let (r, b) := ataWaitNotBsy io b
    if r ≠ 0 then (none, b)
    else
      let (mid, b) := b.inb (io + 4)
      let (high, b) := b.inb (io + 5)
      if mid ≠ 0 ∨ high ≠ 0 then (none, b)
      else
        let (ok, b) := ataPoll io b
        if !ok then (none, b)
        else
          let (data, b) := inWords io sectorWords b
          let sectors := data.getD 60 0 ||| data.getD 61 0 <<< 16
          if sectors = 0 then (none, b) else (some sectors, b)

/-- The `while (count)` loop for one command: the sectors are polled for and transferred one by one. -/
def sectorLoop (io : ℕ) (write : Bool) (buf : ℕ → ℕ) : ℕ → ℕ → List ℕ → Bus → Bool × List ℕ × Bus
  | 0, _, data, b => (true, data, b)
  | n + 1, k, data, b =>
    let (ok, b) := ataPoll io b
    if !ok then (false, data, b)
    else if write then sectorLoop io write buf n (k + 1) data (outWords io buf sectorWords (sectorWords * k) b)
    else
      let (ws, b) := inWords io sectorWords b
      sectorLoop io write buf n (k + 1) (data ++ ws) b

/-- The registers of a command. -/
def issue (dev : AtaDevice) (cmd lba chunk : ℕ) (b : Bus) : Bus :=
  let io := dev.io
  let b := b.outb dev.ctrl 0x02
  let b := b.outb (io + 6) (0xE0 ||| dev.drive <<< 4 ||| (lba >>> 24 &&& 0x0F))
  let b := b.outb (io + 2) chunk
  let b := b.outb (io + 3) (lba &&& 0xFF)
  let b := b.outb (io + 4) (lba >>> 8 &&& 0xFF)
  let b := b.outb (io + 5) (lba >>> 16 &&& 0xFF)
  b.outb (io + 7) cmd

/-- The loop over the commands of a transfer, with `n` passes left; each is for a sector at least.  `k`
sectors have been transferred. -/
def commandLoop (dev : AtaDevice) (write : Bool) (buf : ℕ → ℕ) :
    ℕ → ℕ → ℕ → ℕ → List ℕ → Bus → ℤ × List ℕ × Bus
  | 0, _, _, _, data, b => (0, data, b)
  | n + 1, lba, count, k, data, b =>
    if count = 0 then (0, data, b)
    else
      let chunk := if count > 255 then 255 else count
      let b := issue dev (if write then ataCmdWrite else ataCmdRead) lba chunk b
      let (ok, data, b) := sectorLoop dev.io write buf chunk k data b
      if !ok then (-1, data, b)
      else
        let b := if write then (ataWaitNotBsy dev.io (b.outb (dev.io + 7) ataCmdFlush)).2 else b
        commandLoop dev write buf n (lba + chunk) (count - chunk) (k + chunk) data b

/-- What `ata_read` and `ata_write` have in common.  The result has the words that were read. -/
def ataTransfer (m : ByteMem) (write : Bool) (bdev lba count : ℕ) (buf : ℕ → ℕ) (b : Bus) :
    ℤ × List ℕ × Bus :=
  if count = 0 then (-1, [], b)
  else
    -- `(struct ata_device *)bdev`
    let dev := ataDeviceAt m bdev
    if lba ≥ dev.sectors ∨ count > dev.sectors - lba then (-1, [], b)
    else commandLoop dev write buf count lba count 0 [] b

/-- `ata_read`. -/
def ataRead (m : ByteMem) (bdev lba count : ℕ) (b : Bus) : ℤ × List ℕ × Bus :=
  ataTransfer m false bdev lba count (fun _ => 0) b

/-- `ata_write` of the words of `buf`. -/
def ataWrite (m : ByteMem) (bdev lba count : ℕ) (buf : ℕ → ℕ) (b : Bus) : ℤ × List ℕ × Bus :=
  ataTransfer m true bdev lba count buf b

/-- `ata_init` with the static structure at `a`, the name at `name` and the functions at `read` and
`write`.  It returns the embedded structure. -/
def ataInit (m : ByteMem) (a name read write : ℕ) (b : Bus) : Option ℕ × ByteMem × Bus :=
  let m := ((((((((m.store 2 a 0x1F0).store 2 (a + 2) 0x3F6).store 1 (a + 4) 0).store 4 (a + 8) 0).store 8
    (a + 16) name).store 8 (a + 24) 512).store 8 (a + 32) 0).store 8 (a + 40) read).store 8 (a + 48) write
  match ataIdentify (ataDeviceAt m a) b with
  | (none, b) => (none, m, b)
  | (some sectors, b) =>
    let m := m.store 4 (a + 8) sectors
    (some (a + ataDevOffset), m.store 8 (a + 32) (m.load 4 (a + 8)), b)

/-! ### What the driver logs -/

/-- The port that an event is about. -/
def PortEvent.port : PortEvent → Option ℕ
  | .outb port _ | .outw port _ | .inb port | .inw port => some port
  | .polled _ => none

/-- What is written to the registers, as ports and values. -/
def outsOf (es : List PortEvent) : List (ℕ × ℕ) :=
  es.filterMap fun
    | .outb port value => some (port, value)
    | _ => none

@[simp] theorem outsOf_append (es es' : List PortEvent) :
    outsOf (es ++ es') = outsOf es ++ outsOf es' := filterMap_append

/-- The bus `b'` is `b` after the events. -/
structure Appends (b b' : Bus) (es : List PortEvent) : Prop where
  log : b'.log = b.log ++ es
  inputs : b'.inputs = b.inputs

/-- The events are about the ports of the device. -/
def OnPorts (dev : AtaDevice) (es : List PortEvent) : Prop :=
  ∀ e ∈ es, ∀ p, e.port = some p → p = u16 dev.ctrl ∨ ∃ j ≤ 7, p = u16 (dev.io + j)

variable {b b' b'' : Bus} {es es' : List PortEvent} {dev : AtaDevice} {io n k lba count : ℕ}
  {write : Bool} {buf : ℕ → ℕ} {data : List ℕ}

theorem Appends.refl (b : Bus) : Appends b b [] := ⟨(append_nil _).symm, rfl⟩

theorem Appends.trans (h : Appends b b' es) (h' : Appends b' b'' es') : Appends b b'' (es ++ es') :=
  ⟨by rw [h'.log, h.log, append_assoc], h'.inputs.trans h.inputs⟩

theorem Bus.appends_note (b : Bus) (e : PortEvent) : Appends b (b.note e) [e] := ⟨rfl, rfl⟩

theorem OnPorts.append (h : OnPorts dev es) (h' : OnPorts dev es') : OnPorts dev (es ++ es') :=
  forall_mem_append.mpr ⟨h, h'⟩

/-- Events of one kind at the ports of the device. -/
theorem onPorts_of_forall (h : ∀ e ∈ es, ∃ j ≤ 7, e.port = some (u16 (dev.io + j))) :
    OnPorts dev es := by
  intro e he p hp
  obtain ⟨j, hj, hport⟩ := h e he
  exact .inr ⟨j, hj, Option.some.inj (hp.symm.trans hport)⟩

theorem bsyLoop_appends (io n status : ℕ) (b : Bus) : ∃ es,
    Appends b (bsyLoop io n status b).2 es ∧ ∀ e ∈ es, e = .inb (u16 (io + 7)) := by
  induction n generalizing status b with
  | zero => exact ⟨[], .refl b, by simp⟩
  | succ n ih =>
    rw [bsyLoop]
    dsimp only [Bus.inb]
    split
    · exact ⟨_, b.appends_note _, by simp⟩
    · obtain ⟨es, hes, hall⟩ := ih (b.inputs b.log.length % 256) (b.note (.inb (u16 (io + 7))))
      exact ⟨_, (b.appends_note _).trans hes, by simpa using hall⟩

theorem drqLoop_appends (io n : ℕ) (b : Bus) : ∃ es,
    Appends b (drqLoop io n b).2 es ∧ ∀ e ∈ es, e = .inb (u16 (io + 7)) := by
  induction n generalizing b with
  | zero => exact ⟨[], .refl b, by simp⟩
  | succ n ih =>
    rw [drqLoop]
    dsimp only [Bus.inb]
    split
    · exact ⟨_, b.appends_note _, by simp⟩
    · split
      · exact ⟨_, b.appends_note _, by simp⟩
      · obtain ⟨es, hes, hall⟩ := ih (b.note (.inb (u16 (io + 7))))
        exact ⟨_, (b.appends_note _).trans hes, by simpa using hall⟩

/-- A poll reads the status and notes its outcome. -/
theorem ataPoll_appends (io : ℕ) (b : Bus) : ∃ es,
    Appends b (ataPoll io b).2 (es ++ [.polled (ataPoll io b).1]) ∧
      ∀ e ∈ es, e = .inb (u16 (io + 7)) := by
  obtain ⟨es, hes, hall⟩ := bsyLoop_appends io ataSpins 0 b
  rw [ataPoll]
  dsimp only
  split
  · exact ⟨es, hes.trans (Bus.appends_note _ _), hall⟩
  · obtain ⟨es', hes', hall'⟩ := drqLoop_appends io ataSpins (bsyLoop io ataSpins 0 b).2
    exact ⟨es ++ es', (hes.trans hes').trans (Bus.appends_note _ _),
      forall_mem_append.mpr ⟨hall, hall'⟩⟩

theorem inWords_appends (io n : ℕ) (b : Bus) : ∃ es,
    Appends b (inWords io n b).2 es ∧ ∀ e ∈ es, e = .inw (u16 io) := by
  induction n generalizing b with
  | zero => exact ⟨[], .refl b, by simp⟩
  | succ n ih =>
    obtain ⟨es, hes, hall⟩ := ih (b.note (.inw (u16 io)))
    exact ⟨_, (b.appends_note _).trans hes, by simpa using hall⟩

theorem outWords_appends (io : ℕ) (buf : ℕ → ℕ) (n i : ℕ) (b : Bus) : ∃ es,
    Appends b (outWords io buf n i b) es ∧ ∀ e ∈ es, ∃ v, e = .outw (u16 io) v := by
  induction n generalizing i b with
  | zero => exact ⟨[], .refl b, by simp⟩
  | succ n ih =>
    obtain ⟨es, hes, hall⟩ := ih (i + 1) (b.outw io (buf i))
    exact ⟨_, (b.appends_note _).trans hes, by simpa using hall⟩

/-! ### Transfers -/

/-- The sectors of a command are transferred if every poll succeeds.  No register is written. -/
theorem sectorLoop_spec (dev : AtaDevice) (write : Bool) (buf : ℕ → ℕ) (n k : ℕ) (data : List ℕ)
    (b : Bus) : ∃ es, Appends b (sectorLoop dev.io write buf n k data b).2.2 es ∧ outsOf es = [] ∧
      OnPorts dev es ∧
      ((sectorLoop dev.io write buf n k data b).1 = true ↔ .polled false ∉ es) := by
  induction n generalizing k data b with
  | zero => exact ⟨[], .refl b, rfl, by simp [OnPorts], by simp [sectorLoop]⟩
  | succ n ih =>
    obtain ⟨es, hes, hall⟩ := ataPoll_appends dev.io b
    -- the events of the poll
    have hports : OnPorts dev (es ++ [.polled (ataPoll dev.io b).1]) := by
      refine OnPorts.append (onPorts_of_forall fun e he => ⟨7, le_rfl, ?_⟩) (by simp [OnPorts, PortEvent.port])
      rw [hall e he]
      rfl
    have houts : outsOf (es ++ [.polled (ataPoll dev.io b).1]) = [] := by
      refine filterMap_eq_nil_iff.mpr fun e he => ?_
      rcases mem_append.mp he with he | he
      · rw [hall e he]
      · rw [mem_singleton.mp he]
    have hpolled : ∀ ok, .polled ok ∉ es := fun ok hmem => by simpa using hall _ hmem
    rw [sectorLoop]
    dsimp only
    split
    · next hfail =>
      have hok : (ataPoll dev.io b).1 = false := by simpa using hfail
      refine ⟨_, hes, houts, hports, ?_⟩
      simp [hok]
    next hgood =>
    have hok : (ataPoll dev.io b).1 = true := by simpa using hgood
    rw [hok] at hes hports houts
    -- the words of the sector, and the sectors that are left
    have hrest : ∀ {ws b₁ es₁}, Appends (ataPoll dev.io b).2 b₁ es₁ →
        (∀ e ∈ es₁, e.port = some (u16 dev.io) ∧ ∀ p v ok, e ≠ .outb p v ∧ e ≠ .polled ok) →
        ∃ es, Appends b (sectorLoop dev.io write buf n (k + 1) ws b₁).2.2 es ∧ outsOf es = [] ∧
          OnPorts dev es ∧
          ((sectorLoop dev.io write buf n (k + 1) ws b₁).1 = true ↔ .polled false ∉ es) := by
      intro ws b₁ es₁ h₁ hdata
      obtain ⟨es₂, h₂, houts₂, hports₂, hiff⟩ := ih (k + 1) ws b₁
      refine ⟨_, (hes.trans h₁).trans h₂, ?_, ?_, ?_⟩
      · have houts₁ : outsOf es₁ = [] := by
          refine filterMap_eq_nil_iff.mpr fun e he => ?_
          have hno := (hdata e he).2
          cases e with
          | outb p v => exact absurd rfl (hno p v true).1
          | _ => rfl
        rw [outsOf_append, outsOf_append, houts, houts₁, houts₂]
        rfl
      · refine (hports.append (onPorts_of_forall fun e he => ⟨0, by omega, ?_⟩)).append hports₂
        exact (hdata e he).1
      · have hno : .polled false ∉ es₁ := fun hmem => ((hdata _ hmem).2 0 0 false).2 rfl
        rw [hiff]
        simp [hno, hpolled false]
    split
    · obtain ⟨es₁, h₁, hall₁⟩ := outWords_appends dev.io buf sectorWords (sectorWords * k) (ataPoll dev.io b).2
      refine hrest h₁ fun e he => ?_
      obtain ⟨v, rfl⟩ := hall₁ e he
      exact ⟨rfl, by simp⟩
    · obtain ⟨es₁, h₁, hall₁⟩ := inWords_appends dev.io sectorWords (ataPoll dev.io b).2
      refine hrest h₁ fun e he => ?_
      rw [hall₁ e he]
      exact ⟨rfl, by simp⟩

/-- A command for `count` sectors from `lba` on, as 28-bit addressing allows it. -/
structure Command where
  lba : ℕ
  count : ℕ
  count_pos : 0 < count
  count_le : count ≤ 255
  inside : lba + count ≤ 2 ^ 28

/-- The registers of a command: the control register, drive and head, the number of sectors, the address
and the command. -/
def Command.registers (dev : AtaDevice) (write : Bool) (c : Command) : List (ℕ × ℕ) :=
  [(u16 dev.ctrl, 2), (u16 (dev.io + 6), 0xE0 + 16 * (dev.drive % 2) + c.lba / 2 ^ 24),
    (u16 (dev.io + 2), c.count), (u16 (dev.io + 3), c.lba % 256), (u16 (dev.io + 4), c.lba / 2 ^ 8 % 256),
    (u16 (dev.io + 5), c.lba / 2 ^ 16 % 256), (u16 (dev.io + 7), if write then 0x30 else 0x20)]

/-- All that is written to the registers for a command.  A write is flushed. -/
def Command.outs (dev : AtaDevice) (write : Bool) (c : Command) : List (ℕ × ℕ) :=
  c.registers dev write ++ if write then [(u16 (dev.io + 7), 0xE7)] else []

/-- The commands cover the sectors of the request in order, each once. -/
def Covers (cmds : List Command) (lba count : ℕ) : Prop :=
  (cmds.flatMap fun c => List.range' c.lba c.count) = List.range' lba count

/-- The head register has the drive and the top of the address. -/
theorem head_register (drive : ℕ) (hlba : lba < 2 ^ 28) :
    (0xE0 ||| drive <<< 4 ||| (lba >>> 24 &&& 0x0F)) % 256
      = 0xE0 + 16 * (drive % 2) + lba / 2 ^ 24 := by
  have hlow : lba >>> 24 &&& 0x0F = lba / 2 ^ 24 := by
    rw [Nat.shiftRight_eq_div_pow, Nat.and_two_pow_sub_one_eq_mod _ 4]
    exact Nat.mod_eq_of_lt (by omega)
  have hdrive : drive <<< 4 % 2 ^ 8 = 16 * (drive % 16) := by
    rw [Nat.shiftLeft_eq]
    omega
  have hbits : ∀ d < 16, ∀ l < 16, (0xE0 ||| 16 * d ||| l) % 2 ^ 8 = 0xE0 + 16 * (d % 2) + l := by
    decide
  have htop : lba / 2 ^ 24 < 16 := by omega
  calc (0xE0 ||| drive <<< 4 ||| (lba >>> 24 &&& 0x0F)) % 256
      = (0xE0 ||| 16 * (drive % 16) ||| lba / 2 ^ 24) % 2 ^ 8 := by
        rw [hlow, show (256 : ℕ) = 2 ^ 8 from rfl, Nat.or_mod_two_pow, Nat.or_mod_two_pow (a := 0xE0),
          hdrive, Nat.or_mod_two_pow (b := lba / 2 ^ 24), Nat.or_mod_two_pow (a := 0xE0),
          Nat.mod_eq_of_lt (by omega : 16 * (drive % 16) < 2 ^ 8)]
    _ = 0xE0 + 16 * (drive % 16 % 2) + lba / 2 ^ 24 := hbits _ (Nat.mod_lt _ (by norm_num)) _ htop
    _ = 0xE0 + 16 * (drive % 2) + lba / 2 ^ 24 := by rw [Nat.mod_mod_of_dvd _ (by norm_num)]

/-- The event of a register write. -/
def PortEvent.ofOut (o : ℕ × ℕ) : PortEvent := .outb o.1 o.2

@[simp] theorem outsOf_map_ofOut (l : List (ℕ × ℕ)) : outsOf (l.map PortEvent.ofOut) = l := by
  simp [outsOf, filterMap_map, Function.comp_def, PortEvent.ofOut]

theorem issue_appends (dev : AtaDevice) (write : Bool) (c : Command) (b : Bus) :
    Appends b (issue dev (if write then ataCmdWrite else ataCmdRead) c.lba c.count b)
      ((c.registers dev write).map PortEvent.ofOut) := by
  have hcount := c.count_le
  have hlba : c.lba < 2 ^ 28 := by
    have := c.inside
    have := c.count_pos
    omega
  have hand (x : ℕ) : x &&& 0xFF = x % 256 := Nat.and_two_pow_sub_one_eq_mod x 8
  have hcmd : (if write then ataCmdWrite else ataCmdRead) % 256 = if write then 0x30 else 0x20 := by
    cases write <;> rfl
  refine ⟨?_, rfl⟩
  simp [issue, Bus.outb, Bus.note, Command.registers, PortEvent.ofOut, head_register _ hlba, hand, hcmd,
    Nat.mod_eq_of_lt (by omega : c.count < 256), Nat.shiftRight_eq_div_pow c.lba 8,
    Nat.shiftRight_eq_div_pow c.lba 16]

theorem onPorts_registers (dev : AtaDevice) (write : Bool) (c : Command) :
    OnPorts dev ((c.registers dev write).map PortEvent.ofOut) := by
  intro e he p hp
  simp only [Command.registers, map_cons, map_nil, mem_cons, not_mem_nil,
    or_false] at he
  rcases he with rfl | rfl | rfl | rfl | rfl | rfl | rfl
  all_goals cases hp
  · exact .inl rfl
  all_goals exact .inr ⟨_, by decide, rfl⟩

/-- The flush after a write. -/
theorem flush_appends (dev : AtaDevice) (write : Bool) (b : Bus) : ∃ es,
    Appends b (if write then (ataWaitNotBsy dev.io (b.outb (dev.io + 7) ataCmdFlush)).2 else b) es ∧
      outsOf es = (if write then [(u16 (dev.io + 7), 0xE7)] else []) ∧ OnPorts dev es ∧
      .polled false ∉ es := by
  cases write with
  | false => exact ⟨[], .refl b, rfl, by simp [OnPorts], by simp⟩
  | true =>
    obtain ⟨es, hes, hall⟩ :=
      bsyLoop_appends dev.io ataSpins ataSrBsy (b.outb (dev.io + 7) ataCmdFlush)
    refine ⟨_, (b.appends_note _).trans hes, ?_, ?_, ?_⟩
    · have houts : outsOf es = [] := by
        refine filterMap_eq_nil_iff.mpr fun e he => ?_
        rw [hall e he]
      rw [outsOf_append, houts]
      rfl
    · refine onPorts_of_forall fun e he => ⟨7, le_rfl, ?_⟩
      rcases mem_append.mp he with he | he
      · rw [mem_singleton.mp he]
        rfl
      · rw [hall e he]
        rfl
    · intro hmem
      rcases mem_append.mp hmem with hmem | hmem
      · cases mem_singleton.mp hmem
      · cases hall _ hmem

theorem Covers.cons {c : Command} {cmds : List Command} (h : Covers cmds (c.lba + c.count) n) :
    Covers (c :: cmds) c.lba (c.count + n) := by
  rw [Covers, flatMap_cons, h, ← range'_append_1]

/-- The commands of a transfer of `count` sectors. -/
theorem commandLoop_spec (dev : AtaDevice) (write : Bool) (buf : ℕ → ℕ) (n lba count k : ℕ)
    (data : List ℕ) (b : Bus) (hn : count ≤ n) (hlba : lba + count ≤ 2 ^ 28) : ∃ es,
      Appends b (commandLoop dev write buf n lba count k data b).2.2 es ∧ OnPorts dev es ∧
      (0 < count → es ≠ []) ∧
      ((commandLoop dev write buf n lba count k data b).1 = 0 ↔ .polled false ∉ es) ∧
      (.polled false ∉ es → ∃ cmds, Covers cmds lba count ∧
        outsOf es = cmds.flatMap (Command.outs dev write)) := by
  induction n generalizing lba count k data b with
  | zero =>
    obtain rfl : count = 0 := by omega
    exact ⟨[], .refl b, by simp [OnPorts], by simp, by simp [commandLoop], fun _ => ⟨[], rfl, rfl⟩⟩
  | succ n ih =>
    rw [commandLoop]
    split
    · next hzero =>
      subst hzero
      exact ⟨[], .refl b, by simp [OnPorts], by simp, by simp, fun _ => ⟨[], rfl, rfl⟩⟩
    next hpos =>
    dsimp only
    obtain ⟨chunk, hchunk⟩ : ∃ chunk, (if count > 255 then 255 else count) = chunk := ⟨_, rfl⟩
    rw [hchunk]
    have hle : 0 < chunk ∧ chunk ≤ 255 ∧ chunk ≤ count := by
      split at hchunk <;> omega
    let c : Command := ⟨lba, chunk, hle.1, hle.2.1, by omega⟩
    have hissue := issue_appends dev write c b
    have hregs : .polled false ∉ (c.registers dev write).map PortEvent.ofOut := by
      simp [PortEvent.ofOut]
    obtain ⟨es, hes, houts, hports, hiff⟩ := sectorLoop_spec dev write buf chunk k data
      (issue dev (if write then ataCmdWrite else ataCmdRead) lba chunk b)
    generalize sectorLoop dev.io write buf chunk k data
      (issue dev (if write then ataCmdWrite else ataCmdRead) lba chunk b) = moved at hes hiff ⊢
    obtain ⟨ok, data', b'⟩ := moved
    have hbegin := hissue.trans hes
    have hports := (onPorts_registers dev write c).append hports
    cases ok with
    | false =>
      -- a poll failed
      have hmem : .polled false ∈ es := by
        by_contra hno
        simpa using hiff.mpr hno
      exact ⟨_, hbegin, hports, by simp [Command.registers], by simp [hmem],
        fun hno => absurd (mem_append_right _ hmem) hno⟩
    | true =>
      have hno : .polled false ∉ es := hiff.mp rfl
      obtain ⟨es₁, hes₁, houts₁, hports₁, hno₁⟩ := flush_appends dev write b'
      obtain ⟨es₂, hes₂, hports₂, -, hiff₂, hcmds⟩ := ih (lba + chunk) (count - chunk) (k + chunk) data'
        (if write then (ataWaitNotBsy dev.io (b'.outb (dev.io + 7) ataCmdFlush)).2 else b') (by omega)
        (by omega)
      refine ⟨_, (hbegin.trans hes₁).trans hes₂, (hports.append hports₁).append hports₂,
        by simp [Command.registers], ?_, ?_⟩
      · refine hiff₂.trans ?_
        simp [hno, hno₁, hregs]
      · intro hall
        obtain ⟨cmds, hcover, houts₂⟩ := hcmds fun hmem => hall (mem_append_right _ hmem)
        refine ⟨c :: cmds, ?_, ?_⟩
        · have hcons := Covers.cons (c := c) hcover
          rwa [show c.count + (count - chunk) = count by simp only [c]; omega] at hcons
        · rw [flatMap_cons, outsOf_append, outsOf_append, outsOf_append, outsOf_map_ofOut, houts,
            houts₁, houts₂, Command.outs, append_nil]

/-! ### A disk that is always ready -/

/-- The status is `DRQ` whenever it is read. -/
def Bus.Ready (b : Bus) : Prop := ∀ i, b.inputs i = 0x08

theorem Bus.Ready.appends (h : b.Ready) (hes : Appends b b' es) : b'.Ready := by
  intro i
  rw [hes.inputs]
  exact h i

theorem ataPoll_ready (h : b.Ready) : (ataPoll io b).1 = true := by
  have hspins : ataSpins = 99999 + 1 := rfl
  have hbsy : (bsyLoop io (99999 + 1) 0 b).1 = 0x08 := by
    rw [bsyLoop]
    simp [Bus.inb, h _, ataSrBsy]
  have hready : (bsyLoop io (99999 + 1) 0 b).2.Ready := by
    obtain ⟨es, hes, -⟩ := bsyLoop_appends io (99999 + 1) 0 b
    exact h.appends hes
  have hdrq : ∀ {b : Bus}, b.Ready → (drqLoop io (99999 + 1) b).1 = true := by
    intro b hb
    rw [drqLoop]
    simp [Bus.inb, hb _, ataSrDrq]
  rw [ataPoll, hspins]
  dsimp only
  rw [hbsy, if_neg (by decide)]
  exact hdrq hready

theorem sectorLoop_ready (h : b.Ready) : (sectorLoop dev.io write buf n k data b).1 = true := by
  induction n generalizing k data b with
  | zero => rfl
  | succ n ih =>
    obtain ⟨es, hes, -⟩ := ataPoll_appends dev.io b
    have hready := h.appends hes
    rw [sectorLoop]
    dsimp only
    rw [ataPoll_ready h, if_neg (by decide)]
    split
    · obtain ⟨es₁, hes₁, -⟩ := outWords_appends dev.io buf sectorWords (sectorWords * k) (ataPoll dev.io b).2
      exact ih (hready.appends hes₁)
    · obtain ⟨es₁, hes₁, -⟩ := inWords_appends dev.io sectorWords (ataPoll dev.io b).2
      exact ih (hready.appends hes₁)

/-- A ready disk transfers one sector. -/
theorem commandLoop_ready (h : b.Ready) : (commandLoop dev write buf 1 lba 1 0 data b).1 = 0 := by
  have hissue : (issue dev (if write then ataCmdWrite else ataCmdRead) lba 1 b).Ready := h
  simp [commandLoop, sectorLoop_ready hissue]

/-! ### The disk that was identified -/

/-- What a driver of the disk does with a request that takes the bus from `b` to `b'` and returns `r`.
A request is accepted if it is for sectors of the disk, and only the ports of the disk are used.  If no
poll fails, there are commands for just the sectors of the request. -/
structure Handles (dev : AtaDevice) (write : Bool) (lba count : ℕ) (b b' : Bus) (r : ℤ)
    (es : List PortEvent) : Prop where
  log : b'.log = b.log ++ es
  accepts : es ≠ [] ↔ 0 < count ∧ lba + count ≤ dev.sectors
  refuses : es = [] → r = -1
  ports : OnPorts dev es
  covers : es ≠ [] → .polled false ∉ es → r = 0 ∧ ∃ cmds, Covers cmds lba count ∧
    outsOf es = cmds.flatMap (Command.outs dev write)

/-- The callbacks at `bdev` serve the disk. -/
def Serves (dev : AtaDevice) (m : ByteMem) (bdev : ℕ) : Prop :=
  ∀ lba count b,
    (∃ es, Handles dev false lba count b (ataRead m bdev lba count b).2.2
      (ataRead m bdev lba count b).1 es) ∧
    ∀ buf, ∃ es, Handles dev true lba count b (ataWrite m bdev lba count buf b).2.2
      (ataWrite m bdev lba count buf b).1 es

/-- The driver handles requests to the device that it finds at the pointer. -/
theorem ataTransfer_spec (m : ByteMem) (write : Bool) (bdev lba count : ℕ) (buf : ℕ → ℕ) (b : Bus)
    (hdev : (ataDeviceAt m bdev).sectors ≤ 2 ^ 28) : ∃ es,
      Handles (ataDeviceAt m bdev) write lba count b (ataTransfer m write bdev lba count buf b).2.2
        (ataTransfer m write bdev lba count buf b).1 es := by
  rw [ataTransfer]
  dsimp only
  split
  · next hzero => exact ⟨[], by simp, by simp [hzero], fun _ => rfl, by simp [OnPorts], by simp⟩
  next hpos =>
  split
  · next hout =>
    exact ⟨[], by simp, by simp; omega, fun _ => rfl, by simp [OnPorts], by simp⟩
  next hin =>
  obtain ⟨es, hes, hports, hne, hiff, hcmds⟩ := commandLoop_spec (ataDeviceAt m bdev) write buf count lba
    count 0 [] b le_rfl (by omega)
  have hne : es ≠ [] := hne (by omega)
  exact ⟨es, hes.log, by simp only [ne_eq, hne, not_false_eq_true, true_iff]; omega,
    fun h => absurd h hne, hports, fun _ hno => ⟨hiff.mpr hno, hcmds hno⟩⟩

/-- What the driver handles for one device it handles for any other with the same ports, sectors and
drive; one bit of the drive matters. -/
theorem Handles.congr {dev' : AtaDevice} {r : ℤ} (h : Handles dev' write lba count b b' r es)
    (hio : dev'.io = dev.io) (hctrl : dev'.ctrl = dev.ctrl) (hdrive : dev'.drive % 2 = dev.drive % 2)
    (hsectors : dev'.sectors = dev.sectors) : Handles dev write lba count b b' r es := by
  have houts : Command.outs dev' write = Command.outs dev write := by
    funext c
    simp only [Command.outs, Command.registers, hio, hctrl, hdrive]
  refine ⟨h.log, hsectors ▸ h.accepts, h.refuses, ?_, houts ▸ h.covers⟩
  intro e he p hp
  rw [← hio, ← hctrl]
  exact h.ports e he p hp

/-- Commands for one sector begin with a command for it. -/
theorem Covers.one {cmds : List Command} (h : Covers cmds lba 1) : ∃ c rest,
    cmds = c :: rest ∧ c.lba = lba := by
  cases cmds with
  | nil => simp [Covers] at h
  | cons c rest =>
    refine ⟨c, rest, rfl, ?_⟩
    obtain ⟨n, hn⟩ := Nat.exists_eq_succ_of_ne_zero c.count_pos.ne'
    rw [Covers, flatMap_cons, hn, range'_succ, range'_succ, cons_append] at h
    exact (List.cons.inj h).1

/-- A driver that serves the disk finds it at the pointer. -/
theorem Serves.device_eq {m : ByteMem} {bdev : ℕ} (h : Serves dev m bdev)
    (hpos : 0 < (ataDeviceAt m bdev).sectors) (hle : (ataDeviceAt m bdev).sectors ≤ 2 ^ 28) :
    u16 (ataDeviceAt m bdev).ctrl = u16 dev.ctrl ∧ u16 ((ataDeviceAt m bdev).io + 2) = u16 (dev.io + 2) ∧
      (ataDeviceAt m bdev).drive % 2 = dev.drive % 2 ∧ (ataDeviceAt m bdev).sectors = dev.sectors := by
  set found := ataDeviceAt m bdev with hfound
  -- both accept the same requests
  have haccepts (lba count : ℕ) : (0 < count ∧ lba + count ≤ found.sectors ↔
      0 < count ∧ lba + count ≤ dev.sectors) := by
    obtain ⟨⟨es, hes⟩, -⟩ := h lba count ⟨fun _ => 8, []⟩
    obtain ⟨es', hes'⟩ := ataTransfer_spec m false bdev lba count (fun _ => 0) ⟨fun _ => 8, []⟩ hle
    obtain rfl : es = es' := by simpa using hes.log.symm.trans hes'.log
    exact hes'.accepts.symm.trans hes.accepts
  have hsectors : found.sectors = dev.sectors := by
    have h₁ := haccepts 0 found.sectors
    have h₂ := haccepts 0 dev.sectors
    omega
  -- the registers for the first sector
  obtain ⟨⟨es, hes⟩, -⟩ := h 0 1 ⟨fun _ => 8, []⟩
  obtain ⟨es', hlog', -, -, hiff', hcmds'⟩ := commandLoop_spec found false (fun _ => 0) 1 0 1 0 []
    ⟨fun _ => 8, []⟩ le_rfl (by norm_num)
  have hrun : ataRead m bdev 0 1 ⟨fun _ => 8, []⟩
      = commandLoop found false (fun _ => 0) 1 0 1 0 [] ⟨fun _ => 8, []⟩ := by
    rw [ataRead, ataTransfer, if_neg one_ne_zero, ← hfound]
    exact if_neg (by omega)
  have hsame : es = es' := by
    have hlog := hes.log
    rw [hrun, hlog'.log] at hlog
    simpa using hlog.symm
  subst hsame
  have hno : .polled false ∉ es := hiff'.mp (commandLoop_ready fun _ => rfl)
  have hne : es ≠ [] := hes.accepts.mpr ⟨one_pos, by omega⟩
  obtain ⟨-, cmds, hcover, houts⟩ := hes.covers hne hno
  obtain ⟨cmds', hcover', houts'⟩ := hcmds' hno
  obtain ⟨c, rest, rfl, hc⟩ := hcover.one
  obtain ⟨c', rest', rfl, hc'⟩ := hcover'.one
  have hregs := houts.symm.trans houts'
  simp only [flatMap_cons, Command.outs, Command.registers, cons_append, List.cons.injEq,
    Prod.mk.injEq, hc, hc'] at hregs
  obtain ⟨⟨hctrl, -⟩, ⟨-, hdrive⟩, ⟨hio, -⟩, -⟩ := hregs
  exact ⟨hctrl.symm, hio.symm, by omega, hsectors⟩

/-- The device that `ata_init` asks to identify itself. -/
def primaryMaster : AtaDevice := ⟨0x1F0, 0x3F6, 0, 0⟩

/-- What `ata_init` leaves in the structure, and what is at the pointer that it returns. -/
theorem ataInit_spec (m : ByteMem) (a name read write sectors : ℕ) (b : Bus)
    (hid : (ataIdentify primaryMaster b).1 = some sectors) (hsectors : sectors < 2 ^ 32) : ∃ m' b',
    ataInit m a name read write b = (some (a + ataDevOffset), m', b') ∧
      ataDeviceAt m' a = { primaryMaster with sectors } ∧
      ataDeviceAt m' (a + ataDevOffset)
        = ⟨name % 2 ^ 16, name / 2 ^ 16 % 2 ^ 16, name / 2 ^ 32 % 2 ^ 8, 512⟩ := by
  rw [ataInit]
  obtain ⟨m₁, hm₁⟩ : ∃ m₁, ((((((((m.store 2 a 0x1F0).store 2 (a + 2) 0x3F6).store 1 (a + 4) 0).store 4
    (a + 8) 0).store 8 (a + 16) name).store 8 (a + 24) 512).store 8 (a + 32) 0).store 8 (a + 40)
    read).store 8 (a + 48) write = m₁ := ⟨_, rfl⟩
  have hdev : ataDeviceAt m₁ a = primaryMaster := by
    rw [← hm₁, ataDeviceAt]
    simp (disch := omega) [load_store_of_disjoint, primaryMaster]
  have hbdev : ataDeviceAt m₁ (a + 16)
      = ⟨name % 2 ^ 16, name / 2 ^ 16 % 2 ^ 16, name / 2 ^ 32 % 2 ^ 8, 512⟩ := by
    rw [← hm₁, ataDeviceAt]
    have h₀ (m : ByteMem) : (m.store 8 (a + 16) name).load 2 (a + 16) = name % 2 ^ 16 := by
      simpa using load_store_part (n := 8) (k := 2) (a := a + 16) (i := 0) (v := name) m (by omega)
    have h₂ (m : ByteMem) : (m.store 8 (a + 16) name).load 2 (a + 16 + 2) = name / 2 ^ 16 % 2 ^ 16 :=
      load_store_part m (by omega)
    have h₄ (m : ByteMem) : (m.store 8 (a + 16) name).load 1 (a + 16 + 4) = name / 2 ^ 32 % 2 ^ 8 :=
      load_store_part m (by omega)
    have h₈ (m : ByteMem) : (m.store 8 (a + 24) 512).load 4 (a + 16 + 8) = 512 := by
      simpa using load_store_part (n := 8) (k := 4) (a := a + 24) (i := 0) (v := 512) m (by omega)
    simp (disch := omega) only [load_store_of_disjoint, h₀, h₂, h₄, h₈]
  dsimp only
  rw [hm₁, hdev]
  obtain ⟨b₁, hb₁⟩ : ∃ b₁, ataIdentify primaryMaster b = (some sectors, b₁) := ⟨_, by rw [← hid]⟩
  rw [hb₁]
  refine ⟨_, _, rfl, ?_, ?_⟩
  · have h := hdev
    simp only [ataDeviceAt, primaryMaster, AtaDevice.mk.injEq] at h ⊢
    simp (disch := omega) [load_store_of_disjoint, h]
    omega
  · have h := hbdev
    simp only [ataDeviceAt, ataDevOffset, AtaDevice.mk.injEq] at h ⊢
    simp (disch := omega) only [load_store_of_disjoint]
    exact h

/-- **When the driver serves the disk it identified**: the pointer to the name must spell the ports and the
drive, and the disk must have as many sectors as a sector has bytes. -/
theorem ata_serves_iff (m : ByteMem) (a name read write sectors : ℕ) (b : Bus)
    (hid : (ataIdentify primaryMaster b).1 = some sectors) (hsectors : sectors < 2 ^ 28) : ∃ m' b',
    ataInit m a name read write b = (some (a + ataDevOffset), m', b') ∧
      ataDeviceAt m' a = { primaryMaster with sectors } ∧
      (Serves (ataDeviceAt m' a) m' (a + ataDevOffset) ↔
        name % 2 ^ 16 = 0x1F0 ∧ name / 2 ^ 16 % 2 ^ 16 = 0x3F6 ∧ name / 2 ^ 32 % 2 = 0 ∧
          sectors = 512) := by
  obtain ⟨m', b', hinit, hdev, hbdev⟩ := ataInit_spec m a name read write sectors b hid (by omega)
  refine ⟨m', b', hinit, hdev, ?_⟩
  rw [hdev]
  constructor
  · intro h
    obtain ⟨hctrl, hio, hdrive, hcount⟩ := h.device_eq (by simp [hbdev]) (by simp [hbdev])
    simp only [hbdev, primaryMaster, u16] at hctrl hio hdrive hcount
    omega
  · rintro ⟨hio, hctrl, hdrive, rfl⟩ lba count b
    have hspec (write : Bool) (buf : ℕ → ℕ) := ataTransfer_spec m' write (a + ataDevOffset) lba count buf b
      (by simp [hbdev])
    rw [hbdev] at hspec
    refine ⟨?_, fun buf => ?_⟩
    · obtain ⟨es, hes⟩ := hspec false fun _ => 0
      exact ⟨es, hes.congr hio hctrl (by simp only [primaryMaster]; omega) rfl⟩
    · obtain ⟨es, hes⟩ := hspec true buf
      exact ⟨es, hes.congr hio hctrl (by simp only [primaryMaster]; omega) rfl⟩

/-- A bus with a disk of `sectors` sectors, which is ready. -/
def readyDisk (sectors : ℕ) : Bus :=
  ⟨fun i => if i = 9 ∨ i = 10 then 0 else if i = 74 then sectors % 2 ^ 16
    else if i = 75 then sectors / 2 ^ 16 else 0x08, []⟩

/-- The memory in which `ata_init` has identified a disk of 1000 sectors, with the name in the image of the
kernel. -/
def ataMemory : ByteMem :=
  (ataInit (fun _ => 0) 0xFFFFFFFF80120000 0xFFFFFFFF80105000 0 0 (readyDisk 1000)).2.1

/-- Sector 512 of a disk of 1000 sectors is refused, and a read of sector 0 writes to a port that the disk
does not have. -/
theorem ata_wrong_device :
    (ataDeviceAt ataMemory 0xFFFFFFFF80120000) = ⟨0x1F0, 0x3F6, 0, 1000⟩ ∧
      (ataRead ataMemory (0xFFFFFFFF80120000 + ataDevOffset) 512 1 (readyDisk 1000)).1 = -1 ∧
      (ataRead ataMemory (0xFFFFFFFF80120000 + ataDevOffset) 0 1 (readyDisk 1000)).2.2.log.head?
        = some (.outb 0x8010 2) := by
  decide +kernel

theorem ata_serves_iff_512 : ∃ m' b', ataInit (fun _ => 0) 0 0x3F601F0 0 0 (readyDisk 512)
      = (some (0 + ataDevOffset), m', b') ∧
    ataDeviceAt m' 0 = { primaryMaster with sectors := 512 } ∧
    (Serves (ataDeviceAt m' 0) m' (0 + ataDevOffset) ↔
      0x3F601F0 % 2 ^ 16 = 0x1F0 ∧ 0x3F601F0 / 2 ^ 16 % 2 ^ 16 = 0x3F6 ∧ 0x3F601F0 / 2 ^ 32 % 2 = 0 ∧
        512 = 512) :=
  ata_serves_iff (fun _ => 0) 0 0x3F601F0 0 0 512 (readyDisk 512) (by decide +kernel) (by norm_num)

end Neptune
