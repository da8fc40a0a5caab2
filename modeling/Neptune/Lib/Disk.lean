import Neptune.Lib.ByteMem

/-!
# Disks whose operations may fail

A disk of sectors of 512 bytes, and computations over it.  Every read or write of a sector
takes one entry from a list of faults; where that says so, or as long as the list lasts, the
operation reports an error and leaves the disk as it was.  A disk without faults is
`Disk.ok m`.  A computation that does not return is `none`.

## Main definitions

* `Disk`, `DiskM`.
* `readSector`, `writeSector`.
* `DiskM.Ensures` — total correctness.
* `DiskM.Succeeds` — what happens if a number of operations succeed.
* `patch` — a part of a sector buffer replaced.

## Main results

* `blit_patch` — a sector read, patched and written back changes only the patched bytes.
-/

/-- What is on the disk, and which of the coming operations fail. -/
structure Disk where
  mem : ByteMem
  faults : List Bool

/-- Computations over a disk; one that does not return is `none`. -/
abbrev DiskM := StateT Disk Option

namespace Disk

/-- A disk on which every operation succeeds. -/
def ok (m : ByteMem) : Disk := ⟨m, []⟩

@[simp] theorem mem_ok (m : ByteMem) : (ok m).mem = m := rfl

@[simp] theorem faults_ok (m : ByteMem) : (ok m).faults = [] := rfl

/-- One operation later. -/
def tick (d : Disk) : Disk := ⟨d.mem, d.faults.tail⟩

/-- Whether the next operation fails. -/
def fails (d : Disk) : Bool := d.faults.headD false

@[simp] theorem tick_ok (m : ByteMem) : (ok m).tick = ok m := rfl

@[simp] theorem fails_ok (m : ByteMem) : (ok m).fails = false := rfl

@[simp] theorem mem_tick (d : Disk) : d.tick.mem = d.mem := rfl

/-- `n` operations later. -/
def after (d : Disk) (n : ℕ) : Disk := ⟨d.mem, d.faults.drop n⟩

/-- One of the next `n` operations fails. -/
def FailsBy (d : Disk) (n : ℕ) : Prop := true ∈ d.faults.take n

@[simp] theorem mem_after (d : Disk) (n : ℕ) : (d.after n).mem = d.mem := rfl

theorem after_succ (d : Disk) (n : ℕ) : d.after (n + 1) = d.tick.after n := by
  simp [after, tick]

theorem after_after (d : Disk) (n k : ℕ) : (d.after n).after k = d.after (n + k) := by
  simp [after]

theorem failsBy_succ {d : Disk} {n : ℕ} :
    d.FailsBy (n + 1) ↔ d.fails = true ∨ d.tick.FailsBy n := by
  obtain ⟨m, faults⟩ := d
  cases faults with
  | nil => simp [FailsBy, tick, fails]
  | cons b faults => simp [FailsBy, tick, fails, eq_comm]

theorem failsBy_add {d : Disk} {n k : ℕ} : d.FailsBy (n + k) ↔ d.FailsBy n ∨ (d.after n).FailsBy k := by
  rw [FailsBy, List.take_add, List.mem_append]
  rfl

end Disk

/-- Read the sector at `lba`. -/
def readSector (lba : ℕ) : DiskM (Option (List UInt8)) := fun d =>
  some (if d.fails then none else some (d.mem.bytes (lba * 512) 512), d.tick)

/-- Write the sector at `lba`; whether it worked. -/
def writeSector (lba : ℕ) (buf : List UInt8) : DiskM Bool := fun d =>
  some (if d.fails then (false, d.tick)
    else (true, ⟨d.mem.blit (lba * 512) buf, d.faults.tail⟩))

section Run

variable {lba : ℕ} {buf : List UInt8} {d : Disk} {m : ByteMem}

@[simp] theorem run_readSector_ok :
    (readSector lba).run (.ok m) = some (some (m.bytes (lba * 512) 512), .ok m) := rfl

@[simp] theorem run_writeSector_ok :
    (writeSector lba buf).run (.ok m) = some (true, .ok (m.blit (lba * 512) buf)) := rfl

theorem run_readSector_fails (h : d.fails = true) :
    (readSector lba).run d = some (none, d.tick) := by
  show some _ = _
  rw [if_pos h]

theorem run_readSector (h : d.fails = false) :
    (readSector lba).run d = some (some (d.mem.bytes (lba * 512) 512), d.tick) := by
  show some _ = _
  rw [if_neg (by simp [h])]

theorem run_writeSector_fails (h : d.fails = true) :
    (writeSector lba buf).run d = some (false, d.tick) := by
  show some _ = _
  rw [if_pos h]

theorem run_writeSector (h : d.fails = false) :
    (writeSector lba buf).run d = some (true, ⟨d.mem.blit (lba * 512) buf, d.faults.tail⟩) := by
  show some _ = _
  rw [if_neg (by simp [h])]

end Run

/-! ### Total correctness -/

namespace DiskM

open List

variable {α β : Type} {x : DiskM α} {f : α → DiskM β} {d : Disk} {P Q : α → Disk → Prop}
  {R : β → Disk → Prop}

/-- Started on `d` the computation returns, with a result and a disk that satisfy `Q`. -/
def Ensures (x : DiskM α) (d : Disk) (Q : α → Disk → Prop) : Prop :=
  ∃ r d', x.run d = some (r, d') ∧ Q r d'

theorem run_bind_of {r : α} {d' : Disk} (h : x.run d = some (r, d')) :
    (x >>= f).run d = (f r).run d' := by
  rw [StateT.run_bind, h]
  rfl

theorem ensures_pure {r : α} (h : Q r d) : Ensures (pure r) d Q := ⟨r, d, rfl, h⟩

theorem Ensures.bind (hx : Ensures x d P) (hf : ∀ r d', P r d' → Ensures (f r) d' R) :
    Ensures (x >>= f) d R := by
  obtain ⟨r, d', hrun, hP⟩ := hx
  obtain ⟨r', d'', hrun', hR⟩ := hf r d' hP
  exact ⟨r', d'', (run_bind_of hrun).trans hrun', hR⟩

/-- One computation after the other, backwards from the condition. -/
theorem Ensures.seq (hx : Ensures x d fun r d' => Ensures (f r) d' R) : Ensures (x >>= f) d R :=
  hx.bind fun _ _ h => h

theorem Ensures.mono (hx : Ensures x d P) (h : ∀ r d', P r d' → Q r d') : Ensures x d Q := by
  obtain ⟨r, d', hrun, hP⟩ := hx
  exact ⟨r, d', hrun, h r d' hP⟩

/-- What a computation ensures holds of what it returns. -/
theorem Ensures.of_run (hx : Ensures x d Q) {r : α} {d' : Disk} (h : x.run d = some (r, d')) :
    Q r d' := by
  obtain ⟨r', d'', hrun, hQ⟩ := hx
  obtain ⟨rfl, rfl⟩ := Prod.mk.inj (Option.some.inj (hrun.symm.trans h))
  exact hQ

theorem ensures_readSector {lba : ℕ} {Q : Option (List UInt8) → Disk → Prop} (hfail : Q none d.tick)
    (hread : Q (some (d.mem.bytes (lba * 512) 512)) d.tick) : Ensures (readSector lba) d Q := by
  cases hf : d.fails with
  | true => exact ⟨_, _, run_readSector_fails hf, hfail⟩
  | false => exact ⟨_, _, run_readSector hf, hread⟩

theorem ensures_writeSector {lba : ℕ} {buf : List UInt8} {Q : Bool → Disk → Prop}
    (hfail : Q false d.tick) (hwrite : Q true ⟨d.mem.blit (lba * 512) buf, d.faults.tail⟩) :
    Ensures (writeSector lba buf) d Q := by
  cases hf : d.fails with
  | true => exact ⟨_, _, run_writeSector_fails hf, hfail⟩
  | false => exact ⟨_, _, run_writeSector hf, hwrite⟩

/-- From a disk with the contents `m` the computation returns `r` and leaves the contents `m'`, if
its `k` operations all succeed. -/
def Succeeds (x : DiskM α) (m : ByteMem) (r : α) (m' : ByteMem) (k : ℕ) : Prop :=
  ∀ faults, true ∉ faults.take k → x.run ⟨m, faults⟩ = some (r, ⟨m', faults.drop k⟩)

section Succeeds

variable {m m' m'' : ByteMem} {r : α} {r' : β} {k k' : ℕ}

theorem succeeds_pure : Succeeds (pure r) m r m 0 := fun _ _ => rfl

theorem Succeeds.bind (hx : Succeeds x m r m' k) (hf : Succeeds (f r) m' r' m'' k') :
    Succeeds (x >>= f) m r' m'' (k + k') := by
  intro faults h
  rw [take_add, mem_append, not_or] at h
  rw [run_bind_of (hx faults h.1), hf _ h.2, drop_drop]

theorem Succeeds.run_ok (hx : Succeeds x m r m' k) : x.run (.ok m) = some (r, .ok m') := by
  simpa [Disk.ok] using hx [] (by simp)

/-- The operations that succeed come first. -/
theorem Succeeds.run_append (hx : Succeeds x m r m' k) (faults : List Bool) :
    x.run ⟨m, List.replicate k false ++ faults⟩ = some (r, ⟨m', faults⟩) := by
  have hrun := hx (List.replicate k false ++ faults) (by simp)
  rwa [drop_left' length_replicate] at hrun

theorem fails_of_notMem {faults : List Bool} (h : true ∉ faults.take 1) :
    (Disk.mk m faults).fails = false := by
  cases faults with
  | nil => rfl
  | cons b faults => simpa [Disk.fails, eq_comm] using h

theorem succeeds_readSector {lba : ℕ} :
    Succeeds (readSector lba) m (some (m.bytes (lba * 512) 512)) m 1 := by
  intro faults h
  rw [run_readSector (fails_of_notMem h), drop_one]
  rfl

theorem succeeds_writeSector {lba : ℕ} {buf : List UInt8} :
    Succeeds (writeSector lba buf) m true (m.blit (lba * 512) buf) 1 := by
  intro faults h
  rw [run_writeSector (fails_of_notMem h), drop_one]

end Succeeds

end DiskM

/-- The buffer with the bytes from `off` on replaced by a list. -/
def patch (buf : List UInt8) (off : ℕ) (l : List UInt8) : List UInt8 :=
  buf.take off ++ (l ++ buf.drop (off + l.length))

theorem length_patch {buf : List UInt8} {off : ℕ} {l : List UInt8}
    (h : off + l.length ≤ buf.length) : (patch buf off l).length = buf.length := by
  simp [patch]
  omega

theorem length_patch_bytes (m : ByteMem) (a : ℕ) {n off : ℕ} {l : List UInt8} (h : off + l.length ≤ n) :
    (patch (m.bytes a n) off l).length = n := by
  rw [length_patch (by rw [ByteMem.length_bytes]; exact h), ByteMem.length_bytes]

/-- **Read, patch, write back** is a write of the patch. -/
theorem blit_patch (m : ByteMem) (a : ℕ) {n off : ℕ} {l : List UInt8} (h : off + l.length ≤ n) :
    m.blit a (patch (m.bytes a n) off l) = m.blit (a + off) l := by
  rw [patch, m.take_bytes a (by omega), m.drop_bytes a h, ByteMem.blit_append, ByteMem.blit_bytes,
    ByteMem.length_bytes, ByteMem.blit_append, Nat.add_assoc a off]
  -- behind the patch stands what the disk has there anyway
  have hrest : m.bytes (a + (off + l.length)) (n - (off + l.length)) =
      (m.blit (a + off) l).bytes (a + (off + l.length)) (n - (off + l.length)) :=
    (m.bytes_blit_of_disjoint (Or.inl (by omega))).symm
  rw [hrest, ByteMem.blit_bytes]

/-- A patch behind a patch is one. -/
theorem patch_patch {buf l l' : List UInt8} {off : ℕ} (h : off ≤ buf.length) :
    patch (patch buf off l) (off + l.length) l' = patch buf off (l ++ l') := by
  have hlen : (buf.take off).length = off := List.length_take_of_le h
  have htake : (patch buf off l).take (off + l.length) = buf.take off ++ l := by
    rw [patch, ← List.append_assoc, List.take_left' (by rw [List.length_append, hlen])]
  have hdrop : (patch buf off l).drop (off + l.length + l'.length) =
      buf.drop (off + (l ++ l').length) := by
    rw [patch, ← List.append_assoc, List.drop_append, List.drop_of_length_le (by
      rw [List.length_append, hlen]; omega), List.nil_append, List.drop_drop, List.length_append,
      List.length_append, hlen]
    congr 1
    omega
  rw [patch, htake, hdrop, patch]
  simp

@[simp] theorem patch_nil (buf : List UInt8) (off : ℕ) : patch buf off [] = buf := by
  simp [patch]

/-- A patch in the second part. -/
theorem patch_append_right {buf buf' l : List UInt8} {off : ℕ} :
    patch (buf ++ buf') (buf.length + off) l = buf ++ patch buf' off l := by
  rw [patch, patch, List.take_length_add_append, Nat.add_assoc, List.drop_length_add_append,
    List.append_assoc]

/-- A patch in the first part. -/
theorem patch_append_left {buf buf' l : List UInt8} {off : ℕ} (h : off + l.length ≤ buf.length) :
    patch (buf ++ buf') off l = patch buf off l ++ buf' := by
  rw [patch, patch, List.take_append_of_le_length (by omega), List.drop_append_of_le_length h]
  simp

/-- Bytes written inside a stretch patch it. -/
theorem bytes_blit_inside (m : ByteMem) (a : ℕ) {n off : ℕ} {l : List UInt8}
    (h : off + l.length ≤ n) : (m.blit (a + off) l).bytes a n = patch (m.bytes a n) off l := by
  have hself := m.bytes_blit_self a (patch (m.bytes a n) off l)
  rwa [length_patch_bytes m a h, blit_patch m a h] at hself
