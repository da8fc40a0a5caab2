import Neptune.Lib.Peek
import Neptune.Lib.Records
import Mathlib.Data.List.GetD

/-!
# The records of the MADT

`acpi_parse_madt` goes through the records behind the header of the table.  Each has its type and its
length in its first two bytes, and the walk ends at the first one that is too short or goes past the end.
The processors, the I/O APICs and the interrupt overrides are counted in fields of 8 bits.

Addresses are relative to the table.

## Main definitions

* `AcpiState` — the state that `acpi_init` fills in.
* `acpiParseMadt` — the walk.
* `WholeRecord`, `isCpu`, `isIoapic`, `isIso` — the records of the table.

## Main results

* `madtLoop_spec` — the walk takes every record, and reads nothing outside.
* `parse_madt_counts` — when the counts are the numbers of records.
-/

namespace Neptune

open ByteMem List Option

/-- `struct acpi_state`. -/
structure AcpiState where
  rsdpPhys : ℕ
  lapicAddr : ℕ
  ioapicAddr : ℕ
  ioapicId : UInt8
  cpuCount : UInt8
  ioapicCount : UInt8
  isoCount : UInt8
  ready : Bool
  deriving DecidableEq, Repr

/-- The state at the beginning of `acpi_init`. -/
def AcpiState.zero : AcpiState := ⟨0, 0, 0, 0, 0, 0, 0, false⟩

/-- The state once the RSDP has been found. -/
def AcpiState.found (rsdpPhys : ℕ) : AcpiState := { AcpiState.zero with rsdpPhys }

/-- `sizeof(struct acpi_sdt)` and `sizeof(struct acpi_madt)`. -/
def acpiSdtSize : ℕ := 36

def acpiMadtSize : ℕ := 44

/-- What `acpi_parse_madt` does with the record at `ptr`. -/
def madtRecord (t : Peek) (ptr : ℕ) (type len : UInt8) (acpi : AcpiState) : Option AcpiState :=
  if type = 0 ∧ len.toNat ≥ 8 then do
    let flags ← t.word 4 (ptr + 4)
    if flags &&& 0x1 ≠ 0 then return { acpi with cpuCount := acpi.cpuCount + 1 }
    else return acpi
  else if type = 1 ∧ len.toNat ≥ 12 then do
    let id ← t (ptr + 2)
    let addr ← t.word 4 (ptr + 4)
    return { acpi with ioapicId := id, ioapicAddr := addr, ioapicCount := acpi.ioapicCount + 1 }
  else if type = 2 ∧ len.toNat ≥ 10 then some { acpi with isoCount := acpi.isoCount + 1 }
  else some acpi

/-- The loop of `acpi_parse_madt`, with `n` passes that remain.  It has no result if they are too few. -/
def madtLoop (t : Peek) (length : ℕ) : ℕ → ℕ → AcpiState → Option AcpiState
  | n, ptr, acpi =>
    if ptr + 2 ≤ length then
      match n with
      | 0 => none
      | n + 1 => do
        let type ← t ptr
        let len ← t (ptr + 1)
        if len.toNat < 2 ∨ ptr + len.toNat > length then return acpi
        let acpi ← madtRecord t ptr type len acpi
        madtLoop t length n (ptr + len.toNat) acpi
    else some acpi

/-- `acpi_parse_madt`.  A pass goes on by a byte at least, so that there are no more of them than bytes. -/
def acpiParseMadt (t : Peek) (acpi : AcpiState) : Option AcpiState := do
  let lapicAddr ← t.word 4 acpiSdtSize
  let length ← t.word 4 4
  madtLoop t length length acpiMadtSize { acpi with lapicAddr }

/-! ### Records -/

/-- A record has its length in its second byte. -/
def WholeRecord (r : List UInt8) : Prop := 2 ≤ r.length ∧ (r.getD 1 0).toNat = r.length

/-- An enabled processor. -/
def isCpu (r : List UInt8) : Bool := r.getD 0 0 = 0 ∧ 8 ≤ r.length ∧ (r.getD 4 0).toNat % 2 = 1

def isIoapic (r : List UInt8) : Bool := r.getD 0 0 = 1 ∧ 12 ≤ r.length

/-- An interrupt source override. -/
def isIso (r : List UInt8) : Bool := r.getD 0 0 = 2 ∧ 10 ≤ r.length

theorem selfSized_wholeRecord : SelfSized WholeRecord := by
  intro r r' l hr hr' hl hl'
  -- both have their length in the second byte of `l`
  have hsecond : ∀ {q : List UInt8}, WholeRecord q → q <+: l → q.getD 1 0 = l.getD 1 0 := by
    intro q hq hql
    obtain ⟨rest, rfl⟩ := hql
    have hlt : 1 < q.length := hq.1
    rw [getD_append _ _ _ _ hlt]
  have hlen : r.length = r'.length := by
    rw [← hr.2, ← hr'.2, hsecond hr hl, hsecond hr' hl']
  exact List.IsPrefix.eq_of_length_le (List.prefix_of_prefix_length_le hl hl' hlen.le) hlen.ge

/-- The state `acpi'` has the records counted, modulo 256. -/
structure Counted (acpi acpi' : AcpiState) (rs : List (List UInt8)) : Prop where
  cpu : acpi'.cpuCount = acpi.cpuCount + UInt8.ofNat (rs.countP isCpu)
  ioapic : acpi'.ioapicCount = acpi.ioapicCount + UInt8.ofNat (rs.countP isIoapic)
  iso : acpi'.isoCount = acpi.isoCount + UInt8.ofNat (rs.countP isIso)

theorem Counted.refl (acpi : AcpiState) : Counted acpi acpi [] := ⟨by simp, by simp, by simp⟩

theorem Counted.cons {acpi acpi₁ acpi' : AcpiState} {r : List UInt8} {rs : List (List UInt8)}
    (h : Counted acpi acpi₁ [r]) (h' : Counted acpi₁ acpi' rs) : Counted acpi acpi' (r :: rs) := by
  have hsplit : ∀ p : List UInt8 → Bool, UInt8.ofNat ((r :: rs).countP p) =
      UInt8.ofNat ([r].countP p) + UInt8.ofNat (rs.countP p) := by
    intro p
    rw [← UInt8.ofNat_add, ← countP_append]
    rfl
  refine ⟨?_, ?_, ?_⟩
  · rw [h'.cpu, h.cpu, hsplit, UInt8.add_assoc]
  · rw [h'.ioapic, h.ioapic, hsplit, UInt8.add_assoc]
  · rw [h'.iso, h.iso, hsplit, UInt8.add_assoc]

theorem Counted.single {acpi acpi' : AcpiState} {r : List UInt8}
    (hcpu : acpi'.cpuCount = if isCpu r then acpi.cpuCount + 1 else acpi.cpuCount)
    (hioapic : acpi'.ioapicCount = if isIoapic r then acpi.ioapicCount + 1 else acpi.ioapicCount)
    (hiso : acpi'.isoCount = if isIso r then acpi.isoCount + 1 else acpi.isoCount) :
    Counted acpi acpi' [r] := by
  have hcount : ∀ (p : List UInt8 → Bool) (c : UInt8),
      (if p r then c + 1 else c) = c + UInt8.ofNat ([r].countP p) := by
    intro p c
    rw [countP_singleton]
    cases p r <;> simp
  exact ⟨hcpu.trans (hcount _ _), hioapic.trans (hcount _ _), hiso.trans (hcount _ _)⟩

variable {t : ByteMem} {ok : ℕ → Prop} [DecidablePred ok] {ptr length n k : ℕ} {acpi : AcpiState}

/-- The records of memory. -/
theorem isCpu_bytes (t : ByteMem) (ptr : ℕ) (hk : 2 ≤ k) : isCpu (t.bytes ptr k) =
    decide (t ptr = 0 ∧ 8 ≤ k ∧ (t (ptr + 4)).toNat % 2 = 1) := by
  have htype : (t.bytes ptr k).getD 0 0 = t ptr := getD_bytes t ptr (by omega)
  rw [isCpu, htype, length_bytes]
  refine decide_eq_decide.mpr (and_congr_right fun _ => and_congr_right fun hlen => ?_)
  rw [getD_bytes t ptr (by omega)]

theorem isIoapic_bytes (t : ByteMem) (ptr : ℕ) (hk : 2 ≤ k) :
    isIoapic (t.bytes ptr k) = decide (t ptr = 1 ∧ 12 ≤ k) := by
  have htype : (t.bytes ptr k).getD 0 0 = t ptr := getD_bytes t ptr (by omega)
  rw [isIoapic, htype, length_bytes]

theorem isIso_bytes (t : ByteMem) (ptr : ℕ) (hk : 2 ≤ k) :
    isIso (t.bytes ptr k) = decide (t ptr = 2 ∧ 10 ≤ k) := by
  have htype : (t.bytes ptr k).getD 0 0 = t ptr := getD_bytes t ptr (by omega)
  rw [isIso, htype, length_bytes]

/-- **One record** is counted, and nothing outside of it is read. -/
theorem madtRecord_counted (hlen : 2 ≤ (t (ptr + 1)).toNat)
    (hok : ∀ i < (t (ptr + 1)).toNat, ok (ptr + i)) :
    ∃ acpi', madtRecord (t.only ok) ptr (t ptr) (t (ptr + 1)) acpi = some acpi' ∧
      Counted acpi acpi' [t.bytes ptr (t (ptr + 1)).toNat] := by
  have hword : 8 ≤ (t (ptr + 1)).toNat →
      (t.only ok).word 4 (ptr + 4) = some (t.load 4 (ptr + 4)) := fun h8 =>
    word_only fun i hi => by rw [Nat.add_assoc]; exact hok _ (by omega)
  have hcpu_eq := isCpu_bytes t ptr hlen
  have hioapic_eq := isIoapic_bytes t ptr hlen
  have hiso_eq := isIso_bytes t ptr hlen
  rw [madtRecord]
  split_ifs with hcpu hioapic hiso
  · -- the flags are in the first byte of their word
    have hflags : t.load 4 (ptr + 4) &&& 0x1 = (t (ptr + 4)).toNat % 2 := by
      rw [Nat.and_one_is_mod, ByteMem.load]
      omega
    rw [hword hcpu.2]
    dsimp only [bind_eq_bind, bind_some]
    rw [hflags]
    split_ifs with hodd
    · exact ⟨_, rfl, .single (by grind) (by grind) (by grind)⟩
    · exact ⟨_, rfl, .single (by grind) (by grind) (by grind)⟩
  · rw [only_apply (hok 2 (by omega)), hword (by omega)]
    exact ⟨_, rfl, .single (by grind) (by grind) (by grind)⟩
  · exact ⟨_, rfl, .single (by grind) (by grind) (by grind)⟩
  · exact ⟨_, rfl, .single (by grind) (by grind) (by grind)⟩

theorem wholeRecord_bytes (hlen : 2 ≤ (t (ptr + 1)).toNat) :
    WholeRecord (t.bytes ptr (t (ptr + 1)).toNat) :=
  ⟨by rwa [length_bytes], by rw [getD_bytes t ptr hlen, length_bytes]⟩

/-- No record begins where the walk ends. -/
theorem not_begins_wholeRecord {r : List UInt8} {k : ℕ}
    (h : 2 ≤ k → (t (ptr + 1)).toNat < 2 ∨ k < (t (ptr + 1)).toNat) (hr : WholeRecord r) :
    ¬r <+: t.bytes ptr k := by
  intro hbegins
  obtain ⟨hlen, hsize⟩ := hr
  have hle : r.length ≤ k := by
    have := hbegins.length_le
    rwa [length_bytes] at this
  have hsecond : r.getD 1 0 = t (ptr + 1) := by
    rw [← getD_bytes t ptr (show 1 < k by omega)]
    obtain ⟨rest, hrest⟩ := hbegins
    rw [← hrest, getD_append _ _ _ _ hlen]
  rw [hsecond] at hsize
  have := h (by omega)
  omega

/-- **The walk** takes every record up to the first that is none, and reads no byte at the end of the
table or behind it. -/
theorem madtLoop_spec (hok : ∀ a, ptr ≤ a → a < length → ok a) (hn : length ≤ ptr + n) :
    ∃ rs acpi', LongestRecords WholeRecord (t.bytes ptr (length - ptr)) rs ∧
      madtLoop (t.only ok) length n ptr acpi = some acpi' ∧ Counted acpi acpi' rs := by
  induction n generalizing ptr acpi with
  | zero =>
    refine ⟨[], acpi, .nil fun r hr => not_begins_wholeRecord (by omega) hr, ?_, .refl acpi⟩
    rw [madtLoop, if_neg (by omega)]
  | succ n ih =>
    by_cases hmore : ptr + 2 ≤ length
    · by_cases hbad : (t (ptr + 1)).toNat < 2 ∨ ptr + (t (ptr + 1)).toNat > length
      · refine ⟨[], acpi, .nil fun r hr => not_begins_wholeRecord (by omega) hr, ?_, .refl acpi⟩
        rw [madtLoop, if_pos hmore, only_apply (hok _ (by omega) (by omega)),
          only_apply (hok _ (by omega) (by omega))]
        dsimp only [bind_eq_bind, bind_some]
        rw [if_pos hbad]
        rfl
      · obtain ⟨acpi₁, hrecord, hone⟩ : ∃ acpi₁,
            madtRecord (t.only ok) ptr (t ptr) (t (ptr + 1)) acpi = some acpi₁ ∧
              Counted acpi acpi₁ [t.bytes ptr (t (ptr + 1)).toNat] :=
          madtRecord_counted (by omega) fun i hi => hok _ (by omega) (by omega)
        obtain ⟨rs, acpi', hrs, hloop, hrest⟩ := @ih (ptr + (t (ptr + 1)).toNat) acpi₁
          (fun a h₁ h₂ => hok a (by omega) h₂) (by omega)
        have hsplit : t.bytes ptr (length - ptr) = t.bytes ptr (t (ptr + 1)).toNat ++
            t.bytes (ptr + (t (ptr + 1)).toNat) (length - (ptr + (t (ptr + 1)).toNat)) := by
          rw [← bytes_add]
          congr 1
          omega
        refine ⟨_ :: rs, acpi', hsplit ▸ .cons selfSized_wholeRecord
          (wholeRecord_bytes (by omega)) hrs, ?_, hone.cons hrest⟩
        rw [madtLoop, if_pos hmore, only_apply (hok _ (by omega) (by omega)),
          only_apply (hok _ (by omega) (by omega))]
        dsimp only [bind_eq_bind, bind_some]
        rw [if_neg hbad, hrecord]
        exact hloop
    · refine ⟨[], acpi, .nil fun r hr => not_begins_wholeRecord (by omega) hr, ?_, .refl acpi⟩
      rw [madtLoop, if_neg hmore]

/-- The bytes that a reader of the MADT may read: those of its header and those of the table. -/
abbrev MadtByte (t : ByteMem) (a : ℕ) : Prop := a < acpiMadtSize ∨ a < t.load 4 4

/-- **`acpi_parse_madt`** returns if it may read the bytes of the table, whatever else it may read, and
counts the records modulo 256. -/
theorem acpiParseMadt_spec (acpi : AcpiState) (hok : ∀ a, MadtByte t a → ok a) : ∃ rs acpi',
    LongestRecords WholeRecord (t.bytes acpiMadtSize (t.load 4 4 - acpiMadtSize)) rs ∧
      acpiParseMadt (t.only ok) acpi = some acpi' ∧ Counted acpi acpi' rs := by
  have hheader : ∀ a, a + 4 ≤ acpiMadtSize → (t.only ok).word 4 a = some (t.load 4 a) := fun a ha =>
    word_only fun i hi => hok _ (.inl (by omega))
  obtain ⟨rs, acpi', hrs, hloop, hcounted⟩ := @madtLoop_spec t ok _ acpiMadtSize
    (t.load 4 4) (t.load 4 4) { acpi with lapicAddr := t.load 4 acpiSdtSize }
    (fun a _ h => hok a (.inr h)) (Nat.le_add_left _ _)
  refine ⟨rs, acpi', hrs, ?_, hcounted.cpu, hcounted.ioapic, hcounted.iso⟩
  rw [acpiParseMadt, hheader _ (by decide), hheader _ (by decide)]
  exact hloop

/-- **When the counts are the numbers of records**: no more than 255 of each are in the longest
sequence of records that the table begins with. -/
theorem parse_madt_counts (t : ByteMem) (rsdpPhys : ℕ) {rs : List (List UInt8)}
    (hrs : LongestRecords WholeRecord (t.bytes acpiMadtSize (t.load 4 4 - acpiMadtSize)) rs) :
    (∃ acpi', acpiParseMadt (t.only (MadtByte t)) (.found rsdpPhys) = some acpi' ∧
      acpi'.cpuCount.toNat = rs.countP isCpu ∧ acpi'.ioapicCount.toNat = rs.countP isIoapic ∧
      acpi'.isoCount.toNat = rs.countP isIso) ↔
    rs.countP isCpu < 256 ∧ rs.countP isIoapic < 256 ∧ rs.countP isIso < 256 := by
  obtain ⟨rs', acpi', hrs', hparse, hcounted⟩ : ∃ rs acpi',
      LongestRecords WholeRecord (t.bytes acpiMadtSize (t.load 4 4 - acpiMadtSize)) rs ∧
        acpiParseMadt (t.only (MadtByte t)) (.found rsdpPhys) = some acpi' ∧
          Counted (.found rsdpPhys) acpi' rs := acpiParseMadt_spec _ fun _ h => h
  obtain rfl := hrs.unique hrs'
  have htoNat : ∀ {c : UInt8} {k : ℕ}, c = 0 + UInt8.ofNat k → (c.toNat = k ↔ k < 256) := by
    rintro _ k rfl
    rw [UInt8.zero_add, UInt8.toNat_ofNat']
    omega
  rw [← htoNat hcounted.cpu, ← htoNat hcounted.ioapic, ← htoNat hcounted.iso, hparse]
  constructor
  · rintro ⟨_, hsame, hcounts⟩
    exact some.inj hsame ▸ hcounts
  · exact fun hcounts => ⟨acpi', rfl, hcounts⟩

/-- The record of an enabled processor. -/
def cpuRecord : List UInt8 := [0, 8, 0, 0, 1, 0, 0, 0]

/-- A table with `count` enabled processors. -/
def cpuTable (count : ℕ) : ByteMem :=
  (ByteMem.blit (fun _ => 0) acpiMadtSize (List.replicate count cpuRecord).flatten).store 4 4
    (acpiMadtSize + 8 * count)

theorem longest_cpuTable {count : ℕ} (h : count < 2 ^ 28) :
    LongestRecords WholeRecord ((cpuTable count).bytes acpiMadtSize
      ((cpuTable count).load 4 4 - acpiMadtSize)) (List.replicate count cpuRecord) := by
  have hlength : (cpuTable count).load 4 4 - acpiMadtSize =
      (List.replicate count cpuRecord).flatten.length := by
    rw [cpuTable, load_store_self, Nat.mod_eq_of_lt (by unfold acpiMadtSize; omega),
      Nat.add_sub_cancel_left, length_flatten, map_replicate, sum_replicate_nat]
    exact Nat.mul_comm 8 count
  have hbytes : (cpuTable count).bytes acpiMadtSize
      (List.replicate count cpuRecord).flatten.length = (List.replicate count cpuRecord).flatten := by
    refine (bytes_congr fun x hx _ => ?_).trans (bytes_blit_self (fun _ => 0) _ _)
    exact store_apply_of_not_mem _ (by unfold acpiMadtSize at hx; omega)
  rw [hlength, hbytes]
  clear hlength hbytes h
  induction count with
  | zero => exact .nil fun r hr hbegins => absurd hr.1 (by simp [List.prefix_nil.mp hbegins])
  | succ count ih => exact .cons selfSized_wholeRecord ⟨by decide, by decide⟩ ih

/-- 256 processors are counted as none. -/
theorem parse_madt_256 : ∃ rs acpi',
    LongestRecords WholeRecord ((cpuTable 256).bytes acpiMadtSize
      ((cpuTable 256).load 4 4 - acpiMadtSize)) rs ∧
    acpiParseMadt ((cpuTable 256).only (MadtByte (cpuTable 256))) (.found 0xE0000) = some acpi' ∧
    rs.countP isCpu = 256 ∧ acpi'.cpuCount = 0 := by
  obtain ⟨rs, acpi', hrs, hparse, hcounted⟩ :=
    @acpiParseMadt_spec (cpuTable 256) (MadtByte (cpuTable 256)) _ (.found 0xE0000) fun _ h => h
  obtain rfl := hrs.unique (longest_cpuTable (by decide))
  have hcount : (List.replicate 256 cpuRecord).countP isCpu = 256 := by
    rw [countP_replicate, if_pos (by decide)]
  refine ⟨_, acpi', hrs, hparse, hcount, ?_⟩
  rw [hcounted.cpu, hcount]
  rfl

/-- Two processors are counted. -/
theorem parse_madt_counts_two : ∃ acpi',
    acpiParseMadt ((cpuTable 2).only (MadtByte (cpuTable 2))) (.found 0xE0000) = some acpi' ∧
      acpi'.cpuCount.toNat = 2 := by
  obtain ⟨acpi', hparse, hcpu, -⟩ := (parse_madt_counts (cpuTable 2) 0xE0000
    (longest_cpuTable (by decide))).mpr (by decide)
  exact ⟨acpi', hparse, hcpu⟩

end Neptune
