import Neptune.Acpi.Madt
import Neptune.Mmu.Kernel

/-!
# Looking up ACPI tables

`acpi_find_table` goes through the entries of the XSDT, and through those of the RSDT if that has none
with the signature.  The number of entries comes from the length of the table less the size of its
header, in 64 bits: of a table shorter than its header there are almost 2^32 entries, and the first of
them is already outside.

All of memory can be read in the direct map.

## Main definitions

* `acpiFindTable` — the lookup, with the slots that it reads.
* `Lists` — a table has an entry for a table with the signature.
* `acpiInit` — the whole of `acpi_init`.

## Main results

* `scanTable_spec` — the loop over the entries.
* `find_table_inside` — when the slots are inside of their tables.
* `acpiInit_returns` — `acpi_init` returns.
-/

namespace Neptune

open Nat

open Word64 (u64)

/-- Memory as it is seen from a pointer. -/
def seenFrom (m : ByteMem) (a : ℕ) : ByteMem := fun i => m (u64 (a + i))

/-- `checksum_ok`. -/
def checksumOk (data : ByteMem) (length : ℕ) : Bool :=
  (List.range length).foldl (fun sum i => sum + data i) (0 : UInt8) = 0

/-- `hdr->signature`. -/
def signatureAt (m : ByteMem) (hdr : ℕ) : List UInt8 := (seenFrom m hdr).bytes 0 4

/-- `table->length`. -/
def sdtLength (m : ByteMem) (table : ℕ) : ℕ := (seenFrom m table).load 4 4

/-- An entry of a table: where it is, relative to the table, and its size. -/
structure Slot where
  table : ℕ
  offset : ℕ
  width : ℕ
  deriving DecidableEq, Repr

/-- The slot is a part of its table. -/
def Slot.Inside (m : ByteMem) (slot : Slot) : Prop :=
  acpiSdtSize ≤ slot.offset ∧ slot.offset + slot.width ≤ sdtLength m slot.table

/-- The entry at index `i`. -/
def sdtSlot (table width i : ℕ) : Slot := ⟨table, acpiSdtSize + width * i, width⟩

/-- The header that an entry points to. -/
def Slot.header (m : ByteMem) (slot : Slot) : ℕ :=
  physToHhdm ((seenFrom m slot.table).load slot.width slot.offset)

/-- `(table->length - sizeof(*table)) / width` in a `uint32_t`. -/
def sdtEntries (m : ByteMem) (table width : ℕ) : ℕ :=
  u64 (2 ^ 64 + sdtLength m table - acpiSdtSize) / width % 2 ^ 32

/-- The loop over the entries, with `n` of them left.  It returns the slots that it has read as well. -/
def scanTable (m : ByteMem) (sig : List UInt8) (table width : ℕ) : ℕ → ℕ → List Slot × Option ℕ
  | 0, _ => ([], none)
  | n + 1, i =>
    let slot := sdtSlot table width i
    let hdr := slot.header m
    if signatureAt m hdr = sig then ([slot], some hdr)
    else
      let (slots, found) := scanTable m sig table width n (i + 1)
      (slot :: slots, found)

/-- Whether `acpi_find_table` looks at the XSDT, and where it is. -/
def usesXsdt (m : ByteMem) (rsdp : ℕ) : Bool :=
  (seenFrom m rsdp 15).toNat ≥ 2 ∧ (seenFrom m rsdp).load 8 24 ≠ 0

def xsdtOf (m : ByteMem) (rsdp : ℕ) : ℕ := physToHhdm ((seenFrom m rsdp).load 8 24)

/-- Whether there is an RSDT, and where it is. -/
def usesRsdt (m : ByteMem) (rsdp : ℕ) : Bool := (seenFrom m rsdp).load 4 16 ≠ 0

def rsdtOf (m : ByteMem) (rsdp : ℕ) : ℕ := physToHhdm ((seenFrom m rsdp).load 4 16)

/-- The second half of `acpi_find_table`. -/
def findInRsdt (m : ByteMem) (rsdp : ℕ) (sig : List UInt8) : List Slot × Option ℕ :=
  if usesRsdt m rsdp then
    let rsdt := rsdtOf m rsdp
    if !checksumOk (seenFrom m rsdt) (sdtLength m rsdt) then ([], none)
    else scanTable m sig rsdt 4 (sdtEntries m rsdt 4) 0
  else ([], none)

/-- `acpi_find_table`. -/
def acpiFindTable (m : ByteMem) (rsdp : ℕ) (sig : List UInt8) : List Slot × Option ℕ :=
  if usesXsdt m rsdp then
    let xsdt := xsdtOf m rsdp
    if !checksumOk (seenFrom m xsdt) (sdtLength m xsdt) then ([], none)
    else
      match scanTable m sig xsdt 8 (sdtEntries m xsdt 8) 0 with
      | (slots, some hdr) => (slots, some hdr)
      | (slots, none) =>
        let (slots', found) := findInRsdt m rsdp sig
        (slots ++ slots', found)
  else findInRsdt m rsdp sig

/-! ### The loop over the entries -/

variable {m : ByteMem} {sig : List UInt8} {table width n i rsdp : ℕ}

/-- The table has an entry for a table with the signature. -/
def Lists (m : ByteMem) (sig : List UInt8) (table width : ℕ) : Prop :=
  ∃ i, (sdtSlot table width i).Inside m ∧ signatureAt m ((sdtSlot table width i).header m) = sig

/-- The loop reads no slots but those of its indices. -/
theorem mem_scanTable {slot : Slot} (h : slot ∈ (scanTable m sig table width n i).1) :
    ∃ j < n, slot = sdtSlot table width (i + j) := by
  induction n generalizing i with
  | zero => cases h
  | succ n ih =>
    rw [scanTable] at h
    split at h
    · exact ⟨0, n.succ_pos, List.mem_singleton.mp h⟩
    · rcases List.mem_cons.mp h with rfl | h
      · exact ⟨0, n.succ_pos, rfl⟩
      · obtain ⟨j, hj, rfl⟩ := ih h
        exact ⟨j + 1, succ_lt_succ hj, by rw [add_right_comm, add_assoc]⟩

/-- The loop reads the first slot if there is one. -/
theorem first_mem_scanTable (hn : 0 < n) :
    sdtSlot table width i ∈ (scanTable m sig table width n i).1 := by
  obtain ⟨n, rfl⟩ := Nat.exists_eq_add_of_lt hn
  rw [Nat.zero_add, scanTable]
  split <;> simp

/-- **The loop** finds a header with the signature, or there is none. -/
theorem scanTable_spec (m : ByteMem) (sig : List UInt8) (table width n i : ℕ) :
    (∃ hdr, (scanTable m sig table width n i).2 = some hdr ∧ signatureAt m hdr = sig ∧
      ∃ j < n, hdr = (sdtSlot table width (i + j)).header m) ∨
    (scanTable m sig table width n i).2 = none ∧
      ∀ j < n, signatureAt m ((sdtSlot table width (i + j)).header m) ≠ sig := by
  induction n generalizing i with
  | zero => exact .inr ⟨rfl, fun j hj => absurd hj (not_lt_zero j)⟩
  | succ n ih =>
    rw [scanTable]
    split
    · next hfound => exact .inl ⟨_, rfl, hfound, 0, n.succ_pos, rfl⟩
    · next hnot =>
      have hshift : ∀ j, i + 1 + j = i + (j + 1) := fun j => by omega
      rcases ih (i + 1) with ⟨hdr, hsome, hsig, j, hj, heq⟩ | ⟨hnone, hall⟩
      · exact .inl ⟨hdr, hsome, hsig, j + 1, succ_lt_succ hj, hshift j ▸ heq⟩
      · refine .inr ⟨hnone, fun j hj => ?_⟩
        cases j with
        | zero => exact hnot
        | succ j => exact hshift j ▸ hall j (lt_of_succ_lt_succ hj)

/-! ### The number of entries -/

theorem sdtLength_lt (m : ByteMem) (table : ℕ) : sdtLength m table < 2 ^ 32 :=
  ByteMem.load_lt (seenFrom m table) 4 4

/-- The entries of a table with a header are those inside of it. -/
theorem inside_sdtSlot (hw : 0 < width) (hlen : acpiSdtSize ≤ sdtLength m table) :
    (sdtSlot table width i).Inside m ↔ i < sdtEntries m table width := by
  have hlt := sdtLength_lt m table
  have hsub : u64 (2 ^ 64 + sdtLength m table - acpiSdtSize) = sdtLength m table - acpiSdtSize := by
    unfold u64
    omega
  have hdiv : (sdtLength m table - acpiSdtSize) / width < 2 ^ 32 :=
    lt_of_le_of_lt (div_le_self _ _) (by omega)
  rw [sdtEntries, hsub, mod_eq_of_lt hdiv, lt_iff_add_one_le, le_div_iff_mul_le hw,
    mul_comm, mul_add_one]
  simp only [Slot.Inside, sdtSlot]
  omega

/-- **A table shorter than its header** has entries, and they are outside. -/
theorem sdtEntries_pos_of_short (hw : width = 4 ∨ width = 8)
    (hlen : sdtLength m table < acpiSdtSize) : 0 < sdtEntries m table width := by
  unfold sdtEntries u64
  unfold acpiSdtSize at *
  rcases hw with rfl | rfl <;> omega

/-- What a search of one table comes to. -/
structure Searched (m : ByteMem) (sig : List UInt8) (table width : ℕ)
    (p : List Slot × Option ℕ) : Prop where
  inside : (∀ slot ∈ p.1, slot.Inside m) ↔ acpiSdtSize ≤ sdtLength m table
  found : ∀ hdr, p.2 = some hdr → signatureAt m hdr = sig
  lists : acpiSdtSize ≤ sdtLength m table → (p.2 = none ↔ ¬Lists m sig table width)

theorem searched_scanTable (m : ByteMem) (sig : List UInt8) (table : ℕ)
    (hw : width = 4 ∨ width = 8) :
    Searched m sig table width (scanTable m sig table width (sdtEntries m table width) 0) := by
  have hpos : 0 < width := by omega
  refine ⟨⟨fun h => ?_, fun hlen slot hslot => ?_⟩, fun hdr hsome => ?_, fun hlen => ?_⟩
  · by_contra hshort
    have hfirst := h _ (first_mem_scanTable (sdtEntries_pos_of_short hw (Nat.lt_of_not_le hshort)))
    have hbelow : acpiSdtSize + width * 0 + width ≤ sdtLength m table := hfirst.2
    omega
  · obtain ⟨j, hj, rfl⟩ := mem_scanTable hslot
    rw [zero_add]
    exact (inside_sdtSlot hpos hlen).mpr hj
  · rcases scanTable_spec m sig table width (sdtEntries m table width) 0 with
      ⟨hdr', hsome', hsig, -⟩ | ⟨hnone, -⟩
    · rw [Option.some.inj (hsome.symm.trans hsome')]
      exact hsig
    · rw [hnone] at hsome
      cases hsome
  · rcases scanTable_spec m sig table width (sdtEntries m table width) 0 with
      ⟨hdr, hsome, hsig, j, hj, heq⟩ | ⟨hnone, hall⟩
    · rw [hsome]
      rw [heq, zero_add] at hsig
      have hlists : Lists m sig table width := ⟨j, (inside_sdtSlot hpos hlen).mpr hj, hsig⟩
      simp [hlists]
    · rw [hnone]
      refine ⟨fun _ => ?_, fun _ => rfl⟩
      rintro ⟨j, hinside, hsig⟩
      have hj := (inside_sdtSlot hpos hlen).mp hinside
      exact hall j hj (by rwa [zero_add])

/-! ### The lookup -/

/-- The XSDT, or failing that the RSDT, lists a table with the signature. -/
def TableListed (m : ByteMem) (rsdp : ℕ) (sig : List UInt8) : Prop :=
  usesXsdt m rsdp = true ∧ Lists m sig (xsdtOf m rsdp) 8 ∨
    usesRsdt m rsdp = true ∧ Lists m sig (rsdtOf m rsdp) 4

/-- The checksums of the tables that there are. -/
structure Checked (m : ByteMem) (rsdp : ℕ) : Prop where
  xsdt : usesXsdt m rsdp = true →
    checksumOk (seenFrom m (xsdtOf m rsdp)) (sdtLength m (xsdtOf m rsdp)) = true
  rsdt : usesRsdt m rsdp = true →
    checksumOk (seenFrom m (rsdtOf m rsdp)) (sdtLength m (rsdtOf m rsdp)) = true

/-- The lookup reads slots inside of their tables, and it finds what is listed. -/
def FindsInside (m : ByteMem) (sig : List UInt8) (listed : Prop) (p : List Slot × Option ℕ) : Prop :=
  (∀ slot ∈ p.1, slot.Inside m) ∧ (listed → ∃ hdr, p.2 = some hdr ∧ signatureAt m hdr = sig)

theorem Searched.findsInside {p : List Slot × Option ℕ} (h : Searched m sig table width p) :
    FindsInside m sig (Lists m sig table width) p ↔ acpiSdtSize ≤ sdtLength m table := by
  refine ⟨fun hinside => h.inside.mp hinside.1, fun hlen => ⟨h.inside.mpr hlen, fun hlists => ?_⟩⟩
  obtain ⟨hdr, hsome⟩ := Option.ne_none_iff_exists'.mp fun hnone => (h.lists hlen).mp hnone hlists
  exact ⟨hdr, hsome, h.found hdr hsome⟩

/-- The half that looks at the RSDT. -/
theorem findInRsdt_inside (sig : List UInt8) (h : Checked m rsdp) :
    FindsInside m sig (usesRsdt m rsdp = true ∧ Lists m sig (rsdtOf m rsdp) 4) (findInRsdt m rsdp sig) ↔
      (usesRsdt m rsdp = true → acpiSdtSize ≤ sdtLength m (rsdtOf m rsdp)) := by
  by_cases huses : usesRsdt m rsdp = true
  · have heq : findInRsdt m rsdp sig =
        scanTable m sig (rsdtOf m rsdp) 4 (sdtEntries m (rsdtOf m rsdp) 4) 0 := by
      rw [findInRsdt, if_pos huses]
      dsimp only
      rw [h.rsdt huses]
      rfl
    rw [heq, huses]
    simpa using (searched_scanTable m sig (rsdtOf m rsdp) (.inl rfl)).findsInside
  · rw [findInRsdt, if_neg huses]
    exact ⟨fun _ hu => absurd hu huses, fun _ => ⟨by simp, fun hl => absurd hl.1 huses⟩⟩

/-- **When the slots are inside**: every table that is looked at is as long as its header.  The RSDT is
looked at if the XSDT has no entry with the signature. -/
theorem find_table_inside (sig : List UInt8) (h : Checked m rsdp) :
    FindsInside m sig (TableListed m rsdp sig) (acpiFindTable m rsdp sig) ↔
      (usesXsdt m rsdp = true → acpiSdtSize ≤ sdtLength m (xsdtOf m rsdp)) ∧
      (usesRsdt m rsdp = true → ¬(usesXsdt m rsdp = true ∧ Lists m sig (xsdtOf m rsdp) 8) →
        acpiSdtSize ≤ sdtLength m (rsdtOf m rsdp)) := by
  have hrsdt := findInRsdt_inside sig h
  rw [TableListed]
  by_cases huses : usesXsdt m rsdp = true
  swap
  · rw [acpiFindTable, if_neg huses]
    simpa [huses] using hrsdt
  have hsearch := searched_scanTable m sig (xsdtOf m rsdp) (.inr rfl)
  rw [acpiFindTable, if_pos huses]
  dsimp only
  rw [h.xsdt huses, huses]
  simp only [Bool.not_true, Bool.false_eq_true, if_false, true_and, true_implies]
  rcases hscan : scanTable m sig (xsdtOf m rsdp) 8 (sdtEntries m (xsdtOf m rsdp) 8) 0 with
    ⟨slots, _ | hdr⟩
  · -- the RSDT is next, if the XSDT has been read inside of it
    rw [hscan] at hsearch
    constructor
    · rintro ⟨hinside, hfinds⟩
      obtain ⟨hfirst, hsecond⟩ := List.forall_mem_append.mp hinside
      exact ⟨hsearch.inside.mp hfirst, fun huses' _ =>
        hrsdt.mp ⟨hsecond, fun hlisted => hfinds (.inr hlisted)⟩ huses'⟩
    · rintro ⟨hlen, hlen'⟩
      have hnot := (hsearch.lists hlen).mp rfl
      obtain ⟨hsecond, hfinds⟩ := hrsdt.mpr fun huses' => hlen' huses' hnot
      exact ⟨List.forall_mem_append.mpr ⟨hsearch.inside.mpr hlen, hsecond⟩,
        fun hlisted => hfinds (hlisted.resolve_left hnot)⟩
  · rw [hscan] at hsearch
    constructor
    · rintro ⟨hinside, -⟩
      have hlen := hsearch.inside.mp hinside
      refine ⟨hlen, fun _ hnot => ?_⟩
      cases (hsearch.lists hlen).mpr hnot
    · rintro ⟨hlen, -⟩
      exact ⟨hsearch.inside.mpr hlen, fun _ => ⟨hdr, rfl, hsearch.found hdr rfl⟩⟩

/-- An RSDP at 0x1000 with an XSDT at 0x2000, whose first slot points to a table with the signature
`APIC`. -/
def xsdtMem (length checksum : ℕ) : ByteMem :=
  (((((ByteMem.store (fun _ => 0) 1 0x100F 2).store 8 0x1018 0x2000).store 4
    (hhdmBase + 0x2004) length).store 1 (hhdmBase + 0x2009) checksum).store 4 hhdmBase 0x43495041)

/-- The signature of the MADT. -/
def sigApic : List UInt8 := [0x41, 0x50, 0x49, 0x43]

/-- An XSDT of length 0 passes its checksum, and its first slot is read. -/
theorem find_table_short : Checked (xsdtMem 0 0) 0x1000 ∧
    ∃ slot ∈ (acpiFindTable (xsdtMem 0 0) 0x1000 sigApic).1, ¬slot.Inside (xsdtMem 0 0) := by
  refine ⟨⟨fun _ => by decide +kernel, fun h => absurd h (by decide +kernel)⟩,
    sdtSlot (xsdtOf (xsdtMem 0 0) 0x1000) 8 0, ?_, ?_⟩
  · decide +kernel
  · rw [Slot.Inside]
    decide +kernel

/-- An XSDT with one entry. -/
theorem find_table_one : Checked (xsdtMem 44 212) 0x1000 ∧
    FindsInside (xsdtMem 44 212) sigApic (TableListed (xsdtMem 44 212) 0x1000 sigApic)
      (acpiFindTable (xsdtMem 44 212) 0x1000 sigApic) := by
  have hno : usesRsdt (xsdtMem 44 212) 0x1000 = false := by decide +kernel
  have hchecked : Checked (xsdtMem 44 212) 0x1000 :=
    ⟨fun _ => by decide +kernel, fun h => by rw [hno] at h; cases h⟩
  refine ⟨hchecked, (find_table_inside sigApic hchecked).mpr ⟨fun _ => by decide +kernel, ?_⟩⟩
  intro h
  rw [hno] at h
  cases h

/-! ### `acpi_init` -/

/-- An RSDP at `addr`, with the checks of `rsdp_scan`. -/
def rsdpAt (m : ByteMem) (addr : ℕ) : Bool :=
  let rsdp := seenFrom m (physToHhdm addr)
  rsdp.bytes 0 8 = [0x52, 0x53, 0x44, 0x20, 0x50, 0x54, 0x52, 0x20] && checksumOk rsdp 20 &&
    (!(decide ((rsdp 15).toNat ≥ 2) && decide (rsdp.load 4 20 ≥ 36)) || checksumOk rsdp (rsdp.load 4 20))

/-- `rsdp_scan`, with `n` steps of 16 bytes left. -/
def rsdpScan (m : ByteMem) : ℕ → ℕ → Option ℕ
  | 0, _ => none
  | n + 1, addr => if rsdpAt m addr then some (physToHhdm addr) else rsdpScan m n (addr + 16)

/-- `acpi_init`. -/
def acpiInit (m : ByteMem) : Option AcpiState :=
  let ebdaAddr := (seenFrom m (physToHhdm 0x40E)).load 2 0 * 16
  match (rsdpScan m 64 ebdaAddr).or (rsdpScan m 0x2000 0xE0000) with
  | none => some .zero
  | some rsdp => do
    -- `hhdm_to_phys`
    let acpi := AcpiState.found (u64 (2 ^ 64 + rsdp - hhdmBase))
    let acpi ← match (acpiFindTable m rsdp sigApic).2 with
      | none => some acpi
      | some hdr => acpiParseMadt (fun a => some (seenFrom m hdr a)) acpi
    return { acpi with ready := true }

/-- **`acpi_init` returns**, and it is ready if there is an RSDP. -/
theorem acpiInit_returns (m : ByteMem) : ∃ acpi, acpiInit m = some acpi ∧
    (acpi.ready = true ↔ ((rsdpScan m 64 ((seenFrom m (physToHhdm 0x40E)).load 2 0 * 16)).or
      (rsdpScan m 0x2000 0xE0000)).isSome) := by
  rw [acpiInit]
  dsimp only
  split
  · next hnone => exact ⟨.zero, rfl, by rw [hnone]; decide⟩
  · next rsdp hsome =>
    rw [hsome]
    split
    · exact ⟨_, rfl, by simp⟩
    · next hdr _ =>
      -- nothing is refused, so that the walk over the records returns
      have hall : (fun a => some (seenFrom m hdr a)) = (seenFrom m hdr).only fun _ => True :=
        funext fun a => (ByteMem.only_apply trivial).symm
      obtain ⟨-, acpi, -, hparse, -⟩ := @acpiParseMadt_spec (seenFrom m hdr) (fun _ => True) _
        (.found (u64 (2 ^ 64 + rsdp - hhdmBase))) fun _ _ => trivial
      rw [hall, hparse]
      exact ⟨_, rfl, by simp⟩

end Neptune
