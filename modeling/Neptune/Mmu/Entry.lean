import Neptune.Mmu.Paging

/-!
# The bits of an entry

What the masks of `mmu.c` do to an entry, bit by bit: the flags are single bits, the
page is the entry rounded down to 4 KiB, and the entries that the kernel writes hold
the page and the flags that they are made of.

## Main definitions

* `TableEntry` — the entries above the page tables of a user address space.
* `granted` — the translation that a mapping asks for.

## Main results

* `leafOf_pteFor` — the entry of a page gives the translation that was asked for.
-/

namespace Neptune

open Nat

open Word64 (u64 not64)

variable {m : ByteMem} {e t t' i i' phys flags : ℕ}

/-! ### Flags -/

theorem has_two_pow (x k : ℕ) : has x (2 ^ k) = x.testBit k := by
  rw [has, and_two_pow]
  cases x.testBit k <;> simp

@[simp] theorem has_present (x : ℕ) : has x ptePresent = x.testBit 0 := has_two_pow x 0

@[simp] theorem has_rw (x : ℕ) : has x pteRw = x.testBit 1 := has_two_pow x 1

@[simp] theorem has_user (x : ℕ) : has x pteUser = x.testBit 2 := has_two_pow x 2

@[simp] theorem has_ps (x : ℕ) : has x ptePs = x.testBit 7 := has_two_pow x 7

@[simp] theorem has_cow (x : ℕ) : has x pteCow = x.testBit 9 := has_two_pow x 9

@[simp] theorem has_nx (x : ℕ) : has x pteNx = x.testBit 63 := has_two_pow x 63

@[simp] theorem has_mmuFlagWrite (x : ℕ) : has x mmuFlagWrite = x.testBit 1 := has_two_pow x 1

@[simp] theorem has_mmuFlagUser (x : ℕ) : has x mmuFlagUser = x.testBit 2 := has_two_pow x 2

@[simp] theorem has_mmuFlagGlobal (x : ℕ) : has x mmuFlagGlobal = x.testBit 8 := has_two_pow x 8

@[simp] theorem has_mmuFlagCow (x : ℕ) : has x mmuFlagCow = x.testBit 9 := has_two_pow x 9

@[simp] theorem has_mmuFlagNoexec (x : ℕ) : has x mmuFlagNoexec = x.testBit 63 := has_two_pow x 63

/-- The test for an address inside a page. -/
theorem has_fff (x : ℕ) : has x 0xFFF = true ↔ x % 4096 ≠ 0 := by
  have hand : x &&& 0xFFF = x % 4096 := and_two_pow_sub_one_eq_mod x 12
  simp [has, hand]

/-! ### Pages and frames -/

theorem pageOf_eq (he : e < 2 ^ 64) : pageOf e = e / 4096 * 4096 :=
  Word64.and_not64_sub_one (k := 12) he (by decide)

theorem pageOf_of_aligned (he : e < 2 ^ 64) (h : e % 4096 = 0) : pageOf e = e := by
  rw [pageOf_eq he]
  omega

theorem pageOf_lt (he : e < 2 ^ 64) : pageOf e < 2 ^ 64 := by
  rw [pageOf_eq he]
  omega

theorem pageOf_mod (he : e < 2 ^ 64) : pageOf e % 4096 = 0 := by
  rw [pageOf_eq he]
  omega

/-- The processor and the kernel agree on an entry without high bits. -/
theorem entryFrame_eq_pageOf (he : e < 2 ^ 52) : entryFrame e = pageOf e := by
  rw [pageOf_eq (by omega), entryFrame]
  omega

theorem entryFrame_spec (e : ℕ) : entryFrame e < 2 ^ 52 ∧ entryFrame e % 4096 = 0 := by
  rw [entryFrame]
  omega

theorem indexAt_lt (l virt : ℕ) : indexAt l virt < 512 := mod_lt _ (by decide)

theorem entryFrame_eq_mod (e : ℕ) : entryFrame e = e % 2 ^ 52 / 4096 * 4096 := by
  rw [entryFrame]
  omega

/-- Flags below a page. -/
theorem page_or {p c : ℕ} (hp : p % 4096 = 0) (hc : c < 4096) : p ||| c = p + c := by
  have hmul : 2 ^ 12 * (p / 4096) = p := by omega
  have hor := two_pow_add_eq_or_of_lt (i := 12) hc (p / 4096)
  rw [hmul] at hor
  exact hor.symm

/-! ### Entries above the page tables -/

/-- An entry that leads to a table, and takes no right but that of the user. -/
structure TableEntry (e : ℕ) : Prop where
  present : e.testBit 0 = true
  rw : e.testBit 1 = true
  small : e.testBit 7 = false
  lt : e < 2 ^ 52

theorem TableEntry.noExec (h : TableEntry e) : e.testBit 63 = false :=
  testBit_lt_two_pow (lt_of_lt_of_le h.lt (by decide))

theorem TableEntry.entryFrame (h : TableEntry e) : entryFrame e = pageOf e := entryFrame_eq_pageOf h.lt

theorem pageOf_add {p c : ℕ} (hp : p % 4096 = 0) (hc : c < 4096) (hlt : p + c < 2 ^ 64) :
    pageOf (p + c) = p := by
  rw [pageOf_eq hlt]
  omega

/-- The entry of a new table. -/
theorem tableEntry_new {f u : ℕ} (hf : f % 4096 = 0) (hlt : f < 2 ^ 52) (hu : u = 0 ∨ u = 4) :
    TableEntry (f ||| ptePresent ||| pteRw ||| u) ∧ pageOf (f ||| ptePresent ||| pteRw ||| u) = f ∧
      (f ||| ptePresent ||| pteRw ||| u).testBit 2 = decide (u = 4) := by
  have hval : f ||| ptePresent ||| pteRw ||| u = f + (3 + u) := by
    rw [Nat.or_assoc, Nat.or_assoc, page_or hf (by rcases hu with rfl | rfl <;> decide)]
    rcases hu with rfl | rfl <;> rfl
  have hbits : ∀ k, k < 12 → (f + (3 + u)).testBit k = (3 + u).testBit k := by
    intro k hk
    rw [← page_or hf (by omega), testBit_or]
    have hzero : f.testBit k = false := by
      have hmul : f = 2 ^ 12 * (f / 4096) := by omega
      rw [hmul, testBit_two_pow_mul]
      simp [not_le.mpr hk]
    rw [hzero, Bool.false_or]
  rw [hval]
  refine ⟨⟨?_, ?_, ?_, by omega⟩, pageOf_add hf (by omega) (by omega), ?_⟩
  · rw [hbits 0 (by decide)]
    rcases hu with rfl | rfl <;> rfl
  · rw [hbits 1 (by decide)]
    rcases hu with rfl | rfl <;> rfl
  · rw [hbits 7 (by decide)]
    rcases hu with rfl | rfl <;> rfl
  · rw [hbits 2 (by decide)]
    rcases hu with rfl | rfl <;> rfl

theorem testBit_or_user (e k : ℕ) :
    (e ||| pteUser).testBit k = (e.testBit k || decide (2 = k)) := by
  rw [testBit_or, show pteUser = 2 ^ 2 from rfl, testBit_two_pow]

theorem pageOf_or_user (he : e < 2 ^ 52) :
    e ||| pteUser < 2 ^ 52 ∧ pageOf (e ||| pteUser) = pageOf e := by
  have hlt : e ||| pteUser < 2 ^ 52 := or_lt_two_pow he (by decide)
  have hdiv : (e ||| pteUser) / 2 ^ 12 = e / 2 ^ 12 := by
    apply eq_of_testBit_eq
    intro k
    rw [testBit_div_two_pow, testBit_div_two_pow, testBit_or_user]
    simp
  refine ⟨hlt, ?_⟩
  rw [pageOf_eq (by omega), pageOf_eq (by omega)]
  omega

/-- The right of the user added to an entry. -/
theorem TableEntry.or_user (h : TableEntry e) :
    TableEntry (e ||| pteUser) ∧ pageOf (e ||| pteUser) = pageOf e ∧
      (e ||| pteUser).testBit 2 = true := by
  obtain ⟨hlt, hpage⟩ := pageOf_or_user h.lt
  exact ⟨⟨by simp only [testBit_or_user, h.present]; rfl, by simp only [testBit_or_user, h.rw]; rfl,
    by simp only [testBit_or_user, h.small]; rfl, hlt⟩, hpage, by simp only [testBit_or_user]; simp⟩

/-! ### Entries of pages -/

/-- The translation that a mapping asks for.  Of an address beyond the 52 bits of an entry
the processor reads bit 63 as a flag and nothing else. -/
def granted (phys flags : ℕ) : Translation where
  frame := phys % 2 ^ 52
  write := has flags mmuFlagWrite
  user := has flags mmuFlagUser
  noExec := has flags mmuFlagNoexec || phys.testBit 63

theorem granted_of_lt (h : phys < 2 ^ 52) :
    granted phys flags = ⟨phys, has flags mmuFlagWrite, has flags mmuFlagUser,
      has flags mmuFlagNoexec⟩ := by
  have hbit : phys.testBit 63 = false :=
    testBit_lt_two_pow (lt_of_lt_of_le h (by decide))
  rw [granted, mod_eq_of_lt h, hbit, Bool.or_false]

theorem testBit_pteFor (hp : phys < 2 ^ 64) (ha : phys % 4096 = 0) (k : ℕ) :
    (pteFor phys flags).testBit k = (phys.testBit k || decide (k = 0) ||
      (flags.testBit 1 && decide (k = 1)) || (flags.testBit 2 && decide (k = 2)) ||
      (flags.testBit 8 && decide (k = 8)) || (flags.testBit 9 && decide (k = 9)) ||
      (flags.testBit 63 && decide (k = 63))) := by
  have hif : ∀ (b : Bool) (j : ℕ),
      (if b = true then 2 ^ j else 0).testBit k = (b && decide (k = j)) := by
    intro b j
    cases b with
    | false => simp
    | true => simp [testBit_two_pow, eq_comm]
  have hone : (1 : ℕ).testBit k = decide (k = 0) := by
    rw [← pow_zero 2, testBit_two_pow]
    simp [eq_comm]
  rw [pteFor, pageOf_of_aligned hp ha]
  simp only [testBit_or, has_mmuFlagWrite, has_mmuFlagUser, has_mmuFlagGlobal, has_mmuFlagCow,
    has_mmuFlagNoexec, ptePresent, hone]
  rw [← hif _ 1, ← hif _ 2, ← hif _ 8, ← hif _ 9, ← hif _ 63]
  rfl

theorem pteFor_lt (hp : phys < 2 ^ 64) (ha : phys % 4096 = 0) : pteFor phys flags < 2 ^ 64 := by
  refine lt_pow_two_of_testBit _ fun k hk => ?_
  rw [testBit_pteFor hp ha]
  have hbit : phys.testBit k = false :=
    Nat.testBit_lt_two_pow (Nat.lt_of_lt_of_le hp (Nat.pow_le_pow_right (by decide) hk))
  simp [hbit, show k ≠ 0 by omega, show k ≠ 1 by omega, show k ≠ 2 by omega,
    show k ≠ 8 by omega, show k ≠ 9 by omega, show k ≠ 63 by omega]

theorem testBit_of_aligned (ha : phys % 4096 = 0) {k : ℕ} (hk : k < 12) :
    phys.testBit k = false := by
  have hmul : phys = 2 ^ 12 * (phys / 4096) := by omega
  rw [hmul, testBit_two_pow_mul]
  simp [not_le.mpr hk]

theorem entryFrame_pteFor (hp : phys < 2 ^ 64) (ha : phys % 4096 = 0) :
    entryFrame (pteFor phys flags) = phys % 2 ^ 52 := by
  have hdiv : pteFor phys flags / 2 ^ 12 % 2 ^ 40 = phys / 2 ^ 12 % 2 ^ 40 := by
    apply eq_of_testBit_eq
    intro k
    rw [testBit_mod_two_pow, testBit_mod_two_pow, testBit_div_two_pow, testBit_div_two_pow]
    by_cases hk : k < 40
    · rw [testBit_pteFor hp ha]
      simp [show k + 12 ≠ 1 by omega, show k + 12 ≠ 2 by omega,
        show k + 12 ≠ 8 by omega, show k + 12 ≠ 9 by omega, show k + 12 ≠ 63 by omega]
    · simp [hk]
  rw [entryFrame, hdiv]
  omega

/-- **The entry of a page gives what was asked for.** -/
theorem leafOf_pteFor (hp : phys < 2 ^ 64) (ha : phys % 4096 = 0) (virt : ℕ) :
    leafOf 0 (pteFor phys flags) virt = granted phys flags := by
  have hlow : ∀ k, k < 12 → phys.testBit k = false := fun k hk => testBit_of_aligned ha hk
  have hframe : entryFrame (pteFor phys flags) = phys % 2 ^ 52 := entryFrame_pteFor hp ha
  rw [leafOf, granted, hframe]
  simp only [has_rw, has_user, has_nx, has_mmuFlagWrite, has_mmuFlagUser, has_mmuFlagNoexec,
    testBit_pteFor hp ha, hlow 1 (by decide), hlow 2 (by decide)]
  simp [Bool.or_comm, mod_one]
  omega

end Neptune
