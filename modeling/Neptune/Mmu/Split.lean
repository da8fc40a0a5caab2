import Neptune.Mmu.Map

/-!
# Splitting a page of 2 MiB

`ensure_table` replaces an entry with `PTE_PS` by a page table whose 512 entries map the pages of
the large page one by one.  The flags of the large page are kept twice: in each entry of the new
table, and in the entry that leads to it.

## Main definitions

* `keptFlags`, `splitPte`, `splitEntry` — what the split writes.
* `splitMem` — the memory after the loop.

## Main results

* `leafOf_splitPte` — an entry of the new table translates its page as the large page did.
* `Phys.ensureTable_of_huge` — `ensure_table` on such an entry.
-/

namespace Neptune

open Nat

open Word64 (u64 not64)

variable {m : ByteMem} {e f t u i j k n virt flags : ℕ} {s : Phys}

/-! ### The flags that are kept -/

/-- `flags_keep`. -/
def keptFlags (e : ℕ) : ℕ := e &&& (ptePresent ||| pteRw ||| pteUser ||| pteGlobal ||| pteNx)

/-- Entry `i` of the new table. -/
def splitPte (e i : ℕ) : ℕ := u64 ((e &&& not64 (2 ^ 21 - 1)) + i * 4096) ||| keptFlags e

/-- The entry that leads to the new table. -/
def splitEntry (f e : ℕ) : ℕ :=
  f ||| ptePresent ||| (keptFlags e &&& (pteRw ||| pteUser ||| pteGlobal ||| pteNx))

theorem testBit_keptFlags (e k : ℕ) :
    (keptFlags e).testBit k = (e.testBit k && decide (k = 0 ∨ k = 1 ∨ k = 2 ∨ k = 8 ∨ k = 63)) := by
  have hmask : ptePresent ||| pteRw ||| pteUser ||| pteGlobal ||| pteNx =
      2 ^ 0 ||| 2 ^ 1 ||| 2 ^ 2 ||| 2 ^ 8 ||| 2 ^ 63 := rfl
  rw [keptFlags, hmask, testBit_and]
  simp only [testBit_or, testBit_two_pow, ← Bool.decide_or, eq_comm (b := k), or_assoc]

theorem keptFlags_mod (e : ℕ) : keptFlags e % 2 ^ 52 < 4096 := by
  refine lt_pow_two_of_testBit (n := 12) _ fun k hk => ?_
  rw [testBit_mod_two_pow, testBit_keptFlags]
  by_cases hlt : k < 52
  · simp [show k ≠ 0 by omega, show k ≠ 1 by omega, show k ≠ 2 by omega, show k ≠ 8 by omega,
      show k ≠ 63 by omega]
  · simp [hlt]

/-! ### The entries of the new table -/

/-- The frame of page `i`. -/
theorem splitBase_eq (he : e < 2 ^ 64) (hi : i < 512) :
    u64 ((e &&& not64 (2 ^ 21 - 1)) + i * 4096) = e / 2 ^ 21 * 2 ^ 21 + i * 4096 := by
  rw [Word64.and_not64_sub_one he (by decide)]
  exact Word64.u64_of_lt (by omega)

theorem splitPte_lt (he : e < 2 ^ 64) : splitPte e i < 2 ^ 64 :=
  or_lt_two_pow (Word64.u64_lt _) (lt_of_le_of_lt and_le_left he)

theorem testBit_splitPte_low (he : e < 2 ^ 64) (hi : i < 512) (hk : k < 12) :
    (splitPte e i).testBit k = (keptFlags e).testBit k := by
  have hzero : (e / 2 ^ 21 * 2 ^ 21 + i * 4096).testBit k = false :=
    testBit_of_aligned (by omega) hk
  rw [splitPte, splitBase_eq he hi, testBit_or, hzero, Bool.false_or]

theorem testBit_splitPte_nx (he : e < 2 ^ 64) (hi : i < 512) :
    (splitPte e i).testBit 63 = e.testBit 63 := by
  -- the bits of the address above bit 20 are those of the large page
  have hbase : (e / 2 ^ 21 * 2 ^ 21 + i * 4096).testBit 63 = e.testBit 63 := by
    rw [testBit_eq_decide_div_mod_eq, testBit_eq_decide_div_mod_eq]
    congr 2
    omega
  rw [splitPte, splitBase_eq he hi, testBit_or, hbase, testBit_keptFlags]
  simp

theorem entryFrame_splitPte (he : e < 2 ^ 64) (hi : i < 512) :
    entryFrame (splitPte e i) = entryFrame e / 2 ^ 21 * 2 ^ 21 + i * 4096 := by
  have hlow : (e / 2 ^ 21 * 2 ^ 21 + i * 4096) % 2 ^ 52 % 4096 = 0 := by omega
  have hflags := keptFlags_mod e
  rw [entryFrame_eq_mod, entryFrame_eq_mod, splitPte, splitBase_eq he hi, or_mod_two_pow,
    page_or hlow hflags]
  omega

/-- **An entry of the new table translates its page as the large page did.** -/
theorem leafOf_splitPte (he : e < 2 ^ 64) (virt : ℕ) :
    leafOf 0 (splitPte e (indexAt 0 virt)) virt = leafOf 1 e virt := by
  have hi : indexAt 0 virt < 512 := mod_lt _ (by decide)
  have hframe := entryFrame_splitPte he hi
  have hindex : indexAt 0 virt = virt / 2 ^ 12 % 2 ^ 9 := rfl
  simp only [leafOf, has_rw, has_user, has_nx, testBit_splitPte_nx he hi,
    testBit_splitPte_low he hi (show 1 < 12 by decide),
    testBit_splitPte_low he hi (show 2 < 12 by decide), testBit_keptFlags, hframe,
    Translation.mk.injEq]
  refine ⟨?_, by simp, by simp, trivial⟩
  rw [hindex]
  omega

/-! ### The entry that leads to it -/

theorem splitEntry_flags (hnx : e.testBit 63 = false) :
    ptePresent ||| (keptFlags e &&& (pteRw ||| pteUser ||| pteGlobal ||| pteNx)) < 4096 := by
  refine lt_pow_two_of_testBit (n := 12) _ fun k hk => ?_
  have hone : ptePresent.testBit k = false :=
    testBit_lt_two_pow (lt_of_lt_of_le (by decide : ptePresent < 2 ^ 12)
      (Nat.pow_le_pow_right (by decide) hk))
  rw [Nat.testBit_or, Nat.testBit_and, testBit_keptFlags, hone]
  by_cases h63 : k = 63
  · subst h63
    simp [hnx]
  · simp [show k ≠ 0 by omega, show k ≠ 1 by omega, show k ≠ 2 by omega, show k ≠ 8 by omega, h63]

theorem splitEntry_eq (hf : f % 4096 = 0) (hnx : e.testBit 63 = false) :
    splitEntry f e =
      f + (ptePresent ||| (keptFlags e &&& (pteRw ||| pteUser ||| pteGlobal ||| pteNx))) := by
  rw [splitEntry, Nat.or_assoc, page_or hf (splitEntry_flags hnx)]

/-- The low bits of the entry. -/
theorem testBit_splitEntry (hf : f % 4096 = 0) (hk : k < 12) :
    (splitEntry f e).testBit k =
      (decide (k = 0) || (e.testBit k && decide (k = 1 ∨ k = 2 ∨ k = 8))) := by
  have hmask : pteRw ||| pteUser ||| pteGlobal ||| pteNx = 2 ^ 1 ||| 2 ^ 2 ||| 2 ^ 8 ||| 2 ^ 63 := rfl
  have hone : ptePresent.testBit k = decide (k = 0) := by
    rw [show ptePresent = 2 ^ 0 from rfl, testBit_two_pow]
    simp [eq_comm]
  rw [splitEntry, hmask]
  simp only [testBit_or, testBit_and, testBit_keptFlags, testBit_of_aligned hf hk, hone,
    testBit_two_pow]
  have h63 : k ≠ 63 := by omega
  grind

/-! ### The loop -/

/-- The memory after the loop. -/
def splitMem (m : ByteMem) (f e : ℕ) : ℕ → ℕ → ByteMem
  | 0, _ => m
  | n + 1, i => splitMem (setEntry m f i (splitPte e i)) f e n (i + 1)

theorem entryAt_splitMem_self (he : e < 2 ^ 64) (hf : f % 4096 = 0) (hj : j < 512) :
    ∀ {m : ByteMem} {n i : ℕ}, i + n ≤ 512 →
      entryAt (splitMem m f e n i) f j =
        if i ≤ j ∧ j < i + n then splitPte e j else entryAt m f j := by
  intro m n
  induction n generalizing m with
  | zero =>
    intro i _
    rw [splitMem, if_neg (by omega)]
  | succ n ih =>
    intro i hin
    rw [splitMem, ih (by omega)]
    by_cases hji : j = i
    · subst hji
      rw [if_neg (by omega), if_pos (by omega), entryAt_setEntry_self (splitPte_lt he)]
    · rw [entryAt_setEntry_of_ne hf hf (by omega) hj (fun h => hji h.2)]
      have hiff : (i + 1 ≤ j ∧ j < i + 1 + n) ↔ (i ≤ j ∧ j < i + (n + 1)) := by omega
      simp only [hiff]

theorem entryAt_splitMem_of_ne (hf : f % 4096 = 0) (hu : u % 4096 = 0) (hne : u ≠ f)
    (hj : j < 512) :
    ∀ {m : ByteMem} {n i : ℕ}, i + n ≤ 512 →
      entryAt (splitMem m f e n i) u j = entryAt m u j := by
  intro m n
  induction n generalizing m with
  | zero =>
    intro i _
    rfl
  | succ n ih =>
    intro i hin
    rw [splitMem, ih (by omega), entryAt_setEntry_of_ne hf hu (by omega) hj (fun h => hne h.1)]

theorem Phys.splitLoop_eq (hlt : f < 2 ^ 64) (hf : f % 4096 = 0) :
    ∀ {s : Phys} {n i : ℕ}, i + n ≤ 512 →
      s.splitLoop f (e &&& not64 (2 ^ 21 - 1)) (keptFlags e) n i =
        if n = 0 ∨ f + 8 * (i + n) ≤ s.window then
          some { s with mem := splitMem s.mem f e n i }
        else none := by
  intro s n
  induction n generalizing s with
  | zero =>
    intro i _
    rw [if_pos (Or.inl rfl)]
    rfl
  | succ n ih =>
    intro i hin
    rw [Phys.splitLoop, Phys.writeTable_eq hlt hf (by omega)]
    by_cases hw : f + 8 * i + 8 ≤ s.window
    · have hiff : (n = 0 ∨ f + 8 * (i + 1 + n) ≤ s.window) ↔
          (n + 1 = 0 ∨ f + 8 * (i + (n + 1)) ≤ s.window) := by omega
      rw [if_pos hw]
      refine (ih (by omega)).trans ?_
      simp only [hiff]
      rfl
    · rw [if_neg hw, if_neg (by omega)]
      rfl

/-- **`ensure_table` on the entry of a large page.** -/
theorem Phys.ensureTable_of_huge (ha : t % 4096 = 0) (ht : t + 4096 ≤ s.window) (hi : i < 512)
    (hlarge : (entryAt s.mem t i).testBit 7 = true)
    (hpool : ∀ f ∈ s.pool, f % 4096 = 0 ∧ f < 2 ^ 64) :
    s.ensureTable t i flags =
      match s.pool with
      | [] => none
      | f :: pool =>
        if f + 4096 ≤ s.window then
          some (f, { s with
            mem := setEntry (splitMem s.mem f (entryAt s.mem t i) 512 0) t i
              (splitEntry f (entryAt s.mem t i))
            pool })
        else none := by
  rw [Phys.ensureTable, Phys.readTable_of_inside ha ht hi]
  generalize entryAt s.mem t i = e at hlarge ⊢
  simp only [Option.bind_eq_bind, Option.bind_some, has_ps, hlarge, if_true]
  cases hp : s.pool with
  | nil =>
    have halloc : s.pmmAllocPage = none := by rw [Phys.pmmAllocPage, hp]
    rw [halloc]
    rfl
  | cons f pool =>
    obtain ⟨hfa, hf⟩ := hpool f (by simp [hp])
    have halloc : s.pmmAllocPage = some (f, { s with pool }) := by rw [Phys.pmmAllocPage, hp]
    have hloop := Phys.splitLoop_eq (s := { s with pool }) (e := e) (n := 512) (i := 0) hf hfa (by decide)
    rw [halloc, Option.bind_some]
    dsimp only
    rw [← keptFlags, hloop]
    -- the memory after the loop is not to be computed
    generalize splitMem s.mem f e 512 0 = m'
    by_cases hw : f + 4096 ≤ s.window
    · rw [if_pos (Or.inr (by dsimp only; omega)), if_pos hw, Option.bind_some,
        Phys.writeTable_of_inside ha (by exact ht) hi]
      rfl
    · rw [if_neg (by dsimp only; omega), if_neg hw]
      rfl

end Neptune
