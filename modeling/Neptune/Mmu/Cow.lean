import Neptune.Mmu.Refine

/-!
# Copy on write

A page of a user address space with the COW bit is copied to a new frame at the first
write.  `handle_user_cow_fault` takes the old frame to be everything of the entry above
its low 12 bits, the NX bit included, so that it copies the page of an entry below 2^52
and faults on every other.  The pages that `handle_user_page_fault` installs are of the
other kind.

## Main definitions

* `CowFault` — a write to a page with the COW bit.
* `CowDone` — the page has been copied.

## Main results

* `cow_fault_copies` — when the page is copied.
* `Represents.handleUserPageFault` — what a page fault maps.
-/

namespace Neptune

open ByteMem Nat Option Phys
open Word64 (u64 not64)

variable {m m' : ByteMem} {root top page pt f e dst src n i : ℕ} {s s' u : Phys}
  {map : ℕ → Option Translation}

/-! ### The entry of the copy -/

/-- The entry that `handle_user_cow_fault` writes. -/
abbrev cowEntry (e f : ℕ) : ℕ :=
  pageOf f ||| (((e &&& 0xFFF) ||| pteRw) &&& not64 pteCow) ||| (e &&& pteNx)

section

variable (ha : f % 4096 = 0) (hlt : f < 2 ^ 52)

include ha hlt

theorem testBit_cowEntry (k : ℕ) :
    (cowEntry e f).testBit k = (f.testBit k || decide (k = 1) ||
      (e.testBit k && decide (k ≠ 9 ∧ (k < 12 ∨ k = 63)))) := by
  have hmask : (0xFFF : ℕ).testBit k = decide (k < 12) := testBit_two_pow_sub_one 12 k
  have hrw : pteRw.testBit k = decide (1 = k) := testBit_two_pow (n := 1)
  have hnx : pteNx.testBit k = decide (63 = k) := testBit_two_pow (n := 63)
  have hcow : (not64 pteCow).testBit k = (decide (k < 64) && !decide (9 = k)) := by
    have hsub : not64 pteCow = 2 ^ 64 - (pteCow + 1) := rfl
    have hbit : pteCow.testBit k = decide (9 = k) := testBit_two_pow (n := 9)
    rw [hsub, testBit_two_pow_sub_succ (by decide), hbit]
  rw [cowEntry, pageOf_of_aligned (by omega) ha]
  simp only [testBit_or, testBit_and, hmask, hrw, hnx, hcow]
  by_cases h1 : k = 1
  · subst h1
    simp
  by_cases h63 : k = 63
  · subst h63
    simp
  by_cases h9 : k = 9
  · subst h9
    simp
  by_cases h12 : k < 12
  · simp [h1, h63, h9, h12, Ne.symm h1, Ne.symm h63, Ne.symm h9, show k < 64 by omega]
  · simp [h1, h63, h9, h12, Ne.symm h1, Ne.symm h63, Ne.symm h9]

theorem cowEntry_present (he : e.testBit 0 = true) : (cowEntry e f).testBit 0 = true := by
  rw [testBit_cowEntry ha hlt, he]
  simp

theorem cowEntry_lt : cowEntry e f < 2 ^ 64 := by
  refine lt_pow_two_of_testBit _ fun k hk => ?_
  have hbit : f.testBit k = false := testBit_lt_two_pow
    (Nat.lt_of_lt_of_le hlt (Nat.pow_le_pow_right (by decide) (by omega)))
  rw [testBit_cowEntry ha hlt, hbit]
  simp [show k ≠ 1 by omega, show ¬k < 12 by omega, show k ≠ 63 by omega]

theorem entryFrame_cowEntry : entryFrame (cowEntry e f) = f := by
  have hdiv : cowEntry e f / 2 ^ 12 % 2 ^ 40 = f / 2 ^ 12 % 2 ^ 40 := by
    apply eq_of_testBit_eq
    intro k
    rw [testBit_mod_two_pow, testBit_mod_two_pow, testBit_div_two_pow, testBit_div_two_pow]
    by_cases hk : k < 40
    · rw [testBit_cowEntry ha hlt]
      simp [show k + 12 ≠ 1 by omega, show ¬k + 12 < 12 by omega, show k + 12 ≠ 63 by omega]
    · simp [hk]
  rw [entryFrame, hdiv]
  omega

/-- The copy is writable and has the other rights of the page. -/
theorem leafOf_cowEntry (virt : ℕ) :
    leafOf 0 (cowEntry e f) virt = { leafOf 0 e virt with frame := f, write := true } := by
  have hbit : f.testBit 2 = false := testBit_of_aligned ha (by decide)
  have hnx : f.testBit 63 = false :=
    testBit_lt_two_pow (lt_of_lt_of_le hlt (by decide))
  rw [leafOf, leafOf, entryFrame_cowEntry ha hlt]
  simp only [has_rw, has_user, has_nx, testBit_cowEntry ha hlt, hbit, hnx]
  simp [mod_one]
  omega

end

/-! ### The way to the entry -/

theorem UserTables.mono (h : UserTables m root top) {top' : ℕ} (hle : top ≤ top') :
    UserTables m root top' :=
  ⟨h.unshared, fun hd hx ht => ⟨(h.inside hd hx ht).1, le_trans (h.inside hd hx ht).2 hle⟩,
    h.entry, h.user⟩

theorem indexAt_page_mul (page level : ℕ) (hl : level ≤ 4) :
    indexAt level (page * 4096) = above page (4 - level) % 512 := by
  rw [indexAt_of_aligned (Nat.mul_mod_left page 4096) hl, Nat.mul_div_cancel page (by decide)]

/-- The kernel reads the tables in the direct map. -/
theorem UserTables.read {d t i : ℕ} (h : UserTables s.mem root s.hhdm) (hp : Lower 4 page)
    (hd : d ≤ 3) (ht : tableAt s.mem root d (above page d) = some t) (hi : i < 512) :
    s.readHhdm t i = some (entryAt s.mem t i) := by
  have hle := s.hhdm_le
  obtain ⟨hta, htw⟩ := h.inside hd (lower_above hp (by omega)) ht
  rw [readHhdm_eq (by omega) hta hi, if_pos (by omega)]

/-- The entry of a page in its page table. -/
theorem UserTables.entryAddr (h : UserTables s.mem root s.hhdm) (hp : Lower 4 page)
    (hpt : tableAt s.mem root 3 (above page 3) = some pt) :
    windowAddr hhdmBase s.hhdm pt (8 * (page % 512)) 8 = some (pt + 8 * (page % 512)) := by
  have hle := s.hhdm_le
  have hmod := mod_512_lt page
  obtain ⟨-, htw⟩ := h.inside le_rfl (lower_above hp (by decide)) hpt
  rw [windowAddr_eq (by decide) s.hhdm_le, Word64.u64_of_lt (by omega), if_pos (by omega)]

/-- `pte_lookup` finds the entry of a page that has a page table. -/
theorem Phys.pteLookup_eq (h : UserTables s.mem root s.hhdm) (hp : Lower 4 page) :
    s.pteLookup root (page * 4096) =
      some ((tableAt s.mem root 3 (above page 3)).map fun pt => (pt, page % 512)) := by
  have hread : ∀ {d t}, d < 3 → tableAt s.mem root d (above page d) = some t →
      ∃ e, s.readHhdm t (above page (d + 1) % 512) = some e ∧
        (e = 0 ∧ tableAt s.mem root (d + 1) (above page (d + 1)) = none ∨
          TableEntry e ∧ tableAt s.mem root (d + 1) (above page (d + 1)) = some (pageOf e)) := by
    intro d t hd ht
    refine ⟨_, h.read hp (by omega) ht (mod_512_lt _), (h.next hp hd ht rfl).imp_right ?_⟩
    rintro ⟨hentry, hsome⟩
    exact ⟨hentry, hentry.entryFrame ▸ hsome⟩
  obtain ⟨e₃, h₃, ⟨rfl, hnone⟩ | ⟨he₃, ht₁⟩⟩ := hread (d := 0) (by decide) rfl
  · simp [Phys.pteLookup, indexAt_page_mul, h₃, tableAt_eq_none 3 hnone (by decide) (by decide)]
  obtain ⟨e₂, h₂, ⟨rfl, hnone⟩ | ⟨he₂, ht₂⟩⟩ := hread (by decide) ht₁
  · simp [Phys.pteLookup, indexAt_page_mul, h₃, h₂, tableAt_eq_none 3 hnone (by decide) (by decide)]
  obtain ⟨e₁, h₁, ⟨rfl, hnone⟩ | ⟨he₁, ht₃⟩⟩ := hread (by decide) ht₂
  · simp [Phys.pteLookup, indexAt_page_mul, h₃, h₂, h₁, he₂.small, hnone]
  · have hlast : above page 4 = page := Nat.div_one page
    simp [-Nat.testBit_zero, Phys.pteLookup, indexAt_page_mul, h₃, h₂, h₁, he₃.present, he₂.present,
      he₂.small, he₁.present, he₁.small, ht₃, hlast]

/-! ### The copy -/

/-- The tables depend on their own bytes only. -/
theorem UserTables.congr (h : UserTables m root top)
    (hsame : ∀ {d x t}, d ≤ 3 → Lower d x → tableAt m root d x = some t →
      ∀ a, t ≤ a → a < t + 4096 → m' a = m a) :
    UserTables m' root top ∧ (∀ d x, d ≤ 3 → Lower d x → tableAt m' root d x = tableAt m root d x) ∧
      (∀ {p}, Lower 4 p → leafAt m' root p = leafAt m root p) := by
  have hmod : ∀ y, y % 512 < 512 := fun y => mod_lt _ (by decide)
  have hentry : ∀ {d x t i}, d ≤ 3 → Lower d x → tableAt m root d x = some t → i < 512 →
      entryAt m' t i = entryAt m t i := by
    intro d x t i hd hx ht hi
    exact load_congr fun a h₁ h₂ => hsame hd hx ht a (by omega) (by omega)
  have htable : ∀ d x, d ≤ 3 → Lower d x → tableAt m' root d x = tableAt m root d x :=
    nodeAt_congr Lower.parent fun d x t hd hx ht => by
      rw [nextTable, nextTable, hentry (by omega) (Lower.parent _ _ hx) ht (hmod x)]
  have hleaf : ∀ {p}, Lower 4 p → leafAt m' root p = leafAt m root p := by
    intro p hp
    have hl3 : Lower 3 (above p 3) := lower_above hp (by decide)
    rw [leafAt, leafAt, htable 3 _ le_rfl hl3]
    cases ht : tableAt m root 3 (above p 3) with
    | none => rfl
    | some t => exact hentry le_rfl hl3 ht (hmod p)
  refine ⟨⟨h.unshared.congr htable, fun hd hx ht => ?_, fun hd hx ht => ?_,
    fun hp hpres hbit d t hd ht => ?_⟩, htable, hleaf⟩
  · exact h.inside hd hx ((htable _ _ hd hx).symm.trans ht)
  · have hl := Lower.parent _ _ hx
    have hold := (htable _ _ (by omega) hl).symm.trans ht
    rw [hentry (by omega) hl hold (hmod _)]
    exact h.entry hd hx hold
  · rw [hleaf hp] at hpres hbit
    have hl : Lower d (above _ d) := lower_above hp (by omega)
    have hold := (htable _ _ (by omega) hl).symm.trans ht
    rw [hentry (by omega) hl hold (hmod _)]
    exact h.user hp hpres hbit d t hd hold

/-- A page that is no table can be written without a change of the tables. -/
theorem UserTables.frame (h : UserTables m root top) (hfa : f % 4096 = 0)
    (hfresh : ∀ d x, d ≤ 3 → Lower d x → tableAt m root d x ≠ some f)
    (hsame : ∀ a, ¬(f ≤ a ∧ a < f + 4096) → m' a = m a) {d x t : ℕ} (hd : d ≤ 3) (hx : Lower d x)
    (ht : tableAt m root d x = some t) (a : ℕ) (hle : t ≤ a) (hlt : a < t + 4096) : m' a = m a := by
  refine hsame a fun hin => ?_
  have hta := (h.inside hd hx ht).1
  have hne : t ≠ f := fun he => hfresh d x hd hx (he ▸ ht)
  omega

/-- Nothing has been written to the tables, and pages have been taken at most. -/
structure KeepsTables (s s' : Phys) (root : ℕ) : Prop where
  window : s'.window = s.window
  bytes : ∀ {d x t}, d ≤ 3 → Lower d x → tableAt s.mem root d x = some t →
    ∀ a, t ≤ a → a < t + 4096 → s'.mem a = s.mem a
  pool : s'.pool.Sublist s.pool

theorem Represents.keep (h : Represents s root map) (hk : KeepsTables s s' root) :
    Represents s' root map := by
  obtain ⟨htables, hsame, hleaf⟩ := h.tables.congr hk.bytes
  refine ⟨hk.window ▸ htables, ⟨h.pool.nodup.sublist hk.pool,
    fun f hf => h.pool.aligned f (hk.pool.subset hf), fun f hf d x hd hx => ?_⟩, fun hp virt => ?_⟩
  · rw [hsame d x hd hx]
    exact h.pool.fresh f (hk.pool.subset hf) d x hd hx
  · rw [hleaf hp]
    exact h.leaf hp virt

/-- The page `f` is taken and written. -/
theorem Represents.fill {pool : List ℕ} {z : ℕ} (h : Represents s root map)
    (hpool : s.pool = f :: pool) (hsame : ∀ a, ¬(f ≤ a ∧ a < f + 4096) → m' a = s.mem a) :
    Represents { s with mem := m', pool, zeroPhys := z } root map := by
  have hf : f ∈ s.pool := by simp [hpool]
  refine h.keep ⟨rfl, h.tables.frame (h.pool.aligned f hf).1 (h.pool.fresh f hf) hsame, ?_⟩
  rw [hpool]
  exact List.sublist_cons_self f pool

/-- The loop copies what is left of the page. -/
theorem Phys.copyLoop_spec (hdst : dst + 4096 ≤ s.hhdm) (hsrc : src + 4096 ≤ s.hhdm)
    (hapart : dst + 4096 ≤ src ∨ src + 4096 ≤ dst) (hi : i + n = 4096) :
    ∃ m', s.copyLoop dst src n i = some { s with mem := m' } ∧
      (∀ a, ¬(dst + i ≤ a ∧ a < dst + 4096) → m' a = s.mem a) ∧
      ∀ k, i ≤ k → k < 4096 → m' (dst + k) = s.mem (src + k) := by
  induction n generalizing s i with
  | zero => exact ⟨s.mem, rfl, fun _ _ => rfl, fun k h₁ h₂ => absurd h₂ (by omega)⟩
  | succ n ih =>
    have hle := s.hhdm_le
    have haddr : ∀ {p}, p + 4096 ≤ s.hhdm → windowAddr hhdmBase s.hhdm p i 1 = some (p + i) := by
      intro p hp
      have hmod : u64 (p + i) = p + i := Word64.u64_of_lt (by omega)
      rw [windowAddr_eq (by decide) s.hhdm_le, hmod, if_pos (by omega)]
    obtain ⟨m', hloop, hkept, hcopied⟩ :
        ∃ m', Phys.copyLoop { s with mem := s.mem.store 1 (dst + i) (s.mem (src + i)).toNat }
            dst src n (i + 1) = some { s with mem := m' } ∧
          (∀ a, ¬(dst + (i + 1) ≤ a ∧ a < dst + 4096) →
            m' a = s.mem.store 1 (dst + i) (s.mem (src + i)).toNat a) ∧
          ∀ k, i + 1 ≤ k → k < 4096 →
            m' (dst + k) = s.mem.store 1 (dst + i) (s.mem (src + i)).toNat (src + k) :=
      ih hdst hsrc (by omega)
    refine ⟨m', ?_, fun a ha => ?_, fun k h₁ h₂ => ?_⟩
    · exact bind_eq_some_iff.mpr ⟨_, haddr hsrc, bind_eq_some_iff.mpr ⟨_, haddr hdst, hloop⟩⟩
    · rw [hkept a (by omega), store_apply_of_not_mem _ (by omega)]
    · by_cases hk : k = i
      · subst hk
        rw [hkept _ (by omega), store_apply_of_mem _ ⟨le_rfl, by omega⟩]
        simp
      · rw [hcopied k (by omega) h₂, store_apply_of_not_mem _ (by omega)]

/-- The loop writes to the page only. -/
theorem Phys.copyLoop_frame (hdst : dst + 4096 ≤ 2 ^ 64) (hi : i + n = 4096)
    (he : s.copyLoop dst src n i = some s') :
    ∃ m', s' = { s with mem := m' } ∧ ∀ a, ¬(dst ≤ a ∧ a < dst + 4096) → m' a = s.mem a := by
  induction n generalizing s i with
  | zero => exact ⟨s.mem, (some.inj he).symm, fun _ _ => rfl⟩
  | succ n ih =>
    obtain ⟨a, -, he⟩ := bind_eq_some_iff.mp he
    obtain ⟨b, hb, he⟩ := bind_eq_some_iff.mp he
    rw [windowAddr_eq (by decide) s.hhdm_le, Word64.u64_of_lt (by omega)] at hb
    split at hb
    · obtain rfl := some.inj hb
      obtain ⟨m', rfl, hkept⟩ := ih (by omega) he
      exact ⟨m', rfl, fun a ha =>
        (hkept a ha).trans (store_apply_of_not_mem _ (by omega))⟩
    · cases hb

/-- The loop does not get far from an address outside the direct map. -/
theorem Phys.copyLoop_outside (hsrc : s.hhdm ≤ src) (hlt : src < 2 ^ 64) :
    s.copyLoop dst src (n + 1) 0 = none := by
  have hmod : u64 (src + 0) = src := Word64.u64_of_lt hlt
  have haddr : windowAddr hhdmBase s.hhdm src 0 1 = none := by
    rw [windowAddr_eq (by decide) s.hhdm_le, hmod, if_neg (by omega)]
  rw [Phys.copyLoop, haddr]
  rfl

/-! ### `handle_user_cow_fault` -/

/-- A write to a page with the COW bit: its tables and its frame lie in the direct map, and
the next page of `pmm_alloc_page` is a fresh one there. -/
structure CowFault (s : Phys) (root page f : ℕ) : Prop where
  lower : Lower 4 page
  tables : UserTables s.mem root s.hhdm
  pool : PoolOk s root
  next : s.pool.head? = some f
  ne_zero : f ≠ 0
  inside : f + 4096 ≤ s.hhdm
  present : (leafAt s.mem root page).testBit 0 = true
  cow : (leafAt s.mem root page).testBit 9 = true
  frame : entryFrame (leafAt s.mem root page) + 4096 ≤ s.hhdm
  other : entryFrame (leafAt s.mem root page) ≠ f

/-- The page has been copied to the frame `f`, and nothing else has changed. -/
structure CowDone (s s' : Phys) (root page f : ℕ) : Prop where
  walk : ∀ off, off < 4096 → ∃ t, hwWalk s.mem (page * 4096 + off) 3 root = some t ∧
    hwWalk s'.mem (page * 4096 + off) 3 root = some { t with frame := f, write := true }
  cow : (leafAt s'.mem root page).testBit 9 = false
  flags : ∀ k, k ≠ 1 → k ≠ 9 → k < 12 ∨ 52 ≤ k →
    (leafAt s'.mem root page).testBit k = (leafAt s.mem root page).testBit k
  copied : ∀ i, i < 4096 → s'.mem (f + i) = s.mem (entryFrame (leafAt s.mem root page) + i)
  others : ∀ p off, Lower 4 p → p ≠ page → off < 4096 →
    hwWalk s'.mem (p * 4096 + off) 3 root = hwWalk s.mem (p * 4096 + off) 3 root
  frames : ∀ a, ¬(f ≤ a ∧ a < f + 4096) → (∀ pt, tableAt s.mem root 3 (above page 3) = some pt →
      ¬(pt + 8 * (page % 512) ≤ a ∧ a < pt + 8 * (page % 512) + 8)) → s'.mem a = s.mem a

/-- What `handle_user_cow_fault` returns for a page with the COW bit. -/
theorem Phys.handleUserCowFault_iff {r : ℕ × Phys} (h : UserTables s.mem root s.hhdm)
    (hp : Lower 4 page) (hpt : tableAt s.mem root 3 (above page 3) = some pt)
    (hpresent : (leafAt s.mem root page).testBit 0 = true)
    (hcow : (leafAt s.mem root page).testBit 9 = true) :
    s.handleUserCowFault root (page * 4096) = some r ↔
      ∃ f pool, s.pool = f :: pool ∧ (f = 0 ∧ some (0, { s with pool }) = some r ∨ f ≠ 0 ∧
        ∃ s', Phys.copyLoop { s with pool } f (pageOf (leafAt s.mem root page)) 4096 0 = some s' ∧
          ∃ a, windowAddr hhdmBase s'.hhdm pt (8 * (page % 512)) 8 = some a ∧
            some (1, { s' with mem := s'.mem.store 8 a (cowEntry (leafAt s.mem root page) f) }) =
              some r) := by
  have hread : s.readHhdm pt (page % 512) = some (leafAt s.mem root page) := by
    rw [h.read hp le_rfl hpt (mod_512_lt page), leafAt, hpt]
  have hchecks : ¬(!has (leafAt s.mem root page) ptePresent ||
      !has (leafAt s.mem root page) pteCow) = true := by
    simp [hpresent, hcow]
  have hlookup := pteLookup_eq h hp
  rw [hpt, map_some] at hlookup
  constructor
  · intro he
    obtain ⟨pte, hpte, he⟩ := bind_eq_some_iff.mp he
    obtain rfl := some.inj (hlookup.symm.trans hpte)
    obtain ⟨entry, hentry, he⟩ := bind_eq_some_iff.mp he
    obtain rfl := some.inj (hread.symm.trans hentry)
    rw [if_neg hchecks] at he
    obtain ⟨⟨f, s₁⟩, halloc, he⟩ := bind_eq_some_iff.mp he
    obtain ⟨pool, hpool, rfl⟩ := pmmAllocPage_eq_some.mp halloc
    refine ⟨f, pool, hpool, ?_⟩
    by_cases hg : f = 0
    · exact .inl ⟨hg, (if_pos hg).symm.trans he⟩
    · replace he := (if_neg hg).symm.trans he
      obtain ⟨s', hloop, he⟩ := bind_eq_some_iff.mp he
      obtain ⟨a, haddr, he⟩ := bind_eq_some_iff.mp he
      exact .inr ⟨hg, s', hloop, a, haddr, he⟩
  · rintro ⟨f, pool, hpool, hcase⟩
    have halloc : s.pmmAllocPage = some (f, { s with pool }) := by rw [Phys.pmmAllocPage, hpool]
    refine bind_eq_some_iff.mpr ⟨_, hlookup, ?_⟩
    refine bind_eq_some_iff.mpr ⟨_, hread, (if_neg hchecks).trans ?_⟩
    refine bind_eq_some_iff.mpr ⟨_, halloc, ?_⟩
    rcases hcase with ⟨hf, he⟩ | ⟨hf, s', hloop, a, haddr, he⟩
    · exact (if_pos hf).trans he
    · exact (if_neg hf).trans (bind_eq_some_iff.mpr ⟨s', hloop, bind_eq_some_iff.mpr ⟨a, haddr, he⟩⟩)

/-- Nothing is done for a page without the COW bit. -/
theorem Phys.handleUserCowFault_of_not (h : UserTables s.mem root s.hhdm) (hp : Lower 4 page)
    (hcow : ¬((leafAt s.mem root page).testBit 0 = true ∧ (leafAt s.mem root page).testBit 9 = true)) :
    s.handleUserCowFault root (page * 4096) = some (0, s) := by
  have hlookup := pteLookup_eq h hp
  cases hpt : tableAt s.mem root 3 (above page 3) with
  | none =>
    rw [hpt] at hlookup
    exact bind_eq_some_iff.mpr ⟨_, hlookup, rfl⟩
  | some pt =>
    rw [hpt] at hlookup
    rw [leafAt, hpt, not_and_or] at hcow
    refine bind_eq_some_iff.mpr ⟨_, hlookup, ?_⟩
    refine bind_eq_some_iff.mpr ⟨_, h.read hp le_rfl hpt (mod_512_lt page), if_pos ?_⟩
    simpa [-testBit_zero] using hcow

/-- A page that is mapped has a page table. -/
theorem exists_table (hpresent : (leafAt m root page).testBit 0 = true) :
    ∃ pt, tableAt m root 3 (above page 3) = some pt := by
  refine tables_of_leafAt (fun hz => ?_) 3 le_rfl
  rw [hz] at hpresent
  simp at hpresent

/-- A page whose entry has high bits is not copied: the kernel faults. -/
theorem Phys.handleUserCowFault_faults (h : UserTables s.mem root s.hhdm) (hp : Lower 4 page)
    (hpresent : (leafAt s.mem root page).testBit 0 = true)
    (hcow : (leafAt s.mem root page).testBit 9 = true) (hpool : s.pool.head? ≠ some 0)
    (hhigh : 2 ^ 52 ≤ leafAt s.mem root page) : s.handleUserCowFault root (page * 4096) = none := by
  obtain ⟨pt, hpt⟩ := exists_table hpresent
  have hlt : leafAt s.mem root page < 2 ^ 64 := by
    rw [leafAt, hpt]
    exact entryAt_lt _ _ _
  have hle : hhdmBase + s.hhdm ≤ 2 ^ 64 := s.hhdm_le
  have hsrc : s.hhdm ≤ pageOf (leafAt s.mem root page) := by
    rw [pageOf_eq hlt]
    unfold hhdmBase at hle
    omega
  refine eq_none_iff_forall_ne_some.mpr fun r hr => ?_
  obtain ⟨f, pool, hsplit, ⟨rfl, -⟩ | ⟨-, s', hloop, -⟩⟩ :=
    (handleUserCowFault_iff h hp hpt hpresent hcow).mp hr
  · exact hpool (by rw [hsplit]; rfl)
  · rw [copyLoop_outside (by exact hsrc) (pageOf_lt hlt)] at hloop
    cases hloop

/-- The entry of the copy in the place of that of the page. -/
theorem UserTables.setCow (h : UserTables m root top) (hfa : f % 4096 = 0) (hflt : f < 2 ^ 52)
    (hfresh : ∀ d x, d ≤ 3 → Lower d x → tableAt m root d x ≠ some f) (hp : Lower 4 page)
    (hpt : tableAt m root 3 (above page 3) = some pt)
    (hpresent : (leafAt m root page).testBit 0 = true)
    (hkept : ∀ a, ¬(f ≤ a ∧ a < f + 4096) → m' a = m a) :
    SetLeaf m (setEntry m' pt (page % 512) (cowEntry (leafAt m root page) f)) root top page
      (cowEntry (leafAt m root page) f) := by
  have hbytes := @UserTables.frame m m' root top f h hfa hfresh hkept
  obtain ⟨htables, hsame, hleaves⟩ := h.congr hbytes
  -- the copy is the user's exactly if the page was
  have huser : (cowEntry (leafAt m root page) f).testBit 2 = true → UserPath m' root page := by
    intro hbit
    refine htables.user hp (by rw [hleaves hp]; exact hpresent) ?_
    rw [testBit_cowEntry hfa hflt, testBit_of_aligned hfa (by decide)] at hbit
    rw [hleaves hp]
    simpa using hbit
  have hset := htables.setLeaf hp ((hsame 3 _ le_rfl (lower_above hp (by decide))).trans hpt)
    (cowEntry_lt hfa hflt) huser
  exact ⟨hset.tables, fun d x hd hx => (hset.same d x hd hx).trans (hsame d x hd hx), hset.leaf,
    fun hp hne => (hset.others hp hne).trans (hleaves hp), fun hi hi' => (hset.upper hi hi').trans
      (load_congr fun a h₁ h₂ => hbytes (zero_le 3) lower_root rfl a (by omega) (by omega))⟩

/-- A page whose entry has no high bits is copied. -/
theorem CowFault.copies (h : CowFault s root page f) (hlow : leafAt s.mem root page < 2 ^ 52) :
    ∃ s', s.handleUserCowFault root (page * 4096) = some (1, s') ∧ CowDone s s' root page f := by
  obtain ⟨pt, hpt⟩ := exists_table h.present
  obtain ⟨pool, hpool⟩ : ∃ pool, s.pool = f :: pool := List.head?_eq_some_iff.mp h.next
  obtain ⟨hfa, hflt⟩ := h.pool.aligned f (by simp [hpool])
  have hfresh := h.pool.fresh f (by simp [hpool])
  have hl3 : Lower 3 (above page 3) := lower_above h.lower (by decide)
  obtain ⟨hta, htw⟩ := h.tables.inside le_rfl hl3 hpt
  have htf : pt ≠ f := fun he => hfresh 3 _ le_rfl hl3 (he ▸ hpt)
  have hframe : pageOf (leafAt s.mem root page) = entryFrame (leafAt s.mem root page) :=
    (entryFrame_eq_pageOf hlow).symm
  have hold : entryFrame (leafAt s.mem root page) % 4096 = 0 := by
    rw [entryFrame]
    omega
  have hapart : f + 4096 ≤ entryFrame (leafAt s.mem root page) ∨
      entryFrame (leafAt s.mem root page) + 4096 ≤ f := by
    have := h.other
    omega
  obtain ⟨m₁, hloop, hkept, hcopied⟩ :
      ∃ m₁, Phys.copyLoop { s with pool } f (entryFrame (leafAt s.mem root page)) 4096 0 =
          some { s with mem := m₁, pool } ∧
        (∀ a, ¬(f + 0 ≤ a ∧ a < f + 4096) → m₁ a = s.mem a) ∧
        ∀ k, 0 ≤ k → k < 4096 → m₁ (f + k) = s.mem (entryFrame (leafAt s.mem root page) + k) :=
    copyLoop_spec h.inside h.frame hapart (by decide)
  have hset := h.tables.setCow hfa hflt hfresh h.lower hpt h.present hkept
  refine ⟨{ s with
    mem := setEntry m₁ pt (page % 512) (cowEntry (leafAt s.mem root page) f), pool }, ?_, ?_⟩
  · rw [handleUserCowFault_iff h.tables h.lower hpt h.present h.cow, hframe]
    exact ⟨f, pool, hpool, .inr ⟨h.ne_zero, _, hloop, _, h.tables.entryAddr h.lower hpt, rfl⟩⟩
  generalize hm : setEntry m₁ pt (page % 512) (cowEntry (leafAt s.mem root page) f) = m₂ at hset
  have hstored : ∀ a, ¬(pt + 8 * (page % 512) ≤ a ∧ a < pt + 8 * (page % 512) + 8) → m₂ a = m₁ a := by
    intro a ha
    rw [← hm]
    exact store_apply_of_not_mem _ ha
  refine ⟨fun off hoff => ?_, ?_, fun k h₁ h₉ hk => ?_, fun i hi => ?_,
    fun p off hp hne hoff => ?_, fun a hout htab => ?_⟩
  · refine ⟨leafOf 0 (leafAt s.mem root page) (page * 4096 + off), ?_, ?_⟩
    · rw [h.tables.hwWalk_eq h.lower hoff, leafTranslation, if_pos h.present]
    · rw [hset.tables.hwWalk_eq h.lower hoff, hset.leaf, leafTranslation,
        if_pos (cowEntry_present hfa hflt h.present), leafOf_cowEntry hfa hflt]
  · rw [hset.leaf, testBit_cowEntry hfa hflt, testBit_of_aligned hfa (by decide)]
    simp
  · rw [hset.leaf, testBit_cowEntry hfa hflt]
    rcases hk with hk | hk
    · rw [testBit_of_aligned hfa hk]
      simp [h₁, h₉, hk]
    · have hpow : 2 ^ 52 ≤ 2 ^ k := Nat.pow_le_pow_right (by decide) hk
      have hf : f.testBit k = false := Nat.testBit_lt_two_pow (by omega)
      have he : (leafAt s.mem root page).testBit k = false := testBit_lt_two_pow (by omega)
      rw [hf, he]
      simp [h₁]
  · rw [← hcopied i (zero_le i) hi]
    exact hstored _ (by omega)
  · rw [hset.tables.hwWalk_eq hp hoff, h.tables.hwWalk_eq hp hoff, hset.others hp hne]
  · rw [← hkept a (by omega)]
    exact hstored a (htab pt hpt)

/-- **When copy on write preserves the contents of a page.** -/
theorem cow_fault_copies (h : CowFault s root page f) :
    (∃ s', s.handleUserCowFault root (page * 4096) = some (1, s') ∧ CowDone s s' root page f) ↔
      leafAt s.mem root page < 2 ^ 52 := by
  refine ⟨fun ⟨s', hs', _⟩ => ?_, h.copies⟩
  by_contra hhigh
  have hpool : s.pool.head? ≠ some 0 := by
    rw [h.next]
    exact fun he => h.ne_zero (some.inj he)
  rw [handleUserCowFault_faults h.tables h.lower h.present h.cow hpool (by omega)] at hs'
  cases hs'

/-! ### The pages of the stack -/

/-- The ways through `get_zero_page`. -/
theorem Phys.getZeroPage_cases {z : ℕ} (hpool : ∀ f ∈ s.pool, f < 2 ^ 52)
    (he : s.getZeroPage = some (z, s')) :
    (s' = s ∧ s.zeroPhys = z) ∨
    s.zeroPhys = 0 ∧ ∃ f pool, s.pool = f :: pool ∧ (f = 0 ∧ z = 0 ∧ s' = { s with pool } ∨
      f = z ∧ f + 4096 ≤ s.hhdm ∧
        s' = { s with mem := s.mem.fill 4096 f 0, pool, zeroPhys := f }) := by
  rw [Phys.getZeroPage] at he
  split at he
  · obtain ⟨rfl, rfl⟩ := Prod.mk.inj (some.inj he)
    exact .inl ⟨rfl, rfl⟩
  · next hnone =>
    obtain ⟨⟨g, s₁⟩, halloc, he⟩ := bind_eq_some_iff.mp he
    obtain ⟨pool, hp, rfl⟩ := pmmAllocPage_eq_some.mp halloc
    have hlt := hpool g (by simp [hp])
    refine .inr ⟨not_not.mp hnone, g, pool, hp, ?_⟩
    dsimp only at he
    split at he
    · next hzero =>
      obtain ⟨rfl, rfl⟩ := Prod.mk.inj (some.inj he)
      exact .inl ⟨hzero, rfl, rfl⟩
    · obtain ⟨a, haddr, he⟩ := bind_eq_some_iff.mp he
      obtain ⟨rfl, rfl⟩ := Prod.mk.inj (some.inj he)
      have hu64 : u64 (g + 0) = g := Word64.u64_of_lt (by omega)
      rw [windowAddr_eq (by decide) s.hhdm_le, hu64] at haddr
      split at haddr
      · next hin =>
        obtain rfl := some.inj haddr
        exact .inr ⟨rfl, hin, rfl⟩
      · cases haddr

/-- `get_zero_page` leaves the tables alone. -/
theorem Represents.getZeroPage {z : ℕ} (h : Represents s root map) (hz : s.zeroPhys < 2 ^ 64)
    (he : s.getZeroPage = some (z, s')) : Represents s' root map ∧ z < 2 ^ 64 := by
  rcases getZeroPage_cases (fun f hf => (h.pool.aligned f hf).2) he with
    ⟨rfl, rfl⟩ | ⟨-, f, pool, hpool, hcase⟩
  · exact ⟨h, hz⟩
  rcases hcase with ⟨rfl, rfl, rfl⟩ | ⟨rfl, -, rfl⟩
  · exact ⟨h.fill hpool fun _ _ => rfl, by decide⟩
  · have hlt := (h.pool.aligned f (by simp [hpool])).2
    exact ⟨h.fill hpool fun a ha => if_neg ha, by omega⟩

/-! ### What a page fault changes -/

/-- **A write to a page that is mapped** changes the map at that page, if the page is copied. -/
theorem Represents.handleUserCowFault {r : ℕ} (h : Represents s root map)
    (hw : s.window ≤ s.hhdm) (hp : Lower 4 page)
    (he : s.handleUserCowFault root (page * 4096) = some (r, s')) :
    (r = 0 ∧ Represents s' root map) ∨ r = 1 ∧ ∃ tr : Translation, tr.write = true ∧
      Represents s' root fun p => if page = p then some tr else map p := by
  have htables := h.tables.mono hw
  by_cases hcow : (leafAt s.mem root page).testBit 0 = true ∧ (leafAt s.mem root page).testBit 9 = true
  swap
  · rw [handleUserCowFault_of_not htables hp hcow] at he
    obtain ⟨rfl, rfl⟩ := Prod.mk.inj (some.inj he)
    exact .inl ⟨rfl, h⟩
  obtain ⟨pt, hpt⟩ := exists_table hcow.1
  obtain ⟨f, pool, hpool, ⟨-, he⟩ | ⟨-, s₁, hloop, a, haddr, he⟩⟩ :=
    (handleUserCowFault_iff htables hp hpt hcow.1 hcow.2).mp he
  · obtain ⟨rfl, rfl⟩ := Prod.mk.inj (some.inj he)
    exact .inl ⟨rfl, h.fill hpool fun _ _ => rfl⟩
  obtain ⟨rfl, rfl⟩ := Prod.mk.inj (some.inj he)
  obtain ⟨hfa, hflt⟩ := h.pool.aligned f (by simp [hpool])
  obtain ⟨m₁, rfl, hkept⟩ := copyLoop_frame (by omega) (by decide) hloop
  have hset := h.tables.setCow hfa hflt (h.pool.fresh f (by simp [hpool])) hp hpt hcow.1 hkept
  obtain rfl := some.inj ((htables.entryAddr hp hpt).symm.trans haddr)
  obtain ⟨-, htail⟩ := h.pool.tail hpool
  refine .inr ⟨rfl, { leafOf 0 (leafAt s.mem root page) 0 with frame := f, write := true }, rfl,
    hset.tables, ⟨htail.nodup, htail.aligned, fun g hg d x hd hx => ?_⟩, fun {p} hp' virt => ?_⟩
  · exact (hset.same d x hd hx).symm ▸ htail.fresh g hg d x hd hx
  · by_cases hpage : page = p
    · subst hpage
      rw [if_pos rfl]
      exact ((congrArg (leafTranslation · virt) hset.leaf).trans
        (if_pos (cowEntry_present hfa hflt hcow.1))).trans
        (congrArg some (leafOf_cowEntry hfa hflt virt))
    · rw [if_neg hpage, ← h.leaf hp' virt]
      exact congrArg (leafTranslation · virt) (hset.others hp' (Ne.symm hpage))

/-- **One page fault** changes the map at one page, if it returns 1: a page that is copied is
writable then, and one that is mapped for the first time is not. -/
theorem Represents.handleUserPageFault {cr2 err rsp r : ℕ} (h : Represents s root map)
    (hw : s.window ≤ s.hhdm) (hz : s.zeroPhys < 2 ^ 64) (hcr2 : cr2 < 2 ^ 47)
    (he : s.handleUserPageFault root cr2 err rsp = some (r, s')) :
    (r = 0 ∧ Represents s' root map) ∨ r = 1 ∧ ∃ tr : Translation, tr.write = has err 0x1 ∧
      Represents s' root fun p => if cr2 / 4096 = p then some tr else map p := by
  have hpage : pageOf cr2 = cr2 / 4096 * 4096 := pageOf_eq (by omega)
  have hlower : Lower 4 (cr2 / 4096) := by
    unfold Lower
    omega
  have hfailed : some (0, s) = some (r, s') → r = 0 ∧ Represents s' root map := by
    intro he
    obtain ⟨rfl, rfl⟩ := Prod.mk.inj (some.inj he)
    exact ⟨rfl, h⟩
  rw [Phys.handleUserPageFault] at he
  dsimp only at he
  split at he
  · exact .inl (hfailed he)
  split at he
  · next hpresent =>
    rw [hpresent]
    split at he
    · rw [hpage] at he
      exact h.handleUserCowFault hw hlower he
    · exact .inl (hfailed he)
  next hpresent =>
  generalize (max (ite (rsp > _) _ _) _ : ℕ) = low at he
  split at he
  · exact .inl (hfailed he)
  split at he
  · exact .inl (hfailed he)
  split at he
  · exact .inl (hfailed he)
  obtain ⟨⟨z, s₁⟩, hzero, he⟩ := bind_eq_some_iff.mp he
  obtain ⟨hrep, hzlt⟩ := h.getZeroPage hz hzero
  dsimp only at he
  split at he
  · obtain ⟨rfl, rfl⟩ := Prod.mk.inj (some.inj he)
    exact .inl ⟨rfl, hrep⟩
  obtain ⟨⟨r', s₂⟩, hmap, he⟩ := bind_eq_some_iff.mp he
  rw [hpage] at hmap
  have hstep := (hrep.mapPageIn (c := ⟨cr2 / 4096 * 4096, z, _⟩)
    ⟨mul_mod_left _ _, by dsimp only; omega, hzlt⟩ hmap).1
  rw [Nat.mul_div_cancel _ (by decide)] at hstep
  split at he
  · next hne =>
    obtain ⟨rfl, rfl⟩ := Prod.mk.inj (some.inj he)
    exact .inl ⟨rfl, by simpa [hne] using hstep⟩
  · next heq =>
    obtain rfl : r' = 0 := not_not.mp heq
    obtain ⟨rfl, rfl⟩ := Prod.mk.inj (some.inj he)
    refine .inr ⟨rfl, _, ?_, by simpa only [true_and] using hstep⟩
    rw [Bool.not_eq_true] at hpresent
    rw [hpresent]
    rfl

/-- The first fault on the stack of a new address space. -/
theorem emptyPhys_stack_page :
    ∃ s₀ s₁, emptyPhys.createUserPml4 0x1000 = some (0x2000, s₀) ∧
      s₀.handleUserPageFault 0x2000 0x7FFFFFE000 0x6 0x7FFFFFEFF8 = some (1, s₁) ∧
      CowFault s₁ 0x2000 0x7FFFFFE 0x7000 ∧ 2 ^ 52 ≤ leafAt s₁.mem 0x2000 0x7FFFFFE := by
  have hrun : ((emptyPhys.createUserPml4 0x1000).bind fun p =>
      (p.2.handleUserPageFault p.1 0x7FFFFFE000 0x6 0x7FFFFFEFF8).map fun q =>
        (p.1, q.1, q.2.pool, q.2.window, q.2.hhdm, leafAt q.2.mem p.1 0x7FFFFFE)) =
      some (0x2000, 1, [0x7000, 0x8000, 0x9000], 2 ^ 30, 2 ^ 46, 0x8000000000003205) := by
    decide +kernel
  obtain ⟨⟨root, s₀⟩, hcreate, hrest⟩ := bind_eq_some_iff.mp hrun
  obtain ⟨⟨r, s₁⟩, hfault, hout⟩ := map_eq_some_iff.mp hrest
  simp only [Prod.mk.injEq] at hout
  obtain ⟨rfl, rfl, hpool₁, hwindow, hhdm, hleaf⟩ := hout
  obtain ⟨hstart, -, hw, hh, hzero⟩ := createUserPml4_spec emptyPhys_fresh hcreate (by decide)
  obtain ⟨⟨⟩, -⟩ | ⟨-, tr, -, hrep⟩ := hstart.handleUserPageFault (by rw [hw, hh]; decide)
    (by rw [hzero]; decide) (by decide) hfault
  have htables := hrep.tables
  rw [hwindow] at htables
  refine ⟨s₀, s₁, hcreate, hfault, ⟨by unfold Lower; decide, htables.mono (by rw [hhdm]; decide), hrep.pool,
    by rw [hpool₁]; rfl, by decide, ?_, ?_, ?_, ?_, ?_⟩, ?_⟩
  all_goals simp only [hleaf, hhdm]
  all_goals decide

/-- The stack page that a page fault has installed is not copied when it is written to. -/
theorem stack_page_not_copied :
    ∃ root s₀ s₁ f, emptyPhys.createUserPml4 0x1000 = some (root, s₀) ∧
      s₀.handleUserPageFault root 0x7FFFFFE000 0x6 0x7FFFFFEFF8 = some (1, s₁) ∧
      CowFault s₁ root 0x7FFFFFE f ∧
      s₁.handleUserCowFault root (0x7FFFFFE * 4096) = none := by
  obtain ⟨s₀, s₁, hcreate, hfault, hcow, hhigh⟩ := emptyPhys_stack_page
  refine ⟨_, s₀, s₁, _, hcreate, hfault, hcow, ?_⟩
  refine handleUserCowFault_faults hcow.tables hcow.lower hcow.present hcow.cow ?_ hhigh
  rw [hcow.next]
  exact fun he => hcow.ne_zero (some.inj he)

theorem cow_fault_copies_stack_page :
    ∃ s root f, CowFault s root 0x7FFFFFE f ∧
      ((∃ s', s.handleUserCowFault root (0x7FFFFFE * 4096) = some (1, s') ∧
        CowDone s s' root 0x7FFFFFE f) ↔ leafAt s.mem root 0x7FFFFFE < 2 ^ 52) := by
  obtain ⟨-, s₁, -, -, hcow, -⟩ := emptyPhys_stack_page
  exact ⟨s₁, _, _, hcow, cow_fault_copies hcow⟩

end Neptune
