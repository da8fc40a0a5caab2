import Neptune.Mmu.Kernel
import Neptune.Mmu.MapTree

/-!
# Pages of 2 MiB in the tables of the kernel

The tables of the kernel map pages of 2 MiB with any combination of rights.  `mmu_map_page` on a 4 KiB
page in one splits it.  The entries of the new table keep bit 63 of a no-execute page, and the test
for the same frame takes that bit for a part of the address.

## Main definitions

* `KernelEntry`, `KernelTables` — the tables of the kernel, with large pages.
* `EditsPte` — what one call is to do.
* `RemapsAll` — what a sequence of calls is to do.

## Main results

* `KernelTables.mapPage_edits` — one call.
* `KernelTables.remaps_all` — a sequence of calls.
-/

namespace Neptune

open Nat Option
open Word64 (u64 not64)

variable {s s' : Phys} {root virt virt' phys flags e f : ℕ} {S : Set ℕ}

/-! ### `mmu_map_page` and `mmu_map_page_in` -/

/-- The two differ in what they do when they refuse. -/
theorem Phys.mapPage_eq_mapFrom (s : Phys) (pml4 virt phys flags : ℕ) :
    s.mapPage pml4 virt phys flags =
      if has virt 0xFFF ∨ has phys 0xFFF then none
      else (Phys.mapFrom virt phys flags 3 s pml4).bind fun p =>
        if p.1 = 0 then some p.2 else none := by
  rw [Phys.mapPage]
  split
  · rfl
  · simp only [Phys.mapFrom, bind_eq_bind, bind_assoc]
    refine bind_congr fun a _ => bind_congr fun b _ => bind_congr fun c _ =>
      bind_congr fun existing _ => ?_
    split
    · rfl
    · rw [bind_assoc]
      cases c.2.writeTable c.1 (indexAt 0 virt) (pteFor phys flags) with
      | none => rfl
      | some u => rfl

theorem Phys.mapPage_of_aligned (ha : virt % 4096 = 0) (hp : phys % 4096 = 0) :
    s.mapPage root virt phys flags = (Phys.mapFrom virt phys flags 3 s root).bind fun p =>
      if p.1 = 0 then some p.2 else none := by
  rw [Phys.mapPage_eq_mapFrom, if_neg (by simp [has_fff, ha, hp])]

theorem Phys.mapFrom_of_mapPage (he : s.mapPage root virt phys flags = some s') :
    phys % 4096 = 0 ∧ Phys.mapFrom virt phys flags 3 s root = some (0, s') := by
  rw [Phys.mapPage_eq_mapFrom] at he
  split at he
  · cases he
  · next hok =>
    simp only [has_fff, not_or, ne_eq, not_not] at hok
    obtain ⟨⟨r, s₁⟩, hrun, hr⟩ := bind_eq_some_iff.mp he
    dsimp only at hr
    split at hr
    · next hzero =>
      obtain rfl := some.inj hr
      exact ⟨hok.2, by rw [hrun, hzero]⟩
    · cases hr

/-! ### Pages -/

theorem index_ne_of_pageNo_ne (h : pageNo virt' ≠ pageNo virt) :
    ∃ k, k ≤ 3 ∧ indexAt k virt' ≠ indexAt k virt := by
  by_contra hall
  push Not at hall
  have h0 := hall 0 (by decide)
  have h1 := hall 1 (by decide)
  have h2 := hall 2 (by decide)
  have h3 := hall 3 (by decide)
  simp only [indexAt, Nat.reduceMul, Nat.reduceAdd] at h0 h1 h2 h3
  unfold pageNo at h
  omega

/-! ### The tables of the kernel -/

/-- Bits 52 to 62 are clear. -/
def Clean (e : ℕ) : Prop := e / 2 ^ 52 % 2 ^ 11 = 0

instance (e : ℕ) : Decidable (Clean e) := inferInstanceAs (Decidable (_ = _))

/-- The entries in the tables of the kernel: of a page or of a large page with any rights, of a
table, or empty. -/
def KernelEntry : ℕ → ℕ → Prop
  | 0, e => Clean e
  | l + 1, e => Vacant e ∨ Pointer e ∨ (l = 0 ∧ Huge e ∧ Clean e)

theorem clean_of_lt (h : e < 2 ^ 52) : Clean e := by
  unfold Clean
  omega

theorem pageOf_of_clean (he : e < 2 ^ 64) (h : Clean e) (hnx : e.testBit 63 = false) :
    pageOf e = entryFrame e := by
  have hlt : e < 2 ^ 63 := by
    rw [testBit_eq_decide_div_mod_eq] at hnx
    have hne : ¬e / 2 ^ 63 % 2 = 1 := of_decide_eq_false hnx
    omega
  unfold Clean at h
  rw [entryFrame_eq_pageOf (by omega)]

theorem clean_splitPte (he : e < 2 ^ 64) (h : Clean e) {i : ℕ} (hi : i < 512) :
    Clean (splitPte e i) := by
  have hkept : keptFlags e / 2 ^ 52 % 2 ^ 11 = 0 := by
    apply eq_of_testBit_eq
    intro k
    rw [testBit_mod_two_pow, testBit_div_two_pow, testBit_keptFlags, zero_testBit]
    by_cases hk : k < 11
    · simp [show k + 52 ≠ 63 by omega]
    · simp [hk]
  have hbase : (e / 2 ^ 21 * 2 ^ 21 + i * 4096) / 2 ^ 52 % 2 ^ 11 = 0 := by
    unfold Clean at h
    omega
  rw [Clean, splitPte, splitBase_eq he hi, or_div_two_pow, or_mod_two_pow, hbase, hkept]
  rfl

theorem clean_pteFor (hphys : phys < 2 ^ 52) (ha : phys % 4096 = 0) : Clean (pteFor phys flags) := by
  apply eq_of_testBit_eq
  intro k
  rw [testBit_mod_two_pow, testBit_div_two_pow, testBit_pteFor (by omega) ha, zero_testBit]
  by_cases hk : k < 11
  · have hbit : phys.testBit (k + 52) = false :=
      Nat.testBit_lt_two_pow (Nat.lt_of_lt_of_le hphys (Nat.pow_le_pow_right (by decide) (by omega)))
    simp [hbit, show k + 52 ≠ 63 by omega]
  · simp [hk]

theorem kernelEntry_admits : Admits KernelEntry where
  cases := fun h => h.imp_right (Or.imp_right fun hhuge => ⟨hhuge.1, hhuge.2.1⟩)
  zero := fun l => by
    cases l with
    | zero => exact clean_of_lt (by decide)
    | succ l => exact .inl ⟨rfl, rfl⟩
  user := fun _ hpointer => .inr (.inl hpointer.or_user.1)
  new := fun _ hf hlt => .inr (.inl (newTable_pointer _ hf hlt).1)
  split := by
    intro e f he hP hhuge hnx hf hlt
    refine ⟨.inr (.inl (splitEntry_pointer hf hlt hnx).1), fun i hi => ?_⟩
    rcases hP with hvacant | hpointer | ⟨-, -, hclean⟩
    · exact (hhuge.not_small hvacant.small).elim
    · exact (hhuge.not_small hpointer.small).elim
    · exact clean_splitPte he hclean hi

/-- The entries of all pages have bits 52 to 62 clear. -/
theorem PageTree.clean_pteOf {m : ByteMem} {top l t : ℕ} (h : PageTree KernelEntry m top l t S) :
    Clean (pteOf m virt l t) := by
  induction l generalizing t S with
  | zero => exact h.root_ok.entries (slotAt 0 virt)
  | succ l ih =>
    rcases PageTree.way kernelEntry_admits h virt with hvacant | ⟨hpointer, C, htree⟩ | ⟨hl, hhuge⟩
    · rw [pteOf_of_vacant hvacant]
      exact clean_of_lt (by decide)
    · rw [pteOf_of_pointer hpointer]
      exact ih htree
    · have hclean : Clean (entryAt m t (indexAt (l + 1) virt)) := by
        rcases h.root_ok.entries (slotAt (l + 1) virt) with hvacant | hpointer | ⟨-, -, hclean⟩
        · exact (hhuge.not_small hvacant.small).elim
        · exact (hhuge.not_small hpointer.small).elim
        · exact hclean
      rw [pteOf_of_huge hhuge]
      exact clean_splitPte (entryAt_lt m t _) hclean (indexAt_lt 0 virt)

/-- The tables of the kernel, with pages to take for new ones, all of them in the window. -/
def KernelTables (s : Phys) (root : ℕ) : Prop :=
  ∃ S, PageTree KernelEntry s.mem s.window 3 root S ∧ PoolFor s S ∧ ∀ f ∈ s.pool, f + 4096 ≤ s.window

/-! ### One call -/

/-- The call has changed the entry that the walk of its page ends with, and no other page. -/
structure EditsPte (s s' : Phys) (root virt frame flags : ℕ) : Prop where
  slot : ∃ pt, pteSlot s'.mem virt 3 root = some (pt, indexAt 0 virt) ∧
    entryAt s'.mem pt (indexAt 0 virt) = pteFor frame flags
  walk : ∃ tr, hwWalk s'.mem virt 3 root = some tr ∧ tr.frame = frame
  others : ∀ virt', pageNo virt' ≠ pageNo virt → hwWalk s'.mem virt' 3 root = hwWalk s.mem virt' 3 root

/-- The page is not no-execute, and when the call asks for the right of the user, an entry on the
way that lacks it hides it from no page below. -/
structure Remappable (s : Phys) (root virt flags : ℕ) (tr : Translation) : Prop where
  executable : tr.noExec = false
  calm : Calm s.mem virt flags 3 root

/-- **One call** edits the entry of its page and leaves every other page as it is. -/
theorem KernelTables.mapPage_edits (h : KernelTables s root) {tr : Translation}
    (ha : virt % 4096 = 0) (hw : hwWalk s.mem virt 3 root = some tr)
    (hr : Remappable s root virt flags tr) (hstock : 1 ≤ s.pool.length) :
    ∃ s', s.mapPage root virt tr.frame flags = some s' ∧ EditsPte s s' root virt tr.frame flags ∧
      KernelTables s' root ∧ s.pool.length ≤ 1 + s'.pool.length := by
  obtain ⟨S, htree, hpool, hin⟩ := h
  obtain ⟨-, hframe, hnx, -⟩ := PageTree.pteOf_of_hwWalk kernelEntry_admits htree hw
  have hmissing : missing s.mem virt 3 root ≤ 1 := by
    have := PageTree.missing_of_hwWalk kernelEntry_admits htree hw
    omega
  obtain ⟨hflt, hfa⟩ := entryFrame_spec (pteOf s.mem virt 3 root)
  rw [hframe] at hflt hfa
  have hsame : pageOf (pteOf s.mem virt 3 root) = tr.frame := by
    rw [pageOf_of_clean (pteOf_lt _ _ _ _) (PageTree.clean_pteOf htree) (hnx.trans hr.executable),
      hframe]
  obtain ⟨r, s', S', hrun, hdone, hzero⟩ := Phys.mapFrom_mapped kernelEntry_admits hflt hfa
    (clean_pteFor hflt hfa) htree hpool hr.calm hw (fun _ => hin) (by omega)
  rw [if_pos hsame] at hzero
  subst hzero
  obtain ⟨pt, hslot, hpte⟩ := hdone.slot rfl
  have hbit : (entryAt s'.mem pt (indexAt 0 virt)).testBit 0 = true := by
    rw [hpte, testBit_pteFor (by omega) hfa]
    simp
  obtain ⟨tr', hwalk', hframe'⟩ := hwWalk_of_pteSlot hslot hbit
  have hcall : s.mapPage root virt tr.frame flags = some s' := by
    rw [Phys.mapPage_of_aligned ha hfa, hrun]
    rfl
  refine ⟨s', hcall, ⟨⟨pt, hslot, hpte⟩, ⟨tr', hwalk', ?_⟩, fun virt' hne => ?_⟩,
    ⟨S', hdone.tree, hdone.enlarged.pool hpool, hdone.enlarged.inside hin⟩, ?_⟩
  · rw [hframe', hpte, entryFrame_pteFor (by omega) hfa, mod_eq_of_lt hflt]
  · exact hdone.others virt' (index_ne_of_pageNo_ne hne)
  · have := hdone.stock
    omega

/-! ### A sequence of calls -/

/-- Every call of a sequence, each of an address and flags, finds its page `Remappable`. -/
def MeetsAll (root : ℕ) : List (ℕ × ℕ) → Phys → Prop
  | [], _ => True
  | (virt, flags) :: calls, s => ∀ tr, hwWalk s.mem virt 3 root = some tr →
      Remappable s root virt flags tr ∧
      ∀ s', s.mapPage root virt tr.frame flags = some s' → MeetsAll root calls s'

/-- Every call of a sequence that maps a page to the frame it has edits the entry of that page and
leaves every other page as it is. -/
def RemapsAll (root : ℕ) : List (ℕ × ℕ) → Phys → Prop
  | [], _ => True
  | (virt, flags) :: calls, s => virt % 4096 = 0 → ∀ tr, hwWalk s.mem virt 3 root = some tr →
      ∃ s', s.mapPage root virt tr.frame flags = some s' ∧
        EditsPte s s' root virt tr.frame flags ∧ RemapsAll root calls s'

/-- **A sequence of calls** on pages that are not no-execute, and that take no right of the user to
other pages, keeps the rest of every large page. -/
theorem KernelTables.remaps_all {calls : List (ℕ × ℕ)} (h : KernelTables s root)
    (hstock : calls.length ≤ s.pool.length) (hmeets : MeetsAll root calls s) :
    RemapsAll root calls s := by
  induction calls generalizing s with
  | nil => trivial
  | cons call calls ih =>
    obtain ⟨virt, flags⟩ := call
    intro ha tr hw
    rw [List.length_cons] at hstock
    obtain ⟨hr, hrest⟩ := hmeets tr hw
    obtain ⟨s', hcall, hedits, htables, hpool⟩ := h.mapPage_edits ha hw hr (by omega)
    exact ⟨s', hcall, hedits, ih htables (by omega) (hrest s' hcall)⟩

/-! ### One large page -/

/-- Memory without anything in it. -/
def blankMem : ByteMem := fun _ => 0

theorem entryAt_blankMem (t i : ℕ) : entryAt blankMem t i = 0 := by
  have hload : blankMem.load 8 (t + 8 * i) = 0 % 256 ^ 8 :=
    ByteMem.load_of_bytes fun k _ => by rw [Nat.zero_div]; rfl
  exact hload

/-- Tables at 0x1000, 0x2000 and 0x3000 that map one large page with the entry `e`. -/
def largePageMem (e : ℕ) : ByteMem :=
  setEntry (setEntry (setEntry blankMem 0x1000 0 0x2003) 0x2000 0 0x3003) 0x3000 0 e

/-- Those tables, and two pages to be had. -/
def largePage (e : ℕ) : Phys := .booting (largePageMem e) [0x4000, 0x5000]

theorem entryAt_largePageMem {t : ℕ} {i : Fin 512} (ht : t % 4096 = 0) (hi : i ≠ 0) :
    entryAt (largePageMem e) t i = 0 := by
  have hset : ∀ {m : ByteMem} {u v : ℕ}, u % 4096 = 0 →
      entryAt (setEntry m u 0 v) t i = entryAt m t i := fun hu =>
    entryAt_setEntry_of_ne hu ht (by decide) i.isLt fun h => hi (Fin.ext h.2)
  rw [largePageMem, hset (by decide), hset (by decide), hset (by decide), entryAt_blankMem]

theorem kernelTables_largePage (he : e = 0x83 ∨ e = 0x8000000000000083) :
    KernelTables (largePage e) 0x1000 := by
  have hentries : entryAt (largePageMem e) 0x1000 (0 : Fin 512) = newTable 0x2000 0 ∧
      entryAt (largePageMem e) 0x2000 (0 : Fin 512) = newTable 0x3000 0 ∧
      entryAt (largePageMem e) 0x3000 (0 : Fin 512) = e := by
    rcases he with rfl | rfl <;> decide +kernel
  have hpage : Huge e ∧ Clean e := by
    rcases he with rfl | rfl <;> exact ⟨⟨rfl, rfl⟩, by decide⟩
  obtain ⟨h1, h2, h3⟩ := hentries
  have hok : ∀ {l t : ℕ}, t % 4096 = 0 → t + 4096 ≤ 0x40000000 →
      KernelEntry l (entryAt (largePageMem e) t (0 : Fin 512)) →
      TableOk KernelEntry (largePageMem e) 0x40000000 l t := by
    intro l t ht hin h0
    refine ⟨ht, hin, fun i => ?_⟩
    by_cases hi : i = 0
    · rw [hi]
      exact h0
    · rw [entryAt_largePageMem ht hi]
      exact kernelEntry_admits.zero l
  have hnone : ∀ {t : ℕ} (i : Fin 512), t % 4096 = 0 → i ≠ 0 → subTable (largePageMem e) t i = none :=
    fun i ht hi => subTable_of_zero (entryAt_largePageMem ht hi)
  have htree : PageTree KernelEntry (largePageMem e) 0x40000000 1 0x3000 {0x3000} := by
    refine Linked.tree_singleton (hok (by decide) (by decide) ?_) fun _ i => ?_
    · rw [h3]
      exact .inr (.inr ⟨rfl, hpage⟩)
    · by_cases hi : i = 0
      · rw [hi]
        exact subTable_of_huge (by rw [h3]; exact hpage.1)
      · exact hnone i (by decide) hi
  have hlink : ∀ {l t u : ℕ} {C : Set ℕ}, PageTree KernelEntry (largePageMem e) 0x40000000 l u C →
      t % 4096 = 0 → t + 4096 ≤ 0x40000000 → u % 4096 = 0 → u < 2 ^ 52 →
      entryAt (largePageMem e) t (0 : Fin 512) = newTable u 0 → t ∉ C →
      PageTree KernelEntry (largePageMem e) 0x40000000 (l + 1) t (insert t C) := by
    intro l t u C h ht hin hu hlt hentry hC
    obtain ⟨hpointer, hframe⟩ := newTable_pointer 0 hu hlt
    rw [← hentry] at hpointer hframe
    exact h.link (hok ht hin (.inr (.inl hpointer)))
      ((subTable_of_pointer hpointer).trans (congrArg some hframe)) (fun i hi => hnone i ht hi) hC
  refine ⟨_, hlink (hlink htree (by decide) (by decide) (by decide) (by decide) h2 (by simp))
    (by decide) (by decide) (by decide) (by decide) h1 (by simp), ⟨by simp [largePage, Phys.booting],
    ?_, ?_⟩, ?_⟩ <;>
  · intro f hf
    rcases List.mem_pair.mp hf with rfl | rfl <;> simp [largePage, Phys.booting]

/-- A call without the right of the user on a page that is executable. -/
theorem KernelTables.remappable {tr : Translation} (h : KernelTables s root)
    (hw : hwWalk s.mem virt 3 root = some tr) (hflags : flags.testBit 2 = false)
    (hexec : tr.noExec = false) : Remappable s root virt flags tr := by
  obtain ⟨S, htree, -, -⟩ := h
  have hpte := PageTree.pteOf_of_hwWalk kernelEntry_admits htree hw
  exact ⟨hexec, PageTree.calm_of_supervisor kernelEntry_admits htree hflags (hpte.2.2.1.trans hexec)⟩

/-- Two pages of an executable large page: the first call splits it, the second edits the entry of
its page in the new table. -/
theorem remaps_executable_page :
    hwWalk (largePage 0x83).mem 0x5000 3 0x1000 = some ⟨0x5000, true, false, false⟩ ∧
      hwWalk (largePage 0x83).mem 0x6000 3 0x1000 = some ⟨0x6000, true, false, false⟩ ∧
      RemapsAll 0x1000 [(0x5000, mmuFlagWrite), (0x6000, 0)] (largePage 0x83) := by
  have hwalk : hwWalk (largePage 0x83).mem 0x5000 3 0x1000 = some ⟨0x5000, true, false, false⟩ := by
    decide +kernel
  have hwalk' : hwWalk (largePage 0x83).mem 0x6000 3 0x1000 = some ⟨0x6000, true, false, false⟩ := by
    decide +kernel
  have htables : KernelTables (largePage 0x83) 0x1000 := kernelTables_largePage (.inl rfl)
  have hfirst := htables.remappable hwalk (show mmuFlagWrite.testBit 2 = false from rfl) rfl
  refine ⟨hwalk, hwalk', htables.remaps_all (by decide) fun tr hw => ?_⟩
  obtain rfl := some.inj (hwalk.symm.trans hw)
  refine ⟨hfirst, fun s hs tr hw => ⟨?_, fun _ _ => trivial⟩⟩
  obtain ⟨s', hcall, hedits, htables', -⟩ := htables.mapPage_edits (by decide) hwalk hfirst (by decide)
  obtain rfl := some.inj (hs.symm.trans hcall)
  rw [hedits.others 0x6000 (by decide), hwalk'] at hw
  obtain rfl := some.inj hw
  exact htables'.remappable ((hedits.others 0x6000 (by decide)).trans hwalk') rfl rfl

/-- A no-execute large page: the call for the frame that a page of it has panics. -/
theorem no_execute_page_panics :
    KernelTables (largePage 0x8000000000000083) 0x1000 ∧
      hwWalk (largePage 0x8000000000000083).mem 0x5000 3 0x1000 = some ⟨0x5000, true, false, true⟩ ∧
      ¬RemapsAll 0x1000 [(0x5000, mmuFlagWrite)] (largePage 0x8000000000000083) := by
  have hwalk : hwWalk (largePage 0x8000000000000083).mem 0x5000 3 0x1000 =
      some ⟨0x5000, true, false, true⟩ := by
    decide +kernel
  have hpanic : ((largePage 0x8000000000000083).mapPage 0x1000 0x5000 0x5000 mmuFlagWrite).isNone := by
    decide +kernel
  refine ⟨kernelTables_largePage (.inr rfl), hwalk, fun h => ?_⟩
  obtain ⟨s', hcall, -⟩ := h (by decide) _ hwalk
  rw [hcall] at hpanic
  exact absurd hpanic Bool.false_ne_true

end Neptune
