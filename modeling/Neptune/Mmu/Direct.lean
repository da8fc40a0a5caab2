import Mathlib.Data.Fintype.Card
import Neptune.Mmu.Large

/-!
# The direct map

`mmu_map_hhdm_2m` fills one table of page directories, that of the first of the 512 GiB that the
direct map may take.  The index of a page directory in it has nine bits, so that physical memory
beyond 512 GiB gets no table of its own.

## Main definitions

* `HhdmEntry` — the entries of the direct map.
* `HhdmState` — the tables while the loop runs.
* `DirectMapped` — what the direct map is to be.

## Main results

* `HhdmState.step` — one pass of the loop.
* `HhdmState.loop` — the loop.
* `DirectMapReady.hhdm_covers_iff` — when the direct map covers all the memory it is to cover.
-/

namespace Neptune

open Nat Option Phys
open Word64 (u64 not64 alignDown alignUp)
open Linked (Split)

variable {m : ByteMem} {top l t root pdpt virt virt' phys e : ℕ} {S C R : Set ℕ} {s s₁ s' : Phys}

/-! ### Entries -/

theorem alignDown_2m (hphys : phys < 2 ^ 64) : alignDown phys pageSize2m = phys / 2 ^ 21 * 2 ^ 21 :=
  Word64.alignDown_eq (k := 21) rfl hphys (by decide)

section

variable (hphys : phys < 2 ^ 52) (ha : phys % 2 ^ 21 = 0)

include hphys ha

theorem hhdmEntry_eq : hhdmEntry phys = phys ||| (0x83 ||| 2 ^ 63) := by
  have hdown : alignDown phys pageSize2m = phys := by
    rw [alignDown_2m (by omega)]
    omega
  rw [hhdmEntry, hdown, Nat.or_assoc, Nat.or_assoc, Nat.or_assoc]
  rfl

theorem testBit_hhdmEntry (k : ℕ) :
    (hhdmEntry phys).testBit k = (phys.testBit k || (0x83 ||| 2 ^ 63 : ℕ).testBit k) := by
  rw [hhdmEntry_eq hphys ha, testBit_or]

theorem hhdmEntry_flag {k : ℕ} (hk : (0x83 ||| 2 ^ 63 : ℕ).testBit k = true) :
    (hhdmEntry phys).testBit k = true := by
  rw [testBit_hhdmEntry hphys ha, hk, Bool.or_true]

theorem hhdmEntry_lt : hhdmEntry phys < 2 ^ 64 := by
  rw [hhdmEntry_eq hphys ha]
  exact or_lt_two_pow (by omega) (by decide)

/-- The page that an entry of the direct map maps. -/
theorem leafOf_hhdmEntry :
    leafOf 1 (hhdmEntry phys) virt = ⟨phys + virt / 2 ^ 12 % 2 ^ 9 * 2 ^ 12, true, false, true⟩ := by
  have hlow : phys.testBit 2 = false := testBit_of_aligned (by omega) (by decide)
  have hframe : entryFrame (hhdmEntry phys) = phys := by
    rw [entryFrame_eq_mod, hhdmEntry_eq hphys ha, or_mod_two_pow, mod_eq_of_lt hphys,
      show (0x83 ||| 2 ^ 63 : ℕ) % 2 ^ 52 = 0x83 from rfl, page_or (by omega) (by decide)]
    omega
  simp only [leafOf, hframe, has_rw, has_user, has_nx, Translation.mk.injEq]
  refine ⟨by omega, hhdmEntry_flag hphys ha (by decide), ?_, hhdmEntry_flag hphys ha (by decide)⟩
  rw [testBit_hhdmEntry hphys ha, hlow]
  decide

theorem hhdmEntry_huge : Huge (hhdmEntry phys) :=
  ⟨hhdmEntry_flag hphys ha (by decide), hhdmEntry_flag hphys ha (by decide)⟩

theorem hhdmEntry_clean : Clean (hhdmEntry phys) := by
  rw [Clean, hhdmEntry_eq hphys ha, or_div_two_pow, or_mod_two_pow, div_eq_of_lt hphys]
  rfl

end

/-- The entries of the direct map: empty, of a table that takes no right but that of the user, or
of a large page, which is no-execute. -/
def HhdmEntry : ℕ → ℕ → Prop
  | 0, e => Clean e
  | l + 1, e => e = 0 ∨ TableEntry e ∨ (l = 0 ∧ Huge e ∧ Clean e ∧ e.testBit 63 = true)

/-- Large pages are in page directories only. -/
theorem HhdmEntry.small (h : HhdmEntry (l + 2) e) : e.testBit 7 = false := by
  rcases h with rfl | htable | ⟨hl, -⟩
  · rfl
  · exact htable.small
  · cases hl

theorem hhdmEntry_admits : Admits HhdmEntry where
  cases := by
    rintro l e (rfl | htable | ⟨hl, hhuge, -⟩)
    · exact .inl vacant_zero
    · exact .inr (.inl htable.pointer)
    · exact .inr (.inr ⟨hl, hhuge⟩)
  zero := fun l => by
    cases l with
    | zero => exact clean_of_lt (by decide)
    | succ l => exact .inl rfl
  user := by
    rintro l e (rfl | htable | ⟨-, hhuge, -⟩) hpointer
    · exact absurd hpointer.present (by decide)
    · exact .inr (.inl htable.or_user.1)
    · exact (hhuge.not_small hpointer.small).elim
  new := fun flags hf hlt => .inr (.inl (newTable_spec hf hlt).1)
  split := by
    rintro e f - (rfl | htable | ⟨-, -, -, hnx⟩) hhuge hno
    · exact absurd hhuge.present (by decide)
    · exact (hhuge.not_small htable.small).elim
    · exact absurd (hno.symm.trans hnx) Bool.false_ne_true

/-! ### The tables of the direct map -/

/-- `ensure_hhdm_pdpt` and `ensure_hhdm_pd` do what `ensure_table` does without flags, as long as
the entry is not that of a large page. -/
theorem Phys.ensureHhdmTable_eq {i : ℕ} (ha : t % 4096 = 0) (hin : t + 4096 ≤ s.window)
    (hi : i < 512) (hsmall : (entryAt s.mem t i).testBit 7 = false) :
    s.ensureHhdmTable t i = s.ensureTable t i 0 := by
  rw [Phys.ensureHhdmTable, Phys.ensureTable, readTable_of_inside ha hin hi]
  simp only [bind_eq_bind, bind_some, has_ps, hsmall, has_present]
  cases (entryAt s.mem t i).testBit 0 with
  | true =>
    simp only [Bool.not_true, Bool.false_eq_true, if_false, if_true, has_mmuFlagUser,
      zero_testBit, Bool.false_and]
  | false =>
    simp only [Bool.not_false, Bool.false_eq_true, if_false, if_true, has_mmuFlagUser,
      zero_testBit, or_zero]

/-- A large page in a page directory in which no entry leads to a table. -/
theorem PageTree.setHuge (virt : ℕ) (h : PageTree HhdmEntry m top 1 t S)
    (hflat : ∀ i, subTable m t i = none) (he : e < 2 ^ 64) (hhuge : Huge e) (hclean : Clean e) (hnx : e.testBit 63 = true) :
    PageTree HhdmEntry (setEntry m t (indexAt 1 virt) e) top 1 t S ∧
      (∀ i, subTable (setEntry m t (indexAt 1 virt) e) t i = none) ∧
      (∀ virt', hwWalk (setEntry m t (indexAt 1 virt) e) virt' 1 t =
        if indexAt 1 virt' = indexAt 1 virt then some (leafOf 1 e virt') else hwWalk m virt' 1 t) := by
  have ha : t % 4096 = 0 := h.root_ok.aligned
  have hself : entryAt (setEntry m t (indexAt 1 virt) e) t (indexAt 1 virt) = e :=
    entryAt_setEntry_self he
  have hself' : entryAt (setEntry m t (indexAt 1 virt) e) t (slotAt 1 virt) = e := hself
  have hother : ∀ i : Fin 512, i ≠ slotAt 1 virt →
      entryAt (setEntry m t (indexAt 1 virt) e) t i = entryAt m t i :=
    fun i hi => entryAt_setSlot (l := 0) ha ha fun hti => hi hti.2
  have hflat' : ∀ i, subTable (setEntry m t (indexAt 1 virt) e) t i = none := by
    intro i
    by_cases hi : i = slotAt 1 virt
    · rw [hi]
      refine subTable_of_huge ?_
      rw [hself']
      exact hhuge
    · rw [subTable_congr (hother i hi), hflat i]
  have hok : TableOk HhdmEntry (setEntry m t (indexAt 1 virt) e) top 1 t := by
    refine ⟨ha, h.root_ok.inside, fun i => ?_⟩
    by_cases hi : i = slotAt 1 virt
    · rw [hi, hself']
      exact .inr (.inr ⟨rfl, hhuge, hclean, hnx⟩)
    · rw [hother i hi]
      exact h.root_ok.entries i
  have hset : S = {t} := h.eq_singleton hflat
  refine ⟨?_, hflat', fun virt' => ?_⟩
  · rw [hset]
    exact Linked.tree_singleton hok fun _ => hflat'
  · split
    · next hindex =>
      have hentry : entryAt (setEntry m t (indexAt 1 virt) e) t (indexAt 1 virt') = e := by
        rw [hindex]
        exact hself
      rw [hwWalk_of_huge (by rw [hentry]; exact hhuge), hentry]
    · next hindex =>
      refine hwWalk_succ_congr hhdmEntry_admits h.root_ok
        (hother (slotAt 1 virt') fun hs => hindex (slotAt_eq_iff.mp hs)) fun u hu => ?_
      rw [hflat] at hu
      exact absurd hu nofun

/-! ### One pass of the loop -/

/-- The number of page directories that are not there yet. -/
def vacantCount (m : ByteMem) (t : ℕ) : ℕ :=
  (Finset.univ.filter fun i : Fin 512 => subTable m t i = none).card

/-- The tables `C` of the direct map while the loop runs, since `s₁`: no page directory leads to
further tables, and there are pages for those that are not there yet. -/
structure HhdmState (s₁ s : Phys) (pdpt : ℕ) (C : Set ℕ) : Prop where
  enlarged : Enlarged s₁ s {pdpt} C
  tree : PageTree HhdmEntry s.mem s.window 2 pdpt C
  pool : PoolFor s C
  inside : ∀ f ∈ s.pool, f + 4096 ≤ s.window
  flat : ∀ i u, subTable s.mem pdpt i = some u → ∀ j, subTable s.mem u j = none
  stock : vacantCount s.mem pdpt ≤ s.pool.length

theorem HhdmState.small (h : HhdmState s₁ s pdpt C) (virt : ℕ) :
    (entryAt s.mem pdpt (indexAt 2 virt)).testBit 7 = false :=
  HhdmEntry.small (h.tree.root_ok.entries (slotAt 2 virt))

/-- There is a page directory less to make if there was none. -/
theorem vacantCount_le {m' : ByteMem} {i : Fin 512} {u : ℕ} (hi : subTable m' t i = some u)
    (hother : ∀ j, j ≠ i → subTable m' t j = subTable m t j) :
    vacantCount m' t + (if subTable m t i = none then 1 else 0) = vacantCount m t := by
  have hset : (Finset.univ.filter fun j : Fin 512 => subTable m' t j = none) =
      (Finset.univ.filter fun j : Fin 512 => subTable m t j = none).erase i := by
    ext j
    rw [Finset.mem_erase, Finset.mem_filter, Finset.mem_filter]
    by_cases hj : j = i
    · simp [hj, hi]
    · simp [hj, hother j hj]
  rw [vacantCount, vacantCount, hset]
  split
  · next hnone =>
    exact Finset.card_erase_add_one (Finset.mem_filter.mpr ⟨Finset.mem_univ i, hnone⟩)
  · next hsome =>
    have hnot : i ∉ Finset.univ.filter fun j : Fin 512 => subTable m t j = none :=
      fun hin => hsome (Finset.mem_filter.mp hin).2
    rw [Finset.erase_eq_of_notMem hnot, add_zero]

/-- The page directory that a pass works on leads to no further tables. -/
theorem HhdmState.flat_below {pd : ℕ} {C₀ C₁ R : Set ℕ} (h : HhdmState s₁ s pdpt C)
    (hent : Entered HhdmEntry s s' virt 0 1 pdpt pd C₀ C₁ R) :
    ∀ j, subTable s'.mem pd j = none := by
  intro j
  rcases hent.origin with ⟨hsub, hsame, -⟩ | ⟨hzero, -⟩ | hhuge
  · rw [subTable_congr (hsame pd hent.tree.root_mem j)]
    exact h.flat _ pd hsub j
  · exact subTable_of_zero (hzero j)
  · exact (hhuge.not_small (h.small virt)).elim

/-- **One pass of the loop** maps one large page and leaves the others as they are. -/
theorem HhdmState.step (h : HhdmState s₁ s pdpt C) (hphys : phys < 2 ^ 52) (ha : phys % 2 ^ 21 = 0)
    (virt : ℕ) :
    ∃ pd sA s' C', s.ensureHhdmPd pdpt (indexAt 2 virt) = some (pd, sA) ∧
      sA.writeTable pd (indexAt 1 virt) (hhdmEntry phys) = some s' ∧ HhdmState s₁ s' pdpt C' ∧
      ∀ virt', hwWalk s'.mem virt' 2 pdpt =
        if indexAt 2 virt' = indexAt 2 virt ∧ indexAt 1 virt' = indexAt 1 virt then
          some ⟨phys + virt' / 2 ^ 12 % 2 ^ 9 * 2 ^ 12, true, false, true⟩
        else hwWalk s.mem virt' 2 pdpt := by
  obtain ⟨C₀, R, hsplit⟩ := h.tree.split (slotAt 2 virt)
  have hok := h.tree.root_ok
  have hcalm : CalmStep s.mem virt 0 1 pdpt :=
    ⟨fun hhuge => (hhuge.not_small (h.small virt)).elim, fun _ _ hflag => absurd hflag (by simp)⟩
  -- the page directory
  obtain ⟨pd, sA, hstep⟩ := ensureTable_enters virt 0 hhdmEntry_admits
    h.tree h.pool fun hnone => head_of_pool (by
      have hpos : 0 < vacantCount s.mem pdpt :=
        Finset.card_pos.mpr ⟨slotAt 2 virt, Finset.mem_filter.mpr ⟨Finset.mem_univ _, hnone⟩⟩
      exact lt_of_lt_of_le hpos h.stock) h.inside
  obtain ⟨C₁, hent⟩ := ensureTable_entered hhdmEntry_admits h.tree hsplit h.pool hcalm hstep
  have hflat := h.flat_below hent
  -- the entry of the large page
  have hpa : pd % 4096 = 0 := hent.tree.root_ok.aligned
  obtain ⟨htree', hflat', hwalk'⟩ := PageTree.setHuge virt hent.tree hflat
    (hhdmEntry_lt hphys ha) (hhdmEntry_huge hphys ha) (hhdmEntry_clean hphys ha)
    (hhdmEntry_flag hphys ha (by decide))
  let sB : Phys := { sA with mem := setEntry sA.mem pd (indexAt 1 virt) (hhdmEntry phys) }
  have hbelow : Enlarged sA sB C₁ C₁ := by
    refine ⟨rfl, subset_rfl, ⟨[], rfl, fun p hp => .inl hp⟩, fun u hu huC i => ?_⟩
    exact entryAt_setSlot (l := 0) hpa hu fun hui => huC (hui.1 ▸ hent.tree.root_mem)
  have hgrown := hent.enlarged h.tree hsplit hbelow
  have hsub := hent.subTable_after h.tree h.pool hbelow
  have hsubs : ∀ j, j ≠ slotAt 2 virt → subTable sB.mem pdpt j = subTable s.mem pdpt j := fun j hj =>
    subTable_congr ((hent.kept_root h.tree h.pool hbelow j).trans (hent.others j hj))
  refine ⟨pd, sA, sB, _,
    (ensureHhdmTable_eq hok.aligned hok.inside (indexAt_lt 2 virt) (h.small virt)).trans hstep,
    writeTable_of_inside hpa hent.tree.root_ok.inside (indexAt_lt 1 virt),
    ⟨h.enlarged.trans hgrown, hent.tree_after h.tree hsplit h.pool hbelow htree',
      hgrown.pool h.pool, hgrown.inside h.inside, fun i u hu j => ?_, ?_⟩, fun virt' => ?_⟩
  · by_cases hslot : i = slotAt 2 virt
    · rw [hslot, hsub] at hu
      obtain rfl := some.inj hu
      exact hflat' j
    · rw [hsubs i hslot] at hu
      obtain ⟨D, hD, hbranch⟩ := hsplit.others i hslot
      have huR : u ∈ R := hD (hbranch.of_some hu).root_mem
      rw [subTable_congr (hent.kept_others h.tree hsplit h.pool hbelow u huR j)]
      exact h.flat i u hu j
  · have hcount := vacantCount_le hsub hsubs
    have hstock := hent.stock
    have hpool := h.stock
    have hone : missing sA.mem virt 1 pd = 1 := missing_of_none (hflat _)
    show vacantCount sB.mem pdpt ≤ sA.pool.length
    cases hold : subTable s.mem pdpt (slotAt 2 virt) with
    | none =>
      rw [missing_of_none hold, hone] at hstock
      rw [hold, if_pos rfl] at hcount
      omega
    | some u =>
      have hu : missing s.mem virt 1 u = 1 := missing_of_none (h.flat _ u hold _)
      rw [missing_of_some hold, hone, hu] at hstock
      rw [hold, if_neg nofun] at hcount
      omega
  · by_cases h2 : indexAt 2 virt' = indexAt 2 virt
    · by_cases h1 : indexAt 1 virt' = indexAt 1 virt
      · rw [if_pos ⟨h2, h1⟩]
        have htable : TableEntry (entryAt sA.mem pdpt (indexAt 2 virt)) := by
          rcases hent.admitted with hzero | htable | ⟨hl, -⟩
          · exact absurd hent.pointer.present (by rw [hzero]; decide)
          · exact htable
          · cases hl
        have hleaf : hwWalk sB.mem virt' 1 pd = some (leafOf 1 (hhdmEntry phys) virt') := by
          rw [hwalk' virt', if_pos h1]
        rw [hent.walk_through h.tree h.pool hbelow h2, hleaf, leafOf_hhdmEntry hphys ha,
          map_some, htable.under]
        simp
      · rw [if_neg fun hboth => h1 hboth.2]
        refine hent.walk_below h.tree h.pool hbelow h2 ?_
        rw [hwalk' virt', if_neg h1]
    · rw [if_neg fun hboth => h2 hboth.1]
      exact hent.walk_aside h.tree hsplit h.pool hbelow hhdmEntry_admits h2

/-! ### The loop -/

/-- The indices of a page of the direct map are those of the page itself. -/
theorem index_physToHhdm (hphys : phys < 2 ^ 47) :
    indexAt 2 (physToHhdm phys) = phys / 2 ^ 30 % 512 ∧
      indexAt 1 (physToHhdm phys) = phys / 2 ^ 21 % 512 := by
  rw [physToHhdm_eq hphys]
  simp only [indexAt, Nat.reduceMul, Nat.reduceAdd, hhdmBase]
  omega

/-- The page at an offset into the 512 GiB of one table of page directories. -/
def directPage (off : ℕ) : Translation := ⟨off / 4096 * 4096, true, false, true⟩

/-- **The loop** maps the large pages from `phys` up to `last`, as long as these are in the first
512 GiB. -/
theorem HhdmState.loop {last : ℕ} (hlast : last ≤ 2 ^ 44) (hla : last % 2 ^ 21 = 0) :
    ∀ {fuel phys : ℕ} {s : Phys} {C : Set ℕ}, HhdmState s₁ s pdpt C → phys % 2 ^ 21 = 0 →
      phys ≤ last → last / 2 ^ 21 - phys / 2 ^ 21 < fuel →
      ∃ s' C', s.hhdmLoop pdpt last fuel phys = some s' ∧ HhdmState s₁ s' pdpt C' ∧
        (last ≤ 2 ^ 39 → ∀ virt', hwWalk s'.mem virt' 2 pdpt =
          if phys ≤ virt' % 2 ^ 39 ∧ virt' % 2 ^ 39 < last then some (directPage (virt' % 2 ^ 39))
          else hwWalk s.mem virt' 2 pdpt) := by
  intro fuel
  induction fuel with
  | zero =>
    intro phys s C _ _ _ hfuel
    exact absurd hfuel (not_lt_zero _)
  | succ fuel ih =>
    intro phys s C h ha hle hfuel
    by_cases hlt : phys < last
    · -- one pass, and the rest
      obtain ⟨pd, sA, s₂, C₂, hpd, hwrite, h₂, hwalk₂⟩ :=
        h.step (lt_of_lt_of_le hlt (by omega)) ha (physToHhdm phys)
      obtain ⟨h2, h1⟩ := index_physToHhdm (lt_of_lt_of_le hlt (by omega))
      have hnext : u64 (phys + pageSize2m) = phys + 2 ^ 21 :=
        Word64.u64_of_lt (by unfold pageSize2m; omega)
      obtain ⟨s', C', hloop, h', hwalk'⟩ := ih h₂
        (show (phys + 2 ^ 21) % 2 ^ 21 = 0 by omega) (by omega) (by omega)
      refine ⟨s', C', ?_, h', fun hsmall virt' => ?_⟩
      · rw [Phys.hhdmLoop, if_pos hlt]
        refine bind_eq_some_iff.mpr ⟨(pd, sA), hpd, ?_⟩
        refine bind_eq_some_iff.mpr ⟨s₂, hwrite, ?_⟩
        rw [hnext]
        exact hloop
      · rw [hwalk' hsmall virt', hwalk₂ virt', h2, h1]
        -- the page of this pass, or one of the rest, or neither
        by_cases hrest : phys + 2 ^ 21 ≤ virt' % 2 ^ 39 ∧ virt' % 2 ^ 39 < last
        · rw [if_pos hrest, if_pos (by omega)]
        · rw [if_neg hrest]
          by_cases hhere : phys ≤ virt' % 2 ^ 39 ∧ virt' % 2 ^ 39 < last
          · have hindex : indexAt 2 virt' = phys / 2 ^ 30 % 512 ∧
                indexAt 1 virt' = phys / 2 ^ 21 % 512 := by
              simp only [indexAt, Nat.reduceMul, Nat.reduceAdd]
              omega
            have hframe : phys + virt' / 2 ^ 12 % 2 ^ 9 * 2 ^ 12 = virt' % 2 ^ 39 / 4096 * 4096 := by
              omega
            rw [if_pos hhere, if_pos hindex, directPage, hframe]
          · have hindex : ¬(indexAt 2 virt' = phys / 2 ^ 30 % 512 ∧
                indexAt 1 virt' = phys / 2 ^ 21 % 512) := by
              simp only [indexAt, Nat.reduceMul, Nat.reduceAdd]
              omega
            rw [if_neg hhere, if_neg hindex]
    · refine ⟨s, C, ?_, h, fun _ virt' => ?_⟩
      · rw [Phys.hhdmLoop, if_neg hlt]
      · rw [if_neg (by omega)]

/-! ### `mmu_map_hhdm_2m` -/

/-- The tables as the kernel finds them: nothing is mapped in the 16 TiB of the direct map, and there
are pages for its tables. -/
structure DirectMapReady (s : Phys) (root : ℕ) : Prop where
  tables : KernelTables s root
  vacant : ∀ i : Fin 512, 256 ≤ i.val → i.val < 288 → Vacant (entryAt s.mem root i)
  stock : 513 ≤ s.pool.length

/-- The memory from `first` to `last` is mapped in the direct map, writable and no-execute, and all
else is mapped as it was. -/
structure DirectMapped (s s' : Phys) (root first last : ℕ) : Prop where
  covers : ∀ p, first ≤ p → p < last →
    hwWalk s'.mem (physToHhdm p) 3 root = some ⟨p / 4096 * 4096, true, false, true⟩
  others : ∀ virt, ¬(physToHhdm first % 2 ^ 48 ≤ virt % 2 ^ 48 ∧
      virt % 2 ^ 48 < physToHhdm first % 2 ^ 48 + (last - first)) →
    hwWalk s'.mem virt 3 root = hwWalk s.mem virt 3 root

theorem index_hhdmBase : indexAt 3 hhdmBase = 256 := by decide

/-- The table of page directories, which is new. -/
theorem DirectMapReady.ensureHhdmPdpt (h : DirectMapReady s root)
    (htree : PageTree KernelEntry s.mem s.window 3 root S) (hpool : PoolFor s S)
    (hin : ∀ f ∈ s.pool, f + 4096 ≤ s.window)
    (hsplit : Split (subTable s.mem) (TableOk KernelEntry s.mem s.window) 2 root
      (slotAt 3 hhdmBase) S C R) :
    ∃ pdpt s₁, s.ensureHhdmPdpt root = some (pdpt, s₁) ∧
      Entered KernelEntry s s₁ hhdmBase 0 2 root pdpt C {pdpt} R ∧
      entryAt s₁.mem root (indexAt 3 hhdmBase) = newTable pdpt 0 ∧
      HhdmState s₁ s₁ pdpt {pdpt} := by
  have hvacant : Vacant (entryAt s.mem root (indexAt 3 hhdmBase)) :=
    h.vacant (slotAt 3 hhdmBase) (by decide) (by decide)
  have hnone : subTable s.mem root (slotAt 3 hhdmBase) = none := subTable_of_vacant hvacant
  have hcalm : CalmStep s.mem hhdmBase 0 2 root := by
    exact ⟨fun hhuge => (hhuge.not_small hvacant.small).elim, fun _ _ hflag => absurd hflag (by simp)⟩
  have hstock := h.stock
  obtain ⟨pdpt, s₁, hstep⟩ := ensureTable_enters hhdmBase 0
    kernelEntry_admits htree hpool fun _ => head_of_pool (by omega) hin
  obtain ⟨C₁, hent⟩ :=
    ensureTable_entered kernelEntry_admits htree hsplit hpool hcalm hstep
  have hzero : (∀ i : Fin 512, entryAt s₁.mem pdpt i = 0) ∧
      entryAt s₁.mem root (indexAt 3 hhdmBase) = newTable pdpt 0 := by
    rcases hent.origin with ⟨hsub, -⟩ | hzero | hhuge
    · rw [hnone] at hsub
      cases hsub
    · exact hzero
    · exact (hhuge.not_small hvacant.small).elim
  have hsub : ∀ i, subTable s₁.mem pdpt i = none := fun i => subTable_of_zero (hzero.1 i)
  obtain rfl : C₁ = {pdpt} := hent.tree.eq_singleton hsub
  have hok := hent.tree.root_ok
  obtain ⟨used, hused, -⟩ := hent.taken
  refine ⟨pdpt, s₁, (ensureHhdmTable_eq htree.root_ok.aligned htree.root_ok.inside
    (indexAt_lt 3 hhdmBase) hvacant.small).trans hstep, hent, hzero.2, .refl s₁ _,
    PageTree.of_zero hzero.1 hhdmEntry_admits hok.aligned hok.inside, hent.pool hsplit hpool,
    inside_of_taken hused (by rw [hent.rest]) hin, fun i u hu => ?_, ?_⟩
  · rw [hsub i] at hu
    cases hu
  · have hmissing := hent.stock
    have hle : vacantCount s₁.mem pdpt ≤ 512 :=
      (Finset.card_le_univ _).trans (le_of_eq (Fintype.card_fin 512))
    rw [missing_of_none hnone, missing_of_none (hsub _)] at hmissing
    omega

/-- The direct map after the loop. -/
theorem DirectMapReady.mapHhdm2m_spec (h : DirectMapReady s root) {first last : ℕ}
    (hfa : first % 2 ^ 21 = 0) (hla : last % 2 ^ 21 = 0) (hlt : first < last)
    (hlast : last ≤ 2 ^ 44) :
    ∃ pdpt s₁ s', s.ensureHhdmPdpt root = some (pdpt, s₁) ∧
      s₁.hhdmLoop pdpt last (last / pageSize2m + 1) first = some s' ∧
      (last ≤ 2 ^ 39 → DirectMapped s s' root first last) ∧
      ∀ i : Fin 512, i ≠ slotAt 3 hhdmBase → entryAt s'.mem root i = entryAt s.mem root i := by
  obtain ⟨S, htree, hpool, hin⟩ := h.tables
  obtain ⟨C, R, hsplit⟩ := htree.split (slotAt 3 hhdmBase)
  obtain ⟨pdpt, s₁, hpdpt, hent, hentry, hstate⟩ := h.ensureHhdmPdpt htree hpool hin hsplit
  obtain ⟨s', C', hloop, hstate', hwalk⟩ := HhdmState.loop hlast hla hstate hfa
    (by omega) (show last / 2 ^ 21 - first / 2 ^ 21 < last / pageSize2m + 1 by
      unfold pageSize2m
      omega)
  have hbelow := hstate'.enlarged
  refine ⟨pdpt, s₁, s', hpdpt, hloop, fun hsmall => ?_, fun i hi =>
    (hent.kept_root htree hpool hbelow i).trans (hent.others i hi)⟩
  have htable : TableEntry (entryAt s₁.mem root (indexAt 3 hhdmBase)) := by
    have hplt : pdpt < 2 ^ 52 := hent.frame ▸ (entryFrame_spec _).1
    rw [hentry]
    exact (newTable_spec hent.tree.root_ok.aligned hplt).1
  constructor
  · intro p hfirst hp
    have hindex : indexAt 3 (physToHhdm p) = indexAt 3 hhdmBase := by
      rw [physToHhdm_eq (by omega)]
      simp only [indexAt, Nat.reduceMul, Nat.reduceAdd, hhdmBase]
      omega
    have hoff : physToHhdm p % 2 ^ 39 = p := by
      rw [physToHhdm_eq (by omega)]
      simp only [hhdmBase]
      omega
    rw [hent.walk_through htree hpool hbelow hindex, hwalk hsmall, hoff, if_pos ⟨hfirst, hp⟩,
      map_some, htable.under]
    simp [directPage]
  · intro virt hvirt
    rw [physToHhdm_eq (by omega)] at hvirt
    by_cases hindex : indexAt 3 virt = indexAt 3 hhdmBase
    · refine hent.walk_below htree hpool hbelow hindex ?_
      rw [hwalk hsmall, if_neg]
      simp only [indexAt, Nat.reduceMul, Nat.reduceAdd, hhdmBase] at hindex hvirt
      omega
    · exact hent.walk_aside htree hsplit hpool hbelow kernelEntry_admits hindex

section

variable (h : DirectMapReady s root) {physStart physEnd : ℕ} (hlt : physStart < physEnd)
  (hend : physEnd ≤ 2 ^ 44)

include hlt hend

/-- The range that is mapped. -/
theorem hhdm_range : ∃ first last, alignDown physStart pageSize2m = first ∧
    alignUp physEnd pageSize2m = last ∧ first % 2 ^ 21 = 0 ∧ last % 2 ^ 21 = 0 ∧ first < last ∧
    physEnd ≤ last ∧ last < physEnd + 2 ^ 21 := by
  have hlast : alignUp physEnd pageSize2m = (physEnd + 2 ^ 21 - 1) / 2 ^ 21 * 2 ^ 21 :=
    Word64.alignUp_eq (k := 21) rfl (by unfold pageSize2m; omega) (by decide)
  refine ⟨_, _, alignDown_2m (by omega), hlast, ?_⟩
  omega

include h

/-- The memory that ends beyond the first 512 GiB is not all covered. -/
theorem DirectMapReady.not_covered (hbeyond : 2 ^ 39 < physEnd) :
    ¬∃ s', s.mapHhdm2m root physStart physEnd = some s' ∧
      DirectMapped s s' root (alignDown physStart pageSize2m) (alignUp physEnd pageSize2m) := by
  obtain ⟨first, last, hf, hl, hfa, hla, hfl, hle, hup⟩ := hhdm_range hlt hend
  obtain ⟨pdpt, s₁, s', hpdpt, hloop, -, hroot⟩ :=
    h.mapHhdm2m_spec hfa hla hfl (show last ≤ 2 ^ 44 by omega)
  rintro ⟨s₂, hrun₂, hmapped⟩
  rw [Phys.mapHhdm2m, hf, hl, if_neg (by omega), hpdpt] at hrun₂
  obtain rfl := some.inj (hloop.symm.trans hrun₂)
  rw [hf, hl] at hmapped
  -- the last large page has an index of its own in the PML4, which is empty still
  have hwalk := hmapped.covers (last - 2 ^ 21) (by omega) (by omega)
  have hindex : indexAt 3 (physToHhdm (last - 2 ^ 21)) = 256 + (last - 2 ^ 21) / 2 ^ 39 := by
    rw [physToHhdm_eq (by omega)]
    simp only [indexAt, Nat.reduceMul, Nat.reduceAdd, hhdmBase]
    omega
  have hslot : (slotAt 3 (physToHhdm (last - 2 ^ 21))).val = 256 + (last - 2 ^ 21) / 2 ^ 39 := hindex
  have hne : slotAt 3 (physToHhdm (last - 2 ^ 21)) ≠ slotAt 3 hhdmBase := by
    rw [Ne, slotAt_eq_iff, hindex, index_hhdmBase]
    omega
  have hvacant := h.vacant (slotAt 3 (physToHhdm (last - 2 ^ 21))) (by omega) (by omega)
  rw [← hroot _ hne] at hvacant
  rw [hwWalk_of_vacant hvacant] at hwalk
  cases hwalk

/-- **The direct map covers all the memory it is to cover** exactly if that ends within the first
512 GiB. -/
theorem DirectMapReady.hhdm_covers_iff :
    (∃ s', s.mapHhdm2m root physStart physEnd = some s' ∧
      DirectMapped s s' root (alignDown physStart pageSize2m) (alignUp physEnd pageSize2m)) ↔
      physEnd ≤ 2 ^ 39 := by
  constructor
  · intro hcovered
    by_contra hbeyond
    exact h.not_covered hlt hend (by omega) hcovered
  · intro hsmall
    obtain ⟨first, last, hf, hl, hfa, hla, hfl, hle, hup⟩ := hhdm_range hlt hend
    obtain ⟨pdpt, s₁, s', hpdpt, hloop, hmapped, -⟩ :=
      h.mapHhdm2m_spec hfa hla hfl (show last ≤ 2 ^ 44 by omega)
    refine ⟨s', ?_, ?_⟩
    · rw [Phys.mapHhdm2m, hf, hl, if_neg (by omega), hpdpt]
      exact hloop
    · rw [hf, hl]
      exact hmapped (by omega)

end

/-- `n` pages, one behind the other. -/
def pagesFrom (base n : ℕ) : List ℕ := (List.range n).map fun i => base + 4096 * i

theorem mem_pagesFrom {base n f : ℕ} (h : f ∈ pagesFrom base n) : ∃ i < n, f = base + 4096 * i := by
  obtain ⟨i, hi, rfl⟩ := List.mem_map.mp h
  exact ⟨i, List.mem_range.mp hi, rfl⟩

theorem nodup_pagesFrom (base n : ℕ) : (pagesFrom base n).Nodup := by
  refine List.Nodup.map ?_ List.nodup_range
  intro i j hij
  dsimp only at hij
  omega

theorem length_pagesFrom (base n : ℕ) : (pagesFrom base n).length = n := by
  rw [pagesFrom, List.length_map, List.length_range]

/-- An empty table at 0x1000, and 513 pages behind it. -/
def readyPhys : Phys := .booting blankMem (pagesFrom 0x2000 513)

theorem directMapReady_readyPhys : DirectMapReady readyPhys 0x1000 := by
  have hpool : readyPhys.pool = pagesFrom 0x2000 513 := by rw [readyPhys, Phys.booting]
  have hmem : ∀ f ∈ readyPhys.pool, ∃ i < 513, f = 0x2000 + 4096 * i := by
    intro f hf
    rw [hpool] at hf
    exact mem_pagesFrom hf
  have hzero : ∀ i : Fin 512, entryAt readyPhys.mem 0x1000 i = 0 := fun i => entryAt_blankMem _ i
  refine ⟨⟨{0x1000}, PageTree.of_zero hzero kernelEntry_admits (by decide) (by decide),
    ⟨hpool ▸ nodup_pagesFrom 0x2000 513, fun f hf => ?_, fun f hf hS => ?_⟩, fun f hf => ?_⟩, fun i _ _ => ?_, ?_⟩
  · obtain ⟨i, hi, rfl⟩ := hmem f hf
    omega
  · obtain ⟨i, -, rfl⟩ := hmem f hf
    have hroot : 0x2000 + 4096 * i = 0x1000 := hS
    omega
  · obtain ⟨i, hi, rfl⟩ := hmem f hf
    exact (by omega : 0x2000 + 4096 * i + 4096 ≤ 0x40000000)
  · rw [hzero i]
    exact ⟨rfl, rfl⟩
  · rw [hpool, length_pagesFrom]

/-- Four GiB are covered. -/
theorem hhdm_covers_four_gib :
    DirectMapReady readyPhys 0x1000 ∧ ∃ s', readyPhys.mapHhdm2m 0x1000 0 0x100000000 = some s' ∧
      DirectMapped readyPhys s' 0x1000 (alignDown 0 pageSize2m) (alignUp 0x100000000 pageSize2m) :=
  ⟨directMapReady_readyPhys,
    (directMapReady_readyPhys.hhdm_covers_iff (by decide) (by decide)).mpr (by decide)⟩

/-- One byte beyond 512 GiB is not. -/
theorem hhdm_beyond_512_gib :
    DirectMapReady readyPhys 0x1000 ∧ 0 < 0x8000000001 ∧ 0x8000000001 ≤ 2 ^ 44 ∧
      ¬∃ s', readyPhys.mapHhdm2m 0x1000 0 0x8000000001 = some s' ∧
        DirectMapped readyPhys s' 0x1000 (alignDown 0 pageSize2m) (alignUp 0x8000000001 pageSize2m) :=
  ⟨directMapReady_readyPhys, by decide, by decide,
    directMapReady_readyPhys.not_covered (by decide) (by decide) (by decide)⟩

end Neptune
