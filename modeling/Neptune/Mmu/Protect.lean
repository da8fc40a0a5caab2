import Neptune.Mmu.Large

/-!
# The protection of the sections of the kernel

`mmu_protect_kernel_sections` takes the addresses of the sections to physical ones with `virt_to_phys`
and back with `phys_to_higher_half`.  The kernel lies above `HHDM_BASE`, so that `virt_to_phys` takes
its addresses for addresses of the direct map: the loops map pages of the lower half to frames that
do not exist, and the pages of the kernel stay writable and executable.

## Main definitions

* `BootLayout`, `BootTables` — the tables that `boot.s` sets up.
* `KernelImage.InHigherHalf`, `KernelImage.Separate` — the layouts of the linker.
* `Protected` — what the protection is to be.

## Main results

* `virtToPhys_of_kernel` — what `virt_to_phys` makes of an address of the kernel.
* `BootTables.protects_iff` — when the sections are protected.
-/

namespace Neptune

open List Nat Option
open Word64 (u64 not64 alignDown alignUp)

variable {m : ByteMem} {s s' : Phys} {root virt phys flags p v : ℕ} {S : Set ℕ}

/-! ### `virt_to_phys` -/

/-- What `virt_to_phys` makes of an address of the kernel. -/
theorem virtToPhys_of_kernel (hv : higherHalfBase ≤ v) (hv' : v < 2 ^ 64) :
    virtToPhys v = v - hhdmBase := by
  have hge : v ≥ hhdmBase := le_trans (by decide) hv
  rw [virtToPhys, if_pos hge, hhdmToPhys]
  simp only [u64, hhdmBase] at hge ⊢
  omega

/-! ### The tables that `boot.s` sets up -/

/-- Where the tables of `boot.s` are. -/
structure BootLayout where
  pml4 : ℕ
  pdptIdentity : ℕ
  pdptHigher : ℕ
  pdIdentity : ℕ
  pdHigher : ℕ
  pdHigherExtra : ℕ

namespace BootLayout

def tables (b : BootLayout) : List ℕ :=
  [b.pml4, b.pdptIdentity, b.pdptHigher, b.pdIdentity, b.pdHigher, b.pdHigherExtra]

/-- The entries that `setup_paging` writes. -/
def entry (b : BootLayout) (t i : ℕ) : ℕ :=
  if t = b.pml4 then if i = 0 then b.pdptIdentity ||| 3 else if i = 511 then b.pdptHigher ||| 3 else 0
  else if t = b.pdptIdentity then if i = 0 then b.pdIdentity ||| 3 else 0
  else if t = b.pdptHigher then
    if i = 510 then b.pdHigher ||| 3 else if i = 511 then b.pdHigherExtra ||| 3 else 0
  -- two times the first GiB
  else if t = b.pdIdentity ∨ t = b.pdHigher then i * 2 ^ 21 ||| 0x83
  else 0

end BootLayout

/-- The tables as `boot.s` leaves them, and fresh pages for more. -/
structure BootTables (s : Phys) (b : BootLayout) : Prop where
  nodup : b.tables.Nodup
  placed : ∀ t ∈ b.tables, t % 4096 = 0 ∧ t + 4096 ≤ s.window ∧ t < 2 ^ 32
  entries : ∀ t ∈ b.tables, ∀ i : Fin 512, entryAt s.mem t i = b.entry t i
  poolNodup : s.pool.Nodup
  poolAligned : ∀ f ∈ s.pool, f % 4096 = 0 ∧ f < 2 ^ 52
  poolFresh : ∀ f ∈ s.pool, f ∉ b.tables

/-- An entry of `setup_paging` that leads to a table. -/
theorem tableEntry_boot {t : ℕ} (ha : t % 4096 = 0) (hlt : t < 2 ^ 52) :
    TableEntry (t ||| 3) ∧ pageOf (t ||| 3) = t ∧ (t ||| 3).testBit 2 = false := by
  have h := tableEntry_new (u := 0) ha hlt (.inl rfl)
  have hval : t ||| ptePresent ||| pteRw ||| 0 = t ||| 3 := by
    rw [Nat.or_zero, Nat.or_assoc]
    rfl
  rw [hval] at h
  exact h

/-- An entry of `setup_paging` that maps a large page. -/
theorem bootPage_eq (i : ℕ) : i * 2 ^ 21 ||| 0x83 = i * 2 ^ 21 + 0x83 :=
  page_or (by omega) (by decide)

theorem huge_boot {i : ℕ} (hi : i < 512) :
    Huge (i * 2 ^ 21 ||| 0x83) ∧ Clean (i * 2 ^ 21 ||| 0x83) := by
  have hlow : ∀ k, k < 12 → (i * 2 ^ 21).testBit k = false := fun k hk =>
    testBit_of_aligned (by omega) hk
  refine ⟨⟨?_, ?_⟩, ?_⟩
  · rw [testBit_or, hlow 0 (by decide)]
    rfl
  · rw [testBit_or, hlow 7 (by decide)]
    rfl
  · rw [bootPage_eq]
    exact clean_of_lt (by omega)

theorem leafOf_boot {i : ℕ} (hi : i < 512) :
    leafOf 1 (i * 2 ^ 21 ||| 0x83) virt =
      ⟨i * 2 ^ 21 + virt / 2 ^ 12 % 2 ^ 9 * 2 ^ 12, true, false, false⟩ := by
  have hbit : ∀ k, k < 12 → (i * 2 ^ 21 ||| 0x83).testBit k = Nat.testBit 0x83 k := fun k hk => by
    rw [testBit_or, testBit_of_aligned (by omega) hk, Bool.false_or]
  have hnx : (i * 2 ^ 21 ||| 0x83).testBit 63 = false := by
    rw [bootPage_eq]
    exact testBit_lt_two_pow (by omega)
  simp only [leafOf, has_rw, has_user, has_nx, hbit 1 (by decide), hbit 2 (by decide), hnx,
    Translation.mk.injEq]
  refine ⟨?_, rfl, rfl, trivial⟩
  rw [bootPage_eq, entryFrame]
  omega

namespace BootTables

variable {b : BootLayout}

section

variable (h : BootTables s b)

include h

theorem entries_eq (i : Fin 512) :
    entryAt s.mem b.pml4 i =
      (if i = 0 then b.pdptIdentity ||| 3 else if i = 511 then b.pdptHigher ||| 3 else 0) ∧
    entryAt s.mem b.pdptIdentity i = (if i = 0 then b.pdIdentity ||| 3 else 0) ∧
    entryAt s.mem b.pdptHigher i =
      (if i = 510 then b.pdHigher ||| 3 else if i = 511 then b.pdHigherExtra ||| 3 else 0) ∧
    entryAt s.mem b.pdIdentity i = i.val * 2 ^ 21 ||| 0x83 ∧
    entryAt s.mem b.pdHigher i = i.val * 2 ^ 21 ||| 0x83 ∧ entryAt s.mem b.pdHigherExtra i = 0 := by
  have hnodup := h.nodup
  have hentries := fun t ht => h.entries t ht i
  simp only [BootLayout.tables, nodup_cons, mem_cons, not_mem_nil, or_false, not_or,
    nodup_nil, and_true, forall_eq_or_imp, forall_eq] at hnodup hentries
  -- the tables are all different
  simp only [hentries, BootLayout.entry, Fin.ext_iff]
  grind

theorem tableEntry {t : ℕ} (ht : t ∈ b.tables) :
    TableEntry (t ||| 3) ∧ entryFrame (t ||| 3) = t := by
  obtain ⟨ha, -, hlt⟩ := h.placed t ht
  obtain ⟨htable, hpage, -⟩ := tableEntry_boot ha (lt_trans hlt (by decide))
  exact ⟨htable, htable.entryFrame.trans hpage⟩

theorem subTable_eq {t u : ℕ} {i : Fin 512} (hu : u ∈ b.tables)
    (hentry : entryAt s.mem t i = u ||| 3) : subTable s.mem t i = some u := by
  obtain ⟨htable, hframe⟩ := h.tableEntry hu
  rw [subTable_of_pointer (by rw [hentry]; exact htable.pointer), hentry, hframe]

/-- The entries are tables, large pages or empty, and large pages are in the page directories. -/
theorem tableOk {l t : ℕ} (ht : t ∈ b.tables) (hl : t = b.pdIdentity ∨ t = b.pdHigher → l = 0) :
    TableOk KernelEntry s.mem s.window (l + 1) t := by
  obtain ⟨ha, hin, -⟩ := h.placed t ht
  have hpointer : ∀ u ∈ b.tables, KernelEntry (l + 1) (u ||| 3) := fun u hu =>
    .inr (.inl (h.tableEntry hu).1.pointer)
  refine ⟨ha, hin, fun i => ?_⟩
  rw [h.entries t ht, BootLayout.entry]
  split_ifs <;>
    first
    | exact kernelEntry_admits.zero (l + 1)
    | exact hpointer _ (by simp [BootLayout.tables])
    | exact .inr (.inr ⟨hl ‹_›, huge_boot i.isLt⟩)

/-- The tables that map the first GiB. -/
theorem pd_tree {t : ℕ} (ht : t = b.pdIdentity ∨ t = b.pdHigher) :
    PageTree KernelEntry s.mem s.window 1 t {t} := by
  have hmem : t ∈ b.tables := by
    rcases ht with rfl | rfl <;> simp [BootLayout.tables]
  refine Linked.tree_singleton (h.tableOk hmem fun _ => rfl) fun _ i => subTable_of_huge ?_
  have hentry : entryAt s.mem t i = i.val * 2 ^ 21 ||| 0x83 := by
    obtain ⟨-, -, -, h₁, h₂, -⟩ := h.entries_eq i
    rcases ht with rfl | rfl
    · exact h₁
    · exact h₂
  rw [hentry]
  exact (huge_boot i.isLt).1

/-- **The tables form a tree.** -/
theorem tree : PageTree KernelEntry s.mem s.window 3 b.pml4
    (insert b.pml4 ({b.pdptIdentity, b.pdIdentity} ∪
      insert b.pdptHigher ({b.pdHigher} ∪ {b.pdHigherExtra}))) := by
  have hnodup := h.nodup
  simp only [BootLayout.tables, nodup_cons, mem_cons, not_mem_nil, or_false, not_or,
    nodup_nil, and_true] at hnodup
  obtain ⟨h₁, h₂, h₃, h₄, h₅, -⟩ := hnodup
  have hmem : b.pdptIdentity ∈ b.tables ∧ b.pdptHigher ∈ b.tables ∧ b.pdIdentity ∈ b.tables ∧
      b.pdHigher ∈ b.tables ∧ b.pdHigherExtra ∈ b.tables := by
    simp [BootLayout.tables]
  have hextra : PageTree KernelEntry s.mem s.window 1 b.pdHigherExtra {b.pdHigherExtra} := by
    obtain ⟨ha, hin, -⟩ := h.placed b.pdHigherExtra hmem.2.2.2.2
    exact PageTree.of_zero (fun i => (h.entries_eq i).2.2.2.2.2) kernelEntry_admits ha hin
  have hidentity : PageTree KernelEntry s.mem s.window 2 b.pdptIdentity
      {b.pdptIdentity, b.pdIdentity} := by
    refine (h.pd_tree (.inl rfl)).link (i := 0) (h.tableOk hmem.1 (by tauto))
      (h.subTable_eq hmem.2.2.1 (h.entries_eq 0).2.1) (fun j hj => subTable_of_zero ?_) h₂.2.1
    rw [(h.entries_eq j).2.1, if_neg hj]
  have hhigher : PageTree KernelEntry s.mem s.window 2 b.pdptHigher
      (insert b.pdptHigher ({b.pdHigher} ∪ {b.pdHigherExtra})) := by
    refine (h.pd_tree (.inr rfl)).link₂ (i := 510) (j := 511) (by decide) hextra
      (h.tableOk hmem.2.1 (by tauto)) (h.subTable_eq hmem.2.2.2.1 (h.entries_eq 510).2.2.1)
      (h.subTable_eq hmem.2.2.2.2 (h.entries_eq 511).2.2.1) (fun k hk hk' => subTable_of_zero ?_)
      h₃.2.1 h₃.2.2 (Set.disjoint_singleton.mpr h₅)
    rw [(h.entries_eq k).2.2.1, if_neg hk, if_neg hk']
  refine hidentity.link₂ (i := 0) (j := 511) (by decide) hhigher
    (h.tableOk (by simp [BootLayout.tables]) (by tauto)) (h.subTable_eq hmem.1 (h.entries_eq 0).1)
    (h.subTable_eq hmem.2.1 (h.entries_eq 511).1) (fun k hk hk' => subTable_of_zero ?_) ?_ ?_ ?_
  · rw [(h.entries_eq k).1, if_neg hk, if_neg hk']
  · simp [h₁]
  · simp [h₁]
  · rw [Set.disjoint_left]
    rintro t (rfl | rfl) ht
    · simp [h₂] at ht
    · simp [Ne.symm h₃.1, h₄] at ht

theorem pool : PoolFor s (insert b.pml4 ({b.pdptIdentity, b.pdIdentity} ∪
    insert b.pdptHigher ({b.pdHigher} ∪ {b.pdHigherExtra}))) := by
  refine ⟨h.poolNodup, h.poolAligned, fun f hf hS => h.poolFresh f hf ?_⟩
  simp only [Set.mem_insert_iff, Set.mem_union, Set.mem_singleton_iff] at hS
  simp only [BootLayout.tables, mem_cons, not_mem_nil, or_false]
  tauto

/-- A page of the kernel is writable and executable. -/
theorem hwWalk_kernel {v : ℕ} (hv : higherHalfBase ≤ v) (hv' : v < higherHalfBase + 2 ^ 30)
    (hva : v % 4096 = 0) :
    hwWalk s.mem v 3 b.pml4 = some ⟨v - higherHalfBase, true, false, false⟩ := by
  have hindex : indexAt 3 v = 511 ∧ indexAt 2 v = 510 ∧ indexAt 1 v = (v - higherHalfBase) / 2 ^ 21 := by
    simp only [indexAt, Nat.reduceMul, Nat.reduceAdd, higherHalfBase] at hv hv' ⊢
    omega
  obtain ⟨h3, h2, h1⟩ := hindex
  have hmem : b.pdptHigher ∈ b.tables ∧ b.pdHigher ∈ b.tables := by simp [BootLayout.tables]
  obtain ⟨ht3, hf3⟩ := h.tableEntry hmem.1
  obtain ⟨ht2, hf2⟩ := h.tableEntry hmem.2
  have he3 : entryAt s.mem b.pml4 (indexAt 3 v) = b.pdptHigher ||| 3 := by
    rw [h3]
    exact (h.entries_eq 511).1
  have he2 : entryAt s.mem b.pdptHigher (indexAt 2 v) = b.pdHigher ||| 3 := by
    rw [h2]
    exact (h.entries_eq 510).2.2.1
  have hlt : (v - higherHalfBase) / 2 ^ 21 < 512 := by omega
  have he1 : entryAt s.mem b.pdHigher (indexAt 1 v) = (v - higherHalfBase) / 2 ^ 21 * 2 ^ 21 ||| 0x83 := by
    rw [h1]
    exact (h.entries_eq ⟨_, hlt⟩).2.2.2.2.1
  rw [hwWalk_of_pointer (by rw [he3]; exact ht3.pointer), he3, hf3,
    hwWalk_of_pointer (by rw [he2]; exact ht2.pointer), he2, hf2,
    hwWalk_of_huge (by rw [he1]; exact (huge_boot hlt).1), he1, leafOf_boot hlt]
  simp only [map_some, ht3.under, ht2.under, Bool.false_and]
  have hframe : (v - higherHalfBase) / 2 ^ 21 * 2 ^ 21 + v / 2 ^ 12 % 2 ^ 9 * 2 ^ 12 =
      v - higherHalfBase := by
    simp only [higherHalfBase] at hv hv' ⊢
    omega
  rw [hframe]

/-- Nothing is mapped through the entry 255 of the PML4. -/
theorem pteOf_lower {v : ℕ} (hindex : indexAt 3 v = 255) : pteOf s.mem v 3 b.pml4 = 0 := by
  refine pteOf_of_vacant ?_
  have hentry : entryAt s.mem b.pml4 (indexAt 3 v) = 0 := by
    rw [hindex]
    exact (h.entries_eq 255).1
  rw [hentry]
  exact vacant_zero

end

end BootTables

/-! ### The layouts of the linker -/

/-- The pages of a section. -/
def Section.HasPage (sec : Section) (v : ℕ) : Prop :=
  v % 4096 = 0 ∧ alignDown sec.start 4096 ≤ v ∧ v < alignUp sec.stop 4096

/-- A section in the first GiB of the higher half. -/
structure Section.InHigherHalf (sec : Section) : Prop where
  start_ge : higherHalfBase ≤ sec.start
  start_le : sec.start ≤ sec.stop
  stop_le : sec.stop ≤ higherHalfBase + 2 ^ 30

namespace KernelImage

def sections (image : KernelImage) : List Section :=
  [image.text, image.rodata, image.data, image.bss]

/-- All sections lie in the first GiB of the higher half. -/
def InHigherHalf (image : KernelImage) : Prop := ∀ sec ∈ image.sections, sec.InHigherHalf

/-- No two sections have a page in common. -/
def Separate (image : KernelImage) : Prop :=
  image.sections.Pairwise fun a b => ∀ v, a.HasPage v → ¬b.HasPage v

def HasPage (image : KernelImage) (v : ℕ) : Prop := ∃ sec ∈ image.sections, sec.HasPage v

theorem forall_sections {image : KernelImage} {Q : Section → Prop} :
    (∀ sec ∈ image.sections, Q sec) ↔ Q image.text ∧ Q image.rodata ∧ Q image.data ∧ Q image.bss := by
  simp [sections]

end KernelImage

section

variable {sec : Section} (h : sec.InHigherHalf)

include h

/-- The pages of a section and the physical addresses that the loop runs through. -/
theorem Section.InHigherHalf.range :
    alignDown sec.start 4096 = alignDown (virtToPhys sec.start) 4096 + hhdmBase ∧
      alignUp sec.stop 4096 = alignUp (virtToPhys sec.stop) 4096 + hhdmBase ∧
      alignDown (virtToPhys sec.start) 4096 % 4096 = 0 ∧
      0x7FFF80000000 ≤ alignDown (virtToPhys sec.start) 4096 ∧
      alignUp (virtToPhys sec.stop) 4096 ≤ 0x7FFFC0000000 := by
  obtain ⟨h₁, h₂, h₃⟩ := h
  have hstart := virtToPhys_of_kernel h₁ (by unfold higherHalfBase at h₃; omega)
  have hstop := virtToPhys_of_kernel (v := sec.stop) (by omega) (by unfold higherHalfBase at h₃; omega)
  simp only [higherHalfBase] at h₁ h₃
  have hb : hhdmBase = 0xFFFF800000000000 := rfl
  have hdown : ∀ x, x < 2 ^ 64 → alignDown x 4096 = x / 4096 * 4096 := fun x hx =>
    Word64.alignDown_eq (k := 12) rfl hx (by decide)
  have hup : ∀ x, x + 4095 < 2 ^ 64 → alignUp x 4096 = (x + 4096 - 1) / 4096 * 4096 := fun x hx =>
    Word64.alignUp_eq (k := 12) rfl hx (by decide)
  rw [hstart, hstop, hdown _ (by omega), hdown _ (by omega), hup _ (by omega), hup _ (by omega)]
  omega

/-- The pages of a section are pages of the kernel. -/
theorem Section.InHigherHalf.page_bounds (hv : sec.HasPage v) :
    higherHalfBase ≤ v ∧ v < higherHalfBase + 2 ^ 30 := by
  obtain ⟨hdown, hup, -, hge, hle⟩ := h.range
  obtain ⟨-, hv₁, hv₂⟩ := hv
  simp only [higherHalfBase, hhdmBase] at *
  omega

end

/-! ### The loops -/

/-- A call for a page that is not mapped maps it, and leaves every other page as it is. -/
theorem Phys.mapPage_unmapped (htree : PageTree KernelEntry s.mem s.window 3 root S)
    (hpool : PoolFor s S) (hpte : pteOf s.mem virt 3 root = 0) (hflag : flags.testBit 2 = false)
    (hphys : phys < 2 ^ 52) (he : s.mapPage root virt phys flags = some s') :
    ∃ S', PageTree KernelEntry s'.mem s'.window 3 root S' ∧ PoolFor s' S' ∧
      ∀ v, pageNo v ≠ pageNo virt → hwWalk s'.mem v 3 root = hwWalk s.mem v 3 root ∧
        pteOf s'.mem v 3 root = pteOf s.mem v 3 root := by
  obtain ⟨haligned, hrun⟩ := Phys.mapFrom_of_mapPage he
  have hcalm : Calm s.mem virt flags 3 root :=
    PageTree.calm_of_supervisor kernelEntry_admits htree hflag (by rw [hpte]; rfl)
  obtain ⟨S', hdone⟩ := Phys.mapFrom_done kernelEntry_admits (by omega) haligned
    (clean_pteFor hphys haligned) htree hpool hcalm hrun
  exact ⟨S', hdone.tree, hdone.enlarged.pool hpool, fun v hv =>
    ⟨hdone.others v (index_ne_of_pageNo_ne hv), hdone.ptes v (index_ne_of_pageNo_ne hv)⟩⟩

/-- Where a loop maps the page with the address `p` that it takes for a physical one. -/
theorem physToHigherHalf_eq (hp : 0x7FFF80000000 ≤ p) (hp' : p < 0x7FFFC0000000) :
    physToHigherHalf p = p - 0x80000000 := by
  simp only [physToHigherHalf, u64, higherHalfBase]
  omega

theorem pageNo_physToHigherHalf {q : ℕ} (hp : 0x7FFF80000000 ≤ p) (hp' : p < 0x7FFFC0000000)
    (hq : 0x7FFF80000000 ≤ q) (hq' : q < 0x7FFFC0000000)
    (heq : pageNo (physToHigherHalf p) = pageNo (physToHigherHalf q)) : p / 4096 = q / 4096 := by
  rw [physToHigherHalf_eq hp hp', physToHigherHalf_eq hq hq'] at heq
  unfold pageNo at heq
  omega

/-- The pages of the lower half that the loops map. -/
theorem index_physToHigherHalf (hp : 0x7FFF80000000 ≤ p) (hp' : p < 0x7FFFC0000000) :
    indexAt 3 (physToHigherHalf p) = 255 := by
  rw [physToHigherHalf_eq hp hp']
  simp only [indexAt, Nat.reduceMul, Nat.reduceAdd]
  omega

/-- Pages that none of the pages `first` to `last` of a loop is taken to stay as they are. -/
def KeepsOthers (s s' : Phys) (root first last : ℕ) : Prop :=
  ∀ v, (∀ p, p % 4096 = 0 → first ≤ p → p < last → pageNo v ≠ pageNo (physToHigherHalf p)) →
    hwWalk s'.mem v 3 root = hwWalk s.mem v 3 root ∧ pteOf s'.mem v 3 root = pteOf s.mem v 3 root

/-- **One of the loops** maps pages of the lower half that are not mapped, and changes nothing
else. -/
theorem Phys.protectLoop_keeps {last : ℕ} (hlast : last ≤ 0x7FFFC0000000)
    (hflag : flags.testBit 2 = false) :
    ∀ {fuel phys : ℕ} {s : Phys} {S : Set ℕ}, PageTree KernelEntry s.mem s.window 3 root S →
      PoolFor s S → phys % 4096 = 0 → 0x7FFF80000000 ≤ phys →
      (∀ p, p % 4096 = 0 → phys ≤ p → p < last → pteOf s.mem (physToHigherHalf p) 3 root = 0) →
      s.protectLoop root last flags fuel phys = some s' →
      ∃ S', PageTree KernelEntry s'.mem s'.window 3 root S' ∧ PoolFor s' S' ∧
        KeepsOthers s s' root phys last := by
  intro fuel
  induction fuel with
  | zero =>
    intro phys s S _ _ _ _ _ he
    exact absurd he nofun
  | succ fuel ih =>
    intro phys s S htree hpool ha hge hfresh he
    rw [Phys.protectLoop] at he
    split at he
    · next hlt =>
      obtain ⟨s₁, hcall, hrest⟩ := bind_eq_some_iff.mp he
      obtain ⟨S₁, htree₁, hpool₁, hkeeps₁⟩ := Phys.mapPage_unmapped htree hpool
        (hfresh phys ha (le_refl _) hlt) hflag (by omega) hcall
      have hnext : u64 (phys + 4096) = phys + 4096 := Word64.u64_of_lt (by omega)
      rw [hnext] at hrest
      -- the pages that come next are not the one that was mapped
      have hfresh₁ : ∀ p, p % 4096 = 0 → phys + 4096 ≤ p → p < last →
          pteOf s₁.mem (physToHigherHalf p) 3 root = 0 := by
        intro p hpa hp hp'
        rw [(hkeeps₁ _ fun heq => ?_).2]
        · exact hfresh p hpa (by omega) hp'
        · have := pageNo_physToHigherHalf (by omega) (by omega) hge (by omega) heq
          omega
      obtain ⟨S', htree', hpool', hkeeps'⟩ := ih htree₁ hpool₁ (by omega) (by omega) hfresh₁ hrest
      refine ⟨S', htree', hpool', fun v hv => ?_⟩
      obtain ⟨hw', hp'⟩ := hkeeps' v fun p hpa hp hp' => hv p hpa (by omega) hp'
      obtain ⟨hw₁, hp₁⟩ := hkeeps₁ v (hv phys ha (le_refl _) hlt)
      exact ⟨hw'.trans hw₁, hp'.trans hp₁⟩
    · obtain rfl := some.inj he
      exact ⟨S, htree, hpool, fun _ _ => ⟨rfl, rfl⟩⟩

/-- The sections, and the flags that they are to have. -/
def KernelImage.jobs (image : KernelImage) : List (Section × ℕ) :=
  [(image.text, textFlags), (image.rodata, roFlags), (image.data, dataFlags), (image.bss, dataFlags)]

/-- `mmu_protect_kernel_sections` as a run over its sections. -/
def Phys.protectAll (root : ℕ) : List (Section × ℕ) → Phys → Option Phys
  | [], s => some s
  | (sec, flags) :: rest, s => (s.protectSection root sec flags).bind (Phys.protectAll root rest)

theorem Phys.protectKernelSections_eq (s : Phys) (root : ℕ) (image : KernelImage) :
    s.protectKernelSections root image = Phys.protectAll root image.jobs s := by
  simp only [Phys.protectKernelSections, KernelImage.jobs, Phys.protectAll, bind_eq_bind]
  refine bind_congr fun s₁ _ => bind_congr fun s₂ _ => bind_congr fun s₃ _ => ?_
  cases s₃.protectSection root image.bss dataFlags with
  | none => rfl
  | some u => rfl

/-- **The run** changes no page outside the entry 255 of the PML4. -/
theorem Phys.protectAll_keeps :
    ∀ {jobs : List (Section × ℕ)} {s : Phys} {S : Set ℕ},
      PageTree KernelEntry s.mem s.window 3 root S → PoolFor s S →
      (∀ job ∈ jobs, job.1.InHigherHalf ∧ job.2.testBit 2 = false) →
      jobs.Pairwise (fun a b => ∀ v, a.1.HasPage v → ¬b.1.HasPage v) →
      (∀ job ∈ jobs, ∀ v, job.1.HasPage v → pteOf s.mem (physToHigherHalf (v - hhdmBase)) 3 root = 0) →
      Phys.protectAll root jobs s = some s' →
      ∀ v, indexAt 3 v ≠ 255 → hwWalk s'.mem v 3 root = hwWalk s.mem v 3 root := by
  intro jobs
  induction jobs with
  | nil =>
    intro s S _ _ _ _ _ he v _
    obtain rfl := some.inj he
    rfl
  | cons job jobs ih =>
    obtain ⟨sec, flags⟩ := job
    intro s S htree hpool hjobs hsep hfresh he v hv
    obtain ⟨s₁, hsec, hrest⟩ := bind_eq_some_iff.mp he
    obtain ⟨hhigh, hflag⟩ : sec.InHigherHalf ∧ flags.testBit 2 = false := hjobs _ mem_cons_self
    obtain ⟨hdown, hup, hfa, hge, hle⟩ := hhigh.range
    obtain ⟨hsep₁, hsep⟩ := pairwise_cons.mp hsep
    have hpage : ∀ p, p % 4096 = 0 → alignDown (virtToPhys sec.start) 4096 ≤ p →
        p < alignUp (virtToPhys sec.stop) 4096 → sec.HasPage (p + hhdmBase) := by
      intro p hpa hp hp'
      refine ⟨?_, by omega, by omega⟩
      unfold hhdmBase
      omega
    obtain ⟨S₁, htree₁, hpool₁, hkeeps⟩ := Phys.protectLoop_keeps hle hflag htree hpool hfa hge
      (fun p hpa hp hp' => by
        have hzero := hfresh _ mem_cons_self _ (hpage p hpa hp hp')
        rwa [Nat.add_sub_cancel] at hzero) hsec
    -- the pages of the other sections are not among those of this one
    have hfresh₁ : ∀ job ∈ jobs, ∀ w, job.1.HasPage w →
        pteOf s₁.mem (physToHigherHalf (w - hhdmBase)) 3 root = 0 := by
      intro job hjob w hw
      obtain ⟨hw₁, hw₂⟩ := (hjobs _ (mem_cons_of_mem _ hjob)).1.page_bounds hw
      have hwa := hw.1
      rw [(hkeeps _ fun p hpa hp hp' heq => ?_).2]
      · exact hfresh _ (mem_cons_of_mem _ hjob) w hw
      · simp only [higherHalfBase] at hw₁ hw₂
        have hbase : hhdmBase = 0xFFFF800000000000 := rfl
        have hnumber := pageNo_physToHigherHalf (by omega) (by omega) (by omega) (by omega) heq
        have hwp : w = p + hhdmBase := by omega
        exact hsep₁ job hjob w (hwp ▸ hpage p hpa hp hp') hw
    rw [ih htree₁ hpool₁ (fun job hjob => hjobs job (mem_cons_of_mem _ hjob)) hsep hfresh₁ hrest v hv]
    refine (hkeeps v fun p hpa hp hp' heq => hv ?_).1
    rw [indexAt_of_pageNo_eq heq le_rfl, index_physToHigherHalf (by omega) (by omega)]

/-! ### The protection -/

/-- Every page of a section has its frame and the rights of the section, and no other page has
changed. -/
structure Protected (s s' : Phys) (root : ℕ) (image : KernelImage) : Prop where
  text : ∀ v, image.text.HasPage v →
    hwWalk s'.mem v 3 root = some ⟨v - higherHalfBase, false, false, false⟩
  rodata : ∀ v, image.rodata.HasPage v →
    hwWalk s'.mem v 3 root = some ⟨v - higherHalfBase, false, false, true⟩
  data : ∀ v, image.data.HasPage v →
    hwWalk s'.mem v 3 root = some ⟨v - higherHalfBase, true, false, true⟩
  bss : ∀ v, image.bss.HasPage v → hwWalk s'.mem v 3 root = some ⟨v - higherHalfBase, true, false, true⟩
  others : ∀ v, (∀ w, image.HasPage w → pageNo v ≠ pageNo w) →
    hwWalk s'.mem v 3 root = hwWalk s.mem v 3 root

namespace BootTables

variable {b : BootLayout} {image : KernelImage}

/-- The pages of the kernel stay as `boot.s` has mapped them. -/
theorem kernel_unchanged (h : BootTables s b) (hhigh : image.InHigherHalf)
    (hsep : image.Separate) (he : s.protectKernelSections b.pml4 image = some s')
    (hv : image.HasPage v) :
    hwWalk s'.mem v 3 b.pml4 = some ⟨v - higherHalfBase, true, false, false⟩ := by
  obtain ⟨sec, hsec, hpage⟩ := hv
  obtain ⟨hv₁, hv₂⟩ := (hhigh sec hsec).page_bounds hpage
  have hflags : textFlags.testBit 2 = false ∧ roFlags.testBit 2 = false ∧
      dataFlags.testBit 2 = false := by decide
  have hjobs : ∀ job ∈ image.jobs, job.1.InHigherHalf ∧ job.2.testBit 2 = false := by
    obtain ⟨htext, hrodata, hdata, hbss⟩ := KernelImage.forall_sections.mp hhigh
    simp [KernelImage.jobs, htext, hrodata, hdata, hbss, hflags]
  rw [Phys.protectKernelSections_eq] at he
  rw [Phys.protectAll_keeps h.tree h.pool hjobs ?_ ?_ he v ?_, h.hwWalk_kernel hv₁ hv₂ hpage.1]
  · have hpairs : (image.jobs.map Prod.fst).Pairwise fun a b => ∀ v, a.HasPage v → ¬b.HasPage v := hsep
    exact pairwise_map.mp hpairs
  · intro job hjob w hw
    obtain ⟨hw₁, hw₂⟩ := (hjobs job hjob).1.page_bounds hw
    refine h.pteOf_lower (index_physToHigherHalf ?_ ?_)
    · simp only [higherHalfBase, hhdmBase] at hw₁ hw₂ ⊢
      omega
    · simp only [higherHalfBase, hhdmBase] at hw₁ hw₂ ⊢
      omega
  · simp only [indexAt, Nat.reduceMul, Nat.reduceAdd, higherHalfBase] at hv₁ hv₂ ⊢
    omega

/-- An image with a page is not protected. -/
theorem not_protected (h : BootTables s b) (hhigh : image.InHigherHalf) (hsep : image.Separate)
    (hv : image.HasPage v) :
    ¬∃ s', s.protectKernelSections b.pml4 image = some s' ∧ Protected s s' b.pml4 image := by
  rintro ⟨s', he, hprotected⟩
  have hwalk := h.kernel_unchanged hhigh hsep he hv
  obtain ⟨sec, hsec, hpage⟩ := hv
  revert sec
  refine KernelImage.forall_sections.mpr ⟨?_, ?_, ?_, ?_⟩ <;> intro hpage
  · simp [hprotected.text v hpage] at hwalk
  · simp [hprotected.rodata v hpage] at hwalk
  · simp [hprotected.data v hpage] at hwalk
  · simp [hprotected.bss v hpage] at hwalk

/-- A section without a page is left alone. -/
theorem protectSection_of_no_page {sec : Section} (hhigh : sec.InHigherHalf)
    (hnone : ∀ v, ¬sec.HasPage v) : s.protectSection root sec flags = some s := by
  obtain ⟨hdown, hup, hfa, hge, hle⟩ := hhigh.range
  have hempty : ¬alignDown (virtToPhys sec.start) 4096 < alignUp (virtToPhys sec.stop) 4096 := by
    intro hlt
    refine hnone (alignDown sec.start 4096) ⟨?_, le_refl _, by omega⟩
    rw [hdown]
    unfold hhdmBase
    omega
  rw [Phys.protectSection, Phys.protectLoop, if_neg hempty]

/-- **The sections are protected** exactly if there is nothing to protect. -/
theorem protects_iff (h : BootTables s b) (hhigh : image.InHigherHalf) (hsep : image.Separate) :
    (∃ s', s.protectKernelSections b.pml4 image = some s' ∧ Protected s s' b.pml4 image) ↔
      ∀ v, ¬image.HasPage v := by
  constructor
  · intro hprotected v hv
    exact h.not_protected hhigh hsep hv hprotected
  · intro hnone
    have hsec : ∀ sec ∈ image.sections, ∀ v, ¬sec.HasPage v := fun sec hsec v hv =>
      hnone v ⟨sec, hsec, hv⟩
    have hleft : ∀ sec ∈ image.sections, ∀ flags, s.protectSection b.pml4 sec flags = some s :=
      fun sec hmem flags => protectSection_of_no_page (hhigh sec hmem) (hsec sec hmem)
    rw [KernelImage.forall_sections] at hsec hleft
    refine ⟨s, ?_, fun v hv => absurd hv (hsec.1 v), fun v hv => absurd hv (hsec.2.1 v),
      fun v hv => absurd hv (hsec.2.2.1 v), fun v hv => absurd hv (hsec.2.2.2 v), fun _ _ => rfl⟩
    simp only [Phys.protectKernelSections, hleft.1, hleft.2.1, hleft.2.2.1, hleft.2.2.2,
      bind_eq_bind, bind_some]

end BootTables

/-! ### A machine that has booted -/

/-- The tables of `boot.s`, one behind the other. -/
def sampleLayout : BootLayout := ⟨0x1000, 0x2000, 0x3000, 0x4000, 0x5000, 0x6000⟩

/-- Memory with these tables and nothing else in it. -/
def bootMem : ByteMem := fun a =>
  UInt8.ofNat (sampleLayout.entry (a / 4096 * 4096) (a % 4096 / 8) / 256 ^ (a % 8))

def bootPhys : Phys := .booting bootMem [0x7000, 0x8000, 0x9000]

theorem entryAt_bootMem {t : ℕ} (ha : t % 4096 = 0) (i : Fin 512) :
    entryAt bootMem t i = sampleLayout.entry t i := by
  have hload : bootMem.load 8 (t + 8 * i.val) = sampleLayout.entry t i % 256 ^ 8 := by
    refine ByteMem.load_of_bytes fun k hk => ?_
    have h₁ : (t + 8 * i.val + k) / 4096 * 4096 = t := by omega
    have h₂ : (t + 8 * i.val + k) % 4096 / 8 = i.val := by omega
    have h₃ : (t + 8 * i.val + k) % 8 = k := by omega
    rw [bootMem, h₁, h₂, h₃]
  have hlt : sampleLayout.entry t i < 256 ^ 8 := by
    have hor : i.val * 2 ^ 21 ||| 0x83 < 256 ^ 8 := by
      rw [bootPage_eq]
      omega
    unfold BootLayout.entry
    split_ifs
    all_goals first | exact hor | decide
  rw [entryAt, hload, mod_eq_of_lt hlt]

theorem bootTables_bootPhys : BootTables bootPhys sampleLayout := by
  refine ⟨by decide, by decide, fun t ht i => ?_, by decide, by decide, by decide⟩
  have ha : t % 4096 = 0 := by
    revert t
    decide
  exact entryAt_bootMem ha i

/-- An image with nothing in it. -/
def emptyImage : KernelImage :=
  ⟨⟨higherHalfBase, higherHalfBase⟩, ⟨higherHalfBase, higherHalfBase⟩,
    ⟨higherHalfBase, higherHalfBase⟩, ⟨higherHalfBase, higherHalfBase⟩⟩

theorem emptyImage_hasPage (v : ℕ) : ∀ sec ∈ emptyImage.sections, ¬sec.HasPage v := by
  have hno : ¬(Section.mk higherHalfBase higherHalfBase).HasPage v := by
    rintro ⟨-, hge, hlt⟩
    exact absurd (lt_of_le_of_lt hge hlt) (by decide)
  exact KernelImage.forall_sections.mpr ⟨hno, hno, hno, hno⟩

/-- Such an image is protected. -/
theorem empty_image_protected :
    BootTables bootPhys sampleLayout ∧
      ∃ s', bootPhys.protectKernelSections 0x1000 emptyImage = some s' ∧
        Protected bootPhys s' 0x1000 emptyImage := by
  have hsec : (Section.mk higherHalfBase higherHalfBase).InHigherHalf :=
    ⟨le_refl _, le_refl _, le_add_right _ _⟩
  have hhigh : emptyImage.InHigherHalf := KernelImage.forall_sections.mpr ⟨hsec, hsec, hsec, hsec⟩
  have hsep : emptyImage.Separate :=
    List.Pairwise.imp_of_mem (fun _ hb _ v _ => emptyImage_hasPage v _ hb)
      (pairwise_of_forall fun _ _ => trivial)
  refine ⟨bootTables_bootPhys, (bootTables_bootPhys.protects_iff hhigh hsep).mpr ?_⟩
  rintro v ⟨sec, hsec, hv⟩
  exact emptyImage_hasPage v sec hsec hv

/-- An image as the linker makes it: 5 pages of code, and a page or two of each kind of data. -/
def sampleImage : KernelImage :=
  ⟨⟨0xFFFFFFFF80200000, 0xFFFFFFFF80204321⟩, ⟨0xFFFFFFFF80205000, 0xFFFFFFFF80206800⟩,
    ⟨0xFFFFFFFF80400000, 0xFFFFFFFF80400200⟩, ⟨0xFFFFFFFF80401000, 0xFFFFFFFF80402000⟩⟩

/-- The code of such an image stays writable, and the image is not protected. -/
theorem sample_image_not_protected :
    BootTables bootPhys sampleLayout ∧ sampleImage.InHigherHalf ∧ sampleImage.Separate ∧
      ¬∃ s', bootPhys.protectKernelSections 0x1000 sampleImage = some s' ∧
        Protected bootPhys s' 0x1000 sampleImage := by
  have hbounds : alignDown 0xFFFFFFFF80200000 4096 = 0xFFFFFFFF80200000 ∧
      alignUp 0xFFFFFFFF80204321 4096 = 0xFFFFFFFF80205000 ∧
      alignDown 0xFFFFFFFF80205000 4096 = 0xFFFFFFFF80205000 ∧
      alignUp 0xFFFFFFFF80206800 4096 = 0xFFFFFFFF80207000 ∧
      alignDown 0xFFFFFFFF80400000 4096 = 0xFFFFFFFF80400000 ∧
      alignUp 0xFFFFFFFF80400200 4096 = 0xFFFFFFFF80401000 ∧
      alignDown 0xFFFFFFFF80401000 4096 = 0xFFFFFFFF80401000 := by decide
  obtain ⟨h₁, h₂, h₃, h₄, h₅, h₆, h₇⟩ := hbounds
  have hhigh : sampleImage.InHigherHalf := by
    refine KernelImage.forall_sections.mpr ⟨?_, ?_, ?_, ?_⟩ <;> exact ⟨by decide, by decide, by decide⟩
  have hsep : sampleImage.Separate := by
    simp only [KernelImage.Separate, KernelImage.sections, sampleImage, pairwise_cons,
      mem_cons, not_mem_nil, or_false, forall_eq_or_imp, forall_eq, Section.HasPage, h₁,
      h₂, h₃, h₄, h₅, h₆, h₇, false_imp_iff, implies_true, List.Pairwise.nil, and_true]
    refine ⟨⟨?_, ?_, ?_⟩, ⟨?_, ?_⟩, ?_⟩ <;>
      · intro v hv hw
        omega
  have hpage : sampleImage.HasPage 0xFFFFFFFF80200000 :=
    ⟨sampleImage.text, by simp [KernelImage.sections], by decide, by decide, by decide⟩
  exact ⟨bootTables_bootPhys, hhigh, hsep, bootTables_bootPhys.not_protected hhigh hsep hpage⟩

end Neptune
