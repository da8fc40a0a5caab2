import Neptune.Lib.Tree
import Neptune.Mmu.Split

/-!
# Page tables as trees, with large pages

The tables that are reached from a PML4 form a tree, of which `S` is the set of the pages they take.
An entry above the page tables is empty, leads to a table, or, in a page directory, maps a page of
2 MiB.  What the processor finds in a tree depends on its tables only.

## Main definitions

* `PageTree` — the tables from one on, down to the page tables.
* `pteSlot` — the entry of a page table that the walk of an address ends with.
* `pteOf` — that entry, as it is when a large page on the way has been split.
* `Calm` — mapping a page adds no right of the user to pages that are mapped already.

## Main results

* `PageTree.hwWalk_congr` — the walk depends on the tables of the tree only.
* `UserTables.pteOf_eq` — the entries of a user address space.
* `PageTree.pteOf_of_hwWalk` — the frame that the walk finds is the one in the entry.
-/

namespace Neptune

open Nat Option
open Word64 (u64 not64)
open Linked (Tree Split Branch)

variable {P : ℕ → ℕ → Prop} {m m' : ByteMem} {top l t t' u e f virt virt' flags : ℕ} {S C R : Set ℕ}

/-! ### Entries -/

/-- An entry that leads to a table, whatever rights it takes. -/
structure Pointer (e : ℕ) : Prop where
  present : e.testBit 0 = true
  small : e.testBit 7 = false
  lt : e < 2 ^ 52

/-- An empty entry. -/
structure Vacant (e : ℕ) : Prop where
  absent : e.testBit 0 = false
  small : e.testBit 7 = false

/-- An entry that maps a page of 2 MiB. -/
structure Huge (e : ℕ) : Prop where
  present : e.testBit 0 = true
  large : e.testBit 7 = true

theorem Pointer.entryFrame (h : Pointer e) : entryFrame e = pageOf e := entryFrame_eq_pageOf h.lt

theorem TableEntry.pointer (h : TableEntry e) : Pointer e := ⟨h.present, h.small, h.lt⟩

theorem Huge.not_small (h : Huge e) (hsmall : e.testBit 7 = false) : False :=
  Bool.false_ne_true (hsmall.symm.trans h.large)

theorem vacant_zero : Vacant 0 := ⟨rfl, rfl⟩

theorem Pointer.or_user (h : Pointer e) :
    Pointer (e ||| pteUser) ∧ pageOf (e ||| pteUser) = pageOf e := by
  obtain ⟨hlt, hpage⟩ := pageOf_or_user h.lt
  exact ⟨⟨by simp only [testBit_or_user, h.present]; rfl, by simp only [testBit_or_user, h.small]; rfl,
    hlt⟩, hpage⟩

theorem newTable_pointer (flags : ℕ) (hf : f % 4096 = 0) (hlt : f < 2 ^ 52) :
    Pointer (newTable f flags) ∧ entryFrame (newTable f flags) = f := by
  obtain ⟨hentry, hpage, -⟩ :
      TableEntry (newTable f flags) ∧ pageOf (newTable f flags) = f ∧ _ := newTable_spec hf hlt
  exact ⟨hentry.pointer, hentry.entryFrame.trans hpage⟩

theorem splitEntry_pointer (hf : f % 4096 = 0) (hlt : f < 2 ^ 52) (hnx : e.testBit 63 = false) :
    Pointer (splitEntry f e) ∧ entryFrame (splitEntry f e) = f := by
  have hflags := splitEntry_flags hnx
  have heq := splitEntry_eq hf hnx
  have hpointer : Pointer (splitEntry f e) := by
    refine ⟨?_, ?_, ?_⟩
    · rw [testBit_splitEntry hf (by decide)]; simp
    · rw [testBit_splitEntry hf (by decide)]; simp
    · rw [heq]; omega
  refine ⟨hpointer, ?_⟩
  rw [hpointer.entryFrame, heq, pageOf_add hf hflags (by omega)]

/-- The entry above the new table takes no right from the pages in it. -/
theorem under_splitEntry (hf : f % 4096 = 0) (hlt : f < 2 ^ 52) (hnx : e.testBit 63 = false) :
    (leafOf 1 e virt).under (splitEntry f e) = leafOf 1 e virt := by
  have hno : (splitEntry f e).testBit 63 = false :=
    testBit_lt_two_pow (lt_of_lt_of_le (splitEntry_pointer hf hlt hnx).1.lt (by decide))
  simp [Translation.under, leafOf, testBit_splitEntry hf, hno]

/-- The index of an address in the table of a level. -/
def slotAt (l virt : ℕ) : Fin 512 := ⟨indexAt l virt, indexAt_lt l virt⟩

theorem slotAt_eq_iff : slotAt l virt' = slotAt l virt ↔ indexAt l virt' = indexAt l virt :=
  Fin.mk.injEq _ _ _ _ ▸ Iff.rfl

/-- The table that an entry leads to. -/
def subTable (m : ByteMem) (t : ℕ) (i : Fin 512) : Option ℕ :=
  if (entryAt m t i).testBit 0 && !(entryAt m t i).testBit 7 then some (entryFrame (entryAt m t i))
  else none

theorem subTable_of_pointer {i : Fin 512} (h : Pointer (entryAt m t i)) :
    subTable m t i = some (entryFrame (entryAt m t i)) := by
  rw [subTable, if_pos (by rw [h.present, h.small]; rfl)]

theorem subTable_of_vacant {i : Fin 512} (h : Vacant (entryAt m t i)) : subTable m t i = none := by
  rw [subTable, if_neg (by rw [h.absent]; exact Bool.false_ne_true)]

theorem subTable_of_zero {i : Fin 512} (h : entryAt m t i = 0) : subTable m t i = none :=
  subTable_of_vacant (by rw [h]; exact vacant_zero)

theorem subTable_of_huge {i : Fin 512} (h : Huge (entryAt m t i)) : subTable m t i = none := by
  rw [subTable, if_neg (by rw [h.large, Bool.not_true, Bool.and_false]; exact Bool.false_ne_true)]

theorem subTable_congr {i : Fin 512} (h : entryAt m' t i = entryAt m t i) :
    subTable m' t i = subTable m t i := by
  rw [subTable, subTable, h]

/-! ### Trees -/

/-- A table in the memory below `top` whose entries are all as `P` says for its level. -/
structure TableOk (P : ℕ → ℕ → Prop) (m : ByteMem) (top l t : ℕ) : Prop where
  aligned : t % 4096 = 0
  inside : t + 4096 ≤ top
  entries : ∀ i : Fin 512, P l (entryAt m t i)

/-- The tables `S` from `t` on. -/
abbrev PageTree (P : ℕ → ℕ → Prop) (m : ByteMem) (top l t : ℕ) (S : Set ℕ) : Prop :=
  Tree (subTable m) (TableOk P m top) l t S

/-- What `P` has to say of the entries above the page tables: they are empty, lead to a table, or
in a page directory map a large page, and what `ensure_table` writes is among them. -/
structure Admits (P : ℕ → ℕ → Prop) : Prop where
  cases : ∀ {l e}, P (l + 1) e → Vacant e ∨ Pointer e ∨ (l = 0 ∧ Huge e)
  zero : ∀ l, P l 0
  user : ∀ {l e}, P (l + 1) e → Pointer e → P (l + 1) (e ||| pteUser)
  new : ∀ {l f} (flags : ℕ), f % 4096 = 0 → f < 2 ^ 52 → P (l + 1) (newTable f flags)
  split : ∀ {e f}, e < 2 ^ 64 → P 1 e → Huge e → e.testBit 63 = false → f % 4096 = 0 →
    f < 2 ^ 52 → P 1 (splitEntry f e) ∧ ∀ i < 512, P 0 (splitPte e i)

theorem TableOk.congr (h : TableOk P m top l t)
    (hsame : ∀ i : Fin 512, entryAt m' t i = entryAt m t i) : TableOk P m' top l t :=
  ⟨h.aligned, h.inside, fun i => hsame i ▸ h.entries i⟩

/-- The conditions of `Tree.congr` for tables with the same entries. -/
theorem same_tables (hsame : ∀ u ∈ S, ∀ i : Fin 512, entryAt m' u i = entryAt m u i) :
    ∀ u ∈ S, (∀ i, subTable m' u i = subTable m u i) ∧
      ∀ k, TableOk P m top k u → TableOk P m' top k u :=
  fun u hu => ⟨fun i => subTable_congr (hsame u hu i), fun _ hok => hok.congr (hsame u hu)⟩

theorem PageTree.congr (h : PageTree P m top l t S)
    (hsame : ∀ u ∈ S, ∀ i : Fin 512, entryAt m' u i = entryAt m u i) : PageTree P m' top l t S :=
  Tree.congr h (same_tables hsame)

theorem PageTree.mono {P' : ℕ → ℕ → Prop} (hP : ∀ l e, P l e → P' l e)
    (h : PageTree P m top l t S) : PageTree P' m top l t S :=
  Tree.congr h fun _ _ => ⟨fun _ => rfl, fun k hok =>
    ⟨hok.aligned, hok.inside, fun i => hP k _ (hok.entries i)⟩⟩

/-- The entry of an address and the tree below it. -/
theorem PageTree.way (hP : Admits P) (h : PageTree P m top (l + 1) t S) (virt : ℕ) :
    Vacant (entryAt m t (indexAt (l + 1) virt)) ∨ (Pointer (entryAt m t (indexAt (l + 1) virt)) ∧
        ∃ C, PageTree P m top l (entryFrame (entryAt m t (indexAt (l + 1) virt))) C) ∨
      (l = 0 ∧ Huge (entryAt m t (indexAt (l + 1) virt))) := by
  refine (hP.cases (h.root_ok.entries (slotAt (l + 1) virt))).imp_right
    (Or.imp_left fun hpointer => ⟨hpointer, ?_⟩)
  obtain ⟨C, R, hsplit⟩ := h.split (slotAt (l + 1) virt)
  exact ⟨C, hsplit.branch.of_some (subTable_of_pointer hpointer)⟩

/-- Every table of a tree lies on a page of its own. -/
theorem PageTree.aligned (h : PageTree P m top l t S) : ∀ u ∈ S, u % 4096 = 0 := by
  induction l generalizing t S with
  | zero =>
    obtain ⟨hok, rfl⟩ := h
    rintro u rfl
    exact hok.aligned
  | succ l ih =>
    obtain ⟨hok, C, rfl, -, -, hsub⟩ := h
    intro u hu
    rcases Set.mem_insert_iff.mp hu with rfl | hu
    · exact hok.aligned
    · obtain ⟨i, hu⟩ := Set.mem_iUnion.mp hu
      have hi := hsub i
      cases hnext : subTable m t i with
      | none =>
        rw [hnext] at hi
        rw [hi] at hu
        exact absurd hu (Set.notMem_empty u)
      | some v =>
        rw [hnext] at hi
        exact ih hi u hu

/-! ### The walk in a tree -/

theorem hwWalk_of_some (h : subTable m t (slotAt (l + 1) virt) = some u) :
    hwWalk m virt (l + 1) t =
      (hwWalk m virt l u).map (·.under (entryAt m t (indexAt (l + 1) virt))) := by
  rw [subTable] at h
  split at h
  · next hentry =>
    obtain ⟨h0, h7⟩ := Bool.and_eq_true_iff.mp hentry
    obtain rfl := some.inj h
    have h0 : (entryAt m t (indexAt (l + 1) virt)).testBit 0 = true := h0
    have h7 : (entryAt m t (indexAt (l + 1) virt)).testBit 7 = false := by
      rwa [Bool.not_eq_true'] at h7
    simp [hwWalk, slotAt, h0, h7]
  · cases h

theorem hwWalk_of_pointer (h : Pointer (entryAt m t (indexAt (l + 1) virt))) :
    hwWalk m virt (l + 1) t = (hwWalk m virt l (entryFrame (entryAt m t (indexAt (l + 1) virt)))).map
        (·.under (entryAt m t (indexAt (l + 1) virt))) :=
  hwWalk_of_some (subTable_of_pointer h)

theorem hwWalk_of_vacant (h : Vacant (entryAt m t (indexAt (l + 1) virt))) :
    hwWalk m virt (l + 1) t = none := by
  simp [hwWalk, h.absent]

theorem hwWalk_of_huge (h : Huge (entryAt m t (indexAt 1 virt))) :
    hwWalk m virt 1 t = some (leafOf 1 (entryAt m t (indexAt 1 virt)) virt) := by
  simp [hwWalk, h.present, h.large]

/-- Below one entry the walk depends on the entry and the tables of the subtree. -/
theorem hwWalk_succ_congr (hP : Admits P) (hok : TableOk P m top (l + 1) t)
    (hentry : entryAt m' t (indexAt (l + 1) virt) = entryAt m t (indexAt (l + 1) virt))
    (hsub : ∀ u, subTable m t (slotAt (l + 1) virt) = some u → hwWalk m' virt l u = hwWalk m virt l u) :
    hwWalk m' virt (l + 1) t = hwWalk m virt (l + 1) t := by
  rcases hP.cases (hok.entries (slotAt (l + 1) virt)) with hvacant | hpointer | ⟨hl, hhuge⟩
  · rw [hwWalk_of_vacant hvacant, hwWalk_of_vacant (by rw [hentry]; exact hvacant)]
  · rw [hwWalk_of_pointer hpointer, hwWalk_of_pointer (by rw [hentry]; exact hpointer), hentry]
    exact congrArg _ (hsub _ (subTable_of_pointer hpointer))
  · subst hl
    rw [hwWalk_of_huge hhuge, hwWalk_of_huge (by rw [hentry]; exact hhuge), hentry]

/-- **What depends on the entries of a table and on the tables below** depends on the tables of the
tree only. -/
theorem PageTree.congr_of_step {α : Type*} {F : ByteMem → ℕ → ℕ → α}
    (hzero : ∀ t, (∀ i : Fin 512, entryAt m' t i = entryAt m t i) → F m' 0 t = F m 0 t)
    (hsucc : ∀ l t, TableOk P m top (l + 1) t → (∀ i : Fin 512, entryAt m' t i = entryAt m t i) →
      (∀ i u, subTable m t i = some u → F m' l u = F m l u) → F m' (l + 1) t = F m (l + 1) t)
    (h : PageTree P m top l t S) (hsame : ∀ u ∈ S, ∀ i : Fin 512, entryAt m' u i = entryAt m u i) :
    F m' l t = F m l t := by
  induction l generalizing t S with
  | zero => exact hzero t (hsame t h.root_mem)
  | succ l ih =>
    refine hsucc l t h.root_ok (hsame t h.root_mem) fun i u hu => ?_
    obtain ⟨C, R, hsplit⟩ := h.split i
    exact ih (hsplit.branch.of_some hu) fun v hv => hsame v (hsplit.mem_branch hv)

/-- **The walk depends on the tables of the tree only.** -/
theorem PageTree.hwWalk_congr (hP : Admits P) (h : PageTree P m top l t S)
    (hsame : ∀ u ∈ S, ∀ i : Fin 512, entryAt m' u i = entryAt m u i) (virt : ℕ) :
    hwWalk m' virt l t = hwWalk m virt l t := by
  refine PageTree.congr_of_step (F := fun m => hwWalk m virt) (fun t ht => ?_)
    (fun l t hok ht hsub => hwWalk_succ_congr hP hok (ht (slotAt _ virt)) (hsub _)) h hsame
  have hentry : entryAt m' t (indexAt 0 virt) = entryAt m t (indexAt 0 virt) := ht (slotAt 0 virt)
  simp only [hwWalk, hentry]

/-! ### The way of one address -/

/-- The entry of a page table that the walk of an address ends with: the table and the index. -/
def pteSlot (m : ByteMem) (virt : ℕ) : ℕ → ℕ → Option (ℕ × ℕ)
  | 0, t => some (t, indexAt 0 virt)
  | l + 1, t => (subTable m t (slotAt (l + 1) virt)).bind (pteSlot m virt l)

/-- The entry of the page of an address in its page table.  A large page counts as if it had been
split, and a page without tables has an empty entry. -/
def pteOf (m : ByteMem) (virt : ℕ) : ℕ → ℕ → ℕ
  | 0, t => entryAt m t (indexAt 0 virt)
  | l + 1, t =>
    match subTable m t (slotAt (l + 1) virt) with
    | some u => pteOf m virt l u
    | none =>
      if (entryAt m t (indexAt (l + 1) virt)).testBit 0 then
        splitPte (entryAt m t (indexAt (l + 1) virt)) (indexAt 0 virt)
      else 0

theorem pteOf_of_some (h : subTable m t (slotAt (l + 1) virt) = some u) :
    pteOf m virt (l + 1) t = pteOf m virt l u := by
  rw [pteOf, h]

theorem pteOf_of_pointer (h : Pointer (entryAt m t (indexAt (l + 1) virt))) :
    pteOf m virt (l + 1) t = pteOf m virt l (entryFrame (entryAt m t (indexAt (l + 1) virt))) :=
  pteOf_of_some (subTable_of_pointer h)

theorem pteOf_of_vacant (h : Vacant (entryAt m t (indexAt (l + 1) virt))) :
    pteOf m virt (l + 1) t = 0 := by
  have hnone : subTable m t (slotAt (l + 1) virt) = none := subTable_of_vacant h
  rw [pteOf, hnone]
  exact if_neg (by rw [h.absent]; exact Bool.false_ne_true)

theorem pteOf_of_huge (h : Huge (entryAt m t (indexAt (l + 1) virt))) :
    pteOf m virt (l + 1) t = splitPte (entryAt m t (indexAt (l + 1) virt)) (indexAt 0 virt) := by
  have hnone : subTable m t (slotAt (l + 1) virt) = none := subTable_of_huge h
  rw [pteOf, hnone]
  exact if_pos h.present

/-- In the lower half of a user address space it is the entry of the page. -/
theorem UserTables.pteOf_eq {root page off : ℕ} (h : UserTables m root top) (hp : Lower 4 page)
    (hoff : off < 4096) (hl : l ≤ 3) (ht : tableAt m root (3 - l) (above page (3 - l)) = some t) :
    pteOf m (page * 4096 + off) l t = leafAt m root page := by
  induction l generalizing t with
  | zero =>
    have hlast : above page 4 = page := Nat.div_one page
    rw [pteOf, indexAt_eq hoff (by decide), leafAt, ht, hlast]
  | succ l ih =>
    have hindex : indexAt (l + 1) (page * 4096 + off) = above page (3 - (l + 1) + 1) % 512 := by
      rw [indexAt_eq hoff (by omega)]
      congr 2
      omega
    have hnext : 3 - (l + 1) + 1 = 3 - l := by omega
    rcases h.next hp (by omega) ht rfl with ⟨hzero, hnone⟩ | ⟨hentry, hsome⟩
    · rw [pteOf_of_vacant (by rw [hindex, hzero]; exact vacant_zero), leafAt,
        tableAt_eq_none 3 hnone (by omega) (by decide)]
    · rw [← hindex] at hentry hsome
      rw [pteOf_of_pointer hentry.pointer]
      exact ih (by omega) (hnext ▸ hsome)

theorem pteOf_lt (m : ByteMem) (virt l t : ℕ) : pteOf m virt l t < 2 ^ 64 := by
  induction l generalizing t with
  | zero => exact entryAt_lt m t _
  | succ l ih =>
    rw [pteOf]
    cases subTable m t (slotAt (l + 1) virt) with
    | some u => exact ih u
    | none =>
      dsimp only
      split
      · exact splitPte_lt (entryAt_lt m t _)
      · exact Nat.two_pow_pos 64

theorem PageTree.pteOf_congr (h : PageTree P m top l t S)
    (hsame : ∀ u ∈ S, ∀ i : Fin 512, entryAt m' u i = entryAt m u i) :
    pteOf m' virt l t = pteOf m virt l t := by
  refine PageTree.congr_of_step (F := fun m => pteOf m virt) (fun t ht => ht (slotAt 0 virt))
    (fun l t _ ht hsub => ?_) h hsame
  have hentry : entryAt m' t (indexAt (l + 1) virt) = entryAt m t (indexAt (l + 1) virt) :=
    ht (slotAt (l + 1) virt)
  rw [pteOf, pteOf, subTable_congr (ht _), hentry]
  cases hu : subTable m t (slotAt (l + 1) virt) with
  | none => rfl
  | some u => exact hsub _ u hu

theorem Pointer.noExec (h : Pointer e) : e.testBit 63 = false :=
  testBit_lt_two_pow (lt_of_lt_of_le h.lt (by decide))

/-- What the walk finds is what the entry says, but for the rights that entries above it take. -/
theorem PageTree.pteOf_of_hwWalk (hP : Admits P) (h : PageTree P m top l t S) {tr : Translation}
    (hw : hwWalk m virt l t = some tr) :
    (pteOf m virt l t).testBit 0 = true ∧ entryFrame (pteOf m virt l t) = tr.frame ∧
      (pteOf m virt l t).testBit 63 = tr.noExec ∧
      (tr.user = true → (pteOf m virt l t).testBit 2 = true) := by
  induction l generalizing t S tr with
  | zero =>
    rw [hwWalk, has_present] at hw
    split at hw
    · next hpresent =>
      obtain rfl := some.inj hw
      refine ⟨hpresent, leafOf_zero_frame.symm, ?_, fun huser => ?_⟩
      · exact (has_nx _).symm
      · exact (has_user _).symm.trans huser
    · cases hw
  | succ l ih =>
    rcases PageTree.way hP h virt with hvacant | ⟨hpointer, C, htree⟩ | ⟨hl, hhuge⟩
    · rw [hwWalk_of_vacant hvacant] at hw
      cases hw
    · rw [hwWalk_of_pointer hpointer] at hw
      obtain ⟨tr₀, hw₀, rfl⟩ := map_eq_some_iff.mp hw
      obtain ⟨hpresent, hframe, hnx, huser⟩ := ih htree hw₀
      rw [pteOf_of_pointer hpointer]
      refine ⟨hpresent, hframe, ?_, fun hu => huser ?_⟩
      · rw [Translation.under, has_nx, hpointer.noExec, Bool.or_false]
        exact hnx
      · rw [Translation.under] at hu
        exact (Bool.and_eq_true_iff.mp hu).1
    · subst hl
      have he := entryAt_lt m t (indexAt 1 virt)
      rw [hwWalk_of_huge hhuge] at hw
      obtain rfl := some.inj hw
      rw [pteOf_of_huge hhuge, ← leafOf_splitPte he]
      refine ⟨?_, leafOf_zero_frame.symm, (has_nx _).symm, fun hu => (has_user _).symm.trans hu⟩
      rw [testBit_splitPte_low he (indexAt_lt 0 virt) (by decide), testBit_keptFlags, hhuge.present]
      rfl

/-- The number of tables that are missing for the page of an address. -/
def missing (m : ByteMem) (virt : ℕ) : ℕ → ℕ → ℕ
  | 0, _ => 0
  | l + 1, t =>
    match subTable m t (slotAt (l + 1) virt) with
    | some u => missing m virt l u
    | none => l + 1

theorem missing_of_some (h : subTable m t (slotAt (l + 1) virt) = some u) :
    missing m virt (l + 1) t = missing m virt l u := by
  rw [missing, h]

theorem missing_of_none (h : subTable m t (slotAt (l + 1) virt) = none) :
    missing m virt (l + 1) t = l + 1 := by
  rw [missing, h]

theorem missing_le (m : ByteMem) (virt l t : ℕ) : missing m virt l t ≤ l := by
  induction l generalizing t with
  | zero => exact le_refl 0
  | succ l ih =>
    cases hu : subTable m t (slotAt (l + 1) virt) with
    | none => rw [missing_of_none hu]
    | some u =>
      rw [missing_of_some hu]
      exact le_succ_of_le (ih u)

theorem PageTree.missing_congr (h : PageTree P m top l t S)
    (hsame : ∀ u ∈ S, ∀ i : Fin 512, entryAt m' u i = entryAt m u i) :
    missing m' virt l t = missing m virt l t := by
  refine PageTree.congr_of_step (F := fun m => missing m virt) (fun _ _ => rfl)
    (fun l t _ ht hsub => ?_) h hsame
  rw [missing, missing, subTable_congr (ht _)]
  cases hu : subTable m t (slotAt (l + 1) virt) with
  | none => rfl
  | some u => exact hsub _ u hu

theorem pteOf_of_pteSlot {i : ℕ} (h : pteSlot m virt l t = some (u, i)) :
    pteOf m virt l t = entryAt m u i := by
  induction l generalizing t with
  | zero =>
    obtain ⟨rfl, rfl⟩ := Prod.mk.inj (some.inj h)
    rfl
  | succ l ih =>
    obtain ⟨v, hv, hrest⟩ := bind_eq_some_iff.mp h
    rw [pteOf_of_some hv]
    exact ih hrest

/-- The entry of a page depends on the indices of its address only. -/
theorem pteOf_congr_index (h : ∀ k, k ≤ l → indexAt k virt' = indexAt k virt) :
    pteOf m virt' l t = pteOf m virt l t := by
  have h0 := h 0 (zero_le l)
  induction l generalizing t with
  | zero => rw [pteOf, pteOf, h0]
  | succ l ih =>
    have hl := h (l + 1) (le_refl _)
    rw [pteOf, pteOf, slotAt_eq_iff.mpr hl, hl, h0]
    cases subTable m t (slotAt (l + 1) virt) with
    | none => rfl
    | some u => exact ih fun k hk => h k (le_succ_of_le hk)

/-- Only the page table of a large page is missing for a page that is mapped. -/
theorem PageTree.missing_of_hwWalk (hP : Admits P) (h : PageTree P m top l t S) {tr : Translation}
    (hw : hwWalk m virt l t = some tr) :
    missing m virt l t = 0 ∨ missing m virt l t = 1 ∧ ∃ e, P 1 e ∧ Huge e := by
  induction l generalizing t S tr with
  | zero => exact Or.inl rfl
  | succ l ih =>
    rcases PageTree.way hP h virt with hvacant | ⟨hpointer, C, htree⟩ | ⟨rfl, hhuge⟩
    · rw [hwWalk_of_vacant hvacant] at hw
      cases hw
    · rw [hwWalk_of_pointer hpointer] at hw
      obtain ⟨tr₀, hw₀, -⟩ := map_eq_some_iff.mp hw
      rw [missing_of_some (subTable_of_pointer hpointer)]
      exact ih htree hw₀
    · exact Or.inr ⟨missing_of_none (subTable_of_huge hhuge), _, h.root_ok.entries (slotAt 1 virt), hhuge⟩

/-- The walk of a page ends with its slot. -/
theorem hwWalk_of_pteSlot {i : ℕ} (hslot : pteSlot m virt l t = some (u, i))
    (hpresent : (entryAt m u i).testBit 0 = true) :
    ∃ tr, hwWalk m virt l t = some tr ∧ tr.frame = entryFrame (entryAt m u i) := by
  induction l generalizing t with
  | zero =>
    obtain ⟨rfl, rfl⟩ := Prod.mk.inj (some.inj hslot)
    refine ⟨leafOf 0 (entryAt m t (indexAt 0 virt)) virt, ?_, leafOf_zero_frame⟩
    rw [hwWalk, has_present, if_pos hpresent]
  | succ l ih =>
    obtain ⟨v, hv, hrest⟩ := bind_eq_some_iff.mp hslot
    obtain ⟨tr, htr, hframe⟩ := ih hrest
    rw [hwWalk_of_some hv, htr]
    exact ⟨tr.under (entryAt m t (indexAt (l + 1) virt)), rfl, hframe⟩

/-- Mapping the page of an address with `flags` gives no right of the user to other pages: an entry
on the way that lacks it stands above no page with that right.  A large page on the way is not
no-execute. -/
def Calm (m : ByteMem) (virt flags : ℕ) : ℕ → ℕ → Prop
  | 0, _ => True
  | l + 1, t =>
    (Huge (entryAt m t (indexAt (l + 1) virt)) →
      (entryAt m t (indexAt (l + 1) virt)).testBit 63 = false) ∧
    ∀ u, subTable m t (slotAt (l + 1) virt) = some u →
      (flags.testBit 2 = true → (entryAt m t (indexAt (l + 1) virt)).testBit 2 = true ∨
        ∀ virt' tr, hwWalk m virt' l u = some tr → tr.user = false) ∧
      Calm m virt flags l u

/-- The first step of `Calm`. -/
structure CalmStep (m : ByteMem) (virt flags l t : ℕ) : Prop where
  huge : Huge (entryAt m t (indexAt (l + 1) virt)) →
    (entryAt m t (indexAt (l + 1) virt)).testBit 63 = false
  user : ∀ u, subTable m t (slotAt (l + 1) virt) = some u → flags.testBit 2 = true →
    (entryAt m t (indexAt (l + 1) virt)).testBit 2 = true ∨
      ∀ virt' tr, hwWalk m virt' l u = some tr → tr.user = false

theorem Calm.step (h : Calm m virt flags (l + 1) t) : CalmStep m virt flags l t :=
  ⟨h.1, fun u hu => (h.2 u hu).1⟩

theorem PageTree.calm_congr (hP : Admits P) (h : PageTree P m top l t S)
    (hsame : ∀ u ∈ S, ∀ i : Fin 512, entryAt m' u i = entryAt m u i)
    (hc : Calm m virt flags l t) : Calm m' virt flags l t := by
  induction l generalizing t S with
  | zero => trivial
  | succ l ih =>
    obtain ⟨C, R, hsplit⟩ := h.split (slotAt (l + 1) virt)
    have hentry : entryAt m' t (indexAt (l + 1) virt) = entryAt m t (indexAt (l + 1) virt) :=
      hsame t h.root_mem (slotAt (l + 1) virt)
    have hchild : ∀ v ∈ C, ∀ i : Fin 512, entryAt m' v i = entryAt m v i := fun v hv =>
      hsame v (hsplit.mem_branch hv)
    refine ⟨fun hhuge => ?_, fun u hu => ?_⟩
    · rw [hentry] at hhuge ⊢
      exact hc.1 hhuge
    · rw [subTable_congr (hsame t h.root_mem (slotAt (l + 1) virt))] at hu
      have htree := hsplit.branch.of_some hu
      obtain ⟨huser, hrest⟩ := hc.2 u hu
      refine ⟨fun hflag => ?_, ih htree hchild hrest⟩
      rw [hentry]
      refine (huser hflag).imp_right fun hnone virt' tr htr => hnone virt' tr ?_
      rwa [PageTree.hwWalk_congr hP htree hchild] at htr

theorem calm_of_vacant (h : Vacant (entryAt m t (indexAt (l + 1) virt))) :
    Calm m virt flags (l + 1) t := by
  refine ⟨fun hhuge => (hhuge.not_small h.small).elim, fun u hu => ?_⟩
  have hnone : subTable m t (slotAt (l + 1) virt) = none := subTable_of_vacant h
  rw [hnone] at hu
  cases hu

/-- Without the right of the user, only a no-execute large page is in the way. -/
theorem PageTree.calm_of_supervisor (hP : Admits P) (h : PageTree P m top l t S)
    (hflag : flags.testBit 2 = false) (hnx : (pteOf m virt l t).testBit 63 = false) :
    Calm m virt flags l t := by
  have hno : ∀ {p : Prop}, flags.testBit 2 = true → p := fun hu =>
    absurd (hflag.symm.trans hu) Bool.false_ne_true
  induction l generalizing t S with
  | zero => trivial
  | succ l ih =>
    rcases hP.cases (h.root_ok.entries (slotAt (l + 1) virt)) with hvacant | hpointer | ⟨-, hhuge⟩
    · exact calm_of_vacant hvacant
    · obtain ⟨C, R, hsplit⟩ := h.split (slotAt (l + 1) virt)
      refine ⟨fun hhuge => (hhuge.not_small hpointer.small).elim,
        fun u hu => ⟨hno, ih (hsplit.branch.of_some hu) ?_⟩⟩
      rwa [pteOf_of_some hu] at hnx
    · rw [pteOf_of_huge hhuge, testBit_splitPte_nx (entryAt_lt m t _) (indexAt_lt 0 virt)] at hnx
      refine ⟨fun _ => hnx, fun u hu => ?_⟩
      rw [subTable_of_huge hhuge] at hu
      cases hu

/-! ### An empty table -/

section

variable (hzero : ∀ i : Fin 512, entryAt m t i = 0)

include hzero

theorem vacant_of_zero (l virt : ℕ) : Vacant (entryAt m t (indexAt l virt)) := by
  have hentry : entryAt m t (indexAt l virt) = 0 := hzero (slotAt l virt)
  rw [hentry]
  exact vacant_zero

theorem PageTree.of_zero (hP : Admits P) (ha : t % 4096 = 0) (hin : t + 4096 ≤ top) :
    PageTree P m top l t {t} := by
  refine Linked.tree_singleton ⟨ha, hin, fun i => ?_⟩ fun _ i => subTable_of_zero (hzero i)
  rw [hzero i]
  exact hP.zero l

theorem hwWalk_of_zero : hwWalk m virt l t = none := by
  cases l with
  | zero =>
    rw [hwWalk, has_present, (vacant_of_zero hzero 0 virt).absent]
    rfl
  | succ l => exact hwWalk_of_vacant (vacant_of_zero hzero (l + 1) virt)

theorem pteOf_of_zero : pteOf m virt l t = 0 := by
  cases l with
  | zero => exact hzero (slotAt 0 virt)
  | succ l => exact pteOf_of_vacant (vacant_of_zero hzero (l + 1) virt)

theorem calm_of_zero : Calm m virt flags l t := by
  cases l with
  | zero => trivial
  | succ l => exact calm_of_vacant (vacant_of_zero hzero (l + 1) virt)

end

/-- The right of the user in an entry means nothing to a page without it. -/
theorem under_or_user {tr : Translation} (h : tr.user = false) :
    tr.under (e ||| pteUser) = tr.under e := by
  have hbit := testBit_or_user e
  simp [Translation.under, hbit, h]

end Neptune
