import Neptune.Lib.Radix
import Neptune.Mmu.Entry

/-!
# The tables of a user address space

The lower half of a user address space is a radix table of depth four.  Its entries
above the page tables lead to one table each and take no right but that of the user,
and no table is reached in two ways, so that a walk comes to what the entry of the
page says (`hwWalk_eq`).

## Main definitions

* `tableAt`, `leafAt` — the table at a position, and the entry of a page.
* `UserTables` — what holds of the tables of a user address space.

## Main results

* `UserTables.hwWalk_eq` — the walk of the processor.
-/

namespace Neptune

open ByteMem

open Word64 (u64 not64)

variable {m m' : ByteMem} {root top e t t' i i' : ℕ}

/-! ### Entries in memory -/

theorem entryAt_lt (m : ByteMem) (t i : ℕ) : entryAt m t i < 2 ^ 64 := m.load_lt 8 _

theorem entryAt_setEntry_self (he : e < 2 ^ 64) : entryAt (setEntry m t i e) t i = e := by
  rw [entryAt, setEntry, load_store_self]
  exact Nat.mod_eq_of_lt he

theorem entryAt_setEntry_of_ne (ht : t % 4096 = 0) (ht' : t' % 4096 = 0) (hi : i < 512)
    (hi' : i' < 512) (hne : ¬(t' = t ∧ i' = i)) :
    entryAt (setEntry m t i e) t' i' = entryAt m t' i' := by
  refine load_store_of_disjoint m ?_
  by_cases htt : t' = t
  · have hii : i' ≠ i := fun hii => hne ⟨htt, hii⟩
    omega
  · omega

theorem entryAt_fill_self (hi : i < 512) : entryAt (m.fill 4096 t 0) t i = 0 := by
  have hload : (m.fill 4096 t 0).load 8 (t + 8 * i) = 0 % 256 ^ 8 :=
    load_of_bytes fun k hk => by
      rw [Nat.zero_div]
      exact if_pos ⟨by omega, by omega⟩
  exact hload

theorem entryAt_fill_of_ne (ht : t % 4096 = 0) (ht' : t' % 4096 = 0) (hi' : i' < 512)
    (hne : t' ≠ t) : entryAt (m.fill 4096 t 0) t' i' = entryAt m t' i' :=
  load_fill_of_disjoint m (by omega)

/-! ### The windows -/

theorem windowAddr_eq {base size phys off n : ℕ} (hn : 0 < n) (hb : base + size ≤ 2 ^ 64) :
    windowAddr base size phys off n =
      if u64 (phys + off) + n ≤ size then some (u64 (phys + off)) else none := by
  have hiff : (base ≤ u64 (u64 (phys + base) + off) ∧
      u64 (u64 (phys + base) + off) + n ≤ base + size) ↔ u64 (phys + off) + n ≤ size := by
    unfold u64
    omega
  by_cases h : u64 (phys + off) + n ≤ size
  · have haddr : u64 (u64 (phys + base) + off) - base = u64 (phys + off) := by
      unfold u64 at h ⊢
      omega
    rw [windowAddr, if_pos (hiff.mpr h), if_pos h, haddr]
  · rw [windowAddr, if_neg (mt hiff.mp h), if_neg h]

namespace Phys

variable {s s' : Phys}

theorem readTable_eq (ht : t < 2 ^ 64) (ha : t % 4096 = 0) (hi : i < 512) :
    s.readTable t i = if t + 8 * i + 8 ≤ s.window then some (entryAt s.mem t i) else none := by
  have hmod : u64 (t + 8 * i) = t + 8 * i := Word64.u64_of_lt (by omega)
  rw [readTable, windowAddr_eq (by decide) s.window_le, hmod]
  split <;> rfl

theorem writeTable_eq (ht : t < 2 ^ 64) (ha : t % 4096 = 0) (hi : i < 512) :
    s.writeTable t i e =
      if t + 8 * i + 8 ≤ s.window then some { s with mem := setEntry s.mem t i e } else none := by
  have hmod : u64 (t + 8 * i) = t + 8 * i := Word64.u64_of_lt (by omega)
  rw [writeTable, windowAddr_eq (by decide) s.window_le, hmod]
  split <;> rfl

/-- A table in the window can be read and written. -/
theorem readTable_of_inside (ha : t % 4096 = 0) (ht : t + 4096 ≤ s.window) (hi : i < 512) :
    s.readTable t i = some (entryAt s.mem t i) := by
  have hle := s.window_le
  rw [readTable_eq (by omega) ha hi, if_pos (by omega)]

theorem writeTable_of_inside (ha : t % 4096 = 0) (ht : t + 4096 ≤ s.window) (hi : i < 512) :
    s.writeTable t i e = some { s with mem := setEntry s.mem t i e } := by
  have hle := s.window_le
  rw [writeTable_eq (by omega) ha hi, if_pos (by omega)]

theorem zeroPage_eq (ht : t < 2 ^ 64) :
    s.zeroPage t =
      if t + 4096 ≤ s.window then some { s with mem := s.mem.fill 4096 t 0 } else none := by
  have hmod : u64 (t + 0) = t := Word64.u64_of_lt ht
  rw [zeroPage, windowAddr_eq (by decide) s.window_le, hmod]
  split <;> rfl

theorem readHhdm_eq (ht : t < 2 ^ 64) (ha : t % 4096 = 0) (hi : i < 512) :
    s.readHhdm t i = if t + 8 * i + 8 ≤ s.hhdm then some (entryAt s.mem t i) else none := by
  have hmod : u64 (t + 8 * i) = t + 8 * i := Word64.u64_of_lt (by omega)
  rw [readHhdm, windowAddr_eq (by decide) s.hhdm_le, hmod]
  split <;> rfl

end Phys

/-! ### The radix table -/

/-- The table that an entry leads to. -/
def nextTable (m : ByteMem) (t i : ℕ) : Option ℕ :=
  if (entryAt m t i).testBit 0 then some (entryFrame (entryAt m t i)) else none

/-- The table at a position: at depth 0 the PML4, at depth 3 the page tables. -/
def tableAt (m : ByteMem) (root : ℕ) : ℕ → ℕ → Option ℕ := nodeAt (nextTable m) 512 root

/-- The positions of the lower half. -/
def Lower (d x : ℕ) : Prop := 2 * x < 512 ^ d

theorem lower_root : Lower 0 0 := by
  unfold Lower
  decide

theorem Lower.parent (d x : ℕ) (h : Lower (d + 1) x) : Lower d (x / 512) := by
  unfold Lower at h ⊢
  rw [Nat.pow_succ] at h
  omega

/-- The position at depth `d` above a page. -/
def above (page d : ℕ) : ℕ := page / 512 ^ (4 - d)

theorem above_succ {page d : ℕ} (hd : d < 4) : above page (d + 1) / 512 = above page d := by
  rw [above, above, Nat.div_div_eq_div_mul, ← Nat.pow_succ]
  congr 2
  omega

theorem lower_above {page d : ℕ} (h : Lower 4 page) (hd : d ≤ 4) : Lower d (above page d) := by
  induction hk : 4 - d generalizing d with
  | zero =>
    obtain rfl : d = 4 := by omega
    rw [above, Nat.sub_self, Nat.pow_zero, Nat.div_one]
    exact h
  | succ k ih =>
    rw [← above_succ (by omega)]
    exact Lower.parent d _ (ih (by omega) (by omega))

/-- The entry of a page, 0 if it has no page table. -/
def leafAt (m : ByteMem) (root page : ℕ) : ℕ :=
  match tableAt m root 3 (above page 3) with
  | some pt => entryAt m pt (page % 512)
  | none => 0

/-- Every entry on the way to a page has the right of the user. -/
def UserPath (m : ByteMem) (root page : ℕ) : Prop :=
  ∀ d t, d < 3 → tableAt m root d (above page d) = some t →
    (entryAt m t (above page (d + 1) % 512)).testBit 2 = true

/-- The tables of the lower half of a user address space, in the memory below `top`. -/
structure UserTables (m : ByteMem) (root top : ℕ) : Prop where
  unshared : Unshared (nextTable m) 512 root 3 Lower
  inside : ∀ {d x t}, d ≤ 3 → Lower d x → tableAt m root d x = some t →
    t % 4096 = 0 ∧ t + 4096 ≤ top
  entry : ∀ {d x t}, d < 3 → Lower (d + 1) x → tableAt m root d (x / 512) = some t →
    entryAt m t (x % 512) = 0 ∨ TableEntry (entryAt m t (x % 512))
  user : ∀ {page}, Lower 4 page → (leafAt m root page).testBit 0 = true →
    (leafAt m root page).testBit 2 = true → UserPath m root page

theorem UserTables.root_aligned (h : UserTables m root top) : root % 4096 = 0 :=
  (h.inside (d := 0) (by omega) lower_root rfl).1

/-- No entry leads to the PML4. -/
theorem UserTables.depth_root {d x : ℕ} (h : UserTables m root top) (hd : d ≤ 3) (hx : Lower d x)
    (ht : tableAt m root d x = some root) : d = 0 :=
  (h.unshared.inj hd (by omega) hx lower_root ht rfl).1

/-- The tables above one that is there. -/
theorem tables_above {page d : ℕ} (d' : ℕ) (ht : tableAt m root d (above page d) = some t) (hd : d ≤ 4)
    (hd' : d' ≤ d) : ∃ u, tableAt m root d' (above page d') = some u := by
  induction d generalizing t with
  | zero =>
    obtain rfl : d' = 0 := by omega
    exact ⟨t, ht⟩
  | succ d ih =>
    rcases Nat.of_le_succ hd' with hle | rfl
    · obtain ⟨u, hu, -⟩ := nodeAt_parent ht
      rw [above_succ (by omega)] at hu
      exact ih hu (by omega) hle
    · exact ⟨t, ht⟩

/-- Below a table that is not there, there is none. -/
theorem tableAt_eq_none {page d : ℕ} (d' : ℕ) (h : tableAt m root d (above page d) = none)
    (hd : d ≤ d') (hd' : d' ≤ 4) : tableAt m root d' (above page d') = none := by
  cases ht : tableAt m root d' (above page d') with
  | none => rfl
  | some t =>
    obtain ⟨u, hu⟩ := tables_above d ht hd' hd
    rw [h] at hu
    cases hu

theorem mod_512_lt (y : ℕ) : y % 512 < 512 := Nat.mod_lt _ (by decide)

/-- From a table on the way to a page to the next one. -/
theorem UserTables.next {page d : ℕ} (h : UserTables m root top) (hp : Lower 4 page) (hd : d < 3)
    (ht : tableAt m root d (above page d) = some t)
    (he : entryAt m t (above page (d + 1) % 512) = e) :
    e = 0 ∧ tableAt m root (d + 1) (above page (d + 1)) = none ∨
      TableEntry e ∧ tableAt m root (d + 1) (above page (d + 1)) = some (entryFrame e) := by
  have hup : above page (d + 1) / 512 = above page d := above_succ (by omega)
  have hsome : nodeAt (nextTable m) 512 root d (above page d) = some t := ht
  rw [tableAt, nodeAt_succ, hup, hsome, Option.bind_some, nextTable, ← he]
  rcases h.entry hd (lower_above hp (by omega)) (hup ▸ ht) with hzero | hentry
  · exact .inl ⟨hzero, by rw [hzero]; rfl⟩
  · exact .inr ⟨hentry, if_pos hentry.present⟩

/-! ### The walk -/

theorem indexAt_eq {page off level : ℕ} (hoff : off < 4096) (hl : level ≤ 4) :
    indexAt level (page * 4096 + off) = above page (4 - level) % 512 := by
  have hpow : 2 ^ (12 + 9 * level) = 4096 * 512 ^ level := by
    rw [Nat.pow_add, Nat.pow_mul]
  have hpage : (page * 4096 + off) / 4096 = page := by omega
  rw [indexAt, above, hpow, ← Nat.div_div_eq_div_mul, hpage, Nat.sub_sub_self hl]

/-- The number of a page in the 48 bits of an address that the processor reads. -/
def pageNo (virt : ℕ) : ℕ := virt / 4096 % 2 ^ 36

theorem indexAt_of_pageNo_eq {virt virt' level : ℕ} (h : pageNo virt' = pageNo virt)
    (hl : level ≤ 3) : indexAt level virt' = indexAt level virt := by
  unfold pageNo at h
  match level, hl with
  | 0, _ | 1, _ | 2, _ | 3, _ =>
    simp only [indexAt, Nat.reduceMul, Nat.reduceAdd]
    omega

/-- An entry that leads to a table takes at most the right of the user. -/
theorem TableEntry.under {tr : Translation} (h : TableEntry e) :
    tr.under e = { tr with user := tr.user && e.testBit 2 } := by
  simp [Translation.under, h.rw, h.noExec]

theorem hwWalk_absent {virt level : ℕ} (h : entryAt m t (indexAt (level + 1) virt) = 0) :
    hwWalk m virt (level + 1) t = none := by
  simp [hwWalk, h]

theorem hwWalk_table {virt level : ℕ} (h : TableEntry (entryAt m t (indexAt (level + 1) virt))) :
    hwWalk m virt (level + 1) t =
      (hwWalk m virt level (entryFrame (entryAt m t (indexAt (level + 1) virt)))).map
        (·.under (entryAt m t (indexAt (level + 1) virt))) := by
  simp [hwWalk, h.present, h.small]

/-- The part of a walk from depth `d` on, of which `user` says whether the entries on the way
all have the right of the user. -/
theorem UserTables.walk_step {page off d : ℕ} (h : UserTables m root top) (hp : Lower 4 page)
    (hoff : off < 4096) (hd : d < 3) (ht : tableAt m root d (above page d) = some t) :
    (tableAt m root (d + 1) (above page (d + 1)) = none ∧
      hwWalk m (page * 4096 + off) (3 - d) t = none) ∨
    ∃ u e, tableAt m root (d + 1) (above page (d + 1)) = some u ∧ TableEntry e ∧
      e = entryAt m t (above page (d + 1) % 512) ∧
      hwWalk m (page * 4096 + off) (3 - d) t =
        (hwWalk m (page * 4096 + off) (3 - (d + 1)) u).map (·.under e) := by
  have hlevel : 3 - d = 3 - (d + 1) + 1 := by omega
  have hindex : indexAt (3 - (d + 1) + 1) (page * 4096 + off) = above page (d + 1) % 512 := by
    rw [← hlevel, indexAt_eq hoff (by omega)]
    congr 2
    omega
  rw [hlevel]
  rcases h.next hp hd ht rfl with ⟨hzero, hnone⟩ | ⟨hentry, hsome⟩
  · exact .inl ⟨hnone, hwWalk_absent (by rw [hindex, hzero])⟩
  · refine .inr ⟨_, _, hsome, hentry, rfl, ?_⟩
    rw [hwWalk_table (by rwa [hindex]), hindex]

/-- What an entry of a page table says. -/
def leafTranslation (entry virt : ℕ) : Option Translation :=
  if entry.testBit 0 then some (leafOf 0 entry virt) else none

theorem leafOf_zero_frame {virt : ℕ} : (leafOf 0 e virt).frame = entryFrame e := by
  have hzero : virt / 2 ^ 12 % 2 ^ (9 * 0) = 0 := Nat.mod_one _
  rw [leafOf, hzero, entryFrame]
  dsimp only
  omega

/-- **The walk comes to what the entry of the page says.** -/
theorem UserTables.hwWalk_eq {page off : ℕ} (h : UserTables m root top) (hp : Lower 4 page)
    (hoff : off < 4096) :
    hwWalk m (page * 4096 + off) 3 root = leafTranslation (leafAt m root page) (page * 4096 + off) := by
  have hnone : ∀ d ≤ 3, tableAt m root d (above page d) = none →
      leafTranslation (leafAt m root page) (page * 4096 + off) = none := fun d hd h => by
    simp [leafAt, tableAt_eq_none 3 h hd (by decide), leafTranslation]
  have h0 : tableAt m root 0 (above page 0) = some root := rfl
  rcases h.walk_step hp hoff (by omega) h0 with ⟨h1, hw⟩ | ⟨t₁, e₀, h1, he₀, heq₀, hw₀⟩
  · rw [hnone 1 (by decide) h1]
    exact hw
  rcases h.walk_step hp hoff (by omega) h1 with ⟨h2, hw⟩ | ⟨t₂, e₁, h2, he₁, heq₁, hw₁⟩
  · rw [hnone 2 (by decide) h2]
    exact hw₀.trans (by rw [hw]; rfl)
  rcases h.walk_step hp hoff (by omega) h2 with ⟨h3, hw⟩ | ⟨t₃, e₂, h3, he₂, heq₂, hw₂⟩
  · rw [hnone 3 (by decide) h3]
    exact hw₀.trans (by rw [hw₁, hw]; rfl)
  have hleaf : leafAt m root page = entryAt m t₃ (page % 512) := by rw [leafAt, h3]
  have hindex : indexAt 0 (page * 4096 + off) = page % 512 := by
    rw [indexAt_eq hoff (by omega), above, Nat.sub_zero, Nat.sub_self, Nat.pow_zero, Nat.div_one]
  have hwalk : hwWalk m (page * 4096 + off) 3 root =
      (leafTranslation (leafAt m root page) (page * 4096 + off)).map
        fun tr => ((tr.under e₂).under e₁).under e₀ := by
    have hlast : hwWalk m (page * 4096 + off) 0 t₃ =
        leafTranslation (leafAt m root page) (page * 4096 + off) := by
      simp only [hwWalk, hindex, has_present, leafTranslation, hleaf]
    refine hw₀.trans ?_
    rw [hw₁, hw₂, hlast, Option.map_map, Option.map_map]
    rfl
  rw [hwalk, leafTranslation]
  split
  · next hpres =>
    rw [Option.map_some, he₂.under, he₁.under, he₀.under]
    simp only [leafOf, has_user]
    by_cases huser : (leafAt m root page).testBit 2 = true
    · have hpath := h.user hp hpres huser
      rw [heq₀, heq₁, heq₂, hpath 0 root (by omega) h0, hpath 1 t₁ (by omega) h1,
        hpath 2 t₂ (by omega) h2]
      simp
    · simp [huser]
  · rfl

end Neptune
