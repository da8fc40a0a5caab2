import Neptune.Mmu.Large

/-!
# Mapping a page again

Tables that `mmu_map_page` and `mmu_map_page_in` have built from an empty one hold 4 KiB pages only,
and an entry above them takes no right from a page but that of the user.  Mapping a page again to the
frame it has changes its flags, unless the page is no-execute: the test for the same frame compares
bit 63 of the entry with that of the frame.

## Main definitions

* `Built` — the tables that calls build.
* `Closed` — the right of the user in the entry of a page stands in all entries above it.
* `RemapsTo` — what the calls for a mapped page are to do.

## Main results

* `Built.tables` — the invariant of the tables.
* `Built.remap_iff` — when the calls for a mapped page do what they are to do.
-/

namespace Neptune

open Option Phys
open Word64 (u64 not64)
open Linked (Split)

variable {m m' : ByteMem} {top l t t' u root virt virt' phys flags e : ℕ} {S C C₁ C' R : Set ℕ}
  {s s₁ s' : Phys} {r : ℤ}

/-! ### Entries -/

/-- The entries of tables without large pages. -/
def PlainEntry : ℕ → ℕ → Prop
  | 0, e => Clean e
  | _ + 1, e => e = 0 ∨ TableEntry e

theorem TableEntry.of_plain (h : PlainEntry (l + 1) e) (hp : Pointer e) : TableEntry e := by
  rcases h with rfl | h
  · exact absurd hp.present (by decide)
  · exact h

theorem not_huge_of_plain (h : PlainEntry (l + 1) e) : ¬Huge e := by
  intro hhuge
  rcases h with rfl | h
  · exact absurd hhuge.present (by decide)
  · exact absurd (h.small.symm.trans hhuge.large) Bool.false_ne_true

theorem plainEntry_admits : Admits PlainEntry where
  cases := by
    rintro l e (rfl | h)
    · exact .inl ⟨rfl, rfl⟩
    · exact .inr (.inl h.pointer)
  zero := fun l => by
    cases l with
    | zero => exact clean_of_lt (by decide)
    | succ l => exact .inl rfl
  user := fun h hp => .inr (TableEntry.of_plain h hp).or_user.1
  new := fun flags hf hlt => .inr (newTable_spec hf hlt).1
  split := fun _ h hhuge => absurd hhuge (not_huge_of_plain h)

theorem PageTree.not_huge (h : PageTree PlainEntry m top (l + 1) t S) (virt : ℕ) :
    ¬Huge (entryAt m t (indexAt (l + 1) virt)) :=
  not_huge_of_plain (h.root_ok.entries (slotAt (l + 1) virt))

theorem PlainEntry.kernelEntry (l e : ℕ) (h : PlainEntry l e) : KernelEntry l e := by
  cases l with
  | zero => exact h
  | succ l =>
    rcases h with rfl | h
    · exact .inl vacant_zero
    · exact .inr (.inl h.pointer)

/-! ### The right of the user -/

/-- All entries on the way of an address have the right of the user. -/
def UserWay (m : ByteMem) (virt : ℕ) : ℕ → ℕ → Prop
  | 0, _ => True
  | l + 1, t => (entryAt m t (indexAt (l + 1) virt)).testBit 2 = true ∧
      ∀ u, subTable m t (slotAt (l + 1) virt) = some u → UserWay m virt l u

/-- Below an entry without the right of the user no page has it. -/
def Closed (m : ByteMem) : ℕ → ℕ → Prop
  | 0, _ => True
  | l + 1, t => ∀ (i : Fin 512) (u : ℕ), subTable m t i = some u → Closed m l u ∧
      ((entryAt m t i).testBit 2 = false → ∀ virt tr, hwWalk m virt l u = some tr → tr.user = false)

theorem PageTree.closed_congr (h : PageTree PlainEntry m top l t S)
    (hsame : ∀ u ∈ S, ∀ i : Fin 512, entryAt m' u i = entryAt m u i) (hc : Closed m l t) :
    Closed m' l t := by
  induction l generalizing t S with
  | zero => trivial
  | succ l ih =>
    intro i u hu
    obtain ⟨C, R, hsplit⟩ := h.split i
    rw [subTable_congr (hsame t h.root_mem i)] at hu
    have htree := hsplit.branch.of_some hu
    have hchild : ∀ v ∈ C, ∀ j : Fin 512, entryAt m' v j = entryAt m v j := fun v hv =>
      hsame v (hsplit.mem_branch hv)
    obtain ⟨hsub, hlacks⟩ := hc i u hu
    refine ⟨ih htree hchild hsub, fun hno virt tr htr => ?_⟩
    rw [hsame t h.root_mem i] at hno
    rw [PageTree.hwWalk_congr plainEntry_admits htree hchild] at htr
    exact hlacks hno virt tr htr

theorem closed_of_zero (hzero : ∀ i : Fin 512, entryAt m t i = 0) : Closed m l t := by
  cases l with
  | zero => trivial
  | succ l =>
    intro i u hu
    rw [subTable_of_zero (hzero i)] at hu
    cases hu

/-- Mapping a page in such tables takes no right of the user to other pages. -/
theorem PageTree.calm_of_closed (h : PageTree PlainEntry m top l t S) (hc : Closed m l t) :
    Calm m virt flags l t := by
  induction l generalizing t S with
  | zero => trivial
  | succ l ih =>
    refine ⟨fun hhuge => absurd hhuge (PageTree.not_huge h virt), fun u hu => ⟨fun _ => ?_, ?_⟩⟩
    · rcases Bool.eq_false_or_eq_true ((entryAt m t (indexAt (l + 1) virt)).testBit 2) with hyes | hno
      · exact .inl hyes
      · exact .inr ((hc _ u hu).2 hno)
    · obtain ⟨C, R, hsplit⟩ := h.split (slotAt (l + 1) virt)
      exact ih (hsplit.branch.of_some hu) (hc _ u hu).1

/-- One step down keeps what is below the entry closed. -/
theorem Entered.closed_below (h : PageTree PlainEntry s.mem s.window (l + 1) t S)
    (hsplit : Split (subTable s.mem) (TableOk PlainEntry s.mem s.window) l t (slotAt (l + 1) virt)
      S C R)
    (hent : Entered PlainEntry s s₁ virt flags l t t' C C₁ R) (hc : Closed s.mem (l + 1) t) :
    Closed s₁.mem l t' ∧ ((entryAt s₁.mem t (indexAt (l + 1) virt)).testBit 2 = false →
      ∀ virt' tr, hwWalk s₁.mem virt' l t' = some tr → tr.user = false) := by
  rcases hent.origin with ⟨hsub, hsame, hlacks⟩ | ⟨hzero, -⟩ | hhuge
  · have htree := hsplit.branch.of_some hsub
    have hsame' : ∀ v ∈ C, ∀ i : Fin 512, entryAt s₁.mem v i = entryAt s.mem v i :=
      fun v hv => hsame v (hent.subset hv)
    obtain ⟨hbelow, hnone⟩ := hc _ _ hsub
    refine ⟨PageTree.closed_congr htree hsame' hbelow, fun hno virt' tr htr => ?_⟩
    rw [PageTree.hwWalk_congr plainEntry_admits htree hsame'] at htr
    exact hnone (hlacks hno) virt' tr htr
  · refine ⟨closed_of_zero hzero, fun _ virt' tr htr => ?_⟩
    rw [hwWalk_of_zero hzero] at htr
    exact absurd htr nofun
  · exact absurd hhuge (PageTree.not_huge h virt)

/-! ### What a call does to the right of the user -/

section

variable (hphys : phys < 2 ^ 52) (haligned : phys % 4096 = 0)

include hphys haligned

/-- `Phys.mapFrom_done` for tables without large pages. -/
theorem Phys.mapFrom_plain (h : PageTree PlainEntry s.mem s.window l t S) (hp : PoolFor s S)
    (hc : Closed s.mem l t) (he : Phys.mapFrom virt phys flags l s t = some (r, s')) :
    ∃ S', MapDone PlainEntry s s' virt phys flags l t S S' r :=
  mapFrom_done plainEntry_admits (by omega) haligned (clean_pteFor hphys haligned) h hp
    (PageTree.calm_of_closed h hc) he

/-- A page that a call without the right of the user has mapped does not have it, and the others
are as they were. -/
theorem MapDone.supervisor {S' : Set ℕ} (hdone : MapDone PlainEntry s s' virt phys flags l t S S' r)
    (hflag : flags.testBit 2 = false)
    (hnone : ∀ virt' tr, hwWalk s.mem virt' l t = some tr → tr.user = false) {tr : Translation}
    (htr : hwWalk s'.mem virt' l t = some tr) : tr.user = false := by
  by_cases hindex : ∀ k, k ≤ l → indexAt k virt' = indexAt k virt
  · by_cases hr : r = 0
    · obtain ⟨pt, hslot, hpte⟩ := hdone.slot hr
      obtain ⟨-, -, -, huser⟩ := PageTree.pteOf_of_hwWalk plainEntry_admits hdone.tree htr
      rw [pteOf_congr_index hindex, pteOf_of_pteSlot hslot, hpte,
        testBit_pteFor (by omega) haligned, testBit_of_aligned haligned (by decide)] at huser
      simpa [hflag] using huser
    · rw [hdone.refused hr] at htr
      exact hnone virt' tr htr
  · push Not at hindex
    rw [hdone.others virt' hindex] at htr
    exact hnone virt' tr htr

/-- **The tables stay closed**, and a call for the user gives the right to all entries on the way. -/
theorem Phys.mapFrom_closed (h : PageTree PlainEntry s.mem s.window l t S) (hp : PoolFor s S)
    (hc : Closed s.mem l t) (he : Phys.mapFrom virt phys flags l s t = some (r, s')) :
    Closed s'.mem l t ∧ (flags.testBit 2 = true → UserWay s'.mem virt l t) := by
  induction l generalizing s t S with
  | zero => exact ⟨trivial, fun _ => trivial⟩
  | succ l ih =>
    obtain ⟨⟨t', s₁⟩, hstep, hrest⟩ := bind_eq_some_iff.mp he
    obtain ⟨C, R, hsplit⟩ := h.split (slotAt (l + 1) virt)
    obtain ⟨C₁, hent⟩ := ensureTable_entered plainEntry_admits h hsplit hp
      (PageTree.calm_of_closed h hc).step hstep
    obtain ⟨hclosed, hlacks⟩ := hent.closed_below h hsplit hc
    have hpool := hent.pool hsplit hp
    obtain ⟨C', hdone⟩ := mapFrom_plain hphys haligned hent.tree hpool hclosed hrest
    obtain ⟨hclosed', hway⟩ := ih hent.tree hpool hclosed hrest
    have hkept := hent.kept_root h hp hdone.enlarged
    have hsub := hent.subTable_after h hp hdone.enlarged
    have huser := hent.user (PageTree.not_huge h virt)
    refine ⟨fun i u hu => ?_, fun hflag => ⟨?_, fun u hu => ?_⟩⟩
    · by_cases hi : i = slotAt (l + 1) virt
      · -- the entry on the way
        subst hi
        obtain rfl := some.inj (hsub.symm.trans hu)
        refine ⟨hclosed', fun hno virt' tr htr => ?_⟩
        rw [hkept] at hno
        have hflag : flags.testBit 2 = false := by
          rw [← Bool.not_eq_true]
          exact fun hflag => Bool.false_ne_true (hno.symm.trans (huser hflag))
        exact hdone.supervisor hphys haligned hflag (hlacks hno) htr
      · -- another entry, with all that is below it as it was
        have hentry := (hkept i).trans (hent.others i hi)
        obtain ⟨D, hD, hbranch⟩ := hsplit.others i hi
        rw [subTable_congr hentry] at hu
        have htree := hbranch.of_some hu
        have hsame : ∀ v ∈ D, ∀ j : Fin 512, entryAt s'.mem v j = entryAt s.mem v j :=
          fun v hv => hent.kept_others h hsplit hp hdone.enlarged v (hD hv)
        obtain ⟨hbelow, hnone⟩ := hc i u hu
        refine ⟨PageTree.closed_congr htree hsame hbelow, fun hno virt' tr htr => ?_⟩
        rw [hentry] at hno
        rw [PageTree.hwWalk_congr plainEntry_admits htree hsame] at htr
        exact hnone hno virt' tr htr
    · exact (congrArg (Nat.testBit · 2) (hkept (slotAt (l + 1) virt))).trans (huser hflag)
    · obtain rfl := some.inj (hsub.symm.trans hu)
      exact hway hflag

end

/-- The walk of a page whose right of the user stands in all entries above it. -/
theorem PageTree.hwWalk_plain {i : ℕ} (h : PageTree PlainEntry m top l t S)
    (hslot : pteSlot m virt l t = some (u, i)) (hpresent : (entryAt m u i).testBit 0 = true)
    (hway : (entryAt m u i).testBit 2 = true → UserWay m virt l t) :
    hwWalk m virt l t = some (leafOf 0 (entryAt m u i) virt) := by
  induction l generalizing t S with
  | zero =>
    obtain ⟨rfl, rfl⟩ := Prod.mk.inj (some.inj hslot)
    rw [hwWalk, has_present, if_pos hpresent]
  | succ l ih =>
    obtain ⟨v, hv, hrest⟩ := bind_eq_some_iff.mp hslot
    obtain ⟨C, R, hsplit⟩ := h.split (slotAt (l + 1) virt)
    have hwalk := ih (hsplit.branch.of_some hv) hrest fun huser => (hway huser).2 v hv
    rcases h.root_ok.entries (slotAt (l + 1) virt) with hzero | htable
    · rw [subTable_of_zero hzero] at hv
      cases hv
    · rw [hwWalk_of_some hv, hwalk]
      -- the entry takes no right but that of the user, and has that one if the page has it
      have htable : TableEntry (entryAt m t (indexAt (l + 1) virt)) := htable
      rw [map_some, htable.under]
      cases huser : (entryAt m u i).testBit 2 with
      | false => simp [leafOf, huser]
      | true => simp [leafOf, huser, (hway huser).1]

/-! ### Tables that calls have built -/

/-- An empty table, with fresh pages for more. -/
structure EmptyTables (s : Phys) (root : ℕ) : Prop where
  aligned : root % 4096 = 0
  nonzero : root ≠ 0
  inside : root + 4096 ≤ s.window
  empty : ∀ i : Fin 512, entryAt s.mem root i = 0
  pool : PoolFor s {root}

/-- The tables that calls of `mmu_map_page` and `mmu_map_page_in` have built. -/
inductive Built (root : ℕ) : Phys → Prop
  | empty {s : Phys} : EmptyTables s root → Built root s
  | mapPage {s s' : Phys} {virt phys flags : ℕ} : Built root s → phys < 2 ^ 52 →
      s.mapPage root virt phys flags = some s' → Built root s'
  | mapPageIn {s s' : Phys} {virt phys flags : ℕ} {r : ℤ} : Built root s → phys < 2 ^ 52 →
      s.mapPageIn root virt phys flags = some (r, s') → Built root s'

/-- What such tables are like. -/
structure PlainTables (s : Phys) (root : ℕ) (S : Set ℕ) : Prop where
  tree : PageTree PlainEntry s.mem s.window 3 root S
  pool : PoolFor s S
  closed : Closed s.mem 3 root
  nonzero : root ≠ 0

theorem PlainTables.mapFrom (h : PlainTables s root S) (hphys : phys < 2 ^ 52)
    (haligned : phys % 4096 = 0) (he : Phys.mapFrom virt phys flags 3 s root = some (r, s')) :
    ∃ S', PlainTables s' root S' := by
  obtain ⟨S', hdone⟩ := mapFrom_plain hphys haligned h.tree h.pool h.closed he
  exact ⟨S', hdone.tree, hdone.enlarged.pool h.pool,
    (mapFrom_closed hphys haligned h.tree h.pool h.closed he).1, h.nonzero⟩

/-- **The invariant of the tables.** -/
theorem Built.tables (h : Built root s) : ∃ S, PlainTables s root S := by
  induction h with
  | empty h =>
    exact ⟨{root}, PageTree.of_zero h.empty plainEntry_admits h.aligned h.inside, h.pool,
      closed_of_zero h.empty, h.nonzero⟩
  | mapPage _ hphys he ih =>
    obtain ⟨S, htables⟩ := ih
    obtain ⟨haligned, hrun⟩ := mapFrom_of_mapPage he
    exact htables.mapFrom hphys haligned hrun
  | mapPageIn _ hphys he ih =>
    obtain ⟨S, htables⟩ := ih
    rw [mapPageIn_eq_mapFrom] at he
    split at he
    · obtain ⟨-, rfl⟩ := Prod.mk.inj (some.inj he)
      exact ⟨S, htables⟩
    · next hok =>
      simp only [has_fff, not_or, ne_eq, not_not] at hok
      exact htables.mapFrom hphys hok.2.2.2 he

/-! ### Mapping a page again -/

/-- The page has exactly the new flags and the frame it had, and no other page has changed. -/
structure Reflagged (s s' : Phys) (root virt frame flags : ℕ) : Prop where
  slot : ∃ pt, pteSlot s'.mem virt 3 root = some (pt, indexAt 0 virt) ∧
    entryAt s'.mem pt (indexAt 0 virt) = pteFor frame flags
  walk : hwWalk s'.mem virt 3 root =
    some ⟨frame, has flags mmuFlagWrite, has flags mmuFlagUser, has flags mmuFlagNoexec⟩
  others : ∀ virt', pageNo virt' ≠ pageNo virt → hwWalk s'.mem virt' 3 root = hwWalk s.mem virt' 3 root

/-- What the calls for a page that is mapped to `frame` are to do: for that frame change the flags,
for another one refuse. -/
structure RemapsTo (s : Phys) (root virt frame flags : ℕ) : Prop where
  mapPage : ∃ s', s.mapPage root virt frame flags = some s' ∧ Reflagged s s' root virt frame flags
  mapPageIn : ∃ s', s.mapPageIn root virt frame flags = some (0, s') ∧
    Reflagged s s' root virt frame flags
  refused : ∀ other, other % 4096 = 0 → other < 2 ^ 52 → other ≠ frame →
    s.mapPage root virt other flags = none ∧ ∃ s', s.mapPageIn root virt other flags = some (-1, s') ∧
      ∀ virt', hwWalk s'.mem virt' 3 root = hwWalk s.mem virt' 3 root

/-- The call for a mapped page returns, and its result is that of the test for the same frame. -/
theorem PlainTables.mapFrom_mapped (h : PlainTables s root S) {tr : Translation}
    (hw : hwWalk s.mem virt 3 root = some tr) (hphys : phys < 2 ^ 52)
    (haligned : phys % 4096 = 0) (flags : ℕ) :
    ∃ r s' S', Phys.mapFrom virt phys flags 3 s root = some (r, s') ∧
      MapDone PlainEntry s s' virt phys flags 3 root S S' r ∧
      r = if pageOf (pteOf s.mem virt 3 root) = phys then 0 else -1 := by
  have hmissing : missing s.mem virt 3 root = 0 := by
    rcases PageTree.missing_of_hwWalk plainEntry_admits h.tree hw with hzero | ⟨-, e, he, hhuge⟩
    · exact hzero
    · exact absurd hhuge (not_huge_of_plain he)
  exact Phys.mapFrom_mapped plainEntry_admits hphys haligned (clean_pteFor hphys haligned) h.tree
    h.pool (PageTree.calm_of_closed h.tree h.closed) hw (fun hne => absurd hmissing hne) (by omega)

/-- A call that succeeds gives the page the new flags. -/
theorem PlainTables.reflagged (h : PlainTables s root S) (hphys : phys < 2 ^ 52)
    (haligned : phys % 4096 = 0) {S' : Set ℕ}
    (hrun : Phys.mapFrom virt phys flags 3 s root = some (0, s'))
    (hdone : MapDone PlainEntry s s' virt phys flags 3 root S S' 0) :
    Reflagged s s' root virt phys flags := by
  obtain ⟨pt, hslot, hpte⟩ := hdone.slot rfl
  have hbit : ∀ k, k < 12 → phys.testBit k = false := fun k hk => testBit_of_aligned haligned hk
  refine ⟨⟨pt, hslot, hpte⟩, ?_, fun virt' hne => hdone.others virt' (index_ne_of_pageNo_ne hne)⟩
  rw [PageTree.hwWalk_plain hdone.tree hslot, hpte, leafOf_pteFor (by omega) haligned,
    granted_of_lt hphys]
  · rw [hpte, testBit_pteFor (by omega) haligned]
    simp
  · intro huser
    rw [hpte, testBit_pteFor (by omega) haligned, hbit 2 (by decide)] at huser
    exact (mapFrom_closed hphys haligned h.tree h.pool h.closed hrun).2 (by simpa using huser)

/-- **Mapping a page again** works exactly for a page that is not no-execute. -/
theorem Built.remap_iff (h : Built root s) (ha : virt % 4096 = 0) {tr : Translation}
    (hw : hwWalk s.mem virt 3 root = some tr) (flags : ℕ) :
    RemapsTo s root virt tr.frame flags ↔ tr.noExec = false := by
  obtain ⟨S, htables⟩ := h.tables
  obtain ⟨-, hframe, hnx, -⟩ := PageTree.pteOf_of_hwWalk plainEntry_admits htables.tree hw
  have hlt := pteOf_lt s.mem virt 3 root
  obtain ⟨hflt, hfa⟩ := entryFrame_spec (pteOf s.mem virt 3 root)
  rw [hframe] at hflt hfa
  have hroot : root % 4096 = 0 := htables.tree.root_ok.aligned
  have hpageIn : ∀ {phys}, phys % 4096 = 0 → s.mapPageIn root virt phys flags =
      Phys.mapFrom virt phys flags 3 s root := fun hp => by
    rw [mapPageIn_eq_mapFrom, if_neg (by simp [has_fff, ha, hp, hroot, htables.nonzero])]
  obtain ⟨r, s', S', hrun, hdone, hr⟩ := htables.mapFrom_mapped hw hflt hfa flags
  constructor
  · -- the call for the same frame goes through only if bit 63 is clear
    intro hremap
    obtain ⟨s₁, hcall, -⟩ := hremap.mapPageIn
    rw [hpageIn hfa, hrun] at hcall
    obtain ⟨rfl, -⟩ := Prod.mk.inj (some.inj hcall)
    have hsame : pageOf (pteOf s.mem virt 3 root) = tr.frame := by
      by_contra hne
      rw [if_neg hne] at hr
      exact absurd hr (by decide)
    rw [← hnx, Nat.testBit_lt_two_pow]
    rw [pageOf_eq hlt] at hsame
    omega
  · intro hexec
    have hsame : pageOf (pteOf s.mem virt 3 root) = tr.frame := by
      rw [pageOf_of_clean hlt (PageTree.clean_pteOf (PageTree.mono PlainEntry.kernelEntry
        htables.tree)) (hnx.trans hexec), hframe]
    rw [if_pos hsame] at hr
    subst hr
    have hreflagged := htables.reflagged hflt hfa hrun hdone
    refine ⟨⟨s', ?_, hreflagged⟩, ⟨s', ?_, hreflagged⟩, fun other hoa holt hne => ?_⟩
    · rw [mapPage_of_aligned ha hfa, hrun]
      rfl
    · rw [hpageIn hfa, hrun]
    · obtain ⟨r₂, s₂, S₂, hrun₂, hdone₂, hr₂⟩ := htables.mapFrom_mapped hw holt hoa flags
      rw [if_neg (by rw [hsame]; exact hne.symm)] at hr₂
      subst hr₂
      refine ⟨?_, s₂, ?_, hdone₂.refused (by decide)⟩
      · rw [mapPage_of_aligned ha hoa, hrun₂]
        rfl
      · rw [hpageIn hoa, hrun₂]

/-- An empty table at 0x1000 and three pages for more. -/
def blankPhys : Phys := .booting blankMem [0x2000, 0x3000, 0x4000]

theorem emptyTables_blankPhys : EmptyTables blankPhys 0x1000 :=
  ⟨by decide, by decide, by decide, fun i => entryAt_blankMem _ i, by decide, by decide, by decide⟩

/-- A writable page gets other flags. -/
theorem remap_writable_page :
    ∃ s, Built 0x1000 s ∧ hwWalk s.mem 0x400000 3 0x1000 = some ⟨0x200000, true, false, false⟩ ∧
      RemapsTo s 0x1000 0x400000 0x200000 (mmuFlagUser ||| mmuFlagCow ||| mmuFlagNoexec) := by
  have hcall : (blankPhys.mapPage 0x1000 0x400000 0x200000 mmuFlagWrite).map
      (fun s => hwWalk s.mem 0x400000 3 0x1000) = some (some ⟨0x200000, true, false, false⟩) := by
    decide +kernel
  obtain ⟨s, hs, hwalk⟩ := map_eq_some_iff.mp hcall
  have hbuilt : Built 0x1000 s := .mapPage (.empty emptyTables_blankPhys) (by decide) hs
  exact ⟨s, hbuilt, hwalk, (hbuilt.remap_iff (by decide) hwalk _).mpr rfl⟩

/-- A no-execute page: mapping it again to its frame, even with the flags it has, panics. -/
theorem no_execute_page_not_remapped :
    ∃ s, Built 0x1000 s ∧ hwWalk s.mem 0x400000 3 0x1000 = some ⟨0x200000, true, false, true⟩ ∧
      s.mapPage 0x1000 0x400000 0x200000 (mmuFlagWrite ||| mmuFlagNoexec) = none ∧
      ¬RemapsTo s 0x1000 0x400000 0x200000 (mmuFlagWrite ||| mmuFlagNoexec) := by
  have hcall : (blankPhys.mapPage 0x1000 0x400000 0x200000 (mmuFlagWrite ||| mmuFlagNoexec)).map
      (fun s => (hwWalk s.mem 0x400000 3 0x1000,
        (s.mapPage 0x1000 0x400000 0x200000 (mmuFlagWrite ||| mmuFlagNoexec)).isNone)) =
      some (some ⟨0x200000, true, false, true⟩, true) := by
    decide +kernel
  obtain ⟨s, hs, hresult⟩ := map_eq_some_iff.mp hcall
  obtain ⟨hwalk, hpanic⟩ := Prod.mk.inj hresult
  have hnone := isNone_iff_eq_none.mp hpanic
  refine ⟨s, .mapPage (.empty emptyTables_blankPhys) (by decide) hs, hwalk, hnone, fun h => ?_⟩
  obtain ⟨s', hs', -⟩ := h.mapPage
  rw [hnone] at hs'
  exact absurd hs' nofun

end Neptune
