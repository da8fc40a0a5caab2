import Neptune.Mmu.PageTree

/-!
# Mapping a page in a tree with large pages

`mmu_map_page_in` goes down one level at a time: `ensure_table` finds, makes or splits off the table
below, and the last step writes the entry.  On the way nothing changes for other pages: the tables
of the tree stay apart, and what is mapped below the entry that was entered stays mapped.

## Main definitions

* `Phys.mapFrom` — `mmu_map_page_in` from a table on.
* `PoolFor` — the pages that `pmm_alloc_page` is about to return are no tables yet.
* `Entered` — what one `ensure_table` does.
* `MapDone` — what the whole does.

## Main results

* `Phys.ensureTable_entered` — the step.
* `Phys.mapFrom_done` — the run over the levels.
-/

namespace Neptune

open List Nat Option Phys
open Word64 (u64 not64)
open Linked (Tree Split Branch)

variable {P : ℕ → ℕ → Prop} {m m' : ByteMem} {top l t t' u e f virt virt' phys flags : ℕ}
  {S C R : Set ℕ} {s s₁ s' : Phys} {r : ℤ}

/-- `mmu_map_page_in` from a table of a level on. -/
def Phys.mapFrom (virt phys flags : ℕ) : ℕ → Phys → ℕ → Option (ℤ × Phys)
  | 0, s, pt => do
    let existing ← s.readTable pt (indexAt 0 virt)
    if has existing ptePresent && pageOf existing != pageOf phys then return (-1, s)
    let s ← s.writeTable pt (indexAt 0 virt) (pteFor phys flags)
    return (0, s)
  | l + 1, s, t => do
    let (u, s) ← s.ensureTable t (indexAt (l + 1) virt) flags
    mapFrom virt phys flags l s u

theorem Phys.mapPageIn_eq_mapFrom (s : Phys) (pml4 virt phys flags : ℕ) :
    s.mapPageIn pml4 virt phys flags =
      if pml4 = 0 ∨ has pml4 0xFFF ∨ has virt 0xFFF ∨ has phys 0xFFF then some (-1, s)
      else Phys.mapFrom virt phys flags 3 s pml4 := rfl

/-! ### Fresh pages -/

/-- The pages that `pmm_alloc_page` is about to return: distinct, aligned, and no tables. -/
structure PoolFor (s : Phys) (S : Set ℕ) : Prop where
  nodup : s.pool.Nodup
  aligned : ∀ f ∈ s.pool, f % 4096 = 0 ∧ f < 2 ^ 52
  fresh : ∀ f ∈ s.pool, f ∉ S

/-- From the tables `S` to the tables `S'`: new ones come from the pool, and all others keep their
entries. -/
structure Enlarged (s s' : Phys) (S S' : Set ℕ) : Prop where
  rest : s' = { s with mem := s'.mem, pool := s'.pool }
  subset : S ⊆ S'
  taken : ∃ used, s.pool = used ++ s'.pool ∧ ∀ p ∈ S', p ∈ S ∨ p ∈ used
  outside : ∀ u, u % 4096 = 0 → u ∉ S' → ∀ i : Fin 512, entryAt s'.mem u i = entryAt s.mem u i

theorem Enlarged.window {S' : Set ℕ} (h : Enlarged s s' S S') : s'.window = s.window := by
  rw [h.rest]

theorem Enlarged.trans {S₁ S' : Set ℕ} (h : Enlarged s s₁ S S₁) (h' : Enlarged s₁ s' S₁ S') :
    Enlarged s s' S S' := by
  obtain ⟨used, hused, hmem⟩ := h.taken
  obtain ⟨used', hused', hmem'⟩ := h'.taken
  refine ⟨?_, h.subset.trans h'.subset, ⟨used ++ used', ?_, fun p hp => ?_⟩, fun u hu huS' i => ?_⟩
  · have hrest := h'.rest
    rw [h.rest] at hrest
    exact hrest
  · rw [hused, hused', append_assoc]
  · rcases hmem' p hp with hin | hin
    · exact (hmem p hin).imp_right fun hin => mem_append_left used' hin
    · exact .inr (mem_append_right used hin)
  · rw [h'.outside u hu huS', h.outside u hu fun hin => huS' (h'.subset hin)]

theorem Enlarged.refl (s : Phys) (S : Set ℕ) : Enlarged s s S S :=
  ⟨rfl, subset_rfl, ⟨[], rfl, fun _ hp => .inl hp⟩, fun _ _ _ _ => rfl⟩

theorem Phys.inside_of_taken {used : List ℕ} (hused : s.pool = used ++ s'.pool)
    (hwindow : s'.window = s.window) (hin : ∀ f ∈ s.pool, f + 4096 ≤ s.window) :
    ∀ f ∈ s'.pool, f + 4096 ≤ s'.window := by
  intro f hf
  rw [hwindow]
  refine hin f ?_
  rw [hused]
  exact mem_append_right used hf

theorem Enlarged.inside {S' : Set ℕ} (h : Enlarged s s' S S')
    (hin : ∀ f ∈ s.pool, f + 4096 ≤ s.window) : ∀ f ∈ s'.pool, f + 4096 ≤ s'.window := by
  obtain ⟨used, hused, -⟩ := h.taken
  exact inside_of_taken hused h.window hin

theorem PoolFor.of_taken {S' : Set ℕ} {used : List ℕ} (hp : PoolFor s S)
    (hused : s.pool = used ++ s'.pool) (hmem : ∀ p ∈ S', p ∈ S ∨ p ∈ used) : PoolFor s' S' := by
  have hnodup := hp.nodup
  rw [hused] at hnodup
  have hsub : ∀ f ∈ s'.pool, f ∈ s.pool := fun f hf => by
    rw [hused]
    exact mem_append_right used hf
  refine ⟨(nodup_append.mp hnodup).2.1, fun f hf => hp.aligned f (hsub f hf), fun f hf hS' => ?_⟩
  rcases hmem f hS' with hS | hin
  · exact hp.fresh f (hsub f hf) hS
  · exact (nodup_append.mp hnodup).2.2 f hin f hf rfl

theorem Enlarged.pool {S' : Set ℕ} (h : Enlarged s s' S S') (hp : PoolFor s S) : PoolFor s' S' := by
  obtain ⟨used, hused, hmem⟩ := h.taken
  exact hp.of_taken hused hmem

theorem PoolFor.head {pool : List ℕ} (hp : PoolFor s S) (hpool : s.pool = f :: pool) (ht : t ∈ S) :
    f % 4096 = 0 ∧ f < 2 ^ 52 ∧ t ≠ f := by
  have hf : f ∈ s.pool := by
    rw [hpool]
    exact mem_cons_self
  obtain ⟨ha, hlt⟩ := hp.aligned f hf
  exact ⟨ha, hlt, fun htf => hp.fresh f hf (htf ▸ ht)⟩

/-- A step that takes a page has one to take, in the window. -/
theorem of_pool {w : ℕ} {pool : List ℕ} {next : ℕ → List ℕ → Phys}
    (h : (match pool with
      | [] => none
      | f :: pool => if f + 4096 ≤ w then some (f, next f pool) else none) = some (t', s')) :
    ∃ f pool', pool = f :: pool' ∧ f + 4096 ≤ w ∧ f = t' ∧ next f pool' = s' := by
  cases pool with
  | nil => exact absurd h nofun
  | cons f pool' =>
    dsimp only at h
    split at h
    · next hw =>
      obtain ⟨hf, hs⟩ := Prod.mk.inj (some.inj h)
      exact ⟨f, pool', rfl, hw, hf, hs⟩
    · exact absurd h nofun

theorem entryAt_setSlot {i : Fin 512} (ht : t % 4096 = 0) (hu : u % 4096 = 0)
    (hne : ¬(u = t ∧ i = slotAt (l + 1) virt)) :
    entryAt (setEntry m t (indexAt (l + 1) virt) e) u i = entryAt m u i :=
  entryAt_setEntry_of_ne ht hu (slotAt (l + 1) virt).isLt i.isLt fun hui => hne ⟨hui.1, Fin.ext hui.2⟩

/-- The walk through the table of a split page. -/
theorem walk_split (hlt : e < 2 ^ 64) (hhuge : Huge e) (hnx : e.testBit 63 = false)
    (hf : f % 4096 = 0) (hflt : f < 2 ^ 52)
    (hpte : entryAt m f (slotAt 0 virt') = splitPte e (slotAt 0 virt'))
    (hentry : u = splitEntry f e) :
    (hwWalk m virt' 0 f).map (·.under u) = some (leafOf 1 e virt') := by
  have hpte : entryAt m f (indexAt 0 virt') = splitPte e (indexAt 0 virt') := hpte
  have hpresent : (splitPte e (indexAt 0 virt')).testBit 0 = true := by
    rw [testBit_splitPte_low hlt (indexAt_lt 0 virt') (by decide), testBit_keptFlags, hhuge.present]
    rfl
  rw [hwWalk, hpte, has_present, if_pos hpresent, map_some, leafOf_splitPte hlt, hentry,
    under_splitEntry hf hflt hnx]

/-! ### One step down -/

/-- From the table `t` to the table `t'` below the entry of `virt`: before, the tables below it are
`C` and those below the other entries `R`, and after it they are `C'` and `R`. -/
structure Entered (P : ℕ → ℕ → Prop) (s s' : Phys) (virt flags l t t' : ℕ) (C C' R : Set ℕ) :
    Prop where
  rest : s' = { s with mem := s'.mem, pool := s'.pool }
  tree : PageTree P s'.mem s'.window l t' C'
  pointer : Pointer (entryAt s'.mem t (indexAt (l + 1) virt))
  frame : entryFrame (entryAt s'.mem t (indexAt (l + 1) virt)) = t'
  admitted : P (l + 1) (entryAt s'.mem t (indexAt (l + 1) virt))
  root : t ∉ C'
  apart : Disjoint C' R
  subset : C ⊆ C'
  taken : ∃ used, s.pool = used ++ s'.pool ∧ ∀ p ∈ C', p ∈ C ∨ p ∈ used
  others : ∀ i : Fin 512, i ≠ slotAt (l + 1) virt → entryAt s'.mem t i = entryAt s.mem t i
  outside : ∀ u, u % 4096 = 0 → u ≠ t → u ∉ C' → ∀ i : Fin 512, entryAt s'.mem u i = entryAt s.mem u i
  walk : ∀ virt', indexAt (l + 1) virt' = indexAt (l + 1) virt →
    (hwWalk s'.mem virt' l t').map (·.under (entryAt s'.mem t (indexAt (l + 1) virt))) =
      hwWalk s.mem virt' (l + 1) t
  pte : ∀ virt', indexAt (l + 1) virt' = indexAt (l + 1) virt →
    pteOf s'.mem virt' l t' = pteOf s.mem virt' (l + 1) t
  calm : Calm s.mem virt flags (l + 1) t → Calm s'.mem virt flags l t'
  stock : missing s'.mem virt l t' + s.pool.length ≤ missing s.mem virt (l + 1) t + s'.pool.length
  user : ¬Huge (entryAt s.mem t (indexAt (l + 1) virt)) → flags.testBit 2 = true →
    (entryAt s'.mem t (indexAt (l + 1) virt)).testBit 2 = true
  /-- The table was there, or is empty, or is that of a large page. -/
  origin : (subTable s.mem t (slotAt (l + 1) virt) = some t' ∧
      (∀ u ∈ C', ∀ i : Fin 512, entryAt s'.mem u i = entryAt s.mem u i) ∧
      ((entryAt s'.mem t (indexAt (l + 1) virt)).testBit 2 = false →
        (entryAt s.mem t (indexAt (l + 1) virt)).testBit 2 = false)) ∨
    ((∀ i : Fin 512, entryAt s'.mem t' i = 0) ∧
      entryAt s'.mem t (indexAt (l + 1) virt) = newTable t' flags) ∨
    Huge (entryAt s.mem t (indexAt (l + 1) virt))

section

variable (h : PageTree P s.mem s.window (l + 1) t S)
  (hsplit : Split (subTable s.mem) (TableOk P s.mem s.window) l t (slotAt (l + 1) virt) S C R)

include h hsplit

/-- Only the entry itself has changed, from `e` to `e₁`. -/
theorem Entered.of_entry {m₁ : ByteMem} {e₁ : ℕ} (hP : Admits P)
    (he : entryAt s.mem t (indexAt (l + 1) virt) = e)
    (he₁ : entryAt m₁ t (indexAt (l + 1) virt) = e₁) (hpointer : Pointer e)
    (hother : ∀ u (i : Fin 512), u % 4096 = 0 → ¬(u = t ∧ i = slotAt (l + 1) virt) →
      entryAt m₁ u i = entryAt s.mem u i)
    (hpointer₁ : Pointer e₁) (hframe : entryFrame e₁ = entryFrame e) (hP₁ : P (l + 1) e₁)
    (huser : flags.testBit 2 = true → e₁.testBit 2 = true)
    (hlacks : e₁.testBit 2 = false → e.testBit 2 = false)
    (hright : ∀ virt' tr, hwWalk s.mem virt' l (entryFrame e) = some tr → tr.under e₁ = tr.under e) :
    Entered P s { s with mem := m₁ } virt flags l t (entryFrame e) C C R := by
  subst he he₁
  have hsub : subTable s.mem t (slotAt (l + 1) virt) =
      some (entryFrame (entryAt s.mem t (indexAt (l + 1) virt))) := subTable_of_pointer hpointer
  have htree := hsplit.branch.of_some hsub
  have hsame : ∀ v ∈ C, ∀ i : Fin 512, entryAt m₁ v i = entryAt s.mem v i := by
    intro v hv i
    refine hother v i (PageTree.aligned h v (hsplit.mem_branch hv)) fun hvt => ?_
    exact hsplit.root.1 (hvt.1 ▸ hv)
  refine ⟨rfl, PageTree.congr htree hsame, hpointer₁, hframe, hP₁, hsplit.root.1, hsplit.disjoint,
    subset_rfl, ⟨[], rfl, fun p hp => .inl hp⟩, fun i hi => ?_, fun v hv hvt _ i => ?_,
    fun virt' hindex => ?_, fun virt' hindex => ?_, fun hc => ?_, ?_, fun _ => huser,
    .inl ⟨hsub, hsame, hlacks⟩⟩
  · exact hother t i h.root_ok.aligned fun hti => hi hti.2
  · exact hother v i hv fun hti => hvt hti.1
  · rw [← slotAt_eq_iff.mpr hindex] at hsub
    rw [hwWalk_of_some hsub, hindex]
    dsimp only
    rw [PageTree.hwWalk_congr hP htree hsame]
    exact map_congr fun tr htr => hright virt' tr htr
  · rw [← slotAt_eq_iff.mpr hindex] at hsub
    rw [pteOf_of_some hsub]
    exact PageTree.pteOf_congr htree hsame
  · exact PageTree.calm_congr hP htree hsame (hc.2 _ hsub).2
  · rw [missing_of_some hsub]
    exact le_of_eq (congrArg (· + s.pool.length) (PageTree.missing_congr htree hsame))

/-- The table below is a new one. -/
theorem Entered.of_new {m₁ : ByteMem} {e₁ : ℕ} {pool : List ℕ} (hp : PoolFor s S)
    (hpool : s.pool = f :: pool) (hnone : subTable s.mem t (slotAt (l + 1) virt) = none)
    (hother : ∀ u (i : Fin 512), u % 4096 = 0 → u ≠ f → ¬(u = t ∧ i = slotAt (l + 1) virt) →
      entryAt m₁ u i = entryAt s.mem u i)
    (he₁ : entryAt m₁ t (indexAt (l + 1) virt) = e₁) (htree : PageTree P m₁ s.window l f {f})
    (hpointer : Pointer e₁) (hframe : entryFrame e₁ = f) (hP₁ : P (l + 1) e₁)
    (hwalk : ∀ virt', indexAt (l + 1) virt' = indexAt (l + 1) virt →
      (hwWalk m₁ virt' l f).map (·.under e₁) = hwWalk s.mem virt' (l + 1) t)
    (hpte : ∀ virt', indexAt (l + 1) virt' = indexAt (l + 1) virt →
      pteOf m₁ virt' l f = pteOf s.mem virt' (l + 1) t)
    (hcalm : Calm m₁ virt flags l f) (hmissing : missing m₁ virt l f ≤ l)
    (huser : ¬Huge (entryAt s.mem t (indexAt (l + 1) virt)) → flags.testBit 2 = true →
      e₁.testBit 2 = true)
    (horigin : ((∀ i : Fin 512, entryAt m₁ f i = 0) ∧ e₁ = newTable f flags) ∨
      Huge (entryAt s.mem t (indexAt (l + 1) virt))) :
    Entered P s { s with mem := m₁, pool := pool } virt flags l t f C {f} R := by
  subst he₁
  have hfresh : f ∉ S := hp.fresh f (by rw [hpool]; exact mem_cons_self)
  have htf : t ≠ f := fun htf => hfresh (htf ▸ h.root_mem)
  have hempty : C = ∅ := hsplit.branch.of_none hnone
  refine ⟨rfl, htree, hpointer, hframe, hP₁, htf, ?_, ?_, ⟨[f], hpool, fun p hp => ?_⟩,
    fun i hi => ?_, fun v hv hvt hvf i => ?_, hwalk, hpte, fun _ => hcalm, ?_, huser,
    .inr horigin⟩
  · rw [Set.disjoint_singleton_left]
    exact fun hfR => hfresh (hsplit.mem_rest hfR)
  · rw [hempty]
    exact Set.empty_subset _
  · exact .inr (mem_singleton.mpr hp)
  · exact hother t i h.root_ok.aligned htf fun hti => hi hti.2
  · exact hother v i hv hvf fun hti => hvt hti.1
  · rw [missing_of_none hnone, hpool, length_cons]
    dsimp only
    omega

/-- An empty entry gets a new, empty table. -/
theorem Phys.entered_of_vacant (hP : Admits P) (hp : PoolFor s S)
    (hvacant : Vacant (entryAt s.mem t (indexAt (l + 1) virt)))
    (he : s.ensureTable t (indexAt (l + 1) virt) flags = some (t', s')) :
    ∃ C', Entered P s s' virt flags l t t' C C' R := by
  have ha : t % 4096 = 0 := h.root_ok.aligned
  rw [ensureTable_of_absent ha h.root_ok.inside (indexAt_lt _ _) hvacant.absent hvacant.small
    fun f hf => lt_trans (hp.aligned f hf).2 (by decide)] at he
  obtain ⟨f, pool, hpool, hwin, rfl, rfl⟩ := of_pool he
  obtain ⟨hfa, hflt, htf⟩ := hp.head hpool h.root_mem
  obtain ⟨hpointer, hframe⟩ := newTable_pointer flags hfa hflt
  have hzero : ∀ i : Fin 512, entryAt (setEntry (s.mem.fill 4096 f 0) t
      (indexAt (l + 1) virt) (newTable f flags)) f i = 0 := fun i => by
    rw [entryAt_setSlot ha hfa fun hft => htf hft.1.symm, entryAt_fill_self i.isLt]
  refine ⟨{f}, Entered.of_new h hsplit hp hpool (subTable_of_vacant hvacant)
    (fun u i hu huf hne => ?_) (entryAt_setEntry_self (lt_trans hpointer.lt (by decide)))
    (PageTree.of_zero hzero hP hfa hwin) hpointer hframe (hP.new flags hfa hflt)
    (fun virt' hindex => ?_) (fun virt' hindex => ?_) (calm_of_zero hzero) (missing_le _ _ _ _)
    (fun _ huser => ?_) (.inl ⟨hzero, rfl⟩)⟩
  · rw [entryAt_setSlot ha hu hne, entryAt_fill_of_ne hfa hu i.isLt huf]
  · rw [hwWalk_of_zero hzero, hwWalk_of_vacant (by rw [hindex]; exact hvacant)]
    rfl
  · rw [pteOf_of_zero hzero, pteOf_of_vacant (by rw [hindex]; exact hvacant)]
  · rw [(newTable_spec hfa hflt).2.2]
    exact huser

/-- The table that is there is kept, and its entry may get the right of the user. -/
theorem Phys.entered_of_pointer (hP : Admits P) (hc : CalmStep s.mem virt flags l t)
    (hpointer : Pointer (entryAt s.mem t (indexAt (l + 1) virt)))
    (he : s.ensureTable t (indexAt (l + 1) virt) flags = some (t', s')) :
    Entered P s s' virt flags l t t' C C R := by
  have ha : t % 4096 = 0 := h.root_ok.aligned
  have hadm : P (l + 1) (entryAt s.mem t (indexAt (l + 1) virt)) :=
    h.root_ok.entries (slotAt (l + 1) virt)
  rw [ensureTable_of_table ha h.root_ok.inside (indexAt_lt _ _) hpointer.present hpointer.small] at he
  obtain ⟨rfl, hs'⟩ := Prod.mk.inj (some.inj he)
  rw [← hpointer.entryFrame]
  split at hs'
  · next hadd =>
    obtain ⟨hflag, hlacks⟩ := Bool.and_eq_true_iff.mp hadd
    have hnone := fun virt' tr => (hc.user _ (subTable_of_pointer hpointer) hflag).resolve_left
      (by simpa using hlacks) virt' tr
    obtain ⟨hpointer', hpage⟩ := hpointer.or_user
    have hright : (entryAt s.mem t (indexAt (l + 1) virt) ||| pteUser).testBit 2 = true := by
      rw [testBit_or_user]
      simp
    subst hs'
    refine Entered.of_entry h hsplit hP rfl
      (entryAt_setEntry_self (lt_trans hpointer'.lt (by decide))) hpointer
      (fun u i hu hne => entryAt_setSlot ha hu hne) hpointer' ?_ (hP.user hadm hpointer)
      (fun _ => hright) (fun hno => absurd (hno.symm.trans hright) Bool.false_ne_true)
      -- no page below has the right, so that none gets it
      fun virt' tr htr => under_or_user (hnone virt' tr htr)
    rw [hpointer'.entryFrame, hpointer.entryFrame, hpage]
  · next hkeep =>
    subst hs'
    refine Entered.of_entry h hsplit hP rfl rfl hpointer (fun _ _ _ _ => rfl) hpointer rfl hadm
      (fun hflag => ?_) (fun hno => hno) fun _ _ _ => rfl
    simpa [hflag] using hkeep

end

/-- A large page is split. -/
theorem Phys.entered_of_huge (h : PageTree P s.mem s.window 1 t S)
    (hsplit : Split (subTable s.mem) (TableOk P s.mem s.window) 0 t (slotAt 1 virt) S C R)
    (hP : Admits P) (hp : PoolFor s S) (hhuge : Huge (entryAt s.mem t (indexAt 1 virt)))
    (hnx : (entryAt s.mem t (indexAt 1 virt)).testBit 63 = false)
    (he : s.ensureTable t (indexAt 1 virt) flags = some (t', s')) :
    ∃ C', Entered P s s' virt flags 0 t t' C C' R := by
  have ha : t % 4096 = 0 := h.root_ok.aligned
  have hlt := entryAt_lt s.mem t (indexAt 1 virt)
  rw [ensureTable_of_huge ha h.root_ok.inside (indexAt_lt _ _) hhuge.large fun f hf =>
    ⟨(hp.aligned f hf).1, lt_trans (hp.aligned f hf).2 (by decide)⟩] at he
  obtain ⟨f, pool, hpool, hwin, rfl, rfl⟩ := of_pool he
  obtain ⟨hfa, hflt, htf⟩ := hp.head hpool h.root_mem
  obtain ⟨hpointer, hframe⟩ := splitEntry_pointer hfa hflt hnx
  obtain ⟨hPe, hPs⟩ := hP.split hlt (h.root_ok.entries (slotAt 1 virt)) hhuge hnx hfa hflt
  have hptes : ∀ i : Fin 512, entryAt (setEntry (splitMem s.mem f
      (entryAt s.mem t (indexAt 1 virt)) 512 0) t (indexAt 1 virt)
      (splitEntry f (entryAt s.mem t (indexAt 1 virt)))) f i =
      splitPte (entryAt s.mem t (indexAt 1 virt)) i := fun i => by
    rw [entryAt_setSlot (l := 0) ha hfa fun hft => htf hft.1.symm,
      entryAt_splitMem_self hlt hfa i.isLt (by decide), if_pos (by omega)]
  refine ⟨{f}, Entered.of_new h hsplit hp hpool (subTable_of_huge hhuge)
    (fun u i hu huf hne => ?_) (entryAt_setEntry_self (lt_trans hpointer.lt (by decide)))
    ⟨⟨hfa, hwin, fun i => ?_⟩, rfl⟩ hpointer hframe hPe (fun virt' hindex => ?_)
    (fun virt' hindex => ?_) trivial (le_refl 0) (fun hsmall => absurd hhuge hsmall)
    (.inr hhuge)⟩
  · rw [entryAt_setSlot ha hu hne, entryAt_splitMem_of_ne hfa hu huf i.isLt (by decide)]
  · rw [hptes i]
    exact hPs i i.isLt
  · rw [hwWalk_of_huge (by rw [hindex]; exact hhuge), hindex]
    exact walk_split hlt hhuge hnx hfa hflt (hptes (slotAt 0 virt')) rfl
  · rw [pteOf_of_huge (by rw [hindex]; exact hhuge), hindex]
    exact hptes (slotAt 0 virt')

/-- **`ensure_table` goes down one level.** -/
theorem Phys.ensureTable_entered (hP : Admits P) (h : PageTree P s.mem s.window (l + 1) t S)
    (hsplit : Split (subTable s.mem) (TableOk P s.mem s.window) l t (slotAt (l + 1) virt) S C R)
    (hp : PoolFor s S) (hc : CalmStep s.mem virt flags l t)
    (he : s.ensureTable t (indexAt (l + 1) virt) flags = some (t', s')) :
    ∃ C', Entered P s s' virt flags l t t' C C' R := by
  rcases hP.cases (h.root_ok.entries (slotAt (l + 1) virt)) with hvacant | hpointer | ⟨hl, hhuge⟩
  · exact entered_of_vacant h hsplit hP hp hvacant he
  · exact ⟨C, entered_of_pointer h hsplit hP hc hpointer he⟩
  · subst hl
    exact entered_of_huge h hsplit hP hp hhuge (hc.huge hhuge) he

/-! ### The run over the levels -/

/-- What `mmu_map_page_in` does from a table on. -/
structure MapDone (P : ℕ → ℕ → Prop) (s s' : Phys) (virt phys flags l t : ℕ) (S S' : Set ℕ)
    (r : ℤ) : Prop where
  enlarged : Enlarged s s' S S'
  tree : PageTree P s'.mem s'.window l t S'
  /-- The call is refused if the page has another address in its entry. -/
  verdict : r = if (pteOf s.mem virt l t).testBit 0 && pageOf (pteOf s.mem virt l t) != pageOf phys
    then -1 else 0
  slot : r = 0 → ∃ pt, pteSlot s'.mem virt l t = some (pt, indexAt 0 virt) ∧
    entryAt s'.mem pt (indexAt 0 virt) = pteFor phys flags
  others : ∀ virt', (∃ k, k ≤ l ∧ indexAt k virt' ≠ indexAt k virt) →
    hwWalk s'.mem virt' l t = hwWalk s.mem virt' l t
  refused : r ≠ 0 → ∀ virt', hwWalk s'.mem virt' l t = hwWalk s.mem virt' l t
  ptes : ∀ virt', (∃ k, k ≤ l ∧ indexAt k virt' ≠ indexAt k virt) →
    pteOf s'.mem virt' l t = pteOf s.mem virt' l t
  stock : s.pool.length ≤ missing s.mem virt l t + s'.pool.length

/-- The last step: the entry of the page. -/
theorem Phys.mapFrom_zero_done (h : PageTree P s.mem s.window 0 t S) (hphys : phys < 2 ^ 64)
    (haligned : phys % 4096 = 0) (hleaf : P 0 (pteFor phys flags))
    (he : Phys.mapFrom virt phys flags 0 s t = some (r, s')) :
    MapDone P s s' virt phys flags 0 t S S r := by
  obtain ⟨hok, rfl⟩ := h
  rw [Phys.mapFrom, readTable_of_inside hok.aligned hok.inside (indexAt_lt _ _)] at he
  simp only [bind_eq_bind, bind_some, has_present,
    writeTable_of_inside hok.aligned hok.inside (indexAt_lt _ _)] at he
  have hkeep : ∀ {m : ByteMem} {e u : ℕ} {i : Fin 512}, u % 4096 = 0 →
      ¬(u = t ∧ i = slotAt 0 virt) → entryAt (setEntry m t (indexAt 0 virt) e) u i = entryAt m u i :=
    fun hu hne => entryAt_setEntry_of_ne hok.aligned hu (indexAt_lt _ _) (Fin.isLt _)
      fun hui => hne ⟨hui.1, Fin.ext hui.2⟩
  split at he
  · next hother =>
    obtain ⟨rfl, rfl⟩ := Prod.mk.inj (some.inj he)
    refine ⟨.refl s _, ⟨hok, rfl⟩, ?_, (by rintro ⟨⟩), fun _ _ => rfl, fun _ _ => rfl,
      fun _ _ => rfl, le_add_left _ _⟩
    rw [pteOf, if_pos hother]
  · next hsame =>
    obtain ⟨rfl, rfl⟩ := Prod.mk.inj (some.inj he)
    have hself : entryAt (setEntry s.mem t (indexAt 0 virt) (pteFor phys flags)) t
        (slotAt 0 virt) = pteFor phys flags := entryAt_setEntry_self (pteFor_lt hphys haligned)
    have hentry : ∀ virt', (∃ k, k ≤ 0 ∧ indexAt k virt' ≠ indexAt k virt) →
        entryAt (setEntry s.mem t (indexAt 0 virt) (pteFor phys flags)) t (indexAt 0 virt') =
          entryAt s.mem t (indexAt 0 virt') := by
      rintro virt' ⟨k, hk, hne⟩
      obtain rfl : k = 0 := le_zero.mp hk
      exact hkeep (i := slotAt 0 virt') hok.aligned fun hui => hne (slotAt_eq_iff.mp hui.2)
    refine ⟨⟨rfl, subset_rfl, ⟨[], rfl, fun p hp => .inl hp⟩, fun u hu hut i => ?_⟩,
      ⟨⟨hok.aligned, hok.inside, fun i => ?_⟩, rfl⟩, ?_, fun _ => ⟨t, rfl, hself⟩,
      fun virt' hne => ?_, fun hr => absurd rfl hr, hentry, le_add_left _ _⟩
    · exact hkeep hu fun hui => hut hui.1
    · by_cases hislot : i = slotAt 0 virt
      · rw [hislot, hself]
        exact hleaf
      · rw [hkeep hok.aligned fun hui => hislot hui.2]
        exact hok.entries i
    · rw [pteOf, if_neg hsame]
    · simp only [hwWalk, hentry virt' hne]

section

variable {C₁ C' : Set ℕ} (h : PageTree P s.mem s.window (l + 1) t S)
  (hsplit : Split (subTable s.mem) (TableOk P s.mem s.window) l t (slotAt (l + 1) virt) S C R)
  (hp : PoolFor s S) (hent : Entered P s s₁ virt flags l t t' C C₁ R)
  (hbelow : Enlarged s₁ s' C₁ C')

include hsplit hent in
theorem Entered.pool (hp : PoolFor s S) : PoolFor s₁ C₁ := by
  obtain ⟨used, hused, hmem⟩ := hent.taken
  exact hp.of_taken hused fun p hpC₁ => (hmem p hpC₁).imp_left hsplit.mem_branch

include hp hent hbelow in
/-- A table of the tree that is not below the entry does not get there. -/
theorem Entered.apart_after (hu : u ∈ S) (hu₁ : u ∉ C₁) : u ∉ C' := by
  obtain ⟨used, hused, -⟩ := hent.taken
  obtain ⟨used', hused', hC'⟩ := hbelow.taken
  intro hu'
  rcases hC' u hu' with hin | hin
  · exact hu₁ hin
  · refine hp.fresh u ?_ hu
    rw [hused, hused']
    exact mem_append_right used (mem_append_left s'.pool hin)

include h hp hent hbelow in
/-- The table itself stays as it is while the rest is done below it. -/
theorem Entered.kept_root (i : Fin 512) : entryAt s'.mem t i = entryAt s₁.mem t i :=
  hbelow.outside t h.root_ok.aligned (hent.apart_after hp hbelow h.root_mem hent.root) i

include hsplit hent in
theorem Entered.mem_others (hu : u ∈ R) : u ∈ S ∧ u ≠ t ∧ u ∉ C₁ := by
  exact ⟨hsplit.mem_rest hu, fun hut => hsplit.root.2 (hut ▸ hu),
    fun hu₁ => Set.disjoint_left.mp hent.apart hu₁ hu⟩

include h hsplit hp hent hbelow

/-- The tables below other entries stay as they are. -/
theorem Entered.kept_others : ∀ u ∈ R, ∀ i : Fin 512, entryAt s'.mem u i = entryAt s.mem u i := by
  intro u hu i
  obtain ⟨huS, hut, hu₁⟩ := hent.mem_others hsplit hu
  have hua := PageTree.aligned h u huS
  rw [hbelow.outside u hua (hent.apart_after hp hbelow huS hu₁), hent.outside u hua hut hu₁]

omit hp in
theorem Entered.enlarged : Enlarged s s' S (insert t (C' ∪ R)) := by
  obtain ⟨used, hused, hC₁⟩ := hent.taken
  obtain ⟨used', hused', hC'⟩ := hbelow.taken
  refine ⟨?_, ?_, ⟨used ++ used', ?_, fun p hp' => ?_⟩, fun u hu huS' i => ?_⟩
  · have hrest := hbelow.rest
    rw [hent.rest] at hrest
    exact hrest
  · rw [hsplit.eq]
    exact Set.insert_subset_insert (Set.union_subset_union_left R (hent.subset.trans hbelow.subset))
  · rw [hused, hused', append_assoc]
  · rcases hp' with rfl | hp' | hp'
    · exact .inl h.root_mem
    · rcases hC' p hp' with hin | hin
      · exact (hC₁ p hin).imp hsplit.mem_branch fun hin => mem_append_left used' hin
      · exact .inr (mem_append_right used hin)
    · exact .inl (hent.mem_others hsplit hp').1
  · have hut : u ≠ t := fun hut => huS' (.inl hut)
    have huC' : u ∉ C' := fun hin => huS' (.inr (.inl hin))
    rw [hbelow.outside u hu huC', hent.outside u hu hut fun hin => huC' (hbelow.subset hin)]

omit hsplit in
theorem Entered.subTable_after : subTable s'.mem t (slotAt (l + 1) virt) = some t' := by
  rw [subTable_congr (hent.kept_root h hp hbelow _), subTable_of_pointer hent.pointer]
  exact congrArg some hent.frame

omit hsplit in
/-- The walk of a page below the entry. -/
theorem Entered.walk_through (hindex : indexAt (l + 1) virt' = indexAt (l + 1) virt) :
    hwWalk s'.mem virt' (l + 1) t =
      (hwWalk s'.mem virt' l t').map (·.under (entryAt s₁.mem t (indexAt (l + 1) virt))) := by
  have hentry : entryAt s'.mem t (indexAt (l + 1) virt) = entryAt s₁.mem t (indexAt (l + 1) virt) :=
    hent.kept_root h hp hbelow (slotAt (l + 1) virt)
  have hsub := hent.subTable_after h hp hbelow
  rw [← slotAt_eq_iff.mpr hindex] at hsub
  rw [hwWalk_of_some hsub, hindex, hentry]

theorem Entered.tree_after (hbranch : PageTree P s'.mem s'.window l t' C') :
    PageTree P s'.mem s'.window (l + 1) t (insert t (C' ∪ R)) := by
  have hwindow : s'.window = s.window := (hent.enlarged h hsplit hbelow).window
  have hkeptT := hent.kept_root h hp hbelow
  rw [hwindow] at hbranch ⊢
  refine hsplit.replace ⟨h.root_ok.aligned, h.root_ok.inside, fun i => ?_⟩ (fun j hj => ?_)
    (same_tables (hent.kept_others h hsplit hp hbelow)) ?_
    (hent.apart_after hp hbelow h.root_mem hent.root) ?_
  · by_cases hislot : i = slotAt (l + 1) virt
    · subst hislot
      rw [hkeptT]
      exact hent.admitted
    · rw [hkeptT, hent.others i hislot]
      exact h.root_ok.entries i
  · exact subTable_congr ((hkeptT j).trans (hent.others j hj))
  · rwa [Branch, hent.subTable_after h hp hbelow]
  · rw [Set.disjoint_left]
    intro u hu hu'
    obtain ⟨huS, -, hu₁⟩ := hent.mem_others hsplit hu'
    exact hent.apart_after hp hbelow huS hu₁ hu

omit hsplit in
/-- A page below the entry is translated as before if the rest leaves it alone. -/
theorem Entered.walk_below (hindex : indexAt (l + 1) virt' = indexAt (l + 1) virt)
    (hsame : hwWalk s'.mem virt' l t' = hwWalk s₁.mem virt' l t') :
    hwWalk s'.mem virt' (l + 1) t = hwWalk s.mem virt' (l + 1) t := by
  rw [hent.walk_through h hp hbelow hindex, hsame]
  exact hent.walk virt' hindex

/-- A page below another entry is translated as before. -/
theorem Entered.walk_aside (hP : Admits P) (hindex : indexAt (l + 1) virt' ≠ indexAt (l + 1) virt) :
    hwWalk s'.mem virt' (l + 1) t = hwWalk s.mem virt' (l + 1) t := by
  have hslot : slotAt (l + 1) virt' ≠ slotAt (l + 1) virt := fun hs => hindex (slotAt_eq_iff.mp hs)
  have hkeptR := hent.kept_others h hsplit hp hbelow
  obtain ⟨D, hD, hbranch⟩ := hsplit.others _ hslot
  refine hwWalk_succ_congr hP h.root_ok ?_ fun u hu => ?_
  · exact (hent.kept_root h hp hbelow _).trans (hent.others _ hslot)
  · exact PageTree.hwWalk_congr hP (hbranch.of_some hu) (fun v hv => hkeptR v (hD hv)) virt'

omit hsplit in
/-- The same of the entry of such a page. -/
theorem Entered.pte_below (hindex : indexAt (l + 1) virt' = indexAt (l + 1) virt)
    (hsame : pteOf s'.mem virt' l t' = pteOf s₁.mem virt' l t') :
    pteOf s'.mem virt' (l + 1) t = pteOf s.mem virt' (l + 1) t := by
  have hsub := hent.subTable_after h hp hbelow
  rw [← slotAt_eq_iff.mpr hindex] at hsub
  rw [pteOf_of_some hsub, hsame]
  exact hent.pte virt' hindex

theorem Entered.pte_aside (hindex : indexAt (l + 1) virt' ≠ indexAt (l + 1) virt) :
    pteOf s'.mem virt' (l + 1) t = pteOf s.mem virt' (l + 1) t := by
  have hslot : slotAt (l + 1) virt' ≠ slotAt (l + 1) virt := fun hs => hindex (slotAt_eq_iff.mp hs)
  have hkeptR := hent.kept_others h hsplit hp hbelow
  have hkept := (hent.kept_root h hp hbelow _).trans (hent.others _ hslot)
  have hentry : entryAt s'.mem t (indexAt (l + 1) virt') = entryAt s.mem t (indexAt (l + 1) virt') :=
    hkept
  obtain ⟨D, hD, hbranch⟩ := hsplit.others _ hslot
  rw [pteOf, pteOf, subTable_congr hkept, hentry]
  cases hu : subTable s.mem t (slotAt (l + 1) virt') with
  | none => rfl
  | some u => exact PageTree.pteOf_congr (hbranch.of_some hu) fun v hv => hkeptR v (hD hv)

omit hbelow in
/-- One step down, and the rest from there. -/
theorem Entered.done (hP : Admits P) (hdone : MapDone P s₁ s' virt phys flags l t' C₁ C' r) :
    MapDone P s s' virt phys flags (l + 1) t S (insert t (C' ∪ R)) r := by
  have hbelow := hdone.enlarged
  refine ⟨hent.enlarged h hsplit hbelow, hent.tree_after h hsplit hp hbelow hdone.tree, ?_,
    fun hr => ?_, fun virt' hne => ?_, fun hr virt' => ?_, fun virt' hne => ?_, ?_⟩
  · rw [← hent.pte virt rfl]
    exact hdone.verdict
  · obtain ⟨pt, hslot, hpte⟩ := hdone.slot hr
    exact ⟨pt, by rw [pteSlot, hent.subTable_after h hp hbelow, bind_some, hslot], hpte⟩
  · by_cases hindex : indexAt (l + 1) virt' = indexAt (l + 1) virt
    · obtain ⟨k, hk, hne⟩ := hne
      have hkl : k ≠ l + 1 := fun hkl => hne (hkl ▸ hindex)
      exact hent.walk_below h hp hbelow hindex (hdone.others virt' ⟨k, by omega, hne⟩)
    · exact hent.walk_aside h hsplit hp hbelow hP hindex
  · by_cases hindex : indexAt (l + 1) virt' = indexAt (l + 1) virt
    · exact hent.walk_below h hp hbelow hindex (hdone.refused hr virt')
    · exact hent.walk_aside h hsplit hp hbelow hP hindex
  · by_cases hindex : indexAt (l + 1) virt' = indexAt (l + 1) virt
    · obtain ⟨k, hk, hne⟩ := hne
      have hkl : k ≠ l + 1 := fun hkl => hne (hkl ▸ hindex)
      exact hent.pte_below h hp hbelow hindex (hdone.ptes virt' ⟨k, by omega, hne⟩)
    · exact hent.pte_aside h hsplit hp hbelow hindex
  · have h₁ := hent.stock
    have h₂ := hdone.stock
    omega

end

/-- `ensure_table` returns if there is a page for the table that it may have to make. -/
theorem Phys.ensureTable_enters (virt flags : ℕ) (hP : Admits P)
    (h : PageTree P s.mem s.window (l + 1) t S) (hp : PoolFor s S)
    (hhead : subTable s.mem t (slotAt (l + 1) virt) = none →
      ∃ f pool, s.pool = f :: pool ∧ f + 4096 ≤ s.window) :
    ∃ t' s', s.ensureTable t (indexAt (l + 1) virt) flags = some (t', s') := by
  have hi := indexAt_lt (l + 1) virt
  have ha : t % 4096 = 0 := h.root_ok.aligned
  have hlt : ∀ f ∈ s.pool, f % 4096 = 0 ∧ f < 2 ^ 64 := fun f hf =>
    ⟨(hp.aligned f hf).1, lt_trans (hp.aligned f hf).2 (by decide)⟩
  rcases hP.cases (h.root_ok.entries (slotAt (l + 1) virt)) with hvacant | hpointer | ⟨-, hhuge⟩
  · obtain ⟨f, pool, hpool, hwin⟩ := hhead (subTable_of_vacant hvacant)
    rw [ensureTable_of_absent ha h.root_ok.inside hi hvacant.absent hvacant.small
      fun f hf => (hlt f hf).2, hpool]
    exact ⟨_, _, if_pos hwin⟩
  · rw [ensureTable_of_table ha h.root_ok.inside hi hpointer.present hpointer.small]
    exact ⟨_, _, rfl⟩
  · obtain ⟨f, pool, hpool, hwin⟩ := hhead (subTable_of_huge hhuge)
    rw [ensureTable_of_huge ha h.root_ok.inside hi hhuge.large hlt, hpool]
    exact ⟨_, _, if_pos hwin⟩

/-- The first page of a pool that is not empty. -/
theorem Phys.head_of_pool (hpos : 0 < s.pool.length) (hin : ∀ f ∈ s.pool, f + 4096 ≤ s.window) :
    ∃ f pool, s.pool = f :: pool ∧ f + 4096 ≤ s.window := by
  cases hpool : s.pool with
  | nil =>
    rw [hpool] at hpos
    exact absurd hpos (lt_irrefl 0)
  | cons f pool => exact ⟨f, pool, rfl, hin f (by rw [hpool]; exact mem_cons_self)⟩

/-- **Mapping a page returns** as long as there are pages for the tables that are missing. -/
theorem Phys.mapFrom_returns (phys : ℕ) (hP : Admits P) (h : PageTree P s.mem s.window l t S)
    (hp : PoolFor s S) (hin : missing s.mem virt l t ≠ 0 → ∀ f ∈ s.pool, f + 4096 ≤ s.window)
    (hc : Calm s.mem virt flags l t) (hstock : missing s.mem virt l t ≤ s.pool.length) :
    ∃ r s', Phys.mapFrom virt phys flags l s t = some (r, s') := by
  induction l generalizing s t S with
  | zero =>
    have hok := h.root_ok
    rw [Phys.mapFrom, readTable_of_inside hok.aligned hok.inside (indexAt_lt _ _)]
    simp only [bind_eq_bind, bind_some, writeTable_of_inside hok.aligned hok.inside (indexAt_lt _ _)]
    split
    · exact ⟨_, _, rfl⟩
    · exact ⟨_, _, rfl⟩
  | succ l ih =>
    obtain ⟨t', s₁, hstep⟩ := ensureTable_enters virt flags hP h hp fun hnone => by
        rw [missing_of_none hnone] at hstock hin
        exact head_of_pool (by omega) (hin (succ_ne_zero l))
    obtain ⟨C, R, hsplit⟩ := h.split (slotAt (l + 1) virt)
    obtain ⟨C₁, hent⟩ := ensureTable_entered hP h hsplit hp hc.step hstep
    obtain ⟨used, hused, -⟩ := hent.taken
    have hlength := congrArg List.length hused
    rw [length_append] at hlength
    have hmissing := hent.stock
    obtain ⟨r, s', hrest⟩ := ih hent.tree (hent.pool hsplit hp)
      (fun hne => inside_of_taken hused (by rw [hent.rest]) (hin (by omega))) (hent.calm hc)
      (by omega)
    exact ⟨r, s', by rw [Phys.mapFrom, hstep]; exact hrest⟩

/-- **Mapping a page.**  It maps or refuses the page, and no other page changes. -/
theorem Phys.mapFrom_done (hP : Admits P) (hphys : phys < 2 ^ 64) (haligned : phys % 4096 = 0)
    (hleaf : P 0 (pteFor phys flags)) (h : PageTree P s.mem s.window l t S) (hp : PoolFor s S)
    (hc : Calm s.mem virt flags l t) (he : Phys.mapFrom virt phys flags l s t = some (r, s')) :
    ∃ S', MapDone P s s' virt phys flags l t S S' r := by
  induction l generalizing s t S with
  | zero => exact ⟨S, mapFrom_zero_done h hphys haligned hleaf he⟩
  | succ l ih =>
    obtain ⟨⟨t', s₁⟩, hstep, hrest⟩ := bind_eq_some_iff.mp he
    obtain ⟨C, R, hsplit⟩ := h.split (slotAt (l + 1) virt)
    obtain ⟨C₁, hent⟩ := ensureTable_entered hP h hsplit hp hc.step hstep
    obtain ⟨C', hdone⟩ := ih hent.tree (hent.pool hsplit hp) (hent.calm hc) hrest
    exact ⟨_, hent.done h hsplit hp hP hdone⟩

/-- **Mapping a page that is mapped** returns with the result of the test for the same frame. -/
theorem Phys.mapFrom_mapped (hP : Admits P) (hphys : phys < 2 ^ 52) (haligned : phys % 4096 = 0)
    (hleaf : P 0 (pteFor phys flags)) (h : PageTree P s.mem s.window l t S) (hp : PoolFor s S)
    (hc : Calm s.mem virt flags l t) {tr : Translation} (hw : hwWalk s.mem virt l t = some tr)
    (hin : missing s.mem virt l t ≠ 0 → ∀ f ∈ s.pool, f + 4096 ≤ s.window)
    (hstock : missing s.mem virt l t ≤ s.pool.length) :
    ∃ r s' S', Phys.mapFrom virt phys flags l s t = some (r, s') ∧
      MapDone P s s' virt phys flags l t S S' r ∧
      r = if pageOf (pteOf s.mem virt l t) = phys then 0 else -1 := by
  obtain ⟨r, s', hrun⟩ := mapFrom_returns phys hP h hp hin hc hstock
  obtain ⟨S', hdone⟩ := mapFrom_done hP (by omega) haligned hleaf h hp hc hrun
  refine ⟨r, s', S', hrun, hdone, ?_⟩
  rw [hdone.verdict, (PageTree.pteOf_of_hwWalk hP h hw).1, pageOf_of_aligned (by omega) haligned]
  by_cases heq : pageOf (pteOf s.mem virt l t) = phys
  · simp [heq]
  · simp [heq]

end Neptune
