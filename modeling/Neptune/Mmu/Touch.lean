import Neptune.Mmu.Refine

/-!
# What mapping a page leaves alone

`mmu_map_page_in` writes into the tables of the address space and into the pages that it takes for
new tables, and nowhere else.  Of the PML4 it writes one entry.

## Main definitions

* `Spare` — memory that is in no table and in no page that is to be had.
* `Touches` — what the calls do to memory.

## Main results

* `Phys.mapPageIn_touches` — `mmu_map_page_in`.
-/

namespace Neptune

open Phys

variable {root top d x e t t' i f flags a : ℕ} {s s' u : Phys} {m m' : ByteMem}

/-- The byte at `a` is in no table of the address space, and in no page that `pmm_alloc_page` is about
to return. -/
structure Spare (s : Phys) (root a : ℕ) : Prop where
  table : ∀ {d x t}, d ≤ 3 → Lower d x → tableAt s.mem root d x = some t → ¬(t ≤ a ∧ a < t + 4096)
  pool : ∀ f ∈ s.pool, ¬(f ≤ a ∧ a < f + 4096)

/-- Memory changes in tables and in pages taken only, no table goes away, new tables are pages taken,
and the entries of the PML4 other than `index` stay. -/
structure Touches (s s' : Phys) (root index : ℕ) : Prop where
  taken : ∃ used, s.pool = used ++ s'.pool
  kept : ∀ {d x t}, d ≤ 3 → Lower d x → tableAt s.mem root d x = some t →
    tableAt s'.mem root d x = some t
  origin : ∀ {d x t}, d ≤ 3 → Lower d x → tableAt s'.mem root d x = some t →
    tableAt s.mem root d x = some t ∨ t ∈ s.pool
  mem : ∀ {a}, Spare s root a → s'.mem a = s.mem a
  entries : ∀ {i}, i < 512 → i ≠ index → entryAt s'.mem root i = entryAt s.mem root i

theorem Touches.refl (s : Phys) (root index : ℕ) : Touches s s root index :=
  ⟨⟨[], rfl⟩, fun _ _ h => h, fun _ _ h => .inl h, fun _ => rfl, fun _ _ => rfl⟩

/-- What is spare stays spare. -/
theorem Touches.spare (h : Touches s s' root i) (ha : Spare s root a) : Spare s' root a := by
  obtain ⟨used, hused⟩ := h.taken
  refine ⟨fun hd hx ht => ?_, fun f hf => ha.pool f (by simp [hused, hf])⟩
  rcases h.origin hd hx ht with hold | hnew
  · exact ha.table hd hx hold
  · exact ha.pool _ hnew

theorem Touches.trans (h : Touches s u root i) (h' : Touches u s' root i) : Touches s s' root i := by
  obtain ⟨used, hused⟩ := h.taken
  obtain ⟨used', hused'⟩ := h'.taken
  refine ⟨⟨used ++ used', by rw [hused, hused', List.append_assoc]⟩,
    fun hd hx ht => h'.kept hd hx (h.kept hd hx ht), fun hd hx ht => ?_,
    fun ha => (h'.mem (h.spare ha)).trans (h.mem ha),
    fun hi hne => (h'.entries hi hne).trans (h.entries hi hne)⟩
  rcases h'.origin hd hx ht with hold | hnew
  · exact h.origin hd hx hold
  · exact .inr (by simp [hused, hnew])

/-- An entry of a table is written. -/
theorem touches_setEntry (h : UserTables s.mem root s.window) (hd : d ≤ 3) (hx : Lower d x)
    (ht : tableAt s.mem root d x = some t) (hi : i < 512) (hroot : d = 0 → i = f)
    (hsame : ∀ d' x', d' ≤ 3 → Lower d' x' →
      tableAt (setEntry s.mem t i e) root d' x' = tableAt s.mem root d' x') :
    Touches s { s with mem := setEntry s.mem t i e } root f := by
  obtain ⟨hta, -⟩ := h.inside hd hx ht
  refine ⟨⟨[], rfl⟩, fun hd' hx' ht' => (hsame _ _ hd' hx').trans ht',
    fun hd' hx' ht' => .inl ((hsame _ _ hd' hx').symm.trans ht'), fun ha => ?_, fun hj hne => ?_⟩
  · refine ByteMem.store_apply_of_not_mem _ fun hin => ha.table hd hx ht ⟨by omega, by omega⟩
  · refine entryAt_setEntry_of_ne hta h.root_aligned hi hj fun heq => ?_
    exact hne (heq.2.trans (hroot (h.depth_root hd hx (heq.1 ▸ ht))))

/-- A new table is put into an empty entry. -/
theorem touches_newTable {pool : List ℕ} (h : UserTables s.mem root s.window) (hp : PoolOk s root)
    (hd : d < 3) (hx : Lower (d + 1) x) (ht : tableAt s.mem root d (x / 512) = some t)
    (he : entryAt s.mem t (x % 512) = 0) (hpool : s.pool = f :: pool) (hf : f + 4096 ≤ s.window)
    (hroot : d = 0 → x % 512 = i) :
    Touches s { s with
      mem := setEntry (s.mem.fill 4096 f 0) t (x % 512) (newTable f flags), pool } root i := by
  have hl := Lower.parent _ _ hx
  have hmod : x % 512 < 512 := Nat.mod_lt _ (by decide)
  have hmem : f ∈ s.pool := by simp [hpool]
  obtain ⟨hfa, hflt⟩ := hp.aligned f hmem
  have hfresh := hp.fresh f hmem
  obtain ⟨hta, -⟩ := h.inside (by omega) hl ht
  have hrf : root ≠ f := fun e => hfresh 0 0 (by omega) lower_root (e ▸ rfl)
  refine ⟨⟨[f], hpool⟩, (grows_newTable h hp hd hx ht he hpool hf).1.kept,
    fun {d' x' t'} hd' hx' ht' => ?_, fun ha => ?_, fun hj hne => ?_⟩
  · rw [tableAt_newTable flags h hd hx ht he hfa hflt hfresh d' x' hd' hx'] at ht'
    split at ht'
    · exact .inr (Option.some.inj ht' ▸ hmem)
    · exact .inl ht'
  · have hentry := ha.table (by omega) hl ht
    have hpage := ha.pool f hmem
    dsimp only
    rw [setEntry, ByteMem.store_apply_of_not_mem _ fun hin => hentry ⟨by omega, by omega⟩]
    exact if_neg hpage
  · dsimp only
    rw [entryAt_setEntry_of_ne hta h.root_aligned hmod hj fun heq => ?_,
      entryAt_fill_of_ne hfa h.root_aligned hj hrf]
    exact hne (heq.2.trans (hroot (h.depth_root (by omega) hl (heq.1 ▸ ht))))

/-- `ensure_table`. -/
theorem Phys.ensureTable_touches (h : UserTables s.mem root s.window) (hp : PoolOk s root)
    (hd : d < 3) (hx : Lower (d + 1) x) (ht : tableAt s.mem root d (x / 512) = some t)
    (hroot : d = 0 → x % 512 = i) (he : s.ensureTable t (x % 512) flags = some (t', s')) :
    Touches s s' root i := by
  have hmod : x % 512 < 512 := Nat.mod_lt _ (by decide)
  have hl := Lower.parent _ _ hx
  obtain ⟨haligned, hinside⟩ := h.inside (by omega) hl ht
  rcases h.entry hd hx ht with hzero | hentry
  · rw [ensureTable_of_absent haligned hinside hmod (by rw [hzero]; rfl) (by rw [hzero]; rfl)
      fun f hf => by have := (hp.aligned f hf).2; omega] at he
    cases hpool : s.pool with
    | nil => simp [hpool] at he
    | cons f pool =>
      simp only [hpool] at he
      split at he
      · next hf =>
        obtain ⟨-, rfl⟩ := Prod.mk.inj (Option.some.inj he)
        exact touches_newTable h hp hd hx ht hzero hpool hf hroot
      · cases he
  · rw [ensureTable_of_table haligned hinside hmod hentry.present hentry.small] at he
    obtain ⟨-, rfl⟩ := Prod.mk.inj (Option.some.inj he)
    split
    · exact touches_setEntry h (by omega) hl ht hmod hroot (tableAt_setUser h haligned hentry)
    · exact .refl s root i

/-- The way to a page. -/
theorem Phys.ensurePath_touches {virt pt : ℕ} (h : UserTables s.mem root s.window)
    (hp : PoolOk s root) (hv : virt % 4096 = 0) (hpage : Lower 4 (virt / 4096))
    (he : s.ensurePath root virt flags = some (pt, s')) : Touches s s' root (indexAt 3 virt) := by
  have hpath := ensurePath_rule (Q := fun d t u => Grows s u root ∧
    tableAt u.mem root d (above (virt / 4096) d) = some t ∧ Touches s u root (indexAt 3 virt))
    hv ⟨.refl h hp, rfl, .refl s root _⟩ ?_ he
  · exact hpath.2.2
  · rintro d t t' u u' hd ⟨hg, ht, htouches⟩ hstep
    have hlow := lower_above hpage (show d + 1 ≤ 4 by omega)
    have hparent : tableAt u.mem root d (above (virt / 4096) (d + 1) / 512) = some t := by
      rwa [above_succ (by omega)]
    obtain ⟨hg', ht', -⟩ := ensureTable_grows hg.tables hg.pool hd hlow hparent hstep
    refine ⟨hg.trans hg', ht', htouches.trans (ensureTable_touches hg.tables hg.pool hd hlow
      hparent (fun hz => ?_) hstep)⟩
    rw [hz, indexAt_of_aligned hv (by decide)]

/-- **What `mmu_map_page_in` leaves alone.** -/
theorem Phys.mapPageIn_touches {virt phys : ℕ} {r : ℤ} (h : UserTables s.mem root s.window)
    (hp : PoolOk s root) (hv : virt % 4096 = 0) (hpage : Lower 4 (virt / 4096))
    (hphys : phys < 2 ^ 64) (he : s.mapPageIn root virt phys flags = some (r, s')) :
    Touches s s' root (indexAt 3 virt) := by
  rcases mapPageIn_cases h hp hv hpage he with
    ⟨-, rfl, -⟩ | ⟨pt, u, hpath, haligned, hcases⟩
  · exact .refl s' root _
  obtain ⟨hgrows, hpt, huser⟩ := ensurePath_spec h hp hv hpage hpath
  have htouches := ensurePath_touches h hp hv hpage hpath
  rcases hcases with ⟨-, rfl, -⟩ | ⟨-, rfl, -⟩
  · exact htouches
  · have hbit : (pteFor phys flags).testBit 2 = flags.testBit 2 := by
      rw [testBit_pteFor hphys haligned, testBit_of_aligned haligned (by decide)]
      simp
    have hset := hgrows.tables.setLeaf hpage hpt (pteFor_lt hphys haligned) fun hb => huser (hbit ▸ hb)
    exact htouches.trans (touches_setEntry hgrows.tables le_rfl (lower_above hpage (by decide)) hpt
      (Nat.mod_lt _ (by decide)) (fun hz => absurd hz (by decide)) hset.same)

end Neptune
