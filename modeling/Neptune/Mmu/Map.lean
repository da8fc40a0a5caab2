import Neptune.Mmu.Tables

/-!
# Mapping a page

`ensure_table` finds or makes the table below an entry.  It changes no translation:
a new table is empty, and the right of the user is only added on the way to pages that
have it or are about to get it.  `mmu_map_page_in` then writes one entry.

## Main definitions

* `PoolOk` — the pages that `pmm_alloc_page` is about to return are fresh.
* `Grows` — what `ensure_table` does to the tables.
* `Maps` — what `mmu_map_page_in` does to them.

## Main results

* `Phys.ensureTable_grows` — `ensure_table`.
* `Phys.mapPageIn_spec`, `Phys.mapPageIn_returns` — `mmu_map_page_in`.
-/

namespace Neptune

open Option Phys
open Word64 (u64 not64)

variable {m m' : ByteMem} {root top d x e t t' i f flags : ℕ} {s s' u : Phys}

/-! ### `ensure_table` on one entry -/

/-- The entry of a new table. -/
abbrev newTable (f flags : ℕ) : ℕ :=
  f ||| ptePresent ||| pteRw ||| if has flags mmuFlagUser then pteUser else 0

theorem newTable_spec (hf : f % 4096 = 0) (hlt : f < 2 ^ 52) :
    TableEntry (newTable f flags) ∧ pageOf (newTable f flags) = f ∧
      (newTable f flags).testBit 2 = flags.testBit 2 := by
  rw [newTable, has_mmuFlagUser]
  cases flags.testBit 2 with
  | true => exact tableEntry_new hf hlt (.inr rfl)
  | false => exact tableEntry_new hf hlt (.inl rfl)

theorem Phys.ensureTable_of_table (ha : t % 4096 = 0) (ht : t + 4096 ≤ s.window) (hi : i < 512)
    (hpresent : (entryAt s.mem t i).testBit 0 = true)
    (hsmall : (entryAt s.mem t i).testBit 7 = false) :
    s.ensureTable t i flags = some (pageOf (entryAt s.mem t i),
      if flags.testBit 2 && !(entryAt s.mem t i).testBit 2 then
        { s with mem := setEntry s.mem t i (entryAt s.mem t i ||| pteUser) }
      else s) := by
  rw [Phys.ensureTable, readTable_of_inside ha ht hi]
  simp only [bind_eq_bind, bind_some, has_ps, hsmall, has_present, hpresent,
    has_mmuFlagUser, has_user, writeTable_of_inside ha ht hi, if_true, Bool.false_eq_true,
    if_false]
  split <;> rfl

theorem Phys.ensureTable_of_absent (ha : t % 4096 = 0) (ht : t + 4096 ≤ s.window) (hi : i < 512)
    (habsent : (entryAt s.mem t i).testBit 0 = false)
    (hsmall : (entryAt s.mem t i).testBit 7 = false) (hpool : ∀ f ∈ s.pool, f < 2 ^ 64) :
    s.ensureTable t i flags =
      match s.pool with
      | [] => none
      | f :: pool =>
        if f + 4096 ≤ s.window then
          some (f, { s with
            mem := setEntry (s.mem.fill 4096 f 0) t i (newTable f flags)
            pool })
        else none := by
  rw [Phys.ensureTable, readTable_of_inside ha ht hi]
  simp only [bind_eq_bind, bind_some, has_ps, hsmall, has_present, habsent,
    Bool.false_eq_true, if_false]
  cases hp : s.pool with
  | nil =>
    have halloc : s.pmmAllocPage = none := by rw [Phys.pmmAllocPage, hp]
    rw [halloc]
    rfl
  | cons f pool =>
    have hf : f < 2 ^ 64 := hpool f (by simp [hp])
    have halloc : s.pmmAllocPage = some (f, { s with pool }) := by rw [Phys.pmmAllocPage, hp]
    rw [halloc, bind_some]
    simp only [zeroPage_eq hf]
    split
    · rw [bind_some, writeTable_of_inside ha (by exact ht) hi]
      rfl
    · rfl

/-! ### Fresh pages -/

/-- The pages that `pmm_alloc_page` is about to return are aligned, below 2^52 and no tables
of the address space. -/
structure PoolOk (s : Phys) (root : ℕ) : Prop where
  nodup : s.pool.Nodup
  aligned : ∀ f ∈ s.pool, f % 4096 = 0 ∧ f < 2 ^ 52
  fresh : ∀ f ∈ s.pool, ∀ d x, d ≤ 3 → Lower d x → tableAt s.mem root d x ≠ some f

theorem Phys.pmmAllocPage_eq_some :
    s.pmmAllocPage = some (f, s') ↔ ∃ pool, s.pool = f :: pool ∧ s' = { s with pool } := by
  rw [Phys.pmmAllocPage]
  cases s.pool with
  | nil => simp
  | cons g pool =>
    constructor
    · intro h
      obtain ⟨rfl, rfl⟩ := Prod.mk.inj (some.inj h)
      exact ⟨pool, rfl, rfl⟩
    · rintro ⟨pool, hpool, rfl⟩
      obtain ⟨rfl, rfl⟩ := List.cons.inj hpool
      rfl

/-- After a page has been taken, it is not among those that are left. -/
theorem PoolOk.tail {pool : List ℕ} (hp : PoolOk s root) (hpool : s.pool = f :: pool) :
    f ∉ pool ∧ PoolOk { s with pool } root := by
  have hnodup := List.nodup_cons.mp (hpool ▸ hp.nodup)
  have htail : ∀ {g}, g ∈ pool → g ∈ s.pool := fun hg => by simp [hpool, hg]
  exact ⟨hnodup.1, hnodup.2, fun g hg => hp.aligned g (htail hg), fun g hg => hp.fresh g (htail hg)⟩

/-- The tables grow: nothing is mapped or unmapped, no table goes away and no entry loses the
right of the user. -/
structure Grows (s s' : Phys) (root : ℕ) : Prop where
  window : s'.window = s.window
  hhdm : s'.hhdm = s.hhdm
  tables : UserTables s'.mem root s'.window
  pool : PoolOk s' root
  taken : ∃ used, s.pool = used ++ s'.pool
  leaf : ∀ {page}, Lower 4 page → leafAt s'.mem root page = leafAt s.mem root page
  kept : ∀ {d x t}, d ≤ 3 → Lower d x → tableAt s.mem root d x = some t →
    tableAt s'.mem root d x = some t
  user : ∀ {d x t}, d < 3 → Lower (d + 1) x → tableAt s.mem root d (x / 512) = some t →
    (entryAt s.mem t (x % 512)).testBit 2 = true → (entryAt s'.mem t (x % 512)).testBit 2 = true
  upper : ∀ {i}, 256 ≤ i → i < 512 → entryAt s'.mem root i = entryAt s.mem root i

theorem Grows.refl (h : UserTables s.mem root s.window) (hp : PoolOk s root) : Grows s s root :=
  ⟨rfl, rfl, h, hp, ⟨[], rfl⟩, fun _ => rfl, fun _ _ h => h, fun _ _ _ h => h, fun _ _ => rfl⟩

theorem Grows.trans (h : Grows s u root) (h' : Grows u s' root) : Grows s s' root := by
  refine ⟨h'.window.trans h.window, h'.hhdm.trans h.hhdm, h'.tables, h'.pool, ?_,
    fun hp => (h'.leaf hp).trans (h.leaf hp),
    fun hd hx ht => h'.kept hd hx (h.kept hd hx ht),
    fun hd hx ht hu => h'.user hd hx (h.kept (by omega) (Lower.parent _ _ hx) ht) (h.user hd hx ht hu),
    fun hi hi' => (h'.upper hi hi').trans (h.upper hi hi')⟩
  obtain ⟨used, hused⟩ := h.taken
  obtain ⟨used', hused'⟩ := h'.taken
  exact ⟨used ++ used', by rw [hused, hused', List.append_assoc]⟩

/-- A page with an entry has all its tables. -/
theorem tables_of_leafAt {page : ℕ} (h : leafAt m root page ≠ 0) :
    ∀ d, d ≤ 3 → ∃ t, tableAt m root d (above page d) = some t := by
  intro d hd
  rw [leafAt] at h
  split at h
  · next pt hpt => exact tables_above _ hpt (by decide) hd
  · exact absurd rfl h

/-- The right of the user on the way to a page stays as long as no entry loses it. -/
theorem UserPath.mono {page : ℕ} (h : UserPath m root page) (hp : Lower 4 page)
    (hleaf : leafAt m root page ≠ 0)
    (kept : ∀ {d x t}, d ≤ 3 → Lower d x → tableAt m root d x = some t →
      tableAt m' root d x = some t)
    (user : ∀ {d x t}, d < 3 → Lower (d + 1) x → tableAt m root d (x / 512) = some t →
      (entryAt m t (x % 512)).testBit 2 = true → (entryAt m' t (x % 512)).testBit 2 = true) :
    UserPath m' root page := by
  intro d t hd ht
  obtain ⟨u, hu⟩ := tables_of_leafAt hleaf d (by omega)
  obtain rfl : u = t :=
    some.inj ((kept (by omega) (lower_above hp (by omega)) hu).symm.trans ht)
  have hparent : tableAt m root d (above page (d + 1) / 512) = some u := by
    rwa [above_succ (by omega)]
  exact user hd (lower_above hp (by omega)) hparent (h d u hd hu)

/-! ### The tables after one entry has changed -/

/-- No table goes away or comes when an entry gets the right of the user. -/
theorem tableAt_setUser (h : UserTables m root top) (ha : t % 4096 = 0)
    (he : TableEntry (entryAt m t (x % 512))) :
    ∀ d' x', d' ≤ 3 → Lower d' x' →
      tableAt (setEntry m t (x % 512) (entryAt m t (x % 512) ||| pteUser)) root d' x' =
        tableAt m root d' x' := by
  obtain ⟨he', hpage, -⟩ := he.or_user
  refine nodeAt_congr Lower.parent fun d y u hd hy hu => ?_
  have hua := (h.inside (by omega) (Lower.parent _ _ hy) hu).1
  rw [nextTable, nextTable]
  by_cases hne : u = t ∧ y % 512 = x % 512
  · rw [hne.1, hne.2, entryAt_setEntry_self (by have := he'.lt; omega), he'.entryFrame,
      he.entryFrame, hpage, he.present, he'.present]
  · rw [entryAt_setEntry_of_ne ha hua (mod_512_lt x) (mod_512_lt y) hne]

/-- A new table, and no other, comes when it is put into an empty entry. -/
theorem tableAt_newTable (flags : ℕ) (h : UserTables m root top) (hd : d < 3) (hx : Lower (d + 1) x)
    (ht : tableAt m root d (x / 512) = some t) (he : entryAt m t (x % 512) = 0)
    (hfa : f % 4096 = 0) (hflt : f < 2 ^ 52)
    (hfresh : ∀ d x, d ≤ 3 → Lower d x → tableAt m root d x ≠ some f) :
    ∀ d' x', d' ≤ 3 → Lower d' x' →
      tableAt (setEntry (m.fill 4096 f 0) t (x % 512) (newTable f flags)) root d' x' =
        if d' = d + 1 ∧ x' = x then some f else tableAt m root d' x' := by
  have haligned := (h.inside (by omega) (Lower.parent _ _ hx) ht).1
  have htf : t ≠ f := fun e => hfresh d _ (by omega) (Lower.parent _ _ hx) (e ▸ ht)
  obtain ⟨he', hpage, -⟩ : TableEntry (newTable f flags) ∧ pageOf (newTable f flags) = f ∧ _ :=
    newTable_spec hfa hflt
  refine nodeAt_link Lower.parent h.unshared hd hx ht ?_ (fun y => ?_) ?_ fun d' y u hd' hy hu hne => ?_
  · rw [nextTable, he]
    rfl
  · rw [nextTable, entryAt_setEntry_of_ne haligned hfa (mod_512_lt x) (mod_512_lt y) fun hne => htf hne.1.symm,
      entryAt_fill_self (mod_512_lt y)]
    rfl
  · rw [nextTable, entryAt_setEntry_self (by have := he'.lt; omega), if_pos he'.present,
      he'.entryFrame, hpage]
  · have hl := Lower.parent _ _ hy
    have huf : u ≠ f := fun e => hfresh d' _ (by omega) hl (e ▸ hu)
    have hua := (h.inside (by omega) hl hu).1
    rw [nextTable, nextTable, entryAt_setEntry_of_ne haligned hua (mod_512_lt x) (mod_512_lt y) hne,
      entryAt_fill_of_ne hfa hua (mod_512_lt y) huf]

/-- **An entry above the page tables changes**: it leads to a table and has the right of the user as
before, no table goes away, and new ones are empty pages of those that were taken. -/
theorem grows_of_entry {used pool : List ℕ} (h : UserTables s.mem root s.window) (hp : PoolOk s root)
    (hd : d < 3) (hx : Lower (d + 1) x) (ht : tableAt s.mem root d (x / 512) = some t)
    (hpool : s.pool = used ++ pool) (hun : Unshared (nextTable m) 512 root 3 Lower)
    (hkept : ∀ {d x t}, d ≤ 3 → Lower d x → tableAt s.mem root d x = some t →
      tableAt m root d x = some t)
    (hnew : ∀ {d x t}, d ≤ 3 → Lower d x → tableAt m root d x = some t →
      tableAt s.mem root d x = some t ∨
        (t ∈ used ∧ t + 4096 ≤ s.window ∧ ∀ {j}, j < 512 → entryAt m t j = 0))
    (hself : TableEntry (entryAt m t (x % 512)))
    (huser : (entryAt s.mem t (x % 512)).testBit 2 = true → (entryAt m t (x % 512)).testBit 2 = true)
    (hother : ∀ {d' x' t' j}, d' ≤ 3 → Lower d' x' → tableAt s.mem root d' x' = some t' → j < 512 →
      ¬(t' = t ∧ j = x % 512) → entryAt m t' j = entryAt s.mem t' j) :
    Grows s { s with mem := m, pool } root := by
  have hl := Lower.parent _ _ hx
  have husers : ∀ {d' x' t'}, d' < 3 → Lower (d' + 1) x' →
      tableAt s.mem root d' (x' / 512) = some t' →
      (entryAt s.mem t' (x' % 512)).testBit 2 = true →
      (entryAt m t' (x' % 512)).testBit 2 = true := by
    intro d' x' t' hd' hx' ht' hbit
    by_cases hne : t' = t ∧ x' % 512 = x % 512
    · rw [hne.1, hne.2] at hbit ⊢
      exact huser hbit
    · rwa [hother (by omega) (Lower.parent _ _ hx') ht' (mod_512_lt x') hne]
  have hleaf : ∀ {page}, Lower 4 page → leafAt m root page = leafAt s.mem root page := by
    intro page hpage
    have hl3 := lower_above hpage (show 3 ≤ 4 by decide)
    rw [leafAt, leafAt]
    cases hpt : tableAt s.mem root 3 (above page 3) with
    | none =>
      split
      · next pt hpt' =>
        obtain ⟨-, -, hempty⟩ := (hnew le_rfl hl3 hpt').resolve_left (by simp [hpt])
        exact hempty (mod_512_lt page)
      · rfl
    | some pt =>
      rw [hkept le_rfl hl3 hpt]
      -- the page table is not the table that has changed, which lies above
      refine hother le_rfl hl3 hpt (mod_512_lt page) fun hne => ?_
      have hsame := h.unshared.inj (by omega) (by omega) hl3 hl hpt (hne.1 ▸ ht)
      omega
  have hnodup := List.nodup_append.mp (hpool ▸ hp.nodup)
  refine ⟨rfl, rfl, ⟨hun, fun hd' hx' ht' => ?_, fun {d' x' t'} hd' hx' ht' => ?_,
    fun {page} hpage hpres hbit => ?_⟩, ⟨hnodup.2.1, fun g hg => hp.aligned g (by simp [hpool, hg]),
    fun g hg d' x' hd' hx' ht' => ?_⟩, ⟨used, hpool⟩, hleaf, hkept, husers, fun {i} hi hi' => ?_⟩
  · rcases hnew hd' hx' ht' with hold | ⟨hused, hin, -⟩
    · exact h.inside hd' hx' hold
    · exact ⟨(hp.aligned _ (by simp [hpool, hused])).1, hin⟩
  · have hl' := Lower.parent _ _ hx'
    rcases hnew (by omega) hl' ht' with hold | ⟨-, -, hempty⟩
    · by_cases hne : t' = t ∧ x' % 512 = x % 512
      · rw [hne.1, hne.2]
        exact .inr hself
      · rw [hother (by omega) hl' hold (mod_512_lt x') hne]
        exact h.entry hd' hx' hold
    · exact .inl (hempty (mod_512_lt x'))
  · rw [hleaf hpage] at hpres hbit
    have hne : leafAt s.mem root page ≠ 0 := fun hz => by
      rw [hz] at hpres
      simp at hpres
    exact (h.user hpage hpres hbit).mono hpage hne hkept husers
  · rcases hnew hd' hx' ht' with hold | ⟨hused, -⟩
    · exact hp.fresh g (by simp [hpool, hg]) d' x' hd' hx' hold
    · exact hnodup.2.2 g hused g hg rfl
  · refine hother (by omega) lower_root rfl hi' fun hne => ?_
    obtain rfl := h.depth_root (by omega) hl (hne.1 ▸ ht)
    unfold Lower at hx
    omega

/-- An entry of a table gets the right of the user. -/
theorem grows_setUser (h : UserTables s.mem root s.window) (hp : PoolOk s root) (hd : d < 3)
    (hx : Lower (d + 1) x) (ht : tableAt s.mem root d (x / 512) = some t)
    (he : TableEntry (entryAt s.mem t (x % 512))) :
    Grows s { s with mem := setEntry s.mem t (x % 512) (entryAt s.mem t (x % 512) ||| pteUser) }
      root := by
  have haligned := (h.inside (by omega) (Lower.parent _ _ hx) ht).1
  obtain ⟨he', -, huser⟩ := he.or_user
  have hself : entryAt (setEntry s.mem t (x % 512) (entryAt s.mem t (x % 512) ||| pteUser)) t
      (x % 512) = entryAt s.mem t (x % 512) ||| pteUser :=
    entryAt_setEntry_self (by have := he'.lt; omega)
  have htable := tableAt_setUser h haligned he
  refine grows_of_entry h hp hd hx ht (List.nil_append s.pool).symm (h.unshared.congr htable)
    (fun hd' hx' ht' => (htable _ _ hd' hx').trans ht')
    (fun hd' hx' ht' => .inl ((htable _ _ hd' hx').symm.trans ht')) (by rwa [hself])
    (fun _ => by rwa [hself]) fun hd' hx' ht' hj hne => ?_
  exact entryAt_setEntry_of_ne haligned (h.inside hd' hx' ht').1 (mod_512_lt x) hj hne

/-- An empty entry leads to a new table. -/
theorem grows_newTable {pool : List ℕ} (h : UserTables s.mem root s.window) (hp : PoolOk s root)
    (hd : d < 3) (hx : Lower (d + 1) x) (ht : tableAt s.mem root d (x / 512) = some t)
    (he : entryAt s.mem t (x % 512) = 0) (hpool : s.pool = f :: pool) (hf : f + 4096 ≤ s.window) :
    Grows s { s with
      mem := setEntry (s.mem.fill 4096 f 0) t (x % 512) (newTable f flags), pool } root ∧
    tableAt (setEntry (s.mem.fill 4096 f 0) t (x % 512) (newTable f flags)) root (d + 1) x =
      some f := by
  have hmemf : f ∈ s.pool := by simp [hpool]
  obtain ⟨hfa, hflt⟩ := hp.aligned f hmemf
  have hfresh := hp.fresh f hmemf
  have haligned := (h.inside (by omega) (Lower.parent _ _ hx) ht).1
  have htf : t ≠ f := fun e => hfresh d _ (by omega) (Lower.parent _ _ hx) (e ▸ ht)
  obtain ⟨he', -, -⟩ : TableEntry (newTable f flags) ∧ pageOf (newTable f flags) = f ∧ _ :=
    newTable_spec hfa hflt
  have htable := tableAt_newTable flags h hd hx ht he hfa hflt hfresh
  refine ⟨grows_of_entry h hp hd hx ht (show s.pool = [f] ++ pool from hpool)
    (h.unshared.link hfresh htable)
    (fun {d' x' t'} hd' hx' ht' => ?_) (fun {d' x' t'} hd' hx' ht' => ?_) ?_ (fun hbit => ?_)
    fun {d' x' t' j} hd' hx' ht' hj hne => ?_, ?_⟩
  · have hne : ¬(d' = d + 1 ∧ x' = x) := by
      rintro ⟨rfl, rfl⟩
      obtain ⟨u, hu, hnext⟩ := nodeAt_parent ht'
      obtain rfl : t = u := some.inj (ht.symm.trans hu)
      rw [nextTable, he] at hnext
      cases hnext
    rw [htable d' x' hd' hx', if_neg hne, ht']
  · rw [htable d' x' hd' hx'] at ht'
    split at ht'
    · obtain rfl := some.inj ht'
      refine .inr ⟨List.mem_singleton_self f, hf, fun hj => ?_⟩
      rw [entryAt_setEntry_of_ne haligned hfa (mod_512_lt x) hj fun hne => htf hne.1.symm,
        entryAt_fill_self hj]
    · exact .inl ht'
  · rwa [entryAt_setEntry_self (by have := he'.lt; omega)]
  · rw [he] at hbit
    simp at hbit
  · have hua := (h.inside hd' hx' ht').1
    rw [entryAt_setEntry_of_ne haligned hua (mod_512_lt x) hj hne,
      entryAt_fill_of_ne hfa hua hj fun e => hfresh d' _ hd' hx' (e ▸ ht')]
  · rw [htable (d + 1) x (by omega) hx, if_pos ⟨rfl, rfl⟩]

/-- **`ensure_table` changes no translation**, and returns the table below the entry. -/
theorem Phys.ensureTable_grows (h : UserTables s.mem root s.window) (hp : PoolOk s root)
    (hd : d < 3) (hx : Lower (d + 1) x) (ht : tableAt s.mem root d (x / 512) = some t)
    (he : s.ensureTable t (x % 512) flags = some (t', s')) :
    Grows s s' root ∧ tableAt s'.mem root (d + 1) x = some t' ∧
      (flags.testBit 2 = true → (entryAt s'.mem t (x % 512)).testBit 2 = true) := by
  have hmod : x % 512 < 512 := Nat.mod_lt _ (by decide)
  have hl := Lower.parent _ _ hx
  obtain ⟨haligned, hinside⟩ := h.inside (by omega) hl ht
  have hchild : ∀ {m : ByteMem}, tableAt m root d (x / 512) = some t →
      TableEntry (entryAt m t (x % 512)) →
      tableAt m root (d + 1) x = some (pageOf (entryAt m t (x % 512))) := by
    intro m hm hentry
    have hsome : nodeAt (nextTable m) 512 root d (x / 512) = some t := hm
    rw [tableAt, nodeAt_succ, hsome, bind_some, nextTable, if_pos hentry.present, hentry.entryFrame]
  rcases h.entry hd hx ht with hzero | hentry
  · rw [ensureTable_of_absent haligned hinside hmod (by rw [hzero]; rfl) (by rw [hzero]; rfl)
      fun f hf => by have := (hp.aligned f hf).2; omega] at he
    cases hpool : s.pool with
    | nil => simp [hpool] at he
    | cons f pool =>
      simp only [hpool] at he
      split at he
      · next hf =>
        obtain ⟨rfl, rfl⟩ := Prod.mk.inj (some.inj he)
        obtain ⟨hgrows, hnew⟩ := grows_newTable h hp hd hx ht hzero hpool hf
        refine ⟨hgrows, hnew, fun huser => ?_⟩
        obtain ⟨hfa, hflt⟩ := hp.aligned f (by simp [hpool])
        obtain ⟨hnewEntry, -, hbit⟩ : TableEntry (newTable f flags) ∧ _ ∧
            (newTable f flags).testBit 2 = flags.testBit 2 := newTable_spec hfa hflt
        have hself : entryAt (setEntry (s.mem.fill 4096 f 0) t (x % 512) (newTable f flags)) t
            (x % 512) = newTable f flags :=
          entryAt_setEntry_self (by have := hnewEntry.lt; omega)
        exact (congrArg (·.testBit 2) hself).trans (hbit.trans huser)
      · cases he
  · rw [ensureTable_of_table haligned hinside hmod hentry.present hentry.small] at he
    obtain ⟨rfl, rfl⟩ := Prod.mk.inj (some.inj he)
    obtain ⟨hentry', hpage, huser⟩ := hentry.or_user
    split
    · have hgrows := grows_setUser h hp hd hx ht hentry
      have hself : entryAt (setEntry s.mem t (x % 512) (entryAt s.mem t (x % 512) ||| pteUser)) t
          (x % 512) = entryAt s.mem t (x % 512) ||| pteUser :=
        entryAt_setEntry_self (by have := hentry'.lt; omega)
      refine ⟨hgrows, ?_, fun _ => (congrArg (·.testBit 2) hself).trans huser⟩
      have hnew := hchild (hgrows.kept (by omega) hl ht) (by dsimp only; rw [hself]; exact hentry')
      dsimp only at hnew
      rwa [hself, hpage] at hnew
    · next hno =>
      refine ⟨.refl h hp, hchild ht hentry, fun hflag => ?_⟩
      simpa [hflag] using hno

/-! ### The entry of the page -/

/-- What `mmu_map_page_in` does when it returns 0: one page has a new entry. -/
structure Maps (s s' : Phys) (root page entry : ℕ) : Prop where
  window : s'.window = s.window
  hhdm : s'.hhdm = s.hhdm
  tables : UserTables s'.mem root s'.window
  pool : PoolOk s' root
  taken : ∃ used, s.pool = used ++ s'.pool
  leaf : leafAt s'.mem root page = entry
  others : ∀ {p}, Lower 4 p → p ≠ page → leafAt s'.mem root p = leafAt s.mem root p
  upper : ∀ {i}, 256 ≤ i → i < 512 → entryAt s'.mem root i = entryAt s.mem root i

/-- What writing an entry of a page table does to the tables. -/
structure SetLeaf (m m' : ByteMem) (root top page entry : ℕ) : Prop where
  tables : UserTables m' root top
  same : ∀ d x, d ≤ 3 → Lower d x → tableAt m' root d x = tableAt m root d x
  leaf : leafAt m' root page = entry
  others : ∀ {p}, Lower 4 p → p ≠ page → leafAt m' root p = leafAt m root p
  upper : ∀ {i}, 256 ≤ i → i < 512 → entryAt m' root i = entryAt m root i

theorem UserTables.setLeaf {page pt : ℕ} (h : UserTables m root top) (hpage : Lower 4 page)
    (hpt : tableAt m root 3 (above page 3) = some pt) (he : e < 2 ^ 64)
    (huser : e.testBit 2 = true → UserPath m root page) :
    SetLeaf m (setEntry m pt (page % 512) e) root top page e := by
  have hl3 : Lower 3 (above page 3) := lower_above hpage (by decide)
  have haligned := (h.inside (by omega) hl3 hpt).1
  have hself : entryAt (setEntry m pt (page % 512) e) pt (page % 512) = e :=
    entryAt_setEntry_self he
  generalize hm : setEntry m pt (page % 512) e = m' at *
  have hother : ∀ {u j}, u % 4096 = 0 → j < 512 → ¬(u = pt ∧ j = page % 512) →
      entryAt m' u j = entryAt m u j := fun hu hj hne => by
    rw [← hm]
    exact entryAt_setEntry_of_ne haligned hu (mod_512_lt page) hj hne
  -- the tables above are other tables, so that no way to a page changes
  have habove : ∀ {d x t}, d < 3 → Lower (d + 1) x → tableAt m root d (x / 512) = some t →
      entryAt m' t (x % 512) = entryAt m t (x % 512) := by
    intro d x t hd hx ht
    have hl := Lower.parent _ _ hx
    refine hother (h.inside (by omega) hl ht).1 (mod_512_lt x) fun hne => ?_
    have hsame := h.unshared.inj (by omega) (by omega) hl hl3 ht (hne.1 ▸ hpt)
    omega
  have htable : ∀ d x, d ≤ 3 → Lower d x → tableAt m' root d x = tableAt m root d x :=
    nodeAt_congr Lower.parent fun d x t hd hx ht => by
      rw [nextTable, nextTable, habove hd hx ht]
  have hleaf : ∀ {p}, Lower 4 p → p ≠ page → leafAt m' root p = leafAt m root p := by
    intro p hp' hne
    have hlp : Lower 3 (above p 3) := lower_above hp' (by decide)
    rw [leafAt, leafAt, htable 3 _ (by omega) hlp]
    cases hu : tableAt m root 3 (above p 3) with
    | none => rfl
    | some u =>
      refine hother (h.inside (by omega) hlp hu).1 (mod_512_lt p) fun hsame => ?_
      have hpos := (h.unshared.inj (by omega) (by omega) hlp hl3 hu (hsame.1 ▸ hpt)).2
      have hdiv : p / 512 = page / 512 := by simpa [above] using hpos
      exact hne (by omega)
  have hself' : leafAt m' root page = e := by
    rw [leafAt, htable 3 _ (by omega) hl3, hpt]
    exact hself
  have hpath : ∀ {p}, Lower 4 p → UserPath m root p → UserPath m' root p := by
    intro p hp' huser d t hd ht
    have hl := lower_above hp' (show d + 1 ≤ 4 by omega)
    rw [htable d _ (by omega) (lower_above hp' (by omega))] at ht
    have ht' : tableAt m root d (above p (d + 1) / 512) = some t := by
      rwa [above_succ (by omega)]
    rw [habove hd hl ht']
    exact huser d t hd ht
  refine ⟨⟨h.unshared.congr htable, fun hd hx ht => ?_, fun hd hx ht => ?_,
    fun {p} hp' hpres hbit => ?_⟩, htable, hself', hleaf, fun {i} hi hi' => ?_⟩
  · exact h.inside hd hx ((htable _ _ hd hx).symm.trans ht)
  · have hold := (htable _ _ (by omega) (Lower.parent _ _ hx)).symm.trans ht
    rw [habove hd hx hold]
    exact h.entry hd hx hold
  · by_cases hne : p = page
    · subst hne
      rw [hself'] at hbit
      exact hpath hp' (huser hbit)
    · rw [hleaf hp' hne] at hpres hbit
      exact hpath hp' (h.user hp' hpres hbit)
  · refine hother h.root_aligned hi' fun hne => ?_
    have hdepth := h.depth_root le_rfl hl3 (hne.1 ▸ hpt)
    omega

/-- Writing an entry of a page table in the window. -/
theorem maps_setEntry {page pt : ℕ} (h : UserTables s.mem root s.window) (hp : PoolOk s root)
    (hpage : Lower 4 page) (hpt : tableAt s.mem root 3 (above page 3) = some pt)
    (he : e < 2 ^ 64) (huser : e.testBit 2 = true → UserPath s.mem root page) :
    Maps s { s with mem := setEntry s.mem pt (page % 512) e } root page e := by
  have hset := h.setLeaf hpage hpt he huser
  refine ⟨rfl, rfl, hset.tables, ⟨hp.nodup, hp.aligned, fun f hf d x hd hx => ?_⟩, ⟨[], rfl⟩,
    hset.leaf, hset.others, hset.upper⟩
  have hfresh := hp.fresh f hf d x hd hx
  rwa [← hset.same d x hd hx] at hfresh

/-! ### `mmu_map_page_in` -/

/-- The three calls of `ensure_table`. -/
def Phys.ensurePath (s : Phys) (pml4 virt flags : ℕ) : Option (ℕ × Phys) := do
  let (pdpt, s) ← s.ensureTable pml4 (indexAt 3 virt) flags
  let (pd, s) ← s.ensureTable pdpt (indexAt 2 virt) flags
  s.ensureTable pd (indexAt 1 virt) flags

theorem Phys.mapPageIn_eq {pml4 virt phys : ℕ} :
    s.mapPageIn pml4 virt phys flags =
      if pml4 = 0 ∨ has pml4 0xFFF ∨ has virt 0xFFF ∨ has phys 0xFFF then some (-1, s)
      else (s.ensurePath pml4 virt flags).bind fun r =>
        (r.2.readTable r.1 (indexAt 0 virt)).bind fun existing =>
          if has existing ptePresent && pageOf existing != pageOf phys then some (-1, r.2)
          else (r.2.writeTable r.1 (indexAt 0 virt) (pteFor phys flags)).map fun s => (0, s) := by
  rw [Phys.mapPageIn, Phys.ensurePath]
  split
  · rfl
  · simp only [bind_eq_bind, bind_assoc]
    congr 1
    funext r
    congr 1
    funext r
    congr 1
    funext r
    congr 1
    funext existing
    split
    · rfl
    · cases r.2.writeTable r.1 (indexAt 0 virt) (pteFor phys flags) <;> rfl

theorem indexAt_of_aligned {virt level : ℕ} (hv : virt % 4096 = 0) (hl : level ≤ 4) :
    indexAt level virt = above (virt / 4096) (4 - level) % 512 := by
  have hsplit : virt / 4096 * 4096 + 0 = virt := by omega
  have hindex : indexAt level (virt / 4096 * 4096 + 0) = above (virt / 4096) (4 - level) % 512 :=
    indexAt_eq (by decide) hl
  rwa [hsplit] at hindex

/-- **The way to a page**: each of the three calls takes `Q` one table down. -/
theorem Phys.ensurePath_rule {virt pt : ℕ} {Q : ℕ → ℕ → Phys → Prop} (hv : virt % 4096 = 0)
    (hroot : Q 0 root s)
    (hstep : ∀ d t t' u u', d < 3 → Q d t u →
      u.ensureTable t (above (virt / 4096) (d + 1) % 512) flags = some (t', u') → Q (d + 1) t' u')
    (he : s.ensurePath root virt flags = some (pt, s')) : Q 3 pt s' := by
  obtain ⟨⟨pdpt, s₁⟩, he₁, he⟩ := bind_eq_some_iff.mp he
  obtain ⟨⟨pd, s₂⟩, he₂, he₃⟩ := bind_eq_some_iff.mp he
  dsimp only at he₂ he₃
  rw [indexAt_of_aligned hv (by decide)] at he₁ he₂ he₃
  have h₁ := hstep 0 _ _ _ _ (by decide) hroot he₁
  have h₂ := hstep 1 _ _ _ _ (by decide) h₁ he₂
  exact hstep 2 _ _ _ _ (by decide) h₂ he₃

theorem Phys.ensurePath_progress (flags : ℕ) {virt : ℕ} {Q : ℕ → ℕ → Phys → Prop} (hv : virt % 4096 = 0)
    (hroot : Q 0 root s)
    (hstep : ∀ d t u, d < 3 → Q d t u → ∃ t' u',
      u.ensureTable t (above (virt / 4096) (d + 1) % 512) flags = some (t', u') ∧ Q (d + 1) t' u') :
    ∃ pt s', s.ensurePath root virt flags = some (pt, s') ∧ Q 3 pt s' := by
  have hindex : ∀ d < 3, indexAt (3 - d) virt = above (virt / 4096) (d + 1) % 512 := by
    intro d hd
    rw [indexAt_of_aligned hv (by omega), show 4 - (3 - d) = d + 1 by omega]
  obtain ⟨pdpt, s₁, he₁, h₁⟩ := hstep 0 root s (by decide) hroot
  obtain ⟨pd, s₂, he₂, h₂⟩ := hstep 1 pdpt s₁ (by decide) h₁
  obtain ⟨pt, s₃, he₃, h₃⟩ := hstep 2 pd s₂ (by decide) h₂
  rw [← hindex _ (by decide)] at he₁ he₂ he₃
  exact ⟨pt, s₃, bind_eq_some_iff.mpr ⟨_, he₁, bind_eq_some_iff.mpr ⟨_, he₂, he₃⟩⟩, h₃⟩

/-- The way to a page: nothing is mapped by making it, and it has the right of the user if
that is asked for. -/
theorem Phys.ensurePath_spec {virt pt : ℕ} (h : UserTables s.mem root s.window)
    (hp : PoolOk s root) (hv : virt % 4096 = 0) (hpage : Lower 4 (virt / 4096))
    (he : s.ensurePath root virt flags = some (pt, s')) :
    Grows s s' root ∧ tableAt s'.mem root 3 (above (virt / 4096) 3) = some pt ∧
      (flags.testBit 2 = true → UserPath s'.mem root (virt / 4096)) := by
  have hpath := ensurePath_rule (Q := fun d t u => Grows s u root ∧
    tableAt u.mem root d (above (virt / 4096) d) = some t ∧ (flags.testBit 2 = true →
      ∀ d' t', d' < d → tableAt u.mem root d' (above (virt / 4096) d') = some t' →
        (entryAt u.mem t' (above (virt / 4096) (d' + 1) % 512)).testBit 2 = true))
    hv ⟨.refl h hp, rfl, fun _ _ _ hd => absurd hd (Nat.not_lt_zero _)⟩ ?_ he
  · exact ⟨hpath.1, hpath.2.1, fun hflag d t hd ht => hpath.2.2 hflag d t hd ht⟩
  · rintro d t t' u u' hd ⟨hg, ht, huser⟩ hstep
    obtain ⟨hg', ht', hbit⟩ := ensureTable_grows hg.tables hg.pool hd
      (lower_above hpage (by omega)) (by rwa [above_succ (by omega)]) hstep
    refine ⟨hg.trans hg', ht', fun hflag d' v hd' hv => ?_⟩
    -- the entry just written, or one above it
    obtain ⟨w, hw⟩ := tables_above d' ht (by omega) (by omega)
    obtain rfl : w = v :=
      some.inj ((hg'.kept (by omega) (lower_above hpage (by omega)) hw).symm.trans hv)
    rcases Nat.lt_succ_iff_lt_or_eq.mp hd' with hlt | rfl
    · exact hg'.user (by omega) (lower_above hpage (by omega))
        (by rwa [above_succ (by omega)]) (huser hflag d' w hlt hw)
    · obtain rfl := some.inj (hw.symm.trans ht)
      exact hbit hflag

/-- The ways through `mmu_map_page_in`: bad arguments, a page that is mapped to another frame, and a
new entry. -/
theorem Phys.mapPageIn_cases {virt phys : ℕ} {r : ℤ} (h : UserTables s.mem root s.window)
    (hp : PoolOk s root) (hv : virt % 4096 = 0) (hpage : Lower 4 (virt / 4096))
    (he : s.mapPageIn root virt phys flags = some (r, s')) :
    (r = -1 ∧ s' = s ∧ (root = 0 ∨ phys % 4096 ≠ 0)) ∨
    ∃ pt u, s.ensurePath root virt flags = some (pt, u) ∧ phys % 4096 = 0 ∧
      ((r = -1 ∧ s' = u ∧ (leafAt s.mem root (virt / 4096)).testBit 0 = true) ∨
       (r = 0 ∧ s' = { u with mem := setEntry u.mem pt (virt / 4096 % 512) (pteFor phys flags) } ∧
        ((leafAt s.mem root (virt / 4096)).testBit 0 = true →
          pageOf (leafAt s.mem root (virt / 4096)) = pageOf phys))) := by
  rw [mapPageIn_eq] at he
  split at he
  · next hbad =>
    obtain ⟨rfl, rfl⟩ := Prod.mk.inj (some.inj he)
    simp only [has_fff, h.root_aligned, hv, ne_eq, not_true, false_or] at hbad
    exact .inl ⟨rfl, rfl, hbad⟩
  · next hok =>
    have haligned : phys % 4096 = 0 := by
      simp only [not_or, has_fff, ne_eq, not_not] at hok
      exact hok.2.2.2
    obtain ⟨⟨pt, u⟩, hpath, he⟩ := bind_eq_some_iff.mp he
    obtain ⟨hgrows, hpt, -⟩ := ensurePath_spec h hp hv hpage hpath
    obtain ⟨hta, htw⟩ := hgrows.tables.inside (by decide) (lower_above hpage (by decide)) hpt
    have hindex : indexAt 0 virt = virt / 4096 % 512 := by
      rw [indexAt_of_aligned hv (by decide)]
      simp [above]
    have hi : virt / 4096 % 512 < 512 := Nat.mod_lt _ (by decide)
    obtain ⟨existing, hread, he⟩ := bind_eq_some_iff.mp he
    dsimp only at hread he
    rw [hindex, readTable_of_inside hta htw hi] at hread
    have hleaf : leafAt s.mem root (virt / 4096) = existing := by
      rw [← hgrows.leaf hpage, leafAt, hpt]
      exact some.inj hread
    rw [hindex, writeTable_of_inside hta htw hi] at he
    refine .inr ⟨pt, u, hpath, haligned, ?_⟩
    rw [hleaf, ← has_present]
    split at he
    · next hother =>
      obtain ⟨rfl, rfl⟩ := Prod.mk.inj (some.inj he)
      exact .inl ⟨rfl, rfl, (Bool.and_eq_true_iff.mp hother).1⟩
    · next hsame =>
      obtain ⟨rfl, rfl⟩ := Prod.mk.inj (some.inj he)
      exact .inr ⟨rfl, rfl, fun hpresent => by simpa [hpresent] using hsame⟩

/-- **What `mmu_map_page_in` does**: it returns 0 and the page has the entry that was asked
for, or it returns -1 and no page has another entry; then the page is mapped to another frame,
or the arguments are no good. -/
theorem Phys.mapPageIn_spec {virt phys : ℕ} {r : ℤ} (h : UserTables s.mem root s.window)
    (hp : PoolOk s root) (hv : virt % 4096 = 0) (hpage : Lower 4 (virt / 4096))
    (hphys : phys < 2 ^ 64) (he : s.mapPageIn root virt phys flags = some (r, s')) :
    (r = -1 ∧ Grows s s' root ∧ (root = 0 ∨ phys % 4096 ≠ 0 ∨
      (leafAt s.mem root (virt / 4096)).testBit 0 = true)) ∨
    (r = 0 ∧ phys % 4096 = 0 ∧ Maps s s' root (virt / 4096) (pteFor phys flags)) := by
  rcases mapPageIn_cases h hp hv hpage he with
    ⟨rfl, rfl, hbad⟩ | ⟨pt, u, hpath, haligned, hcases⟩
  · exact .inl ⟨rfl, .refl h hp, hbad.imp_right .inl⟩
  obtain ⟨hgrows, hpt, huser⟩ := ensurePath_spec h hp hv hpage hpath
  rcases hcases with ⟨rfl, rfl, hpresent⟩ | ⟨rfl, rfl, -⟩
  · exact .inl ⟨rfl, hgrows, .inr (.inr hpresent)⟩
  · have hbit : (pteFor phys flags).testBit 2 = flags.testBit 2 := by
      rw [testBit_pteFor hphys haligned, testBit_of_aligned haligned (by decide)]
      simp
    have hmaps := maps_setEntry hgrows.tables hgrows.pool hpage hpt
      (pteFor_lt hphys haligned) (fun hb => huser (hbit ▸ hb))
    exact .inr ⟨rfl, haligned, hmaps.window.trans hgrows.window, hmaps.hhdm.trans hgrows.hhdm,
      hmaps.tables, hmaps.pool, hgrows.taken, hmaps.leaf,
      fun hp' hne => (hmaps.others hp' hne).trans (hgrows.leaf hp'),
      fun hi hi' => (hmaps.upper hi hi').trans (hgrows.upper hi hi')⟩

/-! ### Enough pages -/

/-- There are `n` more pages to be had, and the tables made of them can be reached. -/
structure Stocked (s : Phys) (n : ℕ) : Prop where
  length : n ≤ s.pool.length
  inside : ∀ f ∈ s.pool, f + 4096 ≤ s.window

theorem Stocked.grows {n : ℕ} (h : Stocked s n) (hg : Grows s s' root)
    (hlen : n ≤ s'.pool.length + 1) : Stocked s' (n - 1) := by
  obtain ⟨used, hused⟩ := hg.taken
  refine ⟨by omega, fun f hf => ?_⟩
  rw [hg.window]
  exact h.inside f (by simp [hused, hf])

/-- `ensure_table` returns, and takes at most one page. -/
theorem Phys.ensureTable_returns {n : ℕ} (h : UserTables s.mem root s.window) (hp : PoolOk s root)
    (hs : Stocked s (n + 1)) (hd : d < 3) (hx : Lower (d + 1) x)
    (ht : tableAt s.mem root d (x / 512) = some t) :
    ∃ t' s', s.ensureTable t (x % 512) flags = some (t', s') ∧ Stocked s' n := by
  have hmod : x % 512 < 512 := Nat.mod_lt _ (by decide)
  obtain ⟨haligned, hinside⟩ := h.inside (by omega) (Lower.parent _ _ hx) ht
  suffices hret : ∃ t' s', s.ensureTable t (x % 512) flags = some (t', s') ∧
      n + 1 ≤ s'.pool.length + 1 by
    obtain ⟨t', s', he, hlen⟩ := hret
    exact ⟨t', s', he, hs.grows (ensureTable_grows h hp hd hx ht he).1 hlen⟩
  have hlen := hs.length
  rcases h.entry hd hx ht with hzero | hentry
  · rw [ensureTable_of_absent haligned hinside hmod (by rw [hzero]; rfl) (by rw [hzero]; rfl)
      fun f hf => by have := (hp.aligned f hf).2; omega]
    cases hpool : s.pool with
    | nil => simp [hpool] at hlen
    | cons f pool =>
      rw [hpool, List.length_cons] at hlen
      have hf : f + 4096 ≤ s.window := hs.inside f (by simp [hpool])
      exact ⟨_, _, if_pos hf, by dsimp only; omega⟩
  · rw [ensureTable_of_table haligned hinside hmod hentry.present hentry.small]
    refine ⟨_, _, rfl, ?_⟩
    split
    · exact Nat.le_succ_of_le hlen
    · exact Nat.le_succ_of_le hlen

/-- **`mmu_map_page_in` returns** as long as there are three pages for tables. -/
theorem Phys.mapPageIn_returns {virt phys n : ℕ} (h : UserTables s.mem root s.window)
    (hp : PoolOk s root) (hs : Stocked s (n + 3)) (hv : virt % 4096 = 0)
    (hpage : Lower 4 (virt / 4096)) :
    ∃ r s', s.mapPageIn root virt phys flags = some (r, s') ∧ Stocked s' n := by
  rw [mapPageIn_eq]
  split
  · exact ⟨_, _, rfl, ⟨by have := hs.length; omega, hs.inside⟩⟩
  obtain ⟨pt, u, hpath, hg, hpt, hs'⟩ := ensurePath_progress flags (Q := fun d t u =>
    Grows s u root ∧ tableAt u.mem root d (above (virt / 4096) d) = some t ∧ Stocked u (n + 3 - d))
    hv ⟨.refl h hp, rfl, hs⟩ fun d t u hd hq => by
      obtain ⟨hg, ht, hs⟩ := hq
      have hlow := lower_above hpage (show d + 1 ≤ 4 by omega)
      have hparent : tableAt u.mem root d (above (virt / 4096) (d + 1) / 512) = some t := by
        rwa [above_succ (by omega)]
      rw [show n + 3 - d = n + 3 - (d + 1) + 1 by omega] at hs
      obtain ⟨t', u', he, hs'⟩ := ensureTable_returns hg.tables hg.pool hs hd hlow hparent
      obtain ⟨hg', ht', -⟩ := ensureTable_grows hg.tables hg.pool hd hlow hparent he
      exact ⟨t', u', he, hg.trans hg', ht', hs'⟩
  obtain ⟨hta, htw⟩ := hg.tables.inside le_rfl (lower_above hpage (by decide)) hpt
  have hi : indexAt 0 virt < 512 := mod_512_lt _
  have hread := readTable_of_inside hta htw hi
  have hwrite : u.writeTable pt (indexAt 0 virt) (pteFor phys flags) =
      some { u with mem := setEntry u.mem pt (indexAt 0 virt) (pteFor phys flags) } :=
    writeTable_of_inside hta htw hi
  by_cases htaken : (has (entryAt u.mem pt (indexAt 0 virt)) ptePresent &&
      pageOf (entryAt u.mem pt (indexAt 0 virt)) != pageOf phys) = true
  · exact ⟨-1, u, bind_eq_some_iff.mpr ⟨(pt, u), hpath,
      bind_eq_some_iff.mpr ⟨_, hread, if_pos htaken⟩⟩, hs'⟩
  · exact ⟨0, _, bind_eq_some_iff.mpr ⟨(pt, u), hpath,
      bind_eq_some_iff.mpr ⟨_, hread, (if_neg htaken).trans
        (map_eq_some_iff.mpr ⟨_, hwrite, rfl⟩)⟩⟩, hs'.length, hs'.inside⟩

end Neptune
