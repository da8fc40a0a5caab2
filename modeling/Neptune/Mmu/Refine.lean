import Neptune.Mmu.Map

/-!
# A user page table is a finite map

From the tables that `mmu_create_user_pml4` makes, any calls of `mmu_map_page_in` for
pages of the lower half lead to tables in which the walk of the processor gives, for
every page, what the most recent call for it that returned 0 asked for.

## Main definitions

* `MapCall`, `Phys.mapAll` — calls of `mmu_map_page_in`, one after the other.
* `mostRecent` — the map that they stand for.
-/

namespace Neptune

open List Option Phys

variable {m : ByteMem} {root top kernel dst src n i : ℕ} {s s₀ s' : Phys}

/-! ### A new address space -/

theorem tableAt_of_empty (hzero : ∀ i < 256, entryAt m root i = 0) :
    ∀ d x, Lower (d + 1) x → tableAt m root (d + 1) x = none := by
  intro d
  induction d with
  | zero =>
    intro x hx
    have hi : x % 512 < 256 := by
      unfold Lower at hx
      omega
    have hnext : nextTable m root (x % 512) = none := by
      rw [nextTable, hzero _ hi]
      rfl
    exact hnext
  | succ d ih =>
    intro x hx
    have hparent : nodeAt (nextTable m) 512 root (d + 1) (x / 512) = none :=
      ih _ (Lower.parent _ _ hx)
    rw [tableAt, nodeAt_succ, hparent]
    rfl

theorem leafAt_of_empty {page : ℕ} (hzero : ∀ i < 256, entryAt m root i = 0)
    (hp : Lower 4 page) : leafAt m root page = 0 := by
  rw [leafAt, tableAt_of_empty hzero 2 _ (lower_above hp (by decide))]

/-- A table whose lower half is empty. -/
theorem userTables_of_empty (ha : root % 4096 = 0) (hin : root + 4096 ≤ top)
    (hzero : ∀ i < 256, entryAt m root i = 0) : UserTables m root top := by
  have hroot : ∀ {d x t}, Lower d x → tableAt m root d x = some t → d = 0 ∧ x = 0 ∧ t = root := by
    intro d x t hx ht
    cases d with
    | zero =>
      unfold Lower at hx
      exact ⟨rfl, by omega, (some.inj ht).symm⟩
    | succ d =>
      rw [tableAt_of_empty hzero d x hx] at ht
      cases ht
  refine ⟨⟨fun _ _ hx hx' ht ht' => ?_⟩, fun _ hx ht => ?_, fun {d x t} _ hx ht => ?_,
    fun hp hpres => ?_⟩
  · obtain ⟨rfl, rfl, -⟩ := hroot hx ht
    obtain ⟨rfl, rfl, -⟩ := hroot hx' ht'
    exact ⟨rfl, rfl⟩
  · obtain ⟨-, -, rfl⟩ := hroot hx ht
    exact ⟨ha, hin⟩
  · obtain ⟨rfl, -, rfl⟩ := hroot (Lower.parent _ _ hx) ht
    refine .inl (hzero _ ?_)
    unfold Lower at hx
    omega
  · rw [leafAt_of_empty hzero hp] at hpres
    simp at hpres

/-- The pages that `pmm_alloc_page` returns: each once, aligned and below 2^52. -/
structure FreshPages (s : Phys) : Prop where
  nodup : s.pool.Nodup
  aligned : ∀ f ∈ s.pool, f % 4096 = 0 ∧ f < 2 ^ 52

/-- The tables of the address space give the translations of the map. -/
structure Represents (s : Phys) (root : ℕ) (map : ℕ → Option Translation) : Prop where
  tables : UserTables s.mem root s.window
  pool : PoolOk s root
  leaf : ∀ {page}, Lower 4 page → ∀ virt, leafTranslation (leafAt s.mem root page) virt = map page

/-- An address space without tables below the PML4. -/
theorem represents_of_empty (hf : FreshPages s) (ha : root % 4096 = 0) (hin : root + 4096 ≤ s.window)
    (hmem : root ∉ s.pool) (hzero : ∀ i < 256, entryAt s.mem root i = 0) :
    Represents s root fun _ => none := by
  refine ⟨userTables_of_empty ha hin hzero, ⟨hf.nodup, hf.aligned, fun f hpool d x hd hx ht => ?_⟩,
    fun hp virt => ?_⟩
  · cases d with
    | zero =>
      obtain rfl := some.inj ht
      exact hmem hpool
    | succ d =>
      rw [tableAt_of_empty hzero d x hx] at ht
      cases ht
  · rw [leafAt_of_empty hzero hp]
    rfl

/-- The loop of `mmu_create_user_pml4` writes the entries from `i` on. -/
theorem Phys.copyEntries_spec (hdst : dst % 4096 = 0) (hin : dst + 4096 ≤ s.window)
    (hi : i + n = 512) (he : s.copyEntries dst src n i = some s') :
    s'.window = s.window ∧ s'.hhdm = s.hhdm ∧ s'.pool = s.pool ∧ s'.zeroPhys = s.zeroPhys ∧
      ∀ j, j < i → entryAt s'.mem dst j = entryAt s.mem dst j := by
  induction n generalizing s i with
  | zero =>
    obtain rfl := some.inj he
    exact ⟨rfl, rfl, rfl, rfl, fun _ _ => rfl⟩
  | succ n ih =>
    obtain ⟨entry, -, he⟩ := bind_eq_some_iff.mp he
    obtain ⟨u, hwrite, he⟩ := bind_eq_some_iff.mp he
    rw [writeTable_of_inside hdst hin (by omega)] at hwrite
    obtain rfl := some.inj hwrite
    obtain ⟨hw, hh, hp, hz, hkept⟩ := ih (i := i + 1) (by exact hin) (by omega) he
    refine ⟨hw, hh, hp, hz, fun j hj => (hkept j (by omega)).trans ?_⟩
    exact entryAt_setEntry_of_ne hdst hdst (by omega) (by omega) (by omega)

/-- What `mmu_create_user_pml4` makes: tables without a page. -/
theorem Phys.createUserPml4_spec (hf : FreshPages s)
    (he : s.createUserPml4 kernel = some (root, s₀)) (hroot : root ≠ 0) :
    Represents s₀ root (fun _ => none) ∧ s.pool = root :: s₀.pool ∧
      s₀.window = s.window ∧ s₀.hhdm = s.hhdm ∧ s₀.zeroPhys = s.zeroPhys := by
  obtain ⟨⟨f, s₁⟩, halloc, he⟩ := bind_eq_some_iff.mp he
  obtain ⟨pool, hpool, rfl⟩ := pmmAllocPage_eq_some.mp halloc
  obtain ⟨hga, hglt⟩ := hf.aligned f (by simp [hpool])
  dsimp only at he
  split at he
  · obtain ⟨rfl, -⟩ := Prod.mk.inj (some.inj he)
    exact absurd rfl hroot
  obtain ⟨s₂, hzeroPage, he⟩ := bind_eq_some_iff.mp he
  obtain ⟨s₃, hcopy, he⟩ := bind_eq_some_iff.mp he
  obtain ⟨rfl, rfl⟩ := Prod.mk.inj (some.inj he)
  rw [zeroPage_eq (by omega)] at hzeroPage
  split at hzeroPage
  · next hin =>
    obtain rfl := some.inj hzeroPage
    obtain ⟨hw, hh, hp, hz, hkept⟩ :=
      copyEntries_spec (n := 256) (i := 256) hga (by exact hin) (by decide) hcopy
    dsimp only at hw hh hp hz hkept
    obtain ⟨hmem, hnodup⟩ : f ∉ pool ∧ pool.Nodup := nodup_cons.mp (hpool ▸ hf.nodup)
    refine ⟨represents_of_empty ⟨hp ▸ hnodup, fun f hmem => ?_⟩ hga (by rw [hw]; exact hin)
      (by rw [hp]; exact hmem) fun i hi => ?_, by rw [hp, hpool], hw, hh, hz⟩
    · rw [hp] at hmem
      exact hf.aligned f (by simp [hpool, hmem])
    · rw [hkept i hi, entryAt_fill_self (by omega)]
  · cases hzeroPage

/-! ### Calls of `mmu_map_page_in` -/

/-- The arguments of a call. -/
structure MapCall where
  virt : ℕ
  phys : ℕ
  flags : ℕ
  deriving DecidableEq, Repr

/-- A call for an aligned page of the lower half. -/
structure MapCall.Lower (c : MapCall) : Prop where
  aligned : c.virt % 4096 = 0
  lower : c.virt < 2 ^ 47
  word : c.phys < 2 ^ 64

/-- Calls of `mmu_map_page_in` one after the other, with what each returns. -/
def Phys.mapAll (root : ℕ) : Phys → List MapCall → Option (List (MapCall × ℤ) × Phys)
  | s, [] => some ([], s)
  | s, c :: calls => do
    let (r, s) ← s.mapPageIn root c.virt c.phys c.flags
    let (log, s) ← mapAll root s calls
    return ((c, r) :: log, s)

/-- What the most recent call for a page that returned 0 asked for. -/
def mostRecent (log : List (MapCall × ℤ)) (page : ℕ) : Option Translation :=
  (log.reverse.find? fun call => call.2 == 0 && call.1.virt / 4096 == page).map
    fun call => granted call.1.phys call.1.flags

theorem mostRecent_cons (c : MapCall) (r : ℤ) (log : List (MapCall × ℤ)) (page : ℕ) :
    mostRecent ((c, r) :: log) page = (mostRecent log page).or
      (if r = 0 ∧ c.virt / 4096 = page then some (granted c.phys c.flags) else none) := by
  rw [mostRecent, mostRecent, reverse_cons, find?_append, map_or]
  congr 1
  by_cases h : r = 0 ∧ c.virt / 4096 = page
  · rw [if_pos h, find?_singleton, if_pos (by simp [h])]
    rfl
  · rw [if_neg h, find?_singleton, if_neg (by simpa using h)]
    rfl

variable {map : ℕ → Option Translation} {c : MapCall} {r : ℤ}

theorem MapCall.Lower.page (h : c.Lower) : Neptune.Lower 4 (c.virt / 4096) := by
  have := h.lower
  unfold Neptune.Lower
  omega

theorem Represents.hwWalk_eq {page off : ℕ} (h : Represents s root map) (hp : page < 2 ^ 35)
    (hoff : off < 4096) : hwWalk s.mem (page * 4096 + off) 3 root = map page := by
  have hlower : Lower 4 page := by
    unfold Lower
    omega
  rw [h.tables.hwWalk_eq hlower hoff, h.leaf hlower]

/-- **One call**: the map changes at one page if it returns 0, and nowhere otherwise. -/
theorem Represents.mapPageIn (h : Represents s root map) (hc : c.Lower)
    (he : s.mapPageIn root c.virt c.phys c.flags = some (r, s')) :
    Represents s' root (fun page =>
      if r = 0 ∧ c.virt / 4096 = page then some (granted c.phys c.flags) else map page) ∧
    ∀ i, 256 ≤ i → i < 512 → entryAt s'.mem root i = entryAt s.mem root i := by
  rcases mapPageIn_spec h.tables h.pool hc.aligned hc.page hc.word he with
    ⟨rfl, hg, -⟩ | ⟨rfl, ha, hm⟩
  · refine ⟨⟨hg.tables, hg.pool, fun hp virt => ?_⟩, fun i => hg.upper⟩
    rw [hg.leaf hp, h.leaf hp]
    rfl
  · refine ⟨⟨hm.tables, hm.pool, fun {page} hp virt => ?_⟩, fun i => hm.upper⟩
    by_cases hpage : c.virt / 4096 = page
    · subst hpage
      have hpres : (pteFor c.phys c.flags).testBit 0 = true := by
        rw [testBit_pteFor hc.word ha]
        simp
      rw [if_pos ⟨rfl, rfl⟩, hm.leaf, leafTranslation, if_pos hpres, leafOf_pteFor hc.word ha]
    · rw [if_neg fun hboth => hpage hboth.2, hm.others hp (Ne.symm hpage), h.leaf hp]

/-- All calls: later ones hide earlier ones. -/
theorem Represents.mapAll {calls : List MapCall} {log : List (MapCall × ℤ)}
    (h : Represents s root map) (hcalls : ∀ c ∈ calls, c.Lower)
    (he : s.mapAll root calls = some (log, s')) :
    log.map Prod.fst = calls ∧
    Represents s' root (fun page => (mostRecent log page).or (map page)) ∧
    ∀ i, 256 ≤ i → i < 512 → entryAt s'.mem root i = entryAt s.mem root i := by
  induction calls generalizing s log map with
  | nil =>
    obtain ⟨rfl, rfl⟩ := Prod.mk.inj (some.inj he)
    exact ⟨rfl, h, fun _ _ _ => rfl⟩
  | cons c calls ih =>
    obtain ⟨⟨r, u⟩, hcall, he⟩ := bind_eq_some_iff.mp he
    obtain ⟨⟨log', u'⟩, hrest, he⟩ := bind_eq_some_iff.mp he
    obtain ⟨rfl, rfl⟩ := Prod.mk.inj (some.inj he)
    obtain ⟨hstep, hupper⟩ := h.mapPageIn (hcalls c (by simp)) hcall
    obtain ⟨hlog, hall, hupper'⟩ := ih hstep (fun c' hc' => hcalls c' (by simp [hc'])) hrest
    refine ⟨by rw [map_cons, hlog], ⟨hall.tables, hall.pool, fun hp virt => ?_⟩,
      fun i hi hi' => (hupper' i hi hi').trans (hupper i hi hi')⟩
    rw [hall.leaf hp, mostRecent_cons, Option.or_assoc]
    congr 1
    split <;> rfl

/-- The calls all return if there are three pages for each. -/
theorem Represents.mapAll_returns {calls : List MapCall} (h : Represents s root map)
    (hcalls : ∀ c ∈ calls, c.Lower) (hs : Stocked s (3 * calls.length)) :
    ∃ log s', s.mapAll root calls = some (log, s') := by
  induction calls generalizing s map with
  | nil => exact ⟨[], s, rfl⟩
  | cons c calls ih =>
    have hc := hcalls c (by simp)
    obtain ⟨r, u, hcall, hs'⟩ :
        ∃ r u, s.mapPageIn root c.virt c.phys c.flags = some (r, u) ∧ Stocked u (3 * calls.length) :=
      mapPageIn_returns h.tables h.pool hs hc.aligned hc.page
    obtain ⟨log, s', hrest⟩ := ih (h.mapPageIn hc hcall).1 (fun c' hc' => hcalls c' (by simp [hc'])) hs'
    exact ⟨(c, r) :: log, s', bind_eq_some_iff.mpr ⟨_, hcall, bind_eq_some_iff.mpr ⟨_, hrest, rfl⟩⟩⟩

/-- **A user page table refines a finite map.** -/
theorem user_pml4_refines_map {calls : List MapCall} (hf : FreshPages s)
    (hcreate : s.createUserPml4 kernel = some (root, s₀)) (hroot : root ≠ 0)
    (hcalls : ∀ c ∈ calls, c.Lower) :
    (Stocked s (3 * calls.length + 1) → ∃ log s', s₀.mapAll root calls = some (log, s')) ∧
    ∀ log s', s₀.mapAll root calls = some (log, s') → log.map Prod.fst = calls ∧
      (∀ page off, page < 2 ^ 35 → off < 4096 →
        hwWalk s'.mem (page * 4096 + off) 3 root = mostRecent log page) ∧
      (∀ i, 256 ≤ i → i < 512 → entryAt s'.mem root i = entryAt s₀.mem root i) ∧
      ∀ (c : MapCall) s'', c.Lower → s'.mapPageIn root c.virt c.phys c.flags = some (-1, s'') →
        ∀ page off, page < 2 ^ 35 → off < 4096 →
          hwWalk s''.mem (page * 4096 + off) 3 root = hwWalk s'.mem (page * 4096 + off) 3 root := by
  obtain ⟨hstart, hsplit, hwindow, -⟩ := createUserPml4_spec hf hcreate hroot
  refine ⟨fun hs => hstart.mapAll_returns hcalls ⟨?_, fun f hmem => ?_⟩, fun log s' he => ?_⟩
  · have hlen := hs.length
    rw [hsplit, length_cons] at hlen
    omega
  · rw [hwindow]
    exact hs.inside f (by simp [hsplit, hmem])
  · obtain ⟨hlog, hrep, hupper⟩ := hstart.mapAll hcalls he
    refine ⟨hlog, fun page off hp hoff => ?_, hupper, fun c s'' hc hfail page off hp hoff => ?_⟩
    · rw [hrep.hwWalk_eq hp hoff, or_none]
    · rw [hrep.hwWalk_eq hp hoff, (hrep.mapPageIn hc hfail).1.hwWalk_eq hp hoff]
      rfl

/-- Empty memory below 1 GiB, with eight pages to be had. -/
def emptyPhys : Phys where
  mem := fun _ => 0
  window := 2 ^ 30
  window_le := by decide
  hhdm := 2 ^ 46
  hhdm_le := by decide
  pool := [0x2000, 0x3000, 0x4000, 0x5000, 0x6000, 0x7000, 0x8000, 0x9000]
  zeroPhys := 0

theorem emptyPhys_fresh : FreshPages emptyPhys := ⟨by decide, by decide⟩

theorem emptyPhys_stocked : Stocked emptyPhys 8 := ⟨by decide, by decide⟩

/-- Two pages are mapped in a new address space, the first for the user and writable. -/
theorem user_pml4_refines_map_emptyPhys :
    ∃ root s₀ log s', emptyPhys.createUserPml4 0x1000 = some (root, s₀) ∧ root ≠ 0 ∧
      s₀.mapAll root [⟨0x400000, 0x200000, 0x6⟩, ⟨0x401000, 0x201000, 0x4⟩] = some (log, s') ∧
      hwWalk s'.mem 0x400000 3 root = mostRecent log 0x400 := by
  have hrun : (emptyPhys.createUserPml4 0x1000).map Prod.fst = some 0x2000 := by decide +kernel
  obtain ⟨⟨root, s₀⟩, hcreate, rfl⟩ := map_eq_some_iff.mp hrun
  have hne : (0x2000 : ℕ) ≠ 0 := by decide
  have hcalls : ∀ c ∈ ([⟨0x400000, 0x200000, 0x6⟩, ⟨0x401000, 0x201000, 0x4⟩] : List MapCall),
      c.Lower := by
    intro c hc
    simp only [mem_cons, not_mem_nil, or_false] at hc
    rcases hc with rfl | rfl
    · exact ⟨by decide, by decide, by decide⟩
    · exact ⟨by decide, by decide, by decide⟩
  obtain ⟨hreturns, hspec⟩ := user_pml4_refines_map emptyPhys_fresh hcreate hne hcalls
  obtain ⟨log, s', hrun⟩ := hreturns ⟨by decide, emptyPhys_stocked.inside⟩
  exact ⟨_, s₀, log, s', hcreate, hne, hrun, (hspec log s' hrun).2.1 0x400 0 (by decide) (by decide)⟩

end Neptune
