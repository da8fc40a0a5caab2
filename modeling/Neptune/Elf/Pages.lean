import Neptune.Elf.Load
import Neptune.Mmu.Cow
import Neptune.Mmu.Touch

/-!
# The pages of a segment

Loading a page maps a fresh frame for the user and fills it with the part of the file that lies in
the page, or fails and maps nothing.  The frames that were filled before are neither tables nor to
be had from `pmm_alloc_page`, so that nothing writes to them again.

## Main definitions

* `Phdr.content` — the bytes that a header asks for.
* `Placed` — a page that was mapped and filled.

## Main results

* `Image.copyFile_spec` — the part of the file that lies in a page.
* `Image.loadPage_spec` — one page.
-/

namespace Neptune

open ByteMem List
open Word64 (u64)

variable {root v f off n a : ℕ} {s s' : Phys} {img : Image} {ph : Phdr} {r : ℤ} {l : List UInt8}
  {map : ℕ → Option Translation}

/-! ### Frames -/

theorem Phys.blitHhdm_eq (hf : f + off < 2 ^ 64) (hl : l ≠ []) :
    s.blitHhdm f off l =
      if f + off + l.length ≤ s.hhdm then some { s with mem := s.mem.blit (f + off) l } else none := by
  have hpos : 0 < l.length := length_pos_iff.mpr hl
  rw [Phys.blitHhdm, windowAddr_eq hpos s.hhdm_le, Word64.u64_of_lt hf]
  split <;> rfl

/-- A page is taken: it is no table, and it is not to be had again. -/
theorem Represents.alloc {pool : List ℕ} (h : Represents s root map) (hpool : s.pool = f :: pool) :
    Represents { s with pool } root map ∧ f % 4096 = 0 ∧ f < 2 ^ 52 ∧
      ∀ off < 4096, Spare { s with pool } root (f + off) := by
  have hmem : f ∈ s.pool := by simp [hpool]
  obtain ⟨hfa, hflt⟩ := h.pool.aligned f hmem
  have hnodup : f ∉ pool ∧ pool.Nodup := nodup_cons.mp (hpool ▸ h.pool.nodup)
  have htail : ∀ {g}, g ∈ pool → g ∈ s.pool := fun hg => by simp [hpool, hg]
  refine ⟨h.fill hpool fun _ _ => rfl, hfa, hflt, fun off hoff => ⟨?_, ?_⟩⟩
  · intro d x t hd hx ht hin
    obtain ⟨hta, -⟩ := h.tables.inside hd hx ht
    obtain rfl : t = f := by omega
    exact h.pool.fresh t hmem d x hd hx ht
  · intro g hg hin
    obtain ⟨hga, -⟩ := h.pool.aligned g (htail hg)
    obtain rfl : g = f := by omega
    exact hnodup.1 hg

/-- Writing to a frame that is no table changes no translation. -/
theorem Represents.write {m' : ByteMem} (h : Represents s root map) (hfa : f % 4096 = 0)
    (hspare : ∀ off < 4096, Spare s root (f + off))
    (hsame : ∀ a, ¬(f ≤ a ∧ a < f + 4096) → m' a = s.mem a) :
    Represents { s with mem := m' } root map ∧
      (∀ d x, d ≤ 3 → Lower d x → tableAt m' root d x = tableAt s.mem root d x) ∧
      ∀ i < 512, entryAt m' root i = entryAt s.mem root i := by
  have hfresh : ∀ d x, d ≤ 3 → Lower d x → tableAt s.mem root d x ≠ some f := by
    intro d x hd hx ht
    exact (hspare 0 (by decide)).table hd hx ht ⟨by omega, by omega⟩
  have hbytes := @UserTables.frame s.mem m' root s.window f h.tables hfa hfresh hsame
  refine ⟨h.keep ⟨rfl, hbytes, List.Sublist.refl _⟩, (h.tables.congr hbytes).2.1, fun i hi => ?_⟩
  exact load_congr fun k hle hlt => hbytes (Nat.zero_le 3) lower_root rfl k (by omega) (by omega)

/-- The byte that a header asks for at an address. -/
def Phdr.content (ph : Phdr) (img : Image) (a : ℕ) : UInt8 :=
  if ph.vaddr ≤ a ∧ a < ph.vaddr + ph.filesz then img.mem (ph.offset + (a - ph.vaddr)) else 0

/-- The bytes of the file at indices that wrap. -/
theorem Image.mem_u64 (img : Image) (k i : ℕ) : img.mem (u64 k + i) = img.mem (k + i) := by
  rw [Image.mem, Image.mem, u64, u64, u64, Nat.mod_add_mod]

/-- What is copied into a clear frame. -/
theorem Image.copyFile_spec (hv : v % 4096 = 0) (hlt : v < 2 ^ 47)
    (hdata : ph.vaddr + ph.filesz < 2 ^ 64) (hflt : f < 2 ^ 52)
    (hclear : ∀ off < 4096, s.mem (f + off) = 0) (he : img.copyFile ph v f s = .ok s') :
    ∃ m', s' = { s with mem := m' } ∧ (∀ a, ¬(f ≤ a ∧ a < f + 4096) → m' a = s.mem a) ∧
      ∀ off < 4096, m' (f + off) = ph.content img (v + off) := by
  have hpage : u64 (v + 4096) = v + 4096 := Word64.u64_of_lt (by omega)
  rw [Image.copyFile, hpage, Word64.u64_of_lt hdata] at he
  dsimp only at he
  generalize hstart : (if v > ph.vaddr then v else ph.vaddr) = start at he
  generalize hend : (if v + 4096 < ph.vaddr + ph.filesz then v + 4096 else ph.vaddr + ph.filesz) =
    last at he
  -- the part of the file that lies in the page
  have hin : ∀ a, start ≤ a ∧ a < last ↔
      (v ≤ a ∧ a < v + 4096) ∧ ph.vaddr ≤ a ∧ a < ph.vaddr + ph.filesz := by
    intro a
    rw [← hstart, ← hend]
    split <;> split <;> omega
  split at he
  · next hsome =>
    obtain ⟨-, -, he⟩ := bind_eq_ok.mp he
    have hfirst := (hin start).mp ⟨le_rfl, hsome⟩
    have hlast := (hin (last - 1)).mp ⟨by omega, by omega⟩
    have hlen := img.mem.length_bytes (u64 (ph.offset + (start - ph.vaddr))) (last - start)
    have hne : img.mem.bytes (u64 (ph.offset + (start - ph.vaddr))) (last - start) ≠ [] := by
      rw [← length_pos_iff, hlen]
      omega
    rw [orStop_eq_ok, Phys.blitHhdm_eq (by omega) hne] at he
    split at he
    swap
    · cases he
    obtain rfl := Option.some.inj he
    refine ⟨_, rfl, fun a ha => blit_apply_of_not_mem _ (by omega), fun off hoff => ?_⟩
    rw [Phdr.content]
    by_cases hoffin : ph.vaddr ≤ v + off ∧ v + off < ph.vaddr + ph.filesz
    · obtain ⟨hle, hlt'⟩ := (hin (v + off)).mpr ⟨⟨by omega, by omega⟩, hoffin⟩
      obtain ⟨k, hk⟩ := Nat.exists_eq_add_of_le hle
      have haddr : f + off = f + (start - v) + k := by omega
      have hindex : ph.offset + (start - ph.vaddr) + k = ph.offset + (v + off - ph.vaddr) := by omega
      rw [if_pos hoffin, haddr, blit_apply _ (by rw [hlen]; omega)]
      simp only [ByteMem.bytes, getElem_map, getElem_range]
      rw [Image.mem_u64, hindex]
    · rw [if_neg hoffin, blit_apply_of_not_mem, hclear off hoff]
      intro hcontra
      exact hoffin ((hin (v + off)).mp ⟨by omega, by omega⟩).2
  · next hnone =>
    obtain rfl := Except.ok.inj he
    refine ⟨s.mem, rfl, fun _ _ => rfl, fun off hoff => ?_⟩
    rw [hclear off hoff, Phdr.content, if_neg fun hoffin => ?_]
    have := (hin (v + off)).mpr ⟨⟨by omega, by omega⟩, hoffin⟩
    omega

/-- Writing to a page that was taken. -/
theorem Touches.write {i : ℕ} {u : Phys} {m' : ByteMem} (h : Touches s u root i) (hf : f ∈ s.pool)
    (hsame : ∀ a, ¬(f ≤ a ∧ a < f + 4096) → m' a = u.mem a)
    (htable : ∀ d x, d ≤ 3 → Lower d x → tableAt m' root d x = tableAt u.mem root d x)
    (hentry : ∀ i < 512, entryAt m' root i = entryAt u.mem root i) :
    Touches s { u with mem := m' } root i := by
  refine ⟨h.taken, fun hd hx ht => (htable _ _ hd hx).trans (h.kept hd hx ht),
    fun hd hx ht => h.origin hd hx ((htable _ _ hd hx).symm.trans ht), fun ha => ?_, fun hj hne => ?_⟩
  · exact (hsame _ (ha.pool f hf)).trans (h.mem ha)
  · exact (hentry _ hj).trans (h.entries hj hne)

/-! ### One page -/

/-- The page that a header asks for is mapped: a fresh frame with the flags and the bytes of the
segment. -/
structure Placed (img : Image) (ph : Phdr) (s s' : Phys) (root v f : ℕ) : Prop where
  taken : f ∈ s.pool
  aligned : f % 4096 = 0
  lt : f < 2 ^ 52
  spare : ∀ off < 4096, Spare s' root (f + off)
  content : ∀ off < 4096, s'.mem (f + off) = ph.content img (v + off)

theorem zeros_ne_nil : List.replicate 4096 (0 : UInt8) ≠ [] := fun h => by
  have hlen := congrArg List.length h
  rw [length_replicate] at hlen
  cases hlen

theorem blit_zeros_apply (m : ByteMem) (hoff : off < 4096) :
    m.blit f (List.replicate 4096 0) (f + off) = 0 := by
  rw [blit_apply _ (by rwa [length_replicate]), getElem_replicate]

/-- A page that is mapped, to the frame of its entry. -/
theorem Represents.frame_of_present {page entry : ℕ} {tr : Translation}
    (h : Represents s root map) (hp : Lower 4 page) (hmap : map page = some tr)
    (hsame : (leafAt s.mem root page).testBit 0 = true → pageOf (leafAt s.mem root page) = entry)
    (hlt : entry < 2 ^ 52) : tr.frame = entry := by
  have hleaf := h.leaf hp 0
  rw [hmap, leafTranslation] at hleaf
  split at hleaf
  · next hpresent =>
    obtain rfl := Option.some.inj hleaf
    have hword : leafAt s.mem root page < 2 ^ 64 := by
      obtain ⟨pt, hpt⟩ := exists_table hpresent
      rw [leafAt, hpt]
      exact entryAt_lt _ _ _
    have hpageOf := hsame hpresent
    rw [← hpageOf, pageOf_eq hword] at hlt
    rw [leafOf, entryFrame_eq_pageOf (by omega), hpageOf]
    rw [pageOf_eq hword] at hpageOf
    have hmul : entry / 4096 * 4096 = entry := by
      rw [← hpageOf, Nat.mul_div_cancel _ (by decide)]
    exact (Nat.add_zero _).trans hmul
  · cases hleaf

/-- A page that is mapped again was mapped to the same frame. -/
theorem Represents.frame_of_mapped {pool : List ℕ} {flags : ℕ} (h : Represents s root map)
    (hpool : s.pool = f :: pool) (hv : v % 4096 = 0) (hlt : v < 2 ^ 47)
    (hmap : Phys.mapPageIn { s with pool } root v f flags = some (0, s')) (tr : Translation)
    (htr : map (v / 4096) = some tr) : tr.frame = f := by
  obtain ⟨h₁, hfa, hflt, -⟩ := h.alloc hpool
  have hpage : Lower 4 (v / 4096) := by
    unfold Lower
    omega
  rcases Phys.mapPageIn_cases h₁.tables h₁.pool hv hpage hmap with
    ⟨hbad, -⟩ | ⟨-, -, -, -, ⟨hbad, -⟩ | ⟨-, -, hpresent⟩⟩
  · exact absurd hbad (by decide)
  · exact absurd hbad (by decide)
  · have hpageOf : pageOf f = f := by
      rw [pageOf_eq (by omega)]
      omega
    rw [hpageOf] at hpresent
    exact h₁.frame_of_present hpage htr hpresent hflt

/-- **One page**: it is mapped to a fresh frame with the bytes of the segment, or it is not mapped. -/
theorem Image.loadPage_spec (h : Represents s root map) (hv : v % 4096 = 0) (hlt : v < 2 ^ 47)
    (hdata : ph.vaddr + ph.filesz < 2 ^ 64) (he : img.loadPage root ph v s = .ok (r, s')) :
    Touches s s' root (indexAt 3 v) ∧ ((r = -1 ∧ Represents s' root map) ∨
      (r = 0 ∧ ∃ f, Placed img ph s s' root v f ∧ (∀ tr, map (v / 4096) = some tr → tr.frame = f) ∧
        Represents s' root fun page => if v / 4096 = page then
          some (granted f (ph.mapFlags ||| mmuFlagUser)) else map page)) := by
  have hcall : ∀ f, f < 2 ^ 52 →
      (MapCall.mk v f (ph.mapFlags ||| mmuFlagUser)).Lower := fun f hf => ⟨hv, hlt, by dsimp only; omega⟩
  obtain ⟨⟨f, s₁⟩, halloc, he⟩ := bind_eq_ok.mp he
  obtain ⟨pool, hpool, rfl⟩ := Phys.pmmAllocPage_eq_some.mp (orStop_eq_ok.mp halloc)
  obtain ⟨h₁, hfa, hflt, hspare⟩ := h.alloc hpool
  have htaken : Touches s { s with pool } root (indexAt 3 v) :=
    ⟨⟨[f], hpool⟩, fun _ _ ht => ht, fun _ _ ht => .inl ht, fun _ => rfl, fun _ _ => rfl⟩
  dsimp only at he
  split at he
  · obtain ⟨rfl, rfl⟩ := Prod.mk.inj (Except.ok.inj he)
    exact ⟨htaken, .inl ⟨rfl, h₁⟩⟩
  obtain ⟨⟨r₂, s₂⟩, hmap, he⟩ := bind_eq_ok.mp he
  rw [orStop_eq_ok, Phys.userSpaceMapPage] at hmap
  dsimp only at he
  split at hmap
  · obtain ⟨rfl, rfl⟩ := Prod.mk.inj (Option.some.inj hmap)
    obtain ⟨rfl, rfl⟩ := Prod.mk.inj (Except.ok.inj he)
    exact ⟨htaken, .inl ⟨rfl, h₁⟩⟩
  have hc := hcall f hflt
  have htouches := htaken.trans (Phys.mapPageIn_touches h₁.tables h₁.pool hv hc.page hc.word hmap)
  have hstep := (h₁.mapPageIn hc hmap).1
  split at he
  · next hr =>
    -- the page is mapped to another frame already
    obtain ⟨rfl, rfl⟩ := Prod.mk.inj (Except.ok.inj he)
    simp only [hr, false_and, if_false] at hstep
    exact ⟨htouches, .inl ⟨rfl, hstep⟩⟩
  next hr =>
  obtain rfl : r₂ = 0 := not_not.mp hr
  simp only [true_and] at hstep
  have hspare₂ : ∀ off < 4096, Spare s₂ root (f + off) := fun off hoff =>
    (Phys.mapPageIn_touches h₁.tables h₁.pool hv hc.page hc.word hmap).spare (hspare off hoff)
  obtain ⟨s₃, hclear, he⟩ := bind_eq_ok.mp he
  obtain ⟨s₄, hcopy, he⟩ := bind_eq_ok.mp he
  obtain ⟨rfl, rfl⟩ := Prod.mk.inj (Except.ok.inj he)
  rw [orStop_eq_ok, Phys.blitHhdm_eq (by omega) zeros_ne_nil] at hclear
  split at hclear
  swap
  · cases hclear
  obtain rfl := Option.some.inj hclear
  rw [Nat.add_zero] at hcopy
  have hzero : ∀ off < 4096, s₂.mem.blit f (List.replicate 4096 0) (f + off) = 0 :=
    fun off hoff => blit_zeros_apply s₂.mem hoff
  obtain ⟨m', rfl, hsame, hcontent⟩ := Image.copyFile_spec hv hlt hdata hflt hzero hcopy
  have hframe : ∀ a, ¬(f ≤ a ∧ a < f + 4096) → m' a = s₂.mem a := fun a ha =>
    (hsame a ha).trans (blit_apply_of_not_mem _ (by rwa [length_replicate]))
  obtain ⟨h₄, htable, hentry⟩ := hstep.write hfa hspare₂ hframe
  refine ⟨htouches.write (by simp [hpool]) hframe htable hentry,
    .inr ⟨rfl, f, ?_, h.frame_of_mapped hpool hv hlt hmap, h₄⟩⟩
  refine ⟨by simp [hpool], hfa, hflt, fun off hoff => ⟨fun hd hx ht => ?_, ?_⟩, hcontent⟩
  · exact (hspare₂ off hoff).table hd hx ((htable _ _ hd hx).symm.trans ht)
  · exact (hspare₂ off hoff).pool

end Neptune
