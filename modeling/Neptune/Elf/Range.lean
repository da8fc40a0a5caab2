import Neptune.Elf.Segment

/-!
# An image stays in the user range

Whatever its headers say, an image maps pages between `USER_BASE - 0x1000` and the top of the stack
only, for the user, and with rights that a segment asks for.  All of them are under the first entry
of the PML4.

## Main definitions

* `MapsOnly`, `Extended` — an address space with more pages.

## Main results

* `Image.loadHeader_extended` — one header.
* `elf_stays_in_range` — the image.
-/

namespace Neptune

open Word64 (u64)

variable {root v page : ℕ} {s s₀ s' : Phys} {img : Image} {ph : Phdr} {r : ℤ}
  {map map₀ map' : ℕ → Option Translation} {allowed : ℕ → ℕ → Prop} {space space' : UserSpace}

/-- The pages that have another translation now are allowed, with their flags. -/
def MapsOnly (allowed : ℕ → ℕ → Prop) (map map' : ℕ → Option Translation) : Prop :=
  ∀ page, map' page = map page ∨
    ∃ f flags, f < 2 ^ 52 ∧ allowed page flags ∧ map' page = some (granted f flags)

/-- The address space has got allowed pages, under the first entry of the PML4. -/
def Extended (allowed : ℕ → ℕ → Prop) (s₀ : Phys) (root : ℕ) (map₀ : ℕ → Option Translation)
    (s : Phys) : Prop :=
  ∃ map, Represents s root map ∧ MapsOnly allowed map₀ map ∧
    ∀ i < 512, i ≠ 0 → entryAt s.mem root i = entryAt s₀.mem root i

/-- One page of a segment. -/
theorem Image.loadPage_extended (h : Extended allowed s₀ root map₀ s) (hv : v % 4096 = 0)
    (hlt : v < 2 ^ 39) (hdata : ph.vaddr + ph.filesz < 2 ^ 64)
    (hallowed : allowed (v / 4096) (ph.mapFlags ||| mmuFlagUser))
    (he : img.loadPage root ph v s = .ok (r, s')) : Extended allowed s₀ root map₀ s' := by
  obtain ⟨map, hrep, hmaps, hentries⟩ := h
  have hindex : indexAt 3 v = 0 := by
    unfold indexAt
    omega
  obtain ⟨htouches, hcases⟩ := Image.loadPage_spec hrep hv (by omega) hdata he
  have hkept : ∀ i < 512, i ≠ 0 → entryAt s'.mem root i = entryAt s₀.mem root i := by
    intro i hi hne
    rw [htouches.entries hi (by rwa [hindex]), hentries i hi hne]
  rcases hcases with ⟨-, hrep'⟩ | ⟨-, f, hplaced, -, hrep'⟩
  · exact ⟨map, hrep', hmaps, hkept⟩
  · refine ⟨_, hrep', fun page => ?_, hkept⟩
    dsimp only
    split
    · next hpage =>
      subst hpage
      exact .inr ⟨f, _, hplaced.lt, hallowed, rfl⟩
    · exact hmaps page

/-- The pages of a segment. -/
theorem Image.loadPages_extended (h : Extended allowed s₀ root map₀ s) (ha : ph.Accepted img.size)
    (hallowed : ∀ page, ph.HasPage page → allowed page (ph.mapFlags ||| mmuFlagUser))
    (he : img.loadPages root ph s = .ok (r, s')) : Extended allowed s₀ root map₀ s' := by
  have hdata : ph.vaddr + ph.filesz < 2 ^ 64 := by
    have := ha.sum
    have := ha.le
    omega
  have hstep : ∀ k u r u', 0 ≤ k → k < 0 + ph.pageCount → Extended allowed s₀ root map₀ u →
      img.loadPage root ph (u64 (ph.segStart + k * 4096)) u = .ok (r, u') →
      if r = 0 then Extended allowed s₀ root map₀ u' else Extended allowed s₀ root map₀ u' := by
    intro k u r u' _ hk hu hpage
    rw [ite_self]
    rw [ha.pageAddr (by omega)] at hpage
    refine Image.loadPage_extended hu (Nat.mul_mod_left _ _) (ha.pageAddr_lt (by omega)) hdata ?_ hpage
    rw [Nat.mul_div_cancel _ (by decide)]
    exact hallowed _ ⟨by omega, by omega⟩
  rcases forEach_rule hstep h he with ⟨-, hok⟩ | ⟨-, hfail⟩
  · exact hok
  · exact hfail

/-- The pages that the headers of an image ask for. -/
def Image.Asked (img : Image) (page flags : ℕ) : Prop :=
  ∃ i < img.phnum, (img.phdr i).type = ptLoad ∧ (img.phdr i).Covers page ∧
    Phdr.loadMin ≤ page * 4096 ∧ page * 4096 + 4096 ≤ Phys.userStackTop ∧
    flags = (img.phdr i).mapFlags ||| mmuFlagUser

/-- **One header** maps pages that it asks for, and no others. -/
theorem Image.loadHeader_extended {i : ℕ} (h : Extended img.Asked s₀ root map₀ s)
    (hi : i < img.phnum) (he : img.loadHeader root i s = .ok (r, s')) :
    Extended img.Asked s₀ root map₀ s' := by
  obtain ⟨-, -, he⟩ := bind_eq_ok.mp he
  dsimp only at he
  split at he
  · obtain ⟨-, rfl⟩ := Prod.mk.inj (Except.ok.inj he)
    exact h
  next htype =>
  obtain ⟨ok, hcheck, he⟩ := bind_eq_ok.mp he
  split at he
  · obtain ⟨-, rfl⟩ := Prod.mk.inj (Except.ok.inj he)
    exact h
  next hok =>
  obtain ⟨-, -, he⟩ := bind_eq_ok.mp he
  have hacc : (img.phdr i).accepted img.size = true := by
    rw [← Image.checkSegment_eq hcheck]
    simpa using hok
  have ha := Phdr.accepted_spec (img.phdr_words i) hacc
  refine Image.loadPages_extended h ha (fun page hpage => ?_) he
  obtain ⟨hcovers, hlow, hhigh⟩ := ha.covers hpage
  exact ⟨i, hi, not_not.mp htype, hcovers, hlow, hhigh, rfl⟩

/-- What a run of `elf_load_user` does to the address space, whatever it returns. -/
theorem elfLoadUser_extended (h : Represents s space.pml4 map)
    (he : elfLoadUser img space s = .ok (r, space', s')) :
    Extended img.Asked s space.pml4 map s' := by
  have hstart : Extended img.Asked s space.pml4 map s :=
    ⟨map, h, fun _ => .inl rfl, fun _ _ _ => rfl⟩
  rw [elfLoadUser] at he
  split at he
  · obtain ⟨-, hrest⟩ := Prod.mk.inj (Except.ok.inj he)
    obtain ⟨-, rfl⟩ := Prod.mk.inj hrest
    exact hstart
  obtain ⟨r₀, -, he⟩ := bind_eq_ok.mp he
  split at he
  · obtain ⟨-, hrest⟩ := Prod.mk.inj (Except.ok.inj he)
    obtain ⟨-, rfl⟩ := Prod.mk.inj hrest
    exact hstart
  obtain ⟨⟨r₁, s₁⟩, hheaders, he⟩ := bind_eq_ok.mp he
  have hlast : Extended img.Asked s space.pml4 map s₁ := by
    have hstep : ∀ i u r u', 0 ≤ i → i < 0 + img.phnum → Extended img.Asked s space.pml4 map u →
        img.loadHeader space.pml4 i u = .ok (r, u') →
        if r = 0 then Extended img.Asked s space.pml4 map u'
        else Extended img.Asked s space.pml4 map u' := by
      intro i u r u' _ hi hu hheader
      rw [ite_self]
      exact Image.loadHeader_extended hu (by omega) hheader
    rcases forEach_rule hstep hstart hheaders with ⟨-, hok⟩ | ⟨-, hfail⟩
    · exact hok
    · exact hfail
  dsimp only at he
  split at he
  · obtain ⟨-, hrest⟩ := Prod.mk.inj (Except.ok.inj he)
    obtain ⟨-, rfl⟩ := Prod.mk.inj hrest
    exact hlast
  · obtain ⟨-, hrest⟩ := Prod.mk.inj (Except.ok.inj he)
    obtain ⟨-, rfl⟩ := Prod.mk.inj hrest
    exact hlast

/-- The rights of a page are those that its segment asks for. -/
theorem Phdr.granted_mapFlags {f : ℕ} (hf : f < 2 ^ 52) :
    granted f (ph.mapFlags ||| mmuFlagUser) = ⟨f, has ph.flags pfW, true, !has ph.flags pfX⟩ := by
  rw [granted_of_lt hf, Phdr.mapFlags]
  cases has ph.flags pfW <;> cases has ph.flags pfX <;> rfl

/-- **No image reaches outside the user range.** -/
theorem elf_stays_in_range (h : Represents s space.pml4 map)
    (he : elfLoadUser img space s = .ok (r, space', s')) :
    (∀ page off, page < 2 ^ 35 → off < 4096 →
      hwWalk s'.mem (page * 4096 + off) 3 space.pml4 = hwWalk s.mem (page * 4096 + off) 3 space.pml4 ∨
      ∃ tr, hwWalk s'.mem (page * 4096 + off) 3 space.pml4 = some tr ∧
        Phys.userBase - 0x1000 ≤ page * 4096 ∧ page * 4096 + 4096 ≤ Phys.userStackTop ∧
        tr.user = true ∧
        (tr.write = true → ∃ i < img.phnum, (img.phdr i).type = ptLoad ∧ (img.phdr i).Covers page ∧
          has (img.phdr i).flags pfW = true) ∧
        (tr.noExec = false → ∃ i < img.phnum, (img.phdr i).type = ptLoad ∧
          (img.phdr i).Covers page ∧ has (img.phdr i).flags pfX = true)) ∧
    ∀ i < 512, i ≠ 0 → entryAt s'.mem space.pml4 i = entryAt s.mem space.pml4 i := by
  obtain ⟨map', hrep, hmaps, hentries⟩ := elfLoadUser_extended h he
  refine ⟨fun page off hpage hoff => ?_, hentries⟩
  rw [hrep.hwWalk_eq hpage hoff, h.hwWalk_eq hpage hoff]
  rcases hmaps page with hsame | ⟨f, flags, hf, ⟨i, hi, htype, hcovers, hlow, hhigh, rfl⟩, hmap⟩
  · exact .inl hsame
  · rw [Phdr.granted_mapFlags hf] at hmap
    exact .inr ⟨_, hmap, hlow, hhigh, rfl, fun hw => ⟨i, hi, htype, hcovers, hw⟩,
      fun hx => ⟨i, hi, htype, hcovers, by simpa using hx⟩⟩

/-! ### A small image -/

theorem emptyPhys_represents : Represents emptyPhys 0x1000 fun _ => none := by
  refine represents_of_empty emptyPhys_fresh (by decide) (by decide) (by decide) fun i _ => ?_
  exact ByteMem.load_of_bytes (v := 0) fun k _ => by rw [Nat.zero_div]; rfl

/-- The user space of `emptyPhys`. -/
def emptySpace : UserSpace where
  pml4 := 0x1000
  entry := Phys.userBase
  stackTop := Phys.userStackTop
  stackBottom := Phys.userStackTop
  stackPages := 0
  stackPhys := [0, 0, 0, 0]

/-- An image of 128 bytes with one segment, which is executable. -/
def smallImage (offset vaddr filesz memsz : ℕ) : Image where
  size := 128
  byte := (((((((((ByteMem.blit (fun _ => 0) 0 [0x7F, 0x45, 0x4C, 0x46, 2, 1, 1]).store 8 32 64).store
    2 54 56).store 2 56 1).store 4 64 ptLoad).store 4 68 5).store 8 72 offset).store 8 80 vaddr).store
    8 96 filesz).store 8 104 memsz
  readable k := decide (k < 128)
  size_le := by decide
  inside _ hk := decide_eq_true hk

/-- An image that is loaded at `USER_BASE`. -/
theorem smallImage_loads :
    ∃ space' s', elfLoadUser (smallImage 64 0x400010 32 64) emptySpace emptyPhys =
      .ok (0, space', s') := by
  have hrun : (elfLoadUser (smallImage 64 0x400010 32 64) emptySpace emptyPhys).map Prod.fst =
      .ok 0 := by decide +kernel
  obtain ⟨⟨r, space', s'⟩, hload, rfl⟩ := ok_of_map_eq_ok hrun
  exact ⟨space', s', hload⟩

theorem elf_stays_in_range_smallImage :
    ∃ space' s', elfLoadUser (smallImage 64 0x400010 32 64) emptySpace emptyPhys = .ok (0, space', s') ∧
      ∀ i < 512, i ≠ 0 → entryAt s'.mem 0x1000 i = entryAt emptyPhys.mem 0x1000 i := by
  obtain ⟨space', s', hload⟩ := smallImage_loads
  have h : Represents emptyPhys emptySpace.pml4 fun _ => none := emptyPhys_represents
  exact ⟨space', s', hload, (elf_stays_in_range h hload).2⟩

end Neptune
