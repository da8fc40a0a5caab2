import Neptune.Elf.Range

/-!
# What is in memory after an image is loaded

When `elf_load_user` returns 0, every segment is in memory as its header says, with two exceptions:
a segment whose end wraps around when it is rounded up is not loaded at all, and one whose file
offset wraps around is filled with bytes from outside of the image.

## Main definitions

* `UserPage`, `Holds` — the pages of an address space with their contents.
* `UserSees`, `Phdr.Loaded` — a segment in memory.

## Main results

* `Holds.loadPage`, `Holds.loadPages`, `Holds.loadHeader` — the pages that are added.
* `elf_loaded_iff` — the image.
-/

namespace Neptune

open Function
open Word64 (u64)

variable {root v page : ℕ} {s s' : Phys} {img : Image} {ph : Phdr} {space space' : UserSpace}

/-! ### Pages and their contents -/

/-- A page that is mapped, with what is in it. -/
structure UserPage where
  frame : ℕ
  flags : ℕ
  content : ℕ → UInt8

variable {pages pages' : ℕ → Option UserPage} {pg : UserPage}

/-- The address space maps these pages, and their frames hold these bytes.  No frame is a table or is
to be had from `pmm_alloc_page`. -/
structure Holds (s : Phys) (root : ℕ) (pages : ℕ → Option UserPage) : Prop where
  rep : Represents s root fun page => (pages page).map fun pg => granted pg.frame pg.flags
  frame : ∀ {page pg}, pages page = some pg → pg.frame % 4096 = 0 ∧ pg.frame < 2 ^ 52
  spare : ∀ {page pg}, pages page = some pg → ∀ off < 4096, Spare s root (pg.frame + off)
  content : ∀ {page pg}, pages page = some pg → ∀ off < 4096, s.mem (pg.frame + off) = pg.content off

theorem holds_nothing (h : Represents s root fun _ => none) : Holds s root fun _ => none :=
  ⟨h, nofun, nofun, nofun⟩

theorem update_eq_some {new : UserPage} {at' : ℕ} (h : update pages at' (some new) page = some pg) :
    (page = at' ∧ pg = new) ∨ pages page = some pg := by
  by_cases hpage : page = at'
  · subst hpage
    rw [update_self] at h
    exact .inl ⟨rfl, (Option.some.inj h).symm⟩
  · rw [update_of_ne hpage] at h
    exact .inr h

/-- The page at `v` of a segment. -/
def Phdr.userPage (ph : Phdr) (img : Image) (v f : ℕ) : UserPage where
  frame := f
  flags := ph.mapFlags ||| mmuFlagUser
  content off := ph.content img (v + off)

/-- A page can only be mapped to a frame that is to be had if it is not mapped. -/
theorem Holds.free {f : ℕ} (h : Holds s root pages) (hf : f ∈ s.pool)
    (hsame : ∀ tr, (pages page).map (fun pg => granted pg.frame pg.flags) = some tr → tr.frame = f) :
    pages page = none := by
  by_contra hsome
  obtain ⟨pg, hpg⟩ := Option.ne_none_iff_exists'.mp hsome
  have hframe : (granted pg.frame pg.flags).frame = f := hsame _ (by rw [hpg]; rfl)
  rw [granted_of_lt (h.frame hpg).2] at hframe
  obtain rfl : pg.frame = f := hframe
  exact (h.spare hpg 0 (by decide)).pool _ hf ⟨by omega, by omega⟩

/-- **A page is added**: it was not mapped before. -/
theorem Holds.loadPage (h : Holds s root pages) (hv : v % 4096 = 0) (hlt : v < 2 ^ 47)
    (hdata : ph.vaddr + ph.filesz < 2 ^ 64) (he : img.loadPage root ph v s = .ok (0, s')) :
    pages (v / 4096) = none ∧
      ∃ f, Holds s' root (update pages (v / 4096) (some (ph.userPage img v f))) := by
  obtain ⟨htouches, ⟨hbad, -⟩ | ⟨-, f, hplaced, hfree, hrep⟩⟩ := Image.loadPage_spec h.rep hv hlt hdata he
  · exact absurd hbad (by decide)
  refine ⟨h.free hplaced.taken hfree, f, ⟨hrep.tables, hrep.pool, fun hp virt => ?_⟩, ?_, ?_, ?_⟩
  · rw [hrep.leaf hp]
    split
    · next hpage =>
      subst hpage
      rw [update_self]
      rfl
    · next hpage => rw [update_of_ne (Ne.symm hpage)]
  · intro page pg hpg
    rcases update_eq_some hpg with ⟨-, rfl⟩ | hold
    · exact ⟨hplaced.aligned, hplaced.lt⟩
    · exact h.frame hold
  · intro page pg hpg
    rcases update_eq_some hpg with ⟨-, rfl⟩ | hold
    · exact hplaced.spare
    · exact fun off hoff => htouches.spare (h.spare hold off hoff)
  · intro page pg hpg
    rcases update_eq_some hpg with ⟨-, rfl⟩ | hold
    · exact hplaced.content
    · intro off hoff
      rw [htouches.mem (h.spare hold off hoff), h.content hold off hoff]

/-- `n` pages of a segment from its first one on, with those that were there before. -/
structure Added (img : Image) (ph : Phdr) (pages pages' : ℕ → Option UserPage) (n : ℕ) : Prop where
  kept : ∀ {page pg}, pages page = some pg → pages' page = some pg
  free : ∀ {page}, ph.vaddr / 4096 ≤ page ∧ page < ph.vaddr / 4096 + n → pages page = none
  new : ∀ {page}, ph.vaddr / 4096 ≤ page ∧ page < ph.vaddr / 4096 + n →
    ∃ f, pages' page = some (ph.userPage img (page * 4096) f)

/-- **The pages of a segment are added.** -/
theorem Holds.loadPages (h : Holds s root pages) (ha : ph.Accepted img.size)
    (he : img.loadPages root ph s = .ok (0, s')) :
    ∃ pages', Holds s' root pages' ∧ Added img ph pages pages' ph.pageCount := by
  have hdata : ph.vaddr + ph.filesz < 2 ^ 64 := by
    have := ha.sum
    have := ha.le
    omega
  have hstep : ∀ k u r u', 0 ≤ k → k < 0 + ph.pageCount →
      (∃ pages', Holds u root pages' ∧ Added img ph pages pages' k) →
      img.loadPage root ph (u64 (ph.segStart + k * 4096)) u = .ok (r, u') →
      if r = 0 then ∃ pages', Holds u' root pages' ∧ Added img ph pages pages' (k + 1) else True := by
    rintro k u r u' - hk ⟨pages', hu, hadded⟩ hpage
    split
    swap
    · trivial
    next hr =>
    subst hr
    have hlt : (ph.vaddr / 4096 + k) * 4096 < 2 ^ 39 := ha.pageAddr_lt (by omega)
    rw [ha.pageAddr (by omega)] at hpage
    obtain ⟨hnone, f, hu'⟩ := hu.loadPage (Nat.mul_mod_left _ _) (by omega) hdata hpage
    rw [Nat.mul_div_cancel _ (by decide)] at hnone hu'
    refine ⟨_, hu', fun {page pg} hpg => ?_, fun {page} hin => ?_, fun {page} hin => ?_⟩
    · have hkept := hadded.kept hpg
      have hne : page ≠ ph.vaddr / 4096 + k := by
        rintro rfl
        rw [hnone] at hkept
        cases hkept
      rwa [update_of_ne hne]
    · by_cases hlast : page = ph.vaddr / 4096 + k
      · subst hlast
        by_contra hsome
        obtain ⟨pg, hpg⟩ := Option.ne_none_iff_exists'.mp hsome
        rw [hadded.kept hpg] at hnone
        cases hnone
      · exact hadded.free (by omega)
    · by_cases hlast : page = ph.vaddr / 4096 + k
      · subst hlast
        exact ⟨f, update_self _ _ _⟩
      · rw [update_of_ne hlast]
        exact hadded.new (by omega)
  have hstart : ∃ pages', Holds s root pages' ∧ Added img ph pages pages' 0 :=
    ⟨pages, h, fun hpg => hpg, fun hin => absurd hin (by omega), fun hin => absurd hin (by omega)⟩
  rcases forEach_rule hstep hstart he with ⟨-, hok⟩ | ⟨hbad, -⟩
  · rwa [Nat.zero_add] at hok
  · exact absurd hbad (by decide)

/-- The ways through a header that succeeds. -/
theorem Image.loadHeader_ok {i : ℕ} (he : img.loadHeader root i s = .ok (0, s')) :
    ((img.phdr i).type ≠ ptLoad ∧ s' = s) ∨
    ((img.phdr i).type = ptLoad ∧ (img.phdr i).accepted img.size = true ∧
      img.loadPages root (img.phdr i) s = .ok (0, s')) := by
  obtain ⟨-, -, he⟩ := bind_eq_ok.mp he
  dsimp only at he
  split at he
  · next htype =>
    obtain ⟨-, rfl⟩ := Prod.mk.inj (Except.ok.inj he)
    exact .inl ⟨htype, rfl⟩
  next htype =>
  obtain ⟨ok, hcheck, he⟩ := bind_eq_ok.mp he
  split at he
  · obtain ⟨hbad, -⟩ := Prod.mk.inj (Except.ok.inj he)
    exact absurd hbad (by decide)
  next hok =>
  obtain ⟨-, -, he⟩ := bind_eq_ok.mp he
  have hacc : (img.phdr i).accepted img.size = true := by
    rw [← Image.checkSegment_eq hcheck]
    simpa using hok
  exact .inr ⟨not_not.mp htype, hacc, he⟩

/-- The pages of the segments of the headers before `n` are there. -/
structure Assembled (img : Image) (pages : ℕ → Option UserPage) (n : ℕ) : Prop where
  reached : img.Reached n
  page : ∀ i < n, (img.phdr i).type = ptLoad → ∀ page, (img.phdr i).HasPage page →
    ∃ f, pages page = some ((img.phdr i).userPage img (page * 4096) f)

/-- **A header is added** to those before it. -/
theorem Holds.loadHeader {i : ℕ} (h : Holds s root pages) (ha : Assembled img pages i)
    (he : img.loadHeader root i s = .ok (0, s')) :
    ∃ pages', Holds s' root pages' ∧ Assembled img pages' (i + 1) := by
  rcases Image.loadHeader_ok he with ⟨htype, rfl⟩ | ⟨htype, hacc, hload⟩
  · have hlt : ∀ {j}, j < i + 1 → (img.phdr j).type = ptLoad → j < i := by
      intro j hj hload
      have hne : j ≠ i := fun e => htype (e ▸ hload)
      omega
    exact ⟨pages, h, fun j hj hj' => ha.reached j (hlt hj hj') hj',
      fun j hj hj' => ha.page j (hlt hj hj') hj'⟩
  · obtain ⟨pages', h', hadded⟩ := h.loadPages (Phdr.accepted_spec (img.phdr_words i) hacc) hload
    refine ⟨pages', h', fun j hj hj' => ?_, fun j hj hj' page hpage => ?_⟩
    · by_cases hlast : j = i
      · subst hlast
        refine ⟨hacc, fun k hk hk' page hpage hboth => ?_⟩
        -- a page of an earlier segment is not free
        obtain ⟨f, hf⟩ := ha.page k hk hk' page hpage
        rw [hadded.free hboth] at hf
        cases hf
      · exact ha.reached j (by omega) hj'
    · by_cases hlast : j = i
      · subst hlast
        exact hadded.new hpage
      · obtain ⟨f, hf⟩ := ha.page j (by omega) hj' page hpage
        exact ⟨f, hadded.kept hf⟩

/-- All headers are added. -/
theorem elfLoadUser_holds (h : Represents s space.pml4 fun _ => none)
    (he : elfLoadUser img space s = .ok (0, space', s')) :
    ∃ pages, Holds s' space.pml4 pages ∧ Assembled img pages img.phnum := by
  rw [elfLoadUser] at he
  split at he
  · obtain ⟨hbad, -⟩ := Prod.mk.inj (Except.ok.inj he)
    exact absurd hbad (by decide)
  obtain ⟨r₀, -, he⟩ := bind_eq_ok.mp he
  split at he
  · obtain ⟨hbad, -⟩ := Prod.mk.inj (Except.ok.inj he)
    exact absurd hbad (by decide)
  obtain ⟨⟨r₁, s₁⟩, hheaders, he⟩ := bind_eq_ok.mp he
  dsimp only at he
  split at he
  · obtain ⟨hbad, -⟩ := Prod.mk.inj (Except.ok.inj he)
    exact absurd hbad (by decide)
  next hr =>
  obtain rfl : r₁ = 0 := not_not.mp hr
  obtain ⟨-, hrest⟩ := Prod.mk.inj (Except.ok.inj he)
  obtain ⟨-, rfl⟩ := Prod.mk.inj hrest
  have hstep : ∀ i u r u', 0 ≤ i → i < 0 + img.phnum →
      (∃ pages, Holds u space.pml4 pages ∧ Assembled img pages i) →
      img.loadHeader space.pml4 i u = .ok (r, u') →
      if r = 0 then ∃ pages, Holds u' space.pml4 pages ∧ Assembled img pages (i + 1) else True := by
    rintro i u r u' - - ⟨pages, hu, hassembled⟩ hheader
    split
    · next hr =>
      subst hr
      exact hu.loadHeader hassembled hheader
    · trivial
  have hstart : ∃ pages, Holds s space.pml4 pages ∧ Assembled img pages 0 :=
    ⟨_, holds_nothing h, fun i hi => absurd hi (by omega), fun i hi => absurd hi (by omega)⟩
  rcases forEach_rule hstep hstart hheaders with ⟨-, hok⟩ | ⟨hbad, -⟩
  · rwa [Nat.zero_add] at hok
  · exact absurd hbad (by decide)

/-! ### Segments in memory -/

/-- The user sees a byte at an address of the lower half, with these rights. -/
def UserSees (s : Phys) (root a : ℕ) (write exec : Bool) (b : UInt8) : Prop :=
  a < 2 ^ 47 ∧ ∃ tr, hwWalk s.mem a 3 root = some tr ∧ tr.user = true ∧ tr.write = write ∧
    tr.noExec = !exec ∧ s.mem (tr.frame + a % 4096) = b

/-- A segment is in memory as its header says: the bytes of the file, and zeros behind them and in
the rest of the first and the last page. -/
def Phdr.Loaded (ph : Phdr) (img : Image) (s : Phys) (root : ℕ) : Prop :=
  ∀ a, ph.Covers (a / 4096) → ∃ b, UserSees s root a (has ph.flags pfW) (has ph.flags pfX) b ∧
    if ph.vaddr ≤ a ∧ a < ph.vaddr + ph.filesz then
      ph.offset + (a - ph.vaddr) < img.size ∧ b = img.byte (ph.offset + (a - ph.vaddr))
    else b = 0

/-- What the user sees in a page that is held. -/
theorem Holds.sees {f off : ℕ} (h : Holds s root pages) (hpage : page < 2 ^ 35) (hoff : off < 4096)
    (hpg : pages page = some (ph.userPage img (page * 4096) f)) :
    UserSees s root (page * 4096 + off) (has ph.flags pfW) (has ph.flags pfX)
      (ph.content img (page * 4096 + off)) := by
  have hmod : (page * 4096 + off) % 4096 = off := by omega
  obtain ⟨-, hlt⟩ := h.frame hpg
  refine ⟨by omega, ⟨f, has ph.flags pfW, true, !has ph.flags pfX⟩, ?_, rfl, rfl, rfl, ?_⟩
  · rw [h.rep.hwWalk_eq hpage hoff, hpg]
    exact congrArg some (Phdr.granted_mapFlags hlt)
  · rw [hmod]
    exact h.content hpg off hoff

/-- **A loaded image is in memory as its headers say** exactly if no segment of it wraps around, in
its file offset or when its end is rounded up. -/
theorem elf_loaded_iff (h : Represents s space.pml4 fun _ => none)
    (he : elfLoadUser img space s = .ok (0, space', s')) :
    (∀ i < img.phnum, (img.phdr i).type = ptLoad → (img.phdr i).Loaded img s' space.pml4) ↔
      ∀ i < img.phnum, (img.phdr i).type = ptLoad →
        (img.phdr i).vaddr + (img.phdr i).memsz + 4095 < 2 ^ 64 ∧
          (img.phdr i).offset + (img.phdr i).filesz < 2 ^ 64 := by
  obtain ⟨pages, hholds, hassembled⟩ := elfLoadUser_holds h he
  refine forall_congr' fun i => forall_congr' fun hi => forall_congr' fun htype => ?_
  have hwords := img.phdr_words i
  have hacc := Phdr.accepted_spec hwords (hassembled.reached.accepted hi htype)
  have hpage := hassembled.page i hi htype
  generalize img.phdr i = ph at hacc hpage hwords
  have hpos := hacc.pos
  have hle := hacc.le
  have hsize := img.size_le
  constructor
  · intro hloaded
    refine ⟨?_, ?_⟩
    · obtain ⟨b, ⟨hlow, -⟩, -⟩ := hloaded (ph.vaddr + ph.memsz - 1)
        ⟨ph.vaddr + ph.memsz - 1, by omega, by omega, rfl⟩
      omega
    · by_contra hwrap
      -- the last byte of the file would be outside
      have hfile : 0 < ph.filesz := by
        have := hwords.offset
        omega
      obtain ⟨b, -, hb⟩ := hloaded (ph.vaddr + ph.filesz - 1)
        ⟨ph.vaddr + ph.filesz - 1, by omega, by omega, rfl⟩
      rw [if_pos ⟨by omega, by omega⟩] at hb
      omega
  · rintro ⟨hround, hoff⟩ a hcovers
    have hin := hacc.hasPage hround hcovers
    obtain ⟨f, hf⟩ := hpage _ hin
    obtain ⟨-, -, htop⟩ := hacc.covers hin
    unfold Phys.userStackTop at htop
    have hsplit : a / 4096 * 4096 + a % 4096 = a := Nat.div_add_mod' a 4096
    have hoffset : a % 4096 < 4096 := Nat.mod_lt _ (by decide)
    have hsees := hholds.sees (by omega) hoffset hf
    rw [hsplit] at hsees
    refine ⟨_, hsees, ?_⟩
    rw [Phdr.content]
    split
    · have hfile := hacc.file
      rw [Word64.u64_of_lt hoff] at hfile
      refine ⟨by omega, ?_⟩
      rw [Image.mem, Word64.u64_of_lt (by omega)]
    · rfl

/-- The small image at `USER_BASE` is in memory. -/
theorem elf_loaded_smallImage :
    ∃ space' s', elfLoadUser (smallImage 64 0x400010 32 64) emptySpace emptyPhys = .ok (0, space', s') ∧
      ∀ i < (smallImage 64 0x400010 32 64).phnum,
        ((smallImage 64 0x400010 32 64).phdr i).type = ptLoad →
        ((smallImage 64 0x400010 32 64).phdr i).Loaded (smallImage 64 0x400010 32 64) s' 0x1000 := by
  obtain ⟨space', s', hload⟩ := smallImage_loads
  have h : Represents emptyPhys emptySpace.pml4 fun _ => none := emptyPhys_represents
  refine ⟨space', s', hload, (elf_loaded_iff h hload).mpr fun i hi _ => ?_⟩
  have hone : (smallImage 64 0x400010 32 64).phnum = 1 := by decide +kernel
  obtain rfl : i = 0 := by omega
  decide +kernel

/-- **A segment at the top of the address space**: its end wraps around when it is rounded up, and
the call returns 0 without having loaded anything. -/
theorem elf_not_loaded :
    ∃ space' s', elfLoadUser (smallImage 64 (2 ^ 64 - 4096) 32 4095) emptySpace emptyPhys =
        .ok (0, space', s') ∧
      ((smallImage 64 (2 ^ 64 - 4096) 32 4095).phdr 0).type = ptLoad ∧
      ¬((smallImage 64 (2 ^ 64 - 4096) 32 4095).phdr 0).Loaded
        (smallImage 64 (2 ^ 64 - 4096) 32 4095) s' 0x1000 := by
  have hrun : (elfLoadUser (smallImage 64 (2 ^ 64 - 4096) 32 4095) emptySpace emptyPhys).map Prod.fst =
      .ok 0 := by decide +kernel
  obtain ⟨⟨r, space', s'⟩, hload, rfl⟩ := ok_of_map_eq_ok hrun
  refine ⟨space', s', hload, by decide +kernel, fun hloaded => ?_⟩
  have hvaddr : ((smallImage 64 (2 ^ 64 - 4096) 32 4095).phdr 0).vaddr = 2 ^ 64 - 4096 := by
    decide +kernel
  have hmemsz : ((smallImage 64 (2 ^ 64 - 4096) 32 4095).phdr 0).memsz = 4095 := by decide +kernel
  obtain ⟨b, ⟨hlow, -⟩, -⟩ := hloaded (2 ^ 64 - 4096)
    ⟨2 ^ 64 - 4096, by rw [hvaddr], by rw [hvaddr, hmemsz]; decide, rfl⟩
  exact absurd hlow (by decide)

end Neptune
