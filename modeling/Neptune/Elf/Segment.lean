import Neptune.Elf.Pages

/-!
# Segments

The checks on a program header keep its pages between `USER_BASE - 0x1000` and the top of the stack,
unless rounding the end of the segment up wraps around: then the segment has no pages at all.

## Main definitions

* `Phdr.Covers`, `Phdr.HasPage` — the pages of a segment, and those that the loop goes through.
* `Image.Reached` — the headers that the loader comes to.

## Main results

* `Phdr.accepted_spec`, `Phdr.segEnd_cases` — what the checks say.
* `Phdr.Accepted.covers`, `Phdr.Accepted.hasPage` — the two kinds of pages compared.
* `Image.checkSegment_eq` — the reads do not change the answer of the checks.
-/

namespace Neptune

open Word64 (u64)

variable {root v f off n i a page : ℕ} {s s' : Phys} {img : Image} {ph : Phdr} {r : ℤ}
  {map : ℕ → Option Translation}

/-! ### The checks -/

/-- The fields of a header are 64-bit words. -/
structure Phdr.Words (ph : Phdr) : Prop where
  offset : ph.offset < 2 ^ 64
  vaddr : ph.vaddr < 2 ^ 64
  filesz : ph.filesz < 2 ^ 64
  memsz : ph.memsz < 2 ^ 64

theorem Image.phdr_words (img : Image) (i : ℕ) : (img.phdr i).Words :=
  ⟨img.mem.load_lt 8 _, img.mem.load_lt 8 _, img.mem.load_lt 8 _, img.mem.load_lt 8 _⟩

/-- Some address of the segment is in the page. -/
def Phdr.Covers (ph : Phdr) (page : ℕ) : Prop :=
  ∃ a, ph.vaddr ≤ a ∧ a < ph.vaddr + ph.memsz ∧ a / 4096 = page

/-- The page is one of those that the loop over the segment goes through. -/
def Phdr.HasPage (ph : Phdr) (page : ℕ) : Prop :=
  ph.vaddr / 4096 ≤ page ∧ page < ph.vaddr / 4096 + ph.pageCount

/-- The headers before `n` are accepted, and no two of their segments have a page in common. -/
def Image.Reached (img : Image) (n : ℕ) : Prop :=
  ∀ i < n, (img.phdr i).type = ptLoad → (img.phdr i).accepted img.size = true ∧
    ∀ j < i, (img.phdr j).type = ptLoad → ∀ page, (img.phdr j).HasPage page → ¬(img.phdr i).HasPage page

theorem Image.Reached.accepted {i n : ℕ} {img : Image} (h : img.Reached n) (hi : i < n)
    (htype : (img.phdr i).type = ptLoad) : (img.phdr i).accepted img.size = true :=
  (h i hi htype).1

/-- What an accepted header looks like. -/
structure Phdr.Accepted (ph : Phdr) (size : ℕ) : Prop where
  pos : 0 < ph.memsz
  le : ph.filesz ≤ ph.memsz
  file : u64 (ph.offset + ph.filesz) ≤ size
  sum : ph.vaddr + ph.memsz < 2 ^ 64
  start : ph.segStart = ph.vaddr / 4096 * 4096
  low : Phdr.loadMin ≤ ph.vaddr / 4096 * 4096
  high : ph.segEnd ≤ Phys.userStackTop

/-- **The checks.** -/
theorem Phdr.accepted_spec {size : ℕ} (hw : ph.Words) (h : ph.accepted size = true) :
    ph.Accepted size := by
  have hv := hw.vaddr
  have hm := hw.memsz
  simp only [Phdr.accepted, Bool.and_eq_true, Bool.not_eq_true', decide_eq_false_iff_not, not_or,
    not_lt] at h
  obtain ⟨⟨⟨⟨hpos, hle⟩, hfile⟩, hsum⟩, hlow, hhigh⟩ := h
  have hstart : ph.segStart = ph.vaddr / 4096 * 4096 :=
    Word64.alignDown_eq (k := 12) (by decide) hv (by decide)
  refine ⟨by omega, hle, hfile, ?_, hstart, hstart ▸ hlow, hhigh⟩
  unfold u64 at hsum
  omega

/-- The end of the segment, rounded up: it is right, or it has wrapped around to 0. -/
theorem Phdr.segEnd_cases {size : ℕ} (h : ph.Accepted size) :
    (ph.vaddr + ph.memsz + 4095 < 2 ^ 64 ∧ ph.segEnd = (ph.vaddr + ph.memsz + 4095) / 4096 * 4096) ∨
    (2 ^ 64 ≤ ph.vaddr + ph.memsz + 4095 ∧ ph.segEnd = 0) := by
  have hsum := h.sum
  have hmod : u64 (ph.vaddr + ph.memsz) = ph.vaddr + ph.memsz := Word64.u64_of_lt hsum
  rw [Phdr.segEnd, hmod]
  by_cases hwrap : ph.vaddr + ph.memsz + 4095 < 2 ^ 64
  · exact Or.inl ⟨hwrap, Word64.alignUp_eq (k := 12) (by decide) hwrap (by decide)⟩
  · refine Or.inr ⟨by omega, ?_⟩
    have hlt : u64 (ph.vaddr + ph.memsz + 4096 - 1) < 4096 := by
      unfold u64
      omega
    have hround : u64 (ph.vaddr + ph.memsz + 4096 - 1) &&& Word64.not64 (4096 - 1) =
        u64 (ph.vaddr + ph.memsz + 4096 - 1) / 4096 * 4096 :=
      Word64.and_not64_sub_one (k := 12) (by omega) (by decide)
    rw [Word64.alignUp, hround, Nat.div_eq_of_lt hlt, Nat.zero_mul]

/-- The pages that the loop goes through are those of the segment. -/
theorem Phdr.Accepted.covers {size : ℕ} (h : ph.Accepted size) (hpage : ph.HasPage page) :
    ph.Covers page ∧ Phdr.loadMin ≤ page * 4096 ∧ page * 4096 + 4096 ≤ Phys.userStackTop := by
  obtain ⟨hle, hlt⟩ := hpage
  have hin : page * 4096 + 4096 ≤ ph.segEnd := by
    rw [Phdr.pageCount, h.start] at hlt
    generalize ph.vaddr / 4096 = first at hle hlt
    omega
  refine ⟨?_, h.low.trans (Nat.mul_le_mul_right _ hle), hin.trans h.high⟩
  have hpos := h.pos
  rcases Phdr.segEnd_cases h with ⟨-, hend⟩ | ⟨-, hend⟩
  · rw [hend] at hin
    by_cases hfirst : ph.vaddr / 4096 = page
    · exact ⟨ph.vaddr, le_rfl, by omega, hfirst⟩
    · exact ⟨page * 4096, by omega, by omega, Nat.mul_div_cancel _ (by decide)⟩
  · omega

/-- The address of a page of the segment. -/
theorem Phdr.Accepted.pageAddr_lt {size k : ℕ} (h : ph.Accepted size) (hk : k < ph.pageCount) :
    (ph.vaddr / 4096 + k) * 4096 < 2 ^ 39 := by
  obtain ⟨-, -, htop⟩ := h.covers ⟨Nat.le_add_right (ph.vaddr / 4096) k, by omega⟩
  unfold Phys.userStackTop at htop
  omega

theorem Phdr.Accepted.pageAddr {size k : ℕ} (h : ph.Accepted size) (hk : k < ph.pageCount) :
    u64 (ph.segStart + k * 4096) = (ph.vaddr / 4096 + k) * 4096 := by
  have hlt := h.pageAddr_lt hk
  rw [h.start, ← Nat.add_mul]
  exact Word64.u64_of_lt (by omega)

/-- If rounding does not wrap, the loop goes through all pages of the segment. -/
theorem Phdr.Accepted.hasPage {size : ℕ} (h : ph.Accepted size)
    (hwrap : ph.vaddr + ph.memsz + 4095 < 2 ^ 64) (hc : ph.Covers page) : ph.HasPage page := by
  obtain ⟨a, hle, hlt, rfl⟩ := hc
  have hstart := h.start
  unfold Phdr.HasPage Phdr.pageCount
  rcases Phdr.segEnd_cases h with ⟨-, hend⟩ | ⟨hbad, -⟩
  · omega
  · omega

/-! ### The reads of the checks -/

/-- The checks with their reads come to the same answer. -/
theorem Image.checkSegment_eq {b : Bool} (h : img.checkSegment i = .ok b) :
    b = (img.phdr i).accepted img.size := by
  rw [Image.checkSegment] at h
  obtain ⟨-, -, h⟩ := bind_eq_ok.mp h
  split at h
  · next hz =>
    obtain rfl := Except.ok.inj h
    simp [Phdr.accepted, hz]
  next hz =>
  obtain ⟨-, -, h⟩ := bind_eq_ok.mp h
  split at h
  · next hle =>
    obtain rfl := Except.ok.inj h
    simp [Phdr.accepted, hle]
  next hle =>
  obtain ⟨-, -, h⟩ := bind_eq_ok.mp h
  split at h
  · next hfile =>
    obtain rfl := Except.ok.inj h
    simp [Phdr.accepted, hfile]
  next hfile =>
  obtain ⟨-, -, h⟩ := bind_eq_ok.mp h
  split at h
  · next hsum =>
    obtain rfl := Except.ok.inj h
    simp [Phdr.accepted, hsum]
  next hsum =>
  split at h
  · next hrange =>
    obtain rfl := Except.ok.inj h
    rw [Phdr.accepted, decide_eq_true hrange]
    simp
  · next hrange =>
    obtain rfl := Except.ok.inj h
    rw [Phdr.accepted, decide_eq_false hrange]
    simp [hz, hle, hfile, hsum]

end Neptune
