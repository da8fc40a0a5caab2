import Neptune.Mmu.UserPtr

/-!
# Which buffers are accepted

`user_ptr_range` accepts a buffer exactly if it lies between `USER_BASE` and the top of the stack and
the walk of the processor finds every byte of it mapped for the user, provided that the kernel can
follow that walk.  It follows an entry to `entry & ~0xFFF`, so a bit above the address, such as the
no-execute bit, leads it out of the direct map.

## Main definitions

* `UserRange` — the buffers that should be accepted.
* `Phys.Followed` — the kernel can follow the walks of a buffer.

## Main results

* `Phys.userPtrRange_iff` — the buffers that are accepted.
* `userPtrRange_exact_iff` — when these are the same.
-/

namespace Neptune

open Word64 (u64 not64)

variable {m : ByteMem} {aspace ptr len virt last fuel : ℕ} {s : Phys}

/-- The buffer lies in the range of the user, and every byte of it is mapped for the user. -/
def UserRange (m : ByteMem) (aspace ptr len : ℕ) : Prop :=
  0 < len ∧ ptr + len < 2 ^ 64 ∧ Phys.userBase ≤ ptr ∧ ptr + len ≤ Phys.userStackTop ∧
    ∀ a, ptr ≤ a → a < ptr + len → ∃ tr, hwWalk m a 3 aspace = some tr ∧ tr.user = true

/-- The tables on the way to every byte of the buffer are where the kernel reads them. -/
def Phys.Followed (s : Phys) (aspace ptr len : ℕ) : Prop :=
  ∀ a, ptr ≤ a → a < ptr + len → s.KernelWalk a 3 aspace

/-- The loop accepts a range if it finds every page. -/
theorem Phys.rangeLoop_of_present (hfuel : last ≤ (virt / 4096 + fuel) * 4096)
    (hlast : last ≤ Phys.userStackTop)
    (h : ∀ a, virt ≤ a → a < last → s.userPagePresent aspace a = some true) :
    s.rangeLoop aspace last (fuel + 1) virt = some true := by
  unfold Phys.userStackTop at hlast
  induction fuel generalizing virt with
  | zero => rw [Phys.rangeLoop, if_neg (by omega)]
  | succ fuel ih =>
    rw [Phys.rangeLoop]
    split
    · next hlt =>
      have hpage : pageOf virt = virt / 4096 * 4096 := pageOf_eq (by omega)
      have hmod : u64 (virt / 4096 * 4096 + 0x1000) = virt / 4096 * 4096 + 0x1000 :=
        Word64.u64_of_lt (by omega)
      have hdiv : (virt / 4096 * 4096 + 0x1000) / 4096 = virt / 4096 + 1 := by omega
      simp only [h virt le_rfl hlt, hpage, hmod, Option.bind_eq_bind, Option.bind_some, Bool.not_true,
        Bool.false_eq_true, if_false]
      rw [if_neg (by omega)]
      refine ih ?_ fun a ha hlt' => h a (by omega) hlt'
      rw [hdiv, Nat.add_right_comm]
      exact hfuel
    · rfl

/-- **The buffers that `user_ptr_range` accepts.** -/
theorem Phys.userPtrRange_iff (hlen : len < 2 ^ 64) :
    s.userPtrRange aspace ptr len = some true ↔
      0 < len ∧ ptr + len < 2 ^ 64 ∧ Phys.userBase ≤ ptr ∧ ptr + len ≤ Phys.userStackTop ∧
        ∀ a, ptr ≤ a → a < ptr + len → s.userPagePresent aspace a = some true := by
  constructor
  · intro h
    rw [Phys.userPtrRange] at h
    split at h
    · cases h
    next hzero =>
    split at h
    · cases h
    next hbase =>
    split at h
    · cases h
    next hwrap =>
    split at h
    · cases h
    next htop =>
    have hsum : u64 (ptr + len) = ptr + len := by
      unfold u64 at hwrap ⊢
      omega
    have hlt := Word64.u64_lt (ptr + len)
    rw [hsum] at h htop hlt
    exact ⟨by omega, hlt, by omega, by omega, fun a hle hlt' => Phys.rangeLoop_spec h hlt hle hlt'⟩
  · rintro ⟨hpos, hsum, hbase, htop, hpages⟩
    have hmod : u64 (ptr + len) = ptr + len := Word64.u64_of_lt hsum
    rw [Phys.userPtrRange, if_neg (by omega), if_neg (by omega), hmod, if_neg (by omega),
      if_neg (by omega)]
    exact Phys.rangeLoop_of_present (by omega) htop hpages

/-- What is accepted should be accepted, and the kernel has followed its walks. -/
theorem Phys.userPtrRange_followed (ha : aspace % 4096 = 0) (hlt : aspace < 2 ^ 64)
    (hne : aspace ≠ 0) (hlen : len < 2 ^ 64) :
    s.userPtrRange aspace ptr len = some true ↔
      UserRange s.mem aspace ptr len ∧ s.Followed aspace ptr len := by
  rw [Phys.userPtrRange_iff hlen, UserRange, Phys.Followed]
  simp only [Phys.userPagePresent_iff ha hlt hne, and_assoc]
  refine and_congr_right fun _ => and_congr_right fun _ => and_congr_right fun _ =>
    and_congr_right fun _ => ⟨fun h => ⟨fun a hle hlt => (h a hle hlt).1,
      fun a hle hlt => (h a hle hlt).2⟩, fun h a hle hlt => ⟨h.1 a hle hlt, h.2 a hle hlt⟩⟩

/-- **`user_ptr_range` is exact** where the kernel can follow the walks of the processor: no entry
above the leaf has a bit above its address, and the tables are in the direct map. -/
theorem userPtrRange_exact_iff (ha : aspace % 4096 = 0) (hlt : aspace < 2 ^ 64) (hne : aspace ≠ 0)
    (hlen : len < 2 ^ 64) :
    (s.userPtrRange aspace ptr len = some true ↔ UserRange s.mem aspace ptr len) ↔
      (UserRange s.mem aspace ptr len → s.Followed aspace ptr len) := by
  rw [Phys.userPtrRange_followed ha hlt hne hlen]
  exact ⟨fun h hrange => (h.mpr hrange).2, fun h => ⟨And.left, fun hrange => ⟨hrange, h hrange⟩⟩⟩

/-! ### A page of 1 GiB -/

/-- Empty memory but for an address space at 0x1000 with a page of 1 GiB, and bits above the address
in the entry for its table. -/
def hugePhys (high : ℕ) : Phys :=
  { emptyPhys with
    mem := setEntry (setEntry (fun _ => 0) 0x1000 0 (high + 0x2007)) 0x2000 0 0x87 }

theorem userRange_hugePhys (high : ℕ) (h : high = 0 ∨ high = pteNx) :
    UserRange (hugePhys high).mem 0x1000 0x400000 1 := by
  refine ⟨by decide, by decide, by decide, by decide, fun a hle hlt => ?_⟩
  obtain rfl : a = 0x400000 := by omega
  rcases h with rfl | rfl
  · exact ⟨⟨0x400000, true, true, false⟩, by decide +kernel, rfl⟩
  · exact ⟨⟨0x400000, true, true, true⟩, by decide +kernel, rfl⟩

theorem userPtrRange_exact_hugePhys :
    (hugePhys 0).userPtrRange 0x1000 0x400000 1 = some true ↔
      UserRange (hugePhys 0).mem 0x1000 0x400000 1 := by
  refine (userPtrRange_exact_iff (by decide) (by decide) (by decide) (by decide)).mpr ?_
  intro _ a hle hlt
  obtain rfl : a = 0x400000 := by omega
  have htable : pageOf (entryAt (hugePhys 0).mem 0x1000 (indexAt 3 0x400000)) = 0x2000 := by
    decide +kernel
  refine ⟨by decide +kernel, .inr ?_⟩
  rw [htable]
  exact ⟨by decide +kernel, .inl ⟨by decide, by decide +kernel⟩⟩

/-- **A no-execute bit above the leaf**: the byte is mapped for the user, and the kernel reads the
table below the entry outside its direct map. -/
theorem userPtrRange_no_execute :
    UserRange (hugePhys pteNx).mem 0x1000 0x400000 1 ∧
      (hugePhys pteNx).userPtrRange 0x1000 0x400000 1 = none :=
  ⟨userRange_hugePhys pteNx (.inr rfl), by decide +kernel⟩

end Neptune
