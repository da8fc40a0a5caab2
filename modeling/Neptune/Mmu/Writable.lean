import Neptune.Mmu.UserRange

/-!
# Which accepted buffers can be written

The system calls that store into a buffer of the user ask `user_ptr_range` and nothing else, which
does not look at the right to write.  Whether a page of a buffer can be written is decided by the
event that mapped it last: a call of `mmu_map_page_in` gives the right if `MMU_FLAG_WRITE` is among
its flags, and `handle_user_cow_fault` gives it to a page that it copies; the zero page that
`handle_user_page_fault` maps at the first access to a page of the stack cannot be written.

## Main definitions

* `SpaceRun` — what can happen to an address space.
* `lastWrite` — whether the event that mapped a page last gave the right to write.

## Main results

* `accepted_writable_iff` — which accepted buffers can be written.
-/

namespace Neptune

open Option

/-- What maps the pages of an address space, with what it returns. -/
inductive SpaceEvent
  /-- `mmu_map_page_in`. -/
  | map (c : MapCall) (r : ℤ)
  /-- `handle_user_page_fault`, with the error code of the fault. -/
  | fault (cr2 err r : ℕ)
  deriving DecidableEq, Repr

/-- What can happen to an address space from `s` on, the newest event first.  Between the events
anything can be done that leaves its tables alone, and pages can be taken. -/
inductive SpaceRun (root : ℕ) (s : Phys) : List SpaceEvent → Phys → Prop
  | start : SpaceRun root s [] s
  | map {log u u' c r} : SpaceRun root s log u → c.Lower →
      u.mapPageIn root c.virt c.phys c.flags = some (r, u') → SpaceRun root s (.map c r :: log) u'
  | fault {log u u' cr2 err rsp r} : SpaceRun root s log u → u.window ≤ u.hhdm → u.zeroPhys < 2 ^ 64 →
      cr2 < 2 ^ 47 → u.handleUserPageFault root cr2 err rsp = some (r, u') →
      SpaceRun root s (.fault cr2 err r :: log) u'
  | other {log u u'} : SpaceRun root s log u → KeepsTables u u' root → SpaceRun root s log u'

/-- Whether the event that mapped a page last gave the right to write: a call of
`mmu_map_page_in` with `MMU_FLAG_WRITE`, or the copy of a page that was present. -/
def lastWrite : List SpaceEvent → ℕ → Bool
  | [], _ => false
  | .map c r :: log, page =>
    if r = 0 ∧ c.virt / 4096 = page then has c.flags mmuFlagWrite else lastWrite log page
  | .fault cr2 err r :: log, page =>
    if r = 1 ∧ cr2 / 4096 = page then has err 0x1 else lastWrite log page

variable {s s₀ s' : Phys} {root kernel ptr len : ℕ} {log : List SpaceEvent}

/-- **The tables follow the events**: every page that is mapped can be written exactly if the last
event that mapped it says so. -/
theorem SpaceRun.represents (h : SpaceRun root s log s') (hs : Represents s root fun _ => none) :
    ∃ map, Represents s' root map ∧ ∀ page tr, map page = some tr → tr.write = lastWrite log page := by
  induction h with
  | start => exact ⟨_, hs, fun _ _ h => by cases h⟩
  | map hrun hc he ih =>
    obtain ⟨map, hrep, hwrite⟩ := ih
    refine ⟨_, (hrep.mapPageIn hc he).1, fun page tr htr => ?_⟩
    rw [lastWrite]
    split at htr
    · next hpage =>
      obtain rfl := some.inj htr
      rw [if_pos hpage]
      rfl
    · next hpage =>
      rw [if_neg hpage, hwrite page tr htr]
  | fault hrun hw hz hcr2 he ih =>
    obtain ⟨map, hrep, hwrite⟩ := ih
    rcases hrep.handleUserPageFault hw hz hcr2 he with ⟨rfl, hrep'⟩ | ⟨rfl, new, hnew, hrep'⟩
    · refine ⟨map, hrep', fun page tr htr => ?_⟩
      rw [lastWrite, if_neg (by simp), hwrite page tr htr]
    · refine ⟨_, hrep', fun page tr htr => ?_⟩
      rw [lastWrite]
      split at htr
      · next hpage =>
        obtain rfl := some.inj htr
        rw [if_pos ⟨rfl, hpage⟩, hnew]
      · next hpage =>
        rw [if_neg fun hboth => hpage hboth.2, hwrite page tr htr]
  | other hrun hkeeps ih =>
    obtain ⟨map, hrep, hwrite⟩ := ih
    exact ⟨map, hrep.keep hkeeps, hwrite⟩

/-- **Which accepted buffers can be written**: after any events in a new address space, exactly
those of which every page was mapped last with the right to write. -/
theorem accepted_writable_iff (hf : FreshPages s)
    (hcreate : s.createUserPml4 kernel = some (root, s₀)) (hroot : root ≠ 0)
    (hrun : SpaceRun root s₀ log s') (hlen : len < 2 ^ 64)
    (hacc : s'.userPtrRange root ptr len = some true) :
    (∀ a, ptr ≤ a → a < ptr + len →
      ∃ tr, hwWalk s'.mem a 3 root = some tr ∧ tr.user = true ∧ tr.write = true) ↔
    ∀ a, ptr ≤ a → a < ptr + len → lastWrite log (a / 4096) = true := by
  obtain ⟨map, hrep, hwrite⟩ := hrun.represents (Phys.createUserPml4_spec hf hcreate hroot).1
  have hle := s'.window_le
  obtain ⟨ha, hin⟩ := hrep.tables.inside (Nat.zero_le 3) lower_root rfl
  obtain ⟨⟨-, -, -, htop, hwalk⟩, -⟩ :=
    (Phys.userPtrRange_followed ha (by omega) hroot hlen).mp hacc
  -- the page of a byte of the buffer is mapped for the user, with the right of the last event
  have hbyte : ∀ a, ptr ≤ a → a < ptr + len → ∃ tr, hwWalk s'.mem a 3 root = some tr ∧
      tr.user = true ∧ tr.write = lastWrite log (a / 4096) := by
    intro a hle hlt
    obtain ⟨tr, htr, huser⟩ := hwalk a hle hlt
    have hpage : a / 4096 < 2 ^ 35 := by
      unfold Phys.userStackTop at htop
      omega
    have hmap := hrep.hwWalk_eq hpage (Nat.mod_lt a (by decide))
    rw [Nat.div_add_mod'] at hmap
    exact ⟨tr, htr, huser, hwrite _ tr (hmap.symm.trans htr)⟩
  refine forall_congr' fun a => forall_congr' fun hle => forall_congr' fun hlt => ?_
  obtain ⟨tr, htr, huser, hlast⟩ := hbyte a hle hlt
  simp [htr, huser, hlast]

/-- In a new address space a page of data is mapped, and the first access to the stack faults. -/
theorem emptyPhys_accepted :
    ∃ s₀ s₁ s₂, emptyPhys.createUserPml4 0x1000 = some (0x2000, s₀) ∧
      s₀.mapPageIn 0x2000 0x400000 0x200000 0x6 = some (0, s₁) ∧
      s₁.handleUserPageFault 0x2000 0x7FFFFFE000 0x6 0x7FFFFFEFF8 = some (1, s₂) ∧
      s₁.window ≤ s₁.hhdm ∧ s₁.zeroPhys < 2 ^ 64 ∧
      s₂.userPtrRange 0x2000 0x400000 16 = some true ∧
      s₂.userPtrRange 0x2000 0x7FFFFFE000 16 = some true ∧
      (hwWalk s₂.mem 0x7FFFFFE000 3 0x2000).map Translation.write = some false := by
  have hrun : ((emptyPhys.createUserPml4 0x1000).bind fun p =>
      (p.2.mapPageIn p.1 0x400000 0x200000 0x6).bind fun q =>
        (q.2.handleUserPageFault p.1 0x7FFFFFE000 0x6 0x7FFFFFEFF8).map fun w =>
          (p.1, q.1, w.1, decide (q.2.window ≤ q.2.hhdm ∧ q.2.zeroPhys < 2 ^ 64 ∧
            w.2.userPtrRange p.1 0x400000 16 = some true ∧
            w.2.userPtrRange p.1 0x7FFFFFE000 16 = some true ∧
            (hwWalk w.2.mem 0x7FFFFFE000 3 p.1).map Translation.write = some false))) =
      some (0x2000, 0, 1, true) := by
    decide +kernel
  obtain ⟨⟨root, s₀⟩, hcreate, hrest⟩ := bind_eq_some_iff.mp hrun
  obtain ⟨⟨r, s₁⟩, hmap, hrest⟩ := bind_eq_some_iff.mp hrest
  obtain ⟨⟨r', s₂⟩, hfault, hout⟩ := map_eq_some_iff.mp hrest
  simp only [Prod.mk.injEq, decide_eq_true_eq] at hout
  obtain ⟨rfl, rfl, rfl, hout⟩ := hout
  exact ⟨s₀, s₁, s₂, hcreate, hmap, hfault, hout⟩

/-- `SYSCALL_READ` into a page of the stack: the buffer is accepted and cannot be written. -/
theorem stack_page_accepted_read_only :
    ∃ root s₀ s₁ s₂ tr, emptyPhys.createUserPml4 0x1000 = some (root, s₀) ∧
      s₀.mapPageIn root 0x400000 0x200000 0x6 = some (0, s₁) ∧
      s₁.handleUserPageFault root 0x7FFFFFE000 0x6 0x7FFFFFEFF8 = some (1, s₂) ∧
      s₂.userPtrRange root 0x7FFFFFE000 16 = some true ∧
      hwWalk s₂.mem 0x7FFFFFE000 3 root = some tr ∧ tr.write = false := by
  obtain ⟨s₀, s₁, s₂, hcreate, hmap, hfault, -, -, -, hacc, hrun⟩ := emptyPhys_accepted
  obtain ⟨tr, hwalk, hwrite⟩ := map_eq_some_iff.mp hrun
  exact ⟨0x2000, s₀, s₁, s₂, tr, hcreate, hmap, hfault, hacc, hwalk, hwrite⟩

/-- The page of data can be written after that. -/
theorem accepted_writable_iff_data_page :
    ∃ s₀ log s', emptyPhys.createUserPml4 0x1000 = some (0x2000, s₀) ∧
      SpaceRun 0x2000 s₀ log s' ∧ s'.userPtrRange 0x2000 0x400000 16 = some true ∧
      ∀ a, 0x400000 ≤ a → a < 0x400000 + 16 →
        ∃ tr, hwWalk s'.mem a 3 0x2000 = some tr ∧ tr.user = true ∧ tr.write = true := by
  obtain ⟨s₀, s₁, s₂, hcreate, hmap, hfault, hw, hz, hacc, -⟩ := emptyPhys_accepted
  have hrun : SpaceRun 0x2000 s₀ [.fault 0x7FFFFFE000 0x6 1, .map ⟨0x400000, 0x200000, 0x6⟩ 0] s₂ :=
    (SpaceRun.start.map ⟨by decide, by decide, by decide⟩ hmap).fault hw hz (by decide) hfault
  refine ⟨s₀, _, s₂, hcreate, hrun, hacc, (accepted_writable_iff emptyPhys_fresh hcreate (by decide)
    hrun (by decide) hacc).mpr fun a hle hlt => ?_⟩
  have hpage : a / 4096 = 0x400 := by omega
  rw [hpage]
  decide

end Neptune
