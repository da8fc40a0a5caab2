import Neptune.Elf.Range
import Neptune.User.Launch
import Neptune.Vfs.Memfs
import Neptune.Mem.Pmm

/-!
# Preparing a program

`user_prepare_image` makes an address space, loads the image into it, maps a stack and puts the
arguments there.  What fails on the way is reported with -1; the pages that were taken before are
never given back.

## Main definitions

* `Phys.userSpaceInit`, `Phys.mapStack` — the address space and its stack.
* `UserSpace.stackWrite`, `UserSpace.pushBytes`, `UserSpace.stackSetup` — the arguments.
* `userPrepareImage` — `user_prepare_image`.
* `Pmm.supplies`, `Pmm.after` — the memory manager behind the pages that are taken.

## Main results

* `prepare_image_leaks_iff` — a failed call takes pages unless there is no path.
-/

namespace Neptune

open List Option Phys
open Word64 (u64)

/-! ### `user.c` -/

namespace Phys

/-- `user_space_init`, with the tables of the kernel at `kernelPml4`. -/
def userSpaceInit (s : Phys) (kernelPml4 : ℕ) (space : UserSpace) : Option (ℤ × UserSpace × Phys) := do
  let (pml4, s) ← s.createUserPml4 kernelPml4
  if pml4 = 0 then return (-1, space, s)
  return (0, ⟨pml4, userBase, userStackTop, userStackTop, 0, List.replicate userStackMaxPages 0⟩, s)

/-- A page of the stack. -/
def mapStackPage (bottom i : ℕ) (c : UserSpace × Phys) : Except Stop (ℤ × UserSpace × Phys) := do
  let (space, s) := c
  let (phys, s) ← orStop s.pmmAllocPage
  if phys = 0 then return (-1, space, s)
  let (r, s) ← orStop (s.userSpaceMapPage space.pml4 (bottom + i * 4096) phys
    (mmuFlagWrite ||| mmuFlagNoexec))
  if r ≠ 0 then return (-1, space, s)
  return (0, { space with stackPhys := space.stackPhys.set i phys }, s)

/-- `user_space_map_stack`. -/
def mapStack (s : Phys) (space : UserSpace) (pages : ℕ) : Except Stop (ℤ × UserSpace × Phys) :=
  if space.pml4 = 0 ∨ pages = 0 ∨ pages > userStackMaxPages then .ok (-1, space, s)
  else do
    let bottom := userStackTop - pages * 4096
    let (r, space, s) ← forEach (mapStackPage bottom) pages 0 (space, s)
    if r ≠ 0 then return (-1, space, s)
    return (0, { space with stackTop := userStackTop, stackBottom := bottom, stackPages := pages }, s)

end Phys

namespace UserSpace

/-- The loop of `stack_write`.  Each pass takes a byte at least, so the length of the data is enough
fuel. -/
def stackLoop (space : UserSpace) : ℕ → ℕ → List UInt8 → Phys → Except Stop (ℤ × Phys)
  | 0, _, _, s => .ok (0, s)
  | n + 1, offset, data, s =>
    if data = [] then .ok (0, s)
    else if offset / 4096 ≥ space.stackPages then .ok (-1, s)
    else do
      let chunk := min (4096 - offset % 4096) data.length
      let s ← orStop (s.blitHhdm (space.stackPhys.getD (offset / 4096) 0) (offset % 4096)
        (data.take chunk))
      space.stackLoop n (offset + chunk) (data.drop chunk) s

/-- `stack_write`. -/
def stackWrite (space : UserSpace) (addr : ℕ) (data : List UInt8) (s : Phys) :
    Except Stop (ℤ × Phys) :=
  if data.length = 0 then .ok (-1, s)
  else if addr < space.stackBottom ∨ u64 (addr + data.length) > space.stackTop then .ok (-1, s)
  else space.stackLoop data.length (addr - space.stackBottom) data s

/-- `push_bytes`, with the stack pointer that it leaves. -/
def pushBytes (space : UserSpace) (data : List UInt8) (c : ℕ × Phys) : Except Stop (ℤ × ℕ × Phys) :=
  let (sp, s) := c
  if data.length = 0 then .ok (-1, sp, s)
  else if sp < u64 (space.stackBottom + data.length) then .ok (-1, sp, s)
  else do
    let sp := sp - data.length
    let (r, s) ← space.stackWrite sp data s
    return (r, sp, s)

/-- The pushes of a list of data, with the stack pointers after them. -/
def pushAll (space : UserSpace) : List (List UInt8) → ℕ × Phys → Except Stop (ℤ × List ℕ × ℕ × Phys)
  | [], c => .ok (0, [], c)
  | data :: rest, c => do
    let (r, sp, s) ← space.pushBytes data c
    if r ≠ 0 then return (-1, [], sp, s)
    let (r, sps, c) ← space.pushAll rest (sp, s)
    return (r, sp :: sps, c)

/-- The bytes of a word. -/
def wordBytes (n : ℕ) : List UInt8 := (List.range 8).map fun i => (n / 2 ^ (8 * i)).toUInt8

/-- The strings of a vector, each with its NUL. -/
def vecStrings (v : StrVec) (n : ℕ) : List (List UInt8) :=
  (List.range n).map fun i => (v i).getD [] ++ [0]

/-- `user_stack_setup`, with the stack pointer.  A vector that is NULL is read like one that is
empty. -/
def stackSetup (space : UserSpace) (argv envp : StrVec) (sp : ℕ) (s : Phys) :
    Except Stop (ℤ × ℕ × Phys) :=
  if space.stackPages = 0 then .ok (-1, sp, s)
  else if !countsOk argv envp then .ok (-1, sp, s)
  else do
    let argc := vecCount argv userArgMax 0
    let envc := vecCount envp userEnvMax 0
    let (r, argvAddr, top, s) ← space.pushAll (vecStrings argv argc) (space.stackTop, s)
    if r ≠ 0 then return (-1, sp, s)
    let (r, envAddr, top, s) ← space.pushAll (vecStrings envp envc) (top, s)
    if r ≠ 0 then return (-1, sp, s)
    -- the words, in the order in which they are pushed
    let words := 0 :: envAddr.reverse ++ 0 :: argvAddr.reverse ++ [argc]
    let (r, _, top, s) ← space.pushAll (words.map wordBytes) (top / 16 * 16, s)
    if r ≠ 0 then return (-1, sp, s)
    return (0, top, s)

end UserSpace

/-- `user_prepare_image` with the contents of the files of `fs.c`; `none` is a path that is NULL.  It
leaves a user space and a stack pointer. -/
def userPrepareImage (images : ℕ → Image) (kernelPml4 : ℕ) (path : Option (List UInt8))
    (argv envp : StrVec) (space : UserSpace) (sp : ℕ) (s : Phys) :
    Except Stop (ℤ × UserSpace × ℕ × Phys) :=
  match path with
  | none => .ok (-1, space, sp, s)
  | some path => do
    let (r, space, s) ← orStop (s.userSpaceInit kernelPml4 space)
    if r ≠ 0 then return (-1, space, sp, s)
    match memfsLookup path with
    | none => return (-1, space, sp, s)
    | some file =>
      let (r, space, s) ← elfLoadUser (images file) space s
      if r ≠ 0 then return (-1, space, sp, s)
      let (r, space, s) ← s.mapStack space 1
      if r ≠ 0 then return (-1, space, sp, s)
      let (r, sp, s) ← space.stackSetup argv envp sp s
      if r ≠ 0 then return (-1, space, sp, s)
      return (0, space, sp, s)

/-! ### The pages that are taken -/

variable {s s' : Phys} {r : ℤ} {f t i root virt phys flags n : ℕ} {space space' : UserSpace}
  {img : Image} {ph : Phdr} {argv envp : StrVec}

/-- The state that a call returns. -/
theorem ok_state_eq {α σ : Type} {a a' : α} {c c' : σ} {r r' : ℤ}
    (h : (Except.ok (r, a, c) : Except Stop (ℤ × α × σ)) = .ok (r', a', c')) : c = c' :=
  (Prod.mk.inj (Prod.mk.inj (Except.ok.inj h)).2).2

theorem ok_state_eq' {α β σ : Type} {a a' : α} {b b' : β} {c c' : σ} {r r' : ℤ}
    (h : (Except.ok (r, a, b, c) : Except Stop (ℤ × α × β × σ)) = .ok (r', a', b', c')) : c = c' :=
  (Prod.mk.inj (ok_state_eq h)).2

/-- Pages are taken from the front of what there is to be had. -/
abbrev Draws (s s' : Phys) : Prop := s'.pool <:+ s.pool

theorem Phys.writeTable_pool (h : s.writeTable t i n = some s') : s'.pool = s.pool := by
  obtain ⟨a, -, rfl⟩ := map_eq_some_iff.mp h
  rfl

theorem Phys.zeroPage_pool (h : s.zeroPage t = some s') : s'.pool = s.pool := by
  obtain ⟨a, -, rfl⟩ := map_eq_some_iff.mp h
  rfl

theorem Phys.blitHhdm_pool {l : List UInt8} (h : s.blitHhdm t i l = some s') : s'.pool = s.pool := by
  obtain ⟨a, -, rfl⟩ := map_eq_some_iff.mp h
  rfl

theorem Phys.pmmAllocPage_pool (h : s.pmmAllocPage = some (f, s')) : s.pool = f :: s'.pool := by
  rw [Phys.pmmAllocPage] at h
  cases hp : s.pool with
  | nil => simp [hp] at h
  | cons g pool =>
    simp only [hp] at h
    obtain ⟨rfl, rfl⟩ := Prod.mk.inj (some.inj h)
    rfl

theorem Phys.pmmAllocPage_draws (h : s.pmmAllocPage = some (f, s')) : Draws s s' := by
  rw [Draws, pmmAllocPage_pool h]
  exact suffix_cons f _

theorem Phys.splitLoop_pool {base keep : ℕ} (h : s.splitLoop t base keep n i = some s') :
    s'.pool = s.pool := by
  induction n generalizing s i with
  | zero => rw [← some.inj h]
  | succ n ih =>
    obtain ⟨u, hwrite, hrest⟩ := bind_eq_some_iff.mp h
    rw [ih hrest, writeTable_pool hwrite]

theorem Phys.copyEntries_pool {dst src : ℕ} (h : s.copyEntries dst src n i = some s') :
    s'.pool = s.pool := by
  induction n generalizing s i with
  | zero => rw [← some.inj h]
  | succ n ih =>
    obtain ⟨e, -, h⟩ := bind_eq_some_iff.mp h
    obtain ⟨u, hwrite, hrest⟩ := bind_eq_some_iff.mp h
    rw [ih hrest, writeTable_pool hwrite]

/-- An entry that is made takes a page if it leads to a new table. -/
theorem Phys.ensureTable_draws (h : s.ensureTable t i flags = some (f, s')) : Draws s s' := by
  obtain ⟨entry, -, h⟩ := bind_eq_some_iff.mp h
  split at h
  · obtain ⟨⟨g, u⟩, halloc, h⟩ := bind_eq_some_iff.mp h
    obtain ⟨u₁, hsplit, h⟩ := bind_eq_some_iff.mp h
    obtain ⟨u₂, hwrite, h⟩ := bind_eq_some_iff.mp h
    obtain ⟨-, rfl⟩ := Prod.mk.inj (some.inj h)
    rw [Draws, writeTable_pool hwrite, splitLoop_pool hsplit]
    exact pmmAllocPage_draws halloc
  split at h
  · split at h
    · obtain ⟨u, hwrite, h⟩ := bind_eq_some_iff.mp h
      obtain ⟨-, rfl⟩ := Prod.mk.inj (some.inj h)
      rw [Draws, writeTable_pool hwrite]
    · obtain ⟨-, rfl⟩ := Prod.mk.inj (some.inj h)
      exact suffix_rfl
  · obtain ⟨⟨g, u⟩, halloc, h⟩ := bind_eq_some_iff.mp h
    obtain ⟨u₁, hzero, h⟩ := bind_eq_some_iff.mp h
    obtain ⟨u₂, hwrite, h⟩ := bind_eq_some_iff.mp h
    obtain ⟨-, rfl⟩ := Prod.mk.inj (some.inj h)
    rw [Draws, writeTable_pool hwrite, zeroPage_pool hzero]
    exact pmmAllocPage_draws halloc

theorem Phys.mapPageIn_draws (h : s.mapPageIn root virt phys flags = some (r, s')) : Draws s s' := by
  rw [Phys.mapPageIn] at h
  split at h
  · obtain ⟨-, rfl⟩ := Prod.mk.inj (some.inj h)
    exact suffix_rfl
  obtain ⟨⟨pdpt, u₁⟩, h₁, h⟩ := bind_eq_some_iff.mp h
  obtain ⟨⟨pd, u₂⟩, h₂, h⟩ := bind_eq_some_iff.mp h
  obtain ⟨⟨pt, u₃⟩, h₃, h⟩ := bind_eq_some_iff.mp h
  have hpath : Draws s u₃ := ((ensureTable_draws h₃).trans (ensureTable_draws h₂)).trans
    (ensureTable_draws h₁)
  obtain ⟨entry, -, h⟩ := bind_eq_some_iff.mp h
  split at h
  · obtain ⟨-, rfl⟩ := Prod.mk.inj (some.inj h)
    exact hpath
  · obtain ⟨u₄, hwrite, h⟩ := bind_eq_some_iff.mp h
    obtain ⟨-, rfl⟩ := Prod.mk.inj (some.inj h)
    rw [Draws, writeTable_pool hwrite]
    exact hpath

theorem Phys.userSpaceMapPage_draws (h : s.userSpaceMapPage root virt phys flags = some (r, s')) :
    Draws s s' := by
  rw [Phys.userSpaceMapPage] at h
  split at h
  · obtain ⟨-, rfl⟩ := Prod.mk.inj (some.inj h)
    exact suffix_rfl
  · exact mapPageIn_draws h

/-- **A new address space takes a page**, also if the call fails. -/
theorem Phys.userSpaceInit_takes {kernel : ℕ} (h : s.userSpaceInit kernel space = some (r, space', s')) :
    s'.pool.length < s.pool.length := by
  obtain ⟨⟨pml4, u⟩, hcreate, h⟩ := bind_eq_some_iff.mp h
  obtain ⟨⟨g, u₁⟩, halloc, hcreate⟩ := bind_eq_some_iff.mp hcreate
  have htaken : u.pool = u₁.pool := by
    dsimp only at hcreate
    split at hcreate
    · obtain ⟨-, rfl⟩ := Prod.mk.inj (some.inj hcreate)
      rfl
    · obtain ⟨u₂, hzero, hcreate⟩ := bind_eq_some_iff.mp hcreate
      obtain ⟨u₃, hcopy, hcreate⟩ := bind_eq_some_iff.mp hcreate
      obtain ⟨-, rfl⟩ := Prod.mk.inj (some.inj hcreate)
      rw [copyEntries_pool hcopy, zeroPage_pool hzero]
  have hsame : s' = u := by
    dsimp only at h
    split at h
    · exact (Prod.mk.inj (Prod.mk.inj (some.inj h)).2).2.symm
    · exact (Prod.mk.inj (Prod.mk.inj (some.inj h)).2).2.symm
  rw [hsame, htaken, pmmAllocPage_pool halloc]
  exact Nat.lt_succ_self _

theorem Image.copyFile_draws (h : img.copyFile ph virt phys s = .ok s') : Draws s s' := by
  rw [Image.copyFile] at h
  dsimp only at h
  generalize (if virt > ph.vaddr then virt else ph.vaddr) = start at h
  generalize (if u64 (virt + 4096) < u64 (ph.vaddr + ph.filesz) then u64 (virt + 4096)
    else u64 (ph.vaddr + ph.filesz)) = last at h
  split at h
  · obtain ⟨-, -, h⟩ := bind_eq_ok.mp h
    rw [Draws, blitHhdm_pool (orStop_eq_ok.mp h)]
  · obtain rfl := Except.ok.inj h
    exact suffix_rfl

theorem Image.loadPage_draws (h : img.loadPage root ph virt s = .ok (r, s')) : Draws s s' := by
  obtain ⟨⟨g, u⟩, halloc, h⟩ := bind_eq_ok.mp h
  have htaken := pmmAllocPage_draws (orStop_eq_ok.mp halloc)
  dsimp only at h
  split at h
  · obtain ⟨-, rfl⟩ := Prod.mk.inj (Except.ok.inj h)
    exact htaken
  obtain ⟨⟨r₁, u₁⟩, hmap, h⟩ := bind_eq_ok.mp h
  have hmapped := (userSpaceMapPage_draws (orStop_eq_ok.mp hmap)).trans htaken
  dsimp only at h
  split at h
  · obtain ⟨-, rfl⟩ := Prod.mk.inj (Except.ok.inj h)
    exact hmapped
  obtain ⟨u₂, hclear, h⟩ := bind_eq_ok.mp h
  obtain ⟨u₃, hcopy, h⟩ := bind_eq_ok.mp h
  obtain ⟨-, rfl⟩ := Prod.mk.inj (Except.ok.inj h)
  have hfilled := Image.copyFile_draws hcopy
  rw [Draws, blitHhdm_pool (orStop_eq_ok.mp hclear)] at hfilled
  exact hfilled.trans hmapped

/-- A loop takes pages if its passes do. -/
theorem forEach_draws {σ : Type} {body : ℕ → σ → Except Stop (ℤ × σ)} {c c' : σ} (phys : σ → Phys)
    (step : ∀ k c r c', body k c = .ok (r, c') → Draws (phys c) (phys c'))
    (h : forEach body n i c = .ok (r, c')) : Draws (phys c) (phys c') := by
  have hstep : ∀ k u r u', i ≤ k → k < i + n → Draws (phys c) (phys u) → body k u = .ok (r, u') →
      if r = 0 then Draws (phys c) (phys u') else Draws (phys c) (phys u') := by
    intro k u r u' _ _ hu hbody
    rw [ite_self]
    exact (step k u r u' hbody).trans hu
  rcases forEach_rule hstep suffix_rfl h with ⟨-, hok⟩ | ⟨-, hfail⟩
  · exact hok
  · exact hfail

theorem Image.loadHeader_draws (h : img.loadHeader root i s = .ok (r, s')) : Draws s s' := by
  obtain ⟨-, -, h⟩ := bind_eq_ok.mp h
  dsimp only at h
  split at h
  · obtain ⟨-, rfl⟩ := Prod.mk.inj (Except.ok.inj h)
    exact suffix_rfl
  obtain ⟨ok, -, h⟩ := bind_eq_ok.mp h
  split at h
  · obtain ⟨-, rfl⟩ := Prod.mk.inj (Except.ok.inj h)
    exact suffix_rfl
  obtain ⟨-, -, h⟩ := bind_eq_ok.mp h
  exact forEach_draws id (fun k c r c' hpage => Image.loadPage_draws hpage) h

theorem elfLoadUser_draws (h : elfLoadUser img space s = .ok (r, space', s')) : Draws s s' := by
  rw [elfLoadUser] at h
  split at h
  · obtain rfl := ok_state_eq h
    exact suffix_rfl
  obtain ⟨r₁, -, h⟩ := bind_eq_ok.mp h
  dsimp only at h
  split at h
  · obtain rfl := ok_state_eq h
    exact suffix_rfl
  obtain ⟨⟨r₂, u⟩, hheaders, h⟩ := bind_eq_ok.mp h
  have hdraws : Draws s u :=
    forEach_draws id (fun k c r c' hheader => Image.loadHeader_draws hheader) hheaders
  dsimp only at h
  split at h
  · obtain rfl := ok_state_eq h
    exact hdraws
  · obtain rfl := ok_state_eq h
    exact hdraws

theorem Phys.mapStackPage_draws {bottom k : ℕ} {c c' : UserSpace × Phys}
    (h : Phys.mapStackPage bottom k c = .ok (r, c')) : Draws c.2 c'.2 := by
  obtain ⟨⟨g, u⟩, halloc, h⟩ := bind_eq_ok.mp h
  have htaken := pmmAllocPage_draws (orStop_eq_ok.mp halloc)
  dsimp only at h
  split at h
  · obtain ⟨-, rfl⟩ := Prod.mk.inj (Except.ok.inj h)
    exact htaken
  obtain ⟨⟨r₁, u₁⟩, hmap, h⟩ := bind_eq_ok.mp h
  have hmapped := (userSpaceMapPage_draws (orStop_eq_ok.mp hmap)).trans htaken
  dsimp only at h
  split at h
  · obtain ⟨-, rfl⟩ := Prod.mk.inj (Except.ok.inj h)
    exact hmapped
  · obtain ⟨-, rfl⟩ := Prod.mk.inj (Except.ok.inj h)
    exact hmapped

theorem Phys.mapStack_draws (h : s.mapStack space n = .ok (r, space', s')) : Draws s s' := by
  rw [Phys.mapStack] at h
  split at h
  · obtain rfl := ok_state_eq h
    exact suffix_rfl
  obtain ⟨⟨r₁, c⟩, hloop, h⟩ := bind_eq_ok.mp h
  have hdraws : Draws s c.2 :=
    forEach_draws Prod.snd (fun k c r c' hpage => mapStackPage_draws hpage) hloop
  dsimp only at h
  split at h
  · obtain rfl := ok_state_eq h
    exact hdraws
  · obtain rfl := ok_state_eq h
    exact hdraws

theorem UserSpace.stackLoop_pool {offset : ℕ} {data : List UInt8}
    (h : space.stackLoop n offset data s = .ok (r, s')) : s'.pool = s.pool := by
  induction n generalizing offset data s with
  | zero => rw [← (Prod.mk.inj (Except.ok.inj h)).2]
  | succ n ih =>
    rw [UserSpace.stackLoop] at h
    split at h
    · rw [← (Prod.mk.inj (Except.ok.inj h)).2]
    split at h
    · rw [← (Prod.mk.inj (Except.ok.inj h)).2]
    obtain ⟨u, hblit, hrest⟩ := bind_eq_ok.mp h
    rw [ih hrest, blitHhdm_pool (orStop_eq_ok.mp hblit)]

theorem UserSpace.pushBytes_pool {data : List UInt8} {sp sp' : ℕ}
    (h : space.pushBytes data (sp, s) = .ok (r, sp', s')) : s'.pool = s.pool := by
  rw [UserSpace.pushBytes] at h
  dsimp only at h
  split at h
  · rw [ok_state_eq h]
  split at h
  · rw [ok_state_eq h]
  obtain ⟨⟨r₁, u⟩, hwrite, h⟩ := bind_eq_ok.mp h
  rw [← ok_state_eq h]
  rw [UserSpace.stackWrite] at hwrite
  split at hwrite
  · rw [← (Prod.mk.inj (Except.ok.inj hwrite)).2]
  split at hwrite
  · rw [← (Prod.mk.inj (Except.ok.inj hwrite)).2]
  · exact UserSpace.stackLoop_pool hwrite

theorem UserSpace.pushAll_pool {datas : List (List UInt8)} {sp sp' : ℕ} {sps : List ℕ}
    (h : space.pushAll datas (sp, s) = .ok (r, sps, sp', s')) : s'.pool = s.pool := by
  induction datas generalizing sp sp' s s' sps r with
  | nil => rw [← ok_state_eq' h]
  | cons data rest ih =>
    obtain ⟨⟨r₁, sp₁, u⟩, hpush, h⟩ := bind_eq_ok.mp h
    have hpushed := UserSpace.pushBytes_pool hpush
    dsimp only at h
    split at h
    · rw [← ok_state_eq' h]
      exact hpushed
    obtain ⟨⟨r₂, sps₂, sp₂, u₂⟩, hrest, h⟩ := bind_eq_ok.mp h
    rw [← ok_state_eq' h, ih hrest, hpushed]

/-- The arguments are put into pages that are there already. -/
theorem UserSpace.stackSetup_pool {sp sp' : ℕ}
    (h : space.stackSetup argv envp sp s = .ok (r, sp', s')) : s'.pool = s.pool := by
  rw [UserSpace.stackSetup] at h
  split at h
  · rw [ok_state_eq h]
  split at h
  · rw [ok_state_eq h]
  obtain ⟨⟨r₁, addrs₁, top₁, u₁⟩, h₁, h⟩ := bind_eq_ok.mp h
  have hargv := UserSpace.pushAll_pool h₁
  dsimp only at h
  split at h
  · rw [← ok_state_eq h, hargv]
  obtain ⟨⟨r₂, addrs₂, top₂, u₂⟩, h₂, h⟩ := bind_eq_ok.mp h
  have henvp := UserSpace.pushAll_pool h₂
  dsimp only at h
  split at h
  · rw [← ok_state_eq h, henvp, hargv]
  obtain ⟨⟨r₃, addrs₃, top₃, u₃⟩, h₃, h⟩ := bind_eq_ok.mp h
  have hwords := UserSpace.pushAll_pool h₃
  dsimp only at h
  split at h
  · rw [← ok_state_eq h, hwords, henvp, hargv]
  · rw [← ok_state_eq h, hwords, henvp, hargv]

/-! ### The memory manager -/

/-- What `pmm_alloc_page` returns, in turn. -/
def Pmm.supplies : Pmm → List ℕ → Bool
  | _, [] => true
  | p, f :: fs =>
    match p.allocPage with
    | none => false
    | some (g, p) => g == f && p.supplies fs

/-- The memory manager after `n` calls of `pmm_alloc_page`. -/
def Pmm.after (p : Pmm) : ℕ → Pmm
  | 0 => p
  | n + 1 =>
    match p.allocPage with
    | none => p
    | some (_, p) => p.after n

theorem Pmm.allocPage_used {p p' : Pmm} (h : p.allocPage = some (f, p')) :
    p'.usedPages = p.usedPages + 1 := by
  obtain ⟨⟨idx, region, page⟩, -, hnew⟩ := map_eq_some_iff.mp h
  rw [← (Prod.mk.inj hnew).2]

/-- Each page that is taken is one more that is in use. -/
theorem Pmm.after_used {p : Pmm} {fs : List ℕ} (h : p.supplies fs = true) (hn : n ≤ fs.length) :
    (p.after n).usedPages = p.usedPages + n := by
  induction n generalizing p fs with
  | zero => rfl
  | succ n ih =>
    cases fs with
    | nil => simp at hn
    | cons f fs =>
      rw [Pmm.supplies] at h
      rw [Pmm.after]
      cases halloc : p.allocPage with
      | none => simp [halloc] at h
      | some gp =>
        obtain ⟨g, p'⟩ := gp
        simp only [halloc, Bool.and_eq_true] at h
        have hrest := ih h.2 (Nat.le_of_succ_le_succ hn)
        dsimp only
        rw [hrest, Pmm.allocPage_used halloc]
        omega

/-- A call that comes to make an address space takes a page at least. -/
theorem userPrepareImage_takes {images : ℕ → Image} {kernel sp sp' : ℕ} {path : List UInt8}
    (h : userPrepareImage images kernel (some path) argv envp space sp s = .ok (r, space', sp', s')) :
    s'.pool.length < s.pool.length := by
  obtain ⟨⟨r₀, space₀, u₀⟩, hinit, h⟩ := bind_eq_ok.mp h
  have htaken := userSpaceInit_takes (orStop_eq_ok.mp hinit)
  have hmore : ∀ {u}, Draws u₀ u → u.pool.length < s.pool.length :=
    fun hdraws => lt_of_le_of_lt hdraws.length_le htaken
  dsimp only at h
  split at h
  · rw [← ok_state_eq' h]
    exact htaken
  split at h
  · rw [← ok_state_eq' h]
    exact htaken
  obtain ⟨⟨r₁, space₁, u₁⟩, hload, h⟩ := bind_eq_ok.mp h
  have hdraws₁ := elfLoadUser_draws hload
  dsimp only at h
  split at h
  · rw [← ok_state_eq' h]
    exact hmore hdraws₁
  obtain ⟨⟨r₂, space₂, u₂⟩, hstack, h⟩ := bind_eq_ok.mp h
  have hdraws₂ := (mapStack_draws hstack).trans hdraws₁
  dsimp only at h
  split at h
  · rw [← ok_state_eq' h]
    exact hmore hdraws₂
  obtain ⟨⟨r₃, sp₃, u₃⟩, hsetup, h⟩ := bind_eq_ok.mp h
  have hpool : u₃.pool.length < s.pool.length := by
    rw [UserSpace.stackSetup_pool hsetup]
    exact hmore hdraws₂
  dsimp only at h
  split at h
  · rw [← ok_state_eq' h]
    exact hpool
  · rw [← ok_state_eq' h]
    exact hpool

/-- **A failed call takes pages**, however it fails, unless it is given no path at all. -/
theorem prepare_image_leaks_iff {images : ℕ → Image} {kernel sp sp' : ℕ} {path : Option (List UInt8)}
    {p : Pmm} (hp : p.supplies s.pool = true)
    (h : userPrepareImage images kernel path argv envp space sp s = .ok (-1, space', sp', s')) :
    (p.after (s.pool.length - s'.pool.length)).usedPages = p.usedPages ↔ path = none := by
  rw [Pmm.after_used hp (Nat.sub_le _ _)]
  cases path with
  | none =>
    have hsame : s = s' := ok_state_eq' h
    simp [hsame]
  | some path =>
    have htaken := userPrepareImage_takes h
    simp only [reduceCtorEq, iff_false]
    omega

/-- The memory manager behind `emptyPhys`: eight pages after the two for the bitmaps and the tables of
the kernel. -/
def lowPmm : Pmm where
  mem := fun _ => 0
  regions := [⟨0, 0xA000, 0, 2, 10, 2⟩]
  managedPages := 8
  reservedPages := 2
  usedPages := 2
  cursorRegion := 0
  cursorPageIdx := 2

theorem lowPmm_supplies : lowPmm.supplies emptyPhys.pool = true := by decide +kernel

/-- An image with a segment below the addresses of the user is refused. -/
theorem prepare_image_leaks_low_segment :
    ∃ space' sp' s', userPrepareImage (fun _ => smallImage 64 0x1000 32 64) 0x1000
        (some (ascii "/bin/ls")) (fun _ => none) (fun _ => none) emptySpace 0 emptyPhys =
        .ok (-1, space', sp', s') ∧
      ((lowPmm.after (emptyPhys.pool.length - s'.pool.length)).usedPages = lowPmm.usedPages ↔
        some (ascii "/bin/ls") = none) := by
  have hrun : (userPrepareImage (fun _ => smallImage 64 0x1000 32 64) 0x1000
      (some (ascii "/bin/ls")) (fun _ => none) (fun _ => none) emptySpace 0 emptyPhys).map Prod.fst =
      .ok (-1) := by decide +kernel
  obtain ⟨⟨r, space', sp', s'⟩, hprepare, rfl⟩ := ok_of_map_eq_ok hrun
  exact ⟨space', sp', s', hprepare, prepare_image_leaks_iff lowPmm_supplies hprepare⟩

/-- **A program that is not there**: the call fails, and one more page is in use. -/
theorem prepare_image_leaks_unknown_path :
    ∃ space' sp' s', userPrepareImage (fun _ => smallImage 64 0x400010 32 64) 0x1000
        (some (ascii "/bin/none")) (fun _ => none) (fun _ => none) emptySpace 0 emptyPhys =
        .ok (-1, space', sp', s') ∧
      (lowPmm.after (emptyPhys.pool.length - s'.pool.length)).usedPages = lowPmm.usedPages + 1 := by
  have hrun : (userPrepareImage (fun _ => smallImage 64 0x400010 32 64) 0x1000
      (some (ascii "/bin/none")) (fun _ => none) (fun _ => none) emptySpace 0 emptyPhys).map
      (fun c => (c.1, c.2.2.2.pool.length)) = .ok (-1, 7) := by decide +kernel
  obtain ⟨⟨r, space', sp', s'⟩, hprepare, hleft⟩ := ok_of_map_eq_ok hrun
  obtain ⟨rfl, hleft⟩ := Prod.mk.inj hleft
  refine ⟨space', sp', s', hprepare, ?_⟩
  rw [Pmm.after_used lowPmm_supplies (Nat.sub_le _ _), hleft]
  rfl

end Neptune
