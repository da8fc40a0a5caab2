import Neptune.Lib.Peek
import Neptune.Mmu.Kernel

/-!
# The Multiboot information

`arch_mem_init` goes through the tags of the information block, and through the entries of every memory
map among them.  Both walks go on by sizes that stand in the data: a size of 0 keeps them where they are,
and nothing keeps an entry inside of the block.

Calls of `pmm_add_region` are seen as the list of the regions that are passed to it.

## Main definitions

* `entryLoop`, `tagLoop`, `archMemInit` — the walks.
* `MmapOk`, `TagList` — the tags of a block that can be walked.
* `available` — the entries of available memory.

## Main results

* `tagLoop_spec` — the walk over such tags.
* `tagList_of_tagLoop` — a walk that returns has gone over such tags.
* `boot_info_inside` — when the walks end inside of the block.
-/

namespace Neptune

open ByteMem List Nat Option
open Word64 (u64 alignUp alignDown)

/-- The region of an available entry that is handed out, if there is one.  The kernel is at
`[kernelStart, kernelEnd)`. -/
def clipEntry (kernelStart kernelEnd addr len : ℕ) : Option (ℕ × ℕ) :=
  let stop := u64 (addr + len)
  if stop ≤ kernelStart then none
  else
    let start := if addr < kernelEnd ∧ stop > kernelStart then kernelEnd else addr
    let start := alignUp start 4096
    let stop := alignDown stop 4096
    if stop > start then some (start, stop) else none

section

variable (t : Peek) (kernelStart kernelEnd : ℕ)

/-- The loop over the entries of a memory map, with `n` passes left; there is no result if they are too
few. -/
def entryLoop (entrySize mmapEnd : ℕ) : ℕ → ℕ → List (ℕ × ℕ) → Option (List (ℕ × ℕ))
  | n, entry, regions =>
    if u64 (entry + entrySize) ≤ mmapEnd then
      match n with
      | 0 => none
      | n + 1 => do
        let type ← t.word 4 (entry + 16)
        if type = 1 then
          let addr ← t.word 8 entry
          let len ← t.word 8 (entry + 8)
          entryLoop entrySize mmapEnd n (u64 (entry + entrySize))
            (regions ++ (clipEntry kernelStart kernelEnd addr len).toList)
        else entryLoop entrySize mmapEnd n (u64 (entry + entrySize)) regions
    else some regions

/-- The loop over the tags up to `infoEnd`, with `n` passes left, and `passes` for the entries of each. -/
def tagLoop (infoEnd passes : ℕ) : ℕ → ℕ → List (ℕ × ℕ) → Option (List (ℕ × ℕ))
  | n, tag, regions =>
    if tag < infoEnd then
      match n with
      | 0 => none
      | n + 1 => do
        let type ← t.word 4 tag
        if type = 0 then return regions
        let size ← t.word 4 (tag + 4)
        let regions ← if type = 6 then do
            let entrySize ← t.word 4 (tag + 8)
            entryLoop t kernelStart kernelEnd entrySize (u64 (tag + size)) passes (u64 (tag + 16)) regions
          else some regions
        tagLoop infoEnd passes n (alignUp (u64 (tag + size)) 8) regions
    else some regions

/-- `arch_mem_init`, with `n` passes for each loop.  It panics without an information block. -/
def archMemInit (infoPhys n : ℕ) : Option (List (ℕ × ℕ)) :=
  if infoPhys = 0 then none
  else do
    let info := physToVirt infoPhys
    let totalSize ← t.word 4 info
    tagLoop t kernelStart kernelEnd (u64 (info + alignUp totalSize 8)) n n (u64 (info + 8)) []

end

/-! ### Tags -/

/-- The fields of the tag at `tag`. -/
def tagType (m : ByteMem) (tag : ℕ) : ℕ := m.load 4 tag

def tagSize (m : ByteMem) (tag : ℕ) : ℕ := m.load 4 (tag + 4)

def entrySize (m : ByteMem) (tag : ℕ) : ℕ := m.load 4 (tag + 8)

/-- The memory map at `tag` is in memory below `infoEnd`: its entries have a size, no pointer wraps
around, and the fields of every entry are inside. -/
structure MmapOk (m : ByteMem) (infoEnd tag : ℕ) : Prop where
  header : tag + 12 ≤ infoEnd
  moves : entrySize m tag = 0 → tagSize m tag < 16
  room : ∀ k, k = 0 ∨ 16 + k * entrySize m tag ≤ tagSize m tag →
    tag + 16 + (k + 1) * entrySize m tag < 2 ^ 64
  entries : ∀ k, 16 + (k + 1) * entrySize m tag ≤ tagSize m tag →
    tag + 16 + k * entrySize m tag + 20 ≤ infoEnd

/-- The tags from an address on, up to one of type 0 or to `infoEnd`.  Each begins where the one before
it ends, at a multiple of 8. -/
inductive TagList (m : ByteMem) (infoEnd : ℕ) : ℕ → List ℕ → Prop
  /-- There is nothing left. -/
  | done {tag : ℕ} : infoEnd ≤ tag → TagList m infoEnd tag []
  /-- The last tag. -/
  | stop {tag : ℕ} : tag + 4 ≤ infoEnd → tagType m tag = 0 → TagList m infoEnd tag []
  /-- A tag and those that follow. -/
  | next {tag : ℕ} {tags : List ℕ} : tag + 8 ≤ infoEnd → tagType m tag ≠ 0 →
    (tagType m tag = 6 → MmapOk m infoEnd tag) → tag + tagSize m tag + 7 < 2 ^ 64 →
    TagList m infoEnd (alignUp (tag + tagSize m tag) 8) tags → TagList m infoEnd tag (tag :: tags)

/-- The entries of the memory map at `tag`. -/
def mmapEntries (m : ByteMem) (tag : ℕ) : List ℕ :=
  (List.range ((tagSize m tag - 16) / entrySize m tag)).map fun k => tag + 16 + k * entrySize m tag

/-- The addresses and lengths of the available memory among the entries. -/
def availableAt (m : ByteMem) (entries : List ℕ) : List (ℕ × ℕ) :=
  (entries.filter fun e => m.load 4 (e + 16) = 1).map fun e => (m.load 8 e, m.load 8 (e + 8))

/-- The available memory of all memory maps. -/
def available (m : ByteMem) (tags : List ℕ) : List (ℕ × ℕ) :=
  (tags.filter fun tag => tagType m tag = 6).flatMap fun tag => availableAt m (mmapEntries m tag)

/-! ### The walk over tags that are all right -/

section

variable {m : ByteMem} {ok : ℕ → Prop} [DecidablePred ok]
  {kernelStart kernelEnd infoEnd lo tag n passes j k : ℕ} {tags : List ℕ}
  {regions : List (ℕ × ℕ)}

/-- What is handed out of the available memory. -/
def clipAll (kernelStart kernelEnd : ℕ) (entries : List (ℕ × ℕ)) : List (ℕ × ℕ) :=
  entries.filterMap fun e => clipEntry kernelStart kernelEnd e.1 e.2

theorem clipAll_cons (e : ℕ × ℕ) (entries : List (ℕ × ℕ)) :
    clipAll kernelStart kernelEnd (e :: entries) =
      (clipEntry kernelStart kernelEnd e.1 e.2).toList ++ clipAll kernelStart kernelEnd entries := by
  rw [clipAll, filterMap_cons]
  cases clipEntry kernelStart kernelEnd e.1 e.2 <;> rfl

theorem clipAll_nil : clipAll kernelStart kernelEnd [] = [] := rfl

theorem clipAll_append (entries entries' : List (ℕ × ℕ)) :
    clipAll kernelStart kernelEnd (entries ++ entries') =
      clipAll kernelStart kernelEnd entries ++ clipAll kernelStart kernelEnd entries' :=
  filterMap_append

theorem available_nil : available m [] = [] := rfl

theorem available_cons : available m (tag :: tags) =
    (if tagType m tag = 6 then availableAt m (mmapEntries m tag) else []) ++ available m tags := by
  rw [available, filter_cons]
  split <;> simp_all [available]

theorem word_of_bounds {a w : ℕ} (hok : ∀ a, lo ≤ a → a < infoEnd → ok a) (hlo : lo ≤ a)
    (hend : a + w ≤ infoEnd) : (m.only ok).word w a = some (m.load w a) :=
  word_only fun i hi => hok _ (by omega) (by omega)

theorem entryLoop_done {t : Peek} {size mmapEnd entry : ℕ} (h : mmapEnd < u64 (entry + size)) :
    entryLoop t kernelStart kernelEnd size mmapEnd n entry regions = some regions := by
  cases n <;> rw [entryLoop, if_neg (by omega)]

theorem tagLoop_done {t : Peek} (h : infoEnd ≤ tag) :
    tagLoop t kernelStart kernelEnd infoEnd passes n tag regions = some regions := by
  cases n <;> rw [tagLoop, if_neg (by omega)]

/-- The entries of the map are those that fit in the tag. -/
theorem lt_entryCount (hpos : 0 < entrySize m tag) :
    k < (tagSize m tag - 16) / entrySize m tag ↔ 16 + (k + 1) * entrySize m tag ≤ tagSize m tag := by
  have hmul : 0 < (k + 1) * entrySize m tag := mul_pos k.succ_pos hpos
  rw [lt_iff_add_one_le, le_div_iff_mul_le hpos]
  omega

theorem MmapOk.pos_of_lt (h : j < (tagSize m tag - 16) / entrySize m tag) :
    0 < entrySize m tag := by
  rcases Nat.eq_zero_or_pos (entrySize m tag) with hzero | hpos
  · rw [hzero, Nat.div_zero] at h
    cases h
  · exact hpos

/-- The pointer behind an entry, and behind the last one. -/
theorem MmapOk.room_of_le (h : MmapOk m infoEnd tag)
    (hj : j ≤ (tagSize m tag - 16) / entrySize m tag) :
    tag + 16 + (j + 1) * entrySize m tag < 2 ^ 64 := by
  refine h.room j ?_
  cases j with
  | zero => exact .inl rfl
  | succ j => exact .inr ((lt_entryCount (pos_of_lt hj)).mp hj)

theorem MmapOk.next_entry (h : MmapOk m infoEnd tag)
    (hj : j ≤ (tagSize m tag - 16) / entrySize m tag) :
    u64 (tag + 16 + j * entrySize m tag + entrySize m tag) = tag + 16 + (j + 1) * entrySize m tag := by
  rw [add_assoc (tag + 16), ← add_one_mul, Word64.u64_of_lt (h.room_of_le hj)]

/-- The entry behind the last one does not fit in the tag. -/
theorem MmapOk.last (h : MmapOk m infoEnd tag) :
    tagSize m tag < 16 + ((tagSize m tag - 16) / entrySize m tag + 1) * entrySize m tag := by
  rcases Nat.eq_zero_or_pos (entrySize m tag) with hzero | hpos
  · have := h.moves hzero
    omega
  · exact Nat.lt_of_not_le fun hfits => Nat.lt_irrefl _ ((lt_entryCount hpos).mpr hfits)

/-- **The entries of a memory map** are all visited. -/
theorem entryLoop_spec (hok : ∀ a, lo ≤ a → a < infoEnd → ok a) (hlo : lo ≤ tag)
    (h : MmapOk m infoEnd tag) (hk : j + k = (tagSize m tag - 16) / entrySize m tag) (hn : k ≤ n) :
    entryLoop (m.only ok) kernelStart kernelEnd (entrySize m tag) (tag + tagSize m tag) n
        (tag + 16 + j * entrySize m tag) regions =
      some (regions ++ clipAll kernelStart kernelEnd (availableAt m ((List.range' j k).map fun i =>
        tag + 16 + i * entrySize m tag))) := by
  induction k generalizing j n regions with
  | zero =>
    have hlast := h.last
    rw [← hk, add_zero] at hlast
    rw [entryLoop_done (by rw [h.next_entry (by omega)]; omega), range'_zero]
    simp [availableAt, clipAll]
  | succ k ih =>
    obtain ⟨n, rfl⟩ : ∃ n', n = n' + 1 := exists_eq_add_one.mpr (by omega)
    have hlt : j < (tagSize m tag - 16) / entrySize m tag := by omega
    have hfits := (lt_entryCount (MmapOk.pos_of_lt hlt)).mp hlt
    have hinside := h.entries j hfits
    rw [entryLoop, h.next_entry hlt.le, if_pos (by omega)]
    rw [word_of_bounds hok (by omega) (by omega), word_of_bounds hok (by omega) (by omega),
      word_of_bounds hok (by omega) (by omega)]
    dsimp only [bind_eq_bind, bind_some]
    rw [range'_succ, map_cons, availableAt, filter_cons]
    split
    · next htype =>
      rw [ih (j := j + 1) (n := n) (by omega) (by omega), if_pos (by simpa using htype),
        append_assoc, map_cons, clipAll_cons]
      rfl
    · next htype =>
      rw [ih (j := j + 1) (n := n) (by omega) (by omega), if_neg (by simpa using htype)]
      rfl

theorem MmapOk.entryLoop (h : MmapOk m infoEnd tag) (hok : ∀ a, lo ≤ a → a < infoEnd → ok a)
    (hlo : lo ≤ tag) (hn : (tagSize m tag - 16) / entrySize m tag ≤ n) :
    entryLoop (m.only ok) kernelStart kernelEnd (m.load 4 (tag + 8)) (tag + tagSize m tag) n
        (u64 (tag + 16)) regions =
      some (regions ++ clipAll kernelStart kernelEnd (availableAt m (mmapEntries m tag))) := by
  have hroom := h.room 0 (.inl rfl)
  have hentry : u64 (tag + 16) = tag + 16 + 0 * entrySize m tag := by
    rw [zero_mul, add_zero, Word64.u64_of_lt (by omega)]
  rw [hentry, mmapEntries, range_eq_range']
  exact entryLoop_spec hok hlo h (zero_add _) hn

/-- **The tags of a block** are all visited, and the available memory is handed out but for the
kernel's. -/
theorem tagLoop_spec (hok : ∀ a, lo ≤ a → a < infoEnd → ok a) (hlo : lo ≤ tag)
    (h : TagList m infoEnd tag tags) : ∃ n₀, ∀ n ≥ n₀, ∀ passes ≥ n₀, ∀ regions,
      tagLoop (m.only ok) kernelStart kernelEnd infoEnd passes n tag regions =
        some (regions ++ clipAll kernelStart kernelEnd (available m tags)) := by
  induction h with
  | done hdone =>
    refine ⟨0, fun n _ passes _ regions => ?_⟩
    rw [tagLoop_done hdone, available_nil, clipAll_nil, append_nil]
  | @stop tag hinside htype =>
    refine ⟨1, fun n hn passes _ regions => ?_⟩
    obtain ⟨n, rfl⟩ : ∃ n', n = n' + 1 := exists_eq_add_one.mpr hn
    rw [tagLoop, if_pos (by omega), word_of_bounds hok hlo hinside]
    dsimp only [bind_eq_bind, bind_some]
    rw [if_pos (show m.load 4 tag = 0 from htype), available_nil, clipAll_nil, append_nil]
    rfl
  | @next tag tags hinside htype hmmap hroom hrest ih =>
    have hnext := Word64.alignUp_spec (x := tag + tagSize m tag) (show 8 = 2 ^ 3 from rfl)
      (by omega) (by decide)
    obtain ⟨n₁, hn₁⟩ := ih (by omega)
    refine ⟨max (n₁ + 1) ((tagSize m tag - 16) / entrySize m tag), fun n hn passes hp regions => ?_⟩
    obtain ⟨n, rfl⟩ : ∃ n', n = n' + 1 := exists_eq_add_one.mpr (by omega)
    have hu64 : u64 (tag + tagSize m tag) = tag + tagSize m tag := Word64.u64_of_lt (by omega)
    rw [tagLoop, if_pos (by omega), word_of_bounds hok hlo (by omega)]
    dsimp only [bind_eq_bind, bind_some]
    rw [if_neg (show m.load 4 tag ≠ 0 from htype), word_of_bounds hok (by omega) (by omega)]
    dsimp only [bind_some]
    rw [available_cons, clipAll_append, ← append_assoc,
      show u64 (tag + m.load 4 (tag + 4)) = tag + tagSize m tag from hu64]
    split
    · next hsix =>
      have hmap := hmmap hsix
      have hheader := hmap.header
      rw [word_of_bounds hok (by omega) (by omega)]
      dsimp only [bind_some]
      rw [hmap.entryLoop hok hlo (by omega), if_pos (show tagType m tag = 6 from hsix)]
      exact hn₁ n (by omega) passes (by omega) _
    · next hother =>
      rw [if_neg (show tagType m tag ≠ 6 from hother), clipAll_nil, append_nil]
      exact hn₁ n (by omega) passes (by omega) regions

/-! ### A walk that returns -/

variable {info size mmapEnd entry : ℕ} {result : List (ℕ × ℕ)}

/-- The first entry of a walk that returns has been read, and the walk goes on behind it. -/
theorem entryLoop_some
    (h : entryLoop (m.only ok) kernelStart kernelEnd size mmapEnd n entry regions = some result)
    (hle : u64 (entry + size) ≤ mmapEnd) :
    (∀ i < 4, ok (entry + 16 + i)) ∧ ∃ n' regions', n = n' + 1 ∧
      entryLoop (m.only ok) kernelStart kernelEnd size mmapEnd n' (u64 (entry + size)) regions' =
        some result := by
  cases n with
  | zero =>
    rw [entryLoop, if_pos hle] at h
    cases h
  | succ n =>
    rw [entryLoop, if_pos hle] at h
    obtain ⟨type, htype, h⟩ := bind_eq_some_iff.mp h
    refine ⟨(of_word_only htype).2, ?_⟩
    split at h
    · obtain ⟨addr, -, h⟩ := bind_eq_some_iff.mp h
      obtain ⟨len, -, h⟩ := bind_eq_some_iff.mp h
      exact ⟨n, _, rfl, h⟩
    · exact ⟨n, _, rfl, h⟩

/-- A walk with entries of size 0 does not end. -/
theorem entryLoop_stuck (hentry : entry < 2 ^ 64) (hle : entry ≤ mmapEnd) :
    entryLoop (m.only ok) kernelStart kernelEnd 0 mmapEnd n entry regions ≠ some result := by
  have hsame : u64 (entry + 0) = entry := Word64.u64_of_lt hentry
  induction n generalizing regions with
  | zero =>
    rw [entryLoop, hsame, if_pos hle]
    simp
  | succ n ih =>
    intro h
    obtain ⟨-, n', regions', hn, hrest⟩ := entryLoop_some h (hsame.symm ▸ hle)
    obtain rfl : n = n' := Nat.succ.inj hn
    rw [hsame] at hrest
    exact ih hrest

/-- A walk that has wrapped around reads outside. -/
theorem entryLoop_low (hout : ∀ a, ok a → info ≤ a) (hentry : entry + 16 < info)
    (hle : u64 (entry + size) ≤ mmapEnd) :
    entryLoop (m.only ok) kernelStart kernelEnd size mmapEnd n entry regions ≠ some result := by
  intro h
  have hread := hout _ ((entryLoop_some h hle).1 0 (by decide))
  omega

/-- The addresses that may be read: from `info` on, and up to `infoEnd` but for the first word. -/
structure Limits (ok : ℕ → Prop) (info infoEnd : ℕ) : Prop where
  low : ∀ a, ok a → info ≤ a
  high : ∀ a, info + 4 ≤ a → ok a → a < infoEnd
  far : 2 ^ 34 ≤ info

theorem tagSize_lt (m : ByteMem) (tag : ℕ) : tagSize m tag < 2 ^ 32 := load_lt m 4 (tag + 4)

theorem entrySize_lt (m : ByteMem) (tag : ℕ) : entrySize m tag < 2 ^ 32 :=
  load_lt m 4 (tag + 8)

/-- A walk over the entries comes to all of them. -/
theorem entryLoop_reaches (hlim : Limits ok info infoEnd) (htag : info ≤ tag)
    (hlt : tag < 2 ^ 64) (hend : tag + tagSize m tag < 2 ^ 64)
    (h : entryLoop (m.only ok) kernelStart kernelEnd (entrySize m tag) (tag + tagSize m tag) n
      (u64 (tag + 16)) regions = some result)
    (hk : k = 0 ∨ 16 + k * entrySize m tag ≤ tagSize m tag) :
    tag + 16 + k * entrySize m tag < 2 ^ 64 ∧ ∃ n' regions',
      entryLoop (m.only ok) kernelStart kernelEnd (entrySize m tag) (tag + tagSize m tag) n'
        (tag + 16 + k * entrySize m tag) regions' = some result := by
  have hfar := hlim.far
  have hsmall := entrySize_lt m tag
  induction k with
  | zero =>
    rw [zero_mul, add_zero]
    have hroom : tag + 16 < 2 ^ 64 := by
      by_contra hwrap
      have hlow : u64 (tag + 16) < 16 := by
        unfold u64
        omega
      refine entryLoop_low hlim.low (by omega) ?_ h
      unfold u64 at *
      omega
    rw [Word64.u64_of_lt hroom] at h
    exact ⟨hroom, n, regions, h⟩
  | succ k ih =>
    have hfits : 16 + (k + 1) * entrySize m tag ≤ tagSize m tag := by omega
    have hsucc : (k + 1) * entrySize m tag = k * entrySize m tag + entrySize m tag :=
      Nat.add_one_mul k _
    obtain ⟨-, n', regions', hreach⟩ := ih (.inr (by omega))
    have hu64 : u64 (tag + 16 + k * entrySize m tag + entrySize m tag) =
        tag + 16 + (k + 1) * entrySize m tag := by
      rw [Word64.u64_of_lt (by omega)]
      omega
    obtain ⟨-, n'', regions'', -, hnext⟩ := entryLoop_some hreach (by omega)
    rw [hu64] at hnext
    exact ⟨by omega, n'', regions'', hnext⟩

/-- **A walk over the entries that returns** is one over a memory map inside of the block. -/
theorem mmapOk_of_entryLoop (hlim : Limits ok info infoEnd) (htag : info ≤ tag)
    (hlt : tag < 2 ^ 64) (hend : tag + tagSize m tag < 2 ^ 64) (hheader : tag + 12 ≤ infoEnd)
    (h : entryLoop (m.only ok) kernelStart kernelEnd (entrySize m tag) (tag + tagSize m tag) n
      (u64 (tag + 16)) regions = some result) : MmapOk m infoEnd tag := by
  have hfar := hlim.far
  have hsmall := entrySize_lt m tag
  have hsucc : ∀ k, (k + 1) * entrySize m tag = k * entrySize m tag + entrySize m tag := fun k =>
    Nat.add_one_mul k _
  refine ⟨hheader, fun hzero => ?_, fun k hk => ?_, fun k hk => ?_⟩
  · by_contra hfits
    obtain ⟨hroom, n', regions', hreach⟩ := entryLoop_reaches hlim htag hlt hend h (.inl rfl)
    rw [hzero] at hreach hroom
    exact entryLoop_stuck hroom (by omega) hreach
  · obtain ⟨hroom, n', regions', hreach⟩ := entryLoop_reaches hlim htag hlt hend h hk
    by_contra hwrap
    -- the pointer has wrapped around to the low addresses, where nothing may be read
    have hlow : u64 (tag + 16 + k * entrySize m tag + entrySize m tag) < 2 ^ 32 := by
      unfold u64
      rw [hsucc] at hwrap
      omega
    obtain ⟨-, n'', regions'', -, hnext⟩ := entryLoop_some hreach (by omega)
    refine entryLoop_low hlim.low (by omega) ?_ hnext
    rw [Word64.u64_of_lt (by omega)]
    omega
  · have hk' := hsucc k
    obtain ⟨hroom, n', regions', hreach⟩ := entryLoop_reaches hlim htag hlt hend h
      (k := k) (.inr (by omega))
    have hu64 : u64 (tag + 16 + k * entrySize m tag + entrySize m tag) =
        tag + 16 + k * entrySize m tag + entrySize m tag := Word64.u64_of_lt (by omega)
    obtain ⟨hread, -⟩ := entryLoop_some hreach (by omega)
    have hlast := hlim.high _ (by omega) (hread 3 (by decide))
    omega

/-- The first tag of a walk that returns has been read. -/
theorem tagLoop_some
    (h : tagLoop (m.only ok) kernelStart kernelEnd infoEnd passes n tag regions = some result)
    (hlt : tag < infoEnd) :
    (∀ i < 4, ok (tag + i)) ∧ (tagType m tag = 0 ∨
      tagType m tag ≠ 0 ∧ (∀ i < 4, ok (tag + 4 + i)) ∧ ∃ n' regions', n = n' + 1 ∧
        (tagType m tag = 6 → (∀ i < 4, ok (tag + 8 + i)) ∧
          entryLoop (m.only ok) kernelStart kernelEnd (entrySize m tag) (u64 (tag + tagSize m tag))
            passes (u64 (tag + 16)) regions = some regions') ∧
        tagLoop (m.only ok) kernelStart kernelEnd infoEnd passes n'
          (alignUp (u64 (tag + tagSize m tag)) 8) regions' = some result) := by
  cases n with
  | zero =>
    rw [tagLoop, if_pos hlt] at h
    cases h
  | succ n =>
    rw [tagLoop, if_pos hlt] at h
    obtain ⟨type, htype, h⟩ := bind_eq_some_iff.mp h
    obtain ⟨rfl, hread⟩ := of_word_only htype
    refine ⟨hread, ?_⟩
    split at h
    · next hzero => exact .inl hzero
    next hne =>
    obtain ⟨size, hsize, h⟩ := bind_eq_some_iff.mp h
    obtain ⟨rfl, hread'⟩ := of_word_only hsize
    refine .inr ⟨hne, hread', ?_⟩
    split at h
    · obtain ⟨width, hwidth, h⟩ := bind_eq_some_iff.mp h
      obtain ⟨rfl, hread''⟩ := of_word_only hwidth
      obtain ⟨regions', hentries, h⟩ := bind_eq_some_iff.mp h
      exact ⟨n, regions', rfl, fun _ => ⟨hread'', hentries⟩, h⟩
    · next hother => exact ⟨n, regions, rfl, fun hsix => absurd hsix hother, h⟩

/-- A walk over the tags that has wrapped around reads outside. -/
theorem tagLoop_low (hlim : Limits ok info infoEnd) (hlow : tag < info) (hend : info ≤ infoEnd) :
    tagLoop (m.only ok) kernelStart kernelEnd infoEnd passes n tag regions ≠ some result := by
  intro h
  have hread := hlim.low _ ((tagLoop_some h (by omega)).1 0 (by decide))
  omega

/-- A walk does not end at a tag that leads to itself. -/
theorem tagLoop_stuck (hlt : tag < infoEnd) (htype : tagType m tag ≠ 0)
    (hsame : alignUp (u64 (tag + tagSize m tag)) 8 = tag) :
    tagLoop (m.only ok) kernelStart kernelEnd infoEnd passes n tag regions ≠ some result := by
  induction n generalizing regions with
  | zero =>
    rw [tagLoop, if_pos hlt]
    simp
  | succ n ih =>
    intro h
    obtain ⟨-, hzero | ⟨-, -, n', regions', hn, -, hrest⟩⟩ := tagLoop_some h hlt
    · exact htype hzero
    · obtain rfl : n = n' := Nat.succ.inj hn
      rw [hsame] at hrest
      exact ih hrest

/-- **A walk over the tags that returns** is one over tags inside of the block. -/
theorem tagList_of_tagLoop (hlim : Limits ok info infoEnd) (hend : infoEnd < 2 ^ 64)
    (htag : info + 8 ≤ tag)
    (h : tagLoop (m.only ok) kernelStart kernelEnd infoEnd passes n tag regions = some result) :
    ∃ tags, TagList m infoEnd tag tags := by
  induction n using Nat.strong_induction_on generalizing tag regions with
  | _ n ih =>
  by_cases hlt : tag < infoEnd
  swap
  · exact ⟨[], .done (Nat.le_of_not_lt hlt)⟩
  have hsmall := tagSize_lt m tag
  have hfar := hlim.far
  obtain ⟨hread, hzero | ⟨hne, hread', n', regions', rfl, hmmap, hrest⟩⟩ := tagLoop_some h hlt
  · have hinside := hlim.high _ (by omega) (hread 3 (by decide))
    exact ⟨[], .stop (by omega) hzero⟩
  have hinside := hlim.high _ (by omega) (hread' 3 (by decide))
  have hroom : tag + tagSize m tag + 7 < 2 ^ 64 := by
    by_contra hwrap
    -- the next tag would be at a low address
    refine tagLoop_low hlim ?_ (by omega) hrest
    have hle : alignUp (u64 (tag + tagSize m tag)) 8 ≤ u64 (u64 (tag + tagSize m tag) + 8 - 1) :=
      and_le_left
    unfold u64 at *
    omega
  have hu64 : u64 (tag + tagSize m tag) = tag + tagSize m tag := Word64.u64_of_lt (by omega)
  rw [hu64] at hrest hmmap
  have hnext := Word64.alignUp_spec (x := tag + tagSize m tag) (show 8 = 2 ^ 3 from rfl)
    (by omega) (by decide)
  obtain ⟨tags, htags⟩ := ih n' (by omega) (by omega) hrest
  refine ⟨tag :: tags, .next (by omega) hne (fun hsix => ?_) hroom htags⟩
  obtain ⟨hread'', hentries⟩ := hmmap hsix
  have hheader := hlim.high _ (by omega) (hread'' 3 (by decide))
  exact mmapOk_of_entryLoop hlim (by omega) (by omega) (by omega) (by omega) hentries

end

/-! ### The block -/

/-- The end of the information block at `info`. -/
def blockEnd (m : ByteMem) (info : ℕ) : ℕ := u64 (info + alignUp (m.load 4 info) 8)

/-- The bytes of the block, and its first word. -/
abbrev BlockByte (m : ByteMem) (info a : ℕ) : Prop :=
  info ≤ a ∧ (a < info + 4 ∨ a < info + alignUp (m.load 4 info) 8)

section

variable {m : ByteMem} {kernelStart kernelEnd infoPhys n : ℕ} {tags : List ℕ}

theorem physToVirt_eq (hlow : infoPhys + 8 < 2 ^ 31) :
    physToVirt infoPhys = infoPhys + higherHalfBase ∧ physToVirt infoPhys + 8 < 2 ^ 64 := by
  have heq : physToVirt infoPhys = infoPhys + higherHalfBase := by
    refine Word64.u64_of_lt ?_
    unfold higherHalfBase
    omega
  refine ⟨heq, ?_⟩
  rw [heq]
  unfold higherHalfBase
  omega

/-- `arch_mem_init` behind its first read. -/
theorem archMemInit_eq (hpos : 0 < infoPhys) (hlow : infoPhys + 8 < 2 ^ 31) :
    archMemInit (m.only (BlockByte m (physToVirt infoPhys))) kernelStart kernelEnd infoPhys n =
      tagLoop (m.only (BlockByte m (physToVirt infoPhys))) kernelStart kernelEnd
        (blockEnd m (physToVirt infoPhys)) n n (physToVirt infoPhys + 8) [] := by
  have hword : (m.only (BlockByte m (physToVirt infoPhys))).word 4 (physToVirt infoPhys) =
      some (m.load 4 (physToVirt infoPhys)) :=
    word_only fun i hi => ⟨by omega, .inl (by omega)⟩
  rw [archMemInit, if_neg (by omega)]
  dsimp only
  rw [hword, Word64.u64_of_lt (physToVirt_eq hlow).2]
  rfl

/-- The tags of the block are visited. -/
theorem archMemInit_spec (kernelStart kernelEnd : ℕ) (hpos : 0 < infoPhys) (hlow : infoPhys + 8 < 2 ^ 31)
    (h : TagList m (blockEnd m (physToVirt infoPhys)) (physToVirt infoPhys + 8) tags) :
    ∃ n₀, ∀ n ≥ n₀,
      archMemInit (m.only (BlockByte m (physToVirt infoPhys))) kernelStart kernelEnd infoPhys n =
        some (clipAll kernelStart kernelEnd (available m tags)) := by
  have hinside : ∀ a, physToVirt infoPhys ≤ a → a < blockEnd m (physToVirt infoPhys) →
      BlockByte m (physToVirt infoPhys) a := fun a h₁ h₂ =>
    ⟨h₁, .inr (lt_of_lt_of_le h₂ (mod_le _ _))⟩
  obtain ⟨n₀, hn₀⟩ := tagLoop_spec hinside (le_add_right _ 8) h
  exact ⟨n₀, fun n hn => by rw [archMemInit_eq hpos hlow, hn₀ n hn n hn, nil_append]⟩

/-- **When the walks end inside of the block**: it is made of tags that have a size, with the entries of
their memory maps inside. -/
theorem boot_info_inside (m : ByteMem) (kernelStart kernelEnd : ℕ) (hpos : 0 < infoPhys)
    (hlow : infoPhys + 8 < 2 ^ 31) :
    (∃ n regions, archMemInit (m.only (BlockByte m (physToVirt infoPhys))) kernelStart kernelEnd
      infoPhys n = some regions) ↔
    ∃ tags, TagList m (blockEnd m (physToVirt infoPhys)) (physToVirt infoPhys + 8) tags := by
  obtain ⟨heq, hroom⟩ := physToVirt_eq hlow
  constructor
  · rintro ⟨n, regions, h⟩
    rw [archMemInit_eq hpos hlow] at h
    have hsize := Word64.alignUp_spec (x := m.load 4 (physToVirt infoPhys))
      (show 8 = 2 ^ 3 from rfl) (by have := m.load_lt 4 (physToVirt infoPhys); omega) (by decide)
    by_cases hwrap : physToVirt infoPhys + alignUp (m.load 4 (physToVirt infoPhys)) 8 < 2 ^ 64
    · have hend : blockEnd m (physToVirt infoPhys) =
          physToVirt infoPhys + alignUp (m.load 4 (physToVirt infoPhys)) 8 := Word64.u64_of_lt hwrap
      refine tagList_of_tagLoop ⟨fun a ha => ha.1, fun a hle ha => ?_, ?_⟩ (by omega) le_rfl h
      · rw [hend]
        rcases ha.2 with hfirst | hin
        · omega
        · exact hin
      · rw [heq]
        unfold higherHalfBase
        omega
    · -- the end of the block has wrapped around, and there is nothing to visit
      refine ⟨[], .done ?_⟩
      have hlt := m.load_lt 4 (physToVirt infoPhys)
      unfold blockEnd u64
      omega
  · rintro ⟨tags, htags⟩
    obtain ⟨n, hn⟩ := archMemInit_spec kernelStart kernelEnd hpos hlow htags
    exact ⟨n, _, hn n le_rfl⟩

/-- An information block at 0x1000 with the words `words` of 4 bytes. -/
def infoBlock (words : List ℕ) : ByteMem :=
  ByteMem.blit (fun _ => 0) (physToVirt 0x1000) (words.flatMap (ByteMem.leBytes 4))

/-- A tag of size 0 is visited again and again. -/
theorem boot_info_zero_size : ¬∃ n regions, archMemInit
    ((infoBlock [16, 0, 1, 0]).only (BlockByte (infoBlock [16, 0, 1, 0]) (physToVirt 0x1000)))
      0x100000 0x200000 0x1000 n = some regions := by
  rintro ⟨n, regions, h⟩
  rw [archMemInit_eq (by decide) (by decide)] at h
  exact tagLoop_stuck (by decide +kernel) (by decide +kernel) (by decide +kernel) h

/-- A block with a memory map of three entries, of which the second is not available. -/
def mmapBlock : ByteMem :=
  infoBlock [104, 0, 6, 88, 24, 0, 0x100000, 0, 0x300000, 0, 1, 0, 0x400000, 0, 0x100000, 0, 2, 0,
    0x500000, 0, 0x200000, 0, 1, 0, 0, 8]

theorem tagList_mmapBlock : TagList mmapBlock (blockEnd mmapBlock (physToVirt 0x1000))
    (physToVirt 0x1000 + 8) [physToVirt 0x1000 + 8] := by
  have hsize : tagSize mmapBlock (physToVirt 0x1000 + 8) = 88 := by decide +kernel
  have hwidth : entrySize mmapBlock (physToVirt 0x1000 + 8) = 24 := by decide +kernel
  have hinfo : physToVirt 0x1000 = 0xFFFFFFFF80001000 := by decide
  have hend : blockEnd mmapBlock (physToVirt 0x1000) = 0xFFFFFFFF80001068 := by decide +kernel
  refine .next (by decide +kernel) (by decide +kernel) (fun _ => ⟨by decide +kernel, ?_, ?_, ?_⟩)
    (by decide +kernel) (.stop (by decide +kernel) (by decide +kernel))
  · rw [hwidth]
    simp
  · intro k hk
    rw [hsize, hwidth] at hk
    rw [hwidth, hinfo]
    omega
  · intro k hk
    rw [hsize, hwidth] at hk
    rw [hwidth, hend, hinfo]
    omega

theorem boot_info_inside_mmapBlock : ∃ n regions, archMemInit
    (mmapBlock.only (BlockByte mmapBlock (physToVirt 0x1000))) 0x100000 0x200000 0x1000 n =
      some regions :=
  (boot_info_inside mmapBlock 0x100000 0x200000 (by decide) (by decide)).mpr ⟨_, tagList_mmapBlock⟩

end

end Neptune
