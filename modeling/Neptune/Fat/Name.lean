import Neptune.Syscall.Normalize

/-!
# Short names

A directory entry holds a name of eight bytes and an extension of three, both filled up
with spaces.  `build_short_name` makes such a name from a component of a path, and
`format_name` makes a string of it again, which stops at the first space of each part.
A component with a space before another character does not survive the trip.

## Main definitions

* `buildShortName`, `formatName` — the functions.
* `Tidy` — no space stands before another character.

## Main results

* `buildShortName_eq_some` — what `build_short_name` accepts and returns.
* `short_name_round_trip` — the names that survive.
-/

namespace Neptune

open List Option

def space : UInt8 := 0x20

/-- `upper_char`. -/
def upperChar (c : UInt8) : UInt8 := if 0x61 ≤ c ∧ c ≤ 0x7A then c - 0x20 else c

/-- The loop of `build_short_name`, with the name, the extension and `in_ext` so far. -/
def shortNameLoop : List UInt8 → List UInt8 → List UInt8 → Bool →
    Option (List UInt8 × List UInt8)
  | [], name, ext, _ => some (name, ext)
  | c :: path, name, ext, inExt =>
    if c = slash then some (name, ext)
    else if c = dot then
      if inExt then none else shortNameLoop path name ext true
    else if inExt = false then
      if 8 ≤ name.length then none else shortNameLoop path (name ++ [upperChar c]) ext inExt
    else
      if 3 ≤ ext.length then none else shortNameLoop path name (ext ++ [upperChar c]) inExt

/-- Filled up with spaces. -/
def padTo (n : ℕ) (l : List UInt8) : List UInt8 := l ++ List.replicate (n - l.length) space

/-- `build_short_name`; `none` is a return of -1. -/
def buildShortName (path : List UInt8) : Option (List UInt8) :=
  if path = [] then none
  else (shortNameLoop path [] [] false).bind fun parts =>
    if 0 < parts.1.length then some (padTo 8 parts.1 ++ padTo 3 parts.2) else none

/-- `format_name`, the bytes before the NUL; a buffer of `outLen` bytes has room for one byte
less. -/
def formatName (ent : List UInt8) (outLen : ℕ) : List UInt8 :=
  let name := ((ent.take 8).takeWhile (· ≠ space)).take (outLen - 1)
  let ext := (ent.drop 8).take 3
  if (∃ c ∈ ext, c ≠ space) ∧ name.length + 1 < outLen then
    name ++ dot :: (ext.takeWhile (· ≠ space)).take (outLen - 2 - name.length)
  else name

/-- No space stands before another character. -/
def Tidy (l : List UInt8) : Prop := ∀ c ∈ l.dropWhile (· ≠ space), c = space

variable {s l name ext : List UInt8} {n : ℕ} {c : UInt8}

/-! ### The characters -/

/-- Nothing below or above the letters is the upper case of another character. -/
theorem upperChar_eq_iff {d : UInt8} (hd : d.toNat ≤ 64 ∨ 123 ≤ d.toNat) :
    upperChar c = d ↔ c = d := by
  rw [upperChar]
  split
  · next hc =>
    obtain ⟨hlo, hhi⟩ := hc
    have hlo' : 97 ≤ c.toNat := UInt8.le_iff_toNat_le.mp hlo
    have hhi' : c.toNat ≤ 122 := UInt8.le_iff_toNat_le.mp hhi
    have hsub : (c - 0x20).toNat = c.toNat - 32 := UInt8.toNat_sub_of_le _ _ (by
      rw [UInt8.le_iff_toNat_le]
      exact Nat.le_trans (by decide) hlo')
    constructor
    · intro he
      rw [← he, hsub] at hd
      omega
    · intro he
      rw [← he] at hd
      omega
  · rfl

theorem upperChar_upperChar (c : UInt8) : upperChar (upperChar c) = upperChar c := by
  by_cases hc : 0x61 ≤ c ∧ c ≤ 0x7A
  · have hup : upperChar c = c - 0x20 := if_pos hc
    rw [hup, upperChar, if_neg]
    rintro ⟨hlo, -⟩
    have hlo' : 97 ≤ c.toNat := UInt8.le_iff_toNat_le.mp hc.1
    have hhi' : c.toNat ≤ 122 := UInt8.le_iff_toNat_le.mp hc.2
    have hsub : (c - 0x20).toNat = c.toNat - 32 := UInt8.toNat_sub_of_le _ _ (by
      rw [UInt8.le_iff_toNat_le]
      exact Nat.le_trans (by decide) hlo')
    have hlo'' : 97 ≤ (c - 0x20).toNat := UInt8.le_iff_toNat_le.mp hlo
    omega
  · have hup : upperChar c = c := if_neg hc
    rw [hup, hup]

/-! ### `build_short_name` -/

/-- Behind the dot. -/
theorem shortNameLoop_ext (hs : slash ∉ s) (hext : ext.length ≤ 3) :
    shortNameLoop s name ext true =
      if dot ∉ s ∧ ext.length + s.length ≤ 3 then some (name, ext ++ s.map upperChar) else none := by
  induction s generalizing ext with
  | nil => simp [shortNameLoop, hext]
  | cons c s ih =>
    obtain ⟨hc, hs⟩ := not_or.mp (mem_cons.not.mp hs)
    rw [shortNameLoop, if_neg (Ne.symm hc)]
    by_cases hdot : c = dot
    · subst hdot
      simp
    · simp only [if_neg hdot, Bool.true_eq_false, if_false]
      by_cases hfull : 3 ≤ ext.length
      · rw [if_pos hfull, if_neg (by simp; omega)]
      · rw [if_neg hfull, ih hs (by simp; omega)]
        simp only [mem_cons, Ne.symm hdot, false_or, length_append, length_cons,
          length_nil, map_cons, append_assoc, singleton_append]
        congr 2
        simp only [eq_iff_iff]
        omega

/-- Before the dot. -/
theorem shortNameLoop_name (hs : slash ∉ s) (hname : name.length ≤ 8) :
    shortNameLoop s name [] false =
      if name.length + (s.takeWhile (· ≠ dot)).length ≤ 8 ∧ dot ∉ (s.dropWhile (· ≠ dot)).tail ∧
          ((s.dropWhile (· ≠ dot)).tail).length ≤ 3 then
        some (name ++ (s.takeWhile (· ≠ dot)).map upperChar,
          ((s.dropWhile (· ≠ dot)).tail).map upperChar)
      else none := by
  induction s generalizing name with
  | nil => simp [shortNameLoop, hname]
  | cons c s ih =>
    obtain ⟨hc, hrest⟩ := not_or.mp (mem_cons.not.mp hs)
    rw [shortNameLoop, if_neg (Ne.symm hc)]
    by_cases hdot : c = dot
    · subst hdot
      rw [if_pos rfl, if_neg Bool.false_ne_true, shortNameLoop_ext hrest (by simp)]
      simp [hname]
    · simp only [if_neg hdot, if_true]
      have htake : (c :: s).takeWhile (· ≠ dot) = c :: s.takeWhile (· ≠ dot) := by simp [hdot]
      have hdrop : (c :: s).dropWhile (· ≠ dot) = s.dropWhile (· ≠ dot) := by simp [hdot]
      rw [htake, hdrop]
      by_cases hfull : 8 ≤ name.length
      · rw [if_pos hfull, if_neg (by simp; omega)]
      · rw [if_neg hfull, ih hrest (by simp; omega)]
        simp only [length_append, length_cons, length_nil, map_cons, append_assoc, singleton_append]
        congr 2
        simp only [eq_iff_iff]
        omega

/-- What stands before the first dot of a component. -/
def namePart (s : List UInt8) : List UInt8 := s.takeWhile (· ≠ dot)

/-- What stands behind the first dot of a component. -/
def extPart (s : List UInt8) : List UInt8 := (s.dropWhile (· ≠ dot)).tail

/-- A component that `build_short_name` accepts. -/
structure Short (s : List UInt8) : Prop where
  name_ne_nil : namePart s ≠ []
  name_le : (namePart s).length ≤ 8
  ext_le : (extPart s).length ≤ 3
  dot : dot ∉ extPart s

/-- **What `build_short_name` accepts and returns.** -/
theorem buildShortName_eq_some (hs : slash ∉ s) {e : List UInt8} :
    buildShortName s = some e ↔
      Short s ∧ e = padTo 8 ((namePart s).map upperChar) ++ padTo 3 ((extPart s).map upperChar) := by
  rw [buildShortName]
  by_cases hnil : s = []
  · subst hnil
    simp only [if_true]
    exact iff_of_false nofun fun h => h.1.name_ne_nil rfl
  · rw [if_neg hnil, shortNameLoop_name hs (by simp)]
    split
    · next hfit =>
      obtain ⟨hname, hdot, hext⟩ := hfit
      simp only [bind_some, nil_append, length_map]
      split
      · next hpos =>
        have hshort : Short s := ⟨length_pos_iff.mp hpos,
          (Nat.zero_add _).symm.trans_le hname, hext, hdot⟩
        constructor
        · intro he
          exact ⟨hshort, (some.inj he).symm⟩
        · rintro ⟨-, rfl⟩
          rfl
      · next hpos => exact iff_of_false nofun fun h => hpos (length_pos_iff.mpr h.1.name_ne_nil)
    · next hfit =>
      exact iff_of_false nofun fun h =>
        hfit ⟨(Nat.zero_add _).trans_le h.1.name_le, h.1.dot, h.1.ext_le⟩

/-- The parts of a short name fit and have no dots. -/
structure ShortParts (p : List UInt8 × List UInt8) : Prop where
  name_le : p.1.length ≤ 8
  ext_le : p.2.length ≤ 3
  name_dot : dot ∉ p.1
  ext_dot : dot ∉ p.2

theorem shortNameLoop_parts {inExt : Bool} {p : List UInt8 × List UInt8}
    (h : shortNameLoop s name ext inExt = some p) (hparts : ShortParts (name, ext)) : ShortParts p := by
  have hupper : ∀ {c : UInt8} {l : List UInt8}, c ≠ dot → dot ∉ l → dot ∉ l ++ [upperChar c] := by
    intro c l hc hl
    rw [mem_append, mem_singleton, not_or]
    exact ⟨hl, fun he => hc ((upperChar_eq_iff (by decide)).mp he.symm)⟩
  induction s generalizing name ext inExt with
  | nil =>
    obtain rfl := some.inj h
    exact hparts
  | cons c s ih =>
    rw [shortNameLoop] at h
    split at h
    · obtain rfl := some.inj h
      exact hparts
    · split at h
      · split at h
        · cases h
        · exact ih h hparts
      · next hdot =>
        split at h
        · split at h
          · cases h
          · next hroom =>
            exact ih h ⟨by simp; omega, hparts.ext_le, hupper hdot hparts.name_dot, hparts.ext_dot⟩
        · split at h
          · cases h
          · next hroom =>
            exact ih h ⟨hparts.name_le, by simp; omega, hparts.name_dot, hupper hdot hparts.ext_dot⟩

/-! ### Spaces at the end -/

theorem length_padTo (h : l.length ≤ n) : (padTo n l).length = n := by
  rw [padTo, length_append, length_replicate]
  omega

/-- `build_short_name` fills 11 bytes, none of them a dot. -/
theorem buildShortName_spec {s e : List UInt8} (h : buildShortName s = some e) :
    e.length = 11 ∧ dot ∉ e := by
  rw [buildShortName] at h
  split at h
  · cases h
  · obtain ⟨p, hp, he⟩ := bind_eq_some_iff.mp h
    split at he
    · obtain rfl := some.inj he
      have hparts := shortNameLoop_parts hp ⟨by simp, by simp, by simp, by simp⟩
      have hspace : dot ≠ space := by decide
      constructor
      · rw [length_append, length_padTo hparts.name_le, length_padTo hparts.ext_le]
      · simp [padTo, hparts.name_dot, hparts.ext_dot, hspace]
    · cases he

/-- Up to the first space the padding does not matter. -/
theorem takeWhile_padTo (n : ℕ) (l : List UInt8) :
    (padTo n l).takeWhile (· ≠ space) = l.takeWhile (· ≠ space) := by
  have happ : ∀ k, (l ++ List.replicate k space).takeWhile (· ≠ space) = l.takeWhile (· ≠ space) := by
    intro k
    induction l with
    | nil => cases k <;> simp [replicate_succ]
    | cons c l ih =>
      by_cases hc : c = space
      · simp [hc]
      · simpa [hc] using ih
  exact happ _

/-- A part is its characters up to the first space, filled up, exactly when it is tidy. -/
theorem padTo_takeWhile_eq_iff (h : l.length ≤ n) :
    padTo n (l.takeWhile (· ≠ space)) = padTo n l ↔ Tidy l := by
  have hsplit : l.takeWhile (· ≠ space) ++ l.dropWhile (· ≠ space) = l := takeWhile_append_dropWhile
  have hlen := congrArg List.length hsplit
  rw [length_append] at hlen
  -- behind the first space both sides have the same length
  have hpad : padTo n l = l.takeWhile (· ≠ space) ++
      (l.dropWhile (· ≠ space) ++ List.replicate (n - l.length) space) := by
    rw [← append_assoc, hsplit, padTo]
  have hfill : List.replicate (n - (l.takeWhile (· ≠ space)).length) space =
      List.replicate (l.dropWhile (· ≠ space)).length space ++ List.replicate (n - l.length) space := by
    rw [replicate_append_replicate]
    congr 1
    omega
  rw [hpad, padTo, append_cancel_left_eq, hfill, append_cancel_right_eq, eq_comm, eq_replicate_iff]
  exact and_iff_right rfl

theorem upperChar_ne_space (c : UInt8) : decide (upperChar c ≠ space) = decide (c ≠ space) :=
  decide_eq_decide.mpr (not_congr (upperChar_eq_iff (by decide)))

theorem tidy_map_upperChar : Tidy (l.map upperChar) ↔ Tidy l := by
  have hcomp : ((fun c => decide (c ≠ space)) ∘ upperChar) = fun c => decide (c ≠ space) :=
    funext upperChar_ne_space
  rw [Tidy, List.dropWhile_map, hcomp, List.forall_mem_map]
  exact forall₂_congr fun c _ => upperChar_eq_iff (by decide)

theorem map_upperChar_map (l : List UInt8) : (l.map upperChar).map upperChar = l.map upperChar := by
  rw [List.map_map]
  exact List.map_congr_left fun c _ => upperChar_upperChar c

/-! ### `format_name` -/

/-- The string made of a name and an extension of allowed lengths. -/
theorem formatName_padTo (hname : name.length ≤ 8) (hext : ext.length ≤ 3) :
    formatName (padTo 8 name ++ padTo 3 ext) 16 =
      if ∃ c ∈ ext, c ≠ space then
        name.takeWhile (· ≠ space) ++ dot :: ext.takeWhile (· ≠ space)
      else name.takeWhile (· ≠ space) := by
  have htake : (padTo 8 name ++ padTo 3 ext).take 8 = padTo 8 name := by
    rw [take_append_of_le_length (length_padTo hname).ge, take_of_length_le]
    exact (length_padTo hname).le
  have hdrop : ((padTo 8 name ++ padTo 3 ext).drop 8).take 3 = padTo 3 ext := by
    rw [drop_append_of_le_length (length_padTo hname).ge, drop_of_length_le
      (length_padTo hname).le, nil_append, take_of_length_le]
    exact (length_padTo hext).le
  have hany : (∃ c ∈ padTo 3 ext, c ≠ space) ↔ ∃ c ∈ ext, c ≠ space := by
    simp only [padTo, mem_append, mem_replicate]
    constructor
    · rintro ⟨c, hc | hc, hne⟩
      · exact ⟨c, hc, hne⟩
      · exact absurd hc.2 hne
    · rintro ⟨c, hc, hne⟩
      exact ⟨c, .inl hc, hne⟩
  have hn : (name.takeWhile (· ≠ space)).length ≤ 8 :=
    (takeWhile_sublist _).length_le.trans hname
  have hx : (ext.takeWhile (· ≠ space)).length ≤ 3 :=
    (takeWhile_sublist _).length_le.trans hext
  rw [formatName]
  simp only [htake, hdrop, takeWhile_padTo, hany]
  rw [take_of_length_le (by omega), take_of_length_le (by omega)]
  exact if_congr (and_iff_left (by omega)) rfl rfl

theorem parts_append_dot (hdot : dot ∉ name) :
    namePart (name ++ dot :: ext) = name ∧ extPart (name ++ dot :: ext) = ext := by
  induction name with
  | nil => exact ⟨by simp [namePart], by simp [extPart]⟩
  | cons c name ih =>
    obtain ⟨hc, hrest⟩ := not_or.mp (mem_cons.not.mp hdot)
    obtain ⟨hname, hext⟩ := ih hrest
    constructor
    · simpa [namePart, Ne.symm hc] using hname
    · simpa [extPart, Ne.symm hc] using hext

theorem parts_of_dot_notMem (hdot : dot ∉ name) : namePart name = name ∧ extPart name = [] := by
  have hall : ∀ c ∈ name, decide (c ≠ dot) = true := by
    intro c hc
    simpa using fun he : c = dot => hdot (he ▸ hc)
  constructor
  · exact takeWhile_eq_self_iff.mpr hall
  · rw [extPart, dropWhile_eq_nil_iff.mpr hall, tail_nil]

/-- The two parts of a formatted name are the characters before the first spaces. -/
theorem parts_formatName (hname : name.length ≤ 8) (hext : ext.length ≤ 3) (hdot : dot ∉ name) :
    namePart (formatName (padTo 8 name ++ padTo 3 ext) 16) = name.takeWhile (· ≠ space) ∧
      extPart (formatName (padTo 8 name ++ padTo 3 ext) 16) = ext.takeWhile (· ≠ space) := by
  have hdot' : dot ∉ name.takeWhile (· ≠ space) :=
    fun h => hdot ((takeWhile_sublist _).subset h)
  rw [formatName_padTo hname hext]
  split
  · exact parts_append_dot hdot'
  · next hblank =>
    obtain ⟨hn, hx⟩ := parts_of_dot_notMem hdot'
    refine ⟨hn, hx.trans ?_⟩
    -- a blank extension has nothing before its first space
    cases ext with
    | nil => rfl
    | cons c ext =>
      have hc : c = space := by
        by_contra hne
        exact hblank ⟨c, mem_cons_self, hne⟩
      simp [hc]

theorem mem_formatName (hname : name.length ≤ 8) (hext : ext.length ≤ 3)
    (hc : c ∈ formatName (padTo 8 name ++ padTo 3 ext) 16) : c = dot ∨ c ∈ name ∨ c ∈ ext := by
  rw [formatName_padTo hname hext] at hc
  split at hc
  · rcases mem_append.mp hc with hc | hc
    · exact .inr (.inl ((takeWhile_sublist _).subset hc))
    · rcases mem_cons.mp hc with rfl | hc
      · exact .inl rfl
      · exact .inr (.inr ((takeWhile_sublist _).subset hc))
  · exact .inr (.inl ((takeWhile_sublist _).subset hc))

/-- `format_name` leaves room for the NUL. -/
theorem length_formatName_lt (ent : List UInt8) {outLen : ℕ} (h : 0 < outLen) :
    (formatName ent outLen).length < outLen := by
  have hname : ∀ l : List UInt8, (l.take (outLen - 1)).length ≤ outLen - 1 :=
    fun l => length_take_le _ l
  have hext : ∀ (l : List UInt8) k, (l.take k).length ≤ k := fun l k => length_take_le k l
  rw [formatName]
  split
  · next hfit =>
    have := hext (((ent.drop 8).take 3).takeWhile (· ≠ space))
      (outLen - 2 - (((ent.take 8).takeWhile (· ≠ space)).take (outLen - 1)).length)
    rw [length_append, length_cons]
    omega
  · have := hname ((ent.take 8).takeWhile (· ≠ space))
    omega

theorem dot_notMem_namePart (s : List UInt8) : dot ∉ namePart s := by
  intro h
  simpa using mem_takeWhile_imp h

theorem mem_of_mem_parts (h : c ∈ namePart s ∨ c ∈ extPart s) : c ∈ s := by
  rcases h with h | h
  · exact (takeWhile_sublist _).subset h
  · exact (dropWhile_sublist _).subset (mem_of_mem_tail h)

/-- A formatted component has only dots and upper-case characters of the component. -/
theorem notMem_formatName (hname : (namePart s).length ≤ 8) (hext : (extPart s).length ≤ 3)
    (hlow : c.toNat ≤ 64) (hdot : c ≠ dot) (hc : c ∉ s) :
    c ∉ formatName
      (padTo 8 ((namePart s).map upperChar) ++ padTo 3 ((extPart s).map upperChar)) 16 := by
  intro hmem
  have hupper : ∀ l : List UInt8, c ∈ l.map upperChar → c ∈ l := by
    intro l hl
    obtain ⟨d, hd, hdc⟩ := mem_map.mp hl
    exact (upperChar_eq_iff (.inl hlow)).mp hdc ▸ hd
  rcases mem_formatName (by simpa using hname) (by simpa using hext) hmem with h | h | h
  · exact hdot h
  · exact hc (mem_of_mem_parts (.inl (hupper _ h)))
  · exact hc (mem_of_mem_parts (.inr (hupper _ h)))

theorem map_upperChar_takeWhile (l : List UInt8) :
    ((l.map upperChar).takeWhile (· ≠ space)).map upperChar =
      (l.map upperChar).takeWhile (· ≠ space) := by
  have hcomp : ((fun c => decide (c ≠ space)) ∘ upperChar) = fun c => decide (c ≠ space) :=
    funext upperChar_ne_space
  rw [takeWhile_map, hcomp, map_upperChar_map]

theorem takeWhile_map_upperChar_eq_nil (hne : l ≠ []) :
    (l.map upperChar).takeWhile (· ≠ space) = [] ↔ l.head? = some space := by
  cases l with
  | nil => exact absurd rfl hne
  | cons c l => simp [takeWhile_cons, upperChar_eq_iff (show space.toNat ≤ 64 ∨ _ by decide)]

/-- **The names that survive.**  A component that `build_short_name` accepts comes back from
`format_name` as a string that gives the same entry exactly when neither of its parts has a
space before another character, and its name does not start with one. -/
theorem short_name_round_trip (s e : List UInt8) (hnul : 0 ∉ s) (hs : slash ∉ s)
    (he : buildShortName s = some e) :
    ((formatName e 16).length < 16 ∧ 0 ∉ formatName e 16 ∧ buildShortName (formatName e 16) = some e) ↔
      (namePart s).head? ≠ some space ∧ Tidy (namePart s) ∧ Tidy (extPart s) := by
  obtain ⟨hshort, rfl⟩ := (buildShortName_eq_some hs).mp he
  obtain ⟨hne, hname, hext, hdot⟩ := hshort
  have hname' : ((namePart s).map upperChar).length ≤ 8 := by simpa using hname
  have hext' : ((extPart s).map upperChar).length ≤ 3 := by simpa using hext
  have hnodot : ∀ l : List UInt8, dot ∉ l → dot ∉ l.map upperChar := by
    intro l hl hmem
    obtain ⟨d, hd, hdc⟩ := mem_map.mp hmem
    exact hl ((upperChar_eq_iff (by decide)).mp hdc ▸ hd)
  obtain ⟨hpn, hpx⟩ := parts_formatName hname' hext' (hnodot _ (dot_notMem_namePart s))
  have hslash := notMem_formatName hname hext (by decide) (by decide) hs
  have hzero := notMem_formatName hname hext (by decide) (by decide) hnul
  have hbuild := @buildShortName_eq_some _ hslash
    (padTo 8 ((namePart s).map upperChar) ++ padTo 3 ((extPart s).map upperChar))
  rw [hpn, hpx, map_upperChar_takeWhile, map_upperChar_takeWhile] at hbuild
  rw [and_iff_right (length_formatName_lt _ (by decide)), and_iff_right hzero, hbuild]
  have hn : (((namePart s).map upperChar).takeWhile (· ≠ space)).length ≤ 8 :=
    (takeWhile_sublist _).length_le.trans hname'
  have hx : (((extPart s).map upperChar).takeWhile (· ≠ space)).length ≤ 3 :=
    (takeWhile_sublist _).length_le.trans hext'
  have hhead := (takeWhile_map_upperChar_eq_nil hne).not
  have hpadn := (padTo_takeWhile_eq_iff hname').trans tidy_map_upperChar
  have hpadx := (padTo_takeWhile_eq_iff hext').trans tidy_map_upperChar
  constructor
  · rintro ⟨hshort, heq⟩
    obtain ⟨heqn, heqx⟩ := append_inj heq ((length_padTo hname').trans (length_padTo hn).symm)
    exact ⟨hhead.mp (hpn ▸ hshort.name_ne_nil), hpadn.mp heqn.symm, hpadx.mp heqx.symm⟩
  · rintro ⟨hspace, htidyn, htidyx⟩
    refine ⟨⟨hpn ▸ hhead.mpr hspace, hpn ▸ hn, hpx ▸ hx, ?_⟩, ?_⟩
    · rw [hpx]
      exact fun h => hnodot _ hdot ((takeWhile_sublist _).subset h)
    · rw [hpadn.mpr htidyn, hpadx.mpr htidyx]

/-- "a.b" comes back as "A.B". -/
theorem short_name_round_trip_plain :
    buildShortName [0x61, 0x2E, 0x62] =
        some [0x41, 0x20, 0x20, 0x20, 0x20, 0x20, 0x20, 0x20, 0x42, 0x20, 0x20] ∧
      (((formatName [0x41, 0x20, 0x20, 0x20, 0x20, 0x20, 0x20, 0x20, 0x42, 0x20, 0x20] 16).length < 16 ∧
        0 ∉ formatName [0x41, 0x20, 0x20, 0x20, 0x20, 0x20, 0x20, 0x20, 0x42, 0x20, 0x20] 16 ∧
        buildShortName
            (formatName [0x41, 0x20, 0x20, 0x20, 0x20, 0x20, 0x20, 0x20, 0x42, 0x20, 0x20] 16) =
          some [0x41, 0x20, 0x20, 0x20, 0x20, 0x20, 0x20, 0x20, 0x42, 0x20, 0x20]) ↔
      (namePart [0x61, 0x2E, 0x62]).head? ≠ some space ∧ Tidy (namePart [0x61, 0x2E, 0x62]) ∧
        Tidy (extPart [0x61, 0x2E, 0x62])) :=
  ⟨by decide, short_name_round_trip _ _ (by decide) (by decide) (by decide)⟩

/-- "A B" is accepted, is shown as "A", and that is the name of another entry. -/
theorem embedded_space_lost :
    buildShortName [0x41, 0x20, 0x42] =
        some [0x41, 0x20, 0x42, 0x20, 0x20, 0x20, 0x20, 0x20, 0x20, 0x20, 0x20] ∧
      formatName [0x41, 0x20, 0x42, 0x20, 0x20, 0x20, 0x20, 0x20, 0x20, 0x20, 0x20] 16 = [0x41] ∧
      buildShortName [0x41] =
        some [0x41, 0x20, 0x20, 0x20, 0x20, 0x20, 0x20, 0x20, 0x20, 0x20, 0x20] := by
  decide

end Neptune
