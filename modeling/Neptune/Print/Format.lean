import Neptune.Lib.Peek
import Neptune.Vfs.Memfs
import Mathlib.Data.Nat.Digits.Lemmas

/-!
# Formatted output

`kvprintf` goes through its format string with an index that it advances once for every character and
once more for a conversion.  A `%` at the end of the string has no character behind it: the NUL is taken
for the conversion, and the index goes on behind it.

Characters go out through strings of one character, so that a NUL is not printed.

## Main definitions

* `kvprintf` — the loop, over the bytes of the format string.
* `Piece`, `pieces`, `expand` — the reference expansion.
* `charsGiven` — the characters of the `%c` conversions.

## Main results

* `formatUint_eq` — the digits in the buffer.
* `convert_eq` — a conversion prints its expansion without NULs.
* `kvprintf_iff` — **when the output is the reference expansion**.
-/

namespace Neptune

open ByteMem List Nat Option

/-! ### The code -/

/-- A string without NULs. -/
structure CStr where
  bytes : List UInt8
  nul : 0 ∉ bytes

/-- An argument: an `int`, a pointer, or a string that may be NULL. -/
inductive Arg where
  | int (w : BitVec 32)
  | ptr (p : BitVec 64)
  | str (s : Option CStr)

/-- The cases of the `switch` over the conversion. -/
inductive Conv where
  | percent
  | string
  | char
  | signed
  | unsigned
  | hex (uppercase : Bool)
  | pointer
  | other
  deriving DecidableEq, Repr

def convOf (spec : UInt8) : Conv :=
  if spec = 0x25 then .percent
  else if spec = 0x73 then .string
  else if spec = 0x63 then .char
  else if spec = 0x64 ∨ spec = 0x69 then .signed
  else if spec = 0x75 then .unsigned
  else if spec = 0x78 ∨ spec = 0x58 then .hex (spec = 0x58)
  else if spec = 0x70 then .pointer
  else .other

/-- `put_char`: `console_write` of a string of one character. -/
def putChar (c : UInt8) : List UInt8 := if c = 0 then [] else [c]

/-- `digits[d]`. -/
def digitChar (uppercase : Bool) (d : ℕ) : UInt8 :=
  (ascii (if uppercase then "0123456789ABCDEF" else "0123456789abcdef")).getD d 0

/-- The loop of `format_uint`, with room for `n` more digits. -/
def formatLoop (base : ℕ) (uppercase : Bool) : ℕ → ℕ → List UInt8
  | 0, _ => []
  | n + 1, value =>
    if value = 0 then [] else digitChar uppercase (value % base) :: formatLoop base uppercase n (value / base)

/-- `format_uint`: the digits from the last to the first. -/
def formatUint (value base : ℕ) (uppercase : Bool) (bufSize : ℕ) : List UInt8 :=
  if bufSize = 0 then []
  else if value = 0 then [0x30]
  else formatLoop base uppercase bufSize value

/-- `put_uint_printed`, with the buffer of `kvprintf`. -/
def putUintPrinted (value base : ℕ) (uppercase : Bool) : List UInt8 :=
  (formatUint value base uppercase 64).reverse.flatMap putChar

/-- `put_int`. -/
def putInt (value : ℤ) : List UInt8 :=
  let mag := if value < 0 then (-value).toNat else value.toNat
  (if value < 0 then putChar 0x2D else []) ++ putUintPrinted mag 10 false

/-- One conversion.  There is no result if the next argument is missing or of another kind. -/
def convert (spec : UInt8) (args : List Arg) : Option (List UInt8 × List Arg) :=
  match convOf spec, args with
  | .percent, args => some (putChar 0x25, args)
  | .string, .str s :: args => some ((s.map CStr.bytes).getD (ascii "(null)"), args)
  | .char, .int w :: args => some (putChar w.toNat.toUInt8, args)
  | .signed, .int w :: args => some (putInt w.toInt, args)
  | .unsigned, .int w :: args => some (putUintPrinted w.toNat 10 false, args)
  | .hex uppercase, .int w :: args => some (putUintPrinted w.toNat 16 uppercase, args)
  | .pointer, .ptr p :: args => some (ascii "0x" ++ putUintPrinted p.toNat 16 false, args)
  | .other, args => some (putChar 0x25 ++ putChar spec, args)
  | _, _ => none

/-- The loop of `kvprintf` from the index `i` on, with `n` passes left. -/
def kvprintfLoop (fmt : Peek) : ℕ → ℕ → List Arg → List UInt8 → Option (List UInt8)
  | 0, i, _, out => (fmt i).bind fun c => if c = 0 then some out else none
  | n + 1, i, args, out => do
    let c ← fmt i
    if c = 0 then return out
    if c ≠ 0x25 then kvprintfLoop fmt n (i + 1) args (out ++ putChar c)
    else
      let spec ← fmt (i + 1)
      let (text, args) ← convert spec args
      kvprintfLoop fmt n (i + 2) args (out ++ text)

/-- `kvprintf`, with `n` passes. -/
def kvprintf (fmt : Peek) (n : ℕ) (args : List Arg) : Option (List UInt8) := kvprintfLoop fmt n 0 args []

/-! ### The reference expansion -/

/-- A part of a format string. -/
inductive Piece where
  /-- A character that stands for itself. -/
  | lit (c : UInt8)
  /-- A conversion. -/
  | conv (spec : UInt8)
  /-- A `%` with nothing behind it. -/
  | cut
  deriving DecidableEq, Repr

def pieces : List UInt8 → List Piece
  | [] => []
  | [c] => if c = 0x25 then [.cut] else [.lit c]
  | c :: spec :: fmt => if c = 0x25 then .conv spec :: pieces fmt else .lit c :: pieces (spec :: fmt)

/-- A number in a base, without leading zeros. -/
def numeral (base : ℕ) (uppercase : Bool) (value : ℕ) : List UInt8 :=
  if value = 0 then [0x30] else ((Nat.digits base value).map (digitChar uppercase)).reverse

/-- What a conversion stands for. -/
def expandConv (spec : UInt8) (args : List Arg) : Option (List UInt8 × List Arg) :=
  match convOf spec, args with
  | .percent, args => some ([0x25], args)
  | .string, .str s :: args => some ((s.map CStr.bytes).getD (ascii "(null)"), args)
  | .char, .int w :: args => some ([w.toNat.toUInt8], args)
  | .signed, .int w :: args =>
    some ((if w.toInt < 0 then [0x2D] else []) ++ numeral 10 false w.toInt.natAbs, args)
  | .unsigned, .int w :: args => some (numeral 10 false w.toNat, args)
  | .hex uppercase, .int w :: args => some (numeral 16 uppercase w.toNat, args)
  | .pointer, .ptr p :: args => some (ascii "0x" ++ numeral 16 false p.toNat, args)
  | .other, args => some ([0x25, spec], args)
  | _, _ => none

/-- The text that a format string stands for, if the arguments match. -/
def expand : List Piece → List Arg → Option (List UInt8)
  | [], _ => some []
  | .lit c :: ps, args => (expand ps args).map (c :: ·)
  | .cut :: ps, args => (expand ps args).map (0x25 :: ·)
  | .conv spec :: ps, args => do
    let (text, args) ← expandConv spec args
    let rest ← expand ps args
    return text ++ rest

/-- The characters that the arguments give to the `%c` conversions. -/
def charsGiven : List Piece → List Arg → List UInt8
  | [], _ => []
  | .conv spec :: ps, args =>
    match convOf spec, args with
    | .char, .int w :: args => w.toNat.toUInt8 :: charsGiven ps args
    | .percent, args | .other, args => charsGiven ps args
    | _, args => charsGiven ps args.tail
  | _ :: ps, args => charsGiven ps args

/-! ### Digits -/

/-- What is printed of a text. -/
abbrev visible (text : List UInt8) : List UInt8 := text.filter (· ≠ 0)

theorem visible_append (text text' : List UInt8) :
    visible (text ++ text') = visible text ++ visible text' := filter_append ..

theorem visible_eq_self {text : List UInt8} : visible text = text ↔ 0 ∉ text := by
  rw [visible, filter_eq_self]
  refine ⟨fun h hmem => by simpa using h 0 hmem, fun h c hc => ?_⟩
  exact decide_eq_true fun he => h (he ▸ hc)

theorem putChar_eq (c : UInt8) : putChar c = visible [c] := by
  rw [putChar]
  split <;> simp_all

theorem flatMap_putChar (text : List UInt8) : text.flatMap putChar = visible text := by
  induction text with
  | nil => rfl
  | cons c text ih =>
    rw [flatMap_cons, ih, putChar_eq, visible, ← filter_append]
    rfl

variable {base value n d : ℕ} {uppercase : Bool} {spec : UInt8} {args args' : List Arg}
  {text : List UInt8}

/-- The loop writes the digits as long as there is room. -/
theorem formatLoop_eq (hbase : 1 < base) (h : value < base ^ n) :
    formatLoop base uppercase n value = (Nat.digits base value).map (digitChar uppercase) := by
  induction n generalizing value with
  | zero =>
    obtain rfl : value = 0 := by simpa using h
    simp [formatLoop]
  | succ n ih =>
    rw [formatLoop]
    split
    · next hzero => simp [hzero]
    · next hne =>
      have hdiv : value / base < base ^ n := by
        rw [div_lt_iff_lt_mul (by omega), ← pow_succ]
        exact h
      rw [digits_def' hbase (pos_of_ne_zero hne), map_cons, ih hdiv]

theorem digitChar_ne_zero (h : d < 16) : digitChar uppercase d ≠ 0 := by
  have hall : ∀ b : Bool, ∀ d < 16, digitChar b d ≠ 0 := by decide
  exact hall uppercase d h

theorem zero_notMem_numeral (hbase : 1 < base) (hle : base ≤ 16) :
    0 ∉ numeral base uppercase value := by
  rw [numeral]
  split
  · decide
  · intro hmem
    obtain ⟨d, hd, hzero⟩ := mem_map.mp (mem_reverse.mp hmem)
    exact digitChar_ne_zero (lt_of_lt_of_le (digits_lt_base hbase hd) hle) hzero

/-- **The digits in the buffer**, which has room for all of them. -/
theorem formatUint_eq (hbase : 1 < base) (h : value < 2 ^ 64) :
    (formatUint value base uppercase 64).reverse = numeral base uppercase value := by
  rw [formatUint, if_neg (by decide), numeral]
  split
  · rfl
  · rw [formatLoop_eq hbase (Nat.lt_of_lt_of_le h (Nat.pow_le_pow_left hbase 64))]

theorem putUintPrinted_eq (hbase : 1 < base) (hle : base ≤ 16) (h : value < 2 ^ 64) :
    putUintPrinted value base uppercase = numeral base uppercase value := by
  rw [putUintPrinted, formatUint_eq hbase h, flatMap_putChar]
  exact visible_eq_self.mpr (zero_notMem_numeral hbase hle)

theorem putInt_eq (w : BitVec 32) : putInt w.toInt =
    (if w.toInt < 0 then [0x2D] else []) ++ numeral 10 false w.toInt.natAbs := by
  have hlow := BitVec.le_toInt w
  have hhigh := BitVec.toInt_lt (x := w)
  have hmag : (if w.toInt < 0 then (-w.toInt).toNat else w.toInt.toNat) = w.toInt.natAbs := by
    split <;> omega
  rw [putInt, hmag, putUintPrinted_eq (by decide) (by decide) (by omega)]
  rfl

/-! ### Conversions -/

theorem visible_numeral (hbase : 1 < base) (hle : base ≤ 16) :
    visible (numeral base uppercase value) = numeral base uppercase value :=
  visible_eq_self.mpr (zero_notMem_numeral hbase hle)

theorem visible_str (s : Option CStr) :
    visible ((s.map CStr.bytes).getD (ascii "(null)")) = (s.map CStr.bytes).getD (ascii "(null)") := by
  refine visible_eq_self.mpr ?_
  cases s with
  | none => decide
  | some s => exact s.nul

theorem visible_signed (v : ℤ) :
    visible ((if v < 0 then [0x2D] else []) ++ numeral 10 false value) =
      (if v < 0 then [0x2D] else []) ++ numeral 10 false value := by
  have hnumber : 0 ∉ numeral 10 false value := zero_notMem_numeral (by decide) (by decide)
  refine visible_eq_self.mpr ?_
  split <;> simp [hnumber]

theorem visible_pointer : visible (ascii "0x" ++ numeral 16 false value) =
    ascii "0x" ++ numeral 16 false value := by
  have hnumber : 0 ∉ numeral 16 false value := zero_notMem_numeral (by decide) (by decide)
  have hbefore : 0 ∉ ascii "0x" := by decide
  exact visible_eq_self.mpr (by simp [hnumber, hbefore])

/-- **A conversion prints its expansion** without NULs. -/
theorem convert_eq (spec : UInt8) (args : List Arg) :
    convert spec args = (expandConv spec args).map fun p => (visible p.1, p.2) := by
  unfold convert expandConv
  split
  · rfl
  · rw [map_some, visible_str]
  · rw [map_some, putChar_eq]
  · rw [map_some, putInt_eq, visible_signed]
  · rw [map_some, putUintPrinted_eq (by decide) (by decide) (by omega),
      visible_numeral (by decide) (by decide)]
  · rw [map_some, putUintPrinted_eq (by decide) (by decide) (by omega),
      visible_numeral (by decide) (by decide)]
  · rw [map_some, putUintPrinted_eq (by decide) (by decide) (by omega), visible_pointer]
  · rw [map_some, putChar_eq, putChar_eq, ← filter_append]
    rfl
  · rfl

/-- The NULs of an expansion are those of the characters given. -/
theorem zero_mem_expandConv {ps : List Piece} (hspec : spec ≠ 0)
    (h : expandConv spec args = some (text, args')) :
    0 ∈ charsGiven (.conv spec :: ps) args ↔ 0 ∈ text ∨ 0 ∈ charsGiven ps args' := by
  unfold expandConv at h
  split at h
  case h_9 => cases h
  all_goals
    rename_i hconv
    obtain ⟨rfl, rfl⟩ := Prod.mk.inj (some.inj h)
    simp only [charsGiven, hconv, tail_cons]
  · simp
  · simp [visible_eq_self.mp (visible_str _)]
  · simp
  · simp [visible_eq_self.mp (visible_signed _)]
  · simp [zero_notMem_numeral]
  · simp [zero_notMem_numeral]
  · simp [visible_eq_self.mp visible_pointer]
  · simp [Ne.symm hspec]

/-! ### The loop -/

/-- The string `fmt` and its NUL are in memory from `i` on. -/
structure StringAt (m : ByteMem) (i : ℕ) (fmt : List UInt8) : Prop where
  bytes : ∀ k ≤ fmt.length, m (i + k) = fmt.getD k 0
  nul : 0 ∉ fmt

variable {m : ByteMem} {ok : ℕ → Prop} [DecidablePred ok] {i : ℕ} {c : UInt8} {fmt : List UInt8}
  {out : List UInt8}

theorem StringAt.tail (h : StringAt m i (c :: fmt)) : StringAt m (i + 1) fmt :=
  ⟨fun k hk => by
    rw [add_assoc, add_comm 1, h.bytes (k + 1) (succ_le_succ hk)]
    rfl, fun hmem => h.nul (mem_cons_of_mem c hmem)⟩

theorem StringAt.head (h : StringAt m i (c :: fmt)) : m i = c ∧ c ≠ 0 :=
  ⟨h.bytes 0 (zero_le _), fun hc => h.nul (hc ▸ mem_cons_self)⟩

theorem StringAt.end_of_nil (h : StringAt m i []) : m i = 0 := h.bytes 0 le_rfl

theorem kvprintfLoop_nul (hok : ok i) (h : m i = 0) :
    kvprintfLoop (m.only ok) n i args out = some out := by
  have hread : (m.only ok) i = some 0 := by rw [only_apply hok, h]
  cases n <;> simp [kvprintfLoop, hread]

/-- A pass over a character that stands for itself. -/
theorem kvprintfLoop_lit (hok : ok i) (hc : m i = c) (h0 : c ≠ 0) (hne : c ≠ 0x25) :
    kvprintfLoop (m.only ok) (n + 1) i args out =
      kvprintfLoop (m.only ok) n (i + 1) args (out ++ visible [c]) := by
  rw [kvprintfLoop, only_apply hok, hc]
  dsimp only [bind_eq_bind, bind_some]
  rw [if_neg h0, if_pos hne, putChar_eq]

/-- A pass over a conversion. -/
theorem kvprintfLoop_conv (hok : ok i) (hok' : ok (i + 1)) (hc : m i = 0x25) (hspec : m (i + 1) = spec) :
    kvprintfLoop (m.only ok) (n + 1) i args out = (expandConv spec args).bind fun p =>
      kvprintfLoop (m.only ok) n (i + 2) p.2 (out ++ visible p.1) := by
  rw [kvprintfLoop, only_apply hok, hc, only_apply hok', hspec]
  dsimp only [bind_eq_bind, bind_some]
  rw [if_neg (by decide), if_neg (by decide), convert_eq]
  cases expandConv spec args <;> rfl

/-- **A format string without a `%` at its end** is expanded, and nothing behind its NUL is read. -/
theorem kvprintfLoop_spec (h : StringAt m i fmt) (hok : ∀ a ≤ i + fmt.length, ok a)
    (hcut : .cut ∉ pieces fmt) (hargs : expand (pieces fmt) args = some text) (hn : fmt.length ≤ n) :
    kvprintfLoop (m.only ok) n i args out = some (out ++ visible text) := by
  induction fmt using pieces.induct generalizing i args text n out with
  | case1 =>
    obtain rfl : [] = text := some.inj hargs
    rw [kvprintfLoop_nul (hok i le_rfl) h.end_of_nil, visible, filter_nil, append_nil]
  | case2 => simp [pieces] at hcut
  | case3 c hne =>
    obtain ⟨n, rfl⟩ : ∃ n', n = n' + 1 := exists_eq_add_one.mpr hn
    rw [show pieces [c] = [.lit c] from if_neg hne] at hargs
    obtain rfl : [c] = text := some.inj hargs
    rw [kvprintfLoop_lit (hok i (by omega)) h.head.1 h.head.2 hne,
      kvprintfLoop_nul (hok (i + 1) le_rfl) h.tail.end_of_nil]
  | case4 spec fmt ih =>
    obtain ⟨n, rfl⟩ : ∃ n', n = n' + 1 :=
      exists_eq_add_one.mpr (lt_of_lt_of_le (succ_pos _) hn)
    rw [show pieces (0x25 :: spec :: fmt) = .conv spec :: pieces fmt from if_pos rfl] at hargs hcut
    obtain ⟨⟨piece, args'⟩, hconv, hargs⟩ := bind_eq_some_iff.mp hargs
    obtain ⟨rest, hrest, hargs⟩ := bind_eq_some_iff.mp hargs
    obtain rfl : piece ++ rest = text := some.inj hargs
    rw [length_cons, length_cons] at hok hn
    rw [kvprintfLoop_conv (hok i (by omega)) (hok _ (by omega)) h.head.1 h.tail.head.1, hconv,
      bind_some, ih h.tail.tail (fun a ha => hok a (by omega))
        (fun hmem => hcut (mem_cons_of_mem _ hmem)) hrest (by omega), visible_append,
      append_assoc]
  | case5 c spec fmt hne ih =>
    obtain ⟨n, rfl⟩ : ∃ n', n = n' + 1 :=
      exists_eq_add_one.mpr (lt_of_lt_of_le (succ_pos _) hn)
    rw [show pieces (c :: spec :: fmt) = .lit c :: pieces (spec :: fmt) from if_neg hne] at hargs hcut
    obtain ⟨rest, hrest, rfl⟩ := map_eq_some_iff.mp hargs
    rw [length_cons] at hok hn
    rw [kvprintfLoop_lit (hok i (by omega)) h.head.1 h.head.2 hne,
      ih h.tail (fun a ha => hok a (by omega)) (fun hmem => hcut (mem_cons_of_mem _ hmem)) hrest
        (by omega), append_assoc, ← visible_append]
    rfl

/-- **A `%` at the end** makes the loop read behind the NUL. -/
theorem kvprintfLoop_cut (h : StringAt m i fmt) (hok : ∀ a, ok a ↔ a ≤ i + fmt.length)
    (hcut : .cut ∈ pieces fmt) : kvprintfLoop (m.only ok) n i args out = none := by
  induction fmt using pieces.induct generalizing i args n out with
  | case1 => cases hcut
  | case2 =>
    have hread : (m.only ok) i = some 0x25 := by
      rw [only_apply ((hok i).mpr (by omega)), h.head.1]
    cases n with
    | zero => simp [kvprintfLoop, hread]
    | succ n =>
      -- the NUL is taken for the conversion
      have hbehind : (m.only ok) (i + 2) = none :=
        only_eq_none fun hbad => absurd ((hok _).mp hbad) (by simp)
      rw [kvprintfLoop_conv ((hok i).mpr (by omega)) ((hok _).mpr le_rfl) h.head.1 h.tail.end_of_nil]
      refine bind_eq_none_iff.mpr fun p _ => ?_
      cases n <;> simp [kvprintfLoop, hbehind]
  | case3 c hne =>
    rw [show pieces [c] = [.lit c] from if_neg hne] at hcut
    simp at hcut
  | case4 spec fmt ih =>
    rw [show pieces (0x25 :: spec :: fmt) = .conv spec :: pieces fmt from if_pos rfl] at hcut
    have hcut' : .cut ∈ pieces fmt := by simpa using hcut
    rw [length_cons, length_cons] at hok
    have hread : (m.only ok) i = some 0x25 := by
      rw [only_apply ((hok i).mpr (by omega)), h.head.1]
    cases n with
    | zero => simp [kvprintfLoop, hread]
    | succ n =>
      rw [kvprintfLoop_conv ((hok i).mpr (by omega)) ((hok _).mpr (by omega)) h.head.1 h.tail.head.1]
      refine bind_eq_none_iff.mpr fun p _ => ih h.tail.tail (fun a => ?_) hcut'
      rw [hok]
      omega
  | case5 c spec fmt hne ih =>
    rw [show pieces (c :: spec :: fmt) = .lit c :: pieces (spec :: fmt) from if_neg hne] at hcut
    have hcut' : .cut ∈ pieces (spec :: fmt) := by simpa using hcut
    rw [length_cons] at hok
    have hread : (m.only ok) i = some c := by
      rw [only_apply ((hok i).mpr (by omega)), h.head.1]
    cases n with
    | zero => simp [kvprintfLoop, hread, h.head.2]
    | succ n =>
      rw [kvprintfLoop_lit ((hok i).mpr (by omega)) h.head.1 h.head.2 hne]
      refine ih h.tail (fun a => ?_) hcut'
      rw [hok]
      omega

/-- The NULs of the expansion are those of the characters given. -/
theorem zero_mem_expand (h0 : 0 ∉ fmt) (hargs : expand (pieces fmt) args = some text) :
    0 ∈ text ↔ 0 ∈ charsGiven (pieces fmt) args := by
  induction fmt using pieces.induct generalizing args text with
  | case1 =>
    obtain rfl : [] = text := some.inj hargs
    rfl
  | case2 =>
    obtain rfl : [0x25] = text := some.inj hargs
    simp [pieces, charsGiven]
  | case3 c hne =>
    rw [show pieces [c] = [.lit c] from if_neg hne] at hargs ⊢
    obtain rfl : [c] = text := some.inj hargs
    simpa [charsGiven] using h0
  | case4 spec fmt ih =>
    rw [show pieces (0x25 :: spec :: fmt) = .conv spec :: pieces fmt from if_pos rfl] at hargs ⊢
    obtain ⟨⟨piece, args'⟩, hconv, hargs⟩ := bind_eq_some_iff.mp hargs
    obtain ⟨rest, hrest, hargs⟩ := bind_eq_some_iff.mp hargs
    obtain rfl : piece ++ rest = text := some.inj hargs
    simp only [mem_cons, not_or] at h0
    rw [zero_mem_expandConv (Ne.symm h0.2.1) hconv, mem_append, ih h0.2.2 hrest]
  | case5 c spec fmt hne ih =>
    rw [show pieces (c :: spec :: fmt) = .lit c :: pieces (spec :: fmt) from if_neg hne] at hargs ⊢
    obtain ⟨rest, hrest, rfl⟩ := map_eq_some_iff.mp hargs
    obtain ⟨hc, h0⟩ := not_or.mp (mt mem_cons.mpr h0)
    rw [charsGiven, ← ih h0 hrest, mem_cons, or_iff_right hc]
    simp

/-- **When the output is the reference expansion**: the format string does not end in a `%` without a
conversion, and no `%c` gets a NUL. -/
theorem kvprintf_iff (h : StringAt m 0 fmt) (hargs : expand (pieces fmt) args = some text) :
    (∃ n₀, ∀ n ≥ n₀, kvprintf (m.only (· ≤ fmt.length)) n args = some text) ↔
      .cut ∉ pieces fmt ∧ 0 ∉ charsGiven (pieces fmt) args := by
  have hspec : .cut ∉ pieces fmt → ∀ n ≥ fmt.length,
      kvprintf (m.only (· ≤ fmt.length)) n args = some (visible text) := fun hcut n hn =>
    kvprintfLoop_spec h (fun a ha => by simpa using ha) hcut hargs hn
  rw [← zero_mem_expand h.nul hargs, ← visible_eq_self]
  constructor
  · rintro ⟨n₀, hn₀⟩
    have hcut : .cut ∉ pieces fmt := by
      intro hcut
      have hnone := hn₀ n₀ le_rfl
      rw [kvprintf, kvprintfLoop_cut h (fun a => by rw [zero_add]) hcut] at hnone
      cases hnone
    have hboth := hn₀ (max n₀ fmt.length) (by omega)
    rw [hspec hcut _ (by omega)] at hboth
    exact ⟨hcut, some.inj hboth⟩
  · rintro ⟨hcut, hvisible⟩
    refine ⟨fmt.length, fun n hn => ?_⟩
    rw [hspec hcut n hn, hvisible]

/-- A format string in memory. -/
def formatMem (fmt : List UInt8) : ByteMem := fun a => fmt.getD a 0

theorem stringAt_formatMem (h : 0 ∉ fmt) : StringAt (formatMem fmt) 0 fmt :=
  ⟨fun k _ => by rw [zero_add, formatMem], h⟩

/-- The format string `%` is read behind its NUL. -/
theorem kvprintf_percent : StringAt (formatMem [0x25]) 0 [0x25] ∧
    ¬∃ n text, kvprintf ((formatMem [0x25]).only (· ≤ 1)) n [] = some text := by
  have hstring : StringAt (formatMem [0x25]) 0 [0x25] := stringAt_formatMem (by decide)
  refine ⟨hstring, ?_⟩
  rintro ⟨n, text, h⟩
  have hcut : .cut ∈ pieces [0x25] := by decide
  rw [kvprintf, kvprintfLoop_cut hstring (fun a => by rw [zero_add]; rfl) hcut] at h
  cases h

/-- The least `int`, between literal characters. -/
theorem kvprintf_iff_int_min : ∃ n₀, ∀ n ≥ n₀,
    kvprintf ((formatMem (ascii "<%d>")).only (· ≤ 4)) n [.int 0x80000000] =
      some (ascii "<-2147483648>") := by
  have hargs : expand (pieces (ascii "<%d>")) [.int 0x80000000] = some (ascii "<-2147483648>") := by
    decide +kernel
  exact (kvprintf_iff (stringAt_formatMem (by decide)) hargs).mpr ⟨by decide, by decide⟩

end Neptune
