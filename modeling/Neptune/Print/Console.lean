import Mathlib.Algebra.Group.Nat.Defs
import Neptune.Lib.Loop
import Neptune.Lib.Wrap

/-!
# The VGA console

The console has a page of 25 rows of 80 cells, each with a colour and a character, and a cursor of two
bytes.  The driver wraps long rows and scrolls the page when the cursor leaves it.  An access outside
the page has no result.

## Main definitions

* `Console` — the page and the cursor.
* `writeChar`, `clear`, `backspace` — the driver.
* `Shows` — the page shows the last rows of a text.

## Main results

* `Console.writeChar_shows` — one more character.
* `Console.console_shows` — **the console shows the last 25 rows of the text**.
-/

namespace Neptune

open Nat

def vgaCols : ℕ := 80
def vgaRows : ℕ := 25

/-- The console.  `hwCursor` is what the registers of the hardware cursor hold. -/
structure Console where
  row : UInt8
  col : UInt8
  color : UInt8
  hwCursor : UInt16
  cells : ℕ → UInt16

/-- A cell with a colour and a character. -/
def vgaCell (color ch : UInt8) : UInt16 := color.toUInt16 <<< 8 ||| ch.toUInt16

namespace Console

/-- The cell at an index of the page. -/
def peek (s : Console) (i : ℕ) : Option UInt16 := if i < vgaCols * vgaRows then some (s.cells i) else none

/-- A write to the cell at an index of the page. -/
def poke (s : Console) (i : ℕ) (v : UInt16) : Option Console :=
  if i < vgaCols * vgaRows then some { s with cells := Function.update s.cells i v } else none

/-- The index of the cursor. -/
def index (s : Console) : ℕ := s.row.toNat * vgaCols + s.col.toNat

/-- `update_hw_cursor`: the low byte and the high byte of the position. -/
def updateHwCursor (s : Console) : Console :=
  let pos := s.index % 2 ^ 16
  { s with hwCursor := UInt16.ofNat (pos % 256 + 256 * (pos / 256 % 256)) }

/-- `scroll_if_needed`. -/
def scrollIfNeeded (s : Console) : Option Console :=
  if s.row.toNat < vgaRows then some s
  else do
    let s ← (List.range' 1 (vgaRows - 1)).foldlM (fun s row =>
      (List.range' 0 vgaCols).foldlM (fun s col => do
        s.poke ((row - 1) * vgaCols + col) (← s.peek (row * vgaCols + col))) s) s
    let s ← (List.range' 0 vgaCols).foldlM
      (fun s col => s.poke ((vgaRows - 1) * vgaCols + col) (vgaCell s.color 0x20)) s
    some { s with row := UInt8.ofNat (vgaRows - 1) }

/-- `advance_cursor`. -/
def advanceCursor (s : Console) : Option Console :=
  let s := { s with col := s.col + 1 }
  if s.col.toNat ≥ vgaCols then scrollIfNeeded { s with col := 0, row := s.row + 1 } else some s

/-- `arch_console_write_char`. -/
def writeChar (s : Console) (c : UInt8) : Option Console :=
  if c = 0x0A then do
    let s ← scrollIfNeeded { s with col := 0, row := s.row + 1 }
    some s.updateHwCursor
  else do
    let s ← s.scrollIfNeeded
    let s ← s.poke s.index (vgaCell s.color c)
    let s ← s.advanceCursor
    some s.updateHwCursor

/-- `arch_console_write`. -/
def write (s : Console) (msg : List UInt8) : Option Console := msg.foldlM writeChar s

/-- `arch_console_clear`. -/
def clear (s : Console) (color : UInt8) : Option Console := do
  let s := { s with color, row := 0, col := 0 }
  let s ← (List.range' 0 (vgaCols * vgaRows)).foldlM (fun s i => s.poke i (vgaCell s.color 0x20)) s
  some s.updateHwCursor

/-- `arch_console_set_color`. -/
def setColor (s : Console) (color : UInt8) : Console := { s with color }

/-- `arch_console_backspace`. -/
def backspace (s : Console) : Option Console :=
  if s.row = 0 ∧ s.col = 0 then some s
  else do
    let s :=
      if s.col = 0 then
        { s with col := UInt8.ofNat (vgaCols - 1), row := if s.row > 0 then s.row - 1 else s.row }
      else { s with col := s.col - 1 }
    let s ← s.poke s.index (vgaCell s.color 0x20)
    some s.updateHwCursor

end Console

/-- The calls of the driver. -/
inductive ConsoleCall where
  | clear (color : UInt8)
  | setColor (color : UInt8)
  | write (msg : List UInt8)
  | backspace
  deriving DecidableEq, Repr

/-- A call of the driver. -/
def Console.call (s : Console) : ConsoleCall → Option Console
  | .clear color => s.clear color
  | .setColor color => some (s.setColor color)
  | .write msg => s.write msg
  | .backspace => s.backspace

/-- The text after a call. -/
def ConsoleCall.text (t : List UInt8) : ConsoleCall → List UInt8
  | .clear _ => []
  | .write msg => t ++ msg
  | .setColor _ | .backspace => t

/-! ### The page -/

/-- The character of a cell. -/
@[simp] theorem toUInt8_vgaCell (color ch : UInt8) : (vgaCell color ch).toUInt8 = ch := by
  apply UInt8.toBitVec_inj.mp
  ext i hi
  simp [vgaCell]

namespace Console

/-- The first `m` cells have been replaced by those a row below. -/
def moved (cells : ℕ → UInt16) (m : ℕ) : ℕ → UInt16 := fun i => if i < m then cells (i + vgaCols) else cells i

/-- The `m` cells from `a` on have been set. -/
def filled (cells : ℕ → UInt16) (a m : ℕ) (v : UInt16) : ℕ → UInt16 :=
  fun i => if a ≤ i ∧ i < a + m then v else cells i

theorem update_moved (cells : ℕ → UInt16) (m : ℕ) :
    Function.update (moved cells m) m (moved cells m (m + vgaCols)) = moved cells (m + 1) := by
  funext i
  rcases eq_or_ne i m with rfl | hi
  · rw [Function.update_self, moved, moved, if_neg (by omega), if_pos (by omega)]
  · rw [Function.update_of_ne hi, moved, moved]
    exact if_congr (by omega) rfl rfl

theorem update_filled (cells : ℕ → UInt16) (a m : ℕ) (v : UInt16) :
    Function.update (filled cells a m v) (a + m) v = filled cells a (m + 1) v := by
  funext i
  rcases eq_or_ne i (a + m) with rfl | hi
  · rw [Function.update_self, filled, if_pos (by omega)]
  · rw [Function.update_of_ne hi, filled, filled]
    exact if_congr (by omega) rfl rfl

/-- A loop that sets cells of the page to a blank. -/
theorem fill_loop (s : Console) (a n : ℕ) (ha : a + n ≤ vgaCols * vgaRows) :
    (List.range' 0 n).foldlM (fun s i => s.poke (a + i) (vgaCell s.color 0x20)) s
      = some { s with cells := filled s.cells a n (vgaCell s.color 0x20) } := by
  have hnone : filled s.cells a 0 (vgaCell s.color 0x20) = s.cells := by
    funext i
    exact if_neg (by omega)
  obtain ⟨s', hrun, rfl⟩ := foldlM_range'_progress (i := 0) (n := n) (s := s)
    (f := fun s i => s.poke (a + i) (vgaCell s.color 0x20))
    (P := fun j u => u = { s with cells := filled s.cells a j (vgaCell s.color 0x20) })
    (by
      rintro j u - hj rfl
      refine ⟨_, if_pos (by omega), ?_⟩
      simp only [update_filled])
    (by rw [hnone])
  rw [hrun, zero_add]

/-- The loop that moves a row up. -/
theorem move_row (s : Console) (row : ℕ) (hrow : 1 ≤ row ∧ row < vgaRows) :
    (List.range' 0 vgaCols).foldlM (fun s col => do
        s.poke ((row - 1) * vgaCols + col) (← s.peek (row * vgaCols + col)))
        { s with cells := moved s.cells ((row - 1) * vgaCols) }
      = some { s with cells := moved s.cells (row * vgaCols) } := by
  have hmul : row * vgaCols = (row - 1) * vgaCols + vgaCols := by
    rw [← succ_mul]
    congr 1
    omega
  have hle : row * vgaCols + vgaCols ≤ vgaCols * vgaRows := by
    rw [← succ_mul, mul_comm]
    exact mul_le_mul_left _ (by omega)
  obtain ⟨s', hrun, rfl⟩ := foldlM_range'_progress (i := 0) (n := vgaCols)
    (s := { s with cells := moved s.cells ((row - 1) * vgaCols) })
    (f := fun s col => do s.poke ((row - 1) * vgaCols + col) (← s.peek (row * vgaCols + col)))
    (P := fun j u => u = { s with cells := moved s.cells ((row - 1) * vgaCols + j) })
    (by
      rintro j u - hj rfl
      have hpeek : Console.peek { s with cells := moved s.cells ((row - 1) * vgaCols + j) }
          (row * vgaCols + j)
          = some (moved s.cells ((row - 1) * vgaCols + j) ((row - 1) * vgaCols + j + vgaCols)) := by
        rw [peek, if_pos (by omega), hmul, Nat.add_right_comm]
      refine ⟨{ s with cells := moved s.cells ((row - 1) * vgaCols + (j + 1)) }, ?_, rfl⟩
      rw [hpeek, Option.bind_eq_bind, Option.bind_some, poke, if_pos (by omega), update_moved]
      rfl)
    rfl
  rw [hrun, zero_add, ← hmul]

/-- `scroll_if_needed` below the page. -/
theorem scrollIfNeeded_of_le {s : Console} (h : vgaRows ≤ s.row.toNat) : s.scrollIfNeeded =
    some { s with
      row := UInt8.ofNat (vgaRows - 1)
      cells := filled (moved s.cells ((vgaRows - 1) * vgaCols)) ((vgaRows - 1) * vgaCols) vgaCols
        (vgaCell s.color 0x20) } := by
  have hnone : moved s.cells 0 = s.cells := by
    funext i
    exact if_neg (by omega)
  obtain ⟨s', hrun, hs'⟩ := foldlM_range'_progress (i := 1) (n := vgaRows - 1) (s := s)
    (f := fun s row => (List.range' 0 vgaCols).foldlM (fun s col => do
        s.poke ((row - 1) * vgaCols + col) (← s.peek (row * vgaCols + col))) s)
    (P := fun row u => u = { s with cells := moved s.cells ((row - 1) * vgaCols) })
    (by
      rintro row u hle hlt rfl
      refine ⟨_, move_row s row ⟨hle, by omega⟩, ?_⟩
      rw [Nat.add_sub_cancel])
    (by rw [Nat.sub_self, Nat.zero_mul, hnone])
  rw [Nat.add_sub_cancel_left] at hs'
  rw [scrollIfNeeded, if_neg (by omega), hrun, hs', Option.bind_eq_bind, Option.bind_some,
    fill_loop _ _ _ (by decide)]
  rfl

/-! ### The rows on the page -/

/-- The cursor is on the page, and the hardware has its position. -/
structure Placed (s : Console) : Prop where
  row_lt : s.row.toNat < vgaRows
  col_lt : s.col.toNat < vgaCols
  hw : s.hwCursor.toNat = s.index

/-- The page has the last 25 of the rows, and the cursor is in the last one. -/
structure Page (rows : List (List UInt8)) (s : Console) : Prop where
  row : s.row.toNat + 1 = min rows.length vgaRows
  cells : ∀ r < vgaRows, ∀ c < vgaCols,
    (s.cells (r * vgaCols + c)).toUInt8 = glyph vgaRows 0x20 rows r c

variable {s : Console} {rows init : List (List UInt8)} {last : List UInt8} {t : List UInt8} {c : UInt8}

theorem index_lt (hrow : s.row.toNat < vgaRows) (hcol : s.col.toNat < vgaCols) :
    s.index < vgaCols * vgaRows := by
  simp only [index, vgaCols, vgaRows] at *
  omega

theorem placed_updateHwCursor (hrow : s.row.toNat < vgaRows) (hcol : s.col.toNat < vgaCols) :
    s.updateHwCursor.Placed := by
  refine ⟨hrow, hcol, ?_⟩
  have hlt := index_lt hrow hcol
  have hsame : s.updateHwCursor.index = s.index := rfl
  simp only [vgaCols, vgaRows] at hlt
  rw [hsame, updateHwCursor, UInt16.toNat_ofNat']
  omega

/-- A new row begins.  A page that is full is scrolled. -/
def lineFeed (s : Console) : Console :=
  if s.row.toNat + 1 < vgaRows then { s with col := 0, row := s.row + 1 }
  else { s with
    col := 0
    row := UInt8.ofNat (vgaRows - 1)
    cells := filled (moved s.cells ((vgaRows - 1) * vgaCols)) ((vgaRows - 1) * vgaCols) vgaCols
      (vgaCell s.color 0x20) }

theorem row_succ (hrow : s.row.toNat < vgaRows) : (s.row + 1).toNat = s.row.toNat + 1 := by
  rw [UInt8.toNat_add]
  simp only [vgaRows] at hrow
  exact mod_eq_of_lt (by simp; omega)

theorem scrollIfNeeded_next (hrow : s.row.toNat < vgaRows) :
    scrollIfNeeded { s with col := 0, row := s.row + 1 } = some s.lineFeed := by
  have hnext := row_succ hrow
  rw [lineFeed]
  split
  · exact if_pos (by simpa only [hnext] using ‹_›)
  · exact scrollIfNeeded_of_le (by simp only [hnext]; omega)

theorem row_lineFeed (hrow : s.row.toNat < vgaRows) :
    s.lineFeed.row.toNat = min (s.row.toNat + 1) (vgaRows - 1) := by
  rw [lineFeed]
  split
  · rw [row_succ hrow]
    omega
  · rw [min_eq_right (by omega)]
    rfl

theorem col_lineFeed (s : Console) : s.lineFeed.col = 0 := by
  rw [lineFeed]
  split <;> rfl

theorem Page.lineFeed (h : Page rows s) : Page (rows ++ [[]]) s.lineFeed := by
  have hrow := h.row
  refine ⟨?_, ?_⟩
  · rw [row_lineFeed (by omega), List.length_append, List.length_singleton]
    omega
  intro r hr c hc
  rw [glyph_concat_nil hr, Console.lineFeed]
  by_cases hroom : rows.length < vgaRows
  · rw [if_pos hroom, if_pos (by omega)]
    exact h.cells r hr c hc
  rw [if_neg hroom, if_neg (by omega)]
  simp only [filled, moved]
  by_cases hlast : r + 1 < vgaRows
  · have hcells := h.cells (r + 1) hlast c hc
    have hupper : r * vgaCols + c < (vgaRows - 1) * vgaCols := by
      simp only [vgaRows, vgaCols] at *
      omega
    rw [if_pos hlast, ← hcells, if_neg (by omega), if_pos hupper]
    congr 2
    rw [Nat.succ_mul, Nat.add_right_comm]
  · have hlower : (vgaRows - 1) * vgaCols ≤ r * vgaCols + c ∧
        r * vgaCols + c < (vgaRows - 1) * vgaCols + vgaCols := by
      simp only [vgaRows, vgaCols] at *
      omega
    rw [if_neg hlast, if_pos hlower, toUInt8_vgaCell]

/-- A character is written at the cursor. -/
def put (s : Console) (c : UInt8) : Console :=
  { s with cells := Function.update s.cells s.index (vgaCell s.color c) }

theorem cells_put (s : Console) (c : UInt8) :
    (s.put c).cells = Function.update s.cells s.index (vgaCell s.color c) := rfl

/-- A character at the end of the last row. -/
theorem Page.put (h : Page (init ++ [last]) s) (hcol : s.col.toNat = last.length)
    (hlast : last.length < vgaCols) : Page (init ++ [last ++ [c]]) (s.put c) := by
  have hrow := h.row
  simp only [List.length_append, List.length_singleton] at hrow
  refine ⟨?_, ?_⟩
  · rw [List.length_append, List.length_singleton]
    exact hrow
  · intro r hr k hk
    rw [glyph_concat_char hr]
    split
    · next hat =>
      have hindex : r * vgaCols + k = s.index := by
        rw [index, hcol, hat.1, hat.2]
        congr 2
        omega
      rw [hindex, cells_put, Function.update_self, toUInt8_vgaCell]
    · next hother =>
      have hindex : r * vgaCols + k ≠ s.index := by
        simp only [index, hcol, vgaCols, vgaRows] at *
        omega
      rw [cells_put, Function.update_of_ne hindex]
      exact h.cells r hr k hk

theorem Page.updateHwCursor (h : Page rows s) : Page rows s.updateHwCursor := ⟨h.row, h.cells⟩

/-! ### The calls -/

theorem writeChar_newline (hrow : s.row.toNat < vgaRows) :
    s.writeChar 0x0A = some s.lineFeed.updateHwCursor := by
  rw [writeChar, if_pos rfl, scrollIfNeeded_next hrow]
  rfl

theorem col_succ (hcol : s.col.toNat < vgaCols) : (s.col + 1).toNat = s.col.toNat + 1 := by
  rw [UInt8.toNat_add]
  simp only [vgaCols] at hcol
  exact mod_eq_of_lt (by simp; omega)

theorem writeChar_of_ne (hc : c ≠ 0x0A) (hrow : s.row.toNat < vgaRows) (hcol : s.col.toNat < vgaCols) :
    s.writeChar c = some (if s.col.toNat + 1 < vgaCols then { s.put c with col := s.col + 1 }
      else (s.put c).lineFeed).updateHwCursor := by
  have hscroll : s.scrollIfNeeded = some s := if_pos hrow
  have hpoke : s.poke s.index (vgaCell s.color c) = some (s.put c) := if_pos (index_lt hrow hcol)
  have hnext : ((s.put c).col + 1).toNat = s.col.toNat + 1 := col_succ hcol
  have hadvance : (s.put c).advanceCursor = some (if s.col.toNat + 1 < vgaCols
      then { s.put c with col := s.col + 1 } else (s.put c).lineFeed) := by
    rw [advanceCursor]
    simp only [hnext]
    split
    · rw [if_neg (by omega)]
      exact scrollIfNeeded_next (s := s.put c) hrow
    · rw [if_pos (by omega)]
      rfl
  rw [writeChar, if_neg hc, hscroll, Option.bind_eq_bind, Option.bind_some, hpoke, Option.bind_some, hadvance]
  rfl

/-- The cursor stays on the page. -/
theorem Placed.writeChar (h : s.Placed) (c : UInt8) : ∃ s', s.writeChar c = some s' ∧ s'.Placed := by
  have hfeed : ∀ {u : Console}, u.row.toNat < vgaRows → u.lineFeed.updateHwCursor.Placed := by
    intro u hu
    refine placed_updateHwCursor ?_ ?_
    · rw [row_lineFeed hu]
      simp only [vgaRows]
      omega
    · rw [col_lineFeed]
      decide
  by_cases hc : c = 0x0A
  · subst hc
    exact ⟨_, writeChar_newline h.row_lt, hfeed h.row_lt⟩
  · refine ⟨_, writeChar_of_ne hc h.row_lt h.col_lt, ?_⟩
    split
    · next hroom =>
      refine placed_updateHwCursor h.row_lt ?_
      simp only [col_succ h.col_lt]
      exact hroom
    · exact hfeed h.row_lt

theorem Placed.backspace (h : s.Placed) : ∃ s', s.backspace = some s' ∧ s'.Placed := by
  have hrow := h.row_lt
  have hcol := h.col_lt
  rw [Console.backspace]
  split
  · exact ⟨s, rfl, h⟩
  next hhome =>
  dsimp only
  have hput : ∀ u : Console, u.row.toNat < vgaRows → u.col.toNat < vgaCols → ∃ s',
      (do let s ← u.poke u.index (vgaCell u.color 0x20); some s.updateHwCursor) = some s' ∧ s'.Placed := by
    intro u hurow hucol
    refine ⟨(u.put 0x20).updateHwCursor, ?_, placed_updateHwCursor hurow hucol⟩
    rw [poke, if_pos (index_lt hurow hucol)]
    rfl
  have hpred : ∀ x : UInt8, x ≠ 0 → (x - 1).toNat = x.toNat - 1 := by
    intro x hx
    have hpos : x.toNat ≠ 0 := fun hzero => hx (UInt8.toNat_inj.mp hzero)
    have hlt := x.toNat_lt
    rw [UInt8.toNat_sub]
    simp
    omega
  split
  · -- back to the end of the row above
    next hleft =>
    have hne : s.row ≠ 0 := fun hzero => hhome ⟨hzero, hleft⟩
    refine hput _ ?_ (show (UInt8.ofNat (vgaCols - 1)).toNat < vgaCols by decide)
    dsimp only
    split
    · rw [hpred _ hne]
      omega
    · exact hrow
  · next hright =>
    refine hput _ hrow ?_
    simp only [hpred _ hright]
    omega

theorem Placed.write (h : s.Placed) (msg : List UInt8) : ∃ s', s.write msg = some s' ∧ s'.Placed := by
  induction msg generalizing s with
  | nil => exact ⟨s, rfl, h⟩
  | cons c msg ih =>
    obtain ⟨u, hu, hplaced⟩ := h.writeChar c
    obtain ⟨s', hs', hplaced'⟩ := ih hplaced
    refine ⟨s', ?_, hplaced'⟩
    rw [Console.write, List.foldlM_cons, hu]
    exact hs'

end Console

/-- The rows of a text on the console. -/
def consoleRows (t : List UInt8) : List (List UInt8) := wrapText vgaCols 0x0A t

/-- The console shows the text: the page has its last 25 rows, and the cursor is after the last
character. -/
structure Shows (t : List UInt8) (s : Console) : Prop where
  placed : s.Placed
  page : s.Page (consoleRows t)
  col : s.col.toNat = ((consoleRows t).getLastD []).length

namespace Console

variable {s : Console} {t : List UInt8}

/-- A console that shows a text shows it with one character more. -/
theorem writeChar_shows (h : Shows t s) (c : UInt8) : ∃ s', s.writeChar c = some s' ∧ Shows (t ++ [c]) s' := by
  obtain ⟨s', hrun, hplaced⟩ := h.placed.writeChar c
  obtain ⟨hrow, hcol, -⟩ := h.placed
  obtain ⟨init, last, hrows, hlast, hnewline, hchar⟩ :=
    wrapText_concat 0x0A t (by decide : 0 < vgaCols)
  have hend := h.col
  have hpage := h.page
  rw [consoleRows, hrows] at hend hpage
  rw [List.getLastD_concat] at hend
  -- a row that has ended is followed by an empty one
  have hfeed : ∀ {rows : List (List UInt8)} {u : Console}, u.Page rows →
      consoleRows (t ++ [c]) = rows ++ [[]] → s' = u.lineFeed.updateHwCursor → Shows (t ++ [c]) s' := by
    rintro rows u hu hrows rfl
    refine ⟨hplaced, ?_, ?_⟩
    · rw [hrows]
      exact hu.lineFeed.updateHwCursor
    · have hzero : u.lineFeed.updateHwCursor.col = 0 := u.col_lineFeed
      rw [hrows, hzero, List.getLastD_concat]
      rfl
  refine ⟨s', hrun, ?_⟩
  by_cases hc : c = 0x0A
  · subst hc
    rw [writeChar_newline hrow] at hrun
    exact hfeed hpage hnewline (Option.some.inj hrun).symm
  rw [writeChar_of_ne hc hrow hcol] at hrun
  have hrows' := hchar c hc
  have hput : (s.put c).Page (init ++ [last ++ [c]]) := hpage.put hend hlast
  rw [← hend] at hrows'
  split at hrun
  · next hroom =>
    rw [if_pos hroom] at hrows'
    obtain rfl := Option.some.inj hrun
    have hnext : (s.col + 1).toNat = last.length + 1 := by rw [col_succ hcol, hend]
    refine ⟨hplaced, ?_, ?_⟩
    · rw [consoleRows, hrows']
      exact ⟨hput.row, hput.cells⟩
    · rw [consoleRows, hrows', List.getLastD_concat, List.length_append]
      exact hnext
  · next hfull =>
    rw [if_neg hfull] at hrows'
    exact hfeed hput hrows' (Option.some.inj hrun).symm

theorem write_shows (h : Shows t s) (msg : List UInt8) :
    ∃ s', s.write msg = some s' ∧ Shows (t ++ msg) s' := by
  induction msg generalizing s t with
  | nil => exact ⟨s, rfl, by rwa [List.append_nil]⟩
  | cons c msg ih =>
    obtain ⟨u, hu, hshows⟩ := writeChar_shows h c
    obtain ⟨s', hs', hshows'⟩ := ih hshows
    refine ⟨s', ?_, by rwa [List.append_cons]⟩
    rw [Console.write, List.foldlM_cons, hu]
    exact hs'

/-- A console that has been cleared shows nothing. -/
theorem clear_shows (s : Console) (color : UInt8) : ∃ s', s.clear color = some s' ∧ Shows [] s' := by
  have hrows : consoleRows [] = [[]] := by decide
  have hloop := fill_loop { s with color, row := 0, col := 0 } 0 (vgaCols * vgaRows) (by omega)
  simp only [zero_add] at hloop
  refine ⟨_, by rw [clear, hloop]; rfl, ?_, ?_, ?_⟩
  · exact placed_updateHwCursor (show (0 : UInt8).toNat < vgaRows by decide)
      (show (0 : UInt8).toNat < vgaCols by decide)
  · rw [hrows]
    refine Page.updateHwCursor ⟨rfl, fun r hr c hc => ?_⟩
    have hin : 0 ≤ r * vgaCols + c ∧ r * vgaCols + c < 0 + vgaCols * vgaRows := by
      simp only [vgaRows, vgaCols] at *
      omega
    simp only [filled]
    rw [if_pos hin, toUInt8_vgaCell, glyph_eq]
    cases r <;> rfl
  · rw [hrows]
    rfl

/-- A call keeps the cursor on the page.  If it is not a backspace, the console shows the text after
it. -/
theorem call_spec (s : Console) (h : s.Placed) (op : ConsoleCall) : ∃ s', s.call op = some s' ∧ s'.Placed ∧
    (op ≠ .backspace → Shows t s → Shows (op.text t) s') := by
  cases op with
  | clear color =>
    obtain ⟨s', hs', hshows⟩ := clear_shows s color
    exact ⟨s', hs', hshows.placed, fun _ _ => hshows⟩
  | setColor color =>
    refine ⟨_, rfl, ⟨h.row_lt, h.col_lt, h.hw⟩, fun _ hshows => ?_⟩
    exact ⟨⟨h.row_lt, h.col_lt, h.hw⟩, ⟨hshows.page.row, hshows.page.cells⟩, hshows.col⟩
  | write msg =>
    obtain ⟨s', hs', hplaced⟩ := h.write msg
    refine ⟨s', hs', hplaced, fun _ hshows => ?_⟩
    obtain ⟨s₁, hs₁, hshows'⟩ := write_shows hshows msg
    obtain rfl := Option.some.inj (hs'.symm.trans hs₁)
    exact hshows'
  | backspace =>
    obtain ⟨s', hs', hplaced⟩ := h.backspace
    exact ⟨s', hs', hplaced, fun hne => absurd rfl hne⟩

theorem calls_spec (s : Console) (h : s.Placed) (ops : List ConsoleCall) : ∃ s',
    ops.foldlM call s = some s' ∧ s'.Placed ∧
      (.backspace ∉ ops → Shows t s → Shows (ops.foldl ConsoleCall.text t) s') := by
  induction ops generalizing s t with
  | nil => exact ⟨s, rfl, h, fun _ => id⟩
  | cons op ops ih =>
    obtain ⟨u, hu, hplaced, hshows⟩ := call_spec (t := t) s h op
    obtain ⟨s', hs', hplaced', hshows'⟩ := ih (t := op.text t) u hplaced
    refine ⟨s', ?_, hplaced', fun hno ht => ?_⟩
    · rw [List.foldlM_cons, hu]
      exact hs'
    · rw [List.mem_cons, not_or] at hno
      exact hshows' hno.2 (hshows (Ne.symm hno.1) ht)

/-- **The console shows the last 25 rows of the text.**  After a clear, no call leaves the page, and the
cursor stays on it.  Without a backspace the page has the last rows of what was written. -/
theorem console_shows (s : Console) (color : UInt8) (ops : List ConsoleCall) : ∃ s',
    (.clear color :: ops).foldlM call s = some s' ∧ s'.row.toNat < vgaRows ∧ s'.col.toNat < vgaCols ∧
      (.backspace ∉ ops → Shows (ops.foldl ConsoleCall.text []) s') := by
  obtain ⟨u, hu, hshows⟩ := clear_shows s color
  obtain ⟨s', hs', hplaced, hshows'⟩ := calls_spec u hshows.placed ops
  refine ⟨s', ?_, hplaced.row_lt, hplaced.col_lt, fun hno => hshows' hno hshows⟩
  have hcall : s.call (.clear color) = some u := hu
  rw [List.foldlM_cons, hcall]
  exact hs'

end Console

end Neptune
