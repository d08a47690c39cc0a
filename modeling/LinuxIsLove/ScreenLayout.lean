import LinuxIsLove.Foundation.TextLayout
import LinuxIsLove.ScreenCells

/-!
# What a screen shows

A text that is printed on a cleared screen is laid out in rows of 80 columns, and the screen shows
the last 25 of them (`text_screen`).  Storing a character puts it behind the last row; a new line
appends an empty row, and when the screen is full already the scroll makes room for it.
-/

namespace LinuxIsLove

open TextLayout

/-- The characters that end a line. -/
def isBreak (c : UInt8) : Bool := decide (c = 10 ∨ c = 13)

/-- The rows of a text on a screen with 80 columns. -/
def screenRows (text : List UInt8) : List (List UInt8) := rows 80 isBreak text

/-- The cells of the screen hold the last 25 rows, padded with blanks. -/
def HoldsRows (tr : ℤ → ℤ) (v : ℤ) (mem : ScreenMemory) (rows : List (List UInt8)) : Prop :=
  ∀ x y : ℕ, x < 80 → y < 25 →
    cellAt tr v mem (numCols * y + x) = (shown 25 32 rows y x, attrib)

/-- The screen shows the last rows of a layout, with the cursor behind the last character. -/
structure Displays (tr : ℤ → ℤ) (rows : List (List UInt8)) (r : Screen × ScreenMemory) : Prop where
  x : r.1.x = (rows.getLastD []).length
  y : r.1.y = (lastRows 25 rows).length - 1
  holds : HoldsRows tr r.1.videoMem r.2 rows

/-- `clear` clears the console as `clear_terminal` clears a screen. -/
def clear (tr : ℤ → ℤ) (console : Screen) (mem : ScreenMemory) : Screen × ScreenMemory :=
  clearTerminal tr console mem

/-- Print characters on a screen, one after the other. -/
def putText (tr : ℤ → ℤ) (text : List UInt8) (r : Screen × ScreenMemory) : Screen × ScreenMemory :=
  text.foldl (fun r c => putcInTerminal tr c r.1 r.2) r

section Layout

variable {tr : ℤ → ℤ} {v : ℤ} {s : Screen} {mem : ScreenMemory} {pre rows : List (List UInt8)}
  {row : List UInt8} {c : UInt8}

/-- The row and the column of a place on the screen are the position of a cell. -/
theorem onScreen_place {x y : ℕ} (hx : x < 80) (hy : y < 25) : OnScreen x y := by
  simp only [OnScreen, numCols, numRows]
  omega

/-- The number of a cell. -/
theorem cell_place {x y : ℕ} (hx : x < 80) (hy : y < 25) :
    0 ≤ numCols * y + x ∧ numCols * y + x < cells := by
  simp only [numCols, numRows, cells]
  omega

/-- A character stored behind the last row. -/
theorem holds_putCell (h : OwnCells tr v) (hmem : HoldsRows tr v mem (pre ++ [row]))
    (hrow : row.length < 80) {y : ℕ} (hy : y = min (pre.length + 1) 25 - 1) (c : UInt8) :
    HoldsRows tr v (putCell tr v (numCols * y + row.length) c mem) (pre ++ [row ++ [c]]) := by
  intro x' y' hx' hy'
  have hcell := cell_place hx' hy'
  have hcursor := cell_place hrow (show y < 25 by omega)
  rw [cellAt_putCell h hcursor.1 hcursor.2 hcell.1 hcell.2, hmem x' y' hx' hy',
    shown_append_char (by decide) pre row c hy' x']
  by_cases hplace : y' = y ∧ x' = row.length
  · have heq : (numCols * y' + x' : ℤ) = numCols * y + row.length := by
      rw [hplace.1, hplace.2]
    rw [if_pos heq, if_pos (hy ▸ hplace)]
  · have hne : (numCols * y' + x' : ℤ) ≠ numCols * y + row.length := by
      simp only [numCols]
      omega
    rw [if_neg hne, if_neg (hy ▸ hplace)]

/-- A new line appends an empty row. -/
theorem displays_newLine (h : OwnCells tr s.videoMem) (hmem : HoldsRows tr s.videoMem mem rows)
    (hrows : rows ≠ []) (hy : s.y = (lastRows 25 rows).length - 1) :
    Displays tr (rows ++ [[]]) (newLine tr s mem) := by
  have hlen := List.length_pos_of_ne_nil hrows
  rw [lastRows_length] at hy
  refine ⟨by simp, ?_, fun x' y' hx' hy' => ?_⟩
  · rw [newLine_y, lastRows_length, hy, List.length_append, List.length_singleton]
    simp only [numRows]
    omega
  · have hcell := cell_place hx' hy'
    rw [newLine_videoMem, shown_append_row rows hy' x', newLine]
    by_cases hfull : 25 ≤ rows.length
    · -- the screen is full, and the rows move up
      have hbottom : s.y + 1 > numRows - 1 := by
        simp only [numRows]
        omega
      rw [if_pos hbottom, if_pos hfull, cellAt_vertScroll h hcell.1 hcell.2]
      by_cases hnext : y' + 1 < 25
      · have habove : numCols * y' + x' + numCols < cells := by
          simp only [numCols, numRows, cells]
          omega
        have hbelow := hmem x' (y' + 1) hx' hnext
        push_cast at hbelow
        rw [if_pos habove, if_pos hnext,
          show numCols * (y' : ℤ) + x' + numCols = numCols * (y' + 1) + x' by ring, hbelow]
      · have hlast : ¬ numCols * y' + x' + numCols < cells := by
          simp only [numCols, numRows, cells]
          omega
        rw [if_neg hlast, if_neg hnext]
    · have hroom : ¬ s.y + 1 > numRows - 1 := by
        simp only [numRows]
        omega
      rw [if_neg hroom, if_neg hfull]
      exact hmem x' y' hx' hy'

/-- The cursor behind the last row of a layout. -/
theorem Displays.cursor {r : Screen × ScreenMemory} (h : Displays tr (pre ++ [row]) r) :
    r.1.x = row.length ∧ r.1.y = (min (pre.length + 1) 25 - 1 : ℕ) := by
  refine ⟨by simpa using h.x, ?_⟩
  rw [h.y, lastRows_length, List.length_append, List.length_singleton]
  omega

/-- What a screen shows while a text is printed: its current row is not full. -/
def Printing (tr : ℤ → ℤ) (v : ℤ) (pre : List (List UInt8)) (row : List UInt8)
    (r : Screen × ScreenMemory) : Prop :=
  row.length < 80 ∧ r.1.videoMem = v ∧ Displays tr (pre ++ [row]) r

theorem Printing.onScreen {r : Screen × ScreenMemory} (hr : Printing tr v pre row r) :
    OnScreen r.1.x r.1.y := by
  obtain ⟨hrow, -, hshow⟩ := hr
  obtain ⟨hx, hy⟩ := hshow.cursor
  rw [hx, hy]
  exact onScreen_place hrow (by omega)

/-- A line end. -/
theorem printing_break (h : OwnCells tr v) {r : Screen × ScreenMemory}
    (hr : Printing tr v pre row r) (hc : isBreak c = true) :
    Printing tr v (pre ++ [row]) [] (putcInTerminal tr c r.1 r.2) := by
  obtain ⟨-, rfl, hshow⟩ := hr
  rw [putc_break (of_decide_eq_true hc)]
  exact ⟨by decide, newLine_videoMem tr r.1 r.2,
    displays_newLine h hshow.holds (by simp) hshow.y⟩

/-- What any other character stores. -/
theorem holds_char (h : OwnCells tr v) {r : Screen × ScreenMemory}
    (hr : Printing tr v pre row r) (c : UInt8) :
    HoldsRows tr v (putCell tr v (numCols * r.1.y + r.1.x) c r.2) (pre ++ [row ++ [c]]) := by
  obtain ⟨hrow, rfl, hshow⟩ := hr
  obtain ⟨hx, hy⟩ := hshow.cursor
  rw [hx, hy]
  exact holds_putCell h hshow.holds hrow rfl c

/-- A character in the last column. -/
theorem printing_fill (h : OwnCells tr v) {r : Screen × ScreenMemory}
    (hr : Printing tr v pre row r) (hc : ¬ isBreak c = true) (hfull : row.length + 1 = 80) :
    Printing tr v (pre ++ [row ++ [c]]) [] (putcInTerminal tr c r.1 r.2) := by
  have hmem := holds_char h hr c
  have hs := hr.onScreen
  obtain ⟨-, rfl, hshow⟩ := hr
  have hx : r.1.x + 1 = numCols := by
    rw [hshow.cursor.1]
    simp only [numCols]
    exact_mod_cast hfull
  have hy : r.1.y = (lastRows 25 (pre ++ [row ++ [c]])).length - 1 := by
    rw [hshow.y]
    simp only [lastRows_length, List.length_append, List.length_singleton]
  rw [putc_eq hs (fun hc' => hc (decide_eq_true hc')), if_pos hx]
  exact ⟨by decide, newLine_videoMem tr r.1 _, displays_newLine h hmem (by simp) hy⟩

/-- A character with room behind it. -/
theorem printing_char (h : OwnCells tr v) {r : Screen × ScreenMemory}
    (hr : Printing tr v pre row r) (hc : ¬ isBreak c = true) (hroom : row.length + 1 ≠ 80) :
    Printing tr v pre (row ++ [c]) (putcInTerminal tr c r.1 r.2) := by
  have hmem := holds_char h hr c
  have hs := hr.onScreen
  obtain ⟨hrow, rfl, hshow⟩ := hr
  have hx : r.1.x + 1 ≠ numCols := by
    rw [hshow.cursor.1]
    simp only [numCols]
    exact_mod_cast hroom
  rw [putc_eq hs (fun hc' => hc (decide_eq_true hc')), if_neg hx]
  refine ⟨by simp; omega, rfl, ⟨?_, ?_, hmem⟩⟩
  · simp [hshow.cursor.1]
  · show r.1.y = _
    rw [hshow.y]
    simp only [lastRows_length, List.length_append, List.length_singleton]

/-- A cleared screen shows a layout with nothing in it. -/
theorem printing_clear (h : OwnCells tr s.videoMem) (mem : ScreenMemory) :
    Printing tr s.videoMem [] [] (clearTerminal tr s mem) := by
  refine ⟨by decide, rfl, ⟨rfl, rfl, fun x' y' hx' hy' => ?_⟩⟩
  have hcell := cell_place hx' hy'
  have hblank : shown 25 (32 : UInt8) [[]] y' x' = 32 := by
    rw [shown_eq]
    cases y' <;> simp
  rw [List.nil_append, hblank]
  exact cellAt_clearTerminal h hcell.1 hcell.2 mem

/-- **A screen shows the layout of the text that is printed on it.**  From a cleared screen on, its
cells hold the last 25 rows of the text, padded with blanks, and the cursor is behind the last
character; the console does the same. -/
theorem text_screen (h : OwnCells tr s.videoMem) (mem : ScreenMemory) (text : List UInt8) :
    Displays tr (screenRows text) (putText tr text (clearTerminal tr s mem)) ∧
      Displays tr (screenRows text) (puts tr text (clear tr s mem)) := by
  have hshow : Displays tr (screenRows text) (putText tr text (clearTerminal tr s mem)) := by
    obtain ⟨pre', row', heq, -, -, hdisplays⟩ :=
      rowsFrom_rule (w := 80) (R := Printing tr s.videoMem)
        (f := fun c r => putcInTerminal tr c r.1 r.2)
        (fun _ _ _ _ hr hc => printing_break h hr hc)
        (fun _ _ _ _ hr hc hfull => printing_fill h hr hc hfull)
        (fun _ _ _ _ hr hc hroom => printing_char h hr hc hroom) (printing_clear h mem) text
    have hrows : screenRows text = pre' ++ [row'] := heq
    rw [hrows]
    exact hdisplays
  exact ⟨hshow, hshow⟩

end Layout

/-- Two lines on the screen of a terminal whose memory is addressed directly. -/
theorem text_screen_kybdInit :
    Displays id (screenRows [104, 105, 10, 33])
        (putText id [104, 105, 10, 33]
          (clearTerminal id (kybdInit video).screen fun _ => 0)) ∧
      Displays id (screenRows [104, 105, 10, 33])
        (puts id [104, 105, 10, 33] (clear id (kybdInit video).screen fun _ => 0)) :=
  text_screen (ownCells_id _) (fun _ => 0) [104, 105, 10, 33]

end LinuxIsLove
