import LinuxIsLove.Source.Faults

/-!
# Drawing on text pages

The routines that print compute where a cell is from the address of the video memory, and the page
tables lead from there to memory.  `Drawing.onPage` says what a drawing does when it is made
directly on the text page of a terminal: `run_eq_onPage` shows that it does just that through any
page that leads to the text page, and `onPage_frame` that it changes nothing outside the screen, as
long as the characters it stores are on the screen.  `run_frame` says the same of a drawing through
any page.  `putc_eq` splits `putc_in_terminal` into a character stored and a new line begun.
-/

namespace LinuxIsLove

open Bytes

/-- The text page of a terminal. -/
def pageBase (t : ℤ) : ℤ := video + pageSize * t

/-- The address of a character on the screen of a terminal. -/
def cellAddr (t x y : ℤ) : ℤ := pageBase t + 2 * (numCols * y + x)

/-- The position is on the screen. -/
def OnScreen (x y : ℤ) : Prop := 0 ≤ x ∧ x < numCols ∧ 0 ≤ y ∧ y < numRows

instance (x y : ℤ) : Decidable (OnScreen x y) := inferInstanceAs (Decidable (_ ∧ _))

/-- The page at the address `v` leads to the text page of a terminal. -/
def LeadsTo (tr : ℤ → ℤ) (v t : ℤ) : Prop :=
  ∀ o : ℤ, 0 ≤ o → o < pageSize → tr (v + o) = pageBase t + o

/-- The screen with its cells addressed on the text page itself. -/
def Screen.inPlace (t : ℤ) (s : Screen) : Screen := { s with videoMem := pageBase t }

/-- What is drawn on a screen: characters, a backspace, or characters on a cleared screen. -/
inductive Drawing
  | text (bytes : List UInt8)
  | erase
  | redraw (bytes : List UInt8)

namespace Drawing

def run (tr : ℤ → ℤ) : Drawing → Screen → ScreenMemory → Screen × ScreenMemory
  | .text bytes, s, mem => puts tr bytes (s, mem)
  | .erase, s, mem => backspaceFnc tr s mem
  | .redraw bytes, s, mem => puts tr bytes (clearTerminal tr s mem)

/-- The drawing made directly on the text page of a terminal. -/
def onPage (d : Drawing) (t : ℤ) (s : Screen) (mem : ScreenMemory) : Screen × ScreenMemory :=
  let r := d.run id (s.inPlace t) mem
  ({ r.1 with videoMem := s.videoMem }, r.2)

/-- The characters that the drawing stores are on the screen. -/
def Fits (s : Screen) : Drawing → Prop
  | .text _ => OnScreen s.x s.y
  | .erase => OnScreen s.x s.y ∧ (s.x ≠ 0 ∨ s.y ≠ 0)
  | .redraw _ => True

end Drawing

/-! ### Cells -/

section Cells

variable {tr : ℤ → ℤ} {v t : ℤ}

/-- The number of cells of a screen. -/
def cells : ℤ := numRows * numCols

theorem putCell_leadsTo (h : LeadsTo tr v t) {i : ℤ} (h0 : 0 ≤ i) (hi : i < cells) (c : UInt8)
    (mem : ScreenMemory) : putCell tr v i c mem = putCell id (pageBase t) i c mem := by
  simp only [cells, numRows, numCols] at hi
  have hchar : tr (v + 2 * i) = pageBase t + 2 * i :=
    h (2 * i) (by omega) (by simp only [pageSize]; omega)
  have hattr : tr (v + (2 * i + 1)) = pageBase t + (2 * i + 1) :=
    h (2 * i + 1) (by omega) (by simp only [pageSize]; omega)
  rw [← add_assoc, ← add_assoc] at hattr
  simp only [putCell, hchar, hattr, id]

/-- Cells are set on the text page, if what is read to set them comes from there. -/
theorem putCells_leadsTo (h : LeadsTo tr v t) {c c' : ScreenMemory → ℤ → UInt8} {n : ℕ} {i : ℤ}
    (h0 : 0 ≤ i) (hn : i + n ≤ cells) (hc : ∀ mem j, i ≤ j → j < i + n → c mem j = c' mem j)
    (mem : ScreenMemory) : putCells tr v c n i mem = putCells id (pageBase t) c' n i mem := by
  induction n generalizing i mem with
  | zero => rfl
  | succ n ih =>
    push_cast at hn hc
    rw [putCells, putCells, hc mem i le_rfl (by omega), putCell_leadsTo h h0 (by omega)]
    exact ih (by omega) (by omega) (fun mem j hj hj' => hc mem j (by omega) (by omega)) _

/-- The address is where a byte of the screen at `v` leads. -/
def OwnByte (tr : ℤ → ℤ) (v a : ℤ) : Prop := ∃ o : ℤ, 0 ≤ o ∧ o < 2 * cells ∧ tr (v + o) = a

theorem putCell_frame {a i : ℤ} (ha : ¬ OwnByte tr v a) (h0 : 0 ≤ i) (hi : i < cells) (c : UInt8)
    (mem : ScreenMemory) : putCell tr v i c mem a = mem a := by
  have hchar : a ≠ tr (v + 2 * i) := fun h => ha ⟨2 * i, by omega, by omega, h.symm⟩
  have hattr : a ≠ tr (v + 2 * i + 1) := fun h =>
    ha ⟨2 * i + 1, by omega, by omega, by rw [← add_assoc, ← h]⟩
  rw [putCell, Function.update_of_ne hattr, Function.update_of_ne hchar]

/-- Setting cells of the screen changes bytes of the screen only. -/
theorem putCells_frame {a i : ℤ} (ha : ¬ OwnByte tr v a) {n : ℕ} (h0 : 0 ≤ i)
    (hn : i + n ≤ cells) (c : ScreenMemory → ℤ → UInt8) (mem : ScreenMemory) :
    putCells tr v c n i mem a = mem a := by
  induction n generalizing i mem with
  | zero => rfl
  | succ n ih =>
    push_cast at hn
    rw [putCells, ih (by omega) (by omega), putCell_frame ha h0 (by omega)]

end Cells

/-! ### Characters -/

section Characters

variable {tr : ℤ → ℤ} {v t : ℤ} {s : Screen} {c : UInt8} {a : ℤ}

/-- The rows that a screen keeps when it scrolls, and the row that it clears. -/
theorem scroll_counts : ((((numRows - 1) * numCols).toNat : ℕ) : ℤ) = (numRows - 1) * numCols ∧
    ((numCols.toNat : ℕ) : ℤ) = numCols ∧ (((numRows * numCols).toNat : ℕ) : ℤ) = cells := by
  decide

theorem vertScroll_leadsTo (h : LeadsTo tr v t) (x y : ℤ) (mem : ScreenMemory) :
    vertScrollInTerminal tr ⟨x, y, v⟩ mem = vertScrollInTerminal id ⟨x, y, pageBase t⟩ mem := by
  obtain ⟨hrows, hcols, -⟩ := scroll_counts
  have hcells : (numRows - 1) * numCols + numCols = cells := by decide
  unfold vertScrollInTerminal
  simp only
  generalize ((numRows - 1) * numCols).toNat = n at hrows ⊢
  generalize numCols.toNat = m at hcols ⊢
  -- the row below is still on the screen
  have hread : ∀ (mem : ScreenMemory) (j : ℤ), 0 ≤ j → j < 0 + n →
      mem (tr (v + 2 * (j + numCols))) = mem (id (pageBase t + 2 * (j + numCols))) := by
    intro mem j h0 hj
    rw [hrows] at hj
    simp only [numRows, numCols] at hj
    rw [h (2 * (j + numCols)) (by simp only [numCols]; omega)
      (by simp only [numCols, pageSize]; omega), id]
  rw [putCells_leadsTo h le_rfl (by rw [hrows]; decide) hread mem]
  exact putCells_leadsTo h (by decide) (by rw [hcols, hcells]) (fun _ _ _ _ => rfl) _

theorem vertScroll_frame (ha : ¬ OwnByte tr s.videoMem a) (mem : ScreenMemory) :
    vertScrollInTerminal tr s mem a = mem a := by
  obtain ⟨hrows, hcols, -⟩ := scroll_counts
  have hcells : (numRows - 1) * numCols + numCols = cells := by decide
  unfold vertScrollInTerminal
  generalize ((numRows - 1) * numCols).toNat = n at hrows ⊢
  generalize numCols.toNat = m at hcols ⊢
  rw [putCells_frame ha (by decide) (by rw [hcols, hcells]),
    putCells_frame ha le_rfl (by rw [hrows]; decide)]

theorem clearTerminal_leadsTo (h : LeadsTo tr v t) (x y : ℤ) (mem : ScreenMemory) :
    (clearTerminal tr ⟨x, y, v⟩ mem).2 = (clearTerminal id ⟨x, y, pageBase t⟩ mem).2 := by
  obtain ⟨-, -, hcells⟩ := scroll_counts
  unfold clearTerminal
  simp only
  generalize (numRows * numCols).toNat = n at hcells ⊢
  exact putCells_leadsTo h le_rfl (by rw [hcells, zero_add]) (fun _ _ _ _ => rfl) mem

theorem clearTerminal_frame (ha : ¬ OwnByte tr s.videoMem a) (mem : ScreenMemory) :
    (clearTerminal tr s mem).2 a = mem a := by
  obtain ⟨-, -, hcells⟩ := scroll_counts
  unfold clearTerminal
  simp only
  generalize (numRows * numCols).toNat = n at hcells ⊢
  exact putCells_frame ha le_rfl (by rw [hcells, zero_add]) _ mem

/-- A position on the screen is the number of a cell. -/
theorem OnScreen.cell (h : OnScreen s.x s.y) :
    0 ≤ numCols * s.y + s.x ∧ numCols * s.y + s.x < cells := by
  obtain ⟨hx0, hx, hy0, hy⟩ := h
  simp only [numCols, numRows, cells] at hx hy ⊢
  omega

/-- The end of a line and the column behind a character. -/
theorem nextColumn {x : ℤ} (h0 : 0 ≤ x) (hx : x < numCols) :
    (x + 1).tmod numCols = (if x + 1 > numCols - 1 then 0 else x + 1) ∧
      ((x + 1).tmod numCols).tdiv numCols = 0 := by
  simp only [numCols] at hx ⊢
  rw [Int.tmod_eq_emod_of_nonneg (by omega), Int.tdiv_eq_ediv_of_nonneg (by omega)]
  split_ifs <;> omega

/-- Go to the start of the next line, and scroll below the last one. -/
def newLine (tr : ℤ → ℤ) (s : Screen) (mem : ScreenMemory) : Screen × ScreenMemory :=
  if s.y + 1 > numRows - 1 then
    ({ s with x := 0, y := numRows - 1 }, vertScrollInTerminal tr s mem)
  else ({ s with x := 0, y := s.y + 1 }, mem)

@[simp] theorem newLine_videoMem (tr : ℤ → ℤ) (s : Screen) (mem : ScreenMemory) :
    (newLine tr s mem).1.videoMem = s.videoMem := by
  unfold newLine
  split_ifs <;> rfl

@[simp] theorem newLine_x (tr : ℤ → ℤ) (s : Screen) (mem : ScreenMemory) :
    (newLine tr s mem).1.x = 0 := by
  unfold newLine
  split_ifs <;> rfl

theorem newLine_y (tr : ℤ → ℤ) (s : Screen) (mem : ScreenMemory) :
    (newLine tr s mem).1.y = min (s.y + 1) (numRows - 1) := by
  unfold newLine
  split_ifs with hlast
  · exact (min_eq_right (le_of_lt hlast)).symm
  · exact (min_eq_left (not_lt.1 hlast)).symm

/-- Both kinds of line end are a new line. -/
theorem putc_break (hc : c = 10 ∨ c = 13) (tr : ℤ → ℤ) (s : Screen) (mem : ScreenMemory) :
    putcInTerminal tr c s mem = newLine tr s mem := by
  simp only [putcInTerminal, if_pos hc, newLine]
  rfl

/-- Any other character is stored at the cursor; behind the last column a new line begins. -/
theorem putc_eq (hs : OnScreen s.x s.y) (hc : ¬ (c = 10 ∨ c = 13)) (tr : ℤ → ℤ)
    (mem : ScreenMemory) :
    putcInTerminal tr c s mem =
      if s.x + 1 = numCols then
        newLine tr s (putCell tr s.videoMem (numCols * s.y + s.x) c mem)
      else ({ s with x := s.x + 1 }, putCell tr s.videoMem (numCols * s.y + s.x) c mem) := by
  obtain ⟨hx0, hx, hy0, hy⟩ := hs
  obtain ⟨hmod, hdiv⟩ := nextColumn hx0 hx
  have hrow : ∀ y, 0 ≤ y → ¬ y > numRows - 1 → y.tmod numRows = y := by
    intro y h0 hle
    simp only [numRows] at hle ⊢
    rw [Int.tmod_eq_emod_of_nonneg h0]
    omega
  by_cases hlast : s.x + 1 = numCols
  · have hend : s.x + 1 > numCols - 1 := by omega
    rw [if_pos hend] at hmod
    rw [hmod] at hdiv
    simp only [putcInTerminal, if_neg hc, hdiv, hmod, add_zero, newLine, if_pos hlast, if_pos hend]
    split_ifs with hbottom
    · rfl
    · rw [hrow _ (by omega) hbottom]
  · have hmid : ¬ s.x + 1 > numCols - 1 := by omega
    have hfit : ¬ s.y > numRows - 1 := by omega
    rw [if_neg hmid] at hmod
    rw [hmod] at hdiv
    simp only [putcInTerminal, if_neg hc, hdiv, hmod, add_zero, if_neg hlast, if_neg hmid,
      if_neg hfit, hrow _ hy0 hfit]

theorem newLine_cursor (h0 : 0 ≤ s.y) (h : s.y < numRows) (tr : ℤ → ℤ) (mem : ScreenMemory) :
    OnScreen (newLine tr s mem).1.x (newLine tr s mem).1.y := by
  rw [newLine_x, newLine_y]
  simp only [OnScreen, numRows, numCols] at h ⊢
  omega

/-- The cursor stays on the screen. -/
theorem putc_cursor (hs : OnScreen s.x s.y) (tr : ℤ → ℤ) (c : UInt8) (mem : ScreenMemory) :
    OnScreen (putcInTerminal tr c s mem).1.x (putcInTerminal tr c s mem).1.y := by
  have hs' := hs
  obtain ⟨hx0, hx, hy0, hy⟩ := hs'
  by_cases hc : c = 10 ∨ c = 13
  · rw [putc_break hc]
    exact newLine_cursor hy0 hy tr mem
  · rw [putc_eq hs hc]
    split_ifs with hlast
    · exact newLine_cursor hy0 hy tr _
    · refine ⟨?_, ?_, hy0, hy⟩
      · show 0 ≤ s.x + 1
        omega
      · show s.x + 1 < numCols
        omega

theorem putc_videoMem (tr : ℤ → ℤ) (c : UInt8) (s : Screen) (mem : ScreenMemory) :
    (putcInTerminal tr c s mem).1.videoMem = s.videoMem := by
  simp only [putcInTerminal]
  split_ifs <;> rfl

/-- **A character on the screen is drawn on the text page.** -/
theorem putc_leadsTo (h : LeadsTo tr s.videoMem t) (hs : OnScreen s.x s.y) (c : UInt8)
    (mem : ScreenMemory) :
    putcInTerminal id c (s.inPlace t) mem =
      ((putcInTerminal tr c s mem).1.inPlace t, (putcInTerminal tr c s mem).2) := by
  have hcell := hs.cell
  obtain ⟨x, y, v⟩ := s
  have h : LeadsTo tr v t := h
  change putcInTerminal id c ⟨x, y, pageBase t⟩ mem = _
  simp only [putcInTerminal, putCell_leadsTo h hcell.1 hcell.2, Screen.inPlace,
    vertScroll_leadsTo h]
  split_ifs <;> rfl

/-- A character on the screen changes nothing elsewhere. -/
theorem putc_frame (ha : ¬ OwnByte tr s.videoMem a) (hs : OnScreen s.x s.y) (c : UInt8)
    (mem : ScreenMemory) : (putcInTerminal tr c s mem).2 a = mem a := by
  have hcell : putCell tr s.videoMem (numCols * s.y + s.x) c mem a = mem a :=
    putCell_frame ha hs.cell.1 hs.cell.2 c mem
  -- a scroll does not look at the position
  have hscroll : ∀ x y mem, vertScrollInTerminal tr { s with x := x, y := y } mem a = mem a :=
    fun _ _ mem => vertScroll_frame ha mem
  simp only [putcInTerminal]
  split_ifs
  · exact hscroll _ _ mem
  · rfl
  · exact (hscroll _ _ _).trans hcell
  · exact hcell
  · exact (hscroll _ _ _).trans hcell
  · exact hcell

end Characters

/-! ### Whole drawings -/

section Drawings

variable {tr : ℤ → ℤ} {t a : ℤ} {s : Screen} {d : Drawing}

theorem puts_cons (tr : ℤ → ℤ) (c : UInt8) (bytes : List UInt8) (r : Screen × ScreenMemory) :
    puts tr (c :: bytes) r = puts tr bytes (putcInTerminal tr c r.1 r.2) := rfl

theorem puts_append (tr : ℤ → ℤ) (bytes more : List UInt8) (r : Screen × ScreenMemory) :
    puts tr (bytes ++ more) r = puts tr more (puts tr bytes r) := List.foldl_append

theorem puts_videoMem (tr : ℤ → ℤ) (bytes : List UInt8) (r : Screen × ScreenMemory) :
    (puts tr bytes r).1.videoMem = r.1.videoMem := by
  induction bytes generalizing r with
  | nil => rfl
  | cons c bytes ih => rw [puts_cons, ih, putc_videoMem]

theorem puts_cursor {r : Screen × ScreenMemory} (hs : OnScreen r.1.x r.1.y) (tr : ℤ → ℤ)
    (bytes : List UInt8) : OnScreen (puts tr bytes r).1.x (puts tr bytes r).1.y := by
  induction bytes generalizing r with
  | nil => exact hs
  | cons c bytes ih => exact ih (putc_cursor hs tr c r.2)

theorem puts_leadsTo {r : Screen × ScreenMemory} (h : LeadsTo tr r.1.videoMem t)
    (hs : OnScreen r.1.x r.1.y) (bytes : List UInt8) :
    puts id bytes (r.1.inPlace t, r.2) =
      ((puts tr bytes r).1.inPlace t, (puts tr bytes r).2) := by
  induction bytes generalizing r with
  | nil => rfl
  | cons c bytes ih =>
    rw [puts_cons, puts_cons, putc_leadsTo h hs]
    exact ih (by rwa [putc_videoMem]) (putc_cursor hs tr c r.2)

theorem puts_frame {r : Screen × ScreenMemory} (ha : ¬ OwnByte tr r.1.videoMem a)
    (hs : OnScreen r.1.x r.1.y) (bytes : List UInt8) : (puts tr bytes r).2 a = r.2 a := by
  induction bytes generalizing r with
  | nil => rfl
  | cons c bytes ih =>
    rw [puts_cons, ih (by rwa [putc_videoMem]) (putc_cursor hs tr c r.2), putc_frame ha hs]

/-- The cell that a backspace clears, unless the cursor is in the top left corner. -/
theorem backspace_cell (hs : OnScreen s.x s.y) (hcorner : s.x ≠ 0 ∨ s.y ≠ 0) :
    if s.x = 0 then OnScreen (numCols - 1) (s.y - 1) else OnScreen (s.x - 1) s.y := by
  obtain ⟨hx0, hx, hy0, hy⟩ := hs
  simp only [OnScreen, numCols, numRows] at hx hy ⊢
  split_ifs <;> omega

theorem backspace_videoMem (tr : ℤ → ℤ) (s : Screen) (mem : ScreenMemory) :
    (backspaceFnc tr s mem).1.videoMem = s.videoMem := by
  simp only [backspaceFnc]
  split_ifs <;> exact putc_videoMem _ _ _ _

/-- A backspace clears the cell before the cursor and moves there. -/
theorem backspace_eq (hs : OnScreen s.x s.y) (hcorner : s.x ≠ 0 ∨ s.y ≠ 0) (tr : ℤ → ℤ)
    (mem : ScreenMemory) :
    backspaceFnc tr s mem =
      ({ s with
          x := if s.x = 0 then numCols - 1 else s.x - 1
          y := if s.x = 0 then s.y - 1 else s.y },
        putCell tr s.videoMem (numCols * s.y + s.x - 1) 32 mem) := by
  have hcell := backspace_cell hs hcorner
  have hspace : ¬ ((32 : UInt8) = 10 ∨ (32 : UInt8) = 13) := by decide
  simp only [backspaceFnc]
  by_cases hx : s.x = 0
  · -- the blank is put in the last column of the line above, and a new line follows
    rw [if_pos hx] at hcell
    obtain ⟨-, -, -, hy⟩ := hs
    have hputc := putc_eq (s := { s with x := numCols - 1, y := s.y - 1 }) hcell hspace tr mem
    rw [if_pos (sub_add_cancel _ _)] at hputc
    have hroom : ¬ s.y > numRows - 1 := by omega
    have hnumber : numCols * (s.y - 1) + (numCols - 1) = numCols * s.y + s.x - 1 := by
      rw [hx]
      ring
    simp only [hputc, newLine, sub_add_cancel, if_neg hroom, if_pos hx, hnumber]
  · rw [if_neg hx] at hcell
    obtain ⟨-, hx1, -, -⟩ := hs
    have hputc := putc_eq (s := { s with x := s.x - 1 }) hcell hspace tr mem
    rw [if_neg (show ¬ s.x - 1 + 1 = numCols by omega)] at hputc
    simp only [hputc, if_neg hx, sub_add_cancel, add_sub_assoc]

theorem backspace_cursor (hs : OnScreen s.x s.y) (hcorner : s.x ≠ 0 ∨ s.y ≠ 0) (tr : ℤ → ℤ)
    (mem : ScreenMemory) :
    OnScreen (backspaceFnc tr s mem).1.x (backspaceFnc tr s mem).1.y := by
  rw [backspace_eq hs hcorner]
  obtain ⟨hx0, hx, hy0, hy⟩ := hs
  simp only [OnScreen, numCols, numRows] at hx hy ⊢
  split_ifs <;> omega

theorem backspace_leadsTo (h : LeadsTo tr s.videoMem t) (hs : OnScreen s.x s.y)
    (hcorner : s.x ≠ 0 ∨ s.y ≠ 0) (mem : ScreenMemory) :
    backspaceFnc id (s.inPlace t) mem =
      ((backspaceFnc tr s mem).1.inPlace t, (backspaceFnc tr s mem).2) := by
  have hcell := backspace_cell hs hcorner
  simp only [backspaceFnc]
  split_ifs at hcell ⊢ with hx hx' hx'
  · have hputc := putc_leadsTo (s := { s with x := numCols - 1, y := s.y - 1 }) h hcell 32 mem
    simp only [Screen.inPlace] at hputc ⊢
    rw [hputc]
  · exact absurd hx hx'
  · exact absurd hx' hx
  · have hputc := putc_leadsTo (s := { s with x := s.x - 1 }) h hcell 32 mem
    simp only [Screen.inPlace] at hputc ⊢
    rw [hputc]

theorem backspace_frame (ha : ¬ OwnByte tr s.videoMem a) (hs : OnScreen s.x s.y)
    (hcorner : s.x ≠ 0 ∨ s.y ≠ 0) (mem : ScreenMemory) : (backspaceFnc tr s mem).2 a = mem a := by
  rw [backspace_eq hs hcorner]
  obtain ⟨hlow, hhigh⟩ := hs.cell
  refine putCell_frame ha ?_ (by omega) 32 mem
  obtain ⟨hx0, -, hy0, -⟩ := hs
  simp only [numCols] at hlow ⊢
  omega

theorem onScreen_origin : OnScreen 0 0 := by decide

theorem run_videoMem (tr : ℤ → ℤ) (d : Drawing) (s : Screen) (mem : ScreenMemory) :
    (d.run tr s mem).1.videoMem = s.videoMem := by
  cases d with
  | text bytes => exact puts_videoMem tr bytes (s, mem)
  | erase => exact backspace_videoMem tr s mem
  | redraw bytes => exact puts_videoMem tr bytes _

/-- **A drawing whose characters are on the screen leaves the cursor on the screen.** -/
theorem run_cursor (hfit : d.Fits s) (tr : ℤ → ℤ) (mem : ScreenMemory) :
    OnScreen (d.run tr s mem).1.x (d.run tr s mem).1.y := by
  cases d with
  | text bytes => exact puts_cursor (r := (s, mem)) hfit tr bytes
  | erase => exact backspace_cursor hfit.1 hfit.2 tr mem
  | redraw bytes => exact puts_cursor (r := clearTerminal tr s mem) onScreen_origin tr bytes

theorem run_inPlace (h : LeadsTo tr s.videoMem t) (hfit : d.Fits s) (mem : ScreenMemory) :
    d.run id (s.inPlace t) mem = ((d.run tr s mem).1.inPlace t, (d.run tr s mem).2) := by
  cases d with
  | text bytes => exact puts_leadsTo (r := (s, mem)) h hfit bytes
  | erase => exact backspace_leadsTo h hfit.1 hfit.2 mem
  | redraw bytes =>
    have hclear : clearTerminal id (s.inPlace t) mem =
        ((clearTerminal tr s mem).1.inPlace t, (clearTerminal tr s mem).2) := by
      have hmem := clearTerminal_leadsTo h s.x s.y mem
      simp only [clearTerminal, Screen.inPlace] at hmem ⊢
      rw [hmem]
    have hputs := puts_leadsTo (r := clearTerminal tr s mem) h onScreen_origin bytes
    rw [← hclear] at hputs
    exact hputs

/-- **Through a page that leads to the text page, a drawing is made on the text page.** -/
theorem run_eq_onPage (h : LeadsTo tr s.videoMem t) (hfit : d.Fits s) (mem : ScreenMemory) :
    d.run tr s mem = d.onPage t s mem := by
  have hvideo := run_videoMem tr d s mem
  rw [Drawing.onPage, run_inPlace h hfit]
  simp only [Screen.inPlace, ← hvideo]

/-- **A drawing changes no byte that is not one of the screen.** -/
theorem run_frame (hfit : d.Fits s) (ha : ¬ OwnByte tr s.videoMem a) (mem : ScreenMemory) :
    (d.run tr s mem).2 a = mem a := by
  cases d with
  | text bytes => exact puts_frame (r := (s, mem)) ha hfit bytes
  | erase => exact backspace_frame ha hfit.1 hfit.2 mem
  | redraw bytes =>
    have hputs := puts_frame (r := clearTerminal tr s mem) ha onScreen_origin bytes
    exact hputs.trans (clearTerminal_frame ha mem)

/-- The address lies on the screen that starts at `base`. -/
def InScreen (base a : ℤ) : Prop := base ≤ a ∧ a < base + 2 * cells

theorem inScreen_of_ownByte {v : ℤ} (h : OwnByte id v a) : InScreen v a := by
  obtain ⟨o, h0, ho, rfl⟩ := h
  simp only [InScreen, id]
  omega

/-- On the text page itself, a drawing changes nothing outside the screen. -/
theorem onPage_frame (hfit : d.Fits s) (ha : ¬ InScreen (pageBase t) a) (mem : ScreenMemory) :
    (d.onPage t s mem).2 a = mem a := by
  have hown : ¬ OwnByte id (s.inPlace t).videoMem a := fun h => ha (inScreen_of_ownByte h)
  have hfit' : d.Fits (s.inPlace t) := by
    cases d <;> exact hfit
  exact run_frame hfit' hown mem

/-- `terminal_write` prints its bytes one after the other. -/
theorem terminalWriteLoop_eq (tr : ℤ → ℤ) (buf : Memory) (n i : ℕ) (r : Screen × ScreenMemory) :
    terminalWriteLoop tr buf n i r = puts tr ((List.range' i n).map buf) r := by
  induction n generalizing i r with
  | zero => rfl
  | succ n ih => rw [terminalWriteLoop, ih, List.range'_succ, List.map_cons, puts_cons]

end Drawings

end LinuxIsLove
