import LinuxIsLove.Drawing

/-!
# The cells of a screen

The bytes of a text page are distinct bytes of memory (`OwnCells`), so a screen can be described
cell by cell: `cellAt` is the character and the attribute of a cell.  Storing a character, clearing
and scrolling each have a lemma that says what a cell is afterwards.
-/

namespace LinuxIsLove

/-- The bytes of the screen at `v` are distinct bytes of memory. -/
def OwnCells (tr : ℤ → ℤ) (v : ℤ) : Prop :=
  ∀ o o' : ℤ, 0 ≤ o → o < 2 * cells → 0 ≤ o' → o' < 2 * cells → tr (v + o) = tr (v + o') → o = o'

theorem ownCells_id (v : ℤ) : OwnCells id v := by
  intro o o' _ _ _ _ h
  simpa using h

/-- The page of a terminal leads to distinct bytes. -/
theorem ownCells_of_leadsTo {tr : ℤ → ℤ} {v t : ℤ} (h : LeadsTo tr v t) : OwnCells tr v := by
  intro o o' h0 ho h0' ho' heq
  simp only [cells, numRows, numCols] at ho ho'
  rw [h o h0 (by simp only [pageSize]; omega), h o' h0' (by simp only [pageSize]; omega)] at heq
  omega

/-- The character and the attribute of the cell with the number `i`. -/
def cellAt (tr : ℤ → ℤ) (v : ℤ) (mem : ScreenMemory) (i : ℤ) : UInt8 × UInt8 :=
  (mem (tr (v + 2 * i)), mem (tr (v + 2 * i + 1)))

section Cells

variable {tr : ℤ → ℤ} {v : ℤ}

theorem cellAt_putCell (h : OwnCells tr v) {i j : ℤ} (hi0 : 0 ≤ i) (hi : i < cells) (hj0 : 0 ≤ j)
    (hj : j < cells) (c : UInt8) (mem : ScreenMemory) :
    cellAt tr v (putCell tr v i c mem) j = if j = i then (c, attrib) else cellAt tr v mem j := by
  have hne : ∀ o o', 0 ≤ o → o < 2 * cells → 0 ≤ o' → o' < 2 * cells → o ≠ o' →
      tr (v + o) ≠ tr (v + o') := fun o o' h1 h2 h3 h4 h5 h6 => h5 (h o o' h1 h2 h3 h4 h6)
  have hodd : tr (v + 2 * j) ≠ tr (v + 2 * i + 1) := by
    rw [add_assoc]
    exact hne _ _ (by omega) (by omega) (by omega) (by omega) (by omega)
  have hodd' : tr (v + 2 * j + 1) ≠ tr (v + 2 * i) := by
    rw [add_assoc]
    exact hne _ _ (by omega) (by omega) (by omega) (by omega) (by omega)
  simp only [cellAt, putCell]
  rw [Function.update_of_ne hodd]
  by_cases hji : j = i
  · subst hji
    rw [if_pos rfl, Function.update_self, Function.update_self]
  · have hchar : tr (v + 2 * j) ≠ tr (v + 2 * i) :=
      hne _ _ (by omega) (by omega) (by omega) (by omega) (by omega)
    have hattr : tr (v + 2 * j + 1) ≠ tr (v + 2 * i + 1) := by
      rw [add_assoc, add_assoc]
      exact hne _ _ (by omega) (by omega) (by omega) (by omega) (by omega)
    rw [if_neg hji, Function.update_of_ne hchar, Function.update_of_ne hattr,
      Function.update_of_ne hodd']

/-- Cells are set one after the other, each to what is read from itself or from cells behind it:
what is read there has not been changed before. -/
theorem cellAt_putCells (h : OwnCells tr v) {c : ScreenMemory → ℤ → UInt8} {n : ℕ} {i j : ℤ}
    (hc : ∀ mem mem' j, 0 ≤ j → j < i + n →
      (∀ l, j ≤ l → l < cells → cellAt tr v mem' l = cellAt tr v mem l) → c mem' j = c mem j)
    (hi0 : 0 ≤ i) (hn : i + n ≤ cells) (hj0 : 0 ≤ j) (hj : j < cells) (mem : ScreenMemory) :
    cellAt tr v (putCells tr v c n i mem) j =
      if i ≤ j ∧ j < i + n then (c mem j, attrib) else cellAt tr v mem j := by
  induction n generalizing i mem with
  | zero => rw [if_neg (by push_cast; omega), putCells]
  | succ n ih =>
    push_cast at hn hc
    have hfirst : ∀ l, 0 ≤ l → l < cells →
        cellAt tr v (putCell tr v i (c mem i) mem) l =
          if l = i then (c mem i, attrib) else cellAt tr v mem l :=
      fun l hl0 hl => cellAt_putCell h hi0 (by omega) hl0 hl (c mem i) mem
    have hrest := ih (fun mem mem' j h0 hlt => hc mem mem' j h0 (by omega))
      (by omega : 0 ≤ i + 1) (by omega) (putCell tr v i (c mem i) mem)
    rw [putCells, hrest, hfirst j hj0 hj]
    push_cast
    by_cases hji : j = i
    · subst hji
      rw [if_neg (by omega), if_pos rfl, if_pos (by omega)]
    · by_cases hin : i + 1 ≤ j ∧ j < i + 1 + n
      · have hread : c (putCell tr v i (c mem i) mem) j = c mem j := by
          refine hc _ _ j hj0 (by omega) fun l hl hl' => ?_
          rw [hfirst l (by omega) hl', if_neg (by omega)]
        rw [if_pos hin, if_pos (by omega), hread]
      · rw [if_neg hin, if_neg hji, if_neg (by omega)]

/-- The screen is blank after it was cleared. -/
theorem cellAt_clearTerminal {s : Screen} (h : OwnCells tr s.videoMem) {j : ℤ} (hj0 : 0 ≤ j)
    (hj : j < cells) (mem : ScreenMemory) :
    cellAt tr s.videoMem (clearTerminal tr s mem).2 j = (32, attrib) := by
  obtain ⟨-, -, hcells⟩ := scroll_counts
  unfold clearTerminal
  simp only
  generalize (numRows * numCols).toNat = n at hcells ⊢
  rw [cellAt_putCells h (fun _ _ _ _ _ _ => rfl) le_rfl (by omega) hj0 hj, if_pos (by omega)]

/-- A scroll moves every row up and clears the last one. -/
theorem cellAt_vertScroll {s : Screen} (h : OwnCells tr s.videoMem) {j : ℤ} (hj0 : 0 ≤ j)
    (hj : j < cells) (mem : ScreenMemory) :
    cellAt tr s.videoMem (vertScrollInTerminal tr s mem) j =
      (if j + numCols < cells then (cellAt tr s.videoMem mem (j + numCols)).1 else 32,
        attrib) := by
  obtain ⟨hrows, hcols, -⟩ := scroll_counts
  have hcells : (numRows - 1) * numCols + numCols = cells := by decide
  have hcols0 : 0 < numCols := by decide
  have hrows0 : 0 ≤ (numRows - 1) * numCols := by decide
  unfold vertScrollInTerminal
  generalize ((numRows - 1) * numCols).toNat = n at hrows ⊢
  generalize numCols.toNat = m at hcols ⊢
  have hread : ∀ (mem mem' : ScreenMemory) (j : ℤ), 0 ≤ j → j < 0 + n →
      (∀ l, j ≤ l → l < cells →
        cellAt tr s.videoMem mem' l = cellAt tr s.videoMem mem l) →
      mem' (tr (s.videoMem + 2 * (j + numCols))) = mem (tr (s.videoMem + 2 * (j + numCols))) := by
    intro mem mem' j _ hlt hsame
    exact congrArg Prod.fst (hsame (j + numCols) (by omega) (by omega))
  rw [cellAt_putCells h (fun _ _ _ _ _ _ => rfl) hrows0 (by omega) hj0 hj,
    cellAt_putCells h hread le_rfl (by omega) hj0 hj]
  by_cases hlast : j + numCols < cells
  · rw [if_neg (by omega), if_pos (by omega), if_pos hlast]
    rfl
  · rw [if_pos (by omega), if_neg hlast]

end Cells

/-! ### The position of the cursor -/

/-- The number of the cell that the cursor is on. -/
def Screen.pos (s : Screen) : ℤ := numCols * s.y + s.x

/-- The number of the first cell of the last row. -/
def lastRow : ℤ := (numRows - 1) * numCols

section Position

variable {s : Screen}

theorem newLine_pos (tr : ℤ → ℤ) (s : Screen) (mem : ScreenMemory) :
    (newLine tr s mem).1.pos = numCols * min (s.y + 1) (numRows - 1) := by
  rw [Screen.pos, newLine_x, newLine_y, add_zero]

/-- A character moves the cursor forward, or to the start of the last row. -/
theorem putc_pos (hs : OnScreen s.x s.y) (tr : ℤ → ℤ) (c : UInt8) (mem : ScreenMemory) :
    min (s.pos + 1) lastRow ≤ (putcInTerminal tr c s mem).1.pos := by
  have hline : ∀ mem, min (s.pos + 1) lastRow ≤ (newLine tr s mem).1.pos := by
    intro mem
    obtain ⟨-, hx, -, -⟩ := hs
    rw [newLine_pos]
    simp only [Screen.pos, lastRow, numCols, numRows] at hx ⊢
    omega
  by_cases hc : c = 10 ∨ c = 13
  · rw [putc_break hc]
    exact hline mem
  · rw [putc_eq hs hc]
    split_ifs
    · exact hline _
    · simp only [Screen.pos, ← add_assoc]
      exact min_le_left _ _

theorem puts_pos {r : Screen × ScreenMemory} (hs : OnScreen r.1.x r.1.y) (tr : ℤ → ℤ)
    (text : List UInt8) :
    min (r.1.pos + text.length) lastRow ≤ (puts tr text r).1.pos := by
  induction text generalizing r with
  | nil => exact le_of_le_of_eq (min_le_left _ _) (by simp [puts])
  | cons c text ih =>
    have hfirst := putc_pos hs tr c r.2
    have hrest := ih (putc_cursor hs tr c r.2)
    rw [puts_cons, List.length_cons]
    push_cast
    omega

/-- A backspace moves the cursor back by one. -/
theorem backspace_pos (hs : OnScreen s.x s.y) (hcorner : s.x ≠ 0 ∨ s.y ≠ 0) (tr : ℤ → ℤ)
    (mem : ScreenMemory) : (backspaceFnc tr s mem).1.pos = s.pos - 1 := by
  rw [backspace_eq hs hcorner]
  simp only [Screen.pos]
  split_ifs with hx
  · rw [hx]
    ring
  · ring

/-- The cursor is behind the top left corner. -/
theorem corner_of_pos (hpos : 0 < s.pos) : s.x ≠ 0 ∨ s.y ≠ 0 := by
  by_contra h
  rw [not_or, not_not, not_not] at h
  rw [Screen.pos, h.1, h.2] at hpos
  exact absurd hpos (by decide)

end Position

end LinuxIsLove
