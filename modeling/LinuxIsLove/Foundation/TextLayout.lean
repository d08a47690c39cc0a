import Mathlib

/-!
# Text laid out in rows

A text is laid out in rows of a fixed width: a new row starts after each breaking character, and
right after a character that fills its row.  A screen of a fixed height shows the last rows.

* `rowsFrom w brk row text`: the rows of a text whose current row already holds `row`;
* `shown h blank rows y x`: the character at a place of a screen that shows the last `h` rows;
* `rowsFrom_rule`: whatever the three ways to go on preserve holds of the whole layout.

The rows never come to an end: behind the last character there is always a current row, which may
be empty.
-/

namespace TextLayout

variable {α : Type*}

/-- The rows of a text, the first of them continuing `row`. -/
def rowsFrom (w : ℕ) (brk : α → Bool) (row : List α) : List α → List (List α)
  | [] => [row]
  | c :: text =>
    if brk c then row :: rowsFrom w brk [] text
    else if row.length + 1 = w then (row ++ [c]) :: rowsFrom w brk [] text
    else rowsFrom w brk (row ++ [c]) text

/-- The rows of a text. -/
def rows (w : ℕ) (brk : α → Bool) (text : List α) : List (List α) := rowsFrom w brk [] text

/-- The rows that fit on a screen with `h` rows. -/
def lastRows (h : ℕ) (rows : List (List α)) : List (List α) := rows.drop (rows.length - h)

/-- The character in the row `y` and the column `x` of the screen. -/
def shown (h : ℕ) (blank : α) (rows : List (List α)) (y x : ℕ) : α :=
  ((lastRows h rows).getD y []).getD x blank

variable {w h : ℕ} {blank : α}

theorem lastRows_length (h : ℕ) (rows : List (List α)) :
    (lastRows h rows).length = min rows.length h := by
  rw [lastRows, List.length_drop]
  omega

theorem shown_eq (h : ℕ) (blank : α) (rows : List (List α)) (y x : ℕ) :
    shown h blank rows y x = (rows.getD (rows.length - h + y) []).getD x blank := by
  simp only [shown, lastRows, List.getD_eq_getElem?_getD, List.getElem?_drop]

/-- Below the last row of a layout there are blanks only. -/
theorem getD_below (rows : List (List α)) {n : ℕ} (hn : rows.length ≤ n) (x : ℕ) :
    (rows.getD n []).getD x blank = blank := by
  rw [List.getD_eq_default rows [] hn, List.getD_nil]

/-- A character behind the last row of a layout changes one place on the screen. -/
theorem shown_append_char (hh : 0 < h) (pre : List (List α)) (row : List α) (c : α) {y : ℕ}
    (hy : y < h) (x : ℕ) :
    shown h blank (pre ++ [row ++ [c]]) y x =
      if y = min (pre.length + 1) h - 1 ∧ x = row.length then c
      else shown h blank (pre ++ [row]) y x := by
  have hlength : ∀ r : List α, (pre ++ [r]).length = pre.length + 1 := fun r => by simp
  have hlastRow : ∀ r : List α, (pre ++ [r]).getD pre.length [] = r := fun r => by simp
  simp only [shown_eq, hlength]
  rcases Nat.lt_trichotomy (pre.length + 1 - h + y) pre.length with hlt | heq | hgt
  · rw [if_neg (by omega), List.getD_append _ _ _ _ hlt, List.getD_append _ _ _ _ hlt]
  · -- the row that the character is put behind
    have hrow : y = min (pre.length + 1) h - 1 := by omega
    rw [heq, hlastRow, hlastRow]
    rcases Nat.lt_trichotomy x row.length with hx | rfl | hx
    · rw [if_neg (by omega), List.getD_append _ _ _ _ hx]
    · rw [if_pos ⟨hrow, rfl⟩]
      simp
    · have hlong : (row ++ [c]).length ≤ x := by simpa using hx
      rw [if_neg (by omega), List.getD_eq_default _ _ hlong, List.getD_eq_default _ _ hx.le]
  · have hbelow : ∀ r : List α, (pre ++ [r]).length ≤ pre.length + 1 - h + y := fun r => by
      rw [hlength]
      omega
    rw [if_neg (by omega), getD_below _ (hbelow _), getD_below _ (hbelow _)]

/-- A new row pushes the others up once the screen is full. -/
theorem shown_append_row (rows : List (List α)) {y : ℕ} (hy : y < h) (x : ℕ) :
    shown h blank (rows ++ [[]]) y x =
      if h ≤ rows.length then if y + 1 < h then shown h blank rows (y + 1) x else blank
      else shown h blank rows y x := by
  have hempty : ∀ n, rows.length ≤ n → ((rows ++ [[]]).getD n []).getD x blank = blank := by
    intro n hn
    rcases Nat.eq_or_lt_of_le hn with rfl | hlt
    · simp
    · exact getD_below _ (by simpa using hlt) x
  have hkeep : ∀ n, n < rows.length → (rows ++ [[]]).getD n [] = rows.getD n [] := by
    intro n hn
    rw [List.getD_append _ _ _ _ hn]
  simp only [shown_eq, List.length_append, List.length_singleton]
  by_cases hfull : h ≤ rows.length
  · rw [if_pos hfull]
    by_cases hnext : y + 1 < h
    · rw [if_pos hnext, hkeep _ (by omega),
        show rows.length + 1 - h + y = rows.length - h + (y + 1) by omega]
    · rw [if_neg hnext, hempty _ (by omega)]
  · rw [if_neg hfull]
    by_cases hrow : y < rows.length
    · rw [hkeep _ (by omega), show rows.length + 1 - h + y = rows.length - h + y by omega]
    · rw [hempty _ (by omega), getD_below _ (by omega)]

/-- What is preserved when a row is broken, when it is filled and when it goes on, holds of the
whole layout.  A state is changed by one character after the other. -/
theorem rowsFrom_rule {σ : Type*} {brk : α → Bool} {f : α → σ → σ}
    {R : List (List α) → List α → σ → Prop}
    (hbreak : ∀ pre row c s, R pre row s → brk c = true → R (pre ++ [row]) [] (f c s))
    (hfill : ∀ pre row c s, R pre row s → ¬ brk c = true → row.length + 1 = w →
      R (pre ++ [row ++ [c]]) [] (f c s))
    (hchar : ∀ pre row c s, R pre row s → ¬ brk c = true → row.length + 1 ≠ w →
      R pre (row ++ [c]) (f c s))
    {pre : List (List α)} {row : List α} {s : σ} (hR : R pre row s) (text : List α) :
    ∃ pre' row', pre ++ rowsFrom w brk row text = pre' ++ [row'] ∧
      R pre' row' (text.foldl (fun s c => f c s) s) := by
  induction text generalizing pre row s with
  | nil => exact ⟨pre, row, rfl, hR⟩
  | cons c text ih =>
    rw [List.foldl_cons, rowsFrom]
    split_ifs with hbrk hfull
    · obtain ⟨pre', row', heq, h'⟩ := ih (hbreak pre row c s hR hbrk)
      exact ⟨pre', row', by rw [← heq, List.append_assoc, List.singleton_append], h'⟩
    · obtain ⟨pre', row', heq, h'⟩ := ih (hfill pre row c s hR hbrk hfull)
      exact ⟨pre', row', by rw [← heq, List.append_assoc, List.singleton_append], h'⟩
    · exact ih (hchar pre row c s hR hbrk hfull)

end TextLayout
