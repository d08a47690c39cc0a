import LinuxIsLove.CursorBounds

/-!
# What is echoed is what will be read

A key changes the line buffer and the screen, each on its own.  `Trailing` says that a text stands
right before the cursor; a character that is printed appends to it, whether or not the screen
scrolls, and a backspace takes its last character off.  `Echo` keeps the text on the screen in step
with the end of the line buffer, and a redraw brings it back from there.
-/

namespace LinuxIsLove

open Bytes

/-- The cells before the cursor hold a text, across the ends of rows. -/
structure Trailing (tr : ℤ → ℤ) (text : List UInt8) (r : Screen × ScreenMemory) : Prop where
  le_pos : text.length ≤ r.1.pos
  cell : ∀ i (h : i < text.length),
    cellAt tr r.1.videoMem r.2 (r.1.pos - text.length + i) = (text[i], attrib)

section Trailing

variable {tr : ℤ → ℤ} {text : List UInt8} {c : UInt8} {r : Screen × ScreenMemory}

theorem trailing_nil (hs : OnScreen r.1.x r.1.y) : Trailing tr [] r := by
  refine ⟨?_, fun i h => absurd h (Nat.not_lt_zero i)⟩
  obtain ⟨hx, -, hy, -⟩ := hs
  simp only [Screen.pos, numCols, List.length_nil]
  omega

/-- Where a character leaves the cursor: behind it, or with a scroll at the start of the last
row. -/
theorem putc_forward {s : Screen} (hs : OnScreen s.x s.y) (hc : ¬ (c = 10 ∨ c = 13)) (tr : ℤ → ℤ)
    (mem : ScreenMemory) :
    ((putcInTerminal tr c s mem).1.pos = s.pos + 1 ∧
        (putcInTerminal tr c s mem).2 = putCell tr s.videoMem s.pos c mem) ∨
      (s.pos + 1 = cells ∧ (putcInTerminal tr c s mem).1.pos = lastRow ∧
        (putcInTerminal tr c s mem).2 =
          vertScrollInTerminal tr s (putCell tr s.videoMem s.pos c mem)) := by
  obtain ⟨-, -, -, hy⟩ := id hs
  rw [putc_eq hs hc]
  by_cases hlast : s.x + 1 = numCols
  · rw [if_pos hlast, newLine_pos, newLine]
    simp only [numCols] at hlast
    by_cases hbottom : s.y + 1 > numRows - 1
    · refine Or.inr ⟨?_, ?_, by rw [if_pos hbottom]; rfl⟩
      · simp only [Screen.pos, numCols, numRows, cells] at hbottom hy ⊢
        omega
      · rw [min_eq_right (le_of_lt hbottom), mul_comm]
        rfl
    · refine Or.inl ⟨?_, by rw [if_neg hbottom]; rfl⟩
      rw [min_eq_left (not_lt.1 hbottom)]
      simp only [Screen.pos, numCols]
      omega
  · rw [if_neg hlast]
    refine Or.inl ⟨?_, rfl⟩
    simp only [Screen.pos]
    ring

/-- A character is appended to the text before the cursor. -/
theorem trailing_putc (h : OwnCells tr r.1.videoMem) (hs : OnScreen r.1.x r.1.y)
    (hc : ¬ (c = 10 ∨ c = 13)) (hlen : (text.length : ℤ) < lastRow) (ht : Trailing tr text r) :
    Trailing tr (text ++ [c]) (putcInTerminal tr c r.1 r.2) := by
  have hlast : lastRow = 1920 := rfl
  have hcells : cells = 2000 := rfl
  have hpos : 0 ≤ r.1.pos ∧ r.1.pos < cells := hs.cell
  have hle := ht.le_pos
  have hlength : (text ++ [c]).length = text.length + 1 := by simp
  -- before a scroll the text stands in the cells up to the old position of the cursor
  have hstored : ∀ i (hi : i < (text ++ [c]).length),
      cellAt tr r.1.videoMem (putCell tr r.1.videoMem r.1.pos c r.2)
        (r.1.pos - text.length + i) = ((text ++ [c])[i], attrib) := by
    intro i hi
    rw [hlength] at hi
    rw [cellAt_putCell h hpos.1 hpos.2 (by omega) (by omega)]
    rcases Nat.lt_or_ge i text.length with hlt | hge
    · rw [if_neg (by omega), ht.cell i hlt, List.getElem_append_left hlt]
    · have hi' : i = text.length := by omega
      subst hi'
      rw [if_pos (by omega)]
      simp
  rcases putc_forward hs hc tr r.2 with ⟨hpos', hmem⟩ | ⟨hend, hpos', hmem⟩
  · refine ⟨by rw [hpos', hlength]; push_cast; omega, fun i hi => ?_⟩
    rw [putc_videoMem, hmem, hpos', hlength, ← hstored i hi]
    congr 1
    push_cast
    omega
  · refine ⟨by rw [hpos', hlength]; push_cast; omega, fun i hi => ?_⟩
    have hi' := hi
    rw [hlength] at hi'
    have hup : lastRow - ((text.length + 1 : ℕ) : ℤ) + i + numCols =
        r.1.pos - text.length + i := by
      simp only [numCols]
      push_cast
      omega
    rw [putc_videoMem, hmem, hpos', hlength, cellAt_vertScroll h (by push_cast; omega)
      (by push_cast; omega), hup, if_pos (by omega), hstored i hi]

/-- A text is appended to the text before the cursor. -/
theorem trailing_puts {more : List UInt8} (h : OwnCells tr r.1.videoMem)
    (hs : OnScreen r.1.x r.1.y) (hmore : ∀ c ∈ more, ¬ (c = 10 ∨ c = 13))
    (hlen : ((text ++ more).length : ℤ) ≤ lastRow) (ht : Trailing tr text r) :
    Trailing tr (text ++ more) (puts tr more r) := by
  induction more generalizing text r with
  | nil => rwa [List.append_nil]
  | cons c more ih =>
    obtain ⟨hc, hrest⟩ := List.forall_mem_cons.1 hmore
    have hlength : (text ++ c :: more).length = text.length + 1 + more.length := by
      simp
      omega
    rw [hlength] at hlen
    push_cast at hlen
    have hfirst := trailing_putc h hs hc (by omega) ht
    have happend : text ++ c :: more = text ++ [c] ++ more := by simp
    rw [puts_cons, happend]
    refine ih (by rwa [putc_videoMem]) (putc_cursor hs tr c r.2) hrest ?_ hfirst
    rw [← happend, hlength]
    push_cast
    exact hlen

/-- A backspace takes the last character off. -/
theorem trailing_backspace (h : OwnCells tr r.1.videoMem) (hs : OnScreen r.1.x r.1.y)
    (ht : Trailing tr (text ++ [c]) r) : Trailing tr text (backspaceFnc tr r.1 r.2) := by
  have hpos : 0 ≤ r.1.pos ∧ r.1.pos < cells := hs.cell
  have hle := ht.le_pos
  have hlength : (text ++ [c]).length = text.length + 1 := by simp
  rw [hlength] at hle
  push_cast at hle
  have hcorner := corner_of_pos (s := r.1) (by omega)
  have hpos' := backspace_pos hs hcorner tr r.2
  refine ⟨by rw [hpos']; omega, fun i hi => ?_⟩
  have hcell := ht.cell i (by rw [hlength]; omega)
  rw [List.getElem_append_left hi, hlength] at hcell
  rw [backspace_videoMem, hpos', backspace_eq hs hcorner]
  show cellAt tr r.1.videoMem (putCell tr r.1.videoMem (r.1.pos - 1) 32 r.2)
    (r.1.pos - 1 - text.length + i) = (text[i], attrib)
  rw [cellAt_putCell h (by omega) (by omega) (by omega) (by omega), if_neg (by omega), ← hcell]
  congr 1
  push_cast
  omega

end Trailing

/-! ### The line buffer and the screen -/

/-- The bytes that can be taken back stand at the end of the line buffer and before the cursor. -/
structure Echo (tr : ℤ → ℤ) (n : ℤ) (typed : List UInt8) (t : Terminal) (mem : ScreenMemory) :
    Prop where
  cursor : CursorOk t.screen.videoMem t
  count_le : t.bufCount ≤ 126
  length : typed.length = t.inputLen
  buffer : ∀ i (h : i < typed.length), t.lineBuf ((t.bufCount : ℤ) - typed.length + i) = typed[i]
  plain : ∀ c ∈ typed, ¬ (c = 10 ∨ c = 13)
  trailing : Trailing tr typed
    ({ t.screen with videoMem := t.screen.videoMem + pageSize * (n + 1) }, mem)

section Keys

variable {tr : ℤ → ℤ} {n : ℤ} {typed : List UInt8} {t : Terminal} {mem : ScreenMemory}
  {k : Keystroke}

/-- The byte of a printable key ends no line. -/
theorem printable_plain {key : ℕ} (h : Printable key) :
    ¬ (UInt8.ofNat key = 10 ∨ UInt8.ofNat key = 13) := by
  obtain ⟨h32, h126⟩ := h
  have hval : (UInt8.ofNat key).toNat = key := by
    rw [UInt8.toNat_ofNat']
    omega
  rintro (heq | heq)
  · rw [heq] at hval
    simp at hval
    omega
  · rw [heq] at hval
    simp at hval
    omega

/-- The line buffer ends with what can be taken back. -/
theorem Echo.content (h : Echo tr n typed t mem) :
    t.content = t.content.take (t.bufCount - typed.length) ++ typed := by
  have hcount := h.cursor.len_le_count
  have hlen := h.length
  have hdrop : t.content.drop (t.bufCount - typed.length) = typed := by
    have hlength : (t.content.drop (t.bufCount - typed.length)).length = typed.length := by
      rw [List.length_drop, Terminal.content_length]
      omega
    refine List.ext_getElem hlength fun i hi hi' => ?_
    rw [List.getElem_drop, ← h.buffer i hi']
    simp only [Terminal.content, List.getElem_map, List.getElem_range']
    congr 1
    omega
  conv_lhs => rw [← List.take_append_drop (t.bufCount - typed.length) t.content, hdrop]

/-- What a drawing leaves before the cursor, as the terminal keeps its screen. -/
theorem trailing_shifted {d : Drawing} {text : List UInt8} {offset : ℤ}
    (h : Trailing tr text
      (d.run tr { t.screen with videoMem := t.screen.videoMem + offset } mem)) :
    Trailing tr text
      ({ (d.shifted tr offset t.screen mem).1 with
          videoMem := (d.shifted tr offset t.screen mem).1.videoMem + offset },
        (d.shifted tr offset t.screen mem).2) := by
  have hv : (d.shifted tr offset t.screen mem).1.videoMem + offset =
      (d.run tr { t.screen with videoMem := t.screen.videoMem + offset } mem).1.videoMem := by
    simp only [Drawing.shifted]
    ring
  rw [hv]
  exact h

/-- What a key leaves in the line buffer and before the cursor: `Echo` without the position of the
cursor, which every key keeps on the screen. -/
structure EchoKept (tr : ℤ → ℤ) (typed : List UInt8) (t : Terminal) (r : Screen × ScreenMemory) :
    Prop where
  count_le : t.bufCount ≤ 126
  length : typed.length = t.inputLen
  buffer : ∀ i (h : i < typed.length), t.lineBuf ((t.bufCount : ℤ) - typed.length + i) = typed[i]
  plain : ∀ c ∈ typed, ¬ (c = 10 ∨ c = 13)
  trailing : Trailing tr typed r

/-- A redraw brings the text back from the line buffer. -/
theorem echo_redraw (h : OwnCells tr (t.screen.videoMem + pageSize * (n + 1)))
    (he : Echo tr n typed t mem) :
    EchoKept tr typed t ((Drawing.redraw t.content).run tr
      { t.screen with videoMem := t.screen.videoMem + pageSize * (n + 1) } mem) := by
  have hcount := he.count_le
  have hlen := he.length
  have hlen' := he.cursor.len_le_count
  have hlast : lastRow = 1920 := rfl
  refine ⟨hcount, hlen, he.buffer, he.plain, ?_⟩
  rw [he.content]
  show Trailing tr typed (puts tr (t.content.take _ ++ typed) _)
  have hbefore := puts_cursor (r := clearTerminal tr { t.screen with
    videoMem := t.screen.videoMem + pageSize * (n + 1) } mem) onScreen_origin tr
    (t.content.take (t.bufCount - typed.length))
  have hnil : Trailing tr [] _ := trailing_nil hbefore
  have hall := trailing_puts (by rwa [puts_videoMem]) hbefore he.plain
    (by rw [List.nil_append]; omega) hnil
  rwa [List.nil_append, ← puts_append] at hall

/-- A Backspace takes the last byte off, in the line buffer and on the screen. -/
theorem echo_erase (h : OwnCells tr (t.screen.videoMem + pageSize * (n + 1)))
    (he : Echo tr n typed t mem) (hne : t.inputLen ≠ 0) :
    ∃ typed', EchoKept tr typed'
      ({ t.decrBufCount with inputLen := t.inputLen - 1 }.storeByte t.decrBufCount.bufCount 0)
      (Drawing.erase.run tr
        { t.screen with videoMem := t.screen.videoMem + pageSize * (n + 1) } mem) := by
  have hcount := he.count_le
  have hlen := he.length
  have hlen' := he.cursor.len_le_count
  obtain hnil | ⟨typed', c, rfl⟩ := List.eq_nil_or_concat' typed
  · rw [hnil] at hlen
    exact absurd hlen.symm hne
  have hlength : (typed' ++ [c]).length = typed'.length + 1 := by simp
  rw [hlength] at hlen
  push_cast at hlen
  have hcount' : (t.bufCount + (2 ^ 16 - 1)) % 2 ^ 16 = t.bufCount - 1 := by omega
  have hdecr : t.decrBufCount.bufCount = t.bufCount - 1 := hcount'
  refine ⟨typed', ?_, ?_, fun i hi => ?_, fun b hb => ?_, ?_⟩
  · show t.decrBufCount.bufCount ≤ 126
    omega
  · show (typed'.length : ℤ) = t.inputLen - 1
    omega
  · -- the cleared byte is behind the bytes that are left
    have hbyte := he.buffer i (by rw [hlength]; omega)
    rw [List.getElem_append_left hi, hlength] at hbyte
    have hbuf : t.decrBufCount.lineBuf = t.lineBuf := by simp only [Terminal.decrBufCount]
    have hfront : ((t.bufCount - 1 : ℕ) : ℤ) - typed'.length + i ≠ (t.bufCount - 1 : ℕ) := by
      omega
    have hindex : ((t.bufCount - 1 : ℕ) : ℤ) - typed'.length + i =
        t.bufCount - ((typed'.length + 1 : ℕ) : ℤ) + i := by
      push_cast
      omega
    show Function.update t.decrBufCount.lineBuf (t.decrBufCount.bufCount : ℤ) 0
      ((t.decrBufCount.bufCount : ℤ) - typed'.length + i) = typed'[i]
    rw [hdecr, hbuf, Function.update_of_ne hfront, hindex, hbyte]
  · exact he.plain b (List.mem_append_left _ hb)
  · exact trailing_backspace (r := ({ t.screen with
      videoMem := t.screen.videoMem + pageSize * (n + 1) }, mem)) h he.cursor.onScreen he.trailing

/-- A printable key appends its byte, in the line buffer and on the screen. -/
theorem echo_char (h : OwnCells tr (t.screen.videoMem + pageSize * (n + 1)))
    (he : Echo tr n typed t mem) {key : ℕ} (hkey : Printable key) (hroom : t.bufCount < 126) :
    EchoKept tr (typed ++ [UInt8.ofNat key])
      { (t.storeByte t.bufCount (UInt8.ofNat key)).incrBufCount with
          inputLen := t.inputLen + 1 }
      ((Drawing.text [UInt8.ofNat key]).run tr
        { t.screen with videoMem := t.screen.videoMem + pageSize * (n + 1) } mem) := by
  have hlen := he.length
  have hlen' := he.cursor.len_le_count
  have hlast : lastRow = 1920 := rfl
  have hplain := printable_plain hkey
  have hincr : (t.bufCount + 1) % 2 ^ 16 = t.bufCount + 1 := by omega
  have hlength : (typed ++ [UInt8.ofNat key]).length = typed.length + 1 := by simp
  refine ⟨?_, ?_, fun i hi => ?_, fun b hb => ?_, ?_⟩
  · show (t.bufCount + 1) % 2 ^ 16 ≤ 126
    omega
  · show ((typed ++ [UInt8.ofNat key]).length : ℤ) = t.inputLen + 1
    rw [hlength]
    push_cast
    omega
  · rw [hlength] at hi
    simp only [Terminal.storeByte, Terminal.incrBufCount, hincr, hlength]
    rcases Nat.lt_or_ge i typed.length with hlt | hge
    · rw [Function.update_of_ne (by push_cast; omega), List.getElem_append_left hlt,
        ← he.buffer i hlt]
      congr 1
      push_cast
      omega
    · have hi' : i = typed.length := by omega
      subst hi'
      have hindex : ((t.bufCount + 1 : ℕ) : ℤ) - ((typed.length + 1 : ℕ) : ℤ) + typed.length =
          t.bufCount := by
        push_cast
        ring
      rw [hindex, Function.update_self]
      simp
  · rcases List.mem_append.1 hb with hb | hb
    · exact he.plain b hb
    · rw [List.mem_singleton.1 hb]
      exact hplain
  · exact trailing_putc (r := ({ t.screen with
      videoMem := t.screen.videoMem + pageSize * (n + 1) }, mem)) h he.cursor.onScreen hplain
      (by omega) he.trailing

/-- What a key leaves in the line buffer and before the cursor. -/
theorem echo_pressed (h : OwnCells tr (t.screen.videoMem + pageSize * (n + 1)))
    (he : Echo tr n typed t mem) {d : Drawing} {t' : Terminal} (hk : k.Edits)
    (hp : Pressed t k (some d) t') :
    ∃ typed', EchoKept tr typed' t' (d.run tr
      { t.screen with videoMem := t.screen.videoMem + pageSize * (n + 1) } mem) := by
  cases hp with
  | redraw => exact ⟨typed, echo_redraw h he⟩
  | enter hlen hcount =>
    rcases hk with hk | hk
    · exact absurd hk (by decide)
    · exact absurd hk (by decide)
  | erase hne => exact echo_erase h he hne
  | char key hreturn hback hroom =>
    have hkey : Printable key := hk.resolve_right hback
    exact ⟨_, echo_char h he hkey hroom⟩

/-- **A key keeps the screen in step with the line buffer.** -/
theorem echo_press (h : OwnCells tr (t.screen.videoMem + pageSize * (n + 1)))
    (he : Echo tr n typed t mem) (hk : k.Edits) :
    ∃ typed', Echo tr n typed' (press tr n k t mem).1 (press tr n k t mem).2 := by
  have hcursor := (cursorOk_press he.cursor tr n k mem).1
  have hpressed := pressed t k
  have hdraw := press_drawing tr n k t mem
  have hbuffer := press_buffer tr n k t mem
  generalize press tr n k t mem = r at hcursor hdraw hbuffer
  cases hd : k.drawing t with
  | none =>
    rw [hd] at hdraw hpressed
    generalize k.buffer t = t' at hpressed hbuffer
    cases hpressed with
    | ignored key hreturn =>
      have hscreen : r.1.screen = t.screen := congrArg Prod.fst hdraw
      have hmem : r.2 = mem := congrArg Prod.snd hdraw
      rw [hscreen] at hbuffer
      rw [hbuffer, hmem]
      exact ⟨typed, he⟩
  | some d =>
    rw [hd] at hdraw hpressed
    obtain ⟨typed', hkept⟩ := echo_pressed h he hk hpressed
    have hscreen : r.1.screen = (d.shifted tr (pageSize * (n + 1)) t.screen mem).1 :=
      congrArg Prod.fst hdraw
    have hmem : r.2 = (d.shifted tr (pageSize * (n + 1)) t.screen mem).2 := congrArg Prod.snd hdraw
    have hvideo : r.1.screen.videoMem = t.screen.videoMem := hcursor.videoMem
    refine ⟨typed', ?_, ?_, ?_, ?_, hkept.plain, ?_⟩
    · rw [hvideo]
      exact hcursor
    · rw [hbuffer]
      exact hkept.count_le
    · rw [hbuffer]
      exact hkept.length
    · rw [hbuffer]
      exact hkept.buffer
    · rw [hscreen, hmem]
      exact trailing_shifted hkept.trailing

end Keys

/-! ### Any number of keys -/

/-- Keys on the terminal with the number `n`, one after the other. -/
def pressAll (tr : ℤ → ℤ) (n : ℤ) (ks : List Keystroke) (r : Terminal × ScreenMemory) :
    Terminal × ScreenMemory :=
  ks.foldl (fun r k => press tr n k r.1 r.2) r

/-- The last `input_len` bytes of the line buffer are shown before the cursor. -/
structure Echoes (tr : ℤ → ℤ) (n : ℤ) (t : Terminal) (mem : ScreenMemory) : Prop where
  nonneg : 0 ≤ t.inputLen
  le_count : t.inputLen ≤ t.bufCount
  le_pos : t.inputLen ≤ t.screen.pos
  shown : ∀ i : ℕ, i < t.inputLen →
    cellAt tr (t.screen.videoMem + pageSize * (n + 1)) mem (t.screen.pos - t.inputLen + i) =
      (t.lineBuf (t.bufCount - t.inputLen + i), attrib)

section Echoes

variable {tr : ℤ → ℤ} {n : ℤ} {t : Terminal} {mem : ScreenMemory}

theorem Echo.echoes {typed : List UInt8} (he : Echo tr n typed t mem) : Echoes tr n t mem := by
  have hlen := he.length
  refine ⟨he.cursor.len_nonneg, he.cursor.len_le_count, he.cursor.len_le_pos, fun i hi => ?_⟩
  have hi' : i < typed.length := by omega
  have hcell := he.trailing.cell i hi'
  have hbyte := he.buffer i hi'
  rw [hlen] at hcell hbyte
  rw [hbyte]
  exact hcell

theorem echo_pressAll {typed : List UInt8} {v : ℤ} {ks : List Keystroke}
    (h : OwnCells tr (v + pageSize * (n + 1))) (hv : t.screen.videoMem = v)
    (he : Echo tr n typed t mem) (hks : ∀ k ∈ ks, k.Edits) :
    ∃ typed', Echo tr n typed' (pressAll tr n ks (t, mem)).1 (pressAll tr n ks (t, mem)).2 := by
  induction ks generalizing t mem typed with
  | nil => exact ⟨typed, he⟩
  | cons k ks ih =>
    obtain ⟨hk, hrest⟩ := List.forall_mem_cons.1 hks
    obtain ⟨typed', he'⟩ := echo_press (hv ▸ h) he hk
    have hv' := ((cursorOk_press he.cursor tr n k mem).1).videoMem
    exact ih (hv'.trans hv) he' hrest

/-- **What is echoed is what will be read.**  From any terminal with the cursor on the screen,
nothing typed and room in the line buffer, and after any printable keys, Backspaces and redraws, the
last `input_len` bytes of the line buffer are shown in the cells before the cursor. -/
theorem echo_typed (h : OwnCells tr (t.screen.videoMem + pageSize * (n + 1)))
    (hcursor : OnScreen t.screen.x t.screen.y) (hlen : t.inputLen = 0) (hcount : t.bufCount ≤ 126)
    (mem : ScreenMemory) {ks : List Keystroke} (hks : ∀ k ∈ ks, k.Edits) :
    Echoes tr n (pressAll tr n ks (t, mem)).1 (pressAll tr n ks (t, mem)).2 := by
  have hpos : 0 ≤ t.screen.pos := hcursor.cell.1
  have hok : CursorOk t.screen.videoMem t :=
    ⟨rfl, hcursor, by omega, by omega, by omega, by omega, by omega⟩
  have hstart : Echo tr n [] t mem :=
    ⟨hok, hcount, hlen.symm, fun i hi => absurd hi (Nat.not_lt_zero i), by simp,
      trailing_nil hcursor⟩
  obtain ⟨typed, he⟩ := echo_pressAll h rfl hstart hks
  exact he.echoes

end Echoes

/-- Two keys, the second taken back, and a redraw on a fresh terminal. -/
theorem echo_typed_kybdInit :
    Echoes id 0 (pressAll id 0 [.typed 97, .typed 98, .typed keyBackspace, .redraw]
        (kybdInit video, fun _ => 0)).1
      (pressAll id 0 [.typed 97, .typed 98, .typed keyBackspace, .redraw]
        (kybdInit video, fun _ => 0)).2 := by
  have hks : ∀ k ∈ [.typed 97, .typed 98, .typed keyBackspace, .redraw], Keystroke.Edits k := by
    simp [Keystroke.Edits, Printable]
  exact echo_typed (ownCells_id _) onScreen_origin rfl (Nat.zero_le _) (fun _ => 0) hks

end LinuxIsLove
