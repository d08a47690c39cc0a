import LinuxIsLove.TextPages

/-!
# Runs of one terminal

The keys that the keyboard handler hands on to a terminal are printable characters, Backspace and
Enter, and Ctrl-L redraws it; `press` takes one of them.  In a run of a terminal its keys come
between the steps of reads and the writes of its programs.  A line that releases a reader is taken
by the reader before the next key: `terminalStep` handles no key in between.

The page directory may be another one at each step, so every event that draws says where the
addresses of the video memory lead.
-/

namespace LinuxIsLove

open Bytes EventMachine

/-! ### Keys -/

/-- A key that is handed to `update`, or Ctrl-L. -/
inductive Keystroke
  | typed (key : ℕ)
  | redraw

/-- The keys that stand for a character, from the space to the tilde. -/
def Printable (key : ℕ) : Prop := 32 ≤ key ∧ key ≤ 126

instance (key : ℕ) : Decidable (Printable key) := inferInstanceAs (Decidable (_ ∧ _))

/-- What the line buffer of a terminal holds. -/
def Terminal.content (t : Terminal) : List UInt8 :=
  (List.range' 0 t.bufCount).map fun j : ℕ => t.lineBuf j

@[simp] theorem Terminal.content_length (t : Terminal) : t.content.length = t.bufCount := by
  simp [Terminal.content]

namespace Keystroke

/-- The keys that edit the line that is being typed, and the redraw. -/
def Edits : Keystroke → Prop
  | .typed key => Printable key ∨ key = keyBackspace
  | .redraw => True

/-- The keys that the keyboard handler hands on. -/
def Handled : Keystroke → Prop
  | .typed key => Printable key ∨ key = keyBackspace ∨ key = keyReturn
  | .redraw => True

instance : DecidablePred Handled
  | .typed _ => inferInstanceAs (Decidable (_ ∨ _))
  | .redraw => isTrue trivial

/-- What a key draws. -/
def drawing (t : Terminal) : Keystroke → Option Drawing
  | .typed key => keyDrawing t key
  | .redraw => some (.redraw t.content)

/-- What a key does to the line buffer. -/
def buffer (t : Terminal) : Keystroke → Terminal
  | .typed key => updateBuffer key t
  | .redraw => t

/-- The key as an input of the machine. -/
def input : Keystroke → Input
  | .typed key => .event (.type key)
  | .redraw => .redraw

end Keystroke

/-- Ctrl-L on the terminal with the number `n`. -/
def redrawTerminal (tr : ℤ → ℤ) (n : ℤ) (t : Terminal) (mem : ScreenMemory) :
    Terminal × ScreenMemory :=
  drawDisplayed n pageSize (fun s mem => terminalWriteLoop tr (fun j => t.lineBuf j) t.bufCount 0
    (clearTerminal tr s mem)) t mem

/-- A key on the terminal with the number `n`, which is the displayed one. -/
def press (tr : ℤ → ℤ) (n : ℤ) (k : Keystroke) (t : Terminal) (mem : ScreenMemory) :
    Terminal × ScreenMemory :=
  match k with
  | .typed key => update tr n pageSize key t mem
  | .redraw => redrawTerminal tr n t mem

section Press

variable {tr : ℤ → ℤ} {n : ℤ} {t : Terminal} {mem : ScreenMemory}

/-- Without the line buffer, a key is what it draws. -/
theorem press_drawing (tr : ℤ → ℤ) (n : ℤ) (k : Keystroke) (t : Terminal) (mem : ScreenMemory) :
    ((press tr n k t mem).1.screen, (press tr n k t mem).2) =
      match k.drawing t with
      | none => (t.screen, mem)
      | some d => d.shifted tr (pageSize * (n + 1)) t.screen mem := by
  cases k with
  | typed key => exact update_drawing tr n key t mem
  | redraw =>
    simp only [press, redrawTerminal, drawDisplayed, terminalWriteLoop_eq, Keystroke.drawing,
      Drawing.shifted, Drawing.run, Terminal.content]

/-- Without the screen, a key is what it does to the line buffer. -/
theorem press_buffer (tr : ℤ → ℤ) (n : ℤ) (k : Keystroke) (t : Terminal) (mem : ScreenMemory) :
    (press tr n k t mem).1 =
      { k.buffer t with screen := (press tr n k t mem).1.screen } := by
  cases k with
  | typed key =>
    obtain ⟨screen, hscreen⟩ := updateScreen_eq tr n pageSize key t mem
    have hupdate : (press tr n (.typed key) t mem).1 =
        updateBuffer key (updateScreen tr n pageSize key t mem).1 := rfl
    rw [hupdate, hscreen, updateBuffer_screen]
    rfl
  | redraw => rfl

/-- The cases of a key: what it draws, and the terminal but for its screen. -/
inductive Pressed (t : Terminal) : Keystroke → Option Drawing → Terminal → Prop
  | redraw : Pressed t .redraw (some (.redraw t.content)) t
  | enter {t'} (hlen : t'.inputLen = 0) (hcount : t'.bufCount < 2 ^ 16) :
      Pressed t (.typed keyReturn) (some (.text [UInt8.ofNat keyReturn])) t'
  | erase (hlen : t.inputLen ≠ 0) : Pressed t (.typed keyBackspace) (some .erase)
      ({ t.decrBufCount with inputLen := t.inputLen - 1 }.storeByte t.decrBufCount.bufCount 0)
  | char (key) (hreturn : key ≠ keyReturn) (hback : key ≠ keyBackspace) (hroom : t.bufCount < 126) :
      Pressed t (.typed key) (some (.text [UInt8.ofNat key]))
        { (t.storeByte t.bufCount (UInt8.ofNat key)).incrBufCount with
          inputLen := t.inputLen + 1 }
  | ignored (key) (hreturn : key ≠ keyReturn) : Pressed t (.typed key) none t

theorem pressed (t : Terminal) (k : Keystroke) : Pressed t k (k.drawing t) (k.buffer t) := by
  cases k with
  | redraw => exact .redraw
  | typed key =>
    simp only [Keystroke.drawing, Keystroke.buffer, keyDrawing]
    by_cases hreturn : key = keyReturn
    · subst hreturn
      rw [if_pos rfl]
      obtain ⟨hlen, -, ⟨hcount, -⟩ | ⟨hcount, -⟩⟩ := updateBuffer_enter t
      · exact .enter hlen (by rw [hcount]; decide)
      · exact .enter hlen (by rw [hcount]; exact Nat.mod_lt _ (by decide))
    · simp only [updateBuffer, if_neg hreturn]
      by_cases hback : key = keyBackspace
      · subst hback
        simp only [if_pos]
        split_ifs with hlen
        · exact .erase hlen
        · exact .ignored _ hreturn
      · simp only [if_neg hback]
        split_ifs with hroom
        · exact .char key hreturn hback hroom
        · exact .ignored key hreturn

/-- The keys of the machine go to its displayed terminal. -/
theorem machineStep_press {E : Env} {m m' : Machine} {k : Keystroke}
    (h : machineStep E m k.input = some m') :
    m'.kernel.text =
        (press (m.kernel.physical E) m.kernel.currentTerminal k m.kernel.displayed
          m.kernel.text).2 ∧
      m'.kernel.terminals = Function.update m.kernel.terminals m.kernel.currentTerminal.toNat
        (press (m.kernel.physical E) m.kernel.currentTerminal k m.kernel.displayed
          m.kernel.text).1 := by
  cases k with
  | typed key =>
    simp only [machineStep, Keystroke.input, step, dispatch, typeKey, Option.map_eq_some_iff] at h
    obtain ⟨k', ⟨k1, hk1, rfl⟩, rfl⟩ := h
    split_ifs at hk1
    cases hk1
    exact ⟨rfl, rfl⟩
  | redraw =>
    simp only [machineStep, Keystroke.input, redraw, Option.map_eq_some_iff] at h
    obtain ⟨k', hk', rfl⟩ := h
    split_ifs at hk'
    cases hk'
    exact ⟨rfl, rfl⟩

end Press

/-! ### Runs -/

inductive TerminalEvent
  | press (tr : ℤ → ℤ) (k : Keystroke)
  /-- a program prints -/
  | write (tr : ℤ → ℤ) (buf : Memory) (nbytes : ℤ)
  /-- a read of `nbytes` bytes begins -/
  | arm (nbytes : ℤ)
  | drain
  | disarm

/-- A reader has been released and has not taken its line yet. -/
def LineWaiting (s : LineState) : Prop :=
  match s.reader with
  | .spinning _ => s.term.hitEnter = true
  | _ => False

instance : DecidablePred LineWaiting := fun s => by
  unfold LineWaiting
  cases s.reader <;> infer_instance

/-- The reader of the terminal copies to a buffer that holds zeros. -/
def terminalStep (n : ℤ) (s : LineState) : TerminalEvent → Option LineState
  | .press tr k =>
    let r := press tr n k s.term s.text
    if k.Handled ∧ ¬ LineWaiting s then some { s with term := r.1, text := r.2 } else none
  | .write tr buf nbytes =>
    let r := terminalWriteLoop tr buf nbytes.toNat 0 (s.term.screen, s.text)
    some { s with term := { s.term with screen := r.1 }, text := r.2 }
  | .arm nbytes =>
    match s.reader with
    | .idle =>
      if 1 ≤ nbytes then some { s with term := armRead s.term, reader := .spinning nbytes }
      else none
    | _ => none
  | .drain =>
    match s.reader with
    | .spinning nbytes =>
      if s.term.hitEnter then
        some { s with term := (drain s.term nbytes fun _ => 0).2.2, reader := .drained }
      else none
    | _ => none
  | .disarm =>
    match s.reader with
    | .drained => some { s with term := disarmRead s.term, reader := .idle }
    | _ => none

/-- A terminal as `kybd_init` leaves it. -/
def terminalInit (videoMem : ℤ) (text : ScreenMemory) : LineState :=
  ⟨kybdInit videoMem, text, .idle⟩

/-- The cases of `terminalStep`. -/
inductive TerminalEffect (n : ℤ) (s : LineState) : TerminalEvent → LineState → Prop
  | press (tr k) (hk : k.Handled) (hwaiting : ¬ LineWaiting s) : TerminalEffect n s (.press tr k)
      { s with term := (press tr n k s.term s.text).1, text := (press tr n k s.term s.text).2 }
  | write (tr buf nbytes) : TerminalEffect n s (.write tr buf nbytes)
      { s with
        term := { s.term with
          screen :=
            (puts tr ((List.range' 0 nbytes.toNat).map buf) (s.term.screen, s.text)).1 }
        text := (puts tr ((List.range' 0 nbytes.toNat).map buf) (s.term.screen, s.text)).2 }
  | arm (nbytes) (h1 : 1 ≤ nbytes) : TerminalEffect n s (.arm nbytes)
      { s with term := armRead s.term, reader := .spinning nbytes }
  | drain (nbytes) (hreader : s.reader = .spinning nbytes) (henter : s.term.hitEnter = true) :
      TerminalEffect n s .drain
        { s with term := (drain s.term nbytes fun _ => 0).2.2, reader := .drained }
  | disarm : TerminalEffect n s .disarm { s with term := disarmRead s.term, reader := .idle }

theorem terminalEffect_of_step {n : ℤ} {s s' : LineState} {e : TerminalEvent}
    (h : terminalStep n s e = some s') : TerminalEffect n s e s' := by
  cases e with
  | press tr k =>
    simp only [terminalStep] at h
    split_ifs at h with hk
    cases h
    exact .press tr k hk.1 hk.2
  | write tr buf nbytes =>
    simp only [terminalStep, terminalWriteLoop_eq, Option.some.injEq] at h
    subst h
    exact .write tr buf nbytes
  | arm nbytes =>
    simp only [terminalStep] at h
    split at h
    next =>
      split_ifs at h with h1
      cases h
      exact .arm nbytes h1
    next => exact absurd h (by simp)
  | drain =>
    simp only [terminalStep] at h
    split at h
    next nbytes hreader =>
      split_ifs at h with henter
      cases h
      exact .drain nbytes hreader henter
    next => exact absurd h (by simp)
  | disarm =>
    simp only [terminalStep] at h
    split at h
    next =>
      cases h
      exact .disarm
    next => exact absurd h (by simp)

/-- A drain leaves the screen, the flags and the number of typed bytes alone. -/
theorem drain_rest (t : Terminal) (nbytes : ℤ) (buf : Memory) :
    (drain t nbytes buf).2.2.screen = t.screen ∧ (drain t nbytes buf).2.2.inputLen = t.inputLen ∧
      (drain t nbytes buf).2.2.bufCount < 2 ^ 16 := by
  refine ⟨rfl, rfl, ?_⟩
  simp only [drain]
  omega

end LinuxIsLove
