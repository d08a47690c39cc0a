import LinuxIsLove.TerminalRuns
import LinuxIsLove.ScreenCells

/-!
# The cursor stays on the screen

A backspace does not look where the cursor is: that it stays on the screen rests on the number of
bytes that can be taken back.  `CursorOk` bounds it by the position of the cursor, which every
character moves forward unless it is in the last row already; a redraw puts the cursor behind the
whole line buffer.
-/

namespace LinuxIsLove

open Bytes EventMachine

/-- The cursor is on the screen, with all bytes that can be taken back before it. -/
structure CursorOk (v : ℤ) (t : Terminal) : Prop where
  videoMem : t.screen.videoMem = v
  onScreen : OnScreen t.screen.x t.screen.y
  count_lt : t.bufCount < 2 ^ 16
  len_nonneg : 0 ≤ t.inputLen
  len_le_count : t.inputLen ≤ t.bufCount
  len_le_max : t.inputLen ≤ 126
  len_le_pos : t.inputLen ≤ t.screen.pos

namespace TerminalEvent

/-- The bytes of the screen that an event draws on. -/
def Owns (n v a : ℤ) : TerminalEvent → Prop
  | .press tr _ => OwnByte tr (v + pageSize * (n + 1)) a
  | .write tr _ _ => OwnByte tr v a
  | _ => False

end TerminalEvent

section Cursor

variable {tr : ℤ → ℤ} {n v a : ℤ} {t t' : Terminal} {k : Keystroke} {d : Drawing}

theorem Drawing.shifted_screen (d : Drawing) (tr : ℤ → ℤ) (offset : ℤ) (s : Screen)
    (mem : ScreenMemory) :
    (d.shifted tr offset s mem).1.videoMem = s.videoMem ∧
      (d.shifted tr offset s mem).1.x =
        (d.run tr { s with videoMem := s.videoMem + offset } mem).1.x ∧
      (d.shifted tr offset s mem).1.y =
        (d.run tr { s with videoMem := s.videoMem + offset } mem).1.y := by
  refine ⟨?_, rfl, rfl⟩
  simp only [Drawing.shifted, run_videoMem]
  ring

/-- A drawing through another page fits if it fits where the cursor is. -/
theorem Drawing.Fits.moved {s : Screen} (h : d.Fits s) (v : ℤ) :
    d.Fits { s with videoMem := v } := by
  cases d <;> exact h

/-- Only the screen and the counters matter. -/
theorem CursorOk.congr (h : CursorOk v t) (hscreen : t'.screen = t.screen)
    (hcount : t'.bufCount = t.bufCount) (hlen : t'.inputLen = t.inputLen) : CursorOk v t' where
  videoMem := by rw [hscreen]; exact h.videoMem
  onScreen := by rw [hscreen]; exact h.onScreen
  count_lt := by rw [hcount]; exact h.count_lt
  len_nonneg := by rw [hlen]; exact h.len_nonneg
  len_le_count := by rw [hlen, hcount]; exact h.len_le_count
  len_le_max := by rw [hlen]; exact h.len_le_max
  len_le_pos := by rw [hlen, hscreen]; exact h.len_le_pos

/-- What a key draws is on the screen. -/
theorem CursorOk.fits (h : CursorOk v t) (hp : Pressed t k (some d) t') : d.Fits t.screen := by
  cases hp with
  | redraw => trivial
  | enter hlen hcount => exact h.onScreen
  | erase hlen =>
    have hnonneg := h.len_nonneg
    have hpos := h.len_le_pos
    exact ⟨h.onScreen, corner_of_pos (by omega)⟩
  | char key hreturn hback hroom => exact h.onScreen

/-- What a key leaves to be taken back is before the cursor. -/
theorem CursorOk.pos_press (h : CursorOk v t) (hp : Pressed t k (some d) t') (tr : ℤ → ℤ)
    (offset : ℤ) (mem : ScreenMemory) :
    t'.inputLen ≤ (d.shifted tr offset t.screen mem).1.pos := by
  have hfit := (h.fits hp).moved (t.screen.videoMem + offset)
  have honScreen := run_cursor hfit tr mem
  obtain ⟨-, hx, hy⟩ := d.shifted_screen tr offset t.screen mem
  have hlast : lastRow = 1920 := rfl
  have hmax := h.len_le_max
  have hcount := h.len_le_count
  have hpos : (d.shifted tr offset t.screen mem).1.pos =
      (d.run tr { t.screen with videoMem := t.screen.videoMem + offset } mem).1.pos := by
    rw [Screen.pos, Screen.pos, hx, hy]
  rw [hpos]
  cases hp with
  | redraw =>
    -- the cursor is behind the line buffer
    have hputs := puts_pos (r := clearTerminal tr { t.screen with
      videoMem := t.screen.videoMem + offset } mem) onScreen_origin tr t.content
    have hclear : (clearTerminal tr { t.screen with
      videoMem := t.screen.videoMem + offset } mem).1.pos = 0 := rfl
    rw [Terminal.content_length, hclear] at hputs
    show t.inputLen ≤ (puts tr t.content (clearTerminal tr { t.screen with
      videoMem := t.screen.videoMem + offset } mem)).1.pos
    omega
  | enter hlen hcount =>
    rw [hlen]
    obtain ⟨hx0, -, hy0, -⟩ := honScreen
    simp only [Screen.pos, numCols]
    omega
  | erase hlen =>
    have hback := backspace_pos hfit.1 hfit.2 tr mem
    show t.inputLen - 1 ≤ (backspaceFnc tr { t.screen with
      videoMem := t.screen.videoMem + offset } mem).1.pos
    rw [hback]
    exact sub_le_sub_right h.len_le_pos 1
  | char key hreturn hback hroom =>
    have hputc := putc_pos (s := { t.screen with
      videoMem := t.screen.videoMem + offset }) h.onScreen tr (UInt8.ofNat key) mem
    have hlen := h.len_le_pos
    have hcell : ({ t.screen with videoMem := t.screen.videoMem + offset } : Screen).pos =
      t.screen.pos := rfl
    rw [hcell] at hputc
    show t.inputLen + 1 ≤ (putcInTerminal tr (UInt8.ofNat key) { t.screen with
      videoMem := t.screen.videoMem + offset } mem).1.pos
    omega

/-- The counters of the line buffer after a key. -/
theorem CursorOk.counts_press {o : Option Drawing} (h : CursorOk v t) (hp : Pressed t k o t') :
    t'.bufCount < 2 ^ 16 ∧ 0 ≤ t'.inputLen ∧ t'.inputLen ≤ t'.bufCount ∧ t'.inputLen ≤ 126 := by
  have hlt := h.count_lt
  have h0 := h.len_nonneg
  have hcount := h.len_le_count
  have hmax := h.len_le_max
  cases hp with
  | redraw => exact ⟨hlt, h0, hcount, hmax⟩
  | enter hlen hlt' => exact ⟨hlt', by omega, by omega, by omega⟩
  | erase hlen =>
    show (t.bufCount + (2 ^ 16 - 1)) % 2 ^ 16 < 2 ^ 16 ∧ 0 ≤ t.inputLen - 1 ∧
      t.inputLen - 1 ≤ (((t.bufCount + (2 ^ 16 - 1)) % 2 ^ 16 : ℕ) : ℤ) ∧ t.inputLen - 1 ≤ 126
    omega
  | char key hreturn hback hroom =>
    show (t.bufCount + 1) % 2 ^ 16 < 2 ^ 16 ∧ 0 ≤ t.inputLen + 1 ∧
      t.inputLen + 1 ≤ (((t.bufCount + 1) % 2 ^ 16 : ℕ) : ℤ) ∧ t.inputLen + 1 ≤ 126
    omega
  | ignored key hreturn => exact ⟨hlt, h0, hcount, hmax⟩

/-- **A key keeps the cursor on the screen**, and what it draws as well. -/
theorem cursorOk_press (h : CursorOk v t) (tr : ℤ → ℤ) (n : ℤ) (k : Keystroke)
    (mem : ScreenMemory) :
    CursorOk v (press tr n k t mem).1 ∧
      ∀ a, ¬ OwnByte tr (v + pageSize * (n + 1)) a → (press tr n k t mem).2 a = mem a := by
  have hpressed := pressed t k
  have hcounts := h.counts_press hpressed
  have hdraw := press_drawing tr n k t mem
  rw [press_buffer]
  cases hd : k.drawing t with
  | none =>
    rw [hd] at hdraw hpressed
    have hscreen := congrArg Prod.fst hdraw
    have hmem := congrArg Prod.snd hdraw
    simp only at hscreen hmem
    refine ⟨?_, fun a _ => by rw [hmem]⟩
    rw [hscreen]
    generalize k.buffer t = t' at hpressed
    cases hpressed with
    | ignored key hreturn => exact h.congr rfl rfl rfl
  | some d =>
    rw [hd] at hdraw hpressed
    have hscreen := congrArg Prod.fst hdraw
    have hmem := congrArg Prod.snd hdraw
    simp only at hscreen hmem
    have hfit := (h.fits hpressed).moved (t.screen.videoMem + pageSize * (n + 1))
    obtain ⟨hv, hx, hy⟩ := d.shifted_screen tr (pageSize * (n + 1)) t.screen mem
    refine ⟨?_, fun a ha => ?_⟩
    · rw [hscreen]
      refine ⟨hv.trans h.videoMem, ?_, hcounts.1, hcounts.2.1, hcounts.2.2.1, hcounts.2.2.2,
        h.pos_press hpressed tr _ mem⟩
      show OnScreen (d.shifted tr (pageSize * (n + 1)) t.screen mem).1.x
        (d.shifted tr (pageSize * (n + 1)) t.screen mem).1.y
      rw [hx, hy]
      exact run_cursor hfit tr mem
    · rw [hmem]
      rw [← h.videoMem] at ha
      exact run_frame hfit ha mem

/-- **A program's text keeps the cursor on the screen**, and it is drawn there. -/
theorem cursorOk_puts (h : CursorOk v t) (tr : ℤ → ℤ) (text : List UInt8) (mem : ScreenMemory) :
    CursorOk v { t with screen := (puts tr text (t.screen, mem)).1 } ∧
      ∀ a, ¬ OwnByte tr v a → (puts tr text (t.screen, mem)).2 a = mem a := by
  have hputs := puts_pos (r := (t.screen, mem)) h.onScreen tr text
  have hlast : lastRow = 1920 := rfl
  have hpos : t.inputLen ≤ (t.screen, mem).1.pos := h.len_le_pos
  have hmax := h.len_le_max
  refine ⟨⟨?_, puts_cursor (r := (t.screen, mem)) h.onScreen tr text, h.count_lt, h.len_nonneg,
    h.len_le_count, hmax, ?_⟩, fun a ha => ?_⟩
  · exact (puts_videoMem tr text (t.screen, mem)).trans h.videoMem
  · show t.inputLen ≤ (puts tr text (t.screen, mem)).1.pos
    omega
  · rw [← h.videoMem] at ha
    exact puts_frame (r := (t.screen, mem)) ha h.onScreen text

/-- A line that is taken leaves nothing to be taken back, as it was before. -/
theorem cursorOk_drain (h : CursorOk v t) (hlen : t.inputLen = 0) (nbytes : ℤ) (buf : Memory) :
    CursorOk v (drain t nbytes buf).2.2 := by
  obtain ⟨hscreen, hinput, hcount⟩ := drain_rest t nbytes buf
  refine ⟨?_, ?_, hcount, ?_, ?_, ?_, ?_⟩
  · rw [hscreen]
    exact h.videoMem
  · rw [hscreen]
    exact h.onScreen
  · rw [hinput, hlen]
  · rw [hinput, hlen]
    omega
  · rw [hinput, hlen]
    decide
  · rw [hinput, hscreen]
    exact h.len_le_pos

end Cursor

/-! ### Runs -/

/-- A terminal and its reader: a reader that has been released finds nothing to be taken back. -/
def RunOk (v : ℤ) (s : LineState) : Prop :=
  CursorOk v s.term ∧ (LineWaiting s → s.term.inputLen = 0)

section Runs

variable {n v : ℤ} {s s' : LineState} {e : TerminalEvent}

/-- Only Enter sets `hit_enter`, and it leaves nothing to be taken back. -/
theorem hitEnter_press {tr : ℤ → ℤ} {k : Keystroke} {t : Terminal} {mem : ScreenMemory}
    (h : (press tr n k t mem).1.hitEnter = true) :
    t.hitEnter = true ∨ (press tr n k t mem).1.inputLen = 0 := by
  rw [press_buffer] at h ⊢
  have hpressed := pressed t k
  generalize k.drawing t = o at hpressed
  generalize k.buffer t = t' at hpressed h
  cases hpressed with
  | redraw => exact Or.inl h
  | enter hlen hcount => exact Or.inr hlen
  | erase hlen =>
    simp only [Terminal.storeByte, Terminal.decrBufCount] at h
    exact Or.inl h
  | char key hreturn hback hroom => exact Or.inl h
  | ignored key hreturn => exact Or.inl h

/-- **A step keeps the cursor on the screen, and draws on the screen only.** -/
theorem runOk_step (hs : RunOk v s) (h : terminalStep n s e = some s') :
    RunOk v s' ∧ ∀ a, ¬ e.Owns n v a → s'.text a = s.text a := by
  obtain ⟨hcursor, hwait⟩ := hs
  cases terminalEffect_of_step h with
  | press tr k hk hwaiting =>
    obtain ⟨hok, hframe⟩ := cursorOk_press hcursor tr n k s.text
    refine ⟨⟨hok, fun hw => ?_⟩, hframe⟩
    -- the key has released the reader, so it was Enter
    simp only [LineWaiting] at hw hwaiting
    split at hw
    next nbytes hreader =>
      rw [hreader] at hwaiting
      rcases hitEnter_press hw with henter | hlen
      · exact absurd henter hwaiting
      · exact hlen
    next => exact hw.elim
  | write tr buf nbytes =>
    obtain ⟨hok, hframe⟩ :=
      cursorOk_puts hcursor tr ((List.range' 0 nbytes.toNat).map buf) s.text
    exact ⟨⟨hok, hwait⟩, hframe⟩
  | arm nbytes h1 =>
    refine ⟨⟨hcursor.congr rfl rfl rfl, fun hw => ?_⟩, fun _ _ => rfl⟩
    -- the read begins with `hit_enter` cleared
    exact absurd (show false = true from hw) (by decide)
  | drain nbytes hreader henter =>
    have hlen : s.term.inputLen = 0 := by
      apply hwait
      simp only [LineWaiting, hreader]
      exact henter
    exact ⟨⟨cursorOk_drain hcursor hlen nbytes fun _ => 0, fun hw => hw.elim⟩, fun _ _ => rfl⟩
  | disarm => exact ⟨⟨hcursor.congr rfl rfl rfl, fun hw => hw.elim⟩, fun _ _ => rfl⟩

theorem runOk_init (v : ℤ) (text : ScreenMemory) : RunOk v (terminalInit v text) :=
  ⟨⟨rfl, onScreen_origin, Nat.two_pow_pos 16, le_rfl, le_rfl, Int.natCast_nonneg 126, le_rfl⟩,
    fun hw => hw.elim⟩

/-- **The cursor never leaves the screen.**  In every run of keys, reads and writes of a terminal,
the cursor is on the screen after each step, and whatever memory holds, a step changes no byte
outside the 4000 bytes of the screen. -/
theorem cursor_onScreen {text : ScreenMemory} {es : List TerminalEvent}
    (h : run (terminalStep n) (terminalInit v text) es = some s) :
    OnScreen s.term.screen.x s.term.screen.y ∧
      ∀ e mem s', terminalStep n { s with text := mem } e = some s' →
        ∀ a, ¬ e.Owns n v a → s'.text a = mem a := by
  have hok : RunOk v s :=
    invariant_of_run (fun _ _ _ hs he => (runOk_step hs he).1) (runOk_init v text) h
  refine ⟨hok.1.onScreen, fun e mem s' he => ?_⟩
  have hmem : RunOk v { s with text := mem } := hok
  exact (runOk_step hmem he).2

end Runs

/-- A key is typed and taken back, and a program prints. -/
def typedBack : List TerminalEvent :=
  [.press id (.typed 97), .press id (.typed keyBackspace), .write id (fun _ => 10) 2]

theorem cursor_onScreen_typedBack :
    ∃ s, run (terminalStep 0) (terminalInit video fun _ => 0) typedBack = some s ∧
      OnScreen s.term.screen.x s.term.screen.y ∧
        ∀ e mem s', terminalStep 0 { s with text := mem } e = some s' →
          ∀ a, ¬ e.Owns 0 video a → s'.text a = mem a := by
  have hsome : (run (terminalStep 0) (terminalInit video fun _ => 0) typedBack).isSome = true := by
    decide +kernel
  obtain ⟨s, hs⟩ := Option.isSome_iff_exists.1 hsome
  exact ⟨s, hs, cursor_onScreen hs⟩

end LinuxIsLove
