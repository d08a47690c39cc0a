import LinuxIsLove.Foundation.Bytes

/-!
# `lib.c` and `keyboard.c`: text screens, line buffers and `terminal_read`

A screen is a cursor position and the address of its video memory.  The functions that draw on it
take the memory they store to and `tr`, which tells where an address leads under the loaded page
directory.

A terminal has a screen and a line buffer with the counters `buf_count` (a 16-bit unsigned integer)
and `input_len`.  `stores` and `wrapped` are not part of the source: they record the spans of the
line buffer that were stored to, and whether `buf_count` ever left the range of its type.
-/

namespace LinuxIsLove

open Bytes

/-! ### Text screens -/

def numCols : ℤ := 80
def numRows : ℤ := 25
def attrib : UInt8 := 0x7

structure Screen where
  x : ℤ
  y : ℤ
  videoMem : ℤ

/-- Memory with signed addresses. -/
abbrev ScreenMemory := ℤ → UInt8

/-- Store a character and its attribute at the cell with the number `i`. -/
def putCell (tr : ℤ → ℤ) (base i : ℤ) (c : UInt8) (mem : ScreenMemory) : ScreenMemory :=
  Function.update (Function.update mem (tr (base + 2 * i)) c) (tr (base + 2 * i + 1)) attrib

/-- Set `n` cells from the cell `i` on, one after the other, each to a character read from
memory. -/
def putCells (tr : ℤ → ℤ) (base : ℤ) (c : ScreenMemory → ℤ → UInt8) :
    ℕ → ℤ → ScreenMemory → ScreenMemory
  | 0, _, mem => mem
  | n + 1, i, mem => putCells tr base c n (i + 1) (putCell tr base i (c mem i) mem)

def clearTerminal (tr : ℤ → ℤ) (s : Screen) (mem : ScreenMemory) : Screen × ScreenMemory :=
  ({ s with x := 0, y := 0 },
    putCells tr s.videoMem (fun _ _ => 32) (numRows * numCols).toNat 0 mem)

def vertScrollInTerminal (tr : ℤ → ℤ) (s : Screen) (mem : ScreenMemory) : ScreenMemory :=
  let mem := putCells tr s.videoMem
    (fun mem i => mem (tr (s.videoMem + 2 * (i + numCols)))) ((numRows - 1) * numCols).toNat 0 mem
  putCells tr s.videoMem (fun _ _ => 32) numCols.toNat ((numRows - 1) * numCols) mem

def putcInTerminal (tr : ℤ → ℤ) (c : UInt8) (s : Screen) (mem : ScreenMemory) :
    Screen × ScreenMemory :=
  if c = 10 ∨ c = 13 then
    let s := { s with y := s.y + 1, x := 0 }
    if s.y > numRows - 1 then ({ s with y := numRows - 1 }, vertScrollInTerminal tr s mem)
    else (s, mem)
  else
    let mem := putCell tr s.videoMem (numCols * s.y + s.x) c mem
    let incrementY := if s.x + 1 > numCols - 1 then 1 else 0
    let s := { s with x := (s.x + 1).tmod numCols }
    -- `x` has been reduced already, so the quotient is 0
    let y := s.y + incrementY + s.x.tdiv numCols
    if y > numRows - 1 then ({ s with y := numRows - 1 }, vertScrollInTerminal tr s mem)
    else ({ s with y := y.tmod numRows }, mem)

def backspaceFnc (tr : ℤ → ℤ) (s : Screen) (mem : ScreenMemory) : Screen × ScreenMemory :=
  if s.x = 0 then
    let (s, mem) := putcInTerminal tr 32 { s with x := numCols - 1, y := s.y - 1 } mem
    ({ s with x := numCols - 1, y := s.y - 1 }, mem)
  else
    let (s, mem) := putcInTerminal tr 32 { s with x := s.x - 1 } mem
    ({ s with x := s.x - 1 }, mem)

/-! ### Terminals -/

def lineBufMax : ℕ := 128
def keyReturn : ℕ := 13
def keyBackspace : ℕ := 8

structure Terminal where
  screen : Screen
  lineBuf : ℤ → UInt8
  bufCount : ℕ
  inputLen : ℤ
  hitEnter : Bool
  reading : Bool
  stores : List (ℤ × ℤ)
  wrapped : Bool

/-- A terminal as `kybd_init` leaves it: `input_len` and `hit_enter` are zero from the start. -/
def kybdInit (videoMem : ℤ) : Terminal where
  screen := ⟨0, 0, videoMem⟩
  lineBuf := fun _ => 0
  bufCount := 0
  inputLen := 0
  hitEnter := false
  reading := false
  stores := []
  wrapped := false

namespace Terminal

/-- Store a byte to the line buffer. -/
def storeByte (t : Terminal) (i : ℤ) (b : UInt8) : Terminal :=
  { t with lineBuf := Function.update t.lineBuf i b, stores := (i, i + 1) :: t.stores }

/-- Clear `n` bytes of the line buffer from index `lo` on. -/
def clearBytes (t : Terminal) (lo : ℤ) (n : ℕ) : Terminal :=
  { t with
    lineBuf := fun i => if lo ≤ i ∧ i < lo + n then 0 else t.lineBuf i
    stores := (lo, lo + n) :: t.stores }

/-- Move `n` bytes of the line buffer from index `src` on to its start. -/
def moveBytes (t : Terminal) (src : ℤ) (n : ℕ) : Terminal :=
  { t with
    lineBuf := fun i => if 0 ≤ i ∧ i < n then t.lineBuf (src + i) else t.lineBuf i
    stores := (0, n) :: t.stores }

/-- `buf_count++` -/
def incrBufCount (t : Terminal) : Terminal :=
  { t with
    bufCount := (t.bufCount + 1) % 2 ^ 16
    wrapped := t.wrapped || decide (t.bufCount + 1 = 2 ^ 16) }

/-- `buf_count--` -/
def decrBufCount (t : Terminal) : Terminal :=
  { t with
    bufCount := (t.bufCount + (2 ^ 16 - 1)) % 2 ^ 16
    wrapped := t.wrapped || decide (t.bufCount = 0) }

end Terminal

/-- Draw on the screen of the displayed terminal, whose video memory is addressed through the page
that every directory maps for it. -/
def drawDisplayed (currentTerminal : ℤ) (pageSize : ℤ)
    (draw : Screen → ScreenMemory → Screen × ScreenMemory) (t : Terminal) (mem : ScreenMemory) :
    Terminal × ScreenMemory :=
  let offset := pageSize * (currentTerminal + 1)
  let (s, mem) := draw { t.screen with videoMem := t.screen.videoMem + offset } mem
  ({ t with screen := { s with videoMem := s.videoMem - offset } }, mem)

/-- What a key does to the line buffer of the displayed terminal. -/
def updateBuffer (key : ℕ) (t : Terminal) : Terminal :=
  if key = keyReturn then
    let t := (t.storeByte t.bufCount 10).incrBufCount
    let t := { t with hitEnter := true, inputLen := 0 }
    -- nobody waits for the line: it is thrown away
    if !t.reading then { t.clearBytes 0 lineBufMax with bufCount := 0 } else t
  else if key = keyBackspace then
    -- only what was typed since the last Enter can be taken back
    if t.inputLen ≠ 0 then
      let t := { t.decrBufCount with inputLen := t.inputLen - 1 }
      t.storeByte t.bufCount 0
    else t
  else if t.bufCount < lineBufMax - 1 - 1 then
    let t := t.storeByte t.bufCount (UInt8.ofNat key)
    { t.incrBufCount with inputLen := t.inputLen + 1 }
  else t

/-- What a key draws. -/
def updateScreen (tr : ℤ → ℤ) (currentTerminal pageSize : ℤ) (key : ℕ) (t : Terminal)
    (mem : ScreenMemory) : Terminal × ScreenMemory :=
  if key = keyReturn then
    drawDisplayed currentTerminal pageSize (putcInTerminal tr (UInt8.ofNat key)) t mem
  else if key = keyBackspace then
    if t.inputLen ≠ 0 then drawDisplayed currentTerminal pageSize (backspaceFnc tr) t mem
    else (t, mem)
  else if t.bufCount < lineBufMax - 1 - 1 then
    drawDisplayed currentTerminal pageSize (putcInTerminal tr (UInt8.ofNat key)) t mem
  else (t, mem)

/-- Handle a key: every branch of the source draws before it touches the line buffer. -/
def update (tr : ℤ → ℤ) (currentTerminal pageSize : ℤ) (key : ℕ) (t : Terminal)
    (mem : ScreenMemory) : Terminal × ScreenMemory :=
  let (t, mem) := updateScreen tr currentTerminal pageSize key t mem
  (updateBuffer key t, mem)

/-! ### `terminal_read` -/

/-- The two assignments before the spin loop. -/
def armRead (t : Terminal) : Terminal := { t with reading := true, hitEnter := false }

/-- The `cli`..`sti` section: the number of characters read, the caller's buffer and the terminal.
The difference is a 32-bit integer, and the lengths of the copies are converted to unsigned ones. -/
def drain (t : Terminal) (nbytes : ℤ) (buf : Memory) : ℤ × Memory × Terminal :=
  let nbytes := if nbytes > lineBufMax then (lineBufMax : ℤ) else nbytes
  let diff := s32 (u32 (t.bufCount - nbytes))
  let charsRead := if nbytes > t.bufCount then (t.bufCount : ℤ) else nbytes
  let diff := if diff < 0 then 0 else diff
  let buf := copy buf (fun j => t.lineBuf j) (u32 nbytes)
  let t := (t.moveBytes nbytes (u32 diff)).clearBytes diff (u32 nbytes)
  (charsRead, buf, { t with bufCount := (diff % 2 ^ 16).toNat })

/-- The two assignments after the `cli`..`sti` section. -/
def disarmRead (t : Terminal) : Terminal := { t with reading := false, hitEnter := false }

/-- `terminal_write`: print `nbytes` characters one after the other. -/
def terminalWriteLoop (tr : ℤ → ℤ) (buf : Memory) :
    ℕ → ℕ → Screen × ScreenMemory → Screen × ScreenMemory
  | 0, _, s => s
  | n + 1, i, s => terminalWriteLoop tr buf n (i + 1) (putcInTerminal tr (buf i) s.1 s.2)

/-! ### The drain section on a sound line buffer -/

/-- The drain copies at most `LINE_BUF_MAX` bytes to the caller and reports at most what was asked
for. -/
theorem drain_spec (t : Terminal) {nbytes : ℤ} (h0 : 0 ≤ nbytes) (buf : Memory) :
    (drain t nbytes buf).1 = min (min nbytes lineBufMax) t.bufCount ∧
      (drain t nbytes buf).2.1 =
        copy buf (fun j => t.lineBuf j) (min nbytes.toNat lineBufMax) := by
  have hmax : (if nbytes > lineBufMax then (lineBufMax : ℤ) else nbytes) =
      min nbytes lineBufMax := by
    split_ifs <;> omega
  have hu : u32 (min nbytes lineBufMax) = min nbytes.toNat lineBufMax := by
    have hlt : min nbytes (lineBufMax : ℤ) < 2 ^ 32 := lt_of_le_of_lt (min_le_right _ _) (by decide)
    rw [u32_of_nonneg (le_min h0 (by decide)) hlt]
    simp only [lineBufMax]
    omega
  simp only [drain, hmax, hu]
  refine ⟨?_, trivial⟩
  split_ifs <;> omega

end LinuxIsLove
