import LinuxIsLove.Source.Faults

/-!
# `keyboard.c`: from scancodes to keys

The handler of keyboard interrupts reads a byte from the port of the keyboard.  The low seven bits
are the code of a key, which the table `kybd_keys` translates; the high bit is set when the key is
released.  A pressed key changes the modifiers, asks for a redraw or for another terminal, or goes
to the displayed terminal.

The handler puts out the accesses it makes to the arrays `kybd_keys` and `terminals`, with their
indices.  What memory holds behind the table is the parameter `beyond`.  It runs with interrupts
disabled, so it is one step of the machine, and it comes between any others.
-/

namespace LinuxIsLove

/-! ### The table -/

def maskKeyPress : UInt8 := 0x80
def maxScancode : ℕ := 0x3A

def keyUnknown : ℕ := 0x0000
def keyEscape : ℕ := 0x1001
def keyQuote : ℕ := 39
def keyGrave : ℕ := 96
def keyBackslash : ℕ := 92
def keySpace : ℕ := 32

/-- The function keys `F1` to `F10`. -/
def keyF (n : ℕ) : ℕ := 0x1200 + n

def keyF11 : ℕ := 0x120b
def keyF12 : ℕ := 0x120b
def keyKpNumlock : ℕ := 0x300f
def keyTab : ℕ := 0x4000
def keyCapslock : ℕ := 0x4001
def keyLshift : ℕ := 0x4002
def keyLctrl : ℕ := 0x4003
def keyLalt : ℕ := 0x4004
def keyRshift : ℕ := 0x4006
def keyRctrl : ℕ := 0x4007
def keyRalt : ℕ := 0x4008
def keyHome : ℕ := 0x400c
def keyPageup : ℕ := 0x400e
def keyScrolllock : ℕ := 0x4010

/-- The codes of characters. -/
def codes (cs : List Char) : List ℕ := cs.map Char.toNat

/-- The entries stand one after the other: the ones from `KEY_KP_2` on, which the source marks with
the codes from 0x50 on, are the entries from 0x4a on. -/
def kybdKeys : List ℕ :=
  -- 0x00
  [keyUnknown, keyEscape] ++
  codes ['1', '2', '3', '4', '5', '6', '7', '8', '9', '0', '-', '='] ++
  [keyBackspace, keyTab] ++
  -- 0x10
  codes ['q', 'w', 'e', 'r', 't', 'y', 'u', 'i', 'o', 'p', '[', ']'] ++
  [keyReturn, keyLctrl] ++
  -- 0x1e
  codes ['a', 's', 'd', 'f', 'g', 'h', 'j', 'k', 'l', ';'] ++
  [keyQuote, keyGrave, keyLshift, keyBackslash] ++
  -- 0x2c
  codes ['z', 'x', 'c', 'v', 'b', 'n', 'm', ',', '.', '/'] ++
  [keyRshift] ++ codes ['*'] ++ [keyRalt, keySpace, keyCapslock] ++
  -- 0x3b
  [keyF 1, keyF 2, keyF 3, keyF 4, keyF 5, keyF 6, keyF 7, keyF 8, keyF 9, keyF 10] ++
  [keyKpNumlock, keyScrolllock, keyHome] ++ codes ['8'] ++ [keyPageup] ++
  codes ['2', '3', '0', '.'] ++ [keyUnknown, keyUnknown, keyUnknown, keyF11, keyF12]

/-- What `kybd_keys[scancode]` reads. -/
def kybdKey (beyond : ℕ → ℕ) (scancode : ℕ) : ℕ := kybdKeys.getD scancode (beyond scancode)

/-! ### Modifiers -/

structure Modifiers where
  rShiftKey : Bool
  lShiftKey : Bool
  rCtrlKey : Bool
  lCtrlKey : Bool
  rAltKey : Bool
  lAltKey : Bool
  capsLock : Bool

namespace Modifiers

def shift (m : Modifiers) : Bool := m.lShiftKey || m.rShiftKey

def alt (m : Modifiers) : Bool := m.lAltKey || m.rAltKey

def ctrl (m : Modifiers) : Bool := m.lCtrlKey || m.rCtrlKey

/-- What a released key does.  Left Ctrl stands for the right one, and the other way round. -/
def release (m : Modifiers) (keyOut : ℕ) : Modifiers :=
  if keyOut = keyRshift then { m with rShiftKey := false }
  else if keyOut = keyLshift then { m with lShiftKey := false }
  else if keyOut = keyLctrl then { m with rCtrlKey := false }
  else if keyOut = keyRctrl then { m with lCtrlKey := false }
  else if keyOut = keyLalt then { m with lAltKey := false }
  else if keyOut = keyRalt then { m with rAltKey := false }
  else m

/-- What a pressed modifier does; any other key is looked at further. -/
def press (m : Modifiers) (keyOut : ℕ) : Option Modifiers :=
  if keyOut = keyCapslock then some { m with capsLock := !m.capsLock }
  else if keyOut = keyRshift then some { m with rShiftKey := true }
  else if keyOut = keyLshift then some { m with lShiftKey := true }
  else if keyOut = keyLctrl then some { m with rCtrlKey := true }
  else if keyOut = keyRctrl then some { m with lCtrlKey := true }
  else if keyOut = keyLalt then some { m with lAltKey := true }
  else if keyOut = keyRalt then some { m with rAltKey := true }
  else none

end Modifiers

/-! ### Keys that are no modifiers -/

/-- The `switch` over the keys whose character Shift changes. -/
def shiftedKey (keyOut : ℕ) : ℕ :=
  match keyOut with
  | 48 => 41 -- 0 and )
  | 49 => 33 -- 1 and !
  | 50 => 64 -- 2 and @
  | 51 => 35 -- 3 and #
  | 52 => 36 -- 4 and $
  | 53 => 37 -- 5 and %
  | 54 => 94 -- 6 and ^
  | 55 => 38 -- 7 and &
  | 56 => 42 -- 8 and *
  | 57 => 40 -- 9 and (
  | 44 => 60 -- comma and <
  | 46 => 62 -- dot and >
  | 47 => 63 -- slash and ?
  | 59 => 58 -- semicolon and colon
  | 39 => 34 -- quote and double quote
  | 91 => 123 -- left bracket and left curl
  | 93 => 125 -- right bracket and right curl
  | 96 => 126 -- grave and ~
  | 45 => 95 -- minus and underscore
  | 61 => 43 -- = and +
  | 92 => 124 -- backslash and bar
  | _ => keyOut

/-- The character of a key under the modifiers. -/
def modifiedKey (m : Modifiers) (keyOut : ℕ) : ℕ :=
  if (m.capsLock ^^ m.shift) = true ∧ (m.alt = false ∧ m.ctrl = false) ∧
      (97 ≤ keyOut ∧ keyOut ≤ 122) then
    keyOut - (97 - 65)
  else if m.shift = true ∧ m.ctrl = false ∧ m.alt = false then shiftedKey keyOut
  else keyOut

/-- The keys that go to the displayed terminal. -/
def Typable (keyOut : ℕ) : Prop :=
  (32 ≤ keyOut ∧ keyOut ≤ 126) ∨ keyOut = keyBackspace ∨ keyOut = keyReturn

instance : DecidablePred Typable := fun _ => inferInstanceAs (Decidable (_ ∨ _ ∨ _))

/-- What a pressed key asks the kernel for. -/
def keyRequest (m : Modifiers) (scancode keyOut : ℕ) : Option Input :=
  if m.shift = false ∧ m.ctrl = true ∧ keyOut = 108 then some .redraw
  else if m.ctrl = false ∧ m.shift = false ∧ m.alt = true ∧ keyOut = keyF 1 then
    some (.event (.key 0))
  else if m.ctrl = false ∧ m.shift = false ∧ m.alt = true ∧ keyOut = keyF 2 then
    some (.event (.key 1))
  else if m.ctrl = false ∧ m.shift = false ∧ m.alt = true ∧ keyOut = keyF 3 then
    some (.event (.key 2))
  else if scancode > maxScancode then none
  else
    let keyOut := modifiedKey m keyOut
    if Typable keyOut then some (.event (.type keyOut)) else none

/-! ### The handler -/

/-- An access to an element of an array, with its index. -/
inductive Access
  | kybdKeys (i : ℕ)
  | terminals (i : ℤ)

def Access.InRange : Access → Prop
  | .kybdKeys i => i < LinuxIsLove.kybdKeys.length
  | .terminals i => 0 ≤ i ∧ i < maxTerminals

instance : DecidablePred Access.InRange
  | .kybdKeys _ => inferInstanceAs (Decidable (_ < _))
  | .terminals _ => inferInstanceAs (Decidable (_ ∧ _))

/-- The elements of `terminals` that a request gets to. -/
def terminalAccesses (k : Kernel) : Input → List Access
  | .event (.type _) => [.terminals k.currentTerminal]
  | .redraw =>
    let terminal := Access.terminals k.currentTerminal
    -- the loop over the line buffer: two accesses in the body, and one in the condition
    [terminal, terminal] ++
      (List.replicate (k.terminals k.currentTerminal.toNat).bufCount
        [terminal, terminal, terminal]).flatten ++
      [terminal, terminal, terminal]
  | .event (.key termNum) => if startTerminalAccepts k termNum then [.terminals termNum] else []
  | _ => []

/-- The machine with the static variables of the keyboard. -/
structure Keyed where
  machine : Machine
  modifiers : Modifiers

/-- The handler, with what it reads from the two ports: the accesses that it makes, and the state
that it leaves. -/
def keyboardHandlerMain (E : Env) (beyond : ℕ → ℕ) (status scancode : UInt8) (s : Keyed) :
    List Access × Option Keyed :=
  if status &&& 1 = 0 then ([], some s)
  else if scancode &&& maskKeyPress ≠ 0 then
    let scancode := (scancode - maskKeyPress).toNat
    let keyOut := kybdKey beyond scancode
    ([.kybdKeys scancode], some { s with modifiers := s.modifiers.release keyOut })
  else
    let scancode := scancode.toNat
    let keyOut := kybdKey beyond scancode
    match s.modifiers.press keyOut with
    | some modifiers => ([.kybdKeys scancode], some { s with modifiers := modifiers })
    | none =>
      match keyRequest s.modifiers scancode keyOut with
      | some i => (.kybdKeys scancode :: terminalAccesses s.machine.kernel i,
          (machineStep E s.machine i).map fun m => { s with machine := m })
      | none => ([.kybdKeys scancode], some s)

/-! ### Runs with a keyboard -/

inductive KeyedInput
  /-- an interrupt of the keyboard, with what its two ports hold -/
  | keyboard (status scancode : UInt8)
  /-- anything else; the `start_terminal(0)` of `entry` is one of these -/
  | rest (i : Input)

def keyedStep (E : Env) (beyond : ℕ → ℕ) (s : Keyed) : KeyedInput → Option Keyed
  | .keyboard status scancode => (keyboardHandlerMain E beyond status scancode s).2
  | .rest i => (machineStep E s.machine i).map fun m => { s with machine := m }

/-- The accesses that an input makes in the handler of the keyboard. -/
def keyedAccesses (E : Env) (beyond : ℕ → ℕ) (s : Keyed) : KeyedInput → List Access
  | .keyboard status scancode => (keyboardHandlerMain E beyond status scancode s).1
  | .rest _ => []

/-- The machine when `entry` enables interrupts. -/
def bootKeyed (E : Env) (console : Screen) : Keyed where
  machine := bootMachine E console
  modifiers := ⟨false, false, false, false, false, false, false⟩

end LinuxIsLove
