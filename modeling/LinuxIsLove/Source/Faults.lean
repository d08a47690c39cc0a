import LinuxIsLove.Source.Events

/-!
# `lib.c`, `isr.c` and `keyboard.c`: the console, processor exceptions and the redraw

`lib.c` keeps a screen of its own, the console, in `screen_x`, `screen_y` and `video_mem`.
`fault_handler` points it at the text page of the process's terminal, prints a message there and
ends the process with `halt(1)`.  Ctrl-L clears the displayed terminal and prints its line buffer.

A `Machine` is the kernel with its console; its inputs are the events of the kernel, exceptions and
Ctrl-L.  The exception handlers run with interrupts disabled, so each is one step.
-/

namespace LinuxIsLove

open Bytes EventMachine

/-! ### Printing on the console -/

/-- `putc` draws on the console as `putc_in_terminal` draws on a screen. -/
def putc (tr : ℤ → ℤ) (c : UInt8) (console : Screen) (mem : ScreenMemory) :
    Screen × ScreenMemory :=
  putcInTerminal tr c console mem

def puts (tr : ℤ → ℤ) (s : List UInt8) (console : Screen × ScreenMemory) :
    Screen × ScreenMemory :=
  s.foldl (fun r c => putc tr c r.1 r.2) console

/-- The bytes of a string constant. -/
def ascii (s : String) : List UInt8 := s.toList.map fun c => UInt8.ofNat c.toNat

/-- `itoa` with radix 10. -/
def itoa (value : ℕ) : List UInt8 :=
  if value = 0 then [48] else ((Nat.digits 10 value).map fun d => UInt8.ofNat (48 + d)).reverse

/-- What `printf` makes of `%d`. -/
def printDecimal (value : ℤ) : List UInt8 :=
  if value < 0 then 45 :: itoa (-value).toNat else itoa value.toNat

/-! ### Processor exceptions -/

def exceptionMessages : List String :=
  ["Division by zero", "Debugger", "NMI", "Breakpoint", "Overflow", "Bounds", "Invalid Opcode",
    "Coprocessor not availible", "Double fault", "Coprocessor segment overrun", "Invalid TSS",
    "Segment not present", "Stack fault", "General protection fault", "Page fault",
    "Unknown interrupt", "Math fault", "Alignment Check", "Machine check"] ++
    List.replicate 13 "Reserved"

/-- The message with its format `Process terminated with exception %d: %s (%d)`. -/
def faultMessage (intNo errCode : ℕ) : List UInt8 :=
  ascii "Process terminated with exception " ++ printDecimal intNo ++ ascii ": " ++
    ascii (exceptionMessages.getD intNo "") ++ ascii " (" ++ printDecimal (s32 errCode) ++
    ascii ")" ++ [10]

structure Machine where
  kernel : Kernel
  console : Screen

/-- The part of `fault_handler` up to the `halt`: print on the screen of the process's terminal. -/
def faultPrint (E : Env) (intNo errCode : ℕ) (m : Machine) : Machine :=
  let k := m.kernel
  let termNum := k.current.termNum
  let terminal := k.terminals termNum.toNat
  let offset := pageSize * (termNum + 1)
  let console := { terminal.screen with videoMem := terminal.screen.videoMem + offset }
  let (console, text) := puts (k.physical E) (faultMessage intNo errCode) (console, k.text)
  let screen := { console with videoMem := console.videoMem - offset }
  { kernel := { k with
      terminals := Function.update k.terminals termNum.toNat { terminal with screen := screen }
      text := text }
    console := console }

/-- Without a process the handler prints and then loops forever. -/
def faultHandler (E : Env) (intNo errCode : ℕ) (m : Machine) : Option Machine :=
  if processes m.kernel = 0 then none
  else
    let m := faultPrint E intNo errCode m
    (step E m.kernel (.halt 1)).map fun k => { m with kernel := k }

/-! ### The redraw -/

/-- Ctrl-L: clear the displayed terminal and print what its line buffer holds. -/
def redraw (E : Env) (k : Kernel) : Option Kernel :=
  if 0 ≤ k.currentTerminal then
    let i := k.currentTerminal.toNat
    let t := k.terminals i
    let tr := k.physical E
    let s := drawDisplayed k.currentTerminal pageSize
      (fun s mem => terminalWriteLoop tr (fun j => t.lineBuf j) t.bufCount 0
        (clearTerminal tr s mem)) t k.text
    some { k with terminals := Function.update k.terminals i s.1, text := s.2 }
  else none

/-! ### The machine -/

inductive Input
  | event (e : Event)
  | redraw
  /-- an exception of the running process, with its number and its error code -/
  | fault (intNo errCode : ℕ)

def machineStep (E : Env) (m : Machine) : Input → Option Machine
  | .event e => (step E m.kernel e).map fun k => { m with kernel := k }
  | .redraw => (redraw E m.kernel).map fun k => { m with kernel := k }
  | .fault intNo errCode => if intNo < 32 then faultHandler E intNo errCode m else none

/-- The machine at the start of `entry`'s `start_terminal(0)`, with whatever was printed before. -/
def bootMachine (E : Env) (console : Screen) : Machine := ⟨boot E, console⟩

/-- The states that the machine reaches. -/
def MachineReachable (E : Env) (m : Machine) : Prop :=
  ∃ console is, run (machineStep E) (bootMachine E console) is = some m

end LinuxIsLove
