import LinuxIsLove.Source.Execute

/-!
# `pit.c` and `keyboard.c`: the scheduler and the start of terminals

The timer handler saves the context of the running process, starts a deferred shell if one was
asked for, and switches to the active process of the next terminal that has one.  A keyboard
shortcut displays another terminal; if that terminal has no process its first shell is started at
once or left to the next tick, depending on whether the terminal that was displayed has a process.

When a switch is made the stack in use is taken to be that of the process switched to, whatever
stack pointer its control block holds; `Kernel.resumes` keeps the pointers that were loaded.
-/

namespace LinuxIsLove

/-- Save the stack and frame pointer in the control block of the running process. -/
def saveContext (frame : Token) (k : Kernel) : Kernel :=
  let context := { k.current.context with esp := frame, ebp := frame }
  { k with pcb := Function.update k.pcb k.running { k.current with context := context } }

/-- The first active process found on the terminals after `runningTerm`, itself last. -/
def nextPid (k : Kernel) (runningTerm : ℤ) : Option ℕ :=
  [1, 2, 3].findSome? fun i : ℤ => getActiveProcess k ((runningTerm + i).tmod maxTerminals)

/-- Load the context of another process. -/
def switchTo (frame : Token) (next : ℕ) (k : Kernel) : Kernel :=
  { k with
    cr3 := (k.pcb next).pd
    tssEsp0 := (k.pcb next).context.esp0
    running := next
    stopped := Function.update k.stopped k.running frame
    resumes := ⟨next, (k.pcb next).context.esp, (k.pcb next).context.ebp, k.stopped next,
      (k.pcb next).pd, (k.pcb next).context.esp0⟩ :: k.resumes }

/-- The scheduling part of the timer handler, which stops the running process in `frame`.  Without
any active process the source reads a control block at the end of kernel memory. -/
def schedule (frame : Token) (k : Kernel) : Option Kernel :=
  match nextPid k k.current.termNum with
  | none => none
  | some next => if k.current.pid = next then some k else some (switchTo frame next k)

/-- The timer handler.  A shell that is started here returns to the scheduling part when it
halts. -/
def pitHandlerMain (E : Env) (k : Kernel) : Option Kernel :=
  if processes k = 0 then some k
  else
    let frame : Token := ⟨.pit, k.clock⟩
    let k := saveContext frame k
    if k.nextExecute then
      -- the flag is cleared first, so a shell that cannot be started is not tried again
      let k := { k with nextExecute := false }
      match execute E .pit shell k with
      | some k => afterLoad E shell k
      | none => schedule frame k
    else schedule frame k

/-- Whether `start_terminal` displays the terminal. -/
def startTerminalAccepts (k : Kernel) (termNum : ℕ) : Bool :=
  termNum < maxTerminals && (termNum : ℤ) ≠ k.currentTerminal &&
    (freeProcs k || (getActiveProcess k termNum).isSome)

/-- Display another terminal.  A shell that cannot be started at once is tried forever. -/
def startTerminal (E : Env) (termNum : ℕ) (k : Kernel) : Option Kernel :=
  if startTerminalAccepts k termNum then
    let currActiveProcess := getActiveProcess k k.currentTerminal
    let nextActiveProcess := getActiveProcess k termNum
    let k := { k with currentTerminal := termNum }
    if nextActiveProcess = none then
      -- the first shell of the terminal
      if currActiveProcess ≠ none then some { k with nextExecute := true }
      else (execute E .keyboard shell k).bind (afterLoad E shell)
    else some k
  else some k

end LinuxIsLove
