import LinuxIsLove.Foundation.Buffers
import LinuxIsLove.Source.Execute

/-!
# `sys_calls.c`: `execute`, statement by statement

`execute` says what a call comes to.  This file has the call itself: the copies that `parse_arg`
makes to two arrays on the kernel stack, the tests that refuse a command, and then one assignment
after the other to the process table, the control block, the directory and the processor.

A store behind the end of an array hits what the compiler has put there, which the source does not
say; such a call ends as `overran`.  A file that is longer than what the page holds ends the call in
`load`, with the new process set up and its pid taken: the fault handler halts the caller, and no
program starts.
-/

namespace LinuxIsLove

open Bytes PageWalk

/-- Copy the first word of a command to one buffer, and what follows its blanks to the other. -/
def parseArgCall (command : Memory) (commandBuf argBuf : Buffer) : Buffer × Buffer :=
  let i := scan (fun b => b = 0 || b = 32 || b = 10) command (2 ^ 32) 0
  let commandBuf := (commandBuf.memcpy command i).set i 0
  let i := scan (fun b => b ≠ 32) command (2 ^ 32) i
  (commandBuf, argBuf.strcpy (window command i))

/-- How a call of `execute` ends. -/
inductive CallResult
  /-- back in the caller, with a value -/
  | returned (value : ℤ) (k : Kernel)
  /-- in user mode, at the entry point of the program -/
  | started (k : Kernel)
  /-- with a store behind the end of an array -/
  | overran
  /-- with a page fault in `load` -/
  | faulted

/-- What the kernel stack holds where the local variables of `execute` come to lie. -/
structure Locals where
  commandBuf : Memory
  args : Memory
  buf : Memory
  dentry : Dentry

/-- The arrays that `execute` copies strings to, and how the call ends; `pcbArgs` is the array of
the new control block. -/
structure ExecuteState where
  commandBuf : Buffer
  args : Buffer
  pcbArgs : Option Buffer
  result : CallResult

namespace Kernel

/-- Assign to fields of a control block. -/
def setPcb (k : Kernel) (pid : ℕ) (f : Pcb → Pcb) : Kernel :=
  { k with pcb := Function.update k.pcb pid (f (k.pcb pid)) }

def setPd (k : Kernel) (pid : ℕ) (pd : Table) : Kernel :=
  { k with pd := Function.update k.pd pid pd }

/-- Leave `execute` to user mode; `callerTerm` is the terminal that the caller had. -/
def enterUser (k : Kernel) (site : Site) (pid : ℕ) (callerTerm : ℤ) : Kernel :=
  { k with
    running := pid
    stopped := Function.update k.stopped k.running ⟨site, k.clock⟩
    starts := ⟨pid, (k.pcb pid).parentPcb, (k.pcb pid).termNum, site, k.running, callerTerm⟩ ::
      k.starts
    vidmapped := Function.update k.vidmapped pid false }

end Kernel

/-- The part of `execute` after a slot was found. -/
def buildProcess (E : Env) (site : Site) (pid : ℕ) (dentry : Dentry) (args : Memory) (k : Kernel) :
    Buffer × Kernel :=
  let pcbStart := k.running
  let callerTerm := k.current.termNum
  let k := k.setPcb pid fun b => { b with files := initFiles b.files }
  let k := k.setPcb pid fun b => { b with pid := pid }
  let k :=
    if currTerminalRunningProcess k then
      let k := k.setPcb pid fun b => { b with parentPcb := some pcbStart }
      k.setPcb pid fun b => { b with termNum := (k.pcb pcbStart).termNum }
    else
      let k := k.setPcb pid fun b => { b with parentPcb := none }
      k.setPcb pid fun b => { b with termNum := k.currentTerminal }
  -- process paging
  let k := k.setPd pid (pdInit E.layout (k.pd pid) (k.pcb pid).termNum.toNat)
  let k := k.setPd pid (setPde (k.pd pid) (BitVec.ofNat 32 progVmStart)
    (BitVec.ofNat 32 (frameAddr pid)) (flagPS ||| flagU ||| flagWE ||| flagP))
  let k := { k with cr3 := pid }
  let k := k.setPcb pid fun b => { b with argsLen := strlen args 0 }
  let pcbArgs := (Buffer.fresh (k.pcb pid).args).strcpy args
  let k := k.setPcb pid fun b => { b with args := pcbArgs.bytes }
  let k := k.setPcb pid fun b => { b with pd := pid }
  let k := k.setPcb pid fun b => { b with context := { b.context with esp0 := stackTop pid } }
  let k := setActiveProcess k (k.pcb pid).termNum (some pid)
  let k := { k with tssEsp0 := (k.pcb pid).context.esp0 }
  -- the image goes to the page that the loaded directory maps
  let mem := k.userMem k.cr3
  let mem := splice mem startExeAddr (load E.img dentry (window mem startExeAddr))
  let k := { k with userMem := Function.update k.userMem k.cr3 mem }
  let k := k.setPcb pid fun b => { b with ebpParent := ⟨site, k.clock⟩ }
  let k := k.setPcb pid fun b => { b with espParent := ⟨site, k.clock⟩ }
  (pcbArgs, k.enterUser site pid callerTerm)

def executeCall (E : Env) (site : Site) (l : Locals) (command : CString) (k : Kernel) :
    ExecuteState :=
  let k := k.setIflag false
  let (commandBuf, args) := parseArgCall command.mem (.fresh l.commandBuf) (.fresh l.args)
  if ¬ (commandBuf.Within argsMax ∧ args.Within argsMax) then ⟨commandBuf, args, none, .overran⟩
  else
    let (found, dentry) := readDentryByName E.img (CString.ofMem commandBuf.bytes) l.dentry
    if found = -1 then ⟨commandBuf, args, none, .returned (-1) k⟩
    else
      let (n, buf) := readData E.img (Dentry.inode dentry) 0 l.buf elfHeaderLen
      if n < elfHeaderLen then ⟨commandBuf, args, none, .returned (-1) k⟩
      else if word32 buf 0 = elfMagic then
        match addProcess k with
        | none => ⟨commandBuf, args, none, .returned (-1) k⟩
        | some (pid, k) =>
          let (pcbArgs, k) := buildProcess E site pid dentry args.bytes k
          ⟨commandBuf, args, some pcbArgs,
            if ¬ pcbArgs.Within argsMax then .overran
            else if loadRoom < inodeLength E.img (Dentry.inode dentry) then .faulted
            else .started k⟩
      else ⟨commandBuf, args, none, .returned (-1) k⟩

end LinuxIsLove
