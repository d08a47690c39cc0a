import LinuxIsLove.Source.Events

/-!
# Runs of the kernel with interrupts inside the system calls

In `Events` a system call is one step.  Here the interrupt flag decides: an interrupt may come at
any point where the flag is set, so `halt`, the call that frees a pid before it is done with the
process, is taken in parts.  `cli` and `delete_process` are the first part, the close routine of
each descriptor is a part of its own, and the last part hands the terminal over.

`Threads.stage` records where the halt of a process stands; it belongs to the kernel stack of the
process and is lost when the stack is given to another one.

`execute` and the interrupt handlers run with the flag cleared and are single steps.  What the other
system calls do between two points where they may be interrupted is left open: `Part` is any change
of what they write to.
-/

namespace LinuxIsLove

open Bytes PageWalk EventMachine

/-- A halt under way: the next descriptor to close, and the exit status. -/
structure Stage where
  next : ℕ
  status : UInt8

structure Threads where
  kernel : Kernel
  stage : ℕ → Option Stage

/-- What the calls of a running process write to, but `execute` and `halt`: its descriptors, its
memory and directory, the terminals, the drivers. -/
structure Part where
  files : ℕ → Fd
  mem : Memory
  table : Table
  terminals : ℕ → Terminal
  text : ScreenMemory
  devices : Devices
  vidmapped : Bool
  eax : ℤ

def Part.apply (x : Part) (k : Kernel) : Kernel :=
  { (k.setFiles x.files).setMem x.mem with
    pd := Function.update k.pd k.current.pd x.table
    terminals := x.terminals
    text := x.text
    devices := x.devices
    vidmapped := Function.update k.vidmapped k.running x.vidmapped
    eax := x.eax }

inductive Action
  /-- an interrupt, or a whole system call -/
  | event (e : Event)
  /-- a part of a system call -/
  | part (x : Part)
  /-- the call of `halt`, up to the loop over the descriptors -/
  | halt (status : UInt8)
  /-- the running process goes on with its halt -/
  | goOn

def Event.isInterrupt : Event → Bool
  | .key _ | .tick | .type _ | .rtcInterrupt => true
  | _ => false

def Event.isHalt : Event → Bool
  | .halt _ => true
  | _ => false

/-- A halt under way is lost when a process is set up on its stack. -/
def settle (stage : ℕ → Option Stage) (k : Kernel) : Threads :=
  ⟨k, fun p => if Allocated k p then none else stage p⟩

/-- Interrupts are taken when the flag is set, calls are made by a process that is not in its
halt. -/
def accepts (m : Threads) (e : Event) : Bool :=
  if e.isInterrupt then m.kernel.devices.iflag
  else !e.isHalt && (m.stage m.kernel.running).isNone

/-- Close the next descriptor, or hand the terminal over. -/
def goOn (E : Env) (m : Threads) (s : Stage) : Option Threads :=
  let p := m.kernel.running
  if s.next < fileArrayLen then
    (haltClose s.next m.kernel).map fun k =>
      ⟨k, Function.update m.stage p (some { s with next := s.next + 1 })⟩
  else
    (haltFinish E s.status m.kernel).map fun k =>
      settle (Function.update m.stage p none) (k.setIflag true)

def act (E : Env) (m : Threads) : Action → Option Threads
  | .event e => if accepts m e then (step E m.kernel e).map (settle m.stage) else none
  | .part x =>
    if m.kernel.running ≠ 0 ∧ (m.stage m.kernel.running).isNone then
      some { m with kernel := x.apply m.kernel }
    else none
  | .halt status =>
    if m.kernel.running ≠ 0 ∧ (m.stage m.kernel.running).isNone then
      some ⟨haltBegin m.kernel.advanceClock,
        Function.update m.stage m.kernel.running (some ⟨0, status⟩)⟩
    else none
  | .goOn => (m.stage m.kernel.running).bind (goOn E m)

def bootThreads (E : Env) : Threads := ⟨boot E, fun _ => none⟩

end LinuxIsLove
