import LinuxIsLove.Foundation.Runs
import LinuxIsLove.Source.SysCalls

/-!
# Runs of the kernel

An event is an interrupt or something the running process does: a system call, or a computation
that changes its own memory only.  `step` takes one event as one step; a run is a list of events,
taken from `boot`.  The first event of a run is the `start_terminal(0)` of `entry`, which is
`key 0`; no process runs before it.

An event that leads nowhere is not enabled: the call through a null pointer, the endless attempts
to start a shell, the wait for a line that was not entered.

Nor is an event enabled that leaves what a `Kernel` describes.  The drivers take any pointer, and
the kernel runs in ring 0: a call with a buffer outside the page of the program reads or overwrites
memory of the kernel, or ends in a page fault.  Here such a call of `read`, `write`, `getargs` or
`vidmap` has no successor state; `KernelStores` follows a `read` into the control blocks.  A page
fault inside `load`, of a file that the page cannot hold, has none either (`afterLoad`).  An image
is a total map of bytes, so that the file system's own accesses never fault.
-/

namespace LinuxIsLove

open Bytes EventMachine

inductive Event
  /-- Alt and the function key of a terminal -/
  | key (termNum : ℕ)
  /-- a timer interrupt -/
  | tick
  | execute (command : CString)
  | halt (status : UInt8)
  | openFile (filename : CString)
  | closeFile (fd : ℤ)
  /-- the call of `read`, up to the wait for a line -/
  | arm (fd : ℤ) (buf : ℕ)
  | read (fd : ℤ) (buf : ℕ) (nbytes : ℤ)
  | write (fd : ℤ) (buf : ℕ) (nbytes : ℤ)
  | getargs (buf : ℕ) (nbytes : ℤ)
  | vidmap (screenStart : ℕ)
  /-- the running process changes its own memory -/
  | compute (mem : Memory)
  /-- a key other than the shortcuts of the terminals -/
  | type (key : ℕ)
  /-- an interrupt of the clock -/
  | rtcInterrupt

/-- The key goes to the displayed terminal. -/
def typeKey (E : Env) (key : ℕ) (k : Kernel) : Option Kernel :=
  if 0 ≤ k.currentTerminal then
    let i := k.currentTerminal.toNat
    let s := update (k.physical E) k.currentTerminal pageSize key (k.terminals i) k.text
    some { k with terminals := Function.update k.terminals i s.1, text := s.2 }
  else none

/-- A system call leaves its result in `eax`. -/
def result (r : ℤ × Kernel) : Kernel := { r.2 with eax := r.1 }

/-- What the running process asks for; only the boot stack has no process. -/
def dispatch (E : Env) (k : Kernel) : Event → Option Kernel
  | .key termNum => startTerminal E termNum k
  | .tick => pitHandlerMain E k
  | .type key => typeKey E key k
  | .rtcInterrupt =>
    some { k with devices := { k.devices with rtc := rtcHandlerMain k.devices.rtc } }
  | e =>
    if k.running = 0 then none
    else
      match e with
      | .execute command =>
        match execute E .syscall command k with
        | none => some { k with eax := -1 }
        | some k => afterLoad E command k
      | .halt status => halt E status k
      | .openFile filename => (openFile E filename k).map result
      | .closeFile fd => (closeFile fd k).map result
      | .arm fd buf => some (armFile fd buf k)
      | .read fd buf nbytes =>
        if PageHolds buf (readSpan E fd buf nbytes k) then
          (readFile E fd buf nbytes k).map result
        else none
      | .write fd buf nbytes =>
        if PageHolds buf (writeSpan fd buf nbytes k) then
          (writeFile E fd buf nbytes k).map result
        else none
      | .getargs buf nbytes =>
        if PageHolds buf (getargsSpan nbytes k) then some (result (getargs buf nbytes k))
        else none
      | .vidmap screenStart =>
        if PageHolds screenStart (vidmapSpan screenStart) then
          (vidmap E screenStart k).map result
        else none
      | .compute mem => some (k.setMem mem)
      | _ => none

/-- Start an event. -/
def Kernel.advanceClock (k : Kernel) : Kernel := { k with clock := k.clock + 1 }

/-- One event, taken with interrupts enabled and left with interrupts enabled. -/
def step (E : Env) (k : Kernel) (e : Event) : Option Kernel :=
  (dispatch E k.advanceClock e).map fun k => k.setIflag true

/-- The states that the kernel reaches. -/
def Reachable (E : Env) (k : Kernel) : Prop := ∃ es, run (step E) (boot E) es = some k

/-! ### A small machine -/

/-- An image with three entries: a directory `.`, the executable `shell` of 40 bytes and the
clock `rtc`. -/
def smallImg : Image := fun a =>
  match a with
  | 0 => 3 | 4 => 1 | 8 => 1
  | 64 => 46 | 96 => 1
  | 128 => 115 | 129 => 104 | 130 => 101 | 131 => 108 | 132 => 108 | 160 => 2
  | 192 => 114 | 193 => 116 | 194 => 99
  | 4096 => 40
  | 8192 => 0x7f | 8193 => 0x45 | 8194 => 0x4c | 8195 => 0x46
  | _ => 0

def dotName : CString := ⟨[46], by simp, by decide⟩

def rtcName : CString := ⟨[114, 116, 99], by simp, by decide⟩

/-- A control block in memory that holds zeros only. -/
def zeroPcb : Pcb where
  files := fun _ => ⟨none, none, 0, 0, 0⟩
  args := fun _ => 0
  argsLen := 0
  pid := 0
  parentPcb := none
  context := ⟨⟨.syscall, 0⟩, ⟨.syscall, 0⟩, 0⟩
  espParent := ⟨.syscall, 0⟩
  ebpParent := ⟨.syscall, 0⟩
  pd := 0
  termNum := 0

/-- A machine with zeroed memory and the image `smallImg`. -/
def small : Env where
  img := smallImg
  layout :=
    { ptVidmem := 0x500000
      ptUserVidmem := 0x600000
      other := fun _ _ => 0
      ptVidmem_aligned := by decide
      ptUserVidmem_aligned := by decide
      ptVidmem_kernel := by decide
      ptUserVidmem_kernel := by decide
      disjoint := by decide }
  ram := fun _ => zeroPcb
  userRam := fun _ _ => 0
  textRam := fun _ => 0
  regA := 0
  regB := 0

/-- The state after a run of the small machine. -/
def smallState (es : List Event) : Kernel := (run (step small) (boot small) es).getD (boot small)

theorem run_smallState {es : List Event} (h : (run (step small) (boot small) es).isSome = true) :
    run (step small) (boot small) es = some (smallState es) := by
  obtain ⟨k, hk⟩ := Option.isSome_iff_exists.1 h
  rw [smallState, hk]
  rfl

theorem run_smallState_append {es fs : List Event}
    (h : (run (step small) (boot small) (es ++ fs)).isSome = true) :
    run (step small) (smallState es) fs = some (smallState (es ++ fs)) := by
  obtain ⟨k, hk, hrest⟩ := run_append_eq_some.1 (run_smallState h)
  rwa [smallState, hk]

theorem step_smallState {es : List Event} {e : Event}
    (h : (run (step small) (boot small) (es ++ [e])).isSome = true) :
    step small (smallState es) e = some (smallState (es ++ [e])) := by
  have hrun := run_smallState_append h
  obtain ⟨k, hk, hrest⟩ := run_cons_eq_some.1 hrun
  rwa [run_nil, ← hk] at hrest

theorem smallState_reachable {es : List Event}
    (h : (run (step small) (boot small) es).isSome = true) : Reachable small (smallState es) :=
  ⟨es, run_smallState h⟩

end LinuxIsLove
