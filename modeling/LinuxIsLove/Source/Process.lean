import LinuxIsLove.Source.Fs
import LinuxIsLove.Source.VirtualMem
import LinuxIsLove.Source.Rtc
import LinuxIsLove.Source.Terminal

/-!
# `process.c` and `process.h`: process control blocks and the process table

A process control block stands at the bottom of the 8 KB region that is also the kernel stack of
its process: `pcbAddr p` is the region of pid `p`, and the region 0 is the boot stack.  The kernel
finds the block of the running process by masking its stack pointer, so `Kernel.running`, the
region whose stack is in use, stands for `pcb()` throughout.

Saved stack pointers are tokens: a `Token` names the kernel routine that owns the frame and the
time at which the frame was entered.  The fields of `Kernel` under "history" are read by no
function of the kernel; they record what the theorems speak about.
-/

namespace LinuxIsLove

open Bytes PageWalk

/-! ### Process control blocks -/

/-- The kernel routine that a suspended frame belongs to. -/
inductive Site
  | syscall
  | pit
  | keyboard
  | halt
  deriving DecidableEq

/-- A saved stack or frame pointer. -/
structure Token where
  site : Site
  time : ℕ
  deriving DecidableEq

structure Context where
  esp : Token
  ebp : Token
  esp0 : ℕ

/-- The registered tables of file operations. -/
inductive Fops
  | rtc
  | dir
  | file
  | term
  deriving DecidableEq

/-- An entry of the descriptor table; `none` is the null pointer. -/
structure Fd where
  fops : Option Fops
  inode : Option ℕ
  inodeNum : ℕ
  pos : ℕ
  flags : ℕ

/-- A process control block.  `pd` is the pid whose directory the pointer leads to. -/
structure Pcb where
  files : ℕ → Fd
  args : Memory
  argsLen : ℕ
  pid : ℕ
  parentPcb : Option ℕ
  context : Context
  espParent : Token
  ebpParent : Token
  pd : ℕ
  termNum : ℤ

def fdLive : ℕ := 1
def fileArrayLen : ℕ := 8
def argsMax : ℕ := 128

/-- The address of the control block, and of the kernel stack region, of a pid. -/
def pcbAddr (pid : ℕ) : ℕ := kernelMemEnd - (pid + 1) * kernelStackSize

/-- The mask that `pcb()` applies to the stack pointer. -/
def pcbMask (esp : Word) : Word := esp &&& 0xFFFFE000#32

/-- `get_device_fops`, with the tables that the drivers register. -/
def getDeviceFops (ftype : ℕ) : Option Fops :=
  if ftype = rtcFtype then some .rtc
  else if ftype = dirFtype then some .dir
  else if ftype = fileFtype then some .file
  else if ftype = termFtype then some .term
  else none

/-! ### The state of the kernel -/

/-- What does not change while the kernel runs, and what memory and devices hold at boot. -/
structure Env where
  img : Image
  layout : Layout
  ram : ℕ → Pcb
  userRam : ℕ → Memory
  textRam : ScreenMemory
  regA : BitVec 8
  regB : BitVec 8

/-- A process taken up again: the context that was loaded, and the one it had stopped with. -/
structure Resume where
  pid : ℕ
  esp : Token
  ebp : Token
  stopped : Token
  cr3 : ℕ
  tssEsp0 : ℕ

/-- A process created: where `execute` was called from, and by whom on which terminal. -/
structure Start where
  pid : ℕ
  parent : Option ℕ
  term : ℤ
  site : Site
  caller : ℕ
  callerTerm : ℤ
  deriving DecidableEq

structure Kernel where
  procs : ℕ → Bool
  procCount : ℕ
  pd : ℕ → Table
  activeProcesses : ℕ → Option ℕ
  pcb : ℕ → Pcb
  userMem : ℕ → Memory
  text : ScreenMemory
  terminals : ℕ → Terminal
  currentTerminal : ℤ
  nextExecute : Bool
  devices : Devices
  -- the processor
  cr3 : ℕ
  tssEsp0 : ℕ
  running : ℕ
  eax : ℤ
  -- history
  clock : ℕ
  stopped : ℕ → Token
  resumes : List Resume
  starts : List Start
  vidmapped : ℕ → Bool

/-- The state in which `entry` calls `start_terminal(0)`. -/
def boot (E : Env) : Kernel where
  procs := fun _ => false
  procCount := 0
  pd := fun _ _ => 0
  activeProcesses := fun _ => none
  pcb := E.ram
  userMem := E.userRam
  text := E.textRam
  terminals := fun _ => kybdInit video
  currentTerminal := -1
  nextExecute := false
  devices :=
    { rtc := rtcInit E.regA E.regB
      pic := enableIrq (enableIrq i8259Init 1) 0
      iflag := true }
  cr3 := 0
  tssEsp0 := kernelMemEnd
  running := 0
  eax := 0
  clock := 0
  stopped := fun _ => ⟨.syscall, 0⟩
  resumes := []
  starts := []
  vidmapped := fun _ => false

namespace Kernel

/-- The control block that `pcb()` leads to. -/
def current (k : Kernel) : Pcb := k.pcb k.running

def setIflag (k : Kernel) (b : Bool) : Kernel := { k with devices := { k.devices with iflag := b } }

/-- Change the descriptor table of the running process. -/
def setFiles (k : Kernel) (files : ℕ → Fd) : Kernel :=
  { k with pcb := Function.update k.pcb k.running { k.current with files := files } }

end Kernel

/-! ### The process table -/

/-- Mark the slot of a pid as taken. -/
def takeSlot (k : Kernel) (pid : ℕ) : Kernel :=
  { k with
    procs := Function.update k.procs (pid - 1) true
    procCount := (k.procCount + 1) % 2 ^ 32 }

/-- The pid of the least free slot, and the state with that slot taken. -/
def addProcess (k : Kernel) : Option (ℕ × Kernel) :=
  match (List.range maxProcesses).find? fun i => !k.procs i with
  | some i => some (i + 1, takeSlot k (i + 1))
  | none => none

def deleteProcess (k : Kernel) (pid : ℕ) : Kernel :=
  if 1 ≤ pid ∧ pid ≤ maxProcesses then
    { k with
      procs := Function.update k.procs (pid - 1) false
      procCount := (k.procCount + (2 ^ 32 - 1)) % 2 ^ 32 }
  else k

def processes (k : Kernel) : ℕ := k.procCount

def freeProcs (k : Kernel) : Bool := k.procCount < maxProcesses

def getActiveProcess (k : Kernel) (termNum : ℤ) : Option ℕ :=
  if 0 ≤ termNum ∧ termNum < maxTerminals then k.activeProcesses termNum.toNat else none

def setActiveProcess (k : Kernel) (termNum : ℤ) (pid : Option ℕ) : Kernel :=
  { k with activeProcesses :=
      if 0 ≤ termNum ∧ termNum < maxTerminals then
        Function.update k.activeProcesses termNum.toNat pid
      else k.activeProcesses }

def currTerminalRunningProcess (k : Kernel) : Bool :=
  (getActiveProcess k k.currentTerminal).isSome

/-- A pid whose slot is taken. -/
def Allocated (k : Kernel) (p : ℕ) : Prop := 1 ≤ p ∧ p ≤ maxProcesses ∧ k.procs (p - 1) = true

instance (k : Kernel) (p : ℕ) : Decidable (Allocated k p) := by
  unfold Allocated
  infer_instance

/-! ### What the process table functions do -/

section ProcessTable

variable {k k' : Kernel} {pid p : ℕ}

/-- The pid that `add_process` returns was free. -/
theorem addProcess_spec (h : addProcess k = some (pid, k')) :
    1 ≤ pid ∧ pid ≤ maxProcesses ∧ ¬ Allocated k pid ∧ k' = takeSlot k pid := by
  unfold addProcess at h
  split at h
  next i hi =>
    have hmem := List.mem_of_find?_eq_some hi
    have hfree := List.find?_some hi
    rw [List.mem_range] at hmem
    simp only [Option.some.injEq, Prod.mk.injEq] at h
    obtain ⟨rfl, rfl⟩ := h
    refine ⟨by omega, hmem, fun hall => ?_, rfl⟩
    have htaken := hall.2.2
    rw [Nat.add_sub_cancel] at htaken
    rw [htaken] at hfree
    exact absurd hfree (by decide)
  next => exact absurd h (by simp)

theorem addProcess_eq_none (h : addProcess k = none) {p : ℕ} (h1 : 1 ≤ p)
    (h6 : p ≤ maxProcesses) : Allocated k p := by
  unfold addProcess at h
  split at h
  next => exact absurd h (by simp)
  next hnone =>
    have := List.find?_eq_none.1 hnone (p - 1) (List.mem_range.2 (by omega))
    exact ⟨h1, h6, by simpa using this⟩

/-- Taking the slot of a pid allocates that pid and no other. -/
theorem allocated_takeSlot (h1 : 1 ≤ pid) (h6 : pid ≤ maxProcesses) :
    Allocated (takeSlot k pid) p ↔ p = pid ∨ Allocated k p := by
  simp only [Allocated, takeSlot, Function.update_apply]
  by_cases hp : p = pid
  · subst hp
    simp [h1, h6]
  · constructor
    · rintro ⟨hp1, hp6, hset⟩
      rw [if_neg (by omega)] at hset
      exact Or.inr ⟨hp1, hp6, hset⟩
    · rintro (h | ⟨hp1, hp6, hset⟩)
      · exact absurd h hp
      · exact ⟨hp1, hp6, by rwa [if_neg (by omega)]⟩

theorem allocated_deleteProcess (h1 : 1 ≤ pid) (h6 : pid ≤ maxProcesses) :
    Allocated (deleteProcess k pid) p ↔ Allocated k p ∧ p ≠ pid := by
  rw [deleteProcess, if_pos ⟨h1, h6⟩]
  simp only [Allocated, Function.update_apply]
  constructor
  · rintro ⟨hp1, hp6, hset⟩
    by_cases hp : p = pid
    · subst hp
      simp at hset
    · rw [if_neg (by omega)] at hset
      exact ⟨⟨hp1, hp6, hset⟩, hp⟩
  · rintro ⟨⟨hp1, hp6, hset⟩, hp⟩
    exact ⟨hp1, hp6, by rwa [if_neg (by omega)]⟩

theorem Kernel.setFiles_pcb_self (k : Kernel) (files : ℕ → Fd) :
    (k.setFiles files).pcb k.running = { k.current with files := files } :=
  Function.update_self ..

theorem Kernel.setFiles_pcb_of_ne {files : ℕ → Fd} (h : p ≠ k.running) :
    (k.setFiles files).pcb p = k.pcb p := Function.update_of_ne h ..

/-- What a terminal's active process is after one of them is set. -/
theorem getActiveProcess_setActiveProcess {t u : ℤ} {v : Option ℕ} (ht : 0 ≤ t ∧ t < maxTerminals) :
    getActiveProcess (setActiveProcess k t v) u = if u = t then v else getActiveProcess k u := by
  simp only [getActiveProcess, setActiveProcess, if_pos ht]
  by_cases hu : u = t
  · subst hu
    rw [if_pos ht, if_pos rfl, Function.update_self]
  · rw [if_neg hu]
    by_cases hr : 0 ≤ u ∧ u < maxTerminals
    · rw [if_pos hr, if_pos hr, Function.update_of_ne (by omega)]
    · rw [if_neg hr, if_neg hr]

end ProcessTable

end LinuxIsLove
