import LinuxIsLove.Source.Process

/-!
# `sys_calls.c`: `execute`

`execute` is called by the system call, and with the command `shell` by the timer handler, by the
keyboard handler and by `halt`.  It either fails before anything is changed, or sets a process up
and leaves to user mode: control comes back to its frame only when the child halts.

Whether the new process becomes a child of the caller or the base shell of a terminal depends on
the displayed terminal: `newParent` and `newTerm`.

`startProcess` copies the whole file, whatever its length.  Behind the 4 MB page of the program no
page is present, so a copy that leaves the page ends in a page fault before the program is entered;
the routines that call `execute` have no successor state then (`afterLoad`).
-/

namespace LinuxIsLove

open Bytes PageWalk

def startExeAddr : ℕ := 0x08048000
def elfHeaderLen : ℕ := 40
def elfMagic : ℕ := 0x464c457f

/-- What the page holds from the load address on. -/
def loadRoom : ℕ := progVmStart + space4MB - startExeAddr
def wordSize : ℕ := 4

/-- The command `shell`. -/
def shell : CString := ⟨[115, 104, 101, 108, 108], by simp, by decide⟩

/-- Split a command at the end of its first word; the blanks before the arguments are skipped.
The copies to the 128-byte buffers are made without a check, so this is what they hold when both
parts fit. -/
def parseArg (command : CString) : CString × CString :=
  (command.takeWhile fun b => b ≠ 32 && b ≠ 10,
    (command.dropWhile fun b => b ≠ 32 && b ≠ 10).dropWhile fun b => b = 32)

/-- The directory entry and the arguments of an executable command. -/
def checkExecutable (img : Image) (command : CString) : Option (Dentry × CString) :=
  let (commandBuf, args) := parseArg command
  let (found, dentry) := readDentryByName img commandBuf fun _ => 0
  if found = -1 then none
  else
    let (n, buf) := readData img (Dentry.inode dentry) 0 (fun _ => 0) elfHeaderLen
    if n < elfHeaderLen then none
    else if word32 buf 0 = elfMagic then some (dentry, args)
    else none

/-- The descriptor table of a new process.  The source leaves `inode_num` uninitialized. -/
def initFiles (old : ℕ → Fd) (i : ℕ) : Fd :=
  if i < 2 then
    { fops := getDeviceFops termFtype, inode := none, inodeNum := (old i).inodeNum, pos := 0,
      flags := fdLive }
  else if i < fileArrayLen then
    { fops := none, inode := none, inodeNum := (old i).inodeNum, pos := 0, flags := 0 }
  else old i

/-- The parent of a new process: the caller, unless the displayed terminal has no process. -/
def newParent (k : Kernel) : Option ℕ :=
  if currTerminalRunningProcess k then some k.running else none

/-- The terminal of a new process. -/
def newTerm (k : Kernel) : ℤ :=
  if currTerminalRunningProcess k then k.current.termNum else k.currentTerminal

/-- The top of the kernel stack of a process. -/
def stackTop (pid : ℕ) : ℕ := kernelMemEnd - kernelStackSize * pid - wordSize

/-- The control block of a new process; the saved context keeps what the block held before. -/
def newPcb (site : Site) (pid : ℕ) (args : CString) (k : Kernel) : Pcb where
  files := initFiles (k.pcb pid).files
  args := copy (k.pcb pid).args args.mem (args.bytes.length + 1)
  argsLen := args.bytes.length
  pid := pid
  parentPcb := newParent k
  context := { (k.pcb pid).context with esp0 := stackTop pid }
  espParent := ⟨site, k.clock⟩
  ebpParent := ⟨site, k.clock⟩
  pd := pid
  termNum := newTerm k

/-- Set the process up and leave to its entry point in user mode. -/
def startProcess (E : Env) (site : Site) (pid : ℕ) (dentry : Dentry) (args : CString)
    (k : Kernel) : Kernel :=
  let mem := k.userMem pid
  let k' := setActiveProcess k (newTerm k) (some pid)
  { k' with
    pcb := Function.update k.pcb pid (newPcb site pid args k)
    pd := Function.update k.pd pid
      (setPde (pdInit E.layout (k.pd pid) (newTerm k).toNat) (BitVec.ofNat 32 progVmStart)
        (BitVec.ofNat 32 (frameAddr pid)) (flagPS ||| flagU ||| flagWE ||| flagP))
    userMem := Function.update k.userMem pid
      (splice mem startExeAddr (load E.img dentry (window mem startExeAddr)))
    cr3 := pid
    tssEsp0 := stackTop pid
    running := pid
    stopped := Function.update k.stopped k.running ⟨site, k.clock⟩
    starts := ⟨pid, newParent k, newTerm k, site, k.running, k.current.termNum⟩ :: k.starts
    vidmapped := Function.update k.vidmapped pid false }

/-- `none` when `execute` returns -1; the state is then unchanged but for the interrupt flag. -/
def execute (E : Env) (site : Site) (command : CString) (k : Kernel) : Option Kernel :=
  match checkExecutable E.img command with
  | none => none
  | some (dentry, args) =>
    match addProcess k with
    | none => none
    | some (pid, k) => some (startProcess E site pid dentry args k)

/-- The file of an executable is longer than what the page holds. -/
def LoadFaults (img : Image) (command : CString) : Prop :=
  ∃ x ∈ checkExecutable img command, loadRoom < inodeLength img (Dentry.inode x.1)

instance (img : Image) (command : CString) : Decidable (LoadFaults img command) := by
  unfold LoadFaults
  infer_instance

/-- How control comes out of an `execute` that has set a process up: `load` may fault. -/
def afterLoad (E : Env) (command : CString) (k : Kernel) : Option Kernel :=
  if LoadFaults E.img command then none else some k

/-! ### What `execute` does -/

section Spec

variable {E : Env} {site : Site} {command : CString} {k k' : Kernel}

/-- A successful `execute` takes a free slot and starts a process there. -/
theorem execute_spec (h : execute E site command k = some k') :
    ∃ pid dentry args, checkExecutable E.img command = some (dentry, args) ∧
      1 ≤ pid ∧ pid ≤ maxProcesses ∧ ¬ Allocated k pid ∧
      k' = startProcess E site pid dentry args (takeSlot k pid) := by
  unfold execute at h
  split at h
  next => exact absurd h (by simp)
  next dentry args hcheck =>
    split at h
    next => exact absurd h (by simp)
    next pid k1 hadd =>
      obtain ⟨h1, h6, hfree, rfl⟩ := addProcess_spec hadd
      exact ⟨pid, dentry, args, hcheck, h1, h6, hfree, (Option.some.inj h).symm⟩

/-- Only the process table or the command can make `execute` fail. -/
theorem execute_eq_none (h : execute E site command k = none) :
    checkExecutable E.img command = none ∨ ∀ p, 1 ≤ p → p ≤ maxProcesses → Allocated k p := by
  unfold execute at h
  split at h
  next hcheck => exact Or.inl hcheck
  next =>
    split at h
    next hadd => exact Or.inr fun p h1 h6 => addProcess_eq_none hadd h1 h6
    next => exact absurd h (by simp)

theorem afterLoad_eq_some :
    afterLoad E command k = some k' ↔ ¬ LoadFaults E.img command ∧ k = k' := by
  rw [afterLoad, Option.ite_none_left_eq_some, Option.some.injEq]

/-- An `execute` that leaves for user mode has started the process. -/
theorem execute_of_afterLoad
    (h : (execute E site command k).bind (afterLoad E command) = some k') :
    execute E site command k = some k' := by
  obtain ⟨k1, hexec, hload⟩ := Option.bind_eq_some_iff.1 h
  obtain ⟨-, rfl⟩ := afterLoad_eq_some.1 hload
  exact hexec

/-- The new process is the active one of its terminal. -/
theorem getActiveProcess_startProcess {pid : ℕ} {dentry : Dentry} {args : CString}
    (ht : 0 ≤ newTerm k ∧ newTerm k < maxTerminals) (u : ℤ) :
    getActiveProcess (startProcess E site pid dentry args k) u =
      if u = newTerm k then some pid else getActiveProcess k u :=
  getActiveProcess_setActiveProcess (v := some pid) ht

/-- The block of the new process. -/
@[simp] theorem startProcess_pcb_self (E : Env) (site : Site) (pid : ℕ) (dentry : Dentry)
    (args : CString) (k : Kernel) :
    (startProcess E site pid dentry args k).pcb pid = newPcb site pid args k :=
  Function.update_self ..

/-- No other block is touched. -/
theorem startProcess_pcb_of_ne {pid q : ℕ} {dentry : Dentry} {args : CString} (h : q ≠ pid) :
    (startProcess E site pid dentry args k).pcb q = k.pcb q := Function.update_of_ne h ..

@[simp] theorem newParent_takeSlot (pid : ℕ) : newParent (takeSlot k pid) = newParent k := rfl

@[simp] theorem newTerm_takeSlot (pid : ℕ) : newTerm (takeSlot k pid) = newTerm k := rfl

end Spec

end LinuxIsLove
