import LinuxIsLove.CommandBuffers
import LinuxIsLove.DeferredShell
import LinuxIsLove.Isolation
import LinuxIsLove.ProgramImage

/-!
# What a call of `execute` starts, and what it leaves behind

For a command that fits its buffers a call of `execute` returns -1 or starts a program, unless the
page cannot hold the file.  It should start one exactly if the first word is the name of an
executable regular file and a slot is free; `startsExactly_iff` says when it does.

A call that returns -1 has changed nothing but the interrupt flag.  A call that starts a program has
taken one free slot, and everything it has written belongs to the pid of that slot: the addresses of
control blocks, kernel stacks and frames are disjoint for different pids, and the copy of the image
goes through the new directory (`execute_atomic`).
-/

namespace LinuxIsLove

open Bytes PageWalk EventMachine

/-- A program is started exactly for the name of an executable regular file while a slot is free,
and in all other cases the call returns -1. -/
structure StartsExactly (E : Env) (site : Site) (l : Locals) (command : CString) (k : Kernel) :
    Prop where
  started : (∃ k', (executeCall E site l command k).result = .started k') ↔
    RegularExecutable E.img (parseArg command).1 ∧ FreeSlot k
  refused : ¬ (RegularExecutable E.img (parseArg command).1 ∧ FreeSlot k) →
    ∃ k', (executeCall E site l command k).result = .returned (-1) k'

/-- Nothing differs that belongs to processes. -/
structure LeavesNoTrace (k k' : Kernel) : Prop where
  procs : k'.procs = k.procs
  procCount : k'.procCount = k.procCount
  activeProcesses : k'.activeProcesses = k.activeProcesses
  pcb : k'.pcb = k.pcb
  pd : k'.pd = k.pd
  cr3 : k'.cr3 = k.cr3
  tssEsp0 : k'.tssEsp0 = k.tssEsp0
  userMem : k'.userMem = k.userMem

/-- The pid was free and has been given to a process, and no other process has been written to.
The counter of processes is an unsigned 32-bit integer. -/
structure StartsOne (E : Env) (command : CString) (k k' : Kernel) (pid : ℕ) : Prop where
  free : 1 ≤ pid ∧ pid ≤ maxProcesses ∧ ¬ Allocated k pid
  allocated : ∀ q, Allocated k' q ↔ q = pid ∨ Allocated k q
  procCount : k'.procCount = (k.procCount + 1) % 2 ^ 32
  /-- the counter does not wrap while it counts the slots that are taken -/
  counted : CountOk k → k'.procCount = k.procCount + 1
  pcb : ∀ q, Allocated k q → k'.pcb q = k.pcb q
  pd : ∀ q, Allocated k q → k'.pd q = k.pd q
  userMem : ∀ q, Allocated k q → k'.userMem q = k.userMem q
  stacks_disjoint : ∀ q, Allocated k q → Disjoint (stackRegion pid) (stackRegion q)
  frames_disjoint : ∀ q, Allocated k q → Disjoint (frame pid) (frame q)
  /-- the copy of the image reaches the frame of the new process only -/
  image : ∀ d args, checkExecutable E.img command = some (d, args) → ∀ a, Stores E.img d a →
    ∃ pa, translate (pageTables E.layout) (k'.pd pid) (BitVec.ofNat 32 a) = some pa ∧
      pa.toNat ∈ frame pid

section Results

variable {E : Env} {site : Site} {l : Locals} {command : CString} {k : Kernel}

/-- A call that stays in its arrays ends in one of three ways. -/
theorem executeCall_result (hfits : CommandFits command) :
    (execute E site command (k.setIflag false) = none ∧
        (executeCall E site l command k).result = .returned (-1) (k.setIflag false)) ∨
      (LoadFaults E.img command ∧ (execute E site command (k.setIflag false)).isSome = true ∧
        (executeCall E site l command k).result = .faulted) ∨
      ∃ k', ¬ LoadFaults E.img command ∧ execute E site command (k.setIflag false) = some k' ∧
        (executeCall E site l command k).result = .started k' := by
  have h := callEffect E site l command k
  generalize executeCall E site l command k = x at h ⊢
  cases h with
  | overran hlong => exact absurd hfits hlong
  | refused _ hexec => exact Or.inl ⟨hexec, rfl⟩
  | faulted _ m hload hexec => exact Or.inr (Or.inl ⟨hload, hexec, rfl⟩)
  | started _ m k' hload hexec => exact Or.inr (Or.inr ⟨k', hload, hexec, rfl⟩)

/-- The commands that start a program, those that are refused, and those whose file is too long. -/
theorem executeCall_iff (hfits : CommandFits command) :
    ((∃ k', (executeCall E site l command k).result = .started k') ↔
        CanExecute E command k ∧ ¬ LoadFaults E.img command) ∧
      ((∃ k', (executeCall E site l command k).result = .returned (-1) k') ↔
        ¬ CanExecute E command k) ∧
      ((executeCall E site l command k).result = .faulted ↔
        CanExecute E command k ∧ LoadFaults E.img command) := by
  have hcan : (execute E site command (k.setIflag false)).isSome = true ↔
      CanExecute E command k := execute_isSome_iff
  rw [← hcan]
  rcases executeCall_result hfits with
    ⟨hexec, hresult⟩ | ⟨hload, hexec, hresult⟩ | ⟨k', hload, hexec, hresult⟩
  · rw [hexec, hresult]
    simp
  · rw [hexec, hresult]
    simp [hload]
  · rw [hexec, hresult]
    simp [hload]

/-- **`execute` starts exactly the executables**, unless a slot is free and an entry misleads, or
the page cannot hold the file. -/
theorem startsExactly_iff (hw : WellFormed E.img) (hfits : CommandFits command) :
    StartsExactly E site l command k ↔
      (FreeSlot k → NotMisled E.img (parseArg command).1 ∧
        ImageFits E.img (parseArg command).1) := by
  obtain ⟨hstarted, hreturned, -⟩ := @executeCall_iff E site l command k hfits
  constructor
  · intro h hfree
    have hreg : (checkExecutable E.img command).isSome = true ↔
        RegularExecutable E.img (parseArg command).1 := by
      refine ⟨fun hcheck => ?_, fun hreg => (hstarted.1 (h.started.2 ⟨hreg, hfree⟩)).1.1⟩
      by_contra hno
      exact hreturned.1 (h.refused fun hboth => hno hboth.1) ⟨hcheck, hfree⟩
    have hnot : NotMisled E.img (parseArg command).1 := (accepted_iff_regular hw).1 hreg
    refine ⟨hnot, (imageFits_iff hw hnot).2 fun hload => ?_⟩
    -- a file that is accepted is started, and so it fits
    have hcheck : (checkExecutable E.img command).isSome = true := by
      obtain ⟨x, hx, -⟩ := hload
      exact Option.isSome_of_eq_some hx
    exact (hstarted.1 (h.started.2 ⟨hreg.1 hcheck, hfree⟩)).2 hload
  · intro h
    have hcan : CanExecute E command k ↔
        RegularExecutable E.img (parseArg command).1 ∧ FreeSlot k :=
      and_congr_left fun hfree => (accepted_iff_regular hw).2 (h hfree).1
    refine ⟨?_, fun hno => hreturned.2 (mt hcan.1 hno)⟩
    rw [hstarted, hcan]
    exact and_iff_left_of_imp fun hboth => (imageFits_iff hw (h hboth.2).1).1 (h hboth.2).2

end Results

/-! ### The image in memory -/

section Image

variable {L : Layout} {pid t a : ℕ} {pd : Table}

/-- The page of the program leads to the frame of the process. -/
theorem translate_inPage (h1 : 1 ≤ pid) (h6 : pid ≤ maxProcesses)
    (hpd : pd 32 = processPd L pid t false 32) (ha : InPage a) :
    ∃ pa, translate (pageTables L) pd (BitVec.ofNat 32 a) = some pa ∧
      pa.toNat = frameAddr pid + (a - progVmStart) := by
  obtain ⟨hlow, hhigh⟩ := ha
  simp only [progVmStart, space4MB] at hlow hhigh
  have hva : (BitVec.ofNat 32 a).toNat = a := by
    rw [BitVec.toNat_ofNat]
    omega
  have hdir : dirIndex (BitVec.ofNat 32 a) = 32 := by
    rw [dirIndex_eq, hva]
    omega
  have hentry : processPd L pid t false 32 =
      (BitVec.ofNat 32 (frameAddr pid) &&& 0xFFC00000#32) |||
        (flagPS ||| flagU ||| flagWE ||| flagP) := rfl
  have hpresent : present (processPd L pid t false 32) = true := by
    rw [hentry, present, BitVec.getLsbD_or]
    simp [flagPS, flagU, flagWE, flagP]
  have hlarge : largePage (processPd L pid t false 32) = true := by
    rw [hentry, largePage, BitVec.getLsbD_or]
    simp [flagPS, flagU, flagWE, flagP]
  refine ⟨largeFrame (processPd L pid t false 32) ||| (BitVec.ofNat 32 a &&& 0x3FFFFF#32), ?_, ?_⟩
  · simp only [PageWalk.translate, hdir, hpd, if_pos hpresent, if_pos hlarge]
  · rw [frame_page h1 h6, hva]
    simp only [progVmStart]
    omega

end Image

section Trace

variable {E : Env} {site : Site} {l : Locals} {command : CString} {k k' : Kernel}

/-- What the image is copied to lies in the frame of the new process. -/
theorem stores_inFrame {pid : ℕ} {d : Dentry} {args : CString} (h1 : 1 ≤ pid)
    (h6 : pid ≤ maxProcesses) (hsmall : ∀ i < inodeCnt E.img, inodeLength E.img i ≤ 0x3B8000)
    (hinode : d.inode < inodeCnt E.img) {a : ℕ} (ha : Stores E.img d a) :
    ∃ pa, translate (pageTables E.layout) ((startProcess E site pid d args k).pd pid)
        (BitVec.ofNat 32 a) = some pa ∧ pa.toNat ∈ frame pid := by
  obtain ⟨hlow, hhigh⟩ := (stores_iff hinode a).1 ha
  have hlen := hsmall _ hinode
  have hpage : InPage a := by
    simp only [InPage, progVmStart, space4MB, startExeAddr] at hlow hhigh ⊢
    omega
  have hpd : (startProcess E site pid d args k).pd pid 32 =
      processPd E.layout pid (newTerm k).toNat false 32 := by
    simp only [startProcess, Function.update_self]
    exact pdInit_setPde E.layout (k.pd pid) pid _ (by decide)
  obtain ⟨pa, hpa, hval⟩ := translate_inPage h1 h6 hpd hpage
  refine ⟨pa, hpa, ?_⟩
  rw [frame, Set.mem_Ico, hval]
  exact ⟨Nat.le_add_right _ _, by have := hpage.1; have := hpage.2; omega⟩

/-- What is left behind by a call that starts a program. -/
theorem startsOne_execute (hsmall : ∀ i < inodeCnt E.img, inodeLength E.img i ≤ 0x3B8000)
    (h : execute E site command (k.setIflag false) = some k') :
    ∃ pid, StartsOne E command k k' pid := by
  obtain ⟨pid, d, args, hcheck, h1, h6, hfree, rfl⟩ := execute_spec h
  have hne : ∀ q, Allocated k q → q ≠ pid := by
    rintro q hq rfl
    exact hfree hq
  refine ⟨pid, ⟨h1, h6, hfree⟩, fun q => allocated_takeSlot h1 h6, rfl, fun hc => ?_,
    fun q hq => ?_, fun q hq => ?_, fun q hq => ?_, fun q hq => ?_, fun q hq => ?_, ?_⟩
  · have hle := hc.le
    simp only [maxProcesses] at hle
    exact Nat.mod_eq_of_lt (show k.procCount + 1 < 2 ^ 32 by omega)
  · exact startProcess_pcb_of_ne (hne q hq)
  · exact Function.update_of_ne (hne q hq) ..
  · exact Function.update_of_ne (hne q hq) ..
  · exact stackRegion_disjoint h6 hq.2.1 (hne q hq).symm
  · exact frame_disjoint h1 hq.1 (hne q hq).symm
  · intro d' args' hcheck' a ha
    rw [hcheck, Option.some.injEq, Prod.mk.injEq] at hcheck'
    obtain ⟨rfl, rfl⟩ := hcheck'
    exact stores_inFrame h1 h6 hsmall (checkExecutable_inode hcheck) ha

/-- **A call of `execute` leaves no trace or one process.** -/
theorem execute_atomic (hsmall : ∀ i < inodeCnt E.img, inodeLength E.img i ≤ 0x3B8000)
    (hfits : CommandFits command) :
    (∃ k', (executeCall E site l command k).result = .returned (-1) k' ∧ LeavesNoTrace k k') ∨
      ∃ k' pid, (executeCall E site l command k).result = .started k' ∧
        StartsOne E command k k' pid := by
  rcases executeCall_result hfits with ⟨-, hresult⟩ | ⟨hload, -, -⟩ | ⟨k', -, hexec, hresult⟩
  · exact Or.inl ⟨_, hresult, ⟨rfl, rfl, rfl, rfl, rfl, rfl, rfl, rfl⟩⟩
  · obtain ⟨⟨d, args⟩, hcheck, hlong⟩ := hload
    exact absurd (hsmall _ (checkExecutable_inode hcheck)) (not_le.2 hlong)
  · obtain ⟨pid, hone⟩ := startsOne_execute hsmall hexec
    exact Or.inr ⟨k', pid, hresult, hone⟩

end Trace

/-! ### The small machine -/

/-- A call of the first shell of the small machine. -/
def shellCall (command : CString) : ExecuteState :=
  executeCall small .syscall zeroLocals command (smallState [.key 0])

theorem startsExactly_iff_shell :
    StartsExactly small .syscall zeroLocals shell (smallState [.key 0]) ↔
      (FreeSlot (smallState [.key 0]) → NotMisled small.img (parseArg shell).1 ∧
        ImageFits small.img (parseArg shell).1) :=
  startsExactly_iff smallImg_wellFormed (by decide)

/-- The entry of the clock holds the number of the inode of `shell`: its name starts the shell. -/
theorem rtc_executed : WellFormed small.img ∧ CommandFits rtcName ∧
    (∃ k', (shellCall rtcName).result = .started k') ∧
    ¬ RegularExecutable small.img (parseArg rtcName).1 ∧
    ¬ StartsExactly small .syscall zeroLocals rtcName (smallState [.key 0]) := by
  have hfits : CommandFits rtcName := by decide
  have hstarted : ∃ k', (shellCall rtcName).result = .started k' := by
    refine (executeCall_iff hfits).1.2 ?_
    decide +kernel
  have hname : ¬ RegularExecutable small.img (parseArg rtcName).1 := by
    decide +kernel
  exact ⟨smallImg_wellFormed, hfits, hstarted, hname, fun h => hname (h.started.1 hstarted).1⟩

/-- The `shell` of 1023 blocks is a regular executable; no call starts it, and none returns. -/
theorem longShell_faulted :
    RegularExecutable longShell.img (parseArg shell).1 ∧
      (executeCall longShell .syscall zeroLocals shell (boot longShell)).result = .faulted := by
  constructor
  · decide +kernel
  · refine (executeCall_iff (by decide)).2.2.2 ?_
    decide +kernel

theorem execute_atomic_shell :
    (∃ k', (shellCall shell).result = .returned (-1) k' ∧
        LeavesNoTrace (smallState [.key 0]) k') ∨
      ∃ k' pid, (shellCall shell).result = .started k' ∧
        StartsOne small shell (smallState [.key 0]) k' pid :=
  execute_atomic (by decide +kernel) (by decide)

end LinuxIsLove
