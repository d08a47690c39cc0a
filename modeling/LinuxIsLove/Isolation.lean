import LinuxIsLove.Invariant

/-!
# Memory isolation

The directory of every process that was ever started holds exactly what `processPd` lists, for the
terminal of the process and its calls of `vidmap` since it was started: `execute` overwrites what an
earlier holder of the pid left behind.  With the address arithmetic of frames, kernel stacks and
control blocks this gives `isolation`.
-/

namespace LinuxIsLove

open Bytes PageWalk EventMachine

/-- The directories of all processes are as listed. -/
def Paged (E : Env) (k : Kernel) : Prop :=
  ∀ p, Used k p → PagedAt E.layout k p (k.pcb p).termNum.toNat

section Steps

variable {E : Env} {k k' : Kernel} {site : Site} {command : CString}

theorem SameProcesses.pagedAll (h : SameProcesses k k') (hk : Wf k) (hp : Paged E k) :
    Paged E k' := by
  intro p hused
  have hused' := (h.used p).1 hused
  have hpd : k.current.pd = k.running := (hk.current_ok (hk.running_ne_zero hused')).pd
  rw [h.termNum]
  exact h.paged hpd _ p _ (hp p hused')

theorem paged_execute (hp : Paged E k) (he : execute E site command k = some k') : Paged E k' := by
  obtain ⟨pid, dentry, args, -, -, -, -, rfl⟩ := execute_spec he
  intro p hused i hi
  by_cases hpid : p = pid
  · subst hpid
    rw [startProcess_pcb_self]
    simp only [startProcess, Function.update_self]
    exact pdInit_setPde E.layout (k.pd p) p _ hi
  · have hused' : Used k p := (used_startProcess.1 hused).resolve_left hpid
    rw [startProcess_pcb_of_ne hpid]
    simp only [startProcess, Function.update_of_ne hpid]
    exact hp p hused' i hi

theorem SameBlocks.paged (h : SameBlocks k k') (hp : Paged E k) : Paged E k' := by
  intro p hused i hi
  rw [h.pd, h.vidmapped, h.pcb p]
  exact hp p ((h.used p).1 hused) i hi

theorem paged_step {e : Event} (hw : Wf k) (hp : Paged E k) (hs : step E k e = some k') :
    Paged E k' :=
  block_rule (fun _ _ hblocks hk => hblocks.paged hk)
    (fun _ _ _ _ hexec hk => paged_execute hk hexec) (fun _ hsame => hsame.pagedAll hw hp) hp hs

/-- Every run keeps the directories as listed. -/
theorem paged_reachable (h : Reachable E k) : Paged E k := by
  obtain ⟨es, hrun⟩ := h
  have hboot : Paged E (boot E) := fun p hused => by simp [Used, boot] at hused
  have hinv := invariant_of_run (I := fun k => Wf k ∧ Paged E k)
    (fun k e k' hk he => ⟨wf_step hk.1 he, paged_step hk.1 hk.2 he⟩) ⟨wf_boot E, hboot⟩ hrun
  exact hinv.2

end Steps

/-! ### Frames, kernel stacks and control blocks -/

/-- The 4 MB page of a process. -/
def frame (p : ℕ) : Set ℕ := Set.Ico (frameAddr p) (frameAddr p + space4MB)

/-- The kernel stack of a process, with its control block at the bottom; the boot stack for 0. -/
def stackRegion (p : ℕ) : Set ℕ := Set.Ico (pcbAddr p) (pcbAddr p + kernelStackSize)

def kernelPage : Set ℕ := Set.Ico kernelLoc kernelMemEnd

/-- The text page of a terminal. -/
def textPage (t : ℤ) : Set ℕ :=
  Set.Ico (video + pageSize * t.toNat) (video + pageSize * t.toNat + pageSize)

theorem frame_disjoint {p q : ℕ} (hp : 1 ≤ p) (hq : 1 ≤ q) (hne : p ≠ q) :
    Disjoint (frame p) (frame q) := by
  rw [Set.disjoint_left]
  simp only [frame, frameAddr, Set.mem_Ico, kernelMemEnd, space4MB]
  rintro a ⟨h1, h2⟩ ⟨h3, h4⟩
  omega

theorem frame_disjoint_kernelPage (p : ℕ) : Disjoint (frame p) kernelPage := by
  rw [Set.disjoint_left]
  simp only [frame, frameAddr, kernelPage, Set.mem_Ico, kernelMemEnd, space4MB, kernelLoc]
  rintro a ⟨h1, h2⟩ ⟨h3, h4⟩
  omega

theorem stackRegion_subset {p : ℕ} (hp : p ≤ maxProcesses) : stackRegion p ⊆ kernelPage := by
  intro a ha
  simp only [stackRegion, kernelPage, pcbAddr, Set.mem_Ico, kernelMemEnd, kernelStackSize,
    kernelLoc, maxProcesses] at ha hp ⊢
  omega

theorem stackRegion_disjoint {p q : ℕ} (hp : p ≤ maxProcesses) (hq : q ≤ maxProcesses)
    (hne : p ≠ q) : Disjoint (stackRegion p) (stackRegion q) := by
  rw [Set.disjoint_left]
  simp only [stackRegion, pcbAddr, Set.mem_Ico, kernelMemEnd, kernelStackSize, maxProcesses]
    at hp hq ⊢
  rintro a ⟨h1, h2⟩ ⟨h3, h4⟩
  omega

/-- The mask of `pcb()` finds the control block from anywhere on the kernel stack. -/
theorem pcbMask_eq {p : ℕ} (hp : p ≤ maxProcesses) {esp : Word}
    (hesp : esp.toNat ∈ stackRegion p) : (pcbMask esp).toNat = pcbAddr p := by
  have hmask : (0xFFFFE000 : ℕ) = (2 ^ (32 - 13) - 1) <<< 13 := by decide
  rw [pcbMask, BitVec.toNat_and]
  change esp.toNat &&& 0xFFFFE000 = _
  rw [hmask, and_highMask _ _ esp.isLt]
  simp only [stackRegion, pcbAddr, Set.mem_Ico, kernelMemEnd, kernelStackSize, maxProcesses]
    at hp hesp ⊢
  omega

/-! ### Isolation -/

/-- What memory isolation demands of a state. -/
structure Isolated (E : Env) (k : Kernel) : Prop where
  /-- a user access leads to the process's own page or, after `vidmap`, to its text page -/
  translate : ∀ p, Allocated k p → ∀ va pa : Word,
    userTranslate (pageTables E.layout) (k.pd (k.pcb p).pd) va = some pa →
      pa.toNat ∈ frame p ∨ (k.vidmapped p = true ∧ pa.toNat ∈ textPage (k.pcb p).termNum)
  frames_disjoint : ∀ p q, Allocated k p → Allocated k q → p ≠ q → Disjoint (frame p) (frame q)
  stacks_disjoint : ∀ p q, Allocated k p → Allocated k q → p ≠ q →
    Disjoint (stackRegion p) (stackRegion q)
  frame_boot : ∀ p, Allocated k p → Disjoint (frame p) (stackRegion 0)
  frame_kernel : ∀ p, Allocated k p → Disjoint (frame p) kernelPage
  stack_boot : ∀ p, Allocated k p → Disjoint (stackRegion p) (stackRegion 0)
  mask : ∀ p, Allocated k p → ∀ esp : Word, esp.toNat ∈ stackRegion p →
    (pcbMask esp).toNat = pcbAddr p

/-- **Memory isolation holds in every reachable state.** -/
theorem isolation {E : Env} {k : Kernel} (h : Reachable E k) : Isolated E k where
  translate p hp va pa htr := by
    have hwf := wf_reachable h
    have hused := hwf.allocated_used p hp
    have hok := hwf.pcb_ok p hused
    have hterm : (k.pcb p).termNum.toNat < maxTerminals := by
      have := hok.term
      omega
    rw [hok.pd] at htr
    rcases userTranslate_processPd hp.1 hp.2.1 hterm (paged_reachable h p hused) htr with hpa | hpa
    · exact Or.inl (Set.mem_Ico.2 hpa)
    · exact Or.inr ⟨hpa.1, Set.mem_Ico.2 hpa.2⟩
  frames_disjoint p q hp hq hne := frame_disjoint hp.1 hq.1 hne
  stacks_disjoint p q hp hq hne := stackRegion_disjoint hp.2.1 hq.2.1 hne
  frame_boot p _ := (frame_disjoint_kernelPage p).mono_right (stackRegion_subset (Nat.zero_le _))
  frame_kernel p _ := frame_disjoint_kernelPage p
  stack_boot p hp := by
    refine stackRegion_disjoint hp.2.1 (Nat.zero_le _) ?_
    have := hp.1
    omega
  mask p hp esp hesp := pcbMask_eq hp.2.1 hesp

/-- The first shell of the small machine, once it has called `vidmap`. -/
theorem isolation_vidmapped :
    Isolated small (smallState [.key 0, .vidmap 0x8000000]) :=
  isolation (smallState_reachable (by decide +kernel))

/-- A user access to the text page succeeds there, and it does lead to the text page. -/
example : (userTranslate (pageTables small.layout)
    ((smallState [.key 0, .vidmap 0x8000000]).pd 1) 0x8400010).map BitVec.toNat = some 0xB8010 := by
  decide +kernel

end LinuxIsLove
