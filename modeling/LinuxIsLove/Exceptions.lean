import LinuxIsLove.Isolation
import LinuxIsLove.Source.Faults

/-!
# Runs with processor exceptions

Printing changes the screens only, so an exception is a `halt(1)` in a state with the same
processes, and what every event keeps is kept by every input of the machine (`machine_rule`).
-/

namespace LinuxIsLove

open Bytes EventMachine

section Machine

variable {E : Env} {m m' : Machine} {k k' : Kernel} {i : Input}

theorem sameProcesses_faultPrint (E : Env) (intNo errCode : ℕ) (m : Machine) :
    SameProcesses m.kernel (faultPrint E intNo errCode m).kernel :=
  SameProcesses.terminals m.kernel _ _

theorem sameProcesses_redraw (h : redraw E k = some k') : SameProcesses k k' := by
  unfold redraw at h
  split_ifs at h
  cases h
  exact SameProcesses.terminals k _ _

/-- An exception prints a message and ends the process. -/
theorem machineStep_fault {intNo errCode : ℕ}
    (h : machineStep E m (.fault intNo errCode) = some m') :
    step E (faultPrint E intNo errCode m).kernel (.halt 1) = some m'.kernel ∧
      m'.console = (faultPrint E intNo errCode m).console := by
  simp only [machineStep] at h
  split_ifs at h
  unfold faultHandler at h
  split_ifs at h
  obtain ⟨k, hk, rfl⟩ := Option.map_eq_some_iff.1 h
  exact ⟨hk, rfl⟩

/-- **The rule for the machine.**  What printing and the events of the kernel keep is kept by every
input. -/
theorem machine_rule {I : Kernel → Prop} (hsame : ∀ k k', SameProcesses k k' → I k → I k')
    (hstep : ∀ k e k', I k → step E k e = some k' → I k') (hm : I m.kernel)
    (h : machineStep E m i = some m') : I m'.kernel := by
  cases i with
  | event e =>
    obtain ⟨k, hk, rfl⟩ := Option.map_eq_some_iff.1 h
    exact hstep _ e _ hm hk
  | redraw =>
    obtain ⟨k, hk, rfl⟩ := Option.map_eq_some_iff.1 h
    exact hsame _ _ (sameProcesses_redraw hk) hm
  | fault intNo errCode =>
    obtain ⟨hk, -⟩ := machineStep_fault h
    exact hstep _ _ _ (hsame _ _ (sameProcesses_faultPrint E intNo errCode m) hm) hk

/-- Every input keeps the processes well-formed and their directories as listed. -/
theorem wf_paged_machineStep (hm : Wf m.kernel ∧ Paged E m.kernel)
    (h : machineStep E m i = some m') : Wf m'.kernel ∧ Paged E m'.kernel :=
  machine_rule (I := fun k => Wf k ∧ Paged E k)
    (fun _ _ hsame hk => ⟨hsame.wf hk.1, hsame.pagedAll hk.1 hk.2⟩)
    (fun _ _ _ hk he => ⟨wf_step hk.1 he, paged_step hk.1 hk.2 he⟩) hm h

/-- The states of the machine are well-formed and their directories are as listed. -/
theorem wf_paged_machine (h : MachineReachable E m) : Wf m.kernel ∧ Paged E m.kernel := by
  obtain ⟨console, is, hrun⟩ := h
  exact invariant_of_run (I := fun m : Machine => Wf m.kernel ∧ Paged E m.kernel)
    (fun _ _ _ hm hi => wf_paged_machineStep hm hi)
    ⟨wf_boot E, fun p hused => by simp [bootMachine, Used, boot] at hused⟩ hrun

end Machine

/-! ### The small machine -/

/-- The state after a run of the small machine. -/
def smallMachine (is : List Input) : Machine :=
  (run (machineStep small) (bootMachine small ⟨0, 0, video⟩) is).getD
    (bootMachine small ⟨0, 0, video⟩)

theorem run_smallMachine {is : List Input}
    (h : (run (machineStep small) (bootMachine small ⟨0, 0, video⟩) is).isSome = true) :
    run (machineStep small) (bootMachine small ⟨0, 0, video⟩) is = some (smallMachine is) := by
  obtain ⟨m, hm⟩ := Option.isSome_iff_exists.1 h
  rw [smallMachine, hm]
  rfl

theorem run_smallMachine_append {is js : List Input}
    (h : (run (machineStep small) (bootMachine small ⟨0, 0, video⟩) (is ++ js)).isSome = true) :
    run (machineStep small) (smallMachine is) js = some (smallMachine (is ++ js)) := by
  obtain ⟨m, hm, hrest⟩ := run_append_eq_some.1 (run_smallMachine h)
  rwa [smallMachine, hm]

theorem step_smallMachine {is : List Input} {i : Input}
    (h : (run (machineStep small) (bootMachine small ⟨0, 0, video⟩) (is ++ [i])).isSome = true) :
    machineStep small (smallMachine is) i = some (smallMachine (is ++ [i])) := by
  obtain ⟨m, hm, hnil⟩ := run_cons_eq_some.1 (run_smallMachine_append h)
  rwa [run_nil, ← hm] at hnil

end LinuxIsLove
