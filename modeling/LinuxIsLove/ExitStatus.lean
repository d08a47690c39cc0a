import LinuxIsLove.Chains
import LinuxIsLove.Exceptions

/-!
# What `execute` reports

`halt` hands its status to the `execute` of the parent in an 8-bit register, and `execute` keeps it
in a signed character: a status from 128 on becomes negative, and 255 becomes the -1 of a program
that was not started.  An exception ends the process by `halt(1)`, so that it is reported as 1 and
never as 256.

The block of a process that has not ended keeps its parent and the frame of the parent's `execute`
(`sameReturn_step`), so whatever happens in between, the value goes back to that frame.
-/

namespace LinuxIsLove

open Bytes EventMachine

/-- How a call of `execute` went. -/
inductive Outcome
  | notStarted
  | halted (status : UInt8)
  /-- terminated by a processor exception -/
  | faulted

/-- The value that `execute` is to return. -/
def Outcome.value : Outcome → ℤ
  | .notStarted => -1
  | .halted status => status.toNat
  | .faulted => 256

/-- The values tell the outcomes apart. -/
theorem Outcome.value_injective : Function.Injective Outcome.value := by
  intro o o' h
  cases o with
  | notStarted =>
    cases o' with
    | notStarted => rfl
    | halted status =>
      simp only [Outcome.value] at h
      omega
    | faulted => exact absurd h (by decide)
  | halted status =>
    have hlt := status.toNat_lt
    cases o' with
    | notStarted =>
      simp only [Outcome.value] at h
      omega
    | halted status' =>
      simp only [Outcome.value, Nat.cast_inj] at h
      rw [UInt8.toNat.inj h]
    | faulted =>
      simp only [Outcome.value] at h
      omega
  | faulted =>
    cases o' with
    | notStarted => exact absurd h (by decide)
    | halted status =>
      have hlt := status.toNat_lt
      simp only [Outcome.value] at h
      omega
    | faulted => rfl

/-- The input does not end the process. -/
def Survives (p : ℕ) (m : Machine) : Input → Prop
  | .event e => NotHaltOf p m.kernel e
  | .redraw => True
  | .fault _ _ => m.kernel.running ≠ p

/-- The input ends the running process in the way of the outcome. -/
def EndsBy : Input → Outcome → Prop
  | .event (.halt status), .halted status' => status = status'
  | .fault _ _, .faulted => True
  | _, _ => False

/-- A run from the `execute` by which the process running in `m0` gets a child to the end of the
child; `m2` is the state before the input that ends it. -/
structure ChildRun (E : Env) (m0 m1 m2 m3 : Machine) (is : List Input) (o : Outcome) : Prop where
  call : ∃ command, machineStep E m0 (.event (.execute command)) = some m1 ∧
    CanExecute E command m0.kernel
  child : m1.kernel.current.parentPcb = some m0.kernel.running
  between : run (machineStep E) m1 is = some m2
  alive : Guarded (machineStep E) (Survives m1.kernel.running) m1 is
  running : m2.kernel.running = m1.kernel.running
  last : ∃ i, machineStep E m2 i = some m3 ∧ EndsBy i o

/-- A call of `execute` in the state `m0`, with its outcome and the state in which it returns. -/
inductive Execution (E : Env) (m0 : Machine) : Outcome → Machine → Prop
  | failed (command : CString) (m : Machine)
      (call : machineStep E m0 (.event (.execute command)) = some m)
      (cannot : ¬ CanExecute E command m0.kernel) : Execution E m0 .notStarted m
  | ended (m1 m2 m : Machine) (is : List Input) (o : Outcome)
      (child : ChildRun E m0 m1 m2 m is o) : Execution E m0 o m

/-- The caller goes on in the frame of its call. -/
def Returned (m0 m : Machine) : Prop :=
  m.kernel.running = m0.kernel.running ∧
    (m.kernel.resumes = m0.kernel.resumes ∨
      ∃ r rs, m.kernel.resumes = r :: rs ∧ r.pid = m0.kernel.running ∧
        r.esp = ⟨.syscall, m0.kernel.clock + 1⟩ ∧ r.ebp = ⟨.syscall, m0.kernel.clock + 1⟩)

theorem sameReturn_machineStep {E : Env} {m m' : Machine} {i : Input} {p : ℕ} (hw : Wf m.kernel)
    (hp : Allocated m.kernel p) (hi : Survives p m i) (h : machineStep E m i = some m') :
    SameReturn m.kernel m'.kernel p := by
  cases i with
  | event e =>
    obtain ⟨k, hk, rfl⟩ := Option.map_eq_some_iff.1 h
    exact sameReturn_step hw hp hi hk
  | redraw =>
    obtain ⟨k, hk, rfl⟩ := Option.map_eq_some_iff.1 h
    exact (sameProcesses_redraw hk).sameReturn hp
  | fault intNo errCode =>
    obtain ⟨hk, -⟩ := machineStep_fault h
    have hsame := sameProcesses_faultPrint E intNo errCode m
    have hrunning : NotHaltOf p (faultPrint E intNo errCode m).kernel (.halt 1) := by
      show (faultPrint E intNo errCode m).kernel.running ≠ p
      rw [hsame.running]
      exact hi
    have hprinted := hsame.sameReturn hp
    exact hprinted.trans (sameReturn_step (hsame.wf hw) hprinted.allocated hrunning hk)

section Reports

variable {E : Env} {m0 m1 m2 m3 m : Machine} {is : List Input} {o : Outcome}

/-- What the child holds for its parent once it has been started. -/
theorem ChildRun.started (h : ChildRun E m0 m1 m2 m3 is o) (hw : Wf m0.kernel) :
    Wf m1.kernel ∧ Allocated m1.kernel m1.kernel.running ∧
      m1.kernel.current.espParent = ⟨.syscall, m0.kernel.clock + 1⟩ ∧
      m1.kernel.current.ebpParent = ⟨.syscall, m0.kernel.clock + 1⟩ := by
  obtain ⟨command, hcall, hcan⟩ := h.call
  obtain ⟨k1, hk1, rfl⟩ := Option.map_eq_some_iff.1 hcall
  refine ⟨wf_step hw hk1, ?_⟩
  obtain ⟨k2, hexec, rfl⟩ := step_executed hcan hk1
  obtain ⟨pid, dentry, args, -, h1, h6, -, rfl⟩ := execute_spec hexec
  have hblock : (startProcess E .syscall pid dentry args
      (takeSlot m0.kernel.advanceClock pid)).pcb pid =
        newPcb .syscall pid args (takeSlot m0.kernel.advanceClock pid) := startProcess_pcb_self ..
  refine ⟨⟨h1, h6, Function.update_self ..⟩, ?_, ?_⟩
  · exact congrArg Pcb.espParent hblock
  · exact congrArg Pcb.ebpParent hblock

/-- Nothing changes where the child goes back to before it ends. -/
theorem ChildRun.kept (h : ChildRun E m0 m1 m2 m3 is o) (hw : Wf m1.kernel)
    (hp : Allocated m1.kernel m1.kernel.running) :
    Wf m2.kernel ∧ SameReturn m1.kernel m2.kernel m1.kernel.running := by
  refine invariant_of_guarded
    (I := fun m : Machine => Wf m.kernel ∧ SameReturn m1.kernel m.kernel m1.kernel.running)
    (fun m i m' hm hi hstep => ?_) ⟨hw, (SameProcesses.refl _).sameReturn hp⟩ h.alive h.between
  have hw' : Wf m'.kernel :=
    machine_rule (fun _ _ hsame hk => hsame.wf hk) (fun _ _ _ hk he => wf_step hk he) hm.1 hstep
  exact ⟨hw', hm.2.trans (sameReturn_machineStep hm.1 hm.2.allocated hi hstep)⟩

/-- The end of the child is a `halt` in a state with the same processes: with its own status, or
with the status 1 after an exception. -/
theorem endsBy_halt {i : Input} (h : machineStep E m2 i = some m3) (hi : EndsBy i o) :
    ∃ k status, SameProcesses m2.kernel k ∧ step E k (.halt status) = some m3.kernel ∧
      (o = .halted status ∨ (o = .faulted ∧ status = 1)) := by
  cases i with
  | event e =>
    obtain ⟨k, hk, rfl⟩ := Option.map_eq_some_iff.1 h
    cases e with
    | halt status =>
      cases o with
      | halted status' =>
        obtain rfl : status = status' := hi
        exact ⟨_, status, SameProcesses.refl _, hk, Or.inl rfl⟩
      | _ => exact hi.elim
    | _ => exact hi.elim
  | redraw => exact hi.elim
  | fault intNo errCode =>
    obtain ⟨hk, -⟩ := machineStep_fault h
    cases o with
    | faulted => exact ⟨_, 1, sameProcesses_faultPrint E intNo errCode m2, hk, Or.inr ⟨rfl, rfl⟩⟩
    | _ => exact hi.elim

/-- Whatever happens before the child ends, the caller goes on in the frame of its call with the
status as a signed character. -/
theorem ChildRun.returned (h : ChildRun E m0 m1 m2 m3 is o) (hw : Wf m0.kernel) :
    Returned m0 m3 ∧ ∃ status, m3.kernel.eax = exitValue status ∧
      (o = .halted status ∨ (o = .faulted ∧ status = 1)) := by
  obtain ⟨hw1, hlive, hesp, hebp⟩ := h.started hw
  obtain ⟨-, hkept⟩ := h.kept hw1 hlive
  obtain ⟨i, hi, hends⟩ := h.last
  obtain ⟨k, status, hsame, hstep, ho⟩ := endsBy_halt hi hends
  have hcurrent : k.current = k.pcb m1.kernel.running := by
    rw [Kernel.current, hsame.running, h.running]
  have hesp' : k.current.espParent = ⟨.syscall, m0.kernel.clock + 1⟩ := by
    rw [hcurrent, hsame.espParent, hkept.espParent]
    exact hesp
  have hebp' : k.current.ebpParent = ⟨.syscall, m0.kernel.clock + 1⟩ := by
    rw [hcurrent, hsame.ebpParent, hkept.ebpParent]
    exact hebp
  have hparent : k.current.parentPcb = some m0.kernel.running := by
    rw [hcurrent, hsame.parentPcb, hkept.parentPcb]
    exact h.child
  obtain ⟨d, hend⟩ := step_halt_returns hparent (by rw [hesp']) hstep
  refine ⟨⟨by rw [hend]; rfl, Or.inr ⟨_, _, by rw [hend]; rfl, rfl, ?_, ?_⟩⟩, status,
    by rw [hend]; rfl, ho⟩
  · show (halted k.advanceClock d).current.espParent = _
    rw [halted_current]
    exact hesp'
  · show (halted k.advanceClock d).current.ebpParent = _
    rw [halted_current]
    exact hebp'

/-- A signed character holds a status exactly if it is below 128. -/
theorem exitValue_eq_iff (status : UInt8) :
    exitValue status = status.toNat ↔ status.toNat ≤ 127 := by
  have hlt := status.toNat_lt
  simp only [exitValue, schar]
  split_ifs <;> omega

/-- **The value that `execute` returns** tells how the call went exactly if no program was started
or the program ended by a `halt` with a status below 128. -/
theorem execute_reports_iff (hm : MachineReachable E m0) (h : Execution E m0 o m) :
    Returned m0 m ∧ (m.kernel.eax = o.value ↔
      o = .notStarted ∨ ∃ status : UInt8, status.toNat ≤ 127 ∧ o = .halted status) := by
  have hw := (wf_paged_machine hm).1
  cases h with
  | failed command m call cannot =>
    obtain ⟨k1, hk1, rfl⟩ := Option.map_eq_some_iff.1 call
    obtain ⟨k2, hk2, rfl⟩ := Option.map_eq_some_iff.1 hk1
    cases effect_of_dispatch hk2 with
    | executed _ _ hexec =>
      have hcan : CanExecute E command m0.kernel.advanceClock :=
        execute_isSome_iff.1 (by rw [hexec]; rfl)
      exact absurd hcan cannot
    | notExecuted => exact ⟨⟨rfl, Or.inl rfl⟩, iff_of_true rfl (Or.inl rfl)⟩
  | ended m1 m2 m is o child =>
    obtain ⟨hret, status, heax, ho⟩ := child.returned hw
    refine ⟨hret, ?_⟩
    rw [heax]
    rcases ho with rfl | ⟨rfl, rfl⟩
    · rw [Outcome.value, exitValue_eq_iff]
      constructor
      · exact fun hle => Or.inr ⟨status, hle, rfl⟩
      · rintro (hno | ⟨status', hle, heq⟩)
        · exact absurd hno (by simp)
        · rwa [Outcome.halted.inj heq]
    · refine iff_of_false (by decide) ?_
      rintro (hno | ⟨status, -, heq⟩)
      · exact absurd hno (by simp)
      · exact absurd heq (by simp)

end Reports

/-! ### Three ways for a shell to end -/

/-- The first shell executes a shell. -/
def shellStarted : List Input := [.event (.key 0), .event (.execute shell)]

/-- The second shell ends at once. -/
theorem childRun_shell {i : Input} {o : Outcome} (hends : EndsBy i o)
    (h : (run (machineStep small) (bootMachine small ⟨0, 0, video⟩)
      (shellStarted ++ [i])).isSome = true) :
    ChildRun small (smallMachine [.event (.key 0)]) (smallMachine shellStarted)
      (smallMachine shellStarted) (smallMachine (shellStarted ++ [i])) [] o where
  call := ⟨shell, @step_smallMachine [.event (.key 0)] _ (by decide +kernel), by decide +kernel⟩
  child := by decide +kernel
  between := rfl
  alive := trivial
  running := rfl
  last := ⟨i, step_smallMachine h, hends⟩

theorem machineReachable_key : MachineReachable small (smallMachine [.event (.key 0)]) :=
  ⟨⟨0, 0, video⟩, [.event (.key 0)], run_smallMachine (by decide +kernel)⟩

/-- A shell that ends with the status 127. -/
theorem execute_reports_iff_shell :
    Returned (smallMachine [.event (.key 0)])
        (smallMachine (shellStarted ++ [.event (.halt 127)])) ∧
      ((smallMachine (shellStarted ++ [.event (.halt 127)])).kernel.eax =
          (Outcome.halted 127).value ↔
        Outcome.halted 127 = .notStarted ∨
          ∃ status : UInt8, status.toNat ≤ 127 ∧ Outcome.halted 127 = .halted status) :=
  execute_reports_iff machineReachable_key
    (.ended _ _ _ _ _ (childRun_shell (i := .event (.halt 127)) (o := .halted 127) rfl
      (by decide +kernel)))

/-- The parent of a shell that ends with the status 255 is told that no program was started, and a
page fault is reported as the status 1. -/
theorem lostStatus :
    (∃ m, Execution small (smallMachine [.event (.key 0)]) (.halted 255) m ∧
      m.kernel.eax = Outcome.notStarted.value) ∧
    (∃ m, Execution small (smallMachine [.event (.key 0)]) .faulted m ∧
      m.kernel.eax = (Outcome.halted 1).value) := by
  refine ⟨⟨_, .ended _ _ _ _ _ (childRun_shell (i := .event (.halt 255)) rfl (by decide +kernel)),
    ?_⟩, ⟨_, .ended _ _ _ _ _ (childRun_shell (i := .fault 14 4) trivial (by decide +kernel)), ?_⟩⟩
  · decide +kernel
  · decide +kernel

end LinuxIsLove
