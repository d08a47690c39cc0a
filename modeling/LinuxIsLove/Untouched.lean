import LinuxIsLove.Invariant

/-!
# What an event leaves alone

A process that neither makes the system call of an event nor halts in it keeps its pid and its
control block but for the saved context: `execute` takes a free pid, the timer handler saves
contexts only, and `halt` frees the pid of the process that halts.  For a pid that is not allocated
the same holds as long as no process is started.

Of the process that does make the system call the block still says where its `halt` goes
(`sameReturn_step`, `step_halt_returns`).
-/

namespace LinuxIsLove

open Bytes EventMachine

/-- The pid stays allocated, and of the control block only the saved context may differ. -/
structure Untouched (k k' : Kernel) (p : ℕ) : Prop where
  allocated : Allocated k p → Allocated k' p
  pcb : k'.pcb p = { k.pcb p with
    context := { (k.pcb p).context with
      esp := (k'.pcb p).context.esp, ebp := (k'.pcb p).context.ebp } }

namespace Untouched

variable {k k' k'' : Kernel} {p : ℕ}

theorem of_eq (hprocs : k'.procs = k.procs) (hpcb : k'.pcb p = k.pcb p) : Untouched k k' p :=
  ⟨fun hp => by simpa only [Allocated, hprocs] using hp, by rw [hpcb]⟩

theorem trans (h : Untouched k k' p) (h' : Untouched k' k'' p) : Untouched k k'' p :=
  ⟨fun hp => h'.allocated (h.allocated hp), by rw [h'.pcb, h.pcb]⟩

theorem files (h : Untouched k k' p) : (k'.pcb p).files = (k.pcb p).files := by rw [h.pcb]

end Untouched

/-- The event is not the `halt` of the process. -/
def NotHaltOf (p : ℕ) (k : Kernel) : Event → Prop
  | .halt _ => k.running ≠ p
  | _ => True

instance (p : ℕ) (k : Kernel) (e : Event) : Decidable (NotHaltOf p k e) := by
  cases e <;> unfold NotHaltOf <;> infer_instance

theorem notHaltOf_of_ne {p : ℕ} {k : Kernel} (h : k.running ≠ p) (e : Event) :
    NotHaltOf p k e := by
  cases e with
  | halt status => exact h
  | _ => trivial

/-- The pid is not given away between two states: it is allocated, or no process is started. -/
def Kept (k k' : Kernel) (p : ℕ) : Prop := Allocated k p ∨ k'.starts = k.starts

section Steps

variable {E : Env} {k k' : Kernel} {p : ℕ} {site : Site} {command : CString}

/-- Processes are only added to the list of started processes. -/
theorem starts_step {e : Event} (h : step E k e = some k') : k.starts <:+ k'.starts := by
  refine block_rule (P := fun k' => k.starts <:+ k'.starts) ?_ ?_ ?_ List.suffix_rfl h
  · intro k1 k2 hblocks hk
    rwa [hblocks.starts]
  · intro k1 site command k2 hexec hk
    obtain ⟨pid, dentry, args, -, -, -, -, rfl⟩ := execute_spec hexec
    exact hk.trans (List.suffix_cons _ _)
  · intro k1 hsame
    rw [hsame.starts]

theorem starts_run {es : List Event} (h : run (step E) k es = some k') : k.starts <:+ k'.starts :=
  invariant_of_run (I := fun k' => k.starts <:+ k'.starts)
    (fun _ _ _ hI hs => hI.trans (starts_step hs))
    List.suffix_rfl h

/-- No process is started in a part of a run without one. -/
theorem starts_between {k1 : Kernel} {e : Event} {es : List Event} (h1 : step E k e = some k1)
    (h2 : run (step E) k1 es = some k') (heq : k'.starts = k.starts) : k1.starts = k.starts := by
  have hrest := starts_run h2
  rw [heq] at hrest
  exact hrest.eq_of_length_le (starts_step h1).length_le

/-- A pid that is kept over a run is kept by the first step. -/
theorem Kept.head {k1 : Kernel} {e : Event} {es : List Event} (hp : Kept k k' p)
    (h1 : step E k e = some k1) (h2 : run (step E) k1 es = some k') : Kept k k1 p :=
  hp.imp_right (starts_between h1 h2)

/-- A pid that is kept over a run is kept by the steps after the first one. -/
theorem Kept.tail {k1 : Kernel} {e : Event} {es : List Event} (hp : Kept k k' p)
    (h1 : step E k e = some k1) (h2 : run (step E) k1 es = some k')
    (hall : Allocated k p → Allocated k1 p) : Kept k1 k' p :=
  hp.imp hall fun heq => heq.trans (starts_between h1 h2 heq).symm

theorem SameProcesses.untouched (h : SameProcesses k k') (hr : p ≠ k.running) :
    Untouched k k' p := by
  refine Untouched.of_eq h.procs ?_
  rw [h.pcb p, h.otherFiles p hr]

/-- `execute` takes the pid and the control block of no process. -/
theorem untouched_execute (hp : Kept k k' p) (h : execute E site command k = some k') :
    Untouched k k' p := by
  obtain ⟨pid, dentry, args, -, h1, h6, hfree, rfl⟩ := execute_spec h
  have hne : p ≠ pid := by
    rintro rfl
    rcases hp with hp | hp
    · exact hfree hp
    · exact absurd (congrArg List.length hp) (by simp [startProcess, takeSlot])
  refine ⟨fun hall => (allocated_takeSlot h1 h6).2 (Or.inr hall), ?_⟩
  rw [startProcess_pcb_of_ne hne]
  rfl

theorem untouched_schedule (p : ℕ) {frame : Token} (h : schedule frame k = some k') :
    Untouched k k' p := by
  obtain ⟨next, -, ⟨-, rfl⟩ | ⟨-, rfl⟩⟩ := schedule_spec h
  · exact Untouched.of_eq rfl rfl
  · exact Untouched.of_eq rfl rfl

theorem untouched_saveContext (p : ℕ) (frame : Token) (k : Kernel) :
    Untouched k (saveContext frame k) p := by
  refine ⟨fun hall => hall, ?_⟩
  rw [saveContext_pcb]
  split_ifs <;> rfl

theorem untouched_pitHandlerMain (hp : Kept k k' p) (h : pitHandlerMain E k = some k') :
    Untouched k k' p := by
  have hsaved := untouched_saveContext p ⟨.pit, k.clock⟩ k
  have hcleared : Untouched k { saveContext ⟨.pit, k.clock⟩ k with nextExecute := false } p :=
    hsaved.trans (Untouched.of_eq rfl rfl)
  rcases pitHandlerMain_spec h with ⟨-, rfl⟩ | ⟨-, ⟨-, hexec⟩ | ⟨-, -, hs⟩ | ⟨-, hs⟩⟩
  · exact Untouched.of_eq rfl rfl
  · exact hcleared.trans (untouched_execute hp hexec)
  · exact hcleared.trans (untouched_schedule p hs)
  · exact hsaved.trans (untouched_schedule p hs)

theorem untouched_startTerminal (hp : Kept k k' p) {t : ℕ} (h : startTerminal E t k = some k') :
    Untouched k k' p := by
  rcases startTerminal_spec h with ⟨-, rfl⟩ | ⟨-, -, -, ⟨-, rfl⟩ | ⟨-, -, rfl⟩ | ⟨-, -, hexec⟩⟩
  · exact Untouched.of_eq rfl rfl
  · exact Untouched.of_eq rfl rfl
  · exact Untouched.of_eq rfl rfl
  · have hdisplayed : Untouched k { k with currentTerminal := t } p := Untouched.of_eq rfl rfl
    exact hdisplayed.trans (untouched_execute hp hexec)

theorem untouched_continueFrame (hp : Kept k k' p) {frame : Token}
    (h : continueFrame E frame k = some k') : Untouched k k' p := by
  rcases continueFrame_spec h with ⟨-, rfl⟩ | ⟨-, hs⟩ | ⟨-, hexec⟩
  · exact Untouched.of_eq rfl rfl
  · exact untouched_schedule p hs
  · exact untouched_execute hp hexec

/-- The pids that are allocated once a process has been deleted. -/
theorem allocated_halted (hw : Wf k) (hr : k.running ≠ 0) (d : Devices) :
    Allocated (halted k d) p ↔ Allocated k p ∧ p ≠ k.running := by
  have hrange := hw.used_range _ (hw.running_used hr)
  have hpid : k.current.pid = k.running := (hw.current_ok hr).pid
  have hdelete : Allocated (halted k d) p ↔ Allocated (deleteProcess k k.running) p := by
    rw [halted, hpid]
    rfl
  rw [hdelete, allocated_deleteProcess hrange.1 hrange.2]

/-- `halt` frees the pid of no other process. -/
theorem untouched_halt (hw : Wf k) (hr : k.running ≠ 0) (hp : Kept k k' p) (hne : p ≠ k.running)
    {status : UInt8} (h : halt E status k = some k') : Untouched k k' p := by
  obtain ⟨d, hfinish⟩ := halt_spec h
  have hhalted : Untouched k (halted k d) p :=
    ⟨fun hall => (allocated_halted hw hr d).2 ⟨hall, hne⟩, by rw [halted_pcb]⟩
  have hp' : Kept (halted k d) k' p := by
    rw [Kept, halted_starts]
    exact hp.imp_left hhalted.allocated
  rcases haltFinish_spec hfinish with ⟨parent, -, hcont⟩ | ⟨-, hexec⟩
  · have hret : Untouched (halted k d) (returnToParent parent status (halted k d)) p :=
      Untouched.of_eq rfl rfl
    exact (hhalted.trans hret).trans (untouched_continueFrame hp' hcont)
  · have hdrop : Untouched (halted k d) (dropBase (halted k d)) p := Untouched.of_eq rfl rfl
    exact (hhalted.trans hdrop).trans (untouched_execute hp' hexec)

/-- **What an event leaves alone**: every process that does not halt in it, unless the process
itself makes one of the system calls that work on its descriptors or its memory. -/
theorem untouched_step {e : Event} (hw : Wf k) (hp : Kept k k' p)
    (hhalt : NotHaltOf p k e) (hquiet : e.quiet → k.running ≠ p)
    (h : step E k e = some k') : Untouched k k' p := by
  by_cases hq : e.quiet
  · exact (sameProcesses_step hq h).untouched (hquiet hq).symm
  have hw0 : Wf k.advanceClock := (SameProcesses.advanceClock k).wf hw
  obtain ⟨k1, hk1, rfl⟩ := Option.map_eq_some_iff.1 h
  have hstart : Untouched k k.advanceClock p := Untouched.of_eq rfl rfl
  have hend : Untouched k1 (k1.setIflag true) p := Untouched.of_eq rfl rfl
  have hp1 : Kept k.advanceClock k1 p := hp
  suffices hbody : Untouched k.advanceClock k1 p from (hstart.trans hbody).trans hend
  cases effect_of_dispatch hk1 with
  | key t hstart => exact untouched_startTerminal hp1 hstart
  | tick htimer => exact untouched_pitHandlerMain hp1 htimer
  | executed command hr hexec => exact untouched_execute hp1 hexec
  | notExecuted => exact Untouched.of_eq rfl rfl
  | halt status hr hend => exact untouched_halt hw0 hr hp1 (Ne.symm hhalt) hend
  | _ => exact absurd trivial hq

/-! ### Where the `halt` of a process goes -/

/-- The part of a control block that says where `halt` goes. -/
structure SameReturn (k k' : Kernel) (p : ℕ) : Prop where
  allocated : Allocated k' p
  parentPcb : (k'.pcb p).parentPcb = (k.pcb p).parentPcb
  espParent : (k'.pcb p).espParent = (k.pcb p).espParent
  ebpParent : (k'.pcb p).ebpParent = (k.pcb p).ebpParent

theorem SameReturn.trans {k'' : Kernel} (h : SameReturn k k' p) (h' : SameReturn k' k'' p) :
    SameReturn k k'' p :=
  ⟨h'.allocated, h'.parentPcb.trans h.parentPcb, h'.espParent.trans h.espParent,
    h'.ebpParent.trans h.ebpParent⟩

theorem SameProcesses.sameReturn (h : SameProcesses k k') (hp : Allocated k p) :
    SameReturn k k' p :=
  ⟨(h.allocated p).2 hp, h.parentPcb p, h.espParent p, h.ebpParent p⟩

/-- Only its own `halt` changes where the `halt` of a process goes. -/
theorem sameReturn_step {e : Event} (hw : Wf k) (hp : Allocated k p) (hhalt : NotHaltOf p k e)
    (h : step E k e = some k') : SameReturn k k' p := by
  by_cases hq : e.quiet
  · exact (sameProcesses_step hq h).sameReturn hp
  · have hun := untouched_step hw (Or.inl hp) hhalt (fun hq' => absurd hq' hq) h
    exact ⟨hun.allocated hp, by rw [hun.pcb], by rw [hun.pcb], by rw [hun.pcb]⟩

/-- The `halt` of a process that was started by a system call goes back to the frame of that call,
with the status as a signed character. -/
theorem step_halt_returns {parent : ℕ} {status : UInt8}
    (hparent : k.current.parentPcb = some parent) (hsite : k.current.espParent.site = .syscall)
    (h : step E k (.halt status) = some k') :
    ∃ d, k' = (returnToParent parent status (halted k.advanceClock d)).setIflag true := by
  obtain ⟨k1, hk1, rfl⟩ := Option.map_eq_some_iff.1 h
  obtain ⟨d, hfinish⟩ : ∃ d, haltFinish E status (halted k.advanceClock d) = some k1 := by
    cases effect_of_dispatch hk1 with
    | halt _ _ hend => exact halt_spec hend
  rcases haltFinish_spec hfinish with ⟨parent', hp, hcont⟩ | ⟨hbase, -⟩
  · rw [halted_current] at hp hcont
    obtain rfl : parent = parent' := Option.some.inj (hparent.symm.trans hp)
    have hsite' : k.advanceClock.current.espParent.site = .syscall := hsite
    simp only [continueFrame, hsite'] at hcont
    obtain rfl := Option.some.inj hcont
    exact ⟨d, rfl⟩
  · rw [halted_current] at hbase
    exact absurd (hparent.symm.trans hbase) (by simp)

end Steps

end LinuxIsLove
