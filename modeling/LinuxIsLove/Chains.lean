import LinuxIsLove.Foundation.Linked
import LinuxIsLove.Untouched

/-!
# Chains of processes

What the process table is for: a stack of processes for each terminal, the active process on top
and every other process below its child.  `Represents k F` says that the active processes and the
parent pointers of a state are the family `F` of stacks, and that the allocated pids are its
members.  `execute` pushes the new pid and `halt` pops the pid that halts.

Two steps break this.  An `execute` by a process while the displayed terminal has none makes a base
shell instead of a child.  A base shell that halts while another terminal with a process is
displayed is replaced by a child of itself.  `chains_iff` says that a run keeps the chains exactly
if it has no such step.
-/

namespace LinuxIsLove

open Bytes EventMachine

/-- The pointer from a process to its parent. -/
def parentOf (k : Kernel) (p : ℕ) : Option ℕ := (k.pcb p).parentPcb

/-- The processes of each terminal form a stack, and there are no others. -/
structure Represents (k : Kernel) (F : StackFamily ℤ ℕ) : Prop where
  chain : ∀ t, Linked.Chain (parentOf k) (getActiveProcess k t) (F.stack t)
  term : ∀ t, ∀ p ∈ F.stack t, (k.pcb p).termNum = t
  allocated : ∀ p, Allocated k p ↔ p ∈ F.members

/-- A process started by the system call is a child of its caller, on the caller's terminal. -/
def ChildrenOk (k : Kernel) : Prop :=
  ∀ s ∈ k.starts, s.site = .syscall → s.parent = some s.caller ∧ s.term = s.callerTerm

/-- What the process-chain invariant demands of a state. -/
def ChainsOk (k : Kernel) : Prop := (∃ F, Represents k F) ∧ ChildrenOk k

/-- The running process is the active process of its terminal. -/
def OnTop (k : Kernel) : Prop :=
  k.running ≠ 0 → getActiveProcess k k.current.termNum = some k.running

/-- A slot for another process. -/
def FreeSlot (k : Kernel) : Prop := ∃ p, 1 ≤ p ∧ p ≤ maxProcesses ∧ ¬ Allocated k p

/-- A command that `execute` would carry out. -/
def CanExecute (E : Env) (command : CString) (k : Kernel) : Prop :=
  (checkExecutable E.img command).isSome = true ∧ FreeSlot k

/-- The steps that keep the chains: whenever a process calls `execute` with success the displayed
terminal has a process; when a base shell halts, its own terminal or one without a process is
displayed. -/
def ChainStep (E : Env) (k : Kernel) : Event → Prop
  | .execute command => CanExecute E command k → currTerminalRunningProcess k = true
  | .halt _ => k.current.parentPcb = none →
      k.currentTerminal = k.current.termNum ∨ getActiveProcess k k.currentTerminal = none
  | _ => True

/-! ### States with the same stacks -/

section Represents

variable {k k' : Kernel} {F : StackFamily ℤ ℕ} {p : ℕ} {t : ℤ}

/-- The stacks depend on the process table and on two fields of the control blocks. -/
theorem Represents.congr (hF : Represents k F) (hprocs : k'.procs = k.procs)
    (hactive : ∀ t, getActiveProcess k' t = getActiveProcess k t)
    (hparent : ∀ p, parentOf k' p = parentOf k p)
    (hterm : ∀ p, (k'.pcb p).termNum = (k.pcb p).termNum) : Represents k' F where
  chain t := by
    rw [hactive t]
    exact (hF.chain t).congr fun a _ => hparent a
  term t p hp := by rw [hterm p, hF.term t p hp]
  allocated p := by
    rw [← hF.allocated p]
    simp only [Allocated, hprocs]

theorem SameProcesses.represents (h : SameProcesses k k') (hF : Represents k F) :
    Represents k' F :=
  hF.congr h.procs h.getActiveProcess h.parentPcb h.termNum

theorem SameProcesses.onTop (h : SameProcesses k k') (htop : OnTop k) : OnTop k' := by
  intro hr
  rw [h.running] at hr ⊢
  rw [h.getActiveProcess, Kernel.current, h.running, h.termNum]
  exact htop hr

theorem SameProcesses.childrenOk (h : SameProcesses k k') (hc : ChildrenOk k) :
    ChildrenOk k' := by
  intro s hs
  rw [h.starts] at hs
  exact hc s hs

/-- The active process of a terminal is the top of its stack. -/
theorem Represents.stack_of_active (hF : Represents k F) (h : getActiveProcess k t = some p) :
    ∃ l, F.stack t = p :: l ∧ Linked.Chain (parentOf k) (parentOf k p) l := by
  have hchain := hF.chain t
  rw [h] at hchain
  cases hl : F.stack t with
  | nil =>
    rw [hl] at hchain
    exact absurd hchain (by simp)
  | cons a l =>
    rw [hl] at hchain
    obtain ⟨ha, hrest⟩ := hchain
    cases ha
    exact ⟨l, rfl, hrest⟩

theorem Represents.mem_of_active (hF : Represents k F) (h : getActiveProcess k t = some p) :
    p ∈ F.stack t := by
  obtain ⟨l, hl, -⟩ := hF.stack_of_active h
  rw [hl]
  exact List.mem_cons_self

theorem Represents.term_of_active (hF : Represents k F) (h : getActiveProcess k t = some p) :
    (k.pcb p).termNum = t :=
  hF.term t p (hF.mem_of_active h)

theorem Represents.allocated_of_active (hF : Represents k F)
    (h : getActiveProcess k t = some p) : Allocated k p :=
  (hF.allocated p).2 ⟨t, hF.mem_of_active h⟩

/-- A process that is active is the top of the stack of its own terminal. -/
theorem Represents.onTop_of_active (hF : Represents k F) (h : getActiveProcess k t = some p) :
    getActiveProcess k (k.pcb p).termNum = some p := by
  rw [hF.term_of_active h]
  exact h

/-- A new process on top of the stack of a terminal. -/
theorem Represents.push (hF : Represents k F) (hfresh : p ∉ F.members)
    (hallocated : ∀ q, Allocated k' q ↔ q = p ∨ Allocated k q)
    (hactive : ∀ u, getActiveProcess k' u = if u = t then some p else getActiveProcess k u)
    (hpcb : ∀ q, q ≠ p → k'.pcb q = k.pcb q) (hparent : parentOf k' p = getActiveProcess k t)
    (hterm : (k'.pcb p).termNum = t) : Represents k' (F.push t p hfresh) := by
  have hold : ∀ u, ∀ q ∈ F.stack u, k'.pcb q = k.pcb q := by
    intro u q hq
    apply hpcb
    rintro rfl
    exact hfresh ⟨u, hq⟩
  have hchain : ∀ u, Linked.Chain (parentOf k') (getActiveProcess k u) (F.stack u) := fun u =>
    (hF.chain u).congr fun q hq => by rw [parentOf, parentOf, hold u q hq]
  constructor
  · intro u
    rw [hactive u]
    by_cases hu : u = t
    · subst hu
      rw [if_pos rfl, StackFamily.push_stack_self]
      refine ⟨rfl, ?_⟩
      rw [hparent]
      exact hchain u
    · rw [if_neg hu, StackFamily.push_stack_of_ne F hfresh hu]
      exact hchain u
  · intro u q hq
    by_cases hu : u = t
    · subst hu
      rw [StackFamily.push_stack_self] at hq
      rcases List.mem_cons.1 hq with rfl | hq
      · exact hterm
      · rw [hold u q hq, hF.term u q hq]
    · rw [StackFamily.push_stack_of_ne F hfresh hu] at hq
      rw [hold u q hq, hF.term u q hq]
  · intro q
    rw [hallocated q, hF.allocated q, StackFamily.mem_members_push]

/-- The top of the stack of a terminal is taken away, and its parent is active. -/
theorem Represents.pop (hF : Represents k F) (htop : getActiveProcess k t = some p)
    (hallocated : ∀ q, Allocated k' q ↔ Allocated k q ∧ q ≠ p)
    (hactive : ∀ u, getActiveProcess k' u = if u = t then parentOf k p else getActiveProcess k u)
    (hpcb : k'.pcb = k.pcb) : Represents k' (F.pop t) := by
  obtain ⟨l, hl, hrest⟩ := hF.stack_of_active htop
  have hparents : parentOf k' = parentOf k := by
    funext q
    rw [parentOf, parentOf, hpcb]
  constructor
  · intro u
    rw [hactive u, hparents]
    by_cases hu : u = t
    · subst hu
      rw [if_pos rfl, StackFamily.pop_stack_self, hl]
      exact hrest
    · rw [if_neg hu, StackFamily.pop_stack_of_ne F hu]
      exact hF.chain u
  · intro u q hq
    rw [hpcb]
    apply hF.term u q
    by_cases hu : u = t
    · subst hu
      rw [StackFamily.pop_stack_self] at hq
      exact List.mem_of_mem_tail hq
    · rwa [StackFamily.pop_stack_of_ne F hu] at hq
  · intro q
    rw [hallocated q, hF.allocated q, StackFamily.mem_members_pop F hl]

end Represents

/-! ### `execute` pushes -/

section Execute

variable {E : Env} {k k' : Kernel} {F : StackFamily ℤ ℕ} {site : Site} {command : CString}

theorem execute_isSome_iff :
    (execute E site command k).isSome = true ↔ CanExecute E command k := by
  constructor
  · intro h
    obtain ⟨k', hk'⟩ := Option.isSome_iff_exists.1 h
    obtain ⟨pid, dentry, args, hcheck, h1, h6, hfree, -⟩ := execute_spec hk'
    exact ⟨by rw [hcheck]; rfl, pid, h1, h6, hfree⟩
  · rintro ⟨hcheck, p, h1, h6, hfree⟩
    by_contra hnone
    rw [Option.not_isSome_iff_eq_none] at hnone
    rcases execute_eq_none hnone with hno | hfull
    · rw [hno] at hcheck
      exact absurd hcheck (by decide)
    · exact hfree (hfull p h1 h6)

/-- A call of `execute` that can start a process does. -/
theorem step_executed (hcan : CanExecute E command k)
    (h : step E k (.execute command) = some k') :
    ∃ k1, execute E .syscall command k.advanceClock = some k1 ∧ k' = k1.setIflag true := by
  obtain ⟨k1, hk1, rfl⟩ := Option.map_eq_some_iff.1 h
  cases effect_of_dispatch hk1 with
  | executed _ _ hexec => exact ⟨k1, hexec, rfl⟩
  | notExecuted _ _ hnone =>
    have hcan' : CanExecute E command k.advanceClock := hcan
    have hsome : (execute E .syscall command k.advanceClock).isSome = true :=
      execute_isSome_iff.2 hcan'
    rw [hnone] at hsome
    exact absurd hsome (by decide)

theorem freeSlot_iff : FreeSlot k ↔ ∃ p < maxProcesses + 1, 1 ≤ p ∧ ¬ Allocated k p := by
  simp only [FreeSlot, Nat.lt_succ_iff]
  exact exists_congr fun p => and_left_comm

instance (k : Kernel) : Decidable (FreeSlot k) := decidable_of_iff' _ freeSlot_iff

instance (E : Env) (command : CString) (k : Kernel) : Decidable (CanExecute E command k) := by
  unfold CanExecute
  infer_instance

instance (E : Env) (k : Kernel) : (e : Event) → Decidable (ChainStep E k e)
  | .execute command =>
    (inferInstance : Decidable (CanExecute E command k → currTerminalRunningProcess k = true))
  | .halt _ =>
    (inferInstance : Decidable (k.current.parentPcb = none →
      k.currentTerminal = k.current.termNum ∨ getActiveProcess k k.currentTerminal = none))
  | .key _ | .tick | .openFile _ | .closeFile _ | .arm _ _ | .read _ _ _ | .write _ _ _
  | .getargs _ _ | .vidmap _ | .compute _ | .type _ | .rtcInterrupt => instDecidableTrue

/-- The parent of a new process is the active process of its terminal. -/
theorem newParent_eq (htop : currTerminalRunningProcess k = true →
    getActiveProcess k k.current.termNum = some k.running) :
    newParent k = getActiveProcess k (newTerm k) := by
  unfold newParent newTerm
  cases hc : currTerminalRunningProcess k with
  | true =>
    rw [if_pos rfl, if_pos rfl]
    exact (htop hc).symm
  | false =>
    rw [if_neg Bool.false_ne_true, if_neg Bool.false_ne_true]
    exact (Option.not_isSome_iff_eq_none.1 (by
      rw [currTerminalRunningProcess] at hc
      rw [hc]
      exact Bool.false_ne_true)).symm

/-- **`execute` pushes the new pid on the stack of its terminal**, provided the caller is the top of
its own stack whenever the displayed terminal has a process. -/
theorem represents_execute (hF : Represents k F)
    (htop : currTerminalRunningProcess k = true →
      getActiveProcess k k.current.termNum = some k.running)
    (ht : 0 ≤ newTerm k ∧ newTerm k < maxTerminals) (h : execute E site command k = some k') :
    ∃ hfresh : k'.running ∉ F.members,
      Represents k' (F.push (newTerm k) k'.running hfresh) ∧ OnTop k' := by
  have hparent := newParent_eq htop
  obtain ⟨pid, dentry, args, -, h1, h6, hfree, rfl⟩ := execute_spec h
  have hfresh : pid ∉ F.members := fun hmem => hfree ((hF.allocated pid).2 hmem)
  have hactive : ∀ u, getActiveProcess (startProcess E site pid dentry args (takeSlot k pid)) u =
      if u = newTerm k then some pid else getActiveProcess k u :=
    getActiveProcess_startProcess (k := takeSlot k pid) ht
  refine ⟨hfresh, hF.push hfresh (fun q => allocated_takeSlot h1 h6) hactive
    (fun q hq => startProcess_pcb_of_ne hq) ?_ ?_, fun _ => ?_⟩
  · show parentOf _ pid = _
    rw [parentOf, startProcess_pcb_self, ← hparent]
    rfl
  · show (Kernel.pcb _ pid).termNum = _
    rw [startProcess_pcb_self]
    rfl
  · show getActiveProcess _ (Kernel.pcb _ pid).termNum = some pid
    rw [startProcess_pcb_self, hactive]
    exact if_pos rfl

theorem childrenOk_execute (hc : ChildrenOk k)
    (hsite : site ≠ .syscall ∨ currTerminalRunningProcess k = true)
    (h : execute E site command k = some k') : ChildrenOk k' := by
  obtain ⟨pid, dentry, args, -, -, -, -, rfl⟩ := execute_spec h
  intro s hs hcall
  rcases List.mem_cons.1 hs with rfl | hs
  · have hcurr : currTerminalRunningProcess (takeSlot k pid) = true :=
      hsite.resolve_left (not_not.2 hcall)
    exact ⟨if_pos hcurr, if_pos hcurr⟩
  · exact hc s hs hcall

end Execute

/-! ### `halt` pops -/

section Halt

variable {E : Env} {k k' : Kernel} {F : StackFamily ℤ ℕ}

/-- The parent of the halting process takes over. -/
theorem represents_returnToParent (hw : Wf k) (hF : Represents k F) (hr : k.running ≠ 0)
    (htop : OnTop k) {parent : ℕ} (hparent : k.current.parentPcb = some parent) (d : Devices)
    (status : UInt8) :
    Represents (returnToParent parent status (halted k d)) (F.pop k.current.termNum) ∧
      OnTop (returnToParent parent status (halted k d)) := by
  obtain ⟨l, hl, hrest⟩ := hF.stack_of_active (htop hr)
  have hmem : parent ∈ F.stack k.current.termNum :=
    (hF.chain _).next_mem (hF.mem_of_active (htop hr)) hparent
  have hterm : (k.pcb parent).termNum = k.current.termNum := hF.term _ _ hmem
  have hused : Used k parent := (hw.current_ok hr).parent parent hparent
  have hrange : 0 ≤ ((halted k d).pcb parent).termNum ∧
      ((halted k d).pcb parent).termNum < maxTerminals := by
    rw [halted_pcb]
    exact (hw.pcb_ok parent hused).term
  have hactive : ∀ u, getActiveProcess (returnToParent parent status (halted k d)) u =
      if u = k.current.termNum then parentOf k k.running else getActiveProcess k u := by
    intro u
    rw [getActiveProcess_returnToParent hrange, halted_pcb, hterm, (hw.pcb_ok parent hused).pid,
      getActiveProcess_halted]
    exact if_congr Iff.rfl hparent.symm rfl
  constructor
  · exact hF.pop (htop hr) (fun q => allocated_halted hw hr d) hactive (halted_pcb k d)
  · intro _
    show getActiveProcess _ ((halted k d).pcb parent).termNum = some parent
    rw [halted_pcb, hactive, if_pos hterm]
    exact hparent

/-- A terminal loses its base shell. -/
theorem represents_dropBase (hw : Wf k) (hF : Represents k F) (hr : k.running ≠ 0)
    (htop : OnTop k) (hbase : k.current.parentPcb = none) (d : Devices) :
    Represents (dropBase (halted k d)) (F.pop k.current.termNum) := by
  have hactive : ∀ u, getActiveProcess (dropBase (halted k d)) u =
      if u = k.current.termNum then parentOf k k.running else getActiveProcess k u := by
    intro u
    have hrange := (hw.current_ok hr).term
    rw [getActiveProcess_dropBase (by rw [halted_current]; exact hrange), halted_current,
      getActiveProcess_halted]
    exact if_congr Iff.rfl hbase.symm rfl
  exact hF.pop (htop hr) (fun q => allocated_halted hw hr d) hactive (halted_pcb k d)

end Halt

/-! ### Every step but two keeps the chains -/

/-- The state is well formed, its processes form stacks, and the running process is on top. -/
structure Stacked (k : Kernel) : Prop where
  wf : Wf k
  chains : ChainsOk k
  onTop : OnTop k

section Steps

variable {E : Env} {k k' : Kernel} {site : Site} {command : CString}

/-- The running process has no child. -/
theorem Stacked.no_child (hk : Stacked k) {c : ℕ} (hc : Allocated k c) :
    parentOf k c ≠ some k.running := by
  intro hparent
  have hused := (hk.wf.pcb_ok c (hk.wf.allocated_used c hc)).parent _ hparent
  obtain ⟨F, hF⟩ := hk.chains.1
  obtain ⟨t, ht⟩ := (hF.allocated c).1 hc
  obtain ⟨l, hl, -⟩ := hF.stack_of_active (hk.onTop (hk.wf.used_ne_zero hused))
  have hmem : k.running ∈ F.stack k.current.termNum := by
    rw [hl]
    exact List.mem_cons_self
  have hindex := F.index_unique ((hF.chain t).next_mem ht hparent) hmem
  subst hindex
  have hchain := hF.chain k.current.termNum
  have hnodup := F.nodup k.current.termNum
  rw [hl] at hchain hnodup ht
  exact hchain.next_ne_head hnodup ht hparent

/-- The caller of `execute` is on top of its stack in a state where the processes form stacks. -/
theorem Stacked.caller_active (hk : Stacked k) (hc : currTerminalRunningProcess k = true) :
    getActiveProcess k k.current.termNum = some k.running := by
  obtain ⟨p, hp⟩ := Option.isSome_iff_exists.1 hc
  exact hk.onTop (hk.wf.running_ne_zero (hk.wf.active_used _ p hp))

theorem SameProcesses.stacked (h : SameProcesses k k') (hk : Stacked k) : Stacked k' := by
  obtain ⟨F, hF⟩ := hk.chains.1
  exact ⟨h.wf hk.wf, ⟨⟨F, h.represents hF⟩, h.childrenOk hk.chains.2⟩, h.onTop hk.onTop⟩

theorem stacked_boot (E : Env) : Stacked (boot E) := by
  refine ⟨wf_boot E, ⟨⟨StackFamily.empty, ?_, ?_, ?_⟩, ?_⟩, fun hr => absurd rfl hr⟩
  · intro t
    simp [StackFamily.empty, getActiveProcess, boot]
  · intro t p hp
    simp [StackFamily.empty] at hp
  · intro p
    simp [Allocated, boot, StackFamily.empty, StackFamily.members]
  · intro s hs
    simp [boot] at hs

/-- An `execute` in a state where the processes form stacks. -/
theorem stacked_execute (hk : Stacked k) (hcur : 0 ≤ k.currentTerminal)
    (hsite : site ≠ .syscall ∨ currTerminalRunningProcess k = true)
    (h : execute E site command k = some k') : Stacked k' := by
  obtain ⟨F, hF⟩ := hk.chains.1
  obtain ⟨hfresh, hF', htop'⟩ :=
    represents_execute hF hk.caller_active (hk.wf.newTerm_range hcur) h
  exact ⟨wf_execute hk.wf hcur h, ⟨⟨_, hF'⟩, childrenOk_execute hk.chains.2 hsite h⟩, htop'⟩

theorem stacked_schedule (hk : Stacked k) {frame : Token} (h : schedule frame k = some k') :
    Stacked k' := by
  have hw' := wf_schedule hk.wf h
  obtain ⟨next, hnext, ⟨-, rfl⟩ | ⟨-, rfl⟩⟩ := schedule_spec h
  · exact hk
  · obtain ⟨t, ht⟩ := nextPid_active hnext
    obtain ⟨F, hF⟩ := hk.chains.1
    exact ⟨hw', ⟨⟨F, hF.congr rfl (fun _ => rfl) (fun _ => rfl) (fun _ => rfl)⟩, hk.chains.2⟩,
      fun _ => hF.onTop_of_active ht⟩

theorem stacked_saveContext (hk : Stacked k) (frame : Token) (b : Bool) :
    Stacked { saveContext frame k with nextExecute := b } := by
  obtain ⟨F, hF⟩ := hk.chains.1
  refine ⟨wf_nextExecute (wf_saveContext hk.wf frame) b, ⟨⟨F, ?_⟩, hk.chains.2⟩, fun hr => ?_⟩
  · refine hF.congr rfl (fun _ => rfl) (fun p => ?_) fun p => ?_
    · show ((saveContext frame k).pcb p).parentPcb = _
      rw [saveContext_pcb]
      rfl
    · show ((saveContext frame k).pcb p).termNum = _
      rw [saveContext_pcb]
  · show getActiveProcess k ((saveContext frame k).pcb k.running).termNum = some k.running
    rw [saveContext_pcb]
    exact hk.onTop hr

theorem stacked_display (hk : Stacked k) {t : ℕ} (ht : (t : ℤ) < maxTerminals) (b : Bool) :
    Stacked { k with currentTerminal := t, nextExecute := b } := by
  obtain ⟨F, hF⟩ := hk.chains.1
  exact ⟨wf_display hk.wf ht b,
    ⟨⟨F, hF.congr rfl (fun _ => rfl) (fun _ => rfl) (fun _ => rfl)⟩, hk.chains.2⟩, hk.onTop⟩

theorem closed_stacked (E : Env) : Closed E Stacked where
  wf _ hk := hk.wf
  save _ frame b hk := stacked_saveContext hk frame b
  display _ _ b hk ht := stacked_display hk ht b
  schedule _ _ _ hk h := stacked_schedule hk h
  execute _ _ _ hk hsite hcur h := stacked_execute hk hcur (Or.inl hsite) h

/-- The displayed terminal after a base shell has been dropped. -/
theorem currTerminalRunningProcess_dropBase (hw : Wf k) (hr : k.running ≠ 0) (d : Devices) :
    currTerminalRunningProcess (dropBase (halted k d)) = true ↔
      ¬ (k.currentTerminal = k.current.termNum ∨ getActiveProcess k k.currentTerminal = none) := by
  have hrange := (hw.current_ok hr).term
  have hactive : getActiveProcess (dropBase (halted k d)) (halted k d).currentTerminal =
      if k.currentTerminal = k.current.termNum then none
      else getActiveProcess k k.currentTerminal := by
    rw [getActiveProcess_dropBase (by rw [halted_current]; exact hrange), halted_current,
      getActiveProcess_halted, halted_currentTerminal]
  show (getActiveProcess (dropBase (halted k d)) (halted k d).currentTerminal).isSome = true ↔ _
  rw [hactive, not_or]
  by_cases hc : k.currentTerminal = k.current.termNum
  · simp [hc]
  · simp [hc, Option.isSome_iff_ne_none]

theorem childrenOk_halted (hc : ChildrenOk k) (d : Devices) : ChildrenOk (halted k d) := by
  intro s hs
  rw [halted_starts] at hs
  exact hc s hs

theorem stacked_returnToParent (hk : Stacked k) (hr : k.running ≠ 0) {parent : ℕ}
    (hparent : k.current.parentPcb = some parent) (d : Devices) (status : UInt8) :
    Stacked (returnToParent parent status (halted k d)) := by
  obtain ⟨F, hF⟩ := hk.chains.1
  obtain ⟨hF', htop'⟩ := represents_returnToParent hk.wf hF hr hk.onTop hparent d status
  have hr' : (halted k d).running ≠ 0 := by rwa [halted_running]
  have hparent' : (halted k d).current.parentPcb = some parent := by rwa [halted_current]
  exact ⟨wf_returnToParent (wf_halted hk.wf hr d) hr' hparent' status,
    ⟨⟨_, hF'⟩, childrenOk_halted hk.chains.2 d⟩, htop'⟩

theorem stacked_halt (hk : Stacked k) (hr : k.running ≠ 0) {status : UInt8}
    (hgood : k.current.parentPcb = none →
      k.currentTerminal = k.current.termNum ∨ getActiveProcess k k.currentTerminal = none)
    (h : halt E status k = some k') : Stacked k' := by
  refine (closed_stacked E).halt hk hr (fun parent d hparent => ?_) (fun d hbase hexec => ?_) h
  · exact stacked_returnToParent hk hr hparent d status
  · obtain ⟨F, hF⟩ := hk.chains.1
    have hw0 := wf_halted hk.wf hr d
    have hr0 : (halted k d).running ≠ 0 := by rwa [halted_running]
    have hF' := represents_dropBase hk.wf hF hr hk.onTop hbase d
    -- the new shell is a base shell, so it does not matter that its caller is gone
    have hnone : currTerminalRunningProcess (dropBase (halted k d)) ≠ true := by
      rw [Ne, currTerminalRunningProcess_dropBase hk.wf hr]
      exact not_not.2 (hgood hbase)
    have hrange := (wf_dropBase hw0 hr0).newTerm_range (hw0.current_nonneg hr0)
    obtain ⟨hfresh, hF'', htop''⟩ :=
      represents_execute hF' (fun hc => absurd hc hnone) hrange hexec
    have hchildren' : ChildrenOk (dropBase (halted k d)) := childrenOk_halted hk.chains.2 d
    have hchildren'' := childrenOk_execute hchildren' (Or.inl (by decide)) hexec
    exact ⟨wf_halt hk.wf hr h, ⟨⟨_, hF''⟩, hchildren''⟩, htop''⟩

theorem stacked_step {e : Event} (hk : Stacked k) (hg : ChainStep E k e)
    (h : step E k e = some k') : Stacked k' := by
  refine step_rule (ChainStep E) (fun k k' hsame hk => hsame.stacked hk) ?_ ?_ ?_ ?_ k e k' hk hg h
  · exact fun k t k' hk _ hkey => (closed_stacked E).startTerminal hk hkey
  · exact fun k k' hk _ htick => (closed_stacked E).pitHandlerMain hk htick
  · intro k command k' hk hg hr hexec
    have hcan : CanExecute E command k.advanceClock := execute_isSome_iff.1 (by rw [hexec]; rfl)
    exact stacked_execute hk (hk.wf.current_nonneg hr) (Or.inr (hg hcan)) hexec
  · exact fun k status k' hk hg hr hhalt => stacked_halt hk hr hg hhalt

/-! ### The two steps do break them -/

/-- On a stack, the parent of a process is allocated and is another process. -/
theorem ChainsOk.parent (hc : ChainsOk k) {p q : ℕ} (hp : Allocated k p)
    (hq : parentOf k p = some q) : Allocated k q ∧ q ≠ p := by
  obtain ⟨F, hF⟩ := hc.1
  obtain ⟨t, ht⟩ := (hF.allocated p).1 hp
  constructor
  · exact (hF.allocated q).2 ⟨t, (hF.chain t).next_mem ht hq⟩
  · rintro rfl
    exact (hF.chain t).next_ne_self (F.nodup t) ht hq

/-- A process that calls `execute` while the displayed terminal has no process gets no child. -/
theorem not_childrenOk_execute (hcurr : currTerminalRunningProcess k ≠ true)
    (h : execute E .syscall command k = some k') : ¬ ChildrenOk k' := by
  obtain ⟨pid, dentry, args, -, -, -, -, rfl⟩ := execute_spec h
  intro hc
  obtain ⟨hparent, -⟩ := hc _ List.mem_cons_self rfl
  have hnone : newParent (takeSlot k pid) = none := if_neg hcurr
  simp only [hnone] at hparent
  exact absurd hparent (by simp)

/-- A base shell that halts while another terminal with a process is displayed is replaced by a
shell whose parent is the halted one. -/
theorem not_chainsOk_halt (hw : Wf k) (hr : k.running ≠ 0) {status : UInt8}
    (hbase : k.current.parentPcb = none)
    (hbad : ¬ (k.currentTerminal = k.current.termNum ∨
      getActiveProcess k k.currentTerminal = none))
    (h : halt E status k = some k') : ¬ ChainsOk k' := by
  obtain ⟨d, hfinish⟩ := halt_spec h
  rcases haltFinish_spec hfinish with ⟨parent, hparent, -⟩ | ⟨-, hexec⟩
  · rw [halted_current, hbase] at hparent
    exact absurd hparent (by simp)
  · have hcurr := (currTerminalRunningProcess_dropBase hw hr d).2 hbad
    obtain ⟨pid, dentry, args, -, h1, h6, -, rfl⟩ := execute_spec hexec
    intro hc
    have hallocated : ∀ q, Allocated (takeSlot (dropBase (halted k d)) pid) q ↔
        q = pid ∨ Allocated k q ∧ q ≠ k.running := by
      intro q
      rw [allocated_takeSlot h1 h6]
      exact or_congr Iff.rfl (allocated_halted hw hr d)
    have hparent : parentOf (startProcess E .halt pid dentry args
        (takeSlot (dropBase (halted k d)) pid)) pid = some k.running := by
      rw [parentOf, startProcess_pcb_self]
      show newParent _ = _
      rw [newParent_takeSlot, newParent, if_pos hcurr]
      exact congrArg some (halted_running k d)
    -- the parent is either the new process itself or has just been freed
    obtain ⟨hlive, hne⟩ := hc.parent ((hallocated pid).2 (Or.inl rfl)) hparent
    rcases (hallocated k.running).1 hlive with heq | ⟨-, hself⟩
    · exact hne heq
    · exact hself rfl

theorem chainStep_of_chainsOk {e : Event} (hk : Stacked k) (h : step E k e = some k')
    (hc : ChainsOk k') : ChainStep E k e := by
  cases e with
  | execute command =>
    intro hcan
    by_contra hcurr
    obtain ⟨k2, hk2, rfl⟩ := step_executed hcan h
    exact not_childrenOk_execute (k := k.advanceClock) hcurr hk2 hc.2
  | halt status =>
    intro hbase
    by_contra hbad
    obtain ⟨k1, hk1, rfl⟩ := Option.map_eq_some_iff.1 h
    cases effect_of_dispatch hk1 with
    | halt _ hr hend =>
      have hw := ((SameProcesses.advanceClock k).stacked hk).wf
      obtain ⟨F, hF⟩ := hc.1
      have hF' : Represents k1 F := hF.congr rfl (fun _ => rfl) (fun _ => rfl) (fun _ => rfl)
      exact not_chainsOk_halt hw hr hbase hbad hend ⟨⟨F, hF'⟩, hc.2⟩
  | _ => trivial

end Steps

/-- **The process-chain invariant holds along a run exactly if each of its steps meets the
condition** `ChainStep`. -/
theorem chains_iff (E : Env) (es : List Event) :
    (∀ fs k, fs <+: es → run (step E) (boot E) fs = some k → ChainsOk k) ↔
      Guarded (step E) (ChainStep E) (boot E) es := by
  apply guarded_iff_forall_prefix (I := Stacked) (fun k hk => hk.chains)
  · exact fun k e k' hk hgood h => stacked_step hk hgood h
  · exact fun k e k' hk h hc => chainStep_of_chainsOk hk h hc
  · exact stacked_boot E

/-- The base shell of the first terminal halts while the second terminal is displayed. -/
def haltBehind : List Event := [.key 0, .key 1, .tick, .tick, .halt 0]

/-- The new shell is its own parent. -/
theorem haltBehind_breaks_chains :
    ∃ k, run (step small) (boot small) haltBehind = some k ∧ parentOf k 1 = some 1 ∧
      ¬ ChainsOk k := by
  have hrun : (run (step small) (boot small) haltBehind).isSome = true := by decide +kernel
  have hparent : parentOf (smallState haltBehind) 1 = some 1 := by decide +kernel
  have hlive : Allocated (smallState haltBehind) 1 := by decide +kernel
  refine ⟨smallState haltBehind, run_smallState hrun, hparent, fun hc => ?_⟩
  exact (hc.parent hlive hparent).2 rfl

end LinuxIsLove
