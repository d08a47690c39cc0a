import LinuxIsLove.Chains

/-!
# Saved contexts

A process stops running in one of the routines that own a frame on its kernel stack.  Only the timer
handler saves a context; a process that is left in `execute` is taken up again when its child halts,
with the pointers that the child's control block holds.  `Suspended` says which of the two places
holds the point that a process has stopped at: the saved context for the active process of a
terminal, the block of the child for every process below it.

The scheduler takes up a stale context when a process was left in `execute` without getting a child:
by its own call while the displayed terminal had no process, or by the keyboard handler starting a
base shell directly.  `contexts_fresh` is about all runs without such steps.
-/

namespace LinuxIsLove

open Bytes EventMachine

/-- A process is taken up where it stopped, under its own directory and kernel stack. -/
structure Resume.Fresh (r : Resume) : Prop where
  esp : r.esp = r.stopped
  ebp : r.ebp = r.stopped
  cr3 : r.cr3 = r.pid
  esp0 : r.tssEsp0 = stackTop r.pid

/-- The steps after which every process can be taken up where it stopped: those that keep the
chains, and a shortcut that starts a shell at once only while no process runs. -/
def ContextStep (E : Env) (k : Kernel) : Event → Prop
  | .key t => startTerminalAccepts k t = true → getActiveProcess k t = none →
      getActiveProcess k k.currentTerminal = none → k.running = 0
  | e => ChainStep E k e

instance (E : Env) (k : Kernel) : (e : Event) → Decidable (ContextStep E k e)
  | .key t =>
    (inferInstance : Decidable (startTerminalAccepts k t = true →
      getActiveProcess k t = none → getActiveProcess k k.currentTerminal = none →
      k.running = 0))
  | .execute command => (inferInstance : Decidable (ChainStep E k (.execute command)))
  | .halt status => (inferInstance : Decidable (ChainStep E k (.halt status)))
  | .tick | .openFile _ | .closeFile _ | .arm _ _ | .read _ _ _ | .write _ _ _ | .getargs _ _
  | .vidmap _ | .compute _ | .type _ | .rtcInterrupt => instDecidableTrue

/-- The saved context of a process. -/
def SavedAt (k : Kernel) (p : ℕ) (frame : Token) : Prop :=
  (k.pcb p).context.esp = frame ∧ (k.pcb p).context.ebp = frame

/-- The process `p` waits for its child `c`, in the frame that the block of `c` holds. -/
structure WaitsFor (k : Kernel) (p c : ℕ) : Prop where
  esp : (k.pcb c).espParent = k.stopped p
  ebp : (k.pcb c).ebpParent = k.stopped p
  site : (k.pcb c).espParent.site = .syscall ∨
    ((k.pcb c).espParent.site = .pit ∧ SavedAt k p (k.pcb c).espParent)

/-- Where the points at which processes stopped are kept. -/
structure Suspended (k : Kernel) : Prop where
  active : ∀ t p, getActiveProcess k t = some p → p ≠ k.running → SavedAt k p (k.stopped p)
  parent : ∀ c p, Allocated k c → parentOf k c = some p → WaitsFor k p c
  resumes : ∀ r ∈ k.resumes, r.Fresh

section Steps

variable {E : Env} {k k' : Kernel} {F : StackFamily ℤ ℕ} {site : Site} {command : CString}

theorem SameProcesses.savedAt (h : SameProcesses k k') {p : ℕ} {frame : Token}
    (hs : SavedAt k p frame) : SavedAt k' p frame := by
  rw [SavedAt, h.context]
  exact hs

/-- Neither changes while the control blocks and the points where processes stopped stay. -/
theorem WaitsFor.of_eq {p c : ℕ} (hpcb : k'.pcb = k.pcb) (hstopped : k'.stopped = k.stopped)
    (h : WaitsFor k p c) : WaitsFor k' p c := by
  obtain ⟨hesp, hebp, hsite⟩ := h
  simp only [SavedAt, ← hpcb] at hesp hebp hsite
  rw [← hstopped] at hesp hebp
  exact ⟨hesp, hebp, hsite⟩

theorem SameProcesses.suspended (h : SameProcesses k k') (hs : Suspended k) : Suspended k' := by
  constructor
  · intro t p hp hne
    rw [h.getActiveProcess] at hp
    rw [h.running] at hne
    rw [h.stopped]
    exact h.savedAt (hs.active t p hp hne)
  · intro c p hc hp
    rw [h.allocated] at hc
    rw [parentOf, h.parentPcb] at hp
    obtain ⟨hesp, hebp, hsite⟩ := hs.parent c p hc hp
    refine ⟨by rw [h.espParent, h.stopped, hesp], by rw [h.ebpParent, h.stopped, hebp], ?_⟩
    rw [h.espParent]
    exact hsite.imp_right fun hpit => ⟨hpit.1, h.savedAt hpit.2⟩
  · rw [h.resumes]
    exact hs.resumes

theorem suspended_boot (E : Env) : Suspended (boot E) := by
  refine ⟨fun t p hp => ?_, fun c p hc => ?_, fun r hr => ?_⟩
  · simp [getActiveProcess, boot] at hp
  · simp [Allocated, boot] at hc
  · simp [boot] at hr

section Started

variable {pid q : ℕ} {dentry : Dentry} {args : CString} {frame : Token}

/-- A new process leaves the saved context of the others. -/
theorem SavedAt.startProcess (hq : q ≠ pid) (h : SavedAt k q frame) :
    SavedAt (startProcess E site pid dentry args (takeSlot k pid)) q frame := by
  rw [SavedAt, startProcess_pcb_of_ne hq]
  exact h

/-- An `execute` stops the running process, and no other. -/
theorem stopped_startProcess (q : ℕ) :
    (startProcess E site pid dentry args (takeSlot k pid)).stopped q =
      if q = k.running then ⟨site, k.clock⟩ else k.stopped q :=
  Function.update_apply k.stopped k.running _ q

/-- The caller waits for its new child in the frame of the call. -/
theorem waitsFor_started (hne : k.running ≠ pid)
    (hcall : site = .syscall ∨ (site = .pit ∧ SavedAt k k.running ⟨site, k.clock⟩)) :
    WaitsFor (startProcess E site pid dentry args (takeSlot k pid)) k.running pid := by
  refine ⟨?_, ?_, ?_⟩
  · rw [startProcess_pcb_self, stopped_startProcess, if_pos rfl]
    rfl
  · rw [startProcess_pcb_self, stopped_startProcess, if_pos rfl]
    rfl
  · rw [startProcess_pcb_self]
    exact hcall.imp_right fun hpit => ⟨hpit.1, hpit.2.startProcess hne⟩

/-- The other processes wait for their children as before. -/
theorem WaitsFor.startProcess {p c : ℕ} (hp : p ≠ pid) (hc : c ≠ pid) (hrun : p ≠ k.running)
    (h : WaitsFor k p c) :
    WaitsFor (startProcess E site pid dentry args (takeSlot k pid)) p c := by
  obtain ⟨hesp, hebp, hsite⟩ := h
  refine ⟨?_, ?_, ?_⟩
  · rw [startProcess_pcb_of_ne hc, stopped_startProcess, if_neg hrun]
    exact hesp
  · rw [startProcess_pcb_of_ne hc, stopped_startProcess, if_neg hrun]
    exact hebp
  · rw [startProcess_pcb_of_ne hc]
    exact hsite.imp_right fun hpit => ⟨hpit.1, hpit.2.startProcess hp⟩

end Started

section NewProcess

variable {pid : ℕ} {dentry : Dentry} {args : CString}

/-- The active processes other than a new one were saved where they stopped. -/
theorem savedAt_started (hF : Represents k F) (hs : Suspended k) (hfree : ¬ Allocated k pid)
    (ht : 0 ≤ newTerm k ∧ newTerm k < maxTerminals)
    (hleave : currTerminalRunningProcess k ≠ true →
      (∀ t, getActiveProcess k t ≠ some k.running) ∨ SavedAt k k.running ⟨site, k.clock⟩)
    {t : ℤ} {p : ℕ}
    (hp : getActiveProcess (startProcess E site pid dentry args (takeSlot k pid)) t = some p)
    (hne : p ≠ pid) :
    SavedAt (startProcess E site pid dentry args (takeSlot k pid)) p
      ((startProcess E site pid dentry args (takeSlot k pid)).stopped p) := by
  rw [getActiveProcess_startProcess (k := takeSlot k pid) ht] at hp
  split_ifs at hp with hterm
  · exact absurd (Option.some.inj hp).symm hne
  · have hlive : Allocated k p := hF.allocated_of_active hp
    have hother : p ≠ pid := fun heq => hfree (heq ▸ hlive)
    apply SavedAt.startProcess hother
    rw [stopped_startProcess]
    by_cases hrun : p = k.running
    · -- the caller is still active, so it got no child
      subst hrun
      rw [if_pos rfl]
      by_cases hc : currTerminalRunningProcess k = true
      · have hown : newTerm k = k.current.termNum := if_pos hc
        have hown' : k.current.termNum = t := hF.term_of_active hp
        exact absurd (hown.trans hown').symm hterm
      · exact (hleave hc).resolve_left fun hno => hno t hp
    · rw [if_neg hrun]
      exact hs.active t p hp hrun

/-- A parent waits for the new process, or for its child as before. -/
theorem waitsFor_execute (hF : Represents k F) (hs : Suspended k) (h1 : 1 ≤ pid)
    (h6 : pid ≤ maxProcesses) (hfree : ¬ Allocated k pid)
    (htop : currTerminalRunningProcess k = true →
      getActiveProcess k k.current.termNum = some k.running)
    (hchild : ∀ c, Allocated k c → parentOf k c ≠ some k.running)
    (hcall : currTerminalRunningProcess k = true →
      site = .syscall ∨ (site = .pit ∧ SavedAt k k.running ⟨site, k.clock⟩))
    {c p : ℕ} (hc : Allocated (takeSlot k pid) c)
    (hp : parentOf (startProcess E site pid dentry args (takeSlot k pid)) c = some p) :
    WaitsFor (startProcess E site pid dentry args (takeSlot k pid)) p c := by
  -- the slot of the new process was free
  have hother : ∀ q, Allocated k q → q ≠ pid := by
    rintro q hq rfl
    exact hfree hq
  rcases (allocated_takeSlot h1 h6).1 hc with rfl | hc
  · -- the new process
    rw [parentOf, startProcess_pcb_self] at hp
    have hnew : newParent k = some p := hp
    unfold newParent at hnew
    split_ifs at hnew with hcurr
    obtain rfl := Option.some.inj hnew
    have hlive := hF.allocated_of_active (htop hcurr)
    exact waitsFor_started (hother _ hlive) (hcall hcurr)
  · rw [parentOf, startProcess_pcb_of_ne (hother c hc)] at hp
    have hne : p ≠ k.running := by
      rintro rfl
      exact hchild c hc hp
    obtain ⟨t, hmem⟩ := (hF.allocated c).1 hc
    have hlive : Allocated k p := (hF.allocated p).2 ⟨t, (hF.chain t).next_mem hmem hp⟩
    exact (hs.parent c p hc hp).startProcess (hother p hlive) (hother c hc) hne

end NewProcess

/-- An `execute` leaves its caller in the frame that the new block holds.  If the new process is a
child, the caller is taken up from there; if not, the caller must not be active, or its context must
have been saved in the same frame. -/
theorem suspended_execute (hF : Represents k F) (hs : Suspended k)
    (htop : currTerminalRunningProcess k = true →
      getActiveProcess k k.current.termNum = some k.running)
    (ht : 0 ≤ newTerm k ∧ newTerm k < maxTerminals)
    (hchild : ∀ c, Allocated k c → parentOf k c ≠ some k.running)
    (hcall : currTerminalRunningProcess k = true →
      site = .syscall ∨ (site = .pit ∧ SavedAt k k.running ⟨site, k.clock⟩))
    (hleave : currTerminalRunningProcess k ≠ true →
      (∀ t, getActiveProcess k t ≠ some k.running) ∨ SavedAt k k.running ⟨site, k.clock⟩)
    (h : execute E site command k = some k') : Suspended k' := by
  obtain ⟨pid, dentry, args, -, h1, h6, hfree, rfl⟩ := execute_spec h
  exact ⟨fun t p hp hne => savedAt_started hF hs hfree ht hleave hp hne,
    fun c p hc hp => waitsFor_execute hF hs h1 h6 hfree htop hchild hcall hc hp, hs.resumes⟩

/-- Saving the context of the running process touches no suspended one. -/
theorem suspended_saveContext (hk : Stacked k) (hs : Suspended k) (frame : Token) (b : Bool) :
    Suspended { saveContext frame k with nextExecute := b } ∧
      SavedAt { saveContext frame k with nextExecute := b } k.running frame := by
  have hother : ∀ q, q ≠ k.running → ∀ token, SavedAt k q token →
      SavedAt { saveContext frame k with nextExecute := b } q token := by
    intro q hq token hsav
    show ((saveContext frame k).pcb q).context.esp = token ∧
      ((saveContext frame k).pcb q).context.ebp = token
    rw [saveContext_pcb, if_neg hq]
    exact hsav
  refine ⟨⟨fun t p hp hne => hother p hne _ (hs.active t p hp hne), fun c p hc hp => ?_,
    hs.resumes⟩, ?_⟩
  · have hp' : parentOf k c = some p := by
      rw [← hp]
      show _ = ((saveContext frame k).pcb c).parentPcb
      rw [saveContext_pcb]
      rfl
    -- a parent does not run, so its context is not the one that is saved
    have hne : p ≠ k.running := by
      rintro rfl
      exact hk.no_child hc hp'
    obtain ⟨hesp, hebp, hsite⟩ := hs.parent c p hc hp'
    have hblock : ((saveContext frame k).pcb c).espParent = (k.pcb c).espParent ∧
        ((saveContext frame k).pcb c).ebpParent = (k.pcb c).ebpParent := by
      rw [saveContext_pcb]
      exact ⟨rfl, rfl⟩
    refine ⟨hblock.1.trans hesp, hblock.2.trans hebp, ?_⟩
    show ((saveContext frame k).pcb c).espParent.site = .syscall ∨
      (((saveContext frame k).pcb c).espParent.site = .pit ∧
        SavedAt _ p ((saveContext frame k).pcb c).espParent)
    rw [hblock.1]
    exact hsite.imp_right fun hpit => ⟨hpit.1, hother p hne _ hpit.2⟩
  · show ((saveContext frame k).pcb k.running).context.esp = frame ∧
      ((saveContext frame k).pcb k.running).context.ebp = frame
    rw [saveContext_pcb, if_pos rfl]
    exact ⟨rfl, rfl⟩

/-- The scheduler leaves the running process in the frame in which its context was saved, and takes
the next one up from its saved context. -/
theorem suspended_schedule (hk : Stacked k) (hs : Suspended k) {frame : Token}
    (hsaved : SavedAt k k.running frame) (h : schedule frame k = some k') : Suspended k' := by
  obtain ⟨next, hnext, ⟨-, rfl⟩ | ⟨hne, rfl⟩⟩ := schedule_spec h
  · exact hs
  · obtain ⟨t, ht⟩ := nextPid_active hnext
    have hused := hk.wf.active_used t next ht
    have hok := hk.wf.pcb_ok next hused
    have hrun : next ≠ k.running := by
      rintro rfl
      exact hne hok.pid
    have hstopped : ∀ q, (switchTo frame next k).stopped q =
        if q = k.running then frame else k.stopped q := fun q =>
      Function.update_apply k.stopped k.running _ q
    constructor
    · intro u p hp _
      rw [hstopped]
      by_cases hpr : p = k.running
      · -- the process switched from is stopped in the frame its context was saved in
        subst hpr
        rw [if_pos rfl]
        exact hsaved
      · rw [if_neg hpr]
        exact hs.active u p hp hpr
    · intro c p hc hp
      have hpr : p ≠ k.running := by
        rintro rfl
        exact hk.no_child hc hp
      obtain ⟨hesp, hebp, hsite⟩ := hs.parent c p hc hp
      refine ⟨?_, ?_, hsite⟩
      · rw [hstopped, if_neg hpr]
        exact hesp
      · rw [hstopped, if_neg hpr]
        exact hebp
    · intro r hr
      rcases List.mem_cons.1 hr with rfl | hr
      · -- the resumption that the switch makes
        obtain ⟨hesp, hebp⟩ := hs.active t next ht hrun
        exact ⟨hesp, hebp, hok.pd, hok.esp0⟩
      · exact hs.resumes r hr

theorem suspended_pitHandlerMain (hk : Stacked k) (hs : Suspended k)
    (h : pitHandlerMain E k = some k') : Suspended k' := by
  rcases pitHandlerMain_spec h with ⟨-, rfl⟩ | ⟨hproc, hcases⟩
  · exact hs
  · have hr : k.running ≠ 0 := fun hr => hproc (hk.wf.idle hr).2
    have hstacked := stacked_saveContext hk ⟨.pit, k.clock⟩
    have hsusp := suspended_saveContext hk hs ⟨.pit, k.clock⟩
    rcases hcases with ⟨-, hexec⟩ | ⟨-, -, hsched⟩ | ⟨-, hsched⟩
    · obtain ⟨F, hF⟩ := (hstacked false).chains.1
      obtain ⟨hs', hsaved⟩ := hsusp false
      apply suspended_execute hF hs' (hstacked false).caller_active
      · exact (hstacked false).wf.newTerm_range (hk.wf.current_nonneg hr)
      · exact fun c hc => (hstacked false).no_child hc
      · exact fun _ => Or.inr ⟨rfl, hsaved⟩
      · exact fun _ => Or.inr hsaved
      · exact hexec
    · exact suspended_schedule (hstacked false) (hsusp false).1 (hsusp false).2 hsched
    · apply suspended_schedule (hstacked k.nextExecute) (hsusp k.nextExecute).1
        (hsusp k.nextExecute).2
      exact hsched

theorem suspended_display (hs : Suspended k) (t : ℕ) (b : Bool) :
    Suspended { k with currentTerminal := t, nextExecute := b } :=
  ⟨hs.active, fun c p hc hp => WaitsFor.of_eq (k := k) rfl rfl (hs.parent c p hc hp), hs.resumes⟩

theorem suspended_startTerminal (hk : Stacked k) (hs : Suspended k) {t : ℕ}
    (hgood : startTerminalAccepts k t = true → getActiveProcess k t = none →
      getActiveProcess k k.currentTerminal = none → k.running = 0)
    (h : startTerminal E t k = some k') : Suspended k' := by
  rcases startTerminal_spec h with
    ⟨-, rfl⟩ | ⟨hacc, ht, -, ⟨-, rfl⟩ | ⟨-, -, rfl⟩ | ⟨hnext, hcurr, hexec⟩⟩
  · exact hs
  · exact suspended_display hs t k.nextExecute
  · exact suspended_display hs t true
  · -- a shell is started at once, and no process runs
    have hr := hgood hacc hnext hcurr
    have hk' := stacked_display hk ht k.nextExecute
    obtain ⟨F, hF⟩ := hk'.chains.1
    have hbase : currTerminalRunningProcess { k with currentTerminal := t } ≠ true := by
      show (getActiveProcess k t).isSome ≠ true
      rw [hnext]
      exact Bool.false_ne_true
    apply suspended_execute hF (suspended_display hs t k.nextExecute) hk'.caller_active
    · exact hk'.wf.newTerm_range (Int.natCast_nonneg t)
    · exact fun c hc => hk'.no_child hc
    · exact fun hc => absurd hc hbase
    · refine fun _ => Or.inl fun u hu => ?_
      exact hk.wf.used_ne_zero (hk.wf.active_used u _ hu) hr
    · exact hexec

/-- `halt` takes the parent up from the frame that the halting process holds. -/
theorem suspended_returnToParent (hk : Stacked k) (hs : Suspended k) (hr : k.running ≠ 0)
    {parent : ℕ} (hparent : k.current.parentPcb = some parent) (d : Devices) (status : UInt8) :
    Suspended (returnToParent parent status (halted k d)) := by
  obtain ⟨F, hF⟩ := hk.chains.1
  have hlive : Allocated k k.running := hF.allocated_of_active (hk.onTop hr)
  obtain ⟨hesp, hebp, hsite⟩ := hs.parent k.running parent hlive hparent
  have hused : Used k parent := (hk.wf.current_ok hr).parent parent hparent
  have hok := hk.wf.pcb_ok parent hused
  have hstopped : (returnToParent parent status (halted k d)).stopped = k.stopped :=
    halted_stopped k d
  have hpcb : (returnToParent parent status (halted k d)).pcb = k.pcb := halted_pcb k d
  have hrange : 0 ≤ ((halted k d).pcb parent).termNum ∧
      ((halted k d).pcb parent).termNum < maxTerminals := by
    rw [halted_pcb]
    exact hok.term
  constructor
  · intro t p hp hne
    rw [getActiveProcess_returnToParent hrange, halted_pcb, hok.pid, getActiveProcess_halted] at hp
    split_ifs at hp with hterm
    · exact absurd (Option.some.inj hp).symm hne
    · have hpr : p ≠ k.running := by
        rintro rfl
        -- the halting process was active on its own terminal only, and its parent is there now
        have hown := hF.term_of_active hp
        obtain ⟨u, hmem⟩ := (hF.allocated _).1 hlive
        have hu : (k.pcb k.running).termNum = u := hF.term u _ hmem
        have hpu := hF.term u _ ((hF.chain u).next_mem hmem hparent)
        exact hterm (by rw [← hown, hu, hpu])
      rw [SavedAt, hstopped, hpcb]
      exact hs.active t p hp hpr
  · intro c p hc hp
    have hc' : Allocated k c := ((allocated_halted hk.wf hr d).1 hc).1
    rw [parentOf, hpcb] at hp
    exact (hs.parent c p hc' hp).of_eq hpcb hstopped
  · intro r hmem
    rcases List.mem_cons.1 hmem with rfl | hmem
    · refine ⟨?_, ?_, ?_, ?_⟩
      · rw [halted_current, halted_stopped]
        exact hesp
      · rw [halted_current, halted_stopped]
        exact hebp
      · rw [halted_pcb]
        exact hok.pd
      · rw [halted_pcb]
        exact hok.esp0
    · rw [halted_resumes] at hmem
      exact hs.resumes r hmem

/-- A terminal loses its base shell. -/
theorem suspended_dropBase (hk : Stacked k) (hs : Suspended k) (hr : k.running ≠ 0)
    (d : Devices) : Suspended (dropBase (halted k d)) := by
  have hpcb : (dropBase (halted k d)).pcb = k.pcb := halted_pcb k d
  have hstopped : (dropBase (halted k d)).stopped = k.stopped := halted_stopped k d
  have hrunning : (dropBase (halted k d)).running = k.running := halted_running k d
  have hrange := (hk.wf.current_ok hr).term
  constructor
  · intro t p hp hne
    rw [getActiveProcess_dropBase (by rw [halted_current]; exact hrange),
      getActiveProcess_halted] at hp
    split_ifs at hp
    rw [hrunning] at hne
    rw [SavedAt, hstopped, hpcb]
    exact hs.active t p hp hne
  · intro c p hc hp
    have hc' : Allocated k c := ((allocated_halted hk.wf hr d).1 hc).1
    rw [parentOf, hpcb] at hp
    exact (hs.parent c p hc' hp).of_eq hpcb hstopped
  · intro r hmem
    have hmem' : r ∈ (halted k d).resumes := hmem
    rw [halted_resumes] at hmem'
    exact hs.resumes r hmem'

theorem suspended_halt (hk : Stacked k) (hs : Suspended k) (hr : k.running ≠ 0) {status : UInt8}
    (hgood : k.current.parentPcb = none →
      k.currentTerminal = k.current.termNum ∨ getActiveProcess k k.currentTerminal = none)
    (h : halt E status k = some k') : Suspended k' := by
  obtain ⟨F, hF⟩ := hk.chains.1
  obtain ⟨d, hfinish⟩ := halt_spec h
  rcases haltFinish_spec hfinish with ⟨parent, hparent, hcont⟩ | ⟨hbase, hexec⟩
  · rw [halted_current] at hparent hcont
    have hret := suspended_returnToParent hk hs hr hparent d status
    have hlive : Allocated k k.running := hF.allocated_of_active (hk.onTop hr)
    obtain ⟨-, -, hsite⟩ := hs.parent k.running parent hlive hparent
    rcases hsite with hcall | ⟨hpit, hsaved⟩
    · -- the parent goes on from its system call
      have hcall' : k.current.espParent.site = .syscall := hcall
      simp only [continueFrame, hcall'] at hcont
      rwa [← Option.some.inj hcont]
    · -- the parent goes on in the timer handler
      have hpit' : k.current.espParent.site = .pit := hpit
      simp only [continueFrame, hpit'] at hcont
      apply suspended_schedule (stacked_returnToParent hk hr hparent d status) hret _ hcont
      show ((halted k d).pcb parent).context.esp = _ ∧ ((halted k d).pcb parent).context.ebp = _
      rw [halted_pcb]
      exact hsaved
  · -- a base shell is replaced: the stack of the halting one is never taken up again
    rw [halted_current] at hbase
    have hr0 : (halted k d).running ≠ 0 := by rwa [halted_running]
    have hw' := wf_dropBase (wf_halted hk.wf hr d) hr0
    have hF' := represents_dropBase hk.wf hF hr hk.onTop hbase d
    have hdead : ¬ Allocated (dropBase (halted k d)) k.running := fun hl =>
      ((allocated_halted hk.wf hr d).1 hl).2 rfl
    have hrunning : (dropBase (halted k d)).running = k.running := halted_running k d
    have hbase' : currTerminalRunningProcess (dropBase (halted k d)) ≠ true := by
      rw [Ne, currTerminalRunningProcess_dropBase hk.wf hr]
      exact not_not.2 (hgood hbase)
    apply suspended_execute hF' (suspended_dropBase hk hs hr d)
    · exact fun hc => absurd hc hbase'
    · exact hw'.newTerm_range ((wf_halted hk.wf hr d).current_nonneg hr0)
    · intro c hc hparent
      rw [hrunning] at hparent
      obtain ⟨t, hmem⟩ := (hF'.allocated c).1 hc
      exact hdead ((hF'.allocated _).2 ⟨t, (hF'.chain t).next_mem hmem hparent⟩)
    · exact fun hc => absurd hc hbase'
    · refine fun _ => Or.inl fun t hactive => ?_
      rw [hrunning] at hactive
      exact hdead (hF'.allocated_of_active hactive)
    · exact hexec

theorem suspended_step {e : Event} (hk : Stacked k) (hs : Suspended k)
    (hg : ContextStep E k e) (h : step E k e = some k') : Stacked k' ∧ Suspended k' := by
  have hchain : ChainStep E k e := by
    cases e with
    | key => trivial
    | _ => exact hg
  refine ⟨stacked_step hk hchain h, ?_⟩
  have hpair := step_rule (I := fun k => Stacked k ∧ Suspended k) (ContextStep E)
    (fun k k' hsame hk => ⟨hsame.stacked hk.1, hsame.suspended hk.2⟩) ?_ ?_ ?_ ?_ k e k' ⟨hk, hs⟩
    hg h
  · exact hpair.2
  · exact fun k t k' hk hg hkey =>
      ⟨(closed_stacked E).startTerminal hk.1 hkey, suspended_startTerminal hk.1 hk.2 hg hkey⟩
  · exact fun k k' hk _ htick =>
      ⟨(closed_stacked E).pitHandlerMain hk.1 htick, suspended_pitHandlerMain hk.1 hk.2 htick⟩
  · intro k command k' hk hg hr hexec
    have hcan : CanExecute E command k.advanceClock := execute_isSome_iff.1 (by rw [hexec]; rfl)
    have hcurr : currTerminalRunningProcess k.advanceClock = true := hg hcan
    have hcur := hk.1.wf.current_nonneg hr
    obtain ⟨F, hF⟩ := hk.1.chains.1
    refine ⟨stacked_execute hk.1 hcur (Or.inr hcurr) hexec, ?_⟩
    exact suspended_execute hF hk.2 hk.1.caller_active (hk.1.wf.newTerm_range hcur)
      (fun c hc => hk.1.no_child hc) (fun _ => Or.inl rfl) (fun hc => absurd hcurr hc) hexec
  · exact fun k status k' hk hg hr hhalt =>
      ⟨stacked_halt hk.1 hr hg hhalt, suspended_halt hk.1 hk.2 hr hg hhalt⟩

/-- **Every process is taken up where it stopped**, along with its directory and its kernel stack,
in every run whose steps meet the condition `ContextStep`. -/
theorem contexts_fresh {es : List Event} (hg : Guarded (step E) (ContextStep E) (boot E) es)
    (hrun : run (step E) (boot E) es = some k) : ∀ r ∈ k.resumes, r.Fresh := by
  have hinv := invariant_of_guarded (I := fun k => Stacked k ∧ Suspended k)
    (fun k e k' hk hgood h => suspended_step hk.1 hk.2 hgood h)
    ⟨stacked_boot E, suspended_boot E⟩ hg hrun
  exact hinv.2.resumes

/-- Two shells on two terminals; the first executes another shell, and both are switched away from
and back before the child halts. -/
def twoTerminals : List Event :=
  [.key 0, .key 1, .tick, .tick, .execute shell, .tick, .tick, .halt 0]

theorem contexts_fresh_twoTerminals :
    (smallState twoTerminals).resumes.map Resume.pid = [1, 3, 2, 1] ∧
      ∀ r ∈ (smallState twoTerminals).resumes, r.Fresh := by
  have hrun : (run (step small) (boot small) twoTerminals).isSome = true := by decide +kernel
  have hg : Guarded (step small) (ContextStep small) (boot small) twoTerminals := by
    decide +kernel
  exact ⟨by decide +kernel, contexts_fresh hg (run_smallState hrun)⟩

/-- The first shell calls `execute` while a terminal without a process is displayed. -/
def executeBehind : List Event := [.key 0, .tick, .key 1, .execute shell, .tick, .tick]

/-- The first shell is taken up from the context saved at the first tick, not from its call. -/
theorem executeBehind_resumes_stale :
    ∃ k, run (step small) (boot small) executeBehind = some k ∧ ∃ r ∈ k.resumes, r.pid = 1 ∧
      r.esp = ⟨.pit, 2⟩ ∧ r.stopped = ⟨.syscall, 4⟩ ∧ ¬ r.Fresh := by
  have hrun : (run (step small) (boot small) executeBehind).isSome = true := by decide +kernel
  have hlog : (smallState executeBehind).resumes.map (fun r => (r.pid, r.esp, r.stopped)) =
      [(1, ⟨.pit, 2⟩, ⟨.syscall, 4⟩)] := by decide +kernel
  obtain ⟨r, hr, heq⟩ := List.mem_map.1 (by rw [hlog]; exact List.mem_cons_self :
    ((1, ⟨.pit, 2⟩, ⟨.syscall, 4⟩) : ℕ × Token × Token) ∈
      (smallState executeBehind).resumes.map (fun r => (r.pid, r.esp, r.stopped)))
  simp only [Prod.mk.injEq] at heq
  obtain ⟨hpid, hesp, hstopped⟩ := heq
  refine ⟨_, run_smallState hrun, r, hr, hpid, hesp, hstopped, fun hfresh => ?_⟩
  have hbad := hfresh.esp
  rw [hesp, hstopped] at hbad
  exact absurd hbad (by decide)

end Steps

end LinuxIsLove
