import LinuxIsLove.Effects

/-!
# What holds in every reachable state

`Wf` collects what every run keeps, whatever the order of events: a control block that was ever set
up belongs to its own pid, directory and kernel stack, sits on one of the three terminals, and has
another such block, or none, for a parent; active and running processes have such blocks.

It says nothing about which processes are allocated along a chain of parents: that is not kept by
every run.

`SameProcesses` relates two states that differ only in what the process table and the scheduler do
not look at.  `step_rule` is the induction rule that the invariants of this development use: all
events but shortcuts, ticks, `execute` and `halt` are dealt with by one premise.
-/

namespace LinuxIsLove

open Bytes EventMachine

/-- A pid that has been given to a process at least once. -/
def Used (k : Kernel) (p : ℕ) : Prop := ∃ s ∈ k.starts, s.pid = p

/-- What `execute` writes to a control block and no other routine changes. -/
structure PcbOk (k : Kernel) (p : ℕ) : Prop where
  pid : (k.pcb p).pid = p
  pd : (k.pcb p).pd = p
  esp0 : (k.pcb p).context.esp0 = stackTop p
  term : 0 ≤ (k.pcb p).termNum ∧ (k.pcb p).termNum < maxTerminals
  parent : ∀ q, (k.pcb p).parentPcb = some q → Used k q

structure Wf (k : Kernel) : Prop where
  used_range : ∀ p, Used k p → 1 ≤ p ∧ p ≤ maxProcesses
  allocated_used : ∀ p, Allocated k p → Used k p
  active_used : ∀ t p, getActiveProcess k t = some p → Used k p
  pcb_ok : ∀ p, Used k p → PcbOk k p
  running_used : k.running ≠ 0 → Used k k.running
  idle : k.running = 0 → k.starts = [] ∧ k.procCount = 0
  current_lt : k.currentTerminal < maxTerminals
  current_nonneg : k.running ≠ 0 → 0 ≤ k.currentTerminal

namespace Wf

variable {k : Kernel} {p : ℕ} {t : ℤ}

theorem not_used_of_idle (h : Wf k) (hr : k.running = 0) : ¬ Used k p := by
  rintro ⟨s, hs, -⟩
  rw [(h.idle hr).1] at hs
  exact absurd hs (by simp)

theorem running_ne_zero (h : Wf k) (hp : Used k p) : k.running ≠ 0 := fun hr =>
  h.not_used_of_idle hr hp

theorem used_ne_zero (h : Wf k) (hp : Used k p) : p ≠ 0 := by
  have := (h.used_range p hp).1
  omega

theorem current_ok (h : Wf k) (hr : k.running ≠ 0) : PcbOk k k.running :=
  h.pcb_ok _ (h.running_used hr)

end Wf

/-! ### States that agree on processes -/

/-- The directory of a process holds what `execute`, and possibly `vidmap`, put there. -/
def PagedAt (L : Layout) (k : Kernel) (p t : ℕ) : Prop :=
  ∀ i < tableSize, k.pd p i = processPd L p t (k.vidmapped p) i

/-- A descriptor that is not live has position 0: `open` relies on it. -/
def FilesOk (files : ℕ → Fd) : Prop := ∀ i < fileArrayLen, (files i).flags = 0 → (files i).pos = 0

/-- Nothing differs that the process table or the scheduler looks at, but descriptor tables.  Of
the directories only the running process's own may differ, by a `vidmap`. -/
structure SameProcesses (k k' : Kernel) : Prop where
  procs : k'.procs = k.procs
  procCount : k'.procCount = k.procCount
  activeProcesses : k'.activeProcesses = k.activeProcesses
  currentTerminal : k'.currentTerminal = k.currentTerminal
  nextExecute : k'.nextExecute = k.nextExecute
  cr3 : k'.cr3 = k.cr3
  tssEsp0 : k'.tssEsp0 = k.tssEsp0
  running : k'.running = k.running
  stopped : k'.stopped = k.stopped
  resumes : k'.resumes = k.resumes
  starts : k'.starts = k.starts
  clock : k.clock ≤ k'.clock
  pcb : ∀ p, k'.pcb p = { k.pcb p with files := (k'.pcb p).files }
  otherFiles : ∀ p, p ≠ k.running → (k'.pcb p).files = (k.pcb p).files
  paged : k.current.pd = k.running → ∀ L p t, PagedAt L k p t → PagedAt L k' p t
  filesOk : FilesOk k.current.files → FilesOk k'.current.files

namespace SameProcesses

variable {k k' k'' : Kernel}

theorem refl (k : Kernel) : SameProcesses k k :=
  ⟨rfl, rfl, rfl, rfl, rfl, rfl, rfl, rfl, rfl, rfl, rfl, le_rfl, fun _ => rfl, fun _ _ => rfl,
    fun _ _ _ _ h => h, fun h => h⟩

theorem trans (h : SameProcesses k k') (h' : SameProcesses k' k'') : SameProcesses k k'' where
  procs := h'.procs.trans h.procs
  procCount := h'.procCount.trans h.procCount
  activeProcesses := h'.activeProcesses.trans h.activeProcesses
  currentTerminal := h'.currentTerminal.trans h.currentTerminal
  nextExecute := h'.nextExecute.trans h.nextExecute
  cr3 := h'.cr3.trans h.cr3
  tssEsp0 := h'.tssEsp0.trans h.tssEsp0
  running := h'.running.trans h.running
  stopped := h'.stopped.trans h.stopped
  resumes := h'.resumes.trans h.resumes
  starts := h'.starts.trans h.starts
  clock := h.clock.trans h'.clock
  pcb p := by rw [h'.pcb p, h.pcb p]
  otherFiles p hp := by
    rw [h'.otherFiles p (by rw [h.running]; exact hp), h.otherFiles p hp]
  paged hpd L p t hp := by
    refine h'.paged ?_ L p t (h.paged hpd L p t hp)
    rw [Kernel.current, h.pcb, h.running]
    exact hpd
  filesOk hf := h'.filesOk (h.filesOk hf)

theorem advanceClock (k : Kernel) : SameProcesses k k.advanceClock :=
  ⟨rfl, rfl, rfl, rfl, rfl, rfl, rfl, rfl, rfl, rfl, rfl, Nat.le_succ _, fun _ => rfl,
    fun _ _ => rfl, fun _ _ _ _ h => h, fun h => h⟩

theorem setIflag (k : Kernel) (b : Bool) : SameProcesses k (k.setIflag b) :=
  ⟨rfl, rfl, rfl, rfl, rfl, rfl, rfl, rfl, rfl, rfl, rfl, le_rfl, fun _ => rfl, fun _ _ => rfl,
    fun _ _ _ _ h => h, fun h => h⟩

/-- Changing the devices and what hangs on them is invisible to the process table. -/
theorem devices (k : Kernel) (d : Devices) : SameProcesses k { k with devices := d } :=
  ⟨rfl, rfl, rfl, rfl, rfl, rfl, rfl, rfl, rfl, rfl, rfl, le_rfl, fun _ => rfl, fun _ _ => rfl,
    fun _ _ _ _ h => h, fun h => h⟩

theorem terminals (k : Kernel) (ts : ℕ → Terminal) (text : ScreenMemory) :
    SameProcesses k { k with terminals := ts, text := text } :=
  ⟨rfl, rfl, rfl, rfl, rfl, rfl, rfl, rfl, rfl, rfl, rfl, le_rfl, fun _ => rfl, fun _ _ => rfl,
    fun _ _ _ _ h => h, fun h => h⟩

theorem eax (k : Kernel) (r : ℤ) : SameProcesses k { k with eax := r } :=
  ⟨rfl, rfl, rfl, rfl, rfl, rfl, rfl, rfl, rfl, rfl, rfl, le_rfl, fun _ => rfl, fun _ _ => rfl,
    fun _ _ _ _ h => h, fun h => h⟩

theorem userMem (k : Kernel) (ms : ℕ → Memory) : SameProcesses k { k with userMem := ms } :=
  ⟨rfl, rfl, rfl, rfl, rfl, rfl, rfl, rfl, rfl, rfl, rfl, le_rfl, fun _ => rfl, fun _ _ => rfl,
    fun _ _ _ _ h => h, fun h => h⟩

theorem setMem (k : Kernel) (mem : Memory) : SameProcesses k (k.setMem mem) := userMem k _

theorem setFiles {files : ℕ → Fd} (k : Kernel) (hf : FilesOk k.current.files → FilesOk files) :
    SameProcesses k (k.setFiles files) where
  procs := rfl
  procCount := rfl
  activeProcesses := rfl
  currentTerminal := rfl
  nextExecute := rfl
  cr3 := rfl
  tssEsp0 := rfl
  running := rfl
  stopped := rfl
  resumes := rfl
  starts := rfl
  clock := le_rfl
  pcb p := by
    by_cases hp : p = k.running
    · subst hp
      rw [Kernel.setFiles_pcb_self]
      rfl
    · rw [Kernel.setFiles_pcb_of_ne hp]
  otherFiles p hp := by rw [Kernel.setFiles_pcb_of_ne hp]
  paged _ _ _ _ h := h
  filesOk hk := by
    have hfiles : (k.setFiles files).current.files = files := by
      show ((k.setFiles files).pcb k.running).files = files
      rw [Kernel.setFiles_pcb_self]
    rw [hfiles]
    exact hf hk

/-- `vidmap` makes the text page of the running process present. -/
theorem vidmap (k : Kernel) :
    SameProcesses k { k with
      pd := Function.update k.pd k.current.pd
        (setPdeFlags (k.pd k.current.pd) (BitVec.ofNat 32 progVidmemAddr) flagP)
      vidmapped := Function.update k.vidmapped k.running true } where
  procs := rfl
  procCount := rfl
  activeProcesses := rfl
  currentTerminal := rfl
  nextExecute := rfl
  cr3 := rfl
  tssEsp0 := rfl
  running := rfl
  stopped := rfl
  resumes := rfl
  starts := rfl
  clock := le_rfl
  pcb _ := rfl
  otherFiles _ _ := rfl
  paged hpd L p t hp := by
    intro i hi
    by_cases hrun : p = k.running
    · subst hrun
      simp only [hpd, Function.update_self]
      exact setPdeFlags_processPd hp hi
    · have hne : p ≠ k.current.pd := by rwa [hpd]
      simp only [Function.update_of_ne hrun, Function.update_of_ne hne]
      exact hp i hi
  filesOk hf := hf

theorem getActiveProcess (h : SameProcesses k k') (t : ℤ) :
    getActiveProcess k' t = LinuxIsLove.getActiveProcess k t := by
  simp only [LinuxIsLove.getActiveProcess, h.activeProcesses]

theorem allocated (h : SameProcesses k k') (p : ℕ) : Allocated k' p ↔ Allocated k p := by
  simp only [Allocated, h.procs]

theorem used (h : SameProcesses k k') (p : ℕ) : Used k' p ↔ Used k p := by
  simp only [Used, h.starts]

theorem parentPcb (h : SameProcesses k k') (p : ℕ) :
    (k'.pcb p).parentPcb = (k.pcb p).parentPcb := by rw [h.pcb p]

theorem termNum (h : SameProcesses k k') (p : ℕ) : (k'.pcb p).termNum = (k.pcb p).termNum := by
  rw [h.pcb p]

theorem context (h : SameProcesses k k') (p : ℕ) : (k'.pcb p).context = (k.pcb p).context := by
  rw [h.pcb p]

theorem espParent (h : SameProcesses k k') (p : ℕ) :
    (k'.pcb p).espParent = (k.pcb p).espParent := by rw [h.pcb p]

theorem ebpParent (h : SameProcesses k k') (p : ℕ) :
    (k'.pcb p).ebpParent = (k.pcb p).ebpParent := by rw [h.pcb p]

theorem pid (h : SameProcesses k k') (p : ℕ) : (k'.pcb p).pid = (k.pcb p).pid := by rw [h.pcb p]

theorem pd (h : SameProcesses k k') (p : ℕ) : (k'.pcb p).pd = (k.pcb p).pd := by rw [h.pcb p]

theorem wf (h : SameProcesses k k') (hk : Wf k) : Wf k' where
  used_range p hp := hk.used_range p ((h.used p).1 hp)
  allocated_used p hp := (h.used p).2 (hk.allocated_used p ((h.allocated p).1 hp))
  active_used t p hp := (h.used p).2 (hk.active_used t p (by rw [← h.getActiveProcess]; exact hp))
  pcb_ok p hp :=
    have hok := hk.pcb_ok p ((h.used p).1 hp)
    { pid := by rw [h.pid, hok.pid]
      pd := by rw [h.pd, hok.pd]
      esp0 := by rw [h.context, hok.esp0]
      term := by rw [h.termNum]; exact hok.term
      parent := fun q hq => (h.used q).2 (hok.parent q (by rw [← h.parentPcb]; exact hq)) }
  running_used hr := by
    rw [h.running] at hr ⊢
    exact (h.used _).2 (hk.running_used hr)
  idle hr := by
    rw [h.running] at hr
    rw [h.starts, h.procCount]
    exact hk.idle hr
  current_lt := by rw [h.currentTerminal]; exact hk.current_lt
  current_nonneg hr := by
    rw [h.running] at hr
    rw [h.currentTerminal]
    exact hk.current_nonneg hr

end SameProcesses

/-- Replacing one descriptor by one that is live, or has position 0. -/
theorem FilesOk.update {files : ℕ → Fd} (h : FilesOk files) (j : ℕ) {fd : Fd}
    (hfd : fd.flags = 0 → fd.pos = 0) : FilesOk (Function.update files j fd) := by
  intro i hi hflags
  by_cases hij : i = j
  · subst hij
    rw [Function.update_self] at hflags ⊢
    exact hfd hflags
  · rw [Function.update_of_ne hij] at hflags ⊢
    exact h i hi hflags

/-! ### The rule for invariants -/

/-- The events that neither the process table nor the scheduler takes notice of. -/
def Event.quiet : Event → Prop
  | .key _ | .tick | .execute _ | .halt _ => False
  | _ => True

section Quiet

variable {E : Env} {k k' : Kernel} {r : ℤ}

theorem sameProcesses_openFile {filename : CString} (h : openFile E filename k = some (r, k')) :
    SameProcesses k k' := by
  rcases openFile_cases h with ⟨-, rfl⟩ | ⟨i, fd, d, -, -, rfl, -, -, rfl⟩
  · exact SameProcesses.refl _
  · have hlive : (openFd (readDentryByName E.img filename fun _ => 0).2
        (k.current.files i)).flags ≠ 0 := Nat.one_ne_zero
    exact (SameProcesses.setFiles k fun hf => hf.update i fun h0 => absurd h0 hlive).trans
      (SameProcesses.devices _ d)

theorem sameProcesses_closeFile {fd : ℤ} (h : closeFile fd k = some (r, k')) :
    SameProcesses k k' := by
  rcases closeFile_cases h with ⟨-, rfl⟩ | ⟨d, -, -, -, -, -, rfl⟩
  · exact SameProcesses.refl _
  · exact (SameProcesses.setFiles k fun hf => hf.update fd.toNat fun _ => rfl).trans
      (SameProcesses.devices _ d)

theorem sameProcesses_advance (k : Kernel) (i n : ℕ) (hlive : (k.current.files i).flags ≠ 0) :
    SameProcesses k (k.advance i n) :=
  SameProcesses.setFiles k fun hf => hf.update i fun h0 => absurd h0 hlive

theorem sameProcesses_readFile {fd : ℤ} {buf : ℕ} {nbytes : ℤ}
    (h : readFile E fd buf nbytes k = some (r, k')) : SameProcesses k k' := by
  cases readEffect_of_readFile h with
  | failed => exact SameProcesses.refl k
  | clock => exact SameProcesses.devices k _
  | copied mem n hrange hlive =>
    exact (SameProcesses.setMem k mem).trans (sameProcesses_advance (k.setMem mem) _ n hlive)
  | line mem nbytes dst => exact (SameProcesses.setMem k mem).trans (SameProcesses.terminals _ _ _)

theorem sameProcesses_armFile (fd : ℤ) (buf : ℕ) (k : Kernel) :
    SameProcesses k (armFile fd buf k) := by
  unfold armFile armTerminal
  split_ifs
  · exact SameProcesses.refl k
  · exact SameProcesses.refl k
  · exact SameProcesses.terminals k _ _
  · exact SameProcesses.refl k

theorem sameProcesses_writeFile {fd : ℤ} {buf : ℕ} {nbytes : ℤ}
    (h : writeFile E fd buf nbytes k = some (r, k')) : SameProcesses k k' := by
  cases writeEffect_of_writeFile h with
  | failed => exact SameProcesses.refl k
  | clock freq => exact SameProcesses.devices k _
  | text hscreen =>
    rw [terminalWrite, if_neg hscreen.2.2.2.2]
    exact SameProcesses.terminals k _ _

theorem sameProcesses_getargs (buf : ℕ) (nbytes : ℤ) (k : Kernel) :
    SameProcesses k (getargs buf nbytes k).2 := by
  unfold getargs
  simp only
  split_ifs
  · exact SameProcesses.refl k
  · exact SameProcesses.setMem k _

theorem sameProcesses_vidmap {screenStart : ℕ}
    (hbuf : PageHolds screenStart (vidmapSpan screenStart))
    (h : vidmap E screenStart k = some (r, k')) : SameProcesses k k' := by
  rcases vidmap_cases hbuf h with ⟨-, -, rfl⟩ | ⟨-, -, -, rfl⟩
  · exact SameProcesses.refl _
  · exact (SameProcesses.setMem k _).trans (SameProcesses.vidmap _)

theorem sameProcesses_typeKey {key : ℕ} (h : typeKey E key k = some k') : SameProcesses k k' := by
  unfold typeKey at h
  split_ifs at h
  cases h
  exact SameProcesses.terminals k _ _

theorem sameProcesses_dispatch {e : Event} (hq : e.quiet) (h : dispatch E k e = some k') :
    SameProcesses k k' := by
  cases effect_of_dispatch h with
  | key => exact hq.elim
  | tick => exact hq.elim
  | executed => exact hq.elim
  | notExecuted => exact hq.elim
  | halt => exact hq.elim
  | type key htype => exact sameProcesses_typeKey htype
  | rtcInterrupt => exact SameProcesses.devices k _
  | openFile _ _ hopen => exact (sameProcesses_openFile hopen).trans (SameProcesses.eax _ _)
  | closeFile _ _ hclose => exact (sameProcesses_closeFile hclose).trans (SameProcesses.eax _ _)
  | arm fd buf => exact sameProcesses_armFile fd buf k
  | read _ _ _ _ _ hread => exact (sameProcesses_readFile hread).trans (SameProcesses.eax _ _)
  | write _ _ _ _ _ hwrite => exact (sameProcesses_writeFile hwrite).trans (SameProcesses.eax _ _)
  | getargs buf nbytes =>
    exact (sameProcesses_getargs buf nbytes k).trans (SameProcesses.eax _ _)
  | vidmap _ _ hbuf hmap => exact (sameProcesses_vidmap hbuf hmap).trans (SameProcesses.eax _ _)
  | compute mem => exact SameProcesses.setMem k mem

/-- A quiet event changes nothing that the process table or the scheduler looks at. -/
theorem sameProcesses_step {e : Event} (hq : e.quiet) (h : step E k e = some k') :
    SameProcesses k k' := by
  obtain ⟨k1, hk1, rfl⟩ := Option.map_eq_some_iff.1 h
  exact ((SameProcesses.advanceClock k).trans (sameProcesses_dispatch hq hk1)).trans
    (SameProcesses.setIflag k1 true)

end Quiet

/-- **The rule for invariants.**  A property that only depends on processes is kept by a step if
it is kept by a shortcut, a tick, an `execute` that starts a process, and a `halt`. -/
theorem step_rule {E : Env} {I : Kernel → Prop} (good : Kernel → Event → Prop)
    (hsame : ∀ k k', SameProcesses k k' → I k → I k')
    (hkey : ∀ k t k', I k.advanceClock → good k (.key t) →
      startTerminal E t k.advanceClock = some k' → I k')
    (htick : ∀ k k', I k.advanceClock → good k .tick →
      pitHandlerMain E k.advanceClock = some k' → I k')
    (hexecute : ∀ k command k', I k.advanceClock → good k (.execute command) → k.running ≠ 0 →
      execute E .syscall command k.advanceClock = some k' → I k')
    (hhalt : ∀ k status k', I k.advanceClock → good k (.halt status) → k.running ≠ 0 →
      halt E status k.advanceClock = some k' → I k')
    (k : Kernel) (e : Event) (k' : Kernel) (hk : I k) (hg : good k e) (h : step E k e = some k') :
    I k' := by
  have hk0 : I k.advanceClock := hsame _ _ (SameProcesses.advanceClock k) hk
  have hstep := h
  obtain ⟨k1, hk1, rfl⟩ := Option.map_eq_some_iff.1 h
  refine hsame k1 _ (SameProcesses.setIflag k1 true) ?_
  cases effect_of_dispatch hk1 with
  | key t hstart => exact hkey k t k1 hk0 hg hstart
  | tick htimer => exact htick k k1 hk0 hg htimer
  | executed command hr hexec => exact hexecute k command k1 hk0 hg hr hexec
  | notExecuted => exact hsame _ _ (SameProcesses.eax k.advanceClock (-1)) hk0
  | halt status hr hend => exact hhalt k status k1 hk0 hg hr hend
  | _ => exact hsame _ _ (sameProcesses_dispatch (by trivial) hk1) hk0

/-! ### Every step keeps the invariant -/

section Steps

variable {E : Env} {k k' : Kernel} {p pid : ℕ} {site : Site} {command : CString}

theorem wf_boot (E : Env) : Wf (boot E) where
  used_range p hp := by simp [Used, boot] at hp
  allocated_used p hp := by simp [Allocated, boot] at hp
  active_used t p hp := by simp [getActiveProcess, boot] at hp
  pcb_ok p hp := by simp [Used, boot] at hp
  running_used hr := absurd rfl hr
  idle _ := ⟨rfl, rfl⟩
  current_lt := show (-1 : ℤ) < 3 by decide
  current_nonneg hr := absurd rfl hr

/-- The terminal of a new process is one of the three. -/
theorem Wf.newTerm_range (h : Wf k) (hcur : 0 ≤ k.currentTerminal) :
    0 ≤ newTerm k ∧ newTerm k < maxTerminals := by
  unfold newTerm
  split_ifs with hc
  · obtain ⟨p, hp⟩ := Option.isSome_iff_exists.1 hc
    exact (h.current_ok (h.running_ne_zero (h.active_used _ p hp))).term
  · exact ⟨hcur, h.current_lt⟩

/-- The parent of a new process was given its pid before. -/
theorem Wf.newParent_used (h : Wf k) {q : ℕ} (hq : newParent k = some q) : Used k q := by
  unfold newParent at hq
  split_ifs at hq with hc
  obtain ⟨p, hp⟩ := Option.isSome_iff_exists.1 hc
  rw [← Option.some.inj hq]
  exact h.running_used (h.running_ne_zero (h.active_used _ p hp))

theorem used_startProcess {dentry : Dentry} {args : CString} :
    Used (startProcess E site pid dentry args k) p ↔ p = pid ∨ Used k p := by
  constructor
  · rintro ⟨s, hs, rfl⟩
    rcases List.mem_cons.1 hs with rfl | hs
    · exact Or.inl rfl
    · exact Or.inr ⟨s, hs, rfl⟩
  · rintro (rfl | ⟨s, hs, rfl⟩)
    · exact ⟨_, List.mem_cons_self, rfl⟩
    · exact ⟨s, List.mem_cons_of_mem _ hs, rfl⟩

theorem wf_startProcess (h : Wf k) (hcur : 0 ≤ k.currentTerminal) (h1 : 1 ≤ pid)
    (h6 : pid ≤ maxProcesses) (dentry : Dentry) (args : CString) :
    Wf (startProcess E site pid dentry args (takeSlot k pid)) := by
  have hterm := h.newTerm_range hcur
  have hmono : ∀ q, Used k q → Used (startProcess E site pid dentry args (takeSlot k pid)) q :=
    fun q hq => used_startProcess.2 (Or.inr hq)
  refine
    { used_range := fun p hp => ?_
      allocated_used := fun p hp => ?_
      active_used := fun t p hp => ?_
      pcb_ok := fun p hp => ?_
      running_used := fun _ => used_startProcess.2 (Or.inl rfl)
      idle := fun hr => ?_
      current_lt := h.current_lt
      current_nonneg := fun _ => hcur }
  · rcases used_startProcess.1 hp with rfl | hp
    · exact ⟨h1, h6⟩
    · exact h.used_range p hp
  · rcases (allocated_takeSlot h1 h6).1 (show Allocated (takeSlot k pid) p from hp) with rfl | hp
    · exact used_startProcess.2 (Or.inl rfl)
    · exact hmono p (h.allocated_used p hp)
  · rw [getActiveProcess_startProcess (k := takeSlot k pid) hterm] at hp
    split_ifs at hp
    · exact used_startProcess.2 (Or.inl (Option.some.inj hp).symm)
    · exact hmono p (h.active_used t p hp)
  · by_cases hpid : p = pid
    · subst hpid
      refine ⟨?_, ?_, ?_, ?_, fun q hq => ?_⟩
      · rw [startProcess_pcb_self]; rfl
      · rw [startProcess_pcb_self]; rfl
      · rw [startProcess_pcb_self]; rfl
      · rw [startProcess_pcb_self]; exact hterm
      · rw [startProcess_pcb_self] at hq
        exact hmono q (h.newParent_used hq)
    · have hok := h.pcb_ok p ((used_startProcess.1 hp).resolve_left hpid)
      have hsame : (startProcess E site pid dentry args (takeSlot k pid)).pcb p = k.pcb p :=
        startProcess_pcb_of_ne hpid
      exact ⟨by rw [hsame]; exact hok.pid, by rw [hsame]; exact hok.pd,
        by rw [hsame]; exact hok.esp0, by rw [hsame]; exact hok.term,
        fun q hq => hmono q (hok.parent q (by rw [← hsame]; exact hq))⟩
  · have hzero : pid = 0 := hr
    omega

theorem wf_execute (h : Wf k) (hcur : 0 ≤ k.currentTerminal)
    (he : execute E site command k = some k') : Wf k' := by
  obtain ⟨pid, dentry, args, -, h1, h6, -, rfl⟩ := execute_spec he
  exact wf_startProcess h hcur h1 h6 dentry args

theorem wf_switchTo (h : Wf k) {next : ℕ} (hnext : Used k next) (frame : Token) :
    Wf (switchTo frame next k) where
  used_range := h.used_range
  allocated_used := h.allocated_used
  active_used := h.active_used
  pcb_ok p hp := ⟨(h.pcb_ok p hp).pid, (h.pcb_ok p hp).pd, (h.pcb_ok p hp).esp0,
    (h.pcb_ok p hp).term, (h.pcb_ok p hp).parent⟩
  running_used _ := hnext
  idle hr := absurd hr (h.used_ne_zero hnext)
  current_lt := h.current_lt
  current_nonneg _ := h.current_nonneg (h.running_ne_zero hnext)

/-- The process that the scheduler picks is active on some terminal. -/
theorem nextPid_active {runningTerm : ℤ} (h : nextPid k runningTerm = some p) :
    ∃ t, getActiveProcess k t = some p := by
  obtain ⟨i, -, hi⟩ := List.exists_of_findSome?_eq_some h
  exact ⟨_, hi⟩

/-- What the scheduling part of the timer handler does. -/
theorem schedule_spec {frame : Token} (h : schedule frame k = some k') :
    ∃ next, nextPid k k.current.termNum = some next ∧
      ((k.current.pid = next ∧ k' = k) ∨ (k.current.pid ≠ next ∧ k' = switchTo frame next k)) := by
  unfold schedule at h
  split at h
  next => exact absurd h (by simp)
  next next hnext =>
    split_ifs at h with hpid
    · exact ⟨next, hnext, Or.inl ⟨hpid, (Option.some.inj h).symm⟩⟩
    · exact ⟨next, hnext, Or.inr ⟨hpid, (Option.some.inj h).symm⟩⟩

theorem wf_schedule (h : Wf k) {frame : Token} (hs : schedule frame k = some k') : Wf k' := by
  obtain ⟨next, hnext, ⟨-, rfl⟩ | ⟨-, rfl⟩⟩ := schedule_spec hs
  · exact h
  · obtain ⟨t, ht⟩ := nextPid_active hnext
    exact wf_switchTo h (h.active_used t next ht) frame

theorem saveContext_pcb (frame : Token) (k : Kernel) (p : ℕ) :
    (saveContext frame k).pcb p =
      { k.pcb p with
        context :=
          if p = k.running then { (k.pcb p).context with esp := frame, ebp := frame }
          else (k.pcb p).context } := by
  by_cases hp : p = k.running
  · subst hp
    simp only [saveContext, Function.update_self, if_true]
    rfl
  · simp only [saveContext, Function.update_of_ne hp, if_neg hp]

theorem wf_saveContext (h : Wf k) (frame : Token) : Wf (saveContext frame k) where
  used_range := h.used_range
  allocated_used := h.allocated_used
  active_used := h.active_used
  pcb_ok p hp := by
    have hok := h.pcb_ok p hp
    refine ⟨by rw [saveContext_pcb]; exact hok.pid, by rw [saveContext_pcb]; exact hok.pd, ?_,
      by rw [saveContext_pcb]; exact hok.term,
      fun q hq => hok.parent q (by rw [saveContext_pcb] at hq; exact hq)⟩
    rw [saveContext_pcb]
    simp only
    split_ifs <;> exact hok.esp0
  running_used := h.running_used
  idle := h.idle
  current_lt := h.current_lt
  current_nonneg := h.current_nonneg

theorem wf_nextExecute (h : Wf k) (b : Bool) : Wf { k with nextExecute := b } :=
  ⟨h.used_range, h.allocated_used, h.active_used,
    fun p hp => ⟨(h.pcb_ok p hp).pid, (h.pcb_ok p hp).pd, (h.pcb_ok p hp).esp0,
      (h.pcb_ok p hp).term, (h.pcb_ok p hp).parent⟩,
    h.running_used, h.idle, h.current_lt, h.current_nonneg⟩

/-- What the timer handler does: nothing without a process, else it saves the context, and starts
the shell that was asked for or schedules. -/
theorem pitHandlerMain_spec (h : pitHandlerMain E k = some k') :
    (processes k = 0 ∧ k' = k) ∨
      (processes k ≠ 0 ∧
        ((k.nextExecute = true ∧
            execute E .pit shell
              { saveContext ⟨.pit, k.clock⟩ k with nextExecute := false } = some k') ∨
          (k.nextExecute = true ∧
            execute E .pit shell
              { saveContext ⟨.pit, k.clock⟩ k with nextExecute := false } = none ∧
            schedule ⟨.pit, k.clock⟩
              { saveContext ⟨.pit, k.clock⟩ k with nextExecute := false } = some k') ∨
          (k.nextExecute = false ∧
            schedule ⟨.pit, k.clock⟩ (saveContext ⟨.pit, k.clock⟩ k) = some k'))) := by
  unfold pitHandlerMain at h
  split_ifs at h with hproc
  · exact Or.inl ⟨hproc, (Option.some.inj h).symm⟩
  · refine Or.inr ⟨hproc, ?_⟩
    have hsame : (saveContext ⟨.pit, k.clock⟩ k).nextExecute = k.nextExecute := rfl
    simp only [hsame] at h
    cases hnext : k.nextExecute with
    | false =>
      rw [hnext, if_neg Bool.false_ne_true] at h
      exact Or.inr (Or.inr ⟨rfl, h⟩)
    | true =>
      rw [hnext, if_pos rfl] at h
      split at h
      next k1 hexec =>
        obtain ⟨-, rfl⟩ := afterLoad_eq_some.1 h
        exact Or.inl ⟨rfl, hexec⟩
      next hexec => exact Or.inr (Or.inl ⟨rfl, hexec, h⟩)

/-- What a shortcut does: nothing if it is refused; else the terminal is displayed, and if it has
no process a shell is asked for or started. -/
theorem startTerminal_spec {t : ℕ} (h : startTerminal E t k = some k') :
    (startTerminalAccepts k t = false ∧ k' = k) ∨
      (startTerminalAccepts k t = true ∧ (t : ℤ) < maxTerminals ∧ (t : ℤ) ≠ k.currentTerminal ∧
        ((getActiveProcess k t ≠ none ∧ k' = { k with currentTerminal := t }) ∨
          (getActiveProcess k t = none ∧ getActiveProcess k k.currentTerminal ≠ none ∧
            k' = { k with currentTerminal := t, nextExecute := true }) ∨
          (getActiveProcess k t = none ∧ getActiveProcess k k.currentTerminal = none ∧
            execute E .keyboard shell { k with currentTerminal := t } = some k'))) := by
  unfold startTerminal at h
  split_ifs at h with hacc
  · have hrange : t < maxTerminals ∧ (t : ℤ) ≠ k.currentTerminal := by
      simp only [startTerminalAccepts, Bool.and_eq_true, decide_eq_true_eq] at hacc
      exact hacc.1
    refine Or.inr ⟨hacc, by exact_mod_cast hrange.1, hrange.2, ?_⟩
    simp only at h
    split_ifs at h with hnext hcurr
    · exact Or.inr (Or.inl ⟨hnext, hcurr, (Option.some.inj h).symm⟩)
    · exact Or.inr (Or.inr ⟨hnext, not_not.1 hcurr, execute_of_afterLoad h⟩)
    · exact Or.inl ⟨hnext, (Option.some.inj h).symm⟩
  · exact Or.inl ⟨by simpa using hacc, (Option.some.inj h).symm⟩

theorem wf_display (h : Wf k) {t : ℕ} (ht : (t : ℤ) < maxTerminals) (b : Bool) :
    Wf { k with currentTerminal := t, nextExecute := b } :=
  ⟨h.used_range, h.allocated_used, h.active_used,
    fun p hp => ⟨(h.pcb_ok p hp).pid, (h.pcb_ok p hp).pd, (h.pcb_ok p hp).esp0,
      (h.pcb_ok p hp).term, (h.pcb_ok p hp).parent⟩,
    h.running_used, h.idle, ht, fun _ => Int.natCast_nonneg t⟩

/-! ### `halt` -/

theorem wf_deleteProcess (h : Wf k) (hr : k.running ≠ 0) (pid : ℕ) : Wf (deleteProcess k pid) := by
  by_cases hpid : 1 ≤ pid ∧ pid ≤ maxProcesses
  · have hall := fun p => allocated_deleteProcess (k := k) (p := p) hpid.1 hpid.2
    rw [deleteProcess, if_pos hpid] at hall ⊢
    exact ⟨h.used_range, fun p hp => h.allocated_used p ((hall p).1 hp).1, h.active_used,
      fun p hp => ⟨(h.pcb_ok p hp).pid, (h.pcb_ok p hp).pd, (h.pcb_ok p hp).esp0,
        (h.pcb_ok p hp).term, (h.pcb_ok p hp).parent⟩,
      h.running_used, fun hr' => absurd hr' hr, h.current_lt, h.current_nonneg⟩
  · rwa [deleteProcess, if_neg hpid]

theorem haltClose_spec {i : ℕ} (h : haltClose i k = some k') :
    ∃ d, k' = { k with devices := d } := by
  unfold haltClose at h
  simp only at h
  split_ifs at h
  · obtain ⟨d, -, hd⟩ := Option.map_eq_some_iff.1 h
    exact ⟨d, hd.symm⟩
  · exact ⟨k.devices, (Option.some.inj h).symm⟩

/-- Closing the descriptors of the halting process changes the devices only. -/
theorem haltCloseLoop_spec {n i : ℕ} (h : haltCloseLoop n i k = some k') :
    ∃ d, k' = { k with devices := d } := by
  induction n generalizing i k with
  | zero => exact ⟨k.devices, (Option.some.inj h).symm⟩
  | succ n ih =>
    obtain ⟨k1, hk1, hrest⟩ := Option.bind_eq_some_iff.1 h
    obtain ⟨d, rfl⟩ := haltClose_spec hk1
    obtain ⟨d', rfl⟩ := ih hrest
    exact ⟨d', rfl⟩

/-- The state in which `halt` hands the terminal over: the process is deleted and its descriptors
are closed. -/
def halted (k : Kernel) (d : Devices) : Kernel :=
  { deleteProcess k k.current.pid with devices := d }

@[simp] theorem halted_pcb (k : Kernel) (d : Devices) : (halted k d).pcb = k.pcb := by
  unfold halted deleteProcess
  split_ifs <;> rfl

@[simp] theorem halted_running (k : Kernel) (d : Devices) : (halted k d).running = k.running := by
  unfold halted deleteProcess
  split_ifs <;> rfl

@[simp] theorem halted_current (k : Kernel) (d : Devices) : (halted k d).current = k.current := by
  rw [Kernel.current, halted_pcb, halted_running]
  rfl

@[simp] theorem halted_stopped (k : Kernel) (d : Devices) : (halted k d).stopped = k.stopped := by
  unfold halted deleteProcess
  split_ifs <;> rfl

@[simp] theorem halted_resumes (k : Kernel) (d : Devices) : (halted k d).resumes = k.resumes := by
  unfold halted deleteProcess
  split_ifs <;> rfl

@[simp] theorem halted_starts (k : Kernel) (d : Devices) : (halted k d).starts = k.starts := by
  unfold halted deleteProcess
  split_ifs <;> rfl

@[simp] theorem halted_clock (k : Kernel) (d : Devices) : (halted k d).clock = k.clock := by
  unfold halted deleteProcess
  split_ifs <;> rfl

@[simp] theorem halted_pd (k : Kernel) (d : Devices) : (halted k d).pd = k.pd := by
  unfold halted deleteProcess
  split_ifs <;> rfl

@[simp] theorem halted_vidmapped (k : Kernel) (d : Devices) :
    (halted k d).vidmapped = k.vidmapped := by
  unfold halted deleteProcess
  split_ifs <;> rfl

@[simp] theorem halted_currentTerminal (k : Kernel) (d : Devices) :
    (halted k d).currentTerminal = k.currentTerminal := by
  unfold halted deleteProcess
  split_ifs <;> rfl

@[simp] theorem halted_nextExecute (k : Kernel) (d : Devices) :
    (halted k d).nextExecute = k.nextExecute := by
  unfold halted deleteProcess
  split_ifs <;> rfl

@[simp] theorem getActiveProcess_halted (k : Kernel) (d : Devices) (t : ℤ) :
    getActiveProcess (halted k d) t = getActiveProcess k t := by
  have hactive : (halted k d).activeProcesses = k.activeProcesses := by
    unfold halted deleteProcess
    split_ifs <;> rfl
  rw [getActiveProcess, getActiveProcess, hactive]

/-- `halt` deletes the process, closes its descriptors and hands the terminal over. -/
theorem halt_spec {status : UInt8} (h : halt E status k = some k') :
    ∃ d, haltFinish E status (halted k d) = some k' := by
  obtain ⟨k1, hk1, hfinish⟩ := Option.bind_eq_some_iff.1 h
  obtain ⟨d, rfl⟩ := haltCloseLoop_spec hk1
  refine ⟨d, ?_⟩
  have heq : { haltBegin k with devices := d } = halted k d := by
    unfold haltBegin halted deleteProcess Kernel.setIflag
    split_ifs <;> rfl
  rwa [heq] at hfinish

theorem wf_halted (h : Wf k) (hr : k.running ≠ 0) (d : Devices) : Wf (halted k d) :=
  (SameProcesses.devices _ d).wf (wf_deleteProcess h hr k.current.pid)

/-- What a terminal's active process is once the parent has taken over. -/
theorem getActiveProcess_returnToParent {parent : ℕ} {status : UInt8}
    (ht : 0 ≤ (k.pcb parent).termNum ∧ (k.pcb parent).termNum < maxTerminals) (u : ℤ) :
    getActiveProcess (returnToParent parent status k) u =
      if u = (k.pcb parent).termNum then some (k.pcb parent).pid else getActiveProcess k u :=
  getActiveProcess_setActiveProcess (v := some (k.pcb parent).pid) ht

theorem getActiveProcess_dropBase
    (ht : 0 ≤ k.current.termNum ∧ k.current.termNum < maxTerminals) (u : ℤ) :
    getActiveProcess (dropBase k) u =
      if u = k.current.termNum then none else getActiveProcess k u :=
  getActiveProcess_setActiveProcess (v := none) ht

theorem wf_returnToParent (h : Wf k) (hr : k.running ≠ 0) {parent : ℕ}
    (hp : k.current.parentPcb = some parent) (status : UInt8) :
    Wf (returnToParent parent status k) := by
  have hparent : Used k parent := (h.current_ok hr).parent parent hp
  have hok := h.pcb_ok parent hparent
  refine
    { used_range := h.used_range
      allocated_used := h.allocated_used
      active_used := fun t p ht => ?_
      pcb_ok := fun p hp => ⟨(h.pcb_ok p hp).pid, (h.pcb_ok p hp).pd, (h.pcb_ok p hp).esp0,
        (h.pcb_ok p hp).term, (h.pcb_ok p hp).parent⟩
      running_used := fun _ => hparent
      idle := fun hz => absurd hz (h.used_ne_zero hparent)
      current_lt := h.current_lt
      current_nonneg := fun _ => h.current_nonneg hr }
  rw [getActiveProcess_returnToParent hok.term] at ht
  split_ifs at ht
  · rw [hok.pid] at ht
    rwa [← Option.some.inj ht]
  · exact h.active_used t p ht

theorem wf_dropBase (h : Wf k) (hr : k.running ≠ 0) : Wf (dropBase k) := by
  refine
    { used_range := h.used_range
      allocated_used := h.allocated_used
      active_used := fun t p ht => ?_
      pcb_ok := fun p hp => ⟨(h.pcb_ok p hp).pid, (h.pcb_ok p hp).pd, (h.pcb_ok p hp).esp0,
        (h.pcb_ok p hp).term, (h.pcb_ok p hp).parent⟩
      running_used := h.running_used
      idle := h.idle
      current_lt := h.current_lt
      current_nonneg := h.current_nonneg }
  rw [getActiveProcess_dropBase (h.current_ok hr).term] at ht
  split_ifs at ht
  exact h.active_used t p ht

/-- The two ways to hand the terminal over. -/
theorem haltFinish_spec {status : UInt8} (h : haltFinish E status k = some k') :
    (∃ parent, k.current.parentPcb = some parent ∧
        continueFrame E k.current.espParent (returnToParent parent status k) = some k') ∨
      (k.current.parentPcb = none ∧ execute E .halt shell (dropBase k) = some k') := by
  unfold haltFinish at h
  split at h
  next parent hp => exact Or.inl ⟨parent, hp, h⟩
  next hp => exact Or.inr ⟨hp, execute_of_afterLoad h⟩

/-- The frame of a system call is returned to; the timer handler schedules, and the other routines
start a shell. -/
theorem continueFrame_spec {frame : Token} (h : continueFrame E frame k = some k') :
    (frame.site = .syscall ∧ k' = k) ∨ (frame.site = .pit ∧ schedule frame k = some k') ∨
      (frame.site ≠ .syscall ∧ execute E frame.site shell k = some k') := by
  unfold continueFrame at h
  split at h
  next hsite => exact Or.inl ⟨hsite, (Option.some.inj h).symm⟩
  next hsite => exact Or.inr (Or.inl ⟨hsite, h⟩)
  next hsite =>
    rw [hsite]
    exact Or.inr (Or.inr ⟨by decide, execute_of_afterLoad h⟩)
  next hsite =>
    rw [hsite]
    exact Or.inr (Or.inr ⟨by decide, execute_of_afterLoad h⟩)

/-! ### The rule for what only `execute` writes -/

/-- The control blocks agree but for the saved contexts, and so do the directories. -/
structure SameBlocks (k k' : Kernel) : Prop where
  starts : k'.starts = k.starts
  pd : k'.pd = k.pd
  vidmapped : k'.vidmapped = k.vidmapped
  pcb : ∀ p, k'.pcb p = { k.pcb p with context := (k'.pcb p).context }

namespace SameBlocks

theorem of_eq (hstarts : k'.starts = k.starts) (hpd : k'.pd = k.pd)
    (hvidmapped : k'.vidmapped = k.vidmapped) (hpcb : k'.pcb = k.pcb) : SameBlocks k k' :=
  ⟨hstarts, hpd, hvidmapped, fun p => by rw [hpcb]⟩

theorem used (h : SameBlocks k k') (p : ℕ) : Used k' p ↔ Used k p := by
  simp only [Used, h.starts]

theorem saveContext (k : Kernel) (frame : Token) : SameBlocks k (saveContext frame k) :=
  ⟨rfl, rfl, rfl, fun p => by rw [saveContext_pcb]⟩

theorem schedule {frame : Token} (h : schedule frame k = some k') : SameBlocks k k' := by
  obtain ⟨next, -, ⟨-, rfl⟩ | ⟨-, rfl⟩⟩ := schedule_spec h
  · exact of_eq rfl rfl rfl rfl
  · exact of_eq rfl rfl rfl rfl

theorem halted (k : Kernel) (d : Devices) : SameBlocks k (halted k d) :=
  of_eq (halted_starts k d) (halted_pd k d) (halted_vidmapped k d) (halted_pcb k d)

end SameBlocks

/-- **The rule for what only `execute` writes.**  A property of the control blocks and directories
is kept by a step if every `execute` keeps it and the quiet events do. -/
theorem block_rule {P : Kernel → Prop} (hblocks : ∀ k k', SameBlocks k k' → P k → P k')
    (hexec : ∀ k site command k', execute E site command k = some k' → P k → P k') {e : Event}
    (hsame : ∀ k', SameProcesses k k' → P k') (hk : P k) (h : step E k e = some k') : P k' := by
  by_cases hq : e.quiet
  · exact hsame k' (sameProcesses_step hq h)
  have hk0 : P k.advanceClock := hblocks k _ (SameBlocks.of_eq rfl rfl rfl rfl) hk
  obtain ⟨k1, hk1, rfl⟩ := Option.map_eq_some_iff.1 h
  suffices hbody : P k1 from hblocks k1 _ (SameBlocks.of_eq rfl rfl rfl rfl) hbody
  have hdisplay : ∀ k t b, P k → P { k with currentTerminal := t, nextExecute := b } :=
    fun k t b => hblocks k _ (SameBlocks.of_eq rfl rfl rfl rfl)
  have hsched : ∀ k frame k', schedule frame k = some k' → P k → P k' :=
    fun k frame k' hs => hblocks _ _ (SameBlocks.schedule hs)
  cases effect_of_dispatch hk1 with
  | key t hstart =>
    rcases startTerminal_spec hstart with ⟨-, rfl⟩ | ⟨-, -, -, ⟨-, rfl⟩ | ⟨-, -, rfl⟩ | ⟨-, -, he⟩⟩
    · exact hk0
    · exact hdisplay _ _ _ hk0
    · exact hdisplay _ _ _ hk0
    · exact hexec _ _ _ _ he (hdisplay _ _ _ hk0)
  | tick htimer =>
    have hsaved := hblocks _ _ (SameBlocks.saveContext k.advanceClock ⟨.pit, k.clock + 1⟩) hk0
    rcases pitHandlerMain_spec htimer with ⟨-, rfl⟩ | ⟨-, ⟨-, he⟩ | ⟨-, -, hs⟩ | ⟨-, hs⟩⟩
    · exact hk0
    · exact hexec _ _ _ _ he (hdisplay _ _ _ hsaved)
    · exact hsched _ _ _ hs (hdisplay _ _ _ hsaved)
    · exact hsched _ _ _ hs hsaved
  | executed _ _ he => exact hexec _ _ _ _ he hk0
  | notExecuted => exact hblocks k.advanceClock _ (SameBlocks.of_eq rfl rfl rfl rfl) hk0
  | halt status _ hend =>
    obtain ⟨d, hfinish⟩ := halt_spec hend
    have hhalted := hblocks _ _ (SameBlocks.halted k.advanceClock d) hk0
    rcases haltFinish_spec hfinish with ⟨parent, -, hcont⟩ | ⟨-, he⟩
    · have hret : P (returnToParent parent status (halted k.advanceClock d)) :=
        hblocks (halted k.advanceClock d) _ (SameBlocks.of_eq rfl rfl rfl rfl) hhalted
      rcases continueFrame_spec hcont with ⟨-, rfl⟩ | ⟨-, hs⟩ | ⟨-, he⟩
      · exact hret
      · exact hsched _ _ _ hs hret
      · exact hexec _ _ _ _ he hret
    · have hdrop : P (dropBase (halted k.advanceClock d)) :=
        hblocks (halted k.advanceClock d) _ (SameBlocks.of_eq rfl rfl rfl rfl) hhalted
      exact hexec _ _ _ _ he hdrop
  | _ => exact absurd trivial hq

/-! ### The rule for the interrupt handlers and `halt` -/

/-- An invariant that the parts of the interrupt handlers keep: a context is saved, a terminal is
displayed, the scheduler switches, and a shell is started from a routine of the kernel. -/
structure Closed (E : Env) (I : Kernel → Prop) : Prop where
  wf : ∀ k, I k → Wf k
  save : ∀ k frame b, I k → I { saveContext frame k with nextExecute := b }
  display : ∀ k (t : ℕ) b, I k → (t : ℤ) < maxTerminals →
    I { k with currentTerminal := t, nextExecute := b }
  schedule : ∀ k frame k', I k → schedule frame k = some k' → I k'
  execute : ∀ k site k', I k → site ≠ .syscall → 0 ≤ k.currentTerminal →
    execute E site shell k = some k' → I k'

namespace Closed

variable {I : Kernel → Prop}

theorem pitHandlerMain (hI : Closed E I) (hk : I k) (h : pitHandlerMain E k = some k') : I k' := by
  rcases pitHandlerMain_spec h with ⟨-, rfl⟩ | ⟨hproc, hcases⟩
  · exact hk
  · have hw := hI.wf k hk
    have hr : k.running ≠ 0 := fun hr => hproc (hw.idle hr).2
    have hsaved := hI.save k ⟨.pit, k.clock⟩
    rcases hcases with ⟨-, hexec⟩ | ⟨-, -, hs⟩ | ⟨-, hs⟩
    · exact hI.execute _ .pit k' (hsaved false hk) (by decide) (hw.current_nonneg hr) hexec
    · exact hI.schedule _ _ k' (hsaved false hk) hs
    · exact hI.schedule _ _ k' (hsaved k.nextExecute hk) hs

theorem startTerminal (hI : Closed E I) (hk : I k) {t : ℕ} (h : startTerminal E t k = some k') :
    I k' := by
  rcases startTerminal_spec h with ⟨-, rfl⟩ | ⟨-, ht, -, ⟨-, rfl⟩ | ⟨-, -, rfl⟩ | ⟨-, -, hexec⟩⟩
  · exact hk
  · exact hI.display k t k.nextExecute hk ht
  · exact hI.display k t true hk ht
  · exact hI.execute _ .keyboard k' (hI.display k t k.nextExecute hk ht) (by decide)
      (Int.natCast_nonneg t) hexec

theorem continueFrame (hI : Closed E I) (hk : I k) (hr : k.running ≠ 0) {frame : Token}
    (h : continueFrame E frame k = some k') : I k' := by
  have hcur := (hI.wf k hk).current_nonneg hr
  rcases continueFrame_spec h with ⟨-, rfl⟩ | ⟨-, hs⟩ | ⟨hsite, hexec⟩
  · exact hk
  · exact hI.schedule k _ k' hk hs
  · exact hI.execute k _ k' hk hsite hcur hexec

/-- A `halt` keeps the invariant if the return to the parent and the start of a new base shell
do. -/
theorem halt (hI : Closed E I) (hk : I k) (hr : k.running ≠ 0) {status : UInt8}
    (hreturn : ∀ parent d, k.current.parentPcb = some parent →
      I (returnToParent parent status (halted k d)))
    (hdrop : ∀ d, k.current.parentPcb = none →
      LinuxIsLove.execute E .halt shell (dropBase (halted k d)) = some k' → I k')
    (h : halt E status k = some k') : I k' := by
  obtain ⟨d, hfinish⟩ := halt_spec h
  rcases haltFinish_spec hfinish with ⟨parent, hparent, hcont⟩ | ⟨hbase, hexec⟩
  · rw [halted_current] at hparent
    have hw := hI.wf k hk
    have hused := (hw.current_ok hr).parent parent hparent
    exact hI.continueFrame (hreturn parent d hparent) (hw.used_ne_zero hused) hcont
  · rw [halted_current] at hbase
    exact hdrop d hbase hexec

end Closed

theorem closed_wf (E : Env) : Closed E Wf where
  wf _ hk := hk
  save _ frame b hk := wf_nextExecute (wf_saveContext hk frame) b
  display _ _ b hk ht := wf_display hk ht b
  schedule _ _ _ hk h := wf_schedule hk h
  execute _ _ _ hk _ hcur h := wf_execute hk hcur h

theorem wf_haltFinish (h : Wf k) (hr : k.running ≠ 0) {status : UInt8}
    (hfinish : haltFinish E status k = some k') : Wf k' := by
  rcases haltFinish_spec hfinish with ⟨parent, hp, hcont⟩ | ⟨-, hexec⟩
  · have hparent := (h.current_ok hr).parent parent hp
    exact (closed_wf E).continueFrame (wf_returnToParent h hr hp status)
      (h.used_ne_zero hparent) hcont
  · exact wf_execute (wf_dropBase h hr) (h.current_nonneg hr) hexec

theorem wf_halt (h : Wf k) (hr : k.running ≠ 0) {status : UInt8}
    (hh : halt E status k = some k') : Wf k' := by
  obtain ⟨d, hfinish⟩ := halt_spec hh
  exact wf_haltFinish (wf_halted h hr d) (by rwa [halted_running]) hfinish

/-- Every step keeps the invariant. -/
theorem wf_step {e : Event} (h : Wf k) (hs : step E k e = some k') : Wf k' := by
  refine step_rule (fun _ _ => True) (fun k k' hsame hk => hsame.wf hk) ?_ ?_ ?_ ?_ k e k'
    h trivial hs
  · exact fun k t k' hk _ hkey => (closed_wf E).startTerminal hk hkey
  · exact fun k k' hk _ htick => (closed_wf E).pitHandlerMain hk htick
  · exact fun k command k' hk _ hr hexec => wf_execute hk (hk.current_nonneg hr) hexec
  · exact fun k status k' hk _ hr hhalt => wf_halt hk hr hhalt

/-- Every run keeps the invariant. -/
theorem wf_run {es : List Event} (h : Wf k) (hrun : run (step E) k es = some k') : Wf k' :=
  invariant_of_run (fun _ _ _ => wf_step) h hrun

theorem wf_reachable (h : Reachable E k) : Wf k := by
  obtain ⟨es, hrun⟩ := h
  exact wf_run (wf_boot E) hrun

end Steps

end LinuxIsLove
