import LinuxIsLove.DeferredShell
import LinuxIsLove.Foundation.Rotation

/-!
# Turns of the terminals

The kernel counts its processes.  While no terminal gets its first shell and none loses its last
process, the timer goes round the terminals that have a process, and resumes the process on top of
each.
-/

namespace LinuxIsLove

open Bytes EventMachine

/-- Whether a terminal has a process. -/
def busy (k : Kernel) (t : ℕ) : Bool := (getActiveProcess k t).isSome

/-- How many terminals have a process. -/
def busyTerminals (k : Kernel) : ℕ :=
  Nat.count (fun t => busy k (t % maxTerminals) = true) maxTerminals

def Event.isTick : Event → Bool
  | .tick => true
  | _ => false

theorem Event.eq_tick {e : Event} (h : e.isTick = true) : e = .tick := by
  cases e with
  | tick => rfl
  | _ => exact absurd h Bool.false_ne_true

def ticks (es : List Event) : ℕ := es.countP Event.isTick

/-- The events that leave the terminals as they are: a terminal with a process is displayed, a
program is started while the displayed terminal has a process, one that another program has started
halts, and no shell is waiting for the timer. -/
def Steady (k : Kernel) : Event → Prop
  | .key t => busy k t = true
  | .tick => k.nextExecute = false
  | .execute _ => currTerminalRunningProcess k = true
  | .halt _ => k.current.parentPcb ≠ none ∧ k.current.espParent.site = .syscall
  | _ => True

instance (k : Kernel) : (e : Event) → Decidable (Steady k e)
  | .key t => inferInstanceAs (Decidable (busy k t = true))
  | .tick => inferInstanceAs (Decidable (k.nextExecute = false))
  | .execute _ => inferInstanceAs (Decidable (currTerminalRunningProcess k = true))
  | .halt _ => inferInstanceAs
      (Decidable (k.current.parentPcb ≠ none ∧ k.current.espParent.site = .syscall))
  | .openFile _ | .closeFile _ | .arm _ _ | .read _ _ _ | .write _ _ _ | .getargs _ _ | .vidmap _
  | .compute _ | .type _ | .rtcInterrupt => instDecidableTrue

/-- The number of processes is right wherever the processes form stacks. -/
structure Counted (k : Kernel) : Prop where
  stacked : Stacked k
  count : CountOk k

section Count

variable {E : Env} {k k' : Kernel} {e : Event}

theorem SameProcesses.counted (h : SameProcesses k k') (hk : Counted k) : Counted k' := by
  refine ⟨h.stacked hk.stacked, ?_⟩
  rw [CountOk, h.procCount, h.procs]
  exact hk.count

theorem countOk_deleteProcess {pid : ℕ} (hc : CountOk k) (hp : Allocated k pid) :
    CountOk (deleteProcess k pid) := by
  obtain ⟨h1, h6, hset⟩ := hp
  have hmem : pid - 1 ∈ (Finset.range maxProcesses).filter fun i => k.procs i = true := by
    rw [Finset.mem_filter, Finset.mem_range]
    exact ⟨by omega, hset⟩
  have hfilter : ((Finset.range maxProcesses).filter
      fun i => Function.update k.procs (pid - 1) false i = true) =
      ((Finset.range maxProcesses).filter fun i => k.procs i = true).erase (pid - 1) := by
    ext i
    simp only [Function.update_apply, Finset.mem_filter, Finset.mem_erase, Finset.mem_range]
    by_cases hi : i = pid - 1
    · simp [hi]
    · simp [hi]
  have hle := hc.le
  have hpos : 0 < k.procCount := by
    rw [hc]
    exact Finset.card_pos.2 ⟨_, hmem⟩
  rw [deleteProcess, if_pos ⟨h1, h6⟩]
  show (k.procCount + (2 ^ 32 - 1)) % 2 ^ 32 = _
  rw [hfilter, Finset.card_erase_of_mem hmem, ← hc]
  simp only [maxProcesses] at hle
  omega

theorem countOk_halted (hk : Counted k) (hr : k.running ≠ 0) (d : Devices) :
    CountOk (halted k d) := by
  obtain ⟨F, hF⟩ := hk.stacked.chains.1
  have hpid : k.current.pid = k.running := (hk.stacked.wf.current_ok hr).pid
  have halloc : Allocated k k.current.pid := by
    rw [hpid]
    exact hF.allocated_of_active (hk.stacked.onTop hr)
  exact countOk_deleteProcess hk.count halloc

theorem counted_step (hk : Counted k) (hg : ChainStep E k e) (h : step E k e = some k') :
    Counted k' := by
  refine ⟨stacked_step hk.stacked hg h, ?_⟩
  have hcount : ∀ {k1 k2 frame}, schedule frame k1 = some k2 → CountOk k1 → CountOk k2 :=
    fun hs hc => (schedule_countOk hc hs).1
  refine step_rule (I := fun k => CountOk k) (fun k e => Counted k ∧ ChainStep E k e) ?_ ?_ ?_ ?_ ?_
    k e k' hk.count ⟨hk, hg⟩ h
  · intro k k' hsame hc
    rw [CountOk, hsame.procCount, hsame.procs]
    exact hc
  · intro k t k' hc _ hkey
    rcases startTerminal_spec hkey with ⟨-, rfl⟩ | ⟨-, -, -, ⟨-, rfl⟩ | ⟨-, -, rfl⟩ | ⟨-, -, hexec⟩⟩
    · exact hc
    · exact hc
    · exact hc
    · exact countOk_execute (k := { k.advanceClock with currentTerminal := t }) hc hexec
  · intro k k' hc _ htick
    rcases pitHandlerMain_spec htick with ⟨-, rfl⟩ | ⟨-, ⟨-, hexec⟩ | ⟨-, -, hs⟩ | ⟨-, hs⟩⟩
    · exact hc
    · exact countOk_execute (k := { saveContext ⟨.pit, k.advanceClock.clock⟩ k.advanceClock with
        nextExecute := false }) hc hexec
    · exact hcount hs hc
    · exact hcount hs hc
  · intro k command k' hc _ _ hexec
    exact countOk_execute hc hexec
  · intro k status k' hc hgood hr hhalt
    have hk0 := (SameProcesses.advanceClock k).counted hgood.1
    obtain ⟨d, hfinish⟩ := halt_spec hhalt
    have hd : CountOk (halted k.advanceClock d) := countOk_halted hk0 hr d
    rcases haltFinish_spec hfinish with ⟨parent, -, hcont⟩ | ⟨-, hexec⟩
    · have hp : CountOk (returnToParent parent status (halted k.advanceClock d)) := hd
      rcases continueFrame_spec hcont with ⟨-, rfl⟩ | ⟨-, hs⟩ | ⟨-, hexec⟩
      · exact hp
      · exact hcount hs hp
      · exact countOk_execute hp hexec
    · exact countOk_execute (k := dropBase (halted k.advanceClock d)) hd hexec

theorem counted_boot (E : Env) : Counted (boot E) := ⟨stacked_boot E, (ready_boot E).count⟩

end Count

/-! ### The turns -/

section Turns

variable {E : Env} {k k' k0 : Kernel} {e : Event} {n : ℕ}

/-- The terminal whose process runs. -/
def turn (k : Kernel) : ℕ := k.current.termNum.toNat

/-- A tick takes the turn to the next terminal. -/
def nextTurn (k : Kernel) : ℕ → ℕ := Rotation.next (busy k) maxTerminals

/-- `k` is reached from `k0` with `n` ticks, and the terminals are as they were. -/
structure Turned (k0 : Kernel) (n : ℕ) (k : Kernel) : Prop where
  counted : Counted k
  running : k.running ≠ 0
  terminals : ∀ t, busy k t = busy k0 t
  turns : turn k = (nextTurn k0)^[n] (turn k0)

theorem Counted.turned (h : Counted k) (hr : k.running ≠ 0) : Turned k 0 k :=
  ⟨h, hr, fun _ => rfl, rfl⟩

theorem Steady.chainStep (h : Steady k e) : ChainStep E k e := by
  cases e with
  | execute command => exact fun _ => h
  | halt status => exact fun hbase => absurd hbase h.1
  | _ => trivial

theorem SameProcesses.turned (h : SameProcesses k k') (hk : Turned k0 n k) : Turned k0 n k' := by
  refine ⟨h.counted hk.counted, by rw [h.running]; exact hk.running, fun t => ?_, ?_⟩
  · rw [busy, h.getActiveProcess]
    exact hk.terminals t
  · rw [turn, Kernel.current, h.running, h.termNum]
    exact hk.turns

/-- The terminal of the running process is one of the three, and the running process is on top. -/
theorem turn_spec (hk : Stacked k) (hr : k.running ≠ 0) : (turn k : ℤ) = k.current.termNum ∧
    turn k < maxTerminals ∧ getActiveProcess k (turn k) = some k.running := by
  obtain ⟨h0, h3⟩ := (hk.wf.current_ok hr).term
  have hturn : (turn k : ℤ) = k.current.termNum := Int.toNat_of_nonneg h0
  have htop := hk.onTop hr
  rw [← hturn] at htop
  refine ⟨hturn, ?_, htop⟩
  have hlt : (turn k : ℤ) < maxTerminals := hturn ▸ h3
  exact_mod_cast hlt

/-- The scheduler looks for a process in the order of the turns. -/
theorem nextPid_eq (k : Kernel) (r : ℕ) : nextPid k r =
    (Rotation.places maxTerminals r).findSome? fun t : ℕ => getActiveProcess k t := by
  have hplaces : Rotation.places maxTerminals r = [(r + 1) % 3, (r + 2) % 3, (r + 3) % 3] := rfl
  have htmod : ∀ i : ℕ, ((r : ℤ) + i).tmod maxTerminals = ((r + i) % 3 : ℕ) := by
    intro i
    exact_mod_cast Int.ofNat_tmod (r + i) 3
  have h1 := htmod 1
  have h2 := htmod 2
  have h3 := htmod 3
  simp only [Nat.cast_ofNat, Nat.cast_one] at h1 h2 h3
  rw [nextPid, hplaces]
  simp only [List.findSome?_cons, List.findSome?_nil, h1, h2, h3]

/-- The scheduler switches to the process on top of the next terminal. -/
theorem schedule_turn (hk : Stacked k) (hr : k.running ≠ 0) {frame : Token}
    (h : schedule frame k = some k') : k'.running ≠ 0 ∧ turn k' = nextTurn k (turn k) ∧
      ∀ t, getActiveProcess k' t = getActiveProcess k t := by
  obtain ⟨hturn, hlt, htop⟩ := turn_spec hk hr
  have hbusy : (getActiveProcess k (turn k)).isSome = true := by
    rw [htop]
    rfl
  obtain ⟨next, hnext, hcases⟩ := schedule_spec h
  rw [← hturn, nextPid_eq, Rotation.findSome?_places _ _ _ hbusy hlt] at hnext
  have hstacked' := stacked_schedule hk h
  obtain ⟨F, hF⟩ := hk.chains.1
  have hterm := hF.term_of_active hnext
  have hused := hk.wf.active_used _ _ hnext
  have hpid : k.current.pid = k.running := (hk.wf.current_ok hr).pid
  rcases hcases with ⟨hself, rfl⟩ | ⟨-, rfl⟩
  · refine ⟨hr, ?_, fun _ => rfl⟩
    rw [← hself, hpid] at hterm
    exact_mod_cast hturn.trans hterm
  · refine ⟨hk.wf.used_ne_zero hused, ?_, fun _ => rfl⟩
    show ((k.pcb next).termNum).toNat = _
    rw [hterm]
    rfl

/-- A tick without a shell to start. -/
theorem turned_tick (hk : Turned k0 n k) (hg : k.nextExecute = false)
    (h : step E k .tick = some k') : Turned k0 (n + 1) k' := by
  have hcounted' := counted_step (e := .tick) hk.counted trivial h
  obtain ⟨k1, hk1, rfl⟩ := Option.map_eq_some_iff.1 h
  obtain ⟨hcounted, hr, hterminals, hturns⟩ := (SameProcesses.advanceClock k).turned hk
  obtain ⟨F, hF⟩ := hcounted.stacked.chains.1
  rcases pitHandlerMain_spec hk1 with ⟨hproc, -⟩ | ⟨-, ⟨hnext, -⟩ | ⟨hnext, -⟩ | ⟨-, hs⟩⟩
  · exact absurd hproc (hcounted.count.ne_zero
      (hF.allocated_of_active (hcounted.stacked.onTop hr)))
  · exact absurd (hg.symm.trans hnext) (by decide)
  · exact absurd (hg.symm.trans hnext) (by decide)
  · obtain ⟨frame, hframe⟩ : ∃ frame : Token, ⟨.pit, k.advanceClock.clock⟩ = frame := ⟨_, rfl⟩
    rw [hframe] at hs
    have hsaved := stacked_saveContext hcounted.stacked frame k.nextExecute
    obtain ⟨hr1, hturn1, hactive⟩ := schedule_turn hsaved hr hs
    have hsame : nextTurn { saveContext frame k.advanceClock with nextExecute := k.nextExecute } =
        nextTurn k0 := by
      rw [nextTurn, nextTurn]
      exact congrArg (Rotation.next · maxTerminals) (funext hterminals)
    have hturn : turn { saveContext frame k.advanceClock with nextExecute := k.nextExecute } =
        turn k.advanceClock := by
      show ((saveContext frame k.advanceClock).pcb k.running).termNum.toNat = _
      rw [saveContext_pcb]
      rfl
    refine ⟨hcounted', hr1, fun t => ?_, ?_⟩
    · show (getActiveProcess k1 t).isSome = _
      rw [hactive t]
      exact hterminals t
    · show turn k1 = _
      rw [hturn1, hsame, hturn, hturns, Function.iterate_succ_apply']

/-- A program is started on the terminal of its caller. -/
theorem turned_execute (hk : Turned k0 n k) (hc : currTerminalRunningProcess k = true)
    {site : Site} {command : CString} (h : execute E site command k = some k')
    (hcounted : Counted k') : Turned k0 n k' := by
  obtain ⟨hturn, hlt, htop⟩ := turn_spec hk.counted.stacked hk.running
  have hrange := (hk.counted.stacked.wf.current_ok hk.running).term
  obtain ⟨pid, dentry, args, -, h1, -, -, rfl⟩ := execute_spec h
  have hterm : newTerm (takeSlot k pid) = k.current.termNum := if_pos hc
  have hactive : ∀ u, getActiveProcess (startProcess E site pid dentry args (takeSlot k pid)) u =
      if u = newTerm (takeSlot k pid) then some pid else getActiveProcess (takeSlot k pid) u :=
    getActiveProcess_startProcess (by rw [hterm]; exact hrange)
  refine ⟨hcounted, Nat.pos_iff_ne_zero.1 h1, fun t => ?_, ?_⟩
  · rw [← hk.terminals t, busy, hactive, hterm, ← hturn]
    split_ifs with ht
    · obtain rfl : t = turn k := by exact_mod_cast ht
      rw [busy, htop]
      rfl
    · rfl
  · rw [← hk.turns]
    show ((Kernel.pcb _ pid).termNum).toNat = _
    rw [startProcess_pcb_self]
    exact congrArg Int.toNat hterm

/-- A program that another one has started returns to it on the same terminal. -/
theorem turned_halt (hk : Turned k0 n k) (hparent : k.current.parentPcb ≠ none)
    (hsite : k.current.espParent.site = .syscall) {status : UInt8}
    (h : halt E status k = some k') (hcounted : Counted k') : Turned k0 n k' := by
  obtain ⟨hturn, hlt, htop⟩ := turn_spec hk.counted.stacked hk.running
  obtain ⟨d, hfinish⟩ := halt_spec h
  rcases haltFinish_spec hfinish with ⟨parent, hp, hcont⟩ | ⟨hbase, -⟩
  · rw [halted_current] at hp hcont
    rw [continueFrame, hsite] at hcont
    obtain rfl : returnToParent parent status (halted k d) = k' := Option.some.inj hcont
    have hw := hk.counted.stacked.wf
    obtain ⟨F, hF⟩ := hk.counted.stacked.chains.1
    have hmem : parent ∈ F.stack k.current.termNum :=
      (hF.chain _).next_mem (hF.mem_of_active (hk.counted.stacked.onTop hk.running)) hp
    have hterm : (k.pcb parent).termNum = k.current.termNum := hF.term _ _ hmem
    have hused : Used k parent := (hw.current_ok hk.running).parent parent hp
    have hrange : 0 ≤ ((halted k d).pcb parent).termNum ∧
        ((halted k d).pcb parent).termNum < maxTerminals := by
      rw [halted_pcb]
      exact (hw.pcb_ok parent hused).term
    refine ⟨hcounted, hw.used_ne_zero hused, fun t => ?_, ?_⟩
    · rw [← hk.terminals t, busy, getActiveProcess_returnToParent hrange, halted_pcb, hterm,
        ← hturn, getActiveProcess_halted]
      split_ifs with ht
      · obtain rfl : t = turn k := by exact_mod_cast ht
        rw [busy, htop]
        rfl
      · rfl
    · rw [← hk.turns]
      show (((halted k d).pcb parent).termNum).toNat = _
      rw [halted_pcb, hterm]
      rfl
  · rw [halted_current] at hbase
    exact absurd hbase hparent

/-- The other events leave the turn where it is. -/
theorem turned_event (hk : Turned k0 n k) (hg : Steady k e) (hno : e.isTick = false)
    (h : step E k e = some k') : Turned k0 n k' := by
  have hcounted' := counted_step hk.counted hg.chainStep h
  obtain ⟨k1, hk1, rfl⟩ := Option.map_eq_some_iff.1 h
  have hadv := (SameProcesses.advanceClock k).turned hk
  have hiflag := SameProcesses.setIflag k1 true
  have hback : SameProcesses (k1.setIflag true) k1 :=
    ⟨rfl, rfl, rfl, rfl, rfl, rfl, rfl, rfl, rfl, rfl, rfl, le_rfl, fun _ => rfl, fun _ _ => rfl,
      fun _ _ _ _ h => h, fun h => h⟩
  have hcounted1 := hback.counted hcounted'
  refine hiflag.turned ?_
  cases effect_of_dispatch hk1 with
  | tick => exact absurd hno (by decide)
  | key t hstart =>
    have hsome : getActiveProcess k.advanceClock t ≠ none := Option.isSome_iff_ne_none.1 hg
    obtain ⟨-, hr, hterminals, hturns⟩ := hadv
    rcases startTerminal_spec hstart with
      ⟨-, rfl⟩ | ⟨-, -, -, ⟨-, rfl⟩ | ⟨hnone, -⟩ | ⟨hnone, -⟩⟩
    · exact ⟨hcounted1, hr, hterminals, hturns⟩
    · exact ⟨hcounted1, hr, hterminals, hturns⟩
    · exact absurd hnone hsome
    · exact absurd hnone hsome
  | executed command hr hexec => exact turned_execute hadv hg hexec hcounted1
  | notExecuted => exact (SameProcesses.eax k.advanceClock (-1)).turned hadv
  | halt status hr hend => exact turned_halt hadv hg.1 hg.2 hend hcounted1
  | _ => exact (sameProcesses_dispatch (by trivial) hk1).turned hadv

/-- A run of steady steps. -/
theorem turned_run {es : List Event} (hk : Turned k0 n k) (hg : Guarded (step E) Steady k es)
    (h : run (step E) k es = some k') : Turned k0 (n + ticks es) k' := by
  induction es generalizing k n with
  | nil =>
    cases h
    exact hk
  | cons e es ih =>
    obtain ⟨k1, hk1, hrest⟩ := run_cons_eq_some.1 h
    obtain ⟨hgood, hg'⟩ := (guarded_cons hk1).1 hg
    cases htick : e.isTick with
    | false =>
      have hcount : ticks (e :: es) = ticks es :=
        List.countP_cons_of_neg (by rw [htick]; exact Bool.false_ne_true)
      rw [hcount]
      exact ih (turned_event hk hgood htick hk1) hg' hrest
    | true =>
      have hcount : ticks (e :: es) = ticks es + 1 := List.countP_cons_of_pos htick
      obtain rfl := Event.eq_tick htick
      rw [hcount, Nat.add_comm (ticks es), ← Nat.add_assoc]
      exact ih (turned_tick hk hgood hk1) hg' hrest

/-- A run with enough ticks has a part with a given number of them. -/
theorem exists_prefix_ticks {es : List Event} {i : ℕ} (h : i ≤ ticks es) :
    ∃ fs, fs <+: es ∧ ticks fs = i := by
  induction es generalizing i with
  | nil => exact ⟨[], List.prefix_rfl, (Nat.le_zero.1 h).symm⟩
  | cons e es ih =>
    rcases Nat.eq_zero_or_pos i with rfl | hi
    · exact ⟨[], List.nil_prefix, rfl⟩
    cases htick : e.isTick with
    | false =>
      have hcount : ∀ fs, ticks (e :: fs) = ticks fs := fun fs =>
        List.countP_cons_of_neg (by rw [htick]; exact Bool.false_ne_true)
      rw [hcount] at h
      obtain ⟨fs, hfs, hi⟩ := ih h
      exact ⟨e :: fs, (List.prefix_cons_inj e).2 hfs, (hcount fs).trans hi⟩
    | true =>
      have hcount : ∀ fs, ticks (e :: fs) = ticks fs + 1 := fun fs =>
        List.countP_cons_of_pos htick
      rw [hcount] at h
      obtain ⟨fs, hfs, hsub⟩ := ih (i := i - 1) (by omega)
      exact ⟨e :: fs, (List.prefix_cons_inj e).2 hfs, by rw [hcount, hsub]; omega⟩

/-- What holds between the start of the machine and the first turn. -/
theorem counted_run {es : List Event} (hg : Guarded (step E) (ChainStep E) (boot E) es)
    (h : run (step E) (boot E) es = some k) : Counted k :=
  invariant_of_guarded (fun _ _ _ hk hg h => counted_step hk hg h) (counted_boot E) hg h

/-- Two terminals have a shell. -/
def twoBusy : List Event := [.key 0, .key 1, .tick]

theorem run_twoBusy :
    run (step small) (boot small) twoBusy = some (smallState twoBusy) ∧
      Guarded (step small) (ChainStep small) (boot small) twoBusy :=
  ⟨run_smallState (by decide +kernel), by decide +kernel⟩

/-- The processes of the three terminals, one terminal after the other. -/
def allProcesses (F : StackFamily ℤ ℕ) : List ℕ :=
  (List.range maxTerminals).flatMap fun t : ℕ => F.stack t

theorem nodup_allProcesses (F : StackFamily ℤ ℕ) : (allProcesses F).Nodup := by
  refine List.nodup_flatMap.2 ⟨fun t _ => F.nodup t, ?_⟩
  have hrange : (List.range maxTerminals).Pairwise (· ≠ ·) := List.nodup_range
  exact hrange.imp fun hab => F.disjoint _ _ (by exact_mod_cast hab)

/-- A process is on a stack of one of the three terminals. -/
theorem mem_allProcesses {F : StackFamily ℤ ℕ} (hF : Represents k F) {p : ℕ} :
    p ∈ allProcesses F ↔ Allocated k p := by
  rw [hF.allocated p, allProcesses, List.mem_flatMap]
  constructor
  · rintro ⟨t, -, hp⟩
    exact ⟨t, hp⟩
  · rintro ⟨t, hp⟩
    have hrange : 0 ≤ t ∧ t < maxTerminals := by
      by_contra hout
      have hchain := hF.chain t
      rw [getActiveProcess, if_neg hout] at hchain
      cases hstack : F.stack t with
      | nil =>
        rw [hstack] at hp
        exact absurd hp List.not_mem_nil
      | cons a l =>
        rw [hstack] at hchain
        exact absurd hchain.1 (by simp)
    obtain ⟨n, rfl⟩ := Int.eq_ofNat_of_zero_le hrange.1
    exact ⟨n, List.mem_range.2 (by exact_mod_cast hrange.2), hp⟩

/-- **`proc_count` is the number of processes on the three stacks**, wherever the processes form
stacks. -/
theorem process_count {es : List Event} (hg : Guarded (step E) (ChainStep E) (boot E) es)
    (h : run (step E) (boot E) es = some k) : ∃ F, Represents k F ∧
      processes k = ((List.range maxTerminals).map fun t : ℕ => (F.stack t).length).sum ∧
      processes k ≤ maxProcesses := by
  obtain ⟨hstacked, hcount⟩ := counted_run hg h
  obtain ⟨F, hF⟩ := hstacked.chains.1
  have hinj : ∀ p ∈ allProcesses F, ∀ q ∈ allProcesses F, p - 1 = q - 1 → p = q := by
    intro p hp q hq hpq
    have hp1 := ((mem_allProcesses hF).1 hp).1
    have hq1 := ((mem_allProcesses hF).1 hq).1
    omega
  have hslots : (Finset.range maxProcesses).filter (fun i => k.procs i = true) =
      ((allProcesses F).map (· - 1)).toFinset := by
    ext i
    rw [Finset.mem_filter, Finset.mem_range, List.mem_toFinset, List.mem_map]
    constructor
    · rintro ⟨hi, hset⟩
      exact ⟨i + 1, (mem_allProcesses hF).2 ⟨Nat.succ_pos i, hi, hset⟩, Nat.add_sub_cancel i 1⟩
    · rintro ⟨p, hp, rfl⟩
      obtain ⟨h1, h6, hset⟩ := (mem_allProcesses hF).1 hp
      exact ⟨by omega, hset⟩
  refine ⟨F, hF, ?_, hcount.le⟩
  show k.procCount = _
  rw [hcount, hslots, List.toFinset_card_of_nodup ((nodup_allProcesses F).map_on hinj),
    List.length_map, allProcesses, List.length_flatMap]

theorem process_count_small : ∃ F, Represents (smallState twoBusy) F ∧
    processes (smallState twoBusy) =
      ((List.range maxTerminals).map fun t : ℕ => (F.stack t).length).sum ∧
    processes (smallState twoBusy) ≤ maxProcesses :=
  process_count run_twoBusy.2 run_twoBusy.1

/-- **The order of the turns.**  While no terminal gets its first shell and none loses its last
process, `n` ticks take the processor `n` times to the next terminal that has a process, and the
process on top of that terminal runs. -/
theorem order_of_turns {es fs : List Event} (hg0 : Guarded (step E) (ChainStep E) (boot E) es)
    (h0 : run (step E) (boot E) es = some k) (hr : k.running ≠ 0)
    (hg : Guarded (step E) Steady k fs) (h : run (step E) k fs = some k') :
    turn k' = (nextTurn k)^[ticks fs] (turn k) ∧
      getActiveProcess k' (turn k') = some k'.running ∧ ∀ t, busy k' t = busy k t := by
  have hk' := turned_run ((counted_run hg0 h0).turned hr) hg h
  rw [Nat.zero_add] at hk'
  exact ⟨hk'.turns, (turn_spec hk'.counted.stacked hk'.running).2.2, hk'.terminals⟩

/-- Two ticks with the start of a program between them. -/
def twoTurns : List Event := [.tick, .execute shell, .tick]

theorem run_twoTurns :
    run (step small) (smallState twoBusy) twoTurns =
        some (smallState (twoBusy ++ twoTurns)) ∧
      Guarded (step small) Steady (smallState twoBusy) twoTurns :=
  ⟨run_smallState_append (by decide +kernel), by decide +kernel⟩

theorem order_of_turns_small : turn (smallState (twoBusy ++ twoTurns)) = 1 := by
  rw [(order_of_turns run_twoBusy.2 run_twoBusy.1 (by decide +kernel) run_twoTurns.2
    run_twoTurns.1).1]
  decide +kernel

/-- **No terminal is left out.**  As many ticks as there are terminals with a process give each of
them a turn. -/
theorem every_terminal_runs {es fs : List Event} {t : ℕ}
    (hg0 : Guarded (step E) (ChainStep E) (boot E) es) (h0 : run (step E) (boot E) es = some k)
    (hr : k.running ≠ 0) (hg : Guarded (step E) Steady k fs)
    (h : run (step E) k fs = some k') (ht : busy k t = true) (hticks : busyTerminals k ≤ ticks fs) :
    ∃ gs k1, gs <+: fs ∧ 1 ≤ ticks gs ∧ run (step E) k gs = some k1 ∧
      getActiveProcess k1 t = some k1.running := by
  have hk := (counted_run hg0 h0).turned hr
  obtain ⟨-, hlt, -⟩ := turn_spec hk.counted.stacked hr
  have ht3 : t < maxTerminals := by
    rw [busy, getActiveProcess] at ht
    split_ifs at ht with hrange
    · exact_mod_cast hrange.2
    · exact absurd ht (by decide)
  obtain ⟨i, hi1, hi, hiter⟩ := Rotation.exists_iterate_next hlt ht3 ht
  obtain ⟨gs, ⟨rest, rfl⟩, hgs⟩ := exists_prefix_ticks (hi.trans hticks)
  obtain ⟨k1, hk1, -⟩ := run_append_eq_some.1 h
  have hturned := turned_run hk ((guarded_append hk1).1 hg).1 hk1
  obtain ⟨-, -, htop⟩ := turn_spec hturned.counted.stacked hturned.running
  have hturn : turn k1 = t := by
    rw [hturned.turns, Nat.zero_add, hgs]
    exact hiter
  exact ⟨gs, k1, List.prefix_append gs rest, by omega, hk1, hturn ▸ htop⟩

theorem every_terminal_runs_small : ∃ gs k1, gs <+: twoTurns ∧ 1 ≤ ticks gs ∧
    run (step small) (smallState twoBusy) gs = some k1 ∧
      getActiveProcess k1 0 = some k1.running :=
  every_terminal_runs (t := 0) run_twoBusy.2 run_twoBusy.1 (by decide +kernel)
    run_twoTurns.2 run_twoTurns.1 (by decide +kernel) (by decide +kernel)

end Turns

end LinuxIsLove
