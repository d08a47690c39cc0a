import LinuxIsLove.Chains

/-!
# Shells that are left to the next tick

A shortcut to a terminal without a process asks for a shell there.  If the terminal that was
displayed has a process the shell is left to the next tick, in a single slot that does not say for
which terminal; the tick starts it for the displayed terminal, or as a child of the running process
if the displayed terminal has a process by then.

Runs of shortcuts and ticks are cut into windows: the shortcuts between two ticks, and the tick that
ends them.  `deferred_iff` says which windows serve the requests made in them.
-/

namespace LinuxIsLove

open Bytes EventMachine

/-- The shortcuts between two ticks. -/
def presses (ts : List ℕ) : List Event := ts.map .key

/-- The shortcuts between two ticks, and the tick that ends them. -/
def windowStep (E : Env) (k : Kernel) (ts : List ℕ) : Option Kernel :=
  run (step E) k (presses ts ++ [.tick])

/-- An accepted shortcut to a terminal without a process. -/
def request (k : Kernel) : Event → List ℤ
  | .key t =>
    if startTerminalAccepts k t = true ∧ getActiveProcess k t = none then [(t : ℤ)] else []
  | _ => []

/-- The terminals for which a shell is asked in a window. -/
def requests (E : Env) (k : Kernel) (ts : List ℕ) : List ℤ :=
  outputs (step E) request k (presses ts)

/-- The processes started for some requests: one base shell for each terminal, and no others. -/
structure Served (terms : List ℤ) (new : List Start) : Prop where
  one : ∀ t ∈ terms, (new.filter fun s => s.term = t ∧ s.parent = none).length = 1
  requested : ∀ s ∈ new, s.parent = none ∧ s.term ∈ terms

/-- At the end of the window its requests are served. -/
def WindowOk (E : Env) (k : Kernel) (ts : List ℕ) : Prop :=
  ∀ k', windowStep E k ts = some k' →
    ∃ new, k'.starts = new ++ k.starts ∧ Served (requests E k ts) new

/-- At the tick no shell is left to start, or the displayed terminal has no process and all other
terminals for which a shell was asked have one. -/
def WindowCondition (E : Env) (k : Kernel) (ts : List ℕ) : Prop :=
  ∀ k1, run (step E) k (presses ts) = some k1 → k1.nextExecute = true →
    getActiveProcess k1 k1.currentTerminal = none ∧
      ∀ t ∈ requests E k ts, t ≠ k1.currentTerminal → getActiveProcess k1 t ≠ none

/-- At the tick there is a free slot. -/
def SlotFree (E : Env) (k : Kernel) (ts : List ℕ) : Prop :=
  ∀ k1, run (step E) k (presses ts) = some k1 → FreeSlot k1

instance (E : Env) (k : Kernel) (ts : List ℕ) : Decidable (SlotFree E k ts) := by
  unfold SlotFree
  infer_instance

/-! ### The number of processes -/

/-- `proc_count` is the number of slots that are taken. -/
def CountOk (k : Kernel) : Prop :=
  k.procCount = ((Finset.range maxProcesses).filter fun i => k.procs i = true).card

theorem CountOk.le {k : Kernel} (hc : CountOk k) : k.procCount ≤ maxProcesses := by
  rw [hc]
  exact (Finset.card_filter_le _ _).trans (by rw [Finset.card_range])

theorem countOk_takeSlot {k : Kernel} {pid : ℕ} (hc : CountOk k) (h1 : 1 ≤ pid)
    (h6 : pid ≤ maxProcesses) (hfree : ¬ Allocated k pid) : CountOk (takeSlot k pid) := by
  have hnot : k.procs (pid - 1) ≠ true := fun hset => hfree ⟨h1, h6, hset⟩
  have hfilter : ((Finset.range maxProcesses).filter fun i => (takeSlot k pid).procs i = true) =
      insert (pid - 1) ((Finset.range maxProcesses).filter fun i => k.procs i = true) := by
    ext i
    simp only [takeSlot, Function.update_apply, Finset.mem_filter, Finset.mem_insert,
      Finset.mem_range]
    by_cases hi : i = pid - 1
    · subst hi
      simp
      omega
    · simp [hi]
  have hle := hc.le
  have hcard := Finset.card_insert_of_notMem
    (show pid - 1 ∉ (Finset.range maxProcesses).filter fun i => k.procs i = true by
      simp [hnot])
  show (k.procCount + 1) % 2 ^ 32 = _
  rw [hfilter, hcard, ← hc, Nat.mod_eq_of_lt]
  simp only [maxProcesses] at hle
  omega

/-- While a process is allocated, the count is not zero. -/
theorem CountOk.ne_zero {k : Kernel} {p : ℕ} (hc : CountOk k) (hp : Allocated k p) :
    processes k ≠ 0 := by
  have hmem : p - 1 ∈ (Finset.range maxProcesses).filter fun i => k.procs i = true := by
    have h1 := hp.1
    have h6 := hp.2.1
    rw [Finset.mem_filter, Finset.mem_range]
    exact ⟨by omega, hp.2.2⟩
  show k.procCount ≠ 0
  rw [hc]
  exact Finset.card_ne_zero_of_mem hmem

section Execute

variable {E : Env} {k k' : Kernel} {site : Site} {command : CString}

theorem countOk_execute (hc : CountOk k) (h : execute E site command k = some k') : CountOk k' := by
  obtain ⟨pid, dentry, args, -, h1, h6, hfree, rfl⟩ := execute_spec h
  exact countOk_takeSlot hc h1 h6 hfree

/-- While the displayed terminal has no process, `execute` starts its base shell. -/
theorem execute_base (ht : 0 ≤ k.currentTerminal ∧ k.currentTerminal < maxTerminals)
    (hnone : getActiveProcess k k.currentTerminal = none)
    (h : execute E site command k = some k') :
    ∃ s pid, k'.starts = s :: k.starts ∧ s.parent = none ∧ s.term = k.currentTerminal ∧
      ∀ u, getActiveProcess k' u = if u = k.currentTerminal then some pid
        else getActiveProcess k u := by
  obtain ⟨pid, dentry, args, -, -, -, -, rfl⟩ := execute_spec h
  have hcurr : currTerminalRunningProcess (takeSlot k pid) ≠ true := by
    show (getActiveProcess k k.currentTerminal).isSome ≠ true
    rw [hnone]
    exact Bool.false_ne_true
  have hterm : newTerm (takeSlot k pid) = k.currentTerminal := if_neg hcurr
  refine ⟨_, pid, rfl, if_neg hcurr, hterm, fun u => ?_⟩
  rw [← hterm]
  apply getActiveProcess_startProcess (k := takeSlot k pid)
  rw [hterm]
  exact ht

/-- While the displayed terminal has a process, the new process has a parent. -/
theorem execute_child (hsome : getActiveProcess k k.currentTerminal ≠ none)
    (h : execute E site command k = some k') :
    ∃ s, k'.starts = s :: k.starts ∧ s.parent ≠ none := by
  obtain ⟨pid, dentry, args, -, -, -, -, rfl⟩ := execute_spec h
  have hcurr : currTerminalRunningProcess (takeSlot k pid) = true :=
    Option.isSome_iff_ne_none.2 hsome
  refine ⟨_, rfl, ?_⟩
  show newParent (takeSlot k pid) ≠ none
  rw [newParent, if_pos hcurr]
  exact Option.some_ne_none _

end Execute

/-! ### Shortcuts -/

/-- What holds between two windows. -/
structure Ready (E : Env) (k : Kernel) : Prop where
  stacked : Stacked k
  count : CountOk k
  shell : k.running ≠ 0 → (checkExecutable E.img shell).isSome = true
  empty : k.nextExecute = false

/-- What holds during a window that began in the state `k0`, once shells were asked for the
terminals of `terms` and the processes of `new` were started. -/
structure Pressing (E : Env) (k0 : Kernel) (terms : List ℤ) (new : List Start) (k : Kernel) :
    Prop where
  stacked : Stacked k
  count : CountOk k
  shell : k.running ≠ 0 → (checkExecutable E.img shell).isSome = true
  starts : k.starts = new ++ k0.starts
  base : ∀ s ∈ new, s.parent = none ∧ s.term ∈ terms
  distinct : (new.map Start.term).Nodup
  active : ∀ s ∈ new, getActiveProcess k s.term ≠ none
  started : ∀ t ∈ terms, getActiveProcess k t ≠ none → t ∈ new.map Start.term
  pending : k.nextExecute = false → ∀ t ∈ terms, getActiveProcess k t ≠ none
  idle : k.nextExecute = true → k.running ≠ 0
  displayed : getActiveProcess k k.currentTerminal ≠ none ∨ k.currentTerminal ∈ terms ∨
    (terms = [] ∧ k.nextExecute = false)

section Presses

variable {E : Env} {k k' k0 : Kernel} {terms : List ℤ} {new : List Start}

theorem Ready.pressing (h : Ready E k) : Pressing E k [] [] k where
  stacked := h.stacked
  count := h.count
  shell := h.shell
  starts := rfl
  base s hs := by simp at hs
  distinct := List.nodup_nil
  active s hs := by simp at hs
  started t ht := by simp at ht
  pending _ t ht := by simp at ht
  idle hnext := by
    rw [h.empty] at hnext
    exact absurd hnext (by decide)
  displayed := Or.inr (Or.inr ⟨rfl, h.empty⟩)

theorem SameProcesses.pressing (h : SameProcesses k k') (hp : Pressing E k0 terms new k) :
    Pressing E k0 terms new k' where
  stacked := h.stacked hp.stacked
  count := by
    rw [CountOk, h.procCount, h.procs]
    exact hp.count
  shell hr := hp.shell (by rwa [h.running] at hr)
  starts := h.starts.trans hp.starts
  base := hp.base
  distinct := hp.distinct
  active s hs := by
    rw [h.getActiveProcess]
    exact hp.active s hs
  started t ht hact := hp.started t ht (by rwa [h.getActiveProcess] at hact)
  pending hnext t ht := by
    rw [h.nextExecute] at hnext
    rw [h.getActiveProcess]
    exact hp.pending hnext t ht
  idle hnext := by
    rw [h.nextExecute] at hnext
    rw [h.running]
    exact hp.idle hnext
  displayed := by
    rw [h.getActiveProcess, h.currentTerminal, h.nextExecute]
    exact hp.displayed

/-- A shortcut to a terminal that has a process displays it. -/
theorem pressing_display (hp : Pressing E k0 terms new k) {t : ℕ} (ht : (t : ℤ) < maxTerminals)
    (hactive : getActiveProcess k t ≠ none) :
    Pressing E k0 terms new { k with currentTerminal := t } where
  stacked := stacked_display hp.stacked ht k.nextExecute
  count := hp.count
  shell := hp.shell
  starts := hp.starts
  base := hp.base
  distinct := hp.distinct
  active := hp.active
  started := hp.started
  pending := hp.pending
  idle := hp.idle
  displayed := Or.inl hactive

/-- A shortcut that leaves a shell to the next tick. -/
theorem pressing_defer (hp : Pressing E k0 terms new k) {t : ℕ} (ht : (t : ℤ) < maxTerminals)
    (hnone : getActiveProcess k t = none) (hcurr : getActiveProcess k k.currentTerminal ≠ none) :
    Pressing E k0 (terms ++ [(t : ℤ)]) new
      { k with currentTerminal := t, nextExecute := true } where
  stacked := stacked_display hp.stacked ht true
  count := hp.count
  shell := hp.shell
  starts := hp.starts
  base s hs := ⟨(hp.base s hs).1, List.mem_append_left _ (hp.base s hs).2⟩
  distinct := hp.distinct
  active := hp.active
  started u hu hact := by
    rcases List.mem_append.1 hu with hu | hu
    · exact hp.started u hu hact
    · rw [List.mem_singleton] at hu
      subst hu
      exact absurd hnone hact
  pending hnext := absurd (show true = false from hnext) (by decide)
  idle _ := by
    obtain ⟨p, hactive⟩ := Option.ne_none_iff_exists'.1 hcurr
    exact hp.stacked.wf.running_ne_zero (hp.stacked.wf.active_used _ p hactive)
  displayed := Or.inr (Or.inl (List.mem_append_right _ List.mem_cons_self))

/-- A terminal without a process got no shell so far. -/
theorem Pressing.not_started (hp : Pressing E k0 terms new k) {t : ℤ}
    (hnone : getActiveProcess k t = none) : t ∉ new.map Start.term := by
  intro hmem
  obtain ⟨s, hs, rfl⟩ := List.mem_map.1 hmem
  exact hp.active s hs hnone

/-- A shell started for a terminal without a process is the first one for it. -/
theorem Pressing.distinct_cons (hp : Pressing E k0 terms new k) {s : Start}
    (hnone : getActiveProcess k s.term = none) : ((s :: new).map Start.term).Nodup := by
  rw [List.map_cons, List.nodup_cons]
  exact ⟨hp.not_started hnone, hp.distinct⟩

/-- A shortcut that starts a shell at once. -/
theorem pressing_start (hp : Pressing E k0 terms new k) {t : ℕ} (ht : (t : ℤ) < maxTerminals)
    (hnone : getActiveProcess k t = none)
    (h : execute E .keyboard shell { k with currentTerminal := t } = some k') :
    ∃ s, Pressing E k0 (terms ++ [(t : ℤ)]) (s :: new) k' := by
  have hdisplay := stacked_display hp.stacked ht k.nextExecute
  have hstacked := stacked_execute hdisplay (Int.natCast_nonneg t) (Or.inl (by decide)) h
  have hcount : CountOk k' := countOk_execute (k := { k with currentTerminal := t }) hp.count h
  have hshell : (checkExecutable E.img shell).isSome = true :=
    (execute_isSome_iff.1 (show (execute E .keyboard shell _).isSome = true by rw [h]; rfl)).1
  obtain ⟨hrunning, -, hdisplayed, hnext⟩ := execute_registers h
  obtain ⟨s, pid, hstarts, hparent, hterm, hactive⟩ :=
    execute_base (k := { k with currentTerminal := t }) ⟨Int.natCast_nonneg t, ht⟩ hnone h
  have hkept : ∀ u, getActiveProcess k u ≠ none → getActiveProcess k' u ≠ none := by
    intro u hu
    rw [hactive]
    split_ifs
    · exact Option.some_ne_none _
    · exact hu
  have hown : getActiveProcess k' t ≠ none := by
    rw [hactive]
    simp
  refine ⟨s, hstacked, hcount, fun _ => hshell, ?_, ?_, ?_, ?_, ?_, ?_, fun _ => hrunning, ?_⟩
  · rw [hstarts, hp.starts]
    rfl
  · intro s' hs'
    rcases List.mem_cons.1 hs' with rfl | hs'
    · exact ⟨hparent, by rw [hterm]; simp⟩
    · exact ⟨(hp.base s' hs').1, List.mem_append_left _ (hp.base s' hs').2⟩
  · exact hp.distinct_cons (by rw [hterm]; exact hnone)
  · intro s' hs'
    rcases List.mem_cons.1 hs' with rfl | hs'
    · rw [hterm]
      exact hown
    · exact hkept _ (hp.active s' hs')
  · intro u hu hact
    by_cases hut : u = t
    · rw [hut, List.map_cons, hterm]
      exact List.mem_cons_self
    · rw [hactive, if_neg hut] at hact
      rw [List.map_cons]
      rcases List.mem_append.1 hu with hu | hu
      · exact List.mem_cons_of_mem _ (hp.started u hu hact)
      · exact absurd (List.mem_singleton.1 hu) hut
  · intro hfalse u hu
    -- the shortcut left the request as it was
    have hfalse' : k.nextExecute = false := hnext.symm.trans hfalse
    rcases List.mem_append.1 hu with hu | hu
    · exact hkept u (hp.pending hfalse' u hu)
    · rw [List.mem_singleton.1 hu]
      exact hown
  · left
    rw [hdisplayed]
    exact hown

/-- One shortcut. -/
theorem pressing_step {t : ℕ} (hp : Pressing E k0 terms new k)
    (h : step E k (.key t) = some k') :
    ∃ new', Pressing E k0 (terms ++ request k (.key t)) new' k' := by
  have hp0 := (SameProcesses.advanceClock k).pressing hp
  obtain ⟨k1, hk1, rfl⟩ := Option.map_eq_some_iff.1 h
  have hend : ∀ {terms new}, Pressing E k0 terms new k1 →
      Pressing E k0 terms new (k1.setIflag true) := (SameProcesses.setIflag k1 true).pressing
  have haccepts : startTerminalAccepts k.advanceClock t = startTerminalAccepts k t := rfl
  have hactive : getActiveProcess k.advanceClock t = getActiveProcess k t := rfl
  rcases startTerminal_spec hk1 with ⟨hacc, rfl⟩ | ⟨hacc, ht, -, hcases⟩
  · refine ⟨new, hend ?_⟩
    rw [haccepts] at hacc
    simp only [request, hacc, Bool.false_eq_true, false_and, if_false, List.append_nil]
    exact hp0
  · rw [haccepts] at hacc
    rw [hactive] at hcases
    rcases hcases with ⟨hsome, rfl⟩ | ⟨hnone, hcurr, rfl⟩ | ⟨hnone, -, hexec⟩
    · refine ⟨new, hend ?_⟩
      simp only [request, hsome, and_false, if_false, List.append_nil]
      exact pressing_display hp0 ht hsome
    · refine ⟨new, hend ?_⟩
      simp only [request, hacc, hnone, and_self, if_true]
      exact pressing_defer hp0 ht hnone hcurr
    · obtain ⟨s, hs⟩ := pressing_start hp0 ht hnone hexec
      refine ⟨s :: new, hend ?_⟩
      simp only [request, hacc, hnone, and_self, if_true]
      exact hs

/-- The shortcuts of a window. -/
theorem pressing_run {ts : List ℕ} (hp : Pressing E k0 terms new k)
    (h : run (step E) k (presses ts) = some k') :
    ∃ new', Pressing E k0 (terms ++ requests E k ts) new' k' := by
  induction ts generalizing k terms new with
  | nil =>
    cases h
    exact ⟨new, by simpa [requests, presses, outputs] using hp⟩
  | cons t ts ih =>
    obtain ⟨k1, hk1, hrest⟩ :=
      run_cons_eq_some.1 (show run (step E) k (.key t :: presses ts) = _ from h)
    obtain ⟨new1, hp1⟩ := pressing_step hp hk1
    obtain ⟨new', hp'⟩ := ih hp1 hrest
    refine ⟨new', ?_⟩
    have hcons : requests E k (t :: ts) = request k (.key t) ++ requests E k1 ts :=
      outputs_cons hk1 _
    rwa [hcons, ← List.append_assoc]

end Presses

/-! ### The tick that ends a window -/

section Tick

variable {E : Env} {k k' k0 : Kernel} {terms : List ℤ} {new : List Start}

/-- What the tick of a window does. -/
structure Ticked (E : Env) (k k' : Kernel) : Prop where
  ready : Ready E k'
  /-- without a shell to start, no process is started -/
  kept : k.nextExecute = false → k'.starts = k.starts
  /-- otherwise one is: a base shell if the displayed terminal has no process, else a child -/
  started : k.nextExecute = true → ∃ s, k'.starts = s :: k.starts ∧
    (getActiveProcess k k.currentTerminal = none → s.parent = none ∧ s.term = k.currentTerminal) ∧
    (getActiveProcess k k.currentTerminal ≠ none → s.parent ≠ none)

theorem schedule_countOk (hc : CountOk k) {frame : Token} (h : schedule frame k = some k') :
    CountOk k' ∧ k'.starts = k.starts ∧ k'.nextExecute = k.nextExecute := by
  obtain ⟨next, -, ⟨-, rfl⟩ | ⟨-, rfl⟩⟩ := schedule_spec h
  · exact ⟨hc, rfl, rfl⟩
  · exact ⟨hc, rfl, rfl⟩

theorem ticked_pitHandlerMain (hp : Pressing E k0 terms new k)
    (hfree : FreeSlot k)
    (h : pitHandlerMain E k = some k') : Ticked E k k' := by
  have hstacked' := (closed_stacked E).pitHandlerMain hp.stacked h
  rcases pitHandlerMain_spec h with ⟨hproc, rfl⟩ | ⟨hproc, hcases⟩
  · -- no process, so no shell was left to start
    have hnext : k'.nextExecute = false := by
      by_contra hnext
      have hr := hp.idle (Bool.eq_true_of_not_eq_false hnext)
      obtain ⟨F, hF⟩ := hp.stacked.chains.1
      exact hp.count.ne_zero (hF.allocated_of_active (hp.stacked.onTop hr)) hproc
    refine ⟨⟨hstacked', hp.count, hp.shell, hnext⟩, fun _ => rfl, fun htrue => ?_⟩
    rw [hnext] at htrue
    exact absurd htrue (by decide)
  · have hr : k.running ≠ 0 := fun hr => hproc (hp.stacked.wf.idle hr).2
    have hshell := hp.shell hr
    have hcan : CanExecute E shell { saveContext ⟨.pit, k.clock⟩ k with nextExecute := false } :=
      ⟨hshell, hfree⟩
    rcases hcases with ⟨hnext, hexec⟩ | ⟨-, hnone, -⟩ | ⟨hnext, hs⟩
    · have hcount : CountOk k' :=
        countOk_execute (k := { saveContext ⟨.pit, k.clock⟩ k with nextExecute := false }) hp.count
          hexec
      have hempty : k'.nextExecute = false := (execute_registers hexec).2.2.2
      refine ⟨⟨hstacked', hcount, fun _ => hshell, hempty⟩, fun hfalse => ?_, fun _ => ?_⟩
      · rw [hnext] at hfalse
        exact absurd hfalse (by decide)
      · by_cases hd : getActiveProcess k k.currentTerminal = none
        · have hrange := And.intro (hp.stacked.wf.current_nonneg hr) hp.stacked.wf.current_lt
          obtain ⟨s, pid, hstarts, hparent, hterm, -⟩ := execute_base
            (k := { saveContext ⟨.pit, k.clock⟩ k with nextExecute := false }) hrange hd hexec
          exact ⟨s, hstarts, fun _ => ⟨hparent, hterm⟩, fun hsome => absurd hd hsome⟩
        · obtain ⟨s, hstarts, hparent⟩ := execute_child
            (k := { saveContext ⟨.pit, k.clock⟩ k with nextExecute := false }) hd hexec
          exact ⟨s, hstarts, fun hnone => absurd hnone hd, fun _ => hparent⟩
    · -- with a slot and a shell the deferred `execute` cannot fail
      have hsome : (execute E .pit shell _).isSome = true := execute_isSome_iff.2 hcan
      rw [hnone] at hsome
      exact absurd hsome (by decide)
    · have hcount : CountOk (saveContext ⟨.pit, k.clock⟩ k) := hp.count
      obtain ⟨hcount', hstarts, hsame⟩ := schedule_countOk hcount hs
      refine ⟨⟨hstacked', hcount', fun _ => hshell, hsame.trans hnext⟩, fun _ => hstarts,
        fun htrue => ?_⟩
      rw [hnext] at htrue
      exact absurd htrue (by decide)

theorem ticked_step (hp : Pressing E k0 terms new k)
    (hfree : FreeSlot k) (h : step E k .tick = some k') :
    Ticked E k k' := by
  have hp0 := (SameProcesses.advanceClock k).pressing hp
  obtain ⟨k1, hk1, rfl⟩ := Option.map_eq_some_iff.1 h
  obtain ⟨hready, hnone, hone⟩ := ticked_pitHandlerMain hp0 hfree hk1
  refine ⟨⟨?_, hready.count, hready.shell, hready.empty⟩, hnone, hone⟩
  exact (SameProcesses.setIflag k1 true).stacked hready.stacked

/-! ### Windows -/

/-- How many base shells were started for a terminal. -/
theorem filter_base_length (hd : (new.map Start.term).Nodup) (hb : ∀ s ∈ new, s.parent = none)
    (t : ℤ) : (new.filter fun s => s.term = t ∧ s.parent = none).length =
      if t ∈ new.map Start.term then 1 else 0 := by
  induction new with
  | nil => rfl
  | cons s new ih =>
    rw [List.map_cons, List.nodup_cons] at hd
    have hrest := ih hd.2 fun s' hs' => hb s' (List.mem_cons_of_mem s hs')
    have hparent := hb s List.mem_cons_self
    by_cases hs : s.term = t
    · subst hs
      rw [if_neg hd.1] at hrest
      rw [List.filter_cons_of_pos (by simp [hparent]), List.length_cons, hrest, List.map_cons,
        if_pos List.mem_cons_self]
    · have hmem : t ∈ (s :: new).map Start.term ↔ t ∈ new.map Start.term := by
        rw [List.map_cons, List.mem_cons]
        exact or_iff_right fun h => hs h.symm
      rw [List.filter_cons_of_neg (by simp [hs]), hrest]
      exact if_congr hmem.symm rfl rfl

/-- Requests are served exactly if each of the terminals got a shell. -/
theorem served_iff (hd : (new.map Start.term).Nodup)
    (hb : ∀ s ∈ new, s.parent = none ∧ s.term ∈ terms) :
    Served terms new ↔ ∀ t ∈ terms, t ∈ new.map Start.term := by
  have hlength := filter_base_length hd fun s hs => (hb s hs).1
  constructor
  · intro h t ht
    by_contra hnot
    have hone := h.one t ht
    rw [hlength, if_neg hnot] at hone
    exact absurd hone (by decide)
  · intro h
    refine ⟨fun t ht => ?_, hb⟩
    rw [hlength, if_pos (h t ht)]

/-- A terminal for which a shell was asked got one exactly if it has a process. -/
theorem Pressing.started_iff (hp : Pressing E k0 terms new k) {t : ℤ} (ht : t ∈ terms) :
    t ∈ new.map Start.term ↔ getActiveProcess k t ≠ none :=
  ⟨fun hmem hnone => hp.not_started hnone hmem, hp.started t ht⟩

/-- A shell for the displayed terminal serves that terminal; the others must have theirs. -/
theorem Pressing.served_cons (hp : Pressing E k0 terms new k) (hnext : k.nextExecute = true)
    (hnone : getActiveProcess k k.currentTerminal = none) {s : Start} (hparent : s.parent = none)
    (hterm : s.term = k.currentTerminal) :
    Served terms (s :: new) ↔
      ∀ t ∈ terms, t ≠ k.currentTerminal → getActiveProcess k t ≠ none := by
  have hdisplayed : k.currentTerminal ∈ terms := by
    rcases hp.displayed with hsome | hmem | ⟨-, hfalse⟩
    · exact absurd hnone hsome
    · exact hmem
    · rw [hnext] at hfalse
      exact absurd hfalse (by decide)
  have hdistinct := hp.distinct_cons (by rw [hterm]; exact hnone)
  have hbases : ∀ s' ∈ s :: new, s'.parent = none ∧ s'.term ∈ terms := by
    intro s' hs'
    rcases List.mem_cons.1 hs' with rfl | hs'
    · exact ⟨hparent, by rw [hterm]; exact hdisplayed⟩
    · exact hp.base s' hs'
  rw [served_iff hdistinct hbases, List.map_cons, hterm]
  constructor
  · intro hserved t ht hne
    rcases List.mem_cons.1 (hserved t ht) with heq | hmem
    · exact absurd heq hne
    · exact (hp.started_iff ht).1 hmem
  · intro hcond t ht
    by_cases hne : t = k.currentTerminal
    · rw [hne]
      exact List.mem_cons_self
    · exact List.mem_cons_of_mem _ ((hp.started_iff ht).2 (hcond t ht hne))

/-- What is needed at the tick for the requests of the window to be served. -/
theorem served_tick (hp : Pressing E k0 terms new k) (hticked : Ticked E k k') :
    (∃ all, k'.starts = all ++ k0.starts ∧ Served terms all) ↔
      (k.nextExecute = true → getActiveProcess k k.currentTerminal = none ∧
        ∀ t ∈ terms, t ≠ k.currentTerminal → getActiveProcess k t ≠ none) := by
  cases hnext : k.nextExecute with
  | false =>
    -- nothing was left to the tick
    have hserved : Served terms new :=
      (served_iff hp.distinct hp.base).2 fun t ht => (hp.started_iff ht).2 (hp.pending hnext t ht)
    constructor
    · exact fun _ htrue => absurd htrue (by decide)
    · intro _
      exact ⟨new, by rw [hticked.kept hnext, hp.starts], hserved⟩
  | true =>
    obtain ⟨s, hstarts, hbase, hchild⟩ := hticked.started hnext
    have hall : k'.starts = (s :: new) ++ k0.starts := by
      rw [hstarts, hp.starts]
      rfl
    by_cases hd : getActiveProcess k k.currentTerminal = none
    · -- the shell is started for the displayed terminal, which is one of the requested
      obtain ⟨hparent, hterm⟩ := hbase hd
      have hiff := hp.served_cons hnext hd hparent hterm
      constructor
      · rintro ⟨all, hall', hserved⟩ -
        obtain rfl : all = s :: new := List.append_cancel_right (hall'.symm.trans hall)
        exact ⟨hd, hiff.1 hserved⟩
      · intro hcond
        exact ⟨s :: new, hall, hiff.2 (hcond rfl).2⟩
    · -- the shell becomes a child of the running process
      constructor
      · rintro ⟨all, hall', hserved⟩ -
        obtain rfl : all = s :: new := List.append_cancel_right (hall'.symm.trans hall)
        exact absurd (hserved.requested s List.mem_cons_self).1 (hchild hd)
      · intro hcond
        exact absurd (hcond rfl).1 hd

/-- A window serves its requests exactly if it meets the condition. -/
theorem windowOk_iff {ts : List ℕ} (hk : Ready E k) (hfree : SlotFree E k ts)
    (h : windowStep E k ts = some k') :
    (WindowOk E k ts ↔ WindowCondition E k ts) ∧ Ready E k' := by
  obtain ⟨k1, hk1, hrest⟩ :=
    run_append_eq_some.1 (show run (step E) k (presses ts ++ [.tick]) = _ from h)
  obtain ⟨k2, hk2, hnil⟩ := run_cons_eq_some.1 hrest
  cases hnil
  obtain ⟨new, hp⟩ := pressing_run hk.pressing hk1
  rw [List.nil_append] at hp
  have hticked := ticked_step hp (hfree k1 hk1) hk2
  have hiff := served_tick hp hticked
  refine ⟨?_, hticked.ready⟩
  constructor
  · intro hok k1' hk1'
    rw [hk1] at hk1'
    cases hk1'
    exact hiff.1 (hok k' h)
  · intro hcond k2 hk2'
    rw [h] at hk2'
    cases hk2'
    exact hiff.2 (hcond k1 hk1)

end Tick

theorem ready_boot (E : Env) : Ready E (boot E) where
  stacked := stacked_boot E
  count := by simp [CountOk, boot]
  shell hr := absurd rfl hr
  empty := rfl

/-- **Which runs of shortcuts and ticks serve all requests.**  With a free slot at every tick, the
requests of every window are served exactly if every window meets the condition. -/
theorem deferred_iff {E : Env} {ws : List (List ℕ)}
    (hfree : Guarded (windowStep E) (SlotFree E) (boot E) ws) :
    Guarded (windowStep E) (WindowOk E) (boot E) ws ↔
      Guarded (windowStep E) (WindowCondition E) (boot E) ws := by
  refine guarded_congr (I := Ready E) ?_ ?_ (ready_boot E) hfree
  · exact fun k ts k' hk hslot h => (windowOk_iff hk hslot h).2
  · exact fun k ts k' hk hslot h => (windowOk_iff hk hslot h).1

theorem deferred_iff_threeTerminals :
    Guarded (windowStep small) (WindowOk small) (boot small) [[0], [1], [2, 1, 2]] ↔
      Guarded (windowStep small) (WindowCondition small) (boot small) [[0], [1], [2, 1, 2]] :=
  deferred_iff (by decide +kernel)

/-- The second terminal is displayed and left again before the tick: the shell that was asked for
becomes a child of the first shell, on the first terminal. -/
theorem lostRequest :
    Guarded (windowStep small) (SlotFree small) (boot small) [[0], [1, 0]] ∧
      ¬ Guarded (windowStep small) (WindowOk small) (boot small) [[0], [1, 0]] := by
  refine ⟨by decide +kernel, fun hg => ?_⟩
  have hfirst : windowStep small (boot small) [0] = some (smallState [.key 0, .tick]) :=
    run_smallState (by decide +kernel)
  have hsecond : windowStep small (smallState [.key 0, .tick]) [1, 0] =
      some (smallState [.key 0, .tick, .key 1, .key 0, .tick]) :=
    run_smallState_append (by decide +kernel)
  obtain ⟨-, hrest⟩ := hg _ hfirst
  obtain ⟨hok, -⟩ := hrest _ hsecond
  obtain ⟨new, hnew, hserved⟩ := hok _ hsecond
  have hstarts : (smallState [.key 0, .tick, .key 1, .key 0, .tick]).starts =
      [⟨2, some 1, 0, .pit, 1, 0⟩] ++ (smallState [.key 0, .tick]).starts := by decide +kernel
  obtain rfl := List.append_cancel_right (hnew.symm.trans hstarts)
  obtain ⟨hparent, -⟩ := hserved.requested _ List.mem_cons_self
  exact absurd hparent (by decide)

end LinuxIsLove
