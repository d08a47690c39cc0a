import LinuxIsLove.Chains

/-!
# From `execute` to the matching `halt`

While a child of a process `P` is alive, `P` stays at its place in the stack of its terminal:
everything that happens in between happens above the child or on other terminals.  `Below k t l`
says that the stack of terminal `t` ends with `l`; a `Bracket` is a run from the `execute` by which
`P` gets a child to the `halt` of that child.

A pid that a descendant of `P` had may belong to a process of another terminal when `P` goes on,
since pids are given away again as soon as they are free.
-/

namespace LinuxIsLove

open Bytes EventMachine

/-- The stack of a terminal ends with the given processes. -/
def Below (k : Kernel) (t : ℤ) (l : List ℕ) : Prop := ∃ F, Represents k F ∧ l <:+ F.stack t

/-- No base shell halts, and a process only calls `execute` while the displayed terminal has a
process. -/
def BracketStep (E : Env) (k : Kernel) : Event → Prop
  | .execute command => CanExecute E command k → currTerminalRunningProcess k = true
  | .halt _ => k.current.parentPcb ≠ none
  | _ => True

instance (E : Env) (k : Kernel) : (e : Event) → Decidable (BracketStep E k e)
  | .execute command =>
    (inferInstance : Decidable (CanExecute E command k → currTerminalRunningProcess k = true))
  | .halt _ => (inferInstance : Decidable (k.current.parentPcb ≠ none))
  | .key _ | .tick | .openFile _ | .closeFile _ | .arm _ _ | .read _ _ _ | .write _ _ _
  | .getargs _ _ | .vidmap _ | .compute _ | .type _ | .rtcInterrupt => instDecidableTrue

/-- A run from the `execute` of a process in the state `k0` to the `halt` of the child. -/
structure Bracket (E : Env) (k0 k1 k2 k3 : Kernel) (es : List Event) : Prop where
  call : ∃ command, step E k0 (.execute command) = some k1 ∧ CanExecute E command k0
  displayed : currTerminalRunningProcess k0 = true
  between : run (step E) k1 es = some k2
  inside : Guarded (step E) (BracketStep E) k1 es
  unmatched : Guarded (step E) (NotHaltOf k1.running) k1 es
  child : k2.running = k1.running
  matching : ∃ status, step E k2 (.halt status) = some k3

/-- A process that has `p` for its parent, or for its parent's parent, and so on. -/
def Descendant (k : Kernel) (p q : ℕ) : Prop :=
  Allocated k q ∧ Relation.TransGen (fun x y => parentOf k x = some y) q p

/-- The caller of `execute` goes on as if nothing had happened in between. -/
structure BracketOk (k0 k3 : Kernel) : Prop where
  running : k3.running = k0.running
  /-- the control block is unchanged but for the saved stack and frame pointer -/
  pcb : k3.pcb k0.running = { k0.current with
    context := { k0.current.context with
      esp := (k3.pcb k0.running).context.esp, ebp := (k3.pcb k0.running).context.ebp } }
  active : getActiveProcess k3 k0.current.termNum = some k0.current.pid
  cr3 : k3.cr3 = k0.current.pd
  tssEsp0 : k3.tssEsp0 = k0.current.context.esp0

section Steps

variable {E : Env} {k k' : Kernel} {t : ℤ} {p q : ℕ} {l : List ℕ} {site : Site}
  {command : CString}

/-! ### The bottom of a stack -/

theorem SameProcesses.below (h : SameProcesses k k') (hb : Below k t l) : Below k' t l := by
  obtain ⟨F, hF, hl⟩ := hb
  exact ⟨F, h.represents hF, hl⟩

/-- `execute` puts the new process on top of a stack. -/
theorem below_execute (hk : Stacked k) (hb : Below k t l) (hcur : 0 ≤ k.currentTerminal)
    (h : execute E site command k = some k') : Below k' t l := by
  obtain ⟨F, hF, hl⟩ := hb
  obtain ⟨hfresh, hF', -⟩ := represents_execute hF hk.caller_active (hk.wf.newTerm_range hcur) h
  refine ⟨_, hF', ?_⟩
  by_cases ht : t = newTerm k
  · subst ht
    rw [StackFamily.push_stack_self]
    exact hl.trans (List.suffix_cons _ _)
  · rwa [StackFamily.push_stack_of_ne F hfresh ht]

theorem below_schedule (hb : Below k t l) {frame : Token} (h : schedule frame k = some k') :
    Below k' t l := by
  obtain ⟨next, -, ⟨-, rfl⟩ | ⟨-, rfl⟩⟩ := schedule_spec h
  · exact hb
  · obtain ⟨F, hF, hl⟩ := hb
    exact ⟨F, hF.congr rfl (fun _ => rfl) (fun _ => rfl) (fun _ => rfl), hl⟩

theorem below_saveContext (hb : Below k t l) (frame : Token) (b : Bool) :
    Below { saveContext frame k with nextExecute := b } t l := by
  obtain ⟨F, hF, hl⟩ := hb
  refine ⟨F, hF.congr rfl (fun _ => rfl) (fun p => ?_) (fun p => ?_), hl⟩
  · show ((saveContext frame k).pcb p).parentPcb = _
    rw [saveContext_pcb]
    rfl
  · show ((saveContext frame k).pcb p).termNum = _
    rw [saveContext_pcb]

theorem below_display (hb : Below k t l) (u : ℕ) (b : Bool) :
    Below { k with currentTerminal := u, nextExecute := b } t l := by
  obtain ⟨F, hF, hl⟩ := hb
  exact ⟨F, hF.congr rfl (fun _ => rfl) (fun _ => rfl) (fun _ => rfl), hl⟩

theorem closed_below (E : Env) (t : ℤ) (l : List ℕ) :
    Closed E fun k => Stacked k ∧ Below k t l where
  wf _ hk := hk.1.wf
  save _ frame b hk := ⟨stacked_saveContext hk.1 frame b, below_saveContext hk.2 frame b⟩
  display _ u b hk hu := ⟨stacked_display hk.1 hu b, below_display hk.2 u b⟩
  schedule _ _ _ hk h := ⟨stacked_schedule hk.1 h, below_schedule hk.2 h⟩
  execute _ _ _ hk hsite hcur h :=
    ⟨stacked_execute hk.1 hcur (Or.inl hsite) h, below_execute hk.1 hk.2 hcur h⟩

/-- A process that halts is the top of a stack; if it is not the first of `l`, the stack still ends
with `l` when it is gone. -/
theorem below_halt (hk : Stacked k) (hb : Below k t (q :: l)) (hr : k.running ≠ 0)
    (hne : k.running ≠ q) {status : UInt8} (hparent : k.current.parentPcb ≠ none)
    (h : halt E status k = some k') : Stacked k' ∧ Below k' t (q :: l) := by
  refine (closed_below E t (q :: l)).halt ⟨hk, hb⟩ hr (fun parent d hp => ?_)
    (fun d hbase => absurd hbase hparent) h
  obtain ⟨F, hF, hl⟩ := hb
  obtain ⟨hF', -⟩ := represents_returnToParent hk.wf hF hr hk.onTop hp d status
  refine ⟨stacked_returnToParent hk hr hp d status, _, hF', ?_⟩
  by_cases ht : t = k.current.termNum
  · subst ht
    obtain ⟨rest, hrest, -⟩ := hF.stack_of_active (hk.onTop hr)
    rw [hrest] at hl
    rw [StackFamily.pop_stack_self, hrest]
    rcases List.suffix_cons_iff.1 hl with heq | hsuffix
    · exact absurd (List.cons.inj heq).1.symm hne
    · exact hsuffix
  · rwa [StackFamily.pop_stack_of_ne F ht]

theorem below_step {e : Event} (hk : Stacked k) (hb : Below k t (q :: l)) (hg : BracketStep E k e)
    (hne : NotHaltOf q k e) (h : step E k e = some k') :
    Stacked k' ∧ Below k' t (q :: l) := by
  refine step_rule (I := fun k => Stacked k ∧ Below k t (q :: l))
    (fun k e => BracketStep E k e ∧ NotHaltOf q k e)
    (fun k k' hsame hk => ⟨hsame.stacked hk.1, hsame.below hk.2⟩) ?_ ?_ ?_ ?_ k e k' ⟨hk, hb⟩
    ⟨hg, hne⟩ h
  · exact fun k u k' hk _ hkey => (closed_below E t (q :: l)).startTerminal hk hkey
  · exact fun k k' hk _ htick => (closed_below E t (q :: l)).pitHandlerMain hk htick
  · intro k command k' hk hg hr hexec
    have hcan : CanExecute E command k.advanceClock := execute_isSome_iff.1 (by rw [hexec]; rfl)
    have hcur := hk.1.wf.current_nonneg hr
    exact ⟨stacked_execute hk.1 hcur (Or.inr (hg.1 hcan)) hexec, below_execute hk.1 hk.2 hcur hexec⟩
  · exact fun k status k' hk hg hr hhalt => below_halt hk.1 hk.2 hr hg.2 hg.1 hhalt

/-! ### Inside a bracket -/

/-- The states between the `execute` in the state `k0` and the `halt` of the child `c`. -/
structure Within (k0 : Kernel) (c : ℕ) (l : List ℕ) (k : Kernel) : Prop where
  stacked : Stacked k
  below : Below k k0.current.termNum (c :: k0.running :: l)
  caller : Untouched k0 k k0.running
  child : (k.pcb c).espParent.site = .syscall

/-- A process that waits for its child does not run. -/
theorem running_ne_of_below {c : ℕ} (hk : Stacked k) (hb : Below k t (c :: p :: l)) :
    k.running ≠ p := by
  rintro rfl
  obtain ⟨F, hF, above, habove⟩ := hb
  have hmem : k.running ∈ F.stack t := by
    rw [← habove]
    simp
  have hlive := (hF.allocated _).2 ⟨t, hmem⟩
  have hr := hk.wf.used_ne_zero (hk.wf.allocated_used _ hlive)
  have hactive := hk.onTop hr
  rw [show k.current.termNum = t from hF.term t _ hmem] at hactive
  obtain ⟨rest, hrest, -⟩ := hF.stack_of_active hactive
  have hnodup := F.nodup t
  rw [hrest] at habove hnodup
  -- the running process stands first and also behind its child
  cases above with
  | nil =>
    obtain ⟨rfl, htail⟩ := List.cons.inj habove
    rw [← htail] at hnodup
    exact (List.nodup_cons.1 hnodup).1 List.mem_cons_self
  | cons a above =>
    obtain ⟨rfl, htail⟩ := List.cons.inj habove
    rw [← htail] at hnodup
    exact (List.nodup_cons.1 hnodup).1 (by simp)

theorem Below.allocated (hb : Below k t l) (hp : p ∈ l) : Allocated k p := by
  obtain ⟨F, hF, hl⟩ := hb
  exact (hF.allocated p).2 ⟨t, hl.subset hp⟩

theorem within_step {k0 : Kernel} {c : ℕ} {e : Event} (hin : Within k0 c l k)
    (hg : BracketStep E k e) (hne : NotHaltOf c k e)
    (h : step E k e = some k') : Within k0 c l k' := by
  obtain ⟨hk', hb'⟩ := below_step hin.stacked hin.below hg hne h
  have hcaller := running_ne_of_below hin.stacked hin.below
  have hlive : Allocated k k0.running := hin.below.allocated (by simp)
  refine ⟨hk', hb', ?_, ?_⟩
  · exact hin.caller.trans (untouched_step hin.stacked.wf (Or.inl hlive)
      (notHaltOf_of_ne hcaller e) (fun _ => hcaller) h)
  · have hchild := hin.below.allocated List.mem_cons_self
    rw [(sameReturn_step hin.stacked.wf hchild hne h).espParent]
    exact hin.child

/-- After the `execute` the child stands on top of its caller. -/
theorem within_execute {k0 k1 : Kernel} (hk : Stacked k0)
    (hcall : step E k0 (.execute command) = some k1) (hcan : CanExecute E command k0)
    (hcurr : currTerminalRunningProcess k0 = true) : ∃ l, Within k0 k1.running l k1 := by
  have hk0 : Stacked k0.advanceClock := (SameProcesses.advanceClock k0).stacked hk
  have hhalt : NotHaltOf k0.running k0 (.execute command) := trivial
  have hactive := hk.caller_active hcurr
  obtain ⟨F, hF⟩ := hk0.chains.1
  have hlive : Allocated k0 k0.running := hF.allocated_of_active hactive
  have huntouched := untouched_step hk.wf (Or.inl hlive) hhalt (fun hq => hq.elim) hcall
  have hr := hk.wf.used_ne_zero (hk.wf.allocated_used _ hlive)
  have hk1 := stacked_step (e := .execute command) hk (fun _ => hcurr) hcall
  obtain ⟨k2, hexec, rfl⟩ := step_executed hcan hcall
  obtain ⟨l, hl, -⟩ := hF.stack_of_active hactive
  have hterm : newTerm k0.advanceClock = k0.current.termNum := if_pos hcurr
  obtain ⟨hfresh, hF', -⟩ := represents_execute hF hk0.caller_active
    (hk0.wf.newTerm_range (hk.wf.current_nonneg hr)) hexec
  refine ⟨l, hk1, ⟨_, hF'.congr rfl (fun _ => rfl) (fun _ => rfl) (fun _ => rfl), ?_⟩,
    huntouched, ?_⟩
  · rw [hterm, StackFamily.push_stack_self, hl]
    exact List.suffix_rfl
  · obtain ⟨pid, dentry, args, -, -, -, -, rfl⟩ := execute_spec hexec
    show ((startProcess E .syscall pid dentry args _).pcb pid).espParent.site = _
    rw [startProcess_pcb_self]
    rfl

/-- A running child is on top of its stack, with its caller right below. -/
theorem Within.top {k0 : Kernel} (hin : Within k0 k.running l k) :
    k.running ≠ 0 ∧ k.current.termNum = k0.current.termNum ∧
      k.current.parentPcb = some k0.running ∧
        ∃ F, Represents k F ∧ F.stack k0.current.termNum = k.running :: k0.running :: l := by
  obtain ⟨F, hF, hl⟩ := hin.below
  have hlive : Allocated k k.running := hin.below.allocated List.mem_cons_self
  have hr : k.running ≠ 0 := hin.stacked.wf.used_ne_zero (hin.stacked.wf.allocated_used _ hlive)
  have hterm : k.current.termNum = k0.current.termNum :=
    hF.term _ _ (hl.subset List.mem_cons_self)
  have hactive : getActiveProcess k k0.current.termNum = some k.running := by
    rw [← hterm]
    exact hin.stacked.onTop hr
  obtain ⟨rest, hrest, hchain⟩ := hF.stack_of_active hactive
  have hrestl : rest = k0.running :: l := by
    have hnodup := F.nodup k0.current.termNum
    obtain ⟨above, habove⟩ := hl
    rw [hrest] at habove hnodup
    -- the running process stands at the top only
    cases above with
    | nil => exact (List.cons.inj habove).2.symm
    | cons a above =>
      obtain ⟨rfl, htail⟩ := List.cons.inj habove
      rw [← htail] at hnodup
      exact absurd (by simp) (List.nodup_cons.1 hnodup).1
  subst hrestl
  exact ⟨hr, hterm, hchain.1, F, hF, hrest⟩

/-- The `halt` of the child gives control back to the caller. -/
theorem bracketOk_halt {k0 : Kernel} {c : ℕ} {status : UInt8} (hk0 : Wf k0)
    (hr0 : k0.running ≠ 0) (hin : Within k0 c l k) (hc : k.running = c)
    (h : step E k (.halt status) = some k') :
    BracketOk k0 k' ∧ ∃ F, Represents k' F ∧ F.stack k0.current.termNum = k0.running :: l := by
  subst hc
  obtain ⟨hr, hterm, hparent, F, hF, hstack⟩ := hin.top
  have hk : Stacked k.advanceClock := (SameProcesses.advanceClock k).stacked hin.stacked
  have hF0 : Represents k.advanceClock F :=
    hF.congr rfl (fun _ => rfl) (fun _ => rfl) (fun _ => rfl)
  obtain ⟨d, rfl⟩ := step_halt_returns hparent hin.child h
  obtain ⟨hF', htop'⟩ := represents_returnToParent hk.wf hF0 hr hk.onTop hparent d status
  have hsame := hin.caller.pcb
  have hpcb : ((returnToParent k0.running status (halted k.advanceClock d)).setIflag true).pcb =
      k.pcb := halted_pcb _ d
  refine ⟨⟨rfl, ?_, ?_, ?_, ?_⟩, _, hF'.congr rfl (fun _ => rfl) (fun _ => rfl) (fun _ => rfl), ?_⟩
  · rw [hpcb]
    exact hsame
  · have hown := htop' hr0
    have hcurrent : (returnToParent k0.running status
        (halted k.advanceClock d)).current.termNum = k0.current.termNum := by
      show (((returnToParent k0.running status (halted k.advanceClock d)).setIflag true).pcb
        k0.running).termNum = _
      rw [hpcb, hsame]
      rfl
    rw [hcurrent] at hown
    rw [show k0.current.pid = k0.running from (hk0.current_ok hr0).pid]
    exact hown
  · show ((halted k.advanceClock d).pcb k0.running).pd = _
    rw [halted_pcb]
    show (k.pcb k0.running).pd = _
    rw [hsame]
    rfl
  · show ((halted k.advanceClock d).pcb k0.running).context.esp0 = _
    rw [halted_pcb]
    show (k.pcb k0.running).context.esp0 = _
    rw [hsame]
    rfl
  · have hterm' : k.advanceClock.current.termNum = k0.current.termNum := hterm
    rw [hterm', StackFamily.pop_stack_self, hstack, List.tail_cons]

end Steps

/-! ### The bracket -/

section Bracket

variable {E : Env} {k0 k1 k2 k3 : Kernel} {es : List Event}

/-- Every state of a bracket up to the `halt`. -/
theorem Bracket.within (hb : Bracket E k0 k1 k2 k3 es) (hk : Stacked k0) :
    ∃ l, ∀ fs k, fs <+: es → run (step E) k1 fs = some k → Within k0 k1.running l k := by
  obtain ⟨command, hcall, hcan⟩ := hb.call
  obtain ⟨l, hin⟩ := within_execute hk hcall hcan hb.displayed
  refine ⟨l, fun fs k hfs hrun => ?_⟩
  obtain ⟨gs, rfl⟩ := hfs
  have hinside := ((guarded_append hrun).1 hb.inside).1
  have hunmatched := ((guarded_append hrun).1 hb.unmatched).1
  exact invariant_of_guarded (fun k e k' hk hgood h => within_step hk hgood.1 hgood.2 h) hin
    (hinside.and hunmatched) hrun

/-- The descendants of a process are not among those below it. -/
theorem Represents.not_mem_of_descendant {k : Kernel} {F : StackFamily ℤ ℕ} {t : ℤ} {p q : ℕ}
    {l : List ℕ} (hF : Represents k F) (hl : (p :: l) <:+ F.stack t) (hq : Descendant k p q) :
    q ∉ p :: l := by
  intro hmem
  obtain ⟨above, habove⟩ := hl
  have hchain := hF.chain t
  have hnodup := F.nodup t
  rw [← habove] at hchain hnodup
  have htail := hchain.of_append.transGen_mem_tail hmem hq.2
  exact (List.nodup_cons.1 (List.nodup_append.1 hnodup).2.1).1 htail

/-- **The bracket of `execute` and `halt`.**  When the child of a process halts, the process goes on
as if nothing had happened in between, and no process is its descendant; a pid that a descendant
had in between is free, or belongs to a process on another terminal. -/
theorem bracket_ok {es0 : List Event} (hg : Guarded (step E) (ChainStep E) (boot E) es0)
    (hrun : run (step E) (boot E) es0 = some k0) (hb : Bracket E k0 k1 k2 k3 es) :
    BracketOk k0 k3 ∧ (∀ q, ¬ Descendant k3 k0.running q) ∧
      ∀ fs k q, fs <+: es → run (step E) k1 fs = some k → Descendant k k0.running q →
        ¬ Allocated k3 q ∨ (k3.pcb q).termNum ≠ k0.current.termNum := by
  have hk : Stacked k0 :=
    invariant_of_guarded (fun k e k' hk hgood h => stacked_step hk hgood h) (stacked_boot E) hg hrun
  obtain ⟨l, hwithin⟩ := hb.within hk
  have hend := hwithin es k2 (List.prefix_refl es) hb.between
  obtain ⟨status, hhalt⟩ := hb.matching
  have hr0 : k0.running ≠ 0 := by
    have hlive := hend.below.allocated (p := k0.running) (by simp)
    exact hend.stacked.wf.used_ne_zero (hend.stacked.wf.allocated_used _ hlive)
  obtain ⟨hok, F, hF, hstack⟩ := bracketOk_halt hk.wf hr0 hend hb.child hhalt
  refine ⟨hok, fun q hq => ?_, fun fs k q hfs hk' hq => ?_⟩
  · -- a descendant would stand above the caller, which is on top
    obtain ⟨t, hmem⟩ := (hF.allocated q).1 hq.1
    have hcaller := (hF.chain t).transGen_mem hmem hq.2
    have ht : t = k0.current.termNum := F.index_unique hcaller (by rw [hstack]; simp)
    rw [ht, hstack] at hmem
    exact hF.not_mem_of_descendant (by rw [hstack]) hq hmem
  · obtain ⟨F', hF', hl'⟩ := (hwithin fs k hfs hk').below
    have hnot := hF'.not_mem_of_descendant ((List.suffix_cons _ _).trans hl') hq
    by_contra hcontra
    rw [not_or, not_not, not_not] at hcontra
    obtain ⟨t, hmem⟩ := (hF.allocated q).1 hcontra.1
    have ht : t = k0.current.termNum := (hF.term t q hmem).symm.trans hcontra.2
    rw [ht, hstack] at hmem
    exact hnot hmem

/-- Two shells on two terminals, the first of them running. -/
def twoShells : List Event := [.key 0, .key 1, .tick, .tick]

/-- The child of the first shell executes a shell, which halts; its pid goes to a child of the
second shell. -/
def recycling : List Event := [.execute shell, .halt 0, .tick, .execute shell, .tick]

theorem twoShells_guarded : Guarded (step small) (ChainStep small) (boot small) twoShells := by
  decide +kernel

theorem run_twoShells : run (step small) (boot small) twoShells = some (smallState twoShells) :=
  run_smallState (by decide +kernel)

theorem recycling_bracket :
    Bracket small (smallState twoShells) (smallState (twoShells ++ [.execute shell]))
      (smallState (twoShells ++ [.execute shell] ++ recycling))
      (smallState (twoShells ++ [.execute shell] ++ recycling ++ [.halt 0])) recycling where
  call := ⟨shell, step_smallState (by decide +kernel), by decide +kernel⟩
  displayed := by decide +kernel
  between := run_smallState_append (by decide +kernel)
  inside := by decide +kernel
  unmatched := by decide +kernel
  child := by decide +kernel
  matching := ⟨0, step_smallState (by decide +kernel)⟩

theorem bracket_ok_recycling :
    BracketOk (smallState twoShells)
        (smallState (twoShells ++ [.execute shell] ++ recycling ++ [.halt 0])) ∧
      (∀ q, ¬ Descendant (smallState (twoShells ++ [.execute shell] ++ recycling ++ [.halt 0]))
        (smallState twoShells).running q) ∧
      ∀ fs k q, fs <+: recycling →
        run (step small) (smallState (twoShells ++ [.execute shell])) fs = some k →
        Descendant k (smallState twoShells).running q →
          ¬ Allocated (smallState (twoShells ++ [.execute shell] ++ recycling ++ [.halt 0])) q ∨
            ((smallState (twoShells ++ [.execute shell] ++ recycling ++ [.halt 0])).pcb q).termNum ≠
              (smallState twoShells).current.termNum :=
  bracket_ok twoShells_guarded run_twoShells recycling_bracket

/-- A pid that a descendant had in between need not be free when the caller goes on. -/
theorem recycled_not_free :
    ∃ es0 es k0 k1 k2 k3, Guarded (step small) (ChainStep small) (boot small) es0 ∧
      run (step small) (boot small) es0 = some k0 ∧ Bracket small k0 k1 k2 k3 es ∧
      ∃ fs k q, fs <+: es ∧ run (step small) k1 fs = some k ∧ Descendant k k0.running q ∧
        Allocated k3 q := by
  have hrunning : (smallState twoShells).running = 1 := by decide +kernel
  have hchild : run (step small) (smallState (twoShells ++ [.execute shell])) [.execute shell] =
      some (smallState (twoShells ++ [.execute shell] ++ [.execute shell])) :=
    run_smallState_append (by decide +kernel)
  have hlive : Allocated (smallState (twoShells ++ [.execute shell] ++ [.execute shell])) 4 := by
    decide +kernel
  have hreused :
      Allocated (smallState (twoShells ++ [.execute shell] ++ recycling ++ [.halt 0])) 4 := by
    decide +kernel
  have hprefix : [.execute shell] <+: recycling := ⟨[.halt 0, .tick, .execute shell, .tick], rfl⟩
  refine ⟨twoShells, recycling, _, _, _, _, twoShells_guarded, run_twoShells, recycling_bracket,
    [.execute shell], _, 4, hprefix, hchild, ⟨hlive, ?_⟩, hreused⟩
  -- the parent of 4 is 3, and the parent of 3 is the first shell
  rw [hrunning]
  have h43 :
      parentOf (smallState (twoShells ++ [.execute shell] ++ [.execute shell])) 4 = some 3 := by
    decide +kernel
  have h31 :
      parentOf (smallState (twoShells ++ [.execute shell] ++ [.execute shell])) 3 = some 1 := by
    decide +kernel
  exact Relation.TransGen.tail (Relation.TransGen.single h43) h31

end Bracket

end LinuxIsLove
