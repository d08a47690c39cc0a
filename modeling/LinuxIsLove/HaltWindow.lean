import LinuxIsLove.Invariant
import LinuxIsLove.Source.Preempt

/-!
# No pid is given away before `halt` completes

`halt` clears the interrupt flag and frees the pid first; then it runs the close routine of every
live descriptor, and `rtc_close` sets the flag again when it closes the last descriptor of the
clock.  From then on a tick may run another process, which may be given the pid of the one that is
still in its halt: `lostPid`.

`HaltMasked` asks of each halt that no descriptor it closes is the last one, by the driver's count.
Runs that meet it keep the flag cleared from the deletion to the hand-over (`Alone`), and no pid is
given away (`halt_exclusive`).
-/

namespace LinuxIsLove

open Bytes EventMachine

/-! ### The descriptors of the clock -/

/-- A live descriptor of the clock. -/
def isRtc (fd : Fd) : Bool := decide (fd.flags &&& fdLive ≠ 0) && decide (fd.fops = some .rtc)

/-- The live descriptors of the clock from `i` on. -/
def rtcFrom (files : ℕ → Fd) (i : ℕ) : ℕ :=
  (List.range' i (fileArrayLen - i)).countP fun j => isRtc (files j)

/-- The close routines from descriptor `i` on take the driver's count to zero. -/
def ClosesLast (k : Kernel) (i : ℕ) : Prop :=
  1 ≤ k.devices.rtc.openCount ∧ k.devices.rtc.openCount ≤ rtcFrom k.current.files i

instance (k : Kernel) (i : ℕ) : Decidable (ClosesLast k i) := by
  unfold ClosesLast
  infer_instance

section Close

variable {k k' : Kernel} {files : ℕ → Fd} {i n : ℕ}

theorem rtcFrom_succ (hi : i < fileArrayLen) :
    rtcFrom files i = rtcFrom files (i + 1) + if isRtc (files i) then 1 else 0 := by
  have hlen : fileArrayLen - i = fileArrayLen - (i + 1) + 1 := by omega
  rw [rtcFrom, hlen, List.range'_succ, List.countP_cons, rtcFrom]

theorem rtcFrom_end (files : ℕ → Fd) : rtcFrom files fileArrayLen = 0 := rfl

/-- A halting process closes a descriptor of the clock, or nothing happens. -/
theorem haltClose_cases (h : haltClose i k = some k') :
    (isRtc (k.current.files i) = true ∧
        k' = { k with devices := rtcClose k.devices k.current.pid }) ∨
      (isRtc (k.current.files i) = false ∧ k' = k) := by
  unfold haltClose at h
  simp only at h
  split_ifs at h with hlive
  · unfold closeDevice at h
    split at h
    next => exact absurd h (by simp)
    next hfops =>
      refine Or.inl ⟨?_, (Option.some.inj h).symm⟩
      rw [isRtc, hfops, decide_eq_true hlive]
      rfl
    next hne hsome =>
      have hrtc : (k.current.files i).fops ≠ some .rtc := fun heq =>
        hne (Option.some.inj (hsome.symm.trans heq))
      refine Or.inr ⟨?_, (Option.some.inj h).symm⟩
      rw [isRtc, decide_eq_false hrtc, Bool.and_false]
  · refine Or.inr ⟨?_, (Option.some.inj h).symm⟩
    rw [isRtc, decide_eq_false hlive, Bool.false_and]

/-- A close sets the flag if it is the last one, and leaves the question to the others if not. -/
theorem haltClose_closesLast (hi : i < fileArrayLen) (h : haltClose i k = some k') :
    (k'.devices.iflag = true ∨ ClosesLast k' (i + 1)) ↔
      (k.devices.iflag = true ∨ ClosesLast k i) := by
  rcases haltClose_cases h with ⟨hrtc, rfl⟩ | ⟨hrtc, rfl⟩
  · have hfrom := @rtcFrom_succ k.current.files _ hi
    have hfiles : Kernel.current { k with devices := rtcClose k.devices k.current.pid } =
        k.current := rfl
    rw [if_pos hrtc] at hfrom
    simp only [ClosesLast, hfiles, rtcClose_iflag, rtcClose_openCount, Bool.or_eq_true,
      decide_eq_true_eq, hfrom]
    have hcount : ∀ d : ℤ, ∀ c : ℕ,
        (d = 1 ∨ 1 ≤ d - 1 ∧ d - 1 ≤ c) ↔ 1 ≤ d ∧ d ≤ (c + 1 : ℕ) := by omega
    rw [or_assoc, hcount]
  · have hfrom := @rtcFrom_succ k'.current.files _ hi
    rw [if_neg (by rw [hrtc]; exact Bool.false_ne_true), Nat.add_zero] at hfrom
    rw [ClosesLast, ClosesLast, hfrom]

/-- **When `halt` sets the interrupt flag.**  The loop over the descriptors leaves the flag set
exactly if it was set before or the loop closes the last descriptor of the clock. -/
theorem haltCloseLoop_iflag (hi : i + n = fileArrayLen) (h : haltCloseLoop n i k = some k') :
    k'.devices.iflag = true ↔ k.devices.iflag = true ∨ ClosesLast k i := by
  induction n generalizing i k with
  | zero =>
    cases h
    have hend : ¬ ClosesLast k' i := by
      rw [Nat.add_zero] at hi
      rw [ClosesLast, hi, rtcFrom_end]
      omega
    exact ⟨Or.inl, fun hor => hor.resolve_right hend⟩
  | succ n ih =>
    obtain ⟨k1, hk1, hrest⟩ := Option.bind_eq_some_iff.1 h
    rw [ih (by omega) hrest, haltClose_closesLast (by omega) hk1]

end Close

/-! ### Interrupts stay disabled until the hand-over -/

/-- No halt closes the last descriptor of the clock. -/
def HaltMasked (m : Threads) : Action → Prop
  | .halt _ => ¬ ClosesLast m.kernel 0
  | _ => True

instance (m : Threads) (a : Action) : Decidable (HaltMasked m a) := by
  cases a <;> unfold HaltMasked <;> infer_instance

/-- A process that is in its halt is the running one, interrupts are disabled, and its pid is
free. -/
def Alone (m : Threads) : Prop := ∀ p s, m.stage p = some s →
  m.kernel.running = p ∧ m.kernel.devices.iflag = false ∧ ¬ Allocated m.kernel p

/-- What runs keep whose halts are masked. -/
structure Masked (m : Threads) : Prop where
  wf : Wf m.kernel
  alone : Alone m
  closes : ∀ p s, m.stage p = some s → ¬ ClosesLast m.kernel s.next
  boot : m.stage 0 = none

section Masked

variable {E : Env} {m m' : Threads} {k : Kernel} {p : ℕ}

theorem wf_apply (h : Wf k) (x : Part) : Wf (x.apply k) where
  used_range := h.used_range
  allocated_used := h.allocated_used
  active_used := h.active_used
  pcb_ok p hp := by
    have hok := h.pcb_ok p hp
    by_cases hrun : p = k.running
    · subst hrun
      have hpcb : (x.apply k).pcb k.running = { k.current with files := x.files } :=
        Kernel.setFiles_pcb_self k x.files
      exact ⟨by rw [hpcb]; exact hok.pid, by rw [hpcb]; exact hok.pd, by rw [hpcb]; exact hok.esp0,
        by rw [hpcb]; exact hok.term, fun q hq => hok.parent q (by rw [hpcb] at hq; exact hq)⟩
    · have hpcb : (x.apply k).pcb p = k.pcb p := Kernel.setFiles_pcb_of_ne hrun
      exact ⟨by rw [hpcb]; exact hok.pid, by rw [hpcb]; exact hok.pd, by rw [hpcb]; exact hok.esp0,
        by rw [hpcb]; exact hok.term, fun q hq => hok.parent q (by rw [hpcb] at hq; exact hq)⟩
  running_used := h.running_used
  idle := h.idle
  current_lt := h.current_lt
  current_nonneg := h.current_nonneg

theorem masked_boot (E : Env) : Masked (bootThreads E) where
  wf := wf_boot E
  alone _ _ hs := absurd hs (by simp [bootThreads])
  closes _ _ hs := absurd hs (by simp [bootThreads])
  boot := rfl

/-- Without a halt under way there is nothing to keep but the kernel's own invariant. -/
theorem masked_of_noHalt (hwf : Wf m.kernel) (hstage : ∀ p, m.stage p = none) : Masked m where
  wf := hwf
  alone p s hs := absurd hs (by rw [hstage]; simp)
  closes p s hs := absurd hs (by rw [hstage]; simp)
  boot := hstage 0

/-- The boot stack has no halt. -/
theorem Masked.running_ne_zero (h : Masked m) {s : Stage}
    (hs : m.stage m.kernel.running = some s) : m.kernel.running ≠ 0 := by
  intro hr
  rw [hr, h.boot] at hs
  exact absurd hs (by simp)

/-- No halt is under way if the running process is not in one, or if interrupts are enabled. -/
theorem Masked.noHalt (h : Masked m)
    (hor : m.stage m.kernel.running = none ∨ m.kernel.devices.iflag = true) (p : ℕ) :
    m.stage p = none := by
  cases hp : m.stage p with
  | none => rfl
  | some s =>
    obtain ⟨hrun, hoff, -⟩ := h.alone p s hp
    rcases hor with hnone | hon
    · rw [hrun, hp] at hnone
      exact absurd hnone (by simp)
    · rw [hon] at hoff
      exact absurd hoff (by simp)

theorem Masked.noHalt_of_accepts (h : Masked m) {e : Event} (hacc : accepts m e = true) (p : ℕ) :
    m.stage p = none := by
  refine h.noHalt ?_ p
  unfold accepts at hacc
  split_ifs at hacc
  · exact Or.inr hacc
  · rw [Bool.and_eq_true, Option.isNone_iff_eq_none] at hacc
    exact Or.inl hacc.2

theorem settle_noHalt {stage : ℕ → Option Stage} (h : ∀ p, stage p = none) (k : Kernel) (p : ℕ) :
    (settle stage k).stage p = none := by
  simp only [settle, h]
  split_ifs <;> rfl

/-- Only the running process can be in its halt. -/
theorem Masked.stage_of_ne (h : Masked m) (p : ℕ) (hp : p ≠ m.kernel.running) :
    m.stage p = none := by
  cases hs : m.stage p with
  | none => rfl
  | some s => exact absurd (h.alone p s hs).1.symm hp

theorem stage_update (hother : ∀ p, p ≠ m.kernel.running → m.stage p = none) (s : Stage) {p : ℕ}
    {t : Stage} (ht : Function.update m.stage m.kernel.running (some s) p = some t) :
    p = m.kernel.running ∧ t = s := by
  rw [Function.update_apply] at ht
  split_ifs at ht with hp
  · exact ⟨hp, (Option.some.inj ht).symm⟩
  · rw [hother p hp] at ht
    exact absurd ht (by simp)

/-- The call of `halt` clears the flag and frees the pid. -/
theorem masked_halt (h : Masked m) (hr : m.kernel.running ≠ 0)
    (hnone : m.stage m.kernel.running = none) (hlast : ¬ ClosesLast m.kernel 0) (status : UInt8) :
    Masked ⟨haltBegin m.kernel.advanceClock,
      Function.update m.stage m.kernel.running (some ⟨0, status⟩)⟩ := by
  have hpid : m.kernel.current.pid = m.kernel.running := (h.wf.current_ok hr).pid
  have hrange := h.wf.used_range _ (h.wf.running_used hr)
  have hbegin : haltBegin m.kernel.advanceClock =
      deleteProcess (m.kernel.advanceClock.setIflag false) m.kernel.running := by
    rw [← hpid]
    rfl
  -- the deletion touches the process table only
  have hrest : deleteProcess (m.kernel.advanceClock.setIflag false) m.kernel.running =
      { m.kernel.advanceClock.setIflag false with
        procs := Function.update m.kernel.procs (m.kernel.running - 1) false
        procCount := (m.kernel.procCount + (2 ^ 32 - 1)) % 2 ^ 32 } := if_pos hrange
  have hstage := @stage_update m (fun p _ => h.noHalt (Or.inl hnone) p) ⟨0, status⟩
  rw [hbegin]
  constructor
  · exact wf_deleteProcess (((SameProcesses.advanceClock _).trans
      (SameProcesses.setIflag _ false)).wf h.wf) hr _
  · intro p s hs
    obtain ⟨rfl, -⟩ := hstage hs
    refine ⟨by rw [hrest]; rfl, by rw [hrest]; rfl, fun hall => ?_⟩
    exact ((allocated_deleteProcess hrange.1 hrange.2).1 hall).2 rfl
  · intro p s hs
    obtain ⟨-, rfl⟩ := hstage hs
    rw [hrest]
    exact hlast
  · exact (Function.update_of_ne (Ne.symm hr) ..).trans h.boot

/-- A close that is not the last one keeps the flag cleared. -/
theorem masked_haltClose (h : Masked m) {s : Stage} (hs : m.stage m.kernel.running = some s)
    (hlt : s.next < fileArrayLen) (hclose : haltClose s.next m.kernel = some k) :
    Masked ⟨k, Function.update m.stage m.kernel.running (some { s with next := s.next + 1 })⟩ := by
  obtain ⟨-, hoff, hfree⟩ := h.alone _ s hs
  have hlast := h.closes _ s hs
  have hmask : ¬ (k.devices.iflag = true ∨ ClosesLast k (s.next + 1)) := by
    rw [haltClose_closesLast hlt hclose, hoff]
    exact fun hor => hor.elim Bool.false_ne_true hlast
  obtain ⟨d, rfl⟩ := haltClose_spec hclose
  have hstage := @stage_update m h.stage_of_ne { s with next := s.next + 1 }
  constructor
  · exact (SameProcesses.devices _ d).wf h.wf
  · intro p t ht
    obtain ⟨rfl, -⟩ := hstage ht
    exact ⟨rfl, Bool.eq_false_iff.2 fun hon => hmask (Or.inl hon), hfree⟩
  · intro p t ht
    obtain ⟨-, rfl⟩ := hstage ht
    exact fun hc => hmask (Or.inr hc)
  · exact (Function.update_of_ne (Ne.symm (h.running_ne_zero hs)) ..).trans h.boot

/-- With the hand-over no halt is under way any more. -/
theorem masked_haltFinish (h : Masked m) (hr : m.kernel.running ≠ 0) {status : UInt8}
    (hfinish : haltFinish E status m.kernel = some k) :
    Masked (settle (Function.update m.stage m.kernel.running none) (k.setIflag true)) := by
  have hnone : ∀ p, Function.update m.stage m.kernel.running none p = none := by
    intro p
    rw [Function.update_apply]
    split_ifs with hp
    · rfl
    · exact h.stage_of_ne p hp
  refine masked_of_noHalt ?_ (settle_noHalt hnone _)
  exact (SameProcesses.setIflag k true).wf (wf_haltFinish h.wf hr hfinish)

end Masked

/-! ### A halt without an interrupt -/

section Uninterrupted

variable {E : Env} {m : Threads}

/-- The parts of a halt that goes on without an interrupt, from the descriptor `i` on. -/
theorem run_goOn {n i : ℕ} {status : UInt8} (hi : i + n = fileArrayLen)
    (hs : m.stage m.kernel.running = some ⟨i, status⟩) :
    run (act E) m (List.replicate (n + 1) .goOn) =
      (haltCloseLoop n i m.kernel).bind fun k => (haltFinish E status k).map fun k' =>
        settle (Function.update m.stage m.kernel.running none) (k'.setIflag true) := by
  induction n generalizing i m with
  | zero =>
    rw [List.replicate_one, run_cons, act, hs, Option.bind_some, goOn, if_neg (by simp; omega)]
    exact Option.bind_fun_some _
  | succ n ih =>
    have hlt : i < fileArrayLen := by omega
    rw [List.replicate_succ, run_cons, act, hs, Option.bind_some, goOn, if_pos hlt, haltCloseLoop]
    cases hclose : haltClose i m.kernel with
    | none => rfl
    | some k =>
      obtain ⟨d, rfl⟩ := haltClose_spec hclose
      rw [Option.map_some, Option.bind_some, Option.bind_some,
        ih (i := i + 1) (by omega) (Function.update_self ..)]
      simp only [Function.update_idem]

/-- **A halt whose parts follow one another is the halt of `Events`.** -/
theorem halt_uninterrupted {status : UInt8} (hr : m.kernel.running ≠ 0)
    (hnone : m.stage m.kernel.running = none) :
    (run (act E) m (.halt status :: List.replicate (fileArrayLen + 1) .goOn)).map Threads.kernel =
      step E m.kernel (.halt status) := by
  have hcond : m.kernel.running ≠ 0 ∧ (m.stage m.kernel.running).isNone = true :=
    ⟨hr, by rw [hnone]; rfl⟩
  have hrun : (haltBegin m.kernel.advanceClock).running = m.kernel.running := by
    unfold haltBegin deleteProcess
    split_ifs <;> rfl
  have hclock : m.kernel.advanceClock.running ≠ 0 := hr
  have hstage : Function.update m.stage m.kernel.running (some ⟨0, status⟩)
      (haltBegin m.kernel.advanceClock).running = some ⟨0, status⟩ := by
    rw [hrun, Function.update_self]
  rw [run_cons, act, if_pos hcond, Option.bind_some, run_goOn (Nat.zero_add _) hstage]
  simp only [step, dispatch, if_neg hclock, halt]
  cases haltCloseLoop fileArrayLen 0 (haltBegin m.kernel.advanceClock) with
  | none => rfl
  | some k =>
    rw [Option.bind_some, Option.bind_some, Option.map_map]
    rfl

end Uninterrupted

/-! ### Runs -/

/-- The running process is in its halt and hands the terminal over. -/
def HandsOver (m : Threads) (p : ℕ) : Action → Prop
  | .goOn => m.kernel.running = p ∧ ∃ s, m.stage p = some s ∧ fileArrayLen ≤ s.next
  | _ => False

/-- The pid of a process that is in its halt is given to no other process, unless the process hands
its terminal over. -/
def PidKept (E : Env) (m : Threads) (a : Action) : Prop := ∀ p m',
  (m.stage p).isSome → ¬ HandsOver m p a → act E m a = some m' → ¬ Allocated m'.kernel p

section Run

variable {E : Env} {m m' : Threads} {a : Action} {es : List Action}

/-- What a process in its halt does next. -/
theorem act_goOn_cases {s : Stage} (hs : m.stage m.kernel.running = some s)
    (h : act E m .goOn = some m') :
    (s.next < fileArrayLen ∧ ∃ k, haltClose s.next m.kernel = some k ∧
        m' = ⟨k, Function.update m.stage m.kernel.running (some { s with next := s.next + 1 })⟩) ∨
      (fileArrayLen ≤ s.next ∧ ∃ k, haltFinish E s.status m.kernel = some k ∧
        m' = settle (Function.update m.stage m.kernel.running none) (k.setIflag true)) := by
  rw [act, hs, Option.bind_some, goOn] at h
  split_ifs at h with hlt
  · obtain ⟨k, hk, hm⟩ := Option.map_eq_some_iff.1 h
    exact Or.inl ⟨hlt, k, hk, hm.symm⟩
  · obtain ⟨k, hk, hm⟩ := Option.map_eq_some_iff.1 h
    exact Or.inr ⟨by omega, k, hk, hm.symm⟩

/-- Every step whose halts are masked keeps the invariant. -/
theorem masked_act (h : Masked m) (hg : HaltMasked m a) (ha : act E m a = some m') :
    Masked m' := by
  cases a with
  | event e =>
    simp only [act] at ha
    split_ifs at ha with hacc
    obtain ⟨k, hk, rfl⟩ := Option.map_eq_some_iff.1 ha
    exact masked_of_noHalt (wf_step h.wf hk) (settle_noHalt (h.noHalt_of_accepts hacc) k)
  | part x =>
    simp only [act] at ha
    split_ifs at ha with hcond
    cases ha
    rw [Option.isNone_iff_eq_none] at hcond
    exact masked_of_noHalt (wf_apply h.wf x) (h.noHalt (Or.inl hcond.2))
  | halt status =>
    simp only [act] at ha
    split_ifs at ha with hcond
    cases ha
    rw [Option.isNone_iff_eq_none] at hcond
    exact masked_halt h hcond.1 hcond.2 hg status
  | goOn =>
    cases hs : m.stage m.kernel.running with
    | none =>
      rw [act, hs] at ha
      exact absurd ha (by simp)
    | some s =>
      rcases act_goOn_cases hs ha with ⟨hlt, k, hk, rfl⟩ | ⟨-, k, hk, rfl⟩
      · exact masked_haltClose h hs hlt hk
      · exact masked_haltFinish h (h.running_ne_zero hs) hk

/-- While a process is in its halt, the only step is its own next one. -/
theorem pidKept_of_masked (h : Masked m) (hg : HaltMasked m a) : PidKept E m a := by
  intro p m' hp hover ha
  obtain ⟨s, hs⟩ := Option.isSome_iff_exists.1 hp
  have hsome : m.stage m.kernel.running = some s := by rw [(h.alone p s hs).1, hs]
  have hkept := masked_act h hg ha
  cases a with
  | event e =>
    simp only [act] at ha
    split_ifs at ha with hacc
    rw [h.noHalt_of_accepts hacc] at hs
    exact absurd hs (by simp)
  | part x =>
    simp only [act] at ha
    split_ifs at ha with hcond
    rw [hsome] at hcond
    exact absurd hcond.2 (by simp)
  | halt status =>
    simp only [act] at ha
    split_ifs at ha with hcond
    rw [hsome] at hcond
    exact absurd hcond.2 (by simp)
  | goOn =>
    obtain ⟨hrun, -, -⟩ := h.alone p s hs
    rcases act_goOn_cases hsome ha with ⟨-, k, -, rfl⟩ | ⟨hend, -⟩
    · refine (hkept.alone p { s with next := s.next + 1 } ?_).2.2
      simp only [hrun, Function.update_self]
    · exact absurd ⟨hrun, s, hs, hend⟩ hover

theorem masked_run (hg : Guarded (act E) HaltMasked (bootThreads E) es)
    (hrun : run (act E) (bootThreads E) es = some m) : Masked m :=
  invariant_of_guarded (I := Masked) (fun _ _ _ hI hgood ha => masked_act hI hgood ha)
    (masked_boot E) hg hrun

/-- **No pid is given away before `halt` completes**, in the runs in which no halt closes the last
descriptor of the clock: a process that is in its halt goes on alone, with interrupts disabled, and
its pid stays free until it hands its terminal over. -/
theorem halt_exclusive (hg : Guarded (act E) HaltMasked (bootThreads E) es) :
    Guarded (act E) (PidKept E) (bootThreads E) es ∧
      ∀ fs m, fs <+: es → run (act E) (bootThreads E) fs = some m → Alone m := by
  constructor
  · have hiff : Guarded (act E) (fun _ _ => True) (bootThreads E) es ↔
        Guarded (act E) (PidKept E) (bootThreads E) es :=
      guarded_congr (I := Masked) (fun _ _ _ hI hgood ha => masked_act hI hgood ha)
        (fun _ _ _ hI hgood _ => iff_of_true trivial (pidKept_of_masked hI hgood))
        (masked_boot E) hg
    exact hiff.1 (guarded_of_forall (fun _ _ => trivial) _ es)
  · rintro fs m ⟨gs, rfl⟩ hrun
    exact (masked_run ((guarded_append hrun).1 hg).1 hrun).alone

end Run

/-- Two shells with an open clock each; the second one halts. -/
theorem halt_exclusive_twoClocks :
    Guarded (act small) (PidKept small) (bootThreads small)
        ([.event (.key 0), .event (.openFile rtcName), .event (.execute shell),
          .event (.openFile rtcName), .halt 3] ++ List.replicate 9 .goOn) ∧
      ∀ fs m, fs <+: [.event (.key 0), .event (.openFile rtcName), .event (.execute shell),
          .event (.openFile rtcName), .halt 3] ++ List.replicate 9 .goOn →
        run (act small) (bootThreads small) fs = some m → Alone m :=
  halt_exclusive (by decide +kernel)

/-- The state after a run of the small machine. -/
def smallThreads (es : List Action) : Threads :=
  (run (act small) (bootThreads small) es).getD (bootThreads small)

theorem run_smallThreads {es : List Action}
    (h : (run (act small) (bootThreads small) es).isSome = true) :
    run (act small) (bootThreads small) es = some (smallThreads es) := by
  obtain ⟨m, hm⟩ := Option.isSome_iff_exists.1 h
  rw [smallThreads, hm]
  rfl

/-- The first shell closes the only open descriptor of the clock when it halts, and a tick takes
the processor away from it. -/
def lastClock : List Action :=
  [.event (.key 0), .event (.key 1), .event .tick, .event .tick, .event (.openFile rtcName),
    .halt 0, .goOn, .goOn, .goOn, .event .tick]

/-- The shell of the second terminal executes a command while the first shell is in its halt, and
the new process is given the pid 1. -/
theorem lostPid :
    ∃ m m', run (act small) (bootThreads small) lastClock = some m ∧
      (m.stage 1).isSome = true ∧ m.kernel.running = 2 ∧
      act small m (.event (.execute shell)) = some m' ∧
      m'.kernel.running = 1 ∧ Allocated m'.kernel 1 ∧
      ¬ PidKept small m (.event (.execute shell)) := by
  have hrun : run (act small) (bootThreads small) lastClock = some (smallThreads lastClock) :=
    run_smallThreads (by decide +kernel)
  have hstep : act small (smallThreads lastClock) (.event (.execute shell)) =
      some (smallThreads (lastClock ++ [.event (.execute shell)])) := by
    rw [← run_concat _ hrun]
    exact run_smallThreads (by decide +kernel)
  have hhalt : ((smallThreads lastClock).stage 1).isSome = true := by decide +kernel
  have htaken : Allocated (smallThreads (lastClock ++ [.event (.execute shell)])).kernel 1 := by
    decide +kernel
  refine ⟨_, _, hrun, hhalt, by decide +kernel, hstep, by decide +kernel, htaken, fun hkept => ?_⟩
  exact hkept 1 _ hhalt (fun hover => hover) hstep htaken

end LinuxIsLove
