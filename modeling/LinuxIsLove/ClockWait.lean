import LinuxIsLove.Clock

/-!
# Waiting for the clock

While a process waits in `rtc_read`, interrupts count its counter down and the other processes go
on opening, writing and closing the clock.  An interrupt that is taken while the hardware runs at
`h` Hz accounts for `1 / h` of a second.

A write that raises the rate gives every process a new counter for its next read, but leaves the
counter of a read that has begun: what is left of that wait is counted in the shorter periods.  The
wait is the one the process asked for, in every interleaving, in two cases only
(`undisturbed_iff`): it lasts for one period of the clock, or for two at the highest rate.
-/

namespace LinuxIsLove

open EventMachine

/-- The process that an operation belongs to. -/
def ClockOp.process : ClockOp → Fin maxProcesses
  | .rtcOpen p => p
  | .rtcWrite p _ => p
  | .rtcClose p => p

/-- An interrupt of the clock. -/
def Clock.interrupted (c : Clock) : Clock :=
  { c with devices := { c.devices with rtc := rtcHandlerMain c.devices.rtc } }

/-- A process enters `rtc_read`. -/
def Clock.reading (c : Clock) (p : Fin maxProcesses) : Clock :=
  { c with devices := rtcRead c.devices (p + 1) }

/-- A process waits, since the given number of seconds. -/
structure Wait where
  clock : Clock
  elapsed : ℚ

inductive WaitEvent
  | interrupt
  | other (o : ClockOp)

def waitStart (a : Fin maxProcesses) (c : Clock) : Wait := ⟨c.reading a, 0⟩

/-- The spin of the process `a` goes on while its counter is positive. -/
def waitStep (a : Fin maxProcesses) (w : Wait) (e : WaitEvent) : Option Wait :=
  if (w.clock.proc a).currCount ≤ 0 then none
  else
    match e with
    | .interrupt => some ⟨w.clock.interrupted, w.elapsed + 1 / hwRate w.clock.regA⟩
    | .other o =>
      if o.process = a then none else (clockStep w.clock o).map fun c => ⟨c, w.elapsed⟩

/-- However the other processes use the clock, a read of `a` lasts as long as its rate says, up to
one period of the rate that the clock has at its beginning. -/
def Undisturbed (c : Clock) (a : Fin maxProcesses) : Prop :=
  ∀ es w, run (waitStep a) (waitStart a c) es = some w → (w.clock.proc a).currCount ≤ 0 →
    |w.elapsed - 1 / (c.proc a).rate| < 1 / c.rtcRate

/-! ### What the others can change -/

/-- The process `a`, of rate `r`, waits on a clock that ran at `h` Hz when the wait began. -/
structure Waiting (a : Fin maxProcesses) (r h : ℤ) (c : Clock) : Prop where
  sound : ClockSound c
  isOpen : c.opens a ≠ 0
  rate : (c.proc a).rate = r
  hardware : hwRate c.regA = h ∨ IsRate (hwRate c.regA) ∧ r < hwRate c.regA

section Others

variable {a p q : Fin maxProcesses} {r h : ℤ} {c c' : Clock} {o : ClockOp} {w w' : Wait}

theorem ClockSound.congr (hc : ClockSound c) (hopens : c'.opens = c.opens)
    (hcount : c'.openCount = c.openCount) (hrate : c'.rtcRate = c.rtcRate)
    (hrates : ∀ q, (c'.proc q).rate = (c.proc q).rate) : ClockSound c' := by
  refine ⟨?_, fun q hq => ?_, fun q => ?_, fun hpos q => ?_, fun hpos => ?_⟩
  · rw [hcount, hopens, hc.count]
  · rw [hrates]
    exact hc.idle q (by rwa [hopens] at hq)
  · rw [hrates]
    exact hc.rates q
  · rw [hrates, hrate]
    exact hc.rate_le (by rwa [hcount] at hpos) q
  · rw [hrate]
    exact hc.rtcRate (by rwa [hcount] at hpos)

theorem interrupted_proc (c : Clock) (q : Fin maxProcesses) :
    c.interrupted.proc q = { c.proc q with currCount := (c.proc q).currCount - 1 } :=
  if_pos q.isLt

theorem reading_proc (c : Clock) (p q : Fin maxProcesses) :
    (c.reading p).proc q =
      if q = p then { c.proc q with currCount := (c.proc q).maxCount } else c.proc q := by
  simp only [Clock.reading, Clock.proc, rtcRead, Nat.add_sub_cancel, Function.update_apply,
    Fin.val_inj]
  split_ifs with hqp
  · rw [hqp]
  · rfl

theorem clockSound_interrupted (hc : ClockSound c) : ClockSound c.interrupted :=
  hc.congr rfl rfl rfl fun q => by rw [interrupted_proc]

theorem clockSound_reading (hc : ClockSound c) : ClockSound (c.reading p) := by
  refine hc.congr rfl rfl rfl fun q => ?_
  rw [reading_proc]
  split_ifs <;> rfl

/-- No operation of the clients touches a counter that is being counted down. -/
theorem currCount_step (hs : clockStep c o = some c') :
    (c'.proc q).currCount = (c.proc q).currCount := by
  rcases clockStep_cases hs with ⟨p, -, rfl⟩ | ⟨p, word, -, -, rfl⟩ | ⟨p, -, -, rfl⟩
  · by_cases h0 : c.openCount = 0
    · rw [(Clock.opened_first h0).2.2.2]
    · rw [(Clock.opened_again h0).2.2.2]
  · by_cases hacc : Accepted word.toInt
    swap
    · rw [Clock.wrote_rejected hacc]
    by_cases hle : word.toInt ≤ c.rtcRate
    · rw [(Clock.wrote_low hacc hle).2.2.2]
      split_ifs <;> rfl
    · simp only [Clock.proc, Clock.wrote, rtcWrite_raise hacc (not_le.1 hle),
        updateRtcProcesses_procs, rateGiven_procs]
      split_ifs <;> rfl
  · by_cases h1 : c.openCount = 1
    · rw [(Clock.closed_last h1).2.2.2]
      split_ifs <;> rfl
    · simp only [Clock.proc, Clock.closed, rtcClose_again h1, updateRtcProcesses_procs,
        rateDropped_procs]
      split_ifs <;> rfl

/-- The operations of other processes leave the process its descriptors and its rate; the hardware
only ever goes to rates above that of the process. -/
theorem waiting_other (hw : Waiting a r h c) (hne : o.process ≠ a)
    (hs : clockStep c o = some c') : Waiting a r h c' := by
  have hsound := clockSound_step hw.sound hs
  have hpos := hw.sound.openCount_pos hw.isOpen
  rcases clockStep_cases hs with ⟨p, rfl, rfl⟩ | ⟨p, word, rfl, hopen, rfl⟩ |
      ⟨p, rfl, hopen, rfl⟩
  · have hap : a ≠ p := Ne.symm hne
    obtain ⟨-, -, hreg, hproc⟩ := Clock.opened_again (p := p) hpos.ne'
    refine ⟨hsound, ?_, by rw [hproc, hw.rate], by rw [hreg]; exact hw.hardware⟩
    rw [Clock.opened_opens, Function.update_of_ne hap]
    exact hw.isOpen
  · have hap : a ≠ p := Ne.symm hne
    by_cases hacc : Accepted word.toInt
    swap
    · rwa [Clock.wrote_rejected hacc]
    by_cases hle : word.toInt ≤ c.rtcRate
    · have hreg := (Clock.wrote_low (p := p) hacc hle).2.2.1
      refine ⟨hsound, hw.isOpen, ?_, by rw [hreg]; exact hw.hardware⟩
      rw [Clock.wrote_rate hacc, if_neg hap, hw.rate]
    · have hlt := not_le.1 hle
      obtain ⟨hcount, hrate, hreg, -⟩ := Clock.wrote_raise (p := p) hacc hlt
      refine ⟨hsound, hw.isOpen, ?_, Or.inr ?_⟩
      · rw [Clock.wrote_rate hacc, if_neg hap, hw.rate]
      · -- the hardware is programmed only with a rate above that of every process
        have hnew := hsound.rtcRate (by rwa [hcount])
        rw [hrate] at hnew
        rw [hreg, hwRate_setRate _ hnew.1 hnew.2]
        have hra := hw.sound.rate_le hpos a
        rw [hw.rate] at hra
        exact ⟨hnew.1, hra.trans_lt hlt⟩
  · have hap : a ≠ p := Ne.symm hne
    have hopen' : (c.closed p).opens a ≠ 0 := by
      rw [Clock.closed_opens, Function.update_of_ne hap]
      exact hw.isOpen
    -- it is not the last close, since `a` has the clock open
    have h1 : c.openCount ≠ 1 := by
      intro h1
      have hzero := (Clock.closed_last (p := p) h1).1
      have := hsound.openCount_pos hopen'
      omega
    have hreg := (Clock.closed_again (p := p) h1).2.2.1
    refine ⟨hsound, hopen', ?_, by rw [hreg]; exact hw.hardware⟩
    rw [Clock.closed_rate, if_neg hap, hw.rate]

/-- A step of a wait is an interrupt, which counts, or leaves the count and the time alone. -/
theorem waiting_step {e : WaitEvent} (hw : Waiting a r h w.clock)
    (hs : waitStep a w e = some w') :
    Waiting a r h w'.clock ∧ 0 < (w.clock.proc a).currCount ∧
      (((w'.clock.proc a).currCount = (w.clock.proc a).currCount - 1 ∧
          w'.elapsed = w.elapsed + 1 / hwRate w.clock.regA) ∨
        ((w'.clock.proc a).currCount = (w.clock.proc a).currCount ∧
          w'.elapsed = w.elapsed)) := by
  unfold waitStep at hs
  rw [Option.ite_none_left_eq_some, not_le] at hs
  obtain ⟨hpos, hs⟩ := hs
  cases e with
  | interrupt =>
    obtain rfl := Option.some.inj hs
    refine ⟨⟨clockSound_interrupted hw.sound, hw.isOpen, ?_, hw.hardware⟩, hpos, Or.inl ⟨?_, rfl⟩⟩
    · rw [interrupted_proc, ← hw.rate]
    · rw [interrupted_proc]
  | other o =>
    simp only [Option.ite_none_left_eq_some, Option.map_eq_some_iff] at hs
    obtain ⟨hne, c', hc', rfl⟩ := hs
    exact ⟨waiting_other hw hne hc', hpos, Or.inr ⟨currCount_step hc', rfl⟩⟩

theorem waiting_start (hc : ClockSound c) (hopen : c.opens a ≠ 0) :
    Waiting a (c.proc a).rate (hwRate c.regA) (waitStart a c).clock := by
  refine ⟨clockSound_reading hc, hopen, ?_, Or.inl rfl⟩
  rw [waitStart, reading_proc, if_pos rfl]

theorem currCount_start : ((waitStart a c).clock.proc a).currCount = (c.proc a).maxCount := by
  rw [waitStart, reading_proc, if_pos rfl]

theorem IsRate.le_half {x : ℤ} (h : IsRate x) (hx : x ≠ rateMax) : x ≤ 512 := by
  obtain ⟨k, hk, rfl⟩ := h
  have hk' : k ≤ 9 := by
    by_contra hlt
    rw [show k = 10 by omega] at hx
    exact hx rfl
  calc (2 : ℤ) ^ k ≤ 2 ^ 9 := pow_le_pow_right₀ (by norm_num) hk'
    _ = 512 := by norm_num

end Others

/-! ### Waits that last as long as they should -/

section Undisturbed

variable {a : Fin maxProcesses} {c : Clock}

/-- A wait for one interrupt: that interrupt ends it. -/
theorem undisturbed_of_one (hc : ClockSound c) (hopen : c.opens a ≠ 0)
    (hpos : 0 < (c.proc a).rate) (hmax : (c.proc a).maxCount = 1)
    (hhw : hwRate c.regA = c.rtcRate) (heq : (c.proc a).rate = c.rtcRate) :
    Undisturbed c a := by
  intro es w hrun hover
  have hstart := waiting_start hc hopen
  rw [hhw, ← heq] at hstart
  -- either no interrupt has come, or the one that did came at the rate of the hardware then
  have hinv := invariant_of_run
    (I := fun w : Wait => Waiting a (c.proc a).rate (c.proc a).rate w.clock ∧
      (((w.clock.proc a).currCount = 1 ∧ w.elapsed = 0) ∨
        ((w.clock.proc a).currCount = 0 ∧
          ∃ h : ℤ, (c.proc a).rate ≤ h ∧ w.elapsed = 1 / h)))
    (fun w e w' hI hs => ?_) ⟨hstart, Or.inl ⟨by rw [currCount_start, hmax], rfl⟩⟩ hrun
  · rcases hinv.2 with ⟨hcurr, -⟩ | ⟨-, h, hle, helapsed⟩
    · omega
    · have hr : (0 : ℚ) < (c.proc a).rate := by exact_mod_cast hpos
      have hh : ((c.proc a).rate : ℚ) ≤ h := by exact_mod_cast hle
      have hshorter : 1 / (h : ℚ) ≤ 1 / (c.proc a).rate := one_div_le_one_div_of_le hr hh
      have hhpos : 0 < 1 / (h : ℚ) := one_div_pos.2 (hr.trans_le hh)
      have hrpos : 0 < 1 / ((c.proc a).rate : ℚ) := one_div_pos.2 hr
      rw [helapsed, ← heq, abs_lt]
      constructor <;> linarith
  · obtain ⟨hwait, hcases⟩ := hI
    obtain ⟨hwait', hgo, hor⟩ := waiting_step hwait hs
    refine ⟨hwait', ?_⟩
    rcases hcases with ⟨hcurr, helapsed⟩ | ⟨hzero, -⟩
    · rcases hor with ⟨hcurr', helapsed'⟩ | ⟨hcurr', helapsed'⟩
      · refine Or.inr ⟨by rw [hcurr', hcurr]; rfl, hwRate w.clock.regA, ?_, ?_⟩
        · rcases hwait.hardware with heq | ⟨-, hgt⟩
          · exact heq.ge
          · exact hgt.le
        · rw [helapsed', helapsed, zero_add]
      · exact Or.inl ⟨by rw [hcurr', hcurr], by rw [helapsed', helapsed]⟩
    · omega

/-- A wait for two interrupts at the highest rate: nobody can change that rate. -/
theorem undisturbed_of_two (hc : ClockSound c) (hopen : c.opens a ≠ 0)
    (hmax : (c.proc a).maxCount = 2) (hhw : hwRate c.regA = c.rtcRate)
    (hrtc : c.rtcRate = rateMax) (hrate : (c.proc a).rate = 512) : Undisturbed c a := by
  intro es w hrun hover
  have hstart := waiting_start hc hopen
  rw [hhw, hrtc, hrate] at hstart
  have hinv := invariant_of_run
    (I := fun w : Wait => Waiting a 512 rateMax w.clock ∧ 0 ≤ (w.clock.proc a).currCount ∧
      w.elapsed + (w.clock.proc a).currCount / 1024 = 2 / 1024)
    (fun w e w' hI hs => ?_) ⟨hstart, ?_, ?_⟩ hrun
  · obtain ⟨-, hcurr, helapsed⟩ := hinv
    have hzero : (w.clock.proc a).currCount = 0 := le_antisymm hover hcurr
    rw [hzero, Int.cast_zero, zero_div, add_zero] at helapsed
    rw [helapsed, hrate, hrtc]
    norm_num [rateMax]
  · obtain ⟨hwait, -, helapsed⟩ := hI
    obtain ⟨hwait', hgo, hor⟩ := waiting_step hwait hs
    refine ⟨hwait', ?_⟩
    -- a rate above 512 is the highest one
    have hhigh : hwRate w.clock.regA = rateMax := by
      rcases hwait.hardware with heq | ⟨hisRate, hgt⟩
      · exact heq
      · by_contra hne
        exact absurd (hisRate.le_half hne) (not_le.2 hgt)
    rcases hor with ⟨hcurr', helapsed'⟩ | ⟨hcurr', helapsed'⟩
    · refine ⟨by omega, ?_⟩
      rw [hcurr', helapsed', hhigh, ← helapsed, show rateMax = 1024 from rfl]
      push_cast
      ring
    · rw [hcurr', helapsed']
      exact ⟨hgo.le, helapsed⟩
  · rw [currCount_start, hmax]
    decide
  · rw [currCount_start, hmax, waitStart]
    norm_num

end Undisturbed

/-! ### Disturbing a wait -/

section Disturbed

variable {a p q : Fin maxProcesses} {r h : ℤ} {c c' : Clock} {o : ClockOp} {w : Wait}

theorem waitStep_other (hgo : 0 < (w.clock.proc a).currCount) (hne : o.process ≠ a)
    (hs : clockStep w.clock o = some c') :
    waitStep a w (.other o) = some ⟨c', w.elapsed⟩ := by
  unfold waitStep
  simp only [if_neg (not_le.2 hgo), if_neg hne, hs, Option.map_some]

/-- The interrupts that end a wait, all at the same rate. -/
theorem run_interrupts (n : ℕ) (hcurr : (w.clock.proc a).currCount = n) :
    ∃ w', run (waitStep a) w (List.replicate n .interrupt) = some w' ∧
      (w'.clock.proc a).currCount = 0 ∧
      w'.elapsed = w.elapsed + n * (1 / hwRate w.clock.regA) := by
  induction n generalizing w with
  | zero => exact ⟨w, rfl, hcurr, by simp⟩
  | succ n ih =>
    have hgo : ¬ (w.clock.proc a).currCount ≤ 0 := by omega
    have hstep : waitStep a w .interrupt =
        some ⟨w.clock.interrupted, w.elapsed + 1 / hwRate w.clock.regA⟩ := by
      unfold waitStep
      rw [if_neg hgo]
    obtain ⟨w', hrun, hzero, helapsed⟩ := ih
      (w := ⟨w.clock.interrupted, w.elapsed + 1 / hwRate w.clock.regA⟩)
      (by rw [interrupted_proc, hcurr]; push_cast; ring)
    refine ⟨w', ?_, hzero, ?_⟩
    · rw [List.replicate_succ, run_cons_of_step hstep, hrun]
    · rw [helapsed]
      push_cast
      change _ + _ + _ * (1 / (hwRate w.clock.regA : ℚ)) = _
      ring

/-- A process raises the rate before the first interrupt. -/
theorem disturb {word : BitVec 32} {v : ℤ} (hw : Waiting a r h w.clock) (hqa : q ≠ a)
    (hword : word.toInt = v) (hrange : IsRate v) (hlt : w.clock.rtcRate < v) {n : ℕ}
    (hcurr : (w.clock.proc a).currCount = n) (hn : n ≠ 0) :
    ∃ es w', run (waitStep a) w es = some w' ∧ (w'.clock.proc a).currCount = 0 ∧
      w'.elapsed = w.elapsed + n * (1 / v) := by
  subst hword
  have hacc := accepted_of_isRate hrange
  have hpos := hw.sound.openCount_pos hw.isOpen
  have hgo : 0 < (w.clock.proc a).currCount := by omega
  obtain ⟨-, hrate1, -, hproc1⟩ := Clock.opened_again (p := q) hpos.ne'
  have hs1 : clockStep w.clock (.rtcOpen q) = some (w.clock.opened q) := rfl
  have hw1 : Waiting a r h (w.clock.opened q) := waiting_other hw (o := .rtcOpen q) hqa hs1
  have hopen : (w.clock.opened q).opens q ≠ 0 := by simp
  have hs2 : clockStep (w.clock.opened q) (.rtcWrite q word) =
      some ((w.clock.opened q).wrote q word.toInt) := by
    rw [clockStep, if_neg hopen]
  obtain ⟨hcount, hrate2, hreg, -⟩ :=
    Clock.wrote_raise (p := q) (c := w.clock.opened q) hacc (by rwa [hrate1])
  have hcurr2 : (((w.clock.opened q).wrote q word.toInt).proc a).currCount = n := by
    rw [currCount_step hs2, currCount_step hs1, hcurr]
  obtain ⟨w', hrun, hzero, helapsed⟩ :=
    run_interrupts (a := a) (w := ⟨(w.clock.opened q).wrote q word.toInt, w.elapsed⟩) n hcurr2
  have hfast : hwRate ((w.clock.opened q).wrote q word.toInt).regA = word.toInt := by
    have hsound := clockSound_step hw1.sound hs2
    have hnew := hsound.rtcRate (by rw [hcount]; exact hw1.sound.openCount_pos hopen)
    rw [hrate2] at hnew
    rw [hreg, hwRate_setRate _ hnew.1 hnew.2]
  refine ⟨.other (.rtcOpen q) :: .other (.rtcWrite q word) :: List.replicate n .interrupt, w',
    ?_, hzero, by rw [helapsed, hfast]⟩
  have hgo1 : 0 < ((w.clock.opened q).proc a).currCount := by rwa [currCount_step hs1]
  rw [run_cons_of_step (waitStep_other hgo (o := .rtcOpen q) hqa hs1),
    run_cons_of_step (waitStep_other hgo1 (o := .rtcWrite q word) hqa hs2), hrun]

/-- The rate of the clock is the highest one of a process. -/
def Trimmed (c : Clock) : Prop := c.rtcRate = rateMin ∨ ∃ q, c.rtcRate = (c.proc q).rate

/-- A process that opens the clock and closes it at once goes back to the lowest rate and lets the
driver lower the rate of the clock. -/
theorem drop_one (hw : Waiting a r h w.clock) (hqa : q ≠ a)
    (hgo : 0 < (w.clock.proc a).currCount) :
    ∃ w', run (waitStep a) w [.other (.rtcOpen q), .other (.rtcClose q)] = some w' ∧
      Waiting a r h w'.clock ∧ Trimmed w'.clock ∧ w'.elapsed = w.elapsed ∧
      (w'.clock.proc a).currCount = (w.clock.proc a).currCount ∧
      ∀ p, (w'.clock.proc p).rate = if p = q then rateMin else (w.clock.proc p).rate := by
  have hpos := hw.sound.openCount_pos hw.isOpen
  obtain ⟨hcount1, -, -, hproc1⟩ := Clock.opened_again (p := q) hpos.ne'
  have hs1 : clockStep w.clock (.rtcOpen q) = some (w.clock.opened q) := rfl
  have hw1 : Waiting a r h (w.clock.opened q) := waiting_other hw (o := .rtcOpen q) hqa hs1
  have hopen : (w.clock.opened q).opens q ≠ 0 := by simp
  have hs2 : clockStep (w.clock.opened q) (.rtcClose q) =
      some ((w.clock.opened q).closed q) := by
    rw [clockStep, if_neg hopen]
  have hnot : (w.clock.opened q).openCount ≠ 1 := by omega
  have hw2 : Waiting a r h ((w.clock.opened q).closed q) :=
    waiting_other hw1 (o := .rtcClose q) hqa hs2
  have hgo1 : 0 < ((w.clock.opened q).proc a).currCount := by rwa [currCount_step hs1]
  refine ⟨⟨(w.clock.opened q).closed q, w.elapsed⟩, ?_, hw2,
    (Clock.closed_again_rate hnot).2.2, rfl, ?_, fun p => ?_⟩
  · rw [run_cons_of_step (waitStep_other hgo (o := .rtcOpen q) hqa hs1),
      run_cons_of_step (waitStep_other hgo1 (o := .rtcClose q) hqa hs2), run_nil]
  · rw [currCount_step hs2, currCount_step hs1]
  · rw [Clock.closed_rate, hproc1]

/-- Several processes do so, one after the other. -/
theorem drop_all (hw : Waiting a r h w.clock) (hgo : 0 < (w.clock.proc a).currCount)
    (l : List (Fin maxProcesses)) (hl : a ∉ l) (hne : l ≠ []) :
    ∃ es w', run (waitStep a) w es = some w' ∧
      Waiting a r h w'.clock ∧ Trimmed w'.clock ∧ w'.elapsed = w.elapsed ∧
      (w'.clock.proc a).currCount = (w.clock.proc a).currCount ∧
      ∀ p, (w'.clock.proc p).rate = if p ∈ l then rateMin else (w.clock.proc p).rate := by
  induction l generalizing w with
  | nil => exact absurd rfl hne
  | cons q l ih =>
    rw [List.mem_cons, not_or] at hl
    obtain ⟨hqa, hal⟩ := hl
    obtain ⟨w1, hrun1, hw1, htrim1, helapsed1, hcurr1, hrate1⟩ :=
      drop_one hw (Ne.symm hqa) hgo
    by_cases hnil : l = []
    · refine ⟨_, w1, hrun1, hw1, htrim1, helapsed1, hcurr1, fun p => ?_⟩
      rw [hrate1, hnil]
      simp only [List.mem_singleton]
    · obtain ⟨es, w2, hrun2, hw2, htrim2, helapsed2, hcurr2, hrate2⟩ :=
        ih hw1 (by rwa [hcurr1]) hal hnil
      refine ⟨[.other (.rtcOpen q), .other (.rtcClose q)] ++ es, w2, ?_, hw2, htrim2,
        by rw [helapsed2, helapsed1], by rw [hcurr2, hcurr1], fun p => ?_⟩
      · exact run_append_eq_some.2 ⟨w1, hrun1, hrun2⟩
      · rw [hrate2, hrate1]
        by_cases hpl : p ∈ l
        · rw [if_pos hpl, if_pos (List.mem_cons_of_mem q hpl)]
        · rw [if_neg hpl]
          simp only [List.mem_cons, hpl, or_false]

/-- There is always another process. -/
theorem exists_other (a : Fin maxProcesses) : ∃ q, q ≠ a := by
  revert a
  decide

/-- The time that is left over when the interrupts of a wait come at another rate. -/
theorem rate_eq_count {n : ℕ} {r R : ℤ} (hR : 0 < R) (hmax : n * r = R) :
    1 / (r : ℚ) = n * (1 / R) := by
  have hmax' : (n : ℚ) * r = R := by exact_mod_cast hmax
  have hRne : (R : ℚ) ≠ 0 := by exact_mod_cast hR.ne'
  have hrne : (r : ℚ) ≠ 0 := by
    intro h0
    rw [h0, mul_zero] at hmax'
    exact hRne hmax'.symm
  rw [div_eq_iff hrne, mul_one_div, div_mul_eq_mul_div, hmax', div_self hRne]

/-- A wait for several interrupts below the highest rate: another process raises the rate to the
highest one. -/
theorem disturbed_of_low (hc : ClockSound c) (hopen : c.opens a ≠ 0) {n : ℕ}
    (hcurr : (c.proc a).maxCount = n) (hn : 2 ≤ n) (hmax : n * (c.proc a).rate = c.rtcRate)
    (hlow : c.rtcRate ≤ 512) : ¬ Undisturbed c a := by
  intro hund
  obtain ⟨q, hqa⟩ := exists_other a
  have hpos := (hc.rtcRate (hc.openCount_pos hopen)).1.pos
  have hlt : (waitStart a c).clock.rtcRate < 1024 := by
    have hsame : (waitStart a c).clock.rtcRate = c.rtcRate := rfl
    omega
  have hword : (1024#32).toInt = (1024 : ℤ) := by decide
  obtain ⟨es, w', hrun, hzero, helapsed⟩ := disturb (waiting_start hc hopen) hqa hword
    ⟨10, le_rfl, rfl⟩ hlt (by rw [currCount_start, hcurr]) (by omega)
  have hclose := hund es w' hrun hzero.le
  rw [helapsed, rate_eq_count hpos hmax, waitStart, zero_add, abs_lt] at hclose
  -- half of every period is lost at least, and there are two of them
  have hhalf : (1 : ℚ) / 1024 ≤ 1 / c.rtcRate / 2 := by
    have hperiod : (1 : ℚ) / 512 ≤ 1 / c.rtcRate :=
      one_div_le_one_div_of_le (by exact_mod_cast hpos) (by exact_mod_cast hlow)
    linarith
  have hn' : (2 : ℚ) ≤ n := by exact_mod_cast hn
  have hlost : (n : ℚ) * (1 / 1024) ≤ n * (1 / c.rtcRate / 2) :=
    mul_le_mul_of_nonneg_left hhalf (by positivity)
  have htwo : (2 : ℚ) * (1 / c.rtcRate / 2) ≤ n * (1 / c.rtcRate / 2) :=
    mul_le_mul_of_nonneg_right hn' (by linarith)
  have hearly := hclose.1
  push_cast at hearly
  linarith

/-- A wait for more than two interrupts at the highest rate: the others give their rates up, which
lowers `rtc_rate`, and then one of them programs the hardware with a lower rate. -/
theorem disturbed_of_high (hc : ClockSound c) (hopen : c.opens a ≠ 0) {n : ℕ}
    (hcurr : (c.proc a).maxCount = n) (hn : n ≠ 0) (hmax : n * (c.proc a).rate = c.rtcRate)
    (hhigh : c.rtcRate = rateMax) (hslow : (c.proc a).rate < 512) : ¬ Undisturbed c a := by
  intro hund
  obtain ⟨q, hqa⟩ := exists_other a
  have hgo : 0 < ((waitStart a c).clock.proc a).currCount := by
    rw [currCount_start, hcurr]
    omega
  obtain ⟨es1, w1, hrun1, hw1, htrim, helapsed1, hcurr1, hrate1⟩ :=
    drop_all (waiting_start hc hopen) hgo ((List.finRange maxProcesses).filter (· ≠ a))
      (by simp) (List.ne_nil_of_mem (a := q) (by simp [hqa]))
  have hrates : ∀ p, (w1.clock.proc p).rate < 512 := by
    intro p
    by_cases hpa : p = a
    · rwa [hpa, hw1.rate]
    · rw [hrate1, if_pos (by simp [hpa])]
      decide
  have hlt : w1.clock.rtcRate < 512 := by
    rcases htrim with heq | ⟨p, heq⟩
    · rw [heq]
      decide
    · rw [heq]
      exact hrates p
  have hword : (512#32).toInt = (512 : ℤ) := by decide
  obtain ⟨es2, w2, hrun2, hzero, helapsed2⟩ := disturb hw1 hqa hword ⟨9, by decide, rfl⟩ hlt
    (by rw [hcurr1, currCount_start, hcurr]) hn
  have hclose := hund (es1 ++ es2) w2 (run_append_eq_some.2 ⟨w1, hrun1, hrun2⟩) hzero.le
  rw [helapsed2, helapsed1, rate_eq_count (by rw [hhigh]; decide) hmax, waitStart, zero_add,
    hhigh, abs_lt] at hclose
  have hn' : (1 : ℚ) ≤ n := by exact_mod_cast Nat.one_le_iff_ne_zero.2 hn
  have hlate := hclose.2
  rw [show rateMax = 1024 from rfl] at hlate
  push_cast at hlate
  linarith

/-- **A process waits undisturbed**, from a state in which its counter is right and the hardware
agrees with the driver, exactly if it waits for one interrupt, or for two at the highest rate. -/
theorem undisturbed_iff (regA regB : BitVec 8) (pic : Pic) (iflag : Bool) {es : List ClockOp}
    {c : Clock} (h : run clockStep (clockInit regA regB pic iflag) es = some c)
    (a : Fin maxProcesses) (hopen : c.opens a ≠ 0) (hrate : IsRate (c.proc a).rate)
    (hmax : (c.proc a).maxCount * (c.proc a).rate = c.rtcRate)
    (hhw : hwRate c.regA = c.rtcRate) :
    Undisturbed c a ↔
      (c.proc a).rate = c.rtcRate ∨ (c.rtcRate = rateMax ∧ (c.proc a).rate = 512) := by
  have hc : ClockSound c := invariant_of_run (fun _ _ _ hc hs => clockSound_step hc hs)
    (clockSound_init regA regB pic iflag) h
  have hpos := hc.openCount_pos hopen
  have hR := (hc.rtcRate hpos).1
  have hle := hc.rate_le hpos a
  have hn : 0 < (c.proc a).maxCount := by
    by_contra hneg
    have hprod := mul_nonpos_of_nonpos_of_nonneg (not_lt.1 hneg) hrate.pos.le
    rw [hmax] at hprod
    exact absurd hR.pos (not_lt.2 hprod)
  obtain ⟨n, hn'⟩ := Int.eq_ofNat_of_zero_le hn.le
  constructor
  · intro hund
    by_contra hcond
    rw [not_or, not_and] at hcond
    have htwo : 2 ≤ n := by
      by_contra hlt
      have hone : n = 1 := by omega
      rw [hn', hone, Nat.cast_one, one_mul] at hmax
      exact hcond.1 hmax
    rw [hn'] at hmax
    by_cases hhigh : c.rtcRate = rateMax
    · have hmaxRate : (c.proc a).rate ≠ rateMax := fun heq => hcond.1 (by rw [heq, hhigh])
      have hslow := lt_of_le_of_ne (hrate.le_half hmaxRate) (hcond.2 hhigh)
      exact disturbed_of_high hc hopen hn' (by omega) hmax hhigh hslow hund
    · exact disturbed_of_low hc hopen hn' htwo hmax (hR.le_half hhigh) hund
  · rintro (heq | ⟨hhigh, hhalf⟩)
    · rw [heq] at hmax
      have hone : (c.proc a).maxCount = 1 := by
        have hRne := hR.pos.ne'
        exact mul_right_cancel₀ hRne (by rw [hmax, one_mul])
      exact undisturbed_of_one hc hopen hrate.pos hone hhw heq
    · refine undisturbed_of_two hc hopen ?_ hhw hhigh hhalf
      rw [hhalf, hhigh, show rateMax = 1024 from rfl] at hmax
      omega

/-- A process that waits at the rate of the clock is undisturbed. -/
theorem undisturbed_eight : ∃ c, run clockStep (clockInit 0 0 i8259Init true)
    [.rtcOpen 0, .rtcWrite 0 8] = some c ∧ (c.proc 0).rate = 8 ∧ Undisturbed c 0 := by
  refine ⟨_, rfl, by decide, ?_⟩
  have hrun : run clockStep (clockInit 0 0 i8259Init true) [.rtcOpen 0, .rtcWrite 0 8] =
    some _ := rfl
  have hiff := undisturbed_iff 0 0 i8259Init true hrun 0 (by decide) ⟨3, by decide, by decide⟩
    (by decide) (by decide)
  exact hiff.2 (Or.inl (by decide))

/-- A process waits for half a second at 2 Hz; after the first of four interrupts another process
raises the rate from 8 Hz to 1024 Hz, and the wait is over after an eighth of a second. -/
theorem shortWait : ∃ c w, run clockStep (clockInit 0 0 i8259Init true)
    [.rtcOpen 0, .rtcOpen 1, .rtcWrite 1 8, .rtcWrite 0 2] = some c ∧
      (c.proc 0).rate = 2 ∧ (c.proc 0).maxCount * 2 = c.rtcRate ∧ hwRate c.regA = c.rtcRate ∧
      run (waitStep 0) (waitStart 0 c) [.interrupt, .other (.rtcWrite 1 1024), .interrupt,
        .interrupt, .interrupt] = some w ∧
      (w.clock.proc 0).currCount = 0 ∧ w.elapsed = 1 / 8 + 3 / 1024 ∧ ¬ Undisturbed c 0 := by
  refine ⟨_, _, rfl, by decide, by decide, by decide, rfl, by decide, by decide +kernel,
    fun hund => ?_⟩
  have hshort := hund [.interrupt, .other (.rtcWrite 1 1024), .interrupt, .interrupt, .interrupt]
    _ rfl (by decide)
  exact absurd hshort (by decide +kernel)

end Disturbed

end LinuxIsLove
