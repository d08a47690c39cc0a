import LinuxIsLove.Clock

/-!
# The rate of the hardware and the counters of the processes

The driver keeps the highest rate of a process in `rtc_rate`, programs the hardware with it and
gives every process the counter `rtc_rate / rate`.  Two slips are found here.

* A close that lowers `rtc_rate` does not program the hardware (`clock_agrees_iff`).
* An open does not work out the counter of its process (`divider_ok_iff`).
-/

namespace LinuxIsLove

open EventMachine

/-! ### The hardware and `rtc_rate` -/

/-- While the clock is open the hardware runs at `rtc_rate`, and no process that has it open is
faster. -/
def Agrees (c : Clock) : Prop := 0 < c.openCount →
  hwRate c.regA = c.rtcRate ∧ ∀ p, c.opens p ≠ 0 → (c.proc p).rate ≤ c.rtcRate

/-- A close keeps the rate: it is the last one, the rate is the lowest one already, or another
process has the rate of the clock. -/
def KeepsRate (c : Clock) : ClockOp → Prop
  | .rtcClose p => c.openCount = 1 ∨ c.rtcRate = rateMin ∨
      ∃ q, q ≠ p ∧ (c.proc q).rate = c.rtcRate
  | _ => True

section Hardware

variable {c c' : Clock} {p : Fin maxProcesses}

/-- The hardware runs at the rate that the driver thinks it does. -/
def InStep (c : Clock) : Prop := ClockSound c ∧ (0 < c.openCount → hwRate c.regA = c.rtcRate)

theorem InStep.agrees (h : InStep c) : Agrees c :=
  fun hpos => ⟨h.2 hpos, fun p _ => h.1.rate_le hpos p⟩

/-- A close that is not the last one keeps the rate exactly if another process needs it. -/
theorem closed_rtcRate_iff (hc : ClockSound c) (hopen : c.opens p ≠ 0) (h1 : c.openCount ≠ 1) :
    (c.closed p).rtcRate = c.rtcRate ↔
      c.rtcRate = rateMin ∨ ∃ q, q ≠ p ∧ (c.proc q).rate = c.rtcRate := by
  have hpos := hc.openCount_pos hopen
  obtain ⟨-, -, -, hproc⟩ := Clock.closed_again (p := p) h1
  obtain ⟨hmin, hle, hmax⟩ := Clock.closed_again_rate (p := p) h1
  constructor
  · intro heq
    rw [heq] at hmax
    rcases hmax with hmax | ⟨q, hmax⟩
    · exact Or.inl hmax
    · rw [(hproc q).1] at hmax
      split_ifs at hmax with hqp
      · exact Or.inl hmax
      · exact Or.inr ⟨q, hqp, hmax.symm⟩
  · intro hkeep
    have hupper : (c.closed p).rtcRate ≤ c.rtcRate := by
      rcases hmax with hmax | ⟨q, hmax⟩
      · rw [hmax]
        exact (hc.rtcRate hpos).2
      · rw [hmax, (hproc q).1]
        split_ifs
        · exact (hc.rtcRate hpos).2
        · exact hc.rate_le hpos q
    refine le_antisymm hupper ?_
    rcases hkeep with heq | ⟨q, hqp, heq⟩
    · rwa [heq]
    · have hq := hle q
      rwa [(hproc q).1, if_neg hqp, heq] at hq

theorem inStep_step {o : ClockOp} (hc : InStep c) (hgood : KeepsRate c o)
    (h : clockStep c o = some c') : InStep c' := by
  refine ⟨clockSound_step hc.1 h, ?_⟩
  rcases clockStep_cases h with ⟨p, rfl, rfl⟩ | ⟨p, word, rfl, hopen, rfl⟩ |
      ⟨p, rfl, hopen, rfl⟩
  · intro _
    by_cases h0 : c.openCount = 0
    · obtain ⟨-, hrate, hreg, -⟩ := Clock.opened_first (p := p) h0
      rw [hreg, hrate]
    · obtain ⟨-, hrate, hreg, -⟩ := Clock.opened_again (p := p) h0
      rw [hreg, hrate]
      exact hc.2 (lt_of_le_of_ne hc.1.openCount_nonneg (Ne.symm h0))
  · intro _
    have hpos := hc.1.openCount_pos hopen
    by_cases hacc : Accepted word.toInt
    swap
    · rw [Clock.wrote_rejected hacc]
      exact hc.2 hpos
    by_cases hle : word.toInt ≤ c.rtcRate
    · obtain ⟨-, hrate, hreg, -⟩ := Clock.wrote_low (p := p) hacc hle
      rw [hreg, hrate]
      exact hc.2 hpos
    · have hsound : ClockSound (c.wrote p word.toInt) := clockSound_wrote hc.1 hopen
      obtain ⟨hcount, hrate, hreg, -⟩ := Clock.wrote_raise (p := p) hacc (not_le.1 hle)
      have hnew := hsound.rtcRate (by rwa [hcount])
      rw [hrate] at hnew
      rw [hreg, hrate]
      exact hwRate_setRate _ hnew.1 hnew.2
  · intro hpos'
    by_cases h1 : c.openCount = 1
    · rw [(Clock.closed_last h1).1] at hpos'
      exact absurd hpos' (lt_irrefl 0)
    · rw [(Clock.closed_again h1).2.2.1,
        (closed_rtcRate_iff hc.1 hopen h1).2 (hgood.resolve_left h1)]
      exact hc.2 (hc.1.openCount_pos hopen)

theorem keepsRate_of_agrees {o : ClockOp} (hc : InStep c) (h : clockStep c o = some c')
    (hagree : Agrees c') : KeepsRate c o := by
  rcases clockStep_cases h with ⟨p, rfl, rfl⟩ | ⟨p, word, rfl, hopen, rfl⟩ |
      ⟨p, rfl, hopen, rfl⟩
  · trivial
  · trivial
  · by_cases h1 : c.openCount = 1
    · exact Or.inl h1
    · have hpos := hc.1.openCount_pos hopen
      obtain ⟨hcount, -, hreg, -⟩ := Clock.closed_again (p := p) h1
      have hrate := (hagree (by rw [hcount]; omega)).1
      rw [hreg, hc.2 hpos] at hrate
      exact Or.inr ((closed_rtcRate_iff hc.1 hopen h1).1 hrate.symm)

/-- **The hardware agrees with the driver** throughout a run of the clients exactly if no close in
it lowers the rate while the clock stays open. -/
theorem clock_agrees_iff (regA regB : BitVec 8) (pic : Pic) (iflag : Bool)
    (es : List ClockOp) :
    (∀ fs c, fs <+: es → run clockStep (clockInit regA regB pic iflag) fs = some c → Agrees c) ↔
      Guarded clockStep KeepsRate (clockInit regA regB pic iflag) es :=
  guarded_iff_forall_prefix (I := InStep) (fun _ => InStep.agrees)
    (fun _ _ _ hc hgood h => inStep_step hc hgood h)
    (fun _ _ _ hc h hagree => keepsRate_of_agrees hc h hagree)
    ⟨clockSound_init regA regB pic iflag, fun h => absurd h (lt_irrefl 0)⟩ es

/-- Two processes open the clock, the first one takes 8 Hz and closes it again: the hardware stays
at 8 Hz while `rtc_rate` is 2. -/
theorem staleHardware : ∃ c, run clockStep (clockInit 0 0 i8259Init true)
    [.rtcOpen 0, .rtcOpen 1, .rtcWrite 0 8, .rtcClose 0] = some c ∧
      c.openCount = 1 ∧ c.rtcRate = 2 ∧ hwRate c.regA = 8 ∧ ¬ Agrees c := by
  refine ⟨_, rfl, by decide, by decide, by decide, fun hagree => ?_⟩
  exact absurd (hagree (by decide)).1 (by decide)

end Hardware

/-! ### The counters -/

/-- The counter of a process divides the rate of the clock down to its own rate, which is the
lowest one unless it has written another. -/
structure DividerOk (c : Clock) (p : Fin maxProcesses) : Prop where
  pos : 1 ≤ (c.proc p).maxCount
  exact : (c.proc p).maxCount * (c.proc p).rate = c.rtcRate
  unwritten : c.written p = false → (c.proc p).rate = rateMin

/-- A write of a power of two between 2 and 1024. -/
def InRange : ClockOp → Prop
  | .rtcWrite _ word => IsRate word.toInt ∧ rateMin ≤ word.toInt
  | _ => True

/-- What runs keep whose writes are in range. -/
structure Counting (c : Clock) : Prop where
  sound : ClockSound c
  rates : ∀ p, IsRate (c.proc p).rate
  dividerOk_iff : ∀ p, c.opens p ≠ 0 → (DividerOk c p ↔ c.counted p = true)
  unwritten : ∀ p, c.opens p ≠ 0 → c.written p = false → (c.proc p).rate = rateMin

section Counters

variable {c c' : Clock} {p : Fin maxProcesses} {rate : ℤ}

/-- A counter that was worked out is right. -/
theorem dividerOk_of_tdiv (hc : ClockSound c) (hopen : c.opens p ≠ 0)
    (hrate : IsRate (c.proc p).rate)
    (hmax : (c.proc p).maxCount = c.rtcRate.tdiv (c.proc p).rate)
    (hunwritten : c.written p = false → (c.proc p).rate = rateMin) : DividerOk c p := by
  have hpos := hc.openCount_pos hopen
  obtain ⟨hone, hmul⟩ := hrate.tdiv (hc.rtcRate hpos).1 (hc.rate_le hpos p)
  exact ⟨by rwa [hmax], by rwa [hmax], hunwritten⟩

theorem DividerOk.congr {q : Fin maxProcesses} (hproc : c'.proc q = c.proc q)
    (hrate : c'.rtcRate = c.rtcRate) (hwritten : c'.written q = c.written q) :
    DividerOk c' q ↔ DividerOk c q := by
  constructor
  · rintro ⟨h1, h2, h3⟩
    rw [hproc] at h1
    rw [hproc, hrate] at h2
    rw [hproc, hwritten] at h3
    exact ⟨h1, h2, h3⟩
  · rintro ⟨h1, h2, h3⟩
    rw [← hproc] at h1
    rw [← hproc, ← hrate] at h2
    rw [← hproc, ← hwritten] at h3
    exact ⟨h1, h2, h3⟩

/-- While a process keeps the lowest rate its divider is right exactly if its counter fits the rate
of the clock. -/
theorem dividerOk_iff_of_rateMin (hrate : (c.proc p).rate = rateMin) (hmin : rateMin ≤ c.rtcRate) :
    DividerOk c p ↔ (c.proc p).maxCount * rateMin = c.rtcRate := by
  constructor
  · intro hd
    have hexact := hd.exact
    rwa [hrate] at hexact
  · intro heq
    have htwo : rateMin = 2 := rfl
    rw [← heq, htwo] at hmin
    exact ⟨by omega, by rw [hrate, heq], fun _ => hrate⟩

/-- A process that has the clock open finds everything as it was after another `open`. -/
theorem Clock.opened_live {q : Fin maxProcesses} (hcount : c.openCount ≠ 0) (hq : c.opens q ≠ 0) :
    (c.opened p).written q = c.written q ∧ (c.opened p).counted q = c.counted q ∧
      (c.opened p).rtcRate = c.rtcRate := by
  refine ⟨?_, ?_, (Clock.opened_again hcount).2.1⟩
  · simp only [Clock.opened, Function.update_apply]
    split_ifs with hqp
    · subst hqp
      simp [hq]
    · rfl
  · simp only [Clock.opened, Function.update_apply]
    split_ifs with hqp h
    · exact absurd (hqp ▸ of_decide_eq_true h) hq
    · rw [hqp]
    · rfl

theorem counting_opened (hc : Counting c) : Counting (c.opened p) := by
  have hsound := clockSound_opened (p := p) hc.sound
  have hproc : (c.opened p).proc = c.proc := by
    by_cases h0 : c.openCount = 0
    · exact (Clock.opened_first h0).2.2.2
    · exact (Clock.opened_again h0).2.2.2
  have hold : ∀ q, c.opens q ≠ 0 → (c.opened p).written q = c.written q ∧
      (c.opened p).counted q = c.counted q ∧ (c.opened p).rtcRate = c.rtcRate :=
    fun q hq => Clock.opened_live (hc.sound.openCount_pos hq).ne' hq
  have hnew : ∀ q, (c.opened p).opens q ≠ 0 → c.opens q = 0 → q = p := by
    intro q hq hq0
    by_contra hqp
    rw [Clock.opened_opens, Function.update_of_ne hqp] at hq
    exact hq hq0
  refine ⟨hsound, fun q => ?_, fun q hq => ?_, fun q hq hw => ?_⟩
  · rw [hproc]
    exact hc.rates q
  · by_cases hq0 : c.opens q = 0
    · -- the new process: its counter is the one that was left behind
      obtain rfl := hnew q hq hq0
      have hrate : ((c.opened q).proc q).rate = rateMin := by
        rw [hproc, hc.sound.idle q hq0]
      have hcounted : (c.opened q).counted q =
          decide ((c.proc q).maxCount * rateMin = (c.opened q).rtcRate) := by
        simp [Clock.opened, Clock.rtcRate, hq0]
      have hmin := (hsound.rtcRate (hsound.openCount_pos hq)).2
      rw [dividerOk_iff_of_rateMin hrate hmin, hcounted, decide_eq_true_iff, hproc]
    · obtain ⟨hwritten, hcounted, hrate⟩ := hold q hq0
      rw [hcounted, DividerOk.congr (congrFun hproc q) hrate hwritten]
      exact hc.dividerOk_iff q hq0
  · rw [hproc]
    by_cases hq0 : c.opens q = 0
    · exact hc.sound.idle q hq0
    · rw [(hold q hq0).1] at hw
      exact hc.unwritten q hq0 hw

theorem counting_wrote {word : BitVec 32} (hc : Counting c) (hrange : IsRate word.toInt)
    (hopen : c.opens p ≠ 0) : Counting (c.wrote p word.toInt) := by
  have hsound : ClockSound (c.wrote p word.toInt) := clockSound_wrote hc.sound hopen
  have hacc := accepted_of_isRate hrange
  have hrates : ∀ q, IsRate ((c.wrote p word.toInt).proc q).rate := by
    intro q
    rw [Clock.wrote_rate hacc]
    split_ifs
    · exact hrange
    · exact hc.rates q
  have hunwritten : ∀ q, c.opens q ≠ 0 → (c.wrote p word.toInt).written q = false →
      ((c.wrote p word.toInt).proc q).rate = rateMin := by
    intro q hq hw
    simp only [Clock.wrote, hacc, Function.update_apply] at hw
    split_ifs at hw with hqp
    · exact absurd hw (by simp)
    · rw [Clock.wrote_rate hacc, if_neg hqp]
      exact hc.unwritten q hq hw
  refine ⟨hsound, hrates, fun q hq => ?_, hunwritten⟩
  by_cases hle : word.toInt ≤ c.rtcRate
  · obtain ⟨-, hrate, -, hproc⟩ := Clock.wrote_low (p := p) hacc hle
    by_cases hqp : q = p
    · refine iff_of_true (dividerOk_of_tdiv hsound hq (hrates q) ?_ (hunwritten q hq)) ?_
      · rw [hproc, if_pos hqp, hrate]
      · simp [Clock.wrote, hacc, hqp]
    · have hcounted : (c.wrote p word.toInt).counted q = c.counted q := by
        simp [Clock.wrote, hqp, not_lt.2 hle]
      rw [hcounted, DividerOk.congr (by rw [hproc, if_neg hqp]) hrate
        (Function.update_of_ne hqp _ _)]
      exact hc.dividerOk_iff q hq
  · -- a raise works out every counter
    have hlt := not_le.1 hle
    obtain ⟨-, hrate, -, hproc⟩ := Clock.wrote_raise (p := p) hacc hlt
    refine iff_of_true (dividerOk_of_tdiv hsound hq (hrates q) ?_ (hunwritten q hq)) ?_
    · rw [(hproc q).2, hrate]
    · simp [Clock.wrote, hacc, hlt]

theorem counting_closed (hc : Counting c) (hopen : c.opens p ≠ 0) : Counting (c.closed p) := by
  have hsound := clockSound_closed hc.sound hopen
  have hopens : ∀ q, (c.closed p).opens q ≠ 0 → c.opens q ≠ 0 := by
    intro q hq
    rw [Clock.closed_opens, Function.update_apply] at hq
    split_ifs at hq with hqp
    · rwa [hqp]
    · exact hq
  have hrates : ∀ q, IsRate ((c.closed p).proc q).rate := by
    intro q
    rw [Clock.closed_rate]
    split_ifs
    · exact isRate_rateMin
    · exact hc.rates q
  by_cases h1 : c.openCount = 1
  · have hnone : ∀ q, (c.closed p).opens q = 0 := by
      intro q
      have hle := hsound.opens_le q
      have hzero : (c.closed p).openCount = 0 := (Clock.closed_last h1).1
      omega
    exact ⟨hsound, hrates, fun q hq => absurd (hnone q) hq, fun q hq => absurd (hnone q) hq⟩
  · obtain ⟨-, -, -, hproc⟩ := Clock.closed_again (p := p) h1
    have hunwritten : ∀ q, (c.closed p).opens q ≠ 0 → c.written q = false →
        ((c.closed p).proc q).rate = rateMin := by
      intro q hq hw
      rw [Clock.closed_rate]
      split_ifs
      · rfl
      · exact hc.unwritten q (hopens q hq) hw
    refine ⟨hsound, hrates, fun q hq => ?_, hunwritten⟩
    refine iff_of_true
      (dividerOk_of_tdiv hsound hq (hrates q) (hproc q).2 (hunwritten q hq)) ?_
    simp [Clock.closed, h1]

theorem counting_init (regA regB : BitVec 8) (pic : Pic) (iflag : Bool) :
    Counting (clockInit regA regB pic iflag) := by
  refine ⟨clockSound_init regA regB pic iflag, fun p => ?_, fun p hp => absurd rfl hp,
    fun p hp => absurd rfl hp⟩
  have hrate : ((clockInit regA regB pic iflag).proc p).rate = rateMin := if_pos p.isLt
  rw [hrate]
  exact isRate_rateMin

theorem counting_step {o : ClockOp} (hc : Counting c) (hrange : InRange o)
    (h : clockStep c o = some c') : Counting c' := by
  rcases clockStep_cases h with ⟨p, rfl, rfl⟩ | ⟨p, word, rfl, hopen, rfl⟩ |
      ⟨p, rfl, hopen, rfl⟩
  · exact counting_opened hc
  · exact counting_wrote hc hrange.1 hopen
  · exact counting_closed hc hopen

/-- **The counter of a process that has the clock open** divides the rate of the clock down to the
rate of the process exactly if it has been worked out since the process opened the clock (by a
write of its own, a write that raised the rate, or a close that was not the last one), or had the
right value at that open. -/
theorem divider_ok_iff (regA regB : BitVec 8) (pic : Pic) (iflag : Bool) {es : List ClockOp}
    {c : Clock} (h : run clockStep (clockInit regA regB pic iflag) es = some c)
    (hrange : ∀ o ∈ es, InRange o) (p : Fin maxProcesses) (hp : c.opens p ≠ 0) :
    DividerOk c p ↔ c.counted p = true := by
  have hguard : Guarded clockStep (fun _ o => InRange o)
      (clockInit regA regB pic iflag) es := guarded_of_mem (fun o ho _ => hrange o ho) _
  exact (invariant_of_guarded (I := Counting)
    (fun _ _ _ hc ho hs => counting_step hc ho hs)
    (counting_init regA regB pic iflag) hguard h).dividerOk_iff p hp

/-- A process that raises the rate to 8 Hz gets the counter 1. -/
theorem divider_ok_eight : ∃ c, run clockStep (clockInit 0 0 i8259Init true)
    [.rtcOpen 0, .rtcWrite 0 8] = some c ∧ c.rtcRate = 8 ∧ DividerOk c 0 := by
  refine ⟨_, rfl, by decide, ?_⟩
  have hrun : run clockStep (clockInit 0 0 i8259Init true) [.rtcOpen 0, .rtcWrite 0 8] =
    some _ := rfl
  refine (divider_ok_iff 0 0 i8259Init true hrun ?_ 0 (by decide)).2 (by decide)
  intro o ho
  rcases List.mem_cons.1 ho with rfl | ho
  · trivial
  · obtain rfl := List.mem_singleton.1 ho
    exact ⟨⟨3, by decide, by decide⟩, by decide⟩

/-- The first process that opens the clock waits for zero interrupts. -/
theorem firstOpen_zero : ∃ c, run clockStep (clockInit 0 0 i8259Init true) [.rtcOpen 0] = some c ∧
    c.opens 0 = 1 ∧ (c.proc 0).maxCount = 0 ∧ ¬ DividerOk c 0 := by
  refine ⟨_, rfl, by decide, by decide, fun hd => ?_⟩
  exact absurd hd.pos (by decide)

end Counters

end LinuxIsLove
