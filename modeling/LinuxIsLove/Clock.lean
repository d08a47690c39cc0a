import LinuxIsLove.Foundation.Runs
import LinuxIsLove.Source.Rtc

/-!
# The clients of the clock

The clients of the clock are the processes; each opens it, writes rates and closes it again, any
number of times and with any number of descriptors.  `clockStep` runs the driver under them: a
write or a close needs an open descriptor.

`ClockSound` is what all runs keep: the driver counts the open descriptors, and `rtc_rate` is at
least the rate of every process.
-/

namespace LinuxIsLove

open EventMachine

/-- Two sums that differ in one summand. -/
theorem sum_change {ι : Type*} [DecidableEq ι] {s : Finset ι} {q : ι} (hq : q ∈ s) {f g : ι → ℕ}
    (h : ∀ p, p ≠ q → g p = f p) : ∑ p ∈ s, g p + f q = ∑ p ∈ s, f p + g q := by
  have hrest : ∑ p ∈ s.erase q, g p = ∑ p ∈ s.erase q, f p :=
    Finset.sum_congr rfl fun p hp => h p (Finset.ne_of_mem_erase hp)
  have hf := Finset.add_sum_erase s f hq
  have hg := Finset.add_sum_erase s g hq
  omega

/-! ### Rates -/

/-- The rates of the clock: the powers of two up to 1024. -/
def IsRate (rate : ℤ) : Prop := ∃ k ≤ 10, rate = 2 ^ k

/-- The one negative number that passes for a power of two. -/
def lowestRate : ℤ := -2147483648

/-- The rate that a value of register A stands for. -/
def hwRate (regA : BitVec 8) : ℤ := rtcAbsMax / 2 ^ ((regA &&& 0x0F#8).toNat - 1)

/-- The rates that `rtc_write` takes. -/
def Accepted (rate : ℤ) : Prop :=
  ¬ (rate = 0 ∨ rate > rateMax) ∧ notPowerOfTwo rate = false

instance (rate : ℤ) : Decidable (Accepted rate) := by
  unfold Accepted
  infer_instance

theorem IsRate.pos {rate : ℤ} (h : IsRate rate) : 0 < rate := by
  obtain ⟨k, -, rfl⟩ := h
  positivity

theorem isRate_rateMin : IsRate rateMin := ⟨1, by decide, rfl⟩

/-- The rates are linearly ordered by divisibility. -/
theorem IsRate.tdiv {a b : ℤ} (ha : IsRate a) (hb : IsRate b) (h : a ≤ b) :
    1 ≤ b.tdiv a ∧ b.tdiv a * a = b := by
  have hpos := ha.pos
  obtain ⟨i, hi, rfl⟩ := ha
  obtain ⟨j, hj, rfl⟩ := hb
  have hij : i ≤ j := (pow_le_pow_iff_right₀ (by norm_num : (1 : ℤ) < 2)).1 h
  have hpow : (2 : ℤ) ^ j = 2 ^ (j - i) * 2 ^ i := by rw [← pow_add, Nat.sub_add_cancel hij]
  have hdiv : ((2 : ℤ) ^ j).tdiv (2 ^ i) = 2 ^ (j - i) := by
    rw [hpow, Int.mul_tdiv_cancel _ hpos.ne']
  rw [hdiv]
  exact ⟨one_le_pow₀ (by norm_num), hpow.symm⟩

/-- A word with its highest bit set shares that bit with its predecessor, unless it is `2 ^ 31`. -/
theorem and_pred_ne_zero {w : BitVec 32} (h : 2 ^ 31 < w.toNat) : w &&& (w - 1) ≠ 0 := by
  intro h0
  have hlt := w.isLt
  have hbit : (w &&& (w - 1)).msb = false := by rw [h0]; rfl
  have hw : w.msb = true := by
    rw [BitVec.msb_eq_decide]
    exact decide_eq_true (by omega)
  have hpred : (w - 1).msb = true := by
    rw [BitVec.msb_eq_decide]
    exact decide_eq_true (by rw [BitVec.toNat_sub_of_le (by bv_omega)]; simp; omega)
  rw [BitVec.msb_and, hw, hpred] at hbit
  exact absurd hbit (by decide)

theorem isRate_of_small :
    ∀ n : ℕ, n < 1025 → n ≠ 0 → (BitVec.ofNat 32 n &&& (BitVec.ofNat 32 n - 1) = 0) →
      ∃ k ≤ 10, n = 2 ^ k := by
  decide +kernel

/-- A word that `rtc_write` takes is a rate of the clock, or the lowest integer. -/
theorem Accepted.isRate {w : BitVec 32} (h : Accepted w.toInt) :
    IsRate w.toInt ∨ w.toInt = lowestRate := by
  obtain ⟨hrange, hpow⟩ := h
  rw [not_or, not_lt] at hrange
  have hand : w &&& (w - 1) = 0 := by
    have hsub : BitVec.ofInt 32 (w.toInt - 1) = w - 1 := by
      rw [Int.sub_eq_add_neg, BitVec.ofInt_add, BitVec.ofInt_toInt, BitVec.sub_eq_add_neg]
      rfl
    simpa only [notPowerOfTwo, BitVec.ofInt_toInt, hsub, decide_eq_false_iff_not, not_not,
      ne_eq] using hpow
  have hle : w.toNat ≤ 2 ^ 31 := by
    by_contra hgt
    exact and_pred_ne_zero (not_le.1 hgt) hand
  rcases hle.lt_or_eq with hlt | heq
  · left
    have hint : w.toInt = w.toNat := BitVec.toInt_eq_toNat_of_lt (by omega)
    have hmax : w.toNat < 1025 := by
      have hr := hrange.2
      rw [hint, show rateMax = 1024 from rfl] at hr
      omega
    obtain ⟨k, hk, hn⟩ := isRate_of_small w.toNat hmax (by rw [hint] at hrange; omega)
      (by rwa [BitVec.ofNat_toNat, BitVec.setWidth_eq])
    exact ⟨k, hk, by rw [hint, hn]; push_cast; rfl⟩
  · right
    have hw : w = 0x80000000#32 := BitVec.eq_of_toNat_eq (by rw [heq]; rfl)
    rw [hw]
    rfl

theorem accepted_of_isRate {rate : ℤ} (h : IsRate rate) : Accepted rate := by
  obtain ⟨k, hk, rfl⟩ := h
  interval_cases k <;> decide +kernel

/-- The low half of register A is what was stored there. -/
theorem lowNibble (a b : BitVec 8) (h : b &&& 0x0F#8 = b) :
    (a &&& 0xF0#8 ||| b) &&& 0x0F#8 = b := by
  rw [BitVec.and_or_distrib_right, BitVec.and_assoc, h]
  simp

/-- Register A holds the rate that `set_rate` was given, which is never one. -/
theorem hwRate_setRate (d : Devices) {rate : ℤ} (h : IsRate rate) (hmin : rateMin ≤ rate) :
    hwRate (setRate d rate).rtc.regA = rate := by
  obtain ⟨k, hk, rfl⟩ := h
  have hpos : 1 ≤ k := by
    by_contra hlt
    rw [show k = 0 by omega] at hmin
    exact absurd hmin (by decide)
  unfold setRate hwRate
  interval_cases k <;> rw [lowNibble _ _ (by decide +kernel)] <;> decide +kernel

/-- The first open programs the lowest rate. -/
theorem hwRate_rateDefault (a : BitVec 8) : hwRate (a &&& 0xF0#8 ||| rateDefault) = rateMin := by
  rw [hwRate, lowNibble _ _ (by decide)]
  decide

/-! ### The highest rate of a process -/

theorem foldl_max_spec (f : ℕ → ℤ) (l : List ℕ) (a : ℤ) :
    (l.foldl (fun m i => if f i > m then f i else m) a = a ∨
      ∃ i ∈ l, l.foldl (fun m i => if f i > m then f i else m) a = f i) ∧
    a ≤ l.foldl (fun m i => if f i > m then f i else m) a ∧
    ∀ i ∈ l, f i ≤ l.foldl (fun m i => if f i > m then f i else m) a := by
  induction l generalizing a with
  | nil => simp
  | cons i l ih =>
    obtain ⟨hmem, hle, hall⟩ := ih (if f i > a then f i else a)
    rw [List.foldl_cons]
    have hstep : a ≤ (if f i > a then f i else a) ∧ f i ≤ (if f i > a then f i else a) := by
      split_ifs with h <;> omega
    refine ⟨?_, hstep.1.trans hle, ?_⟩
    · rcases hmem with heq | ⟨j, hj, heq⟩
      · rw [heq]
        split_ifs with h
        · exact Or.inr ⟨i, List.mem_cons_self, rfl⟩
        · exact Or.inl rfl
      · exact Or.inr ⟨j, List.mem_cons_of_mem i hj, heq⟩
    · intro j hj
      rcases List.mem_cons.1 hj with rfl | hj
      · exact hstep.2.trans hle
      · exact hall j hj

theorem trimmedRate_cases (procs : ℕ → RtcProcess) :
    trimmedRate procs = rateMin ∨ ∃ i < maxProcesses, trimmedRate procs = (procs i).rate := by
  rcases (foldl_max_spec (fun i => (procs i).rate) (List.range maxProcesses) rateMin).1 with h | h
  · exact Or.inl h
  · obtain ⟨i, hi, h⟩ := h
    exact Or.inr ⟨i, List.mem_range.1 hi, h⟩

theorem rateMin_le_trimmedRate (procs : ℕ → RtcProcess) : rateMin ≤ trimmedRate procs :=
  (foldl_max_spec (fun i => (procs i).rate) (List.range maxProcesses) rateMin).2.1

theorem le_trimmedRate {procs : ℕ → RtcProcess} {i : ℕ} (h : i < maxProcesses) :
    (procs i).rate ≤ trimmedRate procs :=
  (foldl_max_spec (fun i => (procs i).rate) (List.range maxProcesses) rateMin).2.2 i
    (List.mem_range.2 h)

/-! ### The operations of the driver -/

section Driver

variable {d : Devices} {pid : ℕ} {rate : ℤ}

/-- A process gets a rate, and the counter that goes with it. -/
def rateGiven (d : Devices) (pid : ℕ) (rate : ℤ) : Rtc :=
  let p := d.rtc.procs (pid - 1)
  let p := { p with rate := rate, maxCount := d.rtc.rtcRate.tdiv rate }
  { d.rtc with procs := Function.update d.rtc.procs (pid - 1) p }

/-- A process goes back to the lowest rate. -/
def rateDropped (d : Devices) (pid : ℕ) : Rtc :=
  let p := d.rtc.procs (pid - 1)
  { d.rtc with procs := Function.update d.rtc.procs (pid - 1) { p with rate := rateMin } }

theorem rtcOpen_first (h : d.rtc.openCount = 0) :
    rtcOpen d =
      { rtc := { d.rtc with
          regB := d.rtc.regB ||| intFlag
          regA := (d.rtc.regA &&& 0xF0#8) ||| rateDefault
          rtcRate := rateMin
          openCount := 1 }
        pic := enableIrq d.pic rtcIrqNum
        iflag := true } := by
  simp [rtcOpen, h]

theorem rtcOpen_again (h : d.rtc.openCount ≠ 0) :
    rtcOpen d = { d with rtc := { d.rtc with openCount := d.rtc.openCount + 1 } } := by
  simp [rtcOpen, h]

theorem rtcWrite_rejected (h : ¬ Accepted rate) : rtcWrite d pid rate = (-1, d) := by
  unfold Accepted at h
  unfold rtcWrite
  split_ifs with h1 h2
  · rfl
  · rfl
  · exact absurd ⟨h1, by simpa using h2⟩ h

theorem rtcWrite_low (h : Accepted rate) (hle : rate ≤ d.rtc.rtcRate) :
    rtcWrite d pid rate = (1, { d with rtc := rateGiven d pid rate }) := by
  obtain ⟨h1, h2⟩ := h
  unfold rtcWrite
  rw [if_neg h1, if_neg (by simp [h2])]
  simp only [gt_iff_lt, not_lt.2 hle, if_false]
  rfl

/-- A write above the current rate raises it, programs the hardware and works out all counters. -/
theorem rtcWrite_raise (h : Accepted rate) (hlt : d.rtc.rtcRate < rate) :
    rtcWrite d pid rate =
      (1, { rtc := updateRtcProcesses { rateGiven d pid rate with
              rtcRate := rate
              regA := (setRate d rate).rtc.regA }
            pic := d.pic
            iflag := true }) := by
  obtain ⟨h1, h2⟩ := h
  unfold rtcWrite
  rw [if_neg h1, if_neg (by simp [h2])]
  simp only [gt_iff_lt, hlt, if_true]
  rfl

theorem rtcClose_last (h : d.rtc.openCount = 1) :
    rtcClose d pid =
      { rtc := { rateDropped d pid with openCount := 0, regB := d.rtc.regB &&& ~~~intFlag }
        pic := disableIrq d.pic rtcIrqNum
        iflag := true } := by
  simp [rtcClose, rateDropped, h]

/-- A close that is not the last one lowers the rate as far as it can, and works out all
counters. -/
theorem rtcClose_again (h : d.rtc.openCount ≠ 1) :
    rtcClose d pid =
      { d with rtc := updateRtcProcesses { rateDropped d pid with
          openCount := d.rtc.openCount - 1
          rtcRate := trimmedRate (rateDropped d pid).procs } } := by
  have h0 : d.rtc.openCount - 1 ≠ 0 := by omega
  simp [rtcClose, rateDropped, h0]

end Driver

/-! ### The clients -/

instance : NeZero maxProcesses := ⟨by decide⟩

/-- The driver and its clients.  `written` and `counted` are bookkeeping: whether a process has
written a rate since it opened the clock, and whether its counter has been worked out, or was right
by chance, since then. -/
structure Clock where
  devices : Devices
  /-- the open descriptors of each process -/
  opens : Fin maxProcesses → ℕ
  written : Fin maxProcesses → Bool
  counted : Fin maxProcesses → Bool

inductive ClockOp
  | rtcOpen (p : Fin maxProcesses)
  /-- the buffer holds the word -/
  | rtcWrite (p : Fin maxProcesses) (word : BitVec 32)
  | rtcClose (p : Fin maxProcesses)

namespace Clock

/-- What the driver keeps about a process, whose pid is one more than its index. -/
def proc (c : Clock) (p : Fin maxProcesses) : RtcProcess := c.devices.rtc.procs p

def rtcRate (c : Clock) : ℤ := c.devices.rtc.rtcRate

def openCount (c : Clock) : ℤ := c.devices.rtc.openCount

def regA (c : Clock) : BitVec 8 := c.devices.rtc.regA

/-- A process opens the clock. -/
def opened (c : Clock) (p : Fin maxProcesses) : Clock :=
  let first := decide (c.opens p = 0)
  let devices := LinuxIsLove.rtcOpen c.devices
  { devices := devices
    opens := Function.update c.opens p (c.opens p + 1)
    written := Function.update c.written p (c.written p && !first)
    counted := Function.update c.counted p
      (if first then decide ((c.proc p).maxCount * rateMin = devices.rtc.rtcRate)
       else c.counted p) }

/-- A process writes a rate. -/
def wrote (c : Clock) (p : Fin maxProcesses) (rate : ℤ) : Clock :=
  { c with
    devices := (LinuxIsLove.rtcWrite c.devices (p + 1) rate).2
    written := Function.update c.written p (c.written p || decide (Accepted rate))
    counted := fun q => c.counted q ||
      decide (Accepted rate ∧ (q = p ∨ c.rtcRate < rate)) }

/-- A process closes one of its descriptors. -/
def closed (c : Clock) (p : Fin maxProcesses) : Clock :=
  { c with
    devices := LinuxIsLove.rtcClose c.devices (p + 1)
    opens := Function.update c.opens p (c.opens p - 1)
    counted := fun q => c.counted q || decide (c.openCount ≠ 1) }

end Clock

/-- The driver as the initialization leaves it; the registers, the interrupt controller and the
interrupt flag are arbitrary. -/
def clockInit (regA regB : BitVec 8) (pic : Pic) (iflag : Bool) : Clock where
  devices := ⟨rtcInit regA regB, pic, iflag⟩
  opens := fun _ => 0
  written := fun _ => false
  counted := fun _ => false

def clockStep (c : Clock) : ClockOp → Option Clock
  | .rtcOpen p => some (c.opened p)
  | .rtcWrite p word => if c.opens p = 0 then none else some (c.wrote p word.toInt)
  | .rtcClose p => if c.opens p = 0 then none else some (c.closed p)

/-- What every run keeps: the counter of open descriptors is right, a process without one has the
lowest rate, and the rate of the clock is the highest one or more. -/
structure ClockSound (c : Clock) : Prop where
  count : c.openCount = (∑ p, c.opens p : ℕ)
  idle : ∀ p, c.opens p = 0 → (c.proc p).rate = rateMin
  rates : ∀ p, IsRate (c.proc p).rate ∨ (c.proc p).rate = lowestRate
  rate_le : 0 < c.openCount → ∀ p, (c.proc p).rate ≤ c.rtcRate
  rtcRate : 0 < c.openCount → IsRate c.rtcRate ∧ rateMin ≤ c.rtcRate

/-! ### The operations keep the clock sound -/

section Sound

variable {c c' : Clock} {p q : Fin maxProcesses} {rate : ℤ} {d : Devices}

theorem rateGiven_procs (d : Devices) (p q : Fin maxProcesses) (rate : ℤ) :
    (rateGiven d (p + 1) rate).procs q =
      if q = p then { d.rtc.procs q with rate := rate, maxCount := d.rtc.rtcRate.tdiv rate }
      else d.rtc.procs q := by
  simp only [rateGiven, Nat.add_sub_cancel, Function.update_apply, Fin.val_inj]
  split_ifs with h
  · rw [h]
  · rfl

theorem rateDropped_procs (d : Devices) (p q : Fin maxProcesses) :
    (rateDropped d (p + 1)).procs q =
      if q = p then { d.rtc.procs q with rate := rateMin } else d.rtc.procs q := by
  simp only [rateDropped, Nat.add_sub_cancel, Function.update_apply, Fin.val_inj]
  split_ifs with h
  · rw [h]
  · rfl

theorem updateRtcProcesses_procs (r : Rtc) (q : Fin maxProcesses) :
    (updateRtcProcesses r).procs q =
      { r.procs q with maxCount := r.rtcRate.tdiv (r.procs q).rate } := by
  simp only [updateRtcProcesses, if_pos q.isLt]

@[simp] theorem Clock.opened_opens (c : Clock) (p : Fin maxProcesses) :
    (c.opened p).opens = Function.update c.opens p (c.opens p + 1) := rfl

@[simp] theorem Clock.closed_opens (c : Clock) (p : Fin maxProcesses) :
    (c.closed p).opens = Function.update c.opens p (c.opens p - 1) := rfl

@[simp] theorem Clock.wrote_opens (c : Clock) (p : Fin maxProcesses) (rate : ℤ) :
    (c.wrote p rate).opens = c.opens := rfl

theorem ClockSound.openCount_nonneg (hc : ClockSound c) : 0 ≤ c.openCount := by
  rw [hc.count]
  exact Int.natCast_nonneg _

theorem ClockSound.opens_le (hc : ClockSound c) (p : Fin maxProcesses) :
    (c.opens p : ℤ) ≤ c.openCount := by
  rw [hc.count]
  exact_mod_cast Finset.single_le_sum (f := c.opens) (fun _ _ => Nat.zero_le _)
    (Finset.mem_univ p)

theorem ClockSound.openCount_pos (hc : ClockSound c) (h : c.opens p ≠ 0) : 0 < c.openCount := by
  have := hc.opens_le p
  omega

/-- Once no descriptor is open, every process has the lowest rate. -/
theorem ClockSound.rate_of_closed (hc : ClockSound c) (h : c.openCount = 0)
    (p : Fin maxProcesses) : (c.proc p).rate = rateMin := by
  have := hc.opens_le p
  exact hc.idle p (by omega)

/-- The first open. -/
theorem Clock.opened_first (h : c.openCount = 0) :
    (c.opened p).openCount = 1 ∧ (c.opened p).rtcRate = rateMin ∧
      hwRate (c.opened p).regA = rateMin ∧ (c.opened p).proc = c.proc := by
  simp only [Clock.openCount, Clock.rtcRate, Clock.regA, Clock.opened, rtcOpen_first h]
  exact ⟨trivial, trivial, hwRate_rateDefault _, rfl⟩

/-- Any other open. -/
theorem Clock.opened_again (h : c.openCount ≠ 0) :
    (c.opened p).openCount = c.openCount + 1 ∧ (c.opened p).rtcRate = c.rtcRate ∧
      (c.opened p).regA = c.regA ∧ (c.opened p).proc = c.proc := by
  simp only [Clock.openCount, Clock.rtcRate, Clock.regA, Clock.opened, rtcOpen_again h]
  exact ⟨trivial, trivial, trivial, rfl⟩

/-- A write that is rejected. -/
theorem Clock.wrote_rejected (h : ¬ Accepted rate) : c.wrote p rate = c := by
  simp [Clock.wrote, rtcWrite_rejected h, h]

/-- A write up to the rate of the clock. -/
theorem Clock.wrote_low (h : Accepted rate) (hle : rate ≤ c.rtcRate) :
    (c.wrote p rate).openCount = c.openCount ∧ (c.wrote p rate).rtcRate = c.rtcRate ∧
      (c.wrote p rate).regA = c.regA ∧
      ∀ q, (c.wrote p rate).proc q =
        if q = p then { c.proc q with rate := rate, maxCount := c.rtcRate.tdiv rate }
        else c.proc q := by
  simp only [Clock.openCount, Clock.rtcRate, Clock.regA, Clock.proc, Clock.wrote,
    rtcWrite_low h hle]
  exact ⟨rfl, rfl, rfl, fun q => rateGiven_procs _ _ _ _⟩

/-- A write above the rate of the clock. -/
theorem Clock.wrote_raise (h : Accepted rate) (hlt : c.rtcRate < rate) :
    (c.wrote p rate).openCount = c.openCount ∧ (c.wrote p rate).rtcRate = rate ∧
      (c.wrote p rate).regA = (setRate c.devices rate).rtc.regA ∧
      ∀ q, ((c.wrote p rate).proc q).rate = (if q = p then rate else (c.proc q).rate) ∧
        ((c.wrote p rate).proc q).maxCount = rate.tdiv ((c.wrote p rate).proc q).rate := by
  simp only [Clock.openCount, Clock.rtcRate, Clock.regA, Clock.proc, Clock.wrote,
    rtcWrite_raise h hlt, updateRtcProcesses_procs, rateGiven_procs]
  refine ⟨rfl, rfl, rfl, fun q => ⟨?_, trivial⟩⟩
  split_ifs <;> rfl

/-- Only the writer gets another rate. -/
theorem Clock.wrote_rate (h : Accepted rate) (q : Fin maxProcesses) :
    ((c.wrote p rate).proc q).rate = if q = p then rate else (c.proc q).rate := by
  by_cases hle : rate ≤ c.rtcRate
  · rw [(Clock.wrote_low h hle).2.2.2]
    split_ifs <;> rfl
  · exact ((Clock.wrote_raise h (not_le.1 hle)).2.2.2 q).1

/-- The last close. -/
theorem Clock.closed_last (h : c.openCount = 1) :
    (c.closed p).openCount = 0 ∧ (c.closed p).rtcRate = c.rtcRate ∧
      (c.closed p).regA = c.regA ∧
      ∀ q, (c.closed p).proc q =
        if q = p then { c.proc q with rate := rateMin } else c.proc q := by
  simp only [Clock.openCount, Clock.rtcRate, Clock.regA, Clock.proc, Clock.closed,
    rtcClose_last h]
  exact ⟨trivial, rfl, rfl, fun q => rateDropped_procs _ _ _⟩

/-- Any other close. -/
theorem Clock.closed_again (h : c.openCount ≠ 1) :
    (c.closed p).openCount = c.openCount - 1 ∧
      (c.closed p).rtcRate = trimmedRate (rateDropped c.devices (p + 1)).procs ∧
      (c.closed p).regA = c.regA ∧
      ∀ q, ((c.closed p).proc q).rate = (if q = p then rateMin else (c.proc q).rate) ∧
        ((c.closed p).proc q).maxCount =
          (c.closed p).rtcRate.tdiv ((c.closed p).proc q).rate := by
  simp only [Clock.openCount, Clock.rtcRate, Clock.regA, Clock.proc, Clock.closed,
    rtcClose_again h, updateRtcProcesses_procs, rateDropped_procs]
  refine ⟨rfl, rfl, rfl, fun q => ⟨?_, rfl⟩⟩
  split_ifs <;> rfl

/-- The rate after such a close is the highest one of a process. -/
theorem Clock.closed_again_rate (h : c.openCount ≠ 1) :
    rateMin ≤ (c.closed p).rtcRate ∧
      (∀ q, ((c.closed p).proc q).rate ≤ (c.closed p).rtcRate) ∧
      ((c.closed p).rtcRate = rateMin ∨
        ∃ q, (c.closed p).rtcRate = ((c.closed p).proc q).rate) := by
  obtain ⟨-, hrate, -, hprocs⟩ := Clock.closed_again (p := p) h
  have hq : ∀ q : Fin maxProcesses,
      ((c.closed p).proc q).rate = ((rateDropped c.devices (p + 1)).procs q).rate := by
    intro q
    rw [(hprocs q).1, rateDropped_procs]
    split_ifs <;> rfl
  rw [hrate]
  refine ⟨rateMin_le_trimmedRate _, fun q => ?_, ?_⟩
  · rw [hq]
    exact le_trimmedRate q.isLt
  · rcases trimmedRate_cases (rateDropped c.devices (p + 1)).procs with hmin | ⟨i, hi, hmax⟩
    · exact Or.inl hmin
    · exact Or.inr ⟨⟨i, hi⟩, by rw [hmax, hq]⟩

/-- A close takes its process back to the lowest rate. -/
theorem Clock.closed_rate (q : Fin maxProcesses) :
    ((c.closed p).proc q).rate = if q = p then rateMin else (c.proc q).rate := by
  by_cases h1 : c.openCount = 1
  · rw [(Clock.closed_last h1).2.2.2]
    split_ifs <;> rfl
  · exact ((Clock.closed_again h1).2.2.2 q).1

theorem clockSound_opened (hc : ClockSound c) : ClockSound (c.opened p) := by
  have hsum : ∑ q, (c.opened p).opens q + c.opens p = ∑ q, c.opens q + (c.opens p + 1) := by
    rw [← Function.update_self (f := c.opens) p (c.opens p + 1)]
    exact sum_change (Finset.mem_univ p) fun q hqp => Function.update_of_ne hqp _ _
  have hopens : ∀ q, (c.opened p).opens q = 0 → c.opens q = 0 := by
    intro q hq
    by_contra hne
    rw [Clock.opened_opens, Function.update_apply] at hq
    split_ifs at hq
    exact hne hq
  have hcount : (c.opened p).openCount = (∑ q, (c.opened p).opens q : ℕ) := by
    have hone : (c.opened p).openCount = c.openCount + 1 := rtcOpen_openCount c.devices
    rw [hone, hc.count]
    omega
  by_cases h0 : c.openCount = 0
  · obtain ⟨-, hrate, -, hproc⟩ := Clock.opened_first (p := p) h0
    refine ⟨hcount, fun q hq => ?_, fun q => ?_, fun _ q => ?_, fun _ => ?_⟩
    · rw [hproc, hc.rate_of_closed h0]
    · rw [hproc]
      exact hc.rates q
    · rw [hproc, hrate, hc.rate_of_closed h0]
    · rw [hrate]
      exact ⟨isRate_rateMin, le_rfl⟩
  · obtain ⟨-, hrate, -, hproc⟩ := Clock.opened_again (p := p) h0
    have hpos : 0 < c.openCount := lt_of_le_of_ne hc.openCount_nonneg (Ne.symm h0)
    refine ⟨hcount, fun q hq => ?_, fun q => ?_, fun _ q => ?_, fun _ => ?_⟩
    · rw [hproc]
      exact hc.idle q (hopens q hq)
    · rw [hproc]
      exact hc.rates q
    · rw [hproc, hrate]
      exact hc.rate_le hpos q
    · rw [hrate]
      exact hc.rtcRate hpos

theorem clockSound_wrote {word : BitVec 32} (hc : ClockSound c) (hopen : c.opens p ≠ 0) :
    ClockSound (c.wrote p word.toInt) := by
  have hpos := hc.openCount_pos hopen
  by_cases hacc : Accepted word.toInt
  swap
  · rwa [Clock.wrote_rejected hacc]
  have hidle : ∀ q, c.opens q = 0 → ((c.wrote p word.toInt).proc q).rate = rateMin := by
    intro q hq
    have hqp : q ≠ p := by
      rintro rfl
      exact hopen hq
    rw [Clock.wrote_rate hacc, if_neg hqp]
    exact hc.idle q hq
  by_cases hle : word.toInt ≤ c.rtcRate
  · obtain ⟨hcount, hrate, -, -⟩ := Clock.wrote_low (p := p) hacc hle
    refine ⟨hcount.trans hc.count, hidle, fun q => ?_, fun _ q => ?_, fun _ => ?_⟩
    · rw [Clock.wrote_rate hacc]
      split_ifs
      · exact hacc.isRate
      · exact hc.rates q
    · rw [Clock.wrote_rate hacc, hrate]
      split_ifs
      · exact hle
      · exact hc.rate_le hpos q
    · rw [hrate]
      exact hc.rtcRate hpos
  · have hlt := not_le.1 hle
    obtain ⟨hcount, hrate, -, -⟩ := Clock.wrote_raise (p := p) hacc hlt
    have hmin : rateMin ≤ word.toInt := (hc.rtcRate hpos).2.trans hlt.le
    have hisRate : IsRate word.toInt := by
      -- the one other accepted rate is below every rate that the clock may have
      refine hacc.isRate.resolve_right fun heq => ?_
      rw [heq] at hmin
      exact absurd hmin (by decide)
    refine ⟨hcount.trans hc.count, hidle, fun q => ?_, fun _ q => ?_, fun _ => ?_⟩
    · rw [Clock.wrote_rate hacc]
      split_ifs
      · exact Or.inl hisRate
      · exact hc.rates q
    · rw [Clock.wrote_rate hacc, hrate]
      split_ifs
      · exact le_rfl
      · exact (hc.rate_le hpos q).trans hlt.le
    · rw [hrate]
      exact ⟨hisRate, hmin⟩

theorem clockSound_closed (hc : ClockSound c) (hopen : c.opens p ≠ 0) :
    ClockSound (c.closed p) := by
  have hsum : ∑ q, (c.closed p).opens q + c.opens p = ∑ q, c.opens q + (c.opens p - 1) := by
    rw [← Function.update_self (f := c.opens) p (c.opens p - 1)]
    exact sum_change (Finset.mem_univ p) fun q hqp => Function.update_of_ne hqp _ _
  have hcount : (c.closed p).openCount = (∑ q, (c.closed p).opens q : ℕ) := by
    have hone : (c.closed p).openCount = c.openCount - 1 := rtcClose_openCount c.devices (p + 1)
    have hle := Finset.single_le_sum (f := c.opens) (fun _ _ => Nat.zero_le _)
      (Finset.mem_univ p)
    rw [hone, hc.count]
    omega
  have hidle : ∀ q, (c.closed p).opens q = 0 → ((c.closed p).proc q).rate = rateMin := by
    intro q hq
    rw [Clock.closed_rate]
    split_ifs with hqp
    · rfl
    · rw [Clock.closed_opens, Function.update_of_ne hqp] at hq
      exact hc.idle q hq
  have hrates : ∀ q, IsRate ((c.closed p).proc q).rate ∨
      ((c.closed p).proc q).rate = lowestRate := by
    intro q
    rw [Clock.closed_rate]
    split_ifs
    · exact Or.inl isRate_rateMin
    · exact hc.rates q
  by_cases h1 : c.openCount = 1
  · have hzero : (c.closed p).openCount = 0 := (Clock.closed_last h1).1
    refine ⟨hcount, hidle, hrates, fun h => ?_, fun h => ?_⟩
    · rw [hzero] at h
      exact absurd h (lt_irrefl 0)
    · rw [hzero] at h
      exact absurd h (lt_irrefl 0)
  · obtain ⟨hmin, hle, hmax⟩ := Clock.closed_again_rate (p := p) h1
    refine ⟨hcount, hidle, hrates, fun _ => hle, fun _ => ⟨?_, hmin⟩⟩
    rcases hmax with heq | ⟨q, heq⟩
    · rw [heq]
      exact isRate_rateMin
    · refine heq ▸ (hrates q).resolve_right fun hlow => ?_
      rw [heq, hlow] at hmin
      exact absurd hmin (by decide)

theorem clockSound_init (regA regB : BitVec 8) (pic : Pic) (iflag : Bool) :
    ClockSound (clockInit regA regB pic iflag) := by
  refine ⟨by simp [clockInit, Clock.openCount, rtcInit], fun p _ => ?_, fun p => ?_, ?_, ?_⟩
  · exact if_pos p.isLt
  · left
    have hrate : ((clockInit regA regB pic iflag).proc p).rate = rateMin := if_pos p.isLt
    rw [hrate]
    exact isRate_rateMin
  · exact fun h => absurd h (lt_irrefl 0)
  · exact fun h => absurd h (lt_irrefl 0)

/-- What a step of the clients is. -/
theorem clockStep_cases {o : ClockOp} (h : clockStep c o = some c') :
    (∃ p, o = .rtcOpen p ∧ c' = c.opened p) ∨
    (∃ p word, o = .rtcWrite p word ∧ c.opens p ≠ 0 ∧ c' = c.wrote p word.toInt) ∨
    (∃ p, o = .rtcClose p ∧ c.opens p ≠ 0 ∧ c' = c.closed p) := by
  cases o with
  | rtcOpen p => exact Or.inl ⟨p, rfl, (Option.some.inj h).symm⟩
  | rtcWrite p word =>
    rw [clockStep, Option.ite_none_left_eq_some] at h
    exact Or.inr (Or.inl ⟨p, word, rfl, h.1, (Option.some.inj h.2).symm⟩)
  | rtcClose p =>
    rw [clockStep, Option.ite_none_left_eq_some] at h
    exact Or.inr (Or.inr ⟨p, rfl, h.1, (Option.some.inj h.2).symm⟩)

theorem clockSound_step {o : ClockOp} (hc : ClockSound c) (h : clockStep c o = some c') :
    ClockSound c' := by
  rcases clockStep_cases h with ⟨p, -, rfl⟩ | ⟨p, word, -, hopen, rfl⟩ | ⟨p, -, hopen, rfl⟩
  · exact clockSound_opened hc
  · exact clockSound_wrote hc hopen
  · exact clockSound_closed hc hopen

end Sound

end LinuxIsLove
