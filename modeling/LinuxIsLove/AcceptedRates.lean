import LinuxIsLove.Clock

/-!
# The rates that `rtc_write` takes

`rtc_write` tests a word for zero, for a value above 1024 and for more than one bit, and then works
with it.  In any state that the clients of the clock reach with a descriptor open, it does so
exactly for the powers of two up to 1024 (`writesExactly_iff`), with one exception: the lowest
integer has one bit, and as a signed integer it is not above 1024.
-/

namespace LinuxIsLove

open EventMachine

/-- What a write of a word returns, and the devices it leaves behind. -/
def Clock.write (c : Clock) (p : Fin maxProcesses) (word : BitVec 32) : ℤ × Devices :=
  LinuxIsLove.rtcWrite c.devices (p + 1) word.toInt

/-- A write that succeeds gives the process the rate `v`, counted down from the rate of the
clock. -/
structure RateSet (c : Clock) (p : Fin maxProcesses) (v : ℤ) (d : Devices) : Prop where
  rate : (d.rtc.procs p).rate = v
  le_rtcRate : v ≤ d.rtc.rtcRate
  maxCount : (d.rtc.procs p).maxCount = d.rtc.rtcRate.tdiv v
  /-- a raised rate is programmed, with the upper half of register A as it was -/
  programmed : c.rtcRate < v → d.rtc.rtcRate = v ∧
    rtcAbsMax >>> (rateSelect v - 1) = d.rtc.rtcRate ∧
    d.rtc.regA = (c.regA &&& 0xF0#8) ||| BitVec.ofNat 8 (rateSelect v) ∧
    d.rtc.regA &&& 0xF0#8 = c.regA &&& 0xF0#8 ∧ hwRate d.rtc.regA = d.rtc.rtcRate
  /-- any other rate is not -/
  kept : v ≤ c.rtcRate → d.rtc.rtcRate = c.rtcRate ∧ d.rtc.regA = c.regA

/-- A write succeeds exactly for a power of two from 1 to 1024, and changes nothing otherwise. -/
structure WritesExactly (c : Clock) (p : Fin maxProcesses) (word : BitVec 32) : Prop where
  succeeds : (c.write p word).1 ≠ -1 ↔ IsRate word.toInt
  rejected : (c.write p word).1 = -1 → (c.write p word).2 = c.devices
  accepted : (c.write p word).1 ≠ -1 → RateSet c p word.toInt (c.write p word).2

section Writes

variable {c : Clock} {p : Fin maxProcesses} {word : BitVec 32} {rate : ℤ}

theorem write_ne_iff : (c.write p word).1 ≠ -1 ↔ Accepted word.toInt := by
  by_cases hacc : Accepted word.toInt
  · rcases le_or_gt word.toInt c.devices.rtc.rtcRate with hle | hlt
    · simp [Clock.write, rtcWrite_low hacc hle, hacc]
    · simp [Clock.write, rtcWrite_raise hacc hlt, hacc]
  · simp [Clock.write, rtcWrite_rejected hacc, hacc]

/-- The lowest integer passes all tests. -/
theorem accepted_lowestRate : Accepted lowestRate := by decide

theorem not_isRate_lowestRate : ¬ IsRate lowestRate := fun h => absurd h.pos (by decide)

/-- The tests single out the rates and the lowest integer. -/
theorem accepted_iff : Accepted word.toInt ↔ IsRate word.toInt ∨ word.toInt = lowestRate := by
  refine ⟨Accepted.isRate, fun h => ?_⟩
  rcases h with h | h
  · exact accepted_of_isRate h
  · rw [h]
    exact accepted_lowestRate

/-- What is stored for a rate above the lowest one fits the lower half of register A, and stands for
the rate. -/
theorem rateSelect_spec (h : IsRate rate) (hmin : rateMin ≤ rate) :
    rtcAbsMax >>> (rateSelect rate - 1) = rate ∧
      BitVec.ofNat 8 (rateSelect rate) &&& 0xF0#8 = 0 := by
  obtain ⟨k, hk, rfl⟩ := h
  have hpos : 1 ≤ k := by
    by_contra hlt
    rw [show k = 0 by omega] at hmin
    exact absurd hmin (by decide)
  interval_cases k <;> decide +kernel

theorem upperNibble (a b : BitVec 8) (h : b &&& 0xF0#8 = 0) :
    (a &&& 0xF0#8 ||| b) &&& 0xF0#8 = a &&& 0xF0#8 := by
  rw [BitVec.and_or_distrib_right, BitVec.and_assoc, h]
  simp

/-- A rate up to that of the clock is noted for the process only. -/
theorem rateSet_low (hacc : Accepted word.toInt) (hle : word.toInt ≤ c.rtcRate) :
    RateSet c p word.toInt (c.write p word).2 := by
  have hprocs := rateGiven_procs c.devices p p word.toInt
  rw [if_pos rfl] at hprocs
  simp only [Clock.write, rtcWrite_low hacc hle]
  refine ⟨?_, hle, ?_, fun hlt => absurd hle (not_le.2 hlt), fun _ => ⟨rfl, rfl⟩⟩
  · rw [hprocs]
  · rw [hprocs]
    rfl

/-- A higher rate becomes that of the clock. -/
theorem rateSet_raise (hrate : IsRate word.toInt) (hmin : rateMin ≤ word.toInt)
    (hlt : c.rtcRate < word.toInt) : RateSet c p word.toInt (c.write p word).2 := by
  obtain ⟨hselect, hnibble⟩ := rateSelect_spec hrate hmin
  have hprocs := rateGiven_procs c.devices p p word.toInt
  rw [if_pos rfl] at hprocs
  simp only [Clock.write, rtcWrite_raise (accepted_of_isRate hrate) hlt]
  refine ⟨?_, le_rfl, ?_, fun _ => ⟨rfl, hselect, rfl, upperNibble _ _ hnibble, ?_⟩,
    fun hle => absurd hlt (not_lt.2 hle)⟩
  · rw [updateRtcProcesses_procs, hprocs]
  · rw [updateRtcProcesses_procs, hprocs]
    rfl
  · exact hwRate_setRate c.devices hrate hmin

/-- **`rtc_write` takes exactly the valid rates**, and the lowest integer. -/
theorem writesExactly_iff {regA regB : BitVec 8} {pic : Pic} {iflag : Bool} {es : List ClockOp}
    (h : run clockStep (clockInit regA regB pic iflag) es = some c) (hopen : 0 < c.openCount)
    (p : Fin maxProcesses) (word : BitVec 32) :
    WritesExactly c p word ↔ word ≠ 0x80000000#32 := by
  have hsound : ClockSound c := invariant_of_run (I := ClockSound)
    (fun _ _ _ hc hstep => clockSound_step hc hstep) (clockSound_init regA regB pic iflag) h
  have hlowest : word = 0x80000000#32 ↔ word.toInt = lowestRate :=
    ⟨fun hw => by rw [hw]; rfl, fun hw => BitVec.eq_of_toInt_eq hw⟩
  constructor
  · rintro ⟨hsucceeds, -, -⟩ hword
    have hrate := hsucceeds.1 (write_ne_iff.2 (accepted_iff.2 (Or.inr (hlowest.1 hword))))
    rw [hlowest.1 hword] at hrate
    exact not_isRate_lowestRate hrate
  · intro hword
    have hiff : Accepted word.toInt ↔ IsRate word.toInt :=
      accepted_iff.trans (or_iff_left (mt hlowest.2 hword))
    refine ⟨write_ne_iff.trans hiff, fun hfail => ?_, fun hok => ?_⟩
    · have hrej : ¬ Accepted word.toInt := fun hacc => write_ne_iff.2 hacc hfail
      simp only [Clock.write, rtcWrite_rejected hrej]
    · have hacc := write_ne_iff.1 hok
      rcases le_or_gt word.toInt c.rtcRate with hle | hlt
      · exact rateSet_low hacc hle
      · exact rateSet_raise (hiff.1 hacc) ((hsound.rtcRate hopen).2.trans hlt.le) hlt

end Writes

/-- The clock after its first open. -/
def openedOnce : Clock := (clockInit 0 0 i8259Init true).opened 0

theorem writesExactly_iff_eight : WritesExactly openedOnce 0 8#32 ↔ 8#32 ≠ 0x80000000#32 :=
  have h : run clockStep (clockInit 0 0 i8259Init true) [.rtcOpen 0] = some openedOnce := rfl
  writesExactly_iff h (by decide) 0 8#32

/-- The lowest integer is taken for a rate. -/
theorem lowestRate_accepted : 0 < openedOnce.openCount ∧
    (openedOnce.write 0 0x80000000#32).1 = 1 ∧
    ((openedOnce.write 0 0x80000000#32).2.rtc.procs 0).rate = -2147483648 ∧
    ¬ IsRate (0x80000000#32).toInt ∧ ¬ WritesExactly openedOnce 0 0x80000000#32 := by
  have hno : ¬ IsRate (0x80000000#32).toInt := not_isRate_lowestRate
  exact ⟨by decide, by decide, by decide, hno, fun h => hno (h.succeeds.1 (by decide))⟩

end LinuxIsLove
