import LinuxIsLove.Foundation.Bytes

/-!
# `i8259.c` and `rtc.c`: the interrupt controller and the virtualized real-time clock

The clock hardware runs at one rate; every process sees a slower one through a counter of its own.
The counters are indexed by process slot (`pid - 1`).  `openCount` is the number of open
descriptors as the driver counts them (`open` in the source).

The drivers disable interrupts around their port accesses and enable them afterwards, whatever the
flag was before: `iflag` is the interrupt flag.
-/

namespace LinuxIsLove

def maxProcesses : ℕ := 6

/-! ### The interrupt controller -/

/-- The mask registers; reading a data port returns the mask last written to it. -/
structure Pic where
  masterMask : BitVec 8
  slaveMask : BitVec 8

def irqPerPic : ℕ := 8
def slaveIrq : ℕ := 2
def rtcIrqNum : ℕ := 8

def i8259Init : Pic := ⟨0xFF, 0xFF⟩

def enableIrq (p : Pic) (irqNum : ℕ) : Pic :=
  if irqNum < irqPerPic then { p with masterMask := p.masterMask &&& ~~~(1#8 <<< irqNum) }
  else
    { masterMask := p.masterMask &&& ~~~(1#8 <<< slaveIrq)
      slaveMask := p.slaveMask &&& ~~~(1#8 <<< (irqNum - irqPerPic)) }

def disableIrq (p : Pic) (irqNum : ℕ) : Pic :=
  if irqNum < irqPerPic then { p with masterMask := p.masterMask ||| (1#8 <<< irqNum) }
  else
    { masterMask := p.masterMask ||| (1#8 <<< slaveIrq)
      slaveMask := p.slaveMask ||| (1#8 <<< (irqNum - irqPerPic)) }

/-! ### The driver -/

structure RtcProcess where
  rate : ℤ
  currCount : ℤ
  maxCount : ℤ

/-- The driver's variables and the two control registers of the clock. -/
structure Rtc where
  rtcRate : ℤ
  openCount : ℤ
  procs : ℕ → RtcProcess
  regA : BitVec 8
  regB : BitVec 8

/-- What the device drivers change besides user memory. -/
structure Devices where
  rtc : Rtc
  pic : Pic
  iflag : Bool

def rateMin : ℤ := 2
def rateMax : ℤ := 1024
def rtcAbsMax : ℤ := 32768
def rateDefault : BitVec 8 := 0xF
def intFlag : BitVec 8 := 0x40

/-- The clock's registers keep what they held. -/
def rtcInit (regA regB : BitVec 8) : Rtc where
  rtcRate := 0
  openCount := 0
  procs := fun i => ⟨if i < maxProcesses then rateMin else 0, 0, 0⟩
  regA := regA
  regB := regB

/-- The interrupt handler counts down for every process. -/
def rtcHandlerMain (r : Rtc) : Rtc :=
  { r with procs := fun i =>
      if i < maxProcesses then { r.procs i with currCount := (r.procs i).currCount - 1 }
      else r.procs i }

def updateRtcProcesses (r : Rtc) : Rtc :=
  { r with procs := fun i =>
      if i < maxProcesses then { r.procs i with maxCount := r.rtcRate.tdiv (r.procs i).rate }
      else r.procs i }

/-- Count the halvings until `ratefactor` is zero. -/
def rateSelectLoop : ℕ → ℕ → ℕ → ℕ
  | 0, _, rs => rs
  | fuel + 1, ratefactor, rs =>
    if ratefactor / 2 ≠ 0 then rateSelectLoop fuel (ratefactor / 2) (rs + 1) else rs

/-- The rate select value `log2 (32768 / rate) + 1`. -/
def rateSelect (rate : ℤ) : ℕ := rateSelectLoop 32 (rtcAbsMax.tdiv rate).toNat 0 + 1

/-- Program the clock's rate. -/
def setRate (d : Devices) (rate : ℤ) : Devices :=
  { d with
    rtc := { d.rtc with regA := (d.rtc.regA &&& 0xF0#8) ||| BitVec.ofNat 8 (rateSelect rate) }
    iflag := true }

/-- The first open turns the clock's interrupts on. -/
def rtcOpen (d : Devices) : Devices :=
  let d :=
    if d.rtc.openCount = 0 then
      { rtc := { d.rtc with
          regB := d.rtc.regB ||| intFlag
          regA := (d.rtc.regA &&& 0xF0#8) ||| rateDefault
          rtcRate := rateMin }
        pic := enableIrq d.pic rtcIrqNum
        iflag := true }
    else d
  { d with rtc := { d.rtc with openCount := d.rtc.openCount + 1 } }

/-- `rtc_read` restarts the process's counter; the spin that follows only delays the return. -/
def rtcRead (d : Devices) (pid : ℕ) : Devices :=
  let p := d.rtc.procs (pid - 1)
  { d with rtc := { d.rtc with
      procs := Function.update d.rtc.procs (pid - 1) { p with currCount := p.maxCount } } }

/-- The power-of-two test of `rtc_write`, in 32-bit arithmetic. -/
def notPowerOfTwo (rate : ℤ) : Bool := BitVec.ofInt 32 rate &&& BitVec.ofInt 32 (rate - 1) ≠ 0

/-- `rate` is the integer the caller's buffer holds. -/
def rtcWrite (d : Devices) (pid : ℕ) (rate : ℤ) : ℤ × Devices :=
  if rate = 0 ∨ rate > rateMax then (-1, d)
  else if notPowerOfTwo rate then (-1, d)
  else
    let p := d.rtc.procs (pid - 1)
    let p := { p with rate := rate, maxCount := d.rtc.rtcRate.tdiv rate }
    let d := { d with rtc := { d.rtc with procs := Function.update d.rtc.procs (pid - 1) p } }
    if rate > d.rtc.rtcRate then
      -- the counter just worked out for the old rate is overwritten with all others
      let d := setRate { d with rtc := { d.rtc with rtcRate := rate } } rate
      (1, { d with rtc := updateRtcProcesses d.rtc })
    else (1, d)

/-- The highest rate of a process, and at least `RATE_MIN`. -/
def trimmedRate (procs : ℕ → RtcProcess) : ℤ :=
  (List.range maxProcesses).foldl
    (fun rtcRate i => if (procs i).rate > rtcRate then (procs i).rate else rtcRate) rateMin

/-- The last close turns the clock's interrupts off, and enables interrupts on the way. -/
def rtcClose (d : Devices) (pid : ℕ) : Devices :=
  let p := d.rtc.procs (pid - 1)
  let rtc : Rtc := { d.rtc with
    procs := Function.update d.rtc.procs (pid - 1) { p with rate := rateMin }
    openCount := d.rtc.openCount - 1 }
  if rtc.openCount = 0 then
    { rtc := { rtc with regB := rtc.regB &&& ~~~intFlag }
      pic := disableIrq d.pic rtcIrqNum
      iflag := true }
  else { d with rtc := updateRtcProcesses { rtc with rtcRate := trimmedRate rtc.procs } }

/-! ### The counter of open descriptors and the interrupt flag -/

@[simp] theorem rtcRead_openCount (d : Devices) (pid : ℕ) :
    (rtcRead d pid).rtc.openCount = d.rtc.openCount := rfl

@[simp] theorem rtcWrite_openCount (d : Devices) (pid : ℕ) (rate : ℤ) :
    (rtcWrite d pid rate).2.rtc.openCount = d.rtc.openCount := by
  unfold rtcWrite
  split_ifs
  · rfl
  · rfl
  · simp only
    split_ifs <;> rfl

@[simp] theorem rtcOpen_openCount (d : Devices) :
    (rtcOpen d).rtc.openCount = d.rtc.openCount + 1 := by
  unfold rtcOpen
  split_ifs <;> rfl

@[simp] theorem rtcClose_openCount (d : Devices) (pid : ℕ) :
    (rtcClose d pid).rtc.openCount = d.rtc.openCount - 1 := by
  unfold rtcClose
  simp only
  split_ifs <;> rfl

/-- The close that leaves no open descriptor enables interrupts, any other keeps the flag. -/
theorem rtcClose_iflag (d : Devices) (pid : ℕ) :
    (rtcClose d pid).iflag = (d.iflag || decide (d.rtc.openCount = 1)) := by
  unfold rtcClose
  simp only
  by_cases h : d.rtc.openCount = 1
  · rw [if_pos (by omega), decide_eq_true h, Bool.or_true]
  · rw [if_neg (by omega), decide_eq_false h, Bool.or_false]

end LinuxIsLove
