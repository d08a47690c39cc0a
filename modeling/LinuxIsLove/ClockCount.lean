import LinuxIsLove.Clock
import LinuxIsLove.Descriptors
import LinuxIsLove.HaltWindow
import LinuxIsLove.PicMasks

/-!
# The number of open descriptors of the clock

The driver counts its open descriptors without looking at them: `open` and `close` call it through
the operations of the descriptor, and so does `halt` for every descriptor that is still live.  The
blocks of processes that are gone keep their live descriptors in memory until `execute` sets them
up again.

In every run whose calls are made by live processes the count is right, and the interrupt of the
clock is enabled exactly while it is positive (`clock_counted`).
-/

namespace LinuxIsLove

open Bytes EventMachine

/-- The clock interrupts: its line is unmasked, and bit 6 of register B is set. -/
def ClockEnabled (d : Devices) : Prop := Unmasked d.pic rtcIrqNum ∧ d.rtc.regB.getLsbD 6 = true

/-- The open descriptors of the clock that a live process has. -/
def openBy (k : Kernel) (p : ℕ) : ℕ := if Allocated k p then rtcFrom (k.pcb p).files 0 else 0

/-- The open descriptors of the clock. -/
def openClocks (k : Kernel) : ℕ := ∑ p ∈ Finset.range (maxProcesses + 1), openBy k p

/-- The system calls on processes and descriptors are made by live processes. -/
def LiveCaller (k : Kernel) : Event → Prop
  | .execute _ | .openFile _ | .closeFile _ | .halt _ => Allocated k k.running
  | _ => True

instance (k : Kernel) : (e : Event) → Decidable (LiveCaller k e)
  | .execute _ | .openFile _ | .closeFile _ | .halt _ =>
    (inferInstance : Decidable (Allocated k k.running))
  | .key _ | .tick | .arm _ _ | .read _ _ _ | .write _ _ _ | .getargs _ _ | .vidmap _ | .compute _
  | .type _ | .rtcInterrupt => instDecidableTrue

/-! ### The devices -/

/-- The driver is counting, and interrupts while the count is positive. -/
structure DevicesOk (d : Devices) : Prop where
  nonneg : 0 ≤ d.rtc.openCount
  enabled : ClockEnabled d ↔ 0 < d.rtc.openCount

/-- Devices that differ in what the count does not depend on. -/
structure SameClock (d d' : Devices) : Prop where
  openCount : d'.rtc.openCount = d.rtc.openCount
  regB : d'.rtc.regB = d.rtc.regB
  pic : d'.pic = d.pic

section Devices

variable {d d' : Devices} {pid : ℕ}

theorem SameClock.refl (d : Devices) : SameClock d d := ⟨rfl, rfl, rfl⟩

theorem SameClock.devicesOk (h : SameClock d d') (hd : DevicesOk d) : DevicesOk d' := by
  refine ⟨by rw [h.openCount]; exact hd.nonneg, ?_⟩
  rw [ClockEnabled, h.regB, h.pic, h.openCount]
  exact hd.enabled

/-- A write changes rates only. -/
theorem sameClock_rtcWrite (d : Devices) (pid : ℕ) (rate : ℤ) :
    SameClock d (rtcWrite d pid rate).2 := by
  by_cases hacc : Accepted rate
  swap
  · rw [rtcWrite_rejected hacc]
    exact SameClock.refl d
  by_cases hle : rate ≤ d.rtc.rtcRate
  · rw [rtcWrite_low hacc hle]
    exact ⟨rfl, rfl, rfl⟩
  · rw [rtcWrite_raise hacc (not_le.1 hle)]
    exact ⟨rfl, rfl, rfl⟩

theorem unmasked_enableIrq (p : Pic) : Unmasked (enableIrq p rtcIrqNum) rtcIrqNum := by
  constructor
  · simp [enableIrq, rtcIrqNum, irqPerPic, slaveIrq]
  · simp [enableIrq, rtcIrqNum, irqPerPic, slaveIrq]

theorem not_unmasked_disableIrq (p : Pic) : ¬ Unmasked (disableIrq p rtcIrqNum) rtcIrqNum := by
  rintro ⟨hmaster, -⟩
  simp [disableIrq, rtcIrqNum, irqPerPic, slaveIrq] at hmaster

/-- The first open enables the interrupt. -/
theorem devicesOk_rtcOpen (h : DevicesOk d) : DevicesOk (rtcOpen d) := by
  have hnonneg := h.nonneg
  refine ⟨by rw [rtcOpen_openCount]; omega, ?_⟩
  rw [rtcOpen_openCount]
  refine iff_of_true ?_ (by omega)
  by_cases h0 : d.rtc.openCount = 0
  · rw [rtcOpen_first h0]
    refine ⟨unmasked_enableIrq _, ?_⟩
    simp [intFlag]
  · rw [rtcOpen_again h0]
    exact h.enabled.2 (by omega)

/-- The last close disables it. -/
theorem devicesOk_rtcClose (h : DevicesOk d) (hpos : 0 < d.rtc.openCount) :
    DevicesOk (rtcClose d pid) := by
  refine ⟨by rw [rtcClose_openCount]; omega, ?_⟩
  rw [rtcClose_openCount]
  by_cases h1 : d.rtc.openCount = 1
  · rw [rtcClose_last h1]
    refine iff_of_false (fun hen => not_unmasked_disableIrq _ hen.1) (by omega)
  · rw [rtcClose_again h1]
    exact iff_of_true (h.enabled.2 hpos) (by omega)

theorem devicesOk_boot (E : Env) : DevicesOk (boot E).devices := by
  refine ⟨le_rfl, iff_of_false ?_ (lt_irrefl 0)⟩
  rintro ⟨⟨hmaster, -⟩, -⟩
  simp [boot, enableIrq, i8259Init, irqPerPic, slaveIrq] at hmaster

end Devices

/-! ### The tables -/

section Tables

variable {k k' : Kernel} {files files' : ℕ → Fd} {i : ℕ} {fd : Fd}

theorem rtcFrom_eq_sum (files : ℕ → Fd) :
    rtcFrom files 0 = ∑ i ∈ Finset.range fileArrayLen, (isRtc (files i)).toNat := by
  have hlist : rtcFrom files 0 =
      (List.range fileArrayLen).countP fun j => isRtc (files j) := by
    rw [rtcFrom, Nat.sub_zero, List.range_eq_range']
  rw [hlist]
  simp only [fileArrayLen, List.range_succ, List.range_zero, List.nil_append, List.countP_append,
    List.countP_singleton, Finset.sum_range_succ, Finset.sum_range_zero, zero_add]
  simp only [Bool.toNat, Bool.cond_eq_ite]

theorem rtcFrom_congr (h : ∀ i < fileArrayLen, isRtc (files' i) = isRtc (files i)) :
    rtcFrom files' 0 = rtcFrom files 0 := by
  rw [rtcFrom_eq_sum, rtcFrom_eq_sum]
  exact Finset.sum_congr rfl fun i hi => by rw [h i (Finset.mem_range.1 hi)]

/-- Replacing one descriptor. -/
theorem rtcFrom_update (hi : i < fileArrayLen) (fd : Fd) :
    rtcFrom (Function.update files i fd) 0 + (isRtc (files i)).toNat =
      rtcFrom files 0 + (isRtc fd).toNat := by
  rw [rtcFrom_eq_sum, rtcFrom_eq_sum]
  have hchange := sum_change (Finset.mem_range.2 hi) (f := fun j => (isRtc (files j)).toNat)
    (g := fun j => (isRtc (Function.update files i fd j)).toNat)
    fun j hj => by rw [Function.update_of_ne hj]
  simpa only [Function.update_self] using hchange

theorem isRtc_of_pos {fd fd' : Fd} (h : fd' = { fd with pos := fd'.pos }) :
    isRtc fd' = isRtc fd := by
  rw [h]
  rfl

/-- A descriptor that a history describes is one of the clock if it is open for it. -/
theorem isRtc_holds {o : Option ℕ} (h : Holds o fd) :
    isRtc fd = decide (fd.flags ≠ 0 ∧ fd.fops = some .rtc) := by
  cases o with
  | none => simp [isRtc, h.1]
  | some ftype => simp [isRtc, h.1, fdLive]

theorem openClocks_congr (hall : ∀ p, Allocated k' p ↔ Allocated k p)
    (hrtc : ∀ p i, i < fileArrayLen → isRtc ((k'.pcb p).files i) = isRtc ((k.pcb p).files i)) :
    openClocks k' = openClocks k := by
  refine Finset.sum_congr rfl fun p _ => ?_
  simp only [openBy, hall, rtcFrom_congr (hrtc p)]

/-- The count of one process changes. -/
theorem openClocks_change {q : ℕ} (hq : q ≤ maxProcesses)
    (h : ∀ p, p ≠ q → openBy k' p = openBy k p) :
    openClocks k' + openBy k q = openClocks k + openBy k' q :=
  sum_change (Finset.mem_range.2 (Nat.lt_succ_of_le hq)) h

theorem openBy_le (k : Kernel) {q : ℕ} (hq : q ≤ maxProcesses) : openBy k q ≤ openClocks k :=
  Finset.single_le_sum (f := openBy k) (fun _ _ => Nat.zero_le _)
    (Finset.mem_range.2 (Nat.lt_succ_of_le hq))

theorem openBy_of_allocated {p : ℕ} (h : Allocated k p) :
    openBy k p = rtcFrom (k.pcb p).files 0 := if_pos h

theorem openBy_of_not_allocated {p : ℕ} (h : ¬ Allocated k p) : openBy k p = 0 := if_neg h

end Tables

/-! ### The invariant -/

structure ClockCounted (k : Kernel) : Prop where
  wf : Wf k
  tables : ∀ p, Used k p → TableOk (k.pcb p).files
  count : k.devices.rtc.openCount = openClocks k
  devices : DevicesOk k.devices

section Invariant

variable {E : Env} {k k' : Kernel} {p i : ℕ} {fd : Fd} {d : Devices}

/-- Nothing changes but what the count does not depend on. -/
theorem ClockCounted.congr (hk : ClockCounted k) (hw : Wf k') (hused : ∀ p, Used k' p → Used k p)
    (hall : ∀ p, Allocated k' p ↔ Allocated k p)
    (hfiles : ∀ p, (k'.pcb p).files = (k.pcb p).files)
    (hdev : SameClock k.devices k'.devices) : ClockCounted k' := by
  refine ⟨hw, fun p hp => ?_, ?_, hdev.devicesOk hk.devices⟩
  · rw [hfiles]
    exact hk.tables p (hused p hp)
  · rw [hdev.openCount, hk.count, openClocks_congr hall fun p i _ => by rw [hfiles]]

/-- A new process has no descriptor of the clock. -/
theorem rtcFrom_initFiles (files : ℕ → Fd) : rtcFrom (initFiles files) 0 = 0 := by
  rw [rtcFrom_eq_sum]
  refine Finset.sum_eq_zero fun i hi => ?_
  have h8 := Finset.mem_range.1 hi
  have hno : isRtc (initFiles files i) = false := by
    unfold initFiles
    split_ifs
    · simp [isRtc, getDeviceFops, termFtype, rtcFtype, dirFtype, fileFtype]
    · simp [isRtc]
  rw [hno]
  rfl

theorem tableOk_initFiles (files : ℕ → Fd) : TableOk (initFiles files) := by
  intro i hi
  unfold initFiles
  split_ifs
  · exact ⟨some termFtype, rfl, rfl, by decide⟩
  · exact ⟨none, rfl, rfl, rfl⟩

theorem clockCounted_execute (hk : ClockCounted k) {site : Site} {command : CString}
    (hw : Wf k') (h : execute E site command k = some k') : ClockCounted k' := by
  obtain ⟨pid, dentry, args, -, h1, h6, hfree, rfl⟩ := execute_spec h
  have hall : ∀ p, Allocated (startProcess E site pid dentry args (takeSlot k pid)) p ↔
      p = pid ∨ Allocated k p := fun p => allocated_takeSlot (k := k) h1 h6
  have hnew : openBy (startProcess E site pid dentry args (takeSlot k pid)) pid = 0 := by
    rw [openBy_of_allocated ((hall pid).2 (Or.inl rfl)), startProcess_pcb_self]
    exact rtcFrom_initFiles _
  have hold : ∀ p, p ≠ pid →
      openBy (startProcess E site pid dentry args (takeSlot k pid)) p = openBy k p := by
    intro p hp
    simp only [openBy, hall, hp, false_or, startProcess_pcb_of_ne hp]
    rfl
  refine ⟨hw, fun p hp => ?_, ?_, hk.devices⟩
  · by_cases hpid : p = pid
    · subst hpid
      rw [startProcess_pcb_self]
      exact tableOk_initFiles _
    · rw [startProcess_pcb_of_ne hpid]
      exact hk.tables p ((used_startProcess.1 hp).resolve_left hpid)
  · have hchange := openClocks_change h6 hold
    rw [hnew, openBy_of_not_allocated hfree] at hchange
    have hcount := hk.count
    show k.devices.rtc.openCount = _
    omega

theorem closed_clockCounted (E : Env) : Closed E ClockCounted where
  wf _ hk := hk.wf
  save k frame b hk := by
    refine hk.congr (wf_nextExecute (wf_saveContext hk.wf frame) b) (fun _ hp => hp)
      (fun _ => Iff.rfl) (fun p => ?_) (SameClock.refl _)
    show ((saveContext frame k).pcb p).files = _
    rw [saveContext_pcb]
  display k t b hk ht := hk.congr (wf_display hk.wf ht b) (fun _ hp => hp) (fun _ => Iff.rfl)
    (fun _ => rfl) (SameClock.refl _)
  schedule k frame k' hk h := by
    have hw := wf_schedule hk.wf h
    obtain ⟨next, -, ⟨-, rfl⟩ | ⟨-, rfl⟩⟩ := schedule_spec h
    · exact hk
    · exact hk.congr hw (fun _ hp => hp) (fun _ => Iff.rfl) (fun _ => rfl) (SameClock.refl _)
  execute k site k' hk _ hcur h := clockCounted_execute hk (wf_execute hk.wf hcur h) h

/-! ### The calls of a live process -/

/-- The running process is live, and only its own table changes. -/
theorem clockCounted_setSlot (hk : ClockCounted k) (hw : Wf (k.setSlot i fd d))
    (hlive : Allocated k k.running) (hi : i < fileArrayLen) (hfd : ∃ o, Holds o fd)
    (hdev : DevicesOk d)
    (hcount : d.rtc.openCount + (isRtc (k.current.files i)).toNat =
      k.devices.rtc.openCount + (isRtc fd).toNat) : ClockCounted (k.setSlot i fd d) := by
  have hall : ∀ p, Allocated (k.setSlot i fd d) p ↔ Allocated k p := fun _ => Iff.rfl
  have hother : ∀ p, p ≠ k.running → (k.setSlot i fd d).pcb p = k.pcb p :=
    fun p hp => Kernel.setFiles_pcb_of_ne hp
  have hfiles := setSlot_files k i fd d
  refine ⟨hw, fun p hp => ?_, ?_, hdev⟩
  · -- the tables: one entry of one table is new
    by_cases hr : p = k.running
    · subst hr
      rw [hfiles]
      intro j hj
      by_cases hji : j = i
      · rw [hji, Function.update_self]
        exact hfd
      · rw [Function.update_of_ne hji]
        exact hk.tables _ hp j hj
    · rw [hother p hr]
      exact hk.tables p hp
  · -- the count: one summand changes, by as much as the entry does
    have hrange := hk.wf.used_range _ (hk.wf.allocated_used _ hlive)
    have hchange : openClocks (k.setSlot i fd d) + openBy k k.running =
        openClocks k + openBy (k.setSlot i fd d) k.running :=
      openClocks_change hrange.2 fun p hp => by simp only [openBy, hall, hother p hp]
    have hupdate : rtcFrom (Function.update k.current.files i fd) 0 +
        (isRtc (k.current.files i)).toNat = rtcFrom k.current.files 0 + (isRtc fd).toNat :=
      rtcFrom_update hi fd
    rw [openBy_of_allocated hlive, openBy_of_allocated ((hall _).2 hlive), hfiles] at hchange
    have hold : rtcFrom (k.pcb k.running).files 0 = rtcFrom k.current.files 0 := rfl
    have hk0 := hk.count
    show d.rtc.openCount = _
    omega

theorem clockCounted_openFile (hk : ClockCounted k) (hlive : Allocated k k.running) {s : CString}
    {r : ℤ} (h : openFile E s k = some (r, k')) : ClockCounted k' := by
  have hw := (sameProcesses_openFile h).wf hk.wf
  rcases openFile_holds h with ⟨-, rfl⟩ | ⟨i, fd, d, hfree, hfd, hd, -, rfl⟩
  · exact hk
  obtain ⟨-, h8, hflags⟩ := freeFd_spec hfree
  have hold : isRtc (k.current.files i) = false := by simp [isRtc, hflags]
  have hlive1 : fd.flags ≠ 0 := hfd.live_iff.2 (Option.some_ne_none _)
  unfold openDevice at hd
  split at hd
  next => exact absurd hd (by simp)
  next hrtc =>
    cases hd
    have hnew : isRtc fd = true := by rw [isRtc_holds hfd, decide_eq_true ⟨hlive1, hrtc⟩]
    refine clockCounted_setSlot hk hw hlive h8 ⟨_, hfd⟩ (devicesOk_rtcOpen hk.devices) ?_
    rw [rtcOpen_openCount, hold, hnew]
    simp
  next hne hsome =>
    cases hd
    have hnew : isRtc fd = false := by
      rw [isRtc_holds hfd, decide_eq_false]
      rintro ⟨-, hrtc⟩
      exact hne (Option.some.inj (hsome.symm.trans hrtc))
    refine clockCounted_setSlot hk hw hlive h8 ⟨_, hfd⟩ hk.devices ?_
    rw [hold, hnew]

theorem clockCounted_closeFile (hk : ClockCounted k) (hlive : Allocated k k.running) {fd : ℤ}
    {r : ℤ} (h : closeFile fd k = some (r, k')) : ClockCounted k' := by
  have hw := (sameProcesses_closeFile h).wf hk.wf
  rcases closeFile_cases h with ⟨-, rfl⟩ | ⟨d, h2, h8, hlive1, hd, -, rfl⟩
  · exact hk
  have hi : fd.toNat < fileArrayLen := by
    simp only [fileArrayLen] at h8 ⊢
    omega
  have hused := hk.wf.allocated_used _ hlive
  obtain ⟨o, ho⟩ := hk.tables _ hused fd.toNat hi
  have ho' : Holds o (k.current.files fd.toNat) := ho
  have hnew : isRtc (closedFd (k.current.files fd.toNat)) = false := by simp [isRtc, closedFd]
  have hclosed : ∃ o, Holds o (closedFd (k.current.files fd.toNat)) := ⟨none, rfl, rfl, rfl⟩
  unfold closeDevice at hd
  split at hd
  next => exact absurd hd (by simp)
  next hrtc =>
    cases hd
    have hold : isRtc (k.current.files fd.toNat) = true := by
      rw [isRtc_holds ho', decide_eq_true ⟨hlive1, hrtc⟩]
    -- the descriptor itself is one of those that are counted
    have hpos : 0 < k.devices.rtc.openCount := by
      have hrange := hk.wf.used_range _ hused
      have hle := openBy_le k hrange.2
      have hupdate := @rtcFrom_update k.current.files _ hi (closedFd (k.current.files fd.toNat))
      rw [hold, hnew] at hupdate
      have hby : openBy k k.running = rtcFrom k.current.files 0 := openBy_of_allocated hlive
      have hcount := hk.count
      simp only [Bool.toNat_true, Bool.toNat_false] at hupdate
      omega
    refine clockCounted_setSlot hk hw hlive hi hclosed (devicesOk_rtcClose hk.devices hpos) ?_
    rw [rtcClose_openCount, hold, hnew]
    simp
  next hne hsome =>
    cases hd
    have hold : isRtc (k.current.files fd.toNat) = false := by
      rw [isRtc_holds ho', decide_eq_false]
      rintro ⟨-, hrtc⟩
      exact hne (Option.some.inj (hsome.symm.trans hrtc))
    refine clockCounted_setSlot hk hw hlive hi hclosed hk.devices ?_
    rw [hold, hnew]

/-- The loop over the descriptors of a halting process takes as much from the count as there are
descriptors of the clock left. -/
theorem haltCloseLoop_count {n i : ℕ} (hi : i + n = fileArrayLen)
    (hle : (rtcFrom k.current.files i : ℤ) ≤ k.devices.rtc.openCount)
    (hd : DevicesOk k.devices) (h : haltCloseLoop n i k = some k') :
    k'.devices.rtc.openCount = k.devices.rtc.openCount - rtcFrom k.current.files i ∧
      DevicesOk k'.devices := by
  induction n generalizing i k with
  | zero =>
    cases h
    rw [Nat.add_zero] at hi
    rw [hi, rtcFrom_end]
    exact ⟨by simp, hd⟩
  | succ n ih =>
    obtain ⟨k1, hk1, hrest⟩ := Option.bind_eq_some_iff.1 h
    have hfrom := @rtcFrom_succ k.current.files i (by omega)
    rcases haltClose_cases hk1 with ⟨hrtc, rfl⟩ | ⟨hrtc, rfl⟩
    · rw [if_pos hrtc] at hfrom
      have hfiles : Kernel.current { k with devices := rtcClose k.devices k.current.pid } =
          k.current := rfl
      have hpos : 0 < k.devices.rtc.openCount := by omega
      obtain ⟨hcount, hok⟩ := ih (k := { k with devices := rtcClose k.devices k.current.pid })
        (by omega) (by rw [hfiles, rtcClose_openCount]; omega) (devicesOk_rtcClose hd hpos) hrest
      refine ⟨?_, hok⟩
      rw [hcount, hfiles, rtcClose_openCount]
      omega
    · rw [if_neg (by rw [hrtc]; exact Bool.false_ne_true), Nat.add_zero] at hfrom
      rw [hfrom] at hle ⊢
      exact ih (by omega) hle hd hrest

/-- A process that has been deleted, with its descriptors closed. -/
theorem clockCounted_halted (hk : ClockCounted k) (hlive : Allocated k k.running)
    {k1 : Kernel} (h : haltCloseLoop fileArrayLen 0 (haltBegin k) = some k1) :
    ∃ d, k1 = halted k d ∧ ClockCounted (halted k d) := by
  have hused := hk.wf.allocated_used _ hlive
  have hr := hk.wf.used_ne_zero hused
  have hrange := hk.wf.used_range _ hused
  have hbegin : (haltBegin k).current = k.current := by
    unfold haltBegin deleteProcess Kernel.setIflag
    split_ifs <;> rfl
  have hdev : SameClock k.devices (haltBegin k).devices := by
    unfold haltBegin deleteProcess Kernel.setIflag
    split_ifs <;> exact ⟨rfl, rfl, rfl⟩
  have hby : openBy k k.running = rtcFrom k.current.files 0 := openBy_of_allocated hlive
  have hle := openBy_le k hrange.2
  have hcount := hk.count
  obtain ⟨hafter, hok⟩ := haltCloseLoop_count (by rfl)
    (by rw [hbegin, hdev.openCount]; omega) (hdev.devicesOk hk.devices) h
  rw [hbegin, hdev.openCount] at hafter
  obtain ⟨d, rfl⟩ := haltCloseLoop_spec h
  have heq : { haltBegin k with devices := d } = halted k d := by
    unfold haltBegin halted deleteProcess Kernel.setIflag
    split_ifs <;> rfl
  refine ⟨d, heq, wf_halted hk.wf hr d, fun p hp => ?_, ?_, hok⟩
  · rw [halted_pcb]
    refine hk.tables p ?_
    rwa [Used, halted_starts] at hp
  · -- a deleted process is no longer counted, and the loop took out what it had
    have hchange : openClocks (halted k d) + openBy k k.running =
        openClocks k + openBy (halted k d) k.running :=
      openClocks_change hrange.2 fun p hp => by
        simp only [openBy, allocated_halted hk.wf hr d, hp, ne_eq, not_false_eq_true, and_true,
          halted_pcb]
    have hgone : openBy (halted k d) k.running = 0 :=
      openBy_of_not_allocated fun hall => ((allocated_halted hk.wf hr d).1 hall).2 rfl
    rw [hgone] at hchange
    show d.rtc.openCount = _
    have hafter' : d.rtc.openCount = k.devices.rtc.openCount - rtcFrom k.current.files 0 := hafter
    omega

theorem clockCounted_halt (hk : ClockCounted k) (hlive : Allocated k k.running) {status : UInt8}
    (h : halt E status k = some k') : ClockCounted k' := by
  have hused := hk.wf.allocated_used _ hlive
  have hr := hk.wf.used_ne_zero hused
  obtain ⟨k1, hk1, hfinish⟩ := Option.bind_eq_some_iff.1 h
  obtain ⟨d, rfl, hhalted⟩ := clockCounted_halted hk hlive hk1
  have hr' : (halted k d).running ≠ 0 := by rwa [halted_running]
  rcases haltFinish_spec hfinish with ⟨parent, hparent, hcont⟩ | ⟨-, hexec⟩
  · have hret : ClockCounted (returnToParent parent status (halted k d)) :=
      hhalted.congr (wf_returnToParent hhalted.wf hr' hparent status) (fun _ hp => hp)
        (fun _ => Iff.rfl) (fun _ => rfl) (SameClock.refl _)
    have hpused := (hhalted.wf.current_ok hr').parent parent hparent
    exact (closed_clockCounted E).continueFrame hret (hhalted.wf.used_ne_zero hpused) hcont
  · have hdrop : ClockCounted (dropBase (halted k d)) :=
      hhalted.congr (wf_dropBase hhalted.wf hr') (fun _ hp => hp) (fun _ => Iff.rfl)
        (fun _ => rfl) (SameClock.refl _)
    have hcur := hdrop.wf.current_nonneg hr'
    exact clockCounted_execute hdrop (wf_execute hdrop.wf hcur hexec) hexec

/-! ### Every step -/

theorem sameClock_readFile {fd : ℤ} {buf : ℕ} {nbytes r : ℤ}
    (h : readFile E fd buf nbytes k = some (r, k')) : SameClock k.devices k'.devices := by
  cases readEffect_of_readFile h with
  | failed => exact SameClock.refl _
  | clock => exact ⟨rfl, rfl, rfl⟩
  | copied mem n hrange hlive => exact SameClock.refl _
  | line mem nbytes dst => exact SameClock.refl _

theorem sameClock_writeFile {fd : ℤ} {buf : ℕ} {nbytes r : ℤ}
    (h : writeFile E fd buf nbytes k = some (r, k')) : SameClock k.devices k'.devices := by
  cases writeEffect_of_writeFile h with
  | failed => exact SameClock.refl _
  | clock freq => exact sameClock_rtcWrite _ _ _
  | text hscreen =>
    rw [terminalWrite, if_neg hscreen.2.2.2.2]
    exact SameClock.refl _

/-- No quiet event but `open` and `close` matters to the count. -/
theorem sameClock_dispatch {e : Event} (hq : e.quiet) (hopen : ∀ s, e ≠ .openFile s)
    (hclose : ∀ fd, e ≠ .closeFile fd) (h : dispatch E k e = some k') :
    SameClock k.devices k'.devices := by
  cases effect_of_dispatch h with
  | key => exact hq.elim
  | tick => exact hq.elim
  | executed => exact hq.elim
  | notExecuted => exact hq.elim
  | halt => exact hq.elim
  | openFile s => exact absurd rfl (hopen s)
  | closeFile fd => exact absurd rfl (hclose fd)
  | type key htype =>
    unfold typeKey at htype
    split_ifs at htype
    cases htype
    exact SameClock.refl _
  | rtcInterrupt => exact ⟨rfl, rfl, rfl⟩
  | arm fd buf =>
    unfold armFile armTerminal
    split_ifs <;> exact SameClock.refl _
  | read fd buf nbytes _ _ hread => exact (sameClock_readFile hread :)
  | write fd buf nbytes _ _ hwrite => exact (sameClock_writeFile hwrite :)
  | getargs buf nbytes =>
    unfold getargs result
    simp only
    split_ifs <;> exact SameClock.refl _
  | vidmap screenStart _ hbuf hmap =>
    rcases vidmap_cases hbuf hmap with ⟨-, -, rfl⟩ | ⟨-, -, -, rfl⟩ <;> exact SameClock.refl _
  | compute mem => exact SameClock.refl _

/-- A quiet event other than `open` and `close` leaves the descriptors of the clock alone. -/
theorem clockCounted_quiet {e : Event} (hk : ClockCounted k) (hq : e.quiet)
    (hopen : ∀ s, e ≠ .openFile s) (hclose : ∀ fd, e ≠ .closeFile fd)
    (h : dispatch E k e = some k') : ClockCounted k' := by
  have hsame := sameProcesses_dispatch hq h
  have hdev := sameClock_dispatch hq hopen hclose h
  have hfiles : FilesReady k' := hsame.filesReady fun p hp => (hk.tables p hp).filesOk
  have hslot : ∀ p i, ((k'.pcb p).files i) =
      { (k.pcb p).files i with pos := ((k'.pcb p).files i).pos } := by
    intro p i
    by_cases hr : p = k.running
    · subst hr
      exact dispatch_pos hq hopen hclose h i
    · rw [hsame.otherFiles p hr]
  refine ⟨hsame.wf hk.wf, fun p hp i hi => ?_, ?_, hdev.devicesOk hk.devices⟩
  · obtain ⟨o, ho⟩ := hk.tables p ((hsame.used p).1 hp) i hi
    exact ⟨o, ho.of_pos (hslot p i) (hfiles p hp i hi)⟩
  · rw [hdev.openCount, hk.count,
      openClocks_congr hsame.allocated fun p i _ => isRtc_of_pos (hslot p i)]

/-- Every step whose caller is live keeps the count. -/
theorem clockCounted_step {e : Event} (hk : ClockCounted k) (hg : LiveCaller k e)
    (h : step E k e = some k') : ClockCounted k' := by
  have hmark : ∀ {k : Kernel} (r : ℤ), ClockCounted k → ClockCounted { k with eax := r } :=
    fun {k} r hk => hk.congr ((SameProcesses.eax k r).wf hk.wf) (fun _ hp => hp)
      (fun _ => Iff.rfl) (fun _ => rfl) (SameClock.refl _)
  have hk0 : ClockCounted k.advanceClock :=
    hk.congr ((SameProcesses.advanceClock k).wf hk.wf) (fun _ hp => hp) (fun _ => Iff.rfl)
      (fun _ => rfl) (SameClock.refl _)
  obtain ⟨k1, hk1, rfl⟩ := Option.map_eq_some_iff.1 h
  suffices hbody : ClockCounted k1 from
    hbody.congr ((SameProcesses.setIflag k1 true).wf hbody.wf) (fun _ hp => hp)
      (fun _ => Iff.rfl) (fun _ => rfl) ⟨rfl, rfl, rfl⟩
  cases effect_of_dispatch hk1 with
  | key t hstart => exact (closed_clockCounted E).startTerminal hk0 hstart
  | tick htimer => exact (closed_clockCounted E).pitHandlerMain hk0 htimer
  | executed command hr hexec =>
    exact clockCounted_execute hk0 (wf_execute hk0.wf (hk0.wf.current_nonneg hr) hexec) hexec
  | notExecuted => exact hmark (-1) hk0
  | halt status _ hend => exact clockCounted_halt hk0 hg hend
  | openFile s _ hopen => exact hmark _ (clockCounted_openFile hk0 hg hopen)
  | closeFile fd _ hclose => exact hmark _ (clockCounted_closeFile hk0 hg hclose)
  | _ => exact clockCounted_quiet hk0 (by trivial) (by simp) (by simp) hk1

theorem clockCounted_boot (E : Env) : ClockCounted (boot E) where
  wf := wf_boot E
  tables p hp := by simp [Used, boot] at hp
  count := by
    have hnone : openClocks (boot E) = 0 :=
      Finset.sum_eq_zero fun p _ => openBy_of_not_allocated fun hall => by
        simp [Allocated, boot] at hall
    rw [hnone]
    rfl
  devices := devicesOk_boot E

/-- **The reference count of the clock.**  After every run whose calls on processes and
descriptors are made by live processes, the driver's count is the number of live descriptors of
the clock that the live processes have, and the interrupt is enabled exactly if it is positive. -/
theorem clock_counted {es : List Event} (hguard : Guarded (step E) LiveCaller (boot E) es)
    (hrun : run (step E) (boot E) es = some k) :
    k.devices.rtc.openCount = openClocks k ∧ 0 ≤ k.devices.rtc.openCount ∧
      (ClockEnabled k.devices ↔ 0 < openClocks k) := by
  have hk : ClockCounted k := invariant_of_guarded (I := ClockCounted)
    (fun _ _ _ hk hg hs => clockCounted_step hk hg hs) (clockCounted_boot E) hguard hrun
  refine ⟨hk.count, hk.devices.nonneg, ?_⟩
  rw [hk.devices.enabled, hk.count]
  exact Int.natCast_pos

/-- A shell opens the clock twice, starts a second one that opens it as well and halts, and closes
one of its own descriptors. -/
def clockUsers : List Event :=
  [.key 0, .openFile rtcName, .openFile rtcName, .execute shell, .openFile rtcName, .halt 0,
    .closeFile 2]

theorem clock_counted_clockUsers :
    (smallState clockUsers).devices.rtc.openCount = openClocks (smallState clockUsers) ∧
      0 ≤ (smallState clockUsers).devices.rtc.openCount ∧
      (ClockEnabled (smallState clockUsers).devices ↔ 0 < openClocks (smallState clockUsers)) := by
  have hsome : (run (step small) (boot small) clockUsers).isSome = true := by decide +kernel
  have hguard : Guarded (step small) LiveCaller (boot small) clockUsers := by decide +kernel
  exact clock_counted hguard (run_smallState hsome)

end Invariant

end LinuxIsLove
