import LinuxIsLove.Source.Events

/-!
# What a step can do

One lemma for each routine that has many branches: `openFile_cases`, `closeFile_cases`, `ReadEffect`
and `WriteEffect` for the calls that go through the table of file operations, and `Effect` for all
events.  The invariants of this development are read off these, and not off the routines.
-/

namespace LinuxIsLove

open Bytes EventMachine

/-! ### Descriptors -/

/-- The state after a descriptor of the running process and the devices have changed. -/
def Kernel.setSlot (k : Kernel) (i : ℕ) (fd : Fd) (d : Devices) : Kernel :=
  { k.setFiles (Function.update k.current.files i fd) with devices := d }

section Calls

variable {E : Env} {k k' : Kernel} {r : ℤ}

/-- An `open` that returns fails, or has taken a descriptor and called the open routine of the
entry. -/
theorem openFile_cases {filename : CString} (h : openFile E filename k = some (r, k')) :
    (r = -1 ∧ k' = k) ∨
      ∃ i fd d, freeFd k.current.files = some i ∧
        (readDentryByName E.img filename fun _ => 0).1 ≠ -1 ∧
        fd = openFd (readDentryByName E.img filename fun _ => 0).2 (k.current.files i) ∧
        openDevice fd.fops k.devices = some d ∧ r = i ∧ k' = k.setSlot i fd d := by
  unfold openFile at h
  split at h
  next =>
    cases h
    exact Or.inl ⟨rfl, rfl⟩
  next i hfree =>
    simp only at h
    split_ifs at h with hno
    · cases h
      exact Or.inl ⟨rfl, rfl⟩
    · obtain ⟨d, hd, heq⟩ := Option.map_eq_some_iff.1 h
      cases heq
      rw [Function.update_self] at hd
      exact Or.inr ⟨i, _, d, hfree, hno, rfl, hd, rfl, rfl⟩

/-- A `close` that returns fails, or has called the close routine of the descriptor. -/
theorem closeFile_cases {fd : ℤ} (h : closeFile fd k = some (r, k')) : (r = -1 ∧ k' = k) ∨
    ∃ d, 2 ≤ fd ∧ fd < fileArrayLen ∧ (k.current.files fd.toNat).flags ≠ 0 ∧
      closeDevice (k.current.files fd.toNat).fops k.current.pid k.devices = some d ∧
      r = 0 ∧ k' = k.setSlot fd.toNat (closedFd (k.current.files fd.toNat)) d := by
  unfold closeFile at h
  simp only at h
  split_ifs at h with hrange hlive
  · cases h
    exact Or.inl ⟨rfl, rfl⟩
  · obtain ⟨d, hd, heq⟩ := Option.map_eq_some_iff.1 h
    cases heq
    exact Or.inr ⟨d, by omega, by omega, hlive, hd, rfl, rfl⟩
  · cases h
    exact Or.inl ⟨rfl, rfl⟩

/-- What a `read` leaves behind: nothing, the clock's record of the process, bytes in its memory and
a position moved on, or bytes in its memory and a line taken. -/
inductive ReadEffect (k : Kernel) (fd : ℤ) : Kernel → Prop
  | failed : ReadEffect k fd k
  | clock : ReadEffect k fd { k with devices := rtcRead k.devices k.current.pid }
  | copied (mem n) (hrange : 0 ≤ fd ∧ fd < fileArrayLen)
      (hlive : (k.current.files fd.toNat).flags ≠ 0) :
      ReadEffect k fd ((k.setMem mem).advance fd.toNat n)
  | line (mem nbytes dst) : ReadEffect k fd
      { k.setMem mem with
        terminals := Function.update k.terminals k.current.termNum.toNat
          (disarmRead (drain (k.terminals k.current.termNum.toNat) nbytes dst).2.2) }

theorem readEffect_of_readFile {fd : ℤ} {buf : ℕ} {nbytes : ℤ}
    (h : readFile E fd buf nbytes k = some (r, k')) : ReadEffect k fd k' := by
  unfold readFile at h
  split_ifs at h with hrange hlive
  · cases h
    exact .failed
  · have hrange' : 0 ≤ fd ∧ fd < fileArrayLen := by omega
    unfold readDevice at h
    split at h
    next => exact absurd h (by simp)
    next =>
      cases h
      exact .clock
    next =>
      cases h
      exact .copied _ _ hrange' hlive
    next =>
      cases h
      exact .copied _ _ hrange' hlive
    next =>
      unfold terminalRead at h
      simp only at h
      split_ifs at h
      · cases h
        exact .failed
      · cases h
        exact .line _ nbytes _
  · cases h
    exact .failed

/-- The `write` calls that reach a screen. -/
abbrev ReachesScreen (k : Kernel) (fd : ℤ) (buf : ℕ) : Prop :=
  0 < fd ∧ fd < fileArrayLen ∧ (k.current.files fd.toNat).flags ≠ 0 ∧
    (k.current.files fd.toNat).fops = some .term ∧ buf ≠ 0

/-- What a `write` leaves behind: nothing, a rate of the clock, or text on a screen. -/
inductive WriteEffect (E : Env) (k : Kernel) (fd : ℤ) (buf : ℕ) (nbytes : ℤ) : Kernel → Prop
  | failed (hno : ¬ ReachesScreen k fd buf) : WriteEffect E k fd buf nbytes k
  | clock (freq) (hno : ¬ ReachesScreen k fd buf) : WriteEffect E k fd buf nbytes
      { k with devices := (rtcWrite k.devices k.current.pid freq).2 }
  | text (hscreen : ReachesScreen k fd buf) :
      WriteEffect E k fd buf nbytes (terminalWrite E buf nbytes k).2

theorem writeEffect_of_writeFile {fd : ℤ} {buf : ℕ} {nbytes : ℤ}
    (h : writeFile E fd buf nbytes k = some (r, k')) : WriteEffect E k fd buf nbytes k' := by
  unfold writeFile at h
  split_ifs at h with hrange hlive
  · cases h
    exact .failed (by omega)
  · unfold writeDevice at h
    split at h
    next => exact absurd h (by simp)
    next hfops =>
      have hno : ¬ ReachesScreen k fd buf := by simp [ReachesScreen, hfops]
      split_ifs at h
      · cases h
        exact .failed hno
      · cases h
        exact .clock _ hno
    next hfops =>
      cases h
      exact .failed (by simp [ReachesScreen, hfops])
    next hfops =>
      cases h
      exact .failed (by simp [ReachesScreen, hfops])
    next hfops =>
      obtain rfl : (terminalWrite E buf nbytes k).2 = k' := congrArg Prod.snd (Option.some.inj h)
      by_cases hbuf : buf = 0
      · rw [terminalWrite, if_pos hbuf]
        exact .failed fun hscreen => hscreen.2.2.2.2 hbuf
      · exact .text ⟨by omega, by omega, hlive, hfops, hbuf⟩
  · cases h
    exact .failed (by tauto)

end Calls

/-! ### `vidmap` -/

/-- The memory after a 32-bit word was stored at an address. -/
def wordStored (m : Memory) (p w : ℕ) : Memory := fun a =>
  if p ≤ a ∧ a < p + wordSize then UInt8.ofNat (w / 2 ^ (8 * (a - p)) % 2 ^ 8) else m a

/-- The state that a `vidmap` leaves behind whose pointer lies in the page of the program. -/
def screenShown (screenStart : ℕ) (k : Kernel) : Kernel :=
  { k with
    userMem := Function.update k.userMem k.running (wordStored k.mem screenStart progVidmemAddr)
    pd := Function.update k.pd k.current.pd
      (setPdeFlags (k.pd k.current.pd) (BitVec.ofNat 32 progVidmemAddr) flagP)
    vidmapped := Function.update k.vidmapped k.running true }

section Vidmap

variable {E : Env} {k k' : Kernel} {screenStart : ℕ}

/-- The range check, on a 32-bit pointer. -/
theorem vidmapRefuses_iff (h : screenStart < 2 ^ 32) :
    vidmapRefuses screenStart ↔ ¬ InPage screenStart := by
  have hmod : screenStart % 2 ^ 32 = screenStart := Nat.mod_eq_of_lt h
  simp only [vidmapRefuses, InPage, s32, hmod, progVmStart, space4MB]
  split_ifs <;> omega

/-- One byte after the other, each in the page of the program. -/
theorem storeBytes_inPage (p w : ℕ) : ∀ (n i : ℕ) (k : Kernel),
    (∀ j, i ≤ j → j < i + n → InPage (p + j)) →
      (List.range' i n).foldlM
          (fun k i => storeByte E (p + i) (UInt8.ofNat (w / 2 ^ (8 * i) % 2 ^ 8)) k) k =
        some (k.setMem fun a =>
          if p + i ≤ a ∧ a < p + i + n then UInt8.ofNat (w / 2 ^ (8 * (a - p)) % 2 ^ 8)
          else k.mem a) := by
  intro n
  induction n with
  | zero =>
    intro i k _
    have hsame : (fun a => if p + i ≤ a ∧ a < p + i + 0 then
        UInt8.ofNat (w / 2 ^ (8 * (a - p)) % 2 ^ 8) else k.mem a) = k.mem := by
      funext a
      rw [if_neg (by omega)]
    rw [hsame]
    simp [Kernel.setMem, Kernel.mem]
  | succ n ih =>
    intro i k hin
    have hfirst : storeByte E (p + i) (UInt8.ofNat (w / 2 ^ (8 * i) % 2 ^ 8)) k =
        some (k.setMem (Function.update k.mem (p + i)
          (UInt8.ofNat (w / 2 ^ (8 * i) % 2 ^ 8)))) :=
      if_pos (hin i le_rfl (by omega))
    rw [List.range'_succ, List.foldlM_cons, hfirst, Option.bind_eq_bind, Option.bind_some,
      ih _ _ fun j hlow hhigh => hin j (by omega) (by omega)]
    simp only [Kernel.setMem, Kernel.mem, Function.update_self, Function.update_idem]
    congr 3
    funext a
    by_cases ha : a = p + i
    · subst ha
      rw [if_neg (by omega), if_pos (by omega), Function.update_self, Nat.add_sub_cancel_left]
    · rw [Function.update_of_ne ha]
      by_cases hrest : p + (i + 1) ≤ a ∧ a < p + (i + 1) + n
      · rw [if_pos hrest, if_pos (by omega)]
      · rw [if_neg hrest, if_neg (by omega)]

/-- A word that lies in the page of the program is stored there. -/
theorem storeWord_inPage {p w : ℕ} (hin : ∀ i < wordSize, InPage (p + i)) :
    storeWord E p w k = some (k.setMem (wordStored k.mem p w)) := by
  rw [storeWord, List.range_eq_range', storeBytes_inPage p w wordSize 0 k fun j _ hj =>
    hin j (by omega)]
  rfl

/-- A `vidmap` that is accepted with a pointer inside the page. -/
theorem vidmap_inPage (hno : ¬ vidmapRefuses screenStart)
    (hin : ∀ i < wordSize, InPage (screenStart + i)) :
    vidmap E screenStart k = some ((progVidmemAddr : ℤ), screenShown screenStart k) := by
  rw [vidmap, if_neg hno, storeWord_inPage hin]
  rfl

/-- All four bytes of a pointer that is accepted lie in the page, if its span does. -/
theorem inPage_of_vidmapSpan (hno : ¬ vidmapRefuses screenStart)
    (hbuf : PageHolds screenStart (vidmapSpan screenStart)) :
    ∀ i < wordSize, InPage (screenStart + i) := by
  rw [vidmapSpan, if_neg hno] at hbuf
  exact fun i hi => inPage_of_pageHolds hbuf (Nat.le_add_right _ _) (Nat.add_lt_add_left hi _)

/-- A `vidmap` whose pointer is not cut off by the end of the page fails, or shows the screen. -/
theorem vidmap_cases {r : ℤ} (hbuf : PageHolds screenStart (vidmapSpan screenStart))
    (h : vidmap E screenStart k = some (r, k')) :
    (vidmapRefuses screenStart ∧ r = -1 ∧ k' = k) ∨
      (¬ vidmapRefuses screenStart ∧ (∀ i < wordSize, InPage (screenStart + i)) ∧
        r = progVidmemAddr ∧ k' = screenShown screenStart k) := by
  by_cases hno : vidmapRefuses screenStart
  · rw [vidmap, if_pos hno] at h
    cases h
    exact Or.inl ⟨hno, rfl, rfl⟩
  · have hin := inPage_of_vidmapSpan hno hbuf
    rw [vidmap_inPage hno hin] at h
    cases h
    exact Or.inr ⟨hno, hin, rfl, rfl⟩

end Vidmap

/-! ### `execute` -/

/-- The registers after an `execute`: the directory of the new process is loaded, the displayed
terminal and the deferred request stay. -/
theorem execute_registers {E : Env} {site : Site} {command : CString} {k k' : Kernel}
    (h : execute E site command k = some k') :
    k'.running ≠ 0 ∧ k'.cr3 = k'.running ∧ k'.currentTerminal = k.currentTerminal ∧
      k'.nextExecute = k.nextExecute := by
  obtain ⟨pid, dentry, args, -, h1, -, -, rfl⟩ := execute_spec h
  have hpid : pid ≠ 0 := by omega
  exact ⟨hpid, rfl, rfl, rfl⟩

/-! ### Events -/

/-- The cases of `dispatch`: interrupts, the system calls of the running process with what they
return, and its computations. -/
inductive Effect (E : Env) (k : Kernel) : Event → Kernel → Prop
  | key (t) {k'} (h : startTerminal E t k = some k') : Effect E k (.key t) k'
  | tick {k'} (h : pitHandlerMain E k = some k') : Effect E k .tick k'
  | type (key) {k'} (h : typeKey E key k = some k') : Effect E k (.type key) k'
  | rtcInterrupt : Effect E k .rtcInterrupt
      { k with devices := { k.devices with rtc := rtcHandlerMain k.devices.rtc } }
  | executed (command) {k'} (hr : k.running ≠ 0) (h : execute E .syscall command k = some k') :
      Effect E k (.execute command) k'
  | notExecuted (command) (hr : k.running ≠ 0) (h : execute E .syscall command k = none) :
      Effect E k (.execute command) { k with eax := -1 }
  | halt (status) {k'} (hr : k.running ≠ 0) (h : halt E status k = some k') :
      Effect E k (.halt status) k'
  | openFile (filename) {r k'} (hr : k.running ≠ 0) (h : openFile E filename k = some (r, k')) :
      Effect E k (.openFile filename) { k' with eax := r }
  | closeFile (fd) {r k'} (hr : k.running ≠ 0) (h : closeFile fd k = some (r, k')) :
      Effect E k (.closeFile fd) { k' with eax := r }
  | arm (fd buf) (hr : k.running ≠ 0) : Effect E k (.arm fd buf) (armFile fd buf k)
  | read (fd buf nbytes) {r k'} (hr : k.running ≠ 0)
      (hbuf : PageHolds buf (readSpan E fd buf nbytes k))
      (h : readFile E fd buf nbytes k = some (r, k')) :
      Effect E k (.read fd buf nbytes) { k' with eax := r }
  | write (fd buf nbytes) {r k'} (hr : k.running ≠ 0)
      (hbuf : PageHolds buf (writeSpan fd buf nbytes k))
      (h : writeFile E fd buf nbytes k = some (r, k')) :
      Effect E k (.write fd buf nbytes) { k' with eax := r }
  | getargs (buf nbytes) (hr : k.running ≠ 0) (hbuf : PageHolds buf (getargsSpan nbytes k)) :
      Effect E k (.getargs buf nbytes) (result (getargs buf nbytes k))
  | vidmap (screenStart) {r k'} (hr : k.running ≠ 0)
      (hbuf : PageHolds screenStart (vidmapSpan screenStart))
      (h : vidmap E screenStart k = some (r, k')) :
      Effect E k (.vidmap screenStart) { k' with eax := r }
  | compute (mem) (hr : k.running ≠ 0) : Effect E k (.compute mem) (k.setMem mem)

theorem effect_of_dispatch {E : Env} {k k' : Kernel} {e : Event}
    (h : dispatch E k e = some k') : Effect E k e k' := by
  cases e with
  | key t => exact .key t h
  | tick => exact .tick h
  | type key => exact .type key h
  | rtcInterrupt =>
    cases h
    exact .rtcInterrupt
  | execute command =>
    obtain ⟨hr, h⟩ := Option.ite_none_left_eq_some.1 h
    cases hexec : execute E .syscall command k with
    | none =>
      rw [hexec] at h
      cases h
      exact .notExecuted command hr hexec
    | some k1 =>
      rw [hexec] at h
      obtain ⟨-, rfl⟩ := afterLoad_eq_some.1 h
      exact .executed command hr hexec
  | halt status =>
    obtain ⟨hr, h⟩ := Option.ite_none_left_eq_some.1 h
    exact .halt status hr h
  | openFile filename =>
    obtain ⟨hr, h⟩ := Option.ite_none_left_eq_some.1 h
    obtain ⟨⟨r, k1⟩, hcall, rfl⟩ := Option.map_eq_some_iff.1 h
    exact .openFile filename hr hcall
  | closeFile fd =>
    obtain ⟨hr, h⟩ := Option.ite_none_left_eq_some.1 h
    obtain ⟨⟨r, k1⟩, hcall, rfl⟩ := Option.map_eq_some_iff.1 h
    exact .closeFile fd hr hcall
  | read fd buf nbytes =>
    obtain ⟨hr, h⟩ := Option.ite_none_left_eq_some.1 h
    obtain ⟨hbuf, h⟩ := Option.ite_none_right_eq_some.1 h
    obtain ⟨⟨r, k1⟩, hcall, rfl⟩ := Option.map_eq_some_iff.1 h
    exact .read fd buf nbytes hr hbuf hcall
  | write fd buf nbytes =>
    obtain ⟨hr, h⟩ := Option.ite_none_left_eq_some.1 h
    obtain ⟨hbuf, h⟩ := Option.ite_none_right_eq_some.1 h
    obtain ⟨⟨r, k1⟩, hcall, rfl⟩ := Option.map_eq_some_iff.1 h
    exact .write fd buf nbytes hr hbuf hcall
  | arm fd buf =>
    obtain ⟨hr, h⟩ := Option.ite_none_left_eq_some.1 h
    cases h
    exact .arm fd buf hr
  | getargs buf nbytes =>
    obtain ⟨hr, h⟩ := Option.ite_none_left_eq_some.1 h
    obtain ⟨hbuf, h⟩ := Option.ite_none_right_eq_some.1 h
    cases h
    exact .getargs buf nbytes hr hbuf
  | vidmap screenStart =>
    obtain ⟨hr, h⟩ := Option.ite_none_left_eq_some.1 h
    obtain ⟨hbuf, h⟩ := Option.ite_none_right_eq_some.1 h
    obtain ⟨⟨r, k1⟩, hcall, rfl⟩ := Option.map_eq_some_iff.1 h
    exact .vidmap screenStart hr hbuf hcall
  | compute mem =>
    obtain ⟨hr, h⟩ := Option.ite_none_left_eq_some.1 h
    cases h
    exact .compute mem hr

/-! ### Calls with a buffer -/

section Buffers

variable {E : Env} {k k' : Kernel} {fd nbytes : ℤ} {buf : ℕ}

theorem step_readFile (hr : k.running ≠ 0) (hbuf : PageHolds buf (readSpan E fd buf nbytes k)) :
    step E k (.read fd buf nbytes) =
      (readFile E fd buf nbytes k.advanceClock).map fun r => (result r).setIflag true := by
  have hdispatch : dispatch E k.advanceClock (.read fd buf nbytes) =
      (readFile E fd buf nbytes k.advanceClock).map result := (if_neg hr).trans (if_pos hbuf)
  rw [step, hdispatch, Option.map_map]
  rfl

theorem step_writeFile (hr : k.running ≠ 0) (hbuf : PageHolds buf (writeSpan fd buf nbytes k)) :
    step E k (.write fd buf nbytes) =
      (writeFile E fd buf nbytes k.advanceClock).map fun r => (result r).setIflag true := by
  have hdispatch : dispatch E k.advanceClock (.write fd buf nbytes) =
      (writeFile E fd buf nbytes k.advanceClock).map result := (if_neg hr).trans (if_pos hbuf)
  rw [step, hdispatch, Option.map_map]
  rfl

theorem step_getargs (hr : k.running ≠ 0) (hbuf : PageHolds buf (getargsSpan nbytes k)) :
    step E k (.getargs buf nbytes) =
      some ((result (getargs buf nbytes k.advanceClock)).setIflag true) := by
  have hdispatch : dispatch E k.advanceClock (.getargs buf nbytes) =
      some (result (getargs buf nbytes k.advanceClock)) := (if_neg hr).trans (if_pos hbuf)
  rw [step, hdispatch]
  rfl

theorem step_vidmap (hr : k.running ≠ 0) (hbuf : PageHolds buf (vidmapSpan buf)) :
    step E k (.vidmap buf) =
      (vidmap E buf k.advanceClock).map fun r => (result r).setIflag true := by
  have hdispatch : dispatch E k.advanceClock (.vidmap buf) =
      (vidmap E buf k.advanceClock).map result := (if_neg hr).trans (if_pos hbuf)
  rw [step, hdispatch, Option.map_map]
  rfl

/-- The bytes that a call touches are in the page of the program. -/
theorem pageHolds_of_read (h : step E k (.read fd buf nbytes) = some k') :
    PageHolds buf (readSpan E fd buf nbytes k) := by
  obtain ⟨k1, hk1, -⟩ := Option.map_eq_some_iff.1 h
  cases effect_of_dispatch hk1 with
  | read _ _ _ _ hbuf => exact hbuf

theorem pageHolds_of_write (h : step E k (.write fd buf nbytes) = some k') :
    PageHolds buf (writeSpan fd buf nbytes k) := by
  obtain ⟨k1, hk1, -⟩ := Option.map_eq_some_iff.1 h
  cases effect_of_dispatch hk1 with
  | write _ _ _ _ hbuf => exact hbuf

theorem pageHolds_of_getargs (h : step E k (.getargs buf nbytes) = some k') :
    PageHolds buf (getargsSpan nbytes k) := by
  obtain ⟨k1, hk1, -⟩ := Option.map_eq_some_iff.1 h
  cases effect_of_dispatch hk1 with
  | getargs _ _ _ hbuf => exact hbuf

theorem pageHolds_of_vidmap (h : step E k (.vidmap buf) = some k') :
    PageHolds buf (vidmapSpan buf) := by
  obtain ⟨k1, hk1, -⟩ := Option.map_eq_some_iff.1 h
  cases effect_of_dispatch hk1 with
  | vidmap _ _ hbuf => exact hbuf

end Buffers

end LinuxIsLove
