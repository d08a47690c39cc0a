import LinuxIsLove.Exceptions
import LinuxIsLove.Source.Keyboard

/-!
# Scancodes and the arrays they index

The handler of the keyboard reads the table `kybd_keys` before it looks at the scancode, and the
table ends at the code 0x52, short of the codes that the keys of a keyboard have.  A key for the
displayed terminal indexes `terminals` with `current_terminal`, which is -1 until the first terminal
is started, while `entry` enables interrupts before.
-/

namespace LinuxIsLove

open EventMachine

/-- The codes of the keys that go to the displayed terminal, or draw it again. -/
def TypingCode (scancode : ℕ) : Prop :=
  scancode ≤ maxScancode ∧ Typable (kybdKeys.getD scancode keyUnknown)

instance : DecidablePred TypingCode := fun _ => inferInstanceAs (Decidable (_ ∧ _))

/-- The code of the key is one of the table, and a key for the displayed terminal comes when there
is one. -/
def KeyedInput.Addressed (s : Keyed) : KeyedInput → Prop
  | .keyboard status scancode => status &&& 1 ≠ 0 →
      scancode.toNat % 128 < kybdKeys.length ∧
        (TypingCode scancode.toNat → 0 ≤ s.machine.kernel.currentTerminal)
  | .rest _ => True

/-! ### The table -/

theorem kybdKeys_length : kybdKeys.length = 83 := rfl

section Keys

variable {beyond : ℕ → ℕ} {m : Modifiers} {scancode keyOut : ℕ} {k : Kernel}

theorem kybdKey_of_lt (beyond : ℕ → ℕ) (h : scancode < kybdKeys.length) :
    kybdKey beyond scancode = kybdKeys.getD scancode keyUnknown := by
  rw [kybdKey, List.getD_eq_getElem _ _ h, List.getD_eq_getElem _ _ h]

/-- `L` has one code. -/
theorem typingCode_redraw (h : scancode < kybdKeys.length)
    (hkey : kybdKeys.getD scancode keyUnknown = 108) : TypingCode scancode := by
  have hall : ∀ i < 83, kybdKeys.getD i keyUnknown = 108 → TypingCode i := by decide
  rw [kybdKeys_length] at h
  exact hall scancode h hkey

/-- Shift changes characters to characters. -/
theorem typable_shiftedKey (keyOut : ℕ) : Typable (shiftedKey keyOut) ↔ Typable keyOut := by
  unfold shiftedKey
  split
  all_goals first | exact Iff.rfl | decide

theorem typable_modifiedKey (m : Modifiers) (keyOut : ℕ) :
    Typable (modifiedKey m keyOut) ↔ Typable keyOut := by
  unfold modifiedKey
  split_ifs with hcaps hshift
  · obtain ⟨-, -, hlo, hhi⟩ := hcaps
    have hupper : Typable (keyOut - (97 - 65)) := .inl ⟨by omega, by omega⟩
    have hlower : Typable keyOut := .inl ⟨by omega, by omega⟩
    exact iff_of_true hupper hlower
  · exact typable_shiftedKey keyOut
  · exact Iff.rfl

/-- A key for the terminal is no modifier. -/
theorem press_of_typable (h : Typable keyOut) : m.press keyOut = none := by
  have hne : ∀ n, 0x1000 ≤ n → keyOut ≠ n := by
    intro n hn
    simp only [Typable, keyBackspace, keyReturn] at h
    omega
  rw [Modifiers.press, if_neg (hne keyCapslock (by decide)), if_neg (hne keyRshift (by decide)),
    if_neg (hne keyLshift (by decide)), if_neg (hne keyLctrl (by decide)),
    if_neg (hne keyRctrl (by decide)), if_neg (hne keyLalt (by decide)),
    if_neg (hne keyRalt (by decide))]

/-- What a key other than a modifier asks for. -/
theorem keyRequest_cases (h : scancode < kybdKeys.length) :
    (TypingCode scancode ∧
      (keyRequest m scancode (kybdKeys.getD scancode keyUnknown) = some .redraw ∨
        ∃ key, keyRequest m scancode (kybdKeys.getD scancode keyUnknown) =
          some (.event (.type key)))) ∨
    (¬ TypingCode scancode ∧
      (keyRequest m scancode (kybdKeys.getD scancode keyUnknown) = none ∨
        ∃ t < maxTerminals, keyRequest m scancode (kybdKeys.getD scancode keyUnknown) =
          some (.event (.key t)))) := by
  have hfunction : ∀ n, kybdKeys.getD scancode keyUnknown = keyF n → ¬ TypingCode scancode := by
    intro n hn htyping
    have hkey := htyping.2
    rw [hn] at hkey
    simp only [Typable, keyBackspace, keyReturn, keyF] at hkey
    omega
  unfold keyRequest
  dsimp only
  split_ifs with hl h1 h2 h3 hmax hprint
  · exact .inl ⟨typingCode_redraw h hl.2.2, .inl rfl⟩
  · exact .inr ⟨hfunction 1 h1.2.2.2, .inr ⟨0, by decide, rfl⟩⟩
  · exact .inr ⟨hfunction 2 h2.2.2.2, .inr ⟨1, by decide, rfl⟩⟩
  · exact .inr ⟨hfunction 3 h3.2.2.2, .inr ⟨2, by decide, rfl⟩⟩
  · exact .inr ⟨fun htyping => absurd htyping.1 (not_le.2 hmax), .inl rfl⟩
  · exact .inl ⟨⟨not_lt.1 hmax, (typable_modifiedKey m _).1 hprint⟩, .inr ⟨_, rfl⟩⟩
  · exact .inr ⟨fun htyping => hprint ((typable_modifiedKey m _).2 htyping.2), .inl rfl⟩

/-! ### The accesses -/

/-- A request for the displayed terminal gets to its element only. -/
theorem displayed_inRange_iff (hk : k.currentTerminal < maxTerminals) {i : Input}
    (hi : i = .redraw ∨ ∃ key, i = .event (.type key)) :
    (∀ a ∈ terminalAccesses k i, a.InRange) ↔ 0 ≤ k.currentTerminal := by
  have hmem : ∀ a, a ∈ terminalAccesses k i → a = .terminals k.currentTerminal := by
    intro a ha
    obtain rfl | ⟨key, rfl⟩ := hi
    · simp only [terminalAccesses, List.mem_append, List.mem_cons, List.not_mem_nil, or_false,
        or_self, List.mem_flatten, List.mem_replicate] at ha
      obtain (ha | ⟨loop, ⟨-, rfl⟩, ha⟩) | ha := ha
      · exact ha
      · simpa using ha
      · exact ha
    · exact List.mem_singleton.1 ha
  have hself : .terminals k.currentTerminal ∈ terminalAccesses k i := by
    obtain rfl | ⟨key, rfl⟩ := hi
    · exact List.mem_append_left _ (List.mem_append_left _ List.mem_cons_self)
    · exact List.mem_singleton_self _
  constructor
  · intro h
    exact (h _ hself).1
  · intro h0 a ha
    rw [hmem a ha]
    exact ⟨h0, hk⟩

end Keys

/-! ### The handler -/

section Handler

variable {E : Env} {beyond : ℕ → ℕ} {s s' : Keyed} {i : KeyedInput} {status scancode : UInt8}

/-- What the kernel is asked for when the key with a code is pressed. -/
def Keyed.asks (s : Keyed) (beyond : ℕ → ℕ) (scancode : ℕ) : Option Input :=
  match s.modifiers.press (kybdKey beyond scancode) with
  | some _ => none
  | none => keyRequest s.modifiers scancode (kybdKey beyond scancode)

theorem asks_cases (s : Keyed) (beyond : ℕ → ℕ) {scancode : ℕ} (h : scancode < kybdKeys.length) :
    (TypingCode scancode ∧ (s.asks beyond scancode = some .redraw ∨
        ∃ key, s.asks beyond scancode = some (.event (.type key)))) ∨
      (¬ TypingCode scancode ∧ (s.asks beyond scancode = none ∨
        ∃ t < maxTerminals, s.asks beyond scancode = some (.event (.key t)))) := by
  rw [Keyed.asks, kybdKey_of_lt beyond h]
  cases hpress : s.modifiers.press (kybdKeys.getD scancode keyUnknown) with
  | none => exact keyRequest_cases h
  | some modifiers =>
    refine .inr ⟨fun htyping => ?_, .inl rfl⟩
    rw [press_of_typable htyping.2] at hpress
    cases hpress

/-- The high bit of a byte. -/
theorem maskKeyPress_iff (b : UInt8) : b &&& maskKeyPress ≠ 0 ↔ 128 ≤ b.toNat := by
  have hlt := b.toNat_lt
  have hand : (b &&& maskKeyPress).toNat = b.toNat &&& 2 ^ 7 := UInt8.toNat_and b maskKeyPress
  rw [Nat.and_two_pow, Nat.testBit_eq_decide_div_mod_eq] at hand
  rw [Ne, ← UInt8.toNat_inj, hand]
  by_cases h : 128 ≤ b.toNat
  · rw [show b.toNat / 2 ^ 7 % 2 = 1 by omega]
    simp [h]
  · rw [show b.toNat / 2 ^ 7 % 2 = 0 by omega]
    simp [h]

theorem accesses_release (hstatus : status &&& 1 ≠ 0) (h : 128 ≤ scancode.toNat) :
    (keyboardHandlerMain E beyond status scancode s).1 = [.kybdKeys (scancode.toNat % 128)] := by
  have hcode : (scancode - maskKeyPress).toNat = scancode.toNat % 128 := by
    have hlt := scancode.toNat_lt
    rw [UInt8.toNat_sub_of_le _ _ (by rw [UInt8.le_iff_toNat_le]; exact h)]
    show scancode.toNat - 128 = scancode.toNat % 128
    omega
  rw [keyboardHandlerMain, if_neg hstatus, if_pos ((maskKeyPress_iff scancode).2 h), hcode]

theorem accesses_press (hstatus : status &&& 1 ≠ 0) (h : scancode.toNat < 128) :
    (keyboardHandlerMain E beyond status scancode s).1 = .kybdKeys scancode.toNat ::
      ((s.asks beyond scancode.toNat).map (terminalAccesses s.machine.kernel)).getD [] := by
  have hmask : ¬ scancode &&& maskKeyPress ≠ 0 := by
    rw [maskKeyPress_iff]
    omega
  rw [keyboardHandlerMain, if_neg hstatus, if_neg hmask, Keyed.asks]
  dsimp only
  cases s.modifiers.press (kybdKey beyond scancode.toNat) with
  | some modifiers => rfl
  | none =>
    cases keyRequest s.modifiers scancode.toNat (kybdKey beyond scancode.toNat) with
    | none => rfl
    | some i => rfl

/-- A pressed key of the table. -/
theorem press_inRange_iff (hk : s.machine.kernel.currentTerminal < maxTerminals) {scancode : ℕ}
    (h : scancode < kybdKeys.length) :
    (∀ a ∈ ((s.asks beyond scancode).map (terminalAccesses s.machine.kernel)).getD [],
        a.InRange) ↔
      (TypingCode scancode → 0 ≤ s.machine.kernel.currentTerminal) := by
  obtain ⟨htyping, hasks⟩ | ⟨htyping, hnone | ⟨t, ht, hkey⟩⟩ := asks_cases s beyond h
  · have hdisplayed : ∃ i, s.asks beyond scancode = some i ∧
        (i = .redraw ∨ ∃ key, i = .event (.type key)) := by
      obtain hredraw | ⟨key, hkey⟩ := hasks
      · exact ⟨_, hredraw, .inl rfl⟩
      · exact ⟨_, hkey, .inr ⟨key, rfl⟩⟩
    obtain ⟨i, hi, hcases⟩ := hdisplayed
    rw [hi, Option.map_some, Option.getD_some, displayed_inRange_iff hk hcases]
    exact ⟨fun h0 _ => h0, fun h0 => h0 htyping⟩
  · rw [hnone]
    exact iff_of_true (fun a ha => absurd ha List.not_mem_nil) fun h => absurd h htyping
  · rw [hkey, Option.map_some, Option.getD_some, terminalAccesses]
    refine iff_of_true (fun a ha => ?_) fun h => absurd h htyping
    split_ifs at ha
    · rw [List.mem_singleton.1 ha]
      exact ⟨Int.natCast_nonneg t, by exact_mod_cast ht⟩
    · exact absurd ha List.not_mem_nil

/-- **One input**: the accesses of the handler are in range exactly if the input is addressed. -/
theorem accesses_inRange_iff (hk : s.machine.kernel.currentTerminal < maxTerminals)
    (i : KeyedInput) :
    (∀ a ∈ keyedAccesses E beyond s i, a.InRange) ↔ i.Addressed s := by
  cases i with
  | rest i => exact iff_of_true (fun a ha => absurd ha List.not_mem_nil) trivial
  | keyboard status scancode =>
    rw [keyedAccesses, KeyedInput.Addressed]
    by_cases hstatus : status &&& 1 = 0
    · rw [keyboardHandlerMain, if_pos hstatus]
      exact iff_of_true (fun a ha => absurd ha List.not_mem_nil) fun h => absurd hstatus h
    rw [imp_iff_right hstatus]
    obtain hpress | hrelease := lt_or_ge scancode.toNat 128
    · rw [accesses_press hstatus hpress, List.forall_mem_cons, Nat.mod_eq_of_lt hpress]
      exact and_congr_right fun hlt => press_inRange_iff hk hlt
    · -- the code of a released key is none for the terminal
      have hnot : ¬ TypingCode scancode.toNat := by
        intro htyping
        have hle := htyping.1
        simp only [maxScancode] at hle
        omega
      rw [accesses_release hstatus hrelease, List.forall_mem_singleton]
      exact ⟨fun h => ⟨h, fun htyping => absurd htyping hnot⟩, fun h => h.1⟩

/-! ### Runs -/

/-- The handler does to the machine what its request does. -/
theorem keyedStep_machine (h : keyedStep E beyond s i = some s') :
    s'.machine = s.machine ∨ ∃ j, machineStep E s.machine j = some s'.machine := by
  cases i with
  | rest i =>
    obtain ⟨m, hm, rfl⟩ := Option.map_eq_some_iff.1 h
    exact .inr ⟨i, hm⟩
  | keyboard status scancode =>
    simp only [keyedStep, keyboardHandlerMain] at h
    split_ifs at h
    · cases h
      exact .inl rfl
    · cases h
      exact .inl rfl
    · split at h
      · cases h
        exact .inl rfl
      · split at h
        · obtain ⟨m, hm, rfl⟩ := Option.map_eq_some_iff.1 h
          exact .inr ⟨_, hm⟩
        · cases h
          exact .inl rfl

theorem machineReachable_keyedStep (hs : MachineReachable E s.machine)
    (h : keyedStep E beyond s i = some s') : MachineReachable E s'.machine := by
  obtain hsame | ⟨j, hj⟩ := keyedStep_machine h
  · rw [hsame]
    exact hs
  · obtain ⟨console, is, hrun⟩ := hs
    exact ⟨console, is ++ [j], by rw [run_concat j hrun, hj]⟩

/-- **What the keyboard indexes**: in every run from the moment at which `entry` enables interrupts,
the handler stays inside its two arrays exactly if the low seven bits of every byte are a code of
the table and no key for the displayed terminal comes while there is none. -/
theorem indexes_inRange_iff (E : Env) (beyond : ℕ → ℕ) (console : Screen) (es : List KeyedInput) :
    (∀ a ∈ outputs (keyedStep E beyond) (keyedAccesses E beyond) (bootKeyed E console) es,
        a.InRange) ↔
      Along (keyedStep E beyond) (fun s i => i.Addressed s) (bootKeyed E console) es := by
  have hboot : MachineReachable E (bootKeyed E console).machine := ⟨console, [], rfl⟩
  rw [forall_outputs_iff_along]
  refine along_congr (I := fun s => MachineReachable E s.machine) (fun s i hs => ?_)
    (fun s i s' hs _ h => machineReachable_keyedStep hs h) hboot
  exact accesses_inRange_iff (wf_paged_machine hs).1.current_lt i

/-- The Delete key, whose code is 0x53, and a letter before the first terminal is started. -/
theorem scancodes_beyond :
    (∃ a ∈ outputs (keyedStep small fun _ => 0) (keyedAccesses small fun _ => 0)
        (bootKeyed small ⟨0, 0, video⟩) [.keyboard 1 0x53], ¬ a.InRange) ∧
      ∃ a ∈ outputs (keyedStep small fun _ => 0) (keyedAccesses small fun _ => 0)
        (bootKeyed small ⟨0, 0, video⟩) [.keyboard 1 0x1E], ¬ a.InRange := by
  refine ⟨⟨.kybdKeys 0x53, ?_, by decide⟩, ⟨.terminals (-1), ?_, by decide⟩⟩
  · exact List.mem_append_left _ List.mem_cons_self
  · exact List.mem_append_left _ (List.mem_cons_of_mem _ List.mem_cons_self)

end Handler

end LinuxIsLove
