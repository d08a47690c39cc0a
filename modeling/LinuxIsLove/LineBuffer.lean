import LinuxIsLove.Foundation.Runs
import LinuxIsLove.Source.Terminal

/-!
# The line buffer under interleaving

One terminal, the keys typed on it and one reader at a time.  A `terminal_read` takes four steps:
`arm`, `leave` once the spin loop sees that a line was entered, `drain` and `disarm`; keys may be
handled between any two of them.

`Sound` says that the counters of the line buffer agree and that no store has left it.  A step
breaks it in two cases only (`LineCondition`): Enter on a buffer that already holds 128 bytes, and
a drain that leaves fewer bytes in the buffer than were typed since the last Enter.
-/

namespace LinuxIsLove

open Bytes EventMachine

/-- Where the reader of the terminal is. -/
inductive Reader
  | idle
  | spinning (nbytes : ℤ)
  | released (nbytes : ℤ)
  | drained

structure LineState where
  term : Terminal
  text : ScreenMemory
  reader : Reader

inductive LineEvent
  | key (key : ℕ)
  /-- a read of `nbytes` bytes begins -/
  | arm (nbytes : ℤ)
  | leave
  | drain
  | disarm

/-- Where the screen of a terminal is. -/
structure Display where
  tr : ℤ → ℤ
  currentTerminal : ℤ
  videoMem : ℤ
  text : ScreenMemory

/-- A terminal as the initialization leaves it, with no reader. -/
def lineInit (D : Display) : LineState := ⟨kybdInit D.videoMem, D.text, .idle⟩

def lineStep (D : Display) (s : LineState) : LineEvent → Option LineState
  | .key key =>
    let r := update D.tr D.currentTerminal 4096 key s.term s.text
    some { s with term := r.1, text := r.2 }
  | .arm nbytes =>
    match s.reader with
    | .idle =>
      if 0 ≤ nbytes then some { s with term := armRead s.term, reader := .spinning nbytes }
      else none
    | _ => none
  | .leave =>
    match s.reader with
    | .spinning nbytes =>
      if s.term.hitEnter then some { s with reader := .released nbytes } else none
    | _ => none
  | .drain =>
    match s.reader with
    | .released nbytes =>
      some { s with term := (drain s.term nbytes fun _ => 0).2.2, reader := .drained }
    | _ => none
  | .disarm =>
    match s.reader with
    | .drained => some { s with term := disarmRead s.term, reader := .idle }
    | _ => none

/-- A span of bytes inside the line buffer. -/
def InBuffer (span : ℤ × ℤ) : Prop := span.1 < span.2 → 0 ≤ span.1 ∧ span.2 ≤ lineBufMax

/-- The counters agree, `buf_count` never wrapped, and no store has left the buffer. -/
structure TerminalSound (t : Terminal) : Prop where
  inputLen_nonneg : 0 ≤ t.inputLen
  inputLen_le : t.inputLen ≤ t.bufCount
  bufCount_le : t.bufCount ≤ lineBufMax
  not_wrapped : t.wrapped = false
  stores : ∀ span ∈ t.stores, InBuffer span

/-- The bytes of a released read are counted by a nonnegative number. -/
def ReaderOk : Reader → Prop
  | .spinning nbytes => 0 ≤ nbytes
  | .released nbytes => 0 ≤ nbytes
  | _ => True

def Sound (s : LineState) : Prop := TerminalSound s.term ∧ ReaderOk s.reader

/-- The number of bytes that a drain leaves in the buffer. -/
def leftAfter (t : Terminal) (nbytes : ℤ) : ℤ := max 0 (t.bufCount - min nbytes lineBufMax)

/-- The steps that keep the line buffer sound. -/
def LineCondition (s : LineState) : LineEvent → Prop
  | .key key => key = keyReturn → s.term.bufCount < lineBufMax
  | .drain => ∀ nbytes, s.reader = .released nbytes → s.term.inputLen ≤ leftAfter s.term nbytes
  | _ => True

/-! ### Keys -/

/-- Drawing on the screen leaves the line buffer alone. -/
theorem updateScreen_eq (tr : ℤ → ℤ) (currentTerminal pageSize : ℤ) (key : ℕ) (t : Terminal)
    (mem : ScreenMemory) :
    ∃ screen, (updateScreen tr currentTerminal pageSize key t mem).1 =
      { t with screen := screen } := by
  unfold updateScreen drawDisplayed
  split_ifs
  all_goals exact ⟨_, rfl⟩

theorem updateBuffer_screen (key : ℕ) (t : Terminal) (screen : Screen) :
    updateBuffer key { t with screen := screen } =
      { updateBuffer key t with screen := screen } := by
  obtain ⟨_, _, _, _, _, reading, _, _⟩ := t
  unfold updateBuffer
  cases reading <;> split_ifs <;> rfl

theorem terminalSound_screen {t : Terminal} {screen : Screen} :
    TerminalSound { t with screen := screen } ↔ TerminalSound t :=
  ⟨fun h => ⟨h.1, h.2, h.3, h.4, h.5⟩, fun h => ⟨h.1, h.2, h.3, h.4, h.5⟩⟩

/-- Whether a key keeps the terminal sound is decided by what it does to the line buffer. -/
theorem terminalSound_update (tr : ℤ → ℤ) (currentTerminal pageSize : ℤ) (key : ℕ) (t : Terminal)
    (mem : ScreenMemory) :
    TerminalSound (update tr currentTerminal pageSize key t mem).1 ↔
      TerminalSound (updateBuffer key t) := by
  obtain ⟨screen, hscreen⟩ := updateScreen_eq tr currentTerminal pageSize key t mem
  have hupdate : (update tr currentTerminal pageSize key t mem).1 =
      updateBuffer key (updateScreen tr currentTerminal pageSize key t mem).1 := rfl
  rw [hupdate, hscreen, updateBuffer_screen, terminalSound_screen]

theorem inBuffer_byte {i : ℤ} : InBuffer (i, i + 1) ↔ 0 ≤ i ∧ i + 1 ≤ lineBufMax := by
  simp [InBuffer]

/-- What Enter does to the counters and where it stores. -/
theorem updateBuffer_enter (t : Terminal) :
    (updateBuffer keyReturn t).inputLen = 0 ∧
      (updateBuffer keyReturn t).wrapped = (t.wrapped || decide (t.bufCount + 1 = 2 ^ 16)) ∧
      (((updateBuffer keyReturn t).bufCount = 0 ∧ (updateBuffer keyReturn t).stores =
          (0, 0 + (lineBufMax : ℤ)) :: ((t.bufCount : ℤ), (t.bufCount : ℤ) + 1) :: t.stores) ∨
        ((updateBuffer keyReturn t).bufCount = (t.bufCount + 1) % 2 ^ 16 ∧
          (updateBuffer keyReturn t).stores =
            ((t.bufCount : ℤ), (t.bufCount : ℤ) + 1) :: t.stores)) := by
  obtain ⟨_, _, _, _, _, reading, _, _⟩ := t
  cases reading
  · exact ⟨rfl, rfl, Or.inl ⟨rfl, rfl⟩⟩
  · exact ⟨rfl, rfl, Or.inr ⟨rfl, rfl⟩⟩

/-- Enter needs one more byte in the buffer. -/
theorem enter_sound {t : Terminal} (ht : TerminalSound t) :
    TerminalSound (updateBuffer keyReturn t) ↔ t.bufCount < lineBufMax := by
  have hle := ht.bufCount_le
  have hmax : lineBufMax = 128 := rfl
  obtain ⟨hlen, hwrapped, hrest⟩ := updateBuffer_enter t
  constructor
  · intro h
    have hmem : ((t.bufCount : ℤ), (t.bufCount : ℤ) + 1) ∈ (updateBuffer keyReturn t).stores := by
      rcases hrest with ⟨-, hstores⟩ | ⟨-, hstores⟩ <;> rw [hstores] <;> simp
    have hin := (inBuffer_byte.1 (h.stores _ hmem)).2
    omega
  · intro hlt
    have hnot : (updateBuffer keyReturn t).wrapped = false := by
      rw [hwrapped, ht.not_wrapped, decide_eq_false (by omega)]
      rfl
    have hbyte : InBuffer ((t.bufCount : ℤ), (t.bufCount : ℤ) + 1) :=
      inBuffer_byte.2 ⟨by omega, by omega⟩
    rcases hrest with ⟨hcount, hstores⟩ | ⟨hcount, hstores⟩
    · refine ⟨by rw [hlen], by rw [hlen, hcount]; rfl, by rw [hcount]; omega, hnot, ?_⟩
      rw [hstores]
      simp only [List.forall_mem_cons]
      exact ⟨fun _ => ⟨le_rfl, by simp⟩, hbyte, ht.stores⟩
    · refine ⟨by rw [hlen], by rw [hlen]; omega, by rw [hcount]; omega, hnot, ?_⟩
      rw [hstores]
      simp only [List.forall_mem_cons]
      exact ⟨hbyte, ht.stores⟩

/-- Every key but Enter keeps the terminal sound. -/
theorem key_sound {t : Terminal} (ht : TerminalSound t) {key : ℕ} (hkey : key ≠ keyReturn) :
    TerminalSound (updateBuffer key t) := by
  have h0 := ht.inputLen_nonneg
  have hlen := ht.inputLen_le
  have hle := ht.bufCount_le
  have hmax : lineBufMax = 128 := rfl
  rw [updateBuffer, if_neg hkey]
  split_ifs with hback hinput hroom
  · -- Backspace after at least one typed byte
    have hcount : (t.bufCount + (2 ^ 16 - 1)) % 2 ^ 16 = t.bufCount - 1 := by omega
    have hbyte : InBuffer (((t.bufCount - 1 : ℕ) : ℤ), ((t.bufCount - 1 : ℕ) : ℤ) + 1) :=
      inBuffer_byte.2 ⟨by omega, by omega⟩
    have hdecr : t.decrBufCount.bufCount = t.bufCount - 1 := hcount
    have hstores : t.decrBufCount.stores = t.stores := by simp only [Terminal.decrBufCount]
    simp only [Terminal.storeByte, hdecr, hstores]
    refine ⟨?_, ?_, ?_, ?_, List.forall_mem_cons.2 ⟨hbyte, ht.stores⟩⟩
    · show 0 ≤ t.inputLen - 1
      omega
    · show t.inputLen - 1 ≤ ((t.bufCount - 1 : ℕ) : ℤ)
      omega
    · show t.bufCount - 1 ≤ lineBufMax
      omega
    · show (t.wrapped || decide (t.bufCount = 0)) = false
      rw [ht.not_wrapped, decide_eq_false (by omega)]
      rfl
  · exact ht
  · -- a printable key
    have hbyte : InBuffer ((t.bufCount : ℤ), (t.bufCount : ℤ) + 1) :=
      inBuffer_byte.2 ⟨by omega, by omega⟩
    have hstores := List.forall_mem_cons.2 ⟨hbyte, ht.stores⟩
    refine ⟨?_, ?_, ?_, ?_, by simpa only [Terminal.storeByte, Terminal.incrBufCount] using hstores⟩
    · show 0 ≤ t.inputLen + 1
      omega
    · show t.inputLen + 1 ≤ (((t.bufCount + 1) % 2 ^ 16 : ℕ) : ℤ)
      omega
    · show (t.bufCount + 1) % 2 ^ 16 ≤ lineBufMax
      omega
    · show (t.wrapped || decide (t.bufCount + 1 = 2 ^ 16)) = false
      rw [ht.not_wrapped, decide_eq_false (by omega)]
      rfl
  · exact ht

/-! ### The drain section -/

/-- The number of bytes that a drain takes off a buffer that has them. -/
def drainSize (nbytes : ℤ) : ℕ := (min nbytes lineBufMax).toNat

/-- A drain of a sound length, with its conversions and clamps worked out. -/
theorem drain_eq {t : Terminal} {nbytes : ℤ} (hlt : t.bufCount < 2 ^ 16) (h0 : 0 ≤ nbytes)
    (buf : Memory) :
    drain t nbytes buf =
      (((min (drainSize nbytes) t.bufCount : ℕ) : ℤ),
        copy buf (fun j => t.lineBuf j) (drainSize nbytes),
        { (t.moveBytes (drainSize nbytes) (t.bufCount - drainSize nbytes)).clearBytes
            ((t.bufCount - drainSize nbytes : ℕ) : ℤ) (drainSize nbytes) with
          bufCount := t.bufCount - drainSize nbytes }) := by
  have hmax : lineBufMax = 128 := rfl
  have hsize : (if nbytes > lineBufMax then (lineBufMax : ℤ) else nbytes) = drainSize nbytes := by
    rw [drainSize]
    split_ifs <;> omega
  have hsize_le : drainSize nbytes ≤ 128 := by
    rw [drainSize]
    omega
  have hwrap : s32 (u32 (t.bufCount - drainSize nbytes)) = t.bufCount - drainSize nbytes :=
    s32_u32 (by omega) (by omega)
  have hdiff : (if (t.bufCount : ℤ) - drainSize nbytes < 0 then (0 : ℤ)
      else t.bufCount - drainSize nbytes) = ((t.bufCount - drainSize nbytes : ℕ) : ℤ) := by
    split_ifs <;> omega
  have hread : (if (drainSize nbytes : ℤ) > t.bufCount then (t.bufCount : ℤ)
      else drainSize nbytes) = ((min (drainSize nbytes) t.bufCount : ℕ) : ℤ) := by
    split_ifs <;> omega
  have hu : u32 (drainSize nbytes : ℤ) = drainSize nbytes := by
    rw [u32_of_nonneg (by omega) (by omega), Int.toNat_natCast]
  have hu' : u32 ((t.bufCount - drainSize nbytes : ℕ) : ℤ) = t.bufCount - drainSize nbytes := by
    rw [u32_of_nonneg (by omega) (by omega), Int.toNat_natCast]
  have hcount : (((t.bufCount - drainSize nbytes : ℕ) : ℤ) % 2 ^ 16).toNat =
      t.bufCount - drainSize nbytes := by
    omega
  simp only [drain, hsize, hwrap, hdiff, hread, hu, hu', hcount]

/-- The counters and the stores of a drain. -/
theorem drain_counts {t : Terminal} (hle : t.bufCount ≤ lineBufMax) {nbytes : ℤ} (h0 : 0 ≤ nbytes)
    (buf : Memory) :
    ((drain t nbytes buf).2.2.bufCount : ℤ) = leftAfter t nbytes ∧
      (drain t nbytes buf).2.2.stores =
        (leftAfter t nbytes, leftAfter t nbytes + min nbytes lineBufMax) ::
          (0, leftAfter t nbytes) :: t.stores := by
  have hmax : lineBufMax = 128 := rfl
  have hleft : ((t.bufCount - drainSize nbytes : ℕ) : ℤ) = leftAfter t nbytes := by
    rw [leftAfter, drainSize]
    omega
  have hsize : (drainSize nbytes : ℤ) = min nbytes lineBufMax := by
    rw [drainSize]
    omega
  rw [drain_eq (by omega) h0 buf]
  refine ⟨hleft, ?_⟩
  simp only [Terminal.moveBytes, Terminal.clearBytes, hleft, hsize]

/-- A drain keeps the terminal sound exactly if it leaves the bytes typed since the last Enter. -/
theorem drain_sound {t : Terminal} (ht : TerminalSound t) {nbytes : ℤ} (h0 : 0 ≤ nbytes)
    (buf : Memory) :
    TerminalSound (drain t nbytes buf).2.2 ↔ t.inputLen ≤ leftAfter t nbytes := by
  have hle := ht.bufCount_le
  have hmax : lineBufMax = 128 := rfl
  obtain ⟨hcount, hstores⟩ := drain_counts hle h0 buf
  constructor
  · intro h
    have hlen := h.inputLen_le
    rw [hcount] at hlen
    exact hlen
  · intro hlen
    have hleft : leftAfter t nbytes = max 0 (t.bufCount - min nbytes (lineBufMax : ℤ)) := rfl
    refine ⟨ht.inputLen_nonneg, by rw [hcount]; exact hlen, ?_, ht.not_wrapped, ?_⟩
    · omega
    · rw [hstores]
      intro span hspan
      rcases List.mem_cons.1 hspan with rfl | hspan
      · intro _
        simp only
        omega
      rcases List.mem_cons.1 hspan with rfl | hspan
      · intro _
        simp only
        omega
      · exact ht.stores span hspan

/-! ### Steps and runs -/

theorem terminalSound_armRead {t : Terminal} : TerminalSound (armRead t) ↔ TerminalSound t :=
  ⟨fun h => ⟨h.1, h.2, h.3, h.4, h.5⟩, fun h => ⟨h.1, h.2, h.3, h.4, h.5⟩⟩

theorem terminalSound_disarmRead {t : Terminal} : TerminalSound (disarmRead t) ↔ TerminalSound t :=
  ⟨fun h => ⟨h.1, h.2, h.3, h.4, h.5⟩, fun h => ⟨h.1, h.2, h.3, h.4, h.5⟩⟩

/-- The cases of `lineStep`. -/
inductive LineEffect (D : Display) (s : LineState) : LineEvent → LineState → Prop
  | key (key) : LineEffect D s (.key key)
      { s with
        term := (update D.tr D.currentTerminal 4096 key s.term s.text).1
        text := (update D.tr D.currentTerminal 4096 key s.term s.text).2 }
  | arm (nbytes) (h0 : 0 ≤ nbytes) : LineEffect D s (.arm nbytes)
      { s with term := armRead s.term, reader := .spinning nbytes }
  | leave (nbytes) (hreader : s.reader = .spinning nbytes) : LineEffect D s .leave
      { s with reader := .released nbytes }
  | drain (nbytes) (hreader : s.reader = .released nbytes) : LineEffect D s .drain
      { s with term := (drain s.term nbytes fun _ => 0).2.2, reader := .drained }
  | disarm : LineEffect D s .disarm { s with term := disarmRead s.term, reader := .idle }

theorem lineEffect_of_lineStep {D : Display} {s s' : LineState} {e : LineEvent}
    (h : lineStep D s e = some s') : LineEffect D s e s' := by
  cases e with
  | key key =>
    cases h
    exact .key key
  | arm nbytes =>
    simp only [lineStep] at h
    split at h
    next =>
      split_ifs at h with h0
      cases h
      exact .arm nbytes h0
    next => exact absurd h (by simp)
  | leave =>
    simp only [lineStep] at h
    split at h
    next nbytes hreader =>
      split_ifs at h
      cases h
      exact .leave nbytes hreader
    next => exact absurd h (by simp)
  | drain =>
    simp only [lineStep] at h
    split at h
    next nbytes hreader =>
      cases h
      exact .drain nbytes hreader
    next => exact absurd h (by simp)
  | disarm =>
    simp only [lineStep] at h
    split at h
    next =>
      cases h
      exact .disarm
    next => exact absurd h (by simp)

/-- A step keeps the line buffer sound exactly if it meets the condition. -/
theorem lineStep_sound {D : Display} {s s' : LineState} {e : LineEvent} (hs : Sound s)
    (h : lineStep D s e = some s') : Sound s' ↔ LineCondition s e := by
  obtain ⟨ht, hr⟩ := hs
  cases lineEffect_of_lineStep h with
  | key key =>
    simp only [Sound, terminalSound_update, hr, and_true, LineCondition]
    by_cases hkey : key = keyReturn
    · subst hkey
      simp only [enter_sound ht, forall_const]
    · -- any other key is stored only while there is room
      simp only [hkey, false_imp_iff, iff_true]
      exact key_sound ht hkey
  | arm nbytes h0 => exact ⟨fun _ => trivial, fun _ => ⟨terminalSound_armRead.2 ht, h0⟩⟩
  | leave nbytes hreader =>
    rw [hreader] at hr
    exact ⟨fun _ => trivial, fun _ => ⟨ht, hr⟩⟩
  | drain nbytes hreader =>
    rw [hreader] at hr
    simp only [Sound, drain_sound ht hr, ReaderOk, and_true, LineCondition, hreader,
      Reader.released.injEq, forall_eq']
  | disarm => exact ⟨fun _ => trivial, fun _ => ⟨terminalSound_disarmRead.2 ht, trivial⟩⟩

/-- The reader only ever waits for a nonnegative number of bytes. -/
theorem readerOk_step {D : Display} {s s' : LineState} {e : LineEvent} (hr : ReaderOk s.reader)
    (h : lineStep D s e = some s') : ReaderOk s'.reader := by
  cases lineEffect_of_lineStep h with
  | key key => exact hr
  | arm nbytes h0 => exact h0
  | leave nbytes hreader => rwa [hreader] at hr
  | drain nbytes hreader => trivial
  | disarm => trivial

theorem sound_lineInit (D : Display) : Sound (lineInit D) :=
  ⟨⟨le_rfl, le_rfl, Nat.zero_le _, rfl, fun _ h => absurd h (by simp [lineInit, kybdInit])⟩,
    trivial⟩

/-- **The line buffer stays sound exactly along the runs that meet the condition.**  In every
interleaving of keys with the steps of reads, the counters agree, `buf_count` never wraps and no
store leaves the buffer, if and only if Enter is never handled on a buffer of 128 bytes and no
drain leaves fewer bytes than were typed since the last Enter. -/
theorem lineBuffer_sound_iff (D : Display) (es : List LineEvent) :
    (∀ fs s, fs <+: es → run (lineStep D) (lineInit D) fs = some s → TerminalSound s.term) ↔
      Guarded (lineStep D) LineCondition (lineInit D) es := by
  apply guarded_iff_forall_prefix (I := Sound) (fun s hs => hs.1)
  · intro s e s' hs hgood h
    exact (lineStep_sound hs h).2 hgood
  · intro s e s' hs h ht
    exact (lineStep_sound hs h).1 ⟨ht, readerOk_step hs.2 h⟩
  · exact sound_lineInit D

/-- A reader is released by a line, one more byte is typed before the drain, and Backspace is
typed after the read. -/
def lostByte : List LineEvent :=
  [.arm 128, .key 97, .key keyReturn, .leave, .key 98, .drain, .disarm, .key keyBackspace]

/-- `buf_count` wraps, and Backspace stores far outside the line buffer. -/
theorem lostByte_overruns :
    ∃ s, run (lineStep ⟨id, 0, 0, fun _ => 0⟩) (lineInit ⟨id, 0, 0, fun _ => 0⟩) lostByte = some s ∧
      s.term.bufCount = 65535 ∧ s.term.wrapped = true ∧ (65535, 65536) ∈ s.term.stores ∧
      ¬ TerminalSound s.term := by
  have hrun : ((run (lineStep ⟨id, 0, 0, fun _ => 0⟩) (lineInit ⟨id, 0, 0, fun _ => 0⟩)
      lostByte).map fun s => (s.term.bufCount, s.term.wrapped, s.term.stores)) =
        some (65535, true, [(65535, 65536), (0, 128), (0, 0), (2, 3), (1, 2), (0, 1)]) := by
    decide +kernel
  obtain ⟨s, hs, heq⟩ := Option.map_eq_some_iff.1 hrun
  simp only [Prod.mk.injEq] at heq
  obtain ⟨hcount, hwrapped, hstores⟩ := heq
  refine ⟨s, hs, hcount, hwrapped, by rw [hstores]; simp, fun h => ?_⟩
  rw [h.not_wrapped] at hwrapped
  exact absurd hwrapped (by decide)

end LinuxIsLove
