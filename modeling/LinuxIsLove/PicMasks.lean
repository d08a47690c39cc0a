import LinuxIsLove.Source.Rtc

/-!
# The lines of the interrupt controllers

A line of the second controller reaches the processor through the line 2 of the first one, and
`enable_irq` and `disable_irq` change both masks for it.  After any calls from the initialization
on, the masks say for each line whether its last call was an `enable_irq`, and the bit of the line 2
says it for the last call on any line of the second controller (`MaskedBy`).  So a line of the
second controller is lost with each `disable_irq` of another one (`unmasked_iff`).
-/

namespace LinuxIsLove

/-- The interrupt `irqNum` is let through, by both controllers if it is one of the second. -/
def Unmasked (p : Pic) (irqNum : ℕ) : Prop :=
  if irqNum < irqPerPic then p.masterMask.getLsbD irqNum = false
  else p.masterMask.getLsbD slaveIrq = false ∧ p.slaveMask.getLsbD (irqNum - irqPerPic) = false

/-- The lines other than the one that connects the controllers. -/
structure IrqLine where
  num : ℕ
  lt : num < 2 * irqPerPic
  ne : num ≠ slaveIrq

/-- The line is one of the second controller. -/
def IrqLine.Slave (n : IrqLine) : Prop := irqPerPic ≤ n.num

instance (n : IrqLine) : Decidable n.Slave := by
  unfold IrqLine.Slave
  infer_instance

inductive PicCall
  | enableIrq (n : IrqLine)
  | disableIrq (n : IrqLine)

namespace PicCall

def line : PicCall → IrqLine
  | .enableIrq n => n
  | .disableIrq n => n

def enables : PicCall → Bool
  | .enableIrq _ => true
  | .disableIrq _ => false

def apply (p : Pic) : PicCall → Pic
  | .enableIrq n => LinuxIsLove.enableIrq p n.num
  | .disableIrq n => LinuxIsLove.disableIrq p n.num

end PicCall

/-- The masks after some calls from the initialization on. -/
def picAfter (calls : List PicCall) : Pic := calls.foldl PicCall.apply i8259Init

/-- The last call on one of some lines enables it. -/
def LastEnables (on : IrqLine → Prop) [DecidablePred on] (calls : List PicCall) : Prop :=
  ∃ c, (calls.filter fun c => on c.line).getLast? = some c ∧ c.enables = true

instance (n : IrqLine) : DecidablePred fun m : IrqLine => m.num = n.num := fun m =>
  inferInstanceAs (Decidable (m.num = n.num))

/-- The last call on the line enables it. -/
def Enabled (n : IrqLine) (calls : List PicCall) : Prop :=
  LastEnables (fun m => m.num = n.num) calls

/-- The last call on a line of the second controller enables it. -/
def SlaveEnabled (calls : List PicCall) : Prop := LastEnables IrqLine.Slave calls

section Bits

variable {i : ℕ}

theorem getLsbD_clearBit (m : BitVec 8) (n : ℕ) (hi : i < 8) :
    (m &&& ~~~(1#8 <<< n)).getLsbD i = if i = n then false else m.getLsbD i := by
  rw [BitVec.getLsbD_and, BitVec.getLsbD_not, BitVec.getLsbD_shiftLeft, BitVec.getLsbD_one]
  by_cases h : i = n
  · subst h
    simp [hi]
  · by_cases hlt : i < n
    · simp [hi, hlt, h]
    · simp [hi, hlt, h, show i - n ≠ 0 by omega]

theorem getLsbD_setBit (m : BitVec 8) (n : ℕ) (hi : i < 8) :
    (m ||| (1#8 <<< n)).getLsbD i = if i = n then true else m.getLsbD i := by
  rw [BitVec.getLsbD_or, BitVec.getLsbD_shiftLeft, BitVec.getLsbD_one]
  by_cases h : i = n
  · subst h
    simp [hi]
  · by_cases hlt : i < n
    · simp [hlt, h]
    · simp [h, show i - n ≠ 0 by omega]

end Bits

section Calls

variable {calls : List PicCall} {c : PicCall} {n : IrqLine} {p : Pic}

theorem picAfter_concat (calls : List PicCall) (c : PicCall) :
    picAfter (calls ++ [c]) = c.apply (picAfter calls) := by
  simp [picAfter]

theorem lastEnables_nil (on : IrqLine → Prop) [DecidablePred on] : ¬ LastEnables on [] := by
  simp [LastEnables]

/-- A call on one of the lines is the last one, and any other call changes nothing. -/
theorem lastEnables_concat (on : IrqLine → Prop) [DecidablePred on] (calls : List PicCall)
    (c : PicCall) :
    LastEnables on (calls ++ [c]) ↔
      if on c.line then c.enables = true else LastEnables on calls := by
  by_cases h : on c.line
  · simp [LastEnables, h]
  · simp [LastEnables, h]

/-- The bit of the first mask that a call sets or clears. -/
def PicCall.masterBit (c : PicCall) : ℕ := if c.line.Slave then slaveIrq else c.line.num

theorem masterMask_apply (p : Pic) (c : PicCall) {i : ℕ} (hi : i < irqPerPic) :
    (c.apply p).masterMask.getLsbD i =
      if i = c.masterBit then !c.enables else p.masterMask.getLsbD i := by
  cases c with
  | enableIrq n =>
    by_cases h : n.num < irqPerPic
    · have hbit : (PicCall.enableIrq n).masterBit = n.num := if_neg (not_le.2 h)
      simp only [PicCall.apply, enableIrq, if_pos h, hbit]
      exact getLsbD_clearBit _ _ hi
    · have hbit : (PicCall.enableIrq n).masterBit = slaveIrq := if_pos (not_lt.1 h)
      simp only [PicCall.apply, enableIrq, if_neg h, hbit]
      exact getLsbD_clearBit _ _ hi
  | disableIrq n =>
    by_cases h : n.num < irqPerPic
    · have hbit : (PicCall.disableIrq n).masterBit = n.num := if_neg (not_le.2 h)
      simp only [PicCall.apply, disableIrq, if_pos h, hbit]
      exact getLsbD_setBit _ _ hi
    · have hbit : (PicCall.disableIrq n).masterBit = slaveIrq := if_pos (not_lt.1 h)
      simp only [PicCall.apply, disableIrq, if_neg h, hbit]
      exact getLsbD_setBit _ _ hi

theorem slaveMask_apply (p : Pic) (c : PicCall) {i : ℕ} (hi : i < irqPerPic) :
    (c.apply p).slaveMask.getLsbD i =
      if i + irqPerPic = c.line.num then !c.enables else p.slaveMask.getLsbD i := by
  by_cases h : c.line.num < irqPerPic
  · rw [if_neg (by omega)]
    cases c with
    | enableIrq n => simp only [PicCall.apply, enableIrq, if_pos (show n.num < irqPerPic from h)]
    | disableIrq n => simp only [PicCall.apply, disableIrq, if_pos (show n.num < irqPerPic from h)]
  · have hiff : i + irqPerPic = c.line.num ↔ i = c.line.num - irqPerPic := by omega
    simp only [hiff]
    cases c with
    | enableIrq n =>
      simp only [PicCall.apply, enableIrq, if_neg (show ¬ n.num < irqPerPic from h)]
      exact getLsbD_clearBit _ _ hi
    | disableIrq n =>
      simp only [PicCall.apply, disableIrq, if_neg (show ¬ n.num < irqPerPic from h)]
      exact getLsbD_setBit _ _ hi

/-- What the masks are after some calls. -/
structure MaskedBy (calls : List PicCall) (p : Pic) : Prop where
  master : ∀ n : IrqLine, ¬ n.Slave → (p.masterMask.getLsbD n.num = false ↔ Enabled n calls)
  cascade : p.masterMask.getLsbD slaveIrq = false ↔ SlaveEnabled calls
  slave : ∀ n : IrqLine, n.Slave →
    (p.slaveMask.getLsbD (n.num - irqPerPic) = false ↔ Enabled n calls)

theorem maskedBy_init : MaskedBy [] i8259Init := by
  have hall : ∀ i < 8, (0xFF#8).getLsbD i = true := by decide
  refine ⟨fun n hn => ?_, ?_, fun n hn => ?_⟩
  · have hlt : n.num < irqPerPic := not_le.1 hn
    have hbit : i8259Init.masterMask.getLsbD n.num = true := hall n.num hlt
    rw [hbit]
    exact iff_of_false (by decide) (lastEnables_nil _)
  · exact iff_of_false (by decide) (lastEnables_nil _)
  · have hlt : n.num - irqPerPic < 8 := by
      have := n.lt
      simp only [irqPerPic] at this ⊢
      omega
    have hbit : i8259Init.slaveMask.getLsbD (n.num - irqPerPic) = true := hall _ hlt
    rw [hbit]
    exact iff_of_false (by decide) (lastEnables_nil _)

theorem maskedBy_apply (h : MaskedBy calls p) (c : PicCall) :
    MaskedBy (calls ++ [c]) (c.apply p) := by
  refine ⟨fun n hn => ?_, ?_, fun n hn => ?_⟩
  · have hlt : n.num < irqPerPic := not_le.1 hn
    have hiff : n.num = c.masterBit ↔ c.line.num = n.num := by
      unfold PicCall.masterBit
      split_ifs with hs
      · have hge : irqPerPic ≤ c.line.num := hs
        exact iff_of_false n.ne (by omega)
      · exact eq_comm
    rw [masterMask_apply p c hlt, Enabled, lastEnables_concat]
    by_cases hline : c.line.num = n.num
    · rw [if_pos (hiff.2 hline), if_pos hline]
      simp
    · rw [if_neg (mt hiff.1 hline), if_neg hline]
      exact h.master n hn
  · have hiff : slaveIrq = c.masterBit ↔ c.line.Slave := by
      unfold PicCall.masterBit
      split_ifs with hs
      · exact iff_of_true rfl hs
      · exact iff_of_false c.line.ne.symm hs
    rw [masterMask_apply p c (by decide), SlaveEnabled, lastEnables_concat]
    by_cases hline : c.line.Slave
    · rw [if_pos (hiff.2 hline), if_pos hline]
      simp
    · rw [if_neg (mt hiff.1 hline), if_neg hline]
      exact h.cascade
  · have hge : irqPerPic ≤ n.num := hn
    have hlt : n.num - irqPerPic < irqPerPic := by
      have := n.lt
      omega
    rw [slaveMask_apply p c hlt, Nat.sub_add_cancel hge, Enabled, lastEnables_concat]
    by_cases hline : c.line.num = n.num
    · rw [if_pos hline.symm, if_pos hline]
      simp
    · rw [if_neg (Ne.symm hline), if_neg hline]
      exact h.slave n hn

/-- The masks after any calls. -/
theorem maskedBy_picAfter (calls : List PicCall) : MaskedBy calls (picAfter calls) := by
  induction calls using List.reverseRecOn with
  | nil => exact maskedBy_init
  | append_singleton calls c ih =>
    rw [picAfter_concat]
    exact maskedBy_apply ih c

/-- **The masks track a line** exactly if it is one of the first controller, or its last call did
not enable it, or the last call on a line of the second controller enabled one. -/
theorem unmasked_iff (calls : List PicCall) (n : IrqLine) :
    (Unmasked (picAfter calls) n.num ↔ Enabled n calls) ↔
      (n.Slave → Enabled n calls → SlaveEnabled calls) := by
  have hmasks := maskedBy_picAfter calls
  by_cases hn : n.Slave
  · have hge : ¬ n.num < irqPerPic := not_lt.2 hn
    rw [Unmasked, if_neg hge, hmasks.cascade, hmasks.slave n hn]
    constructor
    · intro h _ hen
      exact (h.2 hen).1
    · intro h
      exact ⟨fun hboth => hboth.2, fun hen => ⟨h hn hen, hen⟩⟩
  · have hlt : n.num < irqPerPic := not_le.1 hn
    rw [Unmasked, if_pos hlt]
    exact iff_of_true (hmasks.master n hn) fun hs => absurd hs hn

end Calls

/-- The line of the clock, and the one behind it. -/
def rtcLine : IrqLine := ⟨rtcIrqNum, by decide, by decide⟩

def nextLine : IrqLine := ⟨rtcIrqNum + 1, by decide, by decide⟩

/-- Disabling the line behind it cuts the clock off. -/
theorem clock_cut_off :
    Enabled rtcLine [.enableIrq rtcLine, .enableIrq nextLine, .disableIrq nextLine] ∧
      ¬ (Unmasked (picAfter [.enableIrq rtcLine, .enableIrq nextLine, .disableIrq nextLine])
          rtcLine.num ↔
        Enabled rtcLine [.enableIrq rtcLine, .enableIrq nextLine, .disableIrq nextLine]) := by
  have hen : Enabled rtcLine [.enableIrq rtcLine, .enableIrq nextLine, .disableIrq nextLine] :=
    ⟨.enableIrq rtcLine, rfl, rfl⟩
  refine ⟨hen, fun h => ?_⟩
  have hmasked := (h.2 hen).1
  exact absurd hmasked (by decide)

end LinuxIsLove
