import LinuxIsLove.Foundation.Blocks

/-!
# A processor with a stack

The part of a 32-bit x86 processor that entry code is written with: eight registers, the stack,
software interrupts and `iret`, with the descriptors of the interrupt table decoded from their bits.
The instruction at an address and the address behind it are given by a table (`Platform.code`);
where there is none, a function of another language starts, of which only a relation is known.

`Leads P Q s` says that every execution from `s` comes to a machine in `Q`, unless a function of the
other language does not return.  There is one rule for each instruction.  The rules carry a `Frame`:
the words on the stack, and that nothing outside the stack has been changed.
-/

namespace Processor

open Bytes

/-! ### Words in memory -/

abbrev Word := BitVec 32

/-- The word at an address. -/
def wordAt (m : Memory) (p : ℕ) : Word := BitVec.ofNat 32 (word32 m p)

/-- Store a word, its low byte first. -/
def storeWord (m : Memory) (p : ℕ) (v : Word) : Memory :=
  blockSet m p (fun i => UInt8.ofNat (v.toNat / 256 ^ i)) 4

theorem wordAt_storeWord (m : Memory) (p : ℕ) (v : Word) : wordAt (storeWord m p v) p = v := by
  have hbyte : ∀ i < 4, storeWord m p v (p + i) = UInt8.ofNat (v.toNat / 256 ^ i) := fun i hi =>
    blockSet_of_lt m p _ hi
  have hv := v.isLt
  apply BitVec.eq_of_toNat_eq
  have h0 := hbyte 0 (by omega)
  rw [Nat.add_zero] at h0
  rw [wordAt, BitVec.toNat_ofNat, word32, h0, hbyte 1 (by omega), hbyte 2 (by omega),
    hbyte 3 (by omega)]
  simp only [UInt8.toNat_ofNat']
  omega

theorem wordAt_congr {m m' : Memory} {p : ℕ} (h : ∀ i < 4, m' (p + i) = m (p + i)) :
    wordAt m' p = wordAt m p := by
  rw [wordAt, wordAt, word32_congr h]

theorem storeWord_of_not {m : Memory} {p a : ℕ} {v : Word} (h : a < p ∨ p + 4 ≤ a) :
    storeWord m p v a = m a := blockSet_of_not _ _ (by omega)

theorem wordAt_storeWord_of_disjoint {m : Memory} {p q : ℕ} {v : Word}
    (h : p + 4 ≤ q ∨ q + 4 ≤ p) : wordAt (storeWord m p v) q = wordAt m q :=
  wordAt_congr fun i hi => storeWord_of_not (by omega)

/-! ### Machines -/

inductive Reg
  | eax | ecx | edx | ebx | esp | ebp | esi | edi
  deriving DecidableEq

inductive Seg
  | cs | ss | ds | es | fs | gs
  deriving DecidableEq

structure CpuState where
  reg : Reg → Word
  seg : Seg → BitVec 16
  eip : Word
  eflags : Word
  mem : Memory

namespace CpuState

def set (s : CpuState) (r : Reg) (v : Word) : CpuState :=
  { s with reg := Function.update s.reg r v }

def goto (s : CpuState) (a : Word) : CpuState := { s with eip := a }

def setSeg (s : CpuState) (g : Seg) (v : BitVec 16) : CpuState :=
  { s with seg := Function.update s.seg g v }

def setFlags (s : CpuState) (f : Word) : CpuState := { s with eflags := f }

/-- The word on top of the stack. -/
def top (s : CpuState) : Word := wordAt s.mem (s.reg .esp).toNat

def push (s : CpuState) (v : Word) : CpuState :=
  { s with
    reg := Function.update s.reg .esp (s.reg .esp - 4)
    mem := storeWord s.mem (s.reg .esp - 4).toNat v }

def drop (s : CpuState) : CpuState := s.set .esp (s.reg .esp + 4)

/-- Pop into a register. -/
def pop (s : CpuState) (r : Reg) : CpuState := s.drop.set r s.top

/-- The current privilege level. -/
def cpl (s : CpuState) : ℕ := (s.seg .cs).toNat % 4

section Fields

variable (s : CpuState) (r q : Reg) (g : Seg) (v a f : Word) (w : BitVec 16)

@[simp] theorem set_reg : (s.set r v).reg = Function.update s.reg r v := rfl
@[simp] theorem set_seg : (s.set r v).seg = s.seg := rfl
@[simp] theorem set_eip : (s.set r v).eip = s.eip := rfl
@[simp] theorem set_eflags : (s.set r v).eflags = s.eflags := rfl
@[simp] theorem set_mem : (s.set r v).mem = s.mem := rfl
@[simp] theorem goto_reg : (s.goto a).reg = s.reg := rfl
@[simp] theorem goto_seg : (s.goto a).seg = s.seg := rfl
@[simp] theorem goto_eip : (s.goto a).eip = a := rfl
@[simp] theorem goto_eflags : (s.goto a).eflags = s.eflags := rfl
@[simp] theorem goto_mem : (s.goto a).mem = s.mem := rfl
@[simp] theorem setSeg_reg : (s.setSeg g w).reg = s.reg := rfl
@[simp] theorem setSeg_seg : (s.setSeg g w).seg = Function.update s.seg g w := rfl
@[simp] theorem setSeg_eip : (s.setSeg g w).eip = s.eip := rfl
@[simp] theorem setSeg_eflags : (s.setSeg g w).eflags = s.eflags := rfl
@[simp] theorem setSeg_mem : (s.setSeg g w).mem = s.mem := rfl
@[simp] theorem setFlags_reg : (s.setFlags f).reg = s.reg := rfl
@[simp] theorem setFlags_seg : (s.setFlags f).seg = s.seg := rfl
@[simp] theorem setFlags_eip : (s.setFlags f).eip = s.eip := rfl
@[simp] theorem setFlags_eflags : (s.setFlags f).eflags = f := rfl
@[simp] theorem setFlags_mem : (s.setFlags f).mem = s.mem := rfl
@[simp] theorem push_seg : (s.push v).seg = s.seg := rfl
@[simp] theorem push_eip : (s.push v).eip = s.eip := rfl
@[simp] theorem push_eflags : (s.push v).eflags = s.eflags := rfl
@[simp] theorem push_reg : (s.push v).reg = Function.update s.reg .esp (s.reg .esp - 4) := rfl
@[simp] theorem drop_reg : s.drop.reg = Function.update s.reg .esp (s.reg .esp + 4) := rfl
@[simp] theorem drop_seg : s.drop.seg = s.seg := rfl
@[simp] theorem drop_eip : s.drop.eip = s.eip := rfl
@[simp] theorem drop_eflags : s.drop.eflags = s.eflags := rfl
@[simp] theorem drop_mem : s.drop.mem = s.mem := rfl

end Fields

end CpuState

/-! ### Flags -/

/-- The flags that arithmetic sets. -/
structure Status where
  cf : Bool
  pf : Bool
  af : Bool
  zf : Bool
  sf : Bool
  of : Bool

/-- A word with one bit, or none. -/
def bitAt (i : ℕ) (b : Bool) : Word := if b then BitVec.twoPow 32 i else 0

def Status.bits (t : Status) : Word :=
  bitAt 0 t.cf ||| bitAt 2 t.pf ||| bitAt 4 t.af ||| bitAt 6 t.zf ||| bitAt 7 t.sf ||| bitAt 11 t.of

def setStatus (f : Word) (t : Status) : Word := (f &&& ~~~0x8D5#32) ||| t.bits

def carry (f : Word) : Bool := f.getLsbD 0
def zero (f : Word) : Bool := f.getLsbD 6
def interrupts (f : Word) : Bool := f.getLsbD 9

/-- Whether the low byte has an even number of ones. -/
def parity (r : Word) : Bool := ((List.range 8).countP fun i => r.getLsbD i) % 2 = 0

/-- The flags of `a - b`. -/
def subStatus (a b : Word) : Status where
  cf := a.ult b
  pf := parity (a - b)
  af := (a &&& 0xF).ult (b &&& 0xF)
  zf := a == b
  sf := (a - b).msb
  of := a.msb != b.msb && (a - b).msb != a.msb

/-- The flags of `a + b`. -/
def addStatus (a b : Word) : Status where
  cf := (a + b).ult a
  pf := parity (a + b)
  af := ((a + b) &&& 0xF).ult (a &&& 0xF)
  zf := a + b == 0
  sf := (a + b).msb
  of := a.msb == b.msb && (a + b).msb != a.msb

theorem getElem_bitAt {i j : ℕ} (hj : j < 32) (b : Bool) :
    (bitAt i b)[j] = (b && decide (i = j)) := by
  cases b
  · simp [bitAt]
  · simp [bitAt, BitVec.getElem_twoPow, eq_comm]

section Flags

variable (f : Word) (t : Status)

@[simp] theorem carry_setStatus : carry (setStatus f t) = t.cf := by
  simp [carry, setStatus, Status.bits, getElem_bitAt]

@[simp] theorem zero_setStatus : zero (setStatus f t) = t.zf := by
  simp [zero, setStatus, Status.bits, getElem_bitAt]

@[simp] theorem interrupts_clear : interrupts (f &&& ~~~0x200#32) = false := by
  simp [interrupts]

@[simp] theorem interrupts_setStatus : interrupts (setStatus f t) = interrupts f := by
  simp [interrupts, setStatus, Status.bits, getElem_bitAt]

end Flags

/-! ### Gates of the interrupt table -/

structure Gate where
  offset : Word
  selector : BitVec 16
  dpl : ℕ
  /-- a trap gate leaves the interrupts as they are -/
  trap : Bool

/-- An interrupt or trap gate of 32 bits, present or not.  There are no others here. -/
def isGate (d : BitVec 64) : Prop := d.getLsbD 44 = false ∧ d.extractLsb' 41 3 = 7#3

instance (d : BitVec 64) : Decidable (isGate d) := inferInstanceAs (Decidable (_ ∧ _))

/-- The privilege that a software interrupt needs. -/
def gateDpl (d : BitVec 64) : ℕ := (d.extractLsb' 45 2).toNat

/-- A gate that is present. -/
def decodeGate (d : BitVec 64) : Option Gate :=
  if d.getLsbD 47 ∧ isGate d then
    some ⟨d.extractLsb' 48 16 ++ d.extractLsb' 0 16, d.extractLsb' 16 16, gateDpl d, d.getLsbD 40⟩
  else none

/-! ### Instructions -/

inductive Instr
  | pushl (r : Reg)
  | pushImm (v : Word)
  | pushSeg (g : Seg)
  | popl (r : Reg)
  | popSeg (g : Seg)
  | pusha
  | popa
  | movl (src dst : Reg)
  | movImm (v : Word) (dst : Reg)
  | movw (v : BitVec 16) (dst : Reg)
  | movSeg (src : Reg) (g : Seg)
  /-- `movl disp(base), dst` -/
  | load (disp : Word) (base dst : Reg)
  | cmpl (v : Word) (r : Reg)
  | decl (r : Reg)
  | addl (v : Word) (r : Reg)
  | jmp (a : Word)
  | jb (a : Word)
  | ja (a : Word)
  | call (a : Word)
  /-- `call *table(,index,4)` -/
  | callIndexed (table : Word) (index : Reg)
  /-- `call *a` -/
  | callAt (a : Word)
  | ret
  | iret
  | cli
  | int (n : BitVec 8)
  deriving DecidableEq

/-- What a machine runs on: the instructions with the addresses behind them, the interrupt table,
the stack for the kernel, and the functions of the other language. -/
structure Platform where
  code : Word → Option (Instr × Word)
  idt : BitVec 8 → BitVec 64
  esp0 : Word
  ss0 : BitVec 16
  external : Word → CpuState → CpuState → Prop

namespace CpuState

/-- `eax`, `ecx`, `edx`, `ebx`, the old `esp`, `ebp`, `esi` and `edi`. -/
def pusha (s : CpuState) : CpuState :=
  ((((((((s.push (s.reg .eax)).push (s.reg .ecx)).push (s.reg .edx)).push (s.reg .ebx)).push
    (s.reg .esp)).push (s.reg .ebp)).push (s.reg .esi)).push (s.reg .edi))

/-- The saved `esp` is left out. -/
def popa (s : CpuState) : CpuState :=
  ((((((((s.pop .edi).pop .esi).pop .ebp).drop).pop .ebx).pop .edx).pop .ecx).pop .eax)

def clearInterrupts (s : CpuState) : CpuState := s.setFlags (s.eflags &&& ~~~0x200#32)

/-- The flags and the address to return to, for an entry through a gate. -/
def pushReturn (s : CpuState) (ret : Word) : CpuState :=
  ((s.push s.eflags).push ((s.seg .cs).setWidth 32)).push ret

def switchStack (P : Platform) (s : CpuState) : CpuState :=
  { s with
    reg := Function.update s.reg .esp P.esp0
    seg := Function.update s.seg .ss P.ss0 }

/-- Enter through a gate.  Coming from a lower privilege the processor changes to the stack of the
kernel first. -/
def enter (P : Platform) (g : Gate) (ret : Word) (s : CpuState) : CpuState :=
  let t :=
    if g.selector.toNat % 4 < s.cpl then
      ((s.switchStack P).push ((s.seg .ss).setWidth 32)).push (s.reg .esp)
    else s
  let t := ((t.pushReturn ret).setSeg .cs g.selector).goto g.offset
  if g.trap then t else t.clearInterrupts

def pushCode (s : CpuState) : Option Word → CpuState
  | none => s
  | some v => s.push v

/-- An exception or an interrupt of a device. -/
def deliver (P : Platform) (n : BitVec 8) (code : Option Word) (ret : Word) (s : CpuState) :
    Option CpuState :=
  (decodeGate (P.idt n)).map fun g => (s.enter P g ret).pushCode code

/-- A software interrupt.  Through a gate that is not open to the program it is a general protection
fault, and with no gate as well. -/
def softInt (P : Platform) (n : BitVec 8) (next : Word) (s : CpuState) : Option CpuState :=
  let d := P.idt n
  let code : Word := BitVec.ofNat 32 (8 * n.toNat + 2)
  if ¬isGate d ∨ gateDpl d < s.cpl then s.deliver P 13 (some code) s.eip
  else
    match decodeGate d with
    | none => s.deliver P 11 (some code) s.eip
    | some g => some (s.enter P g next)

/-- Return from an interrupt, to a lower privilege with the stack of the program. -/
def iret (s : CpuState) : CpuState :=
  let t := ((s.drop.drop.drop.setSeg .cs (s.drop.top.setWidth 16)).setFlags
    s.drop.drop.top).goto s.top
  if s.cpl < t.cpl then
    (t.set .esp t.top).setSeg .ss (t.drop.top.setWidth 16)
  else t

end CpuState

/-- Execute an instruction, with the address behind it. -/
def exec (P : Platform) (next : Word) (s : CpuState) : Instr → Option CpuState
  | .pushl r => some ((s.push (s.reg r)).goto next)
  | .pushImm v => some ((s.push v).goto next)
  | .pushSeg g => some ((s.push ((s.seg g).setWidth 32)).goto next)
  | .popl r => some ((s.pop r).goto next)
  | .popSeg g => some ((s.drop.setSeg g (s.top.setWidth 16)).goto next)
  | .pusha => some (s.pusha.goto next)
  | .popa => some (s.popa.goto next)
  | .movl src dst => some ((s.set dst (s.reg src)).goto next)
  | .movImm v dst => some ((s.set dst v).goto next)
  | .movw v dst => some ((s.set dst ((s.reg dst).extractLsb' 16 16 ++ v)).goto next)
  | .movSeg src g => some ((s.setSeg g ((s.reg src).setWidth 16)).goto next)
  | .load disp base dst => some ((s.set dst (wordAt s.mem (s.reg base + disp).toNat)).goto next)
  | .cmpl v r => some ((s.setFlags (setStatus s.eflags (subStatus (s.reg r) v))).goto next)
  | .decl r =>
    -- the carry stays as it is
    let t := { subStatus (s.reg r) 1 with cf := carry s.eflags }
    some (((s.set r (s.reg r - 1)).setFlags (setStatus s.eflags t)).goto next)
  | .addl v r =>
    some (((s.set r (s.reg r + v)).setFlags
      (setStatus s.eflags (addStatus (s.reg r) v))).goto next)
  | .jmp a => some (s.goto a)
  | .jb a => some (s.goto (if carry s.eflags then a else next))
  | .ja a => some (s.goto (if carry s.eflags || zero s.eflags then next else a))
  | .call a => some ((s.push next).goto a)
  | .callIndexed table index =>
    some ((s.push next).goto (wordAt s.mem (table + 4 * s.reg index).toNat))
  | .callAt a => some ((s.push next).goto (wordAt s.mem a.toNat))
  | .ret => some (s.drop.goto s.top)
  | .iret => some s.iret
  | .cli => some (s.clearInterrupts.goto next)
  | .int n => s.softInt P n next

/-- The instructions stand one behind the other from `a` on. -/
def Placed (P : Platform) : Word → List Instr → Prop
  | _, [] => True
  | a, i :: is => ∃ next, P.code a = some (i, next) ∧ Placed P next is

theorem placed_of_code {P : Platform} {a : Word} {is : List Instr}
    (h : ∀ i (hi : i < is.length), P.code (a + BitVec.ofNat 32 i) =
      some (is[i], a + BitVec.ofNat 32 i + 1)) : Placed P a is := by
  induction is generalizing a with
  | nil => trivial
  | cons x is ih =>
    refine ⟨a + 1, by simpa using h 0 (Nat.succ_pos _), ih fun i hi => ?_⟩
    have haddr : a + 1 + BitVec.ofNat 32 i = a + BitVec.ofNat 32 (i + 1) := by
      rw [BitVec.add_assoc]
      congr 1
      bv_omega
    rw [haddr, h (i + 1) (Nat.succ_lt_succ hi), List.getElem_cons_succ]

/-- Every execution comes to `Q`, unless a function of the other language does not return. -/
inductive Leads (P : Platform) (Q : CpuState → Prop) : CpuState → Prop
  | here {s} (h : Q s) : Leads P Q s
  | step {s i next s'} (hcode : P.code s.eip = some (i, next)) (hexec : exec P next s i = some s')
      (h : Leads P Q s') : Leads P Q s
  | external {s} (hcode : P.code s.eip = none) (h : ∀ s', P.external s.eip s s' → Leads P Q s') :
      Leads P Q s

/-- **Sequential composition.** -/
theorem Leads.bind {P : Platform} {Q R : CpuState → Prop} {s : CpuState} (h : Leads P Q s)
    (hQ : ∀ s', Q s' → Leads P R s') : Leads P R s := by
  induction h with
  | here h => exact hQ _ h
  | step hcode hexec _ ih => exact .step hcode hexec ih
  | external hcode _ ih => exact .external hcode ih

/-! ### The words on the stack -/

/-- The words `ws` are on the stack, which ends at `hi` and has room down to `lo`, and the memory
outside of it is that of `m`. -/
structure Frame (lo hi : ℕ) (m : Memory) (ws : List Word) (s : CpuState) : Prop where
  depth : (s.reg .esp).toNat + 4 * ws.length = hi
  fits : hi < 2 ^ 32
  words : ∀ i (h : i < ws.length), wordAt s.mem ((s.reg .esp).toNat + 4 * i) = ws[i]
  outside : ∀ x, x < lo ∨ hi ≤ x → s.mem x = m x

section Frame

variable {lo hi : ℕ} {m : Memory} {ws : List Word} {w : Word} {s t : CpuState}

/-- A frame speaks of the stack pointer and the memory only. -/
theorem Frame.congr (h : Frame lo hi m ws s) (hesp : t.reg .esp = s.reg .esp)
    (hmem : t.mem = s.mem) : Frame lo hi m ws t := by
  constructor
  · rw [hesp, h.depth]
  · exact h.fits
  · rw [hesp, hmem]
    exact h.words
  · rw [hmem]
    exact h.outside

theorem Frame.goto (h : Frame lo hi m ws s) (a : Word) : Frame lo hi m ws (s.goto a) :=
  h.congr rfl rfl

theorem Frame.empty (lo : ℕ) (h : (s.reg .esp).toNat = hi) : Frame lo hi s.mem [] s :=
  ⟨h, h ▸ (s.reg .esp).isLt, fun _ hi => absurd hi (Nat.not_lt_zero _), fun _ _ => rfl⟩

theorem Frame.push (h : Frame lo hi m ws s) (hroom : lo + 4 * (ws.length + 1) ≤ hi) (v : Word) :
    Frame lo hi m (v :: ws) (s.push v) := by
  have hdepth := h.depth
  have hesp : (s.reg .esp - 4).toNat = (s.reg .esp).toNat - 4 := by bv_omega
  have hreg : (s.push v).reg .esp = s.reg .esp - 4 := by
    rw [CpuState.push_reg, Function.update_self]
  constructor
  · rw [hreg, hesp, List.length_cons]
    omega
  · exact h.fits
  · rw [hreg, hesp]
    intro i hi
    show wordAt (storeWord s.mem (s.reg .esp - 4).toNat v) _ = _
    rw [hesp]
    cases i with
    | zero => exact wordAt_storeWord _ _ _
    | succ i =>
      rw [wordAt_storeWord_of_disjoint (by omega), List.getElem_cons_succ,
        ← h.words i (by simpa using hi)]
      congr 1
      omega
  · intro x hx
    show storeWord s.mem (s.reg .esp - 4).toNat v x = m x
    rw [hesp, storeWord_of_not (by omega), h.outside x hx]

/-- A word that is read with the stack pointer as the base. -/
theorem Frame.load (h : Frame lo hi m ws s) {i : ℕ} (hi : i < ws.length) {disp : Word}
    (hdisp : disp.toNat = 4 * i) : wordAt s.mem (s.reg .esp + disp).toNat = ws[i] := by
  have hdepth := h.depth
  have hfits := h.fits
  have haddr : (s.reg .esp + disp).toNat = (s.reg .esp).toNat + 4 * i := by bv_omega
  rw [haddr, h.words i hi]

theorem Frame.top (h : Frame lo hi m (w :: ws) s) : s.top = w := h.words 0 (Nat.succ_pos _)

theorem Frame.drop (h : Frame lo hi m (w :: ws) s) : Frame lo hi m ws s.drop := by
  have hdepth := h.depth
  rw [List.length_cons] at hdepth
  have hfits := h.fits
  have hesp : (s.reg .esp + 4).toNat = (s.reg .esp).toNat + 4 := by bv_omega
  have hreg : s.drop.reg .esp = s.reg .esp + 4 := by rw [CpuState.drop_reg, Function.update_self]
  constructor
  · rw [hreg, hesp]
    omega
  · exact hfits
  · rw [hreg, hesp]
    intro i hi
    have hword := h.words (i + 1) (by simpa using hi)
    rw [List.getElem_cons_succ] at hword
    rw [← hword, CpuState.drop_mem]
    congr 1
    omega
  · exact h.outside

theorem Frame.pusha (h : Frame lo hi m ws s) (hroom : lo + 4 * (ws.length + 8) ≤ hi) :
    Frame lo hi m (s.reg .edi :: s.reg .esi :: s.reg .ebp :: s.reg .esp :: s.reg .ebx ::
      s.reg .edx :: s.reg .ecx :: s.reg .eax :: ws) s.pusha := by
  have h4 := (((h.push (by omega) (s.reg .eax)).push (by simp only [List.length_cons]; omega)
    (s.reg .ecx)).push (by simp only [List.length_cons]; omega) (s.reg .edx)).push
    (by simp only [List.length_cons]; omega) (s.reg .ebx)
  exact (((h4.push (by simp only [List.length_cons]; omega) (s.reg .esp)).push
    (by simp only [List.length_cons]; omega) (s.reg .ebp)).push
    (by simp only [List.length_cons]; omega) (s.reg .esi)).push
    (by simp only [List.length_cons]; omega) (s.reg .edi)

theorem Frame.pop (h : Frame lo hi m (w :: ws) s) {r : Reg} (hr : r ≠ .esp) :
    Frame lo hi m ws (s.pop r) :=
  h.drop.congr (Function.update_of_ne hr.symm _ _) rfl

theorem pop_reg (h : Frame lo hi m (w :: ws) s) {r q : Reg} (hq : q ≠ .esp) :
    (s.pop r).reg q = Function.update s.reg r w q := by
  show Function.update (Function.update s.reg .esp (s.reg .esp + 4)) r s.top q = _
  rw [h.top]
  by_cases hqr : q = r
  · rw [hqr, Function.update_self, Function.update_self]
  · rw [Function.update_of_ne hqr, Function.update_of_ne hqr, Function.update_of_ne hq]

theorem popa_seg (s : CpuState) : s.popa.seg = s.seg := rfl

theorem popa_mem (s : CpuState) : s.popa.mem = s.mem := rfl

/-- What `popa` leaves of the registers that `pusha` has saved. -/
theorem Frame.popa {di si bp sp bx dx cx ax : Word}
    (h : Frame lo hi m (di :: si :: bp :: sp :: bx :: dx :: cx :: ax :: ws) s) :
    Frame lo hi m ws s.popa ∧ s.popa.reg .edi = di ∧ s.popa.reg .esi = si ∧
      s.popa.reg .ebp = bp ∧ s.popa.reg .ebx = bx ∧ s.popa.reg .edx = dx ∧
      s.popa.reg .ecx = cx ∧ s.popa.reg .eax = ax := by
  have h1 := h.pop (r := .edi) (by decide)
  have h2 := h1.pop (r := .esi) (by decide)
  have h3 := h2.pop (r := .ebp) (by decide)
  have h4 := h3.drop
  have h5 := h4.pop (r := .ebx) (by decide)
  have h6 := h5.pop (r := .edx) (by decide)
  have h7 := h6.pop (r := .ecx) (by decide)
  have hreg : ∀ q, q ≠ .esp → s.popa.reg q = Function.update (Function.update (Function.update
      (Function.update (Function.update (Function.update (Function.update s.reg .edi di) .esi si)
        .ebp bp) .ebx bx) .edx dx) .ecx cx) .eax ax q := by
    intro q hq
    have hdrop : ((((s.pop .edi).pop .esi).pop .ebp).drop).reg q =
        (((s.pop .edi).pop .esi).pop .ebp).reg q := Function.update_of_ne hq _ _
    rw [CpuState.popa, pop_reg h7 hq]
    simp only [Function.update_apply]
    rw [pop_reg h6 hq]
    simp only [Function.update_apply]
    rw [pop_reg h5 hq]
    simp only [Function.update_apply]
    rw [pop_reg h4 hq]
    simp only [Function.update_apply]
    rw [hdrop, pop_reg h2 hq]
    simp only [Function.update_apply]
    rw [pop_reg h1 hq]
    simp only [Function.update_apply]
    rw [pop_reg h hq]
    simp only [Function.update_apply]
  refine ⟨h7.pop (by decide), ?_, ?_, ?_, ?_, ?_, ?_, ?_⟩
  all_goals
    rw [hreg _ (by decide)]
    rfl

/-- A function of the other language has returned to its caller.  The `n` words that were pushed for
it are its own; what is behind them on the stack it has left alone. -/
structure Returns (n hi : ℕ) (s t : CpuState) : Prop where
  eip : t.eip = s.top
  esp : t.reg .esp = s.reg .esp + 4
  seg : t.seg = s.seg
  frame : ∀ x, (s.reg .esp).toNat + 4 * (n + 1) ≤ x → x < hi → t.mem x = s.mem x

theorem Frame.returns {vs : List Word} (h : Frame lo hi m (w :: (vs ++ ws)) s)
    (ht : Returns vs.length hi s t) :
    ∃ us : List Word, us.length = vs.length ∧ Frame lo hi t.mem (us ++ ws) t := by
  have hdepth := h.depth
  have hfits := h.fits
  rw [List.length_cons, List.length_append] at hdepth
  have hesp : (t.reg .esp).toNat = (s.reg .esp).toNat + 4 := by
    rw [ht.esp]
    bv_omega
  refine ⟨(List.range vs.length).map fun i => wordAt t.mem ((t.reg .esp).toNat + 4 * i), by simp,
    ?_, hfits, fun i hi => ?_, fun _ _ => rfl⟩
  · rw [List.length_append, List.length_map, List.length_range, hesp]
    omega
  · rw [List.length_append, List.length_map, List.length_range] at hi
    by_cases hvs : i < vs.length
    · rw [List.getElem_append_left (by simpa using hvs), List.getElem_map, List.getElem_range]
    · have hword := h.words (i + 1) (by simp only [List.length_cons, List.length_append]; omega)
      rw [List.getElem_cons_succ, List.getElem_append_right (not_lt.1 hvs)] at hword
      rw [List.getElem_append_right (by simpa using hvs)]
      simp only [List.length_map, List.length_range]
      rw [← hword]
      have haddr : (t.reg .esp).toNat + 4 * i = (s.reg .esp).toNat + 4 * (i + 1) := by omega
      rw [haddr]
      exact wordAt_congr fun j hj => ht.frame _ (by omega) (by omega)

end Frame

/-! ### Rules -/

/-- `t` differs from `s` in the stack and in the address of the next instruction only. -/
structure Alike (s t : CpuState) : Prop where
  reg : ∀ q, q ≠ .esp → t.reg q = s.reg q
  seg : t.seg = s.seg
  eflags : t.eflags = s.eflags

theorem Alike.refl (s : CpuState) : Alike s s := ⟨fun _ _ => rfl, rfl, rfl⟩

theorem Alike.trans {s t u : CpuState} (h : Alike s t) (h' : Alike t u) : Alike s u :=
  ⟨fun q hq => (h'.reg q hq).trans (h.reg q hq), h'.seg.trans h.seg, h'.eflags.trans h.eflags⟩

theorem alike_push (s : CpuState) (v a : Word) : Alike s ((s.push v).goto a) :=
  ⟨fun _ hq => Function.update_of_ne hq _ _, rfl, rfl⟩

/-- Assign to registers one after the other. -/
def assign (f : Reg → Word) : List (Reg × Word) → Reg → Word
  | [] => f
  | x :: l => assign (Function.update f x.1 x.2) l

theorem assign_congr {f g : Reg → Word} {l : List (Reg × Word)} {q : Reg}
    (h : ∀ q, q ≠ .esp → f q = g q) (hq : q ≠ .esp) : assign f l q = assign g l q := by
  induction l generalizing f g with
  | nil => exact h q hq
  | cons x l ih =>
    refine ih fun p hp => ?_
    by_cases hpx : p = x.1
    · rw [hpx, Function.update_self, Function.update_self]
    · rw [Function.update_of_ne hpx, Function.update_of_ne hpx, h p hp]

section Rules

variable {P : Platform} {Q : CpuState → Prop} {lo hi : ℕ} {m : Memory} {ws : List Word}
  {s : CpuState} {is : List Instr}

/-- A comparison and a jump if the register is below the number. -/
theorem Leads.cmpl_jb {v a n1 n2 : Word} {r : Reg} (hcmp : P.code s.eip = some (.cmpl v r, n1))
    (hjb : P.code n1 = some (.jb a, n2))
    (h : Leads P Q ((s.setFlags (setStatus s.eflags (subStatus (s.reg r) v))).goto
      (if (s.reg r).toNat < v.toNat then a else n2))) : Leads P Q s := by
  refine .step hcmp rfl (.step hjb ?_ h)
  simp only [exec, CpuState.goto_eflags, CpuState.setFlags_eflags, carry_setStatus, subStatus,
    BitVec.ult_eq_decide, decide_eq_true_eq]
  rfl

/-- A comparison and a jump if the register is above the number. -/
theorem Leads.cmpl_ja {v a n1 n2 : Word} {r : Reg} (hcmp : P.code s.eip = some (.cmpl v r, n1))
    (hja : P.code n1 = some (.ja a, n2))
    (h : Leads P Q ((s.setFlags (setStatus s.eflags (subStatus (s.reg r) v))).goto
      (if (s.reg r).toNat ≤ v.toNat then n2 else a))) : Leads P Q s := by
  refine .step hcmp rfl (.step hja ?_ h)
  have hle : (carry (setStatus s.eflags (subStatus (s.reg r) v)) ||
      zero (setStatus s.eflags (subStatus (s.reg r) v))) = true ↔ (s.reg r).toNat ≤ v.toNat := by
    rw [carry_setStatus, zero_setStatus, subStatus, BitVec.ult_eq_decide, Bool.or_eq_true,
      decide_eq_true_eq, beq_iff_eq, ← BitVec.toNat_inj]
    omega
  simp only [exec, CpuState.goto_eflags, CpuState.setFlags_eflags, hle]
  rfl

/-- Push a word and go on at `a`: a push, or a call. -/
theorem Leads.push {i : Instr} {v a next : Word} (hcode : P.code s.eip = some (i, next))
    (hexec : exec P next s i = some ((s.push v).goto a)) (hf : Frame lo hi m ws s)
    (hroom : lo + 4 * (ws.length + 1) ≤ hi)
    (h : ∀ t, t.eip = a → Alike s t → Frame lo hi m (v :: ws) t → Leads P Q t) : Leads P Q s :=
  .step hcode hexec (h _ rfl (alike_push s v a) ((hf.push hroom v).goto a))

/-- Change registers and go on at `a`: a move, or a jump. -/
theorem Leads.move {i : Instr} {f : Reg → Word} {a next : Word}
    (hcode : P.code s.eip = some (i, next))
    (hexec : exec P next s i = some (({ s with reg := f } : CpuState).goto a))
    (h : ∀ t, t.eip = a → t.reg = f → t.seg = s.seg → t.eflags = s.eflags → t.mem = s.mem →
      Leads P Q t) : Leads P Q s :=
  .step hcode hexec (h _ rfl rfl rfl rfl rfl)

theorem Leads.decl {r : Reg} {next : Word} (hcode : P.code s.eip = some (.decl r, next))
    (h : ∀ t, t.eip = next → t.reg = Function.update s.reg r (s.reg r - 1) → t.seg = s.seg →
      t.mem = s.mem → interrupts t.eflags = interrupts s.eflags → Leads P Q t) : Leads P Q s :=
  .step hcode rfl (h _ rfl rfl rfl rfl (interrupts_setStatus _ _))

/-- Push some registers. -/
theorem Leads.pushRegs (rs : List Reg) (hrs : .esp ∉ rs)
    (hplaced : Placed P s.eip (rs.map .pushl ++ is)) (hf : Frame lo hi m ws s)
    (hroom : lo + 4 * (ws.length + rs.length) ≤ hi)
    (h : ∀ t, Placed P t.eip is → Alike s t → Frame lo hi m ((rs.map s.reg).reverse ++ ws) t →
      Leads P Q t) : Leads P Q s := by
  induction rs generalizing s ws with
  | nil => exact h s hplaced (Alike.refl s) hf
  | cons r rs ih =>
    obtain ⟨next, hcode, hrest⟩ := hplaced
    rw [List.mem_cons, not_or] at hrs
    rw [List.length_cons] at hroom
    have halike := alike_push s (s.reg r) next
    have hpush : Frame lo hi m (s.reg r :: ws) ((s.push (s.reg r)).goto next) :=
      (hf.push (by omega) _).goto next
    refine .step hcode rfl (ih hrs.2 hrest hpush (by rw [List.length_cons]; omega) ?_)
    intro t hplaced ht hframe
    refine h t hplaced (halike.trans ht) ?_
    have hmap : rs.map ((s.push (s.reg r)).goto next).reg = rs.map s.reg :=
      List.map_congr_left fun q hq => halike.reg q fun hesp => hrs.2 (hesp ▸ hq)
    rw [hmap] at hframe
    rwa [List.map_cons, List.reverse_cons, List.append_assoc]

/-- Push some segment registers. -/
theorem Leads.pushSegs (gs : List Seg) (hplaced : Placed P s.eip (gs.map .pushSeg ++ is))
    (hf : Frame lo hi m ws s) (hroom : lo + 4 * (ws.length + gs.length) ≤ hi)
    (h : ∀ t, Placed P t.eip is → Alike s t →
      Frame lo hi m ((gs.map fun g => (s.seg g).setWidth 32).reverse ++ ws) t → Leads P Q t) :
    Leads P Q s := by
  induction gs generalizing s ws with
  | nil => exact h s hplaced (Alike.refl s) hf
  | cons g gs ih =>
    obtain ⟨next, hcode, hrest⟩ := hplaced
    rw [List.length_cons] at hroom
    have halike := alike_push s ((s.seg g).setWidth 32) next
    have hpush : Frame lo hi m ((s.seg g).setWidth 32 :: ws)
        ((s.push ((s.seg g).setWidth 32)).goto next) := (hf.push (by omega) _).goto next
    refine .step hcode rfl (ih hrest hpush (by rw [List.length_cons]; omega) ?_)
    intro t hplaced ht hframe
    refine h t hplaced (halike.trans ht) ?_
    rwa [List.map_cons, List.reverse_cons, List.append_assoc]

/-- Load some segment registers from one register. -/
theorem Leads.movSegs (gs : List Seg) {r : Reg}
    (hplaced : Placed P s.eip (gs.map (.movSeg r) ++ is))
    (h : ∀ t, Placed P t.eip is → t.reg = s.reg → t.mem = s.mem → t.eflags = s.eflags →
      (∀ g ∈ gs, t.seg g = (s.reg r).setWidth 16) → (∀ g, g ∉ gs → t.seg g = s.seg g) →
      Leads P Q t) : Leads P Q s := by
  induction gs generalizing s with
  | nil => exact h s hplaced rfl rfl rfl (fun g hg => absurd hg (by simp)) fun _ _ => rfl
  | cons g gs ih =>
    obtain ⟨next, hcode, hrest⟩ := hplaced
    refine .step hcode rfl (ih hrest fun t hplaced hreg hmem hfl hin hout => ?_)
    refine h t hplaced hreg hmem hfl (fun q hq => ?_) fun q hq => ?_
    · by_cases hgs : q ∈ gs
      · exact hin q hgs
      · obtain rfl : q = g := (List.mem_cons.1 hq).resolve_right hgs
        rw [hout q hgs]
        exact Function.update_self _ _ _
    · rw [List.mem_cons, not_or] at hq
      rw [hout q hq.2]
      exact Function.update_of_ne hq.1 _ _

/-- Pop some registers. -/
theorem Leads.popRegs (rs : List Reg) (vs : List Word) (hrs : .esp ∉ rs)
    (hlen : vs.length = rs.length) (hplaced : Placed P s.eip (rs.map .popl ++ is))
    (hf : Frame lo hi m (vs ++ ws) s)
    (h : ∀ t, Placed P t.eip is → (∀ q, q ≠ .esp → t.reg q = assign s.reg (rs.zip vs) q) →
      t.seg = s.seg → t.mem = s.mem → t.eflags = s.eflags → Frame lo hi m ws t → Leads P Q t) :
    Leads P Q s := by
  induction rs generalizing s vs with
  | nil =>
    obtain rfl := List.eq_nil_of_length_eq_zero hlen
    exact h s hplaced (fun _ _ => rfl) rfl rfl rfl hf
  | cons r rs ih =>
    obtain ⟨v, vs, rfl⟩ := List.exists_cons_of_length_eq_add_one hlen
    obtain ⟨next, hcode, hrest⟩ := hplaced
    rw [List.mem_cons, not_or] at hrs
    have hreg : ∀ q, q ≠ .esp → ((s.pop r).goto next).reg q = Function.update s.reg r v q :=
      fun q hq => pop_reg hf hq
    have hpop : Frame lo hi m (vs ++ ws) ((s.pop r).goto next) :=
      (hf.pop (Ne.symm hrs.1)).goto next
    refine .step hcode rfl (ih vs hrs.2 (by simpa using hlen) hrest hpop ?_)
    intro t hplaced ht hseg hmem hflags hframe
    refine h t hplaced (fun q hq => ?_) hseg hmem hflags hframe
    rw [ht q hq]
    exact assign_congr hreg hq

/-- Call a function with the arguments `vs`. -/
theorem Leads.function (vs : List Word) {ret : Word} (hnone : P.code s.eip = none)
    (hf : Frame lo hi m (ret :: (vs ++ ws)) s)
    (hext : ∀ t, P.external s.eip s t → Returns vs.length hi s t)
    (h : ∀ t us, P.external s.eip s t → us.length = vs.length → t.eip = ret → t.seg = s.seg →
      Frame lo hi t.mem (us ++ ws) t → Leads P Q t) : Leads P Q s := by
  refine .external hnone fun t ht => ?_
  obtain ⟨us, hus, hframe⟩ := hf.returns (hext t ht)
  exact h t us ht hus ((hext t ht).eip.trans hf.top) (hext t ht).seg hframe

end Rules

/-! ### Gates and `iret` -/

section Gates

variable {P : Platform} {g : Gate} {lo hi : ℕ} {m : Memory} {ws : List Word}
  {s : CpuState} {ret cs fl esp ss : Word}

theorem enter_eip : (s.enter P g ret).eip = g.offset := by
  unfold CpuState.enter
  split_ifs <;> rfl

theorem isGate_of_decodeGate {d : BitVec 64} (h : decodeGate d = some g) :
    isGate d ∧ gateDpl d = g.dpl := by
  rw [decodeGate] at h
  split_ifs at h with hgate
  obtain rfl := Option.some.inj h
  exact ⟨hgate.2, rfl⟩

/-- A software interrupt through a gate that is open to the program. -/
theorem softInt_open {n : BitVec 8} (next : Word) (h : decodeGate (P.idt n) = some g)
    (hdpl : s.cpl ≤ g.dpl) : s.softInt P n next = some (s.enter P g next) := by
  obtain ⟨hgate, hd⟩ := isGate_of_decodeGate h
  rw [CpuState.softInt, if_neg (by rw [hd]; exact not_or.2 ⟨not_not.2 hgate, not_lt.2 hdpl⟩), h]

/-- A software interrupt that the program may not raise. -/
theorem softInt_shut {n : BitVec 8} {next : Word}
    (h : ∀ g, decodeGate (P.idt n) = some g → g.dpl < s.cpl)
    (hnone : decodeGate (P.idt n) = none → ¬isGate (P.idt n)) :
    s.softInt P n next = s.deliver P 13 (some (BitVec.ofNat 32 (8 * n.toNat + 2))) s.eip := by
  rw [CpuState.softInt, if_pos]
  cases hdecode : decodeGate (P.idt n) with
  | none => exact Or.inl (hnone hdecode)
  | some g => exact Or.inr ((isGate_of_decodeGate hdecode).2 ▸ h g hdecode)

theorem switchStack_reg {q : Reg} (hq : q ≠ .esp) : (s.switchStack P).reg q = s.reg q :=
  Function.update_of_ne hq _ _

theorem switchStack_seg {q : Seg} (hq : q ≠ .ss) : (s.switchStack P).seg q = s.seg q :=
  Function.update_of_ne hq _ _

theorem enter_reg {q : Reg} (hq : q ≠ .esp) : (s.enter P g ret).reg q = s.reg q := by
  unfold CpuState.enter
  split_ifs <;>
    simp only [CpuState.clearInterrupts, CpuState.pushReturn, CpuState.setFlags_reg,
      CpuState.goto_reg, CpuState.setSeg_reg, CpuState.push_reg, Function.update_of_ne hq,
      switchStack_reg hq]

theorem enter_cs : (s.enter P g ret).seg .cs = g.selector := by
  unfold CpuState.enter
  split_ifs <;>
    simp only [CpuState.clearInterrupts, CpuState.setFlags_seg, CpuState.goto_seg,
      CpuState.setSeg_seg, Function.update_self]

theorem enter_seg {q : Seg} (hcs : q ≠ .cs) (hss : q ≠ .ss) :
    (s.enter P g ret).seg q = s.seg q := by
  unfold CpuState.enter
  split_ifs <;>
    simp only [CpuState.clearInterrupts, CpuState.pushReturn, CpuState.setFlags_seg,
      CpuState.goto_seg, CpuState.setSeg_seg, CpuState.push_seg, Function.update_of_ne hcs,
      switchStack_seg hss]

theorem enter_eflags : (s.enter P g ret).eflags =
    if g.trap then s.eflags else s.eflags &&& ~~~0x200#32 := by
  unfold CpuState.enter
  split_ifs <;> rfl

/-- An entry from a lower privilege: the stack of the kernel holds what `iret` needs. -/
theorem enter_lower (h : g.selector.toNat % 4 < s.cpl) (hroom : lo + 20 ≤ P.esp0.toNat) :
    Frame lo P.esp0.toNat s.mem [ret, (s.seg .cs).setWidth 32, s.eflags, s.reg .esp,
      (s.seg .ss).setWidth 32] (s.enter P g ret) := by
  have hesp : ((s.switchStack P).reg .esp).toNat = P.esp0.toNat := by
    simp only [CpuState.switchStack, Function.update_self]
  have h0 : Frame lo P.esp0.toNat s.mem [] (s.switchStack P) := Frame.empty lo hesp
  have hcs : (s.switchStack P).seg .cs = s.seg .cs := switchStack_seg (by decide)
  have h5 := ((((h0.push (by simp; omega) ((s.seg .ss).setWidth 32)).push (by simp; omega)
    (s.reg .esp)).push (by simp; omega) s.eflags).push (by simp; omega)
    ((s.seg .cs).setWidth 32)).push (by simp; omega) ret
  rw [← hcs] at h5 ⊢
  unfold CpuState.enter
  rw [if_pos h]
  split_ifs
  · exact h5.congr rfl rfl
  · exact h5.congr rfl rfl

/-- An entry from the same privilege. -/
theorem enter_same (h : ¬g.selector.toNat % 4 < s.cpl) (hroom : lo + 12 ≤ (s.reg .esp).toNat) :
    Frame lo (s.reg .esp).toNat s.mem [ret, (s.seg .cs).setWidth 32, s.eflags]
      (s.enter P g ret) := by
  have h3 := (((Frame.empty (s := s) lo rfl).push (by simp; omega) s.eflags).push
    (by simp; omega) ((s.seg .cs).setWidth 32)).push (by simp; omega) ret
  unfold CpuState.enter
  rw [if_neg h]
  split_ifs
  · exact h3.congr rfl rfl
  · exact h3.congr rfl rfl

/-- Return to a lower privilege. -/
theorem iret_lower (hf : Frame lo hi m (ret :: cs :: fl :: esp :: ss :: ws) s)
    (h : s.cpl < (cs.setWidth 16 : BitVec 16).toNat % 4) :
    s.iret = ⟨Function.update s.reg .esp esp,
      Function.update (Function.update s.seg .cs (cs.setWidth 16)) .ss (ss.setWidth 16), ret, fl,
      s.mem⟩ := by
  have h1 := hf.top
  have h2 := hf.drop.top
  have h3 := hf.drop.drop.top
  have h4 := hf.drop.drop.drop.top
  have h5 := hf.drop.drop.drop.drop.top
  obtain ⟨t, ht⟩ : ∃ t, ((s.drop.drop.drop.setSeg .cs (s.drop.top.setWidth 16)).setFlags
    s.drop.drop.top).goto s.top = t := ⟨_, rfl⟩
  have hcpl : s.cpl < t.cpl := by
    rw [← ht]
    simpa only [CpuState.cpl, CpuState.goto_seg, CpuState.setFlags_seg, CpuState.setSeg_seg,
      Function.update_self, h2] using h
  have htop : t.top = esp := by
    rw [← ht, ← h4]
    rfl
  have hnext : t.drop.top = ss := by
    rw [← ht, ← h5]
    rfl
  unfold CpuState.iret
  rw [ht, if_pos hcpl, htop, hnext, ← ht, h1, h2, h3]
  simp only [CpuState.set, CpuState.setSeg, CpuState.setFlags, CpuState.goto, CpuState.drop,
    Function.update_idem]

/-- Return to the same privilege. -/
theorem iret_same (hf : Frame lo hi m (ret :: cs :: fl :: ws) s)
    (h : ¬s.cpl < (cs.setWidth 16 : BitVec 16).toNat % 4) :
    s.iret = ⟨Function.update s.reg .esp (s.reg .esp + 12),
      Function.update s.seg .cs (cs.setWidth 16), ret, fl, s.mem⟩ := by
  have h1 := hf.top
  have h2 := hf.drop.top
  have h3 := hf.drop.drop.top
  obtain ⟨t, ht⟩ : ∃ t, ((s.drop.drop.drop.setSeg .cs (s.drop.top.setWidth 16)).setFlags
    s.drop.drop.top).goto s.top = t := ⟨_, rfl⟩
  have hcpl : ¬s.cpl < t.cpl := by
    rw [← ht]
    simpa only [CpuState.cpl, CpuState.goto_seg, CpuState.setFlags_seg, CpuState.setSeg_seg,
      Function.update_self, h2] using h
  unfold CpuState.iret
  rw [ht, if_neg hcpl, ← ht, h1, h2, h3]
  simp only [CpuState.set, CpuState.setSeg, CpuState.setFlags, CpuState.goto, CpuState.drop,
    Function.update_idem, Function.update_self]
  have hesp : s.reg .esp + 4 + 4 + 4 = s.reg .esp + 12 := by bv_omega
  rw [hesp]

end Gates

end Processor
