import LinuxIsLove.Foundation.Processor

/-!
# `isr_asm.S`, `idt_set.c`, `isr.c` and `ece391syscall.S`: the way into the kernel and back

The entry code as lists of instructions.  `Linkage` has the addresses that the linker gives to the
labels.  The interrupt table is an array of `idt_desc_t` with the bit fields of the source, and
`isrsInstall` fills it in.
-/

namespace LinuxIsLove

open Bytes Processor

def kernelCS : BitVec 16 := 0x10
def kernelDS : BitVec 16 := 0x18
def userCS : BitVec 16 := 0x23
def userDS : BitVec 16 := 0x2B

/-- The addresses of labels, tables and functions of C. -/
structure Linkage where
  handle : Word
  handleSyscall : Word
  handleSyscallIret : Word
  handleSyscallError : Word
  isr : ℕ → Word
  irq : ℕ → Word
  sysTable : Word
  irqTable : Word
  faultHandler : Word
  /-- `halt`, `execute`, `read`, `write`, `open`, `close`, `getargs`, `vidmap`, `set_handler` and
  `sigreturn` -/
  sysCall : ℕ → Word

/-! ### `isr_asm.S` -/

/-- `handle`, up to and with the call of `fault_handler`. -/
def handleEntry (L : Linkage) : List Instr :=
  [.pusha, .pushSeg .ds, .pushSeg .es, .pushSeg .fs, .pushSeg .gs, .movw 0x10 .eax,
    .movSeg .eax .ds, .movSeg .eax .es, .movSeg .eax .fs, .movSeg .eax .gs, .movl .esp .eax,
    .pushl .eax, .call L.faultHandler]

def handle (L : Linkage) : List Instr :=
  handleEntry L ++
    [.popl .eax, .popSeg .gs, .popSeg .fs, .popSeg .es, .popSeg .ds, .popa, .addl 8 .esp, .iret]

def handleSyscall (L : Linkage) : List Instr :=
  .cmpl 1 .eax :: .jb L.handleSyscallError :: .cmpl 10 .eax :: .ja L.handleSyscallError ::
    -- save regs
    ([.ebx, .ecx, .edx, .esi, .edi].map .pushl ++
    -- push args
    ([.edx, .ecx, .ebx].map .pushl ++
    .decl .eax :: .callIndexed L.sysTable .eax ::
    -- pop args
    ([.ebx, .ecx, .edx].map .popl ++
    -- restore regs
    ([.edi, .esi, .edx, .ecx, .ebx].map .popl ++ [.iret]))))

def handleSyscallIret : List Instr := [.iret]

def handleSyscallError (L : Linkage) : List Instr :=
  [.movImm (-1) .eax, .jmp L.handleSyscallIret]

/-- The exceptions for which the processor pushes an error code. -/
def hasErrorCode (v : ℕ) : Prop := v ∈ [8, 10, 11, 12, 13, 14, 17]

instance (v : ℕ) : Decidable (hasErrorCode v) := inferInstanceAs (Decidable (v ∈ _))

/-- `isr0` to `isr31`. -/
def isrStub (L : Linkage) (v : ℕ) : List Instr :=
  .cli :: ((if hasErrorCode v then [] else [.pushImm 0]) ++
    [.pushImm (BitVec.ofNat 32 v), .jmp L.handle])

/-- `irq0` to `irq15`. -/
def irqStub (L : Linkage) (n : ℕ) : List Instr :=
  [.pusha, .callAt (L.irqTable + BitVec.ofNat 32 (4 * n)), .popa, .iret]

/-! ### `ece391syscall.S` -/

/-- `DO_CALL(name,number)` -/
def doCall (number : ℕ) : List Instr :=
  [.pushl .ebx, .movImm (BitVec.ofNat 32 number) .eax, .load 8 .esp .ebx, .load 12 .esp .ecx,
    .load 16 .esp .edx, .int 0x80, .popl .ebx, .ret]

/-! ### `idt_set.c` -/

/-- An interrupt descriptor, as `x86_desc.h` lays it out. -/
structure IdtDesc where
  offset_15_00 : BitVec 16
  segSelector : BitVec 16
  reserved4 : BitVec 8
  reserved3 : BitVec 1
  reserved2 : BitVec 1
  reserved1 : BitVec 1
  size : BitVec 1
  reserved0 : BitVec 1
  dpl : BitVec 2
  present : BitVec 1
  offset_31_16 : BitVec 16

def IdtDesc.bits (d : IdtDesc) : BitVec 64 :=
  d.offset_31_16 ++ d.present ++ d.dpl ++ d.reserved0 ++ d.size ++ d.reserved1 ++ d.reserved2 ++
    d.reserved3 ++ d.reserved4 ++ d.segSelector ++ d.offset_15_00

abbrev Idt := ℕ → IdtDesc

/-- The table in the image of the kernel. -/
def emptyIdt : Idt := fun _ => ⟨0, 0, 0, 0, 0, 0, 0, 0, 0, 0, 0⟩

/-- `SET_IDT_ENTRY` -/
def setIdtEntry (str : IdtDesc) (handler : Word) : IdtDesc :=
  { str with
    offset_31_16 := ((handler &&& 0xFFFF0000) >>> 16).setWidth 16
    offset_15_00 := (handler &&& 0xFFFF).setWidth 16 }

/-- The assignments that the functions have in common. -/
def setGate (reserved3 : BitVec 1) (dpl : BitVec 2) (idt : Idt) (n : ℕ) (addr : Word) : Idt :=
  Function.update idt n
    { setIdtEntry (idt n) addr with
      segSelector := kernelCS
      reserved0 := 0
      reserved1 := 1
      reserved2 := 1
      reserved3 := reserved3
      size := 1
      dpl := dpl
      present := 1 }

def setIntGate : Idt → ℕ → Word → Idt := setGate 0 0
def setSysGate : Idt → ℕ → Word → Idt := setGate 1 3
def setSysIntGate : Idt → ℕ → Word → Idt := setGate 1 3
def setTrapGate : Idt → ℕ → Word → Idt := setGate 0 0

/-! ### `isr.c` -/

/-- The gates of the exceptions. -/
def isrGates : List (ℕ × (Idt → ℕ → Word → Idt)) :=
  [(0, setTrapGate), (1, setTrapGate), (2, setIntGate), (3, setSysIntGate), (4, setSysGate),
    (5, setSysGate), (6, setTrapGate), (7, setTrapGate), (8, setTrapGate), (9, setTrapGate),
    (10, setTrapGate), (11, setTrapGate), (12, setTrapGate), (13, setTrapGate), (14, setIntGate),
    (15, setTrapGate), (16, setTrapGate), (17, setTrapGate), (18, setTrapGate), (19, setTrapGate),
    (20, setTrapGate), (21, setTrapGate), (22, setTrapGate), (23, setTrapGate), (24, setTrapGate),
    (25, setTrapGate), (26, setTrapGate), (27, setTrapGate), (28, setTrapGate), (29, setTrapGate),
    (30, setTrapGate), (31, setTrapGate)]

def isrsInstall (L : Linkage) (idt : Idt) : Idt :=
  let idt := isrGates.foldl (fun idt x => x.2 idt x.1 (L.isr x.1)) idt
  let idt := setSysGate idt 0x80 L.handleSyscall
  (List.range 16).foldl (fun idt i => setIntGate idt (32 + i) (L.irq i)) idt

/-- `struct regs` -/
structure FaultRegs where
  gs : Word
  fs : Word
  es : Word
  ds : Word
  edi : Word
  esi : Word
  ebp : Word
  esp : Word
  ebx : Word
  edx : Word
  ecx : Word
  eax : Word
  intNo : Word
  errCode : Word
  eip : Word
  cs : Word
  eflags : Word
  useresp : Word
  ss : Word

/-- The structure that a pointer stands for. -/
def faultRegsAt (m : Memory) (r : ℕ) : FaultRegs :=
  let w := fun i => wordAt m (r + 4 * i)
  ⟨w 0, w 1, w 2, w 3, w 4, w 5, w 6, w 7, w 8, w 9, w 10, w 11, w 12, w 13, w 14, w 15, w 16,
    w 17, w 18⟩

end LinuxIsLove
