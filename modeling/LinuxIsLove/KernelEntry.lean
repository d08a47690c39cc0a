import LinuxIsLove.Source.Linkage

/-!
# Entering and leaving the kernel

What the processor makes of the interrupt table, and what the entry code does to a program that
makes a system call, causes an exception or is interrupted by a device.  The functions of C are
known only by what they leave alone on the stack.
-/

namespace LinuxIsLove

open Bytes Processor

/-! ### The interrupt table -/

section Gates

variable {L : Linkage} {idt : Idt} {n v : ℕ} {addr : Word}

/-- The two halves of an address. -/
theorem setIdtEntry_offset (d : IdtDesc) (addr : Word) :
    (setIdtEntry d addr).offset_31_16 ++ (setIdtEntry d addr).offset_15_00 = addr := by
  have hhigh : ∀ j < 16, (0xFFFF0000#32).getLsbD (16 + j) = true := by decide
  have hlow : ∀ j < 16, (0xFFFF#32).getLsbD j = true := by decide
  apply BitVec.eq_of_getLsbD_eq
  intro i hi
  rw [BitVec.getLsbD_append]
  show (if i < 16 then ((addr &&& 0xFFFF#32).setWidth 16).getLsbD i
    else (((addr &&& 0xFFFF0000#32) >>> 16).setWidth 16).getLsbD (i - 16)) = addr.getLsbD i
  by_cases h : i < 16
  · rw [if_pos h, BitVec.getLsbD_setWidth, BitVec.getLsbD_and, hlow i h, decide_eq_true h,
      Bool.and_true, Bool.true_and]
  · have hi' : i - 16 < 16 := by omega
    rw [if_neg h, BitVec.getLsbD_setWidth, BitVec.getLsbD_ushiftRight, BitVec.getLsbD_and,
      hhigh _ hi', decide_eq_true hi', Bool.and_true, Bool.true_and,
      Nat.add_sub_cancel' (not_lt.1 h)]

/-- The bits that the processor reads, as fields of the source. -/
theorem IdtDesc.bits_layout (d : IdtDesc) :
    d.bits.extractLsb' 0 16 = d.offset_15_00 ∧ d.bits.extractLsb' 16 16 = d.segSelector ∧
      d.bits.extractLsb' 41 3 = d.size ++ d.reserved1 ++ d.reserved2 ∧
      d.bits.extractLsb' 45 2 = d.dpl ∧ d.bits.extractLsb' 48 16 = d.offset_31_16 ∧
      d.bits.getLsbD 40 = d.reserved3.getLsbD 0 ∧ d.bits.getLsbD 44 = d.reserved0.getLsbD 0 ∧
      d.bits.getLsbD 47 = d.present.getLsbD 0 := by
  refine ⟨?_, ?_, ?_, ?_, ?_, ?_, ?_, ?_⟩
  all_goals try (apply BitVec.eq_of_getLsbD_eq; intro i hi)
  all_goals simp only [IdtDesc.bits, BitVec.getLsbD_extractLsb', BitVec.getLsbD_append]
  all_goals grind

/-- What the processor makes of an entry that is filled in. -/
theorem decodeGate_setGate (r3 : BitVec 1) (dpl : BitVec 2) :
    decodeGate (setGate r3 dpl idt n addr n).bits =
      some ⟨addr, kernelCS, dpl.toNat, r3.getLsbD 0⟩ := by
  obtain ⟨d, hd⟩ : ∃ d, setGate r3 dpl idt n addr n = d := ⟨_, rfl⟩
  have hself := hd
  rw [setGate, Function.update_self] at hself
  have hoffset := setIdtEntry_offset (idt n) addr
  obtain ⟨hlow, hselector, htype, hdpl, hhigh, h3, h0, hpresent⟩ := d.bits_layout
  have hgate : isGate d.bits := by
    refine ⟨?_, ?_⟩
    · rw [h0, ← hself]
      exact (by decide : (0#1).getLsbD 0 = false)
    · rw [htype, ← hself]
      exact (by decide : 1#1 ++ 1#1 ++ 1#1 = 7#3)
  have hthere : d.bits.getLsbD 47 = true := by
    rw [hpresent, ← hself]
    exact (by decide : (1#1).getLsbD 0 = true)
  rw [hd, decodeGate, if_pos ⟨hthere, hgate⟩, hlow, hselector, gateDpl, hdpl, hhigh, h3, ← hself]
  dsimp only
  rw [hoffset]

theorem setGate_of_ne (r3 : BitVec 1) (dpl : BitVec 2) (h : v ≠ n) :
    setGate r3 dpl idt n addr v = idt v := Function.update_of_ne h _ _

theorem not_isGate_empty : ¬isGate (emptyIdt v).bits := by
  obtain ⟨-, -, htype, -⟩ := (emptyIdt v).bits_layout
  rintro ⟨-, h⟩
  have hzero : (0#1 ++ 0#1 ++ 0#1) = 7#3 := htype.symm.trans h
  exact absurd hzero (by decide : ¬0#1 ++ 0#1 ++ 0#1 = 7#3)

theorem decodeGate_empty : decodeGate (emptyIdt v).bits = none :=
  if_neg fun h => not_isGate_empty h.2

/-- A row of gates, one after the other. -/
theorem decodeGate_row (idt : Idt) (r3 : ℕ → BitVec 1) (dpl : ℕ → BitVec 2) (a : ℕ → Word)
    (first k : ℕ) :
    let row := (List.range k).foldl (fun idt i => setGate (r3 i) (dpl i) idt (first + i) (a i)) idt
    (∀ i < k, decodeGate (row (first + i)).bits =
        some ⟨a i, kernelCS, (dpl i).toNat, (r3 i).getLsbD 0⟩) ∧
      ∀ v, v < first ∨ first + k ≤ v → row v = idt v := by
  induction k with
  | zero => exact ⟨fun i hi => absurd hi (Nat.not_lt_zero i), fun _ _ => rfl⟩
  | succ k ih =>
    obtain ⟨hrow, hrest⟩ := ih
    simp only [List.range_succ, List.foldl_append, List.foldl_cons, List.foldl_nil]
    refine ⟨fun i hi => ?_, fun v hv => ?_⟩
    · by_cases hik : i = k
      · subst hik
        exact decodeGate_setGate _ _
      · rw [setGate_of_ne _ _ (by omega)]
        exact hrow i (by omega)
    · rw [setGate_of_ne _ _ (by omega)]
      exact hrest v (by omega)

/-- The vectors that a program may raise itself. -/
def openVectors : List ℕ := [3, 4, 5, 0x80]

/-- Where the processor goes for a vector. -/
def vectorEntry (L : Linkage) (v : ℕ) : Option Word :=
  if v < 32 then some (L.isr v)
  else if v < 48 then some (L.irq (v - 32))
  else if v = 0x80 then some L.handleSyscall
  else none

set_option maxRecDepth 4000 in
theorem isrGates_eq : isrGates = (List.range 32).map fun i =>
    (0 + i, setGate (if i ∈ openVectors then 1 else 0) (if i ∈ openVectors then 3 else 0)) := rfl

/-- The table as two rows of gates and that of the system calls. -/
theorem isrsInstall_eq (L : Linkage) (idt : Idt) :
    isrsInstall L idt = (List.range 16).foldl (fun idt i => setGate 0 0 idt (32 + i) (L.irq i))
      (setGate 1 3 ((List.range 32).foldl (fun idt i => setGate (if i ∈ openVectors then 1 else 0)
        (if i ∈ openVectors then 3 else 0) idt (0 + i) (L.isr i)) idt) 0x80 L.handleSyscall) := by
  rw [isrsInstall, isrGates_eq, List.foldl_map]
  simp only [Nat.zero_add]
  rfl

/-- The vectors without a stub. -/
theorem isrsInstall_of_none {L : Linkage} (h : vectorEntry L v = none) :
    isrsInstall L idt v = idt v := by
  rw [vectorEntry] at h
  split_ifs at h with h32 h48 h80
  rw [isrsInstall_eq, (decodeGate_row _ _ _ _ 32 16).2 v (Or.inr (by omega)), setGate_of_ne _ _ h80,
    (decodeGate_row _ _ _ _ 0 32).2 v (Or.inr (by omega))]

/-- **The interrupt table.**  An entry leads to its stub, and the vectors that are open to programs
are those whose gates leave the interrupts as they are. -/
theorem decodeGate_isrsInstall (L : Linkage) (v : ℕ) :
    decodeGate (isrsInstall L emptyIdt v).bits = (vectorEntry L v).map fun a =>
      ⟨a, kernelCS, if v ∈ openVectors then 3 else 0, v ∈ openVectors⟩ := by
  cases hnone : vectorEntry L v with
  | none => rw [isrsInstall_of_none hnone, decodeGate_empty, Option.map_none]
  | some a =>
    rw [isrsInstall_eq, Option.map_some]
    obtain ⟨t, ht⟩ : ∃ t, (List.range 32).foldl (fun idt i => setGate
        (if i ∈ openVectors then 1 else 0) (if i ∈ openVectors then 3 else 0) idt (0 + i)
        (L.isr i)) emptyIdt = t := ⟨_, rfl⟩
    obtain ⟨hisr, -⟩ := decodeGate_row emptyIdt (fun i => if i ∈ openVectors then 1 else 0)
      (fun i => if i ∈ openVectors then 3 else 0) L.isr 0 32
    obtain ⟨hirq, hirqRest⟩ := decodeGate_row (setGate 1 3 t 0x80 L.handleSyscall)
      (fun _ => 0) (fun _ => 0) L.irq 32 16
    simp only [ht] at hisr
    rw [ht]
    have hentry := hnone
    rw [vectorEntry] at hentry
    split_ifs at hentry with h32 h48 h80
    · obtain rfl := Option.some.inj hentry
      rw [hirqRest v (Or.inl h32), setGate_of_ne _ _ (by omega)]
      have hv := hisr v h32
      rw [Nat.zero_add] at hv
      rw [hv]
      by_cases hopen : v ∈ openVectors
      · simp only [if_pos hopen, decide_eq_true hopen]
        rfl
      · simp only [if_neg hopen, decide_eq_false hopen]
        rfl
    · obtain rfl := Option.some.inj hentry
      have hshut : v ∉ openVectors := by
        intro hmem
        simp only [openVectors, List.mem_cons, List.not_mem_nil, or_false] at hmem
        omega
      have hv := hirq (v - 32) (by omega)
      rw [Nat.add_sub_cancel' (by omega)] at hv
      rw [hv, if_neg hshut, decide_eq_false hshut]
      rfl
    · obtain rfl := Option.some.inj hentry
      subst h80
      rw [hirqRest 0x80 (Or.inr (by omega)), decodeGate_setGate]
      rfl

end Gates

/-! ### System calls -/

/-- The kernel has been linked and has set up its interrupt table. -/
structure Linked (P : Platform) (L : Linkage) : Prop where
  handle : Placed P L.handle (handle L)
  handleSyscall : Placed P L.handleSyscall (handleSyscall L)
  handleSyscallIret : Placed P L.handleSyscallIret handleSyscallIret
  handleSyscallError : Placed P L.handleSyscallError (handleSyscallError L)
  isr : ∀ v < 32, Placed P (L.isr v) (isrStub L v)
  irq : ∀ n < 16, Placed P (L.irq n) (irqStub L n)
  idt : ∀ v, P.idt v = (isrsInstall L emptyIdt v.toNat).bits

/-- A function of C has been called with these arguments. -/
structure CalledWith (t : CpuState) (a : Word) (args : List Word) : Prop where
  eip : t.eip = a
  args : ∀ i (h : i < args.length), wordAt t.mem ((t.reg .esp).toNat + 4 * (i + 1)) = args[i]

section SystemCalls

variable {P : Platform} {L : Linkage} {s : CpuState} {next : Word} {lo : ℕ}

theorem calledWith_of_frame (args : List Word) {t : CpuState} {a ret : Word} {ws : List Word}
    {hi : ℕ} {m : Memory} (heip : t.eip = a) (hf : Frame lo hi m (ret :: (args ++ ws)) t) :
    CalledWith t a args := by
  refine ⟨heip, fun i h => ?_⟩
  have hword := hf.words (i + 1) (by simp only [List.length_cons, List.length_append]; omega)
  rwa [List.getElem_cons_succ, List.getElem_append_left h] at hword

/-- What the functions behind the table leave alone. -/
def SysCallsReturn (P : Platform) (L : Linkage) : Prop :=
  ∀ i < 10, P.code (L.sysCall i) = none ∧ ∀ t u, P.external (L.sysCall i) t u →
    Returns 3 P.esp0.toNat t u ∧ u.reg .ebp = t.reg .ebp

/-- The table of the system calls is in memory, below the stack of the kernel. -/
structure SysTableAt (P : Platform) (L : Linkage) (lo : ℕ) (m : Memory) : Prop where
  words : ∀ i < 10, wordAt m (L.sysTable.toNat + 4 * i) = L.sysCall i
  below : L.sysTable.toNat + 40 ≤ lo
  stack : lo ≤ P.esp0.toNat

/-! The witnesses run on a small platform: a program that calls `close` and raises an exception, the
function `close` for a descriptor below 2, and `irq_handler_default`. -/

def smallLinkage : Linkage where
  handle := 0x1000
  handleSyscall := 0x1100
  handleSyscallIret := 0x1200
  handleSyscallError := 0x1210
  isr v := 0x2000 + 16 * BitVec.ofNat 32 v
  irq n := 0x3000 + 16 * BitVec.ofNat 32 n
  sysTable := 0x4000
  irqTable := 0x4100
  faultHandler := 0x5000
  sysCall i := 0x6000 + BitVec.ofNat 32 i

def smallImage : List (Word × List Instr) :=
  let L := smallLinkage
  [(L.handle, handle L), (L.handleSyscall, handleSyscall L),
    (L.handleSyscallIret, handleSyscallIret), (L.handleSyscallError, handleSyscallError L),
    (0x8048000, doCall 6), (0x8048100, [.int 0])] ++
    (List.range 32).map (fun v => (L.isr v, isrStub L v)) ++
    (List.range 16).map (fun n => (L.irq n, irqStub L n))

def smallPlatform : Platform where
  code a := smallImage.findSome? fun p => (p.2[(a - p.1).toNat]?).map fun i => (i, a + 1)
  idt v := (isrsInstall smallLinkage emptyIdt v.toNat).bits
  esp0 := 0x800000
  ss0 := kernelDS
  external a t u :=
    (a = smallLinkage.sysCall 5 ∧ (wordAt t.mem ((t.reg .esp).toNat + 4)).toInt < 2 ∧
      u = (t.drop.goto t.top).set .eax (-1)) ∨
    (a = 0x7000 ∧ u = t.drop.goto t.top)

theorem linked_small : Linked smallPlatform smallLinkage where
  handle := placed_of_code (by decide +kernel)
  handleSyscall := placed_of_code (by decide +kernel)
  handleSyscallIret := placed_of_code (by decide +kernel)
  handleSyscallError := placed_of_code (by decide +kernel)
  isr v hv := placed_of_code (by
    revert v
    decide +kernel)
  irq n hn := placed_of_code (by
    revert n
    decide +kernel)
  idt _ := rfl

theorem returns_small (n hi : ℕ) {a : Word} {t u : CpuState} (h : smallPlatform.external a t u) :
    Returns n hi t u ∧ u.reg .ebp = t.reg .ebp ∧ u.mem = t.mem := by
  obtain ⟨-, -, rfl⟩ | ⟨-, rfl⟩ := h
  · exact ⟨⟨rfl, rfl, rfl, fun _ _ _ => rfl⟩, rfl, rfl⟩
  · exact ⟨⟨rfl, rfl, rfl, fun _ _ _ => rfl⟩, rfl, rfl⟩

theorem sysCallsReturn_small : SysCallsReturn smallPlatform smallLinkage := fun i hi =>
  ⟨by revert i; decide +kernel, fun _ _ h => ⟨(returns_small 3 _ h).1, (returns_small 3 0 h).2.1⟩⟩

/-- The memory holds the two tables. -/
def smallMemory : Memory :=
  (List.range 16).foldl (fun m i => Processor.storeWord m (0x4100 + 4 * i) 0x7000)
    ((List.range 10).foldl (fun m i =>
      Processor.storeWord m (0x4000 + 4 * i) (smallLinkage.sysCall i)) fun _ => 0)

theorem sysTableAt_small : SysTableAt smallPlatform smallLinkage 0x7FE000 smallMemory where
  words := by decide +kernel
  below := by decide
  stack := by decide

/-- A program at an address, with a number in `eax`. -/
def smallUser (eip eax : Word) : CpuState where
  reg
    | .eax => eax
    | .esp => 0x83FFF00
    | _ => 0
  seg
    | .cs => userCS
    | _ => userDS
  eip := eip
  eflags := 0x202
  mem := smallMemory

/-- The machine after a call that returned `v` with the memory `m`. -/
def afterCall (s : CpuState) (next v : Word) (m : Memory) : CpuState :=
  { s with reg := Function.update s.reg .eax v, eip := next, mem := m }

theorem afterCall_reg (s : CpuState) (next v : Word) (m : Memory) :
    (afterCall s next v m).reg = Function.update s.reg .eax v := rfl

/-- The entry of the table that the stub reads. -/
theorem sysTable_entry {m m' : Memory} {n : ℕ} (h : SysTableAt P L lo m) (hn : n < 10)
    (hm : ∀ x, x < lo ∨ P.esp0.toNat ≤ x → m' x = m x) {i : Word} (hi : i = BitVec.ofNat 32 n) :
    wordAt m' (L.sysTable + 4 * i).toNat = L.sysCall n := by
  have hbelow := h.below
  have hstack := h.stack
  have haddr : (L.sysTable + 4 * i).toNat = L.sysTable.toNat + 4 * n := by
    rw [hi]
    bv_omega
  rw [haddr, ← h.words n hn]
  exact wordAt_congr fun j hj => hm _ (by omega)

/-- `int $0x80` takes a program to `handle_syscall`. -/
theorem softInt_syscall (hL : Linked P L) (next : Word) (huser : s.cpl = 3)
    (hroom : lo + 20 ≤ P.esp0.toNat) :
    ∃ t, s.softInt P 0x80 next = some t ∧ t.eip = L.handleSyscall ∧
      (∀ q, q ≠ .esp → t.reg q = s.reg q) ∧ t.cpl = 0 ∧
      (∀ q, q ≠ .cs → q ≠ .ss → t.seg q = s.seg q) ∧ t.eflags = s.eflags ∧
      Frame lo P.esp0.toNat s.mem [next, (s.seg .cs).setWidth 32, s.eflags, s.reg .esp,
        (s.seg .ss).setWidth 32] t := by
  have hgate : decodeGate (P.idt 0x80) = some ⟨L.handleSyscall, kernelCS, 3, true⟩ := by
    rw [hL.idt, decodeGate_isrsInstall]
    rfl
  refine ⟨s.enter P ⟨L.handleSyscall, kernelCS, 3, true⟩ next, ?_, enter_eip,
    fun q hq => enter_reg hq, ?_, fun q hcs hss => enter_seg hcs hss, ?_, enter_lower ?_ hroom⟩
  · exact softInt_open next hgate (by rw [huser])
  · have hcs : kernelCS.toNat % 4 = 0 := by decide
    rw [CpuState.cpl, enter_cs, hcs]
  · rw [enter_eflags]
    rfl
  · have hcs : kernelCS.toNat % 4 < 3 := by decide
    rwa [huser]

/-- A system call has been served: the function `a` was called in `t'` with the arguments and
returned in `u`, and the machine `v` is about to return to the program. -/
structure CallServed (P : Platform) (lo hi : ℕ) (m : Memory) (ws : List Word) (a : Word)
    (t t' u v : CpuState) : Prop where
  external : P.external a t' u
  called : CalledWith t' a [t.reg .ebx, t.reg .ecx, t.reg .edx]
  outside : ∀ x, x < lo ∨ hi ≤ x → t'.mem x = m x
  interrupts : interrupts t'.eflags = interrupts t.eflags
  seg : t'.seg = t.seg
  back : ∃ next, P.code v.eip = some (.iret, next)
  eax : v.reg .eax = u.reg .eax
  reg : ∀ q, q ≠ .eax → q ≠ .esp → v.reg q = t.reg q
  segBack : v.seg = t.seg
  mem : v.mem = u.mem
  frame : Frame lo hi u.mem ws v

/-- `handle_syscall` after the test of the number. -/
def serveSyscall (L : Linkage) : List Instr := (handleSyscall L).drop 4

/-- The test of the number. -/
theorem leads_numberTest (hL : Linked P L) {Q : CpuState → Prop} {t : CpuState}
    (heip : t.eip = L.handleSyscall)
    (h : ∀ t', t'.reg = t.reg → t'.seg = t.seg → t'.mem = t.mem →
      interrupts t'.eflags = interrupts t.eflags →
      (if 1 ≤ (t.reg .eax).toNat ∧ (t.reg .eax).toNat ≤ 10 then Placed P t'.eip (serveSyscall L)
        else t'.eip = L.handleSyscallError) → Leads P Q t') : Leads P Q t := by
  obtain ⟨n1, h1, n2, h2, n3, h3, n4, h4, hrest⟩ := heip ▸ hL.handleSyscall
  refine .cmpl_jb h1 h2 ?_
  have hone : (1 : Word).toNat = 1 := rfl
  have hten : (10 : Word).toNat = 10 := rfl
  rw [hone]
  by_cases hlow : (t.reg .eax).toNat < 1
  · rw [if_pos hlow]
    refine h _ rfl rfl rfl (interrupts_setStatus _ _) ?_
    rw [if_neg (by omega)]
    rfl
  rw [if_neg hlow]
  refine .cmpl_ja h3 h4 ?_
  rw [CpuState.goto_reg, CpuState.setFlags_reg, hten]
  by_cases hhigh : (t.reg .eax).toNat ≤ 10
  · rw [if_pos hhigh]
    refine h _ rfl rfl rfl ?_ ?_
    · simp only [CpuState.goto_eflags, CpuState.setFlags_eflags, interrupts_setStatus]
    · rw [if_pos ⟨by omega, hhigh⟩]
      exact hrest
  · rw [if_neg hhigh]
    refine h _ rfl rfl rfl ?_ ?_
    · simp only [CpuState.goto_eflags, CpuState.setFlags_eflags, interrupts_setStatus]
    · rw [if_neg (by omega)]
      rfl

/-- The part of the stub that calls the function. -/
theorem leads_serveSyscall (hC : SysCallsReturn P L) {Q : CpuState → Prop} {n : ℕ} (hn : n < 10)
    {ws : List Word} {m : Memory} {t : CpuState} (hplaced : Placed P t.eip (serveSyscall L))
    (heax : t.reg .eax = BitVec.ofNat 32 (n + 1)) (htable : SysTableAt P L lo m)
    (hroom : lo + 4 * (ws.length + 9) ≤ P.esp0.toNat) (hf : Frame lo P.esp0.toNat m ws t)
    (h : ∀ t' u v, CallServed P lo P.esp0.toNat m ws (L.sysCall n) t t' u v → Leads P Q v) :
    Leads P Q t := by
  -- the registers and the arguments on the stack
  refine .pushRegs [.ebx, .ecx, .edx, .esi, .edi] (by decide) hplaced hf (by simp; omega)
    fun t1 hplaced1 h1 hf1 => ?_
  refine .pushRegs [.edx, .ecx, .ebx] (by decide) hplaced1 hf1 (by simp; omega)
    fun t2 hplaced2 h2 hf2 => ?_
  have h12 := h1.trans h2
  simp only [List.map_cons, List.map_nil, List.reverse_cons, List.reverse_nil, List.nil_append,
    List.cons_append, h1.reg _ (show Reg.edx ≠ .esp by decide),
    h1.reg _ (show Reg.ecx ≠ .esp by decide), h1.reg _ (show Reg.ebx ≠ .esp by decide)] at hf2
  -- the call
  obtain ⟨n3, hdec, n4, hcall, hplaced4⟩ := hplaced2
  refine .decl hdec fun t3 heip3 hreg3 hseg3 hmem3 hfl3 => ?_
  have hf3 := hf2.congr (t := t3) (by rw [hreg3, Function.update_of_ne (by decide)]) hmem3
  have hindex : t3.reg .eax = BitVec.ofNat 32 n := by
    rw [hreg3, Function.update_self, h12.reg _ (by decide), heax]
    bv_omega
  have htarget := sysTable_entry htable hn hf3.outside hindex
  refine .push (heip3 ▸ hcall) rfl hf3 (by simp; omega) fun t' heip' h' hf' => ?_
  rw [htarget] at heip'
  have hreturn := (hC n hn).2
  have hcalled := calledWith_of_frame [t.reg .ebx, t.reg .ecx, t.reg .edx] heip' hf'
  refine .function [t.reg .ebx, t.reg .ecx, t.reg .edx]
    (by rw [heip', (hC n hn).1]) hf' (fun u hu => (hreturn t' u (heip' ▸ hu)).1)
    fun u us hu hus heipu hsegu hfu => ?_
  obtain ⟨b, c, d, rfl⟩ : ∃ b c d, us = [b, c, d] := List.length_eq_three.1 hus
  -- the way back
  refine .popRegs [.ebx, .ecx, .edx] [b, c, d] (by decide) rfl (heipu ▸ hplaced4) hfu
    fun u1 hplaced5 hreg1 hseg1 hmem1 _ hf5 => ?_
  refine .popRegs [.edi, .esi, .edx, .ecx, .ebx]
    [t.reg .edi, t.reg .esi, t.reg .edx, t.reg .ecx, t.reg .ebx] (by decide) rfl hplaced5 hf5
    fun v hplaced6 hreg2 hseg2 hmem2 _ hf6 => ?_
  obtain ⟨n7, hiret, -⟩ := hplaced6
  have hseg : t'.seg = t.seg := (h'.seg.trans hseg3).trans h12.seg
  have hebp : u.reg .ebp = t.reg .ebp := by
    rw [(hreturn t' u (heip' ▸ hu)).2, h'.reg _ (by decide), hreg3,
      Function.update_of_ne (by decide), h12.reg _ (by decide)]
  refine h t' u v ⟨heip' ▸ hu, hcalled, hf'.outside, ?_, hseg, ⟨n7, hiret⟩, ?_, fun q hax hsp => ?_,
    (hseg2.trans hseg1).trans (hsegu.trans hseg), hmem2.trans hmem1, hf6⟩
  · rw [h'.eflags, hfl3, h12.eflags]
  · rw [hreg2 _ (by decide)]
    exact hreg1 _ (by decide)
  · rw [hreg2 q hsp]
    cases q with
    | eax => exact absurd rfl hax
    | esp => exact absurd rfl hsp
    | ebp => exact (hreg1 .ebp (by decide)).trans hebp
    | ecx | edx | ebx | esi | edi => rfl

/-- `iret` takes a program back to where it was, with what has been left in `eax`. -/
theorem iret_afterCall {v : CpuState} {hi : ℕ} {m : Memory} (huser : s.cpl = 3) (hcpl : v.cpl = 0)
    (hreg : ∀ q, q ≠ .eax → q ≠ .esp → v.reg q = s.reg q)
    (hseg : ∀ q, q ≠ .cs → q ≠ .ss → v.seg q = s.seg q)
    (hf : Frame lo hi m [next, (s.seg .cs).setWidth 32, s.eflags, s.reg .esp,
      (s.seg .ss).setWidth 32] v) : v.iret = afterCall s next (v.reg .eax) v.mem := by
  have hwidth : ∀ g : BitVec 16, (g.setWidth 32).setWidth 16 = g := by
    intro g
    simp
  have hcs : (s.seg .cs).toNat % 4 = 3 := huser
  rw [iret_lower hf (by rw [hwidth, hcpl, hcs]; decide), hwidth, hwidth, afterCall]
  congr 1
  · funext q
    by_cases hsp : q = .esp
    · rw [hsp, Function.update_self, Function.update_of_ne (by decide)]
    by_cases hax : q = .eax
    · rw [hax, Function.update_self, Function.update_of_ne (by decide)]
    · rw [Function.update_of_ne hsp, Function.update_of_ne hax, hreg q hax hsp]
  · funext q
    by_cases hss : q = .ss
    · rw [hss, Function.update_self]
    by_cases hcs : q = .cs
    · rw [hcs, Function.update_of_ne (by decide), Function.update_self]
    · rw [Function.update_of_ne hss, Function.update_of_ne hcs, hseg q hcs hss]

/-- A software interrupt `0x80`, whatever the number. -/
theorem leads_softInt (hL : Linked P L) (hC : SysCallsReturn P L) {Q : CpuState → Prop}
    (hcode : P.code s.eip = some (.int 0x80, next)) (huser : s.cpl = 3)
    (hroom : lo + 56 ≤ P.esp0.toNat) (htable : SysTableAt P L lo s.mem)
    (hserve : ∀ n < 10, (s.reg .eax).toNat = n + 1 → ∀ t u, P.external (L.sysCall n) t u →
      CalledWith t (L.sysCall n) [s.reg .ebx, s.reg .ecx, s.reg .edx] →
      (∀ x, x < lo ∨ P.esp0.toNat ≤ x → t.mem x = s.mem x) → t.cpl = 0 →
      interrupts t.eflags = interrupts s.eflags →
      Leads P Q (afterCall s next (u.reg .eax) u.mem))
    (hbad : ¬(1 ≤ (s.reg .eax).toNat ∧ (s.reg .eax).toNat ≤ 10) → ∀ m,
      (∀ x, x < lo ∨ P.esp0.toNat ≤ x → m x = s.mem x) → Leads P Q (afterCall s next (-1) m)) :
    Leads P Q s := by
  obtain ⟨t, hsoft, heip, hreg, hcpl, hseg, hfl, hf⟩ :=
    softInt_syscall hL next huser (by omega : lo + 20 ≤ P.esp0.toNat)
  refine .step hcode hsoft (leads_numberTest hL heip fun t' hreg' hseg' hmem' hfl' hnext => ?_)
  have hf' := hf.congr (t := t') (by rw [hreg']) hmem'
  have hregs : ∀ q, q ≠ .esp → t'.reg q = s.reg q := fun q hq => by rw [hreg', hreg q hq]
  have hcpl' : t'.cpl = 0 := by rw [CpuState.cpl, hseg', ← CpuState.cpl, hcpl]
  rw [hreg .eax (by decide)] at hnext
  split_ifs at hnext with hnumber
  · obtain ⟨n, hn⟩ : ∃ n, (s.reg .eax).toNat = n + 1 := ⟨(s.reg .eax).toNat - 1, by omega⟩
    have heax : t'.reg .eax = BitVec.ofNat 32 (n + 1) := by
      rw [hregs _ (by decide)]
      bv_omega
    refine leads_serveSyscall hC (by omega : n < 10) hnext heax htable (by simp; omega) hf' ?_
    intro t2 u v hserved
    obtain ⟨n7, hiret⟩ := hserved.back
    have hcplv : v.cpl = 0 := by rw [CpuState.cpl, hserved.segBack, ← CpuState.cpl, hcpl']
    have hcalled := hserved.called
    rw [hregs .ebx (by decide), hregs .ecx (by decide), hregs .edx (by decide)] at hcalled
    have hcpl2 : t2.cpl = 0 := by rw [CpuState.cpl, hserved.seg, ← CpuState.cpl, hcpl']
    have hfl2 : interrupts t2.eflags = interrupts s.eflags := by
      rw [hserved.interrupts, hfl', hfl]
    refine .step hiret rfl ?_
    rw [iret_afterCall huser hcplv (fun q hax hsp => ?_) (fun q hcs hss => ?_) hserved.frame,
      hserved.eax, hserved.mem]
    · exact hserve n (by omega) hn t2 u hserved.external hcalled hserved.outside hcpl2 hfl2
    · rw [hserved.reg q hax hsp, hregs q hsp]
    · rw [hserved.segBack, hseg', hseg q hcs hss]
  · obtain ⟨n1, hmov, n2, hjmp, -⟩ := hL.handleSyscallError
    obtain ⟨n3, hiret, -⟩ := hL.handleSyscallIret
    refine .move (hnext ▸ hmov) rfl fun t1 heip1 hreg1 hseg1 _ hmem1 => ?_
    refine .move (heip1 ▸ hjmp) rfl fun v heipv hregv hsegv _ hmemv => ?_
    refine .step (heipv ▸ hiret) rfl ?_
    rw [hreg1] at hregv
    rw [hseg1] at hsegv
    rw [hmem1] at hmemv
    have hregs' : ∀ q, q ≠ .eax → v.reg q = t'.reg q := by
      intro q hax
      rw [hregv, Function.update_of_ne hax]
    have heax : v.reg .eax = -1 := by rw [hregv, Function.update_self]
    have hcplv : v.cpl = 0 := by rw [CpuState.cpl, hsegv, ← CpuState.cpl, hcpl']
    rw [iret_afterCall huser hcplv (fun q hax hsp => ?_) (fun q hcs hss => ?_)
      (hf'.congr (hregs' _ (by decide)) hmemv), heax, hmemv]
    · exact hbad hnumber _ hf'.outside
    · rw [hregs' q hax, hregs q hsp]
    · rw [hsegv, hseg', hseg q hcs hss]

/-- **A system call.**  The function for the number in `eax` is called with `ebx`, `ecx` and `edx`,
and the program goes on behind `int $0x80` with all its registers but the result in `eax`.  For any
other number no function is called and the result is -1. -/
theorem system_call (hL : Linked P L) (hC : SysCallsReturn P L)
    (hcode : P.code s.eip = some (.int 0x80, next)) (huser : s.cpl = 3)
    (hroom : lo + 56 ≤ P.esp0.toNat) (htable : SysTableAt P L lo s.mem) :
    Leads P (fun v =>
      if 1 ≤ (s.reg .eax).toNat ∧ (s.reg .eax).toNat ≤ 10 then
        ∃ t u, P.external (L.sysCall ((s.reg .eax).toNat - 1)) t u ∧
          CalledWith t (L.sysCall ((s.reg .eax).toNat - 1)) [s.reg .ebx, s.reg .ecx, s.reg .edx] ∧
          (∀ x, x < lo ∨ P.esp0.toNat ≤ x → t.mem x = s.mem x) ∧ t.cpl = 0 ∧
          interrupts t.eflags = interrupts s.eflags ∧ v = afterCall s next (u.reg .eax) u.mem
      else
        ∃ m, (∀ x, x < lo ∨ P.esp0.toNat ≤ x → m x = s.mem x) ∧ v = afterCall s next (-1) m) s := by
  refine leads_softInt hL hC hcode huser hroom htable ?_ ?_
  · intro n hn heax t u hext hcalled hout hcpl hfl
    refine .here ?_
    have hn' : (s.reg .eax).toNat - 1 = n := by omega
    rw [if_pos (by omega), hn']
    exact ⟨t, u, hext, hcalled, hout, hcpl, hfl, rfl⟩
  · intro hnumber m hout
    refine .here ?_
    rw [if_neg hnumber]
    exact ⟨m, hout, rfl⟩

theorem system_call_small : Leads smallPlatform (fun v => v.reg .eax = -1 ∧ v.eip = 0x8048006)
    (smallUser 0x8048005 6) := by
  have hcode : smallPlatform.code 0x8048005 = some (.int 0x80, 0x8048006) := by decide +kernel
  refine (system_call (s := smallUser 0x8048005 6) linked_small sysCallsReturn_small hcode
    (by decide) (by decide) sysTableAt_small).bind fun v hv => .here ?_
  rw [if_pos (by decide)] at hv
  obtain ⟨t, u, hext, -, -, -, -, rfl⟩ := hv
  obtain ⟨-, -, rfl⟩ | ⟨ha, -⟩ := hext
  · exact ⟨rfl, rfl⟩
  · exact absurd ha (by decide)

/-- From the call of a wrapper to its `int $0x80`. -/
theorem leads_doCallEntry {Q : CpuState → Prop} {e n : ℕ} (hn : n < 10)
    (he : (s.reg .esp).toNat = e) (hplaced : Placed P s.eip (doCall (n + 1))) (hbelow : 4 ≤ e)
    (habove : e + 16 < 2 ^ 32)
    (h : ∀ t, Placed P t.eip [.int 0x80, .popl .ebx, .ret] → (t.reg .eax).toNat = n + 1 →
      [t.reg .ebx, t.reg .ecx, t.reg .edx] =
        ((List.range 3).map fun i => wordAt s.mem (e + 4 * (i + 1))) →
      (∀ q ∈ [Reg.ebp, .esi, .edi], t.reg q = s.reg q) → t.seg = s.seg → t.eflags = s.eflags →
      Frame (e - 4) (e + 16) s.mem [s.reg .ebx, s.top, wordAt s.mem (e + 4), wordAt s.mem (e + 8),
        wordAt s.mem (e + 12)] t → Leads P Q t) :
    Leads P Q s := by
  obtain ⟨n1, hpush, n2, hmov, n3, hload1, n4, hload2, n5, hload3, hrest⟩ := hplaced
  -- the stack of the program
  have hf : Frame (e - 4) (e + 16) s.mem [s.top, wordAt s.mem (e + 4), wordAt s.mem (e + 8),
      wordAt s.mem (e + 12)] s := by
    refine ⟨by rw [he]; rfl, habove, fun i hi => ?_, fun _ _ => rfl⟩
    rw [he]
    have hi4 : i < 4 := hi
    interval_cases i
    · show wordAt s.mem (e + 4 * 0) = s.top
      rw [CpuState.top, he]
      rfl
    all_goals rfl
  refine .push hpush rfl hf (by simp; omega) fun t1 heip1 h1 hf1 => ?_
  -- the registers for the call
  refine .move (heip1 ▸ hmov) rfl fun t2 heip2 hreg2 hseg2 hfl2 hmem2 => ?_
  have hf2 := hf1.congr (t := t2) (by rw [hreg2, Function.update_of_ne (by decide)]) hmem2
  refine .move (heip2 ▸ hload1) rfl fun t3 heip3 hreg3 hseg3 hfl3 hmem3 => ?_
  rw [hf2.load (i := 2) (by simp) rfl] at hreg3
  have hf3 := hf2.congr (t := t3) (by rw [hreg3, Function.update_of_ne (by decide)]) hmem3
  refine .move (heip3 ▸ hload2) rfl fun t4 heip4 hreg4 hseg4 hfl4 hmem4 => ?_
  rw [hf3.load (i := 3) (by simp) rfl] at hreg4
  have hf4 := hf3.congr (t := t4) (by rw [hreg4, Function.update_of_ne (by decide)]) hmem4
  refine .move (heip4 ▸ hload3) rfl fun t5 heip5 hreg5 hseg5 hfl5 hmem5 => ?_
  rw [hf4.load (i := 4) (by simp) rfl] at hreg5
  have hf5 := hf4.congr (t := t5) (by rw [hreg5, Function.update_of_ne (by decide)]) hmem5
  refine h t5 (heip5 ▸ hrest) ?_ ?_ (fun q hq => ?_) ?_ ?_ hf5
  · rw [hreg5, hreg4, hreg3, hreg2]
    show (BitVec.ofNat 32 (n + 1)).toNat = n + 1
    rw [BitVec.toNat_ofNat]
    omega
  · rw [hreg5, hreg4, hreg3]
    rfl
  · simp only [List.mem_cons, List.not_mem_nil, or_false] at hq
    rw [hreg5, hreg4, hreg3, hreg2]
    rcases hq with rfl | rfl | rfl <;> exact h1.reg _ (by decide)
  · rw [hseg5, hseg4, hseg3, hseg2, h1.seg]
  · rw [hfl5, hfl4, hfl3, hfl2, h1.eflags]

/-- From behind the `int $0x80` of a wrapper back to its caller. -/
theorem leads_doCallBack {Q : CpuState → Prop} {hi : ℕ} {m : Memory} {b a : Word}
    (hplaced : Placed P s.eip [.popl .ebx, .ret]) (hf : Frame lo hi m [b, a] s)
    (h : ∀ t, t.eip = a → (t.reg .esp).toNat = hi →
      (∀ q, q ≠ .esp → t.reg q = Function.update s.reg .ebx b q) → t.seg = s.seg →
      t.eflags = s.eflags → t.mem = s.mem → Leads P Q t) :
    Leads P Q s := by
  refine .popRegs [.ebx] [b] (by decide) rfl hplaced hf
    fun t hplacedt hreg hseg hmem hfl hft => ?_
  obtain ⟨_, hret, -⟩ := hplacedt
  refine .step hret rfl (h _ hft.top ?_ (fun q hq => ?_) hseg hfl hmem)
  · have hdepth := hft.depth
    have hfits := hft.fits
    simp only [List.length_cons, List.length_nil] at hdepth
    show (t.drop.reg .esp).toNat = hi
    rw [CpuState.drop_reg, Function.update_self, BitVec.toNat_add]
    show ((t.reg .esp).toNat + 4) % 2 ^ 32 = hi
    omega
  · show t.drop.reg q = _
    rw [CpuState.drop_reg, Function.update_of_ne hq, hreg q hq]
    rfl

/-- **A call through `ece391syscall.S`.**  The function of the kernel gets the arguments of the
caller, and the caller gets its result, with the registers and the stack that it had. -/
theorem wrapper_call (hL : Linked P L) (hC : SysCallsReturn P L) {n : ℕ} (hn : n < 10)
    (hplaced : Placed P s.eip (doCall (n + 1))) (huser : s.cpl = 3) (hroom : lo + 56 ≤ P.esp0.toNat)
    (htable : SysTableAt P L lo s.mem) (hbelow : P.esp0.toNat + 4 ≤ (s.reg .esp).toNat)
    (habove : (s.reg .esp).toNat + 16 < 2 ^ 32)
    (hkeeps : ∀ t u, P.external (L.sysCall n) t u → ∀ x, (s.reg .esp).toNat - 4 ≤ x →
      x < (s.reg .esp).toNat + 4 → u.mem x = t.mem x) :
    Leads P (fun v => ∃ t u, P.external (L.sysCall n) t u ∧
      CalledWith t (L.sysCall n) ((List.range 3).map fun i =>
        wordAt s.mem ((s.reg .esp).toNat + 4 * (i + 1))) ∧
      v.eip = s.top ∧ v.reg .esp = s.reg .esp + 4 ∧ v.reg .eax = u.reg .eax ∧
      (∀ q ∈ [Reg.ebx, .ebp, .esi, .edi], v.reg q = s.reg q) ∧ v.seg = s.seg ∧
      v.eflags = s.eflags ∧ v.mem = u.mem) s := by
  obtain ⟨e, he⟩ : ∃ e, (s.reg .esp).toNat = e := ⟨_, rfl⟩
  rw [he] at hbelow habove hkeeps ⊢
  refine leads_doCallEntry hn he hplaced (by omega) habove
    fun t1 hplaced1 heax1 hargs1 hregs hsegs hflags hf1 => ?_
  obtain ⟨n2, hint, hplaced2⟩ := hplaced1
  have hesp1 : (t1.reg .esp).toNat = e - 4 := by
    have hdepth := hf1.depth
    simp only [List.length_cons, List.length_nil] at hdepth
    omega
  have hstack := htable.stack
  have htable1 : SysTableAt P L lo t1.mem := by
    have hlo := htable.below
    refine ⟨fun i hi => ?_, hlo, hstack⟩
    rw [← htable.words i hi]
    exact wordAt_congr fun j hj => hf1.outside _ (Or.inl (by omega))
  refine leads_softInt hL hC hint (by rwa [CpuState.cpl, hsegs]) hroom htable1 ?_ ?_
  · intro i _ hi t u hext hcalled hout _ _
    obtain rfl : i = n := by omega
    rw [hargs1] at hcalled
    -- what the function has left of the stack of the program
    obtain ⟨w, hw⟩ : ∃ w, afterCall t1 n2 (u.reg .eax) u.mem = w := ⟨_, rfl⟩
    have hregw : w.reg = Function.update t1.reg .eax (u.reg .eax) := by rw [← hw, afterCall_reg]
    have hespw : w.reg .esp = t1.reg .esp := by rw [hregw, Function.update_of_ne (by decide)]
    have hmemw : w.mem = u.mem := by rw [← hw, afterCall]
    have heipw : w.eip = n2 := by rw [← hw, afterCall]
    have hsegw : w.seg = s.seg := by rw [← hsegs, ← hw, afterCall]
    have hflw : w.eflags = s.eflags := by rw [← hflags, ← hw, afterCall]
    have hfw : Frame (e - 4) (e + 4) w.mem [s.reg .ebx, s.top] w := by
      refine ⟨?_, by omega, fun i hi => ?_, fun _ _ => rfl⟩
      · rw [hespw, hesp1]
        simp only [List.length_cons, List.length_nil]
        omega
      · have hi2 : i < 2 := hi
        have hword := hf1.words i (by simp; omega)
        rw [hespw, hmemw, hesp1]
        rw [hesp1] at hword
        rw [wordAt_congr (m := t1.mem) fun j hj => ?_, hword]
        · interval_cases i <;> rfl
        · rw [hkeeps t u hext _ (by omega) (by omega), hout _ (Or.inr (by omega))]
    -- the way back to the caller
    rw [hw]
    refine leads_doCallBack (heipw ▸ hplaced2) hfw
      fun v heipv hespv hregv hsegv hflv hmemv => .here ⟨t, u, hext, hcalled, heipv, ?_, ?_,
        fun q hq => ?_, hsegv.trans hsegw, hflv.trans hflw, hmemv.trans hmemw⟩
    · refine BitVec.eq_of_toNat_eq ?_
      rw [hespv, BitVec.toNat_add, he]
      show e + 4 = (e + 4) % 2 ^ 32
      omega
    · rw [hregv _ (by decide), Function.update_of_ne (by decide), hregw, Function.update_self]
    · rw [hregv q fun h => absurd (h ▸ hq) (by decide)]
      rw [List.mem_cons] at hq
      rcases hq with rfl | hq
      · rw [Function.update_self]
      · rw [Function.update_of_ne (fun h => absurd (h ▸ hq) (by decide)), hregw,
          Function.update_of_ne (fun h => absurd (h ▸ hq) (by decide)), hregs q hq]
  · intro hbad
    exact absurd ⟨by omega, by omega⟩ hbad

theorem wrapper_call_small : Leads smallPlatform (fun v => v.reg .eax = -1 ∧
    v.reg .esp = 0x83FFF04) (smallUser 0x8048000 0) := by
  refine (wrapper_call (s := smallUser 0x8048000 0) (n := 5) linked_small
    sysCallsReturn_small (by decide) (placed_of_code (by decide +kernel)) (by decide) (by decide)
    sysTableAt_small (by decide) (by decide) ?_).bind fun v hv => .here ?_
  · intro t u h x _ _
    rw [(returns_small 0 0 h).2.2]
  · obtain ⟨t, u, hext, -, -, hesp, heax, -⟩ := hv
    obtain ⟨-, -, rfl⟩ | ⟨ha, -⟩ := hext
    · exact ⟨heax, hesp⟩
    · exact absurd ha (by decide)

end SystemCalls

end LinuxIsLove
