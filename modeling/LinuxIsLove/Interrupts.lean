import LinuxIsLove.KernelEntry

/-!
# Exceptions and interrupts of devices

What `fault_handler` is given for an exception, which vectors a program can raise with `int`, and
that a program does not notice an interrupt of a device.
-/

namespace LinuxIsLove

open Bytes Processor

section Delivery

variable {P : Platform} {L : Linkage} {s t : CpuState} {next ret : Word} {lo hi : ℕ}

/-! ### Entering through a gate of the table -/

/-- What the processor pushes for an exception or an interrupt. -/
def entryWords (s : CpuState) (ret : Word) : List Word :=
  [ret, (s.seg .cs).setWidth 32, s.eflags] ++
    if 0 < s.cpl then [s.reg .esp, (s.seg .ss).setWidth 32] else []

/-- The end of the stack that it pushes them on. -/
def entryStack (P : Platform) (s : CpuState) : Word := if 0 < s.cpl then P.esp0 else s.reg .esp

theorem length_entryWords : (entryWords s ret).length = if 0 < s.cpl then 5 else 3 := by
  rw [entryWords]
  split_ifs <;> rfl

/-- The machine at the first instruction of a stub. -/
structure Entered (P : Platform) (lo : ℕ) (s : CpuState) (a ret : Word) (trap : Bool)
    (t : CpuState) : Prop where
  eip : t.eip = a
  reg : ∀ q, q ≠ .esp → t.reg q = s.reg q
  cs : t.seg .cs = kernelCS
  seg : ∀ q, q ≠ .cs → q ≠ .ss → t.seg q = s.seg q
  ss : s.cpl = 0 → t.seg .ss = s.seg .ss
  eflags : t.eflags = if trap then s.eflags else s.eflags &&& ~~~0x200#32
  frame : Frame lo (entryStack P s).toNat s.mem (entryWords s ret) t

theorem entered {a : Word} (dpl : ℕ) {trap : Bool} (hroom : lo + 20 ≤ (entryStack P s).toNat) :
    Entered P lo s a ret trap (s.enter P ⟨a, kernelCS, dpl, trap⟩ ret) := by
  have hcs : kernelCS.toNat % 4 = 0 := by decide
  refine ⟨enter_eip, fun q hq => enter_reg hq, enter_cs, fun q hq hss => enter_seg hq hss,
    fun h => ?_, enter_eflags, ?_⟩
  · unfold CpuState.enter
    dsimp only
    rw [hcs, h, if_neg (lt_irrefl 0)]
    cases trap <;> rfl
  · unfold entryStack entryWords
    by_cases h : 0 < s.cpl
    · rw [entryStack, if_pos h] at hroom
      rw [if_pos h, if_pos h]
      exact enter_lower (by rwa [hcs]) hroom
    · rw [entryStack, if_neg h] at hroom
      rw [if_neg h, if_neg h, List.append_nil]
      exact enter_same (by rwa [hcs]) (by omega)

/-- `iret` from a stub, with the registers restored, is a step back to the machine that was
interrupted. -/
theorem iret_entered {w : CpuState} {m : Memory} (hreg : ∀ q, q ≠ .esp → w.reg q = s.reg q)
    (hwcs : w.seg .cs = kernelCS) (hseg : ∀ q, q ≠ .cs → q ≠ .ss → w.seg q = s.seg q)
    (hss : s.cpl = 0 → w.seg .ss = s.seg .ss)
    (hf : Frame lo (entryStack P s).toNat m (entryWords s ret) w) :
    w.iret = { s with eip := ret, mem := w.mem } := by
  have hwidth : ∀ g : BitVec 16, (g.setWidth 32).setWidth 16 = g := fun g => by simp
  have hcpl : w.cpl = 0 := by
    rw [CpuState.cpl, hwcs]
    decide
  by_cases h : 0 < s.cpl
  · rw [entryWords, if_pos h] at hf
    rw [iret_lower hf (by rwa [hwidth, hcpl]), hwidth, hwidth]
    congr 1
    · funext q
      by_cases hsp : q = .esp
      · rw [hsp, Function.update_self]
      · rw [Function.update_of_ne hsp, hreg q hsp]
    · funext q
      by_cases hqss : q = .ss
      · rw [hqss, Function.update_self]
      by_cases hqcs : q = .cs
      · rw [hqcs, Function.update_of_ne (by decide), Function.update_self]
      · rw [Function.update_of_ne hqss, Function.update_of_ne hqcs, hseg q hqcs hqss]
  · have hkernel : s.cpl = 0 := by omega
    have hdepth := hf.depth
    rw [length_entryWords, entryStack, if_neg h, if_neg h] at hdepth
    rw [entryWords, if_neg h, List.append_nil] at hf
    have hesp : w.reg .esp + 12 = s.reg .esp := by bv_omega
    have hlevel : ¬w.cpl < (((s.seg .cs).setWidth 32).setWidth 16 : BitVec 16).toNat % 4 := by
      rw [hwidth, hcpl]
      exact h
    rw [iret_same hf hlevel, hwidth, hesp]
    congr 1
    · funext q
      by_cases hsp : q = .esp
      · rw [hsp, Function.update_self]
      · rw [Function.update_of_ne hsp, hreg q hsp]
    · funext q
      by_cases hqcs : q = .cs
      · rw [hqcs, Function.update_self]
      rw [Function.update_of_ne hqcs]
      by_cases hqss : q = .ss
      · rw [hqss, hss hkernel]
      · exact hseg q hqcs hqss

/-! ### Exceptions -/

/-- The registers of `s` as `handle` saves them. -/
def savedRegs (s : CpuState) (intNo errCode ret esp useresp ss : Word) : FaultRegs where
  gs := (s.seg .gs).setWidth 32
  fs := (s.seg .fs).setWidth 32
  es := (s.seg .es).setWidth 32
  ds := (s.seg .ds).setWidth 32
  edi := s.reg .edi
  esi := s.reg .esi
  ebp := s.reg .ebp
  esp := esp
  ebx := s.reg .ebx
  edx := s.reg .edx
  ecx := s.reg .ecx
  eax := s.reg .eax
  intNo := intNo
  errCode := errCode
  eip := ret
  cs := (s.seg .cs).setWidth 32
  eflags := s.eflags
  useresp := useresp
  ss := ss

/-- `fault_handler` has been called for an exception of `s`.  What it gets for the stack of the
program is the program's only if the processor has pushed it. -/
structure Faulted (P : Platform) (L : Linkage) (lo : ℕ) (s : CpuState) (intNo errCode ret : Word)
    (t : CpuState) : Prop where
  eip : t.eip = L.faultHandler
  regs : ∃ r esp useresp ss, CalledWith t L.faultHandler [r] ∧
    faultRegsAt t.mem r.toNat = savedRegs s intNo errCode ret esp useresp ss ∧
    esp.toNat = r.toNat + 48 ∧
    (0 < s.cpl → useresp = s.reg .esp ∧ ss = (s.seg .ss).setWidth 32)
  cpl : t.cpl = 0
  interrupts : interrupts t.eflags = false
  seg : ∀ g ∈ [Seg.ds, .es, .fs, .gs], t.seg g = kernelCS
  outside : ∀ x, x < lo ∨ (entryStack P s).toNat ≤ x → t.mem x = s.mem x

/-- The words that `handle` leaves on the stack are a `struct regs`. -/
theorem faultRegsAt_of_frame {m : Memory} {a b intNo errCode sp : Word} {r : ℕ}
    (hf : Frame lo hi m (a :: b :: (s.seg .gs).setWidth 32 :: (s.seg .fs).setWidth 32 ::
      (s.seg .es).setWidth 32 :: (s.seg .ds).setWidth 32 :: s.reg .edi :: s.reg .esi ::
      s.reg .ebp :: sp :: s.reg .ebx :: s.reg .edx :: s.reg .ecx :: s.reg .eax :: intNo ::
      errCode :: entryWords s ret) t) (hr : r = (t.reg .esp).toNat + 8) :
    ∃ useresp ss, faultRegsAt t.mem r = savedRegs s intNo errCode ret sp useresp ss ∧
      (0 < s.cpl → useresp = s.reg .esp ∧ ss = (s.seg .ss).setWidth 32) := by
  have hword : ∀ i w, (a :: b :: (s.seg .gs).setWidth 32 :: (s.seg .fs).setWidth 32 ::
      (s.seg .es).setWidth 32 :: (s.seg .ds).setWidth 32 :: s.reg .edi :: s.reg .esi ::
      s.reg .ebp :: sp :: s.reg .ebx :: s.reg .edx :: s.reg .ecx :: s.reg .eax :: intNo ::
      errCode :: entryWords s ret)[i + 2]? = some w → wordAt t.mem (r + 4 * i) = w := by
    intro i w hw
    obtain ⟨hi, hget⟩ := List.getElem?_eq_some_iff.1 hw
    have h := hf.words (i + 2) hi
    rw [hget] at h
    rw [← h, hr]
    congr 1
    omega
  refine ⟨wordAt t.mem (r + 4 * 17), wordAt t.mem (r + 4 * 18), ?_, fun h => ?_⟩
  · unfold faultRegsAt savedRegs
    dsimp only
    rw [hword 0 _ rfl, hword 1 _ rfl, hword 2 _ rfl, hword 3 _ rfl, hword 4 _ rfl, hword 5 _ rfl,
      hword 6 _ rfl, hword 7 _ rfl, hword 8 _ rfl, hword 9 _ rfl, hword 10 _ rfl, hword 11 _ rfl,
      hword 12 _ rfl, hword 13 _ rfl, hword 14 _ rfl, hword 15 _ rfl, hword 16 _ rfl]
  · have hwords : entryWords s ret = [ret, (s.seg .cs).setWidth 32, s.eflags, s.reg .esp,
        (s.seg .ss).setWidth 32] := by
      rw [entryWords, if_pos h]
      rfl
    rw [hwords] at hword
    exact ⟨hword 17 _ rfl, hword 18 _ rfl⟩

/-- From a stub to `fault_handler`. -/
theorem leads_handle (hL : Linked P L) {intNo errCode : Word}
    (hroom : lo + 84 ≤ (entryStack P s).toNat) (heip : t.eip = L.handle)
    (hreg : ∀ q, q ≠ .esp → t.reg q = s.reg q) (hcs : t.seg .cs = kernelCS)
    (hseg : ∀ q, q ≠ .cs → q ≠ .ss → t.seg q = s.seg q)
    (hfl : Processor.interrupts t.eflags = false)
    (hf : Frame lo (entryStack P s).toNat s.mem (intNo :: errCode :: entryWords s ret) t) :
    Leads P (Faulted P L lo s intNo errCode ret) t := by
  have hentry : (entryWords s ret).length ≤ 5 := by
    rw [length_entryWords]
    split_ifs <;> omega
  obtain ⟨n1, hpusha, hplaced1⟩ := heip ▸ hL.handle
  -- the registers
  have hf1 := hf.pusha (by simp only [List.length_cons]; omega)
  rw [hreg .edi (by decide), hreg .esi (by decide), hreg .ebp (by decide), hreg .ebx (by decide),
    hreg .edx (by decide), hreg .ecx (by decide), hreg .eax (by decide)] at hf1
  refine .step hpusha rfl ?_
  refine .pushSegs [.ds, .es, .fs, .gs] hplaced1 (hf1.goto n1)
    (by simp only [List.length_cons, List.length_nil]; omega) fun t2 hplaced2 h2 hf2 => ?_
  have hold : ∀ q, q ≠ .cs → q ≠ .ss → (t.pusha.goto n1).seg q = s.seg q := hseg
  simp only [List.map_cons, List.map_nil, List.reverse_cons, List.reverse_nil, List.nil_append,
    List.cons_append, hold .ds (by decide) (by decide), hold .es (by decide) (by decide),
    hold .fs (by decide) (by decide), hold .gs (by decide) (by decide)] at hf2
  -- the segments of the kernel
  obtain ⟨n3, hmovw, hplaced3⟩ := hplaced2
  refine .move hmovw rfl fun t3 heip3 hreg3 hseg3 hfl3 hmem3 => ?_
  have hf3 := hf2.congr (t := t3) (by rw [hreg3, Function.update_of_ne (by decide)]) hmem3
  refine .movSegs [.ds, .es, .fs, .gs] (heip3 ▸ hplaced3)
    fun t4 hplaced4 hreg4 hmem4 hfl4 hin4 hout4 => ?_
  have hf4 := hf3.congr (t := t4) (by rw [hreg4]) hmem4
  have hax : ∀ x : Word, (x.extractLsb' 16 16 ++ (0x10 : BitVec 16)).setWidth 16 = kernelCS := by
    intro x
    rw [BitVec.setWidth_append, dif_pos (le_refl 16), BitVec.setWidth_eq]
    rfl
  rw [hreg3, Function.update_self, hax] at hin4
  -- the pointer to the structure, and the call
  obtain ⟨n5, hmovl, n6, hpush, n7, hcall, -⟩ := hplaced4
  refine .move hmovl rfl fun t5 heip5 hreg5 hseg5 hfl5 hmem5 => ?_
  have hf5 := hf4.congr (t := t5) (by rw [hreg5, Function.update_of_ne (by decide)]) hmem5
  refine .push (heip5 ▸ hpush) rfl hf5 (by simp only [List.length_cons]; omega)
    fun t6 heip6 h6 hf6 => ?_
  refine .push (heip6 ▸ hcall) rfl hf6 (by simp only [List.length_cons]; omega)
    fun t7 heip7 h7 hf7 => .here ?_
  have hdepth := hf.depth
  have hdepth5 := hf5.depth
  have hdepth7 := hf7.depth
  have hfits := hf.fits
  simp only [List.length_cons] at hdepth hdepth5 hdepth7
  have hptr : t5.reg .eax = t5.reg .esp := by
    rw [hreg5, Function.update_self, Function.update_of_ne (by decide)]
  rw [hptr] at hf7
  obtain ⟨useresp, ss, hregs, huser⟩ := faultRegsAt_of_frame hf7
    (show (t5.reg .esp).toNat = (t7.reg .esp).toNat + 8 by omega)
  have hseg7 : t7.seg = t4.seg := by rw [h7.seg, h6.seg, hseg5]
  have hfl7 : t7.eflags = t.eflags := by
    rw [h7.eflags, h6.eflags, hfl5, hfl4, hfl3, h2.eflags]
    rfl
  refine ⟨heip7, ⟨t5.reg .esp, t.reg .esp, useresp, ss, calledWith_of_frame [_] heip7 hf7, hregs,
    by omega, huser⟩, ?_, by rw [hfl7, hfl], fun g hg => by rw [hseg7, hin4 g hg], hf7.outside⟩
  have hcs4 : t4.seg .cs = kernelCS := by
    rw [hout4 .cs (by decide), hseg3, h2.seg]
    exact hcs
  rw [CpuState.cpl, hseg7, hcs4]
  decide

/-- From the first instruction of a stub to `fault_handler`. -/
theorem leads_isrStub (hL : Linked P L) {v : ℕ} (hv : v < 32) (code : Option Word) {a : Word}
    {trap : Bool} (hcode : code.isSome ↔ hasErrorCode v)
    (hroom : lo + 84 ≤ (entryStack P s).toNat) (ha : a = L.isr v)
    (h : Entered P lo s a ret trap t) :
    Leads P (Faulted P L lo s (BitVec.ofNat 32 v) (code.getD 0) ret) (t.pushCode code) := by
  have hentry : (entryWords s ret).length ≤ 5 := by
    rw [length_entryWords]
    split_ifs <;> omega
  obtain ⟨n1, hcli, hrest⟩ := (ha ▸ h.eip) ▸ hL.isr v hv
  -- the stack below the number of the exception
  have hnumber : ∀ t1 : CpuState, Placed P t1.eip [.pushImm (BitVec.ofNat 32 v), .jmp L.handle] →
      Alike t.clearInterrupts t1 →
      Frame lo (entryStack P s).toNat s.mem (code.getD 0 :: entryWords s ret) t1 →
      Leads P (Faulted P L lo s (BitVec.ofNat 32 v) (code.getD 0) ret) t1 := by
    intro t1 hplaced h1 hf1
    obtain ⟨n3, hpush, n4, hjmp, -⟩ := hplaced
    refine .push hpush rfl hf1 (by simp only [List.length_cons]; omega) fun t3 heip3 h3 hf3 => ?_
    refine .move (heip3 ▸ hjmp) rfl fun t4 heip4 hreg4 hseg4 hfl4 hmem4 => ?_
    have h13 := h1.trans h3
    refine leads_handle hL hroom heip4 (fun q hq => ?_) ?_ (fun q hcs hss => ?_) ?_
      (hf3.congr (by rw [hreg4]) hmem4)
    · rw [hreg4]
      exact (h13.reg q hq).trans (h.reg q hq)
    · rw [hseg4, h13.seg]
      exact h.cs
    · rw [hseg4, h13.seg]
      exact h.seg q hcs hss
    · rw [hfl4, h13.eflags]
      exact interrupts_clear _
  cases code with
  | none =>
    have hplain : ¬hasErrorCode v := fun herr => absurd (hcode.2 herr) (by simp)
    rw [if_neg hplain] at hrest
    obtain ⟨n2, hzero, hrest⟩ := hrest
    refine .step hcli rfl (.push hzero rfl (h.frame.congr rfl rfl) (by omega)
      fun t1 heip1 h1 hf1 => hnumber t1 (heip1 ▸ hrest) ?_ hf1)
    exact ⟨h1.reg, h1.seg, h1.eflags⟩
  | some c =>
    rw [if_pos (hcode.1 rfl)] at hrest
    refine .step hcli rfl (hnumber _ hrest ?_ ((h.frame.push (by omega) c).congr rfl rfl))
    exact ⟨fun q hq => Function.update_of_ne hq _ _, rfl, rfl⟩

/-- The gate of a vector that has a stub. -/
theorem decodeGate_linked (hL : Linked P L) {n : BitVec 8} {a : Word}
    (h : vectorEntry L n.toNat = some a) : decodeGate (P.idt n) =
      some ⟨a, kernelCS, if n.toNat ∈ openVectors then 3 else 0, n.toNat ∈ openVectors⟩ := by
  rw [hL.idt, decodeGate_isrsInstall, h]
  rfl

/-- An exception is delivered to its stub. -/
theorem deliver_entered (hL : Linked P L) {n : BitVec 8} {a : Word} (code : Option Word)
    (ret : Word) (h : vectorEntry L n.toNat = some a) (hroom : lo + 20 ≤ (entryStack P s).toNat) :
    ∃ t, Entered P lo s a ret (n.toNat ∈ openVectors) t ∧ s.deliver P n code ret =
      some (t.pushCode code) := by
  refine ⟨_, entered (if n.toNat ∈ openVectors then 3 else 0) hroom, ?_⟩
  rw [CpuState.deliver, decodeGate_linked hL h, Option.map_some]

/-- **Exceptions.**  For every exception `fault_handler` gets its number, its error code, or 0 where
the processor pushes none, and the registers that were interrupted, with the interrupts off. -/
theorem exception_frame (hL : Linked P L) {v : ℕ} (hv : v < 32) {code : Option Word}
    (hcode : code.isSome ↔ hasErrorCode v) (hroom : lo + 84 ≤ (entryStack P s).toNat) (ret : Word) :
    ∃ t, s.deliver P (BitVec.ofNat 8 v) code ret = some t ∧
      Leads P (Faulted P L lo s (BitVec.ofNat 32 v) (code.getD 0) ret) t := by
  have hn : (BitVec.ofNat 8 v).toNat = v := by
    rw [BitVec.toNat_ofNat]
    omega
  have hentry : vectorEntry L (BitVec.ofNat 8 v).toNat = some (L.isr v) := by
    rw [hn, vectorEntry, if_pos hv]
  obtain ⟨t, hentered, hdeliver⟩ := deliver_entered hL code ret hentry
    (by omega : lo + 20 ≤ (entryStack P s).toNat)
  exact ⟨_, hdeliver, leads_isrStub hL hv code hcode hroom rfl hentered⟩

theorem exception_frame_small : ∃ t,
    (smallUser 0x8048000 0).deliver smallPlatform 14 (some 4) 0x8048000 = some t ∧
      Leads smallPlatform
        (Faulted smallPlatform smallLinkage 0x7FE000 (smallUser 0x8048000 0) 14 4 0x8048000) t :=
  exception_frame linked_small (by decide : 14 < 32) (by decide) (by decide) 0x8048000

/-- **Software interrupts.**  Of all vectors but that of the system calls a program raises the
exceptions 3, 4 and 5 with `int`, and for any other it has caused a general protection fault. -/
theorem software_interrupt (hL : Linked P L) {n : BitVec 8}
    (hcode : P.code s.eip = some (.int n, next)) (huser : s.cpl = 3) (hn : n ≠ 0x80)
    (hroom : lo + 84 ≤ P.esp0.toNat) :
    Leads P (if n.toNat ∈ openVectors then Faulted P L lo s (n.setWidth 32) 0 next
      else Faulted P L lo s 13 (BitVec.ofNat 32 (8 * n.toNat + 2)) s.eip) s := by
  have hstack : entryStack P s = P.esp0 := by
    rw [entryStack, huser]
    rfl
  have h80 : n.toNat ≠ 0x80 := fun h => hn (BitVec.eq_of_toNat_eq h)
  by_cases hopen : n.toNat ∈ openVectors
  · rw [if_pos hopen]
    have hv : n.toNat < 32 ∧ ¬hasErrorCode n.toNat := by
      simp only [openVectors, List.mem_cons, List.not_mem_nil, or_false] at hopen
      obtain h | h | h | h := hopen
      · rw [h]
        decide
      · rw [h]
        decide
      · rw [h]
        decide
      · exact absurd h h80
    have hgate := decodeGate_linked hL (show vectorEntry L n.toNat = some (L.isr n.toNat) by
      rw [vectorEntry, if_pos hv.1])
    have hexec := softInt_open (s := s) next hgate (by rw [huser, if_pos hopen])
    have hwidth : n.setWidth 32 = BitVec.ofNat 32 n.toNat := by
      apply BitVec.eq_of_toNat_eq
      rw [BitVec.toNat_setWidth, BitVec.toNat_ofNat]
    rw [hwidth]
    exact .step hcode hexec (leads_isrStub hL hv.1 none
      ⟨fun h => absurd h (by simp), fun h => absurd h hv.2⟩ (by rwa [hstack]) rfl
      (entered 3 (by rw [hstack]; omega)))
  · rw [if_neg hopen]
    have hexec : s.softInt P n next =
        s.deliver P 13 (some (BitVec.ofNat 32 (8 * n.toNat + 2))) s.eip := by
      refine softInt_shut (fun g hg => ?_) fun hnone => ?_
      · cases hentry : vectorEntry L n.toNat with
        | none => rw [hL.idt, decodeGate_isrsInstall, hentry] at hg; cases hg
        | some a =>
          rw [decodeGate_linked hL hentry, if_neg hopen] at hg
          obtain rfl := Option.some.inj hg
          rw [huser]
          exact Nat.succ_pos 2
      · cases hentry : vectorEntry L n.toNat with
        | none =>
          rw [hL.idt, isrsInstall_of_none hentry]
          exact not_isGate_empty
        | some a =>
          rw [decodeGate_linked hL hentry] at hnone
          cases hnone
    obtain ⟨t, hentered, hdeliver⟩ := deliver_entered (s := s) (n := 13) hL
      (some (BitVec.ofNat 32 (8 * n.toNat + 2))) s.eip rfl
      (by rw [hstack]; omega : lo + 20 ≤ (entryStack P s).toNat)
    exact .step hcode (hexec.trans hdeliver) (leads_isrStub hL (by decide : 13 < 32)
      (some _) ⟨fun _ => by decide, fun _ => rfl⟩ (by rwa [hstack]) rfl hentered)

theorem software_interrupt_small : Leads smallPlatform
    (Faulted smallPlatform smallLinkage 0x7FE000 (smallUser 0x8048100 0) 13 2 0x8048100)
    (smallUser 0x8048100 0) := by
  have hcode : smallPlatform.code 0x8048100 = some (.int 0, 0x8048101) := by decide +kernel
  exact software_interrupt linked_small (n := 0) hcode (by decide) (by decide) (by decide)

/-! ### Interrupts of devices -/

/-- `popa` and `iret` behind the handler lead back to what was interrupted. -/
theorem popa_iret {a : Word} {trap : Bool} {m : Memory} {u : CpuState}
    (h : Entered P lo s a ret trap t) (next : Word) (hseg : u.seg = t.seg)
    (hf : Frame lo (entryStack P s).toNat m (t.reg .edi :: t.reg .esi :: t.reg .ebp ::
      t.reg .esp :: t.reg .ebx :: t.reg .edx :: t.reg .ecx :: t.reg .eax :: entryWords s ret) u) :
    (u.popa.goto next).iret = { s with eip := ret, mem := u.mem } := by
  obtain ⟨p, hp⟩ : ∃ p, u.popa = p := ⟨_, rfl⟩
  have hpopped := Frame.popa hf
  have hpmem := popa_mem u
  have hpseg := (popa_seg u).trans hseg
  rw [hp] at hpopped hpmem hpseg
  obtain ⟨hf', hedi, hesi, hebp, hebx, hedx, hecx, heax⟩ := hpopped
  rw [hp, ← hpmem]
  refine iret_entered (w := p.goto next) (fun q hq => ?_) ?_ (fun q hcs hss => ?_)
    (fun h0 => ?_) (hf'.goto next)
  · rw [← h.reg q hq]
    cases q with
    | esp => exact absurd rfl hq
    | eax => exact heax
    | ecx => exact hecx
    | edx => exact hedx
    | ebx => exact hebx
    | ebp => exact hebp
    | esi => exact hesi
    | edi => exact hedi
  · exact (congrFun hpseg .cs).trans h.cs
  · exact (congrFun hpseg q).trans (h.seg q hcs hss)
  · exact (congrFun hpseg .ss).trans (h.ss h0)

/-- **A device interrupts a program or the kernel.**  The handler of the line runs in the kernel
with the interrupts off, and when it has returned, what was interrupted goes on as it was, but for
what the handler has done to the memory. -/
theorem irq_transparent (hL : Linked P L) {n : ℕ} (hn : n < 16) {a : Word} (hnone : P.code a = none)
    (hroom : lo + 56 ≤ (entryStack P s).toNat)
    (hreturn : ∀ w u, P.external a w u → Returns 0 (entryStack P s).toNat w u)
    (htable : wordAt s.mem (L.irqTable.toNat + 4 * n) = a) (hbelow : L.irqTable.toNat + 64 ≤ lo) :
    ∃ t, s.deliver P (BitVec.ofNat 8 (32 + n)) none s.eip = some t ∧
      Leads P (fun v => ∃ w u, P.external a w u ∧ w.eip = a ∧ w.cpl = 0 ∧
        interrupts w.eflags = false ∧
        (∀ x, x < lo ∨ (entryStack P s).toNat ≤ x → w.mem x = s.mem x) ∧
        v = { s with mem := u.mem }) t := by
  have hnat : (BitVec.ofNat 8 (32 + n)).toNat = 32 + n := by
    rw [BitVec.toNat_ofNat]
    omega
  have hshut : 32 + n ∉ openVectors := by
    intro h
    simp only [openVectors, List.mem_cons, List.not_mem_nil, or_false] at h
    omega
  have hentry : vectorEntry L (BitVec.ofNat 8 (32 + n)).toNat = some (L.irq n) := by
    rw [hnat, vectorEntry, if_neg (by omega), if_pos (by omega), Nat.add_sub_cancel_left]
  obtain ⟨t, h, hdeliver⟩ := deliver_entered hL none s.eip hentry
    (by omega : lo + 20 ≤ (entryStack P s).toNat)
  rw [hnat, decide_eq_false hshut] at h
  refine ⟨t, hdeliver, ?_⟩
  have hlen : (entryWords s s.eip).length ≤ 5 := by
    rw [length_entryWords]
    split_ifs <;> omega
  obtain ⟨n1, hpusha, n2, hcall, n3, hpopa, n4, hiret, -⟩ := h.eip ▸ hL.irq n hn
  -- the call
  have hf1 := h.frame.pusha (by omega)
  have haddr : (L.irqTable + BitVec.ofNat 32 (4 * n)).toNat = L.irqTable.toNat + 4 * n := by
    have hstack := (entryStack P s).isLt
    bv_omega
  have htarget : wordAt t.pusha.mem (L.irqTable + BitVec.ofNat 32 (4 * n)).toNat = a := by
    rw [haddr, ← htable]
    exact wordAt_congr fun j hj => hf1.outside _ (Or.inl (by omega))
  refine .step hpusha rfl (.push hcall rfl (hf1.goto n1)
    (by simp only [List.length_cons]; omega) fun w heip hw hf2 => ?_)
  have heip' : w.eip = a := heip.trans htarget
  refine .function [] (by rw [heip', hnone]) hf2 (fun u hu => hreturn w u (heip' ▸ hu))
    fun u us hu hus heipu hsegu hfu => ?_
  obtain rfl := List.eq_nil_of_length_eq_zero hus
  -- the way back
  have hback : (u.popa.goto n3).iret = { s with mem := u.mem } :=
    popa_iret h n3 (hsegu.trans hw.seg) hfu
  have hexec : exec P n3 u .popa = some (u.popa.goto n3) := rfl
  refine .step (heipu ▸ hpopa) hexec (.step hiret (congrArg some hback) (.here
    ⟨w, u, heip' ▸ hu, heip', ?_, ?_, hf2.outside, rfl⟩))
  · have hcs : w.seg .cs = kernelCS := by
      rw [hw.seg]
      exact h.cs
    rw [CpuState.cpl, hcs]
    decide
  · rw [hw.eflags]
    exact h.eflags ▸ interrupts_clear _

theorem irq_transparent_small : ∃ t,
    (smallUser 0x8048000 0).deliver smallPlatform 32 none 0x8048000 = some t ∧
      Leads smallPlatform (fun v => v.reg = (smallUser 0x8048000 0).reg ∧ v.eip = 0x8048000) t := by
  have hnone : smallPlatform.code 0x7000 = none := by decide +kernel
  obtain ⟨t, hdeliver, hleads⟩ := irq_transparent (s := smallUser 0x8048000 0) linked_small
    (by decide : 0 < 16) hnone (by decide : 0x7FE000 + 56 ≤ _)
    (fun w u h => (returns_small 0 _ h).1) (by decide +kernel) (by decide)
  refine ⟨t, hdeliver, hleads.bind fun v hv => .here ?_⟩
  obtain ⟨w, u, -, -, -, -, -, rfl⟩ := hv
  exact ⟨rfl, rfl⟩

end Delivery

end LinuxIsLove
