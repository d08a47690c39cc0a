import LinuxIsLove.StartedPrograms
import LinuxIsLove.Foundation.Blocks

/-!
# From `execute` to `getargs`

The arguments of a command go through two scans and three copies to the control block of the process
that is started, and stay there until the process halts (`sameArgs_run`).  `getargs` compares their
length with the size of the caller's buffer as an unsigned integer: every size is handled as it
should be but a negative one, which counts as a very large buffer.
-/

namespace LinuxIsLove

open Bytes EventMachine

/-- What is left of a command behind its first word and the blanks after it. -/
def arguments (command : CString) : CString :=
  (command.dropWhile fun b => b ≠ 32 && b ≠ 10).dropWhile fun b => b = 32

theorem arguments_length_le (command : CString) :
    (arguments command).bytes.length ≤ command.bytes.length :=
  ((List.dropWhile_suffix _).length_le).trans (List.dropWhile_suffix _).length_le

/-- `getargs` hands out the arguments exactly if the size has room for them and a NUL. -/
structure HandsOut (k : Kernel) (a : CString) (buf : ℕ) (nbytes : BitVec 32) : Prop where
  enough : (a.bytes.length : ℤ) + 1 ≤ nbytes.toInt →
    getargs buf nbytes.toInt k = (0, k.setMem (blockSet k.mem buf a.mem (a.bytes.length + 1)))
  tooSmall : nbytes.toInt < a.bytes.length + 1 → getargs buf nbytes.toInt k = (-1, k)

/-- The control block of the process holds the arguments. -/
structure HasArgs (k : Kernel) (p : ℕ) (a : CString) : Prop where
  args_eq : ∀ i ≤ a.bytes.length, (k.pcb p).args i = a.mem i
  argsLen_eq : (k.pcb p).argsLen = a.bytes.length

/-- The process is still there, with the arguments it had. -/
structure SameArgs (k k' : Kernel) (p : ℕ) : Prop where
  allocated : Allocated k' p
  args_eq : (k'.pcb p).args = (k.pcb p).args
  argsLen_eq : (k'.pcb p).argsLen = (k.pcb p).argsLen

section Kept

variable {E : Env} {k k' : Kernel} {p : ℕ}

/-- Nothing but its own `halt` changes the arguments of a process. -/
theorem sameArgs_step {e : Event} (hw : Wf k) (hp : Allocated k p) (hhalt : NotHaltOf p k e)
    (h : step E k e = some k') : SameArgs k k' p := by
  by_cases hq : e.quiet
  · have hsame := sameProcesses_step hq h
    exact ⟨(hsame.allocated p).2 hp, by rw [hsame.pcb p], by rw [hsame.pcb p]⟩
  · have hun := untouched_step hw (Or.inl hp) hhalt (fun hq' => absurd hq' hq) h
    exact ⟨hun.allocated hp, by rw [hun.pcb], by rw [hun.pcb]⟩

theorem sameArgs_run {es : List Event} (hw : Wf k) (hp : Allocated k p)
    (hlive : Guarded (step E) (NotHaltOf p) k es) (h : run (step E) k es = some k') :
    SameArgs k k' p := by
  have hstep : ∀ (k1 : Kernel) (e : Event) (k2 : Kernel), Wf k1 ∧ SameArgs k k1 p →
      NotHaltOf p k1 e → step E k1 e = some k2 → Wf k2 ∧ SameArgs k k2 p := by
    rintro k1 e k2 ⟨hw1, h1⟩ hhalt hk2
    have h2 := sameArgs_step hw1 h1.allocated hhalt hk2
    exact ⟨wf_step hw1 hk2,
      ⟨h2.allocated, h2.args_eq.trans h1.args_eq, h2.argsLen_eq.trans h1.argsLen_eq⟩⟩
  exact (invariant_of_guarded hstep ⟨hw, hp, rfl, rfl⟩ hlive h).2

theorem HasArgs.same {a : CString} (h : HasArgs k p a) (hs : SameArgs k k' p) : HasArgs k' p a where
  args_eq i hi := by rw [hs.args_eq, h.args_eq i hi]
  argsLen_eq := by rw [hs.argsLen_eq, h.argsLen_eq]

end Kept

section Calls

variable {E : Env} {site : Site} {l : Locals} {command : CString} {k k' : Kernel}

/-- A command that is shorter than the arrays fits them. -/
theorem commandFits_of_short (h : command.bytes.length < argsMax) : CommandFits command := by
  constructor
  · exact lt_of_le_of_lt (List.takeWhile_prefix _).length_le h
  · exact lt_of_le_of_lt (arguments_length_le command) h

theorem checkExecutable_args {img : Image} {d : Dentry} {args : CString}
    (h : checkExecutable img command = some (d, args)) : args = arguments command := by
  simp only [checkExecutable] at h
  split_ifs at h
  cases h
  rfl

/-- The started process has a pid, and its arguments. -/
theorem hasArgs_started (hw : Wf k) (hcur : 0 ≤ k.currentTerminal)
    (h : execute E site command (k.setIflag false) = some k') :
    Wf k' ∧ Allocated k' k'.running ∧ HasArgs k' k'.running (arguments command) := by
  obtain ⟨pid, d, args, hcheck, h1, h6, hfree, rfl⟩ := execute_spec h
  obtain rfl := checkExecutable_args hcheck
  refine ⟨wf_execute ((SameProcesses.setIflag k false).wf hw) hcur h,
    (allocated_takeSlot h1 h6).2 (Or.inl rfl), fun i hi => ?_, ?_⟩
  · show ((startProcess _ _ _ _ _ _).pcb pid).args i = _
    rw [startProcess_pcb_self]
    exact copy_of_lt (Nat.lt_succ_of_le hi)
  · show ((startProcess _ _ _ _ _ _).pcb pid).argsLen = _
    rw [startProcess_pcb_self]
    rfl

end Calls

section GetArgs

variable {k : Kernel} {a : CString} {buf : ℕ} {nbytes : BitVec 32}

/-- What `getargs` copies: the arguments and their NUL. -/
theorem getargs_memory (h : HasArgs k k.running a) (buf : ℕ) :
    splice k.mem buf (Function.update
        (copy (window k.mem buf) k.current.args a.bytes.length) a.bytes.length 0) =
      blockSet k.mem buf a.mem (a.bytes.length + 1) := by
  have hcopy : copy (window k.mem buf) k.current.args a.bytes.length =
      copy (window k.mem buf) a.mem a.bytes.length := by
    funext j
    by_cases hj : j < a.bytes.length
    · rw [copy_of_lt hj, copy_of_lt hj]
      exact h.args_eq j hj.le
    · rw [copy_of_le (not_lt.1 hj), copy_of_le (not_lt.1 hj)]
  rw [blockSet, copy_succ, hcopy, a.mem_length]

theorem getargs_eq (h : HasArgs k k.running a) (hlen : a.bytes.length < argsMax) (buf : ℕ)
    (n : ℤ) : getargs buf n k =
      if u32 n < a.bytes.length + 1 then (-1, k)
      else (0, k.setMem (blockSet k.mem buf a.mem (a.bytes.length + 1))) := by
  have hn : k.current.argsLen = a.bytes.length := h.argsLen_eq
  have hmod : (a.bytes.length + 1) % 2 ^ 32 = a.bytes.length + 1 := by
    simp only [argsMax] at hlen
    exact Nat.mod_eq_of_lt (by omega)
  simp only [getargs, hn, hmod, getargs_memory h buf]

/-- The unsigned comparison is right for a size that is not negative. -/
theorem handsOut_of_nonneg (h : HasArgs k k.running a) (hlen : a.bytes.length < argsMax)
    (h0 : 0 ≤ nbytes.toInt) : HandsOut k a buf nbytes := by
  have hu : (u32 nbytes.toInt : ℤ) = nbytes.toInt := by
    have hlt : nbytes.toInt < 2 ^ 32 := by have := nbytes.toInt_lt; omega
    rw [u32_of_nonneg h0 hlt, Int.toNat_of_nonneg h0]
  constructor
  · intro hle
    rw [getargs_eq h hlen, if_neg (by omega)]
  · intro hlt
    rw [getargs_eq h hlen, if_pos (by omega)]

/-- A negative size passes for one of at least `2 ^ 31` bytes. -/
theorem getargs_negative (h : HasArgs k k.running a) (hlen : a.bytes.length < argsMax)
    (hneg : nbytes.toInt < 0) : (getargs buf nbytes.toInt k).1 = 0 := by
  have hge : -2 ^ 31 ≤ nbytes.toInt := nbytes.le_toInt
  have hu : 2 ^ 31 ≤ u32 nbytes.toInt := by
    unfold u32
    omega
  simp only [argsMax] at hlen
  rw [getargs_eq h (by simpa only [argsMax] using hlen), if_neg (by omega)]

theorem not_handsOut_of_negative (h : HasArgs k k.running a) (hlen : a.bytes.length < argsMax)
    (hneg : nbytes.toInt < 0) : ¬ HandsOut k a buf nbytes := by
  intro hout
  have hzero : (getargs buf nbytes.toInt k).1 = 0 := getargs_negative h hlen hneg
  rw [hout.tooSmall (by omega)] at hzero
  have hminus : (-1 : ℤ) = 0 := hzero
  omega

end GetArgs

section Results

variable {E : Env} {site : Site} {l : Locals} {command : CString} {k k0 k1 : Kernel}
  {es : List Event}

/-- The arguments are still there whenever the started process runs. -/
theorem hasArgs_later (hw : Wf k) (hcur : 0 ≤ k.currentTerminal)
    (hshort : command.bytes.length < argsMax)
    (hstart : (executeCall E site l command k).result = .started k0)
    (hrun : run (step E) (k0.setIflag true) es = some k1)
    (hlive : Guarded (step E) (NotHaltOf k0.running) (k0.setIflag true) es) :
    HasArgs k1 k0.running (arguments command) := by
  have hexec : execute E site command (k.setIflag false) = some k0 := by
    rcases @executeCall_result E site l command k (commandFits_of_short hshort) with
      ⟨-, hresult⟩ | ⟨-, -, hresult⟩ | ⟨k', -, hexec, hresult⟩
    · rw [hresult] at hstart
      cases hstart
    · rw [hresult] at hstart
      cases hstart
    · rw [hresult] at hstart
      cases hstart
      exact hexec
  obtain ⟨hw0, hall, hargs⟩ := hasArgs_started hw hcur hexec
  have hw0' : Wf (k0.setIflag true) := (SameProcesses.setIflag k0 true).wf hw0
  have hargs' : HasArgs (k0.setIflag true) k0.running (arguments command) :=
    ⟨hargs.args_eq, hargs.argsLen_eq⟩
  exact hargs'.same (sameArgs_run hw0' hall hlive hrun)

/-- **The arguments of `execute` come out of `getargs`** in every later state in which the started
process runs, exactly for the sizes that are not negative. -/
theorem handsOut_iff (hw : Wf k) (hcur : 0 ≤ k.currentTerminal)
    (hshort : command.bytes.length < argsMax)
    (hstart : (executeCall E site l command k).result = .started k0)
    (hrun : run (step E) (k0.setIflag true) es = some k1)
    (hlive : Guarded (step E) (NotHaltOf k0.running) (k0.setIflag true) es)
    (hr : k1.running = k0.running) (buf : ℕ) (nbytes : BitVec 32) :
    HandsOut k1 (arguments command) buf nbytes ↔ 0 ≤ nbytes.toInt := by
  have hargs := hasArgs_later hw hcur hshort hstart hrun hlive
  rw [← hr] at hargs
  have hlen := lt_of_le_of_lt (arguments_length_le command) hshort
  refine ⟨fun h => ?_, handsOut_of_nonneg hargs hlen⟩
  by_contra hneg
  exact not_handsOut_of_negative hargs hlen (not_le.1 hneg) h

end Results

/-! ### The small machine -/

/-- The command `shell`, a blank and `ab`. -/
def shellAb : CString where
  bytes := [115, 104, 101, 108, 108, 32, 97, 98]
  noNul := by simp
  short := by simp

theorem shellAb_started : ∃ k0, (shellCall shellAb).result = .started k0 := by
  refine (executeCall_iff (by decide)).1.2 ?_
  decide +kernel

theorem wf_firstShell : Wf (smallState [.key 0]) :=
  wf_reachable (smallState_reachable (by decide +kernel))

theorem handsOut_iff_shell : ∃ k0, (shellCall shellAb).result = .started k0 ∧
    (HandsOut (k0.setIflag true) (arguments shellAb) 0x8100000 3#32 ↔ 0 ≤ (3#32).toInt) := by
  obtain ⟨k0, hstart⟩ := shellAb_started
  have hcur : 0 ≤ (smallState [.key 0]).currentTerminal := by decide +kernel
  exact ⟨k0, hstart,
    handsOut_iff wf_firstShell hcur (by decide) hstart (run_nil _) trivial rfl _ _⟩

/-- With the size -1 the new process gets its arguments, `ab`, instead of -1. -/
theorem negative_accepted : shellAb.bytes.length < argsMax ∧
    ∃ k0, (shellCall shellAb).result = .started k0 ∧
      (getargs 0x8100000 (-1) (k0.setIflag true)).1 = 0 ∧
      ¬ HandsOut (k0.setIflag true) (arguments shellAb) 0x8100000 0xFFFFFFFF#32 := by
  obtain ⟨k0, hstart⟩ := shellAb_started
  have hcur : 0 ≤ (smallState [.key 0]).currentTerminal := by decide +kernel
  have hargs : HasArgs (k0.setIflag true) k0.running (arguments shellAb) :=
    hasArgs_later wf_firstShell hcur (by decide) hstart (run_nil _) trivial
  have hlen : (arguments shellAb).bytes.length < argsMax := by decide
  have hneg : (0xFFFFFFFF#32).toInt < 0 := by decide
  exact ⟨by decide, k0, hstart, getargs_negative hargs hlen hneg,
    not_handsOut_of_negative hargs hlen hneg⟩

end LinuxIsLove
