import LinuxIsLove.Executables
import LinuxIsLove.Source.Events
import LinuxIsLove.Source.ExecuteCall

/-!
# Commands and their buffers

`parse_arg` copies the first word of a command and its arguments to two arrays of 128 bytes, and
`execute` copies the arguments once more to the control block.  No copy is bounded: all stores stay
inside exactly for the commands whose two parts fit (`storesInside_iff`), and a command with a
longer part is copied, not refused.

`callEffect` is all that is needed to know of a call: one that stays in its arrays, and loads a file
that the page holds, comes to what `execute` says.
-/

namespace LinuxIsLove

open Bytes

/-- Both parts of a command fit their arrays, with the NUL behind them. -/
def CommandFits (command : CString) : Prop :=
  (parseArg command).1.bytes.length < argsMax ∧ (parseArg command).2.bytes.length < argsMax

instance (command : CString) : Decidable (CommandFits command) := by
  unfold CommandFits
  infer_instance

/-- Every byte that a call copies goes to one of the three arrays. -/
def StoresInside (x : ExecuteState) : Prop :=
  x.commandBuf.Within argsMax ∧ x.args.Within argsMax ∧ ∀ b ∈ x.pcbArgs, b.Within argsMax

/-! ### The two parts of a command -/

/-- What `parse_arg` leaves in its buffers. -/
theorem parseArgCall_eq (command : CString) (b c : Buffer) :
    parseArgCall command.mem b c = (b.put (parseArg command).1, c.put (parseArg command).2) := by
  have hword : ∀ x : UInt8, (x = 0 || x = 32 || x = 10) = true ↔
      x = 0 ∨ (x ≠ 32 && x ≠ 10) = false := by
    intro x
    simp [or_iff_not_imp_left]
  have hblank : ∀ x : UInt8, decide (x ≠ 32) = true ↔ x = 0 ∨ decide (x = 32) = false := by
    intro x
    by_cases hx : x = 32
    · subst hx
      decide
    · simp [hx]
  have hend : scan (fun x => x = 0 || x = 32 || x = 10) command.mem (2 ^ 32) 0 =
      (parseArg command).1.bytes.length := by
    rw [scan_mem hword, Nat.zero_add]
    rfl
  have hrest : command.drop (parseArg command).1.bytes.length =
      command.dropWhile fun x => x ≠ 32 && x ≠ 10 := command.drop_takeWhile _
  have hskip : window command.mem
      (scan (fun x => x ≠ 32) command.mem (2 ^ 32) (parseArg command).1.bytes.length) =
        (parseArg command).2.mem := by
    rw [scan_mem hblank, CString.window_mem, ← CString.drop_drop, hrest, CString.drop_takeWhile]
    rfl
  simp only [parseArgCall, hend, hskip, Buffer.strcpy_mem, Buffer.memcpy_eq]
  congr 1
  have hcopied : ∀ j < (parseArg command).1.bytes.length,
      (parseArg command).1.mem j = command.mem j := fun j hj => command.mem_takeWhile _ hj
  rw [Buffer.put, Buffer.filled_succ, CString.mem_length, Buffer.filled_congr hcopied]

/-! ### The statements of `execute` -/

section Build

variable {E : Env} {site : Site} {pid : ℕ} {d d' : Dentry} {args : CString} {k : Kernel}

/-- Of the entry, only the number of the inode is used. -/
theorem startProcess_congr (h : Dentry.inode d = Dentry.inode d') :
    startProcess E site pid d args k = startProcess E site pid d' args k := by
  simp only [startProcess, load, h]

theorem setPcb_termNum {f : Pcb → Pcb} (hf : ∀ b, (f b).termNum = b.termNum) (q : ℕ) :
    ((k.setPcb pid f).pcb q).termNum = (k.pcb q).termNum := by
  show (Function.update k.pcb pid (f (k.pcb pid)) q).termNum = _
  rw [Function.update_apply]
  split_ifs with hq
  · rw [hf, hq]
  · rfl

/-- The statements after a slot was found make the process that `startProcess` describes. -/
theorem buildProcess_eq (b : Buffer) :
    buildProcess E site pid d (b.put args).bytes k =
      ((Buffer.fresh (k.pcb pid).args).put args, startProcess E site pid d args k) := by
  have hcurr : ∀ f g : Pcb → Pcb, currTerminalRunningProcess ((k.setPcb pid f).setPcb pid g) =
      currTerminalRunningProcess k := fun _ _ => rfl
  simp only [buildProcess, hcurr, Buffer.strcpy_put, strlen_put]
  split_ifs with hc
  all_goals
    -- the block of the caller may be the one that is being written
    simp only [setPcb_termNum, implies_true]
    simp [hc, Kernel.setPcb, Kernel.setPd, Kernel.enterUser, Kernel.current, setActiveProcess,
      startProcess, newPcb, newParent, newTerm, Buffer.fresh, Buffer.put, Buffer.filled]

end Build

/-! ### What a call comes to -/

/-- The ways in which a call of `execute` can go. -/
inductive CallEffect (E : Env) (site : Site) (l : Locals) (command : CString) (k : Kernel) :
    ExecuteState → Prop
  | overran (hlong : ¬ CommandFits command) :
      CallEffect E site l command k
        ⟨(Buffer.fresh l.commandBuf).put (parseArg command).1,
          (Buffer.fresh l.args).put (parseArg command).2, none, .overran⟩
  | refused (hfits : CommandFits command)
      (hexec : execute E site command (k.setIflag false) = none) :
      CallEffect E site l command k
        ⟨(Buffer.fresh l.commandBuf).put (parseArg command).1,
          (Buffer.fresh l.args).put (parseArg command).2, none, .returned (-1) (k.setIflag false)⟩
  | faulted (hfits : CommandFits command) (m : Memory) (hload : LoadFaults E.img command)
      (hexec : (execute E site command (k.setIflag false)).isSome = true) :
      CallEffect E site l command k
        ⟨(Buffer.fresh l.commandBuf).put (parseArg command).1,
          (Buffer.fresh l.args).put (parseArg command).2,
          some ((Buffer.fresh m).put (parseArg command).2), .faulted⟩
  | started (hfits : CommandFits command) (m : Memory) (k' : Kernel)
      (hload : ¬ LoadFaults E.img command)
      (hexec : execute E site command (k.setIflag false) = some k') :
      CallEffect E site l command k
        ⟨(Buffer.fresh l.commandBuf).put (parseArg command).1,
          (Buffer.fresh l.args).put (parseArg command).2,
          some ((Buffer.fresh m).put (parseArg command).2), .started k'⟩

/-- **The statements of `execute` come to what `execute` says**, unless a copy leaves its array or
the page. -/
theorem callEffect (E : Env) (site : Site) (l : Locals) (command : CString) (k : Kernel) :
    CallEffect E site l command k (executeCall E site l command k) := by
  simp only [executeCall, parseArgCall_eq, Buffer.within_fresh_put, buildProcess_eq, ofMem_put]
  by_cases hfits : (parseArg command).1.bytes.length < argsMax ∧
      (parseArg command).2.bytes.length < argsMax
  · rw [if_neg (not_not.2 hfits)]
    rcases readDentryByName_cases E.img (parseArg command).1 with ⟨m, -, hfound⟩ | hnone
    · -- the entry is found: the header of its inode decides
      have hcheck := checkExecutable_of_found hfound
      have hinode : Dentry.inode (copy l.dentry (dentryAt E.img m) bytesDentry) =
          entryInode E.img m := inode_copy _ _
      simp only [hfound, if_neg (show (0 : ℤ) ≠ -1 by decide), hinode]
      rw [header_ite l.buf]
      by_cases hx : Executable E.img (entryInode E.img m)
      · rw [if_pos hx] at hcheck
        rw [if_pos hx]
        have hfaults : LoadFaults E.img command ↔
            loadRoom < inodeLength E.img (entryInode E.img m) := by
          rw [LoadFaults, hcheck]
          simp [inode_copy, entryInode]
        cases hadd : addProcess (k.setIflag false) with
        | none => exact .refused hfits (by simp only [execute, hcheck, hadd])
        | some r =>
          have hsame : startProcess E site r.1 (copy l.dentry (dentryAt E.img m) bytesDentry)
              (parseArg command).2 r.2 = startProcess E site r.1
                (copy (fun _ => 0) (dentryAt E.img m) bytesDentry) (parseArg command).2 r.2 :=
            startProcess_congr (hinode.trans (inode_copy _ _).symm)
          have hexec : execute E site command (k.setIflag false) = some (startProcess E site r.1
              (copy (fun _ => 0) (dentryAt E.img m) bytesDentry) (parseArg command).2 r.2) := by
            simp only [execute, hcheck, hadd]
          simp only [hfits.2, not_true_eq_false, if_false, hsame, ← hfaults]
          by_cases hload : LoadFaults E.img command
          · rw [if_pos hload]
            exact .faulted hfits _ hload (Option.isSome_of_eq_some hexec)
          · rw [if_neg hload]
            exact .started hfits _ _ hload hexec
      · rw [if_neg hx] at hcheck
        rw [if_neg hx]
        exact .refused hfits (by simp only [execute, hcheck])
    · have hexec : execute E site command (k.setIflag false) = none := by
        simp only [execute, checkExecutable_of_missing hnone]
      simp only [hnone, if_true]
      exact .refused hfits hexec
  · rw [if_pos hfits]
    exact .overran hfits

/-- The first word is copied, whatever becomes of the call. -/
theorem executeCall_commandBuf (E : Env) (site : Site) (l : Locals) (command : CString)
    (k : Kernel) : (executeCall E site l command k).commandBuf =
      (Buffer.fresh l.commandBuf).put (parseArg command).1 := by
  have h := callEffect E site l command k
  generalize executeCall E site l command k = x at h ⊢
  cases h <;> rfl

/-- **A call of `execute` stores inside its arrays** exactly if both parts of the command fit. -/
theorem storesInside_iff (E : Env) (site : Site) (l : Locals) (command : CString) (k : Kernel) :
    StoresInside (executeCall E site l command k) ↔ CommandFits command := by
  have h := callEffect E site l command k
  generalize executeCall E site l command k = x at h ⊢
  cases h with
  | overran hlong =>
    refine iff_of_false (fun hin => hlong ?_) hlong
    exact ⟨Buffer.within_fresh_put.1 hin.1, Buffer.within_fresh_put.1 hin.2.1⟩
  | refused hfits =>
    refine iff_of_true ⟨?_, ?_, fun b hb => absurd hb (by simp)⟩ hfits
    · exact Buffer.within_fresh_put.2 hfits.1
    · exact Buffer.within_fresh_put.2 hfits.2
  | faulted hfits m | started hfits m =>
    refine iff_of_true ⟨?_, ?_, fun b hb => ?_⟩ hfits
    · exact Buffer.within_fresh_put.2 hfits.1
    · exact Buffer.within_fresh_put.2 hfits.2
    · rw [← Option.mem_some_iff.1 hb]
      exact Buffer.within_fresh_put.2 hfits.2

/-- The command of 128 times the letter `a`. -/
def longCommand : CString where
  bytes := List.replicate 128 97
  noNul := by simp
  short := by simp

/-- The local variables of `execute` on a stack of zeros. -/
def zeroLocals : Locals := ⟨fun _ => 0, fun _ => 0, fun _ => 0, fun _ => 0⟩

/-- The first shell passes a word of 128 letters: its NUL is stored behind the array. -/
theorem longCommand_overruns :
    argsMax ∈ (executeCall small .syscall zeroLocals longCommand
        (smallState [.key 0])).commandBuf.stores ∧
      ¬ StoresInside (executeCall small .syscall zeroLocals longCommand
        (smallState [.key 0])) := by
  have hword : (parseArg longCommand).1.bytes.length = argsMax := by decide +kernel
  constructor
  · rw [executeCall_commandBuf, Buffer.put, hword]
    exact List.mem_append_left _ (by simp)
  · rintro ⟨hin, -⟩
    rw [executeCall_commandBuf, Buffer.within_fresh_put, hword] at hin
    exact lt_irrefl _ hin

end LinuxIsLove
