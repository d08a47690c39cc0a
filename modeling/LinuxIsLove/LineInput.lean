import LinuxIsLove.UserPrograms
import LinuxIsLove.NumberFormatting
import LinuxIsLove.Source.Counter

/-!
# `hello` and `counter`

Both read one line of the keyboard.  The line ends at its first NUL for them.
-/

namespace LinuxIsLove

open Bytes EventMachine Clients Numerals

section Programs

variable {dir : List DirEntry} {args : List UInt8}

/-- A line as a string. -/
def lineString (line : List UInt8) : List UInt8 := line.takeWhile (· ≠ 0)

theorem length_lineString_le (line : List UInt8) : (lineString line).length ≤ line.length :=
  (List.takeWhile_prefix _).length_le

theorem cstring_terminated {buf : Memory} {line : List UInt8} (hlen : line.length < 2 ^ 32) :
    cstring (terminated buf ⟨line.length, line⟩) 0 = lineString line := by
  have hput : terminated buf ⟨line.length, line⟩ = putBytes buf 0 (line ++ [0]) := by
    rw [← update_putBytes, Nat.zero_add]
    rfl
  rw [hput, cstring_takeWhile hlen]
  rfl

/-! ### `hello` -/

/-- What `hello` writes for a line. -/
def helloText (line : List UInt8) : List UInt8 :=
  ascii "Hi, what's your name? " ++ ascii "Hello, " ++ lineString line

/-- **`hello`** greets with the line that it reads. -/
theorem meets_hello {buf : Memory} :
    Runs dir (hello buf)
      (fun v r => ∃ line, v.lines = [line] ∧ v.written = helloText line ∧ r = 0)
      (View.start args) := by
  refine meets_bind.2 (meets_puts (by decide +kernel) ?_)
  refine meets_bind.2 (meets_line (by decide) (by decide) fun line hline => ?_)
  have hlen : line.length ≤ 1023 := by
    have hbuf : ((bufSize : ℕ) : ℤ) - 1 = 1023 := rfl
    omega
  have heax : ((line.length : ℕ) : ℤ) ≠ -1 := by omega
  have hshort := length_lineString_le line
  rw [if_neg heax]
  refine meets_bind.2 (meets_puts (by decide +kernel) ?_)
  exact meets_bind.2 (meets_fdputs (cstring_terminated (by omega)) (by omega)
    ⟨line, rfl, rfl, rfl⟩)

/-! ### `counter` -/

/-- A number on a line of its own. -/
def counterLine (i : ℕ) : List UInt8 := numeral 10 (i + 1) ++ ascii "\n"

/-- What `counter` writes for a string. -/
def counterText (s : List UInt8) : List UInt8 :=
  if 2 < s.length ∨ s.length = 2 ∧ (s.headD 0 < 0x30 ∨ 0x32 < s.headD 0) then
    ascii "Wrong Choice!\n"
  else (List.range (counterMax (s.headD 0))).flatMap counterLine

theorem counterMax_le (c : UInt8) : counterMax c ≤ 100000 := by
  unfold counterMax
  split_ifs <;> decide

theorem cstring_wrote {b b' : Buffer} {p : ℕ} {text : List UInt8} (h : Lib.Wrote b p text b')
    (h0 : ∀ c ∈ text, c ≠ 0) (hlen : text.length < 2 ^ 32) : cstring b'.bytes p = text := by
  have hbytes : bytesAt b'.bytes p text.length = text := by
    refine List.ext_getElem (length_bytesAt _ _ _) fun i hi hi' => ?_
    rw [getElem_bytesAt, h.byte hi'.le, Lib.textMem, List.getD_eq_getElem _ _ hi']
  have hend : b'.bytes (p + text.length) = 0 := by
    rw [h.byte le_rfl, Lib.textMem_length]
  rw [cstring_eq hlen (by rwa [hbytes]) hend, hbytes]

/-- A round of the loop writes the next number. -/
theorem meets_counterRound {v : View} {buf : Buffer} {j fuel : ℕ} (hj : j < 100000)
    (hfuel : 32 ≤ fuel) :
    Runs dir (counterRound fuel j buf) (fun v' _ => Grown v (counterLine j) [] v') v := by
  have hvalue : (BitVec.ofInt 32 ((j : ℤ) + 1)).toNat = j + 1 := by
    rw [BitVec.toNat_ofInt]
    omega
  obtain ⟨b', hitoa, hwrote⟩ : ∃ b', Lib.ece391Itoa fuel (BitVec.ofInt 32 ((j : ℤ) + 1)) 0 10 buf =
      some b' ∧ Lib.Wrote buf 0 (numeral 10 (BitVec.ofInt 32 ((j : ℤ) + 1)).toNat) b' :=
    Lib.itoaWith_spec Lib.ece391Strrev_reverses (by decide) (by decide) hfuel 0 buf
  rw [hvalue] at hwrote
  have hlen : (numeral 10 (j + 1)).length ≤ 32 := hvalue ▸ Lib.numeral_length_le_32 le_add_self _
  have hstr := cstring_wrote hwrote (numeral_ne_zero (by decide) (by decide)) (by omega)
  rw [counterRound, hitoa]
  refine meets_bind.2 (meets_fdputs hstr (by omega) ?_)
  exact meets_bind.2 (meets_puts (by decide +kernel)
    ((grown_written v _).trans (grown_written _ _)))

/-- The loop writes the numbers from 1 on. -/
theorem meets_counterLoop {v : View} {buf : Buffer} {n fuel : ℕ} (hn : n ≤ 100000)
    (hfuel : 32 ≤ fuel) :
    Runs dir (Client.forRange (counterRound fuel) n 0 buf)
      (fun v' _ => Grown v ((List.range n).flatMap counterLine) [] v') v := by
  refine meets_forRange (I := fun j v' _ => Grown v ((List.range j).flatMap counterLine) [] v') ?_
    (fun _ _ h => h) (Grown.refl v)
  intro j hj v' buf hgrown
  rw [zero_add]
  refine (meets_counterRound (by omega) hfuel).mono fun v'' _ hline => ?_
  rw [List.range_succ, List.flatMap_append, List.flatMap_singleton]
  exact hgrown.trans hline

/-- What `counter` writes first. -/
def counterPrompt : List UInt8 :=
  ascii "Enter the Test Number: (0): 100, (1): 10000, (2): 100000\n"

/-- **`counter`** counts as far as the line says. -/
theorem meets_counter {buf : Memory} {fuel : ℕ} (hfuel : 32 ≤ fuel) :
    Runs dir (counter buf fuel)
      (fun v r => ∃ line, v.lines = [line] ∧
        v.written = counterPrompt ++ counterText (lineString line) ∧ r = 0)
      (View.start args) := by
  refine meets_bind.2 (meets_puts (by decide +kernel) ?_)
  refine meets_bind.2 (meets_line (by decide) (by decide) fun line hline => ?_)
  have hlen : line.length ≤ 1023 := by
    have hbuf : ((bufSize : ℕ) : ℤ) - 1 = 1023 := rfl
    omega
  have heax : ((line.length : ℕ) : ℤ) ≠ -1 := by omega
  rw [if_neg heax]
  have hstr : cstring (terminated buf ⟨line.length, line⟩) 0 = lineString line :=
    cstring_terminated (by omega)
  have hstrlen : strlen (terminated buf ⟨line.length, line⟩) 0 = (lineString line).length := by
    rw [← hstr, length_cstring]
  have hhead : terminated buf ⟨line.length, line⟩ 0 = (lineString line).headD 0 := by
    rw [← hstr, headD_cstring]
    rw [hstr]
    exact lt_of_le_of_lt ((length_lineString_le line).trans hlen) (by decide)
  refine Meets.mono (?_ : Meets _ _ _ (fun v (r : ℤ) => Grown
    { View.start args with written := counterPrompt, lines := [line] }
    (counterText (lineString line)) [] v ∧ r = 0) _) ?_
  · dsimp only
    rw [hstrlen, hhead, counterText]
    split_ifs
    · exact meets_bind.2 (meets_puts (by decide +kernel) ⟨grown_written _ _, rfl⟩)
    · refine meets_bind.2 ((meets_counterLoop (counterMax_le _) hfuel).mono fun v _ h => ?_)
      exact ⟨h, rfl⟩
  · rintro v r ⟨hgrown, rfl⟩
    exact ⟨line, hgrown.lines, hgrown.written, rfl⟩

end Programs

/-! ### On the kernel -/

section Kernel

variable {E : Env} {k k1 k2 : Kernel} {p : ℕ} {command : CString} {es : List Event}

/-- **`hello` on the kernel.** -/
theorem hello_on_kernel (hw : WellFormed E.img) (hk : Reachable E k)
    (hshort : command.bytes.length < argsMax) (hstep : step E k (.execute command) = some k1)
    (hp : Starts k k1 p) (hrun : run (step E) k1 es = some k2) {buf : Memory} {rest : Prog ℤ}
    (hfollows : Follows (exchanges (step E) (exchange E p) k1 es) (hello buf) rest) :
    RunsProgram E p k2 (exchanges (step E) (exchange E p) k1 es) rest fun lines out r =>
      ∃ line, lines = [line] ∧ out = helloText line ∧ r = 0 :=
  runsProgram hw hk hshort hstep hp hrun meets_hello hfollows

/-- The second shell of the small machine makes the calls of `hello`.  A third shell is started
after the first key of the line. -/
def secondHello : List Event :=
  writeList (ascii "Hi, what's your name? ") ++
  [.arm 0 0x8000000, .type 65, .key 1, .tick, .key 0, .type 100, .type 97, .type 13, .tick,
    .read 0 0x8000000 1023] ++
  writeList (ascii "Hello, ") ++ writeList (ascii "Ada\n")

theorem secondHello_exchanges :
    exchanges (step small) (exchange small 2) (smallState [.key 0, .execute shell]) secondHello =
      [(.write 1 22 (ascii "Hi, what's your name? "), ⟨22, []⟩),
        (.read 0 1023, ⟨4, ascii "Ada\n"⟩), (.write 1 7 (ascii "Hello, "), ⟨7, []⟩),
        (.write 1 4 (ascii "Ada\n"), ⟨4, []⟩)] := by
  decide +kernel

theorem hello_on_kernel_shell :
    RunsProgram small 2 (smallState ([.key 0, .execute shell] ++ secondHello))
      (exchanges (step small) (exchange small 2) (smallState [.key 0, .execute shell])
        secondHello) (.ret 0) fun lines out r =>
      ∃ line, lines = [line] ∧ out = helloText line ∧ r = 0 := by
  have hsome : (run (step small) (boot small)
      ([.key 0, .execute shell] ++ secondHello)).isSome = true := by decide +kernel
  obtain ⟨hk, hstep, hrun⟩ := second_run hsome
  refine @hello_on_kernel small _ _ _ 2 shell secondHello smallImg_wellFormed hk (by decide) hstep
    shell_started hrun (fun _ => 0) (.ret 0) ?_
  rw [secondHello_exchanges]
  decide +kernel

/-- **`counter` on the kernel.** -/
theorem counter_on_kernel (hw : WellFormed E.img) (hk : Reachable E k)
    (hshort : command.bytes.length < argsMax) (hstep : step E k (.execute command) = some k1)
    (hp : Starts k k1 p) (hrun : run (step E) k1 es = some k2) {buf : Memory} {fuel : ℕ}
    {rest : Prog ℤ} (hfuel : 32 ≤ fuel)
    (hfollows : Follows (exchanges (step E) (exchange E p) k1 es) (counter buf fuel) rest) :
    RunsProgram E p k2 (exchanges (step E) (exchange E p) k1 es) rest fun lines out r =>
      ∃ line, lines = [line] ∧ out = counterPrompt ++ counterText (lineString line) ∧ r = 0 :=
  runsProgram hw hk hshort hstep hp hrun (meets_counter hfuel) hfollows

/-- The second shell of the small machine makes the calls of `counter` for a number that there is
not. -/
def secondCounter : List Event :=
  writeList counterPrompt ++
  [.arm 0 0x8000000, .type 55, .type 13, .rtcInterrupt, .read 0 0x8000000 1023] ++
  writeList (ascii "Wrong Choice!\n")

theorem secondCounter_exchanges :
    exchanges (step small) (exchange small 2) (smallState [.key 0, .execute shell])
        secondCounter =
      [(.write 1 57 counterPrompt, ⟨57, []⟩), (.read 0 1023, ⟨2, ascii "7\n"⟩),
        (.write 1 14 (ascii "Wrong Choice!\n"), ⟨14, []⟩)] := by
  decide +kernel

theorem counter_on_kernel_shell :
    RunsProgram small 2 (smallState ([.key 0, .execute shell] ++ secondCounter))
      (exchanges (step small) (exchange small 2) (smallState [.key 0, .execute shell])
        secondCounter) (.ret 0) fun lines out r =>
      ∃ line, lines = [line] ∧ out = counterPrompt ++ counterText (lineString line) ∧ r = 0 := by
  have hsome : (run (step small) (boot small)
      ([.key 0, .execute shell] ++ secondCounter)).isSome = true := by decide +kernel
  obtain ⟨hk, hstep, hrun⟩ := second_run hsome
  refine @counter_on_kernel small _ _ _ 2 shell secondCounter smallImg_wellFormed hk (by decide)
    hstep shell_started hrun (fun _ => 0) 32 (.ret 0) le_rfl ?_
  rw [secondCounter_exchanges]
  decide +kernel

end Kernel

end LinuxIsLove
