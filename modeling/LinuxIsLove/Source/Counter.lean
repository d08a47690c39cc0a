import LinuxIsLove.Source.Programs
import LinuxIsLove.Source.Printf

/-!
# `ece391hello.c` and `ece391counter.c`: programs that read a line
-/

namespace LinuxIsLove

open Bytes Clients

/-- `buf[cnt] = '\0'` after a `read` into the array. -/
def terminated (buf : Memory) (r : Reply) : Memory :=
  Function.update (putBytes buf 0 r.bytes) r.eax.toNat 0

def hello (buf : Memory) : Prog ℤ := do
  ece391Fdputs 1 (literal "Hi, what's your name? ") 0
  let r ← ece391Read 0 (bufSize - 1)
  if r.eax = -1 then
    ece391Fdputs 1 (literal "Can't read name from keyboard.\n") 0
    return 3
  ece391Fdputs 1 (literal "Hello, ") 0
  ece391Fdputs 1 (terminated buf r) 0
  return 0

/-- The `switch` of `counter`; `max` is 0 before it. -/
def counterMax (c : UInt8) : ℕ :=
  if c = 0x30 then 100 else if c = 0x31 then 10000 else if c = 0x32 then 100000 else 0

/-- The body of the loop of `counter`, on the array. -/
def counterRound (fuel : ℕ) (i : ℤ) (buf : Buffer) : Prog Buffer :=
  match Lib.ece391Itoa fuel (BitVec.ofInt 32 (i + 1)) 0 10 buf with
  | none => Client.stuck
  | some buf => do
    ece391Fdputs 1 buf.bytes 0
    ece391Fdputs 1 (literal "\n") 0
    return buf

def counter (buf : Memory) (fuel : ℕ) : Prog ℤ := do
  ece391Fdputs 1 (literal "Enter the Test Number: (0): 100, (1): 10000, (2): 100000\n") 0
  let r ← ece391Read 0 (bufSize - 1)
  if r.eax = -1 then
    ece391Fdputs 1 (literal "Can't read the number from keyboard.\n") 0
    return 3
  let buf := terminated buf r
  if 2 < strlen buf 0 ∨ strlen buf 0 = 2 ∧ (buf 0 < 0x30 ∨ 0x32 < buf 0) then
    ece391Fdputs 1 (literal "Wrong Choice!\n") 0
    return 0
  let _ ← Client.forRange (counterRound fuel) (counterMax (buf 0)) 0 ⟨buf, []⟩
  return 0

end LinuxIsLove
