import LinuxIsLove.Source.Support

/-!
# `ece391syserr.c`: the tests of the system calls

The value of a test is 0 if it has passed and 2 if not.  A number that is not in the table of the
system calls is answered by the entry code and reaches no function of the kernel, so `callSys` makes
no request.
-/

namespace LinuxIsLove

open Bytes Clients

def negFd : ℤ := -1073741823
def bigFd : ℤ := 1073741823
def bigNum : ℤ := 1073741823
def negNum : ℤ := -1073741823

/-- `call_sys` for a number that is not in the table. -/
def callSys (num : ℤ) : Prog ℤ :=
  if 1 ≤ num % 2 ^ 32 ∧ num % 2 ^ 32 ≤ 10 then Client.stuck else return -1

/-- `if (-1 != eax) { fail = 2; ece391_fdputs(1, msg); }` -/
def complain (msg : String) (fail eax : ℤ) : Prog ℤ := do
  if eax ≠ -1 then
    ece391Fdputs 1 (literal msg) 0
    return 2
  return fail

/-- The end of a test. -/
def verdict (name : String) (fail : ℤ) : Prog ℤ := do
  if fail ≠ 0 then
    ece391Fdputs 1 (literal (name ++ ": FAIL\n")) 0
  else
    ece391Fdputs 1 (literal (name ++ ": PASS\n")) 0
  return fail

/-- What `err_neg_fd` and `err_big_fd` share. -/
def errFd (fd : ℤ) (name : String) (buf : Memory) : Prog ℤ := do
  let r ← ece391Read fd 31
  let buf := putBytes buf 0 r.bytes
  let fail ← complain "read fail\n" 0 r.eax
  let fail ← complain "write fail\n" fail (← ece391Write fd buf 0 31)
  let fail ← complain "close fail\n" fail (← ece391Close fd)
  verdict name fail

def errNegFd (buf : Memory) : Prog ℤ := errFd negFd "err_neg_fd" buf

def errBigFd (buf : Memory) : Prog ℤ := errFd bigFd "err_big_fd" buf

def errOpenLots : Prog ℤ := do
  let cnt ← Client.forRange (fun _ cnt => do
    let fd ← ece391Open (cstring (literal ".") 0)
    return if fd = -1 then cnt + 1 else cnt) 7 0 (0 : ℤ)
  Client.forRange (fun i (_ : Unit) => do
    let _ ← ece391Close i) 6 2 ()
  if cnt = 1 then
    ece391Fdputs 1 (literal "err_open_lots: PASS\n") 0
    return 0
  else
    ece391Fdputs 1 (literal "err_open_lots: FAIL\n") 0
    return 2

def errOpen : Prog ℤ := do
  let fail ← complain "'helloo' fail\n" 0 (← ece391Open (cstring (literal "helloo") 0))
  let fail ← complain "'shel' fail\n" fail (← ece391Open (cstring (literal "shel") 0))
  let fail ← complain "empty string fail\n" fail (← ece391Open (cstring (literal "") 0))
  verdict "err_open" fail

def errUnopened (buf : Memory) : Prog ℤ := do
  let fail ← Client.forRange (fun i fail => do
    complain "close unopened or invalid fd fail\n" fail (← ece391Close i)) 8 0 0
  let (buf, fail) ← Client.forRange (fun i (buf, fail) => do
    let r ← ece391Read i 31
    let fail ← complain "read from unopened fd fail\n" fail r.eax
    return (putBytes buf 0 r.bytes, fail)) 6 2 (buf, fail)
  let fail ← Client.forRange (fun i fail => do
    complain "write to unopened fd fail\n" fail (← ece391Write i buf 0 31)) 6 2 fail
  verdict "err_unopened" fail

def errVidmap : Prog ℤ := do
  let fail ← complain "Null pointer fail\n" 0 (← ece391Vidmap 0)
  let fail ← complain "Kernel pointer fail fail\n" fail (← ece391Vidmap 0x400000)
  verdict "err_vidmap" fail

def errStdinOut (buf : Memory) : Prog ℤ := do
  let fail ← complain "write to stdin fail\n" 0 (← ece391Write 0 buf 0 31)
  let r ← ece391Read 1 31
  let fail ← complain "read from stdout fail\n" fail r.eax
  verdict "err_stdin_out" fail

def errSyscallNum : Prog ℤ := do
  let fail ← complain "syscall 0 fail\n" 0 (← callSys bigNum)
  let fail ← complain "big num syscall fail\n" fail (← callSys negNum)
  let fail ← complain "neg num syscall fail\n" fail (← callSys 0)
  verdict "err_syscall_num" fail

/-- The tests that are run one after the other, with what their arrays hold at the start. -/
def allTests (stack : ℕ → Memory) : Prog ℤ := do
  let fail1 ← errNegFd (stack 1)
  let fail2 ← errBigFd (stack 2)
  let fail3 ← errOpenLots
  let fail4 ← errOpen
  let fail5 ← errUnopened (stack 5)
  let fail6 ← errVidmap
  let fail7 ← errStdinOut (stack 7)
  let fail8 ← errSyscallNum
  let fail := fail1 + fail2 + fail3 + fail4 + fail5 + fail6 + fail7 + fail8
  if fail ≠ 0 then
    ece391Fdputs 1 (literal "\nOverall Tests: FAIL\n") 0
  else
    ece391Fdputs 1 (literal "\nOverall Tests: PASS\n") 0
  return fail

/-- `main`, which runs the tests that a line of the keyboard asks for. -/
def syserr (buf : Memory) (stack : ℕ → Memory) : Prog ℤ := do
  ece391Fdputs 1 (literal "Choose from tests 1-8. 0 to run all: ") 0
  let r ← ece391Read 0 127
  if r.eax = -1 then
    ece391Fdputs 1 (literal "Can't read test #\n") 0
    return 2
  let buf := putBytes buf 0 r.bytes
  match ((buf 0).toNat : ℤ) - 48 with
  | 0 => allTests stack
  | 1 => errNegFd (stack 1)
  | 2 => errBigFd (stack 2)
  | 3 => errOpenLots
  | 4 => errOpen
  | 5 => errUnopened (stack 5)
  | 6 => errVidmap
  | 7 => errStdinOut (stack 7)
  | 8 => errSyscallNum
  | _ =>
    ece391Fdputs 1 (literal "Invalid test number. Choose from tests 1-8 or 0") 0
    return 0

end LinuxIsLove
