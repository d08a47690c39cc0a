import LinuxIsLove.Source.Support

/-!
# `ece391cat.c`, `ece391ls.c` and `ece391grep.c`

The value of a program is what `main` returns.  `doOneFile` is the part of `grep` that searches one
file: it reads the file into an array of 1025 bytes, searches the lines that are complete, and moves
the rest to the start of the array before it reads on.
-/

namespace LinuxIsLove

open Bytes Clients

def bufSize : ℕ := 1024
def sbufSize : ℕ := 33

def newline : UInt8 := 10

/-! ### `cat` -/

/-- One round of the loop: the array, or the value that `main` returns. -/
def catRound (fd : ℤ) (buf : Memory) : Prog (Memory ⊕ ℤ) := do
  let r ← ece391Read fd bufSize
  if r.eax = 0 then return .inr 0
  if r.eax = -1 then
    ece391Fdputs 1 (literal "file read failed\n") 0
    return .inr 3
  let buf := putBytes buf 0 r.bytes
  let w ← ece391Write 1 buf 0 r.eax
  if w = -1 then return .inr 3
  return .inl buf

def cat (buf : Memory) (fuel : ℕ) : Prog ℤ := do
  let r ← ece391Getargs bufSize
  if r.eax ≠ 0 then
    ece391Fdputs 1 (literal "could not read arguments\n") 0
    return 3
  let buf := putBytes buf 0 (r.bytes ++ [0])
  let fd ← ece391Open (cstring buf 0)
  if fd = -1 then
    ece391Fdputs 1 (literal "file not found\n") 0
    return 2
  Client.loop (catRound fd) fuel buf

/-! ### `ls` -/

def lsRound (fd : ℤ) (buf : Memory) : Prog (Memory ⊕ ℤ) := do
  let r ← ece391Read fd (sbufSize - 1)
  if r.eax = 0 then return .inr 0
  if r.eax = -1 then
    ece391Fdputs 1 (literal "directory entry read failed\n") 0
    return .inr 3
  let buf := Function.update (putBytes buf 0 r.bytes) r.eax.toNat newline
  let w ← ece391Write 1 buf 0 (r.eax + 1)
  if w = -1 then return .inr 3
  return .inl buf

def ls (buf : Memory) (fuel : ℕ) : Prog ℤ := do
  let fd ← ece391Open (cstring (literal ".") 0)
  if fd = -1 then
    ece391Fdputs 1 (literal "directory open failed\n") 0
    return 2
  Client.loop (lsRound fd) fuel buf

/-! ### `grep` -/

/-- `while (line_end < last && '\n' != data[line_end]) line_end++;`, with `n` steps to `last`. -/
def lineEndLoop (data : Memory) : ℕ → ℕ → ℕ
  | 0, lineEnd => lineEnd
  | n + 1, lineEnd => if data lineEnd ≠ newline then lineEndLoop data n (lineEnd + 1) else lineEnd

/-- The test that the loop over `check` makes; the loop is left at the first match. -/
def lineMatches (s data : Memory) (sLen : ℕ) : ℕ → ℕ → Bool
  | 0, _ => false
  | n + 1, check =>
    (s 0 = data check ∧ ece391Strncmp data check s 0 sLen = 0) ∨
      lineMatches s data sLen n (check + 1)

/-- Search the line and write it when it matches. -/
def checkLine (s fname data : Memory) (sLen lineStart lineEnd : ℕ) : Prog Unit := do
  if lineMatches s data sLen (lineEnd - lineStart) lineStart then
    ece391Fdputs 1 fname 0
    ece391Fdputs 1 (literal ":") 0
    ece391Fdputs 1 data lineStart
    ece391Fdputs 1 (literal "\n") 0

/-- One round of the loop over the lines in the array: the array and `line_start`, or the array and
`last` when the loop is left. -/
def searchLine (s fname : Memory) (sLen last : ℕ) (cnt : ℤ) :
    Memory × ℕ → Prog ((Memory × ℕ) ⊕ (Memory × ℕ))
  | (data, lineStart) => do
    let lineEnd := lineEndLoop data (last - lineStart) lineStart
    if data lineEnd ≠ newline ∧ cnt ≠ 0 ∧ lineStart ≠ 0 then
      let data := Function.update data lineEnd 0
      return .inr (ece391Strcpy data 0 lineStart, last - lineStart)
    let data := Function.update data lineEnd 0
    checkLine s fname data sLen lineStart lineEnd
    if last ≤ lineEnd + 1 then return .inr (data, 0)
    return .inl (data, lineEnd + 1)

/-- One round of the loop over the file: the array and `last`, or whether the loop was left because
of a failed read. -/
def searchChunk (s fname : Memory) (sLen : ℕ) (fd : ℤ) (fuel : ℕ) :
    Memory × ℕ → Prog ((Memory × ℕ) ⊕ Bool)
  | (data, last) => do
    let r ← ece391Read fd (bufSize - last)
    if r.eax = -1 then
      ece391Fdputs 1 (literal "file read failed\n") 0
      return .inr true
    let data := putBytes data last r.bytes
    let next ← Client.loop (searchLine s fname sLen (last + r.eax.toNat) r.eax) fuel (data, 0)
    if r.eax = 0 then return .inr false
    return .inl next

def doOneFile (data s fname : Memory) (fuel : ℕ) : Prog ℤ := do
  let sLen := strlen s 0
  let fd ← ece391Open (cstring fname 0)
  if fd = -1 then
    ece391Fdputs 1 (literal "file open failed\n") 0
    return -1
  let failed ← Client.loop (searchChunk s fname sLen fd fuel) fuel (data, 0)
  if failed then return -1
  let c ← ece391Close fd
  if c = -1 then
    ece391Fdputs 1 (literal "file close failed\n") 0
    return -1
  return 0

/-- One round of the loop over the directory: the array and the number of the entry, or the value
that `main` returns. -/
def grepRound (search : Memory) (stack : ℕ → Memory) (fd : ℤ) (fuel : ℕ) :
    Memory × ℕ → Prog ((Memory × ℕ) ⊕ ℤ)
  | (buf, n) => do
    let r ← ece391Read fd (sbufSize - 1)
    if r.eax = 0 then return .inr 0
    if r.eax = -1 then
      ece391Fdputs 1 (literal "directory entry read failed\n") 0
      return .inr 3
    let buf := putBytes buf 0 r.bytes
    if buf 0 = 0x2E then return .inl (buf, n + 1)
    let buf := Function.update buf r.eax.toNat 0
    let found ← doOneFile (stack n) search buf fuel
    if found ≠ 0 then return .inr 3
    return .inl (buf, n + 1)

/-- The arrays `buf` and `search`, and what the array of `do_one_file` holds in each call. -/
def grep (buf search : Memory) (stack : ℕ → Memory) (fuel : ℕ) : Prog ℤ := do
  let r ← ece391Getargs bufSize
  if r.eax ≠ 0 then
    ece391Fdputs 1 (literal "could not read argument\n") 0
    return 3
  let search := putBytes search 0 (r.bytes ++ [0])
  let fd ← ece391Open (cstring (literal ".") 0)
  if fd = -1 then
    ece391Fdputs 1 (literal "directory open failed\n") 0
    return 2
  Client.loop (grepRound search stack fd fuel) fuel (buf, 0)

end LinuxIsLove
