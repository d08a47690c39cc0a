import LinuxIsLove.Foundation.Buffers
import LinuxIsLove.Foundation.Loops

/-!
# `lib.c`: `itoa`, `strrev`, `puts` and `printf`; `ece391support.c`: `ece391_itoa`

The fuel bounds the rounds of each loop; a function that runs out of it has no result.  A buffer is
given with the position `p` of the pointer in it.  `strlen` of the library scans for the NUL, in
both files.
-/

namespace LinuxIsLove.Lib

open Bytes Loops

/-! ### Reversing a string -/

/-- The variables of `strrev`; `last` is `end` in the source. -/
structure RevState where
  beg : ℤ
  last : ℤ
  buf : Buffer

/-- A round of the loop: two characters change places. -/
def strrevRound (p : ℕ) (s : RevState) : RevState :=
  let tmp := s.buf.bytes (p + s.last.toNat)
  let buf := s.buf.set (p + s.last.toNat) (s.buf.bytes (p + s.beg.toNat))
  { beg := s.beg + 1, last := s.last - 1, buf := buf.set (p + s.beg.toNat) tmp }

def strrevLoop (p : ℕ) : ℕ → RevState → Option RevState :=
  loopWhile (fun s => s.beg < s.last) (strrevRound p)

/-- The index of the last character, as a signed integer. -/
def lastIndex (m : Memory) (p : ℕ) : ℤ := s32 (u32 ((strlen m p : ℤ) - 1))

def strrev (fuel p : ℕ) (s : Buffer) : Option Buffer :=
  (strrevLoop p fuel ⟨0, lastIndex s.bytes p, s⟩).map RevState.buf

def ece391Strrev (fuel p : ℕ) (s : Buffer) : Option Buffer :=
  if lastIndex s.bytes p ≤ 0 then some s
  else (strrevLoop p fuel ⟨0, lastIndex s.bytes p, s⟩).map RevState.buf

/-! ### Numbers -/

def lookup (i : ℕ) : UInt8 :=
  ("0123456789ABCDEFGHIJKLMNOPQRSTUVWXYZ".toList.map fun c => UInt8.ofNat c.toNat).getD i 0

/-- The variables of `itoa`; `newbuf` is a position in the buffer. -/
structure ItoaState where
  newval : ℕ
  newbuf : ℕ
  buf : Buffer

/-- A round of the loop: one digit, the least significant one that is left. -/
def itoaRound (radix : ℕ) (s : ItoaState) : ItoaState where
  newval := s.newval / radix
  newbuf := s.newbuf + 1
  buf := s.buf.set s.newbuf (lookup (s.newval % radix))

def itoaLoop (radix : ℕ) : ℕ → ItoaState → Option ItoaState :=
  loopWhile (fun s => 0 < s.newval) (itoaRound radix)

def zeroDigit : UInt8 := 0x30
def minusSign : UInt8 := 0x2D

/-- What `itoa` and `ece391_itoa` share; they differ in the function that reverses the digits. -/
def itoaWith (rev : ℕ → ℕ → Buffer → Option Buffer) (fuel : ℕ) (value : BitVec 32) (p : ℕ)
    (radix : BitVec 32) (buf : Buffer) : Option Buffer :=
  if value = 0 then some ((buf.set p zeroDigit).set (p + 1) 0)
  else
    (itoaLoop radix.toNat fuel ⟨value.toNat, p, buf⟩).bind fun s =>
      rev fuel p (s.buf.set s.newbuf 0)

def itoa : ℕ → BitVec 32 → ℕ → BitVec 32 → Buffer → Option Buffer := itoaWith strrev

def ece391Itoa : ℕ → BitVec 32 → ℕ → BitVec 32 → Buffer → Option Buffer := itoaWith ece391Strrev

/-! ### Output -/

/-- The variables of `puts`: the index, and what `putc` has been called with. -/
structure PutsState where
  index : ℕ
  out : List UInt8

def putsLoop (m : Memory) (p : ℕ) : ℕ → PutsState → Option PutsState :=
  loopWhile (fun s => m (p + s.index) != 0) fun s => ⟨s.index + 1, s.out ++ [m (p + s.index)]⟩

def puts (fuel : ℕ) (m : Memory) (p : ℕ) : Option (List UInt8) :=
  (putsLoop m p fuel ⟨0, []⟩).map PutsState.out

/-- The loop of the alternate form: `while (i < 8) conv_buf[i++] = '0';` -/
def fillZerosLoop : ℕ → ℕ × Buffer → Option (ℕ × Buffer) :=
  loopWhile (fun s => s.1 < 8) fun s => (s.1 + 1, s.2.set s.1 zeroDigit)

def fillZeros (fuel i : ℕ) (buf : Buffer) : Option Buffer :=
  (fillZerosLoop fuel (i, buf)).map Prod.snd

/-! ### The conversions of a number; `convBuf` is the uninitialised array on the stack -/

def convX (fuel : ℕ) (alternate : Bool) (convBuf : Buffer) (arg : BitVec 32) :
    Option (List UInt8) :=
  if alternate = false then
    (itoa fuel arg 0 16 convBuf).bind fun convBuf => puts fuel convBuf.bytes 0
  else
    (itoa fuel arg 8 16 convBuf).bind fun convBuf =>
      let startingIndex := strlen convBuf.bytes 8
      (fillZeros fuel startingIndex convBuf).bind fun convBuf =>
        puts fuel convBuf.bytes startingIndex

def convU (fuel : ℕ) (convBuf : Buffer) (arg : BitVec 32) : Option (List UInt8) :=
  (itoa fuel arg 0 10 convBuf).bind fun convBuf => puts fuel convBuf.bytes 0

def convD (fuel : ℕ) (convBuf : Buffer) (value : BitVec 32) : Option (List UInt8) :=
  (if value.toInt < 0 then itoa fuel (-value) 1 10 (convBuf.set 0 minusSign)
    else itoa fuel value 0 10 convBuf).bind fun convBuf => puts fuel convBuf.bytes 0

/-! ### `printf` -/

def percentSign : UInt8 := 0x25
def hashSign : UInt8 := 0x23
def letterX : UInt8 := 0x78
def letterU : UInt8 := 0x75
def letterD : UInt8 := 0x64
def letterC : UInt8 := 0x63
def letterS : UInt8 := 0x73

/-- What a call finds in memory: the format from its first byte on, the words behind it on the
stack, the memory that holds the strings, and what `conv_buf` happens to hold at each conversion. -/
structure PrintfCall where
  format : Memory
  args : ℕ → BitVec 32
  mem : Memory
  convBuf : ℕ → Memory

/-- The variables of `printf`, the positions counted from the format and from the first argument;
what has been put out; and the positions of the format that have been read. -/
structure PrintfState where
  buf : ℕ
  esp : ℕ
  out : List UInt8
  reads : List ℕ

namespace PrintfState

def start : PrintfState := ⟨0, 0, [], []⟩

/-- The byte at `buf` is read. -/
def read (s : PrintfState) : PrintfState := { s with reads := s.reads ++ [s.buf] }

/-- `buf++` -/
def next (s : PrintfState) : PrintfState := { s with buf := s.buf + 1 }

def put (s : PrintfState) (bytes : List UInt8) : PrintfState := { s with out := s.out ++ bytes }

/-- The end of a conversion that took an argument. -/
def took (s : PrintfState) (bytes : List UInt8) : PrintfState :=
  { s with esp := s.esp + 1, out := s.out ++ bytes }

end PrintfState

/-- What follows the label `format_char_switch`; the fuel bounds the jumps back to it. -/
def formatCharSwitch (fuel : ℕ) (c : PrintfCall) : ℕ → Bool → PrintfState → Option PrintfState
  | 0, _, _ => none
  | jumps + 1, alternate, s =>
    let char := c.format s.buf
    let arg := c.args s.esp
    let convBuf := Buffer.fresh (c.convBuf s.buf)
    let s := s.read
    if char = percentSign then some (s.put [percentSign])
    else if char = hashSign then formatCharSwitch fuel c jumps true s.next
    else if char = letterX then (convX fuel alternate convBuf arg).map s.took
    else if char = letterU then (convU fuel convBuf arg).map s.took
    else if char = letterD then (convD fuel convBuf arg).map s.took
    else if char = letterC then some (s.took [UInt8.ofBitVec (arg.setWidth 8)])
    else if char = letterS then (puts fuel c.mem arg.toNat).map s.took
    else some s

def printfLoop (fuel : ℕ) (c : PrintfCall) : ℕ → PrintfState → Option PrintfState
  | 0, _ => none
  | rounds + 1, s =>
    let char := c.format s.buf
    let s := s.read
    if char = 0 then some s
    else if char = percentSign then
      (formatCharSwitch fuel c fuel false s.next).bind fun s => printfLoop fuel c rounds s.next
    else printfLoop fuel c rounds (s.put [char]).next

/-- The final state of a call; it returns `buf`, the number of bytes gone over. -/
def printf (fuel : ℕ) (c : PrintfCall) : Option PrintfState := printfLoop fuel c fuel .start

end LinuxIsLove.Lib
