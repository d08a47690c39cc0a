import LinuxIsLove.Foundation.Blocks
import LinuxIsLove.Foundation.Loops

/-!
# `lib.c`: `memcpy`, `memset` and `memmove`

The three routines are inline assembly.  A label with a jump back to it is a loop, and the code
between two labels is a function on the registers and the memory.  All segments are flat, so the
moves of `ds` to `es` are left out.

The fuel bounds the rounds of each loop; a routine that runs out of it has no result.
-/

namespace LinuxIsLove

open Bytes Loops

/-- The registers the routines use, the direction flag and the memory. -/
structure Cpu where
  eax : BitVec 32
  ecx : BitVec 32
  edx : BitVec 32
  esi : BitVec 32
  edi : BitVec 32
  df : Bool
  mem : Memory

namespace Cpu

def al (c : Cpu) : UInt8 := UInt8.ofBitVec (c.eax.setWidth 8)

def setAl (c : Cpu) (b : UInt8) : Cpu :=
  { c with eax := c.eax &&& 0xFFFFFF00#32 ||| b.toBitVec.setWidth 32 }

/-- Where a string instruction on `w` bytes moves a pointer: down if the direction flag is set. -/
def advance (c : Cpu) (p : BitVec 32) (w : ℕ) : BitVec 32 :=
  if c.df then p - BitVec.ofNat 32 w else p + BitVec.ofNat 32 w

/-- Store `w` bytes from `edi` on. -/
def store (c : Cpu) (src : Memory) (w : ℕ) : Memory := blockSet c.mem c.edi.toNat src w

/-- `movsb` and `movsl`, for `w` of 1 and 4: the bytes are all read before one is stored. -/
def movs (w : ℕ) (c : Cpu) : Cpu :=
  { c with
    mem := c.store (window c.mem c.esi.toNat) w
    esi := c.advance c.esi w
    edi := c.advance c.edi w }

/-- The bytes of `eax`, the lowest first. -/
def eaxBytes (c : Cpu) : Memory := fun i => UInt8.ofBitVec ((c.eax >>> (8 * i)).setWidth 8)

def stosl (c : Cpu) : Cpu := { c with mem := c.store c.eaxBytes 4, edi := c.advance c.edi 4 }

/-- The prefix `rep`: once for each count in `ecx`. -/
def rep (instr : Cpu → Cpu) : ℕ → Cpu → Option Cpu :=
  loopWhile (fun c => c.ecx != 0) fun c => { instr c with ecx := c.ecx - 1 }

end Cpu

/-! ### The code of `memcpy` and `memset`

Both copy single bytes until `edi` is aligned, then words, then the bytes that are left.  They
differ in what they do for a byte and for a word. -/

/-- `.memcpy_top` and `.memset_top`. -/
def chunkTop (byte : Cpu → Cpu) : ℕ → Cpu → Option Cpu :=
  loopWhile (fun c => c.ecx != 0 && c.edi &&& 3#32 != 0) fun c =>
    { byte c with ecx := c.ecx - 1 }

/-- `.memcpy_bottom` and `.memset_bottom`. -/
def chunkBottom (byte : Cpu → Cpu) : ℕ → Cpu → Option Cpu :=
  loopWhile (fun c => c.edx != 0) fun c => { byte c with edx := c.edx - 1 }

/-- `.memcpy_aligned` and `.memset_aligned`, up to the end. -/
def chunkAligned (byte word : Cpu → Cpu) (fuel : ℕ) (c : Cpu) : Option Cpu :=
  (Cpu.rep word fuel { c with ecx := c.ecx >>> 2, edx := c.ecx &&& 3#32, df := false }).bind
    (chunkBottom byte fuel)

def chunked (byte word : Cpu → Cpu) (fuel : ℕ) (c : Cpu) : Option Cpu :=
  (chunkTop byte fuel c).bind fun c =>
    if c.ecx = 0 then some c else chunkAligned byte word fuel c

/-- `movb (%esi), %al`, `movb %al, (%edi)` and the two additions. -/
def copyByte (c : Cpu) : Cpu :=
  let c := c.setAl (c.mem c.esi.toNat)
  { c with mem := Function.update c.mem c.edi.toNat c.al, edi := c.edi + 1, esi := c.esi + 1 }

def setByte (c : Cpu) : Cpu :=
  { c with mem := Function.update c.mem c.edi.toNat c.al, edi := c.edi + 1 }

/-- The registers hold arbitrary values where the routine does not set them: `c`. -/
def memcpy (fuel : ℕ) (dest src n : BitVec 32) (c : Cpu) : Option (BitVec 32 × Memory) :=
  (chunked copyByte (Cpu.movs 4) fuel { c with esi := src, edi := dest, ecx := n }).map
    fun c => (dest, c.mem)

def memset (fuel : ℕ) (s c n : BitVec 32) (r : Cpu) : Option (BitVec 32 × Memory) :=
  let c := c &&& 0xFF#32
  let eax := c <<< 24 ||| c <<< 16 ||| c <<< 8 ||| c
  (chunked setByte Cpu.stosl fuel { r with eax := eax, edi := s, ecx := n }).map
    fun r => (s, r.mem)

/-! ### The code of `memmove` -/

def memmove (fuel : ℕ) (dest src n : BitVec 32) (c : Cpu) : Option (BitVec 32 × Memory) :=
  let c := { c with esi := src, edi := dest, ecx := n, df := false }
  let c := if c.edi ≤ c.esi then c else
    { c with esi := c.esi + c.ecx - 1, edi := c.edi + c.ecx - 1, df := true }
  (Cpu.rep (Cpu.movs 1) fuel c).map fun c => (dest, c.mem)

end LinuxIsLove
