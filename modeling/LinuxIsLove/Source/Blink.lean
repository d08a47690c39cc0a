import LinuxIsLove.Foundation.Bytes
import LinuxIsLove.Foundation.Loops

/-!
# `blink.S` and `fish.c`: the list of blinking characters

The structures live in `blink_array`; a pointer to one is its index, `NULL` is `none`.  The fuel
bounds the rounds of each loop over the list: an operation that runs out of it has no result.

The structure a caller passes is given by its fields.  Its `next` field is left out, since
`mp1_ioctl_add` overwrites it before it is used.
-/

namespace LinuxIsLove

open Bytes Loops

def numSlots : ℕ := 80 * 25

/-- A position of `blink_array`. -/
abbrev BlinkSlot : Type := Fin numSlots

/-- The fields of `struct mp1_blink_struct` besides `next`. -/
structure BlinkData where
  location : BitVec 16
  onChar : UInt8
  offChar : UInt8
  onLength : BitVec 16
  offLength : BitVec 16
  countdown : BitVec 16
  status : BitVec 16

structure BlinkStruct extends BlinkData where
  next : Option BlinkSlot

/-- What `mp1_free` leaves, and `main` at the start. -/
def zeroStruct : BlinkStruct := ⟨⟨0, 0, 0, 0, 0, 0, 0⟩, none⟩

/-- The structures, the head of the list and the video memory from `vmem_base_addr` on. -/
structure Blink where
  blinkArray : BlinkSlot → BlinkStruct
  listHead : Option BlinkSlot
  vmem : Memory

namespace Blink

def next (b : Blink) (i : BlinkSlot) : Option BlinkSlot := (b.blinkArray i).next

def location (b : Blink) (i : BlinkSlot) : BitVec 16 := (b.blinkArray i).location

def setSlot (b : Blink) (i : BlinkSlot) (s : BlinkStruct) : Blink :=
  { b with blinkArray := Function.update b.blinkArray i s }

/-- `mp1_poke`, with the character at a screen location. -/
def poke (b : Blink) (location : BitVec 16) (cl : UInt8) : Blink :=
  { b with vmem := Function.update b.vmem (2 * location.toNat) cl }

end Blink

def blinkInit (vmem : Memory) : Blink := ⟨fun _ => zeroStruct, none, vmem⟩

/-! ### The allocator -/

/-- The loop of `mp1_malloc`, with `left` more slots to look at, from slot `i` on. -/
def mp1MallocLoop (b : Blink) : ℕ → ℕ → Option BlinkSlot
  | 0, _ => none
  | left + 1, i =>
    if h : i < numSlots then
      if b.location ⟨i, h⟩ = 0 then some ⟨i, h⟩ else mp1MallocLoop b left (i + 1)
    else none

/-- The first structure whose location is 0. -/
def mp1Malloc (b : Blink) : Option BlinkSlot := mp1MallocLoop b numSlots 0

def mp1Free (b : Blink) (i : BlinkSlot) : Blink := b.setSlot i zeroStruct

/-! ### Following the list -/

/-- The first element of the list with the location; `none` for a null pointer. -/
def mp1FindHelper (fuel : ℕ) (b : Blink) (ax : BitVec 16) : Option (Option BlinkSlot) :=
  loopWhile (fun ebx => ebx.any fun i => !(b.location i == ax)) (fun ebx => ebx.bind b.next) fuel
    b.listHead

/-- A round of `mp1_rtc_tasklet` for one structure. -/
def taskletRound (b : Blink) (i : BlinkSlot) : Blink :=
  let s := b.blinkArray i
  let s := { s with countdown := s.countdown - 1 }
  if 0 < s.countdown.toInt then b.setSlot i s
  else
    let on := s.status &&& 1#16 != 0
    let b := b.poke s.location (if on then s.offChar else s.onChar)
    b.setSlot i
      { s with
        countdown := if on then s.offLength else s.onLength
        status := s.status ^^^ 1#16 }

/-- The loop of `mp1_rtc_tasklet`: the register `ebx` and the memory. -/
def taskletLoop : ℕ → Option BlinkSlot × Blink → Option (Option BlinkSlot × Blink) :=
  loopWhile (fun s => s.1.isSome) fun s =>
    match s.1 with
    | none => s
    | some i => ((taskletRound s.2 i).next i, taskletRound s.2 i)

def mp1RtcTasklet (fuel : ℕ) (b : Blink) : Option Blink :=
  (taskletLoop fuel (b.listHead, b)).map Prod.snd

/-! ### The commands of `mp1_ioctl` -/

/-- `mp1_ioctl_add` on the structure that has been copied from the caller. -/
def mp1IoctlAdd (user : BlinkData) (b : Blink) : ℤ × Blink :=
  if numSlots ≤ user.location.toNat then (-1, b)
  else
    let temp := { user with status := 1, countdown := user.onLength }
    match mp1Malloc b with
    | none => (-1, b)
    | some i =>
      let b := { b.setSlot i ⟨temp, b.listHead⟩ with listHead := some i }
      (0, b.poke temp.location temp.onChar)

/-- A place that holds a pointer of the list: the head, or the `next` field of a structure. -/
inductive Cell
  | head
  | next (i : BlinkSlot)

namespace Cell

def get (b : Blink) : Cell → Option BlinkSlot
  | head => b.listHead
  | next i => b.next i

def set (b : Blink) (p : Option BlinkSlot) : Cell → Blink
  | head => { b with listHead := p }
  | next i => b.setSlot i { b.blinkArray i with next := p }

end Cell

/-- The loop `remove_find_prev`: the place `edx` that holds the pointer to `eax`.  There is no such
place once a null pointer has been followed. -/
def removeFindPrev (b : Blink) (eax : BlinkSlot) : ℕ → Option Cell → Option (Option Cell) :=
  loopWhile (fun edx => edx.any fun cell => !(cell.get b == some eax)) fun edx =>
    edx.bind fun cell => (cell.get b).map Cell.next

/-- `mp1_ioctl_remove`; it has no result either if it follows a null pointer. -/
def mp1IoctlRemove (fuel : ℕ) (arg : BitVec 32) (b : Blink) : Option (ℤ × Blink) :=
  (mp1FindHelper fuel b (arg.setWidth 16)).bind fun
    | none => some (-1, b)
    | some eax => (removeFindPrev b eax fuel (some .head)).bind fun edx =>
        edx.map fun cell => (0, mp1Free (cell.set b (b.next eax)) eax)

/-- `mp1_ioctl_find`: the structure with the location is copied back to the caller. -/
def mp1IoctlFind (fuel : ℕ) (location : BitVec 16) (b : Blink) :
    Option (ℤ × Option BlinkStruct) :=
  (mp1FindHelper fuel b location).map fun
    | none => (-1, none)
    | some i => (0, some (b.blinkArray i))

/-- `mp1_ioctl_sync` on two structures.  The test before `cmovl` leaves the sign bit clear, so that
`cmovl` never moves. -/
def syncCopy (esi edi : BlinkSlot) (b : Blink) : Blink :=
  let s := b.blinkArray esi
  let d :=
    { b.blinkArray edi with
      onLength := s.onLength
      offLength := s.offLength
      countdown := s.countdown
      status := s.status }
  (b.setSlot edi d).poke d.location
    (if (d.status.setWidth 8 &&& 1#8).msb then d.onChar else d.offChar)

def mp1IoctlSync (fuel : ℕ) (arg : BitVec 32) (b : Blink) : Option (ℤ × Blink) :=
  (mp1FindHelper fuel b ((arg >>> 16).setWidth 16)).bind fun
    | none => some (-1, b)
    | some esi => (mp1FindHelper fuel b ((arg &&& 0xFFFF#32).setWidth 16)).map fun
        | none => (-1, b)
        | some edi => (0, syncCopy esi edi b)

/-! ### Runs -/

/-- The calls: the four commands, with their arguments, and the tasklet. -/
inductive BlinkCall
  | add (user : BlinkData)
  | remove (arg : BitVec 32)
  | find (location : BitVec 16)
  | sync (arg : BitVec 32)
  | tasklet

/-- The state after a call; a call that does not end has none. -/
def blinkStep (fuel : ℕ) (b : Blink) : BlinkCall → Option Blink
  | .add user => some (mp1IoctlAdd user b).2
  | .remove arg => (mp1IoctlRemove fuel arg b).map Prod.snd
  | .find location => (mp1IoctlFind fuel location b).map fun _ => b
  | .sync arg => (mp1IoctlSync fuel arg b).map Prod.snd
  | .tasklet => mp1RtcTasklet fuel b

end LinuxIsLove
