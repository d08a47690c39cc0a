import LinuxIsLove.Source.Events

/-!
# `read` and `write` outside the page of the program

No driver looks at the pointer that it is given, and the page of the kernel can be written in
ring 0.  `callStep` takes the events of `step`, and besides them the calls of `read` and `write`
with a buffer elsewhere: a `read` into a text page, or into the descriptor table of a control block,
and a `write` of whatever the processor finds at the buffer.

A control block starts with its descriptor table, eight entries of five words each as `process.h`
lays them out.  A table that a call has stored to is read back from its bytes.  What this file does
not follow has no successor state: a store to any other memory of the kernel, a pointer in a table
that leads to no driver, a page fault.
-/

namespace LinuxIsLove

open Bytes EventMachine PageWalk

/-! ### Descriptor tables in memory -/

def fdSize : ℕ := 5 * wordSize

/-- Where the drivers' tables of file operations and the boot block stand, and what the processor
finds outside the page of the program. -/
structure Addresses where
  fops : Fops → ℕ
  fops_injective : Function.Injective fops
  fops_ne_zero : ∀ f, fops f ≠ 0
  fops_lt : ∀ f, fops f < 2 ^ 32
  bootblock : ℕ
  outside : Kernel → Memory

namespace Addresses

/-- A pointer to a table of file operations. -/
def fopsWord (A : Addresses) : Option Fops → ℕ
  | none => 0
  | some f => A.fops f

/-- The pointer that a word holds, if it leads to a driver or is null. -/
def fopsAt (A : Addresses) (w : ℕ) : Option (Option Fops) :=
  if w = 0 then some none
  else ([Fops.rtc, .dir, .file, .term].find? fun f => A.fops f = w).map some

/-- `get_inode_ptr`, or the null pointer. -/
def inodeWord (A : Addresses) : Option ℕ → ℕ
  | none => 0
  | some i => A.bootblock + (i + 1) * blockSize

def inodeAt (A : Addresses) (w : ℕ) : Option (Option ℕ) :=
  if w = 0 then some none
  else if A.bootblock + blockSize ≤ w ∧ (w - A.bootblock) % blockSize = 0 then
    some (some ((w - A.bootblock) / blockSize - 1))
  else none

/-- The words of a descriptor. -/
def fdWords (A : Addresses) (fd : Fd) : List ℕ :=
  [A.fopsWord fd.fops, A.inodeWord fd.inode, fd.inodeNum, fd.pos, fd.flags]

/-- The descriptor that stands at an address. -/
def fdAt (A : Addresses) (m : Memory) (p : ℕ) : Option Fd := do
  let fops ← A.fopsAt (word32 m p)
  let inode ← A.inodeAt (word32 m (p + 4))
  return ⟨fops, inode, word32 m (p + 8), word32 m (p + 12), word32 m (p + 16)⟩

/-- The bytes of a descriptor table, from the address `p` on. -/
def tableMem (A : Addresses) (files : ℕ → Fd) (p : ℕ) : Memory := fun a =>
  let j := a - p
  let w := (A.fdWords (files (j / fdSize))).getD (j % fdSize / wordSize) 0
  UInt8.ofNat (w / 2 ^ (8 * (j % wordSize)) % 2 ^ 8)

/-- The memory that the processor sees. -/
def seen (A : Addresses) (k : Kernel) : Memory := fun a =>
  if InPage a then k.mem a else A.outside k a

end Addresses

/-- The process whose descriptor table holds `n` bytes from `buf` on. -/
def tableOwner (buf n : ℕ) : Option ℕ :=
  (List.range' 1 maxProcesses).find? fun p =>
    pcbAddr p ≤ buf ∧ buf + n ≤ pcbAddr p + fdSize * fileArrayLen

/-- Take the table of a process from memory. -/
def storeTable (A : Addresses) (p : ℕ) (m : Memory) (k : Kernel) : Option Kernel :=
  ((List.range fileArrayLen).mapM fun i => A.fdAt m (pcbAddr p + fdSize * i)).map fun fds =>
    let files := fun i => fds.getD i ((k.pcb p).files i)
    { k with pcb := Function.update k.pcb p { k.pcb p with files := files } }

/-- Store `n` bytes from `buf` on one after the other, each where its address leads. -/
def storeSpan (E : Env) (buf n : ℕ) (m : Memory) (k : Kernel) : Option Kernel :=
  run (fun k j => storeByte E (buf + j) (m (buf + j)) k) k (List.range n)

/-! ### The drivers with a buffer elsewhere -/

/-- Where a buffer leads: what stands there, and how it is stored to. -/
structure Target where
  mem : Memory
  store : Memory → Kernel → Option Kernel

/-- The page of the running program. -/
def ownPage (k : Kernel) : Target := ⟨k.mem, fun m k => some (k.setMem m)⟩

def fsReadTo (E : Env) (t : Target) (i buf : ℕ) (nbytes : ℤ) (k : Kernel) : Option (ℤ × Kernel) :=
  let fd := k.current.files i
  let (n, m) := readData E.img fd.inodeNum fd.pos (window t.mem buf) (u32 nbytes)
  (t.store (splice t.mem buf m) k).map fun k => (n, k.advance i (u32 n))

def dirReadTo (E : Env) (t : Target) (i buf : ℕ) (nbytes : ℤ) (k : Kernel) : Option (ℤ × Kernel) :=
  let fd := k.current.files i
  let (n, m) := readDirectoryEntry E.img fd.pos (window t.mem buf) (u32 nbytes)
  (t.store (splice t.mem buf m) k).map fun k => (n, k.advance i 1)

def terminalReadTo (t : Target) (buf : ℕ) (nbytes : ℤ) (k : Kernel) : Option (ℤ × Kernel) :=
  if buf = 0 then some (-1, k)
  else
    let i := k.current.termNum.toNat
    if (k.terminals i).hitEnter then
      let (n, m, term) := drain (k.terminals i) nbytes (window t.mem buf)
      (t.store (splice t.mem buf m) k).map fun k =>
        (n, { k with terminals := Function.update k.terminals i (disarmRead term) })
    else none

def readDeviceTo (E : Env) (t : Target) (i buf : ℕ) (nbytes : ℤ) (k : Kernel) :
    Option (ℤ × Kernel) :=
  match (k.current.files i).fops with
  | none => none
  | some .rtc => some (0, { k with devices := rtcRead k.devices k.current.pid })
  | some .dir => dirReadTo E t i buf nbytes k
  | some .file => fsReadTo E t i buf nbytes k
  | some .term => terminalReadTo t buf nbytes k

def readFileTo (E : Env) (t : Target) (fd : ℤ) (buf : ℕ) (nbytes : ℤ) (k : Kernel) :
    Option (ℤ × Kernel) :=
  if fd < 0 ∨ fd = 1 ∨ (fileArrayLen : ℤ) ≤ fd then some (-1, k)
  else if (k.current.files fd.toNat).flags ≠ 0 then readDeviceTo E t fd.toNat buf nbytes k
  else some (-1, k)

/-- With the page of the program for its target a `read` is the one of `sys_calls.c`. -/
theorem readFileTo_ownPage (E : Env) (fd : ℤ) (buf : ℕ) (nbytes : ℤ) (k : Kernel) :
    readFileTo E (ownPage k) fd buf nbytes k = readFile E fd buf nbytes k := by
  unfold readFileTo readFile
  refine if_congr Iff.rfl rfl (if_congr Iff.rfl ?_ rfl)
  unfold readDeviceTo readDevice
  cases (k.current.files fd.toNat).fops with
  | none => rfl
  | some f =>
    cases f with
    | rtc => rfl
    | dir => rfl
    | file => rfl
    | term => rfl

/-- The page that holds the kernel is not among the `n` bytes from `buf` on. -/
def OffKernel (buf n : ℕ) : Prop := n = 0 ∨ buf + n ≤ kernelLoc ∨ kernelMemEnd ≤ buf

instance (buf n : ℕ) : Decidable (OffKernel buf n) := by
  unfold OffKernel
  infer_instance

/-- A `read` whose buffer leaves the page of the program: each byte goes where its address leads,
or into the bytes of a descriptor table. -/
def readOutside (A : Addresses) (E : Env) (fd : ℤ) (buf : ℕ) (nbytes : ℤ) (k : Kernel) :
    Option (ℤ × Kernel) :=
  let n := readSpan E fd buf nbytes k
  if OffKernel buf n then readFileTo E ⟨k.mem, storeSpan E buf n⟩ fd buf nbytes k
  else
    match tableOwner buf n with
    | some p =>
      let t : Target := ⟨A.tableMem (k.pcb p).files (pcbAddr p), storeTable A p⟩
      readFileTo E t fd buf nbytes k
    | none => none

/-- An address leads somewhere under the loaded directory. -/
def Mapped (E : Env) (k : Kernel) (a : ℕ) : Prop :=
  (translate (pageTables E.layout) (directory E k) (BitVec.ofNat 32 a)).isSome

instance (E : Env) (k : Kernel) (a : ℕ) : Decidable (Mapped E k a) := by
  unfold Mapped
  infer_instance

/-- A `write` whose buffer leaves the page of the program. -/
def writeOutside (A : Addresses) (E : Env) (fd : ℤ) (buf : ℕ) (nbytes : ℤ) (k : Kernel) :
    Option (ℤ × Kernel) :=
  if ∀ j < writeSpan fd buf nbytes k, Mapped E k (buf + j) then
    (writeFile E fd buf nbytes (k.setMem (A.seen k))).map fun r =>
      (r.1, { r.2 with userMem := k.userMem })
  else none

/-! ### Runs -/

/-- `dispatch`, with the calls of `read` and `write` whose buffer leaves the page. -/
def callDispatch (A : Addresses) (E : Env) (k : Kernel) : Event → Option Kernel
  | .read fd buf nbytes =>
    if k.running = 0 ∨ PageHolds buf (readSpan E fd buf nbytes k) then
      dispatch E k (.read fd buf nbytes)
    else (readOutside A E fd buf nbytes k).map result
  | .write fd buf nbytes =>
    if k.running = 0 ∨ PageHolds buf (writeSpan fd buf nbytes k) then
      dispatch E k (.write fd buf nbytes)
    else (writeOutside A E fd buf nbytes k).map result
  | e => dispatch E k e

def callStep (A : Addresses) (E : Env) (k : Kernel) (e : Event) : Option Kernel :=
  (callDispatch A E k.advanceClock e).map fun k => k.setIflag true

/-! ### A small machine -/

/-- Addresses inside the kernel for the small machine. -/
def smallAddresses : Addresses where
  fops := fun
    | .rtc => 0x410000
    | .dir => 0x410010
    | .file => 0x410020
    | .term => 0x410030
  fops_injective := by
    intro f g h
    cases f <;> cases g <;> first | rfl | exact absurd h (by decide)
  fops_ne_zero f := by cases f <;> decide
  fops_lt f := by cases f <;> decide
  bootblock := 0x440000
  outside := fun _ _ => 0

end LinuxIsLove
