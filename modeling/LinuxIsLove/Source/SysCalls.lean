import LinuxIsLove.Source.Schedule

/-!
# `sys_calls.c`: the other system calls

`halt` goes back to the frame that the halting process was started from, and what happens next
depends on the routine that owns the frame.  It is cut in three at the points where control leaves
it: `haltBegin` up to the loop over the descriptors, `haltClose` for one descriptor, `haltFinish`.

`open`, `close`, `read` and `write` go through the table of file operations of a descriptor; a call
through a null pointer has no successor state.  A read of a terminal is made in two steps: `armRead`
when the call is made, and the rest once a line has been entered.

No driver looks at the pointer it is given.  `Kernel.mem` is the page of the running program, and
the drivers below store there and read from there; the spans tell how many bytes of the buffer a
call touches, so that `PageHolds` says whether it does touch that page only.
-/

namespace LinuxIsLove

open Bytes PageWalk

/-! ### `halt` -/

def haltBegin (k : Kernel) : Kernel := deleteProcess (k.setIflag false) k.current.pid

/-- The close routine of a driver. -/
def closeDevice (fops : Option Fops) (pid : ℕ) (d : Devices) : Option Devices :=
  match fops with
  | none => none
  | some .rtc => some (rtcClose d pid)
  | some _ => some d

/-- Close the descriptor `i` of the halting process if it is live. -/
def haltClose (i : ℕ) (k : Kernel) : Option Kernel :=
  let fd := k.current.files i
  if fd.flags &&& fdLive ≠ 0 then
    (closeDevice fd.fops k.current.pid k.devices).map fun d => { k with devices := d }
  else some k

/-- Close the descriptors from `i` on, `n` of them. -/
def haltCloseLoop : ℕ → ℕ → Kernel → Option Kernel
  | 0, _, k => some k
  | n + 1, i, k => (haltClose i k).bind (haltCloseLoop n (i + 1))

/-- A byte as the signed character that `execute` keeps the exit status in. -/
def exitValue (status : UInt8) : ℤ := schar status

/-- The parent takes over from the halting process: the directory, the kernel stack for the next
entry, the terminal, and the frame that the child was started from. -/
def returnToParent (parent : ℕ) (status : UInt8) (k : Kernel) : Kernel :=
  let child := k.current
  { setActiveProcess k (k.pcb parent).termNum (some (k.pcb parent).pid) with
    cr3 := (k.pcb parent).pd
    tssEsp0 := (k.pcb parent).context.esp0
    running := parent
    eax := exitValue status
    resumes := ⟨parent, child.espParent, child.ebpParent, k.stopped parent,
      (k.pcb parent).pd, (k.pcb parent).context.esp0⟩ :: k.resumes }

/-- What the routine that owns the frame does next: a system call returns to user mode, the timer
handler goes on to schedule, and the two other routines start a shell again. -/
def continueFrame (E : Env) (frame : Token) (k : Kernel) : Option Kernel :=
  match frame.site with
  | .syscall => some k
  | .pit => schedule frame k
  | .keyboard => (execute E .keyboard shell k).bind (afterLoad E shell)
  | .halt => (execute E .halt shell k).bind (afterLoad E shell)

/-- A terminal loses its base shell. -/
def dropBase (k : Kernel) : Kernel :=
  { setActiveProcess k k.current.termNum none with cr3 := 0 }

/-- The part of `halt` after the descriptors are closed. -/
def haltFinish (E : Env) (status : UInt8) (k : Kernel) : Option Kernel :=
  match k.current.parentPcb with
  | some parent => continueFrame E k.current.espParent (returnToParent parent status k)
  | none => (execute E .halt shell (dropBase k)).bind (afterLoad E shell)

def halt (E : Env) (status : UInt8) (k : Kernel) : Option Kernel :=
  (haltCloseLoop fileArrayLen 0 (haltBegin k)).bind (haltFinish E status)

/-! ### `open` and `close` -/

/-- The open routine of a driver. -/
def openDevice (fops : Option Fops) (d : Devices) : Option Devices :=
  match fops with
  | none => none
  | some .rtc => some (rtcOpen d)
  | some _ => some d

/-- The first descriptor from 2 on that is not live. -/
def freeFd (files : ℕ → Fd) : Option ℕ :=
  [2, 3, 4, 5, 6, 7].find? fun i => (files i).flags = 0

/-- What `open` writes to the descriptor for an entry: the position is left as it was. -/
def openFd (dentry : Dentry) (fd : Fd) : Fd :=
  let ftype := Dentry.ftype dentry
  let inode := Dentry.inode dentry
  let fd :=
    if ftype = rtcFtype ∨ ftype = dirFtype then { fd with inode := none, inodeNum := inode }
    else if ftype = fileFtype then { fd with inode := some inode, inodeNum := inode }
    else fd
  { fd with fops := getDeviceFops ftype, flags := fdLive }

def openFile (E : Env) (filename : CString) (k : Kernel) : Option (ℤ × Kernel) :=
  match freeFd k.current.files with
  | none => some (-1, k)
  | some fd =>
    -- the entry is read into a local of the kernel's stack
    let (found, dentry) := readDentryByName E.img filename fun _ => 0
    if found = -1 then some (-1, k)
    else
      let files := Function.update k.current.files fd (openFd dentry (k.current.files fd))
      (openDevice (files fd).fops k.devices).map fun d =>
        ((fd : ℤ), { k.setFiles files with devices := d })

/-- A descriptor that is not in use. -/
def closedFd (fd : Fd) : Fd := { fd with fops := none, inode := none, pos := 0, flags := 0 }

def closeFile (fd : ℤ) (k : Kernel) : Option (ℤ × Kernel) :=
  if fd < 2 ∨ (fileArrayLen : ℤ) ≤ fd then some (-1, k)
  else
    let i := fd.toNat
    let file := k.current.files i
    -- the driver is called first; without one there is no successor state
    if file.flags ≠ 0 then
      (closeDevice file.fops k.current.pid k.devices).map fun d =>
        (0, { k.setFiles (Function.update k.current.files i (closedFd file)) with devices := d })
    else some (-1, k)

/-! ### `read` and `write` -/

/-- The memory of the running process: what its page holds, by virtual address. -/
def Kernel.mem (k : Kernel) : Memory := k.userMem k.running

def Kernel.setMem (k : Kernel) (mem : Memory) : Kernel :=
  { k with userMem := Function.update k.userMem k.running mem }

/-- Move the position of a descriptor of the running process. -/
def Kernel.advance (k : Kernel) (i n : ℕ) : Kernel :=
  let fd := k.current.files i
  k.setFiles (Function.update k.current.files i { fd with pos := (fd.pos + n) % 2 ^ 32 })

def fsRead (E : Env) (i buf : ℕ) (nbytes : ℤ) (k : Kernel) : ℤ × Kernel :=
  let fd := k.current.files i
  let (n, mem) := readData E.img fd.inodeNum fd.pos (window k.mem buf) (u32 nbytes)
  (n, (k.setMem (splice k.mem buf mem)).advance i (u32 n))

def dirRead (E : Env) (i buf : ℕ) (nbytes : ℤ) (k : Kernel) : ℤ × Kernel :=
  let fd := k.current.files i
  let (n, mem) := readDirectoryEntry E.img fd.pos (window k.mem buf) (u32 nbytes)
  (n, (k.setMem (splice k.mem buf mem)).advance i 1)

/-- The part of `terminal_read` after the spin loop, which is left once a line was entered. -/
def terminalRead (buf : ℕ) (nbytes : ℤ) (k : Kernel) : Option (ℤ × Kernel) :=
  if buf = 0 then some (-1, k)
  else
    let i := k.current.termNum.toNat
    if (k.terminals i).hitEnter then
      let (n, mem, term) := drain (k.terminals i) nbytes (window k.mem buf)
      let k := k.setMem (splice k.mem buf mem)
      some (n, { k with terminals := Function.update k.terminals i (disarmRead term) })
    else none

/-- The driver's read routine for the descriptor `i`. -/
def readDevice (E : Env) (i buf : ℕ) (nbytes : ℤ) (k : Kernel) : Option (ℤ × Kernel) :=
  match (k.current.files i).fops with
  | none => none
  | some .rtc => some (0, { k with devices := rtcRead k.devices k.current.pid })
  | some .dir => some (dirRead E i buf nbytes k)
  | some .file => some (fsRead E i buf nbytes k)
  | some .term => terminalRead buf nbytes k

def readFile (E : Env) (fd : ℤ) (buf : ℕ) (nbytes : ℤ) (k : Kernel) : Option (ℤ × Kernel) :=
  if fd < 0 ∨ fd = 1 ∨ (fileArrayLen : ℤ) ≤ fd then some (-1, k)
  else if (k.current.files fd.toNat).flags ≠ 0 then readDevice E fd.toNat buf nbytes k
  else some (-1, k)

/-- How many bytes from the buffer on a `read` stores to. -/
def readSpan (E : Env) (fd : ℤ) (buf : ℕ) (nbytes : ℤ) (k : Kernel) : ℕ :=
  let file := k.current.files fd.toNat
  if fd < 0 ∨ fd = 1 ∨ (fileArrayLen : ℤ) ≤ fd ∨ file.flags = 0 then 0
  else
    match file.fops with
    | none => 0
    | some .rtc => 0
    | some .dir =>
      -- the name, a newline and a NUL
      if file.pos < dirEntriesCnt E.img then (dirRead E fd.toNat buf nbytes k).1.toNat + 2 else 0
    | some .file => (fsRead E fd.toNat buf nbytes k).1.toNat
    | some .term => if buf = 0 then 0 else u32 (min nbytes lineBufMax)

/-- The part of `terminal_read` before the spin loop. -/
def armTerminal (buf : ℕ) (k : Kernel) : Kernel :=
  if buf = 0 then k
  else
    let i := k.current.termNum.toNat
    { k with terminals := Function.update k.terminals i (armRead (k.terminals i)) }

/-- A `read` of the descriptor `fd` up to the point where it waits for a line. -/
def armFile (fd : ℤ) (buf : ℕ) (k : Kernel) : Kernel :=
  if fd < 0 ∨ fd = 1 ∨ (fileArrayLen : ℤ) ≤ fd then k
  else if (k.current.files fd.toNat).flags ≠ 0 ∧
      (k.current.files fd.toNat).fops = some .term then armTerminal buf k
  else k

/-- The directory that `cr3` leads to; the number 0 stands for the kernel's own. -/
def directory (E : Env) (k : Kernel) : Table :=
  if k.cr3 = 0 then pdInit E.layout (fun _ => 0) 0 else k.pd k.cr3

/-- Where an address leads under the loaded directory. -/
def Kernel.physical (E : Env) (k : Kernel) (a : ℤ) : ℤ :=
  match translate (pageTables E.layout) (directory E k) (BitVec.ofInt 32 a) with
  | some pa => pa.toNat
  | none => a

def terminalWrite (E : Env) (buf : ℕ) (nbytes : ℤ) (k : Kernel) : ℤ × Kernel :=
  if buf = 0 then (-1, k)
  else
    let i := k.current.termNum.toNat
    let s := terminalWriteLoop (k.physical E) (window k.mem buf) nbytes.toNat 0
      ((k.terminals i).screen, k.text)
    (nbytes, { k with
      terminals := Function.update k.terminals i { k.terminals i with screen := s.1 }
      text := s.2 })

/-- The driver's write routine for the descriptor `i`. -/
def writeDevice (E : Env) (i buf : ℕ) (nbytes : ℤ) (k : Kernel) : Option (ℤ × Kernel) :=
  match (k.current.files i).fops with
  | none => none
  | some .rtc =>
    if buf = 0 then some (-1, k)
    else
      let (n, d) := rtcWrite k.devices k.current.pid (s32 (word32 k.mem buf))
      some (n, { k with devices := d })
  | some .dir => some (-1, k)
  | some .file => some (-1, k)
  | some .term => some (terminalWrite E buf nbytes k)

def writeFile (E : Env) (fd : ℤ) (buf : ℕ) (nbytes : ℤ) (k : Kernel) : Option (ℤ × Kernel) :=
  if fd ≤ 0 ∨ (fileArrayLen : ℤ) ≤ fd then some (-1, k)
  else if (k.current.files fd.toNat).flags ≠ 0 then writeDevice E fd.toNat buf nbytes k
  else some (-1, k)

/-- How many bytes from the buffer on a `write` looks at. -/
def writeSpan (fd : ℤ) (buf : ℕ) (nbytes : ℤ) (k : Kernel) : ℕ :=
  let file := k.current.files fd.toNat
  if fd ≤ 0 ∨ (fileArrayLen : ℤ) ≤ fd ∨ file.flags = 0 ∨ buf = 0 then 0
  else
    match file.fops with
    | some .rtc => wordSize
    | some .term => nbytes.toNat
    | _ => 0

/-! ### `getargs` and `vidmap` -/

/-- The comparison is made between unsigned integers. -/
def getargs (buf : ℕ) (nbytes : ℤ) (k : Kernel) : ℤ × Kernel :=
  let n := k.current.argsLen
  if u32 nbytes < (n + 1) % 2 ^ 32 then (-1, k)
  else
    let mem := copy (window k.mem buf) k.current.args n
    (0, k.setMem (splice k.mem buf (Function.update mem n 0)))

/-- How many bytes from the buffer on a `getargs` stores to. -/
def getargsSpan (nbytes : ℤ) (k : Kernel) : ℕ :=
  if u32 nbytes < (k.current.argsLen + 1) % 2 ^ 32 then 0 else k.current.argsLen + 1

/-- Store a byte through the loaded directory: to the page of the program, or to what the address
leads to; an address that leads nowhere ends in a page fault. -/
def storeByte (E : Env) (a : ℕ) (b : UInt8) (k : Kernel) : Option Kernel :=
  if InPage a then some (k.setMem (Function.update k.mem a b))
  else
    (translate (pageTables E.layout) (directory E k) (BitVec.ofNat 32 a)).map fun pa =>
      { k with text := Function.update k.text pa.toNat b }

/-- Store a 32-bit word, byte by byte. -/
def storeWord (E : Env) (p w : ℕ) (k : Kernel) : Option Kernel :=
  (List.range wordSize).foldlM
    (fun k i => storeByte E (p + i) (UInt8.ofNat (w / 2 ^ (8 * i) % 2 ^ 8)) k) k

/-- `vidmap` looks at the first byte of the pointer only, and stores four. -/
def vidmapRefuses (screenStart : ℕ) : Prop :=
  s32 screenStart < progVmStart ∨ s32 screenStart ≥ progVmStart + space4MB

instance (screenStart : ℕ) : Decidable (vidmapRefuses screenStart) := by
  unfold vidmapRefuses
  infer_instance

def vidmap (E : Env) (screenStart : ℕ) (k : Kernel) : Option (ℤ × Kernel) :=
  if vidmapRefuses screenStart then some (-1, k)
  else
    (storeWord E screenStart progVidmemAddr k).map fun k =>
      let pd := k.current.pd
      (progVidmemAddr, { k with
        pd := Function.update k.pd pd
          (setPdeFlags (k.pd pd) (BitVec.ofNat 32 progVidmemAddr) flagP)
        vidmapped := Function.update k.vidmapped k.running true })

/-- How many bytes from the pointer on a `vidmap` stores to. -/
def vidmapSpan (screenStart : ℕ) : ℕ := if vidmapRefuses screenStart then 0 else wordSize

/-! ### Buffers in the page of the program -/

/-- The page of the program holds `n` bytes from `buf` on. -/
def PageHolds (buf n : ℕ) : Prop :=
  n = 0 ∨ progVmStart ≤ buf ∧ buf + n ≤ progVmStart + space4MB

instance (buf n : ℕ) : Decidable (PageHolds buf n) := by
  unfold PageHolds
  infer_instance

theorem inPage_of_pageHolds {buf n a : ℕ} (h : PageHolds buf n) (hlow : buf ≤ a)
    (hhigh : a < buf + n) : InPage a := by
  unfold PageHolds at h
  unfold InPage
  omega

end LinuxIsLove
