import LinuxIsLove.Foundation.Bytes

/-!
# `fs.c`: the read-only file system

The file system is a module that the boot loader leaves in memory.  An `Image` is that memory,
addressed from the boot block: the boot block with its directory entries, then one block for each
inode, then the data blocks.  Block addresses are computed in 32-bit arithmetic; an address behind
the module reads what stands there, and the page fault of an address that is not mapped is left
out.

* `readDentryByName`, `readDentryByIndex`: directory lookup;
* `readData`: the block walk that copies a slice of a file;
* `readDirectoryEntry`: the name of one directory entry, with the terminators it appends;
* `load`: a whole file copied to the load address of a program.

Output parameters are returned: a buffer is the caller's memory from the buffer's address on, and
a function that leaves it alone returns it as it was.
-/

namespace LinuxIsLove

open Bytes

/-- The file system image, addressed from the boot block. -/
abbrev Image := Memory

/-- The 64 bytes of a directory entry. -/
abbrev Dentry := Memory

def blockSize : ℕ := 4096
def numInodes : ℕ := 63
def charsPerBlock : ℕ := 4096
def blocksPerInode : ℕ := 1023
def fnameLen : ℕ := 32
def bytesDentry : ℕ := 64

def rtcFtype : ℕ := 0
def dirFtype : ℕ := 1
def fileFtype : ℕ := 2
def termFtype : ℕ := 3

/-! ### The layout of the image -/

def dirEntriesCnt (img : Image) : ℕ := word32 img 0

def inodeCnt (img : Image) : ℕ := word32 img 4

def dataBlockCnt (img : Image) : ℕ := word32 img 8

/-- Where the directory entry `i` stands in the boot block. -/
def dentryOffset (i : ℕ) : ℕ := 64 + bytesDentry * i

def Dentry.ftype (d : Dentry) : ℕ := word32 d 32

def Dentry.inode (d : Dentry) : ℕ := word32 d 36

/-- Where the inode with a given number stands. -/
def inodeOffset (inode : ℕ) : ℕ := (inode + 1) * blockSize % 2 ^ 32

def inodeLength (img : Image) (inode : ℕ) : ℕ := word32 img (inodeOffset inode)

/-- The entry `k` of the block table of an inode. -/
def inodeDataBlock (img : Image) (inode k : ℕ) : ℕ := word32 img (inodeOffset inode + 4 + 4 * k)

/-- Where the data block that the entry `k` of the block table names stands. -/
def dataBlockOffset (img : Image) (inode k : ℕ) : ℕ :=
  (1 + inodeCnt img + inodeDataBlock img inode k) * blockSize % 2 ^ 32

/-! ### Directory lookup -/

/-- The scan of `read_dentry_by_name`, with `n` entries from the entry `i` on left to look at. -/
def readDentryByNameLoop (img : Image) (fname : CString) (dentry : Dentry) : ℕ → ℕ → ℤ × Dentry
  | 0, _ => (-1, dentry)
  | n + 1, i =>
    let currDentry := window img (dentryOffset i)
    if strlen fname.mem 0 = strlen currDentry 0 ∧
        strncmp fname.mem currDentry (strlen currDentry 0) = 0 then
      (0, copy dentry currDentry bytesDentry)
    else readDentryByNameLoop img fname dentry n (i + 1)

/-- The loop bound is compared as a signed integer. -/
def readDentryByName (img : Image) (fname : CString) (dentry : Dentry) : ℤ × Dentry :=
  readDentryByNameLoop img fname dentry (s32 (dirEntriesCnt img)).toNat 0

def readDentryByIndex (img : Image) (index : ℕ) (dentry : Dentry) : ℤ × Dentry :=
  if index < dirEntriesCnt img then
    (0, copy dentry (window img (dentryOffset index)) bytesDentry)
  else (-1, dentry)

/-! ### Reading the data of a file -/

/-- The local variables of `read_data`: the address of the current data block is kept as its
offset from the boot block. -/
structure ReadData where
  bytesRead : ℕ
  newOffset : ℕ
  offDataBlock : ℕ
  currDataBlock : ℕ
  buf : Memory

/-- The body of the copy loop: nothing happens once the end of the file is reached, and the next
block is looked up as soon as the current one is used up. -/
def readDataBody (img : Image) (inode offset i : ℕ) (s : ReadData) : ReadData :=
  if (s.bytesRead + offset) % 2 ^ 32 < inodeLength img inode then
    let buf := Function.update s.buf i (img (s.currDataBlock + s.newOffset))
    if s.newOffset + 1 ≥ charsPerBlock then
      { bytesRead := s.bytesRead + 1
        newOffset := 0
        offDataBlock := s.offDataBlock + 1
        currDataBlock := dataBlockOffset img inode (s.offDataBlock + 1)
        buf := buf }
    else { s with bytesRead := s.bytesRead + 1, newOffset := s.newOffset + 1, buf := buf }
  else s

/-- The copy loop, with `n` iterations from index `i` on left. -/
def readDataLoop (img : Image) (inode offset : ℕ) : ℕ → ℕ → ReadData → ReadData
  | 0, _, s => s
  | n + 1, i, s => readDataLoop img inode offset n (i + 1) (readDataBody img inode offset i s)

/-- The state before the first iteration: the block that holds `offset` is looked up before any
test for the end of the file. -/
def readDataStart (img : Image) (inode offset : ℕ) (buf : Memory) : ReadData where
  bytesRead := 0
  newOffset := offset % charsPerBlock
  offDataBlock := offset / charsPerBlock
  currDataBlock := dataBlockOffset img inode (offset / charsPerBlock)
  buf := buf

/-- Read `length` bytes from `offset` on: the number of bytes read and the buffer.  The count is a
signed integer, and the loop leaves it below `2 ^ 31` whenever `length` is. -/
def readData (img : Image) (inode offset : ℕ) (buf : Memory) (length : ℕ) : ℤ × Memory :=
  if inodeCnt img ≤ inode then (0, buf)
  else
    let s := readDataLoop img inode offset length 0 (readDataStart img inode offset buf)
    (s.bytesRead, s.buf)

/-- The byte `k` of a file, where the block walk finds it. -/
def fileByte (img : Image) (inode k : ℕ) : UInt8 :=
  img (dataBlockOffset img inode (k / charsPerBlock) + k % charsPerBlock)

/-! ### Reading a directory -/

/-- The copy loop of `read_directory_entry`, with `n` bytes of the name from index `i` on left. -/
def readDirectoryEntryLoop (dentry : Dentry) (length : ℕ) :
    ℕ → ℕ → ℕ × ℕ × Memory → ℕ × ℕ × Memory
  | 0, _, s => s
  | n + 1, i, (bufIdx, retVal, buf) =>
    readDirectoryEntryLoop dentry length n (i + 1)
      (if retVal < length then (bufIdx + 1, retVal + 1, Function.update buf bufIdx (dentry i))
       else (bufIdx, retVal, buf))

/-- Copy at most `length` bytes of an entry's name, then a newline and a NUL.  The local copy of
the entry starts out uninitialized. -/
def readDirectoryEntry (img : Image) (dirEntry : ℕ) (buf : Memory) (length : ℕ) : ℤ × Memory :=
  if dirEntriesCnt img ≤ dirEntry then (0, buf)
  else
    let dentry := (readDentryByIndex img dirEntry fun _ => 0).2
    let s := readDirectoryEntryLoop dentry length (strlen dentry 0) 0 (0, 0, buf)
    let buf := Function.update s.2.2 s.1 10
    (s.2.1, Function.update buf (s.1 + 1) 0)

/-- Copy a whole file to `mem`. -/
def load (img : Image) (d : Dentry) (mem : Memory) : Memory :=
  (readData img d.inode 0 mem (inodeLength img d.inode)).2

/-! ### What the copy loops do -/

section ReadDataLoop

variable {img : Image} {inode offset : ℕ}

/-- What the local variables are once `b` bytes have been read. -/
structure ReadData.At (img : Image) (inode offset : ℕ) (buf : Memory) (b : ℕ) (s : ReadData) :
    Prop where
  bytesRead : s.bytesRead = b
  newOffset : s.newOffset = (offset + b) % charsPerBlock
  offDataBlock : s.offDataBlock = (offset + b) / charsPerBlock
  currDataBlock : s.currDataBlock = dataBlockOffset img inode ((offset + b) / charsPerBlock)
  buf : s.buf = copy buf (fun j => fileByte img inode (offset + j)) b

theorem readDataStart_at (buf : Memory) :
    (readDataStart img inode offset buf).At img inode offset buf 0 :=
  ⟨rfl, rfl, rfl, rfl, (copy_zero _ _).symm⟩

/-- Before the end of the file one iteration reads one more byte. -/
theorem readDataBody_at {buf : Memory} {b : ℕ} {s : ReadData}
    (hs : s.At img inode offset buf b) (hlt : offset + b < inodeLength img inode) :
    (readDataBody img inode offset b s).At img inode offset buf (b + 1) := by
  have hlen : inodeLength img inode < 2 ^ 32 := word32_lt _ _
  have hmod : (s.bytesRead + offset) % 2 ^ 32 = offset + b := by
    rw [hs.bytesRead, Nat.mod_eq_of_lt (by omega), Nat.add_comm]
  have hbuf : Function.update s.buf b (img (s.currDataBlock + s.newOffset)) =
      copy buf (fun j => fileByte img inode (offset + j)) (b + 1) := by
    rw [copy_succ, hs.buf, hs.currDataBlock, hs.newOffset]
    rfl
  have hcpb : charsPerBlock = 4096 := rfl
  have hoff := hs.newOffset
  rw [readDataBody, hmod, if_pos hlt]
  by_cases hnext : s.newOffset + 1 ≥ charsPerBlock
  · have hdiv : (offset + b) / charsPerBlock + 1 = (offset + (b + 1)) / charsPerBlock := by
      rw [hcpb] at hoff hnext ⊢
      omega
    have hzero : (offset + (b + 1)) % charsPerBlock = 0 := by
      rw [hcpb] at hoff hnext ⊢
      omega
    simp only [if_pos hnext]
    exact ⟨by rw [hs.bytesRead], hzero.symm, by rw [hs.offDataBlock, hdiv],
      by rw [hs.offDataBlock, hdiv], hbuf⟩
  · have hdiv : (offset + b) / charsPerBlock = (offset + (b + 1)) / charsPerBlock := by
      rw [hcpb] at hoff hnext ⊢
      omega
    have hmod' : (offset + b) % charsPerBlock + 1 = (offset + (b + 1)) % charsPerBlock := by
      rw [hcpb] at hoff hnext ⊢
      omega
    simp only [if_neg hnext]
    exact ⟨by rw [hs.bytesRead], by rw [hs.newOffset, hmod'], by rw [hs.offDataBlock, hdiv],
      by rw [hs.currDataBlock, hdiv], hbuf⟩

/-- At the end of the file an iteration does nothing. -/
theorem readDataBody_end {buf : Memory} {b i : ℕ} {s : ReadData}
    (hs : s.At img inode offset buf b) (hge : inodeLength img inode ≤ offset + b)
    (hoff : offset + b < 2 ^ 32) : readDataBody img inode offset i s = s := by
  rw [readDataBody, hs.bytesRead, Nat.add_comm, Nat.mod_eq_of_lt hoff, if_neg (by omega)]

theorem readDataLoop_end {buf : Memory} {b n i : ℕ} {s : ReadData}
    (hs : s.At img inode offset buf b) (hge : inodeLength img inode ≤ offset + b)
    (hoff : offset + b < 2 ^ 32) : readDataLoop img inode offset n i s = s := by
  induction n generalizing i with
  | zero => rfl
  | succ n ih => rw [readDataLoop, readDataBody_end hs hge hoff, ih]

/-- The loop reads until the requested length or the end of the file. -/
theorem readDataLoop_at {buf : Memory} {b n : ℕ} {s : ReadData} (hoff : offset < 2 ^ 32)
    (hs : s.At img inode offset buf b) (hb : b = 0 ∨ offset + b ≤ inodeLength img inode) :
    (readDataLoop img inode offset n b s).At img inode offset buf
      (b + min n (inodeLength img inode - (offset + b))) := by
  induction n generalizing b s with
  | zero => simpa [readDataLoop] using hs
  | succ n ih =>
    have hlen : inodeLength img inode < 2 ^ 32 := word32_lt _ _
    by_cases hlt : offset + b < inodeLength img inode
    · have hrest := ih (readDataBody_at hs hlt) (Or.inr (by omega))
      rw [readDataLoop]
      rwa [show b + min (n + 1) (inodeLength img inode - (offset + b)) =
        b + 1 + min n (inodeLength img inode - (offset + (b + 1))) by omega]
    · rw [readDataLoop_end hs (by omega) (by omega)]
      rwa [show b + min (n + 1) (inodeLength img inode - (offset + b)) = b by omega]

/-- **The slice that `read_data` copies.**  For every image, every valid inode and all 32-bit
values of offset and length. -/
theorem readData_eq (buf : Memory) (length : ℕ) (hinode : inode < inodeCnt img)
    (hoff : offset < 2 ^ 32) :
    readData img inode offset buf length =
      (((min length (inodeLength img inode - offset) : ℕ) : ℤ),
        copy buf (fun j => fileByte img inode (offset + j))
          (min length (inodeLength img inode - offset))) := by
  have h0 : (readDataStart img inode offset buf).At img inode offset buf 0 :=
    readDataStart_at buf
  have h := readDataLoop_at (n := length) hoff h0 (Or.inl rfl)
  simp only [Nat.add_zero, Nat.zero_add] at h
  simp only [readData, if_neg (not_le.2 hinode)]
  rw [h.bytesRead, h.buf]

theorem readData_of_invalid (offset : ℕ) (buf : Memory) (length : ℕ)
    (hinode : inodeCnt img ≤ inode) :
    readData img inode offset buf length = (0, buf) := if_pos hinode

end ReadDataLoop

/-- The loop copies the first `length` bytes of the name. -/
theorem readDirectoryEntryLoop_eq (dentry : Dentry) (length : ℕ) (buf : Memory) :
    ∀ n i, readDirectoryEntryLoop dentry length n i
        (min i length, min i length, copy buf dentry (min i length)) =
      (min (i + n) length, min (i + n) length, copy buf dentry (min (i + n) length)) := by
  intro n
  induction n with
  | zero => intro i; rfl
  | succ n ih =>
    intro i
    rw [readDirectoryEntryLoop, show i + (n + 1) = i + 1 + n by omega, ← ih (i + 1)]
    congr 1
    by_cases hlt : min i length < length
    · have hi : min i length = i := by omega
      have hi' : min (i + 1) length = i + 1 := by omega
      rw [if_pos hlt, hi, hi', copy_succ]
    · rw [if_neg hlt, show min (i + 1) length = min i length by omega]

end LinuxIsLove
