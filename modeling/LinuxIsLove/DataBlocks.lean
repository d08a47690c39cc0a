import LinuxIsLove.Source.Events

/-!
# The slices of a file

A file is spread over data blocks that its inode lists in any order.  `read_data` walks along that
list while it copies; `readData_slice` says that the walk delivers exactly the bytes that were asked
for, as far as the file has them.
-/

namespace LinuxIsLove

open Bytes

/-- The inodes of a well-formed image: a file is not longer than the block table, and the entries
of the table that it uses name data blocks of the image. -/
structure InodesOk (img : Image) : Prop where
  length_le : ∀ i < inodeCnt img, inodeLength img i ≤ blocksPerInode * blockSize
  block_lt : ∀ i < inodeCnt img, ∀ k < (inodeLength img i + blockSize - 1) / blockSize,
    inodeDataBlock img i k < dataBlockCnt img

/-- The data block with a given number. -/
def dataBlock (img : Image) (d : ℕ) : Memory :=
  window img ((1 + inodeCnt img + d) * blockSize % 2 ^ 32)

/-- What a read of `length` bytes from `offset` on returns and leaves in the buffer. -/
structure Slice (img : Image) (inode offset : ℕ) (buf : Memory) (length : ℕ) (r : ℤ × Memory) :
    Prop where
  count : r.1 = (min length (inodeLength img inode - offset) : ℕ)
  /-- the count is a signed integer -/
  signed : r.1 < 2 ^ 31
  block : ∀ j : ℕ, j < r.1 →
    inodeDataBlock img inode ((offset + j) / charsPerBlock) < dataBlockCnt img
  copied : ∀ j : ℕ, j < r.1 → r.2 j =
    dataBlock img (inodeDataBlock img inode ((offset + j) / charsPerBlock))
      ((offset + j) % charsPerBlock)
  rest : ∀ j : ℕ, r.1 ≤ j → r.2 j = buf j

section Slices

variable {img : Image} {inode offset : ℕ}

/-- The bytes of a file lie in the blocks that its inode lists. -/
theorem fileByte_eq (img : Image) (inode k : ℕ) :
    fileByte img inode k =
      dataBlock img (inodeDataBlock img inode (k / charsPerBlock)) (k % charsPerBlock) := rfl

/-- The block of a byte of a file is one of those that the file uses. -/
theorem InodesOk.block_of_byte (hw : InodesOk img) (hinode : inode < inodeCnt img) {k : ℕ}
    (hk : k < inodeLength img inode) :
    inodeDataBlock img inode (k / charsPerBlock) < dataBlockCnt img := by
  refine hw.block_lt inode hinode _ ?_
  simp only [charsPerBlock, blockSize]
  omega

/-- **`read_data` returns exactly the requested slice.** -/
theorem readData_slice (hw : InodesOk img) (inode : ℕ) (hoff : offset < 2 ^ 32) (buf : Memory)
    (length : ℕ) :
    (inodeCnt img ≤ inode → readData img inode offset buf length = (0, buf)) ∧
      (inode < inodeCnt img →
        Slice img inode offset buf length (readData img inode offset buf length)) := by
  refine ⟨fun hno => readData_of_invalid offset buf length hno, fun hinode => ?_⟩
  have hlen := hw.length_le inode hinode
  simp only [blocksPerInode, blockSize] at hlen
  rw [readData_eq buf length hinode hoff]
  refine ⟨rfl, ?_, fun j hj => ?_, fun j hj => ?_, fun j hj => ?_⟩
  · show ((min length (inodeLength img inode - offset) : ℕ) : ℤ) < 2 ^ 31
    omega
  · have hj' := Int.ofNat_lt.1 hj
    exact hw.block_of_byte hinode (by omega)
  · show copy buf (fun j => fileByte img inode (offset + j)) _ j = _
    rw [copy_of_lt (Int.ofNat_lt.1 hj), fileByte_eq]
  · show copy buf (fun j => fileByte img inode (offset + j)) _ j = _
    rw [copy_of_le (Int.ofNat_le.1 hj)]

end Slices

theorem smallImg_inodesOk : InodesOk small.img where
  length_le := by decide +kernel
  block_lt := by decide +kernel

/-- The last bytes of the `shell` of the small image, read across its end. -/
theorem readData_slice_shell :
    Slice small.img 0 36 (fun _ => 0) 100 (readData small.img 0 36 (fun _ => 0) 100) :=
  (readData_slice smallImg_inodesOk 0 (by decide) (fun _ => 0) 100).2 (by decide +kernel)

end LinuxIsLove
