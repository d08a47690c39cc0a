import LinuxIsLove.DataBlocks
import LinuxIsLove.ProgramImage

/-!
# The block table of an inode

`read_data` looks up the data block of `offset` before it tests for the end of the file, and the
next one as soon as a block is used up.  `evaluated` lists the indices of the block table at which
it does so: the blocks from that of the first byte to that of the byte behind the last one
(`mem_evaluated`).  For a file that fills its table, the latter is behind the end of the table.
-/

namespace LinuxIsLove

open Bytes

/-- The index that one iteration of the copy loop evaluates, if any. -/
def evaluatedBody (img : Image) (inode offset : ℕ) (s : ReadData) : List ℕ :=
  if (s.bytesRead + offset) % 2 ^ 32 < inodeLength img inode then
    if s.newOffset + 1 ≥ charsPerBlock then [s.offDataBlock + 1] else []
  else []

def evaluatedLoop (img : Image) (inode offset : ℕ) : ℕ → ℕ → ReadData → List ℕ
  | 0, _, _ => []
  | n + 1, i, s =>
    evaluatedBody img inode offset s ++
      evaluatedLoop img inode offset n (i + 1) (readDataBody img inode offset i s)

/-- The indices at which `read_data` evaluates the block table, in order. -/
def evaluated (img : Image) (inode offset : ℕ) (buf : Memory) (length : ℕ) : List ℕ :=
  if inodeCnt img ≤ inode then []
  else
    offset / charsPerBlock ::
      evaluatedLoop img inode offset length 0 (readDataStart img inode offset buf)

section Indices

variable {img : Image} {inode offset : ℕ} {buf : Memory} {b : ℕ} {s : ReadData}

/-- The current block is the one looked up last. -/
theorem currDataBlock_evaluated (img : Image) (inode offset i : ℕ) (s : ReadData) :
    (readDataBody img inode offset i s).currDataBlock =
      ((evaluatedBody img inode offset s).getLast?.map (dataBlockOffset img inode)).getD
        s.currDataBlock := by
  unfold readDataBody evaluatedBody
  split_ifs <;> rfl

/-- Before the end of the file, the block of the next byte is looked up if it is another one. -/
theorem mem_evaluatedBody (hs : s.At img inode offset buf b)
    (hlt : offset + b < inodeLength img inode) (k : ℕ) :
    k ∈ evaluatedBody img inode offset s ↔
      (offset + b) / charsPerBlock < k ∧ k ≤ (offset + (b + 1)) / charsPerBlock := by
  have hlen : inodeLength img inode < 2 ^ 32 := word32_lt _ _
  have hmod : (s.bytesRead + offset) % 2 ^ 32 = offset + b := by
    rw [hs.bytesRead, Nat.mod_eq_of_lt (by omega), Nat.add_comm]
  rw [evaluatedBody, hmod, if_pos hlt, hs.newOffset, hs.offDataBlock]
  split_ifs with hnext
  · rw [List.mem_singleton]
    simp only [charsPerBlock] at hnext ⊢
    omega
  · refine iff_of_false List.not_mem_nil ?_
    simp only [charsPerBlock] at hnext ⊢
    omega

theorem evaluatedBody_end (hs : s.At img inode offset buf b)
    (hge : inodeLength img inode ≤ offset + b) (hoff : offset + b < 2 ^ 32) :
    evaluatedBody img inode offset s = [] := by
  rw [evaluatedBody, hs.bytesRead, Nat.add_comm, Nat.mod_eq_of_lt hoff, if_neg (by omega)]

/-- At the end of the file nothing is looked up any more. -/
theorem evaluatedLoop_end (hs : s.At img inode offset buf b)
    (hge : inodeLength img inode ≤ offset + b) (hoff : offset + b < 2 ^ 32) (n i : ℕ) :
    evaluatedLoop img inode offset n i s = [] := by
  induction n generalizing i with
  | zero => rfl
  | succ n ih =>
    rw [evaluatedLoop, evaluatedBody_end hs hge hoff, readDataBody_end hs hge hoff, ih,
      List.append_nil]

/-- What the loop looks up from the byte `b` on. -/
theorem mem_evaluatedLoop {n : ℕ} (hs : s.At img inode offset buf b)
    (hle : offset + b ≤ inodeLength img inode) (k : ℕ) :
    k ∈ evaluatedLoop img inode offset n b s ↔
      (offset + b) / charsPerBlock < k ∧
        k ≤ (offset + b + min n (inodeLength img inode - (offset + b))) / charsPerBlock := by
  induction n generalizing b s with
  | zero =>
    rw [evaluatedLoop, Nat.zero_min, Nat.add_zero]
    exact iff_of_false List.not_mem_nil fun h => absurd h.1 (not_lt.2 h.2)
  | succ n ih =>
    have hlen : inodeLength img inode < 2 ^ 32 := word32_lt _ _
    rcases hle.lt_or_eq with hlt | heq
    · have hrest := ih (readDataBody_at hs hlt) (by omega)
      rw [evaluatedLoop, List.mem_append, mem_evaluatedBody hs hlt, hrest,
        show offset + b + min (n + 1) (inodeLength img inode - (offset + b)) =
          offset + (b + 1) + min n (inodeLength img inode - (offset + (b + 1))) by omega]
      have hmono : (offset + b) / charsPerBlock ≤ (offset + (b + 1)) / charsPerBlock :=
        Nat.div_le_div_right (by omega)
      have hmono' : (offset + (b + 1)) / charsPerBlock ≤
          (offset + (b + 1) + min n (inodeLength img inode - (offset + (b + 1)))) /
            charsPerBlock := Nat.div_le_div_right (Nat.le_add_right _ _)
      omega
    · rw [evaluatedLoop_end hs heq.ge (by omega), heq, Nat.sub_self, Nat.min_zero, Nat.add_zero]
      exact iff_of_false List.not_mem_nil fun h => absurd h.1 (not_lt.2 h.2)

/-- The blocks that a read looks up. -/
theorem mem_evaluated (hinode : inode < inodeCnt img) (hoff : offset ≤ inodeLength img inode)
    (buf : Memory) (length k : ℕ) :
    k ∈ evaluated img inode offset buf length ↔
      offset / charsPerBlock ≤ k ∧
        k ≤ (offset + min length (inodeLength img inode - offset)) / charsPerBlock := by
  have hstart : (readDataStart img inode offset buf).At img inode offset buf 0 :=
    readDataStart_at buf
  have hloop := mem_evaluatedLoop (n := length) hstart (by omega) k
  rw [Nat.add_zero] at hloop
  have hmono : offset / charsPerBlock ≤
      (offset + min length (inodeLength img inode - offset)) / charsPerBlock :=
    Nat.div_le_div_right (Nat.le_add_right _ _)
  rw [evaluated, if_neg (not_le.2 hinode), List.mem_cons, hloop]
  omega

/-- **The accesses stay inside the block table** exactly if the file does not fill the table, or the
read ends before the last byte of the table. -/
theorem evaluated_lt_iff
    (hlen : ∀ i < inodeCnt img, inodeLength img i ≤ blocksPerInode * blockSize)
    (hinode : inode < inodeCnt img) (hoff : offset ≤ inodeLength img inode) (buf : Memory)
    (length : ℕ) :
    (∀ k ∈ evaluated img inode offset buf length, k < blocksPerInode) ↔
      inodeLength img inode < blocksPerInode * blockSize ∨
        offset + length < blocksPerInode * blockSize := by
  have hlast : (∀ k ∈ evaluated img inode offset buf length, k < blocksPerInode) ↔
      (offset + min length (inodeLength img inode - offset)) / charsPerBlock < blocksPerInode := by
    constructor
    · intro h
      refine h _ ((mem_evaluated hinode hoff buf length _).2 ⟨?_, le_rfl⟩)
      exact Nat.div_le_div_right (Nat.le_add_right _ _)
    · intro h k hk
      exact lt_of_le_of_lt ((mem_evaluated hinode hoff buf length k).1 hk).2 h
  have hmax := hlen inode hinode
  rw [hlast]
  simp only [blocksPerInode, blockSize, charsPerBlock] at hmax ⊢
  omega

end Indices

theorem longShellImg_inodesOk : InodesOk longShellImg where
  length_le := by decide +kernel
  block_lt := by decide +kernel

theorem evaluated_lt_iff_long :
    (∀ k ∈ evaluated longShellImg 0 0 (fun _ => 0) 40, k < blocksPerInode) ↔
      inodeLength longShellImg 0 < blocksPerInode * blockSize ∨
        0 + 40 < blocksPerInode * blockSize :=
  evaluated_lt_iff longShellImg_inodesOk.length_le (by decide) (Nat.zero_le _) (fun _ => 0) 40

/-- Behind the last byte of the longest file, the entry behind the end of the table is looked up. -/
theorem lastByte_looks_behind : WellFormed longShellImg ∧ InodesOk longShellImg ∧
    inodeLength longShellImg 0 = blocksPerInode * blockSize ∧
    evaluated longShellImg 0 (blocksPerInode * blockSize - 1) (fun _ => 0) 1 =
      [blocksPerInode - 1, blocksPerInode] :=
  ⟨longShellImg_wellFormed, longShellImg_inodesOk, by decide +kernel, by decide +kernel⟩

end LinuxIsLove
