import LinuxIsLove.Foundation.Bytes

/-!
# Blocks of memory

`blockSet m d w n` is the memory `m` with the `n` bytes from address `d` on replaced by the first
`n` bytes of `w`.  A block grows at its end (`blockSet_append`) and at its start (`blockSet_cons`).
`copyBytewise` and `fillBytewise` are the loops that store one byte after the other.
-/

namespace Bytes

/-- Replace the `n` bytes from `d` on. -/
def blockSet (m : Memory) (d : ℕ) (w : Memory) (n : ℕ) : Memory :=
  splice m d (copy (window m d) w n)

/-- `for (i = 0; i < n; i++) m[d + i] = m[s + i];` -/
def copyBytewise (m : Memory) (d s : ℕ) : ℕ → Memory
  | 0 => m
  | n + 1 => Function.update (copyBytewise m d s n) (d + n) (copyBytewise m d s n (s + n))

/-- `for (i = 0; i < n; i++) m[d + i] = b;` -/
def fillBytewise (m : Memory) (d : ℕ) (b : UInt8) : ℕ → Memory
  | 0 => m
  | n + 1 => Function.update (fillBytewise m d b n) (d + n) b

variable {m w v : Memory} {d s n k : ℕ}

theorem blockSet_apply (m : Memory) (d : ℕ) (w : Memory) (n a : ℕ) :
    blockSet m d w n a = if d ≤ a ∧ a < d + n then w (a - d) else m a :=
  splice_copy m w d n a

@[simp] theorem blockSet_zero (m : Memory) (d : ℕ) (w : Memory) : blockSet m d w 0 = m := by
  rw [blockSet, copy_zero, splice_window]

theorem blockSet_of_lt (m : Memory) (d : ℕ) (w : Memory) {i : ℕ} (h : i < n) :
    blockSet m d w n (d + i) = w i := by
  rw [blockSet_apply, if_pos ⟨Nat.le_add_right _ _, by omega⟩, Nat.add_sub_cancel_left]

theorem blockSet_of_not (m w : Memory) {a : ℕ} (h : ¬(d ≤ a ∧ a < d + n)) :
    blockSet m d w n a = m a := by
  rw [blockSet_apply, if_neg h]

theorem blockSet_congr (h : ∀ i < n, w i = v i) : blockSet m d w n = blockSet m d v n := by
  funext a
  rw [blockSet_apply, blockSet_apply]
  by_cases ha : d ≤ a ∧ a < d + n
  · rw [if_pos ha, if_pos ha, h (a - d) (by omega)]
  · rw [if_neg ha, if_neg ha]

@[simp] theorem blockSet_window (m : Memory) (d n : ℕ) : blockSet m d (window m d) n = m := by
  funext a
  rw [blockSet_apply]
  split_ifs with ha
  · show m (d + (a - d)) = m a
    rw [Nat.add_sub_cancel' ha.1]
  · rfl

/-- A shorter block over a block that agrees with it further on. -/
theorem blockSet_cover (hle : n ≤ k) (h : ∀ i, n ≤ i → i < k → v i = w i) :
    blockSet (blockSet m d v k) d w n = blockSet m d w k := by
  funext a
  rw [blockSet_apply, blockSet_apply, blockSet_apply]
  by_cases hn : d ≤ a ∧ a < d + n
  · rw [if_pos hn, if_pos (by omega)]
  · rw [if_neg hn]
    by_cases hk : d ≤ a ∧ a < d + k
    · rw [if_pos hk, if_pos hk, h _ (by omega) (by omega)]
    · rw [if_neg hk, if_neg hk]

/-- A block of one byte. -/
theorem blockSet_one (m : Memory) (d : ℕ) (w : Memory) :
    blockSet m d w 1 = Function.update m d (w 0) := by
  funext a
  rw [blockSet_apply]
  by_cases ha : a = d
  · subst ha
    rw [if_pos ⟨le_rfl, by omega⟩, Nat.sub_self, Function.update_self]
  · rw [if_neg (by omega), Function.update_of_ne ha]

/-- A block behind a block is the longer block. -/
theorem blockSet_append (h : ∀ i < n, v i = w (k + i)) :
    blockSet (blockSet m d w k) (d + k) v n = blockSet m d w (k + n) := by
  funext a
  rw [blockSet_apply, blockSet_apply, blockSet_apply]
  by_cases hk : d + k ≤ a ∧ a < d + k + n
  · rw [if_pos hk, if_pos (by omega), h (a - (d + k)) (by omega)]
    congr 1
    omega
  · rw [if_neg hk]
    by_cases ha : d ≤ a ∧ a < d + k
    · rw [if_pos ha, if_pos (by omega)]
    · rw [if_neg ha, if_neg (by omega)]

/-- A byte before a block. -/
theorem blockSet_cons (h : v 0 = w 0) :
    blockSet (blockSet m (d + 1) (window w 1) k) d v 1 = blockSet m d w (k + 1) := by
  funext a
  rw [blockSet_apply, blockSet_apply, blockSet_apply]
  by_cases hd : a = d
  · subst hd
    rw [if_pos (by omega), if_pos (by omega), Nat.sub_self, h]
  · rw [if_neg (by omega)]
    by_cases ha : d + 1 ≤ a ∧ a < d + 1 + k
    · rw [if_pos ha, if_pos (by omega)]
      show w (1 + (a - (d + 1))) = w (a - d)
      congr 1
      omega
    · rw [if_neg ha, if_neg (by omega)]

/-- Copying goes on with the bytes behind, as long as they still are the original ones. -/
theorem blockSet_next (h : ∀ i < n, ¬(d ≤ s + k + i ∧ s + k + i < d + k)) :
    blockSet (blockSet m d (window m s) k) (d + k)
      (window (blockSet m d (window m s) k) (s + k)) n = blockSet m d (window m s) (k + n) := by
  refine blockSet_append fun i hi => ?_
  show blockSet m d (window m s) k (s + k + i) = m (s + (k + i))
  rw [blockSet_of_not m _ (h i hi), Nat.add_assoc]

/-- Copying downwards goes on with the byte before. -/
theorem blockSet_prev (h : ¬(d + 1 ≤ s ∧ s < d + 1 + k)) :
    blockSet (blockSet m (d + 1) (window m (s + 1)) k) d
      (window (blockSet m (d + 1) (window m (s + 1)) k) s) 1 =
      blockSet m d (window m s) (k + 1) := by
  have hwin : window m (s + 1) = window (window m s) 1 := by
    funext i
    show m (s + 1 + i) = m (s + (1 + i))
    rw [Nat.add_assoc]
  rw [hwin]
  refine blockSet_cons ?_
  show blockSet m (d + 1) (window (window m s) 1) k s = m s
  exact blockSet_of_not m _ h

/-- Copying byte by byte is copying all at once when the ranges are disjoint. -/
theorem copyBytewise_eq (h : d + n ≤ s ∨ s + n ≤ d) :
    copyBytewise m d s n = blockSet m d (window m s) n := by
  induction n with
  | zero => exact (blockSet_zero m d _).symm
  | succ n ih =>
    rw [copyBytewise, ih (by omega), ← blockSet_next (by omega), blockSet_one]
    rfl

theorem fillBytewise_eq (m : Memory) (d : ℕ) (b : UInt8) (n : ℕ) :
    fillBytewise m d b n = blockSet m d (fun _ => b) n := by
  induction n with
  | zero => exact (blockSet_zero m d _).symm
  | succ n ih =>
    rw [fillBytewise, ih, ← blockSet_append (n := 1) (v := fun _ => b) fun _ _ => rfl,
      blockSet_one]

end Bytes
