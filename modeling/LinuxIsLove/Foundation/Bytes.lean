import Mathlib

/-!
# Bytes in memory

A memory is a function from addresses to bytes.  This file has the byte-wise operations programs
are specified with: 32-bit little-endian words (`word32`), copying a block (`copy`), the part of a
memory that starts at an address (`window`, `splice`), conversion between unsigned and signed
32-bit values (`u32`, `s32`), and NUL-terminated strings.

A `CString` carries the proof that none of its bytes is NUL, so that the terminator stands right
behind it; `strlen` scans a memory for the terminator and `strncmp` compares two memories.
-/

namespace Bytes

/-- A memory, or the part of a memory from some address on. -/
abbrev Memory := ℕ → UInt8

/-- The little-endian 32-bit word at address `p`. -/
def word32 (m : Memory) (p : ℕ) : ℕ :=
  (m p).toNat + 2 ^ 8 * (m (p + 1)).toNat + 2 ^ 16 * (m (p + 2)).toNat +
    2 ^ 24 * (m (p + 3)).toNat

/-- `dst` after the first `n` bytes of `src` have been copied to its start. -/
def copy (dst src : Memory) (n : ℕ) : Memory := fun j => if j < n then src j else dst j

/-- The memory from address `p` on. -/
def window (m : Memory) (p : ℕ) : Memory := fun j => m (p + j)

/-- `m` with the part from address `p` on replaced by `w`. -/
def splice (m : Memory) (p : ℕ) (w : Memory) : Memory := fun a => if p ≤ a then w (a - p) else m a

/-- The value of a signed integer converted to an unsigned 32-bit one. -/
def u32 (x : ℤ) : ℕ := (x % 2 ^ 32).toNat

/-- The value of an unsigned 32-bit integer read as a signed one. -/
def s32 (x : ℕ) : ℤ := if x % 2 ^ 32 < 2 ^ 31 then (x % 2 ^ 32 : ℕ) else (x % 2 ^ 32 : ℕ) - 2 ^ 32

/-- A byte read as a signed character. -/
def schar (b : UInt8) : ℤ := if b.toNat < 128 then b.toNat else (b.toNat : ℤ) - 256

section Words

variable {m m' : Memory}

theorem word32_lt (m : Memory) (p : ℕ) : word32 m p < 2 ^ 32 := by
  have h0 := (m p).toNat_lt
  have h1 := (m (p + 1)).toNat_lt
  have h2 := (m (p + 2)).toNat_lt
  have h3 := (m (p + 3)).toNat_lt
  unfold word32
  omega

/-- Equal words have equal bytes. -/
theorem word32_congr {p q : ℕ} (h : ∀ i < 4, m' (q + i) = m (p + i)) :
    word32 m' q = word32 m p := by
  have h0 := h 0 (by omega)
  have h1 := h 1 (by omega)
  have h2 := h 2 (by omega)
  have h3 := h 3 (by omega)
  simp only [Nat.add_zero] at h0
  simp only [word32, h0, h1, h2, h3]

@[simp] theorem copy_zero (dst src : Memory) : copy dst src 0 = dst := by
  funext j; simp [copy]

theorem copy_of_lt {dst src : Memory} {n j : ℕ} (h : j < n) : copy dst src n j = src j := if_pos h

theorem copy_of_le {dst src : Memory} {n j : ℕ} (h : n ≤ j) : copy dst src n j = dst j :=
  if_neg (by omega)

/-- One more byte of a block copy. -/
theorem copy_succ (dst src : Memory) (n : ℕ) :
    copy dst src (n + 1) = Function.update (copy dst src n) n (src n) := by
  funext j
  by_cases h : j = n
  · subst h; simp [copy]
  · rw [Function.update_of_ne h]
    by_cases hlt : j < n
    · rw [copy_of_lt hlt, copy_of_lt (by omega)]
    · rw [copy_of_le (by omega), copy_of_le (by omega)]

/-- Copying into the part of a memory from `p` on changes the `n` bytes there and no others. -/
theorem splice_copy (m src : Memory) (p n a : ℕ) :
    splice m p (copy (window m p) src n) a =
      if p ≤ a ∧ a < p + n then src (a - p) else m a := by
  unfold splice copy window
  by_cases hp : p ≤ a
  · by_cases hn : a - p < n
    · rw [if_pos hp, if_pos hn, if_pos ⟨hp, by omega⟩]
    · rw [if_pos hp, if_neg hn, if_neg (by omega), show p + (a - p) = a by omega]
  · rw [if_neg hp, if_neg (by omega)]

@[simp] theorem splice_window (m : Memory) (p : ℕ) : splice m p (window m p) = m := by
  have h := splice_copy m m p 0
  simp only [copy_zero] at h
  funext a
  rw [h a, if_neg (by omega)]

theorem splice_update {m w : Memory} {p i : ℕ} {b : UInt8} :
    splice m p (Function.update w i b) = Function.update (splice m p w) (p + i) b := by
  funext a
  by_cases ha : a = p + i
  · subst ha
    simp [splice]
  · rw [Function.update_of_ne ha]
    unfold splice
    by_cases hp : p ≤ a
    · rw [if_pos hp, if_pos hp, Function.update_of_ne (by omega)]
    · rw [if_neg hp, if_neg hp]

theorem u32_of_nonneg {x : ℤ} (h0 : 0 ≤ x) (h : x < 2 ^ 32) : u32 x = x.toNat := by
  rw [u32, Int.emod_eq_of_lt h0 h]

theorem s32_of_lt {x : ℕ} (h : x < 2 ^ 31) : s32 x = x := by
  have hmod : x % 2 ^ 32 = x := Nat.mod_eq_of_lt (by omega)
  simp only [s32, hmod]
  rw [if_pos h]

/-- A signed integer survives the conversion to an unsigned one and back. -/
theorem s32_u32 {x : ℤ} (h0 : -2 ^ 31 ≤ x) (h : x < 2 ^ 31) : s32 (u32 x) = x := by
  unfold s32 u32
  split_ifs <;> omega

end Words

/-! ### NUL-terminated strings -/

/-- The bytes of a string before its NUL.  It fits in a 32-bit address space. -/
structure CString where
  bytes : List UInt8
  noNul : ∀ b ∈ bytes, b ≠ 0
  short : bytes.length < 2 ^ 32

namespace CString

/-- The memory from the first byte of the string on, as far as the string determines it. -/
def mem (s : CString) : Memory := fun i => s.bytes.getD i 0

/-- The string without its first bytes. -/
def drop (s : CString) (n : ℕ) : CString where
  bytes := s.bytes.drop n
  noNul b hb := s.noNul b (List.mem_of_mem_drop hb)
  short := lt_of_le_of_lt (by simp) s.short

/-- The longest prefix of bytes that meet a condition. -/
def takeWhile (s : CString) (p : UInt8 → Bool) : CString where
  bytes := s.bytes.takeWhile p
  noNul b hb := s.noNul b (List.takeWhile_subset _ hb)
  short := lt_of_le_of_lt (List.takeWhile_prefix p).length_le s.short

/-- What follows the longest prefix of bytes that meet a condition. -/
def dropWhile (s : CString) (p : UInt8 → Bool) : CString where
  bytes := s.bytes.dropWhile p
  noNul b hb := s.noNul b ((List.dropWhile_suffix p).subset hb)
  short := lt_of_le_of_lt (List.dropWhile_suffix p).length_le s.short

theorem mem_of_lt (s : CString) {i : ℕ} (h : i < s.bytes.length) : s.mem i = s.bytes[i] := by
  simp [mem, h]

theorem mem_ne_zero (s : CString) {i : ℕ} (h : i < s.bytes.length) : s.mem i ≠ 0 := by
  rw [s.mem_of_lt h]
  exact s.noNul _ (List.getElem_mem h)

theorem mem_length (s : CString) : s.mem s.bytes.length = 0 := by simp [mem]

end CString

/-- Count the bytes before the first NUL, looking at `fuel` bytes at most. -/
def strlenLoop (m : Memory) : ℕ → ℕ → ℕ
  | 0, _ => 0
  | fuel + 1, p => if m p = 0 then 0 else strlenLoop m fuel (p + 1) + 1

/-- The length of the string at address `p`: the scan can visit the whole address space. -/
def strlen (m : Memory) (p : ℕ) : ℕ := strlenLoop m (2 ^ 32) p

/-- Compare two memories byte by byte from index `i` on, `n` bytes at most, up to the first
difference or NUL. -/
def strncmpLoop (s1 s2 : Memory) : ℕ → ℕ → ℤ
  | 0, _ => 0
  | n + 1, i =>
    if s1 i ≠ s2 i ∨ s1 i = 0 then schar (s1 i) - schar (s2 i) else strncmpLoop s1 s2 n (i + 1)

def strncmp (s1 s2 : Memory) (n : ℕ) : ℤ := strncmpLoop s1 s2 n 0

theorem strlenLoop_eq {m : Memory} {n : ℕ} :
    ∀ {fuel p : ℕ}, n < fuel → (∀ i < n, m (p + i) ≠ 0) → m (p + n) = 0 →
      strlenLoop m fuel p = n := by
  induction n with
  | zero =>
    intro fuel p hf _ hz
    cases fuel with
    | zero => omega
    | succ fuel =>
      rw [Nat.add_zero] at hz
      simp [strlenLoop, hz]
  | succ n ih =>
    intro fuel p hf hnz hz
    cases fuel with
    | zero => omega
    | succ fuel =>
      have hp : m p ≠ 0 := hnz 0 (by omega)
      have hrest : strlenLoop m fuel (p + 1) = n := by
        refine ih (by omega) (fun i hi => ?_) ?_
        · have := hnz (i + 1) (by omega)
          rwa [show p + (i + 1) = p + 1 + i by omega] at this
        · rwa [show p + (n + 1) = p + 1 + n by omega] at hz
      rw [strlenLoop, if_neg hp, hrest]

/-- The scan stops at the first NUL. -/
theorem strlen_eq {m : Memory} {p n : ℕ} (hn : n < 2 ^ 32) (hnz : ∀ i < n, m (p + i) ≠ 0)
    (hz : m (p + n) = 0) : strlen m p = n := strlenLoop_eq hn hnz hz

theorem strlenLoop_ne_zero {m : Memory} {fuel p j : ℕ} (h : j < strlenLoop m fuel p) :
    m (p + j) ≠ 0 := by
  induction fuel generalizing p j with
  | zero => simp [strlenLoop] at h
  | succ fuel ih =>
    rw [strlenLoop] at h
    split_ifs at h with hz
    · omega
    · cases j with
      | zero => exact hz
      | succ j =>
        rw [show p + (j + 1) = p + 1 + j by omega]
        exact ih (by omega)

theorem strlenLoop_end {m : Memory} {fuel p : ℕ} (h : strlenLoop m fuel p < fuel) :
    m (p + strlenLoop m fuel p) = 0 := by
  induction fuel generalizing p with
  | zero => omega
  | succ fuel ih =>
    rw [strlenLoop] at h ⊢
    split_ifs at h ⊢ with hz
    · exact hz
    · rw [show p + (strlenLoop m fuel (p + 1) + 1) = p + 1 + strlenLoop m fuel (p + 1) by omega]
      exact ih (by omega)

/-- The bytes that `strlen` counts are not NUL, and the next one is. -/
theorem strlen_ne_zero {m : Memory} {p j : ℕ} (h : j < strlen m p) : m (p + j) ≠ 0 :=
  strlenLoop_ne_zero h

theorem strlen_end {m : Memory} {p : ℕ} (h : strlen m p < 2 ^ 32) : m (p + strlen m p) = 0 :=
  strlenLoop_end h

theorem strlen_mem (s : CString) : strlen s.mem 0 = s.bytes.length := by
  refine strlen_eq s.short (fun i hi => ?_) ?_
  · rw [Nat.zero_add]; exact s.mem_ne_zero hi
  · rw [Nat.zero_add]; exact s.mem_length

theorem schar_injective : Function.Injective schar := by
  intro a b h
  have ha := a.toNat_lt
  have hb := b.toNat_lt
  apply UInt8.toNat.inj
  unfold schar at h
  split_ifs at h <;> omega

theorem strncmpLoop_eq_zero {s1 s2 : Memory} {n : ℕ} :
    ∀ {i : ℕ}, (∀ j < n, s1 (i + j) ≠ 0) →
      (strncmpLoop s1 s2 n i = 0 ↔ ∀ j < n, s1 (i + j) = s2 (i + j)) := by
  induction n with
  | zero => intro i _; simp [strncmpLoop]
  | succ n ih =>
    intro i hnz
    have hi : s1 i ≠ 0 := hnz 0 (by omega)
    have hrest := ih (i := i + 1) fun j hj => by
      have := hnz (j + 1) (by omega)
      rwa [show i + (j + 1) = i + 1 + j by omega] at this
    have hsplit : (∀ j < n + 1, s1 (i + j) = s2 (i + j)) ↔
        s1 i = s2 i ∧ ∀ j < n, s1 (i + 1 + j) = s2 (i + 1 + j) := by
      constructor
      · intro h
        refine ⟨h 0 (by omega), fun j hj => ?_⟩
        have := h (j + 1) (by omega)
        rwa [show i + (j + 1) = i + 1 + j by omega] at this
      · rintro ⟨h0, h⟩ j hj
        cases j with
        | zero => exact h0
        | succ j =>
          rw [show i + (j + 1) = i + 1 + j by omega]
          exact h j (by omega)
    rw [strncmpLoop, hsplit]
    by_cases heq : s1 i = s2 i
    · rw [if_neg (by rw [not_or, not_not]; exact ⟨heq, hi⟩), hrest]
      exact ⟨fun h => ⟨heq, h⟩, fun h => h.2⟩
    · rw [if_pos (Or.inl heq)]
      refine ⟨fun h => absurd (schar_injective (by omega)) heq, fun h => absurd h.1 heq⟩

/-- Strings without a NUL in the compared part compare equal exactly when that part agrees. -/
theorem strncmp_eq_zero {s1 s2 : Memory} {n : ℕ} (hnz : ∀ j < n, s1 j ≠ 0) :
    strncmp s1 s2 n = 0 ↔ ∀ j < n, s1 j = s2 j := by
  have h : (∀ j < n, s1 (0 + j) ≠ 0) →
      (strncmpLoop s1 s2 n 0 = 0 ↔ ∀ j < n, s1 (0 + j) = s2 (0 + j)) := strncmpLoop_eq_zero
  simp only [Nat.zero_add] at h
  exact h hnz

/-! ### Fields that hold a string -/

/-- The bytes from address `p` on before the first NUL, `n` bytes at most. -/
def nulBounded (m : Memory) : ℕ → ℕ → List UInt8
  | 0, _ => []
  | n + 1, p => if m p = 0 then [] else m p :: nulBounded m n (p + 1)

theorem nulBounded_length_le (m : Memory) (n p : ℕ) : (nulBounded m n p).length ≤ n := by
  induction n generalizing p with
  | zero => rfl
  | succ n ih =>
    rw [nulBounded]
    split_ifs
    · simp
    · rw [List.length_cons]
      exact Nat.succ_le_succ (ih (p + 1))

theorem nulBounded_getElem {m : Memory} {n p j : ℕ} (h : j < (nulBounded m n p).length) :
    (nulBounded m n p)[j] = m (p + j) ∧ m (p + j) ≠ 0 := by
  induction n generalizing p j with
  | zero => simp [nulBounded] at h
  | succ n ih =>
    by_cases hz : m p = 0
    · simp [nulBounded, hz] at h
    · cases j with
      | zero => simp [nulBounded, hz]
      | succ j =>
        simp only [nulBounded, if_neg hz, List.length_cons] at h
        have hrest := ih (p := p + 1) (j := j) (by omega)
        simp only [nulBounded, if_neg hz, List.getElem_cons_succ]
        rwa [show p + (j + 1) = p + 1 + j by omega]

/-- A string is the first `n` bytes of a memory. -/
theorem CString.bytes_eq_map {s : CString} {m : Memory} {n : ℕ} :
    s.bytes = (List.range n).map m ↔ s.bytes.length = n ∧ ∀ j < n, s.mem j = m j := by
  constructor
  · intro h
    have hlen : s.bytes.length = n := by rw [h, List.length_map, List.length_range]
    refine ⟨hlen, fun j hj => ?_⟩
    rw [s.mem_of_lt (by omega)]
    simp [h]
  · rintro ⟨hlen, h⟩
    refine List.ext_getElem (by simpa using hlen) fun j hj hj' => ?_
    rw [← s.mem_of_lt hj, h j (by omega)]
    simp

end Bytes
