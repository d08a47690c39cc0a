import LinuxIsLove.Foundation.Bytes

/-!
# Buffers that remember their stores

The copy routines of C are given no bound.  A `Buffer` is the memory from the start of an array on,
together with the indices of all stores made through the array, so that `Within` can say whether
they stayed inside it.  `memcpy` and `strcpy` are the loops, store by store; `memcpy_eq` and
`strcpy_eq` say what they leave behind, and `within_filled` which arrays have room for it.

`scan` is the loop that looks for the first byte with some property.
-/

namespace Bytes

/-- The memory from the start of an array on, and the indices stored to, the last one first. -/
structure Buffer where
  bytes : Memory
  stores : List ℕ

namespace Buffer

/-- An array that nothing has been stored to. -/
def fresh (m : Memory) : Buffer := ⟨m, []⟩

def set (b : Buffer) (i : ℕ) (v : UInt8) : Buffer :=
  ⟨Function.update b.bytes i v, i :: b.stores⟩

/-- Every store was to one of the first `n` bytes. -/
def Within (b : Buffer) (n : ℕ) : Prop := ∀ i ∈ b.stores, i < n

instance (b : Buffer) (n : ℕ) : Decidable (b.Within n) := by
  unfold Within
  infer_instance

/-- Copy `n` bytes from index `i` on. -/
def memcpyLoop (src : Memory) : ℕ → ℕ → Buffer → Buffer
  | 0, _, b => b
  | n + 1, i, b => memcpyLoop src n (i + 1) (b.set i (src i))

def memcpy (b : Buffer) (src : Memory) (n : ℕ) : Buffer := memcpyLoop src n 0 b

/-- Copy from index `i` on up to the NUL of the source, looking at `fuel` bytes at most. -/
def strcpyLoop (src : Memory) : ℕ → ℕ → Buffer → Buffer
  | 0, _, b => b
  | fuel + 1, i, b =>
    if src i = 0 then b.set i 0 else strcpyLoop src fuel (i + 1) (b.set i (src i))

def strcpy (b : Buffer) (src : Memory) : Buffer := strcpyLoop src (2 ^ 32) 0 b

/-- The first `n` bytes of a source have been stored one after the other. -/
def filled (b : Buffer) (src : Memory) (n : ℕ) : Buffer :=
  ⟨copy b.bytes src n, (List.range n).reverse ++ b.stores⟩

/-- A string has been copied to the buffer, with its NUL. -/
def put (b : Buffer) (s : CString) : Buffer := b.filled s.mem (s.bytes.length + 1)

section Copies

variable {b : Buffer} {src src' : Memory} {n : ℕ}

@[simp] theorem filled_zero (b : Buffer) (src : Memory) : b.filled src 0 = b := by
  simp [filled]

theorem filled_succ (b : Buffer) (src : Memory) (n : ℕ) :
    b.filled src (n + 1) = (b.filled src n).set n (src n) := by
  simp [filled, set, copy_succ, List.range_succ]

theorem filled_congr (h : ∀ j < n, src j = src' j) : b.filled src n = b.filled src' n := by
  have hcopy : copy b.bytes src n = copy b.bytes src' n := by
    funext j
    by_cases hj : j < n
    · rw [copy_of_lt hj, copy_of_lt hj, h j hj]
    · rw [copy_of_le (not_lt.1 hj), copy_of_le (not_lt.1 hj)]
  rw [filled, filled, hcopy]

theorem memcpyLoop_filled (b : Buffer) (src : Memory) (n : ℕ) :
    ∀ i, memcpyLoop src n i (b.filled src i) = b.filled src (i + n) := by
  induction n with
  | zero => intro i; rfl
  | succ n ih =>
    intro i
    rw [memcpyLoop, ← filled_succ, ih, show i + 1 + n = i + (n + 1) by omega]

/-- What `memcpy` leaves behind. -/
theorem memcpy_eq (b : Buffer) (src : Memory) (n : ℕ) : b.memcpy src n = b.filled src n := by
  have h := memcpyLoop_filled b src n 0
  rwa [filled_zero, Nat.zero_add] at h

theorem strcpyLoop_filled (hnz : ∀ j < n, src j ≠ 0) (hz : src n = 0) {fuel : ℕ} :
    ∀ {i : ℕ}, i ≤ n → n < i + fuel →
      strcpyLoop src fuel i (b.filled src i) = b.filled src (n + 1) := by
  induction fuel with
  | zero => intro i hi hlt; omega
  | succ fuel ih =>
    intro i hi hlt
    rw [strcpyLoop]
    by_cases hend : i = n
    · subst hend
      rw [if_pos hz, filled_succ, hz]
    · rw [if_neg (hnz i (by omega)), ← filled_succ]
      exact ih (by omega) (by omega)

theorem put_bytes (b : Buffer) (s : CString) {j : ℕ} (hj : j ≤ s.bytes.length) :
    (b.put s).bytes j = s.mem j := copy_of_lt (Nat.lt_succ_of_le hj)

/-- What `strcpy` leaves behind, from a memory that starts with a string. -/
theorem strcpy_eq {s : CString} (h : ∀ j ≤ s.bytes.length, src j = s.mem j) :
    b.strcpy src = b.put s := by
  have hloop : strcpyLoop src (2 ^ 32) 0 (b.filled src 0) = b.filled src (s.bytes.length + 1) := by
    refine strcpyLoop_filled (fun j hj => ?_) ?_ (Nat.zero_le _) (by simpa using s.short)
    · rw [h j hj.le]
      exact s.mem_ne_zero hj
    · rw [h _ le_rfl]
      exact s.mem_length
  rw [filled_zero] at hloop
  exact hloop.trans (filled_congr fun j hj => h j (Nat.le_of_lt_succ hj))

theorem strcpy_mem (b : Buffer) (s : CString) : b.strcpy s.mem = b.put s :=
  strcpy_eq fun _ _ => rfl

/-- Copying a string from one buffer to another. -/
theorem strcpy_put (b c : Buffer) (s : CString) : c.strcpy (b.put s).bytes = c.put s :=
  strcpy_eq fun _ hj => put_bytes b s hj

/-- The array has room for what was stored to it. -/
theorem within_filled {m : ℕ} : (b.filled src n).Within m ↔ n ≤ m ∧ b.Within m := by
  constructor
  · intro h
    refine ⟨?_, fun i hi => h i (List.mem_append_right _ hi)⟩
    cases n with
    | zero => exact Nat.zero_le m
    | succ n => exact h n (List.mem_append_left _ (by simp))
  · rintro ⟨hle, hb⟩ i hi
    rcases List.mem_append.1 hi with hnew | hold
    · simp only [List.mem_reverse, List.mem_range] at hnew
      omega
    · exact hb i hold

theorem within_fresh_put {m : Memory} {s : CString} :
    ((fresh m).put s).Within n ↔ s.bytes.length < n := by
  rw [put, within_filled]
  simp [Within, fresh]

end Copies

end Buffer

/-! ### Strings in memory -/

namespace CString

/-- The string at the start of a memory. -/
def ofMem (m : Memory) : CString where
  bytes := nulBounded m (2 ^ 32 - 1) 0
  noNul b hb := by
    obtain ⟨j, hj, rfl⟩ := List.getElem_of_mem hb
    rw [(nulBounded_getElem hj).1]
    exact (nulBounded_getElem hj).2
  short := lt_of_le_of_lt (nulBounded_length_le _ _ _) (by norm_num)

theorem ext {s t : CString} (h : s.bytes = t.bytes) : s = t := by
  cases s
  cases t
  subst h
  rfl

theorem window_mem (s : CString) (n : ℕ) : window s.mem n = (s.drop n).mem := by
  funext j
  simp [window, mem, drop, List.getD_eq_getElem?_getD]

theorem drop_drop (s : CString) (m n : ℕ) : (s.drop m).drop n = s.drop (m + n) :=
  ext List.drop_drop

theorem mem_takeWhile (s : CString) (p : UInt8 → Bool) {j : ℕ}
    (h : j < (s.takeWhile p).bytes.length) : (s.takeWhile p).mem j = s.mem j := by
  have hpre : (s.takeWhile p).bytes <+: s.bytes := List.takeWhile_prefix p
  rw [mem_of_lt _ h, mem_of_lt _ (lt_of_lt_of_le h hpre.length_le), hpre.getElem h]

theorem drop_takeWhile (s : CString) (p : UInt8 → Bool) :
    s.drop (s.takeWhile p).bytes.length = s.dropWhile p := by
  apply ext
  calc s.bytes.drop (s.bytes.takeWhile p).length
      = (s.bytes.takeWhile p ++ s.bytes.dropWhile p).drop (s.bytes.takeWhile p).length := by
        rw [List.takeWhile_append_dropWhile]
    _ = s.bytes.dropWhile p := List.drop_left

end CString

theorem nulBounded_eq {m : Memory} {l : List UInt8} :
    ∀ {n p : ℕ}, l.length ≤ n → (∀ b ∈ l, b ≠ 0) → (∀ j ≤ l.length, m (p + j) = l.getD j 0) →
      nulBounded m n p = l := by
  induction l with
  | nil =>
    intro n p _ _ hm
    have hz : m p = 0 := hm 0 le_rfl
    cases n with
    | zero => rfl
    | succ n => rw [nulBounded, if_pos hz]
  | cons b l ih =>
    intro n p hlen hnz hm
    have hb : m p = b := hm 0 (Nat.zero_le _)
    cases n with
    | zero => simp at hlen
    | succ n =>
      have hrest : nulBounded m n (p + 1) = l := by
        refine ih (by simpa using hlen) (fun c hc => hnz c (List.mem_cons_of_mem _ hc)) ?_
        intro j hj
        rw [show p + 1 + j = p + (j + 1) by omega, hm (j + 1) (by simpa using hj)]
        rfl
      rw [nulBounded, hb, if_neg (hnz b List.mem_cons_self), hrest]

/-- A string that was copied to a buffer is the string at its start. -/
theorem ofMem_put (b : Buffer) (s : CString) : CString.ofMem (b.put s).bytes = s := by
  apply CString.ext
  refine nulBounded_eq (Nat.le_sub_one_of_lt s.short) s.noNul fun j hj => ?_
  rw [Nat.zero_add]
  exact Buffer.put_bytes b s hj

theorem strlen_put (b : Buffer) (s : CString) : strlen (b.put s).bytes 0 = s.bytes.length := by
  refine strlen_eq s.short (fun j hj => ?_) ?_
  · rw [Nat.zero_add, Buffer.put_bytes b s hj.le]
    exact s.mem_ne_zero hj
  · rw [Nat.zero_add, Buffer.put_bytes b s le_rfl]
    exact s.mem_length

/-! ### Scanning a string -/

/-- The first index from `i` on whose byte meets a condition, looking at `fuel` bytes at most. -/
def scan (stop : UInt8 → Bool) (m : Memory) : ℕ → ℕ → ℕ
  | 0, i => i
  | fuel + 1, i => if stop (m i) then i else scan stop m fuel (i + 1)

theorem scan_list {stop p : UInt8 → Bool} (hstop : ∀ b, stop b = true ↔ b = 0 ∨ p b = false)
    {m : Memory} {l : List UInt8} :
    ∀ {fuel i : ℕ}, l.length < fuel → (∀ b ∈ l, b ≠ 0) → (∀ j, m (i + j) = l.getD j 0) →
      scan stop m fuel i = i + (l.takeWhile p).length := by
  induction l with
  | nil =>
    intro fuel i hlt _ hm
    cases fuel with
    | zero => omega
    | succ fuel =>
      have hz : m i = 0 := hm 0
      rw [scan, if_pos ((hstop _).2 (Or.inl hz))]
      rfl
  | cons b l ih =>
    intro fuel i hlt hnz hm
    cases fuel with
    | zero => omega
    | succ fuel =>
      have hb : m i = b := hm 0
      have hb0 : b ≠ 0 := hnz b List.mem_cons_self
      rw [scan, hb]
      by_cases hp : p b = true
      · have hgo : ¬ stop b = true := by
          rw [hstop]
          simp [hb0, hp]
        have hrest : scan stop m fuel (i + 1) = i + 1 + (l.takeWhile p).length := by
          refine ih (by simpa using hlt) (fun c hc => hnz c (List.mem_cons_of_mem _ hc)) ?_
          intro j
          rw [show i + 1 + j = i + (j + 1) by omega, hm]
          rfl
        rw [if_neg hgo, hrest, List.takeWhile_cons_of_pos hp, List.length_cons]
        omega
      · rw [if_pos ((hstop b).2 (Or.inr (by simpa using hp))), List.takeWhile_cons_of_neg hp]
        rfl

/-- The scan of a string from index `n` on finds the end of the longest prefix of what is left. -/
theorem scan_mem {stop p : UInt8 → Bool} (hstop : ∀ b, stop b = true ↔ b = 0 ∨ p b = false)
    (s : CString) (n : ℕ) :
    scan stop s.mem (2 ^ 32) n = n + ((s.drop n).takeWhile p).bytes.length := by
  refine scan_list hstop (s.drop n).short (s.drop n).noNul fun j => ?_
  exact congrFun (s.window_mem n) j

end Bytes
