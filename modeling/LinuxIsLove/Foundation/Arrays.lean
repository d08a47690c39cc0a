import LinuxIsLove.Foundation.Blocks

/-!
# Arrays of bytes

`bytesAt m p n` lists the `n` bytes from `p` on, `putBytes m p l` writes a list there, and
`cstring m p` is the string that starts at `p`.  `strcpyAt` copies a string within one memory, one
byte after the other: with the destination below the source the string arrives whole
(`bytesAt_strcpyAt`).
-/

namespace Bytes

/-- The `n` bytes from `p` on. -/
def bytesAt (m : Memory) (p n : ℕ) : List UInt8 := (List.range n).map (window m p)

/-- Write a list from `p` on. -/
def putBytes (m : Memory) (p : ℕ) (l : List UInt8) : Memory :=
  blockSet m p (fun i => l.getD i 0) l.length

/-- The string that starts at `p`. -/
def cstring (m : Memory) (p : ℕ) : List UInt8 := bytesAt m p (strlen m p)

/-- `while ('\0' != (*dst++ = *src++));` -/
def strcpyAt : ℕ → Memory → ℕ → ℕ → Memory
  | 0, m, _, _ => m
  | fuel + 1, m, d, s =>
    let m' := Function.update m d (m s)
    if m s = 0 then m' else strcpyAt fuel m' (d + 1) (s + 1)

variable {m m' : Memory} {p q n k : ℕ} {l : List UInt8}

@[simp] theorem length_bytesAt (m : Memory) (p n : ℕ) : (bytesAt m p n).length = n := by
  rw [bytesAt, List.length_map, List.length_range]

@[simp] theorem bytesAt_zero (m : Memory) (p : ℕ) : bytesAt m p 0 = [] := rfl

theorem getElem_bytesAt {i : ℕ} (hi : i < (bytesAt m p n).length) :
    (bytesAt m p n)[i] = m (p + i) := by
  simp only [bytesAt, List.getElem_map, List.getElem_range, window]

theorem bytesAt_congr (h : ∀ i < n, m (p + i) = m' (q + i)) : bytesAt m p n = bytesAt m' q n :=
  List.map_congr_left fun i hi => h i (List.mem_range.1 hi)

theorem mem_bytesAt {b : UInt8} : b ∈ bytesAt m p n ↔ ∃ i < n, m (p + i) = b := by
  simp only [bytesAt, List.mem_map, List.mem_range, window]

theorem bytesAt_add (m : Memory) (p n k : ℕ) :
    bytesAt m p (n + k) = bytesAt m p n ++ bytesAt m (p + n) k := by
  refine List.ext_getElem (by simp) fun i hi hi' => ?_
  rw [getElem_bytesAt]
  by_cases hn : i < n
  · rw [List.getElem_append_left (by simpa using hn), getElem_bytesAt]
  · rw [List.getElem_append_right (by simpa using hn), getElem_bytesAt, length_bytesAt]
    congr 1
    omega

theorem bytesAt_succ (m : Memory) (p n : ℕ) :
    bytesAt m p (n + 1) = bytesAt m p n ++ [m (p + n)] := bytesAt_add m p n 1

/-- Bytes that make up a list. -/
theorem bytesAt_eq_iff : bytesAt m p n = l ↔ l.length = n ∧ ∀ i < n, l[i]? = some (m (p + i)) := by
  constructor
  · rintro rfl
    refine ⟨length_bytesAt m p n, fun i hi => ?_⟩
    have hi' : i < (bytesAt m p n).length := by rwa [length_bytesAt]
    rw [List.getElem?_eq_getElem hi', getElem_bytesAt]
  · rintro ⟨hlen, hget⟩
    refine List.ext_getElem (by rw [length_bytesAt, hlen]) fun i hi hi' => ?_
    rw [getElem_bytesAt]
    have hsome := hget i (by omega)
    rw [List.getElem?_eq_getElem hi', Option.some.injEq] at hsome
    exact hsome.symm

theorem putBytes_apply (m : Memory) (p : ℕ) (l : List UInt8) (a : ℕ) :
    putBytes m p l a = if p ≤ a ∧ a < p + l.length then l.getD (a - p) 0 else m a :=
  blockSet_apply m p _ l.length a

theorem putBytes_of_lt {a : ℕ} (h : a < p) : putBytes m p l a = m a := by
  rw [putBytes_apply, if_neg (by omega)]

theorem putBytes_of_le {a : ℕ} (h : p + l.length ≤ a) : putBytes m p l a = m a := by
  rw [putBytes_apply, if_neg (by omega)]

theorem putBytes_getElem {i : ℕ} (hi : i < l.length) : putBytes m p l (p + i) = l[i] := by
  rw [putBytes_apply, if_pos (by omega), Nat.add_sub_cancel_left, List.getD_eq_getElem _ _ hi]

@[simp] theorem bytesAt_putBytes (m : Memory) (p : ℕ) (l : List UInt8) :
    bytesAt (putBytes m p l) p l.length = l := by
  refine List.ext_getElem (length_bytesAt _ _ _) fun i hi hi' => ?_
  rw [getElem_bytesAt, putBytes_getElem hi']

/-- A list behind the bytes that are there already. -/
theorem bytesAt_putBytes_append (m : Memory) (p n : ℕ) (l : List UInt8) :
    bytesAt (putBytes m (p + n) l) p (n + l.length) = bytesAt m p n ++ l := by
  rw [bytesAt_add, bytesAt_putBytes]
  congr 1
  exact bytesAt_congr fun i hi => putBytes_of_lt (by omega)

/-- The string at `p` ends at the first NUL. -/
theorem cstring_eq (hn : n < 2 ^ 32) (hnz : ∀ b ∈ bytesAt m p n, b ≠ 0) (hz : m (p + n) = 0) :
    cstring m p = bytesAt m p n := by
  rw [cstring, strlen_eq hn (fun i hi => hnz _ (mem_bytesAt.2 ⟨i, hi, rfl⟩)) hz]

@[simp] theorem length_cstring (m : Memory) (p : ℕ) : (cstring m p).length = strlen m p := by
  rw [cstring, length_bytesAt]

/-- A string in an array of less than 4 GiB is followed by its NUL. -/
theorem cstring_end (h : (cstring m p).length < 2 ^ 32) : m (p + (cstring m p).length) = 0 := by
  rw [length_cstring] at h ⊢
  exact strlen_end h

theorem zero_not_mem_cstring (m : Memory) (p : ℕ) : 0 ∉ cstring m p := by
  intro h0
  obtain ⟨i, hi, hz⟩ := mem_bytesAt.1 h0
  exact strlen_ne_zero hi hz

/-- With a NUL ahead the string ends there at the latest. -/
theorem length_cstring_le (hz : m (p + n) = 0) : (cstring m p).length ≤ n := by
  by_contra hlt
  rw [length_cstring] at hlt
  exact strlen_ne_zero (not_le.1 hlt) hz

/-- A list without a NUL that is stored with one behind it is the string there. -/
theorem cstring_putBytes {rest : List UInt8} (hl : l.length < 2 ^ 32) (hnz : ∀ b ∈ l, b ≠ 0) :
    cstring (putBytes m p (l ++ 0 :: rest)) p = l := by
  have hbytes : bytesAt (putBytes m p (l ++ 0 :: rest)) p l.length = l := by
    have hall := bytesAt_putBytes m p (l ++ 0 :: rest)
    rw [List.length_append, bytesAt_add] at hall
    exact (List.append_inj hall (length_bytesAt _ _ _)).1
  rw [cstring_eq hl (by rwa [hbytes]), hbytes]
  rw [putBytes_getElem (by simp)]
  simp

theorem update_putBytes (m : Memory) (p : ℕ) (l : List UInt8) (b : UInt8) :
    Function.update (putBytes m p l) (p + l.length) b = putBytes m p (l ++ [b]) := by
  funext a
  rw [putBytes_apply m p (l ++ [b]), List.length_append, List.length_singleton]
  by_cases ha : a = p + l.length
  · subst ha
    rw [Function.update_self, if_pos (by omega), Nat.add_sub_cancel_left]
    simp
  · rw [Function.update_of_ne ha, putBytes_apply]
    by_cases hin : p ≤ a ∧ a < p + l.length
    · rw [if_pos hin, if_pos (by omega), List.getD_append _ _ _ _ (by omega)]
    · rw [if_neg hin, if_neg (by omega)]

/-- A list with a NUL behind it is a string up to the first NUL. -/
theorem cstring_takeWhile (hl : l.length < 2 ^ 32) :
    cstring (putBytes m p (l ++ [0])) p = l.takeWhile (· ≠ 0) := by
  obtain ⟨rest, hrest⟩ : ∃ rest, l ++ [0] = l.takeWhile (· ≠ 0) ++ 0 :: rest := by
    cases hdrop : l.dropWhile (· ≠ 0) with
    | nil =>
      refine ⟨[], ?_⟩
      conv_lhs => rw [← List.takeWhile_append_dropWhile (p := (· ≠ 0)) (l := l), hdrop,
        List.append_nil]
    | cons b t =>
      have hb : b = 0 := by
        have hhead := List.head?_dropWhile_not (· ≠ 0) l
        rw [hdrop] at hhead
        simpa using hhead
      refine ⟨t ++ [0], ?_⟩
      conv_lhs => rw [← List.takeWhile_append_dropWhile (p := (· ≠ 0)) (l := l), hdrop, hb]
      simp
  have hnz : ∀ b ∈ l.takeWhile (· ≠ 0), b ≠ 0 := fun b hb => by
    simpa using List.mem_takeWhile_imp hb
  rw [hrest]
  exact cstring_putBytes (lt_of_le_of_lt (List.takeWhile_prefix _).length_le hl) hnz

/-- The first byte of a string, or its NUL. -/
theorem headD_cstring (h : (cstring m p).length < 2 ^ 32) : (cstring m p).headD 0 = m p := by
  cases hs : cstring m p with
  | nil =>
    have hend := cstring_end h
    rw [hs] at hend
    exact hend.symm
  | cons b t =>
    have hpos : 0 < strlen m p := by
      rw [← length_cstring, hs]
      exact Nat.succ_pos _
    exact Option.some.inj ((bytesAt_eq_iff.1 hs).2 0 hpos)

/-- What the copy loop leaves: the string with its NUL below, and everything else as it was. -/
theorem strcpyAt_eq {d s fuel : ℕ} (hds : d ≤ s) (hnz : ∀ i < n, m (s + i) ≠ 0)
    (hz : m (s + n) = 0) (hfuel : n < fuel) :
    strcpyAt fuel m d s = blockSet m d (window m s) (n + 1) := by
  induction fuel generalizing m d s n with
  | zero => omega
  | succ fuel ih =>
    rw [strcpyAt]
    cases n with
    | zero =>
      have h0 : m s = 0 := hz
      rw [if_pos h0, blockSet_one]
      rfl
    | succ n =>
      have h0 : m s ≠ 0 := hnz 0 (Nat.succ_pos n)
      have hlater : ∀ i, Function.update m d (m s) (s + 1 + i) = m (s + (1 + i)) := by
        intro i
        rw [Function.update_of_ne (by omega), Nat.add_assoc]
      rw [if_neg h0, ih (n := n) (by omega) (fun i hi => ?_) ?_ (by omega)]
      · -- the byte that was copied first, and then the rest
        funext a
        rw [blockSet_apply, blockSet_apply]
        by_cases ha : d + 1 ≤ a ∧ a < d + 1 + (n + 1)
        · rw [if_pos ha, if_pos (by omega)]
          show Function.update m d (m s) (s + 1 + (a - (d + 1))) = m (s + (a - d))
          rw [hlater]
          congr 1
          omega
        · rw [if_neg ha]
          by_cases had : a = d
          · subst had
            rw [Function.update_self, if_pos (by omega), Nat.sub_self]
            rfl
          · rw [Function.update_of_ne had, if_neg (by omega)]
      · rw [hlater, Nat.add_comm 1 n]
        exact hz
      · rw [hlater]
        exact hnz _ (by omega)

end Bytes
