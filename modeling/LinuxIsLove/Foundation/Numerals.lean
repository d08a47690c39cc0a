import Mathlib

/-!
# Numerals

A numeral is a list of bytes, the most significant digit first, with the digits `0` to `9` and `A`
to `Z`.  `value` reads one in a given radix and `numeral` writes one; `Canonical` is what makes the
written numeral the usual one: it has the right value, at least one digit, and no leading zero
unless it is the numeral of zero.
-/

namespace Numerals

/-- The byte of a digit below 36. -/
def digitByte (d : ℕ) : UInt8 := if d < 10 then UInt8.ofNat (48 + d) else UInt8.ofNat (55 + d)

/-- The digit of a byte. -/
def digitValue (c : UInt8) : Option ℕ :=
  if 48 ≤ c.toNat ∧ c.toNat ≤ 57 then some (c.toNat - 48)
  else if 65 ≤ c.toNat ∧ c.toNat ≤ 90 then some (c.toNat - 55)
  else none

/-- One more digit behind a numeral of value `v`. -/
def shiftIn (radix v : ℕ) (c : UInt8) : Option ℕ :=
  (digitValue c).bind fun d => if d < radix then some (radix * v + d) else none

/-- The value of a text in the radix, if all its bytes are digits below it. -/
def value (radix : ℕ) (text : List UInt8) : Option ℕ :=
  text.foldl (fun acc c => acc.bind fun v => shiftIn radix v c) (some 0)

/-- The value of a text that may start with a minus sign. -/
def signedValue (radix : ℕ) (text : List UInt8) : Option ℤ :=
  if text.head? = some 0x2D then (value radix text.tail).map fun v : ℕ => -(v : ℤ)
  else (value radix text).map fun v : ℕ => (v : ℤ)

/-- The digits of a number; a single zero for zero. -/
def numeral (radix n : ℕ) : List UInt8 :=
  if n = 0 then [digitByte 0] else (Nat.digits radix n).reverse.map digitByte

structure Canonical (radix n : ℕ) (text : List UInt8) : Prop where
  value_eq : value radix text = some n
  ne_nil : text ≠ []
  no_leading_zero : text.head? = some (digitByte 0) → text = [digitByte 0]

variable {radix n d v : ℕ} {c : UInt8} {l : List ℕ} {text : List UInt8}

theorem digitByte_toNat (h : d < 36) : (digitByte d).toNat = if d < 10 then 48 + d else 55 + d := by
  unfold digitByte
  split_ifs
  · rw [UInt8.toNat_ofNat']
    omega
  · rw [UInt8.toNat_ofNat']
    omega

@[simp] theorem digitValue_digitByte (h : d < 36) : digitValue (digitByte d) = some d := by
  have hnat := digitByte_toNat h
  unfold digitValue
  by_cases hd : d < 10
  · rw [if_pos hd] at hnat
    rw [if_pos (by omega), hnat, Nat.add_sub_cancel_left]
  · rw [if_neg hd] at hnat
    rw [if_neg (by omega), if_pos (by omega), hnat, Nat.add_sub_cancel_left]

theorem digitByte_ne_zero (h : d < 36) : digitByte d ≠ 0 := by
  intro h0
  have hnat := digitByte_toNat h
  rw [h0] at hnat
  have hz : (0 : UInt8).toNat = 0 := rfl
  split_ifs at hnat <;> omega

theorem shiftIn_digitByte (hd : d < radix) (hradix : radix ≤ 36) (v : ℕ) :
    shiftIn radix v (digitByte d) = some (radix * v + d) := by
  rw [shiftIn, digitValue_digitByte (by omega), Option.bind_some, if_pos hd]

theorem value_append_digit (text : List UInt8) (c : UInt8) :
    value radix (text ++ [c]) = (value radix text).bind fun v => shiftIn radix v c := by
  rw [value, List.foldl_append]
  rfl

/-- Leading zeros do not count. -/
theorem value_zeros (hradix : radix ≤ 36) (hpos : 0 < radix) (k : ℕ) (text : List UInt8) :
    value radix (List.replicate k (digitByte 0) ++ text) = value radix text := by
  induction k with
  | zero => rfl
  | succ k ih =>
    have hzero : shiftIn radix 0 (digitByte 0) = some 0 := shiftIn_digitByte hpos hradix 0
    rw [List.replicate_succ, List.cons_append, value, List.foldl_cons, Option.bind_some, hzero]
    exact ih

/-- Reading the digits of `l`, the last of which is the most significant. -/
theorem value_digits (hradix : radix ≤ 36) (hl : ∀ d ∈ l, d < radix) :
    value radix (l.reverse.map digitByte) = some (Nat.ofDigits radix l) := by
  induction l with
  | nil => rfl
  | cons d l ih =>
    have hd := hl d List.mem_cons_self
    rw [List.reverse_cons, List.map_append, List.map_singleton, value_append_digit,
      ih fun e he => hl e (List.mem_cons_of_mem _ he), Option.bind_some,
      shiftIn_digitByte hd hradix, Nat.ofDigits_cons, Nat.add_comm]

theorem mem_numeral (h2 : 2 ≤ radix) (hc : c ∈ numeral radix n) : ∃ d < radix, digitByte d = c := by
  unfold numeral at hc
  split_ifs at hc with h0
  · exact ⟨0, by omega, (List.mem_singleton.1 hc).symm⟩
  · obtain ⟨d, hd, rfl⟩ := List.mem_map.1 hc
    exact ⟨d, Nat.digits_lt_base h2 (List.mem_reverse.1 hd), rfl⟩

theorem numeral_ne_nil (radix n : ℕ) : numeral radix n ≠ [] := by
  unfold numeral
  split_ifs with h0
  · simp
  · simpa [Nat.digits_ne_nil_iff_ne_zero] using h0

theorem numeral_length_le {k : ℕ} (h2 : 2 ≤ radix) (hk : 0 < k) (hn : n < radix ^ k) :
    (numeral radix n).length ≤ k := by
  unfold numeral
  split_ifs with h0
  · exact hk
  · rw [List.length_map, List.length_reverse]
    exact (Nat.digits_length_le_iff h2 n).2 hn

/-- **The written numeral is the canonical one.** -/
theorem numeral_canonical (h2 : 2 ≤ radix) (h36 : radix ≤ 36) (n : ℕ) :
    Canonical radix n (numeral radix n) where
  ne_nil := numeral_ne_nil radix n
  value_eq := by
    unfold numeral
    split_ifs with h0
    · subst h0
      exact value_digits h36 (l := [0]) fun d hd => by
        rw [List.mem_singleton.1 hd]
        omega
    · rw [value_digits h36 fun d hd => Nat.digits_lt_base h2 hd, Nat.ofDigits_digits]
  no_leading_zero h := by
    unfold numeral at h ⊢
    split_ifs at h ⊢ with h0
    · rfl
    · have hnil : Nat.digits radix n ≠ [] := Nat.digits_ne_nil_iff_ne_zero.2 h0
      rw [List.head?_map, List.head?_reverse, List.getLast?_eq_some_getLast hnil,
        Option.map_some, Option.some_inj] at h
      have hlt := Nat.digits_lt_base h2 (List.getLast_mem hnil)
      have hz := congrArg digitValue h
      rw [digitValue_digitByte (by omega), digitValue_digitByte (by omega)] at hz
      exact absurd (Option.some_inj.1 hz) (Nat.getLast_digit_ne_zero radix h0)

theorem numeral_ne_zero (h2 : 2 ≤ radix) (h36 : radix ≤ 36) : ∀ c ∈ numeral radix n, c ≠ 0 := by
  intro c hc
  obtain ⟨d, hd, rfl⟩ := mem_numeral h2 hc
  exact digitByte_ne_zero (by omega)

theorem value_numeral (h2 : 2 ≤ radix) (h36 : radix ≤ 36) (n : ℕ) :
    value radix (numeral radix n) = some n := (numeral_canonical h2 h36 n).value_eq

theorem signedValue_numeral (h2 : 2 ≤ radix) (h36 : radix ≤ 36) (n : ℕ) :
    signedValue radix (numeral radix n) = some (n : ℤ) := by
  have hhead : (numeral radix n).head? ≠ some 0x2D := by
    intro h
    obtain ⟨d, hd, hc⟩ := mem_numeral h2 (List.mem_of_mem_head? (Option.mem_def.2 h))
    have hnat := digitByte_toNat (show d < 36 by omega)
    rw [hc] at hnat
    have h45 : (0x2D : UInt8).toNat = 45 := rfl
    split_ifs at hnat <;> omega
  rw [signedValue, if_neg hhead, value_numeral h2 h36, Option.map_some]

theorem signedValue_minus (h2 : 2 ≤ radix) (h36 : radix ≤ 36) (n : ℕ) :
    signedValue radix (0x2D :: numeral radix n) = some (-(n : ℤ)) := by
  rw [signedValue, if_pos (by rfl), List.tail_cons, value_numeral h2 h36, Option.map_some]

end Numerals
