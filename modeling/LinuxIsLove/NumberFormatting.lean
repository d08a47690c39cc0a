import LinuxIsLove.Source.Printf
import LinuxIsLove.Source.Faults
import LinuxIsLove.Foundation.Blocks
import LinuxIsLove.Foundation.Numerals

/-!
# Numbers are formatted faithfully

The digit loop of `itoa` writes `Nat.digits`, the least significant digit first, and `strrev` turns
them round; what is left in the buffer is the numeral of the value and a NUL.  The conversions of
`printf` put the numeral out, behind a sign or behind zeros.
-/

namespace LinuxIsLove.Lib

open Bytes Loops Numerals

/-! ### Texts in a buffer -/

/-- A text and the NUL behind it. -/
def textMem (text : List UInt8) : Memory := fun i => text.getD i 0

/-- Only positions from `p` to `p + n - 1` have been stored to. -/
def StoredIn (b b' : Buffer) (p n : ℕ) : Prop := ∀ i ∈ b'.stores, i ∈ b.stores ∨ p ≤ i ∧ i < p + n

/-- The text and a NUL have been written from `p` on, and nothing else has been touched. -/
structure Wrote (b : Buffer) (p : ℕ) (text : List UInt8) (b' : Buffer) : Prop where
  bytes_eq : b'.bytes = blockSet b.bytes p (textMem text) (text.length + 1)
  stored_in : StoredIn b b' p (text.length + 1)

section Texts

variable {b b' : Buffer} {p n : ℕ} {text : List UInt8} {m : Memory}

theorem StoredIn.refl (b : Buffer) (p n : ℕ) : StoredIn b b p n := fun _ hi => Or.inl hi

theorem StoredIn.set (h : StoredIn b b' p n) {j : ℕ} (h1 : p ≤ j) (h2 : j < p + n) (v : UInt8) :
    StoredIn b (b'.set j v) p n := by
  intro i hi
  rcases List.mem_cons.1 hi with rfl | hi
  · exact Or.inr ⟨h1, h2⟩
  · exact h i hi

theorem StoredIn.mono (h : StoredIn b b' p n) {n' : ℕ} (hle : n ≤ n') : StoredIn b b' p n' :=
  fun i hi => (h i hi).imp_right fun hr => ⟨hr.1, by omega⟩

theorem textMem_length (text : List UInt8) : textMem text text.length = 0 := by simp [textMem]

theorem textMem_ne_zero (h0 : ∀ c ∈ text, c ≠ 0) {i : ℕ} (hi : i < text.length) :
    textMem text i ≠ 0 := by
  have hget : textMem text i = text[i] := by simp [textMem, hi]
  rw [hget]
  exact h0 _ (List.getElem_mem hi)

theorem textMem_reverse {i : ℕ} (hi : i < text.length) :
    textMem text (text.length - 1 - i) = textMem text.reverse i := by
  have hlt : text.length - 1 - i < text.length := by omega
  simp [textMem, hi, hlt, List.getElem_reverse]

theorem strlen_text (h0 : ∀ c ∈ text, c ≠ 0) (hlen : text.length < 2 ^ 32)
    (hm : ∀ i ≤ text.length, m (p + i) = textMem text i) : strlen m p = text.length := by
  refine strlen_eq hlen (fun i hi => ?_) ?_
  · rw [hm i hi.le]
    exact textMem_ne_zero h0 hi
  · rw [hm _ le_rfl, textMem_length]

/-- What `puts` has put out is the text up to the index. -/
structure PutsInv (text : List UInt8) (s : PutsState) : Prop where
  index_le : s.index ≤ text.length
  out_eq : s.out = text.take s.index

/-- `puts` puts out the text up to the NUL. -/
theorem puts_text {fuel : ℕ} (h0 : ∀ c ∈ text, c ≠ 0) (hfuel : text.length ≤ fuel)
    (hm : ∀ i ≤ text.length, m (p + i) = textMem text i) : puts fuel m p = some text := by
  have hround : ∀ s : PutsState, PutsInv text s → (m (p + s.index) != 0) = true →
      PutsInv text ⟨s.index + 1, s.out ++ [m (p + s.index)]⟩ ∧
        text.length - (s.index + 1) < text.length - s.index := by
    intro s hs hne
    have hlt : s.index < text.length := by
      refine lt_of_le_of_ne hs.index_le fun heq => ?_
      rw [hm _ hs.index_le, heq, textMem_length] at hne
      simp at hne
    have hbyte : m (p + s.index) = text[s.index] := by
      rw [hm _ hs.index_le]
      simp [textMem, hlt]
    refine ⟨⟨hlt, ?_⟩, by omega⟩
    show s.out ++ [m (p + s.index)] = _
    rw [hs.out_eq, hbyte, List.take_succ_eq_append_getElem hlt]
  obtain ⟨s, hrun, hs, hstop⟩ : ∃ s, putsLoop m p fuel ⟨0, []⟩ = some s ∧ PutsInv text s ∧
      (m (p + s.index) != 0) = false :=
    loopWhile_rule (μ := fun s => text.length - s.index) hround ⟨Nat.zero_le _, rfl⟩
      ((Nat.sub_le ..).trans hfuel)
  have hend : s.index = text.length := by
    refine le_antisymm hs.index_le (not_lt.1 fun hlt => textMem_ne_zero h0 hlt ?_)
    rw [← hm _ hs.index_le]
    simpa using hstop
  rw [puts, hrun, Option.map_some, hs.out_eq, hend, List.take_length]

end Texts

/-! ### `strrev` -/

section Reverse

variable {b : Buffer} {p len fuel : ℕ} {m : Memory}

/-- The outer `k` bytes on both sides of the `len` bytes from `p` on have changed places. -/
def turned (m : Memory) (p len k : ℕ) : Memory := fun a =>
  if p ≤ a ∧ a < p + len ∧ (a < p + k ∨ p + len - k ≤ a) then m (2 * p + len - 1 - a) else m a

theorem turned_zero (m : Memory) (p len : ℕ) : turned m p len 0 = m := by
  funext a
  exact if_neg (by omega)

/-- One more pair changes places. -/
theorem turned_succ {k : ℕ} (h : 2 * k + 1 < len) :
    Function.update (Function.update (turned m p len k) (p + (len - 1 - k))
        (turned m p len k (p + k))) (p + k) (turned m p len k (p + (len - 1 - k))) =
      turned m p len (k + 1) := by
  have hlow : turned m p len k (p + k) = m (p + k) := if_neg (by omega)
  have hhigh : turned m p len k (p + (len - 1 - k)) = m (p + (len - 1 - k)) := if_neg (by omega)
  funext a
  rw [hlow, hhigh]
  by_cases ha : a = p + k
  · subst ha
    rw [Function.update_self, turned, if_pos (by omega)]
    congr 1
    omega
  rw [Function.update_of_ne ha]
  by_cases ha' : a = p + (len - 1 - k)
  · subst ha'
    rw [Function.update_self, turned, if_pos (by omega)]
    congr 1
    omega
  · rw [Function.update_of_ne ha', turned, turned]
    by_cases hin : p ≤ a ∧ a < p + len ∧ (a < p + k ∨ p + len - k ≤ a)
    · rw [if_pos hin, if_pos (by omega)]
    · rw [if_neg hin, if_neg (by omega)]

/-- When the indices have met, the bytes are the other way round. -/
theorem turned_all {k : ℕ} (h1 : 2 * k ≤ len) (h2 : len ≤ 2 * k + 1) :
    turned m p len k = blockSet m p (fun i => m (p + (len - 1 - i))) len := by
  funext a
  rw [turned, blockSet_apply]
  by_cases hin : p ≤ a ∧ a < p + len
  · rw [if_pos hin]
    by_cases hout : a < p + k ∨ p + len - k ≤ a
    · rw [if_pos ⟨hin.1, hin.2, hout⟩]
      congr 1
      omega
    · rw [if_neg fun h => hout h.2.2]
      congr 1
      omega
  · rw [if_neg hin, if_neg fun h => hin ⟨h.1, h.2.1⟩]

/-- After `k` rounds of the loop of `strrev`. -/
structure RevInv (b : Buffer) (p len k : ℕ) (s : RevState) : Prop where
  half : 2 * k ≤ len
  beg_eq : s.beg = k
  last_eq : s.last = (len : ℤ) - 1 - k
  bytes_eq : s.buf.bytes = turned b.bytes p len k
  stored_in : StoredIn b s.buf p len

theorem RevInv.round {k : ℕ} {s : RevState} (h : RevInv b p len k s) (hlt : s.beg < s.last) :
    RevInv b p len (k + 1) (strrevRound p s) := by
  have hbeg := h.beg_eq
  have hlast := h.last_eq
  have hpair : 2 * k + 1 < len := by omega
  have hbegNat : s.beg.toNat = k := by omega
  have hlastNat : s.last.toNat = len - 1 - k := by omega
  refine ⟨by omega, ?_, ?_, ?_, ?_⟩
  · show s.beg + 1 = _
    omega
  · show s.last - 1 = _
    omega
  · show Function.update (Function.update s.buf.bytes _ _) _ _ = _
    rw [hbegNat, hlastNat, h.bytes_eq, turned_succ hpair]
  · show StoredIn b ((s.buf.set _ _).set _ _) p len
    rw [hbegNat, hlastNat]
    exact (h.stored_in.set (by omega) (by omega) _).set (by omega) (by omega) _

/-- The loop of `strrev` on `len` bytes. -/
theorem strrevLoop_spec (hfuel : len ≤ fuel) :
    ∃ s, strrevLoop p fuel ⟨0, (len : ℤ) - 1, b⟩ = some s ∧
      s.buf.bytes = blockSet b.bytes p (fun i => b.bytes (p + (len - 1 - i))) len ∧
      StoredIn b s.buf p len := by
  have hround : ∀ s : RevState, (∃ k, RevInv b p len k s) → decide (s.beg < s.last) = true →
      (∃ k, RevInv b p len k (strrevRound p s)) ∧
        ((strrevRound p s).last + 1).toNat < (s.last + 1).toNat := by
    rintro s ⟨k, h⟩ hlt
    have hlt' := of_decide_eq_true hlt
    refine ⟨⟨k + 1, h.round hlt'⟩, ?_⟩
    show (s.last - 1 + 1).toNat < (s.last + 1).toNat
    have hbeg := h.beg_eq
    omega
  have h0 : RevInv b p len 0 ⟨0, (len : ℤ) - 1, b⟩ :=
    ⟨by omega, rfl, by simp, (turned_zero b.bytes p len).symm, StoredIn.refl b p len⟩
  have hbound : ((len : ℤ) - 1 + 1).toNat ≤ fuel := by omega
  obtain ⟨s, hrun, ⟨k, h⟩, hstop⟩ : ∃ s, strrevLoop p fuel ⟨0, (len : ℤ) - 1, b⟩ = some s ∧
      (∃ k, RevInv b p len k s) ∧ decide (s.beg < s.last) = false :=
    loopWhile_rule (μ := fun s => (s.last + 1).toNat) hround ⟨0, h0⟩ hbound
  have hge := of_decide_eq_false hstop
  have hbeg := h.beg_eq
  have hlast := h.last_eq
  exact ⟨s, hrun, h.bytes_eq.trans (turned_all h.half (by omega)), h.stored_in⟩

/-- The function reverses a text in place. -/
def Reverses (rev : ℕ → ℕ → Buffer → Option Buffer) : Prop :=
  ∀ (fuel p : ℕ) (b : Buffer) (text : List UInt8), (∀ c ∈ text, c ≠ 0) → text.length < 2 ^ 31 →
    text.length ≤ fuel → (∀ i ≤ text.length, b.bytes (p + i) = textMem text i) →
    ∃ b', rev fuel p b = some b' ∧
      b'.bytes = blockSet b.bytes p (textMem text.reverse) text.length ∧
      StoredIn b b' p text.length

theorem lastIndex_text {text : List UInt8} (h0 : ∀ c ∈ text, c ≠ 0) (hlen : text.length < 2 ^ 31)
    (hm : ∀ i ≤ text.length, m (p + i) = textMem text i) :
    lastIndex m p = (text.length : ℤ) - 1 := by
  rw [lastIndex, strlen_text h0 (by omega) hm, s32_u32 (by omega) (by omega)]

/-- The bytes in reverse order are the reversed text. -/
theorem blockSet_reverse {text : List UInt8}
    (hm : ∀ i ≤ text.length, m (p + i) = textMem text i) :
    blockSet m p (fun i => m (p + (text.length - 1 - i))) text.length =
      blockSet m p (textMem text.reverse) text.length := by
  refine blockSet_congr fun i hi => ?_
  rw [hm _ (by omega), textMem_reverse hi]

theorem strrev_reverses : Reverses strrev := by
  intro fuel p b text h0 hlen hfuel hm
  obtain ⟨s, hrun, hbytes, hstored⟩ := strrevLoop_spec (p := p) (b := b) hfuel
  refine ⟨s.buf, ?_, hbytes.trans (blockSet_reverse hm), hstored⟩
  rw [strrev, lastIndex_text h0 hlen hm, hrun, Option.map_some]

theorem ece391Strrev_reverses : Reverses ece391Strrev := by
  intro fuel p b text h0 hlen hfuel hm
  rw [ece391Strrev, lastIndex_text h0 hlen hm]
  by_cases hshort : (text.length : ℤ) - 1 ≤ 0
  · -- one character, or none: `strrev` would not enter its loop either
    refine ⟨b, if_pos hshort, ?_, StoredIn.refl b p _⟩
    refine (blockSet_window b.bytes p text.length).symm.trans (blockSet_congr fun i hi => ?_)
    obtain rfl : i = 0 := by omega
    rw [← textMem_reverse hi, ← hm _ (by omega)]
    show b.bytes (p + 0) = _
    congr 1
    omega
  · rw [if_neg hshort]
    obtain ⟨s, hrun, hbytes, hstored⟩ := strrevLoop_spec (p := p) (b := b) hfuel
    refine ⟨s.buf, ?_, hbytes.trans (blockSet_reverse hm), hstored⟩
    rw [hrun, Option.map_some]

end Reverse

/-! ### `itoa` -/

theorem lookup_eq {d : ℕ} (h : d < 36) : lookup d = digitByte d := by
  have hall : ∀ d : Fin 36, lookup d = digitByte d := by decide
  exact hall ⟨d, h⟩

section Itoa

variable {b : Buffer} {p radix n fuel : ℕ}

/-- One character behind a text. -/
theorem update_text (m : Memory) (p : ℕ) (text : List UInt8) (c : UInt8) :
    Function.update (blockSet m p (textMem text) text.length) (p + text.length) c =
      blockSet m p (textMem (text ++ [c])) (text.length + 1) := by
  have hpre : blockSet m p (textMem text) text.length =
      blockSet m p (textMem (text ++ [c])) text.length := by
    refine blockSet_congr fun i hi => ?_
    simp [textMem, List.getElem?_append_left hi]
  rw [hpre, ← blockSet_append (n := 1) (v := fun _ => c), blockSet_one]
  intro i hi
  obtain rfl : i = 0 := by omega
  simp [textMem]

/-- The digits `done` have been written. -/
structure ItoaInv (b : Buffer) (p radix n : ℕ) (done : List ℕ) (s : ItoaState) : Prop where
  digits_eq : Nat.digits radix n = done ++ Nat.digits radix s.newval
  newbuf_eq : s.newbuf = p + done.length
  bytes_eq : s.buf.bytes = blockSet b.bytes p (textMem (done.map digitByte)) done.length
  stored_in : StoredIn b s.buf p done.length

theorem ItoaInv.round {done : List ℕ} {s : ItoaState} (h2 : 2 ≤ radix) (h36 : radix ≤ 36)
    (h : ItoaInv b p radix n done s) (hpos : 0 < s.newval) :
    ItoaInv b p radix n (done ++ [s.newval % radix]) (itoaRound radix s) := by
  have hdigits := Nat.digits_def' h2 hpos
  have hlen : (done ++ [s.newval % radix]).length = done.length + 1 := by simp
  refine ⟨?_, ?_, ?_, ?_⟩
  · rw [h.digits_eq, hdigits, List.append_assoc]
    rfl
  · show s.newbuf + 1 = _
    rw [h.newbuf_eq, hlen, Nat.add_assoc]
  · show Function.update s.buf.bytes s.newbuf (lookup (s.newval % radix)) = _
    have hlt : s.newval % radix < 36 := lt_of_lt_of_le (Nat.mod_lt _ (by omega)) h36
    have htext := update_text b.bytes p (done.map digitByte) (digitByte (s.newval % radix))
    rw [List.length_map] at htext
    rw [h.bytes_eq, h.newbuf_eq, lookup_eq hlt, htext, hlen, List.map_append, List.map_singleton]
  · show StoredIn b (s.buf.set _ _) p _
    rw [h.newbuf_eq, hlen]
    exact (h.stored_in.mono (by omega)).set (by omega) (by omega) _

/-- The digit loop ends with all digits written. -/
theorem itoaLoop_spec (h2 : 2 ≤ radix) (h36 : radix ≤ 36)
    (hfuel : (Nat.digits radix n).length ≤ fuel) :
    ∃ s, itoaLoop radix fuel ⟨n, p, b⟩ = some s ∧ ItoaInv b p radix n (Nat.digits radix n) s := by
  have hround : ∀ s : ItoaState, (∃ done, ItoaInv b p radix n done s) →
      decide (0 < s.newval) = true →
      (∃ done, ItoaInv b p radix n done (itoaRound radix s)) ∧
        (Nat.digits radix (itoaRound radix s).newval).length <
          (Nat.digits radix s.newval).length := by
    rintro s ⟨done, h⟩ hpos
    have hpos' := of_decide_eq_true hpos
    refine ⟨⟨_, h.round h2 h36 hpos'⟩, ?_⟩
    rw [Nat.digits_def' h2 hpos', List.length_cons]
    exact Nat.lt_succ_self _
  have h0 : ItoaInv b p radix n [] ⟨n, p, b⟩ :=
    ⟨rfl, rfl, (blockSet_zero ..).symm, StoredIn.refl b p _⟩
  obtain ⟨s, hrun, ⟨done, h⟩, hstop⟩ : ∃ s, itoaLoop radix fuel ⟨n, p, b⟩ = some s ∧
      (∃ done, ItoaInv b p radix n done s) ∧ decide (0 < s.newval) = false :=
    loopWhile_rule (μ := fun s => (Nat.digits radix s.newval).length) hround ⟨[], h0⟩ hfuel
  have hz : s.newval = 0 := by simpa using hstop
  have hdone := h.digits_eq
  rw [hz, Nat.digits_zero, List.append_nil] at hdone
  exact ⟨s, hrun, hdone ▸ h⟩

/-- A text with a NUL behind it is written as such. -/
theorem update_nul (m : Memory) (p : ℕ) (text : List UInt8) :
    Function.update (blockSet m p (textMem text) text.length) (p + text.length) 0 =
      blockSet m p (textMem text) (text.length + 1) := by
  rw [update_text]
  refine blockSet_congr fun i hi => ?_
  rcases Nat.lt_or_eq_of_le (Nat.lt_succ_iff.1 hi) with hlt | rfl
  · simp [textMem, List.getElem?_append_left hlt]
  · simp [textMem]

theorem digits_map_ne_zero (h2 : 2 ≤ radix) (h36 : radix ≤ 36) :
    ∀ c ∈ (Nat.digits radix n).map digitByte, c ≠ 0 := by
  intro c hc
  obtain ⟨d, hd, rfl⟩ := List.mem_map.1 hc
  exact digitByte_ne_zero (lt_of_lt_of_le (Nat.digits_lt_base h2 hd) h36)

/-- The digits and a NUL behind them. -/
theorem ItoaInv.terminated {done : List ℕ} {s : ItoaState} (h : ItoaInv b p radix n done s) :
    (s.buf.set s.newbuf 0).bytes =
        blockSet b.bytes p (textMem (done.map digitByte)) (done.length + 1) ∧
      StoredIn b (s.buf.set s.newbuf 0) p (done.length + 1) := by
  refine ⟨?_, ?_⟩
  · show Function.update s.buf.bytes s.newbuf 0 = _
    have hnul := update_nul b.bytes p (done.map digitByte)
    rw [List.length_map] at hnul
    rw [h.bytes_eq, h.newbuf_eq, hnul]
  · rw [h.newbuf_eq]
    exact (h.stored_in.mono (Nat.le_succ _)).set (by omega) (by omega) 0

/-- The value 0 has no digits that the loop would write. -/
theorem wrote_zero (b : Buffer) (p : ℕ) :
    Wrote b p [zeroDigit] ((b.set p zeroDigit).set (p + 1) 0) := by
  refine ⟨?_, ?_⟩
  · show Function.update (Function.update b.bytes p zeroDigit) (p + 1) 0 = _
    have hfirst := update_text b.bytes p [] zeroDigit
    simp only [List.length_nil, blockSet_zero, Nat.add_zero, List.nil_append] at hfirst
    rw [hfirst]
    exact update_nul b.bytes p [zeroDigit]
  · exact ((StoredIn.refl b p _).set le_rfl (by simp) _).set (by omega) (by simp) _

/-- Text with a NUL behind it, the text reversed in place. -/
theorem wrote_reversed {rev : ℕ → ℕ → Buffer → Option Buffer} (hrev : Reverses rev)
    {b s : Buffer} {text : List UInt8} (hne : ∀ c ∈ text, c ≠ 0) (hlen : text.length ≤ 32)
    (hfuel : 32 ≤ fuel) (hset : s.bytes = blockSet b.bytes p (textMem text) (text.length + 1))
    (hstored : StoredIn b s p (text.length + 1)) :
    ∃ b', rev fuel p s = some b' ∧ Wrote b p text.reverse b' := by
  obtain ⟨b', hrun, hb', hin⟩ := hrev fuel p s text hne (by omega) (by omega) fun i hi => by
    rw [hset, blockSet_of_lt _ _ _ (by omega)]
  refine ⟨b', hrun, ?_, ?_⟩
  · rw [hb', hset, List.length_reverse]
    refine blockSet_cover (Nat.le_succ _) fun i h1 h2 => ?_
    simp [textMem, h1]
  · rw [List.length_reverse]
    intro i hi
    rcases hin i hi with hi | hi
    · exact hstored i hi
    · exact Or.inr ⟨hi.1, by omega⟩

/-- **`itoa`**, with either function to reverse the digits, writes the numeral of the value. -/
theorem itoaWith_spec {rev : ℕ → ℕ → Buffer → Option Buffer} (hrev : Reverses rev)
    {value radix : BitVec 32} (h2 : 2 ≤ radix.toNat) (h36 : radix.toNat ≤ 36) (hfuel : 32 ≤ fuel)
    (p : ℕ) (b : Buffer) :
    ∃ b', itoaWith rev fuel value p radix b = some b' ∧
      Wrote b p (numeral radix.toNat value.toNat) b' := by
  by_cases hz : value = 0
  · have hzero : numeral radix.toNat value.toNat = [zeroDigit] := by
      rw [hz]
      rfl
    rw [hzero]
    exact ⟨_, if_pos hz, wrote_zero b p⟩
  · have hpos : value.toNat ≠ 0 := fun h0 => hz (BitVec.eq_of_toNat_eq h0)
    have hnum : numeral radix.toNat value.toNat =
        ((Nat.digits radix.toNat value.toNat).map digitByte).reverse := by
      rw [numeral, if_neg hpos, List.map_reverse]
    have hlen : (Nat.digits radix.toNat value.toNat).length ≤ 32 := by
      rw [Nat.digits_length_le_iff h2]
      exact lt_of_lt_of_le value.isLt (Nat.pow_le_pow_left h2 32)
    obtain ⟨s, hloop, hs⟩ : ∃ s, itoaLoop radix.toNat fuel ⟨value.toNat, p, b⟩ = some s ∧
        ItoaInv b p radix.toNat value.toNat (Nat.digits radix.toNat value.toNat) s :=
      itoaLoop_spec h2 h36 (hlen.trans hfuel)
    obtain ⟨hset, hstored⟩ := hs.terminated
    rw [← List.length_map digitByte] at hlen hset hstored
    obtain ⟨b', hrun, hwrote⟩ :=
      wrote_reversed hrev (digits_map_ne_zero h2 h36) hlen hfuel hset hstored
    refine ⟨b', ?_, ?_⟩
    · rw [itoaWith, if_neg hz, hloop, Option.bind_some, hrun]
    · rw [hnum]
      exact hwrote

end Itoa

/-! ### The conversions of `printf` -/

section Conversions

variable {b b' : Buffer} {p fuel : ℕ} {text : List UInt8}

theorem Wrote.byte (h : Wrote b p text b') {i : ℕ} (hi : i ≤ text.length) :
    b'.bytes (p + i) = textMem text i := by
  rw [h.bytes_eq, blockSet_of_lt _ _ _ (by omega)]

theorem Wrote.byte_of_lt (h : Wrote b p text b') {i : ℕ} (hi : i < p) : b'.bytes i = b.bytes i := by
  rw [h.bytes_eq, blockSet_of_not _ _ (by omega)]

theorem numeral_length_le_32 {radix : ℕ} (h2 : 2 ≤ radix) (value : BitVec 32) :
    (numeral radix value.toNat).length ≤ 32 :=
  numeral_length_le h2 (by decide) (lt_of_lt_of_le value.isLt (Nat.pow_le_pow_left h2 32))

theorem itoa_spec {value radix : BitVec 32} (h2 : 2 ≤ radix.toNat) (h36 : radix.toNat ≤ 36)
    (hfuel : 32 ≤ fuel) (p : ℕ) (b : Buffer) :
    ∃ b', itoa fuel value p radix b = some b' ∧
      Wrote b p (numeral radix.toNat value.toNat) b' :=
  itoaWith_spec strrev_reverses h2 h36 hfuel p b

/-- A number that is written from the start of the array is put out. -/
theorem itoa_puts {value radix : BitVec 32} (h2 : 2 ≤ radix.toNat) (h36 : radix.toNat ≤ 36)
    (hfuel : 32 ≤ fuel) (b : Buffer) :
    ((itoa fuel value 0 radix b).bind fun b' => puts fuel b'.bytes 0) =
      some (numeral radix.toNat value.toNat) := by
  obtain ⟨b', hrun, hb'⟩ : ∃ b', itoa fuel value 0 radix b = some b' ∧
      Wrote b 0 (numeral radix.toNat value.toNat) b' := itoa_spec h2 h36 hfuel 0 b
  rw [hrun, Option.bind_some]
  exact puts_text (numeral_ne_zero h2 h36) ((numeral_length_le_32 h2 value).trans hfuel)
    fun i hi => hb'.byte hi

theorem convU_eq (hfuel : 32 ≤ fuel) (convBuf : Buffer) (arg : BitVec 32) :
    convU fuel convBuf arg = some (numeral 10 arg.toNat) :=
  @itoa_puts fuel arg 10 (by decide) (by decide) hfuel convBuf

theorem convX_plain (hfuel : 32 ≤ fuel) (convBuf : Buffer) (arg : BitVec 32) :
    convX fuel false convBuf arg = some (numeral 16 arg.toNat) :=
  @itoa_puts fuel arg 16 (by decide) (by decide) hfuel convBuf

/-- The zeros that stand before the digits in the alternate form. -/
theorem fillZeros_spec {i : ℕ} (hi : i ≤ 8) (hfuel : 8 ≤ fuel) (b : Buffer) :
    ∃ b', fillZeros fuel i b = some b' ∧
      b'.bytes = blockSet b.bytes i (fun _ => zeroDigit) (8 - i) := by
  have hround : ∀ s : ℕ × Buffer,
      (∃ k, s.1 = i + k ∧ i + k ≤ 8 ∧ s.2.bytes = blockSet b.bytes i (fun _ => zeroDigit) k) →
      decide (s.1 < 8) = true →
      (∃ k, s.1 + 1 = i + k ∧ i + k ≤ 8 ∧
        (s.2.set s.1 zeroDigit).bytes = blockSet b.bytes i (fun _ => zeroDigit) k) ∧
        8 - (s.1 + 1) < 8 - s.1 := by
    rintro s ⟨k, hk, hle, hbytes⟩ hlt
    have hlt' := of_decide_eq_true hlt
    refine ⟨⟨k + 1, by omega, by omega, ?_⟩, by omega⟩
    show Function.update s.2.bytes s.1 zeroDigit = _
    rw [hbytes, hk, ← blockSet_append (n := 1) (v := fun _ => zeroDigit) fun _ _ => rfl,
      blockSet_one]
  obtain ⟨s, hrun, ⟨k, hk, hle, hbytes⟩, hstop⟩ : ∃ s, fillZerosLoop fuel (i, b) = some s ∧
      (∃ k, s.1 = i + k ∧ i + k ≤ 8 ∧ s.2.bytes = blockSet b.bytes i (fun _ => zeroDigit) k) ∧
      decide (s.1 < 8) = false :=
    loopWhile_rule (μ := fun s => 8 - s.1) hround
      ⟨0, rfl, hi, (blockSet_zero ..).symm⟩ ((Nat.sub_le ..).trans hfuel)
  have hge := of_decide_eq_false hstop
  refine ⟨s.2, by rw [fillZeros, hrun, Option.map_some], ?_⟩
  rw [hbytes, show k = 8 - i by omega]

/-- The alternate form has eight digits. -/
theorem convX_alternate (hfuel : 32 ≤ fuel) (convBuf : Buffer) (arg : BitVec 32) :
    convX fuel true convBuf arg = some
      (List.replicate (8 - (numeral 16 arg.toNat).length) zeroDigit ++ numeral 16 arg.toNat) := by
  obtain ⟨b', hrun, hb'⟩ : ∃ b', itoa fuel arg 8 16 convBuf = some b' ∧
      Wrote convBuf 8 (numeral 16 arg.toNat) b' :=
    itoa_spec (by decide) (by decide) hfuel 8 convBuf
  have h0 : ∀ c ∈ numeral 16 arg.toNat, c ≠ 0 := numeral_ne_zero (by decide) (by decide)
  have hlen : (numeral 16 arg.toNat).length ≤ 8 :=
    numeral_length_le (by decide) (by decide) arg.isLt
  have hstart : strlen b'.bytes 8 = (numeral 16 arg.toNat).length :=
    strlen_text h0 (by omega) fun i hi => hb'.byte hi
  obtain ⟨b'', hfill, hb''⟩ := fillZeros_spec hlen (by omega : 8 ≤ fuel) b'
  have hall : ∀ c ∈ List.replicate (8 - (numeral 16 arg.toNat).length) zeroDigit ++
      numeral 16 arg.toNat, c ≠ 0 := by
    intro c hc
    rcases List.mem_append.1 hc with hc | hc
    · rw [List.eq_of_mem_replicate hc]
      decide
    · exact h0 c hc
  rw [convX, if_neg (by decide), hrun, Option.bind_some, hstart]
  show ((fillZeros fuel _ b').bind fun convBuf => puts fuel convBuf.bytes _) = _
  rw [hfill, Option.bind_some]
  refine puts_text hall ?_ fun i hi => ?_
  · rw [List.length_append, List.length_replicate]
    omega
  · rw [List.length_append, List.length_replicate] at hi
    rw [hb'', blockSet_apply]
    by_cases hz : i < 8 - (numeral 16 arg.toNat).length
    · rw [if_pos (by omega), textMem, List.getD_append _ _ _ _ (by simpa using hz)]
      simp [hz]
    · -- a digit, or the NUL
      obtain ⟨j, hj⟩ : ∃ j, (numeral 16 arg.toNat).length + i = 8 + j :=
        ⟨(numeral 16 arg.toNat).length + i - 8, by omega⟩
      rw [if_neg (by omega), hj, hb'.byte (by omega), textMem, textMem,
        List.getD_append_right _ _ _ _ (by simpa using Nat.not_lt.1 hz), List.length_replicate]
      congr 1
      omega

theorem convD_neg {value : BitVec 32} (hneg : value.toInt < 0) (hfuel : 33 ≤ fuel)
    (convBuf : Buffer) :
    convD fuel convBuf value = some (minusSign :: numeral 10 (-value).toNat) := by
  obtain ⟨b', hrun, hb'⟩ : ∃ b', itoa fuel (-value) 1 10 (convBuf.set 0 minusSign) = some b' ∧
      Wrote (convBuf.set 0 minusSign) 1 (numeral 10 (-value).toNat) b' :=
    itoa_spec (by decide) (by decide) (by omega) 1 _
  have h0 : ∀ c ∈ numeral 10 (-value).toNat, c ≠ 0 := numeral_ne_zero (by decide) (by decide)
  have hlen := numeral_length_le_32 (show 2 ≤ 10 by decide) (-value)
  rw [convD, if_pos hneg, hrun, Option.bind_some]
  refine puts_text ?_ ?_ fun i hi => ?_
  · intro c hc
    rcases List.mem_cons.1 hc with rfl | hc
    · decide
    · exact h0 c hc
  · rw [List.length_cons]
    omega
  · cases i with
    | zero =>
      rw [Nat.add_zero, hb'.byte_of_lt Nat.zero_lt_one]
      exact Function.update_self 0 minusSign convBuf.bytes
    | succ i =>
      rw [Nat.zero_add, Nat.add_comm i 1, hb'.byte (by simpa using hi)]
      simp [textMem, Nat.add_comm 1 i]

theorem convD_nonneg {value : BitVec 32} (hpos : ¬ value.toInt < 0) (hfuel : 32 ≤ fuel)
    (convBuf : Buffer) : convD fuel convBuf value = some (numeral 10 value.toNat) := by
  rw [convD, if_neg hpos]
  exact @itoa_puts fuel value 10 (by decide) (by decide) hfuel convBuf

/-- The value of a negative argument, from its negation. -/
theorem toInt_of_neg {x : BitVec 32} (h : x.toInt < 0) : x.toInt = -((-x).toNat : ℤ) := by
  have hlt := x.isLt
  rw [BitVec.toInt_eq_toNat_cond] at h ⊢
  rw [BitVec.toNat_neg]
  split_ifs at h ⊢ <;> omega

theorem toInt_of_not_neg {x : BitVec 32} (h : ¬ x.toInt < 0) : x.toInt = (x.toNat : ℤ) := by
  have hlt := x.isLt
  rw [BitVec.toInt_eq_toNat_cond] at h ⊢
  split_ifs at h ⊢ <;> omega

/-- The text that the exception handler prints for a number. -/
theorem numeral_ten (n : ℕ) : numeral 10 n = LinuxIsLove.itoa n := by
  unfold numeral LinuxIsLove.itoa
  split_ifs with h0
  · rfl
  · rw [List.map_reverse]
    refine congrArg List.reverse (List.map_congr_left fun d hd => ?_)
    exact if_pos (Nat.digits_lt_base (by decide) hd)

theorem convD_eq (hfuel : 33 ≤ fuel) (convBuf : Buffer) (value : BitVec 32) :
    convD fuel convBuf value = some (printDecimal value.toInt) := by
  by_cases hneg : value.toInt < 0
  · have hnat : (-value.toInt).toNat = (-value).toNat := by
      rw [toInt_of_neg hneg]
      omega
    rw [convD_neg hneg hfuel, printDecimal, if_pos hneg, numeral_ten, hnat]
    rfl
  · have hnat : value.toInt.toNat = value.toNat := by
      rw [toInt_of_not_neg hneg]
      omega
    rw [convD_nonneg hneg (by omega), printDecimal, if_neg hneg, numeral_ten, hnat]

end Conversions

/-! ### Both functions -/

/-- What `itoa` and `ece391_itoa` leave in a buffer: the same bytes, which are the canonical numeral
and a NUL, at most 33 bytes from `p` on. -/
def FormatsNumeral (fuel : ℕ) (value radix : BitVec 32) (p : ℕ) (b : Buffer) : Prop :=
  ∃ text b₁ b₂, itoa fuel value p radix b = some b₁ ∧ ece391Itoa fuel value p radix b = some b₂ ∧
    Canonical radix.toNat value.toNat text ∧ text.length + 1 ≤ 33 ∧
    Wrote b p text b₁ ∧ Wrote b p text b₂

theorem formatsNumeral {value radix : BitVec 32} (h2 : 2 ≤ radix.toNat) (h36 : radix.toNat ≤ 36)
    {fuel : ℕ} (hfuel : 32 ≤ fuel) (p : ℕ) (b : Buffer) :
    FormatsNumeral fuel value radix p b := by
  obtain ⟨b₁, hrun₁, hb₁⟩ : ∃ b₁, itoa fuel value p radix b = some b₁ ∧
      Wrote b p (numeral radix.toNat value.toNat) b₁ := itoa_spec h2 h36 hfuel p b
  obtain ⟨b₂, hrun₂, hb₂⟩ : ∃ b₂, ece391Itoa fuel value p radix b = some b₂ ∧
      Wrote b p (numeral radix.toNat value.toNat) b₂ :=
    itoaWith_spec ece391Strrev_reverses h2 h36 hfuel p b
  have hlen := numeral_length_le_32 h2 value
  exact ⟨_, b₁, b₂, hrun₁, hrun₂, numeral_canonical h2 h36 _, by omega, hb₁, hb₂⟩

end LinuxIsLove.Lib
