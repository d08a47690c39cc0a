import LinuxIsLove.Source.StringOps

/-!
# `memcpy`, `memset` and `memmove` are byte-wise

`memcpy` and `memset` share their three loops; `Chunk.run` is the invariant rule for all of them: a
family `P k` of assertions about the machine after `k` bytes, which a byte and a word carry on.
`memmove` is a single `rep movsb`, upwards or downwards.
-/

namespace LinuxIsLove

open Bytes Loops

/-! ### The instructions -/

namespace Cpu

theorem al_setAl (c : Cpu) (b : UInt8) : (c.setAl b).al = b := by
  apply UInt8.toBitVec_inj.1
  show (c.eax &&& 0xFFFFFF00#32 ||| b.toBitVec.setWidth 32).setWidth 8 = b.toBitVec
  apply BitVec.eq_of_getLsbD_eq
  intro i hi
  have hmask : (0xFFFFFF00#32).getLsbD i = false := by
    interval_cases i <;> rfl
  simp only [BitVec.getLsbD_setWidth, BitVec.getLsbD_or, BitVec.getLsbD_and, hmask,
    Bool.and_false, Bool.false_or]
  simp [hi, show i < 32 by omega]

theorem toNat_pred {x : BitVec 32} (h : (x != 0) = true) : (x - 1).toNat + 1 = x.toNat := by
  have hne : x ≠ 0 := by simpa using h
  have hpos : x.toNat ≠ 0 := fun h0 => hne (BitVec.eq_of_toNat_eq h0)
  bv_omega

/-- **The rule for `rep`**: `P k` holds after `k` rounds. -/
theorem rep_rule {P : ℕ → Cpu → Prop} {instr : Cpu → Cpu} {n fuel : ℕ} {c : Cpu}
    (hinstr : ∀ k c, P k c → k < n → P (k + 1) { instr c with ecx := c.ecx - 1 })
    (h0 : P 0 c) (hn : c.ecx.toNat = n) (hfuel : n ≤ fuel) :
    ∃ c', rep instr fuel c = some c' ∧ P n c' := by
  have hround : ∀ k c, P k c → k + c.ecx.toNat = n → (c.ecx != 0) = true →
      P (k + 1) { instr c with ecx := c.ecx - 1 } ∧ (c.ecx - 1).toNat + 1 = c.ecx.toNat := by
    intro k c hk hleft hc
    have hpred := toNat_pred hc
    exact ⟨hinstr k c hk (by omega), hpred⟩
  have hleft : 0 + c.ecx.toNat = n := by omega
  obtain ⟨c', k, hrun, hk, hend, hstop⟩ : ∃ c' k, rep instr fuel c = some c' ∧ P k c' ∧
      k + c'.ecx.toNat = n ∧ (c'.ecx != 0) = false :=
    loopWhile_count hround h0 hleft (by omega)
  have hz : c'.ecx = 0 := by simpa using hstop
  obtain rfl : k = n := by simpa [hz] using hend
  exact ⟨c', hrun, hk⟩

end Cpu

/-! ### The three loops of `memcpy` and `memset` -/

/-- `P k` says what holds after `k` bytes; neither the counters nor `df` matter to it, and a byte
and a word carry it on. -/
structure Chunk (P : ℕ → Cpu → Prop) (byte word : Cpu → Cpu) (n : ℕ) : Prop where
  regs : ∀ k c, P k c → ∀ (ecx edx : BitVec 32) (df : Bool),
    P k { c with ecx := ecx, edx := edx, df := df }
  next_byte : ∀ k c, P k c → k < n → P (k + 1) (byte c)
  next_word : ∀ k c, P k c → c.df = false → k + 4 ≤ n → P (k + 4) (word c)
  word_edx : ∀ c, (word c).edx = c.edx
  word_df : ∀ c, (word c).df = c.df

namespace Chunk

variable {P : ℕ → Cpu → Prop} {byte word : Cpu → Cpu} {n k fuel : ℕ} {c : Cpu}

theorem top (h : Chunk P byte word n) (h0 : P 0 c) (hn : c.ecx.toNat = n) (hfuel : n ≤ fuel) :
    ∃ c' k, chunkTop byte fuel c = some c' ∧ P k c' ∧ k + c'.ecx.toNat = n := by
  have hround : ∀ k c, P k c → k + c.ecx.toNat = n →
      (c.ecx != 0 && c.edi &&& 3#32 != 0) = true →
      P (k + 1) { byte c with ecx := c.ecx - 1 } ∧ (c.ecx - 1).toNat + 1 = c.ecx.toNat := by
    intro k c hk hleft hc
    have hpred := Cpu.toNat_pred (Bool.and_eq_true_iff.1 hc).1
    exact ⟨h.regs _ _ (h.next_byte k c hk (by omega)) _ _ _, hpred⟩
  have hleft : 0 + c.ecx.toNat = n := by omega
  obtain ⟨c', k, hrun, hk, hend, -⟩ : ∃ c' k, chunkTop byte fuel c = some c' ∧ P k c' ∧
      k + c'.ecx.toNat = n ∧ (c'.ecx != 0 && c'.edi &&& 3#32 != 0) = false :=
    loopWhile_count hround h0 hleft (by omega)
  exact ⟨c', k, hrun, hk, hend⟩

theorem bottom (h : Chunk P byte word n) (hk : P k c) (hn : k + c.edx.toNat = n)
    (hfuel : n ≤ fuel) : ∃ c', chunkBottom byte fuel c = some c' ∧ P n c' := by
  have hround : ∀ k c, P k c → k + c.edx.toNat = n → (c.edx != 0) = true →
      P (k + 1) { byte c with edx := c.edx - 1 } ∧ (c.edx - 1).toNat + 1 = c.edx.toNat := by
    intro k c hk hleft hc
    have hpred := Cpu.toNat_pred hc
    exact ⟨h.regs _ _ (h.next_byte k c hk (by omega)) _ _ _, hpred⟩
  obtain ⟨c', j, hrun, hj, hend, hstop⟩ : ∃ c' j, chunkBottom byte fuel c = some c' ∧ P j c' ∧
      j + c'.edx.toNat = n ∧ (c'.edx != 0) = false :=
    loopWhile_count hround hk hn (by omega)
  have hz : c'.edx = 0 := by simpa using hstop
  obtain rfl : j = n := by simpa [hz] using hend
  exact ⟨c', hrun, hj⟩

/-- The words and the bytes behind them. -/
theorem aligned (h : Chunk P byte word n) (hk : P k c) (hn : k + c.ecx.toNat = n)
    (hfuel : n ≤ fuel) : ∃ c', chunkAligned byte word fuel c = some c' ∧ P n c' := by
  have hwords : (c.ecx >>> 2).toNat = c.ecx.toNat / 4 := by
    simp [BitVec.toNat_ushiftRight, Nat.shiftRight_eq_div_pow]
  have hrest : (c.ecx &&& 3#32).toNat = c.ecx.toNat % 4 := by
    rw [BitVec.toNat_and]
    exact Nat.and_two_pow_sub_one_eq_mod c.ecx.toNat 2
  have hround : ∀ j c₁, P (k + 4 * j) c₁ ∧ c₁.df = false ∧ c₁.edx = c.ecx &&& 3#32 →
      j < c.ecx.toNat / 4 → P (k + 4 * (j + 1)) { word c₁ with ecx := c₁.ecx - 1 } ∧
        (word c₁).df = false ∧ (word c₁).edx = c.ecx &&& 3#32 := by
    rintro j c₁ ⟨hj, hdf, hedx⟩ hlt
    have hword := h.next_word _ c₁ hj hdf (by omega)
    exact ⟨h.regs _ _ hword _ _ _, (h.word_df c₁).trans hdf, (h.word_edx c₁).trans hedx⟩
  have hbound : c.ecx.toNat / 4 ≤ fuel := by omega
  obtain ⟨c₁, hrep, hc₁, hdf, hedx⟩ := Cpu.rep_rule hround
    ⟨h.regs _ _ hk (c.ecx >>> 2) (c.ecx &&& 3#32) false, rfl, rfl⟩ hwords hbound
  obtain ⟨c₂, hbottom, hc₂⟩ := h.bottom hc₁ (by rw [hedx, hrest]; omega) hfuel
  refine ⟨c₂, ?_, hc₂⟩
  rw [chunkAligned, hrep, Option.bind_some, hbottom]

/-- **The rule for the three loops.** -/
theorem run (h : Chunk P byte word n) (h0 : P 0 c) (hn : c.ecx.toNat = n) (hfuel : n ≤ fuel) :
    ∃ c', chunked byte word fuel c = some c' ∧ P n c' := by
  obtain ⟨c₁, k, htop, hk, hleft⟩ := h.top h0 hn hfuel
  rw [chunked, htop, Option.bind_some]
  by_cases hz : c₁.ecx = 0
  · obtain rfl : k = n := by simpa [hz] using hleft
    exact ⟨c₁, if_pos hz, hk⟩
  · rw [if_neg hz]
    exact h.aligned hk hleft hfuel

end Chunk

/-! ### What a byte and a word do -/

section Blocks

variable {mem : Memory} {d s n fuel : ℕ}

theorem ofNat_add_toNat {d k : ℕ} (h : d + k < 2 ^ 32) :
    (BitVec.ofNat 32 (d + k)).toNat = d + k := by
  rw [BitVec.toNat_ofNat, Nat.mod_eq_of_lt h]

theorem ofNat_step (d k w : ℕ) :
    BitVec.ofNat 32 (d + k) + BitVec.ofNat 32 w = BitVec.ofNat 32 (d + (k + w)) := by
  rw [← BitVec.ofNat_add, Nat.add_assoc]

/-- `k` bytes from `d` on hold the byte in all four places of `eax`. -/
structure Filling (mem : Memory) (d : ℕ) (b : UInt8) (k : ℕ) (c : Cpu) : Prop where
  mem_eq : c.mem = blockSet mem d (fun _ => b) k
  edi_eq : c.edi = BitVec.ofNat 32 (d + k)
  eax_eq : ∀ i < 4, c.eaxBytes i = b

theorem filling_chunk {b : UInt8} (hd : d + n ≤ 2 ^ 32) :
    Chunk (Filling mem d b) setByte Cpu.stosl n where
  regs k c h ecx edx df := ⟨h.mem_eq, h.edi_eq, h.eax_eq⟩
  next_byte k c h hk := by
    have hedi : c.edi.toNat = d + k := by rw [h.edi_eq, ofNat_add_toNat (by omega)]
    have hal : c.al = b := h.eax_eq 0 (by decide)
    refine ⟨?_, ?_, h.eax_eq⟩
    · show Function.update c.mem c.edi.toNat c.al = _
      rw [hedi, hal, h.mem_eq, ← blockSet_append (n := 1) (v := fun _ => b) fun _ _ => rfl,
        blockSet_one]
    · show c.edi + 1 = _
      rw [h.edi_eq]
      exact ofNat_step d k 1
  next_word k c h hdf hk := by
    have hedi : c.edi.toNat = d + k := by rw [h.edi_eq, ofNat_add_toNat (by omega)]
    refine ⟨?_, ?_, h.eax_eq⟩
    · show blockSet c.mem c.edi.toNat c.eaxBytes 4 = _
      rw [hedi, h.mem_eq, blockSet_append h.eax_eq]
    · show c.advance c.edi 4 = _
      rw [Cpu.advance, hdf, h.edi_eq]
      exact ofNat_step d k 4
  word_edx c := rfl
  word_df c := rfl

/-- `k` bytes from `s` on have been copied to `d`. -/
structure Copying (mem : Memory) (d s k : ℕ) (c : Cpu) : Prop where
  mem_eq : c.mem = blockSet mem d (window mem s) k
  edi_eq : c.edi = BitVec.ofNat 32 (d + k)
  esi_eq : c.esi = BitVec.ofNat 32 (s + k)

theorem copying_chunk (hd : d + n ≤ 2 ^ 32) (hs : s + n ≤ 2 ^ 32)
    (hdisj : d + n ≤ s ∨ s + n ≤ d) : Chunk (Copying mem d s) copyByte (Cpu.movs 4) n where
  regs k c h ecx edx df := ⟨h.mem_eq, h.edi_eq, h.esi_eq⟩
  next_byte k c h hk := by
    have hedi : c.edi.toNat = d + k := by rw [h.edi_eq, ofNat_add_toNat (by omega)]
    have hesi : c.esi.toNat = s + k := by rw [h.esi_eq, ofNat_add_toNat (by omega)]
    refine ⟨?_, ?_, ?_⟩
    · show Function.update c.mem c.edi.toNat (c.setAl (c.mem c.esi.toNat)).al = _
      rw [Cpu.al_setAl, hedi, hesi, h.mem_eq, ← blockSet_next (by omega), blockSet_one]
      rfl
    · show c.edi + 1 = _
      rw [h.edi_eq]
      exact ofNat_step d k 1
    · show c.esi + 1 = _
      rw [h.esi_eq]
      exact ofNat_step s k 1
  next_word k c h hdf hk := by
    have hedi : c.edi.toNat = d + k := by rw [h.edi_eq, ofNat_add_toNat (by omega)]
    have hesi : c.esi.toNat = s + k := by rw [h.esi_eq, ofNat_add_toNat (by omega)]
    refine ⟨?_, ?_, ?_⟩
    · show blockSet c.mem c.edi.toNat (window c.mem c.esi.toNat) 4 = _
      rw [hedi, hesi, h.mem_eq, blockSet_next (by omega)]
    · show c.advance c.edi 4 = _
      rw [Cpu.advance, hdf, h.edi_eq]
      exact ofNat_step d k 4
    · show c.advance c.esi 4 = _
      rw [Cpu.advance, hdf, h.esi_eq]
      exact ofNat_step s k 4
  word_edx c := rfl
  word_df c := rfl

/-! ### `memmove` in both directions -/

/-- Upwards a byte is read before it is overwritten if the source does not start below. -/
theorem copying_movsb (hd : d + n ≤ 2 ^ 32) (hs : s + n ≤ 2 ^ 32) (hle : d ≤ s) (k : ℕ) (c : Cpu)
    (h : Copying mem d s k c ∧ c.df = false) (hk : k < n) :
    Copying mem d s (k + 1) { c.movs 1 with ecx := c.ecx - 1 } ∧ (c.movs 1).df = false := by
  obtain ⟨hc, hdf⟩ := h
  have hedi : c.edi.toNat = d + k := by rw [hc.edi_eq, ofNat_add_toNat (by omega)]
  have hesi : c.esi.toNat = s + k := by rw [hc.esi_eq, ofNat_add_toNat (by omega)]
  refine ⟨⟨?_, ?_, ?_⟩, hdf⟩
  · show blockSet c.mem c.edi.toNat (window c.mem c.esi.toNat) 1 = _
    rw [hedi, hesi, hc.mem_eq, blockSet_next (by omega)]
  · show c.advance c.edi 1 = _
    rw [Cpu.advance, hdf, hc.edi_eq]
    exact ofNat_step d k 1
  · show c.advance c.esi 1 = _
    rw [Cpu.advance, hdf, hc.esi_eq]
    exact ofNat_step s k 1

/-- The last `k` of `n` bytes have been copied, and both pointers are at the byte before. -/
structure CopyingDown (mem : Memory) (d s n k : ℕ) (c : Cpu) : Prop where
  mem_eq : c.mem = blockSet mem (d + (n - k)) (window mem (s + (n - k))) k
  edi_eq : c.edi + 1 = BitVec.ofNat 32 (d + (n - k))
  esi_eq : c.esi + 1 = BitVec.ofNat 32 (s + (n - k))
  df_eq : c.df = true

theorem ofNat_pred {x : BitVec 32} {p : ℕ} (h : x + 1 = BitVec.ofNat 32 (p + 1)) :
    x = BitVec.ofNat 32 p := by
  rw [BitVec.ofNat_add] at h
  exact add_right_cancel h

theorem copyingDown_movsb (hd : d + n ≤ 2 ^ 32) (hlt : s < d) (k : ℕ) (c : Cpu)
    (h : CopyingDown mem d s n k c) (hk : k < n) :
    CopyingDown mem d s n (k + 1) { c.movs 1 with ecx := c.ecx - 1 } := by
  obtain ⟨j, hj⟩ : ∃ j, n - k = j + 1 := ⟨n - k - 1, by omega⟩
  have hj' : n - (k + 1) = j := by omega
  have hdf := h.df_eq
  have hmem := h.mem_eq
  have hedi : c.edi = BitVec.ofNat 32 (d + j) := ofNat_pred (by rw [h.edi_eq, hj, Nat.add_assoc])
  have hesi : c.esi = BitVec.ofNat 32 (s + j) := ofNat_pred (by rw [h.esi_eq, hj, Nat.add_assoc])
  rw [hj, ← Nat.add_assoc, ← Nat.add_assoc] at hmem
  refine ⟨?_, ?_, ?_, hdf⟩
  · show blockSet c.mem c.edi.toNat (window c.mem c.esi.toNat) 1 = _
    rw [hj', hedi, hesi, ofNat_add_toNat (by omega), ofNat_add_toNat (by omega), hmem,
      blockSet_prev (by omega)]
  · show c.advance c.edi 1 + 1 = _
    rw [hj', Cpu.advance, hdf, ← hedi]
    exact BitVec.sub_add_cancel c.edi 1
  · show c.advance c.esi 1 + 1 = _
    rw [hj', Cpu.advance, hdf, ← hesi]
    exact BitVec.sub_add_cancel c.esi 1

end Blocks

/-! ### The results -/

/-- However much fuel there is, at least one unit a byte, the routine ends, returns `dest` and
leaves the memory `m'`, which differs from `m` at most in the `n` bytes from `dest` on. -/
structure Leaves (routine : ℕ → Option (BitVec 32 × Memory)) (dest n : BitVec 32)
    (m m' : Memory) : Prop where
  returns : ∀ fuel, n.toNat ≤ fuel → routine fuel = some (dest, m')
  frame : ∀ a, ¬(dest.toNat ≤ a ∧ a < dest.toNat + n.toNat) → m' a = m a

section Results

variable {dest src n : BitVec 32}

theorem Leaves.of_block {routine : ℕ → Option (BitVec 32 × Memory)} {m m' w : Memory}
    (hm' : m' = blockSet m dest.toNat w n.toNat)
    (h : ∀ fuel, n.toNat ≤ fuel →
      routine fuel = some (dest, blockSet m dest.toNat w n.toNat)) :
    Leaves routine dest n m m' where
  returns fuel hfuel := by rw [h fuel hfuel, hm']
  frame a ha := by rw [hm', blockSet_of_not m w ha]

theorem memcpy_leaves (c : Cpu) (hd : dest.toNat + n.toNat ≤ 2 ^ 32)
    (hs : src.toNat + n.toNat ≤ 2 ^ 32)
    (hdisj : dest.toNat + n.toNat ≤ src.toNat ∨ src.toNat + n.toNat ≤ dest.toNat) :
    Leaves (memcpy · dest src n c) dest n c.mem
      (copyBytewise c.mem dest.toNat src.toNat n.toNat) := by
  refine .of_block (copyBytewise_eq hdisj) fun fuel hfuel => ?_
  have h0 : Copying c.mem dest.toNat src.toNat 0 { c with esi := src, edi := dest, ecx := n } :=
    ⟨(blockSet_zero ..).symm, by simp, by simp⟩
  obtain ⟨c', hrun, hc'⟩ := (copying_chunk hd hs hdisj).run h0 rfl hfuel
  show (chunked copyByte (Cpu.movs 4) fuel _).map _ = _
  rw [hrun, Option.map_some, hc'.mem_eq]

/-- The byte stands in all four places of `eax`. -/
theorem eaxBytes_fill {b : BitVec 32} {i : ℕ} (hi : i < 4) (r : Cpu) :
    Cpu.eaxBytes { r with eax := (b &&& 0xFF#32) <<< 24 ||| (b &&& 0xFF#32) <<< 16 |||
      (b &&& 0xFF#32) <<< 8 ||| (b &&& 0xFF#32) } i = UInt8.ofBitVec (b.setWidth 8) := by
  refine congrArg UInt8.ofBitVec (BitVec.eq_of_getLsbD_eq fun j hj => ?_)
  interval_cases i <;> interval_cases j <;> simp

theorem memset_leaves (b : BitVec 32) (c : Cpu) (hd : dest.toNat + n.toNat ≤ 2 ^ 32) :
    Leaves (memset · dest b n c) dest n c.mem
      (fillBytewise c.mem dest.toNat (UInt8.ofBitVec (b.setWidth 8)) n.toNat) := by
  refine .of_block (fillBytewise_eq ..) fun fuel hfuel => ?_
  have h0 : Filling c.mem dest.toNat (UInt8.ofBitVec (b.setWidth 8)) 0
      { c with
        eax := (b &&& 0xFF#32) <<< 24 ||| (b &&& 0xFF#32) <<< 16 ||| (b &&& 0xFF#32) <<< 8 |||
          (b &&& 0xFF#32)
        edi := dest
        ecx := n } :=
    ⟨(blockSet_zero ..).symm, by simp, fun i hi => eaxBytes_fill hi c⟩
  obtain ⟨c', hrun, hc'⟩ := (filling_chunk hd).run h0 rfl hfuel
  show (chunked setByte Cpu.stosl fuel _).map _ = _
  rw [hrun, Option.map_some, hc'.mem_eq]

theorem memmove_leaves (c : Cpu) (hd : dest.toNat + n.toNat ≤ 2 ^ 32)
    (hs : src.toNat + n.toNat ≤ 2 ^ 32) :
    Leaves (memmove · dest src n c) dest n c.mem
      (blockSet c.mem dest.toNat (window c.mem src.toNat) n.toNat) := by
  refine .of_block rfl fun fuel hfuel => ?_
  by_cases hle : dest ≤ src
  · have h0 : Copying c.mem dest.toNat src.toNat 0
        { c with esi := src, edi := dest, ecx := n, df := false } :=
      ⟨(blockSet_zero ..).symm, by simp, by simp⟩
    obtain ⟨c', hrun, hc', -⟩ :=
      Cpu.rep_rule (copying_movsb hd hs (BitVec.le_def.1 hle)) ⟨h0, rfl⟩ rfl hfuel
    have hup : memmove fuel dest src n c = (Cpu.rep (Cpu.movs 1) fuel
        { c with esi := src, edi := dest, ecx := n, df := false }).map fun c => (dest, c.mem) :=
      congrArg (fun r => (Cpu.rep (Cpu.movs 1) fuel r).map fun r : Cpu => (dest, r.mem))
        (if_pos hle)
    rw [hup, hrun, Option.map_some, hc'.mem_eq]
  · have hlt : src.toNat < dest.toNat := by
      have hnot := mt BitVec.le_def.2 hle
      omega
    have h0 : CopyingDown c.mem dest.toNat src.toNat n.toNat 0
        { c with esi := src + n - 1, edi := dest + n - 1, ecx := n, df := true } := by
      refine ⟨(blockSet_zero ..).symm, ?_, ?_, rfl⟩
      · show dest + n - 1 + 1 = _
        rw [BitVec.sub_add_cancel, Nat.sub_zero, BitVec.ofNat_add]
        simp
      · show src + n - 1 + 1 = _
        rw [BitVec.sub_add_cancel, Nat.sub_zero, BitVec.ofNat_add]
        simp
    obtain ⟨c', hrun, hc'⟩ := Cpu.rep_rule (copyingDown_movsb hd hlt) h0 rfl hfuel
    have hdown : memmove fuel dest src n c = (Cpu.rep (Cpu.movs 1) fuel
        { c with esi := src + n - 1, edi := dest + n - 1, ecx := n, df := true }).map
          fun c => (dest, c.mem) :=
      congrArg (fun r => (Cpu.rep (Cpu.movs 1) fuel r).map fun r : Cpu => (dest, r.mem))
        (if_neg hle)
    have hmem := hc'.mem_eq
    rw [Nat.sub_self, Nat.add_zero, Nat.add_zero] at hmem
    rw [hdown, hrun, Option.map_some, hmem]

/-- **The chunked routines are byte-wise**: `memset`, `memmove` for ranges that may overlap, and
`memcpy` for disjoint ones. -/
theorem routines_bytewise (c : Cpu) (hd : dest.toNat + n.toNat ≤ 2 ^ 32) :
    (∀ b : BitVec 32, Leaves (memset · dest b n c) dest n c.mem
      (fillBytewise c.mem dest.toNat (UInt8.ofBitVec (b.setWidth 8)) n.toNat)) ∧
    ∀ src : BitVec 32, src.toNat + n.toNat ≤ 2 ^ 32 →
      Leaves (memmove · dest src n c) dest n c.mem
        (blockSet c.mem dest.toNat (window c.mem src.toNat) n.toNat) ∧
      (dest.toNat + n.toNat ≤ src.toNat ∨ src.toNat + n.toNat ≤ dest.toNat →
        Leaves (memcpy · dest src n c) dest n c.mem
          (copyBytewise c.mem dest.toNat src.toNat n.toNat)) :=
  ⟨fun b => memset_leaves b c hd, fun _ hs =>
    ⟨memmove_leaves c hd hs, fun hdisj => memcpy_leaves c hd hs hdisj⟩⟩

/-- A machine whose memory holds the low byte of each address. -/
def countingCpu : Cpu := ⟨0, 0, 0, 0, 0, false, fun a => UInt8.ofNat a⟩

/-- Eleven bytes to an odd address: moved up by two, and copied from further on. -/
theorem routines_bytewise_eleven :
    Leaves (memmove · 5 3 11 countingCpu) 5 11 countingCpu.mem
      (blockSet countingCpu.mem 5 (window countingCpu.mem 3) 11) ∧
    Leaves (memcpy · 5 30 11 countingCpu) 5 11 countingCpu.mem
      (copyBytewise countingCpu.mem 5 30 11) := by
  have h := (@routines_bytewise 5 11 countingCpu (by decide)).2
  exact ⟨(h 3 (by decide)).1, (h 30 (by decide)).2 (Or.inl (by decide))⟩

end Results

end LinuxIsLove
