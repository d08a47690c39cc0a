import Mathlib

/-!
# The two-level page walk of the 32-bit x86

A page directory and a page table are 1024 words of 32 bits.  Of an entry the walk reads the
present bit, the user bit, the page-size bit of a directory entry, and the frame address: the
upper ten bits for a 4 MB page, the upper twenty for a page table or a 4 KB page.

`userTranslate mem dir va` is the physical address a user-mode access to `va` reaches through the
directory `dir`, if it reaches any: the entry must be present and user-accessible at both levels.
The physical memory enters only as the function `mem` from the address of a page table to its
contents.
-/

namespace PageWalk

/-- A directory or page-table entry, and an address. -/
abbrev Word := BitVec 32

/-- The entries of a directory or a page table, by index. -/
abbrev Table := ℕ → Word

def present (e : Word) : Bool := e.getLsbD 0

def userAccess (e : Word) : Bool := e.getLsbD 2

def largePage (e : Word) : Bool := e.getLsbD 7

/-- The physical address of a 4 MB page. -/
def largeFrame (e : Word) : Word := e &&& 0xFFC00000#32

/-- The physical address of a page table or of a 4 KB page. -/
def smallFrame (e : Word) : Word := e &&& 0xFFFFF000#32

def dirIndex (va : Word) : ℕ := (va >>> 22).toNat

def tableIndex (va : Word) : ℕ := (va >>> 12 &&& 0x3FF#32).toNat

/-- Where a user-mode access to `va` leads through the directory `dir`. -/
def userTranslate (mem : Word → Table) (dir : Table) (va : Word) : Option Word :=
  let pde := dir (dirIndex va)
  if present pde && userAccess pde then
    if largePage pde then some (largeFrame pde ||| (va &&& 0x3FFFFF#32))
    else
      let pte := mem (smallFrame pde) (tableIndex va)
      if present pte && userAccess pte then some (smallFrame pte ||| (va &&& 0xFFF#32)) else none
  else none

/-- Where a kernel-mode access to `va` leads through the directory `dir`. -/
def translate (mem : Word → Table) (dir : Table) (va : Word) : Option Word :=
  let pde := dir (dirIndex va)
  if present pde then
    if largePage pde then some (largeFrame pde ||| (va &&& 0x3FFFFF#32))
    else
      let pte := mem (smallFrame pde) (tableIndex va)
      if present pte then some (smallFrame pte ||| (va &&& 0xFFF#32)) else none
  else none

variable {mem : Word → Table} {dir : Table} {va pa : Word}

/-- A user access that reaches memory goes through a 4 MB page or through a 4 KB page, accessible
to the user at every level. -/
theorem userTranslate_cases (h : userTranslate mem dir va = some pa) :
    present (dir (dirIndex va)) = true ∧ userAccess (dir (dirIndex va)) = true ∧
      ((largePage (dir (dirIndex va)) = true ∧
          pa = largeFrame (dir (dirIndex va)) ||| (va &&& 0x3FFFFF#32)) ∨
        (largePage (dir (dirIndex va)) = false ∧
          ∃ pte, pte = mem (smallFrame (dir (dirIndex va))) (tableIndex va) ∧
            present pte = true ∧ userAccess pte = true ∧
              pa = smallFrame pte ||| (va &&& 0xFFF#32))) := by
  simp only [userTranslate] at h
  split_ifs at h with hp hl ht
  · simp only [Bool.and_eq_true] at hp
    exact ⟨hp.1, hp.2, Or.inl ⟨hl, (Option.some.inj h).symm⟩⟩
  · simp only [Bool.and_eq_true] at hp ht
    exact ⟨hp.1, hp.2, Or.inr ⟨by simpa using hl, _, rfl, ht.1, ht.2, (Option.some.inj h).symm⟩⟩

/-- A walk looks at one entry of the directory. -/
theorem userTranslate_congr {dir' : Table} (h : dir' (dirIndex va) = dir (dirIndex va)) :
    userTranslate mem dir' va = userTranslate mem dir va := by
  simp only [userTranslate, h]

theorem translate_congr {dir' : Table} (h : dir' (dirIndex va) = dir (dirIndex va)) :
    translate mem dir' va = translate mem dir va := by
  simp only [translate, h]

/-! ### Addresses as numbers -/

/-- The mask of the bits from `k` on clears the lower ones. -/
theorem and_highMask (x k : ℕ) (hx : x < 2 ^ 32) :
    x &&& ((2 ^ (32 - k) - 1) <<< k) = x / 2 ^ k * 2 ^ k := by
  apply Nat.eq_of_testBit_eq
  intro i
  rw [Nat.testBit_and, Nat.testBit_shiftLeft, Nat.testBit_two_pow_sub_one, ← Nat.shiftLeft_eq,
    Nat.testBit_shiftLeft, Nat.testBit_div_two_pow]
  by_cases hik : k ≤ i
  · have hki : i - k + k = i := by omega
    by_cases hi : i < 32
    · simp [hik, hki, show i - k < 32 - k by omega]
    · have hzero : x.testBit i = false :=
        Nat.testBit_lt_two_pow (lt_of_lt_of_le hx (Nat.pow_le_pow_right (by omega) (by omega)))
      simp [hzero, hki]
  · simp [hik]

/-- Joining an aligned frame address and an offset inside the frame adds them. -/
theorem frame_or_offset (a b k : ℕ) (hb : b < 2 ^ k) : a * 2 ^ k ||| b = a * 2 ^ k + b := by
  rw [← Nat.shiftLeft_eq, Nat.shiftLeft_add_eq_or_of_lt hb]

theorem toNat_largeAddress (e va : Word) :
    (largeFrame e ||| (va &&& 0x3FFFFF#32)).toNat =
      e.toNat / 2 ^ 22 * 2 ^ 22 + va.toNat % 2 ^ 22 := by
  have hmask : (0xFFC00000 : ℕ) = (2 ^ (32 - 22) - 1) <<< 22 := by decide
  have hlow : (0x3FFFFF : ℕ) = 2 ^ 22 - 1 := by decide
  rw [BitVec.toNat_or, largeFrame, BitVec.toNat_and, BitVec.toNat_and]
  change e.toNat &&& 0xFFC00000 ||| va.toNat &&& 0x3FFFFF = _
  rw [hmask, hlow, and_highMask _ _ e.isLt, Nat.and_two_pow_sub_one_eq_mod,
    frame_or_offset _ _ _ (Nat.mod_lt _ (by decide))]

theorem toNat_smallAddress (e va : Word) :
    (smallFrame e ||| (va &&& 0xFFF#32)).toNat =
      e.toNat / 2 ^ 12 * 2 ^ 12 + va.toNat % 2 ^ 12 := by
  have hmask : (0xFFFFF000 : ℕ) = (2 ^ (32 - 12) - 1) <<< 12 := by decide
  have hlow : (0xFFF : ℕ) = 2 ^ 12 - 1 := by decide
  rw [BitVec.toNat_or, smallFrame, BitVec.toNat_and, BitVec.toNat_and]
  change e.toNat &&& 0xFFFFF000 ||| va.toNat &&& 0xFFF = _
  rw [hmask, hlow, and_highMask _ _ e.isLt, Nat.and_two_pow_sub_one_eq_mod,
    frame_or_offset _ _ _ (Nat.mod_lt _ (by decide))]

theorem dirIndex_eq (va : Word) : dirIndex va = va.toNat / 2 ^ 22 := by
  rw [dirIndex, BitVec.toNat_ushiftRight, Nat.shiftRight_eq_div_pow]

theorem tableIndex_eq (va : Word) : tableIndex va = va.toNat / 2 ^ 12 % 2 ^ 10 := by
  rw [tableIndex, BitVec.toNat_and, BitVec.toNat_ushiftRight, Nat.shiftRight_eq_div_pow]
  change va.toNat / 2 ^ 12 &&& 2 ^ 10 - 1 = _
  rw [Nat.and_two_pow_sub_one_eq_mod]

/-! ### Entries built from an aligned address and flags -/

/-- An address whose lowest twelve bits are clear. -/
def Aligned (a : Word) : Prop := ∀ i < 12, a.getLsbD i = false

/-- Flags below bit 12 do not disturb the frame address they are joined to. -/
theorem smallFrame_or {a f : Word} (ha : Aligned a) (hf : ∀ i, 12 ≤ i → f.getLsbD i = false) :
    smallFrame (a ||| f) = a := by
  apply BitVec.eq_of_getLsbD_eq
  intro i hi
  have hmask : ∀ j < 32, (0xFFFFF000#32).getLsbD j = decide (12 ≤ j) := by decide
  rw [smallFrame, BitVec.getLsbD_and, BitVec.getLsbD_or, hmask i hi]
  by_cases h12 : 12 ≤ i
  · simp [h12, hf i h12]
  · simp [h12, ha i (by omega)]

/-- The flags of an entry are its lower twelve bits. -/
theorem getLsbD_flags {f : Word} (hf : f.toNat < 2 ^ 12) (i : ℕ) (hi : 12 ≤ i) :
    f.getLsbD i = false :=
  Nat.testBit_lt_two_pow (hf.trans_le (Nat.pow_le_pow_right (by decide) hi))

theorem getLsbD_or_of_aligned {a f : Word} (ha : Aligned a) {i : ℕ} (hi : i < 12) :
    (a ||| f).getLsbD i = f.getLsbD i := by
  rw [BitVec.getLsbD_or, ha i hi, Bool.false_or]

end PageWalk
