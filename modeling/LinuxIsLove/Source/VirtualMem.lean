import LinuxIsLove.Foundation.PageWalk

/-!
# `virtualmem.c`: page directories and page tables

The kernel keeps one directory for each process and three pairs of page tables, one pair for each
terminal: `pt_vidmem` maps the text pages for the kernel, `pt_user_vidmem` the terminal's own text
page for the user.  The tables are filled once by `virtualmem_init`; afterwards only directories
change.

`processPd` lists what the directory of a process holds: `pdInit_setPde` shows that this is what
`execute` builds, whatever the directory held before, `setPdeFlags_processPd` what `vidmap` makes of
it, and `userTranslate_processPd` where a user access through it can lead.
-/

namespace LinuxIsLove

open PageWalk

def tableSize : ℕ := 1024
def pageSize : ℕ := 4096
def maxTerminals : ℕ := 3

def flagP : Word := 0x1
def flagWE : Word := 0x2
def flagU : Word := 0x4
def flagPS : Word := 0x80

def video : ℕ := 0xB8000
def kernelLoc : ℕ := 0x400000
def kernelMemEnd : ℕ := 0x800000
def kernelStackSize : ℕ := 0x2000
def progVmStart : ℕ := 0x8000000
def space4MB : ℕ := 0x400000
def progVidmemAddr : ℕ := 0x8400000
def largeInitFlags : Word := flagP ||| flagWE ||| flagPS

/-- Where the linker put the page tables, and what other physical pages hold.  Both arrays of
tables are page-aligned and lie in the kernel's page. -/
structure Layout where
  ptVidmem : ℕ
  ptUserVidmem : ℕ
  other : Word → Table
  ptVidmem_aligned : ptVidmem % pageSize = 0
  ptUserVidmem_aligned : ptUserVidmem % pageSize = 0
  ptVidmem_kernel : kernelLoc ≤ ptVidmem ∧ ptVidmem + pageSize * maxTerminals ≤ kernelMemEnd
  ptUserVidmem_kernel :
    kernelLoc ≤ ptUserVidmem ∧ ptUserVidmem + pageSize * maxTerminals ≤ kernelMemEnd
  disjoint : ptVidmem + pageSize * maxTerminals ≤ ptUserVidmem ∨
    ptUserVidmem + pageSize * maxTerminals ≤ ptVidmem

/-- The address of the table `t` of an array of tables. -/
def tableAddr (base t : ℕ) : Word := BitVec.ofNat 32 (base + pageSize * t)

/-- The index of the page of an address in its page table. -/
def pteIndex (addr : ℕ) : ℕ := tableIndex (BitVec.ofNat 32 addr)

/-- The entry for the page at `addr`. -/
def pageEntry (addr : ℕ) (flags : Word) : Word := BitVec.ofNat 32 addr ||| flags

/-- The entries that `virtualmem_init` gives `pt_vidmem[i]`. -/
def ptVidmem (i : ℕ) : Table :=
  (List.range maxTerminals).foldl
    (fun pt j => Function.update pt (pteIndex (video + (j + 1) * pageSize))
      (pageEntry (video + j * pageSize) (flagWE ||| flagP)))
    (Function.update (fun _ => 0) (pteIndex video)
      (pageEntry (video + i * pageSize) (flagWE ||| flagP)))

/-- The entries that `virtualmem_init` gives `pt_user_vidmem[i]`. -/
def ptUserVidmem (i : ℕ) : Table :=
  Function.update (fun _ => 0) (pteIndex progVidmemAddr)
    (pageEntry (video + i * pageSize) (flagWE ||| flagU ||| flagP))

/-- The page tables in physical memory once `virtualmem_init` is done. -/
def pageTables (L : Layout) (a : Word) : Table :=
  if L.ptUserVidmem ≤ a.toNat ∧ a.toNat < L.ptUserVidmem + pageSize * maxTerminals then
    ptUserVidmem ((a.toNat - L.ptUserVidmem) / pageSize)
  else if L.ptVidmem ≤ a.toNat ∧ a.toNat < L.ptVidmem + pageSize * maxTerminals then
    ptVidmem ((a.toNat - L.ptVidmem) / pageSize)
  else L.other a

/-- Set a directory entry. -/
def setPde (pd : Table) (virtualAddr physicalAddr flags : Word) : Table :=
  let physicalAddr :=
    if flags &&& flagPS ≠ 0 then physicalAddr &&& 0xFFC00000#32 else physicalAddr &&& 0xFFFFF000#32
  Function.update pd (dirIndex virtualAddr) (physicalAddr ||| flags)

/-- Turn on flags of a directory entry. -/
def setPdeFlags (pd : Table) (virtualAddr flags : Word) : Table :=
  Function.update pd (dirIndex virtualAddr) (pd (dirIndex virtualAddr) ||| flags)

/-- The default directory for a terminal, written over what the directory held. -/
def pdInit (L : Layout) (pd : Table) (termNum : ℕ) : Table :=
  let pd := fun i => if i < tableSize then 0 else pd i
  let pd := Function.update pd 0 (tableAddr L.ptVidmem termNum ||| flagWE ||| flagP)
  let pd := Function.update pd (dirIndex (BitVec.ofNat 32 progVidmemAddr))
    (tableAddr L.ptUserVidmem termNum ||| flagWE ||| flagU)
  setPde pd (BitVec.ofNat 32 kernelLoc) (BitVec.ofNat 32 kernelLoc) largeInitFlags

/-- The physical address of the 4 MB page of a process. -/
def frameAddr (pid : ℕ) : ℕ := kernelMemEnd + (pid - 1) * space4MB

/-- The address lies in the page of the program. -/
def InPage (a : ℕ) : Prop := progVmStart ≤ a ∧ a < progVmStart + space4MB

instance (a : ℕ) : Decidable (InPage a) := by
  unfold InPage
  infer_instance

/-! ### What the directory of a process holds -/

/-- The directory of process `pid` on terminal `t`; `mapped` tells whether the process has called
`vidmap`. -/
def processPd (L : Layout) (pid t : ℕ) (mapped : Bool) (i : ℕ) : Word :=
  if i = 0 then tableAddr L.ptVidmem t ||| (flagWE ||| flagP)
  else if i = 1 then BitVec.ofNat 32 kernelLoc ||| largeInitFlags
  else if i = 32 then
    (BitVec.ofNat 32 (frameAddr pid) &&& 0xFFC00000#32) ||| (flagPS ||| flagU ||| flagWE ||| flagP)
  else if i = 33 then
    tableAddr L.ptUserVidmem t ||| (flagWE ||| flagU ||| if mapped then flagP else 0)
  else 0

/-- What `execute` builds does not depend on what the directory held before. -/
theorem pdInit_setPde (L : Layout) (pd : Table) (pid t : ℕ) {i : ℕ} (hi : i < tableSize) :
    setPde (pdInit L pd t) (BitVec.ofNat 32 progVmStart) (BitVec.ofNat 32 (frameAddr pid))
        (flagPS ||| flagU ||| flagWE ||| flagP) i =
      processPd L pid t false i := by
  have h1 : dirIndex (BitVec.ofNat 32 kernelLoc) = 1 := by decide
  have h32 : dirIndex (BitVec.ofNat 32 progVmStart) = 32 := by decide
  have h33 : dirIndex (BitVec.ofNat 32 progVidmemAddr) = 33 := by decide
  have hps : (flagPS ||| flagU ||| flagWE ||| flagP) &&& flagPS ≠ 0 := by decide
  have hps' : largeInitFlags &&& flagPS ≠ 0 := by decide
  have hloc : BitVec.ofNat 32 kernelLoc &&& 0xFFC00000#32 = BitVec.ofNat 32 kernelLoc := by decide
  simp only [setPde, pdInit, h1, h32, h33, if_pos hps, if_pos hps', hloc, Function.update_apply,
    processPd, hi, if_true]
  by_cases h0 : i = 0
  · subst h0
    simp [BitVec.or_assoc]
  · by_cases hi33 : i = 33
    · subst hi33
      simp [BitVec.or_assoc]
    · simp only [h0, hi33, if_false]
      split_ifs <;> first | rfl | omega

/-- What `vidmap` does to the directory of a process. -/
theorem setPdeFlags_processPd {L : Layout} {pd : Table} {pid t : ℕ} {mapped : Bool}
    (h : ∀ i < tableSize, pd i = processPd L pid t mapped i) {i : ℕ} (hi : i < tableSize) :
    setPdeFlags pd (BitVec.ofNat 32 progVidmemAddr) flagP i = processPd L pid t true i := by
  have h33 : dirIndex (BitVec.ofNat 32 progVidmemAddr) = 33 := by decide
  rw [setPdeFlags, h33, Function.update_apply]
  split_ifs with hi33
  · subst hi33
    rw [h 33 (by decide)]
    cases mapped <;> simp [processPd, BitVec.or_assoc]
  · rw [h i hi]
    simp [processPd, hi33]

/-! ### Where a user access leads -/

section Translate

variable {L : Layout} {pid t : ℕ}

theorem tableAddr_toNat {base : ℕ} (hb : base + pageSize * maxTerminals ≤ kernelMemEnd)
    (ht : t < maxTerminals) : (tableAddr base t).toNat = base + pageSize * t := by
  simp only [pageSize, maxTerminals, kernelMemEnd] at hb ht
  rw [tableAddr, BitVec.toNat_ofNat, Nat.mod_eq_of_lt]
  simp only [pageSize]
  omega

theorem tableAddr_aligned {base : ℕ} (hb : base % pageSize = 0) : Aligned (tableAddr base t) := by
  intro i hi
  have hdvd : (base + pageSize * t) % 2 ^ 12 = 0 := by
    simp only [pageSize] at hb ⊢
    omega
  have hbit : ((base + pageSize * t) % 2 ^ 12).testBit i = (base + pageSize * t).testBit i := by
    rw [Nat.testBit_mod_two_pow]
    simp [hi]
  rw [hdvd, Nat.zero_testBit] at hbit
  rw [tableAddr, BitVec.getLsbD_ofNat, ← hbit, Bool.and_false]

/-- The table that the entry 33 of a process directory names. -/
theorem pageTables_user {flags : Word} (ht : t < maxTerminals)
    (hf : ∀ i, 12 ≤ i → flags.getLsbD i = false) :
    pageTables L (smallFrame (tableAddr L.ptUserVidmem t ||| flags)) = ptUserVidmem t := by
  have haddr := tableAddr_toNat L.ptUserVidmem_kernel.2 ht
  rw [smallFrame_or (tableAddr_aligned L.ptUserVidmem_aligned) hf, pageTables, haddr]
  have hin : L.ptUserVidmem ≤ L.ptUserVidmem + pageSize * t ∧
      L.ptUserVidmem + pageSize * t < L.ptUserVidmem + pageSize * maxTerminals := by
    simp only [pageSize, maxTerminals] at ht ⊢
    omega
  have hindex : (L.ptUserVidmem + pageSize * t - L.ptUserVidmem) / pageSize = t := by
    simp only [pageSize]
    omega
  rw [if_pos hin, hindex]

/-- The entry of the text page. -/
theorem processPd_textPage (mapped : Bool) : processPd L pid t mapped 33 =
    tableAddr L.ptUserVidmem t ||| (flagWE ||| flagU ||| if mapped then flagP else 0) := rfl

/-- The table that the entry 33 names, once it is present. -/
theorem pageTables_vidmap (ht : t < maxTerminals) :
    pageTables L (smallFrame (processPd L pid t true 33)) = ptUserVidmem t := by
  have hflags : (flagWE ||| flagU ||| flagP).toNat < 2 ^ 12 := by decide
  rw [processPd_textPage, if_pos rfl, pageTables_user ht (getLsbD_flags hflags)]

/-- The text page of a terminal is the only page the user can reach through its table. -/
theorem ptUserVidmem_page {va : Word} (ht : t < maxTerminals)
    (hp : present (ptUserVidmem t (tableIndex va)) = true) :
    (smallFrame (ptUserVidmem t (tableIndex va)) ||| (va &&& 0xFFF#32)).toNat =
      video + pageSize * t + va.toNat % 2 ^ 12 := by
  have hindex : tableIndex va = pteIndex progVidmemAddr := by
    by_contra hne
    rw [ptUserVidmem, Function.update_of_ne hne] at hp
    exact absurd hp (by decide)
  rw [toNat_smallAddress, hindex, ptUserVidmem, Function.update_self]
  have hentry : ∀ t < maxTerminals,
      (pageEntry (video + t * pageSize) (flagWE ||| flagU ||| flagP)).toNat / 2 ^ 12 * 2 ^ 12 =
        video + pageSize * t := by decide
  rw [hentry t ht]

/-- The 4 MB page of a process. -/
theorem frame_page {va : Word} (h1 : 1 ≤ pid) (h6 : pid ≤ 6) :
    (largeFrame (processPd L pid t false 32) ||| (va &&& 0x3FFFFF#32)).toNat =
      frameAddr pid + va.toNat % 2 ^ 22 := by
  have hentry : ∀ pid, 1 ≤ pid → pid ≤ 6 →
      ((BitVec.ofNat 32 (frameAddr pid) &&& 0xFFC00000#32) |||
        (flagPS ||| flagU ||| flagWE ||| flagP)).toNat / 2 ^ 22 * 2 ^ 22 = frameAddr pid := by
    intro pid h1 h6
    interval_cases pid <;> decide
  rw [toNat_largeAddress, processPd]
  simp only [if_neg (show (32 : ℕ) ≠ 0 by decide), if_neg (show (32 : ℕ) ≠ 1 by decide), if_true]
  rw [hentry pid h1 h6]

/-- The entries of the kernel are closed to the user. -/
theorem userAccess_kernel (mapped : Bool) {i : ℕ} (hi : i = 0 ∨ i = 1) :
    userAccess (processPd L pid t mapped i) = false := by
  rcases hi with rfl | rfl
  · rw [processPd, if_pos rfl, userAccess,
      getLsbD_or_of_aligned (tableAddr_aligned L.ptVidmem_aligned) (by omega)]
    decide
  · have hentry : processPd L pid t mapped 1 = BitVec.ofNat 32 kernelLoc ||| largeInitFlags := rfl
    rw [hentry]
    decide

/-- The page of a process is a large one. -/
theorem largePage_process (mapped : Bool) :
    largePage (processPd L pid t mapped 32) = true := by
  have hentry : processPd L pid t mapped 32 =
      (BitVec.ofNat 32 (frameAddr pid) &&& 0xFFC00000#32) |||
        (flagPS ||| flagU ||| flagWE ||| flagP) := rfl
  rw [hentry, largePage, BitVec.getLsbD_or]
  simp [flagPS, flagU, flagWE, flagP]

/-- The text page is reached through a table. -/
theorem largePage_vidmem (mapped : Bool) : largePage (processPd L pid t mapped 33) = false := by
  rw [processPd_textPage, largePage,
    getLsbD_or_of_aligned (tableAddr_aligned L.ptUserVidmem_aligned) (by omega)]
  cases mapped <;> decide

/-- The table of the text page is present once `vidmap` was called. -/
theorem mapped_of_present {mapped : Bool}
    (hp : present (processPd L pid t mapped 33) = true) : mapped = true := by
  rw [processPd_textPage, present,
    getLsbD_or_of_aligned (tableAddr_aligned L.ptUserVidmem_aligned) (by omega)] at hp
  revert hp
  cases mapped <;> decide

/-- A user access through the entry 32 leads into the page of the process. -/
theorem userTranslate_own {pd : Table} {mapped : Bool} {va pa : Word} (h1 : 1 ≤ pid) (h6 : pid ≤ 6)
    (hpd : pd 32 = processPd L pid t mapped 32) (hdir : dirIndex va = 32)
    (h : userTranslate (pageTables L) pd va = some pa) :
    frameAddr pid ≤ pa.toNat ∧ pa.toNat < frameAddr pid + space4MB := by
  obtain ⟨-, -, hcases⟩ := userTranslate_cases h
  rw [hdir, hpd] at hcases
  have hmapped : processPd L pid t mapped 32 = processPd L pid t false 32 := rfl
  rcases hcases with ⟨-, rfl⟩ | ⟨hl, -⟩
  · rw [hmapped, frame_page h1 h6]
    have hlt := Nat.mod_lt va.toNat (show 0 < 2 ^ 22 by decide)
    simp only [space4MB]
    omega
  · rw [largePage_process] at hl
    exact absurd hl (by decide)

/-- A user access through the entry 33 leads into the text page of the terminal. -/
theorem userTranslate_textPage {pd : Table} {mapped : Bool} {va pa : Word} (ht : t < maxTerminals)
    (hpd : pd 33 = processPd L pid t mapped 33) (hdir : dirIndex va = 33)
    (h : userTranslate (pageTables L) pd va = some pa) :
    mapped = true ∧ video + pageSize * t ≤ pa.toNat ∧
      pa.toNat < video + pageSize * t + pageSize := by
  obtain ⟨hp, -, hcases⟩ := userTranslate_cases h
  rw [hdir, hpd] at hp hcases
  obtain rfl := mapped_of_present hp
  rcases hcases with ⟨hl, -⟩ | ⟨-, pte, rfl, hpte, -, rfl⟩
  · rw [largePage_vidmem] at hl
    exact absurd hl (by decide)
  · have hlt := Nat.mod_lt va.toNat (show 0 < 2 ^ 12 by decide)
    rw [pageTables_vidmap ht] at hpte ⊢
    rw [ptUserVidmem_page ht hpte]
    simp only [pageSize]
    exact ⟨trivial, by omega, by omega⟩

/-- A user access through the directory of a process leads into its own 4 MB page or, once
`vidmap` was called, into the text page of its terminal. -/
theorem userTranslate_processPd {pd : Table} {mapped : Bool} {va pa : Word} (h1 : 1 ≤ pid)
    (h6 : pid ≤ 6) (ht : t < maxTerminals)
    (hpd : ∀ i < tableSize, pd i = processPd L pid t mapped i)
    (h : userTranslate (pageTables L) pd va = some pa) :
    (frameAddr pid ≤ pa.toNat ∧ pa.toNat < frameAddr pid + space4MB) ∨
      (mapped = true ∧ video + pageSize * t ≤ pa.toNat ∧
        pa.toNat < video + pageSize * t + pageSize) := by
  have hi : dirIndex va < tableSize := by
    have := va.isLt
    rw [dirIndex_eq]
    simp only [tableSize]
    omega
  obtain ⟨hp, hu, -⟩ := userTranslate_cases h
  rw [hpd _ hi] at hp hu
  by_cases hk : dirIndex va = 0 ∨ dirIndex va = 1
  · -- the pages of the kernel
    rw [userAccess_kernel mapped hk] at hu
    exact absurd hu (by decide)
  by_cases h32 : dirIndex va = 32
  · exact Or.inl (userTranslate_own h1 h6 (hpd 32 (by decide)) h32 h)
  by_cases h33 : dirIndex va = 33
  · exact Or.inr (userTranslate_textPage ht (hpd 33 (by decide)) h33 h)
  · -- no page at all
    obtain ⟨h0, h1⟩ := not_or.1 hk
    rw [processPd, if_neg h0, if_neg h1, if_neg h32, if_neg h33] at hp
    exact absurd hp (by decide)

end Translate

end LinuxIsLove
