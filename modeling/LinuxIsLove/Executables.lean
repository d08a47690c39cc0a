import LinuxIsLove.Lookup
import LinuxIsLove.Source.Execute

/-!
# Executable files

`execute` looks the first word of a command up in the directory and reads 40 bytes of the inode that
the entry names.  It never looks at the type of the entry, so a directory or the clock is executed
as the file whose inode number its entry happens to hold; and the lookup takes a name that fills its
field for one byte longer than it is.  `accepted_iff_regular` says for which words this makes no
difference, and `imageFits_iff` which of the files that are accepted the page of a program can hold.
-/

namespace LinuxIsLove

open Bytes

/-- An inode of the image whose contents begin like a program. -/
structure Executable (img : Image) (inode : ℕ) : Prop where
  valid : inode < inodeCnt img
  header : elfHeaderLen ≤ inodeLength img inode
  magic : fileByte img inode 0 = 0x7f ∧ fileByte img inode 1 = 0x45 ∧
    fileByte img inode 2 = 0x4c ∧ fileByte img inode 3 = 0x46

theorem executable_iff (img : Image) (inode : ℕ) :
    Executable img inode ↔ inode < inodeCnt img ∧ elfHeaderLen ≤ inodeLength img inode ∧
      fileByte img inode 0 = 0x7f ∧ fileByte img inode 1 = 0x45 ∧
        fileByte img inode 2 = 0x4c ∧ fileByte img inode 3 = 0x46 :=
  ⟨fun h => ⟨h.valid, h.header, h.magic⟩, fun h => ⟨h.1, h.2.1, h.2.2⟩⟩

instance (img : Image) (inode : ℕ) : Decidable (Executable img inode) :=
  decidable_of_iff' _ (executable_iff img inode)

/-- The inode that the directory entry `i` names. -/
def entryInode (img : Image) (i : ℕ) : ℕ := Dentry.inode (dentryAt img i)

/-- A regular file of that name is executable. -/
def RegularExecutable (img : Image) (s : CString) : Prop :=
  ∃ i < dirEntriesCnt img, s.bytes = entryName img i ∧
    Dentry.ftype (dentryAt img i) = fileFtype ∧ Executable img (entryInode img i)

instance (img : Image) (s : CString) : Decidable (RegularExecutable img s) := by
  unfold RegularExecutable
  infer_instance

/-- No entry misleads `execute` about the word.  An entry that holds an executable inode and has the
word for its name is a regular file, and its name does not run into its type; nor is the word such a
name with the byte of the type behind it. -/
structure NotMisled (img : Image) (s : CString) : Prop where
  terminated : ∀ i < dirEntriesCnt img, Executable img (entryInode img i) →
    ¬ Unterminated img i → s.bytes = entryName img i → Dentry.ftype (dentryAt img i) = fileFtype
  unterminated : ∀ i < dirEntriesCnt img, Executable img (entryInode img i) →
    Unterminated img i → s.bytes ≠ entryName img i ++ [dentryAt img i 32] ∧
      (s.bytes = entryName img i → Dentry.ftype (dentryAt img i) ≠ fileFtype)

/-- The page of a program holds the executable regular file of that name. -/
def ImageFits (img : Image) (s : CString) : Prop :=
  ∀ i < dirEntriesCnt img, s.bytes = entryName img i →
    Dentry.ftype (dentryAt img i) = fileFtype → Executable img (entryInode img i) →
      inodeLength img (entryInode img i) ≤ loadRoom

/-! ### The tests of `execute` -/

section Header

variable {img : Image} {inode : ℕ}

/-- The magic number as four bytes. -/
theorem word32_eq_elfMagic (m : Memory) :
    word32 m 0 = elfMagic ↔ m 0 = 0x7f ∧ m 1 = 0x45 ∧ m 2 = 0x4c ∧ m 3 = 0x46 := by
  have h0 := (m 0).toNat_lt
  have h1 := (m 1).toNat_lt
  have h2 := (m 2).toNat_lt
  have h3 := (m 3).toNat_lt
  simp only [word32, elfMagic, ← UInt8.toNat_inj, Nat.zero_add]
  constructor
  · intro h
    refine ⟨?_, ?_, ?_, ?_⟩ <;> simp <;> omega
  · rintro ⟨hb0, hb1, hb2, hb3⟩
    rw [hb0, hb1, hb2, hb3]
    decide

/-- The two tests that are made of the first 40 bytes, whatever the buffer held before. -/
theorem header_ite {α : Type*} (buf : Memory) (x r : α) :
    (if (readData img inode 0 buf elfHeaderLen).1 < elfHeaderLen then r
      else if word32 (readData img inode 0 buf elfHeaderLen).2 0 = elfMagic then x else r) =
      if Executable img inode then x else r := by
  by_cases hvalid : inode < inodeCnt img
  · rw [readData_eq buf elfHeaderLen hvalid (by norm_num), Nat.sub_zero]
    by_cases hlen : elfHeaderLen ≤ inodeLength img inode
    · have hbyte : ∀ j < elfHeaderLen,
          copy buf (fun j => fileByte img inode (0 + j)) elfHeaderLen j = fileByte img inode j := by
        intro j hj
        rw [copy_of_lt hj, Nat.zero_add]
      have hmagic : word32 (copy buf (fun j => fileByte img inode (0 + j)) elfHeaderLen) 0 =
          elfMagic ↔ Executable img inode := by
        rw [word32_eq_elfMagic, hbyte 0 (by decide), hbyte 1 (by decide), hbyte 2 (by decide),
          hbyte 3 (by decide)]
        exact ⟨fun h => ⟨hvalid, hlen, h⟩, fun h => h.magic⟩
      rw [min_eq_left hlen, if_neg (lt_irrefl _)]
      exact if_congr hmagic rfl rfl
    · have hshort : ((inodeLength img inode : ℕ) : ℤ) < elfHeaderLen := by
        exact_mod_cast not_le.1 hlen
      rw [min_eq_right (by omega), if_pos hshort, if_neg fun h => hlen h.header]
  · have hshort : (0 : ℤ) < elfHeaderLen := by decide
    rw [readData_of_invalid _ _ _ (not_lt.1 hvalid), if_pos hshort, if_neg fun h => hvalid h.valid]

end Header

section Lookup

variable {img : Image} {command : CString}

theorem checkExecutable_of_found {m : ℕ}
    (h : ∀ dentry, readDentryByName img (parseArg command).1 dentry =
      (0, copy dentry (dentryAt img m) bytesDentry)) :
    checkExecutable img command =
      if Executable img (entryInode img m) then
        some (copy (fun _ => 0) (dentryAt img m) bytesDentry, (parseArg command).2)
      else none := by
  have hinode := inode_copy (fun _ => 0) (dentryAt img m)
  simp only [checkExecutable, h, if_neg (show (0 : ℤ) ≠ -1 by decide), hinode]
  exact header_ite _ _ _

theorem checkExecutable_of_missing
    (h : ∀ dentry, readDentryByName img (parseArg command).1 dentry = (-1, dentry)) :
    checkExecutable img command = none := by
  simp only [checkExecutable, h, if_true]

/-- The words that `execute` accepts. -/
theorem checkExecutable_isSome_iff (hw : WellFormed img) :
    (checkExecutable img command).isSome = true ↔
      ∃ i < dirEntriesCnt img, (parseArg command).1.bytes = scannedName img i ∧
        Executable img (entryInode img i) := by
  rcases readDentryByName_spec hw.entries (parseArg command).1 with
    ⟨m, hm, hscan, hfound⟩ | ⟨hno, hnone⟩
  · rw [checkExecutable_of_found hfound]
    constructor
    · intro h
      refine ⟨m, hm, hscan, ?_⟩
      by_contra hexec
      rw [if_neg hexec] at h
      exact absurd h (by decide)
    · rintro ⟨i, hi, hscan', hexec⟩
      have him : i = m := scannedName_injective hw hi hm (hscan'.symm.trans hscan)
      rw [if_pos (him ▸ hexec)]
      rfl
  · rw [checkExecutable_of_missing hnone]
    constructor
    · intro h
      exact absurd h (by decide)
    · rintro ⟨i, hi, hscan, -⟩
      exact absurd hscan (hno i hi)

/-- **The words that are accepted are the names of the regular files that are executable**, except
where an entry misleads. -/
theorem accepted_iff_regular (hw : WellFormed img) :
    ((checkExecutable img command).isSome = true ↔ RegularExecutable img (parseArg command).1) ↔
      NotMisled img (parseArg command).1 := by
  rw [checkExecutable_isSome_iff hw]
  constructor
  · intro h
    refine ⟨fun i hi hexec hu hname => ?_, fun i hi hexec hu => ⟨fun hlong => ?_, ?_⟩⟩
    · -- the entry is accepted, so it is the regular file of that name
      have hscan := scannedName_of_terminated hw hi hu
      obtain ⟨j, hj, hname', hftype, -⟩ := h.1 ⟨i, hi, hname.trans hscan.symm, hexec⟩
      rwa [hw.distinct i hi j hj (hname.symm.trans hname')]
    · -- a word that is accepted has the length of a name
      have hscan := scannedName_of_unterminated hw hi hu
      obtain ⟨j, -, hname', -, -⟩ := h.1 ⟨i, hi, hlong.trans hscan.symm, hexec⟩
      exact entryName_ne_scannedName hw hi hu j (hname'.symm.trans (hlong.trans hscan.symm))
    · intro hname hftype
      obtain ⟨j, hj, hscan, -⟩ := h.2 ⟨i, hi, hname, hftype, hexec⟩
      by_cases huj : Unterminated img j
      · exact entryName_ne_scannedName hw hj huj i (hname.symm.trans hscan)
      · rw [scannedName_of_terminated hw hj huj] at hscan
        have hij := hw.distinct i hi j hj (hname.symm.trans hscan)
        exact huj (hij ▸ hu)
  · intro h
    constructor
    · rintro ⟨i, hi, hscan, hexec⟩
      by_cases hu : Unterminated img i
      · rw [scannedName_of_unterminated hw hi hu] at hscan
        exact absurd hscan (h.unterminated i hi hexec hu).1
      · rw [scannedName_of_terminated hw hi hu] at hscan
        exact ⟨i, hi, hscan, h.terminated i hi hexec hu hscan, hexec⟩
    · rintro ⟨i, hi, hname, hftype, hexec⟩
      have hu : ¬ Unterminated img i := fun hu =>
        (h.unterminated i hi hexec hu).2 hname hftype
      exact ⟨i, hi, hname.trans (scannedName_of_terminated hw hi hu).symm, hexec⟩

/-- The words whose file is too long for the page. -/
theorem loadFaults_iff (hw : WellFormed img) :
    LoadFaults img command ↔
      ∃ i < dirEntriesCnt img, (parseArg command).1.bytes = scannedName img i ∧
        Executable img (entryInode img i) ∧ loadRoom < inodeLength img (entryInode img i) := by
  rcases readDentryByName_spec hw.entries (parseArg command).1 with
    ⟨m, hm, hscan, hfound⟩ | ⟨hno, hnone⟩
  · have hinode : Dentry.inode (copy (fun _ => 0) (dentryAt img m) bytesDentry) =
        entryInode img m := inode_copy _ _
    rw [LoadFaults, checkExecutable_of_found hfound]
    constructor
    · rintro ⟨x, hx, hlong⟩
      obtain ⟨hexec, hx⟩ := Option.ite_none_right_eq_some.1 hx
      rw [← Option.some.inj hx, hinode] at hlong
      exact ⟨m, hm, hscan, hexec, hlong⟩
    · rintro ⟨i, hi, hscan', hexec, hlong⟩
      obtain rfl : i = m := scannedName_injective hw hi hm (hscan'.symm.trans hscan)
      rw [if_pos hexec]
      exact ⟨_, rfl, by rwa [hinode]⟩
  · rw [LoadFaults, checkExecutable_of_missing hnone]
    constructor
    · rintro ⟨x, hx, -⟩
      exact absurd hx (by simp)
    · rintro ⟨i, hi, hscan, -⟩
      exact absurd hscan (hno i hi)

/-- Where no entry misleads, the files that are accepted are those that are meant. -/
theorem imageFits_iff (hw : WellFormed img) (hnot : NotMisled img (parseArg command).1) :
    ImageFits img (parseArg command).1 ↔ ¬ LoadFaults img command := by
  rw [loadFaults_iff hw]
  constructor
  · rintro hfits ⟨i, hi, hscan, hexec, hlong⟩
    by_cases hu : Unterminated img i
    · rw [scannedName_of_unterminated hw hi hu] at hscan
      exact (hnot.unterminated i hi hexec hu).1 hscan
    · rw [scannedName_of_terminated hw hi hu] at hscan
      exact not_le.2 hlong (hfits i hi hscan (hnot.terminated i hi hexec hu hscan) hexec)
  · intro hno i hi hname hftype hexec
    by_contra hlong
    have hu : ¬ Unterminated img i := fun hu => (hnot.unterminated i hi hexec hu).2 hname hftype
    exact hno ⟨i, hi, hname.trans (scannedName_of_terminated hw hi hu).symm, hexec, not_le.1 hlong⟩

end Lookup

end LinuxIsLove
