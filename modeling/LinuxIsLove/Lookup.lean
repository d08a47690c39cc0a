import LinuxIsLove.Source.Fs

/-!
# Directory lookup by name

The name field of a directory entry has 32 bytes and no terminator behind it, so `strlen` runs on
into the type of the entry when the name fills the field.  `scannedName` is the name that the
lookup works with: `readDentryByName_spec` says that the first entry with that name is found, for
every image.  In a well-formed image the scanned name is the entry's own, except for an entry of
nonzero type whose name has 32 bytes: there the byte of the type is appended.
-/

namespace LinuxIsLove

open Bytes

/-- The directory entry `i`. -/
def dentryAt (img : Image) (i : ℕ) : Dentry := window img (dentryOffset i)

/-- The name in the directory entry `i`. -/
def entryName (img : Image) (i : ℕ) : List UInt8 := nulBounded (dentryAt img i) fnameLen 0

/-- The directory of a well-formed image. -/
structure WellFormed (img : Image) : Prop where
  entries : dirEntriesCnt img ≤ numInodes
  name_nonempty : ∀ i < dirEntriesCnt img, entryName img i ≠ []
  padded : ∀ i < dirEntriesCnt img, ∀ j < fnameLen, (entryName img i).length ≤ j →
    dentryAt img i j = 0
  distinct : ∀ i < dirEntriesCnt img, ∀ j < dirEntriesCnt img,
    entryName img i = entryName img j → i = j
  types : ∀ i < dirEntriesCnt img, Dentry.ftype (dentryAt img i) ≤ fileFtype

/-! ### The name that the lookup sees -/

/-- The bytes of an entry up to the first NUL, wherever it stands. -/
def scannedName (img : Image) (i : ℕ) : List UInt8 :=
  (List.range (strlen (dentryAt img i) 0)).map (dentryAt img i)

/-- The test that the lookup makes of an entry. -/
theorem matches_iff (img : Image) (s : CString) (i : ℕ) :
    (strlen s.mem 0 = strlen (dentryAt img i) 0 ∧
        strncmp s.mem (dentryAt img i) (strlen (dentryAt img i) 0) = 0) ↔
      s.bytes = scannedName img i := by
  rw [scannedName, CString.bytes_eq_map, strlen_mem]
  refine and_congr_right fun hlen => strncmp_eq_zero fun j hj => ?_
  exact s.mem_ne_zero (by omega)

theorem readDentryByNameLoop_of_match {img : Image} {s : CString} {dentry : Dentry} {i : ℕ}
    (h : s.bytes = scannedName img i) (n : ℕ) :
    readDentryByNameLoop img s dentry (n + 1) i =
      (0, copy dentry (dentryAt img i) bytesDentry) := by
  rw [readDentryByNameLoop]
  exact if_pos ((matches_iff img s i).2 h)

theorem readDentryByNameLoop_of_mismatch {img : Image} {s : CString} {dentry : Dentry} {i : ℕ}
    (h : s.bytes ≠ scannedName img i) (n : ℕ) :
    readDentryByNameLoop img s dentry (n + 1) i =
      readDentryByNameLoop img s dentry n (i + 1) := by
  rw [readDentryByNameLoop]
  exact if_neg (mt (matches_iff img s i).1 h)

/-- The scan finds the first matching entry. -/
theorem readDentryByNameLoop_found {img : Image} {s : CString} {dentry : Dentry} {i m : ℕ}
    (him : i ≤ m) (hm : s.bytes = scannedName img m)
    (hfirst : ∀ j, i ≤ j → j < m → s.bytes ≠ scannedName img j) {n : ℕ} (hn : m < i + n) :
    readDentryByNameLoop img s dentry n i = (0, copy dentry (dentryAt img m) bytesDentry) := by
  induction n generalizing i with
  | zero => omega
  | succ n ih =>
    by_cases hi : i = m
    · subst hi
      exact readDentryByNameLoop_of_match hm n
    · rw [readDentryByNameLoop_of_mismatch (hfirst i le_rfl (by omega))]
      exact ih (by omega) (fun j hj => hfirst j (by omega)) (by omega)

theorem readDentryByNameLoop_none {img : Image} {s : CString} {dentry : Dentry} {n i : ℕ}
    (h : ∀ j, i ≤ j → j < i + n → s.bytes ≠ scannedName img j) :
    readDentryByNameLoop img s dentry n i = (-1, dentry) := by
  induction n generalizing i with
  | zero => rfl
  | succ n ih =>
    rw [readDentryByNameLoop_of_mismatch (h i le_rfl (by omega))]
    exact ih fun j hj hj' => h j (by omega) (by omega)

theorem readDentryByNameLoop_cases (img : Image) (s : CString) (n i : ℕ) :
    (∃ m, i ≤ m ∧ m < i + n ∧ ∀ dentry, readDentryByNameLoop img s dentry n i =
        (0, copy dentry (dentryAt img m) bytesDentry)) ∨
      ∀ dentry, readDentryByNameLoop img s dentry n i = (-1, dentry) := by
  induction n generalizing i with
  | zero => exact Or.inr fun _ => rfl
  | succ n ih =>
    by_cases hi : s.bytes = scannedName img i
    · exact Or.inl ⟨i, le_rfl, by omega, fun _ => readDentryByNameLoop_of_match hi n⟩
    · have hnext : ∀ dentry, readDentryByNameLoop img s dentry (n + 1) i =
          readDentryByNameLoop img s dentry n (i + 1) :=
        fun _ => readDentryByNameLoop_of_mismatch hi n
      simp only [hnext]
      rcases ih (i + 1) with ⟨m, him, hm, hfound⟩ | hnone
      · exact Or.inl ⟨m, by omega, by omega, hfound⟩
      · exact Or.inr hnone

/-- In any image, what the lookup finds is an entry of the directory; which one does not depend on
where it is copied to. -/
theorem readDentryByName_cases (img : Image) (s : CString) :
    (∃ m < dirEntriesCnt img, ∀ dentry,
        readDentryByName img s dentry = (0, copy dentry (dentryAt img m) bytesDentry)) ∨
      ∀ dentry, readDentryByName img s dentry = (-1, dentry) := by
  have hbound : (s32 (dirEntriesCnt img)).toNat ≤ dirEntriesCnt img := by
    simp only [s32]
    split_ifs <;> omega
  rcases readDentryByNameLoop_cases img s (s32 (dirEntriesCnt img)).toNat 0 with
    ⟨m, -, hm, hfound⟩ | hnone
  · exact Or.inl ⟨m, by omega, hfound⟩
  · exact Or.inr hnone

/-- The type and the inode of an entry that was copied. -/
theorem ftype_copy (d src : Dentry) : Dentry.ftype (copy d src bytesDentry) = Dentry.ftype src :=
  word32_congr fun i hi => copy_of_lt (by simp only [bytesDentry]; omega)

theorem inode_copy (d src : Dentry) : Dentry.inode (copy d src bytesDentry) = Dentry.inode src :=
  word32_congr fun i hi => copy_of_lt (by simp only [bytesDentry]; omega)

/-- The lookup copies the first entry whose scanned name is the string, or copies nothing. -/
theorem readDentryByName_spec {img : Image} (hcnt : dirEntriesCnt img ≤ numInodes)
    (s : CString) :
    (∃ m < dirEntriesCnt img, s.bytes = scannedName img m ∧ ∀ dentry,
        readDentryByName img s dentry = (0, copy dentry (dentryAt img m) bytesDentry)) ∨
      ((∀ i < dirEntriesCnt img, s.bytes ≠ scannedName img i) ∧
        ∀ dentry, readDentryByName img s dentry = (-1, dentry)) := by
  have hbound : (s32 (dirEntriesCnt img)).toNat = dirEntriesCnt img := by
    rw [s32_of_lt (lt_of_le_of_lt hcnt (by decide)), Int.toNat_natCast]
  simp only [readDentryByName, hbound]
  by_cases hex : ∃ m < dirEntriesCnt img, s.bytes = scannedName img m
  · left
    classical
    have hleast := Nat.find_spec hex
    refine ⟨Nat.find hex, hleast.1, hleast.2, fun dentry => ?_⟩
    refine readDentryByNameLoop_found (Nat.zero_le _) hleast.2 (fun j _ hj heq => ?_) (by omega)
    exact Nat.find_min hex hj ⟨lt_trans hj hleast.1, heq⟩
  · right
    have hno : ∀ i < dirEntriesCnt img, s.bytes ≠ scannedName img i := fun i hi heq =>
      hex ⟨i, hi, heq⟩
    exact ⟨hno, fun dentry => readDentryByNameLoop_none fun j _ hj => hno j (by omega)⟩

/-! ### Scanned names in a well-formed image -/

section WellFormed

variable {img : Image} {i : ℕ}

theorem entryName_length_le (img : Image) (i : ℕ) : (entryName img i).length ≤ fnameLen :=
  nulBounded_length_le _ _ _

/-- The name of an entry as the first bytes of the entry. -/
theorem entryName_eq_map (img : Image) (i : ℕ) :
    entryName img i = (List.range (entryName img i).length).map (dentryAt img i) := by
  refine List.ext_getElem (by simp) fun j hj _ => ?_
  have h := (nulBounded_getElem (m := dentryAt img i) (n := fnameLen) (p := 0) (j := j) hj).1
  rw [Nat.zero_add] at h
  rw [List.getElem_map, List.getElem_range]
  exact h

theorem entryName_ne_zero {j : ℕ} (hj : j < (entryName img i).length) : dentryAt img i j ≠ 0 := by
  have h := (nulBounded_getElem (m := dentryAt img i) (n := fnameLen) (p := 0) (j := j) hj).2
  rwa [Nat.zero_add] at h

/-- The bytes of the type of an entry in a well-formed image. -/
theorem typeBytes (hw : WellFormed img) (hi : i < dirEntriesCnt img) :
    (dentryAt img i 32).toNat = Dentry.ftype (dentryAt img i) ∧ dentryAt img i 33 = 0 := by
  have htype := hw.types i hi
  have h0 := (dentryAt img i 32).toNat_lt
  have h1 := (dentryAt img i 33).toNat_lt
  simp only [Dentry.ftype, word32, fileFtype, Nat.reduceAdd] at htype ⊢
  refine ⟨by omega, UInt8.toNat.inj ?_⟩
  rw [UInt8.toNat_zero]
  omega

/-- An entry whose name fills the field, so that the byte of the type follows directly. -/
def Unterminated (img : Image) (i : ℕ) : Prop :=
  (entryName img i).length = fnameLen ∧ Dentry.ftype (dentryAt img i) ≠ rtcFtype

theorem scannedName_of_unterminated (hw : WellFormed img) (hi : i < dirEntriesCnt img)
    (hu : Unterminated img i) : scannedName img i = entryName img i ++ [dentryAt img i 32] := by
  obtain ⟨hlen, hftype⟩ := hu
  obtain ⟨h32, h33⟩ := typeBytes hw hi
  have hscan : strlen (dentryAt img i) 0 = 33 := by
    refine strlen_eq (by decide) (fun j hj => ?_) h33
    rw [Nat.zero_add]
    by_cases hj32 : j < fnameLen
    · exact entryName_ne_zero (by omega)
    · have hj : j = 32 := by
        simp only [fnameLen] at hj32
        omega
      subst hj
      intro hz
      rw [hz, UInt8.toNat_zero] at h32
      exact hftype h32.symm
  have hname := entryName_eq_map img i
  rw [hlen] at hname
  rw [scannedName, hscan, hname, List.range_succ, List.map_append]
  rfl

theorem scannedName_of_terminated (hw : WellFormed img) (hi : i < dirEntriesCnt img)
    (hu : ¬ Unterminated img i) : scannedName img i = entryName img i := by
  have hle := entryName_length_le img i
  have hend : dentryAt img i (entryName img i).length = 0 := by
    by_cases hlen : (entryName img i).length = fnameLen
    · -- the name fills the field and the type is zero
      have hftype : Dentry.ftype (dentryAt img i) = rtcFtype := by
        by_contra hne
        exact hu ⟨hlen, hne⟩
      have h32 := (typeBytes hw hi).1
      rw [hlen]
      exact UInt8.toNat.inj (h32.trans hftype)
    · exact hw.padded i hi _ (by omega) le_rfl
  have hscan : strlen (dentryAt img i) 0 = (entryName img i).length := by
    refine strlen_eq (by simp only [fnameLen] at hle; omega) (fun j hj => ?_) ?_
    · rw [Nat.zero_add]
      exact entryName_ne_zero hj
    · rwa [Nat.zero_add]
  rw [scannedName, hscan]
  exact (entryName_eq_map img i).symm

/-- The scanned name of an entry that runs into its type is longer than any name. -/
theorem entryName_ne_scannedName (hw : WellFormed img) (hi : i < dirEntriesCnt img)
    (hu : Unterminated img i) (f : ℕ) : entryName img f ≠ scannedName img i := by
  intro h
  have hlen := congrArg List.length h
  have hle := entryName_length_le img f
  rw [scannedName_of_unterminated hw hi hu, List.length_append, hu.1, List.length_singleton] at hlen
  omega

/-- Different entries have different scanned names. -/
theorem scannedName_injective (hw : WellFormed img) (hi : i < dirEntriesCnt img) {j : ℕ}
    (hj : j < dirEntriesCnt img) (h : scannedName img i = scannedName img j) : i = j := by
  by_cases hui : Unterminated img i
  · by_cases huj : Unterminated img j
    · rw [scannedName_of_unterminated hw hi hui, scannedName_of_unterminated hw hj huj] at h
      exact hw.distinct i hi j hj (List.append_inj_left' h rfl)
    · rw [scannedName_of_terminated hw hj huj] at h
      exact absurd h.symm (entryName_ne_scannedName hw hi hui j)
  · rw [scannedName_of_terminated hw hi hui] at h
    by_cases huj : Unterminated img j
    · exact absurd h (entryName_ne_scannedName hw hj huj i)
    · rw [scannedName_of_terminated hw hj huj] at h
      exact hw.distinct i hi j hj h

/-- The name of an entry agrees with the copy that the lookup makes of it. -/
theorem entryName_of_copy {dentry : Dentry} {j : ℕ}
    (h : copy dentry (dentryAt img i) bytesDentry = copy dentry (dentryAt img j) bytesDentry) :
    entryName img i = entryName img j := by
  have hbytes : ∀ m < bytesDentry, dentryAt img i m = dentryAt img j m := by
    intro m hm
    have := congrFun h m
    rwa [copy_of_lt hm, copy_of_lt hm] at this
  have hcongr : ∀ n p, p + n ≤ bytesDentry →
      nulBounded (dentryAt img i) n p = nulBounded (dentryAt img j) n p := by
    intro n
    induction n with
    | zero => intro p _; rfl
    | succ n ih =>
      intro p hp
      rw [nulBounded, nulBounded, hbytes p (by omega), ih (p + 1) (by omega)]
  exact hcongr fnameLen 0 (by decide)

end WellFormed

/-! ### Exactness -/

/-- The lookup of `s` finds exactly the entry with the name `s`. -/
def LookupExact (img : Image) (s : CString) : Prop :=
  ∀ dentry : Dentry,
    (∀ i < dirEntriesCnt img,
      readDentryByName img s dentry = (0, copy dentry (dentryAt img i) bytesDentry) ↔
        s.bytes = entryName img i) ∧
      ((∀ i < dirEntriesCnt img, s.bytes ≠ entryName img i) →
        readDentryByName img s dentry = (-1, dentry))

/-- Where the scanned names are as good as the names, the lookup is exact. -/
theorem lookupExact_of_scan {img : Image} (hw : WellFormed img) {s : CString}
    (hscan : ∀ i < dirEntriesCnt img,
      s.bytes = scannedName img i ↔ s.bytes = entryName img i) : LookupExact img s := by
  intro dentry
  rcases readDentryByName_spec hw.entries s with ⟨m, hm, hsm, hret⟩ | ⟨hno, hret⟩
  · have hname := (hscan m hm).1 hsm
    refine ⟨fun i hi => ⟨fun hi' => ?_, fun hs => ?_⟩, fun hne => absurd hname (hne m hm)⟩
    · rw [hret] at hi'
      exact hname.trans (entryName_of_copy (congrArg Prod.snd hi'))
    · have him := hw.distinct i hi m hm (hs.symm.trans hname)
      rw [hret, him]
  · refine ⟨fun i hi => ⟨fun hi' => ?_, fun hs => ?_⟩, fun _ => hret dentry⟩
    · rw [hret] at hi'
      exact absurd (congrArg Prod.fst hi') (by simp)
    · exact absurd ((hscan i hi).2 hs) (hno i hi)

/-- **Lookup by name is exact except around names that run into the type of their entry.**  An
entry of nonzero type with a name of 32 bytes is not found under its name, and is found under the
name followed by the byte of its type. -/
theorem lookupExact_iff {img : Image} (hw : WellFormed img) (s : CString) :
    LookupExact img s ↔
      ∀ i < dirEntriesCnt img, Unterminated img i →
        s.bytes ≠ entryName img i ∧ s.bytes ≠ entryName img i ++ [dentryAt img i 32] := by
  constructor
  · intro h i hi hu
    obtain ⟨hfound, hnone⟩ := h fun _ => 0
    refine ⟨fun hs => ?_, fun hs => ?_⟩
    · -- the entry's own name: the lookup must have found some scanned name of 32 bytes
      have hget := (hfound i hi).2 hs
      rcases readDentryByName_spec hw.entries s with ⟨m, hm, hsm, _⟩ | ⟨_, hret⟩
      · by_cases hum : Unterminated img m
        · exact entryName_ne_scannedName hw hm hum i (hs.symm.trans hsm)
        · rw [scannedName_of_terminated hw hm hum, hs] at hsm
          have him := hw.distinct i hi m hm hsm
          subst him
          exact hum hu
      · rw [hret] at hget
        exact absurd (congrArg Prod.fst hget) (by simp)
    · -- the name with the byte of the type: no entry has a name of 33 bytes
      have hlong : s.bytes = scannedName img i :=
        hs.trans (scannedName_of_unterminated hw hi hu).symm
      have hne : ∀ j < dirEntriesCnt img, s.bytes ≠ entryName img j := fun j _ hj =>
        entryName_ne_scannedName hw hi hu j (hj.symm.trans hlong)
      have hget := hnone hne
      rcases readDentryByName_spec hw.entries s with ⟨m, _, _, hret⟩ | ⟨hno, _⟩
      · rw [hret] at hget
        exact absurd (congrArg Prod.fst hget) (by simp)
      · exact hno i hi hlong
  · intro h
    refine lookupExact_of_scan hw fun i hi => ?_
    by_cases hu : Unterminated img i
    · rw [scannedName_of_unterminated hw hi hu]
      exact ⟨fun hs => absurd hs (h i hi hu).2, fun hs => absurd hs (h i hi hu).1⟩
    · rw [scannedName_of_terminated hw hi hu]

/-- An image with one directory entry of type 1 whose name is 32 times the letter `a`. -/
def longNameImg : Image := fun a =>
  if a = 0 ∨ a = 96 then 1 else if 64 ≤ a ∧ a < 96 then 97 else 0

/-- The name of that entry. -/
def longName : CString where
  bytes := List.replicate 32 97
  noNul := by simp
  short := by decide

theorem longNameImg_wellFormed : WellFormed longNameImg where
  entries := by decide
  name_nonempty := by decide +kernel
  padded := by decide +kernel
  distinct := by decide +kernel
  types := by decide +kernel

/-- A name that fills its field is not found. -/
theorem longName_not_exact :
    WellFormed longNameImg ∧ entryName longNameImg 0 = longName.bytes ∧
      readDentryByName longNameImg longName (fun _ => 0) ≠
        (0, copy (fun _ => 0) (dentryAt longNameImg 0) bytesDentry) ∧
      ¬ LookupExact longNameImg longName := by
  have hcnt : 0 < dirEntriesCnt longNameImg := by decide
  have hname : entryName longNameImg 0 = longName.bytes := by decide +kernel
  have hret : (readDentryByName longNameImg longName fun _ => 0).1 = -1 := by decide +kernel
  have hmiss : readDentryByName longNameImg longName (fun _ => 0) ≠
      (0, copy (fun _ => 0) (dentryAt longNameImg 0) bytesDentry) := by
    intro h
    rw [h] at hret
    exact absurd hret (by decide)
  exact ⟨longNameImg_wellFormed, hname, hmiss,
    fun h => hmiss (((h fun _ => 0).1 0 hcnt).2 hname.symm)⟩

theorem lookupExact_iff_longName :
    LookupExact longNameImg longName ↔
      ∀ i < dirEntriesCnt longNameImg, Unterminated longNameImg i →
        longName.bytes ≠ entryName longNameImg i ∧
          longName.bytes ≠ entryName longNameImg i ++ [dentryAt longNameImg i 32] :=
  lookupExact_iff longNameImg_wellFormed longName

end LinuxIsLove
