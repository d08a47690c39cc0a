import LinuxIsLove.TextIsolation

/-!
# What `vidmap` touches

`vidmap` stores the address of the text page through a pointer of the caller and makes one directory
entry present.  Through that entry the caller then reaches one 4 KB page more, and no other address
leads elsewhere than before (`mapsTextPage`).

The range check looks at the first byte of the pointer only, and four bytes are stored: they stay in
the page of the program unless the pointer is one of its last three addresses
(`vidmapInside_iff`).  With such a pointer the first call of a process ends in a page fault, for
nothing is mapped behind the page yet (`vidmap_faults`), and a later one stores to the text page.
-/

namespace LinuxIsLove

open Bytes PageWalk

/-- The address lies on the page that `vidmap` shows. -/
def OnVidmemPage (va : Word) : Prop :=
  progVidmemAddr ≤ va.toNat ∧ va.toNat < progVidmemAddr + pageSize

/-- The page at 0x8400000 leads to the text page of a terminal, for the user and for the kernel, and
no other address leads elsewhere than before. -/
structure MapsTextPage (L : Layout) (pd pd' : Table) (t : ℕ) : Prop where
  user : ∀ va, OnVidmemPage va → (userTranslate (pageTables L) pd' va).map BitVec.toNat =
    some (video + pageSize * t + va.toNat % pageSize)
  kernel : ∀ va, OnVidmemPage va → (PageWalk.translate (pageTables L) pd' va).map BitVec.toNat =
    some (video + pageSize * t + va.toNat % pageSize)
  user_rest : ∀ va, ¬ OnVidmemPage va →
    userTranslate (pageTables L) pd' va = userTranslate (pageTables L) pd va
  kernel_rest : ∀ va, ¬ OnVidmemPage va →
    PageWalk.translate (pageTables L) pd' va = PageWalk.translate (pageTables L) pd va

/-- The pointer lies in the page of the program and holds the address of the text page, and the
directory of the caller shows that page; nothing else has changed, nor does it with another call. -/
structure ShowsScreen (E : Env) (k : Kernel) (screenStart : ℕ) (k' : Kernel) : Prop where
  inside : ∀ i < wordSize, InPage (screenStart + i)
  pointer : word32 k'.mem screenStart = progVidmemAddr
  mem_rest : ∀ a, ¬ (screenStart ≤ a ∧ a < screenStart + wordSize) → k'.mem a = k.mem a
  maps : MapsTextPage E.layout (k.pd k.current.pd) (k'.pd k.current.pd) k.current.termNum.toNat
  others : ∀ p, p ≠ k.running → k'.userMem p = k.userMem p ∧ k'.pd p = k.pd p
  rest : { k' with userMem := k.userMem, pd := k.pd, vidmapped := k.vidmapped } = k
  again : vidmap E screenStart k' = some ((progVidmemAddr : ℤ), k')

/-- A call of `vidmap` is refused without any effect, or does what it is for. -/
def VidmapInside (E : Env) (k : Kernel) (screenStart : ℕ) : Prop :=
  vidmap E screenStart k = some (-1, k) ∨
    ∃ k', vidmap E screenStart k = some ((progVidmemAddr : ℤ), k') ∧ ShowsScreen E k screenStart k'

/-! ### The page walk -/

section Walk

variable {L : Layout} {pd pd' : Table} {pid t : ℕ} {va : Word} {mapped : Bool}

theorem onVidmemPage_iff (va : Word) :
    OnVidmemPage va ↔ dirIndex va = 33 ∧ tableIndex va = 0 := by
  rw [OnVidmemPage, dirIndex_eq, tableIndex_eq]
  simp only [progVidmemAddr, pageSize]
  omega

/-- The table has one entry, which is open to the user. -/
theorem ptUserVidmem_flags (ht : t < maxTerminals) (i : ℕ) :
    present (ptUserVidmem t i) = decide (i = 0) ∧
      userAccess (ptUserVidmem t i) = decide (i = 0) := by
  have hindex : pteIndex progVidmemAddr = 0 := by decide
  have hentry : ∀ t < maxTerminals,
      present (pageEntry (video + t * pageSize) (flagWE ||| flagU ||| flagP)) = true ∧
        userAccess (pageEntry (video + t * pageSize) (flagWE ||| flagU ||| flagP)) = true := by
    decide
  rw [ptUserVidmem, hindex]
  by_cases hi : i = 0
  · rw [hi, Function.update_self]
    exact hentry t ht
  · rw [Function.update_of_ne hi]
    simp [hi, present, userAccess]

theorem flags_shown : present (processPd L pid t true 33) = true ∧
    userAccess (processPd L pid t true 33) = true := by
  have haligned : Aligned (tableAddr L.ptUserVidmem t) :=
    tableAddr_aligned L.ptUserVidmem_aligned
  rw [processPd_textPage, present, userAccess, getLsbD_or_of_aligned haligned (by omega),
    getLsbD_or_of_aligned haligned (by omega)]
  decide

/-- Where the entry 33 leads once it is present. -/
theorem translate_shown (ht : t < maxTerminals) (hpd : pd 33 = processPd L pid t true 33)
    (hdir : dirIndex va = 33) :
    userTranslate (pageTables L) pd va = PageWalk.translate (pageTables L) pd va ∧
      (PageWalk.translate (pageTables L) pd va).map BitVec.toNat =
        if tableIndex va = 0 then some (video + pageSize * t + va.toNat % pageSize) else none := by
  have hlarge : largePage (processPd L pid t true 33) = false := largePage_vidmem true
  obtain ⟨hpresent, huser⟩ : present (processPd L pid t true 33) = true ∧
      userAccess (processPd L pid t true 33) = true := flags_shown
  obtain ⟨hpte, hpteUser⟩ := ptUserVidmem_flags ht (tableIndex va)
  simp only [userTranslate, PageWalk.translate, hdir, hpd, hpresent, huser, hlarge, hpte, hpteUser,
    pageTables_vidmap ht, Bool.and_self, if_true, Bool.false_eq_true, if_false, decide_eq_true_eq,
    true_and]
  split_ifs with htable
  · have hpresentPte : present (ptUserVidmem t (tableIndex va)) = true := by
      rw [hpte, htable]
      rfl
    rw [Option.map_some, ptUserVidmem_page ht hpresentPte]
    rfl
  · rfl

/-- Until then it leads nowhere. -/
theorem translate_hidden (hpd : pd 33 = processPd L pid t false 33) (hdir : dirIndex va = 33) :
    userTranslate (pageTables L) pd va = none ∧ PageWalk.translate (pageTables L) pd va = none := by
  have hpresent : present (processPd L pid t false 33) = false := by
    by_contra hp
    exact absurd (mapped_of_present (by simpa using hp)) (by decide)
  simp only [userTranslate, PageWalk.translate, hdir, hpd, hpresent, Bool.false_and,
    Bool.false_eq_true, if_false, and_self]

/-- **The entry that `vidmap` changes shows one page more.** -/
theorem mapsTextPage (ht : t < maxTerminals) (hpd : pd 33 = processPd L pid t mapped 33)
    (hpd' : pd' 33 = processPd L pid t true 33) (hrest : ∀ i, i ≠ 33 → pd' i = pd i) :
    MapsTextPage L pd pd' t := by
  -- behind the entry 33, another address than those of the page led nowhere and leads nowhere
  have hbehind : ∀ va, ¬ OnVidmemPage va → dirIndex va = 33 →
      userTranslate (pageTables L) pd' va = userTranslate (pageTables L) pd va ∧
        PageWalk.translate (pageTables L) pd' va = PageWalk.translate (pageTables L) pd va := by
    intro va hva hdir
    have htable : tableIndex va ≠ 0 := fun h0 => hva ((onVidmemPage_iff va).2 ⟨hdir, h0⟩)
    cases mapped with
    | true =>
      have hsame : pd' (dirIndex va) = pd (dirIndex va) := by rw [hdir, hpd', hpd]
      exact ⟨userTranslate_congr hsame, translate_congr hsame⟩
    | false =>
      obtain ⟨hu, hk⟩ := translate_hidden hpd hdir
      obtain ⟨hu', hk'⟩ := translate_shown ht hpd' hdir
      rw [if_neg htable, Option.map_eq_none_iff] at hk'
      exact ⟨by rw [hu', hk', hu], by rw [hk', hk]⟩
  refine ⟨fun va hva => ?_, fun va hva => ?_, fun va hva => ?_, fun va hva => ?_⟩
  · obtain ⟨hdir, htable⟩ := (onVidmemPage_iff va).1 hva
    obtain ⟨hu, hk⟩ := translate_shown ht hpd' hdir
    rw [hu, hk, if_pos htable]
  · obtain ⟨hdir, htable⟩ := (onVidmemPage_iff va).1 hva
    rw [(translate_shown ht hpd' hdir).2, if_pos htable]
  · by_cases hdir : dirIndex va = 33
    · exact (hbehind va hva hdir).1
    · exact userTranslate_congr (hrest _ hdir)
  · by_cases hdir : dirIndex va = 33
    · exact (hbehind va hva hdir).2
    · exact translate_congr (hrest _ hdir)

end Walk

/-! ### The call -/

section Call

variable {E : Env} {k : Kernel} {screenStart : ℕ}

theorem wordStored_of_lt (m : Memory) (p w : ℕ) {i : ℕ} (hi : i < wordSize) :
    wordStored m p w (p + i) = UInt8.ofNat (w / 2 ^ (8 * i) % 2 ^ 8) := by
  rw [wordStored, if_pos ⟨Nat.le_add_right _ _, Nat.add_lt_add_left hi _⟩,
    Nat.add_sub_cancel_left]

/-- The stored word is read back. -/
theorem word32_wordStored (m : Memory) (p : ℕ) {w : ℕ} (hw : w < 2 ^ 32) :
    word32 (wordStored m p w) p = w := by
  have h0 := wordStored_of_lt m p w (show 0 < wordSize by decide)
  rw [Nat.add_zero] at h0
  rw [word32, h0, wordStored_of_lt m p w (by decide), wordStored_of_lt m p w (by decide),
    wordStored_of_lt m p w (by decide)]
  simp only [UInt8.toNat_ofNat']
  omega

theorem wordStored_idem (m : Memory) (p w : ℕ) :
    wordStored (wordStored m p w) p w = wordStored m p w := by
  funext a
  unfold wordStored
  split_ifs <;> rfl

/-- A second call stores the same word and sets the same flag. -/
theorem screenShown_idem (screenStart : ℕ) (k : Kernel) :
    screenShown screenStart (screenShown screenStart k) = screenShown screenStart k := by
  have hmem : (screenShown screenStart k).mem = wordStored k.mem screenStart progVidmemAddr :=
    Function.update_self ..
  have hpd : (screenShown screenStart k).pd k.current.pd =
      setPdeFlags (k.pd k.current.pd) (BitVec.ofNat 32 progVidmemAddr) flagP :=
    Function.update_self ..
  have hflags : setPdeFlags (setPdeFlags (k.pd k.current.pd) (BitVec.ofNat 32 progVidmemAddr) flagP)
      (BitVec.ofNat 32 progVidmemAddr) flagP =
      setPdeFlags (k.pd k.current.pd) (BitVec.ofNat 32 progVidmemAddr) flagP := by
    simp only [setPdeFlags, Function.update_self, Function.update_idem, BitVec.or_assoc,
      BitVec.or_self]
  show ({ screenShown screenStart k with
    userMem := Function.update (screenShown screenStart k).userMem k.running
      (wordStored (screenShown screenStart k).mem screenStart progVidmemAddr)
    pd := Function.update (screenShown screenStart k).pd k.current.pd
      (setPdeFlags ((screenShown screenStart k).pd k.current.pd)
        (BitVec.ofNat 32 progVidmemAddr) flagP)
    vidmapped :=
      Function.update (screenShown screenStart k).vidmapped k.running true } : Kernel) = _
  rw [hmem, hpd, wordStored_idem, hflags]
  simp only [screenShown, Function.update_idem]

/-- What an accepted call does to a pointer that lies in the page as a whole. -/
theorem showsScreen (hk : Reachable E k) (hr : k.running ≠ 0) (hno : ¬ vidmapRefuses screenStart)
    (hin : ∀ i < wordSize, InPage (screenStart + i)) :
    ShowsScreen E k screenStart (screenShown screenStart k) := by
  have hwf := wf_reachable hk
  have hok := hwf.current_ok hr
  have hpaged := paged_reachable hk k.running (hwf.running_used hr)
  have hcur : k.current.pd = k.running := hok.pd
  have hterm : k.current.termNum.toNat < maxTerminals := by
    have := hok.term
    simp only [Kernel.current]
    omega
  have hmem : (screenShown screenStart k).mem = wordStored k.mem screenStart progVidmemAddr :=
    Function.update_self ..
  have hpd : (screenShown screenStart k).pd k.current.pd =
      setPdeFlags (k.pd k.current.pd) (BitVec.ofNat 32 progVidmemAddr) flagP :=
    Function.update_self ..
  have h33 : dirIndex (BitVec.ofNat 32 progVidmemAddr) = 33 := by decide
  refine ⟨hin, ?_, fun a ha => ?_, ?_, fun p hp => ⟨?_, ?_⟩, rfl, ?_⟩
  · rw [hmem, word32_wordStored _ _ (by decide)]
  · rw [hmem, wordStored, if_neg ha]
  · have hold : k.pd k.current.pd 33 = processPd E.layout k.running k.current.termNum.toNat
        (k.vidmapped k.running) 33 := by
      rw [hcur]
      exact hpaged 33 (by decide)
    refine mapsTextPage hterm hold ?_ ?_
    · rw [hpd, hcur]
      exact setPdeFlags_processPd hpaged (by decide)
    · intro i hi
      rw [hpd, setPdeFlags, h33, Function.update_of_ne hi]
  · exact Function.update_of_ne hp ..
  · exact Function.update_of_ne (by rwa [hcur]) ..
  · rw [vidmap_inPage hno hin, screenShown_idem]

/-- The addresses at which a 32-bit word is cut off by the end of the page of the program. -/
def CutOff (screenStart : ℕ) : Prop :=
  progVmStart + space4MB - 3 ≤ screenStart ∧ screenStart < progVmStart + space4MB

/-- Such a pointer passes the range check. -/
theorem CutOff.accepted (hcut : CutOff screenStart) : ¬ vidmapRefuses screenStart := by
  obtain ⟨hlow, hhigh⟩ := hcut
  simp only [progVmStart, space4MB] at hlow hhigh
  rw [vidmapRefuses_iff (by omega)]
  simp only [InPage, progVmStart, space4MB]
  omega

theorem CutOff.outside (hcut : CutOff screenStart) : ¬ InPage (screenStart + 3) := by
  have hlow := hcut.1
  simp only [InPage, progVmStart, space4MB] at hlow ⊢
  omega

theorem CutOff.not_inside (hcut : CutOff screenStart) : ¬ VidmapInside E k screenStart := by
  rintro (hfail | ⟨k', -, hshows⟩)
  · rw [vidmap, if_neg hcut.accepted] at hfail
    obtain ⟨k', -, hret⟩ := Option.map_eq_some_iff.1 hfail
    have hresult : (progVidmemAddr : ℤ) = -1 := congrArg Prod.fst hret
    exact absurd hresult (by decide)
  · exact hcut.outside (hshows.inside 3 (by decide))

/-- **`vidmap` touches only what it may** unless the pointer is one of the last three addresses of
the page of the program. -/
theorem vidmapInside_iff (hk : Reachable E k) (hr : k.running ≠ 0) (h32 : screenStart < 2 ^ 32) :
    VidmapInside E k screenStart ↔ ¬ CutOff screenStart := by
  refine ⟨fun h hcut => hcut.not_inside h, fun hcut => ?_⟩
  by_cases hno : vidmapRefuses screenStart
  · exact Or.inl (if_pos hno)
  · obtain ⟨hlow, hhigh⟩ : InPage screenStart := not_not.1 (mt (vidmapRefuses_iff h32).2 hno)
    have hin : ∀ i < wordSize, InPage (screenStart + i) := by
      intro i hi
      simp only [InPage, CutOff, wordSize, progVmStart, space4MB] at hlow hhigh hcut hi ⊢
      omega
    exact Or.inr ⟨_, vidmap_inPage hno hin, showsScreen hk hr hno hin⟩

/-! ### Pointers that are cut off -/

/-- No byte that is stored changes what is loaded. -/
theorem storeByte_directory {a : ℕ} {b : UInt8} {k' : Kernel} (h : storeByte E a b k = some k') :
    directory E k' = directory E k := by
  unfold storeByte at h
  split_ifs at h
  · rw [← Option.some.inj h]
    rfl
  · obtain ⟨pa, -, rfl⟩ := Option.map_eq_some_iff.1 h
    rfl

/-- A store faults if one of its bytes does. -/
theorem storeBytes_fault {p w i : ℕ} (hout : ¬ InPage (p + i))
    (hfault : PageWalk.translate (pageTables E.layout) (directory E k) (BitVec.ofNat 32 (p + i)) =
      none) : ∀ {l : List ℕ}, i ∈ l →
    l.foldlM (fun k i => storeByte E (p + i) (UInt8.ofNat (w / 2 ^ (8 * i) % 2 ^ 8)) k) k =
      none := by
  intro l
  induction l generalizing k with
  | nil => exact fun hi => absurd hi (by simp)
  | cons j l ih =>
    intro hi
    rw [List.foldlM_cons, Option.bind_eq_bind, Option.bind_eq_none_iff]
    intro k' hk'
    rcases List.mem_cons.1 hi with rfl | hi
    · rw [storeByte, if_neg hout, hfault] at hk'
      exact absurd hk' (by simp)
    · exact ih (by rwa [storeByte_directory hk']) hi

/-- Where the first call of a process stores behind its page, it ends in a page fault. -/
theorem vidmap_faults (hk : Reachable E k) (hr : k.running ≠ 0)
    (hfirst : k.vidmapped k.running = false) (hcut : CutOff screenStart) :
    vidmap E screenStart k = none := by
  have hpaged := paged_reachable hk k.running ((wf_reachable hk).running_used hr)
  have hdir : directory E k 33 = processPd E.layout k.running (k.pcb k.running).termNum.toNat
      false 33 := by
    rw [directory, loaded_reachable hk, if_neg hr, ← hfirst]
    exact hpaged 33 (by decide)
  have hlast : dirIndex (BitVec.ofNat 32 (screenStart + 3)) = 33 := by
    obtain ⟨hlow, hhigh⟩ := hcut
    simp only [progVmStart, space4MB] at hlow hhigh
    rw [dirIndex_eq, BitVec.toNat_ofNat]
    omega
  have hstore : storeWord E screenStart progVidmemAddr k = none :=
    storeBytes_fault hcut.outside (translate_hidden hdir hlast).2 (List.mem_range.2 (by decide))
  rw [vidmap, if_neg hcut.accepted, hstore]
  rfl

end Call

theorem vidmapInside_iff_shell : VidmapInside small (smallState [.key 0]) 0x8000000 ↔
    ¬ CutOff 0x8000000 :=
  vidmapInside_iff (smallState_reachable (by decide +kernel)) (by decide +kernel) (by decide)

/-- The first shell of the small machine, once it has called `vidmap`. -/
def screenMapped : Kernel := smallState [.key 0, .vidmap 0x8000000]

/-- A pointer at the last byte of the page passes the check: a first call of the shell ends in a
page fault, and a later one stores three bytes to the text page of its terminal. -/
theorem lastByte_leaves_page :
    vidmap small 0x83FFFFF (smallState [.key 0]) = none ∧
      (∃ k', vidmap small 0x83FFFFF screenMapped = some ((progVidmemAddr : ℤ), k') ∧
        screenMapped.text 0xB8002 = 0 ∧ k'.text 0xB8002 = 8) ∧
      ¬ VidmapInside small (smallState [.key 0]) 0x83FFFFF ∧
      ¬ VidmapInside small screenMapped 0x83FFFFF := by
  have hcut : CutOff 0x83FFFFF := by simp [CutOff, progVmStart, space4MB]
  have hfirst : (vidmap small 0x83FFFFF (smallState [.key 0])).isNone = true := by decide +kernel
  have hlater : ((vidmap small 0x83FFFFF screenMapped).map fun r => (r.1, r.2.text 0xB8002)) =
      some (0x8400000, 8) := by decide +kernel
  obtain ⟨⟨r, k'⟩, hmap, hret⟩ := Option.map_eq_some_iff.1 hlater
  obtain ⟨rfl, htext⟩ := Prod.mk.inj hret
  exact ⟨Option.isNone_iff_eq_none.1 hfirst, ⟨k', hmap, by decide +kernel, htext⟩,
    hcut.not_inside, hcut.not_inside⟩

end LinuxIsLove
