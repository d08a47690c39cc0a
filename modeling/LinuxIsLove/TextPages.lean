import LinuxIsLove.Drawing
import LinuxIsLove.Exceptions
import LinuxIsLove.LineBuffer

/-!
# Text pages

Three routines print on the screen of a terminal.  A program prints through the address of the
video memory itself, which the directory of its process maps to the text page of its terminal; the
keyboard handler and the fault handler go through a page that every directory maps to the text page
of the terminal, whichever process was interrupted.
-/

namespace LinuxIsLove

open Bytes PageWalk EventMachine

/-! ### Where an access of the kernel leads -/

section Translate

variable {L : Layout} {pd : Table} {t j o : ℕ}

/-- The terminal whose text page the page number `j` from the video memory on is mapped to. -/
def pageTerminal (t : ℕ) : ℕ → ℕ
  | 0 => t
  | j + 1 => j

/-- The entries of `pt_vidmem[t]` for the video memory and the three pages behind it. -/
theorem ptVidmem_page (ht : t < maxTerminals) (hj : j ≤ maxTerminals) :
    present (ptVidmem t (0xB8 + j)) = true ∧
      (ptVidmem t (0xB8 + j)).toNat / 2 ^ 12 * 2 ^ 12 = video + pageSize * pageTerminal t j := by
  have hall : ∀ t < maxTerminals, ∀ j < maxTerminals + 1,
      present (ptVidmem t (0xB8 + j)) = true ∧
        (ptVidmem t (0xB8 + j)).toNat / 2 ^ 12 * 2 ^ 12 =
          video + pageSize * pageTerminal t j := by decide
  exact hall t ht j (by omega)

/-- The table that the entry 0 of a directory names. -/
theorem pageTables_vidmem {flags : Word} (ht : t < maxTerminals)
    (hf : ∀ i, 12 ≤ i → flags.getLsbD i = false) :
    pageTables L (smallFrame (tableAddr L.ptVidmem t ||| flags)) = ptVidmem t := by
  have haddr := tableAddr_toNat L.ptVidmem_kernel.2 ht
  have hdisjoint := L.disjoint
  rw [smallFrame_or (tableAddr_aligned L.ptVidmem_aligned) hf, pageTables, haddr]
  have hin : L.ptVidmem ≤ L.ptVidmem + pageSize * t ∧
      L.ptVidmem + pageSize * t < L.ptVidmem + pageSize * maxTerminals := by
    simp only [pageSize, maxTerminals] at ht ⊢
    omega
  have hout : ¬ (L.ptUserVidmem ≤ L.ptVidmem + pageSize * t ∧
      L.ptVidmem + pageSize * t < L.ptUserVidmem + pageSize * maxTerminals) := by
    simp only [pageSize, maxTerminals] at ht hdisjoint ⊢
    omega
  have hindex : (L.ptVidmem + pageSize * t - L.ptVidmem) / pageSize = t := by
    simp only [pageSize]
    omega
  rw [if_neg hout, if_pos hin, hindex]

/-- **Where the kernel's accesses to text pages lead**: the video memory to the text page of the
directory's terminal, the page number `j + 1` behind it to the text page of the terminal `j`. -/
theorem translate_vidmem (hpd : pd 0 = tableAddr L.ptVidmem t ||| (flagWE ||| flagP))
    (ht : t < maxTerminals) (hj : j ≤ maxTerminals) (ho : o < pageSize) :
    (translate (pageTables L) pd (BitVec.ofNat 32 (video + pageSize * j + o))).map BitVec.toNat =
      some (video + pageSize * pageTerminal t j + o) := by
  simp only [maxTerminals, pageSize] at hj ho
  have hva : (BitVec.ofNat 32 (video + pageSize * j + o)).toNat = video + pageSize * j + o := by
    rw [BitVec.toNat_ofNat]
    simp only [video, pageSize]
    omega
  have hdir : dirIndex (BitVec.ofNat 32 (video + pageSize * j + o)) = 0 := by
    rw [dirIndex_eq, hva]
    simp only [video, pageSize]
    omega
  have htable : tableIndex (BitVec.ofNat 32 (video + pageSize * j + o)) = 0xB8 + j := by
    rw [tableIndex_eq, hva]
    simp only [video, pageSize]
    omega
  have hoffset : (video + pageSize * j + o) % 2 ^ 12 = o := by
    simp only [video, pageSize]
    omega
  have haligned : Aligned (tableAddr L.ptVidmem t) := tableAddr_aligned L.ptVidmem_aligned
  have hpresent : present (pd 0) = true := by
    rw [hpd, present, getLsbD_or_of_aligned haligned (by omega)]
    decide
  have hsmall : largePage (pd 0) = false := by
    rw [hpd, largePage, getLsbD_or_of_aligned haligned (by omega)]
    decide
  have hflags : ∀ i, 12 ≤ i → (flagWE ||| flagP).getLsbD i = false := getLsbD_flags (by decide)
  obtain ⟨hp, hframe⟩ := ptVidmem_page ht (show j ≤ maxTerminals from hj)
  simp only [PageWalk.translate, hdir, htable, hpresent, hsmall, if_true, Bool.false_eq_true,
    if_false]
  rw [hpd, pageTables_vidmem ht hflags, hp, if_pos rfl, Option.map_some, toNat_smallAddress,
    hframe, hva, hoffset]

end Translate

/-! ### Loaded directories -/

section Loaded

variable {E : Env} {k : Kernel} {p t : ℕ}

/-- The state with another directory loaded; 0 stands for the kernel's own. -/
def Kernel.load (k : Kernel) (p : ℕ) : Kernel := { k with cr3 := p }

/-- What `physical` makes of an address on a text page. -/
theorem physical_vidmem {j : ℕ}
    (hpd : directory E k 0 = tableAddr E.layout.ptVidmem t ||| (flagWE ||| flagP))
    (ht : t < maxTerminals) (hj : j ≤ maxTerminals) :
    LeadsTo (k.physical E) (video + pageSize * j) (pageTerminal t j) := by
  intro o h0 ho
  lift o to ℕ using h0
  have htr := translate_vidmem hpd ht hj (by exact_mod_cast ho)
  obtain ⟨pa, hpa, hval⟩ := Option.map_eq_some_iff.1 htr
  have haddr : ((video + pageSize * j + o : ℕ) : ℤ) = (video : ℤ) + pageSize * j + o := by
    push_cast
    rfl
  rw [← haddr, Kernel.physical, BitVec.ofInt_natCast, hpa]
  simp only [hval, pageBase]
  push_cast
  rfl

/-- The directory of the kernel itself. -/
theorem directory_boot (E : Env) (k : Kernel) :
    directory E (k.load 0) 0 = tableAddr E.layout.ptVidmem 0 ||| (flagWE ||| flagP) := by
  have h1 : dirIndex (BitVec.ofNat 32 kernelLoc) = 1 := by decide
  have h33 : dirIndex (BitVec.ofNat 32 progVidmemAddr) = 33 := by decide
  rw [directory, if_pos (show (k.load 0).cr3 = 0 from rfl), pdInit, setPde, h1, h33]
  simp [BitVec.or_assoc]

/-- The directory of a process. -/
theorem directory_process (hp : Paged E k) (hw : Wf k) (hused : Used k p) :
    directory E (k.load p) 0 =
      tableAddr E.layout.ptVidmem (k.pcb p).termNum.toNat ||| (flagWE ||| flagP) := by
  have hentry : (k.load p).pd p 0 = processPd E.layout p (k.pcb p).termNum.toNat
      (k.vidmapped p) 0 := hp p hused 0 (by decide)
  rw [directory, if_neg (show (k.load p).cr3 ≠ 0 from hw.used_ne_zero hused)]
  exact hentry

end Loaded

/-! ### What is drawn -/

/-- A drawing on a screen whose video memory is addressed through another page for the time
being. -/
def Drawing.shifted (d : Drawing) (tr : ℤ → ℤ) (offset : ℤ) (s : Screen) (mem : ScreenMemory) :
    Screen × ScreenMemory :=
  let r := d.run tr { s with videoMem := s.videoMem + offset } mem
  ({ r.1 with videoMem := r.1.videoMem - offset }, r.2)

/-- What a `write` prints. -/
def writeDrawing (k : Kernel) (fd : ℤ) (buf : ℕ) (nbytes : ℤ) : Option Drawing :=
  if 0 < fd ∧ fd < fileArrayLen ∧ (k.current.files fd.toNat).flags ≠ 0 ∧
      (k.current.files fd.toNat).fops = some .term ∧ buf ≠ 0 then
    some (.text ((List.range' 0 nbytes.toNat).map (window k.mem buf)))
  else none

/-- What a key draws. -/
def keyDrawing (t : Terminal) (key : ℕ) : Option Drawing :=
  if key = keyReturn then some (.text [UInt8.ofNat key])
  else if key = keyBackspace then if t.inputLen ≠ 0 then some .erase else none
  else if t.bufCount < lineBufMax - 1 - 1 then some (.text [UInt8.ofNat key])
  else none

/-- The displayed terminal. -/
def Kernel.displayed (k : Kernel) : Terminal := k.terminals k.currentTerminal.toNat

namespace Input

/-- What an input draws. -/
def drawing (k : Kernel) : Input → Option Drawing
  | .event (.write fd buf nbytes) => writeDrawing k fd buf nbytes
  | .event (.type key) => keyDrawing k.displayed key
  | .event _ => none
  | .redraw =>
    some (.redraw ((List.range' 0 k.displayed.bufCount).map fun j : ℕ => k.displayed.lineBuf j))
  | .fault intNo errCode => some (.text (faultMessage intNo errCode))

/-- The terminal that an input draws on: the terminal of the process, or the one displayed. -/
def target (k : Kernel) : Input → ℤ
  | .event (.write _ _ _) => k.current.termNum
  | .fault _ _ => k.current.termNum
  | _ => k.currentTerminal

/-- How far the video memory is moved for the time of the drawing. -/
def offset (k : Kernel) : Input → ℤ
  | .event (.write _ _ _) => 0
  | i => pageSize * (i.target k + 1)

end Input

/-- The screens and the text pages are the same. -/
structure SameScreens (k k' : Kernel) : Prop where
  text : k'.text = k.text
  screen : ∀ u, (k'.terminals u).screen = (k.terminals u).screen

/-- A drawing was made on a terminal. -/
structure Drawn (E : Env) (i : Input) (d : Drawing) (k k' : Kernel) : Prop where
  text : k'.text = (d.shifted (k.physical E) (i.offset k)
    (k.terminals (i.target k).toNat).screen k.text).2
  screen : (k'.terminals (i.target k).toNat).screen = (d.shifted (k.physical E) (i.offset k)
    (k.terminals (i.target k).toNat).screen k.text).1
  others : ∀ u, u ≠ (i.target k).toNat → (k'.terminals u).screen = (k.terminals u).screen

section Screens

variable {E : Env} {k k' k'' : Kernel} {r : ℤ} {i : Input} {d : Drawing}

namespace SameScreens

theorem of_eq (htext : k'.text = k.text) (hterm : k'.terminals = k.terminals) :
    SameScreens k k' :=
  ⟨htext, fun u => by rw [hterm]⟩

theorem refl (k : Kernel) : SameScreens k k := of_eq rfl rfl

theorem trans (h : SameScreens k k') (h' : SameScreens k' k'') : SameScreens k k'' :=
  ⟨h'.text.trans h.text, fun u => (h'.screen u).trans (h.screen u)⟩

/-- A terminal whose screen stays the same. -/
theorem update {n : ℕ} {t : Terminal} (h : t.screen = (k.terminals n).screen) :
    SameScreens k { k with terminals := Function.update k.terminals n t } := by
  refine ⟨rfl, fun u => ?_⟩
  by_cases hu : u = n
  · subst hu
    simp only [Function.update_self, h]
  · simp only [Function.update_of_ne hu]

end SameScreens

theorem Drawn.trans_same (h : Drawn E i d k k') (h' : SameScreens k' k'') : Drawn E i d k k'' :=
  ⟨h'.text.trans h.text, (h'.screen _).trans h.screen,
    fun u hu => (h'.screen u).trans (h.others u hu)⟩

/-- The screen of one terminal is drawn on. -/
theorem drawn_update {t : Terminal} {mem : ScreenMemory}
    (h : (t.screen, mem) = d.shifted (k.physical E) (i.offset k)
      (k.terminals (i.target k).toNat).screen k.text) :
    Drawn E i d k { k with
      terminals := Function.update k.terminals (i.target k).toNat t, text := mem } := by
  refine ⟨congrArg Prod.snd h, ?_, fun u hu => by simp only [Function.update_of_ne hu]⟩
  simp only [Function.update_self]
  exact congrArg Prod.fst h

/-! ### What an event draws -/

/-- The interrupt handlers and `halt` leave the screens alone. -/
theorem closed_screens (E : Env) (text : ScreenMemory) (ts : ℕ → Terminal) :
    Closed E fun k => Wf k ∧ k.text = text ∧ k.terminals = ts where
  wf _ hk := hk.1
  save _ frame b hk := ⟨wf_nextExecute (wf_saveContext hk.1 frame) b, hk.2⟩
  display _ _ b hk ht := ⟨wf_display hk.1 ht b, hk.2⟩
  schedule _ _ _ hk h := by
    refine ⟨wf_schedule hk.1 h, ?_⟩
    obtain ⟨next, -, ⟨-, rfl⟩ | ⟨-, rfl⟩⟩ := schedule_spec h
    · exact hk.2
    · exact hk.2
  execute _ _ _ hk _ hcur h := by
    refine ⟨wf_execute hk.1 hcur h, ?_⟩
    obtain ⟨pid, dentry, args, -, -, -, -, rfl⟩ := execute_spec h
    exact hk.2

theorem halted_text (k : Kernel) (d : Devices) : (halted k d).text = k.text := by
  unfold halted deleteProcess
  split_ifs <;> rfl

theorem halted_terminals (k : Kernel) (d : Devices) : (halted k d).terminals = k.terminals := by
  unfold halted deleteProcess
  split_ifs <;> rfl

theorem sameScreens_halt (hw : Wf k) (hr : k.running ≠ 0) {status : UInt8}
    (h : halt E status k = some k') : SameScreens k k' := by
  have hkeep := (closed_screens E k.text k.terminals).halt ⟨hw, rfl, rfl⟩ hr ?_ ?_ h
  · exact SameScreens.of_eq hkeep.2.1 hkeep.2.2
  · intro parent d hparent
    have hwh := wf_halted hw hr d
    refine ⟨wf_returnToParent hwh (by rwa [halted_running]) (by rwa [halted_current]) status, ?_⟩
    exact ⟨halted_text k d, halted_terminals k d⟩
  · intro d hbase hexec
    have hwh := wf_halted hw hr d
    refine ⟨wf_execute (wf_dropBase hwh (by rwa [halted_running]))
      (hwh.current_nonneg (by rwa [halted_running])) hexec, ?_⟩
    obtain ⟨pid, dentry, args, -, -, -, -, rfl⟩ := execute_spec hexec
    exact ⟨halted_text k d, halted_terminals k d⟩

theorem sameScreens_openFile {filename : CString} (h : openFile E filename k = some (r, k')) :
    SameScreens k k' := by
  rcases openFile_cases h with ⟨-, rfl⟩ | ⟨i, fd, d, -, -, -, -, -, rfl⟩
  · exact SameScreens.refl _
  · exact SameScreens.of_eq rfl rfl

theorem sameScreens_closeFile {fd : ℤ} (h : closeFile fd k = some (r, k')) :
    SameScreens k k' := by
  rcases closeFile_cases h with ⟨-, rfl⟩ | ⟨d, -, -, -, -, -, rfl⟩
  · exact SameScreens.refl _
  · exact SameScreens.of_eq rfl rfl

theorem sameScreens_armFile (fd : ℤ) (buf : ℕ) (k : Kernel) :
    SameScreens k (armFile fd buf k) := by
  unfold armFile armTerminal
  split_ifs
  · exact SameScreens.refl k
  · exact SameScreens.refl k
  · exact SameScreens.update rfl
  · exact SameScreens.refl k

theorem sameScreens_readFile {fd : ℤ} {buf : ℕ} {nbytes : ℤ}
    (h : readFile E fd buf nbytes k = some (r, k')) : SameScreens k k' := by
  cases readEffect_of_readFile h with
  | failed => exact SameScreens.refl k
  | clock => exact SameScreens.of_eq rfl rfl
  | copied mem n hrange hlive => exact SameScreens.of_eq rfl rfl
  | line mem nbytes dst =>
    have hmem : SameScreens k (k.setMem mem) := SameScreens.of_eq rfl rfl
    exact hmem.trans (SameScreens.update rfl)

theorem sameScreens_vidmap {screenStart : ℕ}
    (hbuf : PageHolds screenStart (vidmapSpan screenStart))
    (h : vidmap E screenStart k = some (r, k')) : SameScreens k k' := by
  rcases vidmap_cases hbuf h with ⟨-, -, rfl⟩ | ⟨-, -, -, rfl⟩
  · exact SameScreens.refl _
  · exact SameScreens.of_eq rfl rfl

theorem sameScreens_getargs (buf : ℕ) (nbytes : ℤ) (k : Kernel) :
    SameScreens k (getargs buf nbytes k).2 := by
  unfold getargs
  simp only
  split_ifs
  · exact SameScreens.refl k
  · exact SameScreens.of_eq rfl rfl

/-- What a `write` does to the screens. -/
theorem writeFile_drawing {fd : ℤ} {buf : ℕ} {nbytes : ℤ}
    (h : writeFile E fd buf nbytes k = some (r, k')) :
    match writeDrawing k fd buf nbytes with
    | none => SameScreens k k'
    | some d => Drawn E (.event (.write fd buf nbytes)) d k k' := by
  cases writeEffect_of_writeFile h with
  | failed hno =>
    rw [writeDrawing, if_neg hno]
    exact SameScreens.refl k
  | clock freq hno =>
    rw [writeDrawing, if_neg hno]
    exact SameScreens.of_eq rfl rfl
  | text hscreen =>
    rw [writeDrawing, if_pos hscreen, terminalWrite, if_neg hscreen.2.2.2.2]
    apply drawn_update
    rw [terminalWriteLoop_eq]
    simp only [Drawing.shifted, Input.offset, Input.target, add_zero, sub_zero, Drawing.run]

/-- What a key does to the screen of the displayed terminal. -/
theorem update_drawing (tr : ℤ → ℤ) (currentTerminal : ℤ) (key : ℕ) (t : Terminal)
    (mem : ScreenMemory) :
    ((update tr currentTerminal pageSize key t mem).1.screen,
        (update tr currentTerminal pageSize key t mem).2) =
      match keyDrawing t key with
      | none => (t.screen, mem)
      | some d => d.shifted tr (pageSize * (currentTerminal + 1)) t.screen mem := by
  have hbuffer : ∀ t : Terminal, (updateBuffer key t).screen = t.screen := by
    intro t
    have h := congrArg Terminal.screen (updateBuffer_screen key t t.screen)
    exact h
  simp only [update, hbuffer, updateScreen, keyDrawing]
  split_ifs <;> rfl

theorem typeKey_drawing {key : ℕ} (h : typeKey E key k = some k') :
    match keyDrawing k.displayed key with
    | none => SameScreens k k'
    | some d => Drawn E (.event (.type key)) d k k' := by
  unfold typeKey at h
  split_ifs at h
  cases h
  have hupdate := update_drawing (k.physical E) k.currentTerminal key k.displayed k.text
  cases hd : keyDrawing k.displayed key with
  | none =>
    rw [hd] at hupdate
    have hmem := congrArg Prod.snd hupdate
    have hscreen := congrArg Prod.fst hupdate
    have hsame := SameScreens.update (k := k) hscreen
    exact ⟨hmem, hsame.screen⟩
  | some d =>
    rw [hd] at hupdate
    exact drawn_update hupdate

/-- What an event does to the screens. -/
theorem dispatch_drawing {e : Event} (hw : Wf k) (h : dispatch E k e = some k') :
    match Input.drawing k (.event e) with
    | none => SameScreens k k'
    | some d => Drawn E (.event e) d k k' := by
  have hkeep : Wf k ∧ k.text = k.text ∧ k.terminals = k.terminals := ⟨hw, rfl, rfl⟩
  cases effect_of_dispatch h with
  | key t hstart =>
    have hkey := (closed_screens E k.text k.terminals).startTerminal hkeep hstart
    exact SameScreens.of_eq hkey.2.1 hkey.2.2
  | tick htimer =>
    have htick := (closed_screens E k.text k.terminals).pitHandlerMain hkeep htimer
    exact SameScreens.of_eq htick.2.1 htick.2.2
  | type key htype => exact typeKey_drawing htype
  | rtcInterrupt => exact SameScreens.of_eq rfl rfl
  | executed command hr hexec =>
    obtain ⟨pid, dentry, args, -, -, -, -, rfl⟩ := execute_spec hexec
    exact SameScreens.of_eq rfl rfl
  | notExecuted => exact SameScreens.of_eq rfl rfl
  | halt status hr hend => exact sameScreens_halt hw hr hend
  | openFile filename _ hopen =>
    exact (sameScreens_openFile hopen).trans (SameScreens.of_eq rfl rfl)
  | closeFile fd _ hclose =>
    exact (sameScreens_closeFile hclose).trans (SameScreens.of_eq rfl rfl)
  | arm fd buf => exact sameScreens_armFile fd buf k
  | read fd buf nbytes _ _ hread =>
    exact (sameScreens_readFile hread).trans (SameScreens.of_eq rfl rfl)
  | @write fd buf nbytes r k1 _ _ hwrite =>
    have hdrawn := writeFile_drawing hwrite
    have hresult : SameScreens k1 { k1 with eax := r } := SameScreens.of_eq rfl rfl
    simp only [Input.drawing]
    cases hd : writeDrawing k fd buf nbytes with
    | none =>
      rw [hd] at hdrawn
      exact SameScreens.trans hdrawn hresult
    | some d =>
      rw [hd] at hdrawn
      exact Drawn.trans_same hdrawn hresult
  | getargs buf nbytes =>
    exact (sameScreens_getargs buf nbytes k).trans (SameScreens.of_eq rfl rfl)
  | vidmap screenStart _ hbuf hmap =>
    exact (sameScreens_vidmap hbuf hmap).trans (SameScreens.of_eq rfl rfl)
  | compute mem => exact SameScreens.of_eq rfl rfl

theorem redraw_drawing (h : redraw E k = some k') :
    ∃ d, Input.drawing k .redraw = some d ∧ Drawn E .redraw d k k' := by
  unfold redraw at h
  split_ifs at h
  cases h
  refine ⟨_, rfl, drawn_update ?_⟩
  simp only [drawDisplayed, terminalWriteLoop_eq]
  rfl

theorem faultPrint_drawing (intNo errCode : ℕ) (m : Machine) :
    Drawn E (.fault intNo errCode) (.text (faultMessage intNo errCode)) m.kernel
      (faultPrint E intNo errCode m).kernel := by
  unfold faultPrint
  generalize faultMessage intNo errCode = bytes
  exact drawn_update rfl

/-- **What an input of the machine does to the screens.** -/
theorem machineStep_drawing {m m' : Machine} (hw : Wf m.kernel)
    (h : machineStep E m i = some m') :
    match i.drawing m.kernel with
    | none => SameScreens m.kernel m'.kernel
    | some d => Drawn E i d m.kernel m'.kernel := by
  cases i with
  | event e =>
    obtain ⟨k, hk, rfl⟩ := Option.map_eq_some_iff.1 h
    obtain ⟨k1, hk1, rfl⟩ := Option.map_eq_some_iff.1 hk
    have hdrawn := dispatch_drawing ((SameProcesses.advanceClock m.kernel).wf hw) hk1
    have hdrawing : Input.drawing m.kernel.advanceClock (.event e) =
        Input.drawing m.kernel (.event e) := by
      cases e <;> rfl
    have hflag : SameScreens k1 (k1.setIflag true) := SameScreens.of_eq rfl rfl
    rw [hdrawing] at hdrawn
    cases hd : Input.drawing m.kernel (.event e) with
    | none =>
      rw [hd] at hdrawn
      exact SameScreens.trans ⟨hdrawn.text, hdrawn.screen⟩ hflag
    | some d =>
      rw [hd] at hdrawn
      have hdrawn : Drawn E (.event e) d m.kernel k1 := by
        cases e <;> exact ⟨hdrawn.text, hdrawn.screen, hdrawn.others⟩
      exact hdrawn.trans_same hflag
  | redraw =>
    obtain ⟨k, hk, rfl⟩ := Option.map_eq_some_iff.1 h
    obtain ⟨d, hd, hdrawn⟩ := redraw_drawing hk
    rw [hd]
    exact hdrawn
  | fault intNo errCode =>
    obtain ⟨hhalt, -⟩ := machineStep_fault h
    obtain ⟨k1, hk1, hk'⟩ := Option.map_eq_some_iff.1 hhalt
    have hw0 := (sameProcesses_faultPrint E intNo errCode m).wf hw
    have hsame := dispatch_drawing (e := .halt 1) ((SameProcesses.advanceClock _).wf hw0) hk1
    have hflag : SameScreens k1 m'.kernel := by
      rw [← hk']
      exact SameScreens.of_eq rfl rfl
    have hdrawn := faultPrint_drawing (E := E) intNo errCode m
    exact hdrawn.trans_same (SameScreens.trans ⟨hsame.text, hsame.screen⟩ hflag)

end Screens

end LinuxIsLove
