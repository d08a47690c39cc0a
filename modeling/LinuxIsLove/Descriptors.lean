import LinuxIsLove.FileReading

/-!
# The descriptor table of a process

`Holds` says what a descriptor looks like after its history: closed, or open for an entry of some
type.  The history of a descriptor is what `slotOps` puts out along a run: the successful calls of
`open` and `close` that were about it.  A step leaves every descriptor with what the last of these
calls left (`table_step`), whatever the event; `started_table` is the table of a new process.

What a call does to a table in which every descriptor is closed or open is said for all tables at
once: `openFile_law`, `closeFile_law` and `readWrite_law`.
-/

namespace LinuxIsLove

open Bytes EventMachine

/-- The entries of the directory are clocks, directories and files. -/
def TypesOk (img : Image) : Prop :=
  ∀ m < dirEntriesCnt img, Dentry.ftype (dentryAt img m) ≤ fileFtype

/-- What a descriptor looks like when it is closed, or open for an entry of a type. -/
def Holds : Option ℕ → Fd → Prop
  | none, fd => fd.flags = 0 ∧ fd.fops = none ∧ fd.pos = 0
  | some ftype, fd =>
    fd.flags = fdLive ∧ fd.fops = getDeviceFops ftype ∧ getDeviceFops ftype ≠ none

/-- Every descriptor of a table is closed or open. -/
def TableOk (files : ℕ → Fd) : Prop := ∀ i < fileArrayLen, ∃ o, Holds o (files i)

/-- The name is that of an entry. -/
def Found (img : Image) (s : CString) : Prop := (readDentryByName img s fun _ => 0).1 = 0

/-- The type of the entry that the lookup finds. -/
def foundType (img : Image) (s : CString) : ℕ :=
  Dentry.ftype (readDentryByName img s fun _ => 0).2

section Holds

variable {o : Option ℕ} {fd : Fd} {img : Image} {s : CString} {ftype : ℕ}

theorem Holds.live_iff (h : Holds o fd) : fd.flags ≠ 0 ↔ o ≠ none := by
  cases o with
  | none => simp [h.1]
  | some ftype => simp [h.1, fdLive]

theorem Holds.fops_ne_none (h : Holds o fd) (hlive : fd.flags ≠ 0) : fd.fops ≠ none := by
  cases o with
  | none => exact absurd h.1 hlive
  | some ftype =>
    rw [h.2.1]
    exact h.2.2

theorem Holds.of_pos {fd' : Fd} (h : Holds o fd) (hfd : fd' = { fd with pos := fd'.pos })
    (hpos : fd'.flags = 0 → fd'.pos = 0) : Holds o fd' := by
  have hflags : fd'.flags = fd.flags := by rw [hfd]
  have hfops : fd'.fops = fd.fops := by rw [hfd]
  cases o with
  | none => exact ⟨hflags.trans h.1, hfops.trans h.2.1, hpos (hflags.trans h.1)⟩
  | some ftype => exact ⟨hflags.trans h.1, hfops.trans h.2.1, h.2.2⟩

theorem TableOk.filesOk {files : ℕ → Fd} (h : TableOk files) : FilesOk files := by
  intro i hi hflags
  obtain ⟨o, ho⟩ := h i hi
  cases o with
  | none => exact ho.2.2
  | some ftype => exact absurd hflags (ho.live_iff.2 (Option.some_ne_none _))

theorem getDeviceFops_ne_none (h : ftype ≤ termFtype) : getDeviceFops ftype ≠ none := by
  simp only [termFtype] at h
  interval_cases ftype <;> decide

theorem found_or (img : Image) (s : CString) :
    Found img s ∨ (readDentryByName img s fun _ => 0).1 = -1 := by
  rcases readDentryByName_cases img s with ⟨m, -, h⟩ | h
  · exact Or.inl (congrArg Prod.fst (h _))
  · exact Or.inr (congrArg Prod.fst (h _))

theorem not_found_iff : ¬ Found img s ↔ (readDentryByName img s fun _ => 0).1 = -1 := by
  constructor
  · exact (found_or img s).resolve_left
  · intro h hfound
    rw [Found, h] at hfound
    exact absurd hfound (by decide)

/-- The entry that is found has one of the three types. -/
theorem foundType_le (ht : TypesOk img) (h : Found img s) : foundType img s ≤ fileFtype := by
  rcases readDentryByName_cases img s with ⟨m, hm, heq⟩ | hnone
  · rw [foundType, heq, ftype_copy]
    exact ht m hm
  · exact absurd (congrArg Prod.fst (hnone _)) (fun heq => not_found_iff.2 heq h)

end Holds

/-! ### The calls -/

section Calls

variable {E : Env} {k k' : Kernel} {s : CString} {i : ℕ} {fd : ℤ} {r : ℤ}

/-- `open` takes the least descriptor that is not live. -/
theorem freeFd_eq_some_iff {files : ℕ → Fd} : freeFd files = some i ↔
    2 ≤ i ∧ i < fileArrayLen ∧ (files i).flags = 0 ∧ ∀ j, 2 ≤ j → j < i → (files j).flags ≠ 0 := by
  have hrange : freeFd files = (List.range' 2 6).find? fun i => (files i).flags = 0 := rfl
  rw [hrange, List.find?_range'_eq_some]
  simp only [decide_eq_true_eq, List.mem_range'_1, Bool.not_eq_eq_eq_not, Bool.not_true,
    decide_eq_false_iff_not, fileArrayLen]
  constructor
  · rintro ⟨hflags, ⟨h2, h8⟩, hleast⟩
    exact ⟨h2, h8, hflags, hleast⟩
  · rintro ⟨h2, h8, hflags, hleast⟩
    exact ⟨hflags, ⟨h2, h8⟩, hleast⟩

theorem freeFd_eq_none_iff {files : ℕ → Fd} : freeFd files = none ↔
    ∀ i, 2 ≤ i → i < fileArrayLen → (files i).flags ≠ 0 := by
  have hrange : freeFd files = (List.range' 2 6).find? fun i => (files i).flags = 0 := rfl
  rw [hrange, List.find?_eq_none]
  simp only [decide_eq_true_eq, List.mem_range'_1, fileArrayLen]
  exact forall_congr' fun i => ⟨fun h h2 h8 => h ⟨h2, h8⟩, fun h hi => h hi.1 hi.2⟩

/-- **`open`** takes the least descriptor that is not live for an entry that is found, and leaves
everything as it is if there is none. -/
theorem openFile_law (ht : TypesOk E.img) (htab : TableOk k.current.files) (s : CString) :
    (freeFd k.current.files = none ∨ ¬ Found E.img s → openFile E s k = some (-1, k)) ∧
      ∀ i, freeFd k.current.files = some i → Found E.img s →
        ∃ fd d, openFile E s k = some ((i : ℤ), k.setSlot i fd d) ∧
          Holds (some (foundType E.img s)) fd ∧ fd.pos = 0 := by
  constructor
  · rintro (hfull | hno)
    · rw [openFile, hfull]
    · unfold openFile
      split
      next => rfl
      next i _ =>
        simp only
        rw [if_pos (not_found_iff.1 hno)]
  · intro i hfree hfound
    obtain ⟨-, h8, hflags, -⟩ := freeFd_eq_some_iff.1 hfree
    have hne : ¬ (readDentryByName E.img s fun _ => 0).1 = -1 :=
      fun h => not_found_iff.2 h hfound
    have hpos : (k.current.files i).pos = 0 := htab.filesOk i h8 hflags
    have hfops : getDeviceFops (foundType E.img s) ≠ none :=
      getDeviceFops_ne_none ((foundType_le ht hfound).trans (by decide))
    have hslot : (openFd (readDentryByName E.img s fun _ => 0).2 (k.current.files i)).fops =
        getDeviceFops (foundType E.img s) := rfl
    have hdevice : ∃ d, openDevice (getDeviceFops (foundType E.img s)) k.devices = some d := by
      unfold openDevice
      split
      next h => exact absurd h hfops
      next => exact ⟨_, rfl⟩
      next => exact ⟨_, rfl⟩
    obtain ⟨d, hd⟩ := hdevice
    refine ⟨openFd (readDentryByName E.img s fun _ => 0).2 (k.current.files i), d, ?_,
      ⟨rfl, hslot, hfops⟩, ?_⟩
    · simp only [openFile, hfree, if_neg hne, Function.update_self, hslot, hd, Option.map_some]
      rfl
    · rw [← hpos]
      simp only [openFd]
      split_ifs <;> rfl

/-- **`close`** succeeds on the live descriptors from 2 on, and leaves everything as it is on any
other. -/
theorem closeFile_law (htab : TableOk k.current.files) (fd : ℤ) :
    (2 ≤ fd ∧ fd < fileArrayLen ∧ (k.current.files fd.toNat).flags ≠ 0 →
        ∃ d, closeFile fd k =
          some (0, k.setSlot fd.toNat (closedFd (k.current.files fd.toNat)) d)) ∧
      (¬ (2 ≤ fd ∧ fd < fileArrayLen ∧ (k.current.files fd.toNat).flags ≠ 0) →
        closeFile fd k = some (-1, k)) := by
  constructor
  · rintro ⟨h2, h8, hlive⟩
    obtain ⟨o, ho⟩ := htab fd.toNat (by simp only [fileArrayLen] at h8 ⊢; omega)
    have hfops := ho.fops_ne_none hlive
    have hdevice : ∃ d, closeDevice (k.current.files fd.toNat).fops k.current.pid k.devices =
        some d := by
      unfold closeDevice
      split
      next h => exact absurd h hfops
      next => exact ⟨_, rfl⟩
      next => exact ⟨_, rfl⟩
    obtain ⟨d, hd⟩ := hdevice
    refine ⟨d, ?_⟩
    unfold closeFile
    rw [if_neg (by omega)]
    simp only [if_pos hlive, hd, Option.map_some]
    rfl
  · intro hno
    unfold closeFile
    split_ifs with hrange
    · rfl
    · simp only
      rw [if_neg]
      intro hlive
      exact hno ⟨by omega, by omega, hlive⟩

/-- **`read` and `write`** leave everything as it is on a descriptor that is not live, or is
none. -/
theorem readWrite_law {fd : ℤ}
    (h : fd < 0 ∨ (fileArrayLen : ℤ) ≤ fd ∨ (k.current.files fd.toNat).flags = 0) (buf : ℕ)
    (nbytes : ℤ) :
    readFile E fd buf nbytes k = some (-1, k) ∧ writeFile E fd buf nbytes k = some (-1, k) := by
  unfold readFile writeFile
  constructor
  · split_ifs with hrange hlive
    · rfl
    · exact absurd h (by omega)
    · rfl
  · split_ifs with hrange hlive
    · rfl
    · exact absurd h (by omega)
    · rfl

/-- What `open` puts into a descriptor is open for the type of the entry. -/
theorem openFile_holds (h : openFile E s k = some (r, k')) : (r = -1 ∧ k' = k) ∨
    ∃ i fd d, freeFd k.current.files = some i ∧ Holds (some (foundType E.img s)) fd ∧
      openDevice fd.fops k.devices = some d ∧ r = i ∧ k' = k.setSlot i fd d := by
  rcases openFile_cases h with hfail | ⟨i, fd, d, hfree, -, hfd, hd, hr, hk'⟩
  · exact Or.inl hfail
  · refine Or.inr ⟨i, fd, d, hfree, ⟨?_, ?_, fun hnone => ?_⟩, hd, hr, hk'⟩
    · rw [hfd]
      rfl
    · rw [hfd]
      rfl
    · have hfops : fd.fops = none := by
        rw [hfd]
        exact hnone
      rw [hfops] at hd
      exact absurd hd (by simp [openDevice])

theorem advance_pos (k : Kernel) (i n : ℕ) : ((k.advance i n).pcb k.running).files i =
    { k.current.files i with pos := (((k.advance i n).pcb k.running).files i).pos } := by
  rw [advance_files_self]

/-- A `read` moves positions only. -/
theorem readFile_pos {buf : ℕ} {nbytes : ℤ} (h : readFile E fd buf nbytes k = some (r, k'))
    (i : ℕ) : (k'.pcb k.running).files i =
      { k.current.files i with pos := ((k'.pcb k.running).files i).pos } := by
  by_cases hi : fd = i
  · subst hi
    cases readEffect_of_readFile h with
    | failed => rfl
    | clock => rfl
    | copied mem n hrange hlive => exact advance_pos (k.setMem mem) i n
    | line mem nbytes dst => rfl
  · rw [readFile_files h hi]

/-- No quiet event but `open` and `close` changes more than the position of a descriptor. -/
theorem dispatch_pos {e : Event} (hq : e.quiet) (hopen : ∀ s, e ≠ .openFile s)
    (hclose : ∀ fd, e ≠ .closeFile fd) (h : dispatch E k e = some k') (i : ℕ) :
    (k'.pcb k.running).files i =
      { k.current.files i with pos := ((k'.pcb k.running).files i).pos } := by
  have hsame : ∀ pcb : ℕ → Pcb, pcb = k.pcb → (pcb k.running).files i =
      { k.current.files i with pos := ((pcb k.running).files i).pos } := by
    rintro pcb rfl
    rfl
  cases effect_of_dispatch h with
  | key => exact hq.elim
  | tick => exact hq.elim
  | executed => exact hq.elim
  | notExecuted => exact hq.elim
  | halt => exact hq.elim
  | openFile s => exact absurd rfl (hopen s)
  | closeFile fd => exact absurd rfl (hclose fd)
  | type key htype => exact hsame _ (typeKey_pcb htype)
  | rtcInterrupt => rfl
  | arm fd buf => exact hsame _ (armFile_pcb fd buf k)
  | read fd buf nbytes _ _ hread => exact (readFile_pos hread i :)
  | write fd buf nbytes _ _ hwrite => exact hsame _ (writeFile_pcb hwrite :)
  | getargs buf nbytes => exact hsame _ (getargs_pcb buf nbytes k)
  | vidmap screenStart _ hbuf hmap => exact hsame _ (vidmap_pcb hbuf hmap :)
  | compute mem => rfl

theorem step_openFile (hr : k.running ≠ 0) (s : CString) :
    step E k (.openFile s) =
      (openFile E s k.advanceClock).map fun r => (result r).setIflag true := by
  have hdispatch : dispatch E k.advanceClock (.openFile s) =
      (openFile E s k.advanceClock).map result := if_neg hr
  rw [step, hdispatch, Option.map_map]
  rfl

theorem step_closeFile (hr : k.running ≠ 0) (fd : ℤ) :
    step E k (.closeFile fd) =
      (closeFile fd k.advanceClock).map fun r => (result r).setIflag true := by
  have hdispatch : dispatch E k.advanceClock (.closeFile fd) =
      (closeFile fd k.advanceClock).map result := if_neg hr
  rw [step, hdispatch, Option.map_map]
  rfl

end Calls

/-! ### The history of a descriptor -/

/-- A successful `open` or `close` of the descriptor `i` of the process `p`: the type of the entry
it is opened for, or nothing. -/
def slotOps (E : Env) (p i : ℕ) (k : Kernel) : Event → List (Option ℕ)
  | .openFile s =>
    if k.running = p ∧ (step E k (.openFile s)).map Kernel.eax = some (i : ℤ) then
      [some (foundType E.img s)]
    else []
  | .closeFile fd =>
    if k.running = p ∧ fd = i ∧ (step E k (.closeFile fd)).map Kernel.eax = some 0 then [none]
    else []
  | _ => []

/-- What the last call of a history left, and `o` without any. -/
def lastOp (o : Option ℕ) (ops : List (Option ℕ)) : Option ℕ := ops.getLast?.getD o

/-- The descriptors of a process hold what they should. -/
def TableHolds (o : ℕ → Option ℕ) (files : ℕ → Fd) : Prop :=
  ∀ i < fileArrayLen, Holds (o i) (files i)

section History

variable {E : Env} {k k' : Kernel} {p : ℕ} {o : ℕ → Option ℕ}

@[simp] theorem lastOp_nil (o : Option ℕ) : lastOp o [] = o := rfl

@[simp] theorem lastOp_singleton (o x : Option ℕ) : lastOp o [x] = x := rfl

theorem lastOp_append (o : Option ℕ) (l l' : List (Option ℕ)) :
    lastOp o (l ++ l') = lastOp (lastOp o l) l' := by
  simp only [lastOp, List.getLast?_append]
  cases l'.getLast? with
  | none => rfl
  | some x => rfl

theorem TableHolds.tableOk {files : ℕ → Fd} (h : TableHolds o files) : TableOk files :=
  fun i hi => ⟨o i, h i hi⟩

theorem setSlot_files (k : Kernel) (i : ℕ) (fd : Fd) (d : Devices) :
    ((k.setSlot i fd d).pcb k.running).files = Function.update k.current.files i fd := by
  simp only [Kernel.setSlot, Kernel.setFiles_pcb_self]

/-- An `open` of the process leaves every descriptor with what its history says. -/
theorem table_openFile (ht : TypesOk E.img) (htab : TableHolds o k.current.files)
    (hr : k.running ≠ 0) {s : CString} (h : step E k (.openFile s) = some k') :
    TableHolds (fun i => lastOp (o i) (slotOps E k.running i k (.openFile s)))
      (k'.pcb k.running).files := by
  have hlaw := openFile_law (k := k.advanceClock) ht htab.tableOk s
  have hops : ∀ i : ℕ, slotOps E k.running i k (.openFile s) =
      if k'.eax = i then [some (foundType E.img s)] else [] := by
    intro i
    simp only [slotOps, h, Option.map_some, true_and, Option.some.injEq]
  intro i hi
  simp only [hops]
  rw [step_openFile hr] at h
  by_cases hcan : freeFd k.current.files = none ∨ ¬ Found E.img s
  · rw [hlaw.1 hcan] at h
    have heax : k'.eax = -1 := by
      rw [← Option.some.inj h]
      rfl
    have hpcb : k'.pcb = k.pcb := by
      rw [← Option.some.inj h]
      rfl
    rw [heax, if_neg (by omega), hpcb]
    exact htab i hi
  · rw [not_or, not_not] at hcan
    obtain ⟨j, hj⟩ := Option.ne_none_iff_exists'.1 hcan.1
    obtain ⟨fd, d, hopen, hfd, -⟩ := hlaw.2 j hj hcan.2
    rw [hopen] at h
    have heax : k'.eax = j := by
      rw [← Option.some.inj h]
      rfl
    have hfiles : (k'.pcb k.running).files = Function.update k.current.files j fd := by
      rw [← Option.some.inj h]
      exact setSlot_files k.advanceClock j fd d
    rw [heax, hfiles]
    by_cases hij : i = j
    · subst hij
      rw [if_pos rfl, Function.update_self]
      exact hfd
    · rw [if_neg (by omega), Function.update_of_ne hij]
      exact htab i hi

/-- So does a `close`. -/
theorem table_closeFile (htab : TableHolds o k.current.files) (hr : k.running ≠ 0) {fd : ℤ}
    (h : step E k (.closeFile fd) = some k') :
    TableHolds (fun i => lastOp (o i) (slotOps E k.running i k (.closeFile fd)))
      (k'.pcb k.running).files := by
  have hlaw := closeFile_law (k := k.advanceClock) htab.tableOk fd
  have hops : ∀ i : ℕ, slotOps E k.running i k (.closeFile fd) =
      if fd = i ∧ k'.eax = 0 then [none] else [] := by
    intro i
    simp only [slotOps, h, Option.map_some, true_and, Option.some.injEq]
  intro i hi
  simp only [hops]
  rw [step_closeFile hr] at h
  by_cases hcan : 2 ≤ fd ∧ fd < fileArrayLen ∧ (k.current.files fd.toNat).flags ≠ 0
  · obtain ⟨d, hclose⟩ := hlaw.1 hcan
    rw [hclose] at h
    have heax : k'.eax = 0 := by
      rw [← Option.some.inj h]
      rfl
    have hfiles : (k'.pcb k.running).files =
        Function.update k.current.files fd.toNat (closedFd (k.current.files fd.toNat)) := by
      rw [← Option.some.inj h]
      exact setSlot_files k.advanceClock _ _ d
    rw [heax, hfiles]
    by_cases hij : fd = i
    · subst hij
      rw [if_pos ⟨rfl, rfl⟩, Int.toNat_natCast, Function.update_self]
      exact ⟨rfl, rfl, rfl⟩
    · rw [if_neg (fun hboth => hij hboth.1), Function.update_of_ne (by omega)]
      exact htab i hi
  · rw [hlaw.2 hcan] at h
    have heax : k'.eax = -1 := by
      rw [← Option.some.inj h]
      rfl
    have hpcb : k'.pcb = k.pcb := by
      rw [← Option.some.inj h]
      rfl
    rw [heax, if_neg (fun hboth => absurd hboth.2 (by decide)), hpcb]
    exact htab i hi

/-- **One step and the table of a process**: whatever the event, every descriptor holds what the
last successful call of `open` or `close` left. -/
theorem table_step {e : Event} (ht : TypesOk E.img) (hw : Wf k) (hf : FilesReady k)
    (hall : Allocated k p) (htab : TableHolds o (k.pcb p).files) (hg : NotHaltOf p k e)
    (h : step E k e = some k') :
    TableHolds (fun i => lastOp (o i) (slotOps E p i k e)) (k'.pcb p).files ∧ Allocated k' p := by
  by_cases hown : e.quiet ∧ k.running = p
  · obtain ⟨hq, rfl⟩ := hown
    have hr := hw.running_ne_zero (hw.allocated_used _ hall)
    have hsame := sameProcesses_step hq h
    refine ⟨?_, (hsame.allocated _).2 hall⟩
    cases e with
    | openFile s => exact table_openFile ht htab hr h
    | closeFile fd => exact table_closeFile htab hr h
    | _ =>
      have hf' := (hsame.filesReady hf) _ ((hsame.used _).2 (hw.allocated_used _ hall))
      obtain ⟨k1, hk1, rfl⟩ := Option.map_eq_some_iff.1 h
      intro i hi
      exact (htab i hi).of_pos (dispatch_pos hq (by simp) (by simp) hk1 i) (hf' i hi)
  · have hops : ∀ i, slotOps E p i k e = [] := by
      intro i
      cases e with
      | openFile s => exact if_neg fun hboth => hown ⟨trivial, hboth.1⟩
      | closeFile fd => exact if_neg fun hboth => hown ⟨trivial, hboth.1⟩
      | _ => rfl
    have hun := untouched_step hw (Or.inl hall) hg (fun hq hr => hown ⟨hq, hr⟩) h
    refine ⟨?_, hun.allocated hall⟩
    rw [hun.files]
    intro i hi
    simp only [hops]
    exact htab i hi

/-- The descriptors 0 and 1 have no history. -/
theorem slotOps_of_lt_two {i : ℕ} (hi : i < 2) (k : Kernel) (e : Event) :
    slotOps E p i k e = [] := by
  cases e with
  | openFile s =>
    refine if_neg fun hboth => ?_
    obtain ⟨-, hres⟩ := hboth
    obtain ⟨k', hk', heax⟩ := Option.map_eq_some_iff.1 hres
    obtain ⟨k1, hk1, rfl⟩ := Option.map_eq_some_iff.1 hk'
    cases effect_of_dispatch hk1 with | @openFile _ r k2 _ hopen =>
    have hr : r = i := heax
    rcases openFile_cases hopen with ⟨hfail, -⟩ | ⟨j, fd, d, hfree, -, -, -, hj, -⟩
    · omega
    · have h2 := (freeFd_spec hfree).1
      omega
  | closeFile fd =>
    refine if_neg fun hall => ?_
    obtain ⟨-, rfl, hres⟩ := hall
    obtain ⟨k', hk', heax⟩ := Option.map_eq_some_iff.1 hres
    obtain ⟨k1, hk1, rfl⟩ := Option.map_eq_some_iff.1 hk'
    cases effect_of_dispatch hk1 with | @closeFile _ r k2 _ hclose =>
    have hr : r = 0 := heax
    rw [closeFile, if_pos (by omega)] at hclose
    cases hclose
    exact absurd hr (by decide)
  | _ => rfl

end History

/-! ### From the start of a process on -/

/-- The process that a step starts, if any. -/
def Starts (k k' : Kernel) (p : ℕ) : Prop := ∃ s, k'.starts = s :: k.starts ∧ s.pid = p

/-- What the descriptors of a new process are open for. -/
def initialOp (i : ℕ) : Option ℕ := if i < 2 then some termFtype else none

section Start

variable {E : Env} {k k' : Kernel} {p : ℕ}

/-- A step ends with the `execute` that starts a process, or starts none. -/
theorem step_starts {e : Event} (h : step E k e = some k') :
    k'.starts = k.starts ∨ ∃ k1 site command k2, k1.starts = k.starts ∧
      execute E site command k1 = some k2 ∧ k' = k2.setIflag true := by
  by_cases hq : e.quiet
  · exact Or.inl (sameProcesses_step hq h).starts
  obtain ⟨k2, hk2, rfl⟩ := Option.map_eq_some_iff.1 h
  suffices hbody : k2.starts = k.advanceClock.starts ∨ ∃ k1 site command,
      k1.starts = k.advanceClock.starts ∧ execute E site command k1 = some k2 by
    rcases hbody with heq | ⟨k1, site, command, heq, hexec⟩
    · exact Or.inl heq
    · exact Or.inr ⟨k1, site, command, k2, heq, hexec, rfl⟩
  have hsched : ∀ {k1 : Kernel} {frame : Token}, schedule frame k1 = some k2 →
      k1.starts = k.advanceClock.starts → k2.starts = k.advanceClock.starts :=
    fun hs heq => (SameBlocks.schedule hs).starts.trans heq
  have hnew : ∀ {k1 : Kernel} {site : Site} {command : CString},
      execute E site command k1 = some k2 → k1.starts = k.advanceClock.starts →
        ∃ k1 site command, k1.starts = k.advanceClock.starts ∧
          execute E site command k1 = some k2 := fun he heq => ⟨_, _, _, heq, he⟩
  cases effect_of_dispatch hk2 with
  | key t hstart =>
    rcases startTerminal_spec hstart with ⟨-, rfl⟩ | ⟨-, -, -, ⟨-, rfl⟩ | ⟨-, -, rfl⟩ | ⟨-, -, he⟩⟩
    · exact Or.inl rfl
    · exact Or.inl rfl
    · exact Or.inl rfl
    · exact Or.inr (hnew he rfl)
  | tick htimer =>
    rcases pitHandlerMain_spec htimer with ⟨-, rfl⟩ | ⟨-, ⟨-, he⟩ | ⟨-, -, hs⟩ | ⟨-, hs⟩⟩
    · exact Or.inl rfl
    · exact Or.inr (hnew he rfl)
    · exact Or.inl (hsched hs rfl)
    · exact Or.inl (hsched hs rfl)
  | executed command _ he => exact Or.inr (hnew he rfl)
  | notExecuted => exact Or.inl rfl
  | halt status _ hend =>
    obtain ⟨d, hfinish⟩ := halt_spec hend
    have hhalted := halted_starts k.advanceClock d
    rcases haltFinish_spec hfinish with ⟨parent, -, hcont⟩ | ⟨-, he⟩
    · have hret : (returnToParent parent status (halted k.advanceClock d)).starts =
          k.advanceClock.starts := hhalted
      rcases continueFrame_spec hcont with ⟨-, rfl⟩ | ⟨-, hs⟩ | ⟨-, he⟩
      · exact Or.inl hret
      · exact Or.inl (hsched hs hret)
      · exact Or.inr (hnew he hret)
    · have hdrop : (dropBase (halted k.advanceClock d)).starts = k.advanceClock.starts := hhalted
      exact Or.inr (hnew he hdrop)
  | _ => exact absurd trivial hq

/-- A new process has a pid and a table with two descriptors of its terminal. -/
theorem started_table {e : Event} (h : step E k e = some k') (hp : Starts k k' p) :
    Allocated k' p ∧ TableHolds initialOp (k'.pcb p).files := by
  obtain ⟨s, hs, hpid⟩ := hp
  rcases step_starts h with heq | ⟨k1, site, command, k2, heq, hexec, rfl⟩
  · rw [heq] at hs
    exact absurd (congrArg List.length hs) (by simp)
  · obtain ⟨pid, dentry, args, -, h1, h6, -, rfl⟩ := execute_spec hexec
    have hs' : (⟨pid, newParent k1, newTerm k1, site, k1.running, k1.current.termNum⟩ : Start) ::
        k1.starts = s :: k.starts := hs
    have hnew : pid = p := by
      rw [← hpid, ← (List.cons.inj hs').1]
    subst hnew
    refine ⟨(allocated_takeSlot (k := k1) h1 h6).2 (Or.inl rfl), fun i hi => ?_⟩
    have hfiles : (((startProcess E site pid dentry args (takeSlot k1 pid)).setIflag true).pcb
        pid).files = initFiles ((takeSlot k1 pid).pcb pid).files := by
      show ((startProcess E site pid dentry args (takeSlot k1 pid)).pcb pid).files = _
      rw [startProcess_pcb_self]
      rfl
    rw [hfiles]
    by_cases h2 : i < 2
    · rw [initialOp, initFiles, if_pos h2, if_pos h2]
      exact ⟨rfl, rfl, by decide⟩
    · rw [initialOp, initFiles, if_neg h2, if_neg h2, if_pos hi]
      exact ⟨rfl, rfl, rfl⟩

end Start

end LinuxIsLove
