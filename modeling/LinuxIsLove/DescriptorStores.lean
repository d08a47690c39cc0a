import LinuxIsLove.Descriptors
import LinuxIsLove.Source.KernelStores

/-!
# The descriptor table and the buffers of `read`

`read` stores to whatever address it is given, and a descriptor table is kernel memory like any
other: every process has it mapped where it stands (`translate_kernelPage`), and its bytes are the
table (`storeTable_tableMem`).  `wipe_breaks_table` is a run in which a program reads a file into
its own table.  As long as no `read` stores into the page of the kernel (`KeepsKernel`), the calls
with buffers elsewhere move positions only (`callStep_cases`), and the table of every process is
what its history says (`descriptors_ok`).
-/

namespace LinuxIsLove

open Bytes EventMachine PageWalk

/-! ### Tables as bytes -/

section Tables

variable {A : Addresses} {files : ℕ → Fd} {fd : Fd} {p i w : ℕ}

/-- The fields of a descriptor are 32-bit words. -/
def FdFits (A : Addresses) (fd : Fd) : Prop := ∀ w ∈ A.fdWords fd, w < 2 ^ 32

theorem word32_tableMem (hfd : FdFits A (files i)) (hw : w < 5) :
    word32 (A.tableMem files p) (p + fdSize * i + wordSize * w) =
      (A.fdWords (files i)).getD w 0 := by
  have hfit : (A.fdWords (files i)).getD w 0 < 2 ^ 32 := by
    rw [List.getD_eq_getElem _ _ hw]
    exact hfd _ (List.getElem_mem hw)
  have hbyte : ∀ b < 4, (A.tableMem files p (p + fdSize * i + wordSize * w + b)).toNat =
      (A.fdWords (files i)).getD w 0 / 2 ^ (8 * b) % 2 ^ 8 := by
    intro b hb
    have hj : p + fdSize * i + wordSize * w + b - p = 20 * i + 4 * w + b := by
      simp only [fdSize, wordSize]
      omega
    have hfile : (20 * i + 4 * w + b) / fdSize = i := by
      simp only [fdSize, wordSize]
      omega
    have hword : (20 * i + 4 * w + b) % fdSize / wordSize = w := by
      simp only [fdSize, wordSize]
      omega
    have hplace : (20 * i + 4 * w + b) % wordSize = b := by
      simp only [wordSize]
      omega
    simp only [Addresses.tableMem, hj, hfile, hword, hplace, UInt8.toNat_ofNat', Nat.mod_mod]
  have h0 := hbyte 0 (by decide)
  have h1 := hbyte 1 (by decide)
  have h2 := hbyte 2 (by decide)
  have h3 := hbyte 3 (by decide)
  rw [Nat.add_zero] at h0
  rw [word32, h0, h1, h2, h3]
  omega

theorem fopsAt_fopsWord (A : Addresses) (f : Option Fops) : A.fopsAt (A.fopsWord f) = some f := by
  cases f with
  | none => rfl
  | some f =>
    rw [Addresses.fopsWord, Addresses.fopsAt, if_neg (A.fops_ne_zero f)]
    have hfind : ([Fops.rtc, .dir, .file, .term].find? fun g => A.fops g = A.fops f) = some f := by
      simp only [A.fops_injective.eq_iff]
      cases f <;> rfl
    rw [hfind, Option.map_some]

theorem inodeAt_inodeWord (A : Addresses) (i : Option ℕ) :
    A.inodeAt (A.inodeWord i) = some i := by
  cases i with
  | none => rfl
  | some i =>
    have hsub : A.bootblock + (i + 1) * blockSize - A.bootblock = (i + 1) * blockSize :=
      Nat.add_sub_cancel_left _ _
    rw [Addresses.inodeWord, Addresses.inodeAt, if_neg (by simp [blockSize]),
      if_pos ⟨by simp only [blockSize]; omega, by rw [hsub, Nat.mul_mod_left]⟩, hsub,
      Nat.mul_div_cancel _ (by decide), Nat.add_sub_cancel]

/-- A descriptor is read back from its bytes. -/
theorem fdAt_tableMem (hfd : FdFits A (files i)) :
    A.fdAt (A.tableMem files p) (p + fdSize * i) = some (files i) := by
  have h0 := word32_tableMem (p := p) hfd (w := 0) (by decide)
  have h1 := word32_tableMem (p := p) hfd (w := 1) (by decide)
  have h2 := word32_tableMem (p := p) hfd (w := 2) (by decide)
  have h3 := word32_tableMem (p := p) hfd (w := 3) (by decide)
  have h4 := word32_tableMem (p := p) hfd (w := 4) (by decide)
  simp only [wordSize, Nat.mul_zero, Nat.add_zero, Nat.mul_one, Nat.reduceMul] at h0 h1 h2 h3 h4
  simp only [Addresses.fdAt, h0, h1, h2, h3, h4, Addresses.fdWords, List.getD_cons_zero,
    List.getD_cons_succ, fopsAt_fopsWord, inodeAt_inodeWord]
  rfl

theorem mapM_eq_map {α β : Type*} {f : α → Option β} {g : α → β} {l : List α}
    (h : ∀ a ∈ l, f a = some (g a)) : l.mapM f = some (l.map g) := by
  induction l with
  | nil => rfl
  | cons a l ih =>
    rw [List.mapM_cons, h a List.mem_cons_self, ih fun b hb => h b (List.mem_cons_of_mem a hb)]
    rfl

/-- Storing a table over itself changes nothing. -/
theorem storeTable_tableMem {k : Kernel}
    (hfits : ∀ i < fileArrayLen, FdFits A ((k.pcb p).files i)) :
    storeTable A p (A.tableMem (k.pcb p).files (pcbAddr p)) k = some k := by
  have hfds : (List.range fileArrayLen).mapM (fun i =>
      A.fdAt (A.tableMem (k.pcb p).files (pcbAddr p)) (pcbAddr p + fdSize * i)) =
        some ((List.range fileArrayLen).map (k.pcb p).files) :=
    mapM_eq_map fun i hi => fdAt_tableMem (hfits i (List.mem_range.1 hi))
  have hfiles : (fun i => ((List.range fileArrayLen).map (k.pcb p).files).getD i
      ((k.pcb p).files i)) = (k.pcb p).files := by
    funext i
    by_cases hi : i < fileArrayLen
    · rw [List.getD_eq_getElem _ _ (by simpa using hi), List.getElem_map, List.getElem_range]
    · exact List.getD_eq_default _ _ (by simpa using hi)
  rw [storeTable, hfds, Option.map_some]
  simp only [hfiles, Function.update_eq_self]

end Tables

/-- Every process has the page of the kernel mapped to itself, so that a table stands where its
address says. -/
theorem translate_kernelPage (mem : Word → Table) (L : Layout) (pid t : ℕ) (mapped : Bool) {a : ℕ}
    (hlow : kernelLoc ≤ a) (hhigh : a < kernelMemEnd) :
    PageWalk.translate mem (processPd L pid t mapped) (BitVec.ofNat 32 a) =
      some (BitVec.ofNat 32 a) := by
  have hoffset : kernelLoc + a % 2 ^ 22 = a := by
    simp only [kernelLoc, kernelMemEnd] at hlow hhigh ⊢
    omega
  simp only [kernelLoc, kernelMemEnd] at hlow hhigh
  have hva : (BitVec.ofNat 32 a).toNat = a := by
    rw [BitVec.toNat_ofNat]
    omega
  have hdir : dirIndex (BitVec.ofNat 32 a) = 1 := by
    rw [dirIndex_eq, hva]
    omega
  have hentry : processPd L pid t mapped 1 = BitVec.ofNat 32 kernelLoc ||| largeInitFlags := rfl
  have hpresent : present (BitVec.ofNat 32 kernelLoc ||| largeInitFlags) = true := by decide
  have hlarge : largePage (BitVec.ofNat 32 kernelLoc ||| largeInitFlags) = true := by decide
  have hframe : (BitVec.ofNat 32 kernelLoc ||| largeInitFlags).toNat / 2 ^ 22 * 2 ^ 22 =
      kernelLoc := by decide
  simp only [PageWalk.translate, hdir, hentry, hpresent, hlarge, if_true]
  refine congrArg some (BitVec.eq_of_toNat_eq ?_)
  rw [toNat_largeAddress, hframe, hva, hoffset]

/-! ### Calls with a buffer elsewhere -/

/-- Between two states the running process has moved positions in its table, and nothing else has
changed that processes are told apart by. -/
structure Moved (k k' : Kernel) : Prop where
  same : SameProcesses k k'
  files : ∀ i, (k'.pcb k.running).files i =
    { k.current.files i with pos := ((k'.pcb k.running).files i).pos }

section Moved

variable {E : Env} {A : Addresses} {k k' : Kernel} {t : Target} {fd nbytes r : ℤ} {buf n : ℕ}

theorem Moved.of_pcb (hsame : SameProcesses k k') (hpcb : k'.pcb = k.pcb) : Moved k k' where
  same := hsame
  files _ := by
    rw [hpcb]
    rfl

theorem Moved.refl (k : Kernel) : Moved k k := .of_pcb (SameProcesses.refl k) rfl

theorem Moved.eax (h : Moved k k') (r : ℤ) : Moved k { k' with eax := r } :=
  ⟨h.same.trans (SameProcesses.eax k' r), h.files⟩

theorem storeByte_same {a : ℕ} {b : UInt8} (h : storeByte E a b k = some k') :
    SameProcesses k k' ∧ k'.pcb = k.pcb := by
  unfold storeByte at h
  split_ifs at h
  · cases h
    exact ⟨SameProcesses.setMem k _, rfl⟩
  · obtain ⟨pa, -, rfl⟩ := Option.map_eq_some_iff.1 h
    exact ⟨SameProcesses.terminals k _ _, rfl⟩

/-- One byte after the other. -/
theorem storeSpan_same {m : Memory} (h : storeSpan E buf n m k = some k') :
    SameProcesses k k' ∧ k'.pcb = k.pcb := by
  have hstep : ∀ k1 j k2, SameProcesses k k1 ∧ k1.pcb = k.pcb →
      storeByte E (buf + j) (m (buf + j)) k1 = some k2 → SameProcesses k k2 ∧ k2.pcb = k.pcb := by
    rintro k1 j k2 ⟨hsame, hpcb⟩ hstore
    obtain ⟨hsame', hpcb'⟩ := storeByte_same hstore
    exact ⟨hsame.trans hsame', hpcb'.trans hpcb⟩
  exact invariant_of_run hstep ⟨SameProcesses.refl k, rfl⟩ h

/-- A `read` that stores to no control block moves the position of its descriptor. -/
theorem moved_readFileTo
    (hstore : ∀ m k', t.store m k = some k' → SameProcesses k k' ∧ k'.pcb = k.pcb)
    (h : readFileTo E t fd buf nbytes k = some (r, k')) : Moved k k' := by
  have hadvance : ∀ m n k1, (k.current.files fd.toNat).flags ≠ 0 → t.store m k = some k1 →
      Moved k (k1.advance fd.toNat n) := by
    intro m n k1 hlive hk1
    obtain ⟨hsame, hpcb⟩ := hstore m k1 hk1
    have hcurrent : k1.current = k.current := by
      rw [Kernel.current, hpcb, hsame.running]
      rfl
    have hlive' : (k1.current.files fd.toNat).flags ≠ 0 := by rwa [hcurrent]
    refine ⟨hsame.trans (sameProcesses_advance k1 _ n hlive'), fun i => ?_⟩
    rw [← hcurrent, ← hsame.running]
    by_cases hi : i = fd.toNat
    · subst hi
      exact advance_pos k1 fd.toNat n
    · rw [advance_files hi]
  unfold readFileTo at h
  split_ifs at h with hrange hlive
  · cases h
    exact .refl k
  · unfold readDeviceTo at h
    split at h
    next => exact absurd h (by simp)
    next =>
      cases h
      exact .of_pcb (SameProcesses.devices k _) rfl
    next =>
      obtain ⟨k1, hk1, heq⟩ := Option.map_eq_some_iff.1 h
      cases heq
      exact hadvance _ _ k1 hlive hk1
    next =>
      obtain ⟨k1, hk1, heq⟩ := Option.map_eq_some_iff.1 h
      cases heq
      exact hadvance _ _ k1 hlive hk1
    next =>
      unfold terminalReadTo at h
      simp only at h
      split_ifs at h
      · cases h
        exact .refl k
      · obtain ⟨k1, hk1, heq⟩ := Option.map_eq_some_iff.1 h
        cases heq
        obtain ⟨hsame, hpcb⟩ := hstore _ k1 hk1
        exact .of_pcb (hsame.trans (SameProcesses.terminals k1 _ k1.text)) hpcb
  · cases h
    exact .refl k

theorem moved_readOutside (hoff : OffKernel buf (readSpan E fd buf nbytes k))
    (h : readOutside A E fd buf nbytes k = some (r, k')) : Moved k k' := by
  rw [readOutside] at h
  simp only [if_pos hoff] at h
  exact moved_readFileTo (fun m k' => storeSpan_same) h

/-- A `write` reads its buffer only. -/
theorem moved_writeOutside (h : writeOutside A E fd buf nbytes k = some (r, k')) : Moved k k' := by
  obtain ⟨-, h⟩ := Option.ite_none_right_eq_some.1 h
  obtain ⟨⟨r', k1⟩, hwrite, heq⟩ := Option.map_eq_some_iff.1 h
  cases heq
  have hsame := (SameProcesses.setMem k (A.seen k)).trans (sameProcesses_writeFile hwrite)
  have hpcb : k1.pcb = (k.setMem (A.seen k)).pcb := writeFile_pcb hwrite
  exact .of_pcb (hsame.trans (SameProcesses.userMem k1 k.userMem)) hpcb

end Moved

/-! ### Steps and runs -/

/-- A `read` stores nothing into the page of the kernel. -/
def KeepsKernel (E : Env) (k : Kernel) : Event → Prop
  | .read fd buf nbytes => OffKernel buf (readSpan E fd buf nbytes k)
  | _ => True

instance (E : Env) (k : Kernel) : ∀ e : Event, Decidable (KeepsKernel E k e)
  | .read _ _ _ => inferInstanceAs (Decidable (OffKernel _ _))
  | .key _ | .tick | .execute _ | .halt _ | .openFile _ | .closeFile _ | .arm _ _ | .write _ _ _
  | .getargs _ _ | .vidmap _ | .compute _ | .type _ | .rtcInterrupt => isTrue trivial

section Runs

variable {A : Addresses} {E : Env} {k k' : Kernel} {p : ℕ} {o : ℕ → Option ℕ} {e : Event}

/-- **A step whose `read` stores nothing into the page of the kernel** is one of `step`, or moves
positions. -/
theorem callStep_cases (hkeep : KeepsKernel E k e) (h : callStep A E k e = some k') :
    step E k e = some k' ∨ Moved k k' ∧ ∀ p i, slotOps E p i k e = [] := by
  obtain ⟨k1, hk1, rfl⟩ := Option.map_eq_some_iff.1 h
  have hown : dispatch E k.advanceClock e = some k1 → step E k e = some (k1.setIflag true) := by
    intro hdispatch
    rw [step, hdispatch, Option.map_some]
  have hmoved : ∀ {k2 : Kernel} (r : ℤ), Moved k.advanceClock k2 →
      Moved k (result (r, k2) |>.setIflag true) := fun r hm =>
    ⟨((SameProcesses.advanceClock k).trans (hm.eax r).same).trans (SameProcesses.setIflag _ true),
      hm.files⟩
  cases e with
  | read fd buf nbytes =>
    rw [callDispatch] at hk1
    split_ifs at hk1
    · exact Or.inl (hown hk1)
    · obtain ⟨⟨r, k2⟩, hread, rfl⟩ := Option.map_eq_some_iff.1 hk1
      exact Or.inr ⟨hmoved r (moved_readOutside hkeep hread), fun _ _ => rfl⟩
  | write fd buf nbytes =>
    rw [callDispatch] at hk1
    split_ifs at hk1
    · exact Or.inl (hown hk1)
    · obtain ⟨⟨r, k2⟩, hwrite, rfl⟩ := Option.map_eq_some_iff.1 hk1
      exact Or.inr ⟨hmoved r (moved_writeOutside hwrite), fun _ _ => rfl⟩
  | _ => exact Or.inl (hown hk1)

/-- What the theorem needs of a state besides the table of the process. -/
structure WfFiles (k : Kernel) : Prop where
  wf : Wf k
  files : FilesReady k

theorem wfFiles_callStep (hk : WfFiles k) (hkeep : KeepsKernel E k e)
    (h : callStep A E k e = some k') : WfFiles k' := by
  rcases callStep_cases hkeep h with hstep | ⟨hm, -⟩
  · exact ⟨wf_step hk.wf hstep, filesReady_step hk.files hstep⟩
  · exact ⟨hm.same.wf hk.wf, hm.same.filesReady hk.files⟩

theorem wfFiles_run {es : List Event} (hkeep : Guarded (callStep A E) (KeepsKernel E) (boot E) es)
    (hrun : run (callStep A E) (boot E) es = some k) : WfFiles k :=
  invariant_of_guarded (fun _ _ _ => wfFiles_callStep) ⟨wf_boot E, filesReady_boot E⟩ hkeep hrun

/-- **One step and the table of a process**, with buffers anywhere but in the kernel. -/
theorem table_callStep (ht : TypesOk E.img) (hk : WfFiles k) (hall : Allocated k p)
    (htab : TableHolds o (k.pcb p).files) (hg : NotHaltOf p k e) (hkeep : KeepsKernel E k e)
    (h : callStep A E k e = some k') :
    TableHolds (fun i => lastOp (o i) (slotOps E p i k e)) (k'.pcb p).files ∧ Allocated k' p := by
  rcases callStep_cases hkeep h with hstep | ⟨hm, hops⟩
  · exact table_step ht hk.wf hk.files hall htab hg hstep
  · refine ⟨fun i hi => ?_, (hm.same.allocated p).2 hall⟩
    simp only [hops]
    by_cases hp : p = k.running
    · subst hp
      have hready := hm.same.filesReady hk.files _
        ((hm.same.used _).2 (hk.wf.allocated_used _ hall))
      exact (htab i hi).of_pos (hm.files i) (hready i hi)
    · rw [hm.same.otherFiles p hp]
      exact htab i hi

/-- **A run and the table of a process.** -/
theorem table_callRun {es : List Event} (ht : TypesOk E.img) (hk : WfFiles k) (hall : Allocated k p)
    (htab : TableHolds o (k.pcb p).files)
    (hg : Guarded (callStep A E) (fun k e => NotHaltOf p k e ∧ KeepsKernel E k e) k es)
    (hrun : run (callStep A E) k es = some k') :
    TableHolds (fun i => lastOp (o i) (outputs (callStep A E) (slotOps E p i) k es))
      (k'.pcb p).files ∧ Allocated k' p := by
  induction es generalizing k o with
  | nil =>
    cases hrun
    exact ⟨htab, hall⟩
  | cons e es ih =>
    obtain ⟨k1, hk1, hrest⟩ := run_cons_eq_some.1 hrun
    obtain ⟨⟨hhalt, hkeep⟩, hg1⟩ := hg k1 hk1
    obtain ⟨htab1, hall1⟩ := table_callStep ht hk hall htab hhalt hkeep hk1
    have hend := ih (wfFiles_callStep hk hkeep hk1) hall1 htab1 hg1 hrest
    simp only [outputs_cons hk1, lastOp_append]
    exact hend

/-- A step that starts a process is one of `step`. -/
theorem step_of_starts (hkeep : KeepsKernel E k e) (h : callStep A E k e = some k')
    (hp : Starts k k' p) : step E k e = some k' := by
  rcases callStep_cases hkeep h with hstep | ⟨hm, -⟩
  · exact hstep
  · obtain ⟨s, hs, -⟩ := hp
    rw [hm.same.starts] at hs
    exact absurd (congrArg List.length hs) (by simp)

end Runs

/-! ### The descriptor table -/

/-- What the table of a process is after the histories `ops` of its descriptors. -/
structure TableLaws (files : ℕ → Fd) (ops : ℕ → List (Option ℕ)) : Prop where
  /-- the descriptors 0 and 1 are the terminal -/
  terminal : ∀ i < 2, (files i).flags = fdLive ∧ (files i).fops = some .term
  /-- any other is live exactly if its last call was an `open` -/
  live_iff : ∀ i, 2 ≤ i → i < fileArrayLen →
    ((files i).flags ≠ 0 ↔ ∃ ftype, (ops i).getLast? = some (some ftype))
  opened : ∀ i ftype, 2 ≤ i → i < fileArrayLen → (ops i).getLast? = some (some ftype) →
    (files i).fops = getDeviceFops ftype ∧ (files i).fops ≠ none
  closed : ∀ i < fileArrayLen, (files i).flags = 0 → (files i).fops = none ∧ (files i).pos = 0

/-- What the calls of the running process do to its table. -/
structure CallLaws (A : Addresses) (E : Env) (k : Kernel) : Prop where
  openFile_takes : ∀ s i, 2 ≤ i → i < fileArrayLen → (k.current.files i).flags = 0 →
    (∀ j, 2 ≤ j → j < i → (k.current.files j).flags ≠ 0) → Found E.img s →
      ∃ fd d, openFile E s k = some ((i : ℤ), k.setSlot i fd d) ∧
        Holds (some (foundType E.img s)) fd ∧ fd.pos = 0
  openFile_fails : ∀ s,
    (∀ i, 2 ≤ i → i < fileArrayLen → (k.current.files i).flags ≠ 0) ∨ ¬ Found E.img s →
      openFile E s k = some (-1, k)
  closeFile_frees : ∀ fd : ℤ,
    2 ≤ fd ∧ fd < fileArrayLen ∧ (k.current.files fd.toNat).flags ≠ 0 →
      ∃ d, closeFile fd k =
        some (0, k.setSlot fd.toNat (closedFd (k.current.files fd.toNat)) d)
  closeFile_fails : ∀ fd : ℤ,
    ¬ (2 ≤ fd ∧ fd < fileArrayLen ∧ (k.current.files fd.toNat).flags ≠ 0) →
      closeFile fd k = some (-1, k)
  readWrite_fails : ∀ (fd : ℤ) (buf : ℕ) (nbytes : ℤ),
    fd < 0 ∨ (fileArrayLen : ℤ) ≤ fd ∨ (k.current.files fd.toNat).flags = 0 →
      callDispatch A E k (.read fd buf nbytes) = some { k with eax := -1 } ∧
        callDispatch A E k (.write fd buf nbytes) = some { k with eax := -1 }

section Laws

variable {A : Addresses} {E : Env} {k k' : Kernel} {p : ℕ}

theorem TableHolds.tableLaws {files : ℕ → Fd} {ops : ℕ → List (Option ℕ)}
    (h : TableHolds (fun i => lastOp (initialOp i) (ops i)) files)
    (h2 : ∀ i < 2, ops i = []) : TableLaws files ops where
  terminal i hi := by
    have hheld := h i (hi.trans (by decide))
    simp only [h2 i hi, lastOp_nil, initialOp, if_pos hi] at hheld
    exact ⟨hheld.1, hheld.2.1⟩
  live_iff i hi h8 := by
    have hheld := h i h8
    simp only [initialOp, if_neg (Nat.not_lt.2 hi)] at hheld
    rw [hheld.live_iff, lastOp]
    cases (ops i).getLast? with
    | none => simp
    | some x =>
      cases x with
      | none => simp
      | some ftype => simp
  opened i ftype hi h8 hlast := by
    have hheld := h i h8
    simp only [lastOp, hlast, Option.getD_some] at hheld
    exact ⟨hheld.2.1, hheld.2.1 ▸ hheld.2.2⟩
  closed i h8 hflags := by
    have hheld := h i h8
    have hnone : lastOp (initialOp i) (ops i) = none := by
      by_contra hne
      exact hheld.live_iff.2 hne hflags
    simp only [hnone] at hheld
    exact hheld.2

/-- **`read` and `write`**, whatever the buffer. -/
theorem callDispatch_refused (hr : k.running ≠ 0) {fd : ℤ}
    (h : fd < 0 ∨ (fileArrayLen : ℤ) ≤ fd ∨ (k.current.files fd.toNat).flags = 0) (buf : ℕ)
    (nbytes : ℤ) :
    callDispatch A E k (.read fd buf nbytes) = some { k with eax := -1 } ∧
      callDispatch A E k (.write fd buf nbytes) = some { k with eax := -1 } := by
  obtain ⟨hread, hwrite⟩ := readWrite_law (E := E) h buf nbytes
  have hspan : PageHolds buf (readSpan E fd buf nbytes k) := by
    refine Or.inl ?_
    rw [readSpan, if_pos (by tauto)]
  have hspan' : PageHolds buf (writeSpan fd buf nbytes k) := by
    refine Or.inl ?_
    rw [writeSpan, if_pos (by omega)]
  constructor
  · rw [callDispatch, if_pos (Or.inr hspan)]
    simp only [dispatch, if_neg hr, if_pos hspan, hread, Option.map_some, result]
  · rw [callDispatch, if_pos (Or.inr hspan')]
    simp only [dispatch, if_neg hr, if_pos hspan', hwrite, Option.map_some, result]

theorem callLaws_of_tableOk (ht : TypesOk E.img) (htab : TableOk k.current.files)
    (hr : k.running ≠ 0) : CallLaws A E k where
  openFile_takes s i h2 h8 hflags hleast hfound :=
    (openFile_law ht htab s).2 i (freeFd_eq_some_iff.2 ⟨h2, h8, hflags, hleast⟩) hfound
  openFile_fails s hcannot :=
    (openFile_law ht htab s).1 (hcannot.imp_left freeFd_eq_none_iff.2)
  closeFile_frees fd := (closeFile_law htab fd).1
  closeFile_fails fd := (closeFile_law htab fd).2
  readWrite_fails _ buf nbytes h := callDispatch_refused hr h buf nbytes

/-- **The descriptor table.**  In every run from the start of a process on in which it does not
halt, and in which no `read` stores into the page of the kernel, its descriptors are what their
histories say, and its calls keep to the laws of the table.  The events of other processes may come
in between. -/
theorem descriptors_ok (ht : TypesOk E.img) {k0 k1 k2 : Kernel} {e : Event} {es0 es : List Event}
    (hkeep : Guarded (callStep A E) (KeepsKernel E) (boot E) (es0 ++ [e] ++ es))
    (hrun0 : run (callStep A E) (boot E) es0 = some k0) (hstep : callStep A E k0 e = some k1)
    (hstart : Starts k0 k1 p) (hlive : Guarded (callStep A E) (NotHaltOf p) k1 es)
    (hrun : run (callStep A E) k1 es = some k2) :
    TableLaws (k2.pcb p).files (fun i => outputs (callStep A E) (slotOps E p i) k1 es) ∧
      (k2.running = p → CallLaws A E k2) := by
  have hrun1 : run (callStep A E) (boot E) (es0 ++ [e]) = some k1 := by
    rw [run_concat e hrun0, hstep]
  obtain ⟨hkeep01, hkeep1⟩ := (guarded_append hrun1).1 hkeep
  obtain ⟨hkeep0, hkeep0'⟩ := (guarded_append hrun0).1 hkeep01
  obtain ⟨hall, htab⟩ := started_table (step_of_starts (hkeep0' k1 hstep).1 hstep hstart) hstart
  obtain ⟨hend, hall2⟩ := table_callRun ht (wfFiles_run hkeep01 hrun1) hall htab
    (hlive.and hkeep1) hrun
  have hready2 := wfFiles_run hkeep (run_append_eq_some.2 ⟨k1, hrun1, hrun⟩)
  refine ⟨hend.tableLaws fun i hi => outputs_of_forall (slotOps_of_lt_two hi) _ _, ?_⟩
  rintro rfl
  exact callLaws_of_tableOk ht hend.tableOk
    (hready2.wf.running_ne_zero (hready2.wf.allocated_used _ hall2))

/-- The first event of the small machine starts its first shell. -/
theorem exists_firstShell : ∃ k1, callStep smallAddresses small (boot small) (.key 0) = some k1 ∧
    Starts (boot small) k1 1 := by
  have hfirst : ((callStep smallAddresses small (boot small) (.key 0)).map Kernel.starts) =
      some [⟨1, none, 0, .keyboard, 0, 0⟩] := by decide +kernel
  obtain ⟨k1, hstep, hstarts⟩ := Option.map_eq_some_iff.1 hfirst
  exact ⟨k1, hstep, _, hstarts, rfl⟩

/-- A file is read into the text page of the program, the control block of the process is written
to the screen, and of three descriptors the first is closed. -/
def roamingCalls : List Event :=
  [.openFile shell, .vidmap progVmStart, .read 2 progVidmemAddr 40, .write 1 (pcbAddr 1) 4,
    .openFile rtcName, .openFile dotName, .closeFile 2]

/-- The table of the first shell of the small machine. -/
theorem descriptors_ok_roaming : ∃ k1 k2,
    run (callStep smallAddresses small) k1 roamingCalls = some k2 ∧ k2.running = 1 ∧
      TableLaws (k2.pcb 1).files
        (fun i => outputs (callStep smallAddresses small) (slotOps small 1 i) k1 roamingCalls) ∧
      (k2.running = 1 → CallLaws smallAddresses small k2) := by
  have hsome : ((run (callStep smallAddresses small) (boot small)
      (.key 0 :: roamingCalls)).map Kernel.running) = some 1 := by decide +kernel
  obtain ⟨k1, hstep, hstart⟩ := exists_firstShell
  rw [run_cons_of_step hstep] at hsome
  obtain ⟨k2, hrun, hrunning⟩ := Option.map_eq_some_iff.1 hsome
  have hlive : Guarded (callStep smallAddresses small) (NotHaltOf 1) k1 roamingCalls :=
    guarded_of_mem (by simp [roamingCalls, NotHaltOf]) k1
  have hboot : run (callStep smallAddresses small) (boot small) [] = some (boot small) := rfl
  exact ⟨k1, k2, hrun, hrunning, descriptors_ok smallImg_wellFormed.types (by decide +kernel)
    hboot hstep hstart hlive hrun⟩

/-- A program reads the first bytes of a file into its own page and the next, which are zero, over
its descriptors 0 and 1. -/
def wipingCalls : List Event := [.openFile shell, .read 2 progVmStart 4, .read 2 (pcbAddr 1) 36]

/-- The descriptor 0 of a process need not stay a terminal. -/
theorem wipe_breaks_table : ∃ k1 k2,
    callStep smallAddresses small (boot small) (.key 0) = some k1 ∧ Starts (boot small) k1 1 ∧
      Guarded (callStep smallAddresses small) (NotHaltOf 1) k1 wipingCalls ∧
      run (callStep smallAddresses small) k1 wipingCalls = some k2 ∧
      ¬ TableLaws (k2.pcb 1).files
        (fun i => outputs (callStep smallAddresses small) (slotOps small 1 i) k1 wipingCalls) := by
  have hflags : ((run (callStep smallAddresses small) (boot small) (.key 0 :: wipingCalls)).map
      fun k => ((k.pcb 1).files 0).flags) = some 0 := by decide +kernel
  obtain ⟨k1, hstep, hstart⟩ := exists_firstShell
  rw [run_cons_of_step hstep] at hflags
  obtain ⟨k2, hrun, hzero⟩ := Option.map_eq_some_iff.1 hflags
  refine ⟨k1, k2, hstep, hstart, guarded_of_mem (by simp [wipingCalls, NotHaltOf]) k1, hrun,
    fun hlaws => ?_⟩
  have hlive := (hlaws.terminal 0 (by decide)).1
  rw [hzero] at hlive
  exact absurd hlive (by decide)

end Laws

end LinuxIsLove
