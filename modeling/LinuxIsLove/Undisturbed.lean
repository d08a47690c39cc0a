import LinuxIsLove.Source.Preempt
import LinuxIsLove.ProcessRefinement

/-!
# No process disturbs another

A byte of the memory of a process only changes when the process stores to it or a call of it does
(`memory_undisturbed`): whatever the other processes, the keyboard and the timer do, with the
program images that are loaded in between, leads elsewhere.  A process that makes no call finds its
memory, its directory and its control block as it left them (`process_undisturbed`).

Which bytes a call stores to is told by its span: a `read` of a directory puts a newline and a NUL
behind the name, and with a negative number of bytes a read has no other bound than what there is to
read.
-/

namespace LinuxIsLove

open Bytes EventMachine

/-- What a process has besides its control block. -/
structure SameOwn (k k' : Kernel) (p : ℕ) : Prop where
  userMem : k'.userMem p = k.userMem p
  pd : k'.pd p = k.pd p
  vidmapped : k'.vidmapped p = k.vidmapped p

namespace SameOwn

variable {k k' k'' : Kernel} {p : ℕ}

theorem of_eq (hmem : k'.userMem = k.userMem) (hpd : k'.pd = k.pd)
    (hvid : k'.vidmapped = k.vidmapped) : SameOwn k k' p :=
  ⟨by rw [hmem], by rw [hpd], by rw [hvid]⟩

theorem refl (k : Kernel) (p : ℕ) : SameOwn k k p := ⟨rfl, rfl, rfl⟩

theorem trans (h : SameOwn k k' p) (h' : SameOwn k' k'' p) : SameOwn k k'' p :=
  ⟨h'.userMem.trans h.userMem, h'.pd.trans h.pd, h'.vidmapped.trans h.vidmapped⟩

end SameOwn

section Steps

variable {E : Env} {k k' : Kernel} {p : ℕ} {site : Site} {command : CString} {frame : Token}

/-! ### The parts of the kernel -/

theorem sameOwn_setMem (h : p ≠ k.running) (mem : Memory) : SameOwn k (k.setMem mem) p :=
  ⟨Function.update_of_ne h .., rfl, rfl⟩

theorem sameOwn_execute (hp : Allocated k p) (h : execute E site command k = some k') :
    SameOwn k k' p := by
  obtain ⟨pid, dentry, args, -, -, -, hfree, rfl⟩ := execute_spec h
  have hne : p ≠ pid := fun heq => hfree (heq ▸ hp)
  exact ⟨Function.update_of_ne hne .., Function.update_of_ne hne .., Function.update_of_ne hne ..⟩

theorem sameOwn_schedule (h : schedule frame k = some k') : SameOwn k k' p := by
  obtain ⟨next, -, ⟨-, rfl⟩ | ⟨-, rfl⟩⟩ := schedule_spec h
  · exact SameOwn.refl _ p
  · exact SameOwn.of_eq rfl rfl rfl

theorem sameOwn_pitHandlerMain (hp : Allocated k p) (h : pitHandlerMain E k = some k') :
    SameOwn k k' p := by
  have hsaved : ∀ b, SameOwn k { saveContext ⟨.pit, k.clock⟩ k with nextExecute := b } p :=
    fun b => SameOwn.of_eq rfl rfl rfl
  rcases pitHandlerMain_spec h with ⟨-, rfl⟩ | ⟨-, ⟨-, hexec⟩ | ⟨-, -, hs⟩ | ⟨-, hs⟩⟩
  · exact SameOwn.refl _ p
  · exact (hsaved false).trans (sameOwn_execute hp hexec)
  · exact (hsaved false).trans (sameOwn_schedule hs)
  · exact (hsaved k.nextExecute).trans (sameOwn_schedule hs)

theorem sameOwn_startTerminal (hp : Allocated k p) {t : ℕ} (h : startTerminal E t k = some k') :
    SameOwn k k' p := by
  rcases startTerminal_spec h with ⟨-, rfl⟩ | ⟨-, -, -, ⟨-, rfl⟩ | ⟨-, -, rfl⟩ | ⟨-, -, hexec⟩⟩
  · exact SameOwn.refl _ p
  · exact SameOwn.of_eq rfl rfl rfl
  · exact SameOwn.of_eq rfl rfl rfl
  · have hdisplayed : SameOwn k { k with currentTerminal := t } p := SameOwn.of_eq rfl rfl rfl
    exact hdisplayed.trans (sameOwn_execute hp hexec)

theorem sameOwn_continueFrame (hp : Allocated k p) (h : continueFrame E frame k = some k') :
    SameOwn k k' p := by
  rcases continueFrame_spec h with ⟨-, rfl⟩ | ⟨-, hs⟩ | ⟨-, hexec⟩
  · exact SameOwn.refl _ p
  · exact sameOwn_schedule hs
  · exact sameOwn_execute hp hexec

theorem sameOwn_halted (k : Kernel) (d : Devices) : SameOwn k (halted k d) p := by
  unfold halted deleteProcess
  split_ifs <;> exact SameOwn.of_eq rfl rfl rfl

theorem sameOwn_halt (hw : Wf k) (hr : k.running ≠ 0) (hp : Allocated k p) (hne : p ≠ k.running)
    {status : UInt8} (h : halt E status k = some k') : SameOwn k k' p := by
  obtain ⟨d, hfinish⟩ := halt_spec h
  have hp' : Allocated (halted k d) p := (allocated_halted hw hr d).2 ⟨hp, hne⟩
  rcases haltFinish_spec hfinish with ⟨parent, -, hcont⟩ | ⟨-, hexec⟩
  · have hret : SameOwn (halted k d) (returnToParent parent status (halted k d)) p :=
      SameOwn.of_eq rfl rfl rfl
    exact ((sameOwn_halted k d).trans hret).trans (sameOwn_continueFrame hp' hcont)
  · have hdrop : SameOwn (halted k d) (dropBase (halted k d)) p := SameOwn.of_eq rfl rfl rfl
    exact ((sameOwn_halted k d).trans hdrop).trans (sameOwn_execute hp' hexec)

/-! ### The system calls of another process -/

theorem sameOwn_readFile {fd nbytes r : ℤ} {buf : ℕ} (hne : p ≠ k.running)
    (h : readFile E fd buf nbytes k = some (r, k')) : SameOwn k k' p := by
  cases readEffect_of_readFile h with
  | failed => exact SameOwn.refl k p
  | clock => exact SameOwn.of_eq rfl rfl rfl
  | copied mem n => exact (sameOwn_setMem hne mem).trans (SameOwn.of_eq rfl rfl rfl)
  | line mem => exact (sameOwn_setMem hne mem).trans (SameOwn.of_eq rfl rfl rfl)

theorem sameOwn_openFile {r : ℤ} {filename : CString} (h : openFile E filename k = some (r, k')) :
    SameOwn k k' p := by
  rcases openFile_cases h with ⟨-, rfl⟩ | ⟨i, fd, d, -, -, rfl, -, -, rfl⟩
  · exact SameOwn.refl _ p
  · exact SameOwn.of_eq rfl rfl rfl

theorem sameOwn_closeFile {fd r : ℤ} (h : closeFile fd k = some (r, k')) : SameOwn k k' p := by
  rcases closeFile_cases h with ⟨-, rfl⟩ | ⟨d, -, -, -, -, -, rfl⟩
  · exact SameOwn.refl _ p
  · exact SameOwn.of_eq rfl rfl rfl

theorem sameOwn_armFile (fd : ℤ) (buf : ℕ) (k : Kernel) : SameOwn k (armFile fd buf k) p := by
  unfold armFile armTerminal
  split_ifs <;> exact SameOwn.of_eq rfl rfl rfl

theorem sameOwn_writeFile {fd nbytes r : ℤ} {buf : ℕ}
    (h : writeFile E fd buf nbytes k = some (r, k')) : SameOwn k k' p := by
  cases writeEffect_of_writeFile h with
  | failed => exact SameOwn.refl k p
  | clock freq => exact SameOwn.of_eq rfl rfl rfl
  | text hscreen =>
    rw [terminalWrite, if_neg hscreen.2.2.2.2]
    exact SameOwn.of_eq rfl rfl rfl

theorem sameOwn_typeKey {key : ℕ} (h : typeKey E key k = some k') : SameOwn k k' p := by
  unfold typeKey at h
  split_ifs at h
  cases h
  exact SameOwn.of_eq rfl rfl rfl

theorem sameOwn_getargs (hne : p ≠ k.running) (buf : ℕ) (nbytes : ℤ) :
    SameOwn k (getargs buf nbytes k).2 p := by
  unfold getargs
  simp only
  split_ifs
  · exact SameOwn.refl k p
  · exact sameOwn_setMem hne _

theorem sameOwn_vidmap (hw : Wf k) (hr : k.running ≠ 0) (hne : p ≠ k.running) {screenStart : ℕ}
    {r : ℤ} (hbuf : PageHolds screenStart (vidmapSpan screenStart))
    (h : vidmap E screenStart k = some (r, k')) : SameOwn k k' p := by
  have hpd : k.current.pd = k.running := (hw.current_ok hr).pd
  rcases vidmap_cases hbuf h with ⟨-, -, rfl⟩ | ⟨-, -, -, rfl⟩
  · exact SameOwn.refl _ p
  · refine ⟨Function.update_of_ne hne .., Function.update_of_ne ?_ .., Function.update_of_ne hne ..⟩
    show p ≠ k.current.pd
    rwa [hpd]

/-! ### A step -/

/-- **What an event leaves to a process**: all that it has, unless it makes the call itself. -/
theorem sameOwn_dispatch {e : Event} (hw : Wf k) (hp : Allocated k p)
    (hidle : k.running = p → e.isInterrupt) (h : dispatch E k e = some k') : SameOwn k k' p := by
  have hne : ¬ e.isInterrupt → p ≠ k.running := fun hi heq => hi (hidle heq.symm)
  cases effect_of_dispatch h with
  | key t hstart => exact sameOwn_startTerminal hp hstart
  | tick htimer => exact sameOwn_pitHandlerMain hp htimer
  | type key htype => exact sameOwn_typeKey htype
  | rtcInterrupt => exact SameOwn.of_eq rfl rfl rfl
  | executed command hr hexec => exact sameOwn_execute hp hexec
  | notExecuted => exact SameOwn.of_eq rfl rfl rfl
  | halt status hr hend => exact sameOwn_halt hw hr hp (hne Bool.false_ne_true) hend
  | openFile _ _ hopen => exact (sameOwn_openFile hopen).trans (SameOwn.of_eq rfl rfl rfl)
  | closeFile _ _ hclose => exact (sameOwn_closeFile hclose).trans (SameOwn.of_eq rfl rfl rfl)
  | arm fd buf => exact sameOwn_armFile fd buf k
  | read _ _ _ _ _ hread =>
    exact (sameOwn_readFile (hne Bool.false_ne_true) hread).trans (SameOwn.of_eq rfl rfl rfl)
  | write _ _ _ _ _ hwrite => exact (sameOwn_writeFile hwrite).trans (SameOwn.of_eq rfl rfl rfl)
  | getargs buf nbytes =>
    exact (sameOwn_getargs (hne Bool.false_ne_true) buf nbytes).trans (SameOwn.of_eq rfl rfl rfl)
  | vidmap _ hr hbuf hmap =>
    exact (sameOwn_vidmap hw hr (hne Bool.false_ne_true) hbuf hmap).trans
      (SameOwn.of_eq rfl rfl rfl)
  | compute mem hr => exact sameOwn_setMem (hne Bool.false_ne_true) mem

/-! ### The calls of the process itself -/

/-- The address is none of the `n` from `buf` on. -/
def Outside (buf n a : ℕ) : Prop := a < buf ∨ buf + n ≤ a

instance (buf n a : ℕ) : Decidable (Outside buf n a) := inferInstanceAs (Decidable (_ ∨ _))

/-- What an event of the running process may not do to the byte `a` of its memory: a computation
stores nothing else there, and a call does not store there at all. -/
def Spares (E : Env) (a : ℕ) (k : Kernel) : Event → Prop
  | .halt _ => False
  | .read fd buf nbytes => Outside buf (readSpan E fd buf nbytes k) a
  | .getargs buf nbytes => Outside buf (getargsSpan nbytes k) a
  | .vidmap screenStart => Outside screenStart (vidmapSpan screenStart) a
  | .compute mem => mem a = k.mem a
  | _ => True

instance (E : Env) (a : ℕ) (k : Kernel) : (e : Event) → Decidable (Spares E a k e)
  | .halt _ => instDecidableFalse
  | .read fd buf nbytes => inferInstanceAs (Decidable (Outside buf (readSpan E fd buf nbytes k) a))
  | .getargs buf nbytes => inferInstanceAs (Decidable (Outside buf (getargsSpan nbytes k) a))
  | .vidmap screenStart =>
    inferInstanceAs (Decidable (Outside screenStart (vidmapSpan screenStart) a))
  | .compute mem => inferInstanceAs (Decidable (mem a = k.mem a))
  | .key _ | .tick | .execute _ | .openFile _ | .closeFile _ | .arm _ _ | .write _ _ _ | .type _
  | .rtcInterrupt => instDecidableTrue

theorem mem_setMem_of_eq {mem : Memory} {a : ℕ} (h : mem a = k.mem a) :
    (k.setMem mem).userMem k.running a = k.userMem k.running a := by
  show Function.update k.userMem k.running mem k.running a = _
  rw [Function.update_self]
  exact h

/-- Once the end of the file is reached nothing happens any more. -/
theorem readDataLoop_stopped {img : Image} {inode offset : ℕ} {s : ReadData}
    (hend : ¬ (s.bytesRead + offset) % 2 ^ 32 < inodeLength img inode) (n i : ℕ) :
    readDataLoop img inode offset n i s = s := by
  induction n generalizing i with
  | zero => rfl
  | succ n ih => rw [readDataLoop, readDataBody, if_neg hend, ih]

/-- The loop stores as many bytes as it counts, one behind the other. -/
theorem readDataLoop_outside {img : Image} {inode offset : ℕ} (n : ℕ) {i : ℕ} {s : ReadData}
    (hi : s.bytesRead = i) : i ≤ (readDataLoop img inode offset n i s).bytesRead ∧
      ∀ j, (readDataLoop img inode offset n i s).bytesRead ≤ j →
        (readDataLoop img inode offset n i s).buf j = s.buf j := by
  induction n generalizing i s with
  | zero => exact ⟨hi.ge, fun j _ => rfl⟩
  | succ n ih =>
    by_cases hleft : (s.bytesRead + offset) % 2 ^ 32 < inodeLength img inode
    · have hcount : (readDataBody img inode offset i s).bytesRead = i + 1 := by
        rw [readDataBody, if_pos hleft, ← hi]
        dsimp only
        split_ifs <;> rfl
      have hbuf : ∀ j, j ≠ i → (readDataBody img inode offset i s).buf j = s.buf j := by
        intro j hj
        rw [readDataBody, if_pos hleft]
        dsimp only
        split_ifs <;> exact Function.update_of_ne hj ..
      obtain ⟨hle, hrest⟩ := ih hcount
      rw [readDataLoop]
      refine ⟨by omega, fun j hj => ?_⟩
      rw [hrest j hj, hbuf j (by omega)]
    · rw [readDataLoop_stopped hleft]
      exact ⟨hi.ge, fun j _ => rfl⟩

theorem readData_outside {img : Image} {inode offset length j : ℕ} {buf : Memory}
    (hj : (readData img inode offset buf length).1.toNat ≤ j) :
    (readData img inode offset buf length).2 j = buf j := by
  unfold readData at hj ⊢
  split_ifs at hj ⊢
  · rfl
  · have hstart : (readDataStart img inode offset buf).bytesRead = 0 := rfl
    exact (readDataLoop_outside length hstart).2 j hj

/-- The name, the newline and the NUL. -/
theorem readDirectoryEntry_outside {img : Image} {pos length j : ℕ} {buf : Memory}
    (hpos : pos < dirEntriesCnt img)
    (hj : (readDirectoryEntry img pos buf length).1.toNat + 2 ≤ j) :
    (readDirectoryEntry img pos buf length).2 j = buf j := by
  unfold readDirectoryEntry at hj ⊢
  rw [if_neg (not_le.2 hpos)] at hj ⊢
  have hloop := readDirectoryEntryLoop_eq (readDentryByIndex img pos fun _ => 0).2 length buf
    (strlen (readDentryByIndex img pos fun _ => 0).2 0) 0
  simp only [Nat.zero_min, Nat.zero_add, copy_zero] at hloop
  simp only [hloop, Int.toNat_natCast] at hj ⊢
  rw [Function.update_of_ne (by omega), Function.update_of_ne (by omega), copy_of_le (by omega)]

theorem drain_outside {t : Terminal} {nbytes : ℤ} {buf : Memory} {j : ℕ}
    (hj : u32 (min nbytes lineBufMax) ≤ j) : (drain t nbytes buf).2.1 j = buf j := by
  have hmax : (if nbytes > lineBufMax then (lineBufMax : ℤ) else nbytes) =
      min nbytes lineBufMax := by
    split_ifs <;> omega
  simp only [drain, hmax]
  exact copy_of_le hj

theorem splice_outside {m w : Memory} {q n a : ℕ} (hw : ∀ j, n ≤ j → w j = window m q j)
    (ha : Outside q n a) : splice m q w a = m a := by
  unfold Outside at ha
  unfold splice
  split_ifs with hq
  · rw [hw _ (by omega), window]
    congr 1
    omega
  · rfl

/-- A `read` stores nowhere else than its span says. -/
theorem readFile_spares {fd nbytes r : ℤ} {buf a : ℕ}
    (ha : Outside buf (readSpan E fd buf nbytes k) a)
    (h : readFile E fd buf nbytes k = some (r, k')) :
    k'.userMem k.running a = k.userMem k.running a := by
  unfold readFile at h
  split_ifs at h with hrange hlive
  · cases h
    rfl
  · have hserved : ¬ (fd < 0 ∨ fd = 1 ∨ (fileArrayLen : ℤ) ≤ fd ∨
        (k.current.files fd.toNat).flags = 0) := by tauto
    simp only [readSpan, if_neg hserved] at ha
    unfold readDevice at h
    split at h
    next => exact absurd h (by simp)
    next =>
      cases h
      rfl
    next hfops =>
      rw [Option.some.injEq] at h
      obtain rfl : (dirRead E fd.toNat buf nbytes k).2 = k' := congrArg Prod.snd h
      simp only [hfops] at ha
      by_cases hpos : (k.current.files fd.toNat).pos < dirEntriesCnt E.img
      · rw [if_pos hpos] at ha
        exact mem_setMem_of_eq (splice_outside (fun j hj => readDirectoryEntry_outside hpos hj) ha)
      · have hend : readDirectoryEntry E.img (k.current.files fd.toNat).pos (window k.mem buf)
            (u32 nbytes) = (0, window k.mem buf) := if_pos (not_lt.1 hpos)
        simp only [dirRead, hend, splice_window]
        exact mem_setMem_of_eq rfl
    next hfops =>
      rw [Option.some.injEq] at h
      obtain rfl : (fsRead E fd.toNat buf nbytes k).2 = k' := congrArg Prod.snd h
      simp only [hfops] at ha
      exact mem_setMem_of_eq (splice_outside (fun j hj => readData_outside hj) ha)
    next hfops =>
      simp only [hfops] at ha
      unfold terminalRead at h
      simp only at h
      split_ifs at h with hbuf henter
      · cases h
        rfl
      · rw [if_neg hbuf] at ha
        cases h
        exact mem_setMem_of_eq (splice_outside (fun j hj => drain_outside hj) ha)
  · cases h
    rfl

theorem getargs_spares {buf a : ℕ} {nbytes : ℤ} (ha : Outside buf (getargsSpan nbytes k) a) :
    (getargs buf nbytes k).2.userMem k.running a = k.userMem k.running a := by
  unfold getargs
  unfold getargsSpan at ha
  simp only
  split_ifs at ha ⊢
  · rfl
  · refine mem_setMem_of_eq (splice_outside (fun j hj => ?_) ha)
    rw [Function.update_of_ne (by omega), copy_of_le (by omega)]

theorem vidmap_spares {screenStart a : ℕ} {r : ℤ}
    (hbuf : PageHolds screenStart (vidmapSpan screenStart))
    (ha : Outside screenStart (vidmapSpan screenStart) a)
    (h : vidmap E screenStart k = some (r, k')) :
    k'.userMem k.running a = k.userMem k.running a := by
  rcases vidmap_cases hbuf h with ⟨-, -, rfl⟩ | ⟨hno, -, -, rfl⟩
  · rfl
  · rw [vidmapSpan, if_neg hno] at ha
    exact mem_setMem_of_eq (if_neg (by unfold Outside at ha; omega))

/-- An event that spares a byte of the running process does not change it. -/
theorem dispatch_spares {e : Event} {a : ℕ} (hp : Allocated k p) (hr : k.running = p)
    (ha : Spares E a k e) (h : dispatch E k e = some k') : k'.userMem p a = k.userMem p a := by
  subst hr
  cases effect_of_dispatch h with
  | key t hstart => rw [(sameOwn_startTerminal hp hstart).userMem]
  | tick htimer => rw [(sameOwn_pitHandlerMain hp htimer).userMem]
  | type key htype => rw [(sameOwn_typeKey (p := k.running) htype).userMem]
  | rtcInterrupt => rfl
  | executed command hr hexec => rw [(sameOwn_execute hp hexec).userMem]
  | notExecuted => rfl
  | halt status hr hend => exact ha.elim
  | openFile _ _ hopen => exact congrFun (sameOwn_openFile hopen).userMem a
  | closeFile _ _ hclose => exact congrFun (sameOwn_closeFile hclose).userMem a
  | arm fd buf => rw [(sameOwn_armFile fd buf k).userMem]
  | read _ _ _ _ _ hread => exact (readFile_spares ha hread :)
  | write _ _ _ _ _ hwrite => exact congrFun (sameOwn_writeFile hwrite).userMem a
  | getargs buf nbytes => exact getargs_spares ha
  | vidmap _ _ hbuf hmap => exact (vidmap_spares hbuf ha hmap :)
  | compute mem => exact mem_setMem_of_eq ha

end Steps

/-! ### Runs -/

section Runs

variable {E : Env} {k k' : Kernel} {p a : ℕ} {e : Event} {es : List Event}

theorem notHaltOf_of_interrupt (h : k.running = p → e.isInterrupt) : NotHaltOf p k e := by
  cases e with
  | halt status => exact fun hr => Bool.false_ne_true (h hr)
  | _ => trivial

theorem notHaltOf_of_spares (h : k.running = p → Spares E a k e) : NotHaltOf p k e := by
  cases e with
  | halt status => exact fun hr => h hr
  | _ => trivial

theorem sameOwn_step (hw : Wf k) (hp : Allocated k p) (hidle : k.running = p → e.isInterrupt)
    (h : step E k e = some k') : SameOwn k k' p := by
  obtain ⟨k1, hk1, rfl⟩ := Option.map_eq_some_iff.1 h
  have hw0 : Wf k.advanceClock := (SameProcesses.advanceClock k).wf hw
  have hbody : SameOwn k.advanceClock k1 p := sameOwn_dispatch hw0 hp hidle hk1
  exact ⟨hbody.userMem, hbody.pd, hbody.vidmapped⟩

theorem step_spares (hw : Wf k) (hp : Allocated k p) (ha : k.running = p → Spares E a k e)
    (h : step E k e = some k') :
    k'.userMem p a = k.userMem p a := by
  by_cases hr : k.running = p
  · obtain ⟨k1, hk1, rfl⟩ := Option.map_eq_some_iff.1 h
    have hspare : Spares E a k.advanceClock e := by
      have hk := ha hr
      cases e <;> exact hk
    have hbody := dispatch_spares (k := k.advanceClock) hp hr hspare hk1
    exact hbody
  · rw [(sameOwn_step hw hp (fun heq => absurd heq hr) h).userMem]

/-- An interrupt changes no more of the control block of the running process than the context. -/
theorem untouched_interrupt (hw : Wf k) (hp : Allocated k p) (he : e.isInterrupt)
    (h : step E k e = some k') : Untouched k k' p := by
  have hhalt : NotHaltOf p k e := notHaltOf_of_interrupt fun _ => he
  obtain ⟨k1, hk1, rfl⟩ := Option.map_eq_some_iff.1 h
  cases e with
  | key | tick => exact untouched_step hw (Or.inl hp) hhalt False.elim h
  | type key =>
    obtain ⟨-, hk⟩ := Option.ite_none_right_eq_some.1 hk1
    cases hk
    exact Untouched.of_eq rfl rfl
  | rtcInterrupt =>
    cases hk1
    exact Untouched.of_eq rfl rfl
  | _ => exact absurd he Bool.false_ne_true

/-- **The memory of a process is its own.**  In every run in which a process does not halt, a byte
of its memory only changes when the process stores to it itself or a call of it does, whatever other
processes are started, compute, read to buffers of their own page, and halt meanwhile. -/
theorem memory_undisturbed (hk : Reachable E k) (hp : Allocated k p)
    (hown : Guarded (step E) (fun k e => k.running = p → Spares E a k e) k es)
    (hrun : run (step E) k es = some k') :
    Allocated k' p ∧ k'.userMem p a = k.userMem p a := by
  have hinv := related_of_guarded (I := fun k => Wf k ∧ Allocated k p)
    (R := fun k k' => k'.userMem p a = k.userMem p a) (fun _ => rfl)
    (fun _ _ _ h h' => h'.trans h) (fun k e k' hI hgood hs => ?_) ⟨wf_reachable hk, hp⟩ hown hrun
  · exact ⟨hinv.1.2, hinv.2⟩
  · have hhalt := notHaltOf_of_spares hgood
    exact ⟨⟨wf_step hI.1 hs, (sameReturn_step hI.1 hI.2 hhalt hs).allocated⟩,
      step_spares hI.1 hI.2 hgood hs⟩

theorem reachable_step (hk : Reachable E k) (h : step E k e = some k') : Reachable E k' := by
  obtain ⟨es, hes⟩ := hk
  exact ⟨es ++ [e], (run_concat e hes).trans h⟩

/-- The second shell of the small machine reads files and its arguments, and a third shell is
started: a byte behind all the buffers stays as it is. -/
theorem memory_undisturbed_second :
    Allocated (smallState ([.key 0, .execute shell] ++ secondShell)) 2 ∧
      (smallState ([.key 0, .execute shell] ++ secondShell)).userMem 2 0x8000100 =
        (smallState [.key 0, .execute shell]).userMem 2 0x8000100 := by
  have hsome : (run (step small) (boot small)
      ([.key 0, .execute shell] ++ secondShell)).isSome = true := by decide +kernel
  obtain ⟨hk, hstep, hrun⟩ := second_run hsome
  refine memory_undisturbed (reachable_step hk hstep) ?_ ?_ hrun
  · decide +kernel
  · decide +kernel

/-- **A process that does nothing is left as it is.**  In every run in which a process makes no call
and does not compute, its memory, its page directory and its control block stay the same, but for
the context that the timer saves. -/
theorem process_undisturbed (hk : Reachable E k) (hp : Allocated k p)
    (hidle : Guarded (step E) (fun k e => k.running = p → e.isInterrupt) k es)
    (hrun : run (step E) k es = some k') :
    Allocated k' p ∧ SameOwn k k' p ∧ Untouched k k' p := by
  have hinv := related_of_guarded (I := fun k => Wf k ∧ Allocated k p)
    (R := fun k k' => SameOwn k k' p ∧ Untouched k k' p)
    (fun k => ⟨SameOwn.refl k p, Untouched.of_eq rfl rfl⟩)
    (fun _ _ _ h h' => ⟨h.1.trans h'.1, h.2.trans h'.2⟩) (fun k e k' hI hgood hs => ?_)
    ⟨wf_reachable hk, hp⟩ hidle hrun
  · exact ⟨hinv.1.2, hinv.2⟩
  · have hhalt := notHaltOf_of_interrupt hgood
    have hun : Untouched k k' p := by
      by_cases hr : k.running = p
      · exact untouched_interrupt hI.1 hI.2 (hgood hr) hs
      · exact untouched_step hI.1 (Or.inl hI.2) hhalt (fun _ => hr) hs
    exact ⟨⟨wf_step hI.1 hs, hun.allocated hI.2⟩, sameOwn_step hI.1 hI.2 hgood hs, hun⟩

/-- The first shell of the small machine waits for the second one, which reads files. -/
theorem process_undisturbed_first :
    Allocated (smallState ([.key 0, .execute shell] ++ secondShell)) 1 ∧
      SameOwn (smallState [.key 0, .execute shell])
        (smallState ([.key 0, .execute shell] ++ secondShell)) 1 ∧
      Untouched (smallState [.key 0, .execute shell])
        (smallState ([.key 0, .execute shell] ++ secondShell)) 1 := by
  have hsome : (run (step small) (boot small)
      ([.key 0, .execute shell] ++ secondShell)).isSome = true := by decide +kernel
  obtain ⟨hk, hstep, hrun⟩ := second_run hsome
  refine process_undisturbed (reachable_step hk hstep) ?_ ?_ hrun
  · decide +kernel
  · decide +kernel

end Runs

end LinuxIsLove
