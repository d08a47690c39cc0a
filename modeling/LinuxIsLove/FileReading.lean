import LinuxIsLove.ReadBounds
import LinuxIsLove.Untouched

/-!
# Reading a file through a descriptor

`open` leaves the position of the descriptor that it takes as it was.  That position is always 0:
`execute` and `close` reset it, and only reads of a live descriptor move it (`filesReady_step`).

From the `open` of a regular file on, a `Session` records the position of the descriptor.  Whatever
other events come in between, each read of the descriptor continues where the one before stopped
(`session_step`), so the reads together deliver the file from its start.
-/

namespace LinuxIsLove

open Bytes EventMachine

/-- An entry of the directory that names a regular file. -/
structure RegularFile (img : Image) (f : ℕ) : Prop where
  entry : f < dirEntriesCnt img
  ftype : Dentry.ftype (dentryAt img f) = fileFtype
  inode : Dentry.inode (dentryAt img f) < inodeCnt img

/-- The bytes of the file with a given inode. -/
def fileContents (img : Image) (inode : ℕ) : List UInt8 :=
  (List.range (inodeLength img inode)).map (fileByte img inode)

theorem fileContents_length (img : Image) (inode : ℕ) :
    (fileContents img inode).length = inodeLength img inode := by
  rw [fileContents, List.length_map, List.length_range]

/-! ### Calls of `read` -/

/-- A call of `read`: its arguments, its result, and the caller's memory before and after it. -/
structure ReadCall where
  buf : ℕ
  nbytes : ℕ
  result : ℤ
  before : Memory
  after : Memory

/-- What the call delivers: as many bytes at the start of the buffer as it says. -/
def ReadCall.bytes (c : ReadCall) : List UInt8 :=
  (List.range c.result.toNat).map (window c.after c.buf)

/-- The call delivers the part of a file from the position `d` on. -/
structure ReadCall.Takes (contents : List UInt8) (d : ℕ) (c : ReadCall) : Prop where
  result : c.result = (min c.nbytes (contents.length - d) : ℕ)
  bytes : c.bytes = (contents.drop d).take c.nbytes
  frame : ∀ a, ¬ (c.buf ≤ a ∧ a < c.buf + c.result.toNat) → c.after a = c.before a

/-- The calls deliver a file from the position `d` on, each where the one before stopped. -/
def Continues (contents : List UInt8) : ℕ → List ReadCall → Prop
  | _, [] => True
  | d, c :: cs => c.Takes contents d ∧ Continues contents (d + c.result.toNat) cs

section Continues

variable {contents : List UInt8} {d : ℕ} {cs : List ReadCall}

/-- Taking a slice in two parts. -/
theorem take_add_min (l : List UInt8) (d n m : ℕ) :
    (l.drop d).take n ++ (l.drop (d + min n (l.length - d))).take m = (l.drop d).take (n + m) := by
  have hdrop : l.drop (d + min n (l.length - d)) = (l.drop d).drop n := by
    rw [List.drop_drop]
    by_cases hn : n ≤ l.length - d
    · rw [min_eq_left hn]
    · rw [List.drop_eq_nil_of_le (by omega), List.drop_eq_nil_of_le (by omega)]
  rw [hdrop, List.take_add]

/-- Together the calls deliver what one call for the sum of their sizes would. -/
theorem Continues.bytes (h : Continues contents d cs) :
    cs.flatMap ReadCall.bytes = (contents.drop d).take (cs.map ReadCall.nbytes).sum := by
  induction cs generalizing d with
  | nil => simp
  | cons c cs ih =>
    obtain ⟨hc, hcs⟩ := h
    have hnat : c.result.toNat = min c.nbytes (contents.length - d) := by
      rw [hc.result, Int.toNat_natCast]
    rw [hnat] at hcs
    rw [List.flatMap_cons, List.map_cons, List.sum_cons, ih hcs, hc.bytes, take_add_min]

/-- Each call starts where the calls before it stopped. -/
theorem Continues.takes (h : Continues contents d cs) {pre post : List ReadCall} {c : ReadCall}
    (hcs : cs = pre ++ c :: post) :
    c.Takes contents (d + (pre.flatMap ReadCall.bytes).length) := by
  induction pre generalizing d cs with
  | nil =>
    subst hcs
    exact h.1
  | cons b pre ih =>
    subst hcs
    have hlen : b.bytes.length = b.result.toNat := by
      rw [ReadCall.bytes, List.length_map, List.length_range]
    have htakes := ih h.2 rfl
    rw [List.flatMap_cons, List.length_append, hlen, ← Nat.add_assoc]
    exact htakes

/-- The calls before a call continue the file on their own. -/
theorem Continues.left {pre post : List ReadCall} (h : Continues contents d (pre ++ post)) :
    Continues contents d pre := by
  induction pre generalizing d with
  | nil => trivial
  | cons b pre ih => exact ⟨h.1, ih h.2⟩

end Continues

/-! ### Descriptors that are not live have position 0 -/

def FilesReady (k : Kernel) : Prop := ∀ p, Used k p → FilesOk (k.pcb p).files

section FilesReady

variable {E : Env} {k k' : Kernel} {site : Site} {command : CString}

theorem SameProcesses.filesReady (h : SameProcesses k k') (hk : FilesReady k) :
    FilesReady k' := by
  intro p hp
  have hp' := hk p ((h.used p).1 hp)
  by_cases hr : p = k.running
  · subst hr
    have hfiles := h.filesOk hp'
    rwa [Kernel.current, h.running] at hfiles
  · rwa [h.otherFiles p hr]

/-- The descriptors that `execute` sets up have position 0. -/
theorem filesReady_execute (hk : FilesReady k) (h : execute E site command k = some k') :
    FilesReady k' := by
  obtain ⟨pid, dentry, args, -, -, -, -, rfl⟩ := execute_spec h
  intro p hp
  by_cases hpid : p = pid
  · subst hpid
    rw [startProcess_pcb_self]
    intro i hi _
    show (initFiles _ i).pos = 0
    unfold initFiles
    split_ifs
    · rfl
    · rfl
  · rw [startProcess_pcb_of_ne hpid]
    exact hk p ((used_startProcess.1 hp).resolve_left hpid)

theorem SameBlocks.filesReady (h : SameBlocks k k') (hk : FilesReady k) : FilesReady k' := by
  intro p hp
  rw [h.pcb p]
  exact hk p ((h.used p).1 hp)

theorem filesReady_step {e : Event} (hk : FilesReady k) (h : step E k e = some k') :
    FilesReady k' :=
  block_rule (fun _ _ hblocks hk => hblocks.filesReady hk)
    (fun _ _ _ _ hexec hk => filesReady_execute hk hexec) (fun _ hsame => hsame.filesReady hk) hk h

theorem filesReady_boot (E : Env) : FilesReady (boot E) := fun p hp => by simp [Used, boot] at hp

theorem filesReady_reachable (h : Reachable E k) : FilesReady k := by
  obtain ⟨es, hrun⟩ := h
  exact invariant_of_run (fun _ _ _ => filesReady_step) (filesReady_boot E) hrun

end FilesReady

/-! ### The descriptors of the running process -/

section Slots

variable {E : Env} {k k' : Kernel} {r : ℤ} {i : ℕ}

theorem freeFd_spec {files : ℕ → Fd} (h : freeFd files = some i) :
    2 ≤ i ∧ i < fileArrayLen ∧ (files i).flags = 0 := by
  have hmem := List.mem_of_find?_eq_some h
  have hflags := List.find?_some h
  simp only [List.mem_cons, List.not_mem_nil, or_false] at hmem
  simp only [decide_eq_true_eq] at hflags
  simp only [fileArrayLen]
  omega

/-- `open` takes a descriptor that is not live. -/
theorem openFile_files {filename : CString} (h : openFile E filename k = some (r, k'))
    (hlive : (k.current.files i).flags ≠ 0) :
    (k'.pcb k.running).files i = k.current.files i := by
  rcases openFile_cases h with ⟨-, rfl⟩ | ⟨j, fd, d, hfree, -, -, -, -, rfl⟩
  · rfl
  · have hne : i ≠ j := by
      rintro rfl
      exact hlive (freeFd_spec hfree).2.2
    simp only [Kernel.setSlot, Kernel.setFiles_pcb_self, Function.update_of_ne hne]

theorem closeFile_files {fd : ℤ} (h : closeFile fd k = some (r, k')) (hne : fd ≠ i) :
    (k'.pcb k.running).files i = k.current.files i := by
  rcases closeFile_cases h with ⟨-, rfl⟩ | ⟨d, h2, -, -, -, -, rfl⟩
  · rfl
  · have hne' : i ≠ fd.toNat := by omega
    simp only [Kernel.setSlot, Kernel.setFiles_pcb_self, Function.update_of_ne hne']

theorem advance_files {j n : ℕ} (hne : i ≠ j) :
    ((k.advance j n).pcb k.running).files i = k.current.files i := by
  simp only [Kernel.advance, Kernel.setFiles_pcb_self, Function.update_of_ne hne]

theorem advance_files_self (k : Kernel) (i n : ℕ) :
    ((k.advance i n).pcb k.running).files i =
      { k.current.files i with pos := ((k.current.files i).pos + n) % 2 ^ 32 } := by
  simp only [Kernel.advance, Kernel.setFiles_pcb_self, Function.update_self]

theorem readFile_files {fd : ℤ} {buf : ℕ} {nbytes : ℤ}
    (h : readFile E fd buf nbytes k = some (r, k')) (hne : fd ≠ i) :
    (k'.pcb k.running).files i = k.current.files i := by
  cases readEffect_of_readFile h with
  | failed => rfl
  | clock => rfl
  | copied mem n hrange hlive =>
    have hne' : i ≠ fd.toNat := by omega
    exact advance_files (k := k.setMem mem) hne'
  | line mem nbytes dst => rfl

theorem writeFile_pcb {fd : ℤ} {buf : ℕ} {nbytes : ℤ}
    (h : writeFile E fd buf nbytes k = some (r, k')) : k'.pcb = k.pcb := by
  cases writeEffect_of_writeFile h with
  | failed => rfl
  | clock freq => rfl
  | text hscreen => rw [terminalWrite, if_neg hscreen.2.2.2.2]

theorem armFile_pcb (fd : ℤ) (buf : ℕ) (k : Kernel) : (armFile fd buf k).pcb = k.pcb := by
  unfold armFile armTerminal
  split_ifs <;> rfl

theorem getargs_pcb (buf : ℕ) (nbytes : ℤ) (k : Kernel) : (getargs buf nbytes k).2.pcb = k.pcb := by
  unfold getargs
  simp only
  split_ifs <;> rfl

theorem vidmap_pcb {screenStart : ℕ} (hbuf : PageHolds screenStart (vidmapSpan screenStart))
    (h : vidmap E screenStart k = some (r, k')) : k'.pcb = k.pcb := by
  rcases vidmap_cases hbuf h with ⟨-, -, rfl⟩ | ⟨-, -, -, rfl⟩ <;> rfl

theorem typeKey_pcb {key : ℕ} (h : typeKey E key k = some k') : k'.pcb = k.pcb := by
  unfold typeKey at h
  split_ifs at h
  cases h
  rfl

/-- A quiet event changes a live descriptor only by a `close` or a `read` of it. -/
theorem dispatch_files {e : Event} (hq : e.quiet) (hlive : (k.current.files i).flags ≠ 0)
    (hclose : e ≠ .closeFile i) (hread : ∀ buf nbytes, e ≠ .read i buf nbytes)
    (h : dispatch E k e = some k') : (k'.pcb k.running).files i = k.current.files i := by
  have hsame : ∀ pcb : ℕ → Pcb, pcb = k.pcb → (pcb k.running).files i = k.current.files i := by
    rintro pcb rfl
    rfl
  cases effect_of_dispatch h with
  | key => exact hq.elim
  | tick => exact hq.elim
  | executed => exact hq.elim
  | notExecuted => exact hq.elim
  | halt => exact hq.elim
  | type key htype => exact hsame _ (typeKey_pcb htype)
  | rtcInterrupt => rfl
  | openFile filename _ hopen => exact (openFile_files hopen hlive :)
  | closeFile fd _ hcall => exact (closeFile_files hcall fun hfd => hclose (by rw [hfd]) :)
  | arm fd buf => exact hsame _ (armFile_pcb fd buf k)
  | read fd buf nbytes _ _ hcall =>
    exact (readFile_files hcall fun hfd => hread buf nbytes (by rw [hfd]) :)
  | write fd buf nbytes _ _ hwrite => exact hsame _ (writeFile_pcb hwrite :)
  | getargs buf nbytes => exact hsame _ (getargs_pcb buf nbytes k)
  | vidmap screenStart _ hbuf hmap => exact hsame _ (vidmap_pcb hbuf hmap :)
  | compute mem => rfl

end Slots

/-! ### Sessions -/

/-- The descriptor `fd` of process `p` is open for a regular file, at position `d`. -/
structure Session (img : Image) (p : ℕ) (fd : ℤ) (inode d : ℕ) (k : Kernel) : Prop where
  wf : Wf k
  used : Used k p
  range : 2 ≤ fd ∧ fd < fileArrayLen
  descriptor : (k.pcb p).files fd.toNat = ⟨some .file, some inode, inode, d, fdLive⟩
  valid : inode < inodeCnt img
  pos : d ≤ inodeLength img inode

/-- The process neither closes the descriptor nor halts, and asks for no negative number of
bytes. -/
def KeepsOpen (p : ℕ) (fd : ℤ) (k : Kernel) : Event → Prop
  | .closeFile fd' => k.running = p → fd' ≠ fd
  | .halt _ => k.running ≠ p
  | .read fd' _ nbytes => k.running = p → fd' = fd → 0 ≤ nbytes ∧ nbytes < 2 ^ 31
  | _ => True

/-- The call that an event makes of `read` on descriptor `fd` of process `p`. -/
def readCall (E : Env) (p : ℕ) (fd : ℤ) (k : Kernel) : Event → List ReadCall
  | .read fd' buf nbytes =>
    if k.running = p ∧ fd' = fd then
      (step E k (.read fd' buf nbytes)).toList.map fun k' =>
        ⟨buf, nbytes.toNat, k'.eax, k.userMem p, k'.userMem p⟩
    else []
  | _ => []

section LiveSlots

variable {E : Env} {k k' : Kernel} {p : ℕ} {fd : ℤ} {f : Fd}

/-- The descriptor `fd` of process `p` is live and holds `f`. -/
structure Slot (p : ℕ) (fd : ℤ) (f : Fd) (k : Kernel) : Prop where
  wf : Wf k
  used : Used k p
  range : 2 ≤ fd ∧ fd < fileArrayLen
  descriptor : (k.pcb p).files fd.toNat = f
  live : f.flags ≠ 0

theorem readCall_of_other {e : Event}
    (hread : ¬ (k.running = p ∧ ∃ buf nbytes, e = .read fd buf nbytes)) :
    readCall E p fd k e = [] := by
  cases e with
  | read fd' buf nbytes =>
    refine if_neg fun hboth => hread ⟨hboth.1, buf, nbytes, ?_⟩
    rw [hboth.2]
  | _ => rfl

/-- Only a `read` of it, a `close` of it and a `halt` of its process change a live descriptor. -/
theorem slot_step {e : Event} (hs : Slot p fd f k) (hp : Kept k k' p) (hg : KeepsOpen p fd k e)
    (hread : ¬ (k.running = p ∧ ∃ buf nbytes, e = .read fd buf nbytes))
    (h : step E k e = some k') : Slot p fd f k' ∧ (Allocated k p → Allocated k' p) := by
  have hw' : Wf k' := wf_step hs.wf h
  have hused' : Used k' p := by
    obtain ⟨s, hmem, hpid⟩ := hs.used
    exact ⟨s, (starts_step h).subset hmem, hpid⟩
  by_cases hown : e.quiet ∧ k.running = p
  · obtain ⟨hq, hr⟩ := hown
    have hsame := sameProcesses_step hq h
    obtain ⟨k1, hk1, rfl⟩ := Option.map_eq_some_iff.1 h
    have hnat : (fd.toNat : ℤ) = fd := Int.toNat_of_nonneg (by linarith [hs.range.1])
    have hfiles : k.advanceClock.current.files fd.toNat = f := by
      rw [← hs.descriptor, ← hr]
      rfl
    have hlive : (k.advanceClock.current.files fd.toNat).flags ≠ 0 := by
      rw [hfiles]
      exact hs.live
    have hclose : e ≠ .closeFile (fd.toNat : ℤ) := by
      rintro rfl
      exact hg hr hnat
    have hother : ∀ buf nbytes, e ≠ .read (fd.toNat : ℤ) buf nbytes := by
      rintro buf nbytes rfl
      exact hread ⟨hr, buf, nbytes, by rw [hnat]⟩
    have hslot := dispatch_files hq hlive hclose hother hk1
    have hend : ((k1.setIflag true).pcb p).files fd.toNat =
        k.advanceClock.current.files fd.toNat := by
      rw [← hr]
      exact hslot
    exact ⟨⟨hw', hused', hs.range, hend.trans hfiles, hs.live⟩, (hsame.allocated p).2⟩
  · have hhalt : NotHaltOf p k e := by
      cases e with
      | halt status => exact hg
      | _ => trivial
    have hun := untouched_step hs.wf hp hhalt (fun hq hr => hown ⟨hq, hr⟩) h
    refine ⟨⟨hw', hused', hs.range, ?_, hs.live⟩, hun.allocated⟩
    rw [hun.files]
    exact hs.descriptor

end LiveSlots

section Sessions

variable {E : Env} {k k' : Kernel} {p inode d : ℕ} {fd : ℤ}

/-- The state after a `read` of `n` bytes that copies `src`, with the position moved. -/
def afterRead (k : Kernel) (i buf : ℕ) (src : Memory) (n : ℕ) : Kernel :=
  (result ((n : ℤ), (k.advanceClock.setMem
    (splice k.mem buf (copy (window k.mem buf) src n))).advance i n)).setIflag true

/-- A `read` of the descriptor of a session to the page of the program returns, with the next bytes
of the file. -/
theorem Session.read_eq (hs : Session E.img p fd inode d k) (hr : k.running = p) {buf : ℕ}
    {nbytes : ℤ} (h0 : 0 ≤ nbytes) (hn : nbytes < 2 ^ 31)
    (hbuf : PageHolds buf (readSpan E fd buf nbytes k)) :
    step E k (.read fd buf nbytes) =
      some (afterRead k fd.toNat buf (fun j => fileByte E.img inode (d + j))
        (min nbytes.toNat (inodeLength E.img inode - d))) := by
  have hlen : inodeLength E.img inode < 2 ^ 32 := word32_lt _ _
  have hpos := hs.pos
  have hp : k.running ≠ 0 := hs.wf.running_ne_zero hs.used
  have hfiles : k.advanceClock.current.files fd.toNat =
      ⟨some .file, some inode, inode, d, fdLive⟩ := by
    rw [← hs.descriptor, ← hr]
    rfl
  have hlive : LiveFd k.advanceClock.current.files fd := by
    refine ⟨by linarith [hs.range.1], hs.range.2, ?_, ?_, ?_⟩
    · rw [hfiles]
      exact Nat.one_ne_zero
    · rw [hfiles]
      exact Option.some_ne_none _
    · rw [hfiles]
      exact lt_of_le_of_lt hpos hlen
  have hu : u32 nbytes = nbytes.toNat := u32_of_nonneg h0 (by omega)
  have hu' : u32 ((min nbytes.toNat (inodeLength E.img inode - d) : ℕ) : ℤ) =
      min nbytes.toNat (inodeLength E.img inode - d) := by
    rw [u32_of_nonneg (by omega) (by omega), Int.toNat_natCast]
  have hread : readFile E fd buf nbytes k.advanceClock =
      readDevice E fd.toNat buf nbytes k.advanceClock :=
    readFile_of_live hlive (by linarith [hs.range.1])
  rw [readDevice, hfiles] at hread
  simp only [fsRead, hfiles, readData_eq _ _ hs.valid (lt_of_le_of_lt hpos hlen), hu, hu'] at hread
  rw [step_readFile hp hbuf, hread]
  rfl

theorem afterRead_userMem (k : Kernel) (i buf : ℕ) (src : Memory) (n : ℕ) :
    (afterRead k i buf src n).userMem k.running =
      splice (k.userMem k.running) buf (copy (window (k.userMem k.running) buf) src n) :=
  Function.update_self ..

theorem afterRead_files (k : Kernel) (i buf : ℕ) (src : Memory) (n : ℕ) :
    ((afterRead k i buf src n).pcb k.running).files i =
      { k.current.files i with pos := ((k.current.files i).pos + n) % 2 ^ 32 } :=
  advance_files_self (k.advanceClock.setMem _) i n

/-- What a read of the descriptor delivers. -/
theorem takes_afterRead (k : Kernel) (i buf n inode d : ℕ) (img : Image) :
    ReadCall.Takes (fileContents img inode) d
      ⟨buf, n, (afterRead k i buf (fun j => fileByte img inode (d + j))
          (min n (inodeLength img inode - d))).eax, k.userMem k.running,
        (afterRead k i buf (fun j => fileByte img inode (d + j))
          (min n (inodeLength img inode - d))).userMem k.running⟩ where
  result := by
    rw [fileContents_length]
    rfl
  bytes := by
    have hlen := fileContents_length img inode
    refine List.ext_getElem ?_ fun j hj hj' => ?_
    · rw [ReadCall.bytes, List.length_map, List.length_range, List.length_take, List.length_drop,
        hlen]
      rfl
    · rw [ReadCall.bytes, List.length_map, List.length_range] at hj
      have hjn : j < min n (inodeLength img inode - d) := hj
      simp only [ReadCall.bytes, List.getElem_map, List.getElem_range, List.getElem_take,
        List.getElem_drop, fileContents, afterRead_userMem, window]
      rw [splice_copy, if_pos ⟨Nat.le_add_right _ _, by omega⟩, Nat.add_sub_cancel_left]
  frame := by
    intro a ha
    simp only [afterRead_userMem]
    rw [splice_copy]
    exact if_neg ha

theorem Session.slot (hs : Session E.img p fd inode d k) :
    Slot p fd ⟨some .file, some inode, inode, d, fdLive⟩ k :=
  ⟨hs.wf, hs.used, hs.range, hs.descriptor, Nat.one_ne_zero⟩

theorem Session.of_slot (hs : Session E.img p fd inode d k)
    (hslot : Slot p fd ⟨some .file, some inode, inode, d, fdLive⟩ k') :
    Session E.img p fd inode d k' :=
  ⟨hslot.wf, hslot.used, hslot.range, hslot.descriptor, hs.valid, hs.pos⟩

/-- A read of the descriptor moves the position by what it delivers. -/
theorem session_read (hs : Session E.img p fd inode d k) (hr : k.running = p) {buf : ℕ}
    {nbytes : ℤ} (h0 : 0 ≤ nbytes) (hn : nbytes < 2 ^ 31)
    (h : step E k (.read fd buf nbytes) = some k') :
    ∃ c, readCall E p fd k (.read fd buf nbytes) = [c] ∧
      c.Takes (fileContents E.img inode) d ∧
      Session E.img p fd inode (d + c.result.toNat) k' := by
  have hsame : SameProcesses k k' := sameProcesses_step (e := .read fd buf nbytes) trivial h
  have hread := hs.read_eq hr h0 hn (pageHolds_of_read h)
  have hk' := Option.some.inj (h.symm.trans hread)
  refine ⟨⟨buf, nbytes.toNat, k'.eax, k.userMem p, k'.userMem p⟩, ?_, ?_, ?_⟩
  · simp only [readCall, hr, true_and, if_true, h]
    rfl
  · rw [hk', ← hr]
    exact takes_afterRead k fd.toNat buf nbytes.toNat inode d E.img
  · have hlen : inodeLength E.img inode < 2 ^ 32 := word32_lt _ _
    have hpos := hs.pos
    have heax : k'.eax.toNat = min nbytes.toNat (inodeLength E.img inode - d) := by
      rw [hk']
      rfl
    have hbound : d + k'.eax.toNat ≤ inodeLength E.img inode := by omega
    refine ⟨hsame.wf hs.wf, (hsame.used p).2 hs.used, hs.range, ?_, hs.valid, hbound⟩
    have hfiles : k.current.files fd.toNat = ⟨some .file, some inode, inode, d, fdLive⟩ := by
      rw [Kernel.current, hr]
      exact hs.descriptor
    have hmoved : (k'.pcb p).files fd.toNat =
        ⟨some .file, some inode, inode, (d + k'.eax.toNat) % 2 ^ 32, fdLive⟩ := by
      have hafter := afterRead_files k fd.toNat buf (fun j => fileByte E.img inode (d + j))
        (min nbytes.toNat (inodeLength E.img inode - d))
      rwa [hfiles, ← hk', ← heax, hr] at hafter
    rwa [Nat.mod_eq_of_lt (by omega)] at hmoved

/-- **One step of a session.**  Whatever the event is, the descriptor still stands for the file, and
a read of it delivers the bytes from its position on. -/
theorem session_step {e : Event} (hs : Session E.img p fd inode d k) (hp : Kept k k' p)
    (hg : KeepsOpen p fd k e) (h : step E k e = some k') :
    ∃ d', Session E.img p fd inode d' k' ∧ (Allocated k p → Allocated k' p) ∧
      ∀ cs, Continues (fileContents E.img inode) d' cs →
        Continues (fileContents E.img inode) d (readCall E p fd k e ++ cs) := by
  by_cases hread : k.running = p ∧ ∃ buf nbytes, e = .read fd buf nbytes
  · obtain ⟨hr, buf, nbytes, rfl⟩ := hread
    obtain ⟨h0, hn⟩ := hg hr rfl
    obtain ⟨c, hc, htakes, hs'⟩ := session_read hs hr h0 hn h
    have hsame := sameProcesses_step (e := .read fd buf nbytes) trivial h
    refine ⟨_, hs', (hsame.allocated p).2, fun cs hcs => ?_⟩
    rw [hc]
    exact ⟨htakes, hcs⟩
  · -- any other event leaves the descriptor as it is
    have hnone : readCall E p fd k e = [] := readCall_of_other hread
    have hrest := slot_step hs.slot hp hg hread h
    refine ⟨d, hs.of_slot hrest.1, hrest.2, fun cs hcs => ?_⟩
    rw [hnone]
    exact hcs

/-- The reads of the descriptor along a run continue one another. -/
theorem session_run {es : List Event} (hs : Session E.img p fd inode d k) (hp : Kept k k' p)
    (hg : Guarded (step E) (KeepsOpen p fd) k es) (hrun : run (step E) k es = some k') :
    (∃ d', Session E.img p fd inode d' k') ∧
      Continues (fileContents E.img inode) d (outputs (step E) (readCall E p fd) k es) := by
  induction es generalizing k d with
  | nil =>
    cases hrun
    exact ⟨⟨d, hs⟩, trivial⟩
  | cons e es ih =>
    obtain ⟨k1, hk1, hrest⟩ := run_cons_eq_some.1 hrun
    obtain ⟨hg0, hg1⟩ := hg k1 hk1
    obtain ⟨d1, hs1, hall, hcont⟩ := session_step hs (hp.head hk1 hrest) hg0 hk1
    have hp1 : Kept k1 k' p := hp.tail hk1 hrest hall
    obtain ⟨hend, hcalls⟩ := ih hs1 hp1 hg1 hrest
    rw [outputs_cons hk1]
    exact ⟨hend, hcont _ hcalls⟩

end Sessions

/-! ### Opening a file and reading it -/

section Reading

variable {E : Env} {k k' : Kernel} {f : ℕ} {s : CString}

/-- Only the entry of a regular file is found under its name. -/
theorem eq_of_scannedName (hw : WellFormed E.img) (hf : RegularFile E.img f) {m : ℕ}
    (hm : m < dirEntriesCnt E.img) (h : entryName E.img f = scannedName E.img m) : m = f := by
  by_cases hu : Unterminated E.img m
  · exact absurd h (entryName_ne_scannedName hw hm hu f)
  · rw [scannedName_of_terminated hw hm hu] at h
    exact (hw.distinct f hf.entry m hm h).symm

/-- The descriptor that `open` sets up for a regular file. -/
theorem openFd_regularFile (hf : RegularFile E.img f) (d : Dentry) (fd : Fd) :
    openFd (copy d (dentryAt E.img f) bytesDentry) fd =
      ⟨some .file, some (Dentry.inode (dentryAt E.img f)), Dentry.inode (dentryAt E.img f), fd.pos,
        fdLive⟩ := by
  have hftype : Dentry.ftype (copy d (dentryAt E.img f) bytesDentry) = fileFtype :=
    (ftype_copy _ _).trans hf.ftype
  have hinode := inode_copy d (dentryAt E.img f)
  simp only [openFd, hftype, hinode]
  rfl

/-- A successful `open` takes a descriptor at position 0 for the entry that it finds. -/
theorem slot_openFile (hcnt : dirEntriesCnt E.img ≤ numInodes) (hk : Reachable E k)
    (h : step E k (.openFile s) = some k') (hfd : 0 ≤ k'.eax) :
    ∃ m < dirEntriesCnt E.img, ∃ fd : Fd, s.bytes = scannedName E.img m ∧ fd.pos = 0 ∧
      readDentryByName E.img s (fun _ => 0) =
        (0, copy (fun _ => 0) (dentryAt E.img m) bytesDentry) ∧
      Slot k.running k'.eax (openFd (copy (fun _ => 0) (dentryAt E.img m) bytesDentry) fd) k' := by
  have hwf := wf_reachable hk
  have hsame : SameProcesses k k' := sameProcesses_step (e := .openFile s) trivial h
  obtain ⟨k1, hk1, rfl⟩ := Option.map_eq_some_iff.1 h
  simp only [dispatch] at hk1
  split_ifs at hk1 with hr
  have hused : Used k k.running := hwf.running_used hr
  obtain ⟨⟨r, k2⟩, hopen, rfl⟩ := Option.map_eq_some_iff.1 hk1
  have hr0 : 0 ≤ r := hfd
  rcases openFile_cases hopen with ⟨rfl, -⟩ | ⟨i, fd, d, hfree, hne, rfl, -, rfl, rfl⟩
  · exact absurd hr0 (by decide)
  · obtain ⟨h2, h8, hflags⟩ := freeFd_spec hfree
    rcases readDentryByName_spec hcnt s with ⟨m, hm, hscan, hfound⟩ | ⟨-, hnone⟩
    · have hpos : (k.advanceClock.current.files i).pos = 0 :=
        filesReady_reachable hk _ hused i h8 hflags
      have hrange : (2 : ℤ) ≤ i ∧ (i : ℤ) < fileArrayLen :=
        ⟨by exact_mod_cast h2, by exact_mod_cast h8⟩
      refine ⟨m, hm, _, hscan, hpos, hfound _, hsame.wf hwf, (hsame.used _).2 hused, hrange, ?_,
        Nat.one_ne_zero⟩
      show ((Kernel.setFiles k.advanceClock _).pcb k.advanceClock.running).files i = _
      simp only [Kernel.setFiles_pcb_self, Function.update_self, hfound]
    · exact absurd (congrArg Prod.fst (hnone _)) hne

/-- A successful `open` of a regular file begins a session at position 0. -/
theorem session_openFile (hw : WellFormed E.img) (hk : Reachable E k) (hf : RegularFile E.img f)
    (hname : s.bytes = entryName E.img f) (h : step E k (.openFile s) = some k')
    (hfd : 0 ≤ k'.eax) :
    Session E.img k.running k'.eax (Dentry.inode (dentryAt E.img f)) 0 k' := by
  obtain ⟨m, hm, fd, hscan, hpos, -, hslot⟩ := slot_openFile hw.entries hk h hfd
  have hmf : m = f := eq_of_scannedName hw hf hm (by rw [← hname, hscan])
  subst hmf
  rw [openFd_regularFile hf, hpos] at hslot
  exact ⟨hslot.wf, hslot.used, hslot.range, hslot.descriptor, hf.inode, Nat.zero_le _⟩

/-- What sequential reading delivers, in every run from an `open` of a regular file on. -/
structure ReadsSequentially (contents : List UInt8) (calls : List ReadCall) : Prop where
  /-- together the calls deliver the file from its start, as far as they asked for it -/
  delivered : calls.flatMap ReadCall.bytes =
    contents.take (min (calls.map ReadCall.nbytes).sum contents.length)
  /-- a call writes as many bytes as it says, and no others -/
  written : ∀ c ∈ calls, 0 ≤ c.result ∧ c.bytes.length = c.result.toNat ∧
    ∀ a, ¬ (c.buf ≤ a ∧ a < c.buf + c.result.toNat) → c.after a = c.before a
  /-- a call for some bytes returns 0 exactly if the file has been delivered -/
  finished : ∀ pre c post, calls = pre ++ c :: post → 0 < c.nbytes →
    (c.result = 0 ↔ pre.flatMap ReadCall.bytes = contents)

theorem Continues.readsSequentially {contents : List UInt8} {calls : List ReadCall}
    (h : Continues contents 0 calls) : ReadsSequentially contents calls where
  delivered := by
    rw [h.bytes, List.drop_zero]
    by_cases hle : (calls.map ReadCall.nbytes).sum ≤ contents.length
    · rw [min_eq_left hle]
    · rw [min_eq_right (by omega), List.take_of_length_le (by omega), List.take_length]
  written c hc := by
    obtain ⟨pre, post, hsplit⟩ := List.append_of_mem hc
    have htakes := h.takes hsplit
    refine ⟨by rw [htakes.result]; omega, ?_, htakes.frame⟩
    rw [ReadCall.bytes, List.length_map, List.length_range]
  finished pre c post hsplit hpos := by
    have htakes := h.takes hsplit
    have hpre := (Continues.left (hsplit ▸ h)).bytes
    rw [List.drop_zero] at hpre
    have hres := htakes.result
    rw [Nat.zero_add] at hres
    constructor
    · intro hz
      have hle : contents.length ≤ (pre.flatMap ReadCall.bytes).length := by omega
      rw [hpre] at hle ⊢
      rw [List.length_take] at hle
      exact List.take_of_length_le (by omega)
    · intro heq
      rw [heq] at hres
      omega

/-- **Sequential reading.**  In every run from a successful `open` of a regular file on, in which
the process neither closes the descriptor nor halts, the reads of the descriptor deliver the file
from its start; and at the end of the run a further read to its own page returns.  Events of every
kind, of this and of other processes, may come in between, as long as the pid stays with its
process. -/
theorem sequential_reading (hw : WellFormed E.img) (hf : RegularFile E.img f)
    (hname : s.bytes = entryName E.img f) {k0 k1 k2 : Kernel} {es : List Event}
    (hk : Reachable E k0) (hopen : step E k0 (.openFile s) = some k1) (hfd : 0 ≤ k1.eax)
    (hguard : Guarded (step E) (KeepsOpen k0.running k1.eax) k1 es)
    (hrun : run (step E) k1 es = some k2) (hkept : Kept k1 k2 k0.running) :
    ReadsSequentially (fileContents E.img (Dentry.inode (dentryAt E.img f)))
        (outputs (step E) (readCall E k0.running k1.eax) k1 es) ∧
      (k2.running = k0.running → ∀ buf nbytes, 0 ≤ nbytes → nbytes < 2 ^ 31 →
        PageHolds buf (readSpan E k1.eax buf nbytes k2) →
          (step E k2 (.read k1.eax buf nbytes)).isSome = true) := by
  have hs := session_openFile hw hk hf hname hopen hfd
  obtain ⟨⟨d, hend⟩, hcalls⟩ := session_run hs hkept hguard hrun
  refine ⟨hcalls.readsSequentially, fun hr buf nbytes h0 hn hbuf => ?_⟩
  rw [hend.read_eq hr h0 hn hbuf]
  rfl

/-- Reads of two descriptors of one file. -/
def shellReads : List Event :=
  [.read 2 0x8000000 16, .openFile shell, .read 3 0x8000100 30, .read 2 0x8000000 30]

/-- The first shell of the small machine opens the file `shell` and reads it in two parts. -/
theorem sequential_reading_shell :
    ReadsSequentially (fileContents small.img (Dentry.inode (dentryAt small.img 1)))
        (outputs (step small) (readCall small 1 2) (smallState [.key 0, .openFile shell])
          shellReads) ∧
      ((smallState ([.key 0, .openFile shell] ++ shellReads)).running = 1 → ∀ buf nbytes,
        0 ≤ nbytes → nbytes < 2 ^ 31 →
          PageHolds buf (readSpan small 2 buf nbytes
            (smallState ([.key 0, .openFile shell] ++ shellReads))) →
          (step small (smallState ([.key 0, .openFile shell] ++ shellReads))
            (.read 2 buf nbytes)).isSome = true) := by
  have hsome : (run (step small) (boot small) ([.key 0, .openFile shell] ++ shellReads)).isSome =
      true := by decide +kernel
  have hopened : (run (step small) (boot small) ([.key 0] ++ [.openFile shell])).isSome = true := by
    decide +kernel
  have hstarted : (run (step small) (boot small) [.key 0]).isSome = true := by decide +kernel
  have hrunning : (smallState [.key 0]).running = 1 := by decide +kernel
  have hfd : (smallState [.key 0, .openFile shell]).eax = 2 := by decide +kernel
  have hopen : step small (smallState [.key 0]) (.openFile shell) =
      some (smallState [.key 0, .openFile shell]) := step_smallState hopened
  have hguard : Guarded (step small) (KeepsOpen 1 2) (smallState [.key 0, .openFile shell])
      shellReads :=
    fun _ _ => ⟨fun _ _ => by decide, fun _ _ => ⟨trivial, fun _ _ => ⟨fun _ _ => by decide,
      fun _ _ => ⟨fun _ _ => by decide, trivial⟩⟩⟩⟩
  have hf : RegularFile small.img 1 := ⟨by decide, by decide, by decide⟩
  have hkept : Kept (smallState [.key 0, .openFile shell])
      (smallState ([.key 0, .openFile shell] ++ shellReads)) 1 := Or.inl (by decide +kernel)
  have hreads : run (step small) (smallState [.key 0, .openFile shell]) shellReads =
      some (smallState ([.key 0, .openFile shell] ++ shellReads)) := run_smallState_append hsome
  have hread := sequential_reading smallImg_wellFormed hf (s := shell) (by decide)
    (smallState_reachable hstarted) hopen (by rw [hfd]; decide)
    (by rw [hrunning, hfd]; exact hguard)
    hreads (by rw [hrunning]; exact hkept)
  rwa [hrunning, hfd] at hread

end Reading

end LinuxIsLove
