import LinuxIsLove.FileReading

/-!
# Listing a directory

The position of a directory descriptor counts entries.  A read scans the name of the entry at the
position, a name that fills its field together with the byte of the type behind it, and copies no
more than `nbytes` of what it found.  With at most 32 bytes asked for, the extra byte is never
delivered, so the reads of a descriptor list the names of the directory one after another
(`directory_listing`).  The position wraps around after `2 ^ 32` reads.
-/

namespace LinuxIsLove

open Bytes EventMachine

/-- What `open` finds under a name is an entry for a directory. -/
def NamesDirectory (img : Image) (s : CString) : Prop :=
  (readDentryByName img s fun _ => 0).1 = 0 ∧
    Dentry.ftype (readDentryByName img s fun _ => 0).2 = dirFtype

/-- The call lists the entry `n`: it delivers as much of the name as was asked for, or nothing
behind the last entry. -/
structure ReadCall.Lists (img : Image) (n : ℕ) (c : ReadCall) : Prop where
  entry : n < dirEntriesCnt img →
    c.result = (min c.nbytes (entryName img n).length : ℕ) ∧
      c.bytes = (entryName img n).take c.nbytes
  finished : dirEntriesCnt img ≤ n → c.result = 0

/-- The calls list the entries from `n` on, one after another, while the position has not wrapped
around. -/
def ListsFrom (img : Image) : ℕ → List ReadCall → Prop
  | _, [] => True
  | n, c :: cs => (n < 2 ^ 32 → c.Lists img n) ∧ ListsFrom img (n + 1) cs

theorem ListsFrom.get {img : Image} {n j : ℕ} {cs : List ReadCall} {c : ReadCall}
    (h : ListsFrom img n cs) (hc : cs[j]? = some c) (hj : n + j < 2 ^ 32) :
    c.Lists img (n + j) := by
  induction cs generalizing n j with
  | nil => simp at hc
  | cons b cs ih =>
    cases j with
    | zero =>
      rw [List.getElem?_cons_zero, Option.some.injEq] at hc
      subst hc
      exact h.1 hj
    | succ j =>
      rw [List.getElem?_cons_succ] at hc
      rw [show n + (j + 1) = n + 1 + j by omega] at hj ⊢
      exact ih h.2 hc hj

/-- As `KeepsOpen`, and each read of the descriptor asks for 1 to 32 bytes. -/
def KeepsListing (p : ℕ) (fd : ℤ) (k : Kernel) : Event → Prop
  | .read fd' _ nbytes => k.running = p → fd' = fd → 1 ≤ nbytes ∧ nbytes ≤ fnameLen
  | e => KeepsOpen p fd k e

theorem KeepsListing.keepsOpen {p : ℕ} {fd : ℤ} {k : Kernel} {e : Event}
    (h : KeepsListing p fd k e) : KeepsOpen p fd k e := by
  cases e with
  | read fd' buf nbytes =>
    intro hr hfd
    obtain ⟨h1, h32⟩ := h hr hfd
    simp only [fnameLen] at h32
    exact ⟨by omega, by omega⟩
  | _ => exact h

/-- A descriptor of a directory after `n` reads. -/
def dirFd (inode n : ℕ) : Fd := ⟨some .dir, none, inode, n % 2 ^ 32, fdLive⟩

section Names

variable {img : Image} {n : ℕ}

/-- As far as a read may ask for it, the scanned name is the name. -/
theorem min_scannedName (hw : WellFormed img) (hn : n < dirEntriesCnt img) {m : ℕ}
    (hm : m ≤ fnameLen) :
    min (scannedName img n).length m = min m (entryName img n).length := by
  by_cases hu : Unterminated img n
  · rw [scannedName_of_unterminated hw hn hu, List.length_append, List.length_singleton, hu.1]
    omega
  · rw [scannedName_of_terminated hw hn hu, min_comm]

/-- The start of a name as the first bytes of the entry. -/
theorem take_entryName (img : Image) (n m : ℕ) :
    (entryName img n).take m =
      (List.range (min m (entryName img n).length)).map (dentryAt img n) := by
  rw [entryName_eq_map, ← List.map_take, List.take_range, List.length_map, List.length_range]

end Names

section Reads

variable {E : Env} {k k' : Kernel} {p inode n : ℕ} {fd : ℤ} {buf : ℕ} {nbytes : ℤ}

/-- A `read` of a directory descriptor runs the directory driver. -/
theorem slot_dirRead_eq (hs : Slot p fd (dirFd inode n) k) (hr : k.running = p)
    (hbuf : PageHolds buf (readSpan E fd buf nbytes k)) :
    step E k (.read fd buf nbytes) =
      some ((result (dirRead E fd.toNat buf nbytes k.advanceClock)).setIflag true) := by
  have hp : k.running ≠ 0 := hs.wf.running_ne_zero hs.used
  have hfiles : k.advanceClock.current.files fd.toNat = dirFd inode n := by
    rw [← hs.descriptor, ← hr]
    rfl
  have hlive : LiveFd k.advanceClock.current.files fd := by
    refine ⟨by linarith [hs.range.1], hs.range.2, ?_, ?_, ?_⟩
    · rw [hfiles]
      exact Nat.one_ne_zero
    · rw [hfiles]
      exact Option.some_ne_none _
    · rw [hfiles]
      exact Nat.mod_lt _ (by decide)
  have hread : readFile E fd buf nbytes k.advanceClock =
      some (dirRead E fd.toNat buf nbytes k.advanceClock) := by
    rw [readFile_of_live hlive (by linarith [hs.range.1]), readDevice, hfiles]
    rfl
  rw [step_readFile hp hbuf, hread]
  rfl

/-- A read of a directory moves the position by one entry, whatever it delivers. -/
theorem dirRead_files (E : Env) (i buf : ℕ) (nbytes : ℤ) (k : Kernel) :
    ((dirRead E i buf nbytes k).2.pcb k.running).files i =
      { k.current.files i with pos := ((k.current.files i).pos + 1) % 2 ^ 32 } :=
  advance_files_self (k.setMem _) i 1

/-- What a read of the descriptor delivers. -/
theorem lists_dirRead (hw : WellFormed E.img) {i : ℕ} (hpos : (k.current.files i).pos = n)
    (h1 : 1 ≤ nbytes) (h32 : nbytes ≤ fnameLen) (before : Memory) :
    ReadCall.Lists E.img n ⟨buf, nbytes.toNat, (dirRead E i buf nbytes k).1, before,
      (dirRead E i buf nbytes k).2.userMem k.running⟩ := by
  have hroom : nbytes.toNat ≤ fnameLen := by omega
  simp only [fnameLen] at h32
  have hspec := dirRead_spec k i buf hw (by omega : 0 ≤ nbytes) (by omega)
  simp only [hpos] at hspec
  rcases hspec with ⟨hend, hread⟩ | ⟨hlt, hread⟩
  · rw [hread]
    exact ⟨fun hlt => absurd hlt (not_lt.2 hend), fun _ => rfl⟩
  · rw [min_scannedName hw hlt hroom] at hread
    rw [hread]
    refine ⟨fun _ => ⟨rfl, ?_⟩, fun hend => absurd hlt (not_lt.2 hend)⟩
    rw [take_entryName, ReadCall.bytes]
    simp only [Int.toNat_natCast]
    refine List.map_congr_left fun j hj => ?_
    rw [List.mem_range] at hj
    -- the newline and the NUL stand behind the copied bytes
    rw [window, advance_userMem]
    have hmem : ∀ mem, (k.setMem mem).userMem k.running = mem := fun mem =>
      Function.update_self ..
    rw [hmem, Function.update_of_ne (by omega), Function.update_of_ne (by omega), splice_copy,
      if_pos ⟨Nat.le_add_right _ _, by omega⟩, Nat.add_sub_cancel_left]

/-- A read lists the entry at the position, and the next one will list the entry behind it. -/
theorem slot_dirRead (hw : WellFormed E.img) (hs : Slot p fd (dirFd inode n) k)
    (hr : k.running = p) (h1 : 1 ≤ nbytes) (h32 : nbytes ≤ fnameLen)
    (h : step E k (.read fd buf nbytes) = some k') :
    ∃ c, readCall E p fd k (.read fd buf nbytes) = [c] ∧ (n < 2 ^ 32 → c.Lists E.img n) ∧
      Slot p fd (dirFd inode (n + 1)) k' := by
  have hsame : SameProcesses k k' := sameProcesses_step (e := .read fd buf nbytes) trivial h
  have hk' := Option.some.inj (h.symm.trans (slot_dirRead_eq hs hr (pageHolds_of_read h)))
  have hfiles : k.advanceClock.current.files fd.toNat = dirFd inode n := by
    rw [← hs.descriptor, ← hr]
    rfl
  refine ⟨⟨buf, nbytes.toNat, k'.eax, k.userMem p, k'.userMem p⟩, ?_, fun hn => ?_, ?_⟩
  · simp only [readCall, hr, true_and, if_true, h]
    rfl
  · have hpos : (k.advanceClock.current.files fd.toNat).pos = n := by
      rw [hfiles]
      exact Nat.mod_eq_of_lt hn
    rw [hk', ← hr]
    exact lists_dirRead hw hpos h1 h32 _
  · refine ⟨hsame.wf hs.wf, (hsame.used p).2 hs.used, hs.range, ?_, hs.live⟩
    have hmoved := dirRead_files E fd.toNat buf nbytes k.advanceClock
    rw [hfiles] at hmoved
    have hend : (k'.pcb p).files fd.toNat = { dirFd inode n with pos := (n % 2 ^ 32 + 1) % 2 ^ 32 }
        := by
      rw [hk', ← hr]
      exact hmoved
    rw [hend, dirFd, dirFd, Nat.mod_add_mod]

/-- **One step of a listing.**  A read of the descriptor lists the next entry, and no other event
moves the position. -/
theorem listing_step {e : Event} (hw : WellFormed E.img) (hs : Slot p fd (dirFd inode n) k)
    (hp : Kept k k' p) (hg : KeepsListing p fd k e) (h : step E k e = some k') :
    ∃ n', Slot p fd (dirFd inode n') k' ∧ (Allocated k p → Allocated k' p) ∧
      ∀ cs, ListsFrom E.img n' cs → ListsFrom E.img n (readCall E p fd k e ++ cs) := by
  by_cases hread : k.running = p ∧ ∃ buf nbytes, e = .read fd buf nbytes
  · obtain ⟨hr, buf, nbytes, rfl⟩ := hread
    obtain ⟨h1, h32⟩ := hg hr rfl
    obtain ⟨c, hc, hlists, hs'⟩ := slot_dirRead hw hs hr h1 h32 h
    have hsame := sameProcesses_step (e := .read fd buf nbytes) trivial h
    refine ⟨n + 1, hs', (hsame.allocated p).2, fun cs hcs => ?_⟩
    rw [hc]
    exact ⟨hlists, hcs⟩
  · have hrest := slot_step hs hp hg.keepsOpen hread h
    refine ⟨n, hrest.1, hrest.2, fun cs hcs => ?_⟩
    rwa [readCall_of_other hread]

/-- The reads of the descriptor along a run list the directory from the position on. -/
theorem listing_run {es : List Event} (hw : WellFormed E.img) (hs : Slot p fd (dirFd inode n) k)
    (hp : Kept k k' p) (hg : Guarded (step E) (KeepsListing p fd) k es)
    (hrun : run (step E) k es = some k') :
    (∃ n', Slot p fd (dirFd inode n') k') ∧
      ListsFrom E.img n (outputs (step E) (readCall E p fd) k es) := by
  induction es generalizing k n with
  | nil =>
    cases hrun
    exact ⟨⟨n, hs⟩, trivial⟩
  | cons e es ih =>
    obtain ⟨k1, hk1, hrest⟩ := run_cons_eq_some.1 hrun
    obtain ⟨hg0, hg1⟩ := hg k1 hk1
    obtain ⟨n1, hs1, hall, hlists⟩ := listing_step hw hs (hp.head hk1 hrest) hg0 hk1
    obtain ⟨hend, hcalls⟩ := ih hs1 (hp.tail hk1 hrest hall) hg1 hrest
    rw [outputs_cons hk1]
    exact ⟨hend, hlists _ hcalls⟩

end Reads

section Listing

variable {E : Env} {k k' : Kernel} {s : CString}

/-- A successful `open` of a directory begins a listing at the first entry. -/
theorem slot_openDirectory (hw : WellFormed E.img) (hdir : NamesDirectory E.img s)
    (hk : Reachable E k) (h : step E k (.openFile s) = some k') (hfd : 0 ≤ k'.eax) :
    ∃ inode, Slot k.running k'.eax (dirFd inode 0) k' := by
  obtain ⟨m, -, fd, -, hpos, hfound, hslot⟩ := slot_openFile hw.entries hk h hfd
  have hftype : Dentry.ftype (copy (fun _ => 0) (dentryAt E.img m) bytesDentry) = dirFtype := by
    have htype := hdir.2
    rwa [hfound] at htype
  refine ⟨Dentry.inode (copy (fun _ => 0) (dentryAt E.img m) bytesDentry), ?_⟩
  have hopened : openFd (copy (fun _ => 0) (dentryAt E.img m) bytesDentry) fd =
      dirFd (Dentry.inode (copy (fun _ => 0) (dentryAt E.img m) bytesDentry)) 0 := by
    simp only [openFd, hftype, hpos]
    rfl
  rwa [hopened] at hslot

/-- **Listing a directory.**  In every run from a successful `open` of a directory on, in which the
process neither closes the descriptor nor halts, the reads of the descriptor list the names of all
entries in order, and deliver nothing from then on; and at the end of the run a further read to its
own page returns.  Events of every kind, of this and of other processes, may come in between, as
long as the pid stays with its process. -/
theorem directory_listing (hw : WellFormed E.img) (hdir : NamesDirectory E.img s)
    {k0 k1 k2 : Kernel} {es : List Event} (hk : Reachable E k0)
    (hopen : step E k0 (.openFile s) = some k1) (hfd : 0 ≤ k1.eax)
    (hguard : Guarded (step E) (KeepsListing k0.running k1.eax) k1 es)
    (hrun : run (step E) k1 es = some k2) (hkept : Kept k1 k2 k0.running) :
    (∀ n c, (outputs (step E) (readCall E k0.running k1.eax) k1 es)[n]? = some c → n < 2 ^ 32 →
        c.Lists E.img n) ∧
      (k2.running = k0.running → ∀ buf nbytes,
        PageHolds buf (readSpan E k1.eax buf nbytes k2) →
          (step E k2 (.read k1.eax buf nbytes)).isSome = true) := by
  obtain ⟨inode, hs⟩ := slot_openDirectory hw hdir hk hopen hfd
  obtain ⟨⟨n', hend⟩, hcalls⟩ := listing_run hw hs hkept hguard hrun
  refine ⟨fun n c hc hn => ?_, fun hr buf nbytes hbuf => ?_⟩
  · have hlists := hcalls.get hc (by omega : 0 + n < 2 ^ 32)
    rwa [Nat.zero_add] at hlists
  · rw [slot_dirRead_eq hend hr hbuf]
    rfl

/-- Reads of a directory between other calls. -/
def shellListing : List Event :=
  [.read 2 0x8000000 32, .openFile shell, .read 2 0x8000000 3, .read 3 0x8000100 30,
    .read 2 0x8000000 32, .read 2 0x8000000 32]

/-- The first shell of the small machine lists the directory. -/
theorem directory_listing_shell :
    (∀ n c, (outputs (step small) (readCall small 1 2) (smallState [.key 0, .openFile dotName])
        shellListing)[n]? = some c → n < 2 ^ 32 → c.Lists small.img n) ∧
      ((smallState ([.key 0, .openFile dotName] ++ shellListing)).running = 1 → ∀ buf nbytes,
        PageHolds buf (readSpan small 2 buf nbytes
          (smallState ([.key 0, .openFile dotName] ++ shellListing))) →
        (step small (smallState ([.key 0, .openFile dotName] ++ shellListing))
          (.read 2 buf nbytes)).isSome = true) := by
  have hsome : (run (step small) (boot small)
      ([.key 0, .openFile dotName] ++ shellListing)).isSome = true := by decide +kernel
  have hopened : (run (step small) (boot small) ([.key 0] ++ [.openFile dotName])).isSome =
      true := by decide +kernel
  have hstarted : (run (step small) (boot small) [.key 0]).isSome = true := by decide +kernel
  have hrunning : (smallState [.key 0]).running = 1 := by decide +kernel
  have hfd : (smallState [.key 0, .openFile dotName]).eax = 2 := by decide +kernel
  have hopen : step small (smallState [.key 0]) (.openFile dotName) =
      some (smallState [.key 0, .openFile dotName]) := step_smallState hopened
  have hdir : NamesDirectory small.img dotName := ⟨by decide +kernel, by decide +kernel⟩
  have hguard : Guarded (step small) (KeepsListing 1 2) (smallState [.key 0, .openFile dotName])
      shellListing :=
    fun _ _ => ⟨fun _ _ => by decide, fun _ _ => ⟨trivial, fun _ _ => ⟨fun _ _ => by decide,
      fun _ _ => ⟨fun _ h => absurd h (by decide), fun _ _ => ⟨fun _ _ => by decide,
        fun _ _ => ⟨fun _ _ => by decide, trivial⟩⟩⟩⟩⟩⟩
  have hkept : Kept (smallState [.key 0, .openFile dotName])
      (smallState ([.key 0, .openFile dotName] ++ shellListing)) 1 := Or.inl (by decide +kernel)
  have hreads : run (step small) (smallState [.key 0, .openFile dotName]) shellListing =
      some (smallState ([.key 0, .openFile dotName] ++ shellListing)) :=
    run_smallState_append hsome
  have hlisting := directory_listing smallImg_wellFormed hdir (smallState_reachable hstarted) hopen
    (by rw [hfd]; decide) (by rw [hrunning, hfd]; exact hguard) hreads
    (by rw [hrunning]; exact hkept)
  rwa [hrunning, hfd] at hlisting

end Listing

end LinuxIsLove
