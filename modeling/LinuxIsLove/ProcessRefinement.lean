import LinuxIsLove.ProcessCalls
import LinuxIsLove.Foundation.Arrays
import LinuxIsLove.Arguments
import LinuxIsLove.Descriptors

/-!
# The kernel serves the calls of every process

`Viewed` relates a state of the kernel and the view of one process: each descriptor of its table
stands for the handle of the view, and its control block holds the arguments.  `exchange` is what
an event looks like to the process: a request with its reply when the process makes a system call,
and nothing when another process, an interrupt or the process itself computes.

Every step of the kernel keeps the relation, and a call of the process is answered as `Serve` allows
(`simulates_serve`).  So a process that runs beside any others sees its own files only, from the
`execute` that starts it on (`viewed_started`).
-/

namespace LinuxIsLove

open Bytes EventMachine Clients

/-! ### The image as a directory -/

/-- The bytes that reads of an inode deliver; an inode that does not exist reads as empty. -/
def contentsOf (img : Image) (inode : ℕ) : List UInt8 :=
  if inode < inodeCnt img then fileContents img inode else []

def nodeOf (img : Image) (m : ℕ) : Node :=
  if Dentry.ftype (dentryAt img m) = rtcFtype then .clock
  else if Dentry.ftype (dentryAt img m) = dirFtype then .directory
  else .file (contentsOf img (Dentry.inode (dentryAt img m)))

def entryOf (img : Image) (m : ℕ) : DirEntry := ⟨scannedName img m, nodeOf img m⟩

/-- The directory of an image. -/
def dirOf (img : Image) : List DirEntry := (List.range (dirEntriesCnt img)).map (entryOf img)

/-! ### What an event looks like to a process -/

/-- The bytes that a call of `read`, `write` or `getargs` touches lie in the page of the program. -/
def OwnBuffer (E : Env) (k : Kernel) : Event → Prop
  | .read fd buf nbytes => PageHolds buf (readSpan E fd buf nbytes k)
  | .write fd buf nbytes => PageHolds buf (writeSpan fd buf nbytes k)
  | .getargs buf nbytes => PageHolds buf (getargsSpan nbytes k)
  | _ => True

/-- The request that the running process makes. -/
def requestOf (k : Kernel) : Event → Option Request
  | .openFile filename => some (.openFile filename.bytes)
  | .closeFile fd => some (.closeFile fd)
  | .read fd buf nbytes => some (if buf = 0 then .nullBuffer else .read fd nbytes)
  | .write fd buf nbytes =>
    some (if buf = 0 then .nullBuffer else .write fd nbytes (bytesAt k.mem buf nbytes.toNat))
  | .getargs _ nbytes => some (.getargs nbytes)
  | .vidmap screenStart => some (.vidmap screenStart)
  | .execute command => some (.execute command.bytes)
  | .halt status => some (.halt status)
  | _ => none

/-- What the process finds in `eax` and in its buffer after the call. -/
def replyOf (p : ℕ) (k : Kernel) : Event → Reply
  | .read _ buf _ => ⟨k.eax, bytesAt (k.userMem p) buf k.eax.toNat⟩
  | .getargs buf _ =>
    ⟨k.eax, if k.eax = 0 then (CString.ofMem (window (k.userMem p) buf)).bytes else []⟩
  | _ => ⟨k.eax, []⟩

/-- The exchange of the process `p` in an event. -/
def exchange (E : Env) (p : ℕ) (k : Kernel) (e : Event) : Option (Request × Reply) :=
  if k.running = p then
    (requestOf k e).bind fun i => (step E k e).map fun k' => (i, replyOf p k' e)
  else none

/-! ### Views -/

/-- The driver behind a handle. -/
def Handle.fops : Handle → Option Fops
  | closed => none
  | clock => some .rtc
  | directory _ => some .dir
  | file _ _ => some .file

/-- The descriptor stands for the handle. -/
def Stands (img : Image) : Handle → Fd → Prop
  | .closed, fd => fd.flags = 0 ∧ fd.fops = none ∧ fd.pos = 0
  | .clock, fd => fd.flags = fdLive ∧ fd.fops = some .rtc
  | .directory n, fd => fd.flags = fdLive ∧ fd.fops = some .dir ∧ fd.pos = n ∧ n < 2 ^ 32
  | .file contents pos, fd =>
    fd.flags = fdLive ∧ fd.fops = some .file ∧ fd.pos = pos ∧ pos ≤ contents.length ∧
      contents = contentsOf img fd.inodeNum

/-- The view of the process `p`. -/
structure Viewed (img : Image) (p : ℕ) (k : Kernel) (v : View) : Prop where
  wf : Wf k
  allocated : Allocated k p
  terminal : ∀ i < 2, ((k.pcb p).files i).flags = fdLive ∧ ((k.pcb p).files i).fops = some .term
  handles : ∀ i, 2 ≤ i → i < fileArrayLen → Stands img (v.handle i) ((k.pcb p).files i)
  arguments : ∃ a : CString, a.bytes = v.args ∧ a.bytes.length < argsMax ∧ HasArgs k p a

section Stands

variable {img : Image} {h : Handle} {fd : Fd}

theorem Stands.flags_eq_zero_iff (hs : Stands img h fd) : fd.flags = 0 ↔ h.isClosed = true := by
  cases h with
  | closed => exact ⟨fun _ => rfl, fun _ => hs.1⟩
  | clock => rw [hs.1]; decide
  | directory n => exact iff_of_false (by rw [hs.1]; decide) Bool.false_ne_true
  | file contents pos => exact iff_of_false (by rw [hs.1]; decide) Bool.false_ne_true

theorem Stands.fops_eq (hs : Stands img h fd) : fd.fops = h.fops := by
  cases h with
  | closed => exact hs.2.1
  | clock => exact hs.2
  | directory n => exact hs.2.1
  | file contents pos => exact hs.2.1

theorem contentsOf_length_lt (img : Image) (inode : ℕ) :
    (contentsOf img inode).length < 2 ^ 32 := by
  unfold contentsOf
  split_ifs
  · rw [fileContents_length]
    exact word32_lt _ _
  · exact Nat.two_pow_pos 32

/-- What `open` writes to a closed descriptor stands for the entry. -/
theorem stands_openFd {m : ℕ} (hpos : fd.pos = 0) (d : Dentry) :
    Dentry.ftype (dentryAt img m) ≤ fileFtype →
      Stands img (nodeOf img m).handle (openFd (copy d (dentryAt img m) bytesDentry) fd) := by
  intro htype
  have hle : Dentry.ftype (dentryAt img m) ≤ 2 := htype
  have hcases : Dentry.ftype (dentryAt img m) = 0 ∨ Dentry.ftype (dentryAt img m) = 1 ∨
      Dentry.ftype (dentryAt img m) = 2 := by omega
  unfold nodeOf openFd
  simp only [ftype_copy, inode_copy]
  rcases hcases with h | h | h
  · simp only [h]
    exact ⟨rfl, rfl⟩
  · simp only [h]
    exact ⟨rfl, rfl, hpos, by decide⟩
  · simp only [h]
    exact ⟨rfl, rfl, hpos, Nat.zero_le _, rfl⟩

end Stands

/-! ### The directory -/

section Directory

variable {img : Image}

theorem mem_dirOf {e : DirEntry} : e ∈ dirOf img ↔ ∃ m < dirEntriesCnt img, e = entryOf img m := by
  rw [dirOf, List.mem_map]
  simp only [List.mem_range, eq_comm]

theorem dirOf_getElem? (img : Image) (n : ℕ) :
    (dirOf img)[n]? = if n < dirEntriesCnt img then some (entryOf img n) else none := by
  rw [dirOf, List.getElem?_map]
  by_cases hn : n < dirEntriesCnt img
  · rw [List.getElem?_range hn, if_pos hn]
    rfl
  · rw [List.getElem?_eq_none (by rw [List.length_range]; omega), if_neg hn]
    rfl

/-- The lookup of the kernel finds the entry of the directory. -/
theorem findEntry_dirOf (hw : WellFormed img) (s : CString) :
    (∃ m < dirEntriesCnt img, findEntry (dirOf img) s.bytes = some (entryOf img m) ∧ ∀ dentry,
        readDentryByName img s dentry = (0, copy dentry (dentryAt img m) bytesDentry)) ∨
      (findEntry (dirOf img) s.bytes = none ∧ ∀ dentry,
        readDentryByName img s dentry = (-1, dentry)) := by
  rcases readDentryByName_spec hw.entries s with ⟨m, hm, hscan, hfound⟩ | ⟨hno, hnone⟩
  · refine Or.inl ⟨m, hm, ?_, hfound⟩
    cases hlook : findEntry (dirOf img) s.bytes with
    | none =>
      have hne := List.find?_eq_none.1 hlook (entryOf img m) (mem_dirOf.2 ⟨m, hm, rfl⟩)
      exact absurd (decide_eq_true hscan.symm) hne
    | some e =>
      obtain ⟨m', hm', rfl⟩ := mem_dirOf.1 (List.mem_of_find?_eq_some hlook)
      have hfind := List.find?_some hlook
      have hkey : scannedName img m' = s.bytes := of_decide_eq_true hfind
      rw [scannedName_injective hw hm' hm (hkey.trans hscan)]
  · refine Or.inr ⟨List.find?_eq_none.2 fun e he => ?_, hnone⟩
    obtain ⟨m, hm, rfl⟩ := mem_dirOf.1 he
    exact fun hkey => hno m hm (of_decide_eq_true hkey).symm

end Directory

/-! ### Steps -/

section Steps

variable {E : Env} {k k' : Kernel} {p i : ℕ} {v : View} {e : Event}

theorem Viewed.tableOk (h : Viewed E.img p k v) : TableOk (k.pcb p).files := by
  intro i hi
  by_cases h2 : i < 2
  · obtain ⟨hflags, hfops⟩ := h.terminal i h2
    exact ⟨some termFtype, hflags, hfops, by decide⟩
  · have hs := h.handles i (not_lt.1 h2) hi
    cases hh : v.handle i with
    | closed =>
      rw [hh] at hs
      exact ⟨none, hs⟩
    | clock =>
      rw [hh] at hs
      exact ⟨some rtcFtype, hs.1, hs.2, by decide⟩
    | directory n =>
      rw [hh] at hs
      exact ⟨some dirFtype, hs.1, hs.2.1, by decide⟩
    | file contents pos =>
      rw [hh] at hs
      exact ⟨some fileFtype, hs.1, hs.2.1, by decide⟩

theorem Viewed.running_ne_zero (h : Viewed E.img p k v) : k.running ≠ 0 :=
  h.wf.running_ne_zero (h.wf.allocated_used p h.allocated)

/-- The least closed descriptor of the view is the one that `open` takes. -/
theorem Viewed.free_eq (h : Viewed E.img p k v) : freeFd (k.pcb p).files = v.free := by
  have hrange : freeFd (k.pcb p).files =
      (List.range' 2 6).find? fun i => ((k.pcb p).files i).flags = 0 := rfl
  rw [hrange, View.free]
  refine List.find?_congr fun i hi => ?_
  rw [List.mem_range'_1] at hi
  have hiff := (h.handles i hi.1 (by simp only [fileArrayLen]; omega)).flags_eq_zero_iff
  cases hc : (v.handle i).isClosed with
  | true => exact decide_eq_true (hiff.2 hc)
  | false => exact decide_eq_false fun hz => by simp [hiff.1 hz] at hc

/-- A step that leaves the table alone keeps the view. -/
theorem Viewed.frame (h : Viewed E.img p k v) (hstep : step E k e = some k')
    (hhalt : NotHaltOf p k e) (hfiles : (k'.pcb p).files = (k.pcb p).files)
    (written : List UInt8) (lines : List (List UInt8)) :
    Viewed E.img p k' { v with written := written, lines := lines } where
  wf := wf_step h.wf hstep
  allocated := (sameArgs_step h.wf h.allocated hhalt hstep).allocated
  terminal i hi := by
    rw [hfiles]
    exact h.terminal i hi
  handles i h2 h8 := by
    rw [hfiles]
    exact h.handles i h2 h8
  arguments := by
    obtain ⟨a, ha, hlen, hargs⟩ := h.arguments
    exact ⟨a, ha, hlen, hargs.same (sameArgs_step h.wf h.allocated hhalt hstep)⟩

/-- A step that changes one descriptor. -/
theorem Viewed.set (h : Viewed E.img p k v) (hstep : step E k e = some k')
    (hhalt : NotHaltOf p k e) (h2 : 2 ≤ i) (fd : Fd) {hd : Handle}
    (hfiles : (k'.pcb p).files = Function.update (k.pcb p).files i fd) (hs : Stands E.img hd fd) :
    Viewed E.img p k' (v.set i hd) where
  wf := wf_step h.wf hstep
  allocated := (sameArgs_step h.wf h.allocated hhalt hstep).allocated
  terminal j hj := by
    rw [hfiles, Function.update_of_ne (by omega)]
    exact h.terminal j hj
  handles j hj2 hj8 := by
    rw [hfiles, View.set_handle]
    by_cases hij : j = i
    · subst hij
      rw [Function.update_self, Function.update_self]
      exact hs
    · rw [Function.update_of_ne hij, Function.update_of_ne hij]
      exact h.handles j hj2 hj8
  arguments := by
    obtain ⟨a, ha, hlen, hargs⟩ := h.arguments
    exact ⟨a, ha, hlen, hargs.same (sameArgs_step h.wf h.allocated hhalt hstep)⟩

/-- An event in which the process makes no call leaves its table alone. -/
theorem Viewed.quiet (h : Viewed E.img p k v) (hstep : step E k e = some k')
    (hnone : exchange E p k e = none) : Viewed E.img p k' v := by
  have hnot : k.running = p → requestOf k e = none := by
    intro hr
    rw [exchange, if_pos hr, hstep] at hnone
    cases hreq : requestOf k e with
    | none => rfl
    | some i => simp [hreq] at hnone
  have hhalt : NotHaltOf p k e := by
    cases e with
    | halt status =>
      intro hr
      exact absurd (hnot hr) (by simp [requestOf])
    | _ => trivial
  refine h.frame hstep hhalt ?_ v.written v.lines
  by_cases hown : e.quiet ∧ k.running = p
  · obtain ⟨hq, rfl⟩ := hown
    have hreq := hnot rfl
    obtain ⟨k1, hk1, rfl⟩ := Option.map_eq_some_iff.1 hstep
    have hsame : ∀ {pcb : ℕ → Pcb}, pcb = k.advanceClock.pcb → (pcb k.running).files =
        (k.pcb k.running).files := by
      rintro pcb rfl
      rfl
    cases effect_of_dispatch hk1 with
    | key => exact hq.elim
    | tick => exact hq.elim
    | type key htype => exact (hsame (typeKey_pcb htype) :)
    | rtcInterrupt => rfl
    | arm fd buf => exact (hsame (armFile_pcb fd buf k.advanceClock) :)
    | compute mem => rfl
    | _ => simp [requestOf] at hreq
  · exact (untouched_step h.wf (Or.inl h.allocated) hhalt (fun hq hr => hown ⟨hq, hr⟩) hstep).files

end Steps

/-! ### Calls -/

section Calls

variable {E : Env} {k k' : Kernel} {v : View} {fd nbytes : ℤ} {buf : ℕ}

/-- `open` finds the entry and takes the descriptor that the view says. -/
theorem Viewed.openFile (hw : WellFormed E.img) (h : Viewed E.img k.running k v) (s : CString)
    (hstep : step E k (.openFile s) = some k') :
    ∃ v', Serve (dirOf E.img) v (.openFile s.bytes) ⟨k'.eax, []⟩ v' ∧
      Viewed E.img k.running k' v' := by
  have hlaw := openFile_law (k := k.advanceClock) hw.types h.tableOk s
  have hopen := hstep
  rw [step_openFile h.running_ne_zero] at hopen
  obtain ⟨⟨r, k1⟩, hk1, rfl⟩ := Option.map_eq_some_iff.1 hopen
  have hfree : freeFd k.advanceClock.current.files = v.free := h.free_eq
  by_cases hcan : freeFd k.advanceClock.current.files = none ∨ ¬ Found E.img s
  · -- nothing is found, or the table is full
    rw [hlaw.1 hcan] at hk1
    cases hk1
    refine ⟨v, (serve_openFile_none ?_).2 ⟨rfl, rfl⟩, h.frame hstep trivial rfl v.written v.lines⟩
    refine hcan.imp (fun hnone => hfree.symm.trans hnone) fun hno => ?_
    rcases findEntry_dirOf hw s with ⟨m, -, -, hfound⟩ | ⟨hlook, -⟩
    · exact absurd (congrArg Prod.fst (hfound _)) hno
    · exact hlook
  · rw [not_or, not_not] at hcan
    obtain ⟨hsome, hfound⟩ := hcan
    obtain ⟨i, hi⟩ := Option.ne_none_iff_exists'.1 hsome
    obtain ⟨fd', d', hopened, -⟩ := hlaw.2 i hi hfound
    rcases openFile_cases hk1 with ⟨hr, -⟩ | ⟨j, fd, d, hj, -, hfd, -, hr, hk1'⟩
    · rw [hopened] at hk1
      have heq : (i : ℤ) = r := congrArg Prod.fst (Option.some.inj hk1)
      omega
    · obtain rfl : i = j := Option.some.inj (hi.symm.trans hj)
      obtain ⟨h2, h8, hflags⟩ := freeFd_spec hi
      rcases findEntry_dirOf hw s with ⟨m, hm, hlook, hread⟩ | ⟨-, hnone⟩
      · refine ⟨_, (serve_openFile_some (hfree.symm.trans hi) hlook).2 ⟨by rw [← hr]; rfl, rfl⟩, ?_⟩
        refine h.set hstep trivial h2 fd ?_ ?_
        · rw [hk1']
          exact setSlot_files k.advanceClock i fd d
        · rw [hfd, hread]
          exact stands_openFd (h.tableOk.filesOk i h8 hflags) _ (hw.types m hm)
      · exact absurd hfound (not_found_iff.2 (congrArg Prod.fst (hnone _)))

/-- Which of the descriptors from 2 on are live. -/
theorem Viewed.live_iff (h : Viewed E.img k.running k v) :
    2 ≤ fd ∧ fd < fileArrayLen ∧ (k.current.files fd.toNat).flags ≠ 0 ↔
      (v.file fd).isClosed = false := by
  simp only [fileArrayLen, View.file]
  by_cases hr : 2 ≤ fd ∧ fd < 8
  · have hiff := (h.handles fd.toNat (by omega) (by simp only [fileArrayLen]; omega)
      ).flags_eq_zero_iff
    rw [if_pos hr, ← Bool.not_eq_true, ← hiff]
    exact ⟨fun hall => hall.2.2, fun hlive => ⟨hr.1, hr.2, hlive⟩⟩
  · rw [if_neg hr]
    exact iff_of_false (fun hall => hr ⟨hall.1, hall.2.1⟩) (by simp [Handle.isClosed])

theorem Viewed.closeFile (h : Viewed E.img k.running k v)
    (hstep : step E k (.closeFile fd) = some k') :
    ∃ v', Serve (dirOf E.img) v (.closeFile fd) ⟨k'.eax, []⟩ v' ∧
      Viewed E.img k.running k' v' := by
  have hlaw := closeFile_law (k := k.advanceClock) h.tableOk fd
  have hclose := hstep
  rw [step_closeFile h.running_ne_zero] at hclose
  by_cases hlive : (v.file fd).isClosed = false
  · have hcan := h.live_iff.2 hlive
    obtain ⟨d, hclosed⟩ := hlaw.1 hcan
    rw [hclosed] at hclose
    obtain rfl := Option.some.inj hclose
    refine ⟨v.set fd.toNat .closed, ?_, ?_⟩
    · simp only [Serve]
      rw [if_neg (by rw [hlive]; decide)]
      exact ⟨rfl, trivial⟩
    · exact h.set hstep trivial (by omega) _ (setSlot_files k.advanceClock _ _ d) ⟨rfl, rfl, rfl⟩
  · rw [hlaw.2 fun hcan => hlive (h.live_iff.1 hcan)] at hclose
    obtain rfl := Option.some.inj hclose
    refine ⟨v, ?_, h.frame hstep trivial rfl v.written v.lines⟩
    simp only [Serve]
    rw [if_pos (by simpa using hlive)]
    exact ⟨rfl, trivial⟩

/-- What `read_data` copies is the part of the contents that was asked for. -/
theorem readData_contents {img : Image} {inode pos m : ℕ} {bytes : List UInt8}
    (hbytes : ((contentsOf img inode).drop pos).take m = bytes) (hpos : pos < 2 ^ 32)
    (buf : Memory) : ∃ src : Memory,
      readData img inode pos buf m = ((bytes.length : ℤ), copy buf src bytes.length) ∧
        (List.range bytes.length).map src = bytes := by
  subst hbytes
  by_cases hinode : inode < inodeCnt img
  · have hc : contentsOf img inode = fileContents img inode := if_pos hinode
    have hlen : (((contentsOf img inode).drop pos).take m).length =
        min m (inodeLength img inode - pos) := by
      rw [List.length_take, List.length_drop, hc, fileContents_length]
    refine ⟨fun j => fileByte img inode (pos + j), ?_, ?_⟩
    · rw [readData_eq buf m hinode hpos, hlen]
    · refine List.ext_getElem (by simp) fun j hj hj' => ?_
      simp only [hc, List.getElem_map, List.getElem_range, List.getElem_take, List.getElem_drop,
        fileContents]
  · have hc : contentsOf img inode = [] := if_neg hinode
    refine ⟨fun _ => 0, ?_, ?_⟩
    · rw [readData_of_invalid _ _ _ (not_lt.1 hinode), hc, List.drop_nil, List.take_nil]
      simp
    · simp [hc]

/-- The memory that a read leaves holds the bytes that it copied. -/
theorem bytesAt_splice_copy (m src : Memory) (buf n : ℕ) :
    bytesAt (splice m buf (copy (window m buf) src n)) buf n = (List.range n).map src := by
  refine List.map_congr_left fun j hj => ?_
  rw [List.mem_range] at hj
  rw [window, splice_copy, if_pos ⟨Nat.le_add_right _ _, by omega⟩, Nat.add_sub_cancel_left]

/-- The driver that a `read` of an open descriptor calls. -/
theorem Viewed.readFile_eq (h : Viewed E.img k.running k v) (buf : ℕ) (nbytes : ℤ)
    (hopen : (v.file fd).isClosed = false) :
    2 ≤ fd ∧ fd < 8 ∧ Stands E.img (v.file fd) (k.current.files fd.toNat) ∧
      readFile E fd buf nbytes k.advanceClock =
        readDevice E fd.toNat buf nbytes k.advanceClock ∧
      writeFile E fd buf nbytes k.advanceClock =
        writeDevice E fd.toNat buf nbytes k.advanceClock := by
  obtain ⟨h2, h8, hlive⟩ := h.live_iff.2 hopen
  have hfile : v.file fd = v.handle fd.toNat := if_pos ⟨h2, h8⟩
  have hlive' : (k.advanceClock.current.files fd.toNat).flags ≠ 0 := hlive
  refine ⟨h2, h8, ?_, ?_, ?_⟩
  · rw [hfile]
    exact h.handles _ (by omega) (by simp only [fileArrayLen] at h8 ⊢; omega)
  · rw [readFile, if_neg (by omega), if_pos hlive']
  · rw [writeFile, if_neg (by omega), if_pos hlive']

/-- Calls of a descriptor that is not live. -/
theorem Viewed.readWrite_closed (h : Viewed E.img k.running k v)
    (hclosed : (v.file fd).isClosed = true) :
    (fd ≠ 0 → readFile E fd buf nbytes k.advanceClock = some (-1, k.advanceClock)) ∧
      (fd ≠ 1 → writeFile E fd buf nbytes k.advanceClock = some (-1, k.advanceClock)) := by
  have hdead : ¬ (2 ≤ fd ∧ fd < fileArrayLen ∧
      (k.advanceClock.current.files fd.toNat).flags ≠ 0) := by
    intro hlive
    have hopen := h.live_iff.1 hlive
    rw [hclosed] at hopen
    exact absurd hopen (by decide)
  constructor
  · intro h0
    by_cases h1 : fd = 1
    · rw [readFile, if_pos (Or.inr (Or.inl h1))]
    · exact (readWrite_law (by omega) buf nbytes).1
  · intro h1
    by_cases h0 : fd = 0
    · rw [writeFile, if_pos (Or.inl h0.le)]
    · exact (readWrite_law (by omega) buf nbytes).2

theorem terminalRead_pcb {r : ℤ} (h : terminalRead buf nbytes k = some (r, k')) :
    k'.pcb = k.pcb := by
  unfold terminalRead at h
  simp only at h
  split_ifs at h
  · cases h
    rfl
  · cases h
    rfl

/-- A `read` of the keyboard delivers some line. -/
theorem Viewed.read_line (h : Viewed E.img k.running k v) (hbuf : buf ≠ 0) (h0 : 0 ≤ nbytes)
    (hstep : step E k (.read 0 buf nbytes) = some k') :
    k'.eax = (bytesAt (k'.userMem k.running) buf k'.eax.toNat).length ∧ k'.eax ≤ nbytes ∧
      (k'.pcb k.running).files = (k.pcb k.running).files := by
  obtain ⟨hflags, hfops⟩ := h.terminal 0 (by decide)
  have hread : readFile E 0 buf nbytes k.advanceClock = terminalRead buf nbytes k.advanceClock := by
    have hlive : (k.advanceClock.current.files (0 : ℤ).toNat).flags ≠ 0 := by
      show ((k.pcb k.running).files 0).flags ≠ 0
      rw [hflags]
      exact Nat.one_ne_zero
    have hterm : (k.advanceClock.current.files (0 : ℤ).toNat).fops = some .term := hfops
    rw [readFile, if_neg (by simp only [fileArrayLen]; omega), if_pos hlive, readDevice, hterm]
  rw [step_readFile h.running_ne_zero (pageHolds_of_read hstep), hread] at hstep
  obtain ⟨⟨r, k1⟩, hk1, rfl⟩ := Option.map_eq_some_iff.1 hstep
  obtain ⟨-, -, hr0, hr, -⟩ := terminalRead_spec h0 hbuf hk1
  refine ⟨?_, hr, ?_⟩
  · rw [bytesAt, List.length_map, List.length_range]
    exact (Int.toNat_of_nonneg hr0).symm
  · exact congrArg (fun pcb => (pcb k.running).files) (terminalRead_pcb hk1)

/-- A `read` of a file delivers the part of it from the position on. -/
theorem Viewed.read_file (h : Viewed E.img k.running k v) {contents : List UInt8} {pos : ℕ}
    (hfd : v.file fd = .file contents pos) (h0 : 0 ≤ nbytes) (hn : nbytes < 2 ^ 31)
    (hstep : step E k (.read fd buf nbytes) = some k') :
    (⟨k'.eax, bytesAt (k'.userMem k.running) buf k'.eax.toNat⟩ : Reply) =
        (serveRead (dirOf E.img) v fd nbytes.toNat).1 ∧
      Viewed E.img k.running k' (serveRead (dirOf E.img) v fd nbytes.toNat).2 := by
  obtain ⟨h2, h8, hs, hread, -⟩ := h.readFile_eq buf nbytes
    (show (v.file fd).isClosed = false by rw [hfd]; rfl)
  rw [hfd] at hs
  obtain ⟨hflags, hfops, hpos, hle, hcontents⟩ := hs
  have hlt : pos < 2 ^ 32 := lt_of_le_of_lt hle (hcontents ▸ contentsOf_length_lt _ _)
  have hbig : contents.length < 2 ^ 32 := hcontents ▸ contentsOf_length_lt _ _
  obtain ⟨bytes, hbytes⟩ : ∃ bytes, (contents.drop pos).take nbytes.toNat = bytes := ⟨_, rfl⟩
  have hlen : bytes.length ≤ contents.length - pos := by
    rw [← hbytes, List.length_take, List.length_drop]
    omega
  obtain ⟨src, hdata, hsrc⟩ := readData_contents (hcontents ▸ hbytes) hlt (window k.mem buf)
  have hu : u32 nbytes = nbytes.toNat := u32_of_nonneg h0 (by omega)
  have hu' : u32 (bytes.length : ℤ) = bytes.length := by
    rw [u32_of_nonneg (by omega) (by omega), Int.toNat_natCast]
  have hdevice : readDevice E fd.toNat buf nbytes k.advanceClock =
      some ((bytes.length : ℤ), (k.advanceClock.setMem
        (splice k.mem buf (copy (window k.mem buf) src bytes.length))).advance fd.toNat
          bytes.length) := by
    have hfops' : (k.advanceClock.current.files fd.toNat).fops = some .file := hfops
    have hpos' : (k.advanceClock.current.files fd.toNat).pos = pos := hpos
    have hdata' : readData E.img (k.advanceClock.current.files fd.toNat).inodeNum pos
        (window k.advanceClock.mem buf) nbytes.toNat = _ := hdata
    simp only [readDevice, hfops', fsRead, hpos', hu, hdata', hu']
    rfl
  have hserve : serveRead (dirOf E.img) v fd nbytes.toNat =
      (⟨bytes.length, bytes⟩, v.set fd.toNat (.file contents (pos + bytes.length))) := by
    simp only [serveRead, hfd, hbytes]
  have hk' := hstep
  rw [step_readFile h.running_ne_zero (pageHolds_of_read hstep), hread, hdevice] at hk'
  have hmem : k'.userMem k.running =
      splice k.mem buf (copy (window k.mem buf) src bytes.length) := by
    rw [← Option.some.inj hk']
    exact Function.update_self ..
  have heax : k'.eax = bytes.length := by
    rw [← Option.some.inj hk']
    rfl
  rw [hserve]
  refine ⟨?_, h.set hstep trivial (by omega) { k.current.files fd.toNat with
    pos := (pos + bytes.length) % 2 ^ 32 } ?_ ?_⟩
  · rw [heax, hmem, Int.toNat_natCast, bytesAt_splice_copy, hsrc]
  · rw [← hpos, ← Option.some.inj hk']
    exact congrArg Pcb.files (Kernel.setFiles_pcb_self (k.advanceClock.setMem _) _)
  · exact ⟨hflags, hfops, Nat.mod_eq_of_lt (by omega), by omega, hcontents⟩

/-- What a `read` of a directory delivers. -/
theorem dirRead_reply (hw : WellFormed E.img) (buf : ℕ) {i n : ℕ}
    (hpos : (k.current.files i).pos = n) (h0 : 0 ≤ nbytes) (hn : nbytes < 2 ^ 31)
    {name : List UInt8}
    (hname : (((dirOf E.img)[n]?.map DirEntry.name).getD []).take nbytes.toNat = name) :
    (dirRead E i buf nbytes k).1 = name.length ∧
      bytesAt ((dirRead E i buf nbytes k).2.userMem k.running) buf name.length = name := by
  rw [dirOf_getElem?] at hname
  have hmem : ∀ mem, ((k.setMem mem).advance i 1).userMem k.running = mem := fun mem =>
    Function.update_self ..
  have hspec := dirRead_spec k i buf hw h0 hn
  simp only [hpos] at hspec
  rcases hspec with ⟨hend, hread⟩ | ⟨hlt, hread⟩
  · rw [if_neg (not_lt.2 hend), Option.map_none, Option.getD_none, List.take_nil] at hname
    rw [hread, ← hname]
    exact ⟨rfl, rfl⟩
  · rw [if_pos hlt, Option.map_some, Option.getD_some] at hname
    have hlen : min (scannedName E.img n).length nbytes.toNat = name.length := by
      rw [← hname, List.length_take, min_comm]
      rfl
    rw [hlen] at hread
    rw [hread]
    refine ⟨rfl, ?_⟩
    rw [hmem]
    have htake : name = (List.range name.length).map (dentryAt E.img n) := by
      rw [← hlen, ← hname, entryOf, scannedName, ← List.map_take, List.take_range,
        List.length_map, List.length_range, min_comm]
    conv_rhs => rw [htake]
    refine List.map_congr_left fun j hj => ?_
    rw [List.mem_range] at hj
    -- the newline and the NUL stand behind the copied bytes
    rw [window, Function.update_of_ne (by omega), Function.update_of_ne (by omega), splice_copy,
      if_pos ⟨Nat.le_add_right _ _, by omega⟩, Nat.add_sub_cancel_left]

/-- A `read` of a directory lists the entry at the position. -/
theorem Viewed.read_directory (hw : WellFormed E.img) (h : Viewed E.img k.running k v) {n : ℕ}
    (hfd : v.file fd = .directory n) (h0 : 0 ≤ nbytes) (hn : nbytes < 2 ^ 31)
    (hstep : step E k (.read fd buf nbytes) = some k') :
    (⟨k'.eax, bytesAt (k'.userMem k.running) buf k'.eax.toNat⟩ : Reply) =
        (serveRead (dirOf E.img) v fd nbytes.toNat).1 ∧
      Viewed E.img k.running k' (serveRead (dirOf E.img) v fd nbytes.toNat).2 := by
  obtain ⟨h2, h8, hs, hread, -⟩ := h.readFile_eq buf nbytes
    (show (v.file fd).isClosed = false by rw [hfd]; rfl)
  rw [hfd] at hs
  obtain ⟨hflags, hfops, hpos, hlt⟩ := hs
  have hfops' : (k.advanceClock.current.files fd.toNat).fops = some .dir := hfops
  have hpos' : (k.advanceClock.current.files fd.toNat).pos = n := hpos
  have hk' := hstep
  rw [step_readFile h.running_ne_zero (pageHolds_of_read hstep), hread, readDevice, hfops'] at hk'
  obtain rfl := Option.some.inj hk'
  have hserve : serveRead (dirOf E.img) v fd nbytes.toNat =
      (⟨((((dirOf E.img)[n]?.map DirEntry.name).getD []).take nbytes.toNat).length,
        (((dirOf E.img)[n]?.map DirEntry.name).getD []).take nbytes.toNat⟩,
        v.set fd.toNat (.directory ((n + 1) % 2 ^ 32))) := by
    simp only [serveRead, hfd]
  obtain ⟨hresult, hbytes⟩ := dirRead_reply hw buf hpos' h0 hn rfl
  rw [hserve]
  refine ⟨?_, ?_⟩
  · show Reply.mk (dirRead E fd.toNat buf nbytes k.advanceClock).1
      (bytesAt _ buf (dirRead E fd.toNat buf nbytes k.advanceClock).1.toNat) = _
    rw [hresult, Int.toNat_natCast]
    exact congrArg _ hbytes
  · refine h.set hstep trivial (by omega) { k.current.files fd.toNat with
      pos := (n + 1) % 2 ^ 32 } ?_ ⟨hflags, hfops, rfl, Nat.mod_lt _ (by decide)⟩
    rw [← hpos]
    exact congrArg Pcb.files (Kernel.setFiles_pcb_self (k.advanceClock.setMem _) _)

/-- **`read`** delivers what the view says. -/
theorem Viewed.read (hw : WellFormed E.img) (h : Viewed E.img k.running k v) (hbuf : buf ≠ 0)
    (hallowed : Allowed v (.read fd nbytes))
    (hstep : step E k (.read fd buf nbytes) = some k') :
    ∃ v', Serve (dirOf E.img) v (.read fd nbytes)
        ⟨k'.eax, bytesAt (k'.userMem k.running) buf k'.eax.toNat⟩ v' ∧
      Viewed E.img k.running k' v' := by
  obtain ⟨h0, hn⟩ := hallowed
  by_cases hzero : fd = 0
  · subst hzero
    obtain ⟨hlen, hle, hfiles⟩ := h.read_line hbuf h0 hstep
    refine ⟨_, ⟨hlen, hle, rfl⟩, ?_⟩
    exact h.frame hstep trivial hfiles v.written _
  simp only [Serve, if_neg hzero]
  suffices hboth : (⟨k'.eax, bytesAt (k'.userMem k.running) buf k'.eax.toNat⟩ : Reply) =
        (serveRead (dirOf E.img) v fd nbytes.toNat).1 ∧
      Viewed E.img k.running k' (serveRead (dirOf E.img) v fd nbytes.toNat).2 by
    exact ⟨_, Prod.ext hboth.1 rfl, hboth.2⟩
  cases hfd : v.file fd with
  | closed =>
    have hserve : serveRead (dirOf E.img) v fd nbytes.toNat = (⟨-1, []⟩, v) := by
      simp only [serveRead, hfd]
    have hread : readFile E fd buf nbytes k.advanceClock = some (-1, k.advanceClock) :=
      (h.readWrite_closed (by rw [hfd]; rfl)).1 hzero
    have hk' := hstep
    rw [step_readFile h.running_ne_zero (pageHolds_of_read hstep), hread] at hk'
    obtain rfl := Option.some.inj hk'
    rw [hserve]
    exact ⟨rfl, h.frame hstep trivial rfl v.written v.lines⟩
  | clock =>
    have hserve : serveRead (dirOf E.img) v fd nbytes.toNat = (⟨0, []⟩, v) := by
      simp only [serveRead, hfd]
    obtain ⟨h2, h8, hs, hread, -⟩ := h.readFile_eq buf nbytes
      (show (v.file fd).isClosed = false by rw [hfd]; rfl)
    rw [hfd] at hs
    have hfops : (k.advanceClock.current.files fd.toNat).fops = some .rtc := hs.2
    have hk' := hstep
    rw [step_readFile h.running_ne_zero (pageHolds_of_read hstep), hread, readDevice, hfops] at hk'
    obtain rfl := Option.some.inj hk'
    rw [hserve]
    exact ⟨rfl, h.frame hstep trivial rfl v.written v.lines⟩
  | directory n => exact h.read_directory hw hfd h0 hn hstep
  | file contents pos => exact h.read_file hfd h0 hn hstep

theorem Viewed.writeFile_terminal (h : Viewed E.img k.running k v) :
    writeFile E 1 buf nbytes k.advanceClock =
      some (terminalWrite E buf nbytes k.advanceClock) := by
  obtain ⟨hflags, hfops⟩ := h.terminal 1 (by decide)
  have hlive : (k.advanceClock.current.files (1 : ℤ).toNat).flags ≠ 0 := by
    show ((k.pcb k.running).files 1).flags ≠ 0
    rw [hflags]
    exact Nat.one_ne_zero
  have hterm : (k.advanceClock.current.files (1 : ℤ).toNat).fops = some .term := hfops
  rw [writeFile, if_neg (by simp only [fileArrayLen]; omega), if_pos hlive, writeDevice, hterm]

/-- **`write`** hands the bytes to the terminal, or fails. -/
theorem Viewed.write (h : Viewed E.img k.running k v) (hbuf : buf ≠ 0)
    (hstep : step E k (.write fd buf nbytes) = some k') :
    ∃ v', Serve (dirOf E.img) v (.write fd nbytes (bytesAt k.mem buf nbytes.toNat))
        ⟨k'.eax, []⟩ v' ∧ Viewed E.img k.running k' v' := by
  have hk' := hstep
  rw [step_writeFile h.running_ne_zero (pageHolds_of_write hstep)] at hk'
  by_cases h1 : fd = 1
  · subst h1
    rw [h.writeFile_terminal] at hk'
    obtain rfl := Option.some.inj hk'
    refine ⟨{ v with written := v.written ++ bytesAt k.mem buf nbytes.toNat }, ?_, ?_⟩
    · simp only [Serve, if_true]
      refine ⟨?_, trivial⟩
      rw [terminalWrite, if_neg hbuf]
      rfl
    · refine h.frame hstep trivial ?_ _ v.lines
      rw [terminalWrite, if_neg hbuf]
      rfl
  · simp only [Serve, if_neg h1]
    have hfail : writeFile E fd buf nbytes k.advanceClock = some (-1, k.advanceClock) →
        (⟨k'.eax, []⟩ : Reply) = ⟨-1, []⟩ ∧ Viewed E.img k.running k' v := by
      intro hwrite
      rw [hwrite] at hk'
      obtain rfl := Option.some.inj hk'
      exact ⟨rfl, h.frame hstep trivial rfl v.written v.lines⟩
    have hopen : ∀ {hd : Handle} (fops : Fops), v.file fd = hd → hd.isClosed = false →
        (Stands E.img hd (k.current.files fd.toNat) → (k.current.files fd.toNat).fops = some fops) →
          writeFile E fd buf nbytes k.advanceClock =
            writeDevice E fd.toNat buf nbytes k.advanceClock ∧
          (k.advanceClock.current.files fd.toNat).fops = some fops := by
      rintro hd fops rfl hlive himp
      obtain ⟨-, -, hs, -, hwrite⟩ := h.readFile_eq buf nbytes hlive
      exact ⟨hwrite, himp hs⟩
    cases hfd : v.file fd with
    | closed =>
      obtain ⟨hreply, hview⟩ := hfail ((h.readWrite_closed (by rw [hfd]; rfl)).2 h1)
      exact ⟨v, ⟨hreply, rfl⟩, hview⟩
    | clock =>
      obtain ⟨hwrite, hfops⟩ := hopen .rtc hfd rfl fun hs => hs.2
      rw [hwrite, writeDevice, hfops] at hk'
      simp only [if_neg hbuf] at hk'
      obtain rfl := Option.some.inj hk'
      exact ⟨v, ⟨trivial, rfl⟩, h.frame hstep trivial rfl v.written v.lines⟩
    | directory n =>
      obtain ⟨hwrite, hfops⟩ := hopen .dir hfd rfl fun hs => hs.2.1
      obtain ⟨hreply, hview⟩ := hfail (by rw [hwrite, writeDevice, hfops])
      exact ⟨v, ⟨hreply, rfl⟩, hview⟩
    | file contents pos =>
      obtain ⟨hwrite, hfops⟩ := hopen .file hfd rfl fun hs => hs.2.1
      obtain ⟨hreply, hview⟩ := hfail (by rw [hwrite, writeDevice, hfops])
      exact ⟨v, ⟨hreply, rfl⟩, hview⟩

/-- **`getargs`** hands out the arguments if the buffer has room for them. -/
theorem Viewed.getargs (h : Viewed E.img k.running k v) (h0 : 0 ≤ nbytes) (hn : nbytes < 2 ^ 31)
    (hstep : step E k (.getargs buf nbytes) = some k') :
    ∃ v', Serve (dirOf E.img) v (.getargs nbytes) (replyOf k.running k' (.getargs buf nbytes)) v' ∧
      Viewed E.img k.running k' v' := by
  obtain ⟨a, ha, hlen, hargs⟩ := h.arguments
  have hargs' : HasArgs k.advanceClock k.advanceClock.running a := ⟨hargs.args_eq, hargs.argsLen_eq⟩
  have hk' := hstep
  have hu : u32 nbytes = nbytes.toNat := u32_of_nonneg h0 (by omega)
  rw [step_getargs h.running_ne_zero (pageHolds_of_getargs hstep), getargs_eq hargs' hlen, hu]
    at hk'
  refine ⟨v, ?_, h.frame hstep trivial ?_ v.written v.lines⟩
  · simp only [Serve, ← ha]
    by_cases hroom : (a.bytes.length : ℤ) < nbytes
    · rw [if_neg (by omega)] at hk'
      obtain rfl := Option.some.inj hk'
      have hmem : ((result (0, k.advanceClock.setMem (blockSet k.advanceClock.mem buf a.mem
          (a.bytes.length + 1)))).setIflag true).userMem k.running =
            blockSet k.mem buf a.mem (a.bytes.length + 1) := Function.update_self ..
      have hstring : CString.ofMem (window (blockSet k.mem buf a.mem (a.bytes.length + 1)) buf) =
          a := by
        apply CString.ext
        refine nulBounded_eq (Nat.le_sub_one_of_lt a.short) a.noNul fun j hj => ?_
        rw [Nat.zero_add]
        exact blockSet_of_lt _ _ _ (by omega)
      rw [if_pos hroom]
      refine ⟨?_, trivial⟩
      simp only [replyOf, hmem, hstring]
      rfl
    · rw [if_pos (by omega)] at hk'
      obtain rfl := Option.some.inj hk'
      rw [if_neg hroom]
      exact ⟨rfl, trivial⟩
  · split_ifs at hk'
    · obtain rfl := Option.some.inj hk'
      rfl
    · obtain rfl := Option.some.inj hk'
      rfl

theorem vidmap_result {screenStart : ℕ} {r : ℤ} (hlt : screenStart < 2 ^ 32)
    (hbuf : PageHolds screenStart (vidmapSpan screenStart))
    (h : vidmap E screenStart k = some (r, k')) : r = vidmapResult screenStart := by
  have hchecked := vidmapRefuses_iff hlt
  rw [vidmapResult]
  rcases vidmap_cases hbuf h with ⟨hno, rfl, -⟩ | ⟨hno, -, rfl, -⟩
  · exact (if_neg (hchecked.1 hno)).symm
  · exact (if_pos (not_not.1 (mt hchecked.2 hno))).symm

theorem Viewed.vidmap (h : Viewed E.img k.running k v) {screenStart : ℕ}
    (hptr : WholePointer screenStart) (hstep : step E k (.vidmap screenStart) = some k') :
    ∃ v', Serve (dirOf E.img) v (.vidmap screenStart) ⟨k'.eax, []⟩ v' ∧
      Viewed E.img k.running k' v' := by
  have hbuf := pageHolds_of_vidmap hstep
  have hk' := hstep
  rw [step_vidmap h.running_ne_zero hbuf] at hk'
  obtain ⟨⟨r, k1⟩, hk1, rfl⟩ := Option.map_eq_some_iff.1 hk'
  refine ⟨v, ⟨?_, rfl⟩, h.frame hstep trivial ?_ v.written v.lines⟩
  · rw [← vidmap_result hptr.1 hbuf hk1]
    rfl
  · exact congrArg (fun pcb => (pcb k.running).files) (vidmap_pcb hbuf hk1)

end Calls

/-! ### Calls return -/

section Returns

variable {E : Env} {k : Kernel} {v : View} {fd nbytes : ℤ} {buf : ℕ}

theorem Viewed.openFile_returns (hw : WellFormed E.img) (h : Viewed E.img k.running k v)
    (s : CString) : (step E k (.openFile s)).isSome = true := by
  have hlaw := openFile_law (k := k.advanceClock) hw.types h.tableOk s
  rw [step_openFile h.running_ne_zero, Option.isSome_map]
  by_cases hcan : freeFd k.advanceClock.current.files = none ∨ ¬ Found E.img s
  · rw [hlaw.1 hcan]
    rfl
  · rw [not_or, not_not] at hcan
    obtain ⟨i, hi⟩ := Option.ne_none_iff_exists'.1 hcan.1
    obtain ⟨fd, d, hopen, -⟩ := hlaw.2 i hi hcan.2
    rw [hopen]
    rfl

theorem Viewed.closeFile_returns (h : Viewed E.img k.running k v) :
    (step E k (.closeFile fd)).isSome = true := by
  have hlaw := closeFile_law (k := k.advanceClock) h.tableOk fd
  rw [step_closeFile h.running_ne_zero, Option.isSome_map]
  by_cases hcan : 2 ≤ fd ∧ fd < fileArrayLen ∧
      (k.advanceClock.current.files fd.toNat).flags ≠ 0
  · obtain ⟨d, hclose⟩ := hlaw.1 hcan
    rw [hclose]
    rfl
  · rw [hlaw.2 hcan]
    rfl

theorem Viewed.read_returns (h : Viewed E.img k.running k v) (h0 : fd ≠ 0)
    (hbuf : PageHolds buf (readSpan E fd buf nbytes k)) :
    (step E k (.read fd buf nbytes)).isSome = true := by
  rw [step_readFile h.running_ne_zero hbuf, Option.isSome_map]
  by_cases hopen : (v.file fd).isClosed = false
  · obtain ⟨-, -, hs, hread, -⟩ := h.readFile_eq buf nbytes hopen
    have hfops : (k.advanceClock.current.files fd.toNat).fops = (v.file fd).fops := hs.fops_eq
    rw [hread, readDevice, hfops]
    cases hfd : v.file fd with
    | closed => simp [hfd, Handle.isClosed] at hopen
    | clock => rfl
    | directory n => rfl
    | file contents pos => rfl
  · rw [(h.readWrite_closed (by simpa using hopen)).1 h0]
    rfl

theorem Viewed.write_returns (h : Viewed E.img k.running k v)
    (hbuf : PageHolds buf (writeSpan fd buf nbytes k)) :
    (step E k (.write fd buf nbytes)).isSome = true := by
  rw [step_writeFile h.running_ne_zero hbuf, Option.isSome_map]
  by_cases h1 : fd = 1
  · rw [h1, h.writeFile_terminal]
    rfl
  by_cases hopen : (v.file fd).isClosed = false
  · obtain ⟨-, -, hs, -, hwrite⟩ := h.readFile_eq buf nbytes hopen
    have hfops : (k.advanceClock.current.files fd.toNat).fops = (v.file fd).fops := hs.fops_eq
    rw [hwrite, writeDevice, hfops]
    cases hfd : v.file fd with
    | closed => simp [hfd, Handle.isClosed] at hopen
    | clock =>
      simp only [Handle.fops]
      split_ifs <;> rfl
    | directory n => rfl
    | file contents pos => rfl
  · rw [(h.readWrite_closed (by simpa using hopen)).2 h1]
    rfl

/-- Every pointer that is not cut off by the end of the page may be given to `vidmap`. -/
theorem vidmap_returns (hr : k.running ≠ 0) {screenStart : ℕ} (hptr : WholePointer screenStart) :
    (step E k (.vidmap screenStart)).isSome = true := by
  obtain ⟨hlt, hwhole⟩ := hptr
  by_cases hno : vidmapRefuses screenStart
  · have hbuf : PageHolds screenStart (vidmapSpan screenStart) := Or.inl (if_pos hno)
    rw [step_vidmap hr hbuf, vidmap, if_pos hno]
    rfl
  · obtain ⟨hlow, hhigh⟩ : InPage screenStart := not_not.1 (mt (vidmapRefuses_iff hlt).2 hno)
    have hbuf : PageHolds screenStart (vidmapSpan screenStart) := by
      rw [vidmapSpan, if_neg hno]
      refine Or.inr ⟨hlow, ?_⟩
      simp only [wordSize, progVmStart, space4MB] at hhigh ⊢
      omega
    rw [step_vidmap hr hbuf, vidmap_inPage hno (inPage_of_vidmapSpan hno hbuf)]
    rfl

/-- A call that the view allows returns if its buffer lies in the page of the program, except that a
read of the keyboard may wait for a line. -/
theorem Viewed.returns (hw : WellFormed E.img) (h : Viewed E.img k.running k v) {e : Event}
    {i : Request} (hreq : requestOf k e = some i) (hallowed : Allowed v i) (hbuf : OwnBuffer E k e)
    (hline : ∀ nbytes, i ≠ .read 0 nbytes) : (step E k e).isSome = true := by
  have hr := h.running_ne_zero
  cases e with
  | openFile s => exact h.openFile_returns hw s
  | closeFile fd => exact h.closeFile_returns
  | read fd buf nbytes =>
    refine h.read_returns ?_ hbuf
    rintro rfl
    simp only [requestOf, Option.some.injEq] at hreq
    split_ifs at hreq with hnull
    · rw [← hreq] at hallowed
      exact hallowed
    · exact hline nbytes hreq.symm
  | write fd buf nbytes => exact h.write_returns hbuf
  | getargs buf nbytes =>
    rw [step_getargs hr hbuf]
    rfl
  | vidmap screenStart =>
    cases hreq
    exact vidmap_returns hr hallowed
  | execute command =>
    cases hreq
    exact hallowed.elim
  | halt status =>
    cases hreq
    exact hallowed.elim
  | _ => simp [requestOf] at hreq

end Returns

/-! ### The refinement -/

section Refinement

variable {E : Env} {k k' : Kernel} {p : ℕ}

/-- **The kernel serves its processes.**  Whatever the event, the view of a process is kept, and a
call of the process is answered as the view says. -/
theorem simulates_serve (hw : WellFormed E.img) (p : ℕ) :
    Simulates (step E) (exchange E p) (Serve (dirOf E.img)) Allowed (Viewed E.img p) where
  quiet h hstep hnone := h.quiet hstep hnone
  served := by
    intro k v e k' i w h hstep hx hallowed
    unfold exchange at hx
    split_ifs at hx with hr
    obtain rfl := hr
    rw [hstep] at hx
    cases e with
    | openFile s =>
      cases hx
      exact h.openFile hw s hstep
    | closeFile fd =>
      cases hx
      exact h.closeFile hstep
    | read fd buf nbytes =>
      cases hx
      by_cases hbuf : buf = 0
      · rw [if_pos hbuf] at hallowed
        exact hallowed.elim
      · rw [if_neg hbuf] at hallowed ⊢
        exact h.read hw hbuf hallowed hstep
    | write fd buf nbytes =>
      cases hx
      by_cases hbuf : buf = 0
      · rw [if_pos hbuf] at hallowed
        exact hallowed.elim
      · rw [if_neg hbuf] at hallowed ⊢
        exact h.write hbuf hstep
    | getargs buf nbytes =>
      cases hx
      exact h.getargs hallowed.1 hallowed.2 hstep
    | vidmap screenStart =>
      cases hx
      exact h.vidmap hallowed hstep
    | execute command =>
      cases hx
      exact hallowed.elim
    | halt status =>
      cases hx
      exact hallowed.elim
    | _ => simp [requestOf] at hx

/-- The process that `execute` starts runs, and has the arguments of the command. -/
theorem hasArgs_execute {site : Site} {command : CString}
    (h : execute E site command k = some k') :
    HasArgs k' k'.running (arguments command) ∧
      ∃ s, k'.starts = s :: k.starts ∧ s.pid = k'.running := by
  obtain ⟨pid, d, args, hcheck, h1, h6, hfree, rfl⟩ := execute_spec h
  obtain rfl := checkExecutable_args hcheck
  refine ⟨⟨fun i hi => ?_, ?_⟩, _, rfl, rfl⟩
  · show ((startProcess _ _ _ _ _ _).pcb pid).args i = _
    rw [startProcess_pcb_self]
    exact copy_of_lt (Nat.lt_succ_of_le hi)
  · show ((startProcess _ _ _ _ _ _).pcb pid).argsLen = _
    rw [startProcess_pcb_self]
    rfl

/-- A process that `execute` has started has no open files, and the arguments of the command. -/
theorem viewed_started (hk : Wf k) {command : CString} (hshort : command.bytes.length < argsMax)
    (hstep : step E k (.execute command) = some k') (hp : Starts k k' p) :
    Viewed E.img p k' (View.start (arguments command).bytes) := by
  obtain ⟨hall, htab⟩ := started_table hstep hp
  refine ⟨wf_step hk hstep, hall, fun i hi => ?_, fun i h2 h8 => ?_, arguments command, rfl,
    lt_of_le_of_lt (arguments_length_le command) hshort, ?_⟩
  · have hheld := htab i (hi.trans (by decide))
    rw [initialOp, if_pos hi] at hheld
    exact ⟨hheld.1, hheld.2.1⟩
  · have hheld := htab i h8
    rw [initialOp, if_neg (not_lt.2 h2)] at hheld
    exact hheld
  · obtain ⟨k1, hk1, rfl⟩ := Option.map_eq_some_iff.1 hstep
    obtain ⟨s, hs, rfl⟩ := hp
    have hs' : k1.starts = s :: k.starts := hs
    cases effect_of_dispatch hk1 with
    | notExecuted => exact absurd (congrArg List.length hs') (by simp [Kernel.advanceClock])
    | executed _ _ hexec =>
      obtain ⟨hargs, t, ht, hpid⟩ := hasArgs_execute hexec
      obtain rfl : t = s := (List.cons.inj (ht.symm.trans hs')).1
      rw [hpid]
      exact ⟨hargs.args_eq, hargs.argsLen_eq⟩

/-- **Every process has its own files.**  In every run from the `execute` that starts a process on,
its calls are answered as one process alone with the directory would find them answered, whatever
the other processes, the keyboard and the timer do in between; and a further call of it with a
buffer in its page returns, unless it waits for a line. -/
theorem process_refines (hw : WellFormed E.img) (hk : Reachable E k) {command : CString}
    (hshort : command.bytes.length < argsMax) (hstep : step E k (.execute command) = some k')
    (hp : Starts k k' p) {es : List Event} {k'' : Kernel} (hrun : run (step E) k' es = some k'')
    (hallowed : AllowedAlong (Serve (dirOf E.img)) Allowed
      (View.start (arguments command).bytes) (exchanges (step E) (exchange E p) k' es)) :
    ∃ v, Serves (Serve (dirOf E.img)) (View.start (arguments command).bytes)
        (exchanges (step E) (exchange E p) k' es) v ∧
      (k''.running = p → ∀ e i, requestOf k'' e = some i → Allowed v i → OwnBuffer E k'' e →
        (∀ nbytes, i ≠ .read 0 nbytes) → (step E k'' e).isSome = true) := by
  have hview : Viewed E.img p k' _ := viewed_started (wf_reachable hk) hshort hstep hp
  obtain ⟨v, hserves, hend⟩ := serves_of_run (simulates_serve hw p) hview hrun hallowed
  refine ⟨v, hserves, ?_⟩
  rintro rfl e i hreq hi hbuf hline
  exact hend.returns hw hreq hi hbuf hline

/-- The second shell of the small machine opens the file `shell` twice, reads it in two parts and
writes the first bytes of it.  In between a third shell is started and opens a directory. -/
def secondShell : List Event :=
  [.openFile shell, .key 1, .tick, .openFile dotName, .tick, .openFile shell, .read 2 0x8000000 16,
    .type 30, .read 2 0x8000010 32, .rtcInterrupt, .closeFile 3, .write 1 0x8000000 4,
    .read 2 0x8000000 16, .getargs 0x8000000 8]

theorem secondShell_exchanges :
    exchanges (step small) (exchange small 2) (smallState [.key 0, .execute shell]) secondShell =
      [(.openFile shell.bytes, ⟨2, []⟩), (.openFile shell.bytes, ⟨3, []⟩),
        (.read 2 16, ⟨16, [0x7f, 0x45, 0x4c, 0x46, 0, 0, 0, 0, 0, 0, 0, 0, 0, 0, 0, 0]⟩),
        (.read 2 32, ⟨24, List.replicate 24 0⟩), (.closeFile 3, ⟨0, []⟩),
        (.write 1 4 [0x7f, 0x45, 0x4c, 0x46], ⟨4, []⟩), (.read 2 16, ⟨0, []⟩),
        (.getargs 8, ⟨0, []⟩)] := by
  decide +kernel

/-- A run of the small machine in which a second process is started. -/
theorem second_run {command : CString} {es : List Event}
    (h : (run (step small) (boot small) ([.key 0, .execute command] ++ es)).isSome = true) :
    Reachable small (smallState [.key 0]) ∧
      step small (smallState [.key 0]) (.execute command) =
        some (smallState [.key 0, .execute command]) ∧
      run (step small) (smallState [.key 0, .execute command]) es =
        some (smallState ([.key 0, .execute command] ++ es)) := by
  obtain ⟨k, hk, -⟩ := run_append_eq_some.1 (run_smallState h)
  have hexec : (run (step small) (boot small) ([.key 0] ++ [.execute command])).isSome = true :=
    Option.isSome_of_eq_some hk
  obtain ⟨k0, hk0, -⟩ := run_append_eq_some.1 (run_smallState hexec)
  exact ⟨smallState_reachable (Option.isSome_of_eq_some hk0), step_smallState hexec,
    run_smallState_append h⟩

theorem shell_started : Starts (smallState [.key 0]) (smallState [.key 0, .execute shell]) 2 :=
  ⟨⟨2, some 1, 0, .syscall, 1, 0⟩, by decide +kernel, rfl⟩

theorem process_refines_shell :
    ∃ v, Serves (Serve (dirOf small.img)) (View.start (arguments shell).bytes)
        (exchanges (step small) (exchange small 2) (smallState [.key 0, .execute shell])
          secondShell) v ∧
      ((smallState ([.key 0, .execute shell] ++ secondShell)).running = 2 → ∀ e i,
        requestOf (smallState ([.key 0, .execute shell] ++ secondShell)) e = some i →
          Allowed v i → OwnBuffer small (smallState ([.key 0, .execute shell] ++ secondShell)) e →
            (∀ nbytes, i ≠ .read 0 nbytes) →
              (step small (smallState ([.key 0, .execute shell] ++ secondShell)) e).isSome =
                true) := by
  have hsome : (run (step small) (boot small)
      ([.key 0, .execute shell] ++ secondShell)).isSome = true := by decide +kernel
  obtain ⟨hk, hstep, hrun⟩ := second_run hsome
  refine process_refines smallImg_wellFormed hk (by decide) hstep shell_started hrun ?_
  rw [secondShell_exchanges]
  refine allowedAlong_of_forall ?_
  simp only [List.forall_mem_cons, List.not_mem_nil, false_imp_iff, implies_true, and_true]
  refine ⟨?_, ?_, ?_, ?_, ?_, ?_, ?_, ?_⟩ <;> intro v
  · trivial
  · trivial
  · exact ⟨by decide, by decide⟩
  · exact ⟨by decide, by decide⟩
  · trivial
  · exact ⟨by decide, by decide⟩
  · exact ⟨by decide, by decide⟩
  · exact ⟨by decide, by decide⟩

end Refinement

end LinuxIsLove
