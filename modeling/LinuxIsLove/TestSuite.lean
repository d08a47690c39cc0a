import LinuxIsLove.UserPrograms
import LinuxIsLove.Source.SysErr

/-!
# The tests of the system calls pass

Each test of `ece391syserr.c` leaves the descriptors of its process closed, as it has found them, so
that the tests can be run one after the other.
-/

namespace LinuxIsLove

open Bytes EventMachine Clients

section Rules

variable {dir : List DirEntry} {v : View} {fd nbytes : ℤ} {m : Memory} {p : ℕ}

theorem meets_read_closed {post : View → Reply → Prop} (hclosed : v.file fd = .closed)
    (hfd : fd ≠ 0) (h0 : 0 ≤ nbytes) (hn : nbytes < 2 ^ 31) (h : post v ⟨-1, []⟩) :
    Runs dir (ece391Read fd nbytes) post v :=
  meets_read (by simp only [serveRead, hclosed]) hfd h0 hn h

theorem meets_write_closed {post : View → ℤ → Prop} {n : ℕ} (hclosed : v.file fd = .closed)
    (hfd : fd ≠ 1) (hn : n < 2 ^ 31) (h : post v (-1)) :
    Runs dir (ece391Write fd m p n) post v := by
  have hlen : ((n : ℕ) : ℤ) = (bytesAt m p (n : ℤ).toNat).length := by
    rw [length_bytesAt, Int.toNat_natCast]
  refine ⟨⟨hlen, by omega⟩, fun w v' hw => ?_⟩
  simp only [Serve, if_neg hfd, hclosed] at hw
  obtain ⟨rfl, rfl⟩ := hw
  exact h

theorem meets_close_closed {post : View → ℤ → Prop} (hclosed : v.file fd = .closed)
    (h : post v (-1)) : Runs dir (ece391Close fd) post v := by
  refine ⟨trivial, fun w v' hw => ?_⟩
  simp only [Serve, hclosed, Handle.isClosed, if_true] at hw
  obtain ⟨rfl, rfl⟩ := hw
  exact h

theorem meets_open_full {post : View → ℤ → Prop} {name : List UInt8} (hfree : v.free = none)
    (h : post v (-1)) : Runs dir (ece391Open name) post v := by
  refine ⟨trivial, fun w v' hw => ?_⟩
  obtain ⟨rfl, rfl⟩ := (serve_openFile_none (Or.inl hfree)).1 hw
  exact h

theorem meets_vidmap {post : View → ℤ → Prop} {screenStart : ℕ} (hptr : WholePointer screenStart)
    (h : post v (vidmapResult screenStart)) : Runs dir (ece391Vidmap screenStart) post v := by
  refine ⟨hptr, fun w v' hw => ?_⟩
  obtain ⟨rfl, rfl⟩ := hw
  exact h

/-- A test that goes on is one that has not failed. -/
theorem meets_complain {post : View → ℤ → Prop} {msg : String} {fail : ℤ} (h : post v fail) :
    Runs dir (complain msg fail (-1)) post v := h

end Rules

/-! ### What a test is -/

/-- No file is open. -/
def Fresh (v : View) : Prop := ∀ i, 2 ≤ i → i < 8 → v.handle i = .closed

theorem Fresh.file {v : View} (h : Fresh v) (fd : ℤ) : v.file fd = .closed := by
  unfold View.file
  split_ifs with hr
  · exact h _ (by omega) (by omega)
  · rfl

theorem Fresh.free {v : View} (h : Fresh v) : v.free = some 2 := by
  rw [View.free]
  refine (List.find?_cons_of_pos ?_ : List.find? _ (2 :: List.range' 3 5) = some 2)
  rw [h 2 le_rfl (by decide)]
  rfl

/-- The text of a test that has passed. -/
def passText (name : String) : List UInt8 := ascii (name ++ ": PASS\n")

/-- The test writes that it has passed, and closes what it has opened. -/
def Passes (dir : List DirEntry) (p : Prog ℤ) (name : String) : Prop :=
  ∀ v, Fresh v → Runs dir p (fun v' r => Fresh v' ∧ Grown v (passText name) [] v' ∧ r = 0) v

section Tests

variable {dir : List DirEntry} {v : View}

theorem meets_verdict {name : String} (hs : Writable (name ++ ": PASS\n")) (hv : Fresh v) :
    Runs dir (verdict name 0) (fun v' r => Fresh v' ∧ Grown v (passText name) [] v' ∧ r = 0) v :=
  meets_bind.2 (meets_puts hs ⟨hv, grown_written v _, rfl⟩)

theorem passes_errFd {fd : ℤ} {name : String} {buf : Memory} (h0 : fd ≠ 0) (h1 : fd ≠ 1)
    (hs : Writable (name ++ ": PASS\n")) : Passes dir (errFd fd name buf) name := by
  intro v hv
  refine meets_bind.2 (meets_read_closed (hv.file fd) h0 (by decide) (by decide) ?_)
  refine meets_bind.2 (meets_complain ?_)
  refine meets_bind.2 (meets_write_closed (n := 31) (hv.file fd) h1 (by decide) ?_)
  refine meets_bind.2 (meets_complain ?_)
  refine meets_bind.2 (meets_close_closed (hv.file fd) ?_)
  exact meets_bind.2 (meets_complain (meets_verdict hs hv))

theorem passes_errOpen (hhelloo : findEntry dir (ascii "helloo") = none)
    (hshel : findEntry dir (ascii "shel") = none) (hempty : findEntry dir (ascii "") = none) :
    Passes dir errOpen "err_open" := by
  intro v hv
  have hname : ∀ {s : String}, Writable s → findEntry dir (ascii s) = none →
      findEntry dir (cstring (literal s) 0) = none := by
    intro s hs hfind
    rw [cstring_literal (lt_trans hs.1 (by decide)) hs.2, hfind]
  refine meets_bind.2 (meets_open_none (hname (by decide +kernel) hhelloo) ?_)
  refine meets_bind.2 (meets_complain ?_)
  refine meets_bind.2 (meets_open_none (hname (by decide +kernel) hshel) ?_)
  refine meets_bind.2 (meets_complain ?_)
  refine meets_bind.2 (meets_open_none (hname (by decide +kernel) hempty) ?_)
  exact meets_bind.2 (meets_complain (meets_verdict (by decide +kernel) hv))

theorem passes_errVidmap : Passes dir errVidmap "err_vidmap" := by
  intro v hv
  refine meets_bind.2 (meets_vidmap (by decide) ?_)
  refine meets_bind.2 (meets_complain ?_)
  refine meets_bind.2 (meets_vidmap (by decide) ?_)
  exact meets_bind.2 (meets_complain (meets_verdict (by decide +kernel) hv))

theorem passes_errStdinOut {buf : Memory} :
    Passes dir (errStdinOut buf) "err_stdin_out" := by
  intro v hv
  refine meets_bind.2 (meets_write_closed (n := 31) (hv.file 0) (by decide) (by decide) ?_)
  refine meets_bind.2 (meets_complain ?_)
  refine meets_bind.2 (meets_read_closed (hv.file 1) (by decide) (by decide) (by decide) ?_)
  exact meets_bind.2 (meets_complain (meets_verdict (by decide +kernel) hv))

theorem passes_errSyscallNum : Passes dir errSyscallNum "err_syscall_num" := by
  intro v hv
  exact meets_verdict (by decide +kernel) hv

/-- The calls fail for every descriptor, so the loops go on as they have begun. -/
theorem passes_errUnopened {buf : Memory} :
    Passes dir (errUnopened buf) "err_unopened" := by
  intro v hv
  refine meets_bind.2 (meets_forRange (I := fun _ v' fail => v' = v ∧ fail = 0) ?_ ?_ ⟨rfl, rfl⟩)
  · rintro j - v' _ ⟨hsame, rfl⟩
    rw [hsame]
    exact meets_bind.2 (meets_close_closed (hv.file _) (meets_complain ⟨rfl, rfl⟩))
  rintro v' _ ⟨hsame, rfl⟩
  rw [hsame]
  refine meets_bind.2 (meets_forRange (I := fun _ v' x => v' = v ∧ x.2 = 0) ?_ ?_ ⟨rfl, rfl⟩)
  · rintro j - v' ⟨buf, _⟩ ⟨hsame, rfl⟩
    rw [hsame]
    refine meets_bind.2 (meets_read_closed (hv.file _) (by omega) (by decide) (by decide) ?_)
    exact meets_bind.2 (meets_complain ⟨rfl, rfl⟩)
  rintro v' ⟨buf, _⟩ ⟨hsame, rfl⟩
  rw [hsame]
  refine meets_bind.2 (meets_forRange (I := fun _ v' fail => v' = v ∧ fail = 0) ?_ ?_ ⟨rfl, rfl⟩)
  · rintro j - v' _ ⟨hsame, rfl⟩
    rw [hsame]
    refine meets_bind.2 (meets_write_closed (n := 31) (hv.file _) (by omega) (by decide) ?_)
    exact meets_complain ⟨rfl, rfl⟩
  rintro v' _ ⟨hsame, rfl⟩
  rw [hsame]
  exact meets_verdict (by decide +kernel) hv

/-! ### Opening too many files -/

/-- The open descriptors are those from `a` to `b`. -/
def OpenBetween (a b : ℕ) (v : View) : Prop :=
  ∀ i, 2 ≤ i → i < 8 → ((v.handle i).isClosed = false ↔ a ≤ i ∧ i < b)

theorem Handle.isClosed_iff {h : Handle} : h.isClosed = true ↔ h = .closed := by
  cases h <;> simp [Handle.isClosed]

theorem Node.isClosed_handle (n : Node) : n.handle.isClosed = false := by
  cases n <;> rfl

theorem Fresh.openBetween (h : Fresh v) : OpenBetween 2 2 v := by
  intro i h2 h8
  rw [h i h2 h8]
  exact iff_of_false (by decide) (by omega)

theorem OpenBetween.fresh {a b : ℕ} (h : OpenBetween a b v) (hab : b ≤ a) : Fresh v := by
  intro i h2 h8
  by_contra hopen
  have hfalse := Bool.eq_false_iff.2 (mt Handle.isClosed_iff.1 hopen)
  have := (h i h2 h8).1 hfalse
  omega

theorem OpenBetween.free {n : ℕ} (h : OpenBetween 2 n v) (h2 : 2 ≤ n) (hn : n < 8) :
    v.free = some n := by
  rw [View.free, List.find?_range'_eq_some]
  refine ⟨?_, List.mem_range'_1.2 ⟨h2, hn⟩, fun j hj hjn => ?_⟩
  · rw [← Bool.not_eq_false, h n h2 hn]
    omega
  · rw [(h j hj (hjn.trans hn)).2 ⟨hj, hjn⟩]
    rfl

theorem OpenBetween.full (h : OpenBetween 2 8 v) : v.free = none := by
  rw [View.free, List.find?_eq_none]
  intro i hi
  obtain ⟨h2, h8⟩ := List.mem_range'_1.1 hi
  rw [(h i h2 h8).2 ⟨h2, h8⟩]
  decide

theorem OpenBetween.opened {n : ℕ} {x : Handle} (h : OpenBetween 2 n v)
    (hx : x.isClosed = false) : OpenBetween 2 (n + 1) (v.set n x) := by
  intro i h2 h8
  rw [View.set_handle]
  by_cases hin : i = n
  · rw [hin, Function.update_self]
    exact iff_of_true hx (by omega)
  · rw [Function.update_of_ne hin, h i h2 h8]
    omega

theorem OpenBetween.closed {n : ℕ} (h : OpenBetween n 8 v) :
    OpenBetween (n + 1) 8 (v.set n .closed) := by
  intro i h2 h8
  rw [View.set_handle]
  by_cases hin : i = n
  · rw [hin, Function.update_self]
    exact iff_of_false (by decide) (by omega)
  · rw [Function.update_of_ne hin, h i h2 h8]
    omega

/-- Six files can be opened, and the seventh call fails. -/
theorem meets_openLots {e : DirEntry} (hdot : findEntry dir (ascii ".") = some e) (hv : Fresh v) :
    Runs dir (Client.forRange (fun _ cnt => do
        let fd ← ece391Open (cstring (literal ".") 0)
        return if fd = -1 then cnt + 1 else cnt) 7 0 (0 : ℤ))
      (fun v' cnt => OpenBetween 2 8 v' ∧ Grown v [] [] v' ∧ cnt = 1) v := by
  have hname : cstring (literal ".") 0 = ascii "." :=
    cstring_literal (by decide +kernel) (by decide +kernel)
  rw [← hname] at hdot
  refine meets_forRange (I := fun j v' cnt => OpenBetween 2 (min (2 + j) 8) v' ∧
    Grown v [] [] v' ∧ cnt = if j = 7 then 1 else 0) ?_ (fun _ _ h => h)
    ⟨hv.openBetween, Grown.refl v, rfl⟩
  rintro j hj v' cnt ⟨hopen, hgrown, rfl⟩
  rw [if_neg hj.ne]
  by_cases hj6 : j = 6
  · subst hj6
    exact meets_bind.2 (meets_open_full hopen.full ⟨hopen, hgrown, rfl⟩)
  · rw [min_eq_left (by omega)] at hopen
    refine meets_bind.2 (meets_open_some (hopen.free (by omega) (by omega)) hdot ?_)
    refine ⟨?_, hgrown.trans (grown_set _ _), ?_⟩
    · rw [min_eq_left (by omega)]
      exact hopen.opened (Node.isClosed_handle _)
    · rw [if_neg (by omega), if_neg (by omega)]

/-- The six descriptors are closed again. -/
theorem meets_closeLots (hv : OpenBetween 2 8 v) :
    Runs dir (Client.forRange (fun i (_ : Unit) => do
        let _ ← ece391Close i) 6 2 ())
      (fun v' _ => Fresh v' ∧ Grown v [] [] v') v := by
  refine meets_forRange (I := fun j v' _ => OpenBetween (2 + j) 8 v' ∧ Grown v [] [] v') ?_
    (fun _ _ h => ⟨h.1.fresh le_rfl, h.2⟩) ⟨hv, Grown.refl v⟩
  rintro j hj v' _ ⟨hopen, hgrown⟩
  have hfile : (v'.file (2 + (j : ℤ))).isClosed = false := by
    rw [View.file, if_pos (by omega)]
    exact (hopen _ (by omega) (by omega)).2 (by omega)
  refine meets_bind.2 (meets_close hfile ⟨?_, hgrown.trans (grown_set _ _)⟩)
  have hnat : (2 + (j : ℤ)).toNat = 2 + j := by omega
  rw [hnat]
  exact hopen.closed

theorem passes_errOpenLots {e : DirEntry} (hdot : findEntry dir (ascii ".") = some e) :
    Passes dir errOpenLots "err_open_lots" := by
  intro v hv
  refine meets_bind.2 ((meets_openLots hdot hv).mono ?_)
  rintro v1 cnt ⟨hopen, hopened, rfl⟩
  refine meets_bind.2 ((meets_closeLots hopen).mono ?_)
  rintro v2 _ ⟨hfresh, hclosed⟩
  rw [if_pos rfl]
  exact meets_bind.2 (meets_puts (by decide +kernel)
    ⟨hfresh, (hopened.trans hclosed).trans (grown_written v2 _), rfl⟩)

end Tests

/-! ### The program -/

/-- What the tests rely on: `.` is in the directory, and two names are not. -/
structure Testable (dir : List DirEntry) : Prop where
  dot : (findEntry dir (ascii ".")).isSome = true
  helloo : findEntry dir (ascii "helloo") = none
  shel : findEntry dir (ascii "shel") = none
  empty : findEntry dir (ascii "") = none

section Program

variable {dir : List DirEntry} {v : View} {args : List UInt8}

theorem testable_dirOf {img : Image} (hw : WellFormed img)
    (hdot : (findEntry (dirOf img) (ascii ".")).isSome = true)
    (hhelloo : findEntry (dirOf img) (ascii "helloo") = none)
    (hshel : findEntry (dirOf img) (ascii "shel") = none) : Testable (dirOf img) where
  dot := hdot
  helloo := hhelloo
  shel := hshel
  empty := List.find?_eq_none.2 fun e he h =>
    (dirOk_dirOf hw).name_nonempty e he (of_decide_eq_true h)

theorem Testable.errOpenLots (h : Testable dir) : Passes dir errOpenLots "err_open_lots" :=
  passes_errOpenLots (Option.some_get h.dot).symm

theorem Testable.errOpen (h : Testable dir) : Passes dir errOpen "err_open" :=
  passes_errOpen h.helloo h.shel h.empty

/-- A test that is followed by others. -/
theorem Passes.andThen {p : Prog ℤ} {name : String} (hp : Passes dir p name) (hv : Fresh v)
    {f : ℤ → Prog ℤ} {post : View → ℤ → Prop}
    (h : ∀ v', Fresh v' → Grown v (passText name) [] v' → Runs dir (f 0) post v') :
    Runs dir (p.bind f) post v := by
  refine meets_bind.2 ((hp v hv).mono ?_)
  rintro v' _ ⟨hfresh, hgrown, rfl⟩
  exact h v' hfresh hgrown

/-- What `syserr` writes for a number. -/
def syserrText : ℤ → List UInt8
  | 0 => passText "err_neg_fd" ++ passText "err_big_fd" ++ passText "err_open_lots" ++
      passText "err_open" ++ passText "err_unopened" ++ passText "err_vidmap" ++
      passText "err_stdin_out" ++ passText "err_syscall_num" ++ ascii "\nOverall Tests: PASS\n"
  | 1 => passText "err_neg_fd"
  | 2 => passText "err_big_fd"
  | 3 => passText "err_open_lots"
  | 4 => passText "err_open"
  | 5 => passText "err_unopened"
  | 6 => passText "err_vidmap"
  | 7 => passText "err_stdin_out"
  | 8 => passText "err_syscall_num"
  | _ => ascii "Invalid test number. Choose from tests 1-8 or 0"

theorem passes_errNegFd {buf : Memory} : Passes dir (errNegFd buf) "err_neg_fd" :=
  passes_errFd (by decide) (by decide) (by decide +kernel)

theorem passes_errBigFd {buf : Memory} : Passes dir (errBigFd buf) "err_big_fd" :=
  passes_errFd (by decide) (by decide) (by decide +kernel)

theorem meets_allTests (h : Testable dir) (hv : Fresh v) {stack : ℕ → Memory} :
    Runs dir (allTests stack) (fun v' r => Grown v (syserrText 0) [] v' ∧ r = 0) v := by
  refine passes_errNegFd.andThen hv fun v1 h1 g1 => ?_
  refine passes_errBigFd.andThen h1 fun v2 h2 g2 => ?_
  refine h.errOpenLots.andThen h2 fun v3 h3 g3 => ?_
  refine h.errOpen.andThen h3 fun v4 h4 g4 => ?_
  refine passes_errUnopened.andThen h4 fun v5 h5 g5 => ?_
  refine passes_errVidmap.andThen h5 fun v6 h6 g6 => ?_
  refine passes_errStdinOut.andThen h6 fun v7 h7 g7 => ?_
  refine passes_errSyscallNum.andThen h7 fun v8 _ g8 => ?_
  refine meets_bind.2 (meets_puts (by decide +kernel) ⟨?_, rfl⟩)
  exact (((((((g1.trans g2).trans g3).trans g4).trans g5).trans g6).trans g7).trans g8).trans
    (grown_written v8 _)

theorem Passes.meets {p : Prog ℤ} {name : String} {select : ℤ} (hp : Passes dir p name)
    (hv : Fresh v) (htext : syserrText select = passText name) :
    Runs dir p (fun v' r => Grown v (syserrText select) [] v' ∧ r = 0) v := by
  rw [htext]
  exact (hp v hv).mono fun _ _ h => h.2

/-- What `syserr` writes first. -/
def syserrPrompt : List UInt8 := ascii "Choose from tests 1-8. 0 to run all: "

/-- The number that a line asks for; an empty line leaves what the array holds. -/
def testNumber (buf : Memory) (line : List UInt8) : ℤ := ((putBytes buf 0 line) 0).toNat - 48

/-- **`syserr`** reports that the tests it is asked for have passed. -/
theorem meets_syserr (h : Testable dir) {buf : Memory} {stack : ℕ → Memory} :
    Runs dir (syserr buf stack)
      (fun v r => ∃ line, v.lines = [line] ∧
        v.written = syserrPrompt ++ syserrText (testNumber buf line) ∧ r = 0)
      (View.start args) := by
  refine meets_bind.2 (meets_puts (by decide +kernel) ?_)
  refine meets_bind.2 (meets_line (by decide) (by decide) fun l _ => ?_)
  have heax : ((l.length : ℕ) : ℤ) ≠ -1 := by omega
  rw [if_neg heax]
  obtain ⟨v, hv⟩ : ∃ v : View, v = ⟨fun _ => .closed, args, syserrPrompt, [l]⟩ := ⟨_, rfl⟩
  have hfresh : Fresh v := fun i _ _ => by rw [hv]
  refine Meets.mono (?_ : Meets _ _ _
    (fun v' (r : ℤ) => Grown v (syserrText (testNumber buf l)) [] v' ∧ r = 0) _) ?_
  · show Meets _ _ _ _ (⟨fun _ => .closed, args, syserrPrompt, [l]⟩ : View)
    rw [← hv]
    dsimp only [testNumber]
    generalize (((putBytes buf 0 l) 0).toNat : ℤ) - 48 = select
    split
    · exact meets_allTests h hfresh
    · exact passes_errNegFd.meets hfresh rfl
    · exact passes_errBigFd.meets hfresh rfl
    · exact h.errOpenLots.meets hfresh rfl
    · exact h.errOpen.meets hfresh rfl
    · exact passes_errUnopened.meets hfresh rfl
    · exact passes_errVidmap.meets hfresh rfl
    · exact passes_errStdinOut.meets hfresh rfl
    · exact passes_errSyscallNum.meets hfresh rfl
    · refine meets_bind.2 (meets_puts (by decide +kernel) ⟨?_, rfl⟩)
      rw [syserrText]
      · exact grown_written v _
      all_goals assumption
  · rintro v' r ⟨hgrown, rfl⟩
    refine ⟨l, ?_, ?_, rfl⟩
    · rw [hgrown.lines, hv]
      rfl
    · rw [hgrown.written, hv]

/-- **`syserr` on the kernel.** -/
theorem syserr_on_kernel {E : Env} {k k1 k2 : Kernel} {p : ℕ} {command : CString} {es : List Event}
    (hw : WellFormed E.img) (hdot : (findEntry (dirOf E.img) (ascii ".")).isSome = true)
    (hhelloo : findEntry (dirOf E.img) (ascii "helloo") = none)
    (hshel : findEntry (dirOf E.img) (ascii "shel") = none) (hk : Reachable E k)
    (hshort : command.bytes.length < argsMax) (hstep : step E k (.execute command) = some k1)
    (hp : Starts k k1 p) (hrun : run (step E) k1 es = some k2) {buf : Memory} {stack : ℕ → Memory}
    {rest : Prog ℤ}
    (hfollows : Follows (exchanges (step E) (exchange E p) k1 es) (syserr buf stack) rest) :
    RunsProgram E p k2 (exchanges (step E) (exchange E p) k1 es) rest fun lines out r =>
      ∃ line, lines = [line] ∧ out = syserrPrompt ++ syserrText (testNumber buf line) ∧ r = 0 :=
  runsProgram hw hk hshort hstep hp hrun (meets_syserr (testable_dirOf hw hdot hhelloo hshel))
    hfollows

/-- The second shell of the small machine makes the calls of `syserr` for the third test, while a
third shell is started and opens the directory too. -/
def secondSyserr : List Event :=
  writeList syserrPrompt ++ [.arm 0 0x8000000, .type 51, .type 13, .read 0 0x8000000 127] ++
  List.replicate 3 (.openFile dotName) ++ [.key 1, .tick, .openFile dotName, .tick] ++
  List.replicate 4 (.openFile dotName) ++
  [.closeFile 2, .closeFile 3, .closeFile 4, .closeFile 5, .closeFile 6, .closeFile 7] ++
  writeList (passText "err_open_lots")

set_option maxRecDepth 20000 in
theorem secondSyserr_exchanges :
    exchanges (step small) (exchange small 2) (smallState [.key 0, .execute shell]) secondSyserr =
      [(.write 1 37 syserrPrompt, ⟨37, []⟩), (.read 0 127, ⟨2, [51, 10]⟩),
        (.openFile dotName.bytes, ⟨2, []⟩), (.openFile dotName.bytes, ⟨3, []⟩),
        (.openFile dotName.bytes, ⟨4, []⟩), (.openFile dotName.bytes, ⟨5, []⟩),
        (.openFile dotName.bytes, ⟨6, []⟩), (.openFile dotName.bytes, ⟨7, []⟩),
        (.openFile dotName.bytes, ⟨-1, []⟩), (.closeFile 2, ⟨0, []⟩), (.closeFile 3, ⟨0, []⟩),
        (.closeFile 4, ⟨0, []⟩), (.closeFile 5, ⟨0, []⟩), (.closeFile 6, ⟨0, []⟩),
        (.closeFile 7, ⟨0, []⟩), (.write 1 20 (passText "err_open_lots"), ⟨20, []⟩)] := by
  decide +kernel

theorem syserr_on_kernel_shell :
    RunsProgram small 2 (smallState ([.key 0, .execute shell] ++ secondSyserr))
      (exchanges (step small) (exchange small 2) (smallState [.key 0, .execute shell])
        secondSyserr) (.ret 0) fun lines out r =>
      ∃ line, lines = [line] ∧
        out = syserrPrompt ++ syserrText (testNumber (fun _ => 0) line) ∧ r = 0 := by
  have hsome : (run (step small) (boot small)
      ([.key 0, .execute shell] ++ secondSyserr)).isSome = true := by decide +kernel
  obtain ⟨hk, hstep, hrun⟩ := second_run hsome
  have hhelloo : findEntry (dirOf small.img) (ascii "helloo") = none := by decide +kernel
  have hshel : findEntry (dirOf small.img) (ascii "shel") = none := by decide +kernel
  refine @syserr_on_kernel small _ _ _ 2 shell secondSyserr smallImg_wellFormed rfl hhelloo hshel
    hk (by decide) hstep shell_started hrun
    (fun _ => 0) (fun _ _ => 0) (.ret 0) ?_
  rw [secondSyserr_exchanges]
  decide +kernel

end Program

end LinuxIsLove
