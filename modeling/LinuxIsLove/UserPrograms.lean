import LinuxIsLove.ProcessRefinement
import LinuxIsLove.Source.Programs

/-!
# `cat` and `ls`

One rule for each system call wrapper says what it takes for the rest of a program to be right
(`meets_open`, `meets_read` and so on).  With them a program is proved against the directory alone;
`program_on_kernel` then says the same of every run of the kernel in which a process makes the calls
of the program.
-/

namespace LinuxIsLove

open Bytes EventMachine Clients

/-- A program run by one process alone. -/
abbrev Runs (dir : List DirEntry) {α : Type} (p : Prog α) (post : View → α → Prop) (v : View) :
    Prop :=
  Meets (Serve dir) Allowed p post v

section Rules

variable {dir : List DirEntry} {v : View} {name : List UInt8} {fd nbytes : ℤ} {m : Memory} {p : ℕ}

theorem meets_open_some {i : ℕ} {e : DirEntry} {post : View → ℤ → Prop} (hfree : v.free = some i)
    (hfind : findEntry dir name = some e) (h : post (v.set i e.node.handle) i) :
    Runs dir (ece391Open name) post v := by
  refine ⟨trivial, fun w v' hw => ?_⟩
  obtain ⟨rfl, rfl⟩ := (serve_openFile_some hfree hfind).1 hw
  exact h

theorem meets_open_none {post : View → ℤ → Prop} (hfind : findEntry dir name = none)
    (h : post v (-1)) : Runs dir (ece391Open name) post v := by
  refine ⟨trivial, fun w v' hw => ?_⟩
  obtain ⟨rfl, rfl⟩ := (serve_openFile_none (Or.inr hfind)).1 hw
  exact h

theorem meets_close {post : View → ℤ → Prop} (hopen : (v.file fd).isClosed = false)
    (h : post (v.set fd.toNat .closed) 0) : Runs dir (ece391Close fd) post v := by
  refine ⟨trivial, fun w v' hw => ?_⟩
  simp only [Serve, hopen] at hw
  obtain ⟨rfl, rfl⟩ := hw
  exact h

theorem meets_read {post : View → Reply → Prop} {w : Reply} {v' : View}
    (hserve : serveRead dir v fd nbytes.toNat = (w, v')) (hfd : fd ≠ 0) (h0 : 0 ≤ nbytes)
    (hn : nbytes < 2 ^ 31) (h : post v' w) : Runs dir (ece391Read fd nbytes) post v := by
  refine ⟨⟨h0, hn⟩, fun w v' hw => ?_⟩
  simp only [Serve, if_neg hfd, hserve] at hw
  cases hw
  exact h

/-- The part of a file that a read delivers. -/
theorem serveRead_file {c : List UInt8} {d n : ℕ} (hfd : v.file fd = .file c d) :
    serveRead dir v fd n = (⟨((c.drop d).take n).length, (c.drop d).take n⟩,
      v.set fd.toNat (.file c (d + ((c.drop d).take n).length))) := by
  simp only [serveRead, hfd]

theorem View.file_set {i : ℕ} {h : Handle} (h2 : 2 ≤ i) (h8 : i < 8) : (v.set i h).file i = h := by
  rw [View.file, if_pos (by omega), View.set_handle, Int.toNat_natCast, Function.update_self]

theorem meets_write {post : View → ℤ → Prop} {n : ℕ} (hn : n < 2 ^ 31)
    (h : post { v with written := v.written ++ bytesAt m p n } n) :
    Runs dir (ece391Write 1 m p n) post v := by
  have hlen : ((n : ℕ) : ℤ) = (bytesAt m p (n : ℤ).toNat).length := by
    rw [length_bytesAt, Int.toNat_natCast]
  refine ⟨⟨hlen, by omega⟩, fun w v' hw => ?_⟩
  simp only [Serve, if_true, Int.toNat_natCast] at hw
  obtain ⟨rfl, rfl⟩ := hw
  exact h

theorem meets_fdputs {post : View → Unit → Prop} {l : List UInt8} (hl : cstring m p = l)
    (hlen : l.length < 2 ^ 31) (h : post { v with written := v.written ++ l } ()) :
    Runs dir (ece391Fdputs 1 m p) post v := by
  have hstrlen : strlen m p = l.length := by rw [← hl, cstring, length_bytesAt]
  refine (meets_bind).2 (meets_write (by omega) ?_)
  rw [← hl] at h
  exact h

theorem meets_getargs {post : View → Reply → Prop} (hn : nbytes < 2 ^ 31)
    (hroom : (v.args.length : ℤ) < nbytes) (h : post v ⟨0, v.args⟩) :
    Runs dir (ece391Getargs nbytes) post v := by
  refine ⟨⟨by omega, hn⟩, fun w v' hw => ?_⟩
  simp only [Serve, if_pos hroom] at hw
  obtain ⟨rfl, rfl⟩ := hw
  exact h

/-- A line of the keyboard. -/
theorem meets_line {post : View → Reply → Prop} (h0 : 0 ≤ nbytes) (hn : nbytes < 2 ^ 31)
    (h : ∀ l : List UInt8, (l.length : ℤ) ≤ nbytes →
      post { v with lines := v.lines ++ [l] } ⟨l.length, l⟩) :
    Runs dir (ece391Read 0 nbytes) post v := by
  refine ⟨⟨h0, hn⟩, fun w v' hw => ?_⟩
  simp only [Serve, if_true] at hw
  obtain ⟨hlen, hle, rfl⟩ := hw
  obtain ⟨eax, l⟩ := w
  obtain rfl : eax = l.length := hlen
  exact h l hle

theorem cstring_literal {s : String} (hlen : (ascii s).length < 2 ^ 32)
    (hnz : ∀ b ∈ ascii s, b ≠ 0) : cstring (literal s) 0 = ascii s := by
  have hbytes : bytesAt (literal s) 0 (ascii s).length = ascii s := by
    refine List.ext_getElem (length_bytesAt _ _ _) fun i hi hi' => ?_
    rw [getElem_bytesAt, literal, Nat.zero_add, List.getD_eq_getElem _ _ hi']
  rw [cstring_eq hlen (by rwa [hbytes]), hbytes]
  simp [literal]

/-- A text that a program can write. -/
def Writable (s : String) : Prop := (ascii s).length < 2 ^ 31 ∧ ∀ b ∈ ascii s, b ≠ 0

instance (s : String) : Decidable (Writable s) := inferInstanceAs (Decidable (_ ∧ _))

theorem meets_puts {post : View → Unit → Prop} {s : String} (hs : Writable s)
    (h : post { v with written := v.written ++ ascii s } ()) :
    Runs dir (ece391Fdputs 1 (literal s) 0) post v :=
  meets_fdputs (cstring_literal (lt_trans hs.1 (by decide)) hs.2) hs.1 h

/-- The first descriptor of a new process. -/
theorem free_start (args : List UInt8) : (View.start args).free = some 2 := rfl

end Rules

/-! ### Programs on the kernel -/

/-- What a process has done that runs a program.  `Result` relates the lines that the program has
read from the terminal to what it has written and to its value.  As far as the process has come, it
has read and written the first part of such lines and such a text; it has read and written all of it
when `main` has returned; and it comes to its end, its buffers being in its own page, unless it
waits for a line of the keyboard. -/
structure RunsProgram (E : Env) (p : ℕ) (k : Kernel) (t : List (Request × Reply)) (rest : Prog ℤ)
    (Result : List (List UInt8) → List UInt8 → ℤ → Prop) : Prop where
  begun : ∃ lines out value, Result lines out value ∧ input t <+: lines ∧ output t <+: out
  finished : ∀ r, rest = .ret r → Result (input t) (output t) r
  goes_on : rest ≠ .stuck
  returns : k.running = p → ∀ i c e, rest = .call i c → requestOf k e = some i → OwnBuffer E k e →
    (∀ nbytes, i ≠ .read 0 nbytes) → (step E k e).isSome = true

section Kernel

variable {E : Env} {k k1 k2 : Kernel} {p : ℕ} {command : CString} {es : List Event}

/-- **A program on the kernel.**  What a program does alone it does in every run of the kernel in
which a process makes its calls, whatever happens in between. -/
theorem runsProgram (hw : WellFormed E.img) (hk : Reachable E k)
    (hshort : command.bytes.length < argsMax) (hstep : step E k (.execute command) = some k1)
    (hp : Starts k k1 p) (hrun : run (step E) k1 es = some k2) {prog rest : Prog ℤ}
    {Result : List (List UInt8) → List UInt8 → ℤ → Prop}
    (hprog : Runs (dirOf E.img) prog (fun v r => Result v.lines v.written r)
      (View.start (arguments command).bytes))
    (hfollows : Follows (exchanges (step E) (exchange E p) k1 es) prog rest) :
    RunsProgram E p k2 (exchanges (step E) (exchange E p) k1 es) rest Result := by
  have hview : Viewed E.img p k1 _ := viewed_started (wf_reachable hk) hshort hstep hp
  obtain ⟨v, hserves, hend, hrest⟩ := meets_of_run (simulates_serve hw p) hview hprog hrun hfollows
  have hlines : v.lines = input (exchanges (step E) (exchange E p) k1 es) :=
    (serves_grown hserves).lines
  have hwritten : v.written = output (exchanges (step E) (exchange E p) k1 es) :=
    (serves_grown hserves).written
  constructor
  · obtain ⟨v', r, hv', hout⟩ :=
      hrest.ends Extends Extends.refl Extends.trans serve_extends serve_total
    rw [← hlines, ← hwritten]
    exact ⟨v'.lines, v'.written, r, hout, hv'.lines, hv'.written⟩
  · rintro r rfl
    rw [← hlines, ← hwritten]
    exact hrest
  · rintro rfl
    exact hrest
  · rintro rfl i c e rfl hreq hbuf hline
    exact hend.returns hw hreq hrest.1 hbuf hline

end Kernel

/-! ### Directories -/

/-- What the programs rely on: names are not empty and at most 33 bytes long without a NUL. -/
structure DirOk (dir : List DirEntry) : Prop where
  name_nonempty : ∀ e ∈ dir, e.name ≠ []
  name_noNul : ∀ e ∈ dir, ∀ b ∈ e.name, b ≠ 0
  name_short : ∀ e ∈ dir, e.name.length ≤ 33
  entries : dir.length < 64

theorem dirOk_dirOf {img : Image} (hw : WellFormed img) : DirOk (dirOf img) where
  name_nonempty e he := by
    obtain ⟨m, hm, rfl⟩ := mem_dirOf.1 he
    show scannedName img m ≠ []
    by_cases hu : Unterminated img m
    · rw [scannedName_of_unterminated hw hm hu]
      exact List.append_ne_nil_of_right_ne_nil _ (List.cons_ne_nil _ _)
    · rw [scannedName_of_terminated hw hm hu]
      exact hw.name_nonempty m hm
  name_noNul e he := by
    obtain ⟨m, -, rfl⟩ := mem_dirOf.1 he
    intro b hb
    obtain ⟨i, hi, rfl⟩ := List.mem_map.1 hb
    have hne := strlen_ne_zero (List.mem_range.1 hi)
    rwa [Nat.zero_add] at hne
  name_short e he := by
    obtain ⟨m, hm, rfl⟩ := mem_dirOf.1 he
    exact scannedName_length_le hw hm
  entries := by
    rw [dirOf, List.length_map, List.length_range]
    exact lt_of_le_of_lt hw.entries (by decide)

/-- What reads of a handle have still to deliver. -/
def Handle.left (dir : List DirEntry) : Handle → List UInt8
  | closed | clock => []
  | directory n => (dir.drop n).flatMap DirEntry.name
  | file contents pos => contents.drop pos

/-- A read with room for a name delivers the next part of what is left. -/
theorem serveRead_left {dir : List DirEntry} (hd : DirOk dir) {v : View} {fd : ℤ} {n : ℕ}
    (hopen : (v.file fd).isClosed = false) (hn : 33 ≤ n) :
    ∃ bytes v', serveRead dir v fd n = (⟨bytes.length, bytes⟩, v') ∧ v'.written = v.written ∧
      bytes.length ≤ n ∧
      (bytes = [] ∧ (v.file fd).left dir = [] ∨
        bytes ≠ [] ∧ (v.file fd).left dir = bytes ++ (v'.file fd).left dir ∧
          (v'.file fd).isClosed = false) := by
  have hrange : 2 ≤ fd ∧ fd < 8 := by
    by_contra hno
    rw [View.file, if_neg hno] at hopen
    exact absurd hopen (by decide)
  have hset : ∀ h, (v.set fd.toNat h).file fd = h := by
    intro h
    rw [View.file, if_pos hrange, View.set_handle, Function.update_self]
  cases hfd : v.file fd with
  | closed => simp [hfd, Handle.isClosed] at hopen
  | clock =>
    refine ⟨[], v, ?_, rfl, Nat.zero_le _, Or.inl ⟨rfl, rfl⟩⟩
    simp only [serveRead, hfd]
    rfl
  | directory m =>
    by_cases hm : m < dir.length
    · have hmem : dir[m] ∈ dir := List.getElem_mem hm
      have hshort := hd.name_short _ hmem
      refine ⟨dir[m].name, v.set fd.toNat (.directory (m + 1)), ?_, rfl, by omega,
        Or.inr ⟨hd.name_nonempty _ hmem, ?_, by rw [hset]; rfl⟩⟩
      · have hmod : (m + 1) % 2 ^ 32 = m + 1 := Nat.mod_eq_of_lt (by have := hd.entries; omega)
        simp only [serveRead, hfd, List.getElem?_eq_getElem hm, Option.map_some, Option.getD_some,
          hmod, List.take_of_length_le (by omega : dir[m].name.length ≤ n)]
      · rw [hset]
        show (dir.drop m).flatMap _ = _ ++ (dir.drop (m + 1)).flatMap _
        rw [List.drop_eq_getElem_cons hm, List.flatMap_cons]
    · refine ⟨[], v.set fd.toNat (.directory ((m + 1) % 2 ^ 32)), ?_, rfl, Nat.zero_le _,
        Or.inl ⟨rfl, ?_⟩⟩
      · simp only [serveRead, hfd, List.getElem?_eq_none (not_lt.1 hm), Option.map_none,
          Option.getD_none, List.take_nil, List.length_nil, Nat.cast_zero]
      · show (dir.drop m).flatMap _ = _
        rw [List.drop_eq_nil_of_le (not_lt.1 hm), List.flatMap_nil]
  | file c d =>
    refine ⟨(c.drop d).take n, _, serveRead_file hfd, rfl, List.length_take_le _ _, ?_⟩
    by_cases h0 : (c.drop d).take n = []
    · exact Or.inl ⟨h0, (List.take_eq_nil_iff.1 h0).resolve_left (by omega)⟩
    · refine Or.inr ⟨h0, ?_, by rw [hset]; rfl⟩
      rw [hset]
      show c.drop d = _ ++ c.drop _
      rw [← List.drop_drop]
      exact (List.prefix_iff_eq_append.1 (List.take_prefix _ _)).symm

/-! ### `cat` -/

section Cat

variable {dir : List DirEntry} {args : List UInt8}

/-- The loop of `cat` writes what is left. -/
theorem meets_catLoop (hd : DirOk dir) {v : View} {out : List UInt8} {buf : Memory} {fuel : ℕ}
    (hopen : (v.file 2).isClosed = false) (hout : v.written ++ (v.file 2).left dir = out)
    (hfuel : ((v.file 2).left dir).length < fuel) :
    Runs dir (Client.loop (catRound 2) fuel buf) (fun v r => v.written = out ∧ r = 0) v := by
  refine meets_loop (I := fun n v _ => (v.file 2).isClosed = false ∧
    v.written ++ (v.file 2).left dir = out ∧ ((v.file 2).left dir).length = n) ?_
    ⟨hopen, hout, rfl⟩ hfuel
  rintro n v buf ⟨hopen, hout, rfl⟩
  obtain ⟨bytes, v', hserve, hwritten, hlen, hleft⟩ :=
    serveRead_left hd hopen (show 33 ≤ bufSize by decide)
  refine meets_bind.2 (meets_read hserve (by decide) (by decide) (by decide) ?_)
  rcases hleft with ⟨rfl, hdone⟩ | ⟨hne, hmore, hopen'⟩
  · rw [hdone, List.append_nil] at hout
    exact ⟨hwritten.trans hout, rfl⟩
  · have hpos : 0 < bytes.length := List.length_pos_of_ne_nil hne
    have heax : ((bytes.length : ℕ) : ℤ) ≠ 0 ∧ ((bytes.length : ℕ) : ℤ) ≠ -1 := by omega
    have hle : bytes.length ≤ 1024 := hlen
    rw [if_neg heax.1, if_neg heax.2]
    refine meets_bind.2 (meets_write (by omega) ?_)
    rw [if_neg (by omega)]
    refine ⟨_, ?_, hopen', ?_, rfl⟩
    · show ((v'.file 2).left dir).length < _
      rw [hmore, List.length_append]
      omega
    · show v'.written ++ bytesAt (putBytes buf 0 bytes) 0 bytes.length ++ (v'.file 2).left dir = out
      rw [bytesAt_putBytes, hwritten, List.append_assoc, ← hmore, hout]

/-- What `cat` writes and returns. -/
def catResult (dir : List DirEntry) (args : List UInt8) : List UInt8 × ℤ :=
  match findEntry dir args with
  | none => (ascii "file not found\n", 2)
  | some e => (e.node.handle.left dir, 0)

/-- **`cat`** writes the file that its argument names. -/
theorem meets_cat (hd : DirOk dir) (hnz : ∀ b ∈ args, b ≠ 0) (hargs : args.length < argsMax)
    {buf : Memory} {fuel : ℕ} (hfuel : (catResult dir args).1.length < fuel) :
    Runs dir (cat buf fuel)
      (fun v r => v.written = (catResult dir args).1 ∧ r = (catResult dir args).2)
      (View.start args) := by
  have hlen : args.length < 128 := hargs
  refine meets_bind.2 (meets_getargs (by decide) ?_ ?_)
  · show (args.length : ℤ) < (1024 : ℕ)
    omega
  rw [if_neg (fun h => h rfl)]
  have hname : cstring (putBytes buf 0 ((⟨0, (View.start args).args⟩ : Reply).bytes ++ [0])) 0 =
      args := cstring_putBytes (by omega : args.length < 2 ^ 32) hnz
  unfold catResult at hfuel ⊢
  cases hfind : findEntry dir args with
  | none =>
    refine meets_bind.2 (meets_open_none (by rw [hname]; exact hfind) ?_)
    rw [if_pos rfl]
    exact meets_bind.2 (meets_puts (by decide +kernel) ⟨rfl, rfl⟩)
  | some e =>
    rw [hfind] at hfuel
    refine meets_bind.2 (meets_open_some (free_start args) (by rw [hname]; exact hfind) ?_)
    rw [if_neg (by decide)]
    have hfile : ((View.start args).set 2 e.node.handle).file 2 = e.node.handle :=
      View.file_set (i := 2) le_rfl (by decide)
    refine meets_catLoop hd ?_ ?_ ?_
    · rw [hfile]
      cases e.node <;> rfl
    · rw [hfile]
      rfl
    · rwa [hfile]

/-- **`cat` on the kernel.** -/
theorem cat_on_kernel {E : Env} {k k1 k2 : Kernel} {p : ℕ} {command : CString} {es : List Event}
    (hw : WellFormed E.img) (hk : Reachable E k) (hshort : command.bytes.length < argsMax)
    (hstep : step E k (.execute command) = some k1) (hp : Starts k k1 p)
    (hrun : run (step E) k1 es = some k2) {buf : Memory} {fuel : ℕ} {rest : Prog ℤ}
    (hfuel : (catResult (dirOf E.img) (arguments command).bytes).1.length < fuel)
    (hfollows : Follows (exchanges (step E) (exchange E p) k1 es) (cat buf fuel) rest) :
    RunsProgram E p k2 (exchanges (step E) (exchange E p) k1 es) rest fun _ out r =>
      out = (catResult (dirOf E.img) (arguments command).bytes).1 ∧
        r = (catResult (dirOf E.img) (arguments command).bytes).2 :=
  runsProgram hw hk hshort hstep hp hrun
    (meets_cat (dirOk_dirOf hw) (arguments command).noNul
      (lt_of_le_of_lt (arguments_length_le command) hshort) hfuel) hfollows

/-- The command `shell shell`. -/
def shellShell : CString :=
  ⟨[115, 104, 101, 108, 108, 32, 115, 104, 101, 108, 108], by simp, by decide⟩

/-- The second shell of the small machine makes the calls of `cat` for the file `shell`, while a
third shell is started and opens the directory. -/
def secondCat : List Event :=
  [.getargs 0x8000000 1024, .tick, .openFile shell, .type 30, .key 1, .tick, .openFile dotName,
    .tick, .read 2 0x8000000 1024, .write 1 0x8000000 40, .read 2 0x8000000 1024]

set_option maxRecDepth 20000 in
theorem secondCat_exchanges :
    exchanges (step small) (exchange small 2) (smallState [.key 0, .execute shellShell]) secondCat =
      [(.getargs 1024, ⟨0, shell.bytes⟩), (.openFile shell.bytes, ⟨2, []⟩),
        (.read 2 1024, ⟨40, [0x7f, 0x45, 0x4c, 0x46] ++ List.replicate 36 0⟩),
        (.write 1 40 ([0x7f, 0x45, 0x4c, 0x46] ++ List.replicate 36 0), ⟨40, []⟩),
        (.read 2 1024, ⟨0, []⟩)] := by
  decide +kernel

set_option maxRecDepth 20000 in
theorem cat_on_kernel_shell :
    RunsProgram small 2 (smallState ([.key 0, .execute shellShell] ++ secondCat))
      (exchanges (step small) (exchange small 2) (smallState [.key 0, .execute shellShell])
        secondCat) (.ret 0) fun _ out r =>
      out = (catResult (dirOf small.img) (arguments shellShell).bytes).1 ∧
        r = (catResult (dirOf small.img) (arguments shellShell).bytes).2 := by
  have hsome : (run (step small) (boot small)
      ([.key 0, .execute shellShell] ++ secondCat)).isSome = true := by decide +kernel
  obtain ⟨hk, hstep, hrun⟩ := second_run hsome
  have hp : Starts (smallState [.key 0]) (smallState [.key 0, .execute shellShell]) 2 :=
    ⟨⟨2, some 1, 0, .syscall, 1, 0⟩, by decide +kernel, rfl⟩
  have hfuel : (catResult (dirOf small.img) (arguments shellShell).bytes).1.length < 41 := by
    decide +kernel
  refine @cat_on_kernel small _ _ _ 2 shellShell secondCat smallImg_wellFormed
    hk (by decide) hstep hp hrun
    (fun _ => 0) 41 (.ret 0) hfuel ?_
  rw [secondCat_exchanges]
  decide +kernel

end Cat

/-! ### `ls` -/

section Ls

variable {dir : List DirEntry} {args : List UInt8}

/-- What a read of a directory delivers. -/
theorem serveRead_directory (hd : DirOk dir) {v : View} {fd : ℤ} {m n : ℕ}
    (hfd : v.file fd = .directory m) (hm : m < dir.length) :
    serveRead dir v fd n = (⟨(dir[m].name.take n).length, dir[m].name.take n⟩,
      v.set fd.toNat (.directory (m + 1))) := by
  have hmod : (m + 1) % 2 ^ 32 = m + 1 := Nat.mod_eq_of_lt (by have := hd.entries; omega)
  simp only [serveRead, hfd, List.getElem?_eq_getElem hm, Option.map_some, Option.getD_some, hmod]

theorem serveRead_directory_end {v : View} {fd : ℤ} {m n : ℕ} (hfd : v.file fd = .directory m)
    (hm : dir.length ≤ m) :
    serveRead dir v fd n = (⟨0, []⟩, v.set fd.toNat (.directory ((m + 1) % 2 ^ 32))) := by
  simp only [serveRead, hfd, List.getElem?_eq_none hm, Option.map_none, Option.getD_none,
    List.take_nil, List.length_nil, Nat.cast_zero]

/-- The line that `ls` writes for an entry. -/
def lsLine (e : DirEntry) : List UInt8 := e.name.take 32 ++ [newline]

/-- The loop of `ls` writes a line for each entry that is left. -/
theorem meets_lsLoop (hd : DirOk dir) {v : View} {out : List UInt8} {buf : Memory} {n fuel : ℕ}
    (hfd : v.file 2 = .directory n) (hout : v.written ++ (dir.drop n).flatMap lsLine = out)
    (hfuel : dir.length - n < fuel) :
    Runs dir (Client.loop (lsRound 2) fuel buf) (fun v r => v.written = out ∧ r = 0) v := by
  refine meets_loop (I := fun m v _ => ∃ n, v.file 2 = .directory n ∧
    v.written ++ (dir.drop n).flatMap lsLine = out ∧ dir.length - n = m) ?_ ⟨n, hfd, hout, rfl⟩
    hfuel
  rintro _ v buf ⟨n, hfd, hout, rfl⟩
  by_cases hn : n < dir.length
  · refine meets_bind.2 (meets_read (serveRead_directory hd hfd hn) (by decide) (by decide)
      (by decide) ?_)
    have hroom : ((sbufSize : ℤ) - 1).toNat = 32 := by decide
    rw [hroom]
    obtain ⟨bytes, hbytes⟩ : ∃ bytes, dir[n].name.take 32 = bytes := ⟨_, rfl⟩
    have hpos : 0 < bytes.length := by
      have hname := List.length_pos_of_ne_nil (hd.name_nonempty _ (List.getElem_mem hn))
      rw [← hbytes, List.length_take]
      omega
    have hle : bytes.length ≤ 32 := by
      rw [← hbytes]
      exact List.length_take_le _ _
    rw [hbytes]
    have heax : ((bytes.length : ℕ) : ℤ) ≠ 0 ∧ ((bytes.length : ℕ) : ℤ) ≠ -1 := by omega
    rw [if_neg heax.1, if_neg heax.2]
    have hbuf : bytesAt (Function.update (putBytes buf 0 bytes) bytes.length newline) 0
        (bytes.length + 1) = lsLine dir[n] := by
      rw [bytesAt_succ, lsLine, hbytes, Nat.zero_add, Function.update_self]
      congr 1
      conv_rhs => rw [← bytesAt_putBytes buf 0 bytes]
      exact bytesAt_congr fun i hi => Function.update_of_ne (by omega) _ _
    refine meets_bind.2 (meets_write (n := bytes.length + 1) (by omega) ?_)
    rw [if_neg (by omega)]
    have hfile : (v.set 2 (.directory (n + 1))).file 2 = .directory (n + 1) :=
      View.file_set (i := 2) le_rfl (by decide)
    refine ⟨dir.length - (n + 1), by omega, n + 1, hfile, ?_, rfl⟩
    show v.written ++ bytesAt _ 0 (bytes.length + 1) ++ _ = out
    rw [Int.toNat_natCast, hbuf, List.append_assoc, ← List.flatMap_cons,
      ← List.drop_eq_getElem_cons hn, hout]
  · refine meets_bind.2 (meets_read (serveRead_directory_end hfd (not_lt.1 hn)) (by decide)
      (by decide) (by decide) ?_)
    rw [List.drop_eq_nil_of_le (not_lt.1 hn), List.flatMap_nil, List.append_nil] at hout
    exact ⟨hout, rfl⟩

/-- **`ls`** writes the names of the directory, one to a line. -/
theorem meets_ls (hd : DirOk dir) {e : DirEntry} (hdot : findEntry dir (ascii ".") = some e)
    (hnode : e.node = .directory) {buf : Memory} {fuel : ℕ} (hfuel : dir.length < fuel) :
    Runs dir (ls buf fuel) (fun v r => v.written = dir.flatMap lsLine ∧ r = 0)
      (View.start args) := by
  have hname : cstring (literal ".") 0 = ascii "." :=
    cstring_literal (by decide +kernel) (by decide +kernel)
  refine meets_bind.2 (meets_open_some (free_start args) (hname ▸ hdot) ?_)
  rw [if_neg (by decide), hnode]
  exact meets_lsLoop hd (View.file_set (i := 2) le_rfl (by decide)) rfl hfuel

/-- **`ls` on the kernel.** -/
theorem ls_on_kernel {E : Env} {k k1 k2 : Kernel} {p : ℕ} {command : CString} {es : List Event}
    (hw : WellFormed E.img) {e : DirEntry} (hdot : findEntry (dirOf E.img) (ascii ".") = some e)
    (hnode : e.node = .directory) (hk : Reachable E k) (hshort : command.bytes.length < argsMax)
    (hstep : step E k (.execute command) = some k1) (hp : Starts k k1 p)
    (hrun : run (step E) k1 es = some k2) {buf : Memory} {fuel : ℕ} {rest : Prog ℤ}
    (hfuel : (dirOf E.img).length < fuel)
    (hfollows : Follows (exchanges (step E) (exchange E p) k1 es) (ls buf fuel) rest) :
    RunsProgram E p k2 (exchanges (step E) (exchange E p) k1 es) rest fun _ out r =>
      out = (dirOf E.img).flatMap lsLine ∧ r = 0 :=
  runsProgram hw hk hshort hstep hp hrun (meets_ls (dirOk_dirOf hw) hdot hnode hfuel) hfollows

/-- Memory that starts with a list. -/
def memOf (l : List UInt8) : Memory := fun a => l.getD (a - 0x8000000) 0

/-- Write a list from the start of the memory. -/
def writeList (l : List UInt8) : List Event :=
  [.compute (memOf l), .write 1 0x8000000 l.length]

/-- The second shell of the small machine makes the calls of `ls`, while a third shell is started
and opens a file. -/
def secondLs : List Event :=
  [.openFile dotName, .read 2 0x8000000 32, .compute (memOf [46, 10]), .write 1 0x8000000 2, .key 1,
    .tick, .openFile shell, .tick, .read 2 0x8000000 32, .compute (memOf (shell.bytes ++ [10])),
    .write 1 0x8000000 6, .read 2 0x8000000 32, .compute (memOf (rtcName.bytes ++ [10])),
    .write 1 0x8000000 4, .type 30, .read 2 0x8000000 32]

theorem secondLs_exchanges :
    exchanges (step small) (exchange small 2) (smallState [.key 0, .execute shell]) secondLs =
      [(.openFile dotName.bytes, ⟨2, []⟩), (.read 2 32, ⟨1, [46]⟩), (.write 1 2 [46, 10], ⟨2, []⟩),
        (.read 2 32, ⟨5, shell.bytes⟩), (.write 1 6 (shell.bytes ++ [10]), ⟨6, []⟩),
        (.read 2 32, ⟨3, rtcName.bytes⟩), (.write 1 4 (rtcName.bytes ++ [10]), ⟨4, []⟩),
        (.read 2 32, ⟨0, []⟩)] := by
  decide +kernel

theorem ls_on_kernel_shell :
    RunsProgram small 2 (smallState ([.key 0, .execute shell] ++ secondLs))
      (exchanges (step small) (exchange small 2) (smallState [.key 0, .execute shell]) secondLs)
      (.ret 0) fun _ out r => out = (dirOf small.img).flatMap lsLine ∧ r = 0 := by
  have hsome : (run (step small) (boot small)
      ([.key 0, .execute shell] ++ secondLs)).isSome = true := by decide +kernel
  obtain ⟨hk, hstep, hrun⟩ := second_run hsome
  have hdot : findEntry (dirOf small.img) (ascii ".") = some ⟨[46], .directory⟩ := rfl
  have hfuel : (dirOf small.img).length < 4 := by decide +kernel
  refine @ls_on_kernel small _ _ _ 2 shell secondLs smallImg_wellFormed _ hdot rfl
    hk (by decide) hstep shell_started hrun
    (fun _ => 0) 4 (.ret 0) hfuel ?_
  rw [secondLs_exchanges]
  decide +kernel

end Ls

end LinuxIsLove
