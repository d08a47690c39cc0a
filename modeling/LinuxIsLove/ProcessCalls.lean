import LinuxIsLove.Foundation.Clients

/-!
# The calls of a process

What the system calls mean to one process, without the kernel behind them: a directory of named
files, eight descriptors of which the first two are the terminal, the arguments the process was
started with, and the text it has written.

`Serve` says how a request may be answered.  It leaves open what a line of the keyboard holds and
what a write to a clock returns; everything else is determined.  `Allowed` are the requests that it
speaks about: no negative number of bytes, no null buffer, no `vidmap` pointer that is cut off by
the end of the page, no `execute` and no `halt`.
-/

namespace LinuxIsLove

open Clients

/-- What an entry of the directory stands for. -/
inductive Node
  | clock
  | directory
  | file (contents : List UInt8)

/-- An entry of the directory. -/
structure DirEntry where
  name : List UInt8
  node : Node

/-- What a descriptor stands for, with the position of the next read. -/
inductive Handle
  | closed
  | clock
  | directory (entry : ℕ)
  | file (contents : List UInt8) (pos : ℕ)

/-- What `open` makes of an entry. -/
def Node.handle : Node → Handle
  | clock => .clock
  | directory => .directory 0
  | file contents => .file contents 0

def Handle.isClosed : Handle → Bool
  | closed => true
  | _ => false

/-- A system call, as the process makes it.  A `write` carries the bytes of its buffer. -/
inductive Request
  | openFile (name : List UInt8)
  | closeFile (fd : ℤ)
  | read (fd : ℤ) (nbytes : ℤ)
  | write (fd : ℤ) (nbytes : ℤ) (bytes : List UInt8)
  | getargs (nbytes : ℤ)
  | vidmap (screenStart : ℕ)
  | execute (command : List UInt8)
  | halt (status : UInt8)
  /-- a `read` or a `write` with a null pointer -/
  | nullBuffer
  deriving DecidableEq

/-- What a call returns, and the bytes that it leaves in the buffer. -/
structure Reply where
  eax : ℤ
  bytes : List UInt8
  deriving DecidableEq

/-- The files of a process, its arguments, what it has written to its terminal and the lines that it
has read from it. -/
structure View where
  handle : ℕ → Handle
  args : List UInt8
  written : List UInt8
  lines : List (List UInt8)

namespace View

def set (v : View) (i : ℕ) (h : Handle) : View :=
  { v with handle := Function.update v.handle i h }

@[simp] theorem set_handle (v : View) (i : ℕ) (h : Handle) :
    (v.set i h).handle = Function.update v.handle i h := rfl

@[simp] theorem set_args (v : View) (i : ℕ) (h : Handle) : (v.set i h).args = v.args := rfl

@[simp] theorem set_written (v : View) (i : ℕ) (h : Handle) : (v.set i h).written = v.written :=
  rfl

@[simp] theorem set_lines (v : View) (i : ℕ) (h : Handle) : (v.set i h).lines = v.lines := rfl

/-- The least descriptor from 2 on that is closed. -/
def free (v : View) : Option ℕ := (List.range' 2 6).find? fun i => (v.handle i).isClosed

/-- What a descriptor from 2 on stands for. -/
def file (v : View) (fd : ℤ) : Handle :=
  if 2 ≤ fd ∧ fd < 8 then v.handle fd.toNat else .closed

/-- A process that has just been started. -/
def start (args : List UInt8) : View := ⟨fun _ => .closed, args, [], []⟩

end View

/-- The entry that `open` finds. -/
def findEntry (dir : List DirEntry) (name : List UInt8) : Option DirEntry :=
  dir.find? fun e => e.name = name

/-- A `read` of a descriptor from 2 on. -/
def serveRead (dir : List DirEntry) (v : View) (fd : ℤ) (nbytes : ℕ) : Reply × View :=
  match v.file fd with
  | .closed => (⟨-1, []⟩, v)
  | .clock => (⟨0, []⟩, v)
  | .directory n =>
    let name := ((dir[n]?.map DirEntry.name).getD []).take nbytes
    (⟨name.length, name⟩, v.set fd.toNat (.directory ((n + 1) % 2 ^ 32)))
  | .file contents pos =>
    let bytes := (contents.drop pos).take nbytes
    (⟨bytes.length, bytes⟩, v.set fd.toNat (.file contents (pos + bytes.length)))

/-- What `vidmap` returns: the address of the screen, if the pointer can be stored. -/
def vidmapResult (screenStart : ℕ) : ℤ :=
  if 0x8000000 ≤ screenStart ∧ screenStart < 0x8400000 then 0x8400000 else -1

/-- How a request may be answered. -/
def Serve (dir : List DirEntry) (v : View) (i : Request) (w : Reply) (v' : View) : Prop :=
  match i with
  | .openFile name =>
    match v.free, findEntry dir name with
    | some fd, some e => w = ⟨fd, []⟩ ∧ v' = v.set fd e.node.handle
    | _, _ => w = ⟨-1, []⟩ ∧ v' = v
  | .closeFile fd =>
    if (v.file fd).isClosed then w = ⟨-1, []⟩ ∧ v' = v
    else w = ⟨0, []⟩ ∧ v' = v.set fd.toNat .closed
  | .read fd nbytes =>
    if fd = 0 then
      w.eax = w.bytes.length ∧ w.eax ≤ nbytes ∧ v' = { v with lines := v.lines ++ [w.bytes] }
    else (w, v') = serveRead dir v fd nbytes.toNat
  | .write fd nbytes bytes =>
    if fd = 1 then w = ⟨nbytes, []⟩ ∧ v' = { v with written := v.written ++ bytes }
    else
      match v.file fd with
      | .clock => w.bytes = [] ∧ v' = v
      | _ => w = ⟨-1, []⟩ ∧ v' = v
  | .getargs nbytes =>
    if v.args.length < nbytes then w = ⟨0, v.args⟩ ∧ v' = v else w = ⟨-1, []⟩ ∧ v' = v
  | .vidmap screenStart => w = ⟨vidmapResult screenStart, []⟩ ∧ v' = v
  | _ => False

/-- A pointer whose four bytes do not leave the page of the program at its end. -/
def WholePointer (screenStart : ℕ) : Prop :=
  screenStart < 2 ^ 32 ∧ ¬(0x83FFFFD ≤ screenStart ∧ screenStart < 0x8400000)

instance (screenStart : ℕ) : Decidable (WholePointer screenStart) := by
  unfold WholePointer
  infer_instance

/-- The requests that `Serve` speaks about. -/
def Allowed (_ : View) : Request → Prop
  | .openFile _ | .closeFile _ => True
  | .read _ nbytes => 0 ≤ nbytes ∧ nbytes < 2 ^ 31
  | .write _ nbytes bytes => nbytes = bytes.length ∧ nbytes < 2 ^ 31
  | .getargs nbytes => 0 ≤ nbytes ∧ nbytes < 2 ^ 31
  | .vidmap screenStart => WholePointer screenStart
  | .execute _ | .halt _ | .nullBuffer => False

section Serve

variable {dir : List DirEntry} {v v' : View} {name : List UInt8} {w : Reply} {fd nbytes : ℤ}

theorem serve_openFile_none (h : v.free = none ∨ findEntry dir name = none) :
    Serve dir v (.openFile name) w v' ↔ w = ⟨-1, []⟩ ∧ v' = v := by
  rcases h with h | h
  · simp only [Serve, h]
  · cases hfree : v.free with
    | none => simp only [Serve, hfree]
    | some i => simp only [Serve, hfree, h]

theorem serve_openFile_some {i : ℕ} {e : DirEntry} (hfree : v.free = some i)
    (hlook : findEntry dir name = some e) :
    Serve dir v (.openFile name) w v' ↔ w = ⟨i, []⟩ ∧ v' = v.set i e.node.handle := by
  simp only [Serve, hfree, hlook]

/-- Every request that is allowed may be answered. -/
theorem serve_total {i : Request} (h : Allowed v i) : ∃ w v', Serve dir v i w v' := by
  cases i with
  | openFile name =>
    cases hfree : v.free with
    | none => exact ⟨_, _, (serve_openFile_none (Or.inl hfree)).2 ⟨rfl, rfl⟩⟩
    | some fd =>
      cases hfind : findEntry dir name with
      | none => exact ⟨_, _, (serve_openFile_none (Or.inr hfind)).2 ⟨rfl, rfl⟩⟩
      | some e => exact ⟨_, _, (serve_openFile_some hfree hfind).2 ⟨rfl, rfl⟩⟩
  | closeFile fd =>
    simp only [Serve]
    split_ifs
    · exact ⟨_, _, rfl, rfl⟩
    · exact ⟨_, _, rfl, rfl⟩
  | read fd nbytes =>
    simp only [Serve]
    split_ifs
    · exact ⟨⟨0, []⟩, _, rfl, h.1, rfl⟩
    · exact ⟨_, _, rfl⟩
  | write fd nbytes bytes =>
    simp only [Serve]
    split_ifs
    · exact ⟨_, _, rfl, rfl⟩
    · cases v.file fd with
      | clock => exact ⟨⟨0, []⟩, v, rfl, rfl⟩
      | _ => exact ⟨_, _, rfl, rfl⟩
  | getargs nbytes =>
    simp only [Serve]
    split_ifs
    · exact ⟨_, _, rfl, rfl⟩
    · exact ⟨_, _, rfl, rfl⟩
  | vidmap screenStart => exact ⟨_, v, rfl, rfl⟩
  | _ => exact h.elim

/-- What a request adds to the text that the process has written. -/
def wroteIn : Request → List UInt8
  | .write fd _ bytes => if fd = 1 then bytes else []
  | _ => []

/-- The line that a call has read from the terminal. -/
def readIn : Request → Reply → List (List UInt8)
  | .read fd _, w => if fd = 0 then [w.bytes] else []
  | _, _ => []

/-- The view after an exchange has what has been written and read in it added. -/
structure Grown (v : View) (written : List UInt8) (lines : List (List UInt8)) (v' : View) :
    Prop where
  written : v'.written = v.written ++ written
  lines : v'.lines = v.lines ++ lines

theorem Grown.refl (v : View) : Grown v [] [] v :=
  ⟨(List.append_nil _).symm, (List.append_nil _).symm⟩

theorem Grown.trans {v'' : View} {a b : List UInt8} {l m : List (List UInt8)} (h : Grown v a l v')
    (h' : Grown v' b m v'') : Grown v (a ++ b) (l ++ m) v'' :=
  ⟨by rw [h'.written, h.written, List.append_assoc], by rw [h'.lines, h.lines, List.append_assoc]⟩

theorem grown_written (v : View) (bytes : List UInt8) :
    Grown v bytes [] { v with written := v.written ++ bytes } :=
  ⟨rfl, (List.append_nil _).symm⟩

/-- Nothing of what has been written and read is taken back. -/
structure Extends (v v' : View) : Prop where
  written : v.written <+: v'.written
  lines : v.lines <+: v'.lines

theorem Extends.refl (v : View) : Extends v v := ⟨List.prefix_rfl, List.prefix_rfl⟩

theorem Extends.trans {v'' : View} (h : Extends v v') (h' : Extends v' v'') : Extends v v'' :=
  ⟨h.written.trans h'.written, h.lines.trans h'.lines⟩

theorem grown_set (i : ℕ) (h : Handle) : Grown v [] [] (v.set i h) :=
  ⟨(List.append_nil _).symm, (List.append_nil _).symm⟩

theorem serve_grown {i : Request} (h : Serve dir v i w v') :
    Grown v (wroteIn i) (readIn i w) v' := by
  cases i with
  | openFile name =>
    cases hfree : v.free with
    | none =>
      obtain ⟨-, rfl⟩ := (serve_openFile_none (Or.inl hfree)).1 h
      exact Grown.refl v'
    | some fd =>
      cases hfind : findEntry dir name with
      | none =>
        obtain ⟨-, rfl⟩ := (serve_openFile_none (Or.inr hfind)).1 h
        exact Grown.refl v'
      | some e =>
        obtain ⟨-, rfl⟩ := (serve_openFile_some hfree hfind).1 h
        exact grown_set _ _
  | closeFile fd =>
    simp only [Serve] at h
    split_ifs at h <;> rw [h.2]
    · exact Grown.refl v
    · exact grown_set _ _
  | read fd nbytes =>
    simp only [Serve] at h
    split_ifs at h with h0
    · rw [h.2.2, readIn, if_pos h0]
      exact ⟨(List.append_nil _).symm, rfl⟩
    · have hv : v' = (serveRead dir v fd nbytes.toNat).2 := congrArg Prod.snd h
      rw [hv, readIn, if_neg h0, serveRead]
      cases v.file fd with
      | closed | clock => exact Grown.refl v
      | directory | file => exact grown_set _ _
  | write fd nbytes bytes =>
    simp only [Serve] at h
    split_ifs at h with h1
    · rw [h.2, wroteIn, if_pos h1]
      exact grown_written v bytes
    · rw [wroteIn, if_neg h1]
      cases hfd : v.file fd <;> rw [hfd] at h <;> rw [h.2] <;> exact Grown.refl v
  | getargs nbytes =>
    simp only [Serve] at h
    split_ifs at h <;> rw [h.2] <;> exact Grown.refl v
  | vidmap screenStart =>
    rw [h.2]
    exact Grown.refl v
  | _ => exact h.elim

theorem serve_extends {i : Request} (h : Serve dir v i w v') : Extends v v' :=
  ⟨⟨_, (serve_grown h).written.symm⟩, ⟨_, (serve_grown h).lines.symm⟩⟩

/-- What a process writes to its terminal in its exchanges. -/
def output (t : List (Request × Reply)) : List UInt8 := t.flatMap fun x => wroteIn x.1

/-- The lines that a process reads from its terminal in its exchanges. -/
def input (t : List (Request × Reply)) : List (List UInt8) := t.flatMap fun x => readIn x.1 x.2

theorem serves_grown {t : List (Request × Reply)} (h : Serves (Serve dir) v t v') :
    Grown v (output t) (input t) v' := by
  induction t generalizing v with
  | nil =>
    obtain rfl := h
    exact Grown.refl v
  | cons x t ih =>
    obtain ⟨m, hm, hrest⟩ := h
    exact (serve_grown hm).trans (ih hrest)

end Serve

end LinuxIsLove
