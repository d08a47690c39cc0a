import LinuxIsLove.LineSplitting
import LinuxIsLove.TerminalRuns

/-!
# One line per read

`terminal_read` is meant to return data from one line, or as much of it as fits.  It copies by
count: what a short read has left of a long line stays in the buffer, and the next line is appended
to it.  A read returns data from one line exactly if it asks for no more than the first line in the
buffer, or there is no other line behind it (`oneLine_iff`).
-/

namespace LinuxIsLove

open Bytes EventMachine

/-- A newline is the last byte, if there is one at all. -/
def OneLine (bytes : List UInt8) : Prop := 10 ∉ bytes.dropLast

instance : DecidablePred OneLine := fun bytes => inferInstanceAs (Decidable (10 ∉ bytes.dropLast))

/-- The length of the first line, its newline included. -/
def firstLine (bytes : List UInt8) : ℕ := (bytes.takeWhile fun b => b ≠ 10).length + 1

/-- The bytes that a released reader takes. -/
def readOut (s : LineState) : TerminalEvent → List (List UInt8)
  | .drain =>
    match s.reader with
    | .spinning nbytes =>
      if s.term.hitEnter then [delivered (drain s.term nbytes fun _ => 0)] else []
    | _ => []
  | _ => []

/-- The read asks for no more than the first line in the buffer, or that line is all there is. -/
def FirstLineOnly (s : LineState) : TerminalEvent → Prop
  | .drain => ∀ nbytes, s.reader = .spinning nbytes →
    drainSize nbytes ≤ firstLine s.term.content ∨ s.term.bufCount ≤ firstLine s.term.content
  | _ => True

/-! ### One read -/

theorem oneLine_cons {c : UInt8} {bytes : List UInt8} (hc : c ≠ 10) :
    OneLine (c :: bytes) ↔ OneLine bytes := by
  cases bytes with
  | nil => exact ⟨fun _ => by simp [OneLine], fun _ => by simp [OneLine]⟩
  | cons b bytes =>
    rw [OneLine, OneLine, List.dropLast_cons_of_ne_nil (List.cons_ne_nil b bytes),
      List.mem_cons, not_or]
    exact ⟨fun h => h.2, fun h => ⟨hc.symm, h⟩⟩

/-- The first bytes of a text are from one line if they do not reach behind its first line. -/
theorem oneLine_take_iff (bytes : List UInt8) (n : ℕ) :
    OneLine (bytes.take n) ↔ n ≤ firstLine bytes ∨ bytes.length ≤ firstLine bytes := by
  induction bytes generalizing n with
  | nil => exact ⟨fun _ => Or.inr (Nat.zero_le _), fun _ => by simp [OneLine]⟩
  | cons c bytes ih =>
    cases n with
    | zero => exact ⟨fun _ => Or.inl (Nat.zero_le _), fun _ => by simp [OneLine]⟩
    | succ n =>
      rw [List.take_succ_cons]
      by_cases hc : c = 10
      · -- the first line is the newline alone
        subst hc
        have hfirst : firstLine (10 :: bytes) = 1 := by simp [firstLine]
        rw [hfirst, List.length_cons]
        cases hrest : bytes.take n with
        | nil =>
          refine ⟨fun _ => ?_, fun _ => by simp [OneLine]⟩
          rcases List.take_eq_nil_iff.1 hrest with rfl | rfl
          · exact Or.inl le_rfl
          · exact Or.inr le_rfl
        | cons b rest =>
          have hmore : (bytes.take n).length = rest.length + 1 := by rw [hrest]; simp
          rw [List.length_take] at hmore
          refine ⟨fun h => ?_, fun h => by omega⟩
          rw [OneLine, List.dropLast_cons_of_ne_nil (List.cons_ne_nil b rest)] at h
          exact absurd List.mem_cons_self h
      · have hfirst : firstLine (c :: bytes) = firstLine bytes + 1 := by
          simp [firstLine, hc]
        rw [oneLine_cons hc, ih, hfirst, List.length_cons]
        omega

/-- What a drain delivers, for every content of the line buffer. -/
theorem delivered_eq {t : Terminal} {nbytes : ℤ} (hlt : t.bufCount < 2 ^ 16) (h0 : 0 ≤ nbytes)
    (buf : Memory) : delivered (drain t nbytes buf) = t.content.take (drainSize nbytes) := by
  simp only [delivered, drain_eq hlt h0 buf, Int.toNat_natCast]
  refine List.ext_getElem (by simp) fun j hj hj' => ?_
  rw [List.length_map, List.length_range] at hj
  rw [List.getElem_map, List.getElem_range, copy_of_lt (by omega), List.getElem_take]
  simp [Terminal.content]

/-! ### Runs -/

/-- `buf_count` is a 16-bit integer, and a reader waits for at least one byte. -/
def ReadOk (s : LineState) : Prop :=
  s.term.bufCount < 2 ^ 16 ∧ ∀ nbytes, s.reader = .spinning nbytes → 1 ≤ nbytes

section Runs

variable {n : ℤ} {s s' : LineState} {e : TerminalEvent}

theorem readOk_step (hs : ReadOk s) (h : terminalStep n s e = some s') : ReadOk s' := by
  obtain ⟨hlt, hreader⟩ := hs
  cases terminalEffect_of_step h with
  | press tr k hk hwaiting =>
    refine ⟨?_, hreader⟩
    rw [press_buffer]
    show (k.buffer s.term).bufCount < 2 ^ 16
    have hpressed := pressed s.term k
    generalize k.drawing s.term = o at hpressed
    generalize k.buffer s.term = t' at hpressed
    cases hpressed with
    | redraw => exact hlt
    | enter hlen hcount => exact hcount
    | erase hlen => exact Nat.mod_lt _ (by decide)
    | char key hreturn hback hroom => exact Nat.mod_lt _ (by decide)
    | ignored key hreturn => exact hlt
  | write tr buf nbytes => exact ⟨hlt, hreader⟩
  | arm nbytes h1 =>
    refine ⟨hlt, fun m hm => ?_⟩
    cases hm
    exact h1
  | drain nbytes hspin henter =>
    exact ⟨(drain_rest s.term nbytes fun _ => 0).2.2, fun m hm => absurd hm (by simp)⟩
  | disarm => exact ⟨hlt, fun m hm => absurd hm (by simp)⟩

/-- A step that is not enabled delivers nothing. -/
theorem readOut_of_none (h : terminalStep n s e = none) : readOut s e = [] := by
  cases e with
  | drain =>
    cases hreader : s.reader with
    | spinning nbytes =>
      simp only [terminalStep, hreader] at h
      split_ifs at h with henter
      simp only [readOut, hreader, if_neg henter]
    | _ => simp only [readOut, hreader]
  | _ => rfl

/-- A step delivers data from one line exactly if it meets the condition. -/
theorem oneLine_step (hs : ReadOk s) (h : terminalStep n s e = some s') :
    (∀ bytes ∈ readOut s e, OneLine bytes) ↔ FirstLineOnly s e := by
  obtain ⟨hlt, hreader⟩ := hs
  cases terminalEffect_of_step h with
  | drain nbytes hspin henter =>
    have h1 := hreader nbytes hspin
    have hout : readOut s .drain = [delivered (drain s.term nbytes fun _ => 0)] := by
      simp only [readOut, hspin, if_pos henter]
    rw [hout, List.forall_mem_singleton, delivered_eq hlt (by omega), oneLine_take_iff,
      Terminal.content_length]
    simp only [FirstLineOnly, hspin, Reader.spinning.injEq, forall_eq']
  | _ => exact ⟨fun _ => trivial, fun _ bytes hbytes => absurd hbytes List.not_mem_nil⟩

/-- **Each read returns data from one line exactly along the runs that meet the condition.**  In
every run of keys, writes and reads of a terminal, what each read delivers has a newline at its end
at most, if and only if no read asks for more than the first line in the buffer while another line
is behind it. -/
theorem oneLine_iff (n v : ℤ) (text : ScreenMemory) (es : List TerminalEvent) :
    (∀ bytes ∈ outputs (terminalStep n) readOut (terminalInit v text) es, OneLine bytes) ↔
      Guarded (terminalStep n) FirstLineOnly (terminalInit v text) es := by
  rw [forall_outputs_iff_guarded fun _ _ h => readOut_of_none h]
  have hinit : ReadOk (terminalInit v text) :=
    ⟨Nat.two_pow_pos 16, fun m hm => absurd hm (by simp [terminalInit])⟩
  have hbase : Guarded (terminalStep n) (fun _ _ => True) (terminalInit v text) es :=
    guarded_of_forall (fun _ _ => trivial) _ es
  exact guarded_congr (fun s e s' hs _ h => readOk_step hs h)
    (fun s e s' hs _ h => oneLine_step hs h) hinit hbase

end Runs

/-- A line of eight characters read by five, and a line of one character after it. -/
def mergedLines : List TerminalEvent :=
  [.arm 5] ++ ([97, 98, 99, 100, 101, 102, 103, 104, keyReturn].map fun key =>
      .press id (.typed key)) ++
    [.drain, .disarm, .arm 128, .press id (.typed 120), .press id (.typed keyReturn), .drain]

/-- The second read returns the rest of the first line and the whole second line. -/
theorem mergedLines_twoLines :
    (run (terminalStep 0) (terminalInit video fun _ => 0) mergedLines).isSome = true ∧
      [102, 103, 104, 10, 120, 10] ∈
        outputs (terminalStep 0) readOut (terminalInit video fun _ => 0) mergedLines ∧
      ¬ OneLine [102, 103, 104, 10, 120, 10] := by
  refine ⟨by decide +kernel, ?_, by decide⟩
  have hout : outputs (terminalStep 0) readOut (terminalInit video fun _ => 0) mergedLines =
      [[97, 98, 99, 100, 101], [102, 103, 104, 10, 120, 10]] := by
    decide +kernel
  rw [hout]
  simp

end LinuxIsLove
