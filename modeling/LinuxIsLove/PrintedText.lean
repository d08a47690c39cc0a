import LinuxIsLove.FormatEnd

/-!
# What `printf` puts out

A format that does not end inside a conversion is a list of directives: plain bytes, and
conversions with any number of `#` before the specifier (`exists_directives`).  `Prints` says what a
specifier puts out for its argument; the text of a number is only required to read back as the
number.  One round of the loop deals with one directive (`printfLoop_directive`), and a call with
all of them (`printf_prints`).
-/

namespace LinuxIsLove.Lib

open Bytes Loops Numerals

/-! ### Specifiers -/

/-- The NUL-terminated string at an address. -/
structure StringAt (m : Memory) (p : ℕ) (text : List UInt8) : Prop where
  ne_zero : ∀ c ∈ text, c ≠ 0
  byte : ∀ i ≤ text.length, m (p + i) = textMem text i

/-- The text of a number in hexadecimal form: eight digits in the alternate form, else the canonical
numeral. -/
structure HexText (alternate : Bool) (n : ℕ) (text : List UInt8) : Prop where
  reads_back : value 16 text = some n
  digits : if alternate then text.length = 8 else Canonical 16 n text

/-- The text of a signed number: a canonical numeral, behind a minus sign if the number is
negative, that reads back as the number. -/
structure SignedText (x : ℤ) (text : List UInt8) : Prop where
  reads_back : signedValue 10 text = some x
  digits : ∃ numeral, Canonical 10 x.natAbs numeral ∧
    text = if x < 0 then minusSign :: numeral else numeral

/-- What a specifier puts out for its argument: for a number a text that reads back as the
number. -/
def Prints (m : Memory) (alternate : Bool) (specifier : UInt8) (arg : BitVec 32)
    (text : List UInt8) : Prop :=
  if specifier = percentSign then text = [percentSign]
  else if specifier = letterX then HexText alternate arg.toNat text
  else if specifier = letterU then Canonical 10 arg.toNat text
  else if specifier = letterD then SignedText arg.toInt text
  else if specifier = letterC then text = [UInt8.ofBitVec (arg.setWidth 8)]
  else if specifier = letterS then StringAt m arg.toNat text
  else text = []

section Specifiers

variable {c : PrintfCall} {fuel jumps p : ℕ} {char : UInt8} {s : PrintfState} {m : Memory}

theorem convX_reads_back (hfuel : 32 ≤ fuel) (alternate : Bool) (convBuf : Buffer)
    (arg : BitVec 32) : ∃ text, convX fuel alternate convBuf arg = some text ∧
      HexText alternate arg.toNat text := by
  have hlen : (numeral 16 arg.toNat).length ≤ 8 :=
    numeral_length_le (by decide) (by decide) arg.isLt
  have hcanonical : Canonical 16 arg.toNat (numeral 16 arg.toNat) :=
    numeral_canonical (by decide) (by decide) _
  cases alternate with
  | false => exact ⟨_, convX_plain hfuel convBuf arg, hcanonical.value_eq, hcanonical⟩
  | true =>
    refine ⟨_, convX_alternate hfuel convBuf arg, ?_, ?_⟩
    · exact (value_zeros (by decide) (by decide) _ _).trans hcanonical.value_eq
    · rw [if_pos rfl, List.length_append, List.length_replicate]
      omega

theorem convU_reads_back (hfuel : 32 ≤ fuel) (convBuf : Buffer) (arg : BitVec 32) :
    ∃ text, convU fuel convBuf arg = some text ∧ Canonical 10 arg.toNat text :=
  ⟨_, convU_eq hfuel convBuf arg, numeral_canonical (by decide) (by decide) _⟩

theorem convD_reads_back (hfuel : 33 ≤ fuel) (convBuf : Buffer) (arg : BitVec 32) :
    ∃ text, convD fuel convBuf arg = some text ∧ SignedText arg.toInt text := by
  have hcanonical : ∀ n, Canonical 10 n (numeral 10 n) :=
    numeral_canonical (by decide) (by decide)
  by_cases hneg : arg.toInt < 0
  · have habs : arg.toInt.natAbs = (-arg).toNat := by
      rw [toInt_of_neg hneg, Int.natAbs_neg, Int.natAbs_natCast]
    refine ⟨_, convD_neg hneg hfuel convBuf, ?_, numeral 10 (-arg).toNat, ?_, (if_pos hneg).symm⟩
    · rw [toInt_of_neg hneg]
      exact signedValue_minus (by decide) (by decide) _
    · rw [habs]
      exact hcanonical _
  · have habs : arg.toInt.natAbs = arg.toNat := by
      rw [toInt_of_not_neg hneg, Int.natAbs_natCast]
    refine ⟨_, convD_nonneg hneg (by omega) convBuf, ?_, numeral 10 arg.toNat, ?_,
      (if_neg hneg).symm⟩
    · rw [toInt_of_not_neg hneg]
      exact signedValue_numeral (by decide) (by decide) _
    · rw [habs]
      exact hcanonical _

/-- A string that ends is there up to its first NUL. -/
theorem exists_stringAt (h : ∃ j, m (p + j) = 0) : ∃ text, StringAt m p text := by
  classical
  refine ⟨(List.range (Nat.find h)).map fun j => m (p + j), ⟨?_, ?_⟩⟩
  · intro c hc
    obtain ⟨j, hj, rfl⟩ := List.mem_map.1 hc
    exact Nat.find_min h (List.mem_range.1 hj)
  · intro i hi
    rw [List.length_map, List.length_range] at hi
    rcases Nat.lt_or_eq_of_le hi with hlt | rfl
    · simp [textMem, hlt]
    · simp [textMem, Nat.find_spec h]

/-- The state behind a specifier: a `%c`, a number or a string has taken an argument. -/
def PrintfState.printed (s : PrintfState) (char : UInt8) (text : List UInt8) : PrintfState :=
  if Scan.takesArg char then s.read.took text else s.read.put text

/-- **One specifier** puts out what it should. -/
theorem switch_prints (hfuel : 33 ≤ fuel) (alternate : Bool) (hchar : c.format s.buf = char)
    (hhash : char ≠ hashSign)
    (hstr : char = letterS → ∃ text, StringAt c.mem (c.args s.esp).toNat text ∧
      text.length ≤ fuel) :
    ∃ text, formatCharSwitch fuel c (jumps + 1) alternate s = some (s.printed char text) ∧
      Prints c.mem alternate char (c.args s.esp) text := by
  have hfuel32 : 32 ≤ fuel := by omega
  simp only [formatCharSwitch, Prints, hchar, if_neg hhash]
  split_ifs with hpercent hx hu hd hc hs
  · subst hpercent
    exact ⟨_, rfl, rfl⟩
  · subst hx
    obtain ⟨text, hconv, hvalue⟩ := convX_reads_back hfuel32 alternate _ (c.args s.esp)
    exact ⟨text, by rw [hconv]; rfl, hvalue⟩
  · subst hu
    obtain ⟨text, hconv, hvalue⟩ := convU_reads_back hfuel32 _ (c.args s.esp)
    exact ⟨text, by rw [hconv]; rfl, hvalue⟩
  · subst hd
    obtain ⟨text, hconv, hvalue⟩ := convD_reads_back hfuel _ (c.args s.esp)
    exact ⟨text, by rw [hconv]; rfl, hvalue⟩
  · subst hc
    exact ⟨_, rfl, rfl⟩
  · subst hs
    obtain ⟨text, htext, hlen⟩ := hstr rfl
    exact ⟨text, by rw [puts_text htext.ne_zero hlen htext.byte]; rfl, htext⟩
  · have hno : Scan.takesArg char = false := by simp [Scan.takesArg, hx, hu, hd, hc, hs]
    refine ⟨[], ?_, rfl⟩
    simp [PrintfState.printed, hno, PrintfState.put]

end Specifiers

/-! ### Directives -/

/-- A part of a format. -/
inductive Directive
  /-- a byte that is put out as it stands -/
  | plain (char : UInt8) (h0 : char ≠ 0) (hpercent : char ≠ percentSign)
  /-- a `%`, any number of `#`, and a specifier -/
  | conversion (hashes : ℕ) (specifier : UInt8) (h0 : specifier ≠ 0) (hhash : specifier ≠ hashSign)

namespace Directive

def bytes : Directive → List UInt8
  | plain char _ _ => [char]
  | conversion hashes specifier _ _ =>
    percentSign :: (List.replicate hashes hashSign ++ [specifier])

/-- How many arguments it takes. -/
def args : Directive → ℕ
  | plain _ _ _ => 0
  | conversion _ specifier _ _ => if Scan.takesArg specifier then 1 else 0

/-- What it puts out. -/
def Prints (m : Memory) (arg : BitVec 32) (text : List UInt8) : Directive → Prop
  | plain char _ _ => text = [char]
  | conversion hashes specifier _ _ => Lib.Prints m (decide (0 < hashes)) specifier arg text

/-- The argument of a `%s` is a string that the fuel is enough for. -/
def StringFits (fuel : ℕ) (m : Memory) (arg : BitVec 32) : Directive → Prop
  | plain _ _ _ => True
  | conversion _ specifier _ _ => specifier = letterS →
    ∃ text, StringAt m arg.toNat text ∧ text.length ≤ fuel

/-- The argument of a `%s` is a string that ends. -/
def StringEnds (m : Memory) (arg : BitVec 32) : Directive → Prop
  | plain _ _ _ => True
  | conversion _ specifier _ _ => specifier = letterS → ∃ j, m (arg.toNat + j) = 0

theorem StringEnds.exists_fits {m : Memory} {arg : BitVec 32} :
    ∀ {d : Directive}, d.StringEnds m arg → ∃ J, ∀ fuel ≥ J, d.StringFits fuel m arg
  | plain _ _ _, _ => ⟨0, fun _ _ => trivial⟩
  | conversion _ specifier _ _, h => by
    by_cases hs : specifier = letterS
    · obtain ⟨text, htext⟩ := exists_stringAt (h hs)
      exact ⟨text.length, fun _ hfuel _ => ⟨text, htext, hfuel⟩⟩
    · exact ⟨0, fun _ _ hs' => absurd hs' hs⟩

end Directive

/-- The bytes of a format. -/
def formatBytes (ds : List Directive) : List UInt8 := ds.flatMap Directive.bytes

theorem formatBytes_cons (d : Directive) (ds : List Directive) :
    formatBytes (d :: ds) = d.bytes ++ formatBytes ds := List.flatMap_cons

/-- What the directives put out one after the other, the first with the argument `n`. -/
def PrintsAll (c : PrintfCall) : ℕ → List Directive → List UInt8 → Prop
  | _, [], out => out = []
  | n, d :: ds, out => ∃ text rest, out = text ++ rest ∧ d.Prints c.mem (c.args n) text ∧
      PrintsAll c (n + d.args) ds rest

def StringsEndAll (c : PrintfCall) : ℕ → List Directive → Prop
  | _, [] => True
  | n, d :: ds => d.StringEnds c.mem (c.args n) ∧ StringsEndAll c (n + d.args) ds

section Rounds

variable {c : PrintfCall} {fuel jumps rounds k n : ℕ} {char : UInt8} {s : PrintfState}
  {d : Directive} {ds : List Directive} {l rest : List UInt8}

theorem Rest.append (h : Rest c k (l ++ rest)) : Rest c (k + l.length) rest := by
  induction l generalizing k with
  | nil => exact h
  | cons char l ih =>
    have htail := ih (Rest.tail h)
    rwa [Nat.add_assoc, Nat.add_comm 1] at htail

/-- Between two states a part of the format has been dealt with. -/
structure Printed (s s' : PrintfState) (len args : ℕ) (text : List UInt8) : Prop where
  buf_eq : s'.buf = s.buf + len
  esp_eq : s'.esp = s.esp + args
  out_eq : s'.out = s.out ++ text

theorem printed_printed (s : PrintfState) (char : UInt8) (text : List UInt8) :
    Printed s (s.printed char text) 0 (if Scan.takesArg char then 1 else 0) text := by
  unfold PrintfState.printed
  split_ifs
  · exact ⟨rfl, rfl, rfl⟩
  · exact ⟨rfl, rfl, rfl⟩

/-- The jumps back to the label, one for each `#`. -/
theorem switch_hashes {hashes : ℕ} (alternate : Bool)
    (hrest : Rest c s.buf (List.replicate hashes hashSign ++ rest)) :
    ∃ s', formatCharSwitch fuel c (hashes + jumps) alternate s =
        formatCharSwitch fuel c jumps (alternate || decide (0 < hashes)) s' ∧
      Printed s s' hashes 0 [] := by
  induction hashes generalizing s alternate with
  | zero =>
    refine ⟨s, ?_, rfl, rfl, (List.append_nil _).symm⟩
    rw [Nat.zero_add, decide_eq_false (by decide), Bool.or_false]
  | succ hashes ih =>
    obtain ⟨s', hswitch, hs'⟩ := ih (s := s.read.next) true hrest.tail
    refine ⟨s', ?_, ?_, hs'.esp_eq, hs'.out_eq⟩
    · rw [Nat.add_right_comm, switch_hash hrest.head, hswitch, decide_eq_true (Nat.succ_pos _),
        Bool.true_or, Bool.or_true]
    · rw [hs'.buf_eq]
      show s.buf + 1 + hashes = s.buf + (hashes + 1)
      omega

/-- **One round of the loop** deals with one directive. -/
theorem printfLoop_directive (hfuel : 33 ≤ fuel) (hlen : d.bytes.length ≤ fuel)
    (hrest : Rest c s.buf (d.bytes ++ rest))
    (hstr : d.StringFits fuel c.mem (c.args s.esp)) :
    ∃ s' text, printfLoop fuel c (rounds + 1) s = printfLoop fuel c rounds s' ∧
      Printed s s' d.bytes.length d.args text ∧ d.Prints c.mem (c.args s.esp) text := by
  cases d with
  | plain char h0 hpercent =>
    have hchar : c.format s.buf = char := hrest.head
    exact ⟨_, [char], printfLoop_char hchar h0 hpercent rounds, ⟨rfl, rfl, rfl⟩, rfl⟩
  | conversion hashes specifier h0 hhash =>
    simp only [Directive.bytes, List.length_cons, List.length_append, List.length_replicate,
      List.length_nil] at hlen
    have hpercent : c.format s.buf = percentSign := hrest.head
    have hbehind : Rest c (s.buf + 1) (List.replicate hashes hashSign ++ specifier :: rest) := by
      simpa [Directive.bytes] using hrest.tail
    -- the switch has fuel for the `#` and the specifier
    obtain ⟨jumps, rfl⟩ : ∃ jumps, fuel = hashes + (jumps + 1) := ⟨fuel - hashes - 1, by omega⟩
    obtain ⟨s1, hswitch, hs1⟩ : ∃ s1,
        formatCharSwitch (hashes + (jumps + 1)) c (hashes + (jumps + 1)) false s.read.next =
          formatCharSwitch (hashes + (jumps + 1)) c (jumps + 1)
            (false || decide (0 < hashes)) s1 ∧
        Printed s.read.next s1 hashes 0 [] := switch_hashes false hbehind
    have hspecifier : c.format s1.buf = specifier := by
      have hhead := hbehind.append.head
      rw [List.length_replicate] at hhead
      rw [hs1.buf_eq]
      exact hhead
    have hesp : s1.esp = s.esp := hs1.esp_eq
    have hstring : specifier = letterS → ∃ text, StringAt c.mem (c.args s1.esp).toNat text ∧
        text.length ≤ hashes + (jumps + 1) := by
      rw [hesp]
      exact hstr
    obtain ⟨text, hrun, htext⟩ : ∃ text,
        formatCharSwitch (hashes + (jumps + 1)) c (jumps + 1) (false || decide (0 < hashes)) s1 =
          some (s1.printed specifier text) ∧
        Prints c.mem (false || decide (0 < hashes)) specifier (c.args s1.esp) text :=
      switch_prints hfuel _ hspecifier hhash hstring
    have hprinted := printed_printed s1 specifier text
    refine ⟨(s1.printed specifier text).next, text, ?_, ⟨?_, ?_, ?_⟩, ?_⟩
    · rw [printfLoop_percent hpercent, hswitch, hrun, Option.bind_some]
    · show (s1.printed specifier text).buf + 1 = _
      rw [hprinted.buf_eq, hs1.buf_eq]
      simp only [Directive.bytes, List.length_cons, List.length_append, List.length_replicate,
        List.length_nil]
      show s.buf + 1 + hashes + 0 + 1 = _
      omega
    · show (s1.printed specifier text).esp = _
      rw [hprinted.esp_eq, hesp]
      rfl
    · show (s1.printed specifier text).out = _
      rw [hprinted.out_eq, hs1.out_eq, List.append_nil]
      rfl
    · rw [hesp, Bool.false_or] at htext
      exact htext

/-- **A whole format** from any of its directives on. -/
theorem printfLoop_prints (hrest : Rest c k (formatBytes ds)) (hstr : StringsEndAll c n ds) :
    ∃ N, ∀ fuel ≥ N, ∀ rounds ≥ N, ∀ s : PrintfState, s.buf = k → s.esp = n →
      ∃ t out, printfLoop fuel c rounds s = some t ∧ t.buf = k + (formatBytes ds).length ∧
        t.out = s.out ++ out ∧ PrintsAll c n ds out := by
  induction ds generalizing k n with
  | nil =>
    refine ⟨1, fun fuel _ rounds hrounds s hbuf _ => ?_⟩
    obtain ⟨r, rfl⟩ : ∃ r, rounds = r + 1 := ⟨rounds - 1, by omega⟩
    refine ⟨s.read, [], ?_, hbuf, (List.append_nil _).symm, rfl⟩
    exact printfLoop_nul (by rw [hbuf]; exact hrest.nul) r
  | cons d ds ih =>
    obtain ⟨N, hN⟩ := ih (Rest.append (l := d.bytes) hrest) hstr.2
    obtain ⟨J, hJ⟩ := hstr.1.exists_fits
    refine ⟨33 + d.bytes.length + N + J + 1, fun fuel hfuel rounds hrounds s hbuf hesp => ?_⟩
    obtain ⟨r, rfl⟩ : ∃ r, rounds = r + 1 := ⟨rounds - 1, by omega⟩
    have hrest' : Rest c s.buf (d.bytes ++ formatBytes ds) := by
      rw [hbuf]
      exact hrest
    have hfits : d.StringFits fuel c.mem (c.args s.esp) := by
      rw [hesp]
      exact hJ fuel (by omega)
    obtain ⟨s1, text, hround, hs1, htext⟩ : ∃ s1 text,
        printfLoop fuel c (r + 1) s = printfLoop fuel c r s1 ∧
          Printed s s1 d.bytes.length d.args text ∧ d.Prints c.mem (c.args s.esp) text :=
      printfLoop_directive (by omega) (by omega) hrest' hfits
    obtain ⟨t, out, hrun, hend, hout, hall⟩ := hN fuel (by omega) r (by omega) s1
      (by rw [hs1.buf_eq, hbuf]) (by rw [hs1.esp_eq, hesp])
    refine ⟨t, text ++ out, hround.trans hrun, ?_, ?_, text, out, rfl, ?_, hall⟩
    · rw [hend, formatBytes_cons, List.length_append, Nat.add_assoc]
    · rw [hout, hs1.out_eq, List.append_assoc]
    · rwa [← hesp]

end Rounds

/-! ### Formats -/

/-- A format that ends outside every conversion is a list of directives; inside one, some `#` and
the specifier come first. -/
theorem exists_directives_after {q : Scan} {l : List UInt8} (h0 : ∀ c ∈ l, c ≠ 0)
    (hend : (q.after l).inside = false) :
    if q.inside then ∃ hashes specifier ds, specifier ≠ 0 ∧ specifier ≠ hashSign ∧
      l = List.replicate hashes hashSign ++ specifier :: formatBytes ds
    else ∃ ds, formatBytes ds = l := by
  induction l generalizing q with
  | nil =>
    rw [if_neg (by rw [show q.inside = false from hend]; decide)]
    exact ⟨[], rfl⟩
  | cons char l ih =>
    have hchar : char ≠ 0 := h0 char List.mem_cons_self
    have hnext := ih (q := q.next char) (fun c hc => h0 c (List.mem_cons_of_mem _ hc)) hend
    cases hin : q.inside with
    | false =>
      rw [if_neg (by decide)]
      rw [Scan.next_outside hin] at hnext
      by_cases hpercent : char = percentSign
      · subst hpercent
        obtain ⟨hashes, specifier, ds, hs0, hhash, rfl⟩ := hnext
        refine ⟨.conversion hashes specifier hs0 hhash :: ds, ?_⟩
        simp [formatBytes, Directive.bytes]
      · rw [if_neg (by simpa using hpercent)] at hnext
        obtain ⟨ds, rfl⟩ := hnext
        exact ⟨.plain char hchar hpercent :: ds, rfl⟩
    | true =>
      rw [if_pos rfl]
      by_cases hhash : char = hashSign
      · subst hhash
        rw [Scan.next_hash hin, if_pos hin] at hnext
        obtain ⟨hashes, specifier, ds, hs0, hhash, rfl⟩ := hnext
        exact ⟨hashes + 1, specifier, ds, hs0, hhash, rfl⟩
      · rw [Scan.next_specifier hin hhash] at hnext
        obtain ⟨ds, rfl⟩ := hnext
        exact ⟨0, char, ds, hchar, hhash, rfl⟩

/-- **The formats that do not end inside a conversion** are the lists of directives. -/
theorem exists_directives {format : CString} (h : ¬ EndsInside format) :
    ∃ ds, formatBytes ds = format.bytes :=
  exists_directives_after (q := .start) format.noNul (Bool.eq_false_of_not_eq_true h)

theorem formatBytes_ne_zero (ds : List Directive) : ∀ c ∈ formatBytes ds, c ≠ 0 := by
  intro c hc
  obtain ⟨d, -, hd⟩ := List.mem_flatMap.1 hc
  cases d with
  | plain char h0 hpercent =>
    obtain rfl := List.mem_singleton.1 hd
    exact h0
  | conversion hashes specifier h0 hhash =>
    rcases List.mem_cons.1 hd with rfl | hd
    · decide
    · rcases List.mem_append.1 hd with hd | hd
      · rw [List.eq_of_mem_replicate hd]
        decide
      · obtain rfl := List.mem_singleton.1 hd
        exact h0

/-- What a call puts out, with enough fuel: it returns the length of the format, and its output is
that of the directives. -/
def CallPrints (c : PrintfCall) (ds : List Directive) : Prop :=
  ∃ N, ∀ fuel ≥ N, ∃ t, printf fuel c = some t ∧ t.buf = (formatBytes ds).length ∧
    PrintsAll c 0 ds t.out

/-- **A call of `printf`** puts out what its directives say. -/
theorem printf_prints {c : PrintfCall} {ds : List Directive}
    (hformat : ∀ i ≤ (formatBytes ds).length, c.format i = textMem (formatBytes ds) i)
    (hstr : StringsEndAll c 0 ds) : CallPrints c ds := by
  have hrest : Rest c 0 (formatBytes ds) :=
    ⟨fun i hi => by rw [Nat.zero_add]; exact hformat i hi, formatBytes_ne_zero ds⟩
  obtain ⟨N, hN⟩ := printfLoop_prints hrest hstr
  refine ⟨N, fun fuel hfuel => ?_⟩
  obtain ⟨t, out, hrun, hend, hout, hall⟩ := hN fuel hfuel fuel hfuel .start rfl rfl
  have hout' : t.out = out := hout.trans (List.nil_append out)
  rw [← hout'] at hall
  exact ⟨t, hrun, by rw [hend, Nat.zero_add], hall⟩

/-! ### The result -/

/-- **Number formatting is faithful.**  `itoa` and `ece391_itoa` write the numeral, and in every
call of `printf` the texts of `%u`, `%x`, `%d` and `%#x` read back as the arguments. -/
theorem formatting_faithful {fuel : ℕ} (hfuel : 33 ≤ fuel) :
    (∀ value radix : BitVec 32, 2 ≤ radix.toNat → radix.toNat ≤ 36 → ∀ (p : ℕ) (b : Buffer),
      FormatsNumeral fuel value radix p b) ∧
    ∀ (c : PrintfCall) (ds : List Directive),
      (∀ i ≤ (formatBytes ds).length, c.format i = textMem (formatBytes ds) i) →
      StringsEndAll c 0 ds → CallPrints c ds :=
  ⟨fun _ _ h2 h36 p b => formatsNumeral h2 h36 (by omega) p b,
    fun _ _ hformat hstr => printf_prints hformat hstr⟩

/-- The format `%d,%#x%s`. -/
def mixedDirectives : List Directive :=
  [.conversion 0 letterD (by decide) (by decide), .plain 0x2C (by decide) (by decide),
    .conversion 1 letterX (by decide) (by decide), .conversion 0 letterS (by decide) (by decide)]

/-- The lowest integer in base 2, and as the arguments of a call. -/
theorem formatting_faithful_lowest :
    FormatsNumeral 33 0x80000000#32 2#32 0 (Buffer.fresh fun _ => 0) ∧
    CallPrints ⟨textMem (formatBytes mixedDirectives), fun _ => 0x80000000#32, fun _ => 0,
      fun _ _ => 0⟩ mixedDirectives := by
  have h := formatting_faithful (le_refl 33)
  refine ⟨h.1 _ _ (by decide) (by decide) 0 _, h.2 _ _ (fun _ _ => rfl) ?_⟩
  exact ⟨fun hS => absurd hS (by decide), trivial, fun hS => absurd hS (by decide),
    fun _ => ⟨0, rfl⟩, trivial⟩

end LinuxIsLove.Lib
