import LinuxIsLove.NumberFormatting

/-!
# Where `printf` stops

`Scan` follows a format byte by byte: whether the byte is inside a conversion, how many arguments
have been taken, and which of them are strings.  A format whose last byte is outside every
conversion is read up to its NUL.  Behind a `%`, and behind each `#` that follows one, `printf`
does not look for the NUL: a format that ends there is left behind.
-/

namespace LinuxIsLove.Lib

open Bytes Loops

/-- What is known of a format after some of its bytes. -/
structure Scan where
  inside : Bool
  args : ℕ
  strings : List ℕ

namespace Scan

def start : Scan := ⟨false, 0, []⟩

/-- The specifiers that take an argument. -/
def takesArg (char : UInt8) : Bool :=
  char == letterX || char == letterU || char == letterD || char == letterC || char == letterS

def next (s : Scan) (char : UInt8) : Scan :=
  if s.inside then
    if char = hashSign then s
    else
      { inside := false
        args := if takesArg char then s.args + 1 else s.args
        strings := if char = letterS then s.strings ++ [s.args] else s.strings }
  else { s with inside := char == percentSign }

/-- The format so far. -/
def after (s : Scan) (format : List UInt8) : Scan := format.foldl next s

section Next

variable {s : Scan} {char : UInt8}

theorem next_outside (h : s.inside = false) :
    s.next char = { s with inside := char == percentSign } := by
  rw [next, if_neg (by simp [h])]

theorem next_hash (h : s.inside = true) : s.next hashSign = s := by
  rw [next, if_pos h, if_pos rfl]

theorem next_specifier (h : s.inside = true) (hhash : char ≠ hashSign) :
    s.next char =
      { inside := false
        args := if takesArg char then s.args + 1 else s.args
        strings := if char = letterS then s.strings ++ [s.args] else s.strings } := by
  rw [next, if_pos h, if_neg hhash]

/-- The argument of a `%s` is taken for a string. -/
theorem args_mem_strings (h : s.inside = true) : s.args ∈ (s.next letterS).strings := by
  rw [next_specifier h (by decide)]
  exact List.mem_append_right _ (List.mem_singleton_self _)

theorem strings_next (s : Scan) (char : UInt8) {i : ℕ} (hi : i ∈ s.strings) :
    i ∈ (s.next char).strings := by
  cases hin : s.inside with
  | false =>
    rw [next_outside hin]
    exact hi
  | true =>
    by_cases hhash : char = hashSign
    · rw [hhash, next_hash hin]
      exact hi
    · rw [next_specifier hin hhash]
      show i ∈ if char = letterS then s.strings ++ [s.args] else s.strings
      by_cases hstr : char = letterS
      · rw [if_pos hstr]
        exact List.mem_append_left _ hi
      · rwa [if_neg hstr]

end Next

theorem strings_after (s : Scan) (format : List UInt8) {i : ℕ} (hi : i ∈ s.strings) :
    i ∈ (s.after format).strings := by
  induction format generalizing s with
  | nil => exact hi
  | cons char rest ih => exact ih (s.next char) (strings_next s char hi)

end Scan

/-! ### The bytes that are left -/

/-- The format from position `k` on: the bytes of `rest` and a NUL. -/
structure Rest (c : PrintfCall) (k : ℕ) (rest : List UInt8) : Prop where
  byte : ∀ i ≤ rest.length, c.format (k + i) = textMem rest i
  noNul : ∀ char ∈ rest, char ≠ 0

section Runs

variable {c : PrintfCall} {fuel k : ℕ} {char : UInt8} {rest : List UInt8} {s s' t : PrintfState}

theorem Rest.nul (h : Rest c k []) : c.format k = 0 := h.byte 0 le_rfl

theorem Rest.head (h : Rest c k (char :: rest)) : c.format k = char := h.byte 0 (Nat.zero_le _)

theorem Rest.head_ne (h : Rest c k (char :: rest)) : char ≠ 0 := h.noNul char List.mem_cons_self

theorem Rest.tail (h : Rest c k (char :: rest)) : Rest c (k + 1) rest where
  byte i hi := by
    have hnext := h.byte (i + 1) (by simpa using hi)
    rw [Nat.add_assoc, Nat.add_comm 1 i, hnext]
    simp [textMem]
  noNul d hd := h.noNul d (List.mem_cons_of_mem _ hd)

/-- A string with a NUL within the fuel is put out. -/
theorem puts_ends {m : Memory} {p j : ℕ} (hj : m (p + j) = 0) (hfuel : j ≤ fuel) :
    ∃ out, puts fuel m p = some out := by
  have hround : ∀ s : PutsState, s.index ≤ j → (m (p + s.index) != 0) = true →
      s.index + 1 ≤ j ∧ j - (s.index + 1) < j - s.index := by
    intro s hle hne
    have hlt : s.index ≠ j := by
      intro heq
      rw [heq, hj] at hne
      simp at hne
    omega
  obtain ⟨s, hrun, -, -⟩ : ∃ s, putsLoop m p fuel ⟨0, []⟩ = some s ∧ s.index ≤ j ∧
      (m (p + s.index) != 0) = false :=
    loopWhile_rule (μ := fun s => j - s.index) hround (Nat.zero_le j)
      ((Nat.sub_le ..).trans hfuel)
  exact ⟨s.out, by rw [puts, hrun, Option.map_some]⟩

/-! ### One specifier -/

/-- What a specifier does to the state: it stays where it is, and takes an argument or none. -/
structure Converted (char : UInt8) (s s' : PrintfState) : Prop where
  buf_eq : s'.buf = s.buf
  reads_eq : s'.reads = s.reads ++ [s.buf]
  esp_eq : s'.esp = if Scan.takesArg char then s.esp + 1 else s.esp

section Specifiers

variable {jumps : ℕ} {alternate : Bool}

theorem converted_took (h : Scan.takesArg char = true) (bytes : List UInt8) :
    Converted char s (s.read.took bytes) := by
  refine ⟨rfl, rfl, ?_⟩
  rw [if_pos h]
  rfl

theorem converted_map {o : Option (List UInt8)} (h : Scan.takesArg char = true)
    (hs' : o.map s.read.took = some s') : Converted char s s' := by
  obtain ⟨bytes, -, rfl⟩ := Option.map_eq_some_iff.1 hs'
  exact converted_took h bytes

/-- The result of the switch behind the last `#`. -/
theorem switch_converted (hchar : c.format s.buf = char) (hhash : char ≠ hashSign)
    (h : formatCharSwitch fuel c (jumps + 1) alternate s = some s') : Converted char s s' := by
  simp only [formatCharSwitch, hchar, if_neg hhash] at h
  split_ifs at h with hpercent hx hu hd hc hs
  · obtain rfl := Option.some_inj.1 h
    refine ⟨rfl, rfl, ?_⟩
    rw [hpercent]
    rfl
  · exact converted_map (by rw [hx]; rfl) h
  · exact converted_map (by rw [hu]; rfl) h
  · exact converted_map (by rw [hd]; rfl) h
  · obtain rfl := Option.some_inj.1 h
    exact converted_took (by rw [hc]; rfl) _
  · exact converted_map (by rw [hs]; rfl) h
  · obtain rfl := Option.some_inj.1 h
    refine ⟨rfl, rfl, ?_⟩
    have hno : Scan.takesArg char = false := by
      simp [Scan.takesArg, hx, hu, hd, hc, hs]
    rw [hno]
    rfl

/-- The switch has a result: numbers are formatted, and a string argument ends. -/
theorem switch_some (hfuel : 33 ≤ fuel) (hchar : c.format s.buf = char) (hhash : char ≠ hashSign)
    (hstr : char = letterS → ∃ j ≤ fuel, c.mem ((c.args s.esp).toNat + j) = 0) :
    ∃ s', formatCharSwitch fuel c (jumps + 1) alternate s = some s' := by
  simp only [formatCharSwitch, hchar, if_neg hhash]
  split_ifs with hpercent hx hu hd hc hs
  · exact ⟨_, rfl⟩
  · cases alternate with
    | false => exact ⟨_, by rw [convX_plain (by omega), Option.map_some]⟩
    | true => exact ⟨_, by rw [convX_alternate (by omega), Option.map_some]⟩
  · exact ⟨_, by rw [convU_eq (by omega), Option.map_some]⟩
  · by_cases hneg : (c.args s.esp).toInt < 0
    · exact ⟨_, by rw [convD_neg hneg hfuel, Option.map_some]⟩
    · exact ⟨_, by rw [convD_nonneg hneg (by omega), Option.map_some]⟩
  · exact ⟨_, rfl⟩
  · obtain ⟨j, hle, hj⟩ := hstr hs
    obtain ⟨out, hout⟩ := puts_ends hj hle
    exact ⟨_, by rw [hout, Option.map_some]⟩
  · exact ⟨_, rfl⟩

theorem switch_hash (hchar : c.format s.buf = hashSign) :
    formatCharSwitch fuel c (jumps + 1) alternate s =
      formatCharSwitch fuel c jumps true s.read.next := by
  simp only [formatCharSwitch, hchar]
  rfl

end Specifiers

/-! ### The loop -/

section Loop

variable {rounds : ℕ}

theorem printfLoop_nul (h : c.format s.buf = 0) (rounds : ℕ) :
    printfLoop fuel c (rounds + 1) s = some s.read := by
  simp only [printfLoop, h]
  rfl

theorem printfLoop_percent (h : c.format s.buf = percentSign) (rounds : ℕ) :
    printfLoop fuel c (rounds + 1) s =
      (formatCharSwitch fuel c fuel false s.read.next).bind fun s =>
        printfLoop fuel c rounds s.next := by
  simp only [printfLoop, h]
  rfl

theorem printfLoop_char (h : c.format s.buf = char) (h0 : char ≠ 0) (hp : char ≠ percentSign)
    (rounds : ℕ) :
    printfLoop fuel c (rounds + 1) s = printfLoop fuel c rounds (s.read.put [char]).next := by
  simp only [printfLoop, h, if_neg h0, if_neg hp]

/-- What is left of a call: the loop, or the switch and the loop behind it. -/
def resume (fuel : ℕ) (c : PrintfCall) (inside : Bool) (jumps rounds : ℕ) (alternate : Bool)
    (s : PrintfState) : Option PrintfState :=
  if inside then
    (formatCharSwitch fuel c jumps alternate s).bind fun s => printfLoop fuel c rounds s.next
  else printfLoop fuel c rounds s

/-- One byte of the format has been dealt with. -/
structure Advanced (q : Scan) (char : UInt8) (s s' : PrintfState) : Prop where
  buf_eq : s'.buf = s.buf + 1
  reads_eq : s'.reads = s.reads ++ [s.buf]
  esp_eq : q.args = s.esp → (q.next char).args = s'.esp

/-- **One byte**, in the loop or in the switch: the call goes on as the scan says. -/
theorem resume_step {n jumps : ℕ} {alternate : Bool} {q : Scan} (hchar : c.format s.buf = char)
    (h0 : char ≠ 0) (hfuel : n ≤ fuel) (hjumps : n ≤ jumps) (hrounds : n ≤ rounds)
    (hswitch : q.inside = true → char ≠ hashSign →
      ∃ s', formatCharSwitch fuel c (jumps + 1) alternate s = some s') :
    ∃ j ≥ n, ∃ r ≥ n, ∃ b s', Advanced q char s s' ∧
      resume fuel c q.inside (jumps + 1) (rounds + 1) alternate s =
        resume fuel c (q.next char).inside j r b s' := by
  have hrounds' : n ≤ rounds + 1 := hrounds.trans (Nat.le_succ rounds)
  cases hin : q.inside with
  | false =>
    have hnext : q.next char = { q with inside := char == percentSign } := Scan.next_outside hin
    by_cases hp : char = percentSign
    · have hinside : (q.next char).inside = true := by rw [hnext, hp]; rfl
      refine ⟨fuel, hfuel, rounds, hrounds, false, s.read.next, ⟨rfl, rfl, ?_⟩, ?_⟩
      · rw [hnext]
        exact id
      · rw [hinside]
        exact printfLoop_percent (hchar.trans hp) rounds
    · have hinside : (q.next char).inside = false := by
        rw [hnext]
        exact beq_false_of_ne hp
      refine ⟨jumps, hjumps, rounds, hrounds, false, (s.read.put [char]).next,
        ⟨rfl, rfl, ?_⟩, ?_⟩
      · rw [hnext]
        exact id
      · rw [hinside]
        exact printfLoop_char hchar h0 hp rounds
  | true =>
    by_cases hhash : char = hashSign
    · have hnext : q.next char = q := by rw [hhash, Scan.next_hash hin]
      refine ⟨jumps, hjumps, rounds + 1, hrounds', true, s.read.next, ⟨rfl, rfl, ?_⟩, ?_⟩
      · rw [hnext]
        exact id
      · rw [hnext, hin, resume, resume, if_pos rfl, if_pos rfl, switch_hash (hchar.trans hhash)]
    · -- the end of the conversion: the loop goes on behind the specifier
      obtain ⟨s', hs'⟩ := hswitch hin hhash
      have hconv := switch_converted hchar hhash hs'
      have hnext := Scan.next_specifier hin hhash
      refine ⟨jumps, hjumps, rounds + 1, hrounds', alternate, s'.next,
        ⟨congrArg (· + 1) hconv.buf_eq, hconv.reads_eq, fun hesp => ?_⟩, ?_⟩
      · rw [hnext]
        show _ = s'.esp
        rw [hconv.esp_eq, hesp]
      · have hinside : (q.next char).inside = false := by rw [hnext]
        rw [hinside, resume, if_pos rfl, hs', Option.bind_some]
        rfl

/-- The run from `s` to `t` ended at position `len` and read nothing behind it. -/
structure Stopped (len : ℕ) (s t : PrintfState) : Prop where
  buf_eq : t.buf = len
  reads_le : ∀ i ∈ t.reads, i ∈ s.reads ∨ i ≤ len

theorem Stopped.of_reads {len : ℕ} (h : Stopped len s' t) (hreads : s'.reads = s.reads ++ [s.buf])
    (hbuf : s.buf ≤ len) : Stopped len s t where
  buf_eq := h.buf_eq
  reads_le i hi := by
    rcases h.reads_le i hi with hi | hi
    · rw [hreads, List.mem_append, List.mem_singleton] at hi
      rcases hi with hi | rfl
      · exact Or.inl hi
      · exact Or.inr hbuf
    · exact Or.inr hi

/-- At the NUL, outside every conversion. -/
theorem stopped_nul (s : PrintfState) : Stopped s.buf s s.read where
  buf_eq := rfl
  reads_le i hi := by
    rcases List.mem_append.1 hi with hi | hi
    · exact Or.inl hi
    · exact Or.inr (List.mem_singleton.1 hi).le

/-- The string arguments taken so far end within the fuel. -/
def StringsEnd (fuel : ℕ) (c : PrintfCall) (strings : List ℕ) : Prop :=
  ∀ i ∈ strings, ∃ j ≤ fuel, c.mem ((c.args i).toNat + j) = 0

/-- **The rest of a format that ends outside every conversion** is read up to its NUL. -/
theorem stops (hfuel : 33 ≤ fuel) {q : Scan} {jumps : ℕ} {alternate : Bool}
    (hrest : Rest c s.buf rest) (hesp : q.args = s.esp)
    (hstr : StringsEnd fuel c (q.after rest).strings) (hlen : rest.length < fuel)
    (hjumps : rest.length < jumps) (hrounds : rest.length < rounds)
    (hend : (q.after rest).inside = false) :
    ∃ t, resume fuel c q.inside jumps rounds alternate s = some t ∧
      Stopped (s.buf + rest.length) s t := by
  induction rest generalizing s q jumps rounds alternate with
  | nil =>
    have hout : q.inside = false := hend
    obtain ⟨r, rfl⟩ : ∃ r, rounds = r + 1 := ⟨rounds - 1, by omega⟩
    rw [hout]
    exact ⟨s.read, printfLoop_nul hrest.nul r, stopped_nul s⟩
  | cons char rest ih =>
    rw [List.length_cons] at hlen hjumps hrounds
    obtain ⟨j, rfl⟩ : ∃ j, jumps = j + 1 := ⟨jumps - 1, by omega⟩
    obtain ⟨r, rfl⟩ : ∃ r, rounds = r + 1 := ⟨rounds - 1, by omega⟩
    have hswitch : q.inside = true → char ≠ hashSign →
        ∃ s', formatCharSwitch fuel c (j + 1) alternate s = some s' := by
      intro hin hhash
      refine switch_some hfuel hrest.head hhash fun hS => ?_
      subst hS
      rw [← hesp]
      exact hstr _ (Scan.strings_after _ rest (Scan.args_mem_strings hin))
    have hj : rest.length + 1 ≤ j := by omega
    have hr : rest.length + 1 ≤ r := by omega
    obtain ⟨j', hj', r', hr', b, s', hadv, heq⟩ := resume_step hrest.head hrest.head_ne hlen.le hj
      hr hswitch
    have hrest' : Rest c s'.buf rest := by
      rw [hadv.buf_eq]
      exact hrest.tail
    obtain ⟨t, hrun, ht⟩ : ∃ t, resume fuel c (q.next char).inside j' r' b s' = some t ∧
        Stopped (s'.buf + rest.length) s' t :=
      ih hrest' (hadv.esp_eq hesp) hstr (by omega) hj' hr' hend
    have hshift : s.buf + (char :: rest).length = s'.buf + rest.length := by
      rw [hadv.buf_eq, List.length_cons]
      omega
    rw [hshift]
    exact ⟨t, heq.trans hrun, ht.of_reads hadv.reads_eq (by omega)⟩

/-! ### Beyond the end -/

/-- The positions read before stay recorded. -/
theorem switch_reads {jumps : ℕ} {alternate : Bool}
    (h : formatCharSwitch fuel c jumps alternate s = some s') : ∀ i ∈ s.reads, i ∈ s'.reads := by
  induction jumps generalizing s alternate with
  | zero => simp [formatCharSwitch] at h
  | succ jumps ih =>
    intro i hi
    by_cases hhash : c.format s.buf = hashSign
    · rw [switch_hash hhash] at h
      exact ih h i (List.mem_append_left _ hi)
    · rw [(switch_converted rfl hhash h).reads_eq]
      exact List.mem_append_left _ hi

theorem printfLoop_reads (h : printfLoop fuel c rounds s = some t) :
    s.buf ∈ t.reads ∧ ∀ i ∈ s.reads, i ∈ t.reads := by
  induction rounds generalizing s with
  | zero => simp [printfLoop] at h
  | succ rounds ih =>
    have hread : ∀ {u : PrintfState}, (∀ i ∈ s.read.reads, i ∈ u.reads) →
        s.buf ∈ u.reads ∧ ∀ i ∈ s.reads, i ∈ u.reads := fun hu =>
      ⟨hu _ (List.mem_append_right _ (List.mem_singleton_self _)),
        fun i hi => hu i (List.mem_append_left _ hi)⟩
    by_cases h0 : c.format s.buf = 0
    · rw [printfLoop_nul h0] at h
      obtain rfl := Option.some_inj.1 h
      exact hread fun _ hi => hi
    by_cases hp : c.format s.buf = percentSign
    · rw [printfLoop_percent hp] at h
      obtain ⟨s', hs', hrun⟩ := Option.bind_eq_some_iff.1 h
      exact hread fun i hi => (ih hrun).2 i (switch_reads hs' i hi)
    · rw [printfLoop_char rfl h0 hp] at h
      exact hread fun i hi => (ih h).2 i hi

/-- A call that ends has fuel left for the next byte. -/
theorem resume_fuel {inside alternate : Bool} {jumps : ℕ}
    (h : resume fuel c inside jumps rounds alternate s = some t) :
    ∃ j r, resume fuel c inside (j + 1) (r + 1) alternate s = some t := by
  cases rounds with
  | zero => cases inside <;> simp [resume, printfLoop] at h
  | succ r =>
    cases inside with
    | false => exact ⟨0, r, h⟩
    | true =>
      cases jumps with
      | zero => simp [resume, formatCharSwitch] at h
      | succ j => exact ⟨j, r, h⟩

/-- **A format that ends inside a conversion** is read behind its NUL, whatever stands there. -/
theorem reads_behind {q : Scan} {jumps : ℕ} {alternate : Bool} (hrest : Rest c s.buf rest)
    (hend : (q.after rest).inside = true)
    (h : resume fuel c q.inside jumps rounds alternate s = some t) :
    s.buf + rest.length + 1 ∈ t.reads := by
  induction rest generalizing s q jumps rounds alternate with
  | nil =>
    have hin : q.inside = true := hend
    obtain ⟨j, r, h⟩ := resume_fuel h
    rw [hin, resume, if_pos rfl] at h
    obtain ⟨s', hs', hrun⟩ := Option.bind_eq_some_iff.1 h
    -- the switch finds the NUL and steps over it
    have hconv := switch_converted hrest.nul (by decide) hs'
    have hbehind := (printfLoop_reads hrun).1
    rwa [show s'.next.buf = s.buf + 0 + 1 by rw [← hconv.buf_eq]; rfl] at hbehind
  | cons char rest ih =>
    obtain ⟨j, r, h⟩ := resume_fuel h
    have hswitch : q.inside = true → char ≠ hashSign →
        ∃ s', formatCharSwitch fuel c (j + 1) alternate s = some s' := by
      intro hin _
      rw [hin, resume, if_pos rfl] at h
      obtain ⟨s', hs', -⟩ := Option.bind_eq_some_iff.1 h
      exact ⟨s', hs'⟩
    obtain ⟨j', -, r', -, b, s', hadv, heq⟩ := resume_step hrest.head hrest.head_ne
      (Nat.zero_le _) (Nat.zero_le _) (Nat.zero_le _) hswitch
    have hrest' : Rest c s'.buf rest := by
      rw [hadv.buf_eq]
      exact hrest.tail
    have hmem := ih (q := q.next char) hrest' hend (heq.symm.trans h)
    have hshift : s.buf + (char :: rest).length + 1 = s'.buf + rest.length + 1 := by
      rw [hadv.buf_eq, List.length_cons]
      omega
    rwa [hshift]

end Loop

end Runs

/-! ### Whole formats -/

/-- With enough fuel the call ends, returns the length of the format, and has read no byte behind
its NUL. -/
def StopsAtEnd (c : PrintfCall) (len : ℕ) : Prop :=
  ∃ N, ∀ fuel ≥ N, ∃ t, printf fuel c = some t ∧ t.buf = len ∧ ∀ i ∈ t.reads, i ≤ len

/-- The last byte of the format is a `%`, or a `#` behind one, that begins a conversion. -/
def EndsInside (format : CString) : Prop := (Scan.start.after format.bytes).inside = true

/-- The arguments that the format takes for strings. -/
def stringArgs (format : CString) : List ℕ := (Scan.start.after format.bytes).strings

section Formats

variable {c : PrintfCall} {format : CString}

theorem rest_format (h : ∀ i ≤ format.bytes.length, c.format i = format.mem i) :
    Rest c 0 format.bytes where
  byte i hi := by
    rw [Nat.zero_add, h i hi]
    rfl
  noNul := format.noNul

/-- One bound for the lengths of finitely many strings. -/
theorem exists_stringsEnd {strings : List ℕ}
    (h : ∀ i ∈ strings, ∃ j, c.mem ((c.args i).toNat + j) = 0) :
    ∃ J, ∀ fuel ≥ J, StringsEnd fuel c strings := by
  induction strings with
  | nil => exact ⟨0, fun _ _ i hi => by cases hi⟩
  | cons a strings ih =>
    obtain ⟨J, hJ⟩ := ih fun i hi => h i (List.mem_cons_of_mem _ hi)
    obtain ⟨j, hj⟩ := h a List.mem_cons_self
    refine ⟨max J j, fun fuel hfuel i hi => ?_⟩
    rcases List.mem_cons.1 hi with rfl | hi
    · exact ⟨j, (le_max_right J j).trans hfuel, hj⟩
    · exact hJ fuel ((le_max_left J j).trans hfuel) i hi

theorem stopsAtEnd_of_outside (hformat : ∀ i ≤ format.bytes.length, c.format i = format.mem i)
    (hstrings : ∀ i ∈ stringArgs format, ∃ j, c.mem ((c.args i).toNat + j) = 0)
    (h : ¬ EndsInside format) : StopsAtEnd c format.bytes.length := by
  obtain ⟨J, hJ⟩ := exists_stringsEnd hstrings
  refine ⟨33 + format.bytes.length + 1 + J, fun fuel hfuel => ?_⟩
  have hrest : Rest c PrintfState.start.buf format.bytes := rest_format hformat
  obtain ⟨t, hrun, ht⟩ : ∃ t, resume fuel c Scan.start.inside fuel fuel false .start = some t ∧
      Stopped (PrintfState.start.buf + format.bytes.length) .start t :=
    stops (by omega) hrest rfl (hJ fuel (by omega)) (by omega) (by omega) (by omega)
      (Bool.eq_false_of_not_eq_true h)
  have hlen : PrintfState.start.buf + format.bytes.length = format.bytes.length := Nat.zero_add _
  rw [hlen] at ht
  refine ⟨t, hrun, ht.buf_eq, fun i hi => ?_⟩
  rcases ht.reads_le i hi with hi | hi
  · cases hi
  · exact hi

theorem not_stopsAtEnd_of_inside (hformat : ∀ i ≤ format.bytes.length, c.format i = format.mem i)
    (h : EndsInside format) : ¬ StopsAtEnd c format.bytes.length := by
  rintro ⟨N, hN⟩
  obtain ⟨t, hrun, -, hreads⟩ := hN N le_rfl
  have hrest : Rest c PrintfState.start.buf format.bytes := rest_format hformat
  have hresume : resume N c Scan.start.inside 0 N false .start = some t := hrun
  have hle := hreads _ (reads_behind hrest h hresume)
  have hbuf : PrintfState.start.buf = 0 := rfl
  omega

/-- **`printf` stops at the end of its format** unless the format ends inside a conversion. -/
theorem stopsAtEnd_iff (hformat : ∀ i ≤ format.bytes.length, c.format i = format.mem i)
    (hstrings : ∀ i ∈ stringArgs format, ∃ j, c.mem ((c.args i).toNat + j) = 0) :
    StopsAtEnd c format.bytes.length ↔ ¬ EndsInside format :=
  ⟨fun h hin => not_stopsAtEnd_of_inside hformat hin h, stopsAtEnd_of_outside hformat hstrings⟩

end Formats

/-- The format `%s#`, a call with the address of an empty string. -/
def stringFormat : CString where
  bytes := [percentSign, letterS, hashSign]
  noNul := by simp [percentSign, letterS, hashSign]
  short := by simp

theorem stopsAtEnd_iff_string :
    StopsAtEnd ⟨stringFormat.mem, fun _ => 0, fun _ => 0, fun _ _ => 0⟩ 3 ↔
      ¬ EndsInside stringFormat :=
  @stopsAtEnd_iff _ stringFormat (fun _ _ => rfl) fun _ _ => ⟨0, rfl⟩

/-- The format `%`. -/
def percentFormat : CString where
  bytes := [percentSign]
  noNul := by simp [percentSign]
  short := by simp

/-- A call with that format; the string `A` stands behind it in memory. -/
def percentCall : PrintfCall where
  format := textMem [percentSign, 0, 0x41]
  args _ := 0
  mem _ := 0
  convBuf _ _ := 0

/-- `printf` steps over the NUL, prints what stands behind it, and returns 3 instead of 1. -/
theorem percent_runs_on : (∀ i ≤ 1, percentCall.format i = percentFormat.mem i) ∧
    stringArgs percentFormat = [] ∧ printf 4 percentCall = some ⟨3, 0, [0x41], [0, 1, 2, 3]⟩ ∧
    ¬ StopsAtEnd percentCall 1 := by
  have hformat : ∀ i ≤ 1, percentCall.format i = percentFormat.mem i := by
    intro i hi
    interval_cases i <;> rfl
  exact ⟨hformat, rfl, rfl, @not_stopsAtEnd_of_inside percentCall percentFormat hformat rfl⟩

end LinuxIsLove.Lib
