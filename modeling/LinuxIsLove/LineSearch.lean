import LinuxIsLove.UserPrograms

/-!
# `grep`

`do_one_file` reads a file in pieces into an array of 1024 bytes and moves a line that is not
complete to the start of the array.  Whatever the file holds, it writes lines that start with the
name of the file, and comes to its end.  For a text whose lines fit into the array these are the
lines in which the pattern occurs, in order.

The byte behind the array is read before it is written.  If it happens to be a newline, a line of a
long file may be cut in two, so it is part of the condition on the text.
-/

namespace LinuxIsLove

open Bytes EventMachine Clients

/-! ### The lines of a text -/

/-- The lines in which the pattern occurs.  The empty pattern occurs nowhere. -/
def foundLines (s c : List UInt8) : List (List UInt8) :=
  (c.splitOn newline).filter fun l => s ≠ [] ∧ s <:+: l

/-- What `grep` writes for a line. -/
def grepLine (fname l : List UInt8) : List UInt8 := fname ++ ascii ":" ++ l ++ ascii "\n"

/-- A text of which every line fits into the array. -/
structure Plain (c : List UInt8) : Prop where
  noNul : 0 ∉ c
  short : ∀ l ∈ c.splitOn newline, l.length ≤ bufSize

section Lines

variable {s x y : List UInt8}

theorem foundLines_line (hx : newline ∉ x) :
    foundLines s x = if s ≠ [] ∧ s <:+: x then [x] else [] := by
  rw [foundLines, List.splitOn_eq_singleton hx, List.filter_cons]
  simp only [decide_eq_true_eq, List.filter_nil]

@[simp] theorem foundLines_nil : foundLines s [] = [] := by
  rw [foundLines_line List.not_mem_nil, if_neg]
  rintro ⟨hs, hinfix⟩
  exact hs (List.infix_nil.1 hinfix)

theorem foundLines_append_newline (hx : newline ∉ x) :
    foundLines s (x ++ newline :: y) = foundLines s x ++ foundLines s y := by
  rw [foundLines_line hx, foundLines, foundLines, List.splitOn_append_cons_self_of_not_mem hx,
    List.filter_cons]
  simp only [decide_eq_true_eq]
  split_ifs <;> rfl

/-- A line that ends where the rest starts with a newline, or where there is no rest. -/
theorem foundLines_append (hx : newline ∉ x) (hy : y = [] ∨ ∃ z, y = newline :: z) :
    foundLines s (x ++ y) = foundLines s x ++ foundLines s y := by
  rcases hy with rfl | ⟨z, rfl⟩
  · rw [List.append_nil, foundLines_nil, List.append_nil]
  · have hempty : foundLines s ([] ++ newline :: z) = foundLines s [] ++ foundLines s z :=
      foundLines_append_newline List.not_mem_nil
    rw [List.nil_append, foundLines_nil, List.nil_append] at hempty
    rw [foundLines_append_newline hx, hempty]

theorem plain_append_newline (hx : newline ∉ x) (h : Plain (x ++ newline :: y)) :
    Plain y ∧ x.length ≤ bufSize := by
  have hshort := h.short
  rw [List.splitOn_append_cons_self_of_not_mem hx, List.forall_mem_cons] at hshort
  refine ⟨⟨fun h0 => h.noNul ?_, hshort.2⟩, hshort.1⟩
  exact List.mem_append_right _ (List.mem_cons_of_mem _ h0)

/-- A full array without a newline ends where its line does. -/
theorem Plain.full (hx : newline ∉ x) (hlen : x.length = bufSize) (h : Plain (x ++ y)) :
    y = [] ∨ ∃ z, y = newline :: z := by
  obtain ⟨l, z, hy, hl⟩ : ∃ l z, (y = l ∨ y = l ++ newline :: z) ∧ newline ∉ l := by
    by_cases hmem : newline ∈ y
    · obtain ⟨l, z, rfl, hl⟩ := List.eq_append_cons_of_mem hmem
      exact ⟨l, z, Or.inr rfl, hl⟩
    · exact ⟨y, [], Or.inl rfl, hmem⟩
  have hxl : newline ∉ x ++ l := by
    rw [List.mem_append]
    exact not_or.2 ⟨hx, hl⟩
  have hle : (x ++ l).length ≤ bufSize := by
    rcases hy with rfl | rfl
    · exact h.short _ (by rw [List.splitOn_eq_singleton hxl]; exact List.mem_singleton_self _)
    · rw [← List.append_assoc] at h
      exact (plain_append_newline hxl h).2
  have hnil : l = [] := by
    rw [List.length_append] at hle
    exact List.eq_nil_of_length_eq_zero (by omega)
  subst hnil
  rcases hy with rfl | rfl
  · exact Or.inl rfl
  · exact Or.inr ⟨z, rfl⟩

theorem Plain.rest (hx : newline ∉ x) (hy : y = [] ∨ ∃ z, y = newline :: z) (h : Plain (x ++ y)) :
    Plain y := by
  refine ⟨fun h0 => h.noNul (List.mem_append_right _ h0), ?_⟩
  rcases hy with rfl | ⟨z, rfl⟩
  · simp
  · have hz := (plain_append_newline hx h).1
    have hnil : newline ∉ ([] : List UInt8) := List.not_mem_nil
    have hsplit : (newline :: z).splitOn newline = [] :: z.splitOn newline :=
      List.splitOn_append_cons_self_of_not_mem hnil z
    rw [hsplit, List.forall_mem_cons]
    exact ⟨Nat.zero_le _, hz.short⟩

end Lines

/-! ### One line -/

section OneLine

variable {s x : List UInt8} {sm data : Memory} {n p : ℕ}

/-- Where the line ends that starts at `p`, with `n` bytes to the end of the array. -/
theorem lineEndLoop_spec (data : Memory) (n p : ℕ) :
    ∃ m ≤ n, lineEndLoop data n p = p + m ∧ newline ∉ bytesAt data p m ∧
      (m < n → data (p + m) = newline) := by
  induction n generalizing p with
  | zero => exact ⟨0, le_rfl, rfl, List.not_mem_nil, fun h => absurd h (Nat.lt_irrefl 0)⟩
  | succ n ih =>
    rw [lineEndLoop]
    by_cases hp : data p = newline
    · rw [if_neg (not_not.2 hp)]
      exact ⟨0, Nat.zero_le _, rfl, List.not_mem_nil, fun _ => hp⟩
    · rw [if_pos hp]
      obtain ⟨m, hm, heq, hnot, hend⟩ := ih (p + 1)
      have hcons : bytesAt data p (1 + m) = [data p] ++ bytesAt data (p + 1) m :=
        bytesAt_add data p 1 m
      refine ⟨1 + m, by omega, by omega, ?_, fun h => ?_⟩
      · rw [hcons, List.mem_append, List.mem_singleton]
        exact not_or.2 ⟨fun h => hp h.symm, hnot⟩
      · rw [← Nat.add_assoc]
        exact hend (by omega)

theorem lineMatches_iff {sLen : ℕ} :
    lineMatches sm data sLen n p = true ↔
      ∃ j < n, sm 0 = data (p + j) ∧ ece391Strncmp data (p + j) sm 0 sLen = 0 := by
  induction n generalizing p with
  | zero => simp [lineMatches]
  | succ n ih =>
    rw [lineMatches, decide_eq_true_eq, ih]
    constructor
    · rintro (h | ⟨j, hj, h⟩)
      · exact ⟨0, Nat.succ_pos n, h⟩
      · exact ⟨1 + j, by omega, by rwa [← Nat.add_assoc]⟩
    · rintro ⟨j, hj, h⟩
      cases j with
      | zero => exact Or.inl h
      | succ j => exact Or.inr ⟨j, by omega, by rwa [Nat.add_assoc, Nat.add_comm 1 j]⟩

/-- The pattern occurs in a line without a NUL: the comparison stops at the NUL that ends it. -/
theorem lineMatches_text (hs : cstring sm 0 = s) (hlen : s.length < 2 ^ 32)
    (hx : bytesAt data p n = x) (h0 : 0 ∉ x) (hend : data (p + n) = 0) :
    lineMatches sm data s.length n p = true ↔ s ≠ [] ∧ s <:+: x := by
  have hget : ∀ k (hk : k < s.length), sm (0 + k) = s[k] := by
    intro k hk
    subst hs
    exact (getElem_bytesAt hk).symm
  have hnz : ∀ k < s.length, sm (0 + k) ≠ 0 := by
    intro k hk hz
    rw [hget k hk] at hz
    exact zero_not_mem_cstring sm 0 (hs ▸ hz ▸ List.getElem_mem hk)
  have hxlen : x.length = n := by rw [← hx, length_bytesAt]
  have hxget : ∀ k < n, x[k]? = some (data (p + k)) := (bytesAt_eq_iff.1 hx).2
  rw [lineMatches_iff, List.infix_iff_getElem?]
  constructor
  · rintro ⟨j, hj, hfirst, hcmp⟩
    rw [ece391Strncmp_eq_zero hnz] at hcmp
    have hne : s ≠ [] := by
      rintro rfl
      have hzero : sm (0 + 0) = 0 := by
        have h := cstring_end (m := sm) (p := 0) (by rw [hs]; exact hlen)
        rwa [hs] at h
      refine h0 (List.mem_of_getElem? (i := j) ?_)
      rw [hxget j hj, ← hfirst]
      exact congrArg some hzero
    have hfit : s.length + j ≤ n := by
      -- the pattern has no byte that is equal to the NUL
      by_contra hlong
      have hin : n - j < s.length := by omega
      have hz := hcmp (n - j) hin
      rw [Nat.add_assoc, Nat.add_sub_cancel' hj.le, hend] at hz
      exact hnz _ hin hz.symm
    refine ⟨hne, j, by omega, fun i hi => ?_⟩
    have hbyte := hcmp i hi
    rw [hxget _ (by omega), ← hget i hi, ← hbyte, Nat.add_comm i j, Nat.add_assoc]
  · rintro ⟨hne, j, hj, hat⟩
    have hpos : 0 < s.length := List.length_pos_of_ne_nil hne
    have hbyte : ∀ k (hk : k < s.length), data (p + j + k) = sm (0 + k) := by
      intro k hk
      have h := hat k hk
      rw [hxget _ (by omega), Option.some.injEq] at h
      rw [hget k hk, ← h, Nat.add_assoc, Nat.add_comm j k]
    exact ⟨j, by omega, (hbyte 0 hpos).symm, (ece391Strncmp_eq_zero hnz).2 hbyte⟩

end OneLine

/-! ### Searching an array -/

/-- The process `u` with the handle `h` behind the descriptor 3, after it has written `w`. -/
def View.reading (u : View) (h : Handle) (w : List UInt8) : View :=
  { u.set 3 h with written := u.written ++ w }

section Search

variable {dir : List DirEntry} {u : View} {h : Handle} {w s f : List UInt8} {sm fm data : Memory}

@[simp] theorem View.reading_file : (u.reading h w).file 3 = h := by
  rw [View.file, if_pos (by decide)]
  show Function.update u.handle 3 h 3 = h
  rw [Function.update_self]

@[simp] theorem View.reading_written : (u.reading h w).written = u.written ++ w := rfl

theorem View.reading_write (l : List UInt8) :
    { u.reading h w with written := (u.reading h w).written ++ l } = u.reading h (w ++ l) := by
  simp only [View.reading, List.append_assoc]

theorem View.reading_set (h' : Handle) : (u.reading h w).set 3 h' = u.reading h' w := by
  simp only [View.reading, View.set, Function.update_idem]

theorem meets_fdputs_reading {l : List UInt8} {m : Memory} {p : ℕ} {post : View → Unit → Prop}
    (hl : cstring m p = l) (hlen : l.length < 2 ^ 31) (hpost : post (u.reading h (w ++ l)) ()) :
    Runs dir (ece391Fdputs 1 m p) post (u.reading h w) := by
  refine meets_fdputs hl hlen ?_
  rwa [View.reading_write]

/-- The line that is written for the line from `p` on, if there is one. -/
def shown (sm data : Memory) (sLen p q : ℕ) : List (List UInt8) :=
  if lineMatches sm data sLen (q - p) p then [cstring data p] else []

/-- A line without a NUL is written as it is. -/
theorem shown_text {x : List UInt8} {p n : ℕ} (hs : cstring sm 0 = s) (hlen : s.length < 2 ^ 32)
    (hn : n < 2 ^ 32) (hx : bytesAt data p n = x) (h0 : 0 ∉ x) (hline : newline ∉ x)
    (hend : data (p + n) = 0) : shown sm data s.length p (p + n) = foundLines s x := by
  have hstring : cstring data p = x := by
    rw [cstring_eq hn (fun b hb hz => h0 (hx ▸ hz ▸ hb)) hend, hx]
  rw [shown, foundLines_line hline, Nat.add_sub_cancel_left, hstring]
  simp only [lineMatches_text hs hlen hx h0 hend]

theorem meets_checkLine {p n : ℕ} {post : View → Unit → Prop} (hf : cstring fm 0 = f)
    (hflen : f.length < 2 ^ 31) (hn : n < 2 ^ 31) (hend : data (p + n) = 0)
    (hpost : post (u.reading h (w ++ (shown sm data s.length p (p + n)).flatMap (grepLine f))) ()) :
    Runs dir (checkLine sm fm data s.length p (p + n)) post (u.reading h w) := by
  unfold checkLine
  unfold shown at hpost
  split_ifs at hpost ⊢
  · have hcolon : cstring (literal ":") 0 = ascii ":" :=
      cstring_literal (by decide +kernel) (by decide +kernel)
    have hlf : cstring (literal "\n") 0 = ascii "\n" :=
      cstring_literal (by decide +kernel) (by decide +kernel)
    have hline : (cstring data p).length < 2 ^ 31 := lt_of_le_of_lt (length_cstring_le hend) hn
    refine meets_bind.2 (meets_fdputs_reading hf hflen ?_)
    refine meets_bind.2 (meets_fdputs_reading hcolon (by decide +kernel) ?_)
    refine meets_bind.2 (meets_fdputs_reading rfl hline ?_)
    refine meets_fdputs_reading hlf (by decide +kernel) ?_
    rw [List.flatMap_cons, List.flatMap_nil, List.append_nil, grepLine] at hpost
    simpa only [List.append_assoc] using hpost
  · rw [List.flatMap_nil, List.append_nil] at hpost
    exact hpost

/-- The lines `ls` of the text `c` have been written, and `g` is still to be searched. -/
def Going (T : Prop) (s c : List UInt8) (ls : List (List UInt8)) (g : List UInt8) : Prop :=
  T → Plain g ∧ foundLines s c = ls ++ foundLines s g

section Going

variable {T : Prop} {c x g : List UInt8} {ls px : List (List UInt8)}

theorem Going.line (h : Going T s c ls (x ++ newline :: g)) (hx : newline ∉ x)
    (hpx : 0 ∉ x → px = foundLines s x) : Going T s c (ls ++ px) g := by
  intro hT
  obtain ⟨hplain, hfound⟩ := h hT
  have h0 : 0 ∉ x := fun h0 => hplain.noNul (List.mem_append_left _ h0)
  refine ⟨(plain_append_newline hx hplain).1, ?_⟩
  rw [hfound, foundLines_append_newline hx, hpx h0, List.append_assoc]

theorem Going.last (h : Going T s c ls (x ++ g)) (hx : newline ∉ x)
    (hpx : 0 ∉ x → px = foundLines s x)
    (hg : T → Plain (x ++ g) → g = [] ∨ ∃ z, g = newline :: z) : Going T s c (ls ++ px) g := by
  intro hT
  obtain ⟨hplain, hfound⟩ := h hT
  have h0 : 0 ∉ x := fun h0 => hplain.noNul (List.mem_append_left _ h0)
  refine ⟨hplain.rest hx (hg hT hplain), ?_⟩
  rw [hfound, foundLines_append hx (hg hT hplain), hpx h0, List.append_assoc]

end Going

/-- The line from `p` on is moved to the start of the array. -/
theorem strcpy_line {p n : ℕ} (hp : p ≠ 0) (hle : p + n ≤ bufSize) (hend : data (p + n) = 0) :
    ece391Strcpy data 0 p bufSize = data bufSize ∧
      (0 ∉ bytesAt data p n → bytesAt (ece391Strcpy data 0 p) 0 n = bytesAt data p n) := by
  have hbuf : bufSize = 1024 := rfl
  have hshort : (cstring data p).length ≤ n := length_cstring_le hend
  have hcopy : ece391Strcpy data 0 p =
      blockSet data 0 (window data p) ((cstring data p).length + 1) := by
    refine strcpyAt_eq (Nat.zero_le p) (fun i hi => ?_) (cstring_end (by omega)) (by omega)
    rw [length_cstring] at hi
    exact strlen_ne_zero hi
  rw [hcopy]
  refine ⟨blockSet_of_not _ _ (by omega), fun h0 => ?_⟩
  have hstring : cstring data p = bytesAt data p n :=
    cstring_eq (by omega) (fun b hb hz => h0 (hz ▸ hb)) hend
  refine bytesAt_congr fun i hi => ?_
  have hlen : i < (cstring data p).length + 1 := by
    rw [hstring, length_bytesAt]
    omega
  exact blockSet_of_lt data 0 (window data p) hlen

/-- What the loop over the lines leaves: the lines `ls` have been written, and the array `d` starts
with `last` bytes of a line that goes on. -/
structure Searched (T : Prop) (u : View) (h : Handle) (f s c rest : List UInt8) (data : Memory)
    (v : View) (d : Memory) (last : ℕ) : Prop where
  wrote : ∃ ls : List (List UInt8), v = u.reading h (ls.flatMap (grepLine f)) ∧
    Going T s c ls (bytesAt d 0 last ++ rest)
  behind : d bufSize = data bufSize ∨ d bufSize = 0
  room : last < bufSize

/-- A line that is searched although no newline follows it in the array ends there in the file, too:
the file has been read, or the line fills the array. -/
theorem line_ends {rest x : List UInt8} {last p : ℕ} {cnt : ℤ} {d : Memory} (hlast : last ≤ bufSize)
    (hend : last < bufSize ∨ cnt = 0 → rest = []) (hclean : rest = [] ∨ data bufSize ≠ newline)
    (hbehind : d bufSize = data bufSize ∨ d bufSize = 0)
    (hmove : ¬(d last ≠ newline ∧ cnt ≠ 0 ∧ p ≠ 0)) (hx : x.length = last - p) (hnot : newline ∉ x)
    (hplain : Plain (x ++ rest)) : rest = [] ∨ ∃ z, rest = newline :: z := by
  by_cases hshort : last < bufSize ∨ cnt = 0
  · exact Or.inl (hend hshort)
  have hfull : last = bufSize := by omega
  by_cases hstale : d bufSize = newline
  · refine hclean.imp id fun hne => absurd hstale ?_
    rcases hbehind with hkeep | hzero
    · rwa [hkeep]
    · rw [hzero]
      decide
  · have hp : p = 0 := by
      by_contra hp
      exact hmove ⟨hfull ▸ hstale, fun h0 => hshort (Or.inr h0), hp⟩
    refine hplain.full hnot ?_
    omega

/-- The loop over the lines of the array. -/
theorem meets_searchLines {T : Prop} {c rest : List UInt8} {ls : List (List UInt8)} {last : ℕ}
    {cnt : ℤ} {fuel : ℕ} (hs : cstring sm 0 = s) (hslen : s.length < 2 ^ 32)
    (hf : cstring fm 0 = f) (hflen : f.length < 2 ^ 31) (hlast : last ≤ bufSize)
    (hend : last < bufSize ∨ cnt = 0 → rest = [])
    (hclean : T → rest = [] ∨ data bufSize ≠ newline)
    (hgoing : Going T s c ls (bytesAt data 0 last ++ rest)) (hfuel : last < fuel) :
    Runs dir (Client.loop (searchLine sm fm s.length last cnt) fuel (data, 0))
      (fun v r => Searched T u h f s c rest data v r.1 r.2 ∧ r.2 ≤ last ∧ (cnt = 0 → r.2 = 0))
      (u.reading h (ls.flatMap (grepLine f))) := by
  have hbuf : bufSize = 1024 := rfl
  refine meets_loop (I := fun m v x => x.2 ≤ last ∧ last - x.2 = m ∧
    (∃ ls : List (List UInt8), v = u.reading h (ls.flatMap (grepLine f)) ∧
      Going T s c ls (bytesAt x.1 x.2 (last - x.2) ++ rest)) ∧
    (x.1 bufSize = data bufSize ∨ x.1 bufSize = 0)) ?_
    ⟨Nat.zero_le _, rfl, ⟨ls, rfl, hgoing⟩, Or.inl rfl⟩ hfuel
  rintro _ v ⟨d, p⟩ ⟨hp, rfl, ⟨ls, rfl, hgoing⟩, hbehind⟩
  obtain ⟨m, hm, heq, hnot, hnl⟩ := lineEndLoop_spec d (last - p) p
  dsimp only at hp hgoing hbehind
  rw [searchLine, heq]
  -- the array with the NUL at the end of the line
  obtain ⟨d', hd'⟩ : ∃ d', Function.update d (p + m) 0 = d' := ⟨_, rfl⟩
  have hz : d' (p + m) = 0 := by rw [← hd', Function.update_self]
  have hbelow : ∀ a, a ≠ p + m → d' a = d a := by
    intro a ha
    rw [← hd', Function.update_of_ne ha]
  have hline : bytesAt d' p m = bytesAt d p m := bytesAt_congr fun i hi => hbelow _ (by omega)
  have hbehind' : d' bufSize = data bufSize ∨ d' bufSize = 0 := by
    by_cases hat : bufSize = p + m
    · exact Or.inr (hat ▸ hz)
    · rwa [hbelow _ hat]
  rw [hd']
  by_cases hmove : d (p + m) ≠ newline ∧ cnt ≠ 0 ∧ p ≠ 0
  · -- the line goes on in the next piece of the file
    have hall : m = last - p := by
      by_contra hne
      exact hmove.1 (hnl (by omega))
    obtain ⟨hkeep, hcopy⟩ := strcpy_line hmove.2.2 (by omega) hz
    rw [if_pos hmove]
    have hroom : last - p < bufSize := by omega
    rw [← hkeep] at hbehind'
    refine ⟨⟨⟨ls, rfl, fun hT => ?_⟩, hbehind', hroom⟩, Nat.sub_le _ _,
      fun h0 => absurd h0 hmove.2.1⟩
    have h0 : 0 ∉ bytesAt d' p m := by
      rw [hline, hall]
      exact fun h0 => (hgoing hT).1.noNul (List.mem_append_left _ h0)
    show Plain (bytesAt _ 0 (last - p) ++ rest) ∧
      _ = ls ++ foundLines s (bytesAt _ 0 (last - p) ++ _)
    rw [← hall, hcopy h0, hline, hall]
    exact hgoing hT
  · -- the line is complete
    have hpx : 0 ∉ bytesAt d p m → shown sm d' s.length p (p + m) = foundLines s (bytesAt d p m) :=
      fun h0 => shown_text hs hslen (by omega) hline h0 hnot hz
    rw [if_neg hmove]
    refine meets_bind.2 (meets_checkLine hf hflen (by omega) hz ?_)
    rw [← List.flatMap_append]
    by_cases hmid : m < last - p
    · have hsplit : bytesAt d p (last - p) =
          bytesAt d p m ++ newline :: bytesAt d (p + m + 1) (last - (p + m + 1)) := by
        have hn : last - p = m + (1 + (last - (p + m + 1))) := by omega
        rw [hn, bytesAt_add, bytesAt_add d (p + m) 1, ← hnl hmid]
        rfl
      rw [hsplit, List.append_assoc, List.cons_append] at hgoing
      have hnext := hgoing.line hnot hpx
      split_ifs with hdone
      · have hnil : last - (p + m + 1) = 0 := by omega
        rw [hnil] at hnext
        exact ⟨⟨⟨_, rfl, hnext⟩, hbehind', by rw [hbuf]; omega⟩, Nat.zero_le _, fun _ => rfl⟩
      · refine ⟨last - (p + m + 1), by omega, by omega, rfl, ⟨_, rfl, ?_⟩, hbehind'⟩
        have hrest : bytesAt d' (p + m + 1) (last - (p + m + 1)) =
            bytesAt d (p + m + 1) (last - (p + m + 1)) :=
          bytesAt_congr fun i _ => hbelow _ (by omega)
        show Going T s c _ (bytesAt d' (p + m + 1) (last - (p + m + 1)) ++ rest)
        rwa [hrest]
    · have hall : m = last - p := by omega
      rw [if_pos (by omega)]
      rw [← hall] at hgoing
      refine ⟨⟨⟨_, rfl, hgoing.last hnot hpx fun hT hplain => ?_⟩, hbehind', by rw [hbuf]; omega⟩,
        Nat.zero_le _, fun _ => rfl⟩
      have hat : p + m = last := by omega
      rw [hat] at hmove
      exact line_ends hlast hend (hclean hT) hbehind hmove (by rw [length_bytesAt, hall]) hnot
        hplain

/-! ### Searching a file -/

/-- A file or a clock, which deliver their bytes in order. -/
def Handle.isStream : Handle → Bool
  | clock | file _ _ => true
  | _ => false

theorem Handle.isClosed_of_stream (hstream : h.isStream = true) : h.isClosed = false := by
  cases h with
  | closed | directory => exact absurd hstream Bool.false_ne_true
  | clock | file => rfl

/-- A read delivers the next bytes of a stream. -/
theorem serveRead_stream (hstream : h.isStream = true) (n : ℕ) :
    ∃ h', serveRead dir (u.reading h w) 3 n =
        (⟨((h.left dir).take n).length, (h.left dir).take n⟩, u.reading h' w) ∧
      h'.isStream = true ∧ h'.left dir = (h.left dir).drop n := by
  cases h with
  | closed | directory => exact absurd hstream Bool.false_ne_true
  | clock =>
    refine ⟨.clock, ?_, rfl, (List.drop_nil).symm⟩
    simp only [serveRead, View.reading_file, Handle.left, List.take_nil, List.length_nil,
      Nat.cast_zero]
  | file c d =>
    refine ⟨.file c (d + ((c.drop d).take n).length), ?_, rfl, ?_⟩
    · rw [serveRead_file View.reading_file]
      exact congrArg _ (View.reading_set _)
    · show c.drop (d + _) = (c.drop d).drop n
      rw [List.drop_drop, List.length_take, List.length_drop]
      by_cases hn : n ≤ c.length - d
      · rw [min_eq_left hn]
      · rw [min_eq_right (by omega), List.drop_eq_nil_of_le (by omega),
          List.drop_eq_nil_of_le (by omega)]

/-- A text that is searched line by line with an array that holds `data` before the first read. -/
structure Textual (data : Memory) (c : List UInt8) : Prop extends Plain c where
  clean : c.length ≤ bufSize ∨ data bufSize ≠ newline

/-- The loop over the file. -/
theorem meets_searchChunks {c : List UInt8} {fuel : ℕ} (hstream : h.isStream = true)
    (hc : h.left dir = c) (hs : cstring sm 0 = s) (hslen : s.length < 2 ^ 32)
    (hf : cstring fm 0 = f) (hflen : f.length < 2 ^ 31) (hfuel : c.length < fuel)
    (hroom : bufSize < fuel) :
    Runs dir (Client.loop (searchChunk sm fm s.length 3 fuel) fuel (data, 0))
      (fun v r => r = false ∧ ∃ (h' : Handle) (ls : List (List UInt8)), h'.isStream = true ∧
        v = u.reading h' (ls.flatMap (grepLine f)) ∧ (Textual data c → ls = foundLines s c))
      (u.reading h []) := by
  have hbuf : bufSize = 1024 := rfl
  refine meets_loop (I := fun m v x => ∃ h : Handle, h.isStream = true ∧ (h.left dir).length = m ∧
    x.2 + (h.left dir).length ≤ c.length ∧
    Searched (Textual data c) u h f s c (h.left dir) data v x.1 x.2) ?_
    ⟨h, hstream, rfl, by rw [hc]; exact (Nat.zero_add _).le, ⟨[], rfl, ?_⟩, Or.inl rfl,
      Nat.succ_pos _⟩ (by rwa [hc])
  · rintro _ v ⟨d, last⟩ ⟨h, hstream, rfl, hlen, ⟨ls, rfl, hgoing⟩, hbehind, hlast⟩
    dsimp only at hlen hgoing hbehind hlast
    obtain ⟨h', hserve, hstream', hleft⟩ :=
      serveRead_stream (w := ls.flatMap (grepLine f)) (u := u) hstream (bufSize - last)
    obtain ⟨b, hb⟩ : ∃ b, (h.left dir).take (bufSize - last) = b := ⟨_, rfl⟩
    have happ : h.left dir = b ++ h'.left dir := by
      rw [hleft, ← hb, List.take_append_drop]
    have hblen : b.length = min (bufSize - last) (h.left dir).length := by
      rw [← hb, List.length_take]
    have hsize : (h.left dir).length = b.length + (h'.left dir).length := by
      rw [happ, List.length_append]
    have hn : ((bufSize : ℤ) - last).toNat = bufSize - last := by omega
    rw [hb] at hserve
    rw [← hn] at hserve
    refine meets_bind.2 (meets_read hserve (by decide) (by omega) (by omega) ?_)
    rw [if_neg (by dsimp only; omega)]
    dsimp only [Int.toNat_natCast]
    have hroom' : last + b.length < fuel := lt_of_le_of_lt (by omega) hroom
    refine meets_bind.2 ((@meets_searchLines dir u h' s f sm fm (putBytes d last b) (Textual data c)
      c (h'.left dir) ls (last + b.length) b.length fuel hs hslen hf hflen (by omega) ?_ ?_ ?_
      hroom').mono ?_)
    · intro hdone
      exact List.eq_nil_of_length_eq_zero (by omega)
    · intro hT
      rw [putBytes_of_le (by omega)]
      rcases hT.clean with hshort | hne
      · exact Or.inl (List.eq_nil_of_length_eq_zero (by omega))
      · refine Or.inr ?_
        rcases hbehind with hkeep | hzero
        · rwa [hkeep]
        · rw [hzero]
          decide
    · have hbytes := bytesAt_putBytes_append d 0 last b
      rw [Nat.zero_add] at hbytes
      rwa [hbytes, List.append_assoc, ← happ]
    · rintro v ⟨d', last'⟩ ⟨⟨⟨ls', rfl, hgoing'⟩, hbehind', hroom'⟩, hle, hzero⟩
      rw [putBytes_of_le (by omega)] at hbehind'
      by_cases hcnt : (b.length : ℤ) = 0
      · have hnil : h'.left dir = [] := List.eq_nil_of_length_eq_zero (by omega)
        rw [if_pos hcnt]
        refine ⟨rfl, h', ls', hstream', rfl, fun hT => ?_⟩
        have hfound := (hgoing' hT).2
        rw [hzero hcnt, hnil, bytesAt_zero, List.append_nil, foundLines_nil, List.append_nil]
          at hfound
        exact hfound.symm
      · rw [if_neg hcnt]
        dsimp only at hle
        refine ⟨_, by omega, h', hstream', rfl, by dsimp only; omega, ⟨ls', rfl, hgoing'⟩, ?_,
          hroom'⟩
        rcases hbehind' with hkeep | hz
        · rw [← hkeep] at hbehind
          exact hbehind
        · exact Or.inr hz
  · intro hT
    rw [bytesAt_zero, List.nil_append, List.nil_append, hc]
    exact ⟨hT.toPlain, rfl⟩

/-- **One file.**  Whatever it holds, the lines that are written start with its name, and those of a
text are the ones with the pattern. -/
theorem meets_doOneFile {e : DirEntry} {fuel : ℕ} (hfree : u.free = some 3)
    (hfind : findEntry dir f = some e) (hstream : e.node.handle.isStream = true)
    (hs : cstring sm 0 = s) (hslen : s.length < 2 ^ 32) (hf : cstring fm 0 = f)
    (hflen : f.length < 2 ^ 31) (hfuel : (e.node.handle.left dir).length < fuel)
    (hroom : bufSize < fuel) :
    Runs dir (doOneFile data sm fm fuel) (fun v r => r = 0 ∧ ∃ ls : List (List UInt8),
      v = u.reading .closed (ls.flatMap (grepLine f)) ∧
        (Textual data (e.node.handle.left dir) →
          ls = foundLines s (e.node.handle.left dir))) u := by
  have hlen : strlen sm 0 = s.length := by rw [← hs, length_cstring]
  have hopened : u.set 3 e.node.handle = u.reading e.node.handle [] := by
    rw [View.reading, List.append_nil]
    rfl
  unfold doOneFile
  rw [hlen, hf]
  refine meets_bind.2 (meets_open_some hfree hfind ?_)
  rw [if_neg (by decide), hopened]
  refine meets_bind.2
    ((meets_searchChunks hstream rfl hs hslen hf hflen hfuel hroom).mono ?_)
  rintro v _ ⟨rfl, h', ls, hstream', rfl, hls⟩
  rw [if_neg Bool.false_ne_true]
  refine meets_bind.2 (meets_close ?_ ?_)
  · show ((u.reading h' _).file 3).isClosed = false
    rw [View.reading_file, Handle.isClosed_of_stream hstream']
  · rw [if_neg (by decide)]
    exact ⟨rfl, ls, View.reading_set _, hls⟩

end Search

/-! ### Searching the directory -/

/-- What `grep` writes and returns for the entries of a directory: entries whose name starts with a
dot are left out, and it stops at one that cannot be opened. -/
inductive GrepResult (dir : List DirEntry) (stack : ℕ → Memory) (s : List UInt8) :
    List DirEntry → List UInt8 → ℤ → Prop
  | done : GrepResult dir stack s [] [] 0
  | dot {e es out r} (hdot : e.name.head? = some 0x2E) (hrest : GrepResult dir stack s es out r) :
      GrepResult dir stack s (e :: es) out r
  | missing {e es} (hdot : e.name.head? ≠ some 0x2E)
      (hfind : findEntry dir (e.name.take 32) = none) :
      GrepResult dir stack s (e :: es) (ascii "file open failed\n") 3
  | file {e e' es out r} {ls : List (List UInt8)} (hdot : e.name.head? ≠ some 0x2E)
      (hfind : findEntry dir (e.name.take 32) = some e')
      (hls : (∀ n, Textual (stack n) (e'.node.handle.left dir)) →
        ls = foundLines s (e'.node.handle.left dir))
      (hrest : GrepResult dir stack s es out r) :
      GrepResult dir stack s (e :: es) (ls.flatMap (grepLine (e.name.take 32)) ++ out) r

section Grep

variable {dir : List DirEntry} {s : List UInt8} {stack : ℕ → Memory} {sm : Memory}

/-- Only entries whose name starts with a dot are directories. -/
def DotDirs (dir : List DirEntry) : Prop :=
  ∀ e ∈ dir, e.node.handle.isStream = false → e.name.head? = some 0x2E

/-- The process while it reads the directory: it is at the entry `n` and has written `w`. -/
def View.listing (args : List UInt8) (n : ℕ) (w : List UInt8) : View :=
  { (View.start args).set 2 (.directory n) with written := w }

theorem View.listing_file (args : List UInt8) (n : ℕ) (w : List UInt8) :
    (View.listing args n w).file 2 = .directory n := by
  have hset : ((View.start args).set 2 (.directory n)).file ((2 : ℕ) : ℤ) = .directory n :=
    View.file_set le_rfl (by decide)
  exact hset

theorem View.listing_free (args : List UInt8) (n : ℕ) (w : List UInt8) :
    (View.listing args n w).free = some 3 := rfl

theorem View.listing_set (args : List UInt8) (n m : ℕ) (w : List UInt8) :
    (View.listing args n w).set 2 (.directory m) = View.listing args m w := by
  simp only [View.listing, View.set, Function.update_idem]

theorem View.listing_reading (args : List UInt8) (n : ℕ) (w l : List UInt8) :
    (View.listing args n w).reading .closed l = View.listing args n (w ++ l) := by
  have hclosed : Function.update (View.listing args n w).handle 3 .closed =
      (View.listing args n w).handle :=
    Function.update_eq_self 3 _
  rw [View.reading, View.set, hclosed]
  rfl

theorem meets_doOneFile_missing {f : List UInt8} {v : View} {data fm : Memory} {fuel : ℕ}
    (hfind : findEntry dir f = none) (hf : cstring fm 0 = f) :
    Runs dir (doOneFile data sm fm fuel) (fun v' r => r = -1 ∧
      v' = { v with written := v.written ++ ascii "file open failed\n" }) v := by
  unfold doOneFile
  rw [hf]
  refine meets_bind.2 (meets_open_none hfind ?_)
  rw [if_pos rfl]
  exact meets_bind.2 (meets_puts (by decide +kernel) ⟨rfl, rfl⟩)

/-- The name that `grep` gives to the file of an entry. -/
theorem cstring_entry (hd : DirOk dir) {e : DirEntry} (he : e ∈ dir) (buf : Memory) :
    cstring (Function.update (putBytes buf 0 (e.name.take 32)) (e.name.take 32).length 0) 0 =
      e.name.take 32 := by
  have hbytes : bytesAt (Function.update (putBytes buf 0 (e.name.take 32))
      (e.name.take 32).length 0) 0 (e.name.take 32).length = e.name.take 32 := by
    conv_rhs => rw [← bytesAt_putBytes buf 0 (e.name.take 32)]
    exact bytesAt_congr fun i hi => Function.update_of_ne (by omega) _ _
  have hlen : (e.name.take 32).length < 2 ^ 32 :=
    lt_of_le_of_lt (List.length_take_le _ _) (by decide)
  rw [cstring_eq hlen ?_ ?_, hbytes]
  · rw [hbytes]
    exact fun b hb => hd.name_noNul e he b (List.mem_of_mem_take hb)
  · rw [Nat.zero_add, Function.update_self]

/-- One entry of the directory. -/
theorem meets_grepRound (hd : DirOk dir) (hdots : DotDirs dir) (hs : cstring sm 0 = s)
    (hslen : s.length < 2 ^ 32) {args w : List UInt8} {buf : Memory} {i n fuel : ℕ} {e : DirEntry}
    {es : List DirEntry} (hdrop : dir.drop n = e :: es)
    (hfuel : ∀ e ∈ dir, (e.node.handle.left dir).length < fuel) (hroom : bufSize < fuel) :
    Runs dir (grepRound sm stack 2 fuel (buf, i)) (fun v r => match r with
      | .inl _ => ∃ out, v = View.listing args (n + 1) (w ++ out) ∧ ∀ out' r',
          GrepResult dir stack s es out' r' → GrepResult dir stack s (e :: es) (out ++ out') r'
      | .inr r => ∃ out, v.written = w ++ out ∧ GrepResult dir stack s (e :: es) out r)
      (View.listing args n w) := by
  have hn : n < dir.length := by
    by_contra hn
    rw [List.drop_eq_nil_of_le (not_lt.1 hn)] at hdrop
    exact List.cons_ne_nil _ _ hdrop.symm
  have he : dir[n] = e := by
    rw [List.drop_eq_getElem_cons hn] at hdrop
    exact (List.cons.inj hdrop).1
  have hmem : e ∈ dir := he ▸ List.getElem_mem hn
  -- the name in the array
  obtain ⟨f, hf⟩ : ∃ f, e.name.take 32 = f := ⟨_, rfl⟩
  obtain ⟨b, l, hbl⟩ : ∃ b l, e.name = b :: l :=
    List.exists_cons_of_ne_nil (hd.name_nonempty e hmem)
  have hfb : f = b :: l.take 31 := by rw [← hf, hbl, List.take_succ_cons]
  have hpos : 0 < f.length := hfb ▸ Nat.succ_pos _
  have hflen : f.length ≤ 32 := by
    rw [← hf]
    exact List.length_take_le _ _
  have hfirst : putBytes buf 0 f 0 = b := by
    have hget := putBytes_getElem (m := buf) (p := 0) hpos
    rw [hget]
    simp only [hfb, List.getElem_cons_zero]
  have hstring := cstring_entry hd hmem buf
  have hread := serveRead_directory (n := 32) hd (View.listing_file args n w) hn
  have hset : (View.listing args n w).set ((2 : ℤ)).toNat (.directory (n + 1)) =
      View.listing args (n + 1) w := View.listing_set args n (n + 1) w
  rw [hf] at hstring
  rw [he, hf, hset] at hread
  refine meets_bind.2 (meets_read hread (by decide) (by decide) (by decide) ?_)
  rw [if_neg (by dsimp only; omega), if_neg (by dsimp only; omega)]
  dsimp only [Int.toNat_natCast]
  rw [hfirst]
  by_cases hdot : b = 0x2E
  · rw [if_pos hdot]
    refine ⟨[], by rw [List.append_nil], fun out' r' hrest => ?_⟩
    exact .dot (by rw [hbl, List.head?_cons, hdot]) hrest
  have hhead : e.name.head? ≠ some 0x2E := by
    rw [hbl, List.head?_cons]
    exact fun h => hdot (Option.some.inj h)
  rw [if_neg hdot]
  cases hfind : findEntry dir f with
  | none =>
    refine meets_bind.2 ((meets_doOneFile_missing hfind hstring).mono ?_)
    rintro v r ⟨rfl, rfl⟩
    exact ⟨_, rfl, .missing hhead (by rw [hf, hfind])⟩
  | some e' =>
    have hmem' : e' ∈ dir := List.mem_of_find?_eq_some hfind
    have hfound := List.find?_some hfind
    have hname : e'.name = f := of_decide_eq_true hfound
    have hstream : e'.node.handle.isStream = true := by
      by_contra hno
      have hdot' := hdots e' hmem' (Bool.eq_false_of_not_eq_true hno)
      rw [hname, hfb, List.head?_cons] at hdot'
      exact hdot (Option.some.inj hdot')
    refine meets_bind.2 ((meets_doOneFile (View.listing_free args (n + 1) w) hfind hstream hs
      hslen hstring (by omega) (hfuel e' hmem') hroom).mono ?_)
    rintro v r ⟨rfl, ls, rfl, hls⟩
    rw [View.listing_reading]
    refine ⟨_, rfl, fun out' r' hrest => ?_⟩
    rw [← hf]
    exact .file hhead (by rw [hf, hfind]) (fun hT => hls (hT i)) hrest

/-- The loop of `grep`. -/
theorem meets_grepLoop (hd : DirOk dir) (hdots : DotDirs dir) (hs : cstring sm 0 = s)
    (hslen : s.length < 2 ^ 32) {args : List UInt8} {buf : Memory} {fuel : ℕ}
    (hfuel : ∀ e ∈ dir, (e.node.handle.left dir).length < fuel) (hroom : bufSize < fuel) :
    Runs dir (Client.loop (grepRound sm stack 2 fuel) fuel (buf, 0))
      (fun v r => GrepResult dir stack s dir v.written r) (View.listing args 0 []) := by
  have hsmall : dir.length - 0 < fuel :=
    lt_trans (lt_of_le_of_lt (Nat.sub_le _ _) hd.entries) (lt_trans (by decide) hroom)
  refine meets_loop (I := fun m v _ => ∃ n w, v = View.listing args n w ∧ dir.length - n = m ∧
    ∀ out r, GrepResult dir stack s (dir.drop n) out r → GrepResult dir stack s dir (w ++ out) r) ?_
    ⟨0, [], rfl, rfl, fun out r h => h⟩ hsmall
  rintro _ v ⟨buf, i⟩ ⟨n, w, rfl, rfl, hsofar⟩
  by_cases hn : n < dir.length
  · have hdrop := List.drop_eq_getElem_cons hn
    rw [hdrop] at hsofar
    refine (meets_grepRound hd hdots hs hslen hdrop hfuel hroom).mono ?_
    rintro v (y | r) hr
    · obtain ⟨out, rfl, hout⟩ := hr
      refine ⟨_, by omega, n + 1, _, rfl, rfl, fun out' r hrest => ?_⟩
      rw [List.append_assoc]
      exact hsofar _ r (hout out' r hrest)
    · obtain ⟨out, hwritten, hout⟩ := hr
      show GrepResult dir stack s dir v.written r
      rw [hwritten]
      exact hsofar out r hout
  · refine meets_bind.2 (meets_read (serveRead_directory_end (View.listing_file args n w)
      (not_lt.1 hn)) (by decide) (by decide) (by decide) ?_)
    rw [List.drop_eq_nil_of_le (not_lt.1 hn)] at hsofar
    have hdone := hsofar [] 0 .done
    rw [List.append_nil] at hdone
    exact hdone

/-- **`grep`** writes the lines of the files in the directory in which its argument occurs. -/
theorem meets_grep (hd : DirOk dir) (hdots : DotDirs dir) {e : DirEntry}
    (hdot : findEntry dir (ascii ".") = some e) (hnode : e.node = .directory) {args : List UInt8}
    (hnz : ∀ b ∈ args, b ≠ 0) (hargs : args.length < argsMax) {buf search : Memory} {fuel : ℕ}
    (hfuel : ∀ e ∈ dir, (e.node.handle.left dir).length < fuel) (hroom : bufSize < fuel) :
    Runs dir (grep buf search stack fuel) (fun v r => GrepResult dir stack args dir v.written r)
      (View.start args) := by
  have hlen : args.length < 128 := hargs
  have hname : cstring (literal ".") 0 = ascii "." :=
    cstring_literal (by decide +kernel) (by decide +kernel)
  have hs : cstring (putBytes search 0 (args ++ [0])) 0 = args :=
    cstring_putBytes (by omega : args.length < 2 ^ 32) hnz
  refine meets_bind.2 (meets_getargs (by decide) ?_ ?_)
  · show (args.length : ℤ) < (1024 : ℕ)
    omega
  rw [if_neg (fun h => h rfl)]
  refine meets_bind.2 (meets_open_some (free_start args) (hname ▸ hdot) ?_)
  rw [if_neg (by decide), hnode]
  exact meets_grepLoop hd hdots hs (by omega) hfuel hroom

/-- The command `shell ELF`. -/
def shellElf : CString := ⟨[115, 104, 101, 108, 108, 32, 69, 76, 70], by simp, by decide⟩

/-- The second shell of the small machine makes the calls of `grep`, while a third shell is started
and the clock ticks. -/
def secondGrep : List Event :=
  [.getargs 0x8000000 1024, .openFile dotName, .read 2 0x8000000 32, .read 2 0x8000000 32,
    .openFile shell, .key 1, .tick, .openFile dotName, .tick, .read 3 0x8000000 1024] ++
  writeList shell.bytes ++ writeList [58] ++ writeList [0x7f, 0x45, 0x4c, 0x46] ++ writeList [10] ++
  [.read 3 0x8000000 1024, .closeFile 3, .read 2 0x8000000 32, .openFile rtcName, .rtcInterrupt,
    .read 3 0x8000000 1024, .closeFile 3, .read 2 0x8000000 32]

set_option maxRecDepth 20000 in
theorem secondGrep_exchanges :
    exchanges (step small) (exchange small 2) (smallState [.key 0, .execute shellElf]) secondGrep =
      [(.getargs 1024, ⟨0, [0x45, 0x4c, 0x46]⟩), (.openFile dotName.bytes, ⟨2, []⟩),
        (.read 2 32, ⟨1, dotName.bytes⟩), (.read 2 32, ⟨5, shell.bytes⟩),
        (.openFile shell.bytes, ⟨3, []⟩),
        (.read 3 1024, ⟨40, [0x7f, 0x45, 0x4c, 0x46] ++ List.replicate 36 0⟩),
        (.write 1 5 shell.bytes, ⟨5, []⟩), (.write 1 1 [58], ⟨1, []⟩),
        (.write 1 4 [0x7f, 0x45, 0x4c, 0x46], ⟨4, []⟩), (.write 1 1 [10], ⟨1, []⟩),
        (.read 3 1024, ⟨0, []⟩), (.closeFile 3, ⟨0, []⟩), (.read 2 32, ⟨3, rtcName.bytes⟩),
        (.openFile rtcName.bytes, ⟨3, []⟩), (.read 3 1024, ⟨0, []⟩), (.closeFile 3, ⟨0, []⟩),
        (.read 2 32, ⟨0, []⟩)] := by
  decide +kernel

end Grep

end LinuxIsLove
