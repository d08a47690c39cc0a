import LinuxIsLove.LineBuffer

/-!
# What a drain takes from the line buffer

`Buffered t content` says what a line buffer holds: the bytes of `content`, counted by `buf_count`,
and NULs behind them.  A drain takes bytes from the front of it (`drain_splits`); `drains` takes the
drain section several times, and what it delivers is put together in `drains_deliver`.
-/

namespace LinuxIsLove

open Bytes

/-- The line buffer holds `content`, followed by NULs. -/
structure Buffered (t : Terminal) (content : List UInt8) : Prop where
  count : t.bufCount = content.length
  le : content.length ≤ lineBufMax
  bytes : ∀ i : ℕ, i < lineBufMax → t.lineBuf i = content.getD i 0

/-- The bytes that a drain reports to its caller. -/
def delivered (r : ℤ × Memory × Terminal) : List UInt8 := (List.range r.1.toNat).map r.2.1

/-- Drains with these lengths and buffers, one after the other: what they deliver, and the
terminal they leave. -/
def drains : List (ℤ × Memory) → Terminal → List UInt8 × Terminal
  | [], t => ([], t)
  | (nbytes, buf) :: reads, t =>
    let r := drain t nbytes buf
    let rest := drains reads r.2.2
    (delivered r ++ rest.1, rest.2)

/-- What a drain of a line buffer that holds `content` returns and leaves behind. -/
structure Split (t : Terminal) (content : List UInt8) (nbytes : ℤ) (r : ℤ × Memory × Terminal) :
    Prop where
  count : r.1 = min (min nbytes lineBufMax) content.length
  delivered : delivered r = content.take r.1.toNat
  rest : Buffered r.2.2 (content.drop r.1.toNat)
  /-- nothing is stored outside the line buffer -/
  stores : ∃ spans, r.2.2.stores = spans ++ t.stores ∧ ∀ span ∈ spans, InBuffer span
  outside : ∀ i : ℤ, i < 0 ∨ lineBufMax ≤ i → r.2.2.lineBuf i = t.lineBuf i

/-- What a drain returns, and what it leaves in the line buffer, depends on the bytes of the line
buffer only. -/
def ReadsInside (t : Terminal) (nbytes : ℤ) (buf : Memory) : Prop :=
  ∀ lineBuf : ℤ → UInt8, (∀ i : ℤ, 0 ≤ i → i < lineBufMax → lineBuf i = t.lineBuf i) →
    let r := drain t nbytes buf
    let r' := drain { t with lineBuf := lineBuf } nbytes buf
    r'.1 = r.1 ∧ r'.2.1 = r.2.1 ∧
      ∀ i : ℤ, 0 ≤ i → i < lineBufMax → r'.2.2.lineBuf i = r.2.2.lineBuf i

/-! ### One drain -/

section Drain

variable {t : Terminal} {content : List UInt8} {nbytes : ℤ}

/-- **A drain splits the content of the line buffer**, and neither reads nor stores elsewhere. -/
theorem drain_splits (h : Buffered t content) (h0 : 0 ≤ nbytes) (buf : Memory) :
    Split t content nbytes (drain t nbytes buf) := by
  have hmax : lineBufMax = 128 := rfl
  have hle := h.le
  have hcount := h.count
  have hdrain := drain_eq (show t.bufCount < 2 ^ 16 by omega) h0 buf
  have hsize_le : drainSize nbytes ≤ lineBufMax := by
    rw [drainSize]
    omega
  have hsize : (drainSize nbytes : ℤ) = min nbytes lineBufMax := by
    rw [drainSize]
    omega
  rw [hdrain]
  generalize drainSize nbytes = n at hsize hsize_le
  have hr : (((min n t.bufCount : ℕ) : ℤ)).toNat = min n content.length := by
    rw [Int.toNat_natCast, hcount]
  refine ⟨?_, ?_, ⟨?_, ?_, fun i hi => ?_⟩, ?_, fun i hi => ?_⟩
  · show ((min n t.bufCount : ℕ) : ℤ) = min (min nbytes lineBufMax) content.length
    rw [← hsize, hcount]
    omega
  · -- the copied bytes are the first ones of the content
    simp only [delivered, hr]
    refine List.ext_getElem (by simp) fun j hj hj' => ?_
    rw [List.length_map, List.length_range] at hj
    rw [List.getElem_map, List.getElem_range, List.getElem_take, copy_of_lt (by omega),
      h.bytes j (by omega), List.getD_eq_getElem _ _ (by omega)]
  · show t.bufCount - n = (content.drop _).length
    rw [hr, List.length_drop]
    omega
  · rw [List.length_drop]
    omega
  · -- the rest moves to the front, and NULs follow it
    simp only [hr, Terminal.clearBytes, Terminal.moveBytes]
    rw [List.getD_eq_getElem?_getD, List.getElem?_drop, ← List.getD_eq_getElem?_getD]
    by_cases hmove : i < t.bufCount - n
    · rw [if_neg (by omega), if_pos (by omega), ← Nat.cast_add, h.bytes (n + i) (by omega),
        show min n content.length = n by omega]
    · by_cases hclear : i < t.bufCount - n + n
      · rw [if_pos (by omega), List.getD_eq_default _ _ (by omega)]
      · rw [if_neg (by omega), if_neg (by omega), h.bytes i hi, List.getD_eq_default _ _ (by omega),
          List.getD_eq_default _ _ (by omega)]
  · refine ⟨[(((t.bufCount - n : ℕ) : ℤ), ((t.bufCount - n : ℕ) : ℤ) + n),
      (0, ((t.bufCount - n : ℕ) : ℤ))], rfl, ?_⟩
    simp only [List.forall_mem_cons, InBuffer]
    refine ⟨fun _ => ⟨by omega, by omega⟩, fun _ => ⟨le_rfl, by omega⟩, fun _ hspan => ?_⟩
    exact absurd hspan List.not_mem_nil
  · simp only [Terminal.clearBytes, Terminal.moveBytes]
    rw [if_neg (by omega), if_neg (by omega)]

/-- A drain looks at bytes of the line buffer only. -/
theorem drain_readsInside (h : Buffered t content) (h0 : 0 ≤ nbytes) (buf : Memory) :
    ReadsInside t nbytes buf := by
  intro lineBuf hsame
  have hmax : lineBufMax = 128 := rfl
  have hle : t.bufCount ≤ lineBufMax := h.count ▸ h.le
  have hlt : t.bufCount < 2 ^ 16 := by omega
  have hsize_le : drainSize nbytes ≤ lineBufMax := by
    rw [drainSize]
    omega
  have hdrain := drain_eq (t := { t with lineBuf := lineBuf }) hlt h0 buf
  simp only [drain_eq hlt h0 buf, hdrain, Terminal.clearBytes, Terminal.moveBytes]
  refine ⟨trivial, ?_, fun i hi0 hi => ?_⟩
  · funext j
    by_cases hj : j < drainSize nbytes
    · rw [copy_of_lt hj, copy_of_lt hj, hsame j (by omega) (by omega)]
    · rw [copy_of_le (by omega), copy_of_le (by omega)]
  · split_ifs
    · rfl
    · exact hsame _ (by omega) (by omega)
    · exact hsame i hi0 hi

end Drain

/-! ### Any number of drains -/

/-- The number of bytes that the drains take off a buffer that has them. -/
def drainTotal (reads : List (ℤ × Memory)) : ℕ := (reads.map fun read => drainSize read.1).sum

/-- What the drains deliver, one after the other, and what they leave. -/
theorem drains_deliver {t : Terminal} {content : List UInt8} (h : Buffered t content)
    {reads : List (ℤ × Memory)} (h0 : ∀ read ∈ reads, 0 ≤ read.1) :
    (drains reads t).1 = content.take (drainTotal reads) ∧
      Buffered (drains reads t).2 (content.drop (drainTotal reads)) := by
  induction reads generalizing t content with
  | nil => exact ⟨rfl, h⟩
  | cons read reads ih =>
    obtain ⟨nbytes, buf⟩ := read
    obtain ⟨hnbytes, hreads⟩ := List.forall_mem_cons.1 h0
    have hsplit := drain_splits h hnbytes buf
    obtain ⟨htake, hdrop⟩ := ih hsplit.rest hreads
    have hr : (drain t nbytes buf).1.toNat = min (drainSize nbytes) content.length := by
      rw [hsplit.count, drainSize]
      omega
    have htotal : drainTotal ((nbytes, buf) :: reads) = drainSize nbytes + drainTotal reads := by
      rw [drainTotal, List.map_cons, List.sum_cons, drainTotal]
    have hrest : content.drop (drain t nbytes buf).1.toNat = content.drop (drainSize nbytes) := by
      rw [hr, ← List.drop_eq_drop_min]
    rw [hrest] at htake hdrop
    simp only [drains, htotal]
    refine ⟨?_, by rwa [List.drop_drop] at hdrop⟩
    rw [hsplit.delivered, hr, ← List.take_eq_take_min, htake, ← List.take_add]

/-- **`terminal_read` splits the line buffer without loss.**  A drain delivers the first bytes of
the content and leaves the others in order; what any drains deliver, followed by what they leave,
is the content, and drains for all of it deliver all of it. -/
theorem terminalRead_splits {t : Terminal} {content : List UInt8} (h : Buffered t content) :
    (∀ nbytes, 0 ≤ nbytes → ∀ buf,
      Split t content nbytes (drain t nbytes buf) ∧ ReadsInside t nbytes buf) ∧
    ∀ reads : List (ℤ × Memory), (∀ read ∈ reads, 0 ≤ read.1) →
      ∃ left, (drains reads t).1 ++ left = content ∧ Buffered (drains reads t).2 left ∧
        (content.length ≤ drainTotal reads → (drains reads t).1 = content) := by
  refine ⟨fun nbytes h0 buf => ⟨drain_splits h h0 buf, drain_readsInside h h0 buf⟩, ?_⟩
  intro reads h0
  obtain ⟨htake, hdrop⟩ := drains_deliver h h0
  refine ⟨content.drop (drainTotal reads), ?_, hdrop, fun hall => ?_⟩
  · rw [htake, List.take_append_drop]
  · rw [htake, List.take_of_length_le hall]

/-- A terminal whose line buffer holds two bytes. -/
def twoBytes : Terminal :=
  { kybdInit 0 with
    lineBuf := fun i => if i = 0 then 97 else if i = 1 then 10 else 0
    bufCount := 2 }

theorem buffered_twoBytes : Buffered twoBytes [97, 10] := ⟨rfl, by decide, by decide⟩

theorem terminalRead_splits_twoBytes :
    Split twoBytes [97, 10] 1 (drain twoBytes 1 fun _ => 0) ∧
      (drains [(1, fun _ => 0), (5, fun _ => 0)] twoBytes).1 = [97, 10] := by
  obtain ⟨hone, hall⟩ := terminalRead_splits buffered_twoBytes
  obtain ⟨_, -, -, hdelivered⟩ := hall [(1, fun _ => 0), (5, fun _ => 0)] (by simp)
  exact ⟨(hone 1 (by decide) _).1, hdelivered (by decide)⟩

end LinuxIsLove
