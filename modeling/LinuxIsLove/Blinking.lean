import LinuxIsLove.BlinkList

/-!
# The characters blink

A structure of the list is worked on by the tasklets alone, as long as the calls in between are
about other locations: it shows its first character for `onLength` tasklets and its second one for
`offLength` tasklets, and so on (`blinks`).
-/

namespace LinuxIsLove

open Bytes Loops Linked EventMachine

/-! ### One structure -/

/-- The character that a structure shows. -/
def glyph (d : BlinkData) : UInt8 := if d.status &&& 1#16 != 0 then d.onChar else d.offChar

/-- What a tasklet makes of a structure. -/
def tickData (d : BlinkData) : BlinkData :=
  if 0 < (d.countdown - 1).toInt then { d with countdown := d.countdown - 1 }
  else
    { d with
      countdown := if d.status &&& 1#16 != 0 then d.offLength else d.onLength
      status := d.status ^^^ 1#16 }

/-- A structure that was added `t` tasklets ago. -/
def phaseAt (user : BlinkData) (t : ℕ) : BlinkData :=
  let on := user.onLength.toNat
  let period := on + user.offLength.toNat
  if t % period < on then
    { user with status := 1, countdown := BitVec.ofNat 16 (on - t % period) }
  else { user with status := 0, countdown := BitVec.ofNat 16 (period - t % period) }

theorem lowBit_eq (x : BitVec 16) : (x &&& 1#16 != 0) = x.getLsbD 0 := by
  rw [BitVec.and_one_eq_setWidth_ofBool_getLsbD]
  cases x.getLsbD 0 <;> rfl

/-- The other character is shown once the status is changed. -/
theorem glyph_flip (d : BlinkData) (c : BitVec 16) :
    glyph { d with countdown := c, status := d.status ^^^ 1#16 } =
      if d.status &&& 1#16 != 0 then d.offChar else d.onChar := by
  simp only [glyph, lowBit_eq, BitVec.getLsbD_xor]
  cases d.status.getLsbD 0 <;> rfl

section Phases

variable {user d : BlinkData} {t : ℕ}

@[simp] theorem tickData_location (d : BlinkData) : (tickData d).location = d.location := by
  unfold tickData
  split_ifs <;> rfl

@[simp] theorem phaseAt_location (user : BlinkData) (t : ℕ) :
    (phaseAt user t).location = user.location := by
  simp only [phaseAt]
  split_ifs <;> rfl

theorem glyph_phaseAt : glyph (phaseAt user t) =
    if t % (user.onLength.toNat + user.offLength.toNat) < user.onLength.toNat then user.onChar
    else user.offChar := by
  have hone : ((1 : BitVec 16) &&& 1#16 != 0) = true := by decide
  have hzero : ¬ ((0 : BitVec 16) &&& 1#16 != 0) = true := by decide
  simp only [phaseAt]
  split_ifs
  · exact if_pos hone
  · exact if_neg hzero

theorem toInt_small {n : ℕ} (h : n < 2 ^ 15) : (BitVec.ofNat 16 n).toInt = n := by
  rw [BitVec.toInt_eq_toNat_cond, BitVec.toNat_ofNat, Nat.mod_eq_of_lt (by omega),
    if_pos (by omega)]

/-- A countdown that has not run out. -/
theorem tickData_of_lt {n : ℕ} (hd : d.countdown = BitVec.ofNat 16 (n + 1)) (h0 : 0 < n)
    (hn : n < 2 ^ 15) : tickData d = { d with countdown := BitVec.ofNat 16 n } := by
  have hsub : d.countdown - 1 = BitVec.ofNat 16 n := by
    rw [hd, BitVec.ofNat_add]
    exact BitVec.add_sub_cancel _ _
  rw [tickData, hsub, toInt_small hn, if_pos (by omega)]

/-- A countdown that has run out. -/
theorem tickData_on (hd : d.countdown = 1) (hs : d.status = 1) :
    tickData d = { d with countdown := d.offLength, status := 0 } := by
  have hbit : ((1 : BitVec 16) &&& 1#16 != 0) = true := by decide
  have hflip : (1 : BitVec 16) ^^^ 1#16 = 0 := by decide
  rw [tickData, hd, if_neg (by decide), hs, if_pos hbit, hflip]

theorem tickData_off (hd : d.countdown = 1) (hs : d.status = 0) :
    tickData d = { d with countdown := d.onLength, status := 1 } := by
  have hbit : ¬ ((0 : BitVec 16) &&& 1#16 != 0) = true := by decide
  have hflip : (0 : BitVec 16) ^^^ 1#16 = 1 := by decide
  rw [tickData, hd, if_neg (by decide), hs, if_neg hbit, hflip]

theorem mod_succ_eq (t n : ℕ) (hn : 0 < n) :
    (t + 1) % n = if t % n + 1 = n then 0 else t % n + 1 := by
  have hlt := Nat.mod_lt t hn
  rw [Nat.add_mod]
  split_ifs with h
  · by_cases h1 : n = 1
    · rw [h1, Nat.mod_one]
    · rw [Nat.mod_eq_of_lt (by omega : 1 < n), h, Nat.mod_self]
  · rw [Nat.mod_eq_of_lt (by omega : 1 < n), Nat.mod_eq_of_lt (by omega)]

/-- **A tasklet** leads from one phase to the next. -/
theorem tickData_phaseAt (hon : 0 < user.onLength.toInt) (hoff : 0 < user.offLength.toInt) :
    tickData (phaseAt user t) = phaseAt user (t + 1) := by
  have hsigned : ∀ x : BitVec 16, 0 < x.toInt → 0 < x.toNat ∧ x.toNat < 2 ^ 15 := by
    intro x hx
    rw [BitVec.toInt_eq_toNat_cond] at hx
    split_ifs at hx <;> omega
  obtain ⟨hon0, hon15⟩ := hsigned _ hon
  obtain ⟨hoff0, hoff15⟩ := hsigned _ hoff
  have hlt := Nat.mod_lt t (show 0 < user.onLength.toNat + user.offLength.toNat by omega)
  simp only [phaseAt,
    mod_succ_eq t _ (show 0 < user.onLength.toNat + user.offLength.toNat by omega)]
  generalize t % (user.onLength.toNat + user.offLength.toNat) = r at hlt ⊢
  by_cases hr : r < user.onLength.toNat
  · rw [if_pos hr, if_neg (by omega : ¬ r + 1 = user.onLength.toNat + user.offLength.toNat)]
    by_cases hlast : r + 1 < user.onLength.toNat
    · rw [if_pos hlast]
      exact tickData_of_lt (n := user.onLength.toNat - (r + 1))
        (congrArg (BitVec.ofNat 16) (by omega)) (by omega) (by omega)
    · -- the first character has been shown for its time
      rw [if_neg hlast, tickData_on (congrArg (BitVec.ofNat 16)
        (by omega : user.onLength.toNat - r = 1)) rfl]
      have hleft : user.onLength.toNat + user.offLength.toNat - (r + 1) = user.offLength.toNat := by
        omega
      rw [hleft, BitVec.ofNat_toNat, BitVec.setWidth_eq]
  · rw [if_neg hr]
    by_cases hlast : r + 1 = user.onLength.toNat + user.offLength.toNat
    · -- and the second one too
      rw [tickData_off (congrArg (BitVec.ofNat 16)
        (by omega : user.onLength.toNat + user.offLength.toNat - r = 1)) rfl, if_pos hlast,
        if_pos hon0, Nat.sub_zero, BitVec.ofNat_toNat, BitVec.setWidth_eq]
    · rw [if_neg hlast, if_neg (by omega : ¬ r + 1 < user.onLength.toNat)]
      exact tickData_of_lt (n := user.onLength.toNat + user.offLength.toNat - (r + 1))
        (congrArg (BitVec.ofNat 16) (by omega)) (by omega) (by omega)

end Phases

/-! ### A structure and its character -/

/-- The structure has these fields and its character is on the screen. -/
structure Shown (b : Blink) (i : BlinkSlot) (d : BlinkData) : Prop where
  data : (b.blinkArray i).toBlinkData = d
  shown : b.vmem (2 * d.location.toNat) = glyph d

section Rounds

variable {b b' : Blink} {i j : BlinkSlot} {d : BlinkData} {l : List BlinkSlot} {fuel : ℕ}

theorem Shown.location (h : Shown b i d) : b.location i = d.location := by
  rw [← h.data]
  rfl

/-- Another structure is stored, and perhaps another character. -/
theorem Shown.setSlot (h : Shown b i d) (hj : j ≠ i) (s : BlinkStruct) :
    Shown (b.setSlot j s) i d where
  data := by
    show (Function.update b.blinkArray j s i).toBlinkData = d
    rw [Function.update_of_ne (Ne.symm hj)]
    exact h.data
  shown := h.shown

theorem Shown.poke (h : Shown b i d) {location : BitVec 16} (hne : location ≠ d.location)
    (cl : UInt8) : Shown (b.poke location cl) i d where
  data := h.data
  shown := by
    have hcell : 2 * d.location.toNat ≠ 2 * location.toNat := fun heq =>
      hne (BitVec.eq_of_toNat_eq (by omega))
    show Function.update b.vmem (2 * location.toNat) cl (2 * d.location.toNat) = _
    rw [Function.update_of_ne hcell]
    exact h.shown

theorem Shown.round_other (h : Shown b i d) (hj : j ≠ i) (hloc : b.location j ≠ d.location) :
    Shown (taskletRound b j) i d := by
  unfold taskletRound
  dsimp only
  split_ifs
  · exact h.setSlot hj _
  · exact (h.poke hloc _).setSlot hj _
  · exact (h.poke hloc _).setSlot hj _

theorem Shown.round_self (h : Shown b i d) : Shown (taskletRound b i) i (tickData d) := by
  obtain ⟨rfl, hshown⟩ := h
  unfold taskletRound tickData
  dsimp only
  by_cases hc : 0 < ((b.blinkArray i).countdown - 1).toInt
  · rw [if_pos hc, if_pos hc]
    refine ⟨?_, hshown⟩
    show (Function.update b.blinkArray i _ i).toBlinkData = _
    rw [Function.update_self]
  · rw [if_neg hc, if_neg hc]
    refine ⟨?_, ?_⟩
    · show (Function.update b.blinkArray i _ i).toBlinkData = _
      rw [Function.update_self]
    · rw [glyph_flip]
      exact Function.update_self ..

/-- The loop of the tasklet works on each structure of the list once. -/
theorem Shown.loop {p : Option BlinkSlot} (h : Shown b i d) (hc : Chain b.next p l)
    (hd : l.Nodup) (halone : ∀ j ∈ l, j ≠ i → b.location j ≠ d.location) (hfuel : l.length ≤ fuel)
    (hrun : taskletLoop fuel (p, b) = some (none, b')) :
    Shown b' i (if i ∈ l then tickData d else d) := by
  induction l generalizing b p d fuel with
  | nil =>
    obtain rfl : p = none := hc
    rw [taskletLoop, loopWhile_stop rfl] at hrun
    cases hrun
    exact h
  | cons j l ih =>
    obtain ⟨rfl, hrest⟩ := hc
    obtain ⟨f, rfl⟩ : ∃ f, fuel = f + 1 := ⟨fuel - 1, by simp at hfuel; omega⟩
    have hsame := taskletRound_same b j
    have hnext : taskletLoop f ((taskletRound b j).next j, taskletRound b j) = some (none, b') :=
      (loopWhile_go rfl f).symm.trans hrun
    rw [← hsame.next_eq] at hrest
    obtain ⟨hj, hd'⟩ := List.nodup_cons.1 hd
    have halone' : ∀ k ∈ l, k ≠ i → (taskletRound b j).location k ≠ d.location := by
      intro k hk hki
      rw [hsame.location_eq]
      exact halone k (List.mem_cons_of_mem j hk) hki
    by_cases hji : j = i
    · subst hji
      have hround := ih h.round_self hrest hd'
        (by rw [tickData_location]; exact halone') (by simpa using hfuel) hnext
      rw [if_neg hj] at hround
      rwa [if_pos List.mem_cons_self]
    · have hround := ih (h.round_other hji (halone j List.mem_cons_self hji)) hrest hd' halone'
        (by simpa using hfuel) hnext
      have hmem : i ∈ j :: l ↔ i ∈ l := by simp [Ne.symm hji]
      simpa only [hmem] using hround

end Rounds

/-! ### The calls -/

/-- The structure is on the list, and no other one there is about its location. -/
structure Blinking (b : Blink) (i : BlinkSlot) (d : BlinkData) (l : List BlinkSlot) : Prop
    extends Shown b i d where
  list : ListOk b l
  mem : i ∈ l
  alone : ∀ j ∈ l, j ≠ i → b.location j ≠ d.location

/-- The number of tasklets in a call. -/
def BlinkCall.tasklets : BlinkCall → ℕ
  | .tasklet => 1
  | _ => 0

/-- A call that neither adds nor takes away a structure with the location, nor changes one. -/
def LeavesAlone (location : BitVec 16) : BlinkCall → Prop
  | .add user => user.location ≠ location
  | .remove arg => arg.setWidth 16 ≠ location
  | .sync arg => (arg &&& 0xFFFF#32).setWidth 16 ≠ location
  | _ => True

instance (location : BitVec 16) (call : BlinkCall) : Decidable (LeavesAlone location call) := by
  cases call <;> unfold LeavesAlone <;> infer_instance

section Calls

variable {b b' : Blink} {i j : BlinkSlot} {d user : BlinkData} {l : List BlinkSlot} {fuel : ℕ}

theorem Blinking.ne_of_location (h : Blinking b i d l) (hj : b.location j ≠ d.location) :
    j ≠ i := by
  rintro rfl
  exact hj h.location

/-- Taking another structure out changes at most the pointer of this one. -/
theorem Shown.removed (h : Shown b i d) (hj : j ≠ i) (cell : Cell) (p : Option BlinkSlot) :
    Shown (mp1Free (cell.set b p) j) i d := by
  refine Shown.setSlot ?_ hj zeroStruct
  cases cell with
  | head => exact ⟨h.data, h.shown⟩
  | next k =>
    refine ⟨?_, h.shown⟩
    show (Function.update b.blinkArray k { b.blinkArray k with next := p } i).toBlinkData = d
    by_cases hik : i = k
    · subst hik
      rw [Function.update_self]
      exact h.data
    · rw [Function.update_of_ne hik]
      exact h.data

theorem location_removed {cell : Cell} {p : Option BlinkSlot} {k : BlinkSlot} (hkj : k ≠ j) :
    (mp1Free (cell.set b p) j).location k = b.location k := by
  show ((cell.set b p).setSlot j zeroStruct).location k = _
  rw [location_setSlot, Function.update_of_ne hkj]
  cases cell with
  | head => rfl
  | next q =>
    show (b.setSlot q _).location k = _
    rw [location_setSlot]
    exact congrFun (Function.update_eq_self q b.location) k

theorem Blinking.added (h : Blinking b i d l) (hsafe : SafeCall b (.add user))
    (hleaves : user.location ≠ d.location) :
    ∃ l', Blinking (mp1IoctlAdd user b).2 i d l' := by
  rcases mp1IoctlAdd_cases h.list hsafe with hadd | ⟨j, hj, hadd⟩
  · rw [hadd]
    exact ⟨l, h⟩
  · rw [hadd]
    have hji : j ≠ i := by
      rintro rfl
      exact hj h.mem
    have hshown := (h.toShown.setSlot hji
      ⟨{ user with status := 1, countdown := user.onLength }, b.listHead⟩).poke hleaves
        user.onChar
    refine ⟨j :: l, ⟨⟨hshown.data, hshown.shown⟩,
      (listOk_added h.list hj _).same (sameLinks_poke _ _ _), List.mem_cons_of_mem j h.mem, ?_⟩⟩
    intro k hk hki
    show (b.setSlot j _).location k ≠ d.location
    rw [location_setSlot]
    by_cases hkj : k = j
    · rw [hkj, Function.update_self]
      exact hleaves
    · rw [Function.update_of_ne hkj]
      exact h.alone k ((List.mem_cons.1 hk).resolve_left hkj) hki

theorem Blinking.removed (h : Blinking b i d l) (hfuel : numSlots ≤ fuel) {arg : BitVec 32} {r : ℤ}
    (hleaves : arg.setWidth 16 ≠ d.location) (hrun : mp1IoctlRemove fuel arg b = some (r, b')) :
    ∃ l', Blinking b' i d l' := by
  rcases mp1IoctlRemove_cases h.list hfuel arg with hrem | ⟨l₁, j, l₂, rfl, hj, hrem⟩
  · rw [hrem] at hrun
    cases hrun
    exact ⟨l, h⟩
  · rw [hrem] at hrun
    cases hrun
    have hji : j ≠ i := h.ne_of_location (hj ▸ hleaves)
    have hsub : ∀ k ∈ l₁ ++ l₂, k ∈ l₁ ++ j :: l₂ ∧ k ≠ j := by
      intro k hk
      have hnd := (List.nodup_cons.1 (List.nodup_middle.1 h.list.nodup)).1
      refine ⟨?_, fun hkj => hnd (hkj ▸ hk)⟩
      simp only [List.mem_append, List.mem_cons] at hk ⊢
      tauto
    have hmem : i ∈ l₁ ++ l₂ := by
      have hi := h.mem
      simp only [List.mem_append, List.mem_cons] at hi ⊢
      tauto
    refine ⟨l₁ ++ l₂, ⟨h.toShown.removed hji _ _, listOk_unlink h.list, hmem, ?_⟩⟩
    intro k hk hki
    obtain ⟨hk', hkj⟩ := hsub k hk
    rw [location_removed hkj]
    exact h.alone k hk' hki

theorem Blinking.synced (h : Blinking b i d l) (hfuel : numSlots ≤ fuel) {arg : BitVec 32} {r : ℤ}
    (hleaves : (arg &&& 0xFFFF#32).setWidth 16 ≠ d.location)
    (hrun : mp1IoctlSync fuel arg b = some (r, b')) :
    ∃ l', Blinking b' i d l' := by
  rcases mp1IoctlSync_cases h.list hfuel arg with hsync | ⟨esi, edi, hedi, hsync⟩
  · rw [hsync] at hrun
    cases hrun
    exact ⟨l, h⟩
  · rw [hsync] at hrun
    cases hrun
    have hloc : b.location edi ≠ d.location := hedi ▸ hleaves
    have hji : edi ≠ i := h.ne_of_location hloc
    have hsame := syncCopy_same esi edi b
    have hshown : Shown (syncCopy esi edi b) i d := (h.toShown.setSlot hji _).poke hloc _
    refine ⟨l, ⟨hshown, h.list.same hsame, h.mem, fun k hk hki => ?_⟩⟩
    rw [hsame.location_eq]
    exact h.alone k hk hki

theorem Blinking.ticked (h : Blinking b i d l) (hfuel : numSlots ≤ fuel)
    (hrun : mp1RtcTasklet fuel b = some b') : Blinking b' i (tickData d) l := by
  obtain ⟨b1, hends, hsame⟩ := taskletLoop_ends h.list.chain (h.list.length_le.trans hfuel)
  rw [mp1RtcTasklet, hends] at hrun
  obtain rfl := Option.some.inj hrun
  have hshown := h.toShown.loop h.list.chain h.list.nodup h.alone
    (h.list.length_le.trans hfuel) hends
  rw [if_pos h.mem] at hshown
  refine ⟨hshown, h.list.same hsame, h.mem, fun k hk hki => ?_⟩
  rw [hsame.location_eq, tickData_location]
  exact h.alone k hk hki

/-- **One call** about another location, or a tasklet. -/
theorem Blinking.step (h : Blinking b i d l) (hfuel : numSlots ≤ fuel) {call : BlinkCall}
    (hsafe : SafeCall b call) (hleaves : LeavesAlone d.location call)
    (hstep : blinkStep fuel b call = some b') :
    ∃ l', Blinking b' i (tickData^[call.tasklets] d) l' := by
  cases call with
  | add user =>
    cases hstep
    exact h.added hsafe hleaves
  | remove arg =>
    obtain ⟨⟨r, b''⟩, hrun, rfl⟩ := Option.map_eq_some_iff.1 hstep
    exact h.removed hfuel hleaves hrun
  | find location =>
    obtain ⟨r, -, rfl⟩ := Option.map_eq_some_iff.1 hstep
    exact ⟨l, h⟩
  | sync arg =>
    obtain ⟨⟨r, b''⟩, hrun, rfl⟩ := Option.map_eq_some_iff.1 hstep
    exact h.synced hfuel hleaves hrun
  | tasklet => exact ⟨l, h.ticked hfuel hstep⟩

theorem iterate_tickData_location (n : ℕ) (d : BlinkData) :
    (tickData^[n] d).location = d.location := by
  induction n generalizing d with
  | zero => rfl
  | succ n ih => rw [Function.iterate_succ_apply, ih, tickData_location]

/-- **A run of calls** about other locations: only the tasklets count. -/
theorem Blinking.run (h : Blinking b i d l) (hfuel : numSlots ≤ fuel) {calls : List BlinkCall}
    (hsafe : Guarded (blinkStep fuel)
      (fun b call => SafeCall b call ∧ LeavesAlone d.location call) b calls)
    (hrun : run (blinkStep fuel) b calls = some b') :
    ∃ l', Blinking b' i (tickData^[(calls.map BlinkCall.tasklets).sum] d) l' := by
  induction calls generalizing b d l with
  | nil =>
    cases hrun
    exact ⟨l, h⟩
  | cons call calls ih =>
    obtain ⟨b1, hb1, hrest⟩ := run_cons_eq_some.1 hrun
    obtain ⟨⟨hs, hl⟩, hguard⟩ := hsafe b1 hb1
    obtain ⟨l1, h1⟩ := h.step hfuel hs hl hb1
    rw [← iterate_tickData_location call.tasklets d] at hguard
    obtain ⟨l', h'⟩ := ih h1 hguard hrest
    refine ⟨l', ?_⟩
    rw [List.map_cons, List.sum_cons, Nat.add_comm, Function.iterate_add_apply]
    exact h'

end Calls

/-! ### Blinking -/

section Blinks

variable {b b' : Blink} {l : List BlinkSlot} {user : BlinkData} {fuel : ℕ}

/-- A structure with a location of its own blinks once it is added. -/
theorem blinking_added (h : ListOk b l) (hsafe : SafeCall b (.add user))
    (hnew : ∀ j ∈ l, b.location j ≠ user.location) (hadd : mp1IoctlAdd user b = (0, b'))
    (hon : 0 < user.onLength.toInt) : ∃ i l', Blinking b' i (phaseAt user 0) l' := by
  have hpos : 0 < user.onLength.toNat := by
    rw [BitVec.toInt_eq_toNat_cond] at hon
    split_ifs at hon <;> omega
  have hphase : phaseAt user 0 = { user with status := 1, countdown := user.onLength } := by
    simp only [phaseAt, Nat.zero_mod, if_pos hpos, Nat.sub_zero, BitVec.ofNat_toNat,
      BitVec.setWidth_eq]
  rcases mp1IoctlAdd_cases h hsafe with hno | ⟨i, hi, hyes⟩
  · rw [hno] at hadd
    have hresult : (-1 : ℤ) = 0 := congrArg Prod.fst hadd
    exact absurd hresult (by decide)
  · rw [hyes] at hadd
    obtain rfl := congrArg Prod.snd hadd
    rw [hphase]
    refine ⟨i, i :: l, ⟨⟨?_, ?_⟩, (listOk_added h hi _).same (sameLinks_poke _ _ _),
      List.mem_cons_self, ?_⟩⟩
    · show (Function.update b.blinkArray i _ i).toBlinkData = _
      rw [Function.update_self]
    · rw [← hphase, glyph_phaseAt, Nat.zero_mod, if_pos hpos, phaseAt_location]
      exact Function.update_self ..
    · intro j hj hji
      show (b.setSlot i _).location j ≠ _
      rw [location_setSlot, Function.update_of_ne hji]
      exact hnew j ((List.mem_cons.1 hj).resolve_left hji)

theorem iterate_tickData_phaseAt (hon : 0 < user.onLength.toInt) (hoff : 0 < user.offLength.toInt)
    (n t : ℕ) : tickData^[n] (phaseAt user t) = phaseAt user (t + n) := by
  induction n generalizing t with
  | zero => rfl
  | succ n ih =>
    rw [Function.iterate_succ_apply, tickData_phaseAt hon hoff, ih]
    congr 1
    omega

/-- `mp1_ioctl_find` finds a structure with a location of its own. -/
theorem Blinking.find {i : BlinkSlot} {d : BlinkData} (h : Blinking b i d l)
    (hfuel : numSlots ≤ fuel) :
    ∃ s, mp1IoctlFind fuel d.location b = some (0, some s) ∧ s.toBlinkData = d := by
  refine ⟨b.blinkArray i, ?_, h.data⟩
  have hfind : l.find? (fun j => b.location j == d.location) = some i := by
    cases hf : l.find? fun j => b.location j == d.location with
    | none => exact absurd (beq_iff_eq.2 h.location) (List.find?_eq_none.1 hf i h.mem)
    | some j =>
      have hj := List.find?_some hf
      by_contra hne
      exact h.alone j (List.mem_of_find?_eq_some hf) (fun hji => hne (by rw [hji])) (eq_of_beq hj)
  rw [mp1IoctlFind, findHelper_eq h.list hfuel, hfind, Option.map_some]

/-- **The characters blink.**  A structure that is added at a location of its own shows its first
character for `onLength` tasklets, then the second one for `offLength`, and so on, whatever is done
with other locations in between. -/
theorem blinks (hfuel : numSlots ≤ fuel) {vmem : Memory} {before calls : List BlinkCall}
    {b0 b1 b2 : Blink} (hbefore : Guarded (blinkStep fuel) SafeCall (blinkInit vmem) before)
    (hb0 : run (blinkStep fuel) (blinkInit vmem) before = some b0)
    (hsafe : SafeCall b0 (.add user)) (hnew : ∀ j, InList b0 j → b0.location j ≠ user.location)
    (hadd : mp1IoctlAdd user b0 = (0, b1)) (hon : 0 < user.onLength.toInt)
    (hoff : 0 < user.offLength.toInt)
    (hcalls : Guarded (blinkStep fuel)
      (fun b call => SafeCall b call ∧ LeavesAlone user.location call) b1 calls)
    (hb2 : run (blinkStep fuel) b1 calls = some b2) :
    let t := (calls.map BlinkCall.tasklets).sum
    (∃ s, mp1IoctlFind fuel user.location b2 = some (0, some s) ∧
        s.toBlinkData = phaseAt user t) ∧
      b2.vmem (2 * user.location.toNat) =
        if t % (user.onLength.toNat + user.offLength.toNat) < user.onLength.toNat then user.onChar
        else user.offChar := by
  intro t
  obtain ⟨l, hl⟩ : ∃ l, ListOk b0 l := by
    refine invariant_of_guarded (I := fun b => ∃ l, ListOk b l) ?_ ⟨[], listOk_init vmem⟩ hbefore
      hb0
    rintro b call b' ⟨l, h⟩ hcall hstep
    obtain ⟨b'', l', hrun, hl'⟩ := call_ends h hfuel hcall
    obtain rfl := Option.some_inj.1 (hrun.symm.trans hstep)
    exact ⟨l', hl'⟩
  obtain ⟨i, l1, h1⟩ := blinking_added hl hsafe (fun j hj => hnew j (hl.mem_iff.2 hj)) hadd hon
  rw [← phaseAt_location user 0] at hcalls
  obtain ⟨l2, h2⟩ := h1.run hfuel hcalls hb2
  rw [iterate_tickData_phaseAt hon hoff, Nat.zero_add] at h2
  constructor
  · have hfind := h2.find hfuel
    rwa [phaseAt_location] at hfind
  · have hshown := h2.shown
    rw [phaseAt_location] at hshown
    rw [hshown]
    exact glyph_phaseAt

/-- A character that is shown for two tasklets, and another one for one. -/
def fishEye : BlinkData := ⟨540, 0x49, 0x4D, 2, 1, 0, 0⟩

/-- Five tasklets and calls about other locations. -/
def fiveTasklets : List BlinkCall :=
  [.tasklet, .find 60, .tasklet, .remove 60, .tasklet, .tasklet, .sync 0x21C003C, .tasklet]

theorem blinks_five :
    ∃ b2, run (blinkStep numSlots) (mp1IoctlAdd fishEye (blinkInit fun _ => 0)).2 fiveTasklets =
        some b2 ∧
      (∃ s, mp1IoctlFind numSlots 540 b2 = some (0, some s) ∧
        s.toBlinkData = phaseAt fishEye 5) ∧ b2.vmem 1080 = 0x4D := by
  have hempty : ∀ i, ¬ InList (blinkInit fun _ => 0) i := by
    rintro i ⟨h, hhead, -⟩
    cases hhead
  have hsome : (run (blinkStep numSlots) (mp1IoctlAdd fishEye (blinkInit fun _ => 0)).2
      fiveTasklets).isSome = true := by decide +kernel
  obtain ⟨b2, hb2⟩ := Option.isSome_iff_exists.1 hsome
  have hleaves : ∀ call ∈ fiveTasklets, ∀ b,
      SafeCall b call ∧ LeavesAlone fishEye.location call := by
    simp only [fiveTasklets, List.forall_mem_cons, List.not_mem_nil, false_imp_iff, implies_true,
      and_true]
    refine ⟨?_, ?_, ?_, ?_, ?_, ?_, ?_, ?_⟩ <;> intro b <;> exact ⟨trivial, by decide⟩
  have hbefore : Guarded (blinkStep numSlots) SafeCall (blinkInit fun _ => 0) [] := guarded_nil _
  have hblinks := blinks le_rfl hbefore rfl
    (fun _ i hi => absurd hi (hempty i)) (fun j hj => absurd hj (hempty j)) rfl (by decide)
    (by decide) (guarded_of_mem hleaves _) hb2
  exact ⟨b2, hb2, hblinks⟩

end Blinks

end LinuxIsLove
