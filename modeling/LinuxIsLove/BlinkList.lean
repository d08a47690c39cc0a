import LinuxIsLove.Source.Blink
import LinuxIsLove.Foundation.Linked
import LinuxIsLove.Foundation.Runs

/-!
# The list of blinking characters stays a finite list

`ListOk b l` ties the two views of the slots together: the pointers from the head visit exactly the
slots of `l`, none twice, and every other slot has location 0, which is what `mp1_malloc` takes for
a free slot.  Each call keeps it, unless `mp1_ioctl_add` is called while an element of location 0
lies before every free slot: then that element is taken for a free slot.
-/

namespace LinuxIsLove

open Bytes Loops Linked EventMachine

/-! ### The list -/

/-- The slot is an element of the list: pointers lead to it from the head. -/
def InList (b : Blink) (i : BlinkSlot) : Prop :=
  ∃ h, b.listHead = some h ∧ Relation.ReflTransGen (fun x y => b.next x = some y) h i

/-- The list visits distinct slots and ends. -/
def FiniteList (b : Blink) : Prop := ∃ l, Chain b.next b.listHead l ∧ l.Nodup

structure ListOk (b : Blink) (l : List BlinkSlot) : Prop where
  chain : Chain b.next b.listHead l
  nodup : l.Nodup
  free : ∀ i ∉ l, b.location i = 0

/-- Neither the pointers nor the locations have changed. -/
structure SameLinks (b b' : Blink) : Prop where
  head_eq : b'.listHead = b.listHead
  next_eq : b'.next = b.next
  location_eq : b'.location = b.location

section Links

variable {b b' b'' : Blink} {l : List BlinkSlot} {i : BlinkSlot}

theorem ListOk.mem_iff (h : ListOk b l) : InList b i ↔ i ∈ l := by
  constructor
  · rintro ⟨first, hhead, hreach⟩
    have hc := h.chain
    rw [hhead] at hc
    exact hc.mem_of_reach hreach
  · intro hi
    exact h.chain.reach hi

/-- A list without repetition has at most as many elements as there are slots. -/
theorem ListOk.length_le (h : ListOk b l) : l.length ≤ numSlots := by
  have hcard := h.nodup.length_le_card
  rwa [Fintype.card_fin] at hcard

theorem SameLinks.refl (b : Blink) : SameLinks b b := ⟨rfl, rfl, rfl⟩

theorem SameLinks.trans (h : SameLinks b b') (h' : SameLinks b' b'') : SameLinks b b'' :=
  ⟨h'.head_eq.trans h.head_eq, h'.next_eq.trans h.next_eq, h'.location_eq.trans h.location_eq⟩

theorem ListOk.same (h : ListOk b l) (hs : SameLinks b b') : ListOk b' l where
  chain := by
    rw [hs.next_eq, hs.head_eq]
    exact h.chain
  nodup := h.nodup
  free i hi := by
    rw [hs.location_eq]
    exact h.free i hi

theorem next_setSlot (b : Blink) (i : BlinkSlot) (s : BlinkStruct) :
    (b.setSlot i s).next = Function.update b.next i s.next := by
  funext j
  by_cases hj : j = i
  · subst hj
    simp [Blink.next, Blink.setSlot]
  · simp [Blink.next, Blink.setSlot, hj]

theorem location_setSlot (b : Blink) (i : BlinkSlot) (s : BlinkStruct) :
    (b.setSlot i s).location = Function.update b.location i s.location := by
  funext j
  by_cases hj : j = i
  · subst hj
    simp [Blink.location, Blink.setSlot]
  · simp [Blink.location, Blink.setSlot, hj]

theorem sameLinks_poke (b : Blink) (location : BitVec 16) (cl : UInt8) :
    SameLinks b (b.poke location cl) := ⟨rfl, rfl, rfl⟩

/-- A store that leaves the pointer and the location of the structure as they are. -/
theorem sameLinks_setSlot {s : BlinkStruct} (hn : s.next = b.next i)
    (hl : s.location = b.location i) : SameLinks b (b.setSlot i s) where
  head_eq := rfl
  next_eq := by rw [next_setSlot, hn, Function.update_eq_self]
  location_eq := by rw [location_setSlot, hl, Function.update_eq_self]

theorem taskletRound_same (b : Blink) (i : BlinkSlot) : SameLinks b (taskletRound b i) := by
  unfold taskletRound
  dsimp only
  split_ifs
  · exact sameLinks_setSlot rfl rfl
  · exact (sameLinks_poke b _ _).trans (sameLinks_setSlot rfl rfl)
  · exact (sameLinks_poke b _ _).trans (sameLinks_setSlot rfl rfl)

theorem syncCopy_same (esi edi : BlinkSlot) (b : Blink) : SameLinks b (syncCopy esi edi b) := by
  refine SameLinks.trans ?_ (sameLinks_poke (b.setSlot edi _) _ _)
  exact sameLinks_setSlot rfl rfl

end Links

/-! ### The loops along the list -/

section Walks

variable {b : Blink} {l l₁ l₂ : List BlinkSlot} {i : BlinkSlot} {fuel : ℕ}

theorem findHelper_eq (h : ListOk b l) (hfuel : numSlots ≤ fuel) (ax : BitVec 16) :
    mp1FindHelper fuel b ax = some (l.find? fun i => b.location i == ax) :=
  search_eq h.chain (h.length_le.trans hfuel)

theorem taskletLoop_ends {p : Option BlinkSlot} (hc : Chain b.next p l) (hfuel : l.length ≤ fuel) :
    ∃ b', taskletLoop fuel (p, b) = some (none, b') ∧ SameLinks b b' := by
  induction l generalizing b p fuel with
  | nil =>
    obtain rfl : p = none := hc
    exact ⟨b, loopWhile_stop rfl fuel, SameLinks.refl b⟩
  | cons i l ih =>
    obtain ⟨rfl, hrest⟩ := hc
    obtain ⟨f, rfl⟩ : ∃ f, fuel = f + 1 := ⟨fuel - 1, by simp at hfuel; omega⟩
    have hsame := taskletRound_same b i
    rw [← hsame.next_eq] at hrest
    obtain ⟨b', hrun, hb'⟩ := ih hrest (by simpa using hfuel)
    exact ⟨b', (loopWhile_go rfl f).trans hrun, hsame.trans hb'⟩

theorem tasklet_ends (h : ListOk b l) (hfuel : numSlots ≤ fuel) :
    ∃ b', mp1RtcTasklet fuel b = some b' ∧ SameLinks b b' := by
  obtain ⟨b', hrun, hb'⟩ := taskletLoop_ends h.chain (h.length_le.trans hfuel)
  exact ⟨b', by rw [mp1RtcTasklet, hrun, Option.map_some], hb'⟩

/-- The place of the pointer that follows the elements of a list, from the place of the first. -/
def cellAfter : Cell → List BlinkSlot → Cell
  | cell, [] => cell
  | _, a :: l => cellAfter (.next a) l

/-- The loop of `mp1_ioctl_remove` ends at the place that holds the pointer to the element. -/
theorem removeFindPrev_eq {cell : Cell} (hc : Chain b.next (cell.get b) (l₁ ++ i :: l₂))
    (hi : i ∉ l₁) (hfuel : l₁.length ≤ fuel) :
    removeFindPrev b i fuel (some cell) = some (some (cellAfter cell l₁)) := by
  induction l₁ generalizing cell fuel with
  | nil =>
    have hhead : cell.get b = some i := hc.1
    exact loopWhile_stop (by simp [hhead]) fuel
  | cons a l₁ ih =>
    have hhead : cell.get b = some a := hc.1
    have hne : a ≠ i := by
      rintro rfl
      exact hi List.mem_cons_self
    obtain ⟨f, rfl⟩ : ∃ f, fuel = f + 1 := ⟨fuel - 1, by simp at hfuel; omega⟩
    refine (loopWhile_go (by simp [hhead, hne]) f).trans ?_
    show removeFindPrev b i f ((cell.get b).map Cell.next) = _
    rw [hhead, Option.map_some]
    exact ih hc.2 (fun hmem => hi (List.mem_cons_of_mem a hmem)) (by simpa using hfuel)

end Walks

/-! ### The allocator -/

section Allocator

variable {b : Blink} {l : List BlinkSlot} {i : BlinkSlot}

theorem mallocLoop_some {left k : ℕ} (h : mp1MallocLoop b left k = some i) :
    b.location i = 0 ∧ ∀ j : BlinkSlot, k ≤ j → j < i → b.location j ≠ 0 := by
  induction left generalizing k with
  | zero => cases h
  | succ left ih =>
    rw [mp1MallocLoop] at h
    split_ifs at h with hk h0
    · cases h
      exact ⟨h0, fun j hkj hj => absurd (Fin.lt_def.1 hj) (not_lt.2 hkj)⟩
    · obtain ⟨hi, hlow⟩ := ih h
      refine ⟨hi, fun j hkj hj => ?_⟩
      rcases Nat.lt_or_eq_of_le hkj with hlt | heq
      · exact hlow j hlt hj
      · obtain rfl : j = ⟨k, hk⟩ := Fin.ext heq.symm
        exact h0

theorem mallocLoop_none {left k : ℕ} (h : mp1MallocLoop b left k = none) (j : BlinkSlot)
    (hkj : k ≤ j) (hj : (j : ℕ) < k + left) : b.location j ≠ 0 := by
  induction left generalizing k with
  | zero => omega
  | succ left ih =>
    rw [mp1MallocLoop] at h
    split_ifs at h with hk h0
    · rcases Nat.lt_or_eq_of_le hkj with hlt | heq
      · exact ih h hlt (by omega)
      · obtain rfl : j = ⟨k, hk⟩ := Fin.ext heq.symm
        exact h0
    · have hlt := j.isLt
      omega

/-- `mp1_malloc` returns the first slot of location 0. -/
theorem malloc_some (h : mp1Malloc b = some i) :
    b.location i = 0 ∧ ∀ j < i, b.location j ≠ 0 := by
  obtain ⟨hi, hlow⟩ := mallocLoop_some h
  exact ⟨hi, fun j hj => hlow j (Nat.zero_le _) hj⟩

theorem exists_malloc (h : b.location i = 0) : ∃ j ≤ i, mp1Malloc b = some j := by
  cases hm : mp1Malloc b with
  | none => exact absurd h (mallocLoop_none hm i (Nat.zero_le _) (by have := i.isLt; omega))
  | some j => exact ⟨j, not_lt.1 fun hlt => (malloc_some hm).2 i hlt h, rfl⟩

end Allocator

/-! ### The calls -/

/-- Before each element of location 0 there is a slot outside the list, if a structure is added. -/
def SafeCall (b : Blink) : BlinkCall → Prop
  | .add user => user.location.toNat < numSlots →
      ∀ i, InList b i → b.location i = 0 → ∃ j < i, ¬ InList b j
  | _ => True

/-- `mp1_malloc` does not return an element of the list. -/
def NewSlot (b : Blink) : BlinkCall → Prop
  | .add user => user.location.toNat < numSlots → ∀ i, mp1Malloc b = some i → ¬ InList b i
  | _ => True

/-- The call ends and leaves a finite list, and if it allocates a slot, then a new one. -/
structure CallSound (fuel : ℕ) (b : Blink) (call : BlinkCall) : Prop where
  ends : ∃ b', blinkStep fuel b call = some b' ∧ FiniteList b'
  newSlot : NewSlot b call

section Calls

variable {b : Blink} {l : List BlinkSlot} {i : BlinkSlot} {user : BlinkData} {fuel : ℕ}
  {call : BlinkCall}

/-- The free slots have location 0, so `mp1_malloc` finds the first of them unless an element of
location 0 comes before. -/
theorem newSlot_iff (h : ListOk b l) : NewSlot b call ↔ SafeCall b call := by
  cases call with
  | add user =>
    refine forall_congr' fun _ => ⟨fun hnew i hi h0 => ?_, fun hsafe i hm hi => ?_⟩
    · obtain ⟨j, hle, hm⟩ := exists_malloc h0
      refine ⟨j, lt_of_le_of_ne hle ?_, hnew j hm⟩
      rintro rfl
      exact hnew j hm hi
    · obtain ⟨h0, hlow⟩ := malloc_some hm
      obtain ⟨j, hj, hout⟩ := hsafe i hi h0
      exact hlow j hj (h.free j fun hmem => hout (h.mem_iff.2 hmem))
  | _ => exact Iff.rfl

/-- A structure that has been added to the list. -/
theorem listOk_added (h : ListOk b l) (hi : i ∉ l) (s : BlinkData) :
    ListOk { b.setSlot i ⟨s, b.listHead⟩ with listHead := some i } (i :: l) where
  chain := by
    refine ⟨rfl, ?_⟩
    show Chain (b.setSlot i _).next ((b.setSlot i _).next i) l
    rw [next_setSlot, Function.update_self]
    exact h.chain.update hi _
  nodup := List.nodup_cons.2 ⟨hi, h.nodup⟩
  free j hj := by
    rw [List.mem_cons, not_or] at hj
    show (b.setSlot i _).location j = 0
    rw [location_setSlot, Function.update_of_ne hj.1]
    exact h.free j hj.2

/-- What `mp1_ioctl_add` does. -/
theorem mp1IoctlAdd_cases (h : ListOk b l) (hsafe : SafeCall b (.add user)) :
    mp1IoctlAdd user b = (-1, b) ∨ ∃ j, j ∉ l ∧ mp1IoctlAdd user b =
      (0, ({ b.setSlot j ⟨{ user with status := 1, countdown := user.onLength }, b.listHead⟩ with
        listHead := some j } : Blink).poke user.location user.onChar) := by
  unfold mp1IoctlAdd
  split_ifs with hloc
  · exact Or.inl rfl
  · cases hm : mp1Malloc b with
    | none => exact Or.inl rfl
    | some j =>
      exact Or.inr ⟨j, fun hmem =>
        (newSlot_iff h).2 hsafe (not_le.1 hloc) j hm (h.mem_iff.2 hmem), rfl⟩

theorem listOk_add (h : ListOk b l) (hsafe : SafeCall b (.add user)) :
    ∃ l', ListOk (mp1IoctlAdd user b).2 l' := by
  rcases mp1IoctlAdd_cases h hsafe with hadd | ⟨j, hj, hadd⟩
  · rw [hadd]
    exact ⟨l, h⟩
  · rw [hadd]
    exact ⟨j :: l, (listOk_added h hj _).same (sameLinks_poke _ _ _)⟩

theorem cellAfter_concat (cell : Cell) (l₁ : List BlinkSlot) (p : BlinkSlot) :
    cellAfter cell (l₁ ++ [p]) = .next p := by
  induction l₁ generalizing cell with
  | nil => rfl
  | cons a l₁ ih => exact ih (.next a)

/-- A freed slot outside a list. -/
theorem listOk_free {b' : Blink} {l' : List BlinkSlot} (hc : Chain b'.next b'.listHead l')
    (hd : l'.Nodup) (hi : i ∉ l') (hfree : ∀ j ∉ l', j ≠ i → b'.location j = 0) :
    ListOk (mp1Free b' i) l' where
  chain := by
    show Chain (b'.setSlot i zeroStruct).next b'.listHead l'
    rw [next_setSlot]
    exact hc.update hi _
  nodup := hd
  free j hj := by
    show (b'.setSlot i zeroStruct).location j = 0
    rw [location_setSlot]
    by_cases hji : j = i
    · rw [hji, Function.update_self]
      rfl
    · rw [Function.update_of_ne hji]
      exact hfree j hj hji

/-- The list without the element that is taken out and freed. -/
theorem listOk_unlink {l₁ l₂ : List BlinkSlot} (h : ListOk b (l₁ ++ i :: l₂)) :
    ListOk (mp1Free ((cellAfter .head l₁).set b (b.next i)) i) (l₁ ++ l₂) := by
  have hnd : i ∉ l₁ ++ l₂ ∧ (l₁ ++ l₂).Nodup :=
    List.nodup_cons.1 (List.nodup_middle.1 h.nodup)
  have hother : ∀ j ∉ l₁ ++ l₂, j ≠ i → j ∉ l₁ ++ i :: l₂ := by
    intro j hj hji hmem
    rcases List.mem_append.1 hmem with hmem | hmem
    · exact hj (List.mem_append_left l₂ hmem)
    · exact hj (List.mem_append_right l₁ ((List.mem_cons.1 hmem).resolve_left hji))
  rcases List.eq_nil_or_concat' l₁ with rfl | ⟨l₀, p, rfl⟩
  · -- the first element: the head is changed
    refine listOk_free ?_ hnd.2 hnd.1 fun j hj hji => h.free j (hother j hj hji)
    exact h.chain.2
  · -- any other: the element before points behind it
    rw [cellAfter_concat]
    refine listOk_free ?_ hnd.2 hnd.1 fun j hj hji => ?_
    · show Chain (b.setSlot p _).next b.listHead _
      have hchain := h.chain
      have hdup := h.nodup
      rw [List.append_assoc] at hchain hdup
      rw [next_setSlot, List.append_assoc]
      exact hchain.unlink hdup
    · show (b.setSlot p _).location j = 0
      rw [location_setSlot]
      show Function.update b.location p (b.location p) j = 0
      rw [Function.update_eq_self]
      exact h.free j (hother j hj hji)

/-- What `mp1_ioctl_remove` does. -/
theorem mp1IoctlRemove_cases (h : ListOk b l) (hfuel : numSlots ≤ fuel) (arg : BitVec 32) :
    mp1IoctlRemove fuel arg b = some (-1, b) ∨ ∃ l₁ j l₂, l = l₁ ++ j :: l₂ ∧
      b.location j = arg.setWidth 16 ∧ mp1IoctlRemove fuel arg b =
        some (0, mp1Free ((cellAfter .head l₁).set b (b.next j)) j) := by
  rw [mp1IoctlRemove, findHelper_eq h hfuel, Option.bind_some]
  cases hfind : l.find? fun i => b.location i == arg.setWidth 16 with
  | none => exact Or.inl rfl
  | some j =>
    have hloc := List.find?_some hfind
    obtain ⟨l₁, l₂, rfl⟩ := List.append_of_mem (List.mem_of_find?_eq_some hfind)
    have hj : j ∉ l₁ := fun hmem =>
      (List.nodup_append.1 h.nodup).2.2 j hmem j List.mem_cons_self rfl
    have hlen : l₁.length ≤ fuel := by
      have hle := h.length_le
      rw [List.length_append] at hle
      omega
    have hprev : removeFindPrev b j fuel (some .head) = some (some (cellAfter .head l₁)) :=
      removeFindPrev_eq h.chain hj hlen
    refine Or.inr ⟨l₁, j, l₂, rfl, eq_of_beq hloc, ?_⟩
    show ((removeFindPrev b j fuel (some .head)).bind fun edx => edx.map fun cell =>
      ((0 : ℤ), mp1Free (cell.set b (b.next j)) j)) = _
    rw [hprev]
    rfl

theorem remove_ends (h : ListOk b l) (hfuel : numSlots ≤ fuel) (arg : BitVec 32) :
    ∃ r b' l', mp1IoctlRemove fuel arg b = some (r, b') ∧ ListOk b' l' := by
  rcases mp1IoctlRemove_cases h hfuel arg with hrem | ⟨l₁, j, l₂, rfl, -, hrem⟩
  · exact ⟨-1, b, l, hrem, h⟩
  · exact ⟨0, _, l₁ ++ l₂, hrem, listOk_unlink h⟩

/-- What `mp1_ioctl_sync` does. -/
theorem mp1IoctlSync_cases (h : ListOk b l) (hfuel : numSlots ≤ fuel) (arg : BitVec 32) :
    mp1IoctlSync fuel arg b = some (-1, b) ∨ ∃ esi edi,
      b.location edi = (arg &&& 0xFFFF#32).setWidth 16 ∧
        mp1IoctlSync fuel arg b = some (0, syncCopy esi edi b) := by
  rw [mp1IoctlSync, findHelper_eq h hfuel, Option.bind_some, findHelper_eq h hfuel]
  cases l.find? fun i => b.location i == (arg >>> 16).setWidth 16 with
  | none => exact Or.inl rfl
  | some esi =>
    cases hfind : l.find? fun i => b.location i == (arg &&& 0xFFFF#32).setWidth 16 with
    | none => exact Or.inl rfl
    | some edi =>
      have hloc := List.find?_some hfind
      exact Or.inr ⟨esi, edi, eq_of_beq hloc, rfl⟩

theorem sync_ends (h : ListOk b l) (hfuel : numSlots ≤ fuel) (arg : BitVec 32) :
    ∃ r b', mp1IoctlSync fuel arg b = some (r, b') ∧ SameLinks b b' := by
  rcases mp1IoctlSync_cases h hfuel arg with hsync | ⟨esi, edi, -, hsync⟩
  · exact ⟨-1, b, hsync, SameLinks.refl b⟩
  · exact ⟨0, syncCopy esi edi b, hsync, syncCopy_same esi edi b⟩

/-- **One call** ends and keeps the list. -/
theorem call_ends (h : ListOk b l) (hfuel : numSlots ≤ fuel) (hsafe : SafeCall b call) :
    ∃ b' l', blinkStep fuel b call = some b' ∧ ListOk b' l' := by
  cases call with
  | add user =>
    obtain ⟨l', hl'⟩ := listOk_add h hsafe
    exact ⟨_, l', rfl, hl'⟩
  | remove arg =>
    obtain ⟨r, b', l', hrun, hl'⟩ := remove_ends h hfuel arg
    exact ⟨b', l', by rw [blinkStep, hrun, Option.map_some], hl'⟩
  | find location =>
    refine ⟨b, l, ?_, h⟩
    rw [blinkStep, mp1IoctlFind, findHelper_eq h hfuel]
    rfl
  | sync arg =>
    obtain ⟨r, b', hrun, hsame⟩ := sync_ends h hfuel arg
    exact ⟨b', l, by rw [blinkStep, hrun, Option.map_some], h.same hsame⟩
  | tasklet =>
    obtain ⟨b', hrun, hsame⟩ := tasklet_ends h hfuel
    exact ⟨b', l, hrun, h.same hsame⟩

theorem callSound_iff (h : ListOk b l) (hfuel : numSlots ≤ fuel) :
    CallSound fuel b call ↔ SafeCall b call := by
  refine ⟨fun hs => (newSlot_iff h).1 hs.newSlot, fun hsafe => ⟨?_, (newSlot_iff h).2 hsafe⟩⟩
  obtain ⟨b', l', hrun, hl'⟩ := call_ends h hfuel hsafe
  exact ⟨b', hrun, l', hl'.chain, hl'.nodup⟩

end Calls

/-! ### Runs -/

theorem listOk_init (vmem : Memory) : ListOk (blinkInit vmem) [] :=
  ⟨rfl, List.nodup_nil, fun _ _ => rfl⟩

/-- **The list stays a finite list** along a run, and every call ends, exactly if each call that
adds a structure finds a slot outside the list before every element of location 0. -/
theorem callsSound_iff {fuel : ℕ} (hfuel : numSlots ≤ fuel) (vmem : Memory)
    (calls : List BlinkCall) :
    Along (blinkStep fuel) (CallSound fuel) (blinkInit vmem) calls ↔
      Along (blinkStep fuel) SafeCall (blinkInit vmem) calls := by
  refine along_congr (I := fun b => ∃ l, ListOk b l) ?_ ?_ ⟨[], listOk_init vmem⟩
  · rintro b call ⟨l, h⟩
    exact callSound_iff h hfuel
  · rintro b call b' ⟨l, h⟩ hsafe hstep
    obtain ⟨b'', l', hrun, hl'⟩ := call_ends h hfuel hsafe
    obtain rfl := Option.some_inj.1 (hrun.symm.trans hstep)
    exact ⟨l', hl'⟩

/-- A character for the upper left corner of the screen. -/
def originUser : BlinkData := ⟨0, 0x49, 0x4D, 7, 6, 0, 0⟩

theorem callsSound_iff_two :
    Along (blinkStep numSlots) (CallSound numSlots) (blinkInit fun _ => 0)
        [.add originUser, .remove 0, .tasklet] ↔
      Along (blinkStep numSlots) SafeCall (blinkInit fun _ => 0)
        [.add originUser, .remove 0, .tasklet] :=
  callsSound_iff le_rfl _ _

def firstSlot : BlinkSlot := ⟨0, by decide⟩

/-- The memory after the corner has been added twice. -/
def addedTwice : Blink :=
  (mp1IoctlAdd originUser (mp1IoctlAdd originUser (blinkInit fun _ => 0)).2).2

/-- A structure that points to itself keeps the tasklet going. -/
theorem tasklet_none {b : Blink} {i : BlinkSlot} (hhead : b.listHead = some i)
    (hself : b.next i = some i) (fuel : ℕ) : mp1RtcTasklet fuel b = none := by
  have hround : ∀ s : Option BlinkSlot × Blink, s.1 = some i ∧ s.2.next i = some i →
      (taskletRound s.2 i).next i = some i := by
    rintro s ⟨-, hs⟩
    rw [(taskletRound_same s.2 i).next_eq, hs]
  have hloop : taskletLoop fuel (b.listHead, b) = none := by
    refine loopWhile_none (I := fun s => s.1 = some i ∧ s.2.next i = some i) ?_ ?_
      ⟨hhead, hself⟩ fuel
    · rintro s ⟨hs, -⟩
      rw [hs]
      rfl
    · rintro ⟨p, b'⟩ ⟨rfl, hs⟩
      exact ⟨hround (some i, b') ⟨rfl, hs⟩, hround (some i, b') ⟨rfl, hs⟩⟩
  rw [mp1RtcTasklet, hloop, Option.map_none]

/-- The second call takes the slot of the first for a free one: the structure then points to itself,
and the tasklet never returns. -/
theorem origin_twice :
    run (blinkStep numSlots) (blinkInit fun _ => 0) [.add originUser, .add originUser] =
      some addedTwice ∧
    addedTwice.listHead = some firstSlot ∧ addedTwice.next firstSlot = some firstSlot ∧
    (∀ fuel, mp1RtcTasklet fuel addedTwice = none) ∧
    ¬ Along (blinkStep numSlots) (CallSound numSlots) (blinkInit fun _ => 0)
      [.add originUser, .add originUser, .tasklet] := by
  have hhead : addedTwice.listHead = some firstSlot := rfl
  have hself : addedTwice.next firstSlot = some firstSlot := rfl
  refine ⟨rfl, hhead, hself, tasklet_none hhead hself, fun h => ?_⟩
  obtain ⟨b', hrun, -⟩ := ((h.2 _ rfl).2 addedTwice rfl).1.ends
  have hnone : blinkStep numSlots addedTwice .tasklet = none := tasklet_none hhead hself numSlots
  rw [hnone] at hrun
  cases hrun

end LinuxIsLove
