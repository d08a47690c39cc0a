import Mathlib.Data.Nat.Count
import Mathlib.Logic.Function.Iterate

/-!
# Turns on a circle

Some of `n` places on a circle are busy.  `next` goes from a place to the next busy one, and stays
where it is only if there is no other.  A place that is busy has its turn once in as many turns as
there are busy places.
-/

namespace Rotation

variable {busy : ℕ → Bool} {n r t d : ℕ}

/-- The places after `r`, itself last. -/
def places (n r : ℕ) : List ℕ := (List.range n).map fun i => (r + (i + 1)) % n

/-- The next busy place. -/
def next (busy : ℕ → Bool) (n r : ℕ) : ℕ := ((places n r).find? busy).getD r

/-- How many of the `d` places after `r` are busy. -/
def passed (busy : ℕ → Bool) (n r d : ℕ) : ℕ :=
  Nat.count (fun i => busy ((r + (i + 1)) % n) = true) d

theorem places_mod (n r : ℕ) : places n (r % n) = places n r := by
  simp only [places, Nat.mod_add_mod]

/-- The first busy place after `r`. -/
theorem next_spec (h1 : 1 ≤ d) (hd : d ≤ n) (hbusy : busy ((r + d) % n) = true) :
    ∃ j, 1 ≤ j ∧ j ≤ d ∧ next busy n (r % n) = (r + j) % n ∧ passed busy n r j = 1 := by
  have hmem : (r + d) % n ∈ places n r :=
    List.mem_map.2 ⟨d - 1, List.mem_range.2 (by omega), by rw [Nat.sub_add_cancel h1]⟩
  obtain ⟨t, ht⟩ := Option.isSome_iff_exists.1 (List.find?_isSome.2 ⟨_, hmem, hbusy⟩)
  obtain ⟨htbusy, i, hi, hget, hfirst⟩ := List.find?_eq_some_iff_getElem.1 ht
  have hplace : ∀ j (hj : j < (places n r).length), (places n r)[j] = (r + (j + 1)) % n := by
    intro j hj
    simp only [places, List.getElem_map, List.getElem_range]
  have hlen : (places n r).length = n := by simp [places]
  have hbefore : ∀ j < i, busy ((r + (j + 1)) % n) = false := by
    intro j hj
    have h := hfirst j hj
    rw [hplace] at h
    simpa using h
  rw [hplace] at hget
  refine ⟨i + 1, Nat.succ_pos i, ?_, ?_, ?_⟩
  · by_contra hlt
    have h := hbefore (d - 1) (by omega)
    rw [Nat.sub_add_cancel h1, hbusy] at h
    exact absurd h (by decide)
  · rw [next, places_mod, ht, Option.getD_some, hget]
  · have hnone : Nat.count (fun j => busy ((r + (j + 1)) % n) = true) i = 0 := by
      rw [Nat.count_iff_forall_not]
      intro j hj
      rw [hbefore j hj]
      exact Bool.false_ne_true
    rw [passed, Nat.count_succ, hnone, if_pos (by rw [hget]; exact htbusy)]

theorem passed_add (busy : ℕ → Bool) (n r j e : ℕ) :
    passed busy n r (j + e) = passed busy n r j + passed busy n (r + j) e := by
  rw [passed, Nat.count_add]
  simp only [passed, Nat.add_assoc]

/-- A busy place has its turn after the busy places before it. -/
theorem iterate_next (hd : d ≤ n) (h1 : 1 ≤ d) (hbusy : busy ((r + d) % n) = true) :
    (next busy n)^[passed busy n r d] (r % n) = (r + d) % n := by
  induction d using Nat.strong_induction_on generalizing r with
  | _ d ih =>
    obtain ⟨j, hj1, hjd, hnext, hpassed⟩ := next_spec h1 hd hbusy
    obtain ⟨e, rfl⟩ := Nat.exists_eq_add_of_le hjd
    rw [passed_add, hpassed, Nat.add_comm 1, Function.iterate_succ_apply, hnext]
    rcases Nat.eq_zero_or_pos e with rfl | he
    · rfl
    · rw [← Nat.add_assoc] at hbusy ⊢
      exact ih e (by omega) (by omega) he hbusy

/-- On the way round every busy place is passed once. -/
theorem passed_all (busy : ℕ → Bool) (n r : ℕ) :
    passed busy n r n = Nat.count (fun i => busy (i % n) = true) n := by
  have hleft := Nat.count_add (fun i => busy (i % n) = true) (r + 1) n
  have hright := Nat.count_add (fun i => busy (i % n) = true) n (r + 1)
  simp only [Nat.add_mod_left] at hright
  rw [Nat.add_comm n, hleft, Nat.add_comm] at hright
  have hshift := Nat.add_right_cancel hright
  rw [← hshift, passed]
  simp only [Nat.add_assoc, Nat.add_comm 1]

/-- **No place is left out**: from any place, a busy one has its turn within as many turns as there
are busy places. -/
theorem exists_iterate_next (hr : r < n) (ht : t < n) (hbusy : busy t = true) :
    ∃ i, 1 ≤ i ∧ i ≤ Nat.count (fun i => busy (i % n) = true) n ∧ (next busy n)^[i] r = t := by
  obtain ⟨d, h1, hd, hdt⟩ : ∃ d, 1 ≤ d ∧ d ≤ n ∧ (r + d) % n = t := by
    by_cases hrt : r < t
    · refine ⟨t - r, by omega, by omega, ?_⟩
      rw [Nat.add_sub_cancel' hrt.le, Nat.mod_eq_of_lt ht]
    · refine ⟨n - (r - t), by omega, by omega, ?_⟩
      have hsum : r + (n - (r - t)) = t + n := by omega
      rw [hsum, Nat.add_mod_right, Nat.mod_eq_of_lt ht]
  rw [← hdt] at hbusy
  obtain ⟨j, hj1, hjd, -, hpassed⟩ := next_spec h1 hd hbusy
  refine ⟨passed busy n r d, ?_, ?_, ?_⟩
  · obtain ⟨e, rfl⟩ := Nat.exists_eq_add_of_le hjd
    rw [passed_add, hpassed]
    omega
  · rw [← passed_all busy n r]
    exact Nat.count_monotone _ hd
  · have h := iterate_next hd h1 hbusy
    rwa [Nat.mod_eq_of_lt hr, hdt] at h

/-- A search for something at a busy place finds it at the next one. -/
theorem findSome?_places {α : Type*} (f : ℕ → Option α) (n r : ℕ)
    (h : (f r).isSome = true) (hr : r < n) :
    (places n r).findSome? f = f (next (fun i => (f i).isSome) n r) := by
  have hlist : ∀ l : List ℕ, l.findSome? f = (l.find? fun i => (f i).isSome).bind f := by
    intro l
    induction l with
    | nil => rfl
    | cons a l ih =>
      cases ha : f a with
      | none => rw [List.findSome?_cons, List.find?_cons, ha, ih]; rfl
      | some x =>
        rw [List.findSome?_cons, List.find?_cons, ha]
        exact ha.symm
  have hmem : r ∈ places n r := by
    refine List.mem_map.2 ⟨n - 1, List.mem_range.2 (by omega), ?_⟩
    rw [Nat.sub_add_cancel (by omega), Nat.add_mod_right, Nat.mod_eq_of_lt hr]
  obtain ⟨t, ht⟩ := Option.isSome_iff_exists.1
    (List.find?_isSome (p := fun i => (f i).isSome) |>.2 ⟨r, hmem, h⟩)
  rw [hlist, next, ht]
  rfl

end Rotation
