import Mathlib

/-!
# `while` loops

`loopWhile cond body fuel s` runs `while (cond) body` from the state `s` for at most `fuel` rounds
and has no result when the loop still goes on then.  `loopWhile_rule` is the rule of total
correctness (an invariant and a measure that each round decreases), `loopWhile_count` its form for a
loop that counts down, and `loopWhile_none` its counterpart for a loop that never ends.
-/

namespace Loops

variable {σ : Type*} {cond : σ → Bool} {body : σ → σ} {s : σ} {fuel : ℕ}

/-- Repeat the body as long as the condition holds; `none` once the fuel is used up. -/
def loopWhile (cond : σ → Bool) (body : σ → σ) : ℕ → σ → Option σ
  | 0, s => if cond s then none else some s
  | fuel + 1, s => if cond s then loopWhile cond body fuel (body s) else some s

theorem loopWhile_stop (h : cond s = false) (fuel : ℕ) : loopWhile cond body fuel s = some s := by
  cases fuel <;> simp [loopWhile, h]

theorem loopWhile_go (h : cond s = true) (fuel : ℕ) :
    loopWhile cond body (fuel + 1) s = loopWhile cond body fuel (body s) := by
  simp [loopWhile, h]

/-- **The rule for `while`.**  The measure bounds the number of rounds. -/
theorem loopWhile_rule {I : σ → Prop} {μ : σ → ℕ}
    (hstep : ∀ s, I s → cond s = true → I (body s) ∧ μ (body s) < μ s)
    (hs : I s) (hfuel : μ s ≤ fuel) :
    ∃ t, loopWhile cond body fuel s = some t ∧ I t ∧ cond t = false := by
  induction fuel generalizing s with
  | zero =>
    cases hc : cond s with
    | true =>
      have hlt := (hstep s hs hc).2
      omega
    | false => exact ⟨s, loopWhile_stop hc 0, hs, hc⟩
  | succ fuel ih =>
    cases hc : cond s with
    | true =>
      obtain ⟨hbody, hlt⟩ := hstep s hs hc
      rw [loopWhile_go hc]
      exact ih hbody (by omega)
    | false => exact ⟨s, loopWhile_stop hc _, hs, hc⟩

/-- **The rule for a loop that counts down**: `P k` holds after `k` rounds. -/
theorem loopWhile_count {P : ℕ → σ → Prop} {μ : σ → ℕ} {n k : ℕ}
    (hstep : ∀ k s, P k s → k + μ s = n → cond s = true →
      P (k + 1) (body s) ∧ μ (body s) + 1 = μ s)
    (hs : P k s) (hn : k + μ s = n) (hfuel : μ s ≤ fuel) :
    ∃ t j, loopWhile cond body fuel s = some t ∧ P j t ∧ j + μ t = n ∧ cond t = false := by
  have hround : ∀ s, (∃ k, P k s ∧ k + μ s = n) → cond s = true →
      (∃ k, P k (body s) ∧ k + μ (body s) = n) ∧ μ (body s) < μ s := by
    rintro s ⟨k, hk, hleft⟩ hc
    obtain ⟨hnext, hdown⟩ := hstep k s hk hleft hc
    exact ⟨⟨k + 1, hnext, by omega⟩, by omega⟩
  obtain ⟨t, hrun, ⟨j, hj, hleft⟩, hstop⟩ := loopWhile_rule hround ⟨k, hs, hn⟩ hfuel
  exact ⟨t, j, hrun, hj, hleft, hstop⟩

/-- A loop whose condition is kept up by its body never ends. -/
theorem loopWhile_none {I : σ → Prop} (hcond : ∀ s, I s → cond s = true)
    (hstep : ∀ s, I s → I (body s)) (hs : I s) (fuel : ℕ) : loopWhile cond body fuel s = none := by
  induction fuel generalizing s with
  | zero => simp [loopWhile, hcond s hs]
  | succ fuel ih =>
    rw [loopWhile_go (hcond s hs)]
    exact ih (hstep s hs)

end Loops
