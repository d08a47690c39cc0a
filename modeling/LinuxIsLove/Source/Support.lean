import LinuxIsLove.ProcessCalls
import LinuxIsLove.Foundation.Arrays
import LinuxIsLove.Source.Faults

/-!
# `ece391support.c` and `ece391syscall.h`: what user programs are written with

A user program is a client of the kernel.  Its arrays on the stack are memories of their own, whose
contents before the first assignment are a parameter of the program; a call that fills an array
replies with the bytes, and the program stores them.  A loop is given fuel.

The size of a `write` is what `ece391_strlen` returns, which is below `2 ^ 31` for every string in
an array of a program.
-/

namespace LinuxIsLove

open Bytes Clients

/-- A user program, up to its return from `main` with a value of type `α`. -/
abbrev Prog (α : Type) : Type := Client Request Reply α

/-! ### The system call wrappers -/

def ece391Open (name : List UInt8) : Prog ℤ := do
  let r ← Client.ask (.openFile name)
  return r.eax

def ece391Close (fd : ℤ) : Prog ℤ := do
  let r ← Client.ask (.closeFile fd)
  return r.eax

def ece391Read (fd nbytes : ℤ) : Prog Reply := Client.ask (.read fd nbytes)

/-- Write `nbytes` bytes of an array from `p` on. -/
def ece391Write (fd : ℤ) (m : Memory) (p : ℕ) (nbytes : ℤ) : Prog ℤ := do
  let r ← Client.ask (.write fd nbytes (bytesAt m p nbytes.toNat))
  return r.eax

def ece391Getargs (nbytes : ℤ) : Prog Reply := Client.ask (.getargs nbytes)

def ece391Vidmap (screenStart : ℕ) : Prog ℤ := do
  let r ← Client.ask (.vidmap screenStart)
  return r.eax

/-! ### Strings -/

/-- A string constant with its NUL. -/
def literal (s : String) : Memory := fun i => (ascii s).getD i 0

def ece391Fdputs (fd : ℤ) (m : Memory) (p : ℕ) : Prog Unit := do
  let _ ← ece391Write fd m p (strlen m p)

def ece391Strcpy (m : Memory) (dst src : ℕ) : Memory := strcpyAt (2 ^ 32) m dst src

/-- The loop of `ece391_strncmp`, with `n` as the variable that it counts down. -/
def ece391StrncmpLoop (s1 s2 : Memory) : ℕ → ℕ → ℕ → ℤ
  | 0, _, _ => 0
  | n + 1, i, j =>
    if s1 i = s2 j then
      if s1 i = 0 ∨ n = 0 then 0 else ece391StrncmpLoop s1 s2 n (i + 1) (j + 1)
    else ((s1 i).toNat : ℤ) - (s2 j).toNat

/-- The addresses of the two strings are given with their memories. -/
def ece391Strncmp (s1 : Memory) (p1 : ℕ) (s2 : Memory) (p2 n : ℕ) : ℤ :=
  if n = 0 then 0 else ece391StrncmpLoop s1 s2 n p1 p2

section Strncmp

variable {s1 s2 : Memory}

/-- The comparison with a string of which `n` bytes are not NUL. -/
theorem ece391StrncmpLoop_eq_zero {n i j : ℕ} (hnz : ∀ k < n, s2 (j + k) ≠ 0) :
    ece391StrncmpLoop s1 s2 n i j = 0 ↔ ∀ k < n, s1 (i + k) = s2 (j + k) := by
  induction n generalizing i j with
  | zero => exact iff_of_true rfl (by simp)
  | succ n ih =>
    have h0 : s2 j ≠ 0 := hnz 0 (Nat.succ_pos n)
    have hrest : ∀ k < n, s2 (j + 1 + k) ≠ 0 := by
      intro k hk
      rw [Nat.add_assoc, Nat.add_comm 1 k]
      exact hnz (k + 1) (by omega)
    rw [ece391StrncmpLoop]
    by_cases heq : s1 i = s2 j
    · have hall : (∀ k < n + 1, s1 (i + k) = s2 (j + k)) ↔
          ∀ k < n, s1 (i + 1 + k) = s2 (j + 1 + k) := by
        constructor
        · intro h k hk
          rw [Nat.add_assoc, Nat.add_assoc, Nat.add_comm 1 k]
          exact h (k + 1) (by omega)
        · intro h k hk
          cases k with
          | zero => exact heq
          | succ k =>
            have hk' := h k (by omega)
            rwa [Nat.add_assoc, Nat.add_assoc, Nat.add_comm 1 k] at hk'
      rw [if_pos heq, hall]
      by_cases hn : n = 0
      · rw [if_pos (Or.inr hn)]
        exact iff_of_true rfl fun k hk => by omega
      · rw [if_neg (by rw [heq]; tauto), ih hrest]
    · have hdiff : ((s1 i).toNat : ℤ) - (s2 j).toNat ≠ 0 := by
        intro hz
        exact heq (UInt8.toNat.inj (by omega))
      rw [if_neg heq]
      exact iff_of_false hdiff fun h => heq (h 0 (Nat.succ_pos n))

theorem ece391Strncmp_eq_zero {p1 p2 n : ℕ} (hnz : ∀ k < n, s2 (p2 + k) ≠ 0) :
    ece391Strncmp s1 p1 s2 p2 n = 0 ↔ ∀ k < n, s1 (p1 + k) = s2 (p2 + k) := by
  unfold ece391Strncmp
  split_ifs with hn
  · exact iff_of_true rfl fun k hk => by omega
  · exact ece391StrncmpLoop_eq_zero hnz

end Strncmp

end LinuxIsLove
