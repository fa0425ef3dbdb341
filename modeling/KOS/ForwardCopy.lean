import Mathlib

/-! Copying one element after the other, upwards, between places that may overlap. Nothing here
names a program. -/

namespace KOS.ForwardCopy

variable {ι α : Type*} [DecidableEq ι]

/-- The first `n` elements from the places `s` to the places `d`, each read when its turn comes. -/
def forward (m : ι → α) (s d : ℕ → ι) : ℕ → ι → α
  | 0 => m
  | n + 1 => Function.update (forward m s d n) (d n) (forward m s d n (s n))

variable {m : ι → α} {s d : ℕ → ι} {n i k : ℕ}

/-- A loop that advances its pointers copies the first element, then the others. -/
theorem forward_first (m : ι → α) (s d : ℕ → ι) (n : ℕ) :
    forward (Function.update m (d 0) (m (s 0))) (fun i => s (i + 1)) (fun i => d (i + 1)) n = forward m s d (n + 1) := by
  induction n with
  | zero => rfl
  | succ n ih =>
    rw [forward, ih]
    rfl

theorem forward_other {x : ι} (outside : ∀ i < n, x ≠ d i) : forward m s d n x = m x := by
  induction n with
  | zero => rfl
  | succ n ih =>
    rw [forward, Function.update_of_ne (outside n (Nat.lt_succ_self n))]
    exact ih fun i before => outside i (Nat.lt_succ_of_lt before)

/-- What arrives is what the source holds when its turn comes. -/
theorem forward_at (distinct : ∀ j < n, ∀ l < j, d j ≠ d l) (inside : i < n) :
    forward m s d n (d i) = forward m s d i (s i) := by
  induction n with
  | zero => exact absurd inside (Nat.not_lt_zero i)
  | succ n ih =>
    rw [forward]
    by_cases last : i = n
    · rw [last, Function.update_self]
    · have before : i < n := by omega
      rw [Function.update_of_ne (distinct n (Nat.lt_succ_self n) i before).symm]
      exact ih (fun j within => distinct j (Nat.lt_succ_of_lt within)) before

/-- No source is overwritten before its turn. -/
theorem forward_plain (distinct : ∀ j < n, ∀ l < j, d j ≠ d l) (apart : ∀ j < n, ∀ l < j, s j ≠ d l) (inside : i < n) :
    forward m s d n (d i) = m (s i) := by
  rw [forward_at distinct inside]
  exact forward_other (apart i inside)

/-- The destination begins `k` places above the source: the first `k` elements repeat. -/
theorem forward_period (distinct : ∀ j < n, ∀ l < j, d j ≠ d l) (positive : 0 < k)
    (fresh : ∀ j < n, j < k → ∀ l < j, s j ≠ d l) (overlap : ∀ j < n, k ≤ j → s j = d (j - k)) (inside : i < n) :
    forward m s d n (d i) = m (s (i % k)) := by
  induction i using Nat.strong_induction_on with
  | h i ih =>
    rw [forward_at distinct inside]
    by_cases early : i < k
    · rw [Nat.mod_eq_of_lt early]
      exact forward_other (fresh i inside early)
    · have late : k ≤ i := Nat.not_lt.mp early
      have before : i - k < i := by omega
      have earlier : forward m s d i (d (i - k)) = forward m s d n (d (i - k)) := by
        rw [forward_at (fun j within => distinct j (within.trans inside)) before, forward_at distinct (before.trans inside)]
      rw [overlap i inside late, earlier, ih (i - k) before (before.trans inside), Nat.mod_eq_sub_mod late]

end KOS.ForwardCopy
