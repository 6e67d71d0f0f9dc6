import Mathlib.Tactic

/-!
# RustEvm.Lib.Ascent — iteration that grows until it stands still

A function that is monotone below a bound and stays below it, iterated from zero, only grows and so comes to a fixpoint.
`ascend` is the induction along such an iteration: what holds at every fixpoint, and of a point when it holds of the
next, holds at the start.
-/

namespace RustEvm.Ascent

/-- Monotone below a bound, and never above it. -/
structure Climbs (f : ℕ → ℕ) (bound : ℕ) : Prop where
  mono : ∀ m n, m ≤ n → n ≤ bound → f m ≤ f n
  le : ∀ n, n ≤ bound → f n ≤ bound

variable {f : ℕ → ℕ} {bound : ℕ} {P : ℕ → Prop}

theorem Climbs.ascend_from (h : Climbs f bound) (stop : ∀ n, n ≤ bound → f n = n → P n)
    (step : ∀ n, n ≤ bound → n < f n → P (f n) → P n) (n : ℕ) (hn : n ≤ bound) (hf : n ≤ f n) : P n := by
  -- the distance to the bound shrinks
  induction hd : bound - n using Nat.strong_induction_on generalizing n with
  | _ d ih =>
    rcases hf.eq_or_lt with heq | hlt
    · exact stop n hn heq.symm
    · have hle := h.le n hn
      exact step n hn hlt (ih (bound - f n) (by omega) (f n) hle (h.mono n (f n) hf hle) rfl)

/-- **The rule of an ascending iteration.** -/
theorem Climbs.ascend (h : Climbs f bound) (stop : ∀ n, n ≤ bound → f n = n → P n)
    (step : ∀ n, n ≤ bound → n < f n → P (f n) → P n) : P 0 :=
  h.ascend_from stop step 0 (Nat.zero_le _) (Nat.zero_le _)

end RustEvm.Ascent
