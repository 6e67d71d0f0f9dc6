import Mathlib.Tactic

/-!
# RustEvm.Lib.Panic — operations that may panic

`none` is a panic: `slice` and `copyFromSlice` where the lengths do not fit, `minus` below zero, `addWithin` and
`timesWithin` at the end of the type.  A function that returns a `Result` and may panic is in `ExceptT ε Option`, and
`reached` is one that does not; a function whose steps do not panic does not (`reached_bind`).
-/

namespace RustEvm.Panic

variable {α : Type*} {ε β γ : Type}

/-- `xs[i..j]`. -/
def slice (xs : List α) (i j : ℕ) : Option (List α) :=
  if i ≤ j ∧ j ≤ xs.length then some ((xs.take j).drop i) else none

/-- `copy_from_slice` into an array of `n` elements. -/
def copyFromSlice (n : ℕ) (xs : List α) : Option { l : List α // l.length = n } :=
  if h : xs.length = n then some ⟨xs, h⟩ else none

/-- `a - b`. -/
def minus (a b : ℕ) : Option ℕ := if b ≤ a then some (a - b) else none

/-- `a + b` in a type with `card` numbers. -/
def addWithin (card a b : ℕ) : Option ℕ := if a + b < card then some (a + b) else none

/-- `a * b` in a type with `card` numbers. -/
def timesWithin (card a b : ℕ) : Option ℕ := if a * b < card then some (a * b) else none

theorem slice_eq_some {xs : List α} {i j : ℕ} (hij : i ≤ j) (hj : j ≤ xs.length) :
    slice xs i j = some ((xs.take j).drop i) := if_pos ⟨hij, hj⟩

theorem slice_from {xs : List α} {i : ℕ} (hi : i ≤ xs.length) : slice xs i xs.length = some (xs.drop i) := by
  rw [slice_eq_some hi le_rfl, List.take_length]

theorem slice_to {xs : List α} {j : ℕ} (hj : j ≤ xs.length) : slice xs 0 j = some (xs.take j) := by
  rw [slice_eq_some (Nat.zero_le j) hj, List.drop_zero]

theorem copyFromSlice_eq_some {n : ℕ} {xs : List α} (h : xs.length = n) : copyFromSlice n xs = some ⟨xs, h⟩ :=
  dif_pos h

theorem minus_eq_some {a b : ℕ} (h : b ≤ a) : minus a b = some (a - b) := if_pos h

theorem timesWithin_eq_some {card a b : ℕ} (h : a * b < card) : timesWithin card a b = some (a * b) := if_pos h

/-- A loop over a list none of whose turns panics. -/
theorem mapM_eq_some {f : α → Option β} {g : α → β} {l : List α} (h : ∀ a ∈ l, f a = some (g a)) :
    l.mapM f = some (l.map g) := by
  induction l with
  | nil => rfl
  | cons a l ih =>
    rw [List.mapM_cons, h a List.mem_cons_self, ih fun b hb => h b (List.mem_cons_of_mem _ hb)]
    rfl

/-! ## Results -/

/-- A result reached without a panic. -/
def reached (x : Except ε β) : ExceptT ε Option β := ExceptT.mk (some x)

@[simp] theorem run_reached (x : Except ε β) : (reached x).run = some x := rfl

/-- A step that does not panic hands its value on. -/
theorem lift_bind {o : Option β} {b : β} (h : o = some b) (f : β → ExceptT ε Option γ) :
    ((liftM o : ExceptT ε Option β) >>= f) = f b := by
  subst h
  rfl

/-- **The bind rule.** -/
theorem reached_bind {x : Except ε β} {f : β → Except ε γ} {f' : β → ExceptT ε Option γ}
    (h : ∀ b, x = .ok b → f' b = reached (f b)) : (reached x >>= f') = reached (x >>= f) := by
  cases x with
  | error e => rfl
  | ok b => exact h b rfl

end RustEvm.Panic
