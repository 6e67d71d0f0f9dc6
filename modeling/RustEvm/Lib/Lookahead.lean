import Mathlib.Logic.Function.Basic
import Mathlib.Tactic

/-!
# RustEvm.Lib.Lookahead — what comes next under the same key, in one pass from the back

`pass` walks a list from its end and keeps, for every key, the value of the last element it met.  So each element is
paired with the value of the first later element of its own key (`getElem?_pass`).
-/

namespace RustEvm.Lookahead

variable {α κ β γ : Type*} [DecidableEq κ] (key : α → κ) (val : α → β) (f : α → Option β → γ)

/-- One turn: `f` sees the value kept for the key, then the element's own value is kept. -/
def turn (a : α) (s : List γ × (κ → Option β)) : List γ × (κ → Option β) :=
  (f a (s.2 (key a)) :: s.1, Function.update s.2 (key a) (some (val a)))

/-- The pass from the back. -/
def pass (l : List α) : List γ × (κ → Option β) := l.foldr (turn key val f) ([], fun _ => none)

/-- The value of the first element of a key. -/
def next (l : List α) (k : κ) : Option β := (l.find? fun a => key a = k).map val

/-- What is kept is the value of the first element of each key. -/
theorem pass_kept (l : List α) : (pass key val f l).2 = next key val l := by
  induction l with
  | nil => rfl
  | cons a l ih =>
    ext1 k
    show Function.update (pass key val f l).2 (key a) (some (val a)) k = next key val (a :: l) k
    unfold next
    rw [ih, List.find?_cons]
    by_cases h : key a = k
    · subst h
      simp
    · rw [Function.update_of_ne (Ne.symm h), decide_eq_false h]
      rfl

/-- **Each element sees the first later element of its key.** -/
theorem getElem?_pass (l : List α) (i : ℕ) :
    (pass key val f l).1[i]? = l[i]?.map fun a => f a (next key val (l.drop (i + 1)) (key a)) := by
  induction l generalizing i with
  | nil => rfl
  | cons a l ih =>
    cases i with
    | zero =>
      show some (f a ((pass key val f l).2 (key a))) = _
      rw [pass_kept]
      rfl
    | succ i => exact ih i

theorem length_pass (l : List α) : (pass key val f l).1.length = l.length := by
  induction l with
  | nil => rfl
  | cons a l ih => exact congrArg (· + 1) ih

end RustEvm.Lookahead
