import Mathlib.Tactic

/-!
# RustEvm.Lib.Log — where an element stands in a log that grows at its end

An element of a log comes with the log before it.  With one more entry the positions are the old ones and the new end
(`concat_eq_append_cons_iff`), so what is said of some or of all positions is said of the log and of the entry.
-/

namespace RustEvm.Log

variable {α : Type*} {xs pre post : List α} {c x : α}

/-- A run over a log that may stop goes on with the new entry. -/
theorem foldlM_concat {σ : Type*} (f : σ → α → Option σ) (s : σ) (xs : List α) (c : α) :
    (xs ++ [c]).foldlM f s = (xs.foldlM f s).bind fun s' => f s' c := by
  rw [List.foldlM_append]
  cases xs.foldlM f s with
  | none => rfl
  | some s' => simp

theorem concat_eq_append_cons_iff :
    xs ++ [c] = pre ++ x :: post ↔
      (∃ post', post = post' ++ [c] ∧ xs = pre ++ x :: post') ∨ (post = [] ∧ xs = pre ∧ c = x) := by
  constructor
  · intro heq
    rcases List.eq_nil_or_concat post with rfl | ⟨post', d, rfl⟩
    · obtain ⟨rfl, hc⟩ := List.append_inj' heq rfl
      exact .inr ⟨rfl, rfl, List.singleton_inj.mp hc⟩
    · rw [List.concat_eq_append, ← List.cons_append, ← List.append_assoc] at heq
      obtain ⟨rfl, hd⟩ := List.append_inj' heq rfl
      obtain rfl := List.singleton_inj.mp hd
      exact .inl ⟨post', List.concat_eq_append, rfl⟩
  · rintro (⟨post', rfl, rfl⟩ | ⟨rfl, rfl, rfl⟩)
    · rw [List.append_assoc, List.cons_append]
    · rfl

theorem exists_concat_iff {P : List α → Prop} :
    (∃ pre post, xs ++ [c] = pre ++ x :: post ∧ P pre) ↔
      (∃ pre post, xs = pre ++ x :: post ∧ P pre) ∨ (c = x ∧ P xs) := by
  constructor
  · rintro ⟨pre, post, heq, hP⟩
    rcases concat_eq_append_cons_iff.mp heq with ⟨post', -, hxs⟩ | ⟨-, rfl, hc⟩
    · exact .inl ⟨pre, post', hxs, hP⟩
    · exact .inr ⟨hc, hP⟩
  · rintro (⟨pre, post, hxs, hP⟩ | ⟨hc, hP⟩)
    · exact ⟨pre, post ++ [c], concat_eq_append_cons_iff.mpr (.inl ⟨post, rfl, hxs⟩), hP⟩
    · exact ⟨xs, [], concat_eq_append_cons_iff.mpr (.inr ⟨rfl, rfl, hc⟩), hP⟩

theorem forall_concat_iff {P : List α → α → Prop} :
    (∀ pre x post, xs ++ [c] = pre ++ x :: post → P pre x) ↔
      (∀ pre x post, xs = pre ++ x :: post → P pre x) ∧ P xs c := by
  constructor
  · intro h
    exact ⟨fun pre x post hxs => h pre x (post ++ [c]) (concat_eq_append_cons_iff.mpr (.inl ⟨post, rfl, hxs⟩)),
      h xs c [] rfl⟩
  · rintro ⟨h, hc⟩ pre x post heq
    rcases concat_eq_append_cons_iff.mp heq with ⟨post', -, hxs⟩ | ⟨-, rfl, rfl⟩
    · exact h pre x post' hxs
    · exact hc

end RustEvm.Log
