import Mathlib.Tactic

/-!
# RustEvm.Lib.Fallible — loops that may fail

`bind_eq_ok` takes a computation in `Except` apart, and `foldlM_invariant` is the rule for a loop over a list that
stops at the first error: an invariant of the elements seen so far holds at the end of a loop that gets there.  For a
partial function along a list, `mapM_eq_some_iff` says what comes out element by element.
-/

namespace RustEvm.Fallible

universe u v

variable {ε : Type u} {σ τ : Type v} {α : Type*}

theorem bind_eq_ok {x : Except ε σ} {f : σ → Except ε τ} {b : τ} :
    (x >>= f) = .ok b ↔ ∃ a, x = .ok a ∧ f a = .ok b := by
  cases x with
  | error e => exact ⟨nofun, fun ⟨_, h, _⟩ => nomatch h⟩
  | ok a => exact ⟨fun h => ⟨a, rfl, h⟩, fun ⟨_, h, hf⟩ => by cases h; exact hf⟩

/-- **The loop rule.** -/
theorem foldlM_invariant {f : σ → α → Except ε σ} {P : List α → σ → Prop}
    (step : ∀ seen s a s', P seen s → f s a = .ok s' → P (seen ++ [a]) s')
    {seen l : List α} {s s' : σ} (h : P seen s) (hrun : l.foldlM f s = .ok s') : P (seen ++ l) s' := by
  induction l generalizing seen s with
  | nil =>
    cases hrun
    rwa [List.append_nil]
  | cons a l ih =>
    rw [List.foldlM_cons, bind_eq_ok] at hrun
    obtain ⟨s₁, hstep, hrest⟩ := hrun
    have hnext := ih (step seen s a s₁ h hstep) hrest
    rwa [List.append_assoc, List.singleton_append] at hnext

theorem mapM_eq_some_iff {β : Type*} {f : α → Option β} {l : List α} {l' : List β} :
    l.mapM f = some l' ↔ List.Forall₂ (fun a b => f a = some b) l l' := by
  induction l generalizing l' with
  | nil => rw [List.mapM_nil, List.forall₂_nil_left_iff]; exact ⟨fun h => (Option.some.inj h).symm, fun h => h ▸ rfl⟩
  | cons a l ih =>
    rw [List.mapM_cons, List.forall₂_cons_left_iff]
    constructor
    · intro h
      obtain ⟨b, hb, h⟩ := Option.bind_eq_some_iff.mp h
      obtain ⟨bs, hbs, h⟩ := Option.bind_eq_some_iff.mp h
      exact ⟨b, bs, hb, ih.mp hbs, (Option.some.inj h).symm⟩
    · rintro ⟨b, bs, hb, hbs, rfl⟩
      rw [hb, ih.mpr hbs]
      rfl

theorem mapM_eq_some_of_map {β : Type*} {f : α → Option β} {l : List α} {l' : List β} (h : l.map f = l'.map some) :
    l.mapM f = some l' := by
  rw [← List.forall₂_eq_eq_eq, List.forall₂_map_left_iff, List.forall₂_map_right_iff] at h
  exact mapM_eq_some_iff.mpr h

end RustEvm.Fallible
