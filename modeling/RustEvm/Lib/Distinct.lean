import Mathlib.Tactic

/-!
# RustEvm.Lib.Distinct — rows that a key tells apart

In a list whose keys are all different a row is found by its own key (`find?_of_mem`).  `unmarked` checks that numbers
are all different in one pass, the bits of one number being the set of those met before (`nodup_of_unmarked`), so that
the keys of a long table are evaluated once each.
-/

namespace RustEvm.Distinct

variable {α β : Type*} [DecidableEq β]

/-- **A row is found by its key.** -/
theorem find?_of_mem {key : α → β} {l : List α} (hkeys : (l.map key).Nodup) {a : α} (ha : a ∈ l) :
    l.find? (fun b => key b == key a) = some a := by
  cases hf : l.find? (fun b => key b == key a) with
  | none => exact absurd (List.find?_eq_none.mp hf a ha) (by simp)
  | some b =>
    have hkey : key b = key a := by simpa using List.find?_some hf
    rw [List.inj_on_of_nodup_map hkeys (List.mem_of_find?_eq_some hf) ha hkey]

/-- No number of the list is marked, and none stands in it twice. -/
def unmarked : ℕ → List ℕ → Bool
  | _, [] => true
  | marks, a :: l => !marks.testBit a && unmarked (marks ||| 1 <<< a) l

theorem nodup_of_unmarked {marks : ℕ} {l : List ℕ} (h : unmarked marks l = true) :
    l.Nodup ∧ ∀ a ∈ l, marks.testBit a = false := by
  induction l generalizing marks with
  | nil => simp
  | cons a l ih =>
    obtain ⟨ha, hl⟩ := Bool.and_eq_true_iff.mp h
    obtain ⟨hnodup, hfree⟩ := ih hl
    have hrest : ∀ b ∈ l, marks.testBit b = false ∧ b ≠ a := by
      intro b hb
      have hor := hfree b hb
      rw [Nat.testBit_or, Bool.or_eq_false_iff, Nat.one_shiftLeft, Nat.testBit_two_pow] at hor
      exact ⟨hor.1, fun heq => of_decide_eq_false hor.2 heq.symm⟩
    constructor
    · exact List.nodup_cons.mpr ⟨fun hmem => (hrest a hmem).2 rfl, hnodup⟩
    · exact List.forall_mem_cons.mpr ⟨by simpa using ha, fun b hb => (hrest b hb).1⟩

end RustEvm.Distinct
