import Mathlib.Tactic

/-!
# RustEvm.Lib.Words — the words between separators

`words sep l` are the pieces of `l` between separators, without the empty ones.  A separator always parts words
(`words_append_sep`), so how many stand in one place makes no difference (`words_repeated`), and what is written in the
words is what is written between the separators (`flatten_words`).
-/

namespace RustEvm.Words

variable {α : Type*} [DecidableEq α] {sep : α}

/-- The pieces between separators that are not empty. -/
def words (sep : α) (l : List α) : List (List α) := (l.splitOn sep).filter fun w => !w.isEmpty

@[simp] theorem words_nil : words sep [] = [] := by simp [words, List.splitOn_nil]

/-- **A separator parts words.** -/
theorem words_append_sep (l l' : List α) : words sep (l ++ sep :: l') = words sep l ++ words sep l' := by
  rw [words, List.splitOn_append_cons_self, List.filter_append]
  rfl

theorem words_sep_cons (l : List α) : words sep (sep :: l) = words sep l := by
  have h : words sep ([] ++ sep :: l) = words sep [] ++ words sep l := words_append_sep [] l
  rwa [List.nil_append, words_nil, List.nil_append] at h

/-- A list without the separator is one word. -/
theorem words_of_not_mem {l : List α} (h : sep ∉ l) (hne : l ≠ []) : words sep l = [l] := by
  rw [words, List.splitOn_eq_singleton h]
  simp [hne]

/-! ## More separators -/

theorem words_replicate_append (n : ℕ) (l : List α) : words sep (List.replicate n sep ++ l) = words sep l := by
  induction n with
  | zero => rfl
  | succ n ih => rw [List.replicate_succ, List.cons_append, words_sep_cons, ih]

theorem words_append_replicate (n : ℕ) (l : List α) : words sep (l ++ List.replicate n sep) = words sep l := by
  cases n with
  | zero => rw [List.replicate_zero, List.append_nil]
  | succ n =>
    have hnone : words sep (List.replicate n sep) = [] := by
      have h : words sep (List.replicate n sep ++ []) = words sep [] := words_replicate_append n []
      rwa [List.append_nil, words_nil] at h
    rw [List.replicate_succ, words_append_sep, hnone, List.append_nil]

/-- A separator repeated. -/
theorem words_repeated (n : ℕ) (l l' : List α) :
    words sep (l ++ sep :: (List.replicate n sep ++ l')) = words sep (l ++ sep :: l') := by
  rw [words_append_sep, words_append_sep, words_replicate_append]

/-! ## What is in the words -/

theorem ne_nil_of_mem_words {l w : List α} (h : w ∈ words sep l) : w ≠ [] := by
  have hne := (List.mem_filter.mp h).2
  simpa using hne

/-- **The words hold everything but the separators**, in its order. -/
theorem flatten_words (l : List α) : (words sep l).flatten = l.filter (· != sep) := by
  induction hn : l.length using Nat.strong_induction_on generalizing l with
  | _ n ih =>
    by_cases hmem : sep ∈ l
    · -- the list up to its first separator, and what comes after
      obtain ⟨a, b, rfl⟩ := List.append_of_mem hmem
      rw [List.length_append, List.length_cons] at hn
      rw [words_append_sep, List.flatten_append, ih a.length (by omega) a rfl, ih b.length (by omega) b rfl,
        List.filter_append, List.filter_cons_of_neg (by simp)]
    · have hall : l.filter (· != sep) = l := by
        refine List.filter_eq_self.mpr fun c hc => ?_
        simpa using fun heq : c = sep => hmem (heq ▸ hc)
      rw [hall]
      cases l with
      | nil => simp
      | cons c l => rw [words_of_not_mem hmem (List.cons_ne_nil c l), List.flatten_singleton]

theorem mem_of_mem_words {l w : List α} {c : α} (hw : w ∈ words sep l) (hc : c ∈ w) : c ∈ l ∧ c ≠ sep := by
  have hflat : c ∈ (words sep l).flatten := List.mem_flatten.mpr ⟨w, hw, hc⟩
  rw [flatten_words, List.mem_filter] at hflat
  exact ⟨hflat.1, by simpa using hflat.2⟩

end RustEvm.Words
