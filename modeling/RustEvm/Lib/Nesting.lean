import Mathlib.Tactic

/-!
# RustEvm.Lib.Nesting — begins and ends that match

A sequence of marks is `Balanced` when its ends match its begins, and `WellNested` when it is the start of a balanced
one.  `OpenedBy p b` says which begin is the innermost one still open after `p`; `pending` finds it with a stack
(`head?_pending_iff`), and a balanced part leaves the stack as it was (`pendingFrom_balanced`).
-/

namespace RustEvm.Nesting

inductive Mark
  | enter | leave | other
  deriving DecidableEq, Repr

open Mark

/-- Every begin has its end. -/
inductive Balanced : List Mark → Prop
  | nil : Balanced []
  | other {l : List Mark} : Balanced l → Balanced (other :: l)
  | nest {l l' : List Mark} : Balanced l → Balanced l' → Balanced (enter :: l ++ leave :: l')

/-- No end without its begin. -/
def WellNested (p : List Mark) : Prop := ∃ l, Balanced (p ++ l)

/-- After `p` the innermost open begin is number `b`: what comes after it is balanced.  Without an open begin all of
`p` is. -/
def OpenedBy (p : List Mark) : Option ℕ → Prop
  | none => Balanced p
  | some b => p[b]? = some enter ∧ Balanced (p.drop (b + 1))

/-! ## Balanced parts -/

theorem Balanced.append {l l' : List Mark} (h : Balanced l) (h' : Balanced l') : Balanced (l ++ l') := by
  induction h with
  | nil => exact h'
  | other _ ih => exact .other ih
  | nest hin _ _ ih =>
    rw [List.append_assoc, List.cons_append]
    exact .nest hin ih

theorem Balanced.count {l : List Mark} (h : Balanced l) : l.count leave = l.count enter := by
  induction h with
  | nil => rfl
  | other _ ih => simpa using ih
  | nest _ _ ih ih' =>
    simp only [List.cons_append, List.count_cons, List.count_append, ih, ih']
    simp
    omega

/-- A balanced sequence never has more ends than begins. -/
theorem Balanced.count_take_le {l : List Mark} (h : Balanced l) (n : ℕ) :
    (l.take n).count leave ≤ (l.take n).count enter := by
  induction h generalizing n with
  | nil => simp
  | other _ ih =>
    cases n with
    | zero => simp
    | succ n => simpa using ih n
  | @nest l l' hin _ ih ih' =>
    cases n with
    | zero => simp
    | succ n =>
      have hl := ih n
      have hl' := ih' (n - l.length - 1)
      simp only [List.cons_append, List.take_succ_cons, List.take_append, List.count_cons, List.count_append]
      cases hn : n - l.length with
      | zero =>
        simp
        omega
      | succ m =>
        rw [hn, Nat.add_sub_cancel] at hl'
        have hfull : l.take n = l := List.take_of_length_le (by omega)
        have hc := hin.count
        rw [hfull]
        simp
        omega

theorem WellNested.of_append {p q : List Mark} (h : WellNested (p ++ q)) : WellNested p := by
  obtain ⟨l, hl⟩ := h
  exact ⟨q ++ l, by rwa [List.append_assoc] at hl⟩

theorem WellNested.not_balanced {p : List Mark} (h : WellNested (p ++ [leave])) : ¬ Balanced p := by
  obtain ⟨l, hl⟩ := h
  intro hp
  have hle := hl.count_take_le (p.length + 1)
  rw [List.take_left' (by simp), List.count_append, List.count_append, hp.count] at hle
  simp at hle

/-! ## The stack of open begins -/

/-- The open begins after a sequence, innermost first, from those before it and its first position. -/
def pendingFrom : List ℕ → ℕ → List Mark → List ℕ
  | s, _, [] => s
  | s, n, enter :: l => pendingFrom (n :: s) (n + 1) l
  | s, n, leave :: l => pendingFrom s.tail (n + 1) l
  | s, n, other :: l => pendingFrom s (n + 1) l

def pending (p : List Mark) : List ℕ := pendingFrom [] 0 p

theorem pendingFrom_append (s : List ℕ) (n : ℕ) (l l' : List Mark) :
    pendingFrom s n (l ++ l') = pendingFrom (pendingFrom s n l) (n + l.length) l' := by
  induction l generalizing s n with
  | nil => rfl
  | cons m l ih =>
    have hlen : n + (m :: l).length = n + 1 + l.length := by
      rw [List.length_cons]
      omega
    rw [hlen]
    cases m <;> exact ih _ _

/-- **A balanced part leaves the stack as it was.** -/
theorem pendingFrom_balanced {l : List Mark} (h : Balanced l) (s : List ℕ) (n : ℕ) : pendingFrom s n l = s := by
  induction h generalizing s n with
  | nil => rfl
  | other _ ih => exact ih s _
  | nest _ _ ih ih' =>
    rw [List.cons_append, pendingFrom, pendingFrom_append, ih]
    exact ih' s _

theorem pending_concat (p : List Mark) (m : Mark) :
    pending (p ++ [m]) =
      match m with
      | enter => p.length :: pending p
      | leave => (pending p).tail
      | other => pending p := by
  rw [pending, pendingFrom_append, Nat.zero_add]
  cases m <;> rfl

/-- Only begins are pending. -/
theorem getElem?_of_mem_pending {p : List Mark} {b : ℕ} (h : b ∈ pending p) : p[b]? = some enter := by
  induction p using List.reverseRecOn with
  | nil => simp [pending, pendingFrom] at h
  | append_singleton p m ih =>
    have hold : b ∈ pending p → (p ++ [m])[b]? = some enter := by
      intro hb
      have hget := ih hb
      rwa [List.getElem?_append_left (List.getElem?_eq_some_iff.mp hget).1]
    rw [pending_concat] at h
    cases m with
    | enter =>
      rcases List.mem_cons.mp h with rfl | hb
      · exact List.getElem?_concat_length
      · exact hold hb
    | leave => exact hold (List.mem_of_mem_tail h)
    | other => exact hold h

/-- The open begins of a sequence, with balanced parts between them. -/
inductive Layers : List Mark → List ℕ → Prop
  | base {l : List Mark} : Balanced l → Layers l []
  | layer {q l : List Mark} {s : List ℕ} : Layers q s → Balanced l → Layers (q ++ enter :: l) (q.length :: s)

theorem Layers.append {p l : List Mark} {s : List ℕ} (h : Layers p s) (hl : Balanced l) : Layers (p ++ l) s := by
  cases h with
  | base hp => exact .base (hp.append hl)
  | layer hq hin =>
    rw [List.append_assoc, List.cons_append]
    exact .layer hq (hin.append hl)

theorem layers_pending {p : List Mark} (h : WellNested p) : Layers p (pending p) := by
  induction p using List.reverseRecOn with
  | nil => exact .base .nil
  | append_singleton p m ih =>
    have hp := ih h.of_append
    rw [pending_concat]
    cases m with
    | enter => exact .layer hp .nil
    | other => exact hp.append (.other .nil)
    | leave =>
      cases hs : pending p with
      | nil =>
        rw [hs] at hp
        cases hp with
        | base hbal => exact absurd hbal h.not_balanced
      | cons b s =>
        rw [hs] at hp
        cases hp with
        | layer hq hin =>
          rw [List.append_assoc]
          exact hq.append (.nest hin .nil)

/-- **The innermost open begin is on top of the stack.** -/
theorem head?_pending_iff {p : List Mark} (h : WellNested p) {b : Option ℕ} :
    (pending p).head? = b ↔ OpenedBy p b := by
  constructor
  · rintro rfl
    have hp := layers_pending h
    cases hs : pending p with
    | nil =>
      rw [hs] at hp
      cases hp with
      | base hbal => exact hbal
    | cons b s =>
      rw [hs] at hp
      cases hp with
      | @layer q l s _ hin =>
        refine ⟨by simp, ?_⟩
        rw [← List.drop_drop, List.drop_left]
        exact hin
  · intro hb
    cases b with
    | none => rw [pending, pendingFrom_balanced hb]; rfl
    | some b =>
      obtain ⟨hget, hin⟩ := hb
      obtain ⟨hlt, hb⟩ := List.getElem?_eq_some_iff.mp hget
      have hsplit : p = p.take b ++ enter :: p.drop (b + 1) := by
        rw [← hb, List.cons_getElem_drop_succ, List.take_append_drop]
      rw [hsplit, pending, pendingFrom_append, pendingFrom, pendingFrom_balanced hin, Nat.zero_add,
        List.length_take_of_le hlt.le]
      rfl

/-- The number of open begins is what the ends have not matched yet. -/
theorem length_pending {p : List Mark} (h : WellNested p) :
    (pending p).length + p.count leave = p.count enter := by
  have hl := layers_pending h
  generalize pending p = s at hl
  clear h
  induction hl with
  | base hp => rw [List.length_nil, Nat.zero_add, hp.count]
  | layer _ hin ih =>
    have hc := hin.count
    simp only [List.length_cons, List.count_append, List.count_cons]
    simp
    omega

/-! ## Numbering the begins -/

/-- How many begins there are up to the one at a position; zero for none. -/
def ordinal (p : List Mark) : Option ℕ → ℕ
  | none => 0
  | some b => (p.take (b + 1)).count enter

theorem ordinal_append {p : List Mark} {b : Option ℕ} (h : ∀ x ∈ b, x < p.length) (q : List Mark) :
    ordinal (p ++ q) b = ordinal p b := by
  cases b with
  | none => rfl
  | some b => rw [ordinal, ordinal, List.take_append_of_le_length (h b rfl)]

theorem ordinal_succ {p : List Mark} {b : ℕ} (h : p[b]? = some enter) :
    ordinal p (some b) = (p.take b).count enter + 1 := by
  rw [ordinal, List.take_add_one, h, List.count_append]
  rfl

/-- Begins are told apart by their number. -/
theorem ordinal_inj {p : List Mark} {b b' : Option ℕ} (hb : ∀ x ∈ b, p[x]? = some enter)
    (hb' : ∀ x ∈ b', p[x]? = some enter) (h : ordinal p b = ordinal p b') : b = b' := by
  have hlt : ∀ x y, x < y → p[y]? = some enter → ordinal p (some x) < ordinal p (some y) := by
    intro x y hxy hy
    rw [ordinal_succ hy, Nat.lt_succ_iff]
    exact (List.take_sublist_take_left hxy).count_le _
  cases b with
  | none =>
    cases b' with
    | none => rfl
    | some y =>
      rw [ordinal_succ (hb' y rfl)] at h
      exact absurd h (Nat.succ_ne_zero _).symm
  | some x =>
    cases b' with
    | none =>
      rw [ordinal_succ (hb x rfl)] at h
      exact absurd h (Nat.succ_ne_zero _)
    | some y =>
      rcases Nat.lt_trichotomy x y with hxy | rfl | hyx
      · exact absurd h (hlt x y hxy (hb' y rfl)).ne
      · rfl
      · exact absurd h (hlt y x hyx (hb x rfl)).ne'

end RustEvm.Nesting
