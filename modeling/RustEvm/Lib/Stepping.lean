import Mathlib.Tactic

/-!
# RustEvm.Lib.Stepping — machines that step until they end

A machine is a function `σ → σ ⊕ ω`: a state steps to a state, or ends with an outcome.

* `runFor step n` is at most `n` steps; what one step keeps a run keeps (`runFor_invariant`).
* `Lockstep R` relates two machines whose related states step to related states or end alike; so do their runs
  (`Lockstep.run`).
* `Skips R` relates a machine to one that leaves some of its steps out; they come to the same outcomes.
* `Meets R` relates machines that are related again after one or more steps of each, and may differ in between; they end
  alike (`Meets.ends_iff`).
* `visited step n s` are the states that the steps of a run are taken in; what the steps taken there keep, or keep related,
  the run does (`runFor_visited`, `run_related`).
* Steps that may fail are options; what corresponding options lead to corresponds (`rel_map`, `rel_bind`).
-/

namespace RustEvm.Stepping

variable {σ τ ω : Type*} {step : σ → σ ⊕ ω} {step' : τ → τ ⊕ ω}

/-- At most `n` steps. -/
def runFor (step : σ → σ ⊕ ω) : ℕ → σ → σ ⊕ ω
  | 0, s => .inl s
  | n + 1, s =>
    match step s with
    | .inl s' => runFor step n s'
    | .inr o => .inr o

@[simp] theorem runFor_zero (s : σ) : runFor step 0 s = .inl s := rfl

theorem runFor_of_step {s s' : σ} (h : step s = .inl s') (n : ℕ) : runFor step (n + 1) s = runFor step n s' := by
  rw [runFor, h]

theorem runFor_of_end {s : σ} {o : ω} (h : step s = .inr o) (n : ℕ) : runFor step (n + 1) s = .inr o := by
  rw [runFor, h]

theorem runFor_one (s : σ) : runFor step 1 s = step s := by
  cases h : step s with
  | inl s' => rw [runFor_of_step h, runFor_zero]
  | inr o => rw [runFor_of_end h]

theorem runFor_succ_eq_inl {n : ℕ} {s s' : σ} :
    runFor step (n + 1) s = .inl s' ↔ ∃ s₁, step s = .inl s₁ ∧ runFor step n s₁ = .inl s' := by
  cases hs : step s with
  | inl s₁ => simp [runFor_of_step hs]
  | inr o => simp [runFor_of_end hs]

/-- A run that has ended took its last step in some state. -/
theorem exists_last {n : ℕ} {s : σ} {o : ω} (h : runFor step n s = .inr o) :
    ∃ k s', runFor step k s = .inl s' ∧ step s' = .inr o := by
  induction n generalizing s with
  | zero => exact absurd h (by simp)
  | succ n ih =>
    cases hs : step s with
    | inl s₁ =>
      rw [runFor_of_step hs] at h
      obtain ⟨k, s', hk, hend⟩ := ih h
      exact ⟨k + 1, s', runFor_succ_eq_inl.mpr ⟨s₁, hs, hk⟩, hend⟩
    | inr o' =>
      rw [runFor_of_end hs] at h
      exact ⟨0, s, rfl, hs.trans h⟩

/-- A run that has not ended after some steps ends in fewer from there. -/
theorem runFor_rest {n N : ℕ} {s s' : σ} {o : ω} (h : runFor step (n + 1) s = .inl s') (hN : runFor step N s = .inr o) :
    ∃ N', runFor step N' s' = .inr o ∧ N' < N := by
  induction n generalizing s N with
  | zero =>
    obtain ⟨s₁, hstep, hrest⟩ := runFor_succ_eq_inl.mp h
    obtain rfl := Sum.inl.inj hrest
    cases N with
    | zero => exact absurd hN (by simp)
    | succ N => exact ⟨N, by rwa [runFor_of_step hstep] at hN, N.lt_succ_self⟩
  | succ n ih =>
    obtain ⟨s₁, hstep, hrest⟩ := runFor_succ_eq_inl.mp h
    cases N with
    | zero => exact absurd hN (by simp)
    | succ N =>
      rw [runFor_of_step hstep] at hN
      obtain ⟨N', hN', hlt⟩ := ih hrest hN
      exact ⟨N', hN', hlt.trans N.lt_succ_self⟩

/-- **What one step keeps a run keeps**, to its end. -/
theorem runFor_invariant {K : σ ⊕ ω → Prop} (hstep : ∀ s, K (.inl s) → K (step s)) {s : σ} (hs : K (.inl s)) (n : ℕ) :
    K (runFor step n s) := by
  induction n generalizing s with
  | zero => exact hs
  | succ n ih =>
    have hnext := hstep s hs
    cases h : step s with
    | inl s₁ =>
      rw [h] at hnext
      rw [runFor_of_step h]
      exact ih hnext
    | inr o =>
      rw [h] at hnext
      rwa [runFor_of_end h]

/-! ## Outcomes -/

/-- The machine ends with an outcome. -/
def Ends (step : σ → σ ⊕ ω) (s : σ) (o : ω) : Prop := ∃ n, runFor step n s = .inr o

theorem ends_of_end {s : σ} {o : ω} (h : step s = .inr o) : Ends step s o := ⟨1, runFor_of_end h 0⟩

theorem ends_of_step {s s' : σ} (h : step s = .inl s') (o : ω) : Ends step s o ↔ Ends step s' o := by
  constructor
  · rintro ⟨n, hn⟩
    cases n with
    | zero => exact absurd hn (by simp)
    | succ n => exact ⟨n, by rwa [runFor_of_step h] at hn⟩
  · rintro ⟨n, hn⟩
    exact ⟨n + 1, by rwa [runFor_of_step h]⟩

/-- It ends with one outcome. -/
theorem ends_iff_of_end {s : σ} {o o' : ω} (h : step s = .inr o') : Ends step s o ↔ o' = o := by
  constructor
  · rintro ⟨n, hn⟩
    cases n with
    | zero => exact absurd hn (by simp)
    | succ n =>
      rw [runFor_of_end h] at hn
      exact Sum.inr.inj hn
  · rintro rfl
    exact ends_of_end h

theorem ends_iff_of_runFor {n : ℕ} {s s' : σ} (h : runFor step n s = .inl s') (o : ω) :
    Ends step s o ↔ Ends step s' o := by
  induction n generalizing s with
  | zero =>
    obtain rfl := Sum.inl.inj h
    rfl
  | succ n ih =>
    obtain ⟨s₁, hstep, hrest⟩ := runFor_succ_eq_inl.mp h
    rw [ends_of_step hstep, ih hrest]

theorem ends_iff_of_runFor_end {n : ℕ} {s : σ} {o o' : ω} (h : runFor step n s = .inr o') :
    Ends step s o ↔ o' = o := by
  obtain ⟨k, s', hk, hend⟩ := exists_last h
  rw [ends_iff_of_runFor hk, ends_iff_of_end hend]

/-! ## Options that correspond -/

theorem rel_cases {α β : Type*} {R : α → β → Prop} {x : Option α} {y : Option β} (h : Option.Rel R x y) :
    (x = none ∧ y = none) ∨ ∃ a b, x = some a ∧ y = some b ∧ R a b := by
  cases h with
  | some h => exact .inr ⟨_, _, rfl, rfl, h⟩
  | none => exact .inl ⟨rfl, rfl⟩

theorem rel_mono {α β : Type*} {R S : α → β → Prop} {x : Option α} {y : Option β} (h : Option.Rel R x y)
    (hRS : ∀ a b, x = some a → y = some b → R a b → S a b) : Option.Rel S x y := by
  cases h with
  | some h => exact .some (hRS _ _ rfl rfl h)
  | none => exact .none

theorem rel_refl {α : Type*} {R : α → α → Prop} (h : ∀ a, R a a) (x : Option α) : Option.Rel R x x := by
  cases x with
  | none => exact .none
  | some a => exact .some (h a)

theorem rel_getElem? {α β : Type*} {R : α → β → Prop} {l : List α} {l' : List β} (h : List.Forall₂ R l l') (k : ℕ) :
    Option.Rel R l[k]? l'[k]? := by
  induction h generalizing k with
  | nil => exact .none
  | cons hab _ ih =>
    cases k with
    | zero => exact .some hab
    | succ k => exact ih k

theorem rel_map {α β γ δ : Type*} {R : α → β → Prop} {S : γ → δ → Prop} {x : Option α} {y : Option β}
    (h : Option.Rel R x y) {g : α → γ} {g' : β → δ} (hg : ∀ a b, R a b → S (g a) (g' b)) :
    Option.Rel S (x.map g) (y.map g') := by
  cases h with
  | some h => exact .some (hg _ _ h)
  | none => exact .none

theorem rel_bind {α β γ δ : Type*} {R : α → β → Prop} {S : γ → δ → Prop} {x : Option α} {y : Option β}
    (h : Option.Rel R x y) {g : α → Option γ} {g' : β → Option δ}
    (hg : ∀ a b, x = some a → y = some b → R a b → Option.Rel S (g a) (g' b)) :
    Option.Rel S (x.bind g) (y.bind g') := by
  cases h with
  | some h => exact hg _ _ rfl rfl h
  | none => exact .none

/-! ## Two machines -/

theorem liftRel_cases {R : σ → τ → Prop} {a : σ ⊕ ω} {b : τ ⊕ ω} (h : Sum.LiftRel R Eq a b) :
    (∃ s t, a = .inl s ∧ b = .inl t ∧ R s t) ∨ ∃ o, a = .inr o ∧ b = .inr o := by
  cases h with
  | inl hrel => exact .inl ⟨_, _, rfl, rfl, hrel⟩
  | inr heq => exact .inr ⟨_, congrArg _ heq, rfl⟩

/-- Related states step to related states, or end alike. -/
def Lockstep (R : σ → τ → Prop) (step : σ → σ ⊕ ω) (step' : τ → τ ⊕ ω) : Prop :=
  ∀ s t, R s t → Sum.LiftRel R Eq (step s) (step' t)

/-- **Machines in lockstep** run in lockstep. -/
theorem Lockstep.run {R : σ → τ → Prop} (h : Lockstep R step step') {s : σ} {t : τ} (hst : R s t) (n : ℕ) :
    Sum.LiftRel R Eq (runFor step n s) (runFor step' n t) := by
  induction n generalizing s t with
  | zero => exact .inl hst
  | succ n ih =>
    rcases liftRel_cases (h s t hst) with ⟨s', t', hs, ht, hrel⟩ | ⟨o, hs, ht⟩
    · rw [runFor_of_step hs, runFor_of_step ht]
      exact ih hrel
    · rw [runFor_of_end hs, runFor_of_end ht]
      exact .inr rfl

/-- From related states both come, in one or more steps, to related states, or end alike. -/
def Meets (R : σ → τ → Prop) (step : σ → σ ⊕ ω) (step' : τ → τ ⊕ ω) : Prop :=
  ∀ s t, R s t → ∃ n k, Sum.LiftRel R Eq (runFor step (n + 1) s) (runFor step' (k + 1) t)

theorem Meets.symm {R : σ → τ → Prop} (h : Meets R step step') : Meets (flip R) step' step := by
  intro t s hst
  obtain ⟨n, k, hlift⟩ := h s t hst
  refine ⟨k, n, ?_⟩
  rcases liftRel_cases hlift with ⟨s', t', hs, ht, hrel⟩ | ⟨o, hs, ht⟩
  · rw [hs, ht]
    exact .inl hrel
  · rw [hs, ht]
    exact .inr rfl

theorem Meets.ends {R : σ → τ → Prop} (h : Meets R step step') {s : σ} {t : τ} (hst : R s t) {o : ω}
    (hs : Ends step s o) : Ends step' t o := by
  obtain ⟨N, hN⟩ := hs
  induction N using Nat.strong_induction_on generalizing s t with
  | _ N ih =>
    obtain ⟨n, k, hlift⟩ := h s t hst
    rcases liftRel_cases hlift with ⟨s', t', hs', ht', hrel⟩ | ⟨o', hs', ht'⟩
    · obtain ⟨N', hN', hlt⟩ := runFor_rest hs' hN
      exact (ends_iff_of_runFor ht' o).mpr (ih N' hlt hrel hN')
    · obtain rfl := (ends_iff_of_runFor_end hs').mp ⟨N, hN⟩
      exact ⟨k + 1, ht'⟩

/-- **Machines that meet** again and again end alike. -/
theorem Meets.ends_iff {R : σ → τ → Prop} (h : Meets R step step') {s : σ} {t : τ} (hst : R s t) (o : ω) :
    Ends step s o ↔ Ends step' t o :=
  ⟨h.ends hst, h.symm.ends hst⟩

/-! ## A machine that leaves steps out -/

/-- The first machine comes to grief, or takes a step that the second leaves out, of which there are finitely many in a
row, or both take the same step. -/
def Skips (R : σ → τ → Prop) (size : σ → ℕ) (bad : ω) (step : σ → σ ⊕ ω) (step' : τ → τ ⊕ ω) : Prop :=
  ∀ s t, R s t → step s = .inr bad ∨ (∃ s', step s = .inl s' ∧ R s' t ∧ size s' < size s) ∨
    Sum.LiftRel R Eq (step s) (step' t)

section

variable {R : σ → τ → Prop} {size : σ → ℕ} {bad o : ω}

/-- What the longer run comes to, the shorter one comes to. -/
theorem Skips.forward (h : Skips R size bad step step') {s : σ} {t : τ} (hst : R s t) (hne : o ≠ bad)
    (hs : Ends step s o) : Ends step' t o := by
  obtain ⟨n, hn⟩ := hs
  induction n generalizing s t with
  | zero => exact absurd hn (by simp)
  | succ n ih =>
    rcases h s t hst with hbad | ⟨s', hstep, hrel, -⟩ | hlift
    · rw [runFor_of_end hbad] at hn
      exact absurd (Sum.inr.inj hn).symm hne
    · rw [runFor_of_step hstep] at hn
      exact ih hrel hn
    · rcases liftRel_cases hlift with ⟨s', t', hs, ht, hrel⟩ | ⟨o', hs, ht⟩
      · rw [runFor_of_step hs] at hn
        exact (ends_of_step ht o).mpr (ih hrel hn)
      · rw [runFor_of_end hs] at hn
        exact ends_of_end (ht.trans (congrArg _ (Sum.inr.inj hn)))

/-- What the shorter run comes to, the longer one comes to, unless it comes to grief. -/
theorem Skips.backward (h : Skips R size bad step step') {s : σ} {t : τ} (hst : R s t) (ht : Ends step' t o) :
    Ends step s bad ∨ Ends step s o := by
  obtain ⟨n, hn⟩ := ht
  induction n generalizing s t with
  | zero => exact absurd hn (by simp)
  | succ n ih =>
    -- the steps left out, then the step both take
    induction hk : size s using Nat.strong_induction_on generalizing s with
    | _ k ihk =>
      rcases h s t hst with hbad | ⟨s', hstep, hrel, hlt⟩ | hlift
      · exact .inl (ends_of_end hbad)
      · rw [ends_of_step hstep, ends_of_step hstep]
        exact ihk _ (hk ▸ hlt) hrel rfl
      · rcases liftRel_cases hlift with ⟨s', t', hs, ht, hrel⟩ | ⟨o', hs, ht⟩
        · rw [runFor_of_step ht] at hn
          rw [ends_of_step hs, ends_of_step hs]
          exact ih hrel hn
        · rw [runFor_of_end ht] at hn
          exact .inr (ends_of_end (hs.trans (congrArg _ (Sum.inr.inj hn))))

end

/-! ## The steps of a run -/

/-- The states that at most `n` steps are taken in. -/
def visited (step : σ → σ ⊕ ω) : ℕ → σ → List σ
  | 0, _ => []
  | n + 1, s =>
    s :: match step s with
      | .inl s' => visited step n s'
      | .inr _ => []

theorem visited_of_step {s s' : σ} (h : step s = .inl s') (n : ℕ) :
    visited step (n + 1) s = s :: visited step n s' := by
  rw [visited, h]

/-- **What the steps of a run keep it keeps**, to its end. -/
theorem runFor_visited {K : σ ⊕ ω → Prop} {n : ℕ} {s : σ} (hstep : ∀ x ∈ visited step n s, K (.inl x) → K (step x))
    (hs : K (.inl s)) : K (runFor step n s) := by
  induction n generalizing s with
  | zero => exact hs
  | succ n ih =>
    have hnext : K (step s) := hstep s List.mem_cons_self hs
    cases h : step s with
    | inl s₁ =>
      rw [visited_of_step h] at hstep
      rw [h] at hnext
      rw [runFor_of_step h]
      exact ih (fun x hx => hstep x (List.mem_cons_of_mem s hx)) hnext
    | inr o =>
      rw [h] at hnext
      rwa [runFor_of_end h]

/-- **What the steps of a run keep related it keeps related.** -/
theorem run_related {υ : Type*} {step' : τ → τ ⊕ υ} {R : σ → τ → Prop} {Q : ω → υ → Prop} {n : ℕ} {s : σ} {t : τ}
    (hstep : ∀ x ∈ visited step n s, ∀ y, R x y → Sum.LiftRel R Q (step x) (step' y)) (hst : R s t) :
    Sum.LiftRel R Q (runFor step n s) (runFor step' n t) := by
  induction n generalizing s t with
  | zero => exact .inl hst
  | succ n ih =>
    have hnext : Sum.LiftRel R Q (step s) (step' t) := hstep s List.mem_cons_self t hst
    cases h : step s with
    | inl s₁ =>
      cases h' : step' t with
      | inl t₁ =>
        rw [h, h'] at hnext
        rw [visited_of_step h] at hstep
        rw [runFor_of_step h, runFor_of_step h']
        exact ih (fun x hx => hstep x (List.mem_cons_of_mem s hx)) (Sum.liftRel_inl_inl.mp hnext)
      | inr o' =>
        rw [h, h'] at hnext
        exact absurd hnext Sum.not_liftRel_inl_inr
    | inr o =>
      cases h' : step' t with
      | inl t₁ =>
        rw [h, h'] at hnext
        exact absurd hnext Sum.not_liftRel_inr_inl
      | inr o' =>
        rw [h, h'] at hnext
        rw [runFor_of_end h, runFor_of_end h']
        exact hnext

end RustEvm.Stepping
