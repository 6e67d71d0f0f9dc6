import Mathlib.Data.Set.Basic
import Mathlib.Tactic

/-!
# RustEvm.Lib.Footprint — what an operation reads and writes

A state is seen through its components.  An operation gives a new state and a result, or halts.  It has the footprint
`reads`, `writes` when it leaves every component outside `writes` alone, and is determined by the components in either
set (`Footprint`).  Two operations commute when neither writes what the other reads or writes (`Footprint.commute`).
-/

namespace RustEvm.Footprints

variable {σ ι ρ ρ' : Type*} {V : ι → Type*}

/-- The states look the same on the components of a set. -/
def Agree (view : (i : ι) → σ → V i) (c : Set ι) (s t : σ) : Prop := ∀ i ∈ c, view i s = view i t

/-- The operation changes what it writes only, and goes by what it reads and writes only. -/
structure Footprint (view : (i : ι) → σ → V i) (op : σ → Option (σ × ρ)) (reads writes : Set ι) : Prop where
  frame : ∀ {s s' r}, op s = some (s', r) → ∀ i ∉ writes, view i s' = view i s
  same : ∀ {s t s' r}, Agree view (reads ∪ writes) s t → op s = some (s', r) →
    ∃ t', op t = some (t', r) ∧ ∀ i ∈ writes, view i t' = view i s'

/-- One operation after the other, with both results. -/
def both (f : σ → Option (σ × ρ)) (g : σ → Option (σ × ρ')) (s : σ) : Option (σ × ρ × ρ') :=
  (f s).bind fun p => (g p.1).map fun q => (q.1, p.2, q.2)

theorem both_eq_some {f : σ → Option (σ × ρ)} {g : σ → Option (σ × ρ')} {s s' : σ} {r : ρ} {q : ρ'} :
    both f g s = some (s', r, q) ↔ ∃ s₁, f s = some (s₁, r) ∧ g s₁ = some (s', q) := by
  unfold both
  constructor
  · intro h
    obtain ⟨⟨s₁, r'⟩, hf, h⟩ := Option.bind_eq_some_iff.mp h
    obtain ⟨⟨s₂, q'⟩, hg, heq⟩ := Option.map_eq_some_iff.mp h
    obtain ⟨rfl, rfl, rfl⟩ : s₂ = s' ∧ r' = r ∧ q' = q := by simpa using heq
    exact ⟨s₁, hf, hg⟩
  · rintro ⟨s₁, hf, hg⟩
    rw [hf, Option.bind_some, hg, Option.map_some]

namespace Footprint

variable {view : (i : ι) → σ → V i} {f : σ → Option (σ × ρ)} {g : σ → Option (σ × ρ')} {rf wf rg wg : Set ι}

/-- What is not written agrees with what was there. -/
theorem agree (h : Footprint view f rf wf) {c : Set ι} (hd : ∀ i ∈ wf, i ∉ c) {s s' : σ} {r : ρ}
    (hs : f s = some (s', r)) : Agree view c s s' := by
  intro i hi
  exact (h.frame hs i fun hw => hd i hw hi).symm

/-- One order of two operations that do not interfere gives the other. -/
theorem swap (hf : Footprint view f rf wf) (hg : Footprint view g rg wg) (hfg : ∀ i ∈ wf, i ∉ rg ∪ wg)
    (hgf : ∀ i ∈ wg, i ∉ rf ∪ wf) (hext : ∀ s t, (∀ i, view i s = view i t) → s = t) {s s' : σ} {r : ρ} {q : ρ'}
    (h : both f g s = some (s', r, q)) : both g f s = some (s', q, r) := by
  obtain ⟨s₁, hs₁, hs'⟩ := both_eq_some.mp h
  obtain ⟨t₁, ht₁, hwg⟩ := hg.same (fun i hi => (hf.agree hfg hs₁ i hi).symm) hs'
  obtain ⟨t', ht', hwf⟩ := hf.same (hg.agree hgf ht₁) hs₁
  have heq : t' = s' := by
    refine hext _ _ fun i => ?_
    by_cases hi : i ∈ wf
    · have hi' : i ∉ wg := fun hw => hfg i hi (.inr hw)
      rw [hwf i hi, hg.frame hs' i hi']
    · rw [hf.frame ht' i hi]
      by_cases hi' : i ∈ wg
      · exact hwg i hi'
      · rw [hg.frame ht₁ i hi', hg.frame hs' i hi', hf.frame hs₁ i hi]
  exact both_eq_some.mpr ⟨t₁, ht₁, heq ▸ ht'⟩

/-- **Operations that do not interfere commute**, halting included. -/
theorem commute (hf : Footprint view f rf wf) (hg : Footprint view g rg wg) (hfg : ∀ i ∈ wf, i ∉ rg ∪ wg)
    (hgf : ∀ i ∈ wg, i ∉ rf ∪ wf) (hext : ∀ s t, (∀ i, view i s = view i t) → s = t) (s : σ) :
    both g f s = (both f g s).map fun p => (p.1, p.2.2, p.2.1) := by
  cases h : both f g s with
  | some p =>
    obtain ⟨s', r, q⟩ := p
    exact hf.swap hg hfg hgf hext h
  | none =>
    cases h' : both g f s with
    | none => rfl
    | some p =>
      obtain ⟨s', q, r⟩ := p
      rw [hg.swap hf hgf hfg hext h'] at h
      exact absurd h (by simp)

end Footprint

end RustEvm.Footprints
