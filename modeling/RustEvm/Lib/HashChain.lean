import Mathlib.Tactic

/-!
# RustEvm.Lib.HashChain — values derived by hashing a list of keys

`chain h b ks` starts at a root `b` and hashes in one key after another; `steps` are the pairs it hashes.  When the
hash tells the pairs apart that two chains hash, and gives none of the roots for them, equal ends come from equal
roots and equal keys, also for chains of different lengths (`chain_inj`).
-/

namespace RustEvm.HashChain

variable {K B : Type*} (h : K → B → B)

def chain (b : B) (ks : List K) : B := ks.foldl (fun b k => h k b) b

/-- The pairs of a key and a value that a chain hashes. -/
def steps (b : B) : List K → List (K × B)
  | [] => []
  | k :: ks => (k, b) :: steps (h k b) ks

theorem chain_concat (b : B) (ks : List K) (k : K) : chain h b (ks ++ [k]) = h k (chain h b ks) := by
  simp [chain]

theorem steps_concat (b : B) (ks : List K) (k : K) :
    steps h b (ks ++ [k]) = steps h b ks ++ [(k, chain h b ks)] := by
  induction ks generalizing b with
  | nil => rfl
  | cons k' ks ih => exact congrArg (List.cons _) (ih _)

variable {h} {S : List (K × B)} (hinj : ∀ p ∈ S, ∀ q ∈ S, h p.1 p.2 = h q.1 q.2 → p = q)
  {R : B → Prop} (hroots : ∀ p ∈ S, ¬ R (h p.1 p.2))
include hinj hroots

/-- **Chains with the same end are the same.** -/
theorem chain_inj {b b' : B} (hb : R b) (hb' : R b') {ks ks' : List K} (hS : steps h b ks ⊆ S)
    (hS' : steps h b' ks' ⊆ S) (heq : chain h b ks = chain h b' ks') : b = b' ∧ ks = ks' := by
  induction ks using List.reverseRecOn generalizing ks' with
  | nil =>
    rcases ks'.eq_nil_or_concat' with rfl | ⟨ks', k', rfl⟩
    · exact ⟨heq, rfl⟩
    · rw [steps_concat, List.append_subset] at hS'
      rw [chain_concat] at heq
      exact absurd (heq ▸ hb) (hroots _ (hS'.2 List.mem_cons_self))
  | append_singleton ks k ih =>
    rw [steps_concat, List.append_subset] at hS
    have hk := hS.2 List.mem_cons_self
    rw [chain_concat] at heq
    rcases ks'.eq_nil_or_concat' with rfl | ⟨ks', k', rfl⟩
    · exact absurd (heq ▸ hb') (hroots _ hk)
    · rw [steps_concat, List.append_subset] at hS'
      have hk' := hS'.2 List.mem_cons_self
      rw [chain_concat] at heq
      obtain ⟨rfl, hend⟩ := Prod.mk.inj (hinj _ hk _ hk' heq)
      obtain ⟨rfl, rfl⟩ := ih hS.1 hS'.1 hend
      exact ⟨rfl, rfl⟩

end RustEvm.HashChain
