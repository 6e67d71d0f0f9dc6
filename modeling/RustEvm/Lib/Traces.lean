import Mathlib.Tactic

/-!
# RustEvm.Lib.Traces — lists up to the order of independent letters

`ok a b` says that neighbours `a` and `b` may change places.

* `Swaps ok` are the lists that swaps of neighbours lead to, and `Reordered ok` the rearrangements that keep the order of
  any two letters that may not change places: without repetitions, the former reach the latter
  (`Reordered.swaps`).
* What goes through the letters of a list one by one comes out the same, if neighbours that may change places commute
  (`Swaps.foldlM`).
* A letter that may not change places with any other splits a list, and swaps leave it where it is (`Swaps.split`).
-/

namespace RustEvm.Traces

variable {α σ : Type*} {ok : α → α → Prop} {l l' : List α}

/-- Two neighbours change places. -/
inductive Swap (ok : α → α → Prop) : List α → List α → Prop
  | head {a b : α} (h : ok a b) (l : List α) : Swap ok (a :: b :: l) (b :: a :: l)
  | tail (a : α) {l l' : List α} (h : Swap ok l l') : Swap ok (a :: l) (a :: l')

abbrev Swaps (ok : α → α → Prop) : List α → List α → Prop := Relation.ReflTransGen (Swap ok)

theorem Swaps.cons (a : α) (h : Swaps ok l l') : Swaps ok (a :: l) (a :: l') :=
  Relation.ReflTransGen.lift (a :: ·) (fun _ _ => Swap.tail a) _ _ h

theorem Swap.perm (h : Swap ok l l') : l.Perm l' := by
  induction h with
  | head _ l => exact .swap _ _ l
  | tail a _ ih => exact ih.cons a

theorem Swaps.perm (h : Swaps ok l l') : l.Perm l' := by
  induction h with
  | refl => exact .refl l
  | tail _ hswap ih => exact ih.trans hswap.perm

/-- A letter goes to the front, past letters that let it. -/
theorem Swaps.front {a : α} {p : List α} (hp : ∀ b ∈ p, ok b a) (q : List α) :
    Swaps ok (p ++ a :: q) (a :: (p ++ q)) := by
  induction p with
  | nil => exact .refl
  | cons b p ih =>
    have hpast : Swaps ok (b :: (p ++ a :: q)) (b :: a :: (p ++ q)) :=
      (ih fun c hc => hp c (List.mem_cons_of_mem b hc)).cons b
    exact hpast.tail (.head (hp b List.mem_cons_self) (p ++ q))

/-! ## Rearrangements -/

/-- The same letters, and any two that may not change places in the order they were in. -/
structure Reordered (ok : α → α → Prop) (l l' : List α) : Prop where
  perm : l.Perm l'
  order : ∀ a b, ¬ ok a b → [a, b].Sublist l → [a, b].Sublist l'

/-- The letter that comes first may come first. -/
theorem Reordered.first {a : α} {p q r : List α} (h : Reordered ok (p ++ a :: q) (a :: r))
    (hnodup : (p ++ a :: q).Nodup) : (∀ b ∈ p, ok b a) ∧ Reordered ok (p ++ q) r := by
  have hnodup' : (a :: r).Nodup := h.perm.nodup_iff.mp hnodup
  have hmiddle : (a :: (p ++ q)).Nodup := List.perm_middle.nodup_iff.mp hnodup
  constructor
  · intro b hb
    by_contra hok
    have hsub : [b, a].Sublist (p ++ a :: q) :=
      (List.singleton_sublist.mpr hb).append (List.singleton_sublist.mpr List.mem_cons_self)
    rcases List.cons_sublist_cons'.mp (h.order b a hok hsub) with hr | ⟨rfl, hr⟩
    · exact (List.nodup_cons.mp hnodup').1 (hr.subset (by simp))
    · exact (List.nodup_cons.mp hmiddle).1 (List.mem_append_left q hb)
  · refine ⟨(List.perm_middle.symm.trans h.perm).cons_inv, fun x y hok hsub => ?_⟩
    have hwhole : [x, y].Sublist (p ++ a :: q) := hsub.trans ((List.sublist_cons_self a q).append_left p)
    rcases List.cons_sublist_cons'.mp (h.order x y hok hwhole) with hr | ⟨rfl, -⟩
    · exact hr
    · exact absurd (hsub.subset List.mem_cons_self) (List.nodup_cons.mp hmiddle).1

/-- **A rearrangement that keeps the order of what may not change places comes by swaps of neighbours.** -/
theorem Reordered.swaps (h : Reordered ok l l') (hnodup : l.Nodup) : Swaps ok l l' := by
  induction l' generalizing l with
  | nil =>
    obtain rfl := h.perm.eq_nil
    exact .refl
  | cons a r ih =>
    obtain ⟨p, q, rfl⟩ := List.append_of_mem (h.perm.mem_iff.mpr List.mem_cons_self)
    obtain ⟨hfirst, hrest⟩ := h.first hnodup
    have hnodup' : (p ++ q).Nodup := (List.nodup_cons.mp (List.perm_middle.nodup_iff.mp hnodup)).2
    exact (Swaps.front hfirst q).trans ((ih hrest hnodup').cons a)

/-! ## Going through a list -/

theorem Swap.foldlM {f : σ → α → Option σ} (hcomm : ∀ a b, ok a b → ∀ s,
    ((f s a).bind fun s' => f s' b) = (f s b).bind fun s' => f s' a) (h : Swap ok l l') (s : σ) :
    l.foldlM f s = l'.foldlM f s := by
  induction h generalizing s with
  | @head a b hab l =>
    simp only [List.foldlM_cons, Option.bind_eq_bind, ← Option.bind_assoc]
    rw [hcomm a b hab s]
  | tail a _ ih =>
    simp only [List.foldlM_cons, ih]

/-- **The order of neighbours that commute does not matter.** -/
theorem Swaps.foldlM {f : σ → α → Option σ} (hcomm : ∀ a b, ok a b → ∀ s,
    ((f s a).bind fun s' => f s' b) = (f s b).bind fun s' => f s' a) (h : Swaps ok l l') (s : σ) :
    l.foldlM f s = l'.foldlM f s := by
  induction h with
  | refl => rfl
  | tail _ hswap ih => exact ih.trans (hswap.foldlM hcomm s)

/-! ## Walls -/

section

variable {wall : α → Prop}

/-- The letters before the first wall. -/
theorem exists_wall (wall : α → Prop) (l : List α) :
    (∀ a ∈ l, ¬ wall a) ∨ ∃ p c q, l = p ++ c :: q ∧ wall c ∧ ∀ a ∈ p, ¬ wall a := by
  induction l with
  | nil => exact .inl nofun
  | cons a l ih =>
    by_cases ha : wall a
    · exact .inr ⟨[], a, l, rfl, ha, nofun⟩
    · rcases ih with hl | ⟨p, c, q, rfl, hc, hp⟩
      · exact .inl (List.forall_mem_cons.mpr ⟨ha, hl⟩)
      · exact .inr ⟨a :: p, c, q, rfl, hc, List.forall_mem_cons.mpr ⟨ha, hp⟩⟩

theorem Swap.split (hwall : ∀ a b, ok a b → ¬ wall a ∧ ¬ wall b) {p : List α} {c : α} (hc : wall c) {q : List α}
    (h : Swap ok (p ++ c :: q) l') : ∃ p' q', l' = p' ++ c :: q' ∧ Swaps ok p p' ∧ Swaps ok q q' := by
  induction p generalizing l' with
  | nil =>
    cases h with
    | head hok _ => exact absurd hc (hwall _ _ hok).1
    | tail _ h => exact ⟨[], _, rfl, .refl, .single h⟩
  | cons a p ih =>
    cases h' : p ++ c :: q with
    | nil => exact absurd h' (by simp)
    | cons b r =>
      rw [List.cons_append, h'] at h
      cases h with
      | head hok _ =>
        cases p with
        | nil => exact absurd ((List.cons.inj h').1 ▸ hc) (hwall _ _ hok).2
        | cons x p =>
          obtain ⟨rfl, rfl⟩ := List.cons.inj h'
          exact ⟨x :: a :: p, q, rfl, .single (.head hok p), .refl⟩
      | tail _ h =>
        obtain ⟨p', q', rfl, hp, hq⟩ := ih (h' ▸ h)
        exact ⟨a :: p', q', rfl, hp.cons a, hq⟩

/-- **Swaps do not go through walls.** -/
theorem Swaps.split (hwall : ∀ a b, ok a b → ¬ wall a ∧ ¬ wall b) {p : List α} {c : α} (hc : wall c) {q : List α}
    (h : Swaps ok (p ++ c :: q) l') : ∃ p' q', l' = p' ++ c :: q' ∧ Swaps ok p p' ∧ Swaps ok q q' := by
  induction h with
  | refl => exact ⟨p, q, rfl, .refl, .refl⟩
  | tail _ hswap ih =>
    obtain ⟨p₁, q₁, rfl, hp₁, hq₁⟩ := ih
    obtain ⟨p', q', rfl, hp, hq⟩ := hswap.split hwall hc
    exact ⟨p', q', rfl, hp₁.trans hp, hq₁.trans hq⟩

end

end RustEvm.Traces
