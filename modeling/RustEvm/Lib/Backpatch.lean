import Mathlib.Tactic

/-!
# RustEvm.Lib.Backpatch — output with holes filled in afterwards

Output is emitted as pieces: literal elements, then possibly a hole of `n` elements for the value of a key that may
not be known yet.  The draft holds `n` fillers `z` in every hole; `holes` lists, in order, which key stands where.

`patchAll` overwrites the holes of a draft one after another and stops at the first key without a value.  It gives
exactly the output in which every hole holds its value (`patchAll_draft`), whatever was emitted in between, and the
draft changes nowhere else (`getElem?_filled_of_not_hole`).
-/

namespace RustEvm.Backpatch

variable {α κ : Type*}

/-- Literal elements, then possibly a hole. -/
structure Piece (α κ : Type*) where
  lit : List α
  hole : Option κ

/-- Overwrite `xs` with `ys` from position `i` on. -/
def patch (xs : List α) (i : ℕ) (ys : List α) : List α := xs.take i ++ ys ++ xs.drop (i + ys.length)

theorem patch_append {i : ℕ} (pre mid post ys : List α) (hi : i = pre.length) (h : mid.length = ys.length) :
    patch (pre ++ (mid ++ post)) i ys = pre ++ (ys ++ post) := by
  subst hi
  unfold patch
  rw [List.take_left, ← h, ← List.append_assoc pre mid post, ← List.length_append, List.drop_left,
    List.append_assoc]

section Draft

variable (n : ℕ) (z : α)

/-- The hole of a piece holds fillers. -/
def Piece.draft (p : Piece α κ) : List α :=
  match p.hole with
  | none => p.lit
  | some _ => p.lit ++ List.replicate n z

/-- The hole of a piece holds the value of its key. -/
def Piece.filled (v : κ → List α) (p : Piece α κ) : List α :=
  match p.hole with
  | none => p.lit
  | some k => p.lit ++ v k

def draft (ps : List (Piece α κ)) : List α := ps.flatMap (Piece.draft n z)

def filled (v : κ → List α) (ps : List (Piece α κ)) : List α := ps.flatMap (Piece.filled v)

/-- The key of every hole and where the hole starts, the output starting at `i`. -/
def holes : ℕ → List (Piece α κ) → List (κ × ℕ)
  | _, [] => []
  | i, p :: ps =>
    match p.hole with
    | none => holes (i + (p.draft n z).length) ps
    | some k => (k, i + p.lit.length) :: holes (i + (p.draft n z).length) ps

theorem length_filled_piece {v : κ → List α} (hv : ∀ k, (v k).length = n) (p : Piece α κ) :
    (p.filled v).length = (p.draft n z).length := by
  unfold Piece.filled Piece.draft
  cases p.hole <;> simp [hv]

/-- Only the values of the keys that stand in a hole matter. -/
theorem filled_congr {v v' : κ → List α} {ps : List (Piece α κ)}
    (h : ∀ k ∈ ps.filterMap Piece.hole, v k = v' k) : filled v ps = filled v' ps := by
  refine List.flatMap_congr fun p hp => ?_
  unfold Piece.filled
  cases hk : p.hole with
  | none => rfl
  | some k => simp only [h k (List.mem_filterMap.mpr ⟨p, hp, hk⟩)]

theorem holes_append (i : ℕ) (ps qs : List (Piece α κ)) :
    holes n z i (ps ++ qs) = holes n z i ps ++ holes n z (i + (draft n z ps).length) qs := by
  induction ps generalizing i with
  | nil => simp [holes, draft]
  | cons p ps ih =>
    have hlen : (draft n z (p :: ps)).length = (p.draft n z).length + (draft n z ps).length := by
      simp [draft]
    rw [List.cons_append, holes, holes, hlen, ← Nat.add_assoc]
    cases p.hole with
    | none => exact ih _
    | some k => simp only [List.cons_append, ih]

end Draft

/-- Fill holes one after another, up to the first key without a value. -/
def patchAll (v : κ → Option (List α)) : List α → List (κ × ℕ) → Except κ (List α)
  | xs, [] => .ok xs
  | xs, (k, i) :: hs =>
    match v k with
    | none => .error k
    | some ys => patchAll v (patch xs i ys) hs

section PatchAll

variable {n : ℕ} {z : α} {v : κ → Option (List α)} (hv : ∀ k ys, v k = some ys → ys.length = n)
include hv

/-- Filling the holes of a draft, when the output before it is already final. -/
theorem patchAll_append (pre : List α) (ps : List (Piece α κ)) :
    patchAll v (pre ++ draft n z ps) (holes n z pre.length ps) =
      match (ps.filterMap Piece.hole).find? (fun k => (v k).isNone) with
      | some k => .error k
      | none => .ok (pre ++ filled (fun k => (v k).getD []) ps) := by
  induction ps generalizing pre with
  | nil => simp [draft, holes, patchAll, filled]
  | cons p ps ih =>
    obtain ⟨lit, hole⟩ := p
    cases hole with
    | none =>
      -- no hole: the literal joins the final prefix
      have h := ih (pre ++ lit)
      rw [List.append_assoc, List.length_append] at h
      simpa [draft, filled, holes, Piece.draft, Piece.filled, List.append_assoc] using h
    | some k =>
      cases hk : v k with
      | none => simp [holes, patchAll, hk]
      | some ys =>
        have hlen : ys.length = n := hv k ys hk
        have h := ih (pre ++ (lit ++ ys))
        have hpatch : patch (pre ++ draft n z (⟨lit, some k⟩ :: ps)) (pre.length + lit.length) ys =
            pre ++ (lit ++ ys) ++ draft n z ps := by
          have h1 := patch_append (i := pre.length + lit.length) (pre ++ lit) (List.replicate n z) (draft n z ps) ys
            (by simp) (by simp [hlen])
          simpa [draft, Piece.draft, List.append_assoc] using h1
        have hpos : (pre ++ (lit ++ ys)).length = pre.length + (Piece.draft n z ⟨lit, some k⟩).length := by
          simp [Piece.draft, hlen]
        rw [hpos] at h
        simp only [holes, patchAll, hk, hpatch, h]
        simp [filled, Piece.filled, hk, List.append_assoc]

/-- **Back-patching**: filling the holes of a draft gives the output with every hole filled, or fails at the first
hole whose key has no value. -/
theorem patchAll_draft (ps : List (Piece α κ)) :
    patchAll v (draft n z ps) (holes n z 0 ps) =
      match (ps.filterMap Piece.hole).find? (fun k => (v k).isNone) with
      | some k => .error k
      | none => .ok (filled (fun k => (v k).getD []) ps) := by
  simpa using patchAll_append hv [] ps

end PatchAll

/-- Filling changes the draft nowhere but in its holes. -/
theorem getElem?_filled_of_not_hole {n : ℕ} {z : α} {v : κ → List α} (hv : ∀ k, (v k).length = n)
    (ps : List (Piece α κ)) (i j : ℕ)
    (hj : ∀ k q, (k, q) ∈ holes n z i ps → ¬ (q ≤ i + j ∧ i + j < q + n)) :
    (filled v ps)[j]? = (draft n z ps)[j]? := by
  induction ps generalizing i j with
  | nil => rfl
  | cons p ps ih =>
    have hsplit : filled v (p :: ps) = p.filled v ++ filled v ps := by simp [filled]
    have hsplit' : draft n z (p :: ps) = p.draft n z ++ draft n z ps := by simp [draft]
    have hlen := length_filled_piece n z hv p
    rw [hsplit, hsplit']
    by_cases hlt : j < (p.draft n z).length
    · rw [List.getElem?_append_left (by omega), List.getElem?_append_left hlt]
      unfold Piece.filled Piece.draft at *
      cases hk : p.hole with
      | none => simp
      | some k =>
        simp only [hk, List.length_append, List.length_replicate] at hlt
        -- inside the piece only the literal is left
        have hlit : j < p.lit.length := by
          by_contra hge
          exact hj k (i + p.lit.length) (by simp [holes, hk]) ⟨by omega, by omega⟩
        simp only [List.getElem?_append_left hlit]
    · rw [List.getElem?_append_right (by omega), List.getElem?_append_right (by omega), hlen]
      refine ih (i + (p.draft n z).length) (j - (p.draft n z).length) fun k q hq hbad => ?_
      refine hj k q ?_ ⟨by omega, by omega⟩
      cases hk : p.hole with
      | none => simpa [holes, hk] using hq
      | some k' => simpa [holes, hk] using Or.inr hq

end RustEvm.Backpatch
