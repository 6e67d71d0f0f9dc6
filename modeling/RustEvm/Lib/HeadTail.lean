import Mathlib.Tactic

/-!
# RustEvm.Lib.HeadTail — records laid out as a head and a tail

A record is a list of parts.  The head has one entry per part: an inline part itself, or a pointer of `w` elements to
an outlined one; the tail has the outlined parts one after another.  Pointers count from the start of the record.

`StandsAt out off xs` says where a run of elements is found.  The record is read back part by part: an inline part, or
the pointer, stands where the head entries before it end (`layout_inline`, `layout_pointer`), and an outlined part
stands where its pointer says (`layout_outline`).
-/

namespace RustEvm.HeadTail

variable {α : Type*}

/-! ## Finding a run of elements -/

/-- `xs` is found in `out` from position `off` on. -/
def StandsAt (out : List α) (off : ℕ) (xs : List α) : Prop := ∃ rest, out.drop off = xs ++ rest

namespace StandsAt

variable {out xs ys : List α} {off : ℕ}

theorem append_right (h : StandsAt out off xs) (suffix : List α) : StandsAt (out ++ suffix) off xs := by
  obtain ⟨rest, h⟩ := h
  refine ⟨rest ++ suffix.drop (off - out.length), ?_⟩
  rw [List.drop_append, h, List.append_assoc]

theorem left (h : StandsAt out off (xs ++ ys)) : StandsAt out off xs := by
  obtain ⟨rest, h⟩ := h
  exact ⟨ys ++ rest, by rw [h, List.append_assoc]⟩

theorem right (h : StandsAt out off (xs ++ ys)) : StandsAt out (off + xs.length) ys := by
  obtain ⟨rest, h⟩ := h
  refine ⟨rest, ?_⟩
  rw [← List.drop_drop, h, List.append_assoc, List.drop_left]

theorem length_le (h : StandsAt out off xs) (hne : xs ≠ []) : off + xs.length ≤ out.length := by
  obtain ⟨rest, h⟩ := h
  have hlen := congrArg List.length h
  have hpos := List.length_pos_of_ne_nil hne
  rw [List.length_drop, List.length_append] at hlen
  omega

/-- Slicing by position and length gives the run. -/
theorem slice (h : StandsAt out off xs) : (out.take (off + xs.length)).drop off = xs := by
  obtain ⟨rest, h⟩ := h
  rw [List.drop_take, h, Nat.add_sub_cancel_left, List.take_left]

end StandsAt

/-! ## Records -/

/-- One part of a record. -/
inductive RecordPart (α : Type*)
  | inline (xs : List α)
  | outline (xs : List α)

/-- What a part contributes to the tail. -/
def RecordPart.outside : RecordPart α → List α
  | .inline _ => []
  | .outline xs => xs

/-- The length of a part's head entry. -/
def RecordPart.headLength (w : ℕ) : RecordPart α → ℕ
  | .inline xs => xs.length
  | .outline _ => w

def headSize (w : ℕ) (ps : List (RecordPart α)) : ℕ := (ps.map (RecordPart.headLength w)).sum

def tails (ps : List (RecordPart α)) : List α := ps.flatMap RecordPart.outside

section Layout

variable (ptr : ℕ → List α)

/-- The head entries, the next outlined part standing at `pos`. -/
def heads : ℕ → List (RecordPart α) → List α
  | _, [] => []
  | pos, .inline xs :: ps => xs ++ heads pos ps
  | pos, .outline xs :: ps => ptr pos ++ heads (pos + xs.length) ps

/-- The whole record. -/
def layout (w : ℕ) (ps : List (RecordPart α)) : List α := heads ptr (headSize w ps) ps ++ tails ps

theorem headSize_append (w : ℕ) (ps qs : List (RecordPart α)) :
    headSize w (ps ++ qs) = headSize w ps + headSize w qs := by
  simp [headSize]

theorem tails_append (ps qs : List (RecordPart α)) : tails (ps ++ qs) = tails ps ++ tails qs := by
  simp [tails]

theorem heads_append (pos : ℕ) (ps qs : List (RecordPart α)) :
    heads ptr pos (ps ++ qs) = heads ptr pos ps ++ heads ptr (pos + (tails ps).length) qs := by
  induction ps generalizing pos with
  | nil => simp [heads, tails]
  | cons p ps ih => cases p <;> simp [heads, tails, RecordPart.outside, ih, Nat.add_assoc]

variable {ptr} {w : ℕ} (hptr : ∀ k, (ptr k).length = w)
include hptr

theorem length_heads (pos : ℕ) (ps : List (RecordPart α)) : (heads ptr pos ps).length = headSize w ps := by
  induction ps generalizing pos with
  | nil => rfl
  | cons p ps ih => cases p <;> simp [heads, headSize, RecordPart.headLength, ih, hptr]

theorem length_layout (ps : List (RecordPart α)) : (layout ptr w ps).length = headSize w ps + (tails ps).length := by
  rw [layout, List.length_append, length_heads hptr]

/-- Behind the head stands the tail. -/
theorem drop_layout (ps : List (RecordPart α)) : (layout ptr w ps).drop (headSize w ps) = tails ps := by
  rw [layout]
  exact List.drop_left' (length_heads hptr _ _)

/-- An inline part stands where the head entries before it end. -/
theorem layout_inline (pre post : List (RecordPart α)) (xs : List α) :
    StandsAt (layout ptr w (pre ++ .inline xs :: post)) (headSize w pre) xs := by
  rw [StandsAt, layout, heads_append, heads, List.append_assoc, List.append_assoc,
    List.drop_left' (length_heads hptr _ _)]
  exact ⟨_, rfl⟩

/-- So does the pointer to an outlined part; it counts the head and the outlined parts before. -/
theorem layout_pointer (pre post : List (RecordPart α)) (xs : List α) :
    StandsAt (layout ptr w (pre ++ .outline xs :: post)) (headSize w pre)
      (ptr (headSize w (pre ++ .outline xs :: post) + (tails pre).length)) := by
  rw [StandsAt, layout, heads_append, heads, List.append_assoc, List.append_assoc,
    List.drop_left' (length_heads hptr _ _)]
  exact ⟨_, rfl⟩

/-- An outlined part stands where its pointer says. -/
theorem layout_outline (pre post : List (RecordPart α)) (xs : List α) :
    StandsAt (layout ptr w (pre ++ .outline xs :: post))
      (headSize w (pre ++ .outline xs :: post) + (tails pre).length) xs := by
  refine ⟨tails post, ?_⟩
  rw [← List.drop_drop, drop_layout hptr, tails_append, List.drop_left]
  simp [tails, RecordPart.outside]

end Layout

end RustEvm.HeadTail
