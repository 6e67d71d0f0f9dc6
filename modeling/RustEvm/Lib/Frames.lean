import Mathlib.Tactic

/-!
# RustEvm.Lib.Frames — streams of self-delimiting frames

A stream is read frame by frame: one head element, then as many payload elements as `w` says the head calls for.
Only the last payload may be cut short by the end of the stream.

* `split w` reads a stream; putting the frames back together gives the stream (`flatMap_split`), and complete frames
  are read back as they were written (`split_flatMap`).
* `located p fs` pairs every frame with where it starts; located frames tile the stream without overlap
  (`located_disjoint`).
* `Visits w l` is the walk that steps from each head over its payload; it visits exactly the starts of frames
  (`visits_iff`).
-/

namespace RustEvm.Frames

variable {α : Type*} (w : α → ℕ)

/-- One head element and its payload. -/
structure Frame (α : Type*) where
  head : α
  payload : List α
  deriving DecidableEq

/-- The elements of a frame. -/
def Frame.toList (f : Frame α) : List α := f.head :: f.payload

@[simp] theorem Frame.length_toList (f : Frame α) : f.toList.length = f.payload.length + 1 := rfl

/-- The payload has the length its head calls for. -/
def Frame.Complete (f : Frame α) : Prop := f.payload.length = w f.head

/-- Read a stream as frames. -/
def split : List α → List (Frame α)
  | [] => []
  | b :: rest => ⟨b, rest.take (w b)⟩ :: split (rest.drop (w b))
  termination_by l => l.length
  decreasing_by simp only [List.length_drop, List.length_cons]; omega

@[simp] theorem split_nil : split w [] = [] := by rw [split]

theorem split_cons (b : α) (rest : List α) :
    split w (b :: rest) = ⟨b, rest.take (w b)⟩ :: split w (rest.drop (w b)) := by rw [split]

/-- Nothing is lost: the frames of a stream put together are the stream. -/
theorem flatMap_split (l : List α) : (split w l).flatMap Frame.toList = l := by
  induction l using split.induct (w := w) with
  | case1 => simp
  | case2 b rest ih => simp [split_cons, Frame.toList, ih]

/-- Complete frames are read back as they were written. -/
theorem split_flatMap {fs : List (Frame α)} (h : ∀ f ∈ fs, f.Complete w) :
    split w (fs.flatMap Frame.toList) = fs := by
  induction fs with
  | nil => simp
  | cons f fs ih =>
    have hf : f.payload.length = w f.head := h f (by simp)
    rw [List.flatMap_cons, Frame.toList, List.cons_append, split_cons, ← hf, List.take_left,
      List.drop_left, ih (fun g hg => h g (by simp [hg]))]

/-! ## Where frames start -/

/-- Every frame with the position of its head, the first one standing at `p`. -/
def located : ℕ → List (Frame α) → List (ℕ × Frame α)
  | _, [] => []
  | p, f :: fs => (p, f) :: located (p + f.toList.length) fs

@[simp] theorem located_nil (p : ℕ) : located p ([] : List (Frame α)) = [] := rfl

theorem located_cons (p : ℕ) (f : Frame α) (fs : List (Frame α)) :
    located p (f :: fs) = (p, f) :: located (p + f.toList.length) fs := rfl

theorem mem_located {p : ℕ} {f : Frame α} {fs : List (Frame α)} (h : f ∈ fs) :
    ∃ q, (q, f) ∈ located p fs := by
  induction fs generalizing p with
  | nil => simp at h
  | cons g fs ih =>
    rcases List.mem_cons.mp h with rfl | hmem
    · exact ⟨p, List.mem_cons_self⟩
    · obtain ⟨q, hq⟩ := ih (p := p + g.toList.length) hmem
      exact ⟨q, List.mem_cons_of_mem _ hq⟩

theorem located_map_snd (p : ℕ) (fs : List (Frame α)) : (located p fs).map Prod.snd = fs := by
  induction fs generalizing p with
  | nil => rfl
  | cons f fs ih => rw [located_cons, List.map_cons, ih]

theorem mem_of_located {p q : ℕ} {f : Frame α} {fs : List (Frame α)} (h : (q, f) ∈ located p fs) : f ∈ fs := by
  rw [← located_map_snd p fs]
  exact List.mem_map.mpr ⟨_, h, rfl⟩

/-- A frame starts behind the frames in front of it. -/
theorem located_getElem? (p : ℕ) (fs : List (Frame α)) (j : ℕ) :
    (located p fs)[j]? = fs[j]?.map fun f => (p + ((fs.take j).flatMap Frame.toList).length, f) := by
  induction fs generalizing p j with
  | nil => simp
  | cons f fs ih =>
    cases j with
    | zero => simp [located_cons]
    | succ j =>
      rw [located_cons, List.getElem?_cons_succ, List.getElem?_cons_succ, ih, List.take_succ_cons, List.flatMap_cons,
        List.length_append, Nat.add_assoc]

theorem located_dropLast (p : ℕ) (fs : List (Frame α)) : (located p fs).dropLast = located p fs.dropLast := by
  induction fs generalizing p with
  | nil => rfl
  | cons f fs ih =>
    cases fs with
    | nil => rfl
    | cons g fs => exact congrArg (List.cons _) (ih _)

/-- Each frame starts where the one before it ends. -/
theorem located_chain (p : ℕ) (fs : List (Frame α)) :
    (located p fs).IsChain fun f g => g.1 = f.1 + f.2.toList.length := by
  induction fs generalizing p with
  | nil => exact .nil
  | cons f fs ih =>
    cases fs with
    | nil => exact .singleton _
    | cons g fs => exact .cons_cons rfl (ih _)

theorem length_payload_le {l : List α} : ∀ f ∈ split w l, f.payload.length ≤ w f.head := by
  induction l using split.induct (w := w) with
  | case1 => simp
  | case2 b rest ih =>
    rw [split_cons]
    intro f hf
    rcases List.mem_cons.mp hf with rfl | hmem
    · exact List.length_take_le _ _
    · exact ih f hmem

/-- Only the last payload is cut short. -/
theorem complete_of_split_append {l : List α} {fs gs : List (Frame α)} (h : split w l = fs ++ gs) (hne : gs ≠ []) :
    ∀ f ∈ fs, f.Complete w := by
  induction l using split.induct (w := w) generalizing fs with
  | case1 =>
    rw [split_nil] at h
    simp [(List.append_eq_nil_iff.mp h.symm).2] at hne
  | case2 b rest ih =>
    cases fs with
    | nil => simp
    | cons g fs =>
      rw [split_cons, List.cons_append, List.cons.injEq] at h
      obtain ⟨rfl, hrest⟩ := h
      have hlong : w b ≤ rest.length := by
        by_contra hlt
        rw [List.drop_eq_nil_of_le (by omega), split_nil] at hrest
        exact hne (List.append_eq_nil_iff.mp hrest.symm).2
      intro f hf
      rcases List.mem_cons.mp hf with rfl | hmem
      · exact List.length_take_of_le hlong
      · exact ih hrest f hmem

theorem located_start_le {p q : ℕ} {f : Frame α} {fs : List (Frame α)} (h : (q, f) ∈ located p fs) : p ≤ q := by
  induction fs generalizing p with
  | nil => simp at h
  | cons g fs ih =>
    rcases List.mem_cons.mp h with heq | hmem
    · exact (Prod.mk.inj heq).1.ge
    · exact (Nat.le_add_right p _).trans (ih hmem)

/-- A located frame is found in the stream where it says. -/
theorem located_drop {p q : ℕ} {f : Frame α} {fs : List (Frame α)} (h : (q, f) ∈ located p fs) :
    ∃ rest, (fs.flatMap Frame.toList).drop (q - p) = f.toList ++ rest := by
  induction fs generalizing p with
  | nil => simp at h
  | cons g fs ih =>
    rcases List.mem_cons.mp h with heq | hmem
    · obtain ⟨rfl, rfl⟩ := Prod.mk.inj heq
      exact ⟨_, by rw [Nat.sub_self, List.drop_zero, List.flatMap_cons]⟩
    · obtain ⟨rest, hrest⟩ := ih hmem
      have hle := located_start_le hmem
      refine ⟨rest, ?_⟩
      rw [List.flatMap_cons, show q - p = g.toList.length + (q - (p + g.toList.length)) by omega,
        List.drop_length_add_append, hrest]

/-- Located frames do not overlap: a frame starting before another one ends before it. -/
theorem located_disjoint {p q r : ℕ} {f g : Frame α} {fs : List (Frame α)} (hf : (q, f) ∈ located p fs)
    (hg : (r, g) ∈ located p fs) (hlt : q < r) : q + f.toList.length ≤ r := by
  induction fs generalizing p with
  | nil => simp at hf
  | cons k fs ih =>
    rcases List.mem_cons.mp hf with heq | hmem
    · obtain ⟨rfl, rfl⟩ := Prod.mk.inj heq
      rcases List.mem_cons.mp hg with heq' | hmem'
      · obtain ⟨rfl, rfl⟩ := Prod.mk.inj heq'
        exact absurd hlt (lt_irrefl _)
      · exact located_start_le hmem'
    · rcases List.mem_cons.mp hg with heq' | hmem'
      · obtain ⟨rfl, rfl⟩ := Prod.mk.inj heq'
        have := located_start_le hmem
        omega
      · exact ih hmem hmem'

/-- Frames start one after the other. -/
theorem located_pairwise (p : ℕ) (fs : List (Frame α)) : (located p fs).Pairwise fun f g => f.1 < g.1 := by
  induction fs generalizing p with
  | nil => exact .nil
  | cons f fs ih =>
    refine List.pairwise_cons.mpr ⟨?_, ih _⟩
    rintro ⟨q, g⟩ hg
    have hle := located_start_le hg
    rw [Frame.length_toList] at hle
    show p < q
    omega

/-! ## The walk -/

/-- The positions visited when stepping from each element over the payload it calls for. -/
inductive Visits (l : List α) : ℕ → Prop
  | start : Visits l 0
  | step {i : ℕ} {b : α} (h : Visits l i) (hb : l[i]? = some b) : Visits l (i + 1 + w b)

/-- The frames of the rest of a stream are the one at its head and those behind its payload. -/
theorem located_drop_step {l rest : List α} {p : ℕ} {b : α} (h : l.drop p = b :: rest) :
    located p (split w (l.drop p)) =
      (p, ⟨b, rest.take (w b)⟩) :: located (p + 1 + w b) (split w (l.drop (p + 1 + w b))) := by
  have hrest : l.drop (p + 1 + w b) = rest.drop (w b) := by
    rw [Nat.add_assoc, ← List.drop_drop, h, Nat.add_comm 1, List.drop_succ_cons]
  rw [hrest, h, split_cons, located_cons, Frame.length_toList, List.length_take]
  by_cases hle : w b ≤ rest.length
  · rw [Nat.min_eq_left hle, Nat.add_assoc, Nat.add_comm 1]
  · rw [List.drop_eq_nil_of_le (by omega), split_nil, located_nil, located_nil]

/-- Where the walk stands, the frames still to come are those of the rest of the stream. -/
theorem located_of_visits {l : List α} {p : ℕ} (h : Visits w l p) :
    ∃ pre, located 0 (split w l) = pre ++ located p (split w (l.drop p)) := by
  induction h with
  | start => exact ⟨[], by rw [List.drop_zero, List.nil_append]⟩
  | @step i b _ hb ih =>
    obtain ⟨pre, hpre⟩ := ih
    obtain ⟨hlt, rfl⟩ := List.getElem?_eq_some_iff.mp hb
    rw [located_drop_step w (List.drop_eq_getElem_cons hlt)] at hpre
    exact ⟨_, hpre.trans (List.append_cons _ _ _)⟩

theorem visits_of_located {l : List α} {p q : ℕ} {f : Frame α} (h : Visits w l p)
    (hf : (q, f) ∈ located p (split w (l.drop p))) : Visits w l q ∧ l[q]? = some f.head := by
  induction hn : l.length - p using Nat.strong_induction_on generalizing p with
  | _ n ih =>
    cases hd : l.drop p with
    | nil => simp [hd] at hf
    | cons b rest =>
      have hlt : p < l.length := by
        by_contra hge
        rw [List.drop_eq_nil_of_le (Nat.not_lt.mp hge)] at hd
        exact absurd hd (by simp)
      have hb : l[p]? = some b := by
        rw [← Nat.add_zero p, ← List.getElem?_drop, hd]
        rfl
      rw [located_drop_step w hd] at hf
      rcases List.mem_cons.mp hf with heq | hmem
      · obtain ⟨rfl, rfl⟩ := Prod.mk.inj heq
        exact ⟨h, hb⟩
      · exact ih (l.length - (p + 1 + w b)) (by omega) (h.step hb) hmem rfl

/-- **The walk visits the starts of frames**, as far as the stream goes. -/
theorem visits_iff {l : List α} {q : ℕ} {b : α} :
    (Visits w l q ∧ l[q]? = some b) ↔ ∃ f, (q, f) ∈ located 0 (split w l) ∧ f.head = b := by
  constructor
  · rintro ⟨hv, hb⟩
    obtain ⟨pre, hpre⟩ := located_of_visits w hv
    obtain ⟨hlt, rfl⟩ := List.getElem?_eq_some_iff.mp hb
    rw [located_drop_step w (List.drop_eq_getElem_cons hlt)] at hpre
    exact ⟨_, hpre ▸ List.mem_append_right _ List.mem_cons_self, rfl⟩
  · rintro ⟨f, hf, rfl⟩
    exact visits_of_located w .start (by rwa [List.drop_zero])

end RustEvm.Frames
