import RustEvm.Testkit.Trace
import RustEvm.Lib.Log
import RustEvm.Lib.Nesting

/-!
# RustEvm.Testkit.FrameIds — frame ids identify call frames

The tracer tells frames apart with a stack of ids, a depth and a counter.  While ends match begins, its stack is the
stack of open begins (`Tracer.Follows`), a frame being named by the number of begins up to its own.  So every frame
gets a fresh id, and two steps carry the same id when the innermost open begin is the same (`frame_ids`).
-/

namespace RustEvm.Testkit

open Panic Nesting Abi

/-- Calls and creates both begin and end a frame. -/
def Event.mark : Event → Mark
  | step _ => .other
  | stepEnd _ => .other
  | call => .enter
  | callEnd => .leave
  | create => .enter
  | createEnd => .leave

abbrev marks (events : List Event) : List Mark := events.map Event.mark

def Event.interpreter? : Event → Option Interpreter
  | step interp => some interp
  | _ => none

/-- What a step recorded of the interpreter. -/
def Step.interpreter (s : Step) : Interpreter := ⟨s.pc, s.opcode, s.gasRemaining, s.stack⟩

/-- The positions of the executed instructions among the events. -/
def stepPositions (events : List Event) : List ℕ :=
  (List.range events.length).filter fun i => (events[i]?.bind Event.interpreter?).isSome

/-! ## One callback -/

section

variable {u : Usize} {t t' : Tracer} {events : List Event} {e : Event}

theorem run_concat (u : Usize) (events : List Event) (e : Event) :
    Tracer.run u (events ++ [e]) = (Tracer.run u events).bind fun t => t.handle u e :=
  Log.foldlM_concat (Tracer.handle u) _ events e

theorem run_concat_eq_some (h : Tracer.run u (events ++ [e]) = some t') :
    ∃ t, Tracer.run u events = some t ∧ t.handle u e = some t' := by
  rwa [run_concat, Option.bind_eq_some_iff] at h

theorem enterFrame_eq_some (h : t.enterFrame u = some t') :
    t' = { t with framesSeen := t.framesSeen + 1, frames := t.frames ++ [t.framesSeen + 1], depth := t.depth + 1 } := by
  unfold Tracer.enterFrame addWithin at h
  by_cases hseen : t.framesSeen + 1 < u.card
  · by_cases hdepth : t.depth + 1 < u.card
    · simp only [if_pos hseen, if_pos hdepth, Option.bind_eq_bind, Option.bind_some] at h
      exact (Option.some.inj h).symm
    · simp [if_pos hseen, if_neg hdepth] at h
  · simp [if_neg hseen] at h

/-- **One callback** opens a frame, closes one, or is one of an instruction. -/
theorem handle_cases (h : t.handle u e = some t') :
    (e.mark = .enter ∧ e.interpreter? = none ∧
      t' = { t with framesSeen := t.framesSeen + 1, frames := t.frames ++ [t.framesSeen + 1], depth := t.depth + 1 }) ∨
    (e.mark = .leave ∧ e.interpreter? = none ∧ t' = t.leaveFrame) ∨
    (∃ interp, e = .step interp ∧ t' = t.step interp) ∨
    ∃ remaining, e = .stepEnd remaining ∧ t' = t.stepEnd remaining := by
  cases e with
  | step interp => exact .inr (.inr (.inl ⟨interp, rfl, (Option.some.inj h).symm⟩))
  | stepEnd remaining => exact .inr (.inr (.inr ⟨remaining, rfl, (Option.some.inj h).symm⟩))
  | call | create => exact .inl ⟨rfl, rfl, enterFrame_eq_some h⟩
  | callEnd | createEnd => exact .inr (.inl ⟨rfl, rfl, (Option.some.inj h).symm⟩)

/-- The end of an instruction changes the cost of the last step only. -/
theorem stepEnd_eq (t : Tracer) (remaining : ℕ) :
    (t.stepEnd remaining).frames = t.frames ∧ (t.stepEnd remaining).framesSeen = t.framesSeen ∧
      (t.stepEnd remaining).depth = t.depth ∧
      (t.stepEnd remaining).steps.map Step.interpreter = t.steps.map Step.interpreter ∧
      (t.stepEnd remaining).steps.map Step.frame = t.steps.map Step.frame := by
  unfold Tracer.stepEnd
  cases hlast : t.steps.getLast? with
  | none => exact ⟨rfl, rfl, rfl, rfl, rfl⟩
  | some s =>
    obtain ⟨l, hl⟩ := List.getLast?_eq_some_iff.mp hlast
    simp [hl, Step.interpreter]

/-- What a callback does to the open frames: a begin opens one with the next id, an end closes the innermost. -/
theorem handle_frames (h : t.handle u e = some t') :
    match e.mark with
    | .enter => t'.frames = t.frames ++ [t.framesSeen + 1] ∧ t'.framesSeen = t.framesSeen + 1 ∧ t'.depth = t.depth + 1
    | .leave => t'.frames = t.frames.dropLast ∧ t'.framesSeen = t.framesSeen ∧ t'.depth = t.depth - 1
    | .other => t'.frames = t.frames ∧ t'.framesSeen = t.framesSeen ∧ t'.depth = t.depth := by
  rcases handle_cases h with ⟨hm, -, rfl⟩ | ⟨hm, -, rfl⟩ | ⟨interp, rfl, rfl⟩ | ⟨remaining, rfl, rfl⟩
  · rw [hm]
    exact ⟨rfl, rfl, rfl⟩
  · rw [hm]
    exact ⟨rfl, rfl, rfl⟩
  · exact ⟨rfl, rfl, rfl⟩
  · obtain ⟨hframes, hseen, hdepth, -⟩ := stepEnd_eq t remaining
    exact ⟨hframes, hseen, hdepth⟩

/-- What a callback records: a step, under the innermost id. -/
theorem handle_steps (h : t.handle u e = some t') :
    t'.steps.map Step.interpreter = t.steps.map Step.interpreter ++ e.interpreter?.toList ∧
      t'.steps.map Step.frame =
        t.steps.map Step.frame ++ (e.interpreter?.map fun _ => t.frames.getLast?.getD 0).toList := by
  rcases handle_cases h with ⟨-, hi, rfl⟩ | ⟨-, hi, rfl⟩ | ⟨interp, rfl, rfl⟩ | ⟨remaining, rfl, rfl⟩
  · rw [hi]
    exact ⟨(List.append_nil _).symm, (List.append_nil _).symm⟩
  · rw [hi]
    exact ⟨(List.append_nil _).symm, (List.append_nil _).symm⟩
  · exact ⟨List.map_append, List.map_append⟩
  · obtain ⟨-, -, -, hrec, hids⟩ := stepEnd_eq t remaining
    rw [hrec, hids]
    exact ⟨(List.append_nil _).symm, (List.append_nil _).symm⟩

theorem handle_eq_none : t.handle u e = none ↔
    e.mark = .enter ∧ (u.card ≤ t.framesSeen + 1 ∨ u.card ≤ t.depth + 1) := by
  have henter : t.enterFrame u = none ↔ u.card ≤ t.framesSeen + 1 ∨ u.card ≤ t.depth + 1 := by
    unfold Tracer.enterFrame addWithin
    by_cases hseen : t.framesSeen + 1 < u.card
    · by_cases hdepth : t.depth + 1 < u.card
      · simp [hseen, hdepth]
      · simp [hseen, hdepth, Nat.not_lt.mp hdepth]
    · simp [hseen, Nat.not_lt.mp hseen]
  cases e with
  | call => exact henter.trans (and_iff_right rfl).symm
  | create => exact henter.trans (and_iff_right rfl).symm
  | _ => simp [Tracer.handle, Event.mark]

end

/-! ## A run -/

theorem stepPositions_concat (events : List Event) (e : Event) :
    stepPositions (events ++ [e]) =
      stepPositions events ++ (e.interpreter?.map fun _ => events.length).toList := by
  have hold : ∀ i ∈ List.range events.length, (((events ++ [e])[i]?.bind Event.interpreter?).isSome) =
      ((events[i]?.bind Event.interpreter?).isSome) := by
    intro i hi
    rw [List.getElem?_append_left (List.mem_range.mp hi)]
  unfold stepPositions
  rw [List.length_append, List.length_singleton, List.range_succ, List.filter_append, List.filter_congr hold]
  congr 1
  simp only [List.filter_singleton, List.getElem?_concat_length, Option.bind_some]
  cases e.interpreter? <;> rfl

/-- **The tracer after the events**: the open frames are the open begins, each under its number, and every step is
recorded under the innermost begin open before it. -/
structure Tracer.Follows (events : List Event) (t : Tracer) : Prop where
  seen : t.framesSeen = (marks events).count .enter
  frames : t.frames = (pending (marks events)).reverse.map fun b => ordinal (marks events) (some b)
  depth : t.depth = (pending (marks events)).length
  recorded : t.steps.map Step.interpreter = events.filterMap Event.interpreter?
  steps : t.steps.map Step.frame =
    (stepPositions events).map fun i => ordinal (marks events) (pending ((marks events).take i)).head?

theorem lt_of_mem_head?_pending {p : List Mark} {i : ℕ} : ∀ b ∈ (pending (p.take i)).head?, b < p.length := by
  intro b hb
  have hget := getElem?_of_mem_pending (List.mem_of_mem_head? hb)
  have hlt := (List.getElem?_eq_some_iff.mp hget).1
  rw [List.length_take] at hlt
  omega

/-- Old begins keep their numbers. -/
theorem map_ordinal_append (p q : List Mark) : (pending p).reverse.map (fun b => ordinal (p ++ q) (some b)) =
    (pending p).reverse.map fun b => ordinal p (some b) := by
  refine List.map_congr_left fun b hb => ordinal_append ?_ q
  intro x hx
  obtain rfl : b = x := Option.some.inj hx
  exact (List.getElem?_eq_some_iff.mp (getElem?_of_mem_pending (List.mem_reverse.mp hb))).1

section

variable {u : Usize} {t t' : Tracer} {events : List Event} {e : Event}

theorem marks_concat (events : List Event) (e : Event) : marks (events ++ [e]) = marks events ++ [e.mark] :=
  List.map_append

/-- A callback keeps the open frames those of the open begins. -/
theorem Tracer.Follows.frames_concat (h : t.Follows events) (hstep : t.handle u e = some t') :
    t'.framesSeen = (marks events ++ [e.mark]).count .enter ∧
      t'.frames =
        (pending (marks events ++ [e.mark])).reverse.map (fun b => ordinal (marks events ++ [e.mark]) (some b)) ∧
      t'.depth = (pending (marks events ++ [e.mark])).length := by
  have hframes := handle_frames hstep
  rw [pending_concat]
  cases hm : e.mark with
  | enter =>
    simp only [hm] at hframes
    have hnew : ordinal (marks events ++ [Mark.enter]) (some (marks events).length) = t.framesSeen + 1 := by
      rw [ordinal_succ List.getElem?_concat_length, List.take_left, h.seen]
    refine ⟨by rw [hframes.2.1, h.seen]; simp, ?_, by rw [hframes.2.2, h.depth]; rfl⟩
    rw [hframes.1, h.frames, List.reverse_cons, List.map_append, map_ordinal_append, List.map_singleton, hnew]
  | leave =>
    simp only [hm] at hframes
    refine ⟨by rw [hframes.2.1, h.seen]; simp, ?_, by rw [hframes.2.2, h.depth, List.length_tail]⟩
    rw [hframes.1, h.frames, ← map_ordinal_append (marks events) [Mark.leave], ← List.map_dropLast,
      List.dropLast_reverse]
  | other =>
    simp only [hm] at hframes
    refine ⟨by rw [hframes.2.1, h.seen]; simp, ?_, by rw [hframes.2.2, h.depth]⟩
    rw [hframes.1, h.frames]
    exact (map_ordinal_append (marks events) [Mark.other]).symm

/-- It records a step under the innermost begin open before it. -/
theorem Tracer.Follows.steps_concat (h : t.Follows events) (hstep : t.handle u e = some t') :
    t'.steps.map Step.frame = (stepPositions (events ++ [e])).map fun i =>
      ordinal (marks events ++ [e.mark]) (pending ((marks events ++ [e.mark]).take i)).head? := by
  have hlast : t.frames.getLast?.getD 0 = ordinal (marks events) (pending (marks events)).head? := by
    rw [h.frames, List.getLast?_map, List.getLast?_reverse]
    cases (pending (marks events)).head? <;> rfl
  rw [(handle_steps hstep).2, h.steps, stepPositions_concat, List.map_append, hlast]
  congr 1
  · refine List.map_congr_left fun i hi => ?_
    have hlt : i < (marks events).length := by
      rw [List.length_map]
      exact List.mem_range.mp (List.mem_filter.mp hi).1
    rw [List.take_append_of_le_length hlt.le, ordinal_append lt_of_mem_head?_pending]
  · have htake : (marks events ++ [e.mark]).take events.length = marks events := by
      rw [← List.length_map (f := Event.mark), List.take_left]
    cases e.interpreter? with
    | none => rfl
    | some interp =>
      show [ordinal (marks events) _] = [ordinal (marks events ++ [e.mark])
        (pending ((marks events ++ [e.mark]).take events.length)).head?]
      rw [htake, ordinal_append]
      exact fun b hb => (List.getElem?_eq_some_iff.mp (getElem?_of_mem_pending (List.mem_of_mem_head? hb))).1

/-- **A callback keeps the tracer in step with the events.** -/
theorem Tracer.Follows.concat (h : t.Follows events) (hstep : t.handle u e = some t') : t'.Follows (events ++ [e]) := by
  obtain ⟨hseen, hframes, hdepth⟩ := h.frames_concat hstep
  rw [← marks_concat] at hseen hframes hdepth
  refine ⟨hseen, hframes, hdepth, ?_, ?_⟩
  · rw [(handle_steps hstep).1, h.recorded, List.filterMap_append]
    rfl
  · rw [marks_concat]
    exact h.steps_concat hstep

end

theorem Tracer.follows_run {u : Usize} {t : Tracer} {events : List Event} (h : Tracer.run u events = some t) :
    t.Follows events := by
  induction events using List.reverseRecOn generalizing t with
  | nil =>
    obtain rfl : Tracer.default = t := Option.some.inj h
    exact ⟨rfl, rfl, rfl, rfl, rfl⟩
  | append_singleton events e ih =>
    obtain ⟨t₀, hrun, hstep⟩ := run_concat_eq_some h
    exact (ih hrun).concat hstep

/-- **A run panics when its begins do not fit in a `usize`.** -/
theorem run_eq_none_iff {u : Usize} {events : List Event} (h : WellNested (marks events)) :
    Tracer.run u events = none ↔ u.card ≤ (marks events).count .enter := by
  induction events using List.reverseRecOn with
  | nil =>
    have hpos : ¬ u.card ≤ 0 := by cases u <;> decide
    exact ⟨nofun, fun hle => absurd hle hpos⟩
  | append_singleton events e ih =>
    rw [marks_concat] at h ⊢
    have hn := h.of_append
    rw [run_concat, List.count_append]
    cases hrun : Tracer.run u events with
    | none =>
      have hle := (ih hn).mp hrun
      exact ⟨fun _ => hle.trans (Nat.le_add_right _ _), fun _ => rfl⟩
    | some t =>
      have hfits : ¬ u.card ≤ (marks events).count .enter := fun hle => by
        rw [(ih hn).mpr hle] at hrun
        exact absurd hrun (by simp)
      have hf := Tracer.follows_run hrun
      have hdepth : t.depth ≤ t.framesSeen := by
        have hlen := length_pending hn
        rw [hf.depth, hf.seen]
        omega
      rw [Option.bind_some, handle_eq_none, ← hf.seen]
      rw [← hf.seen] at hfits
      cases e.mark with
      | enter =>
        rw [show [Mark.enter].count Mark.enter = 1 from rfl]
        constructor
        · rintro ⟨-, hfull | hfull⟩ <;> omega
        · exact fun hle => ⟨rfl, .inl hle⟩
      | leave =>
        rw [show [Mark.leave].count Mark.enter = 0 from rfl]
        exact ⟨fun hno => absurd hno.1 (by decide), fun hle => absurd hle hfits⟩
      | other =>
        rw [show [Mark.other].count Mark.enter = 0 from rfl]
        exact ⟨fun hno => absurd hno.1 (by decide), fun hle => absurd hle hfits⟩

/-- Ids in use are those of the frames seen. -/
theorem Tracer.Follows.id_le {t : Tracer} {events : List Event} (h : t.Follows events) :
    (∀ id ∈ t.frames, id ≤ t.framesSeen) ∧ ∀ s ∈ t.steps, s.frame ≤ t.framesSeen := by
  have hord : ∀ b, ordinal (marks events) b ≤ t.framesSeen := by
    intro b
    rw [h.seen]
    cases b with
    | none => exact Nat.zero_le _
    | some b => exact (List.take_sublist _ _).count_le _
  constructor
  · intro id hid
    rw [h.frames] at hid
    obtain ⟨b, -, rfl⟩ := List.mem_map.mp hid
    exact hord _
  · intro s hs
    have hmem : s.frame ∈ t.steps.map Step.frame := List.mem_map.mpr ⟨s, hs, rfl⟩
    rw [h.steps] at hmem
    obtain ⟨i, -, hi⟩ := List.mem_map.mp hmem
    rw [← hi]
    exact hord _

/-! ## What the ids say -/

/-- The frame ids of a run. -/
structure FrameIds (u : Usize) (events : List Event) (t : Tracer) : Prop where
  /-- The depth is the number of open frames. -/
  depth : t.depth + (marks events).count .leave = (marks events).count .enter
  stack : t.frames.length = t.depth
  /-- A begin opens a frame under an id that no earlier state of the run knows. -/
  fresh : ∀ pre e t₀ t₁, pre ++ [e] <+: events → e.mark = .enter → Tracer.run u pre = some t₀ →
    Tracer.run u (pre ++ [e]) = some t₁ → ∃ id, t₁.frames = t₀.frames ++ [id] ∧ id ≠ 0 ∧
      ∀ earlier t', earlier <+: pre → Tracer.run u earlier = some t' →
        id ∉ t'.frames ∧ ∀ s ∈ t'.steps, s.frame ≠ id
  /-- The steps recorded are the instructions executed, in order. -/
  recorded : t.steps.map Step.interpreter = events.filterMap Event.interpreter?
  /-- Steps share an id when the innermost open begin is the same. -/
  same_frame : ∀ (k k' i i' : ℕ) s s', (stepPositions events)[k]? = some i → (stepPositions events)[k']? = some i' →
    t.steps[k]? = some s → t.steps[k']? = some s' →
    (s.frame = s'.frame ↔ ∃ b, OpenedBy ((marks events).take i) b ∧ OpenedBy ((marks events).take i') b)
  /-- The id outside every frame is zero. -/
  outside : ∀ (k i : ℕ) s, (stepPositions events)[k]? = some i → t.steps[k]? = some s →
    (s.frame = 0 ↔ OpenedBy ((marks events).take i) none)

theorem fresh_id {u : Usize} {pre : List Event} {e : Event} {t₀ t₁ : Tracer} (hm : e.mark = .enter)
    (hpre : Tracer.run u pre = some t₀) (hrun : Tracer.run u (pre ++ [e]) = some t₁) :
    ∃ id, t₁.frames = t₀.frames ++ [id] ∧ id ≠ 0 ∧ ∀ earlier t', earlier <+: pre → Tracer.run u earlier = some t' →
      id ∉ t'.frames ∧ ∀ s ∈ t'.steps, s.frame ≠ id := by
  rw [run_concat, hpre, Option.bind_some] at hrun
  have hframes := handle_frames hrun
  simp only [hm] at hframes
  refine ⟨_, hframes.1, Nat.succ_ne_zero _, ?_⟩
  rintro earlier t' ⟨rest, rfl⟩ hearlier
  have hf := Tracer.follows_run hearlier
  have hle : t'.framesSeen ≤ t₀.framesSeen := by
    rw [hf.seen, (Tracer.follows_run hpre).seen]
    exact ((List.sublist_append_left earlier rest).map Event.mark).count_le _
  constructor
  · intro hid
    have h := hf.id_le.1 _ hid
    omega
  · intro s hs heq
    have h := hf.id_le.2 s hs
    omega

/-- **Frame ids identify call frames.** -/
theorem frame_ids (u : Usize) (events : List Event) (h : WellNested (marks events)) :
    (Tracer.run u events = none ↔ u.card ≤ (marks events).count .enter) ∧
      ∀ t, Tracer.run u events = some t → FrameIds u events t := by
  refine ⟨run_eq_none_iff h, fun t hrun => ?_⟩
  have hf := Tracer.follows_run hrun
  have hframe : ∀ (k i : ℕ) (s : Step), (stepPositions events)[k]? = some i → t.steps[k]? = some s →
      s.frame = ordinal (marks events) (pending ((marks events).take i)).head? := by
    intro k i s hi hs
    have hk := congrArg (·[k]?) hf.steps
    simp only [List.getElem?_map, hi, hs, Option.map_some, Option.some.injEq] at hk
    exact hk
  have hwell : ∀ i, WellNested ((marks events).take i) := by
    intro i
    refine WellNested.of_append (q := (marks events).drop i) ?_
    rwa [List.take_append_drop]
  have henter : ∀ i, ∀ b ∈ (pending ((marks events).take i)).head?, (marks events)[b]? = some .enter := by
    intro i b hb
    have hget := getElem?_of_mem_pending (List.mem_of_mem_head? hb)
    rw [List.getElem?_take] at hget
    split at hget
    · exact hget
    · exact absurd hget (by simp)
  refine ⟨?_, ?_, ?_, hf.recorded, ?_, ?_⟩
  · rw [hf.depth]
    exact length_pending h
  · rw [hf.frames, hf.depth, List.length_map, List.length_reverse]
  · exact fun pre e t₀ t₁ _ hm hpre hstep => fresh_id hm hpre hstep
  · intro k k' i i' s s' hi hi' hs hs'
    rw [hframe k i s hi hs, hframe k' i' s' hi' hs']
    constructor
    · intro heq
      have hb := ordinal_inj (henter i) (henter i') heq
      exact ⟨_, (head?_pending_iff (hwell i)).mp rfl, (head?_pending_iff (hwell i')).mp hb.symm⟩
    · rintro ⟨b, hb, hb'⟩
      rw [(head?_pending_iff (hwell i)).mpr hb, (head?_pending_iff (hwell i')).mpr hb']
  · intro k i s hi hs
    rw [hframe k i s hi hs, ← head?_pending_iff (hwell i)]
    constructor
    · exact fun heq => ordinal_inj (henter i) (by simp) heq
    · intro hb
      rw [hb]
      rfl

/-- A call with two calls inside it, a step before, between and after them. -/
theorem frame_ids_siblings :
    (Tracer.run .u64 [.call, .step ⟨0, 0x5a, 9, []⟩, .call, .step ⟨0, 0x5a, 8, []⟩, .callEnd, .call, .callEnd,
        .step ⟨1, 0x00, 7, []⟩, .callEnd] = none ↔ Usize.u64.card ≤ 3) ∧
      ∀ t, Tracer.run .u64 [.call, .step ⟨0, 0x5a, 9, []⟩, .call, .step ⟨0, 0x5a, 8, []⟩, .callEnd, .call, .callEnd,
          .step ⟨1, 0x00, 7, []⟩, .callEnd] = some t →
        FrameIds .u64 [.call, .step ⟨0, 0x5a, 9, []⟩, .call, .step ⟨0, 0x5a, 8, []⟩, .callEnd, .call, .callEnd,
          .step ⟨1, 0x00, 7, []⟩, .callEnd] t :=
  frame_ids .u64 [.call, .step ⟨0, 0x5a, 9, []⟩, .call, .step ⟨0, 0x5a, 8, []⟩, .callEnd, .call, .callEnd,
    .step ⟨1, 0x00, 7, []⟩, .callEnd]
    ⟨[], .nest (.other (.nest (.other .nil) (.nest .nil (.other .nil)))) .nil⟩

end RustEvm.Testkit
