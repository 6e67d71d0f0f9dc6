import RustEvm.Isa.Table
import RustEvm.Abi.Codec
import RustEvm.Lib.Lookahead
import RustEvm.Lib.Panic

/-!
# RustEvm.Testkit.Trace — the recorder of a trace, and how it finishes one

`Tracer` records the instructions of a transaction as they run; `Tracer.handle` is what each callback of the inspector
does to it.  `Tracer.finish` charges the instructions that open a frame and rebases the depths: the reverse pass of
`chargeFrameOpeners` looks up the first later step of the frame (`Tracer.finish_spec`).

Additions and subtractions of the machine integers panic outside their type; `none` is a panic.
-/

namespace RustEvm.Testkit

open Isa Panic Lookahead Abi

/-- One executed instruction. -/
structure Step where
  /-- Call depth. -/
  depth : ℕ
  /-- Which frame this ran in. -/
  frame : ℕ
  pc : ℕ
  opcode : UInt8
  mnemonic : String
  /-- Gas left before the instruction ran. -/
  gasRemaining : ℕ
  /-- Gas the instruction charged. -/
  gasCost : ℕ
  /-- Stack before the instruction ran, deepest item first. -/
  stack : List (BitVec 256)
  deriving DecidableEq

/-- Every instruction one transaction executed, in order. -/
structure Trace where
  steps : List Step
  deriving DecidableEq

/-- The inspector that records a trace. -/
structure Tracer where
  steps : List Step
  depth : ℕ
  /-- Ids of the frames currently open, outermost first. -/
  frames : List ℕ
  framesSeen : ℕ
  deriving DecidableEq

/-- What a callback reads from the interpreter. -/
structure Interpreter where
  pc : ℕ
  opcode : UInt8
  gasRemaining : ℕ
  stack : List (BitVec 256)
  deriving DecidableEq

/-- One callback of the inspector. -/
inductive Event
  | step (interp : Interpreter)
  | stepEnd (remaining : ℕ)
  | call
  | callEnd
  | create
  | createEnd
  deriving DecidableEq

namespace Tracer

/-- `Tracer::default` -/
def default : Tracer := ⟨[], 0, [], 0⟩

section Recording

variable (u : Usize)

def enterFrame (t : Tracer) : Option Tracer := do
  let framesSeen ← addWithin u.card t.framesSeen 1
  let depth ← addWithin u.card t.depth 1
  return { t with framesSeen, frames := t.frames ++ [framesSeen], depth }

def leaveFrame (t : Tracer) : Tracer := { t with frames := t.frames.dropLast, depth := t.depth - 1 }

/-- The callback before an instruction. -/
def step (t : Tracer) (interp : Interpreter) : Tracer :=
  let step : Step :=
    { depth := t.depth
      frame := t.frames.getLast?.getD 0
      pc := interp.pc
      opcode := interp.opcode
      mnemonic := (byByte interp.opcode).elim "INVALID" OpSpec.mnemonic
      gasRemaining := interp.gasRemaining
      gasCost := 0
      stack := interp.stack }
  { t with steps := t.steps ++ [step] }

/-- The callback after an instruction, with the gas left then. -/
def stepEnd (t : Tracer) (remaining : ℕ) : Tracer :=
  match t.steps.getLast? with
  | none => t
  | some step => { t with steps := t.steps.dropLast ++ [{ step with gasCost := step.gasRemaining - remaining }] }

/-- A callback of the inspector. -/
def handle (t : Tracer) : Event → Option Tracer
  | .step interp => some (t.step interp)
  | .stepEnd remaining => some (t.stepEnd remaining)
  | .call => t.enterFrame u
  | .callEnd => some t.leaveFrame
  | .create => t.enterFrame u
  | .createEnd => some t.leaveFrame

/-- The callbacks of a transaction, one after the other. -/
def run (events : List Event) : Option Tracer := events.foldlM (handle u) default

end Recording

/-! ## Finishing -/

/-- One turn of the reverse loop of `charge_frame_openers`, with the gas at the next step of each frame. -/
def chargeTurn (step : Step) : List Step × (ℕ → Option ℕ) → List Step × (ℕ → Option ℕ)
  | (steps, nextInFrame) =>
    let opensFrame := (byByte step.opcode).any fun spec => spec.category == .call
    let charged :=
      match opensFrame, nextInFrame step.frame with
      | true, some resumedAt => { step with gasCost := step.gasRemaining - resumedAt }
      | _, _ => step
    (charged :: steps, Function.update nextInFrame step.frame (some step.gasRemaining))

/-- Re-derive the cost of every instruction that opens a child frame. -/
def chargeFrameOpeners (t : Tracer) : Tracer :=
  { t with steps := (t.steps.foldr chargeTurn ([], fun _ => none)).1 }

/-- Charge the frame openers, then rebase the depths on the shallowest. -/
def finish (t : Tracer) : Option Trace := do
  let t := t.chargeFrameOpeners
  let base := (t.steps.map Step.depth).min?.getD 0
  let steps ← t.steps.mapM fun s => (minus s.depth base).map fun depth => { s with depth }
  return ⟨steps⟩

end Tracer

/-! ## What finishing does to a step -/

/-- The opcode is one of the table's `Call` category. -/
def Step.OpensFrame (s : Step) : Prop := ∃ spec, byByte s.opcode = some spec ∧ spec.category = .call

/-- The first step after number `i` in the frame. -/
def nextInFrame (steps : List Step) (i frame : ℕ) : Option Step :=
  (steps.drop (i + 1)).find? fun r => r.frame = frame

/-- Step number `i` and what becomes of it. -/
structure FinishedStep (steps : List Step) (i : ℕ) (s s' : Step) : Prop where
  charged : s.OpensFrame → ∀ r, nextInFrame steps i s.frame = some r → s'.gasCost = s.gasRemaining - r.gasRemaining
  kept : ¬ (s.OpensFrame ∧ ∃ r ∈ steps.drop (i + 1), r.frame = s.frame) → s'.gasCost = s.gasCost
  depth : ∃ base, IsLeast { d | ∃ r ∈ steps, r.depth = d } base ∧ s'.depth + base = s.depth
  others : s' = { s with depth := s'.depth, gasCost := s'.gasCost }

namespace Tracer

/-- What the pass makes of a step and the gas where its frame goes on. -/
def charge (step : Step) (resumedAt : Option ℕ) : Step :=
  match (byByte step.opcode).any (fun spec => spec.category == .call), resumedAt with
  | true, some gas => { step with gasCost := step.gasRemaining - gas }
  | _, _ => step

theorem chargeFrameOpeners_eq (t : Tracer) :
    t.chargeFrameOpeners.steps = (pass Step.frame Step.gasRemaining charge t.steps).1 := rfl

@[simp] theorem charge_depth (s : Step) (g : Option ℕ) : (charge s g).depth = s.depth := by
  unfold charge
  split <;> rfl

theorem charge_others (s : Step) (g : Option ℕ) : charge s g = { s with gasCost := (charge s g).gasCost } := by
  unfold charge
  split <;> rfl

theorem opensFrame_iff (s : Step) :
    (byByte s.opcode).any (fun spec => spec.category == .call) = true ↔ s.OpensFrame := by
  rw [Option.any_eq_true]
  exact exists_congr fun spec => and_congr_right fun _ => beq_iff_eq

theorem charge_gasCost {s : Step} (h : s.OpensFrame) (gas : ℕ) :
    (charge s (some gas)).gasCost = s.gasRemaining - gas := by
  unfold charge
  rw [(opensFrame_iff s).mpr h]

theorem charge_eq_self {s : Step} {g : Option ℕ} (h : ¬ (s.OpensFrame ∧ g.isSome)) : charge s g = s := by
  unfold charge
  split
  · next hopens => exact absurd ⟨(opensFrame_iff s).mp hopens, rfl⟩ h
  · rfl

/-- Charging leaves every step in its place. -/
theorem getElem?_charged (t : Tracer) (i : ℕ) :
    t.chargeFrameOpeners.steps[i]? =
      t.steps[i]?.map fun s => charge s ((nextInFrame t.steps i s.frame).map Step.gasRemaining) := by
  rw [chargeFrameOpeners_eq, getElem?_pass]
  rfl

theorem map_depth_charged (t : Tracer) : t.chargeFrameOpeners.steps.map Step.depth = t.steps.map Step.depth := by
  apply List.ext_getElem?
  intro i
  rw [List.getElem?_map, List.getElem?_map, getElem?_charged, Option.map_map]
  exact congrFun (congrArg Option.map (funext fun s => charge_depth s _)) _

/-- The shallowest depth of the steps. -/
def base (t : Tracer) : ℕ := (t.steps.map Step.depth).min?.getD 0

theorem isLeast_base {t : Tracer} (h : t.steps ≠ []) : IsLeast { d | ∃ r ∈ t.steps, r.depth = d } t.base := by
  obtain ⟨d, hd⟩ := Option.isSome_iff_exists.mp (List.isSome_min?_of_ne_nil (l := t.steps.map Step.depth)
    (mt List.map_eq_nil_iff.mp h))
  have hbase : t.base = d := by rw [base, hd, Option.getD_some]
  rw [List.min?_eq_some_iff] at hd
  rw [hbase]
  exact ⟨List.mem_map.mp hd.1, fun _ hmem => hd.2 _ (List.mem_map.mpr hmem)⟩

/-- Rebasing never goes below zero. -/
theorem finish_eq (t : Tracer) :
    t.finish = some ⟨t.chargeFrameOpeners.steps.map fun s => { s with depth := s.depth - t.base }⟩ := by
  have hbase : (t.chargeFrameOpeners.steps.map Step.depth).min?.getD 0 = t.base := by
    rw [map_depth_charged]
    rfl
  unfold finish
  simp only [hbase]
  rw [mapM_eq_some (g := fun s => { s with depth := s.depth - t.base })]
  · rfl
  · intro s hs
    have hmem : s.depth ∈ t.steps.map Step.depth := by
      rw [← map_depth_charged]
      exact List.mem_map.mpr ⟨s, hs, rfl⟩
    have hle : t.base ≤ s.depth := List.min?_getD_le_of_mem hmem
    rw [minus_eq_some hle]
    rfl

/-- **Finishing a trace** keeps the steps in order, charges the instructions that open a frame up to the next step of
their own frame, takes the least depth off, and changes nothing else. -/
theorem finish_spec (t : Tracer) :
    ∃ trace, t.finish = some trace ∧ trace.steps.length = t.steps.length ∧
      ∀ i s s', t.steps[i]? = some s → trace.steps[i]? = some s' → FinishedStep t.steps i s s' := by
  refine ⟨_, finish_eq t, ?_, ?_⟩
  · rw [List.length_map, chargeFrameOpeners_eq, length_pass]
  · intro i s s' hs hs'
    rw [List.getElem?_map, getElem?_charged, hs, Option.map_some, Option.map_some, Option.some.injEq] at hs'
    have hmem : s ∈ t.steps := List.mem_of_getElem? hs
    have hleast := isLeast_base (List.ne_nil_of_mem hmem)
    subst hs'
    refine ⟨?_, ?_, ⟨t.base, hleast, ?_⟩, ?_⟩
    · intro hopens r hr
      rw [hr]
      exact charge_gasCost hopens _
    · intro hnone
      show (charge s _).gasCost = s.gasCost
      rw [charge_eq_self]
      rintro ⟨hopens, hsome⟩
      rw [Option.isSome_map, nextInFrame, List.find?_isSome] at hsome
      obtain ⟨r, hr, hframe⟩ := hsome
      exact hnone ⟨hopens, r, hr, of_decide_eq_true hframe⟩
    · show (charge s _).depth - t.base + t.base = s.depth
      rw [charge_depth]
      exact Nat.sub_add_cancel (hleast.2 ⟨s, hmem, rfl⟩)
    · have hc := charge_others s ((nextInFrame t.steps i s.frame).map Step.gasRemaining)
      generalize charge s _ = c at hc ⊢
      rw [hc]

end Tracer

end RustEvm.Testkit
