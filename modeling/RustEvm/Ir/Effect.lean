import RustEvm.Isa.Table
import RustEvm.Ir.Builder

/-!
# RustEvm.Ir.Effect — what an operation can observe or disturb

The set of effects as a bit set, and the effects of a raw opcode, from its byte where the byte is more honest than the
category and from the category otherwise.
-/

namespace RustEvm.Ir

open Isa InsBuilder

/-- A set of effects. -/
structure Effects where
  bits : UInt16
  deriving DecidableEq, Repr

namespace Effects

/-- Depends on nothing but its operands, and disturbs nothing. -/
def PURE : Effects := ⟨0⟩

def READS_MEMORY : Effects := ⟨(1 : UInt16) <<< 0⟩
def WRITES_MEMORY : Effects := ⟨(1 : UInt16) <<< 1⟩
def READS_STORAGE : Effects := ⟨(1 : UInt16) <<< 2⟩
def WRITES_STORAGE : Effects := ⟨(1 : UInt16) <<< 3⟩
def READS_TRANSIENT : Effects := ⟨(1 : UInt16) <<< 4⟩
def WRITES_TRANSIENT : Effects := ⟨(1 : UInt16) <<< 5⟩

/-- Reads the execution environment. -/
def READS_CONTEXT : Effects := ⟨(1 : UInt16) <<< 6⟩

/-- Emits a log. -/
def LOGS : Effects := ⟨(1 : UInt16) <<< 7⟩

/-- Hands control to code nothing is known about. -/
def EXTERNAL : Effects := ⟨(1 : UInt16) <<< 8⟩

/-- Every effect: the conservative answer. -/
def ALL : Effects := ⟨0x01ff⟩

def union (self other : Effects) : Effects := ⟨self.bits ||| other.bits⟩

/-- Whether `self` has every effect in `other`. -/
def contains (self other : Effects) : Bool := self.bits &&& other.bits == other.bits

/-- Whether any effect in `other` is present. -/
def intersects (self other : Effects) : Bool := self.bits &&& other.bits != 0

def isPure (self : Effects) : Bool := self.bits == 0

/-- Whether removing this is allowed once its results are unused. -/
def isRemovable (self : Effects) : Bool := self.isPure

/-- The effects of a raw opcode. -/
def ofOpcode (spec : OpSpec) : Effects :=
  match spec.byte.toNat with
  -- memory, where the byte is more honest than the category
  | 0x20 => READS_MEMORY
  | 0x51 => READS_MEMORY
  | 0x52 | 0x53 => WRITES_MEMORY
  | 0x59 => READS_MEMORY
  | 0x5e => READS_MEMORY.union WRITES_MEMORY
  | 0x37 | 0x39 | 0x3c | 0x3e => READS_CONTEXT.union WRITES_MEMORY
  -- storage: one category, four different effects
  | 0x54 => READS_STORAGE
  | 0x55 => WRITES_STORAGE
  | 0x5c => READS_TRANSIENT
  | 0x5d => WRITES_TRANSIENT
  | _ =>
    match spec.category with
    | .arithmetic | .comparison | .bitwise => PURE
    | .stackManip => PURE
    | .context | .block => READS_CONTEXT
    | .memory => READS_MEMORY.union WRITES_MEMORY
    | .storage => READS_STORAGE.union WRITES_STORAGE
    | .log => LOGS.union READS_MEMORY
    | .call => (EXTERNAL.union READS_MEMORY).union WRITES_MEMORY
    | .control | .terminating => ALL

end Effects

/-- The raw-opcode path takes an opcode. -/
def RawAccepted (spec : OpSpec) : Prop := (∃ mnemonic, byMnemonic mnemonic = some spec) ∧ reserved spec = none

/-- What the raw-opcode path hands back results for, it accepts. -/
theorem rawAccepted_of_rawOpcode {b b' : FunctionBuilder} {mnemonic : String} {ty : Ty} {args values : List Value}
    {n : ℕ} (h : rawOpcode b mnemonic ty args n = some (b', some values)) :
    ∃ spec, RawAccepted spec ∧ b.emit (.opcode spec) ty .none args (List.replicate n ty) = some (b', values) := by
  unfold rawOpcode at h
  split at h
  · exact absurd h (by simp)
  · next spec hspec =>
    split at h
    · exact absurd h (by simp)
    · next hfree =>
      obtain ⟨⟨b₁, values₁⟩, he, heq⟩ := Option.map_eq_some_iff.mp h
      obtain ⟨rfl, rfl⟩ : b₁ = b' ∧ values₁ = values := by simpa using heq
      exact ⟨spec, ⟨⟨mnemonic, hspec⟩, hfree⟩, he⟩

end RustEvm.Ir
