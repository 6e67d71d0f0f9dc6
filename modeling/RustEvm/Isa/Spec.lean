import Mathlib.Tactic

/-!
# RustEvm.Isa.Spec — the vocabulary of the instruction set

Hardforks in chronological order, the role and the description of one opcode, and the structural family recovered
from an opcode's byte.  Only what the assembler, the disassembler and the IR read is here: the gas class of an
opcode is read by none of them.
-/

namespace RustEvm.Isa

/-- Ethereum hardforks, in chronological order. -/
inductive Fork
  | frontier | homestead | byzantium | constantinople | istanbul | berlin | london | shanghai | cancun | prague
  deriving DecidableEq, Repr

namespace Fork

/-- Position in the declaration order, which is what the derived order compares. -/
def rank : Fork → ℕ
  | frontier => 0
  | homestead => 1
  | byzantium => 2
  | constantinople => 3
  | istanbul => 4
  | berlin => 5
  | london => 6
  | shanghai => 7
  | cancun => 8
  | prague => 9

instance : LE Fork := ⟨fun a b => a.rank ≤ b.rank⟩
instance : LT Fork := ⟨fun a b => a.rank < b.rank⟩
instance (a b : Fork) : Decidable (a ≤ b) := inferInstanceAs (Decidable (a.rank ≤ b.rank))
instance (a b : Fork) : Decidable (a < b) := inferInstanceAs (Decidable (a.rank < b.rank))

theorem not_lt {a b : Fork} : ¬ a < b ↔ b ≤ a := Nat.not_lt

theorem frontier_le (a : Fork) : frontier ≤ a := Nat.zero_le _

end Fork

/-- Coarse classification of an opcode's role. -/
inductive OpCategory
  | arithmetic | comparison | bitwise | storage | memory | context | block | control | stackManip | call | log
  | terminating
  deriving DecidableEq, Repr

/-- A description of one EVM opcode. -/
structure OpSpec where
  mnemonic : String
  byte : UInt8
  stackIn : ℕ
  stackOut : ℕ
  terminating : Bool
  category : OpCategory
  minFork : Fork
  deriving DecidableEq, Repr

/-- The structural family of an opcode. -/
inductive OpForm
  | simple
  /-- Immediate width in bytes. -/
  | push (n : UInt8)
  /-- Stack depth. -/
  | dup (n : UInt8)
  /-- Stack depth. -/
  | swap (n : UInt8)
  deriving DecidableEq, Repr

/-- The family of an opcode, from its byte value. -/
def opForm (spec : OpSpec) : OpForm :=
  if spec.byte = 0x5f then .push 0
  else if 0x60 ≤ spec.byte ∧ spec.byte ≤ 0x7f then .push (spec.byte - 0x5f)
  else if 0x80 ≤ spec.byte ∧ spec.byte ≤ 0x8f then .dup (spec.byte - 0x7f)
  else if 0x90 ≤ spec.byte ∧ spec.byte ≤ 0x9f then .swap (spec.byte - 0x8f)
  else .simple

end RustEvm.Isa
