import RustEvm.Asm.Assembler
import RustEvm.Ir.Types

/-!
# RustEvm.Ir.Inst — operations, instructions and terminators

The operations of the IR, the repair each one's raw result needs (`Op.defaultRepair`), and what the words it produces
are: `Op.Produces` relates typed operands to the raw 256-bit result the EVM leaves, before any repair.
-/

namespace RustEvm.Ir

open Isa Codegen Evm Narrow

/-! ## Handles -/

/-- A single definition: an instruction result or a block parameter. -/
structure Value where
  id : UInt32
  deriving DecidableEq, Repr

/-- One instruction in a function's arena. -/
structure Inst where
  id : UInt32
  deriving DecidableEq, Repr

/-- A basic block. -/
structure Block where
  id : UInt32
  deriving DecidableEq, Repr

/-- A function within a module. -/
structure Func where
  id : UInt32
  deriving DecidableEq, Repr

/-- Construct from an arena position, cut to 32 bits. -/
def Value.new (index : ℕ) : Value := ⟨UInt32.ofNat index⟩
def Value.index (v : Value) : ℕ := v.id.toNat

def Inst.new (index : ℕ) : Inst := ⟨UInt32.ofNat index⟩
def Inst.index (i : Inst) : ℕ := i.id.toNat

def Block.new (index : ℕ) : Block := ⟨UInt32.ofNat index⟩
def Block.index (b : Block) : ℕ := b.id.toNat

/-! ## Operations -/

/-- An integer comparison. -/
inductive Cmp
  | eq | ne | lt | le | gt | ge
  deriving DecidableEq, Repr

/-- What an instruction does. -/
inductive Op
  | const (value : Immediate)
  | add | sub | mul | div | rem | addMod | mulMod | exp
  /-- Checked arithmetic: a value and an overflow flag. -/
  | addOverflow | subOverflow | mulOverflow
  | and | or | xor | not
  /-- Operands in reading order: value, shift. -/
  | shl | shr | sar
  /-- Operands: index, value. -/
  | extractByte
  | convert
  | icmp (cmp : Cmp)
  /-- Operands: condition, then, otherwise. -/
  | select
  | alloca (bytes : UInt32)
  | load | store | memCopy
  | sload | sstore | tload | tstore
  /-- A raw EVM opcode inlined here. -/
  | opcode (spec : OpSpec)
  /-- An internal call. -/
  | call (callee : Func)
  deriving DecidableEq

/-- The repair an operation's raw result needs to satisfy the invariant of `ty`.  `convert` falls through: its repair
depends on the source type and comes from `Repair.forConvert`. -/
def Op.defaultRepair (op : Op) (ty : Ty) : Repair :=
  let int := ty.asInt
  let wide := if int.signed then Repair.sextTo int.bits else Repair.maskTo int.bits
  match op with
  | .icmp _ => .none
  | .const _ => .none
  | .select => .none
  | .call _ => .none
  | .alloca _ => .none
  | .and => .none
  | .or => .none
  | .xor => .none
  | .not => if int.signed then .none else wide
  | .div => if !int.signed then .none else wide
  | .rem => if !int.signed then .none else wide
  | .shr => if !int.signed then .none else wide
  | _ => wide

/-- How many results an operation produces.  An internal call has as many as its callee returns, which the operation
does not know. -/
def Op.resultCount : Op → ℕ
  | .addOverflow | .subOverflow | .mulOverflow => 2
  | .store | .sstore | .tstore | .memCopy => 0
  | .opcode spec => spec.stackOut
  | .call _ => 2 ^ 64 - 1
  | _ => 1

/-- One instruction. -/
structure InstData where
  op : Op
  /-- The type of the first result. -/
  ty : Ty
  repair : Repair
  args : List Value
  results : List Value
  note : Option String
  deriving DecidableEq

/-- A branch target and the values it passes to that block's parameters. -/
structure BlockCall where
  block : Block
  args : List Value
  deriving DecidableEq

/-- How a block ends. -/
inductive Terminator
  | jump (target : BlockCall)
  | brif (cond : Value) (thn otherwise : BlockCall)
  | switch (on : Value) (cases : List (Immediate × BlockCall)) (default : BlockCall)
  | ret (values : List Value)
  | stop
  | returnData (ptr len : Value)
  | revert (ptr len : Value)
  | selfDestruct (beneficiary : Value)
  | invalid
  | unreachable
  deriving DecidableEq

/-! ## What an operation produces -/

/-- A word with the type it is recorded under. -/
structure Operand where
  ty : Ty
  word : Word

/-- The word satisfies the invariant of its type. -/
def Operand.WellFormed (a : Operand) : Prop := a.ty.Holds a.word

instance (a : Operand) : Decidable a.WellFormed := inferInstanceAs (Decidable (a.ty.Holds a.word))

/-- The word of a literal. -/
def literal (value : Immediate) : Word := BitVec.ofNat 256 value.value

/-- The word a comparison leaves, from the EVM's `LT`, `GT`, `SLT`, `SGT`, `EQ` and `ISZERO`. -/
def Cmp.word (cmp : Cmp) (signed : Bool) (a b : Word) : Word :=
  let lt := if signed then Word.slt a b else Word.lt a b
  let gt := if signed then Word.sgt a b else Word.gt a b
  match cmp with
  | .eq => Word.eq a b
  | .ne => Word.iszero (Word.eq a b)
  | .lt => lt
  | .le => Word.iszero gt
  | .gt => gt
  | .ge => Word.iszero lt

/-- One operand, and the result is this function of it. -/
def Leaves₁ (args : List Operand) (r : Word) (f : Operand → Word) : Prop := ∃ a, args = [a] ∧ r = f a

/-- Two operands, and the result is this function of them. -/
def Leaves₂ (args : List Operand) (r : Word) (f : Operand → Operand → Word) : Prop :=
  ∃ a b, args = [a, b] ∧ r = f a b

/-- Three operands, and the result is this function of them. -/
def Leaves₃ (args : List Operand) (r : Word) (f : Operand → Operand → Operand → Word) : Prop :=
  ∃ a b c, args = [a, b, c] ∧ r = f a b c

/-- The raw 256-bit words an operation can leave for its first result at type `ty`.  Memory, storage and raw opcodes
can leave any word; what a call and an `alloca` leave is taken to be well-formed.  `select` is branch-free. -/
def Op.Produces (op : Op) (ty : Ty) (args : List Operand) (r : Word) : Prop :=
  match op with
  | .const value => r = literal value
  | .add => Leaves₂ args r fun a b => a.word + b.word
  | .sub => Leaves₂ args r fun a b => a.word - b.word
  | .mul => Leaves₂ args r fun a b => a.word * b.word
  | .div => Leaves₂ args r fun a b => if ty.isSigned then Word.sdiv a.word b.word else Word.div a.word b.word
  | .rem => Leaves₂ args r fun a b => if ty.isSigned then Word.smod a.word b.word else Word.mod a.word b.word
  | .addMod => Leaves₃ args r fun a b m => Word.addmod a.word b.word m.word
  | .mulMod => Leaves₃ args r fun a b m => Word.mulmod a.word b.word m.word
  | .exp => Leaves₂ args r fun a b => Word.exp a.word b.word
  | .addOverflow => Leaves₂ args r fun a b => a.word + b.word
  | .subOverflow => Leaves₂ args r fun a b => a.word - b.word
  | .mulOverflow => Leaves₂ args r fun a b => a.word * b.word
  | .and => Leaves₂ args r fun a b => a.word &&& b.word
  | .or => Leaves₂ args r fun a b => a.word ||| b.word
  | .xor => Leaves₂ args r fun a b => a.word ^^^ b.word
  | .not => Leaves₁ args r fun a => ~~~ a.word
  | .shl => Leaves₂ args r fun a s => Word.shl s.word a.word
  | .shr => Leaves₂ args r fun a s => Word.shr s.word a.word
  | .sar => Leaves₂ args r fun a s => Word.sar s.word a.word
  | .extractByte => Leaves₂ args r fun i a => Word.byte i.word a.word
  | .convert => Leaves₁ args r fun a => a.word
  | .icmp cmp => Leaves₂ args r fun a b => cmp.word a.ty.isSigned a.word b.word
  | .select => Leaves₃ args r fun c t e => (t.word &&& (0 - c.word)) ||| (e.word &&& ~~~ (0 - c.word))
  | .load => True
  | .sload => True
  | .tload => True
  | .opcode _ => True
  | .alloca _ => ty.Holds r
  | .call _ => ty.Holds r
  | .store => False
  | .memCopy => False
  | .sstore => False
  | .tstore => False

/-- The operand types an operation expects for a first result of type `ty`, and for a literal that it fits. -/
def Op.Expects (op : Op) (ty : Ty) (args : List Ty) : Prop :=
  match op, args with
  | .const value, _ => ty.Holds (literal value)
  | .add, [a, b] | .sub, [a, b] | .mul, [a, b] | .div, [a, b] | .rem, [a, b] | .exp, [a, b]
  | .addOverflow, [a, b] | .subOverflow, [a, b] | .mulOverflow, [a, b]
  | .and, [a, b] | .or, [a, b] | .xor, [a, b] => a = ty ∧ b = ty
  | .addMod, [a, b, m] | .mulMod, [a, b, m] => a = ty ∧ b = ty ∧ m = ty
  | .not, [a] => a = ty
  | .shl, [a, _] | .shr, [a, _] | .sar, [a, _] => a = ty
  | .extractByte, [_, a] => a = ty
  | .icmp _, [a, b] => a = b ∧ ty = .BOOL
  | .select, [c, t, e] => c = .BOOL ∧ t = ty ∧ e = ty
  | _, _ => True

/-- The exact integer result of an operation, for those that have one: its operands' values at type `ty`, shift
amounts read as whole words. -/
def Op.exact (op : Op) (ty : Ty) (args : List Operand) : Option ℤ :=
  match op, args with
  | .add, [a, b] | .addOverflow, [a, b] => some (ty.value a.word + ty.value b.word)
  | .sub, [a, b] | .subOverflow, [a, b] => some (ty.value a.word - ty.value b.word)
  | .mul, [a, b] | .mulOverflow, [a, b] => some (ty.value a.word * ty.value b.word)
  | .and, [a, b] => some (Int.land (ty.value a.word) (ty.value b.word))
  | .or, [a, b] => some (Int.lor (ty.value a.word) (ty.value b.word))
  | .xor, [a, b] => some (Int.xor (ty.value a.word) (ty.value b.word))
  | .not, [a] => some (Int.lnot (ty.value a.word))
  | .shl, [a, s] => some (ty.value a.word * 2 ^ s.word.toNat)
  | .div, [a, b] => some (if ty.value b.word = 0 then 0 else Int.tdiv (ty.value a.word) (ty.value b.word))
  | .rem, [a, b] => some (if ty.value b.word = 0 then 0 else Int.tmod (ty.value a.word) (ty.value b.word))
  | .shr, [a, s] => if ty.isSigned then none else some (ty.value a.word / 2 ^ s.word.toNat)
  | .sar, [a, s] => if ty.isSigned then some (ty.value a.word / 2 ^ s.word.toNat) else none
  | _, _ => none

end RustEvm.Ir
