import RustEvm.Isa.Table
import RustEvm.Lib.BigEndian
import RustEvm.Lib.Backpatch

/-!
# RustEvm.Asm.Assembler — the assembler, as the code computes it

`Asm` is the assembler's state and every method is a function on it; `Call` is one call of the emitting interface and
`run` executes a sequence of calls on a fresh assembler.  Errors are sticky: the first one is recorded, later emits
are no-ops, and `finish` returns it.

A label is its number.  A call sequence may use any label value, whichever assembler created it; the counter that
`label` draws numbers from wraps, so two labels are told apart as long as fewer than `2 ^ 32` were created.
-/

namespace RustEvm.Codegen

open Isa BigEndian Backpatch

/-- Every label reference is a `PUSH2`: the highest byte offset a jump can name. -/
def MAX_LABEL_OFFSET : ℕ := 65535

/-- A jump target. -/
structure Label where
  id : UInt32
  deriving DecidableEq, Repr

/-- A label reference awaiting its patch: `pos` (`at` in the source) is the offset of the two immediate bytes. -/
structure Fixup where
  label : Label
  pos : ℕ
  deriving DecidableEq, Repr

/-- A 32-byte big-endian immediate. -/
structure Immediate where
  be : FixedBytes 32
  deriving DecidableEq

namespace Immediate

/-- Significant bytes. -/
def width (imm : Immediate) : ℕ :=
  match imm.be.1.findIdx? (fun b => b != 0) with
  | some first => 32 - first
  | none => 0

/-- The number the bytes denote. -/
def value (imm : Immediate) : ℕ := imm.be.toNat

end Immediate

inductive AsmError
  | unknownMnemonic (mnemonic : String)
  | opcodeTooNew (mnemonic : String) (minFork target : Fork)
  | useHelperInstead (mnemonic helper : String)
  | badStackDepth (helper : String) (n : UInt8)
  | unboundLabel (label : Label)
  | labelAlreadyBound (label : Label)
  | codeTooLargeToAddress (len : ℕ)
  deriving DecidableEq, Repr

/-- The assembler for one target fork.  `labels` is the map from bound labels to their offsets. -/
structure Asm where
  fork : Fork
  code : List UInt8
  labels : List (Label × ℕ)
  fixups : List Fixup
  nextLabel : UInt32
  error : Option AsmError
  deriving DecidableEq

namespace Asm

def new (fork : Fork) : Asm :=
  { fork, code := [], labels := [], fixups := [], nextLabel := 0, error := none }

/-- Current byte offset: where the next emitted opcode will sit. -/
def offset (a : Asm) : ℕ := a.code.length

/-- Record the first error; a later one is dropped. -/
def fail (a : Asm) (e : AsmError) : Asm := { a with error := some (a.error.getD e) }

/-- Emit one opcode byte after checking that it exists on the target fork. -/
def emitByte (a : Asm) (byte : UInt8) (mnemonic : String) (minFork : Fork) : Asm :=
  if a.fork < minFork then a.fail (.opcodeTooNew mnemonic minFork a.fork)
  else { a with code := a.code ++ [byte] }

/-- Emit a `DUP`/`SWAP` byte under the name and fork of its table row.  The source `expect`s the row, which exists
for every byte of the two families (`byByte_dup`, `byByte_swap`). -/
def emitFamilyByte (a : Asm) (byte : UInt8) : Asm :=
  match byByte byte with
  | some spec => a.emitByte spec.byte spec.mnemonic spec.minFork
  | none => a

/-- Emit `PUSH{n}` plus `bytes` as its immediate.  The row `expect`ed exists for 1 to 32 bytes (`byByte_push`). -/
def pushBytes (a : Asm) (bytes : List UInt8) : Asm :=
  match byByte (0x5f + UInt8.ofNat bytes.length) with
  | some spec =>
    let a := a.emitByte spec.byte spec.mnemonic spec.minFork
    if a.error.isNone then { a with code := a.code ++ bytes } else a
  | none => a

/-- Emit an operand-free opcode by mnemonic. -/
def op (a : Asm) (mnemonic : String) : Asm :=
  if a.error.isSome then a else
  match byMnemonic mnemonic with
  | none => a.fail (.unknownMnemonic mnemonic)
  | some spec =>
    let helper : Option String :=
      match opForm spec with
      | .simple => none
      | .push _ => some "push"
      | .dup _ => some "dup"
      | .swap _ => some "swap"
    match helper with
    | some helper => a.fail (.useHelperInstead spec.mnemonic helper)
    | none => a.emitByte spec.byte spec.mnemonic spec.minFork

/-- Push a constant on the narrowest `PUSH` that holds it. -/
def push (a : Asm) (imm : Immediate) : Asm :=
  if a.error.isSome then a else
  let width := imm.width
  if width = 0 ∧ a.fork < .shanghai then a.pushBytes [0]
  else if width = 0 then a.emitByte 0x5f "PUSH0" .shanghai
  else a.pushBytes (imm.be.1.drop (32 - width))

def dup (a : Asm) (n : UInt8) : Asm :=
  if a.error.isSome then a
  else if ¬ (1 ≤ n ∧ n ≤ 16) then a.fail (.badStackDepth "dup" n)
  else a.emitFamilyByte (0x7f + n)

def swap (a : Asm) (n : UInt8) : Asm :=
  if a.error.isSome then a
  else if ¬ (1 ≤ n ∧ n ≤ 16) then a.fail (.badStackDepth "swap" n)
  else a.emitFamilyByte (0x8f + n)

/-- Reserve a jump target.  Emits nothing. -/
def label (a : Asm) : Label × Asm := (⟨a.nextLabel⟩, { a with nextLabel := a.nextLabel + 1 })

/-- Place a label here, emitting the `JUMPDEST` it names. -/
def bind (a : Asm) (label : Label) : Asm :=
  if a.error.isSome then a
  else if (a.labels.lookup label).isSome then a.fail (.labelAlreadyBound label)
  else { a with labels := a.labels ++ [(label, a.code.length)] }.emitByte 0x5b "JUMPDEST" .frontier

/-- Push a label's address, always on a `PUSH2`. -/
def pushLabel (a : Asm) (label : Label) : Asm :=
  if a.error.isSome then a
  else { a with
    code := a.code ++ [0x61] ++ [0, 0]
    fixups := a.fixups ++ [⟨label, (a.code ++ [0x61]).length⟩] }

/-- The patching loop of `finish`: `(target as u16).to_be_bytes()` over the two placeholder bytes. -/
def patchFixups (labels : List (Label × ℕ)) : List UInt8 → List Fixup → Except AsmError (List UInt8)
  | code, [] => .ok code
  | code, fixup :: fixups =>
    match labels.lookup fixup.label with
    | none => .error (.unboundLabel fixup.label)
    | some target => patchFixups labels (patch code fixup.pos (toBytes 2 target)) fixups

/-- Resolve label references and return the bytecode. -/
def finish (a : Asm) : Except AsmError (List UInt8) :=
  match a.error with
  | some e => .error e
  | none =>
    if MAX_LABEL_OFFSET < a.code.length ∧ a.fixups ≠ [] then .error (.codeTooLargeToAddress a.code.length)
    else patchFixups a.labels a.code a.fixups

end Asm

/-! ## Call sequences -/

/-- One call of the emitting interface. -/
inductive Call
  | op (mnemonic : String)
  | push (value : Immediate)
  | dup (n : UInt8)
  | swap (n : UInt8)
  | label
  | bind (label : Label)
  | pushLabel (label : Label)
  deriving DecidableEq

/-- The state after a call. -/
def Asm.step (a : Asm) : Call → Asm
  | .op mnemonic => a.op mnemonic
  | .push value => a.push value
  | .dup n => a.dup n
  | .swap n => a.swap n
  | .label => a.label.2
  | .bind label => a.bind label
  | .pushLabel label => a.pushLabel label

/-- The state after a sequence of calls on a fresh assembler. -/
def run (fork : Fork) (calls : List Call) : Asm := calls.foldl Asm.step (Asm.new fork)

@[simp] theorem run_nil (fork : Fork) : run fork [] = Asm.new fork := rfl

theorem run_concat (fork : Fork) (calls : List Call) (c : Call) :
    run fork (calls ++ [c]) = (run fork calls).step c := by
  simp [run]

end RustEvm.Codegen
