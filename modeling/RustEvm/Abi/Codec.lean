import RustEvm.Abi.Word

/-!
# RustEvm.Abi.Codec — head/tail encoding and decoding, as the code computes them

The width of `usize` is a parameter: encoding wraps its additions at it, decoding checks them.  The types the codec
implements are the codes of `AbiTy`, their values `AbiTy.Val`; `toComponent` and `decode` are the two traits, one arm
per implementation.
-/

namespace RustEvm.Abi

open BigEndian

/-- The width of `usize` on the machine the code runs on. -/
inductive Usize
  | u32 | u64
  deriving DecidableEq, Repr

/-- `size_of::<usize>()`. -/
def Usize.bytes : Usize → ℕ
  | u32 => 4
  | u64 => 8

theorem Usize.bytes_le (u : Usize) : u.bytes ≤ 8 := by cases u <;> decide

/-- One more than `usize::MAX`. -/
def Usize.card (u : Usize) : ℕ := 256 ^ u.bytes

/-- A single tuple element. -/
inductive Component
  /-- Its bytes go inline in the head. -/
  | static (bytes : List UInt8)
  /-- An offset goes in the head, these bytes in the tail. -/
  | dynamic (bytes : List UInt8)
  deriving DecidableEq

inductive DecodeError
  | truncated
  | overflow
  | invalidUtf8
  deriving DecidableEq, Repr

/-! ## Words -/

/-- Left-padded with zeros. -/
def wordFromU128 (v : BitVec 128) : Word := ⟨List.replicate 16 0 ++ toBytes 16 v.toNat, by simp⟩

/-- Sign-extended into the high bytes. -/
def wordFromI128 (v : BitVec 128) : Word :=
  ⟨(if v.toInt < 0 then List.replicate 16 0xff else List.replicate 16 0) ++ toBytes 16 v.toNat, by split <;> simp⟩

def wordFromUsize (v : ℕ) : Word := wordFromU128 (BitVec.ofNat 128 v)

/-! ## Values -/

/-- The widths of the machine integers. -/
inductive IntWidth
  | w8 | w16 | w32 | w64 | w128
  deriving DecidableEq, Repr

/-- `size_of` an integer of the width. -/
def IntWidth.bytes : IntWidth → ℕ
  | w8 => 1
  | w16 => 2
  | w32 => 4
  | w64 => 8
  | w128 => 16

theorem IntWidth.bytes_le (n : IntWidth) : n.bytes ≤ 16 := by cases n <;> decide

/-- The types with both codec traits. -/
inductive AbiTy
  | uint (n : IntWidth)
  | int (n : IntWidth)
  | bool
  /-- `[u8; 32]` -/
  | bytes32
  | u256
  | address
  /-- `Vec<u8>` -/
  | bytes
  | string
  deriving DecidableEq, Repr

/-- The values of a type. -/
abbrev AbiTy.Val : AbiTy → Type
  | uint n => BitVec (8 * n.bytes)
  | int n => BitVec (8 * n.bytes)
  | bool => Bool
  | bytes32 => FixedBytes 32
  | u256 => U256
  | address => Address
  | bytes => List UInt8
  | string => String

/-- Length-prefixed bytes, padded on the right to the next 32-byte boundary. -/
def encodeBytes (data : List UInt8) : List UInt8 :=
  let out := (wordFromUsize data.length).1 ++ data
  let rem := data.length % 32
  if rem ≠ 0 then out ++ List.replicate (32 - rem) 0 else out

/-- `AbiEncode::to_component`. -/
def AbiTy.toComponent : (t : AbiTy) → t.Val → Component
  | uint _, v => .static (wordFromU128 (v.setWidth 128)).1
  | int _, v => .static (wordFromI128 (v.signExtend 128)).1
  | bool, b => .static (wordFromU128 (if b then 1 else 0)).1
  | bytes32, w => .static w.1
  | u256, w => .static w.1
  | address, a => .static (List.replicate 12 0 ++ a.1)
  | bytes, data => .dynamic (encodeBytes data)
  | string, s => .dynamic (encodeBytes s.toUTF8.data.toList)

/-- A value with its type. -/
abbrev Arg := (t : AbiTy) × t.Val

def Arg.toComponent (a : Arg) : Component := a.1.toComponent a.2

section Codec

variable (u : Usize)

/-! ## Encoding -/

/-- Addition as `encode_tuple` has it. -/
def Usize.add (a b : ℕ) : ℕ := (a + b) % u.card

/-- What an element contributes to the size of the head. -/
def Component.headLength : Component → ℕ
  | static b => b.length
  | dynamic _ => 32

/-- One turn of the loop over the components: static bytes go into the head, dynamic ones into the tail. -/
def encodeStep (headSize : ℕ) : List UInt8 × List UInt8 → Component → List UInt8 × List UInt8
  | (head, tail), .static b => (head ++ b, tail)
  | (head, tail), .dynamic b => (head ++ (wordFromUsize (u.add headSize tail.length)).1, tail ++ b)

/-- Encode a tuple of components into a single buffer, head followed by tail. -/
def encodeTuple (components : List Component) : List UInt8 :=
  let headSize := (components.map Component.headLength).foldl u.add 0
  let (head, tail) := components.foldl (encodeStep u headSize) ([], [])
  head ++ tail

/-- `AbiEncodeOutput::encode_output`: nothing for `()`, a tuple of one for a value. -/
def encodeOutput : Option Arg → List UInt8
  | none => []
  | some a => encodeTuple u [a.toComponent]

/-- `ERROR_SELECTOR` -/
def errorSelector : List UInt8 := [0x08, 0xc3, 0x79, 0xa0]

/-- Revert data with a reason. -/
def encodeError (reason : String) : List UInt8 :=
  errorSelector ++ encodeTuple u [Arg.toComponent ⟨.string, reason⟩]

/-! ## Decoding -/

def Usize.checkedAdd (a b : ℕ) : Except DecodeError ℕ := if a + b < u.card then .ok (a + b) else .error .overflow

/-- Read the word at `offset`. -/
def readWord (input : List UInt8) (offset : ℕ) : Except DecodeError Word := do
  let stop ← u.checkedAdd offset 32
  if input.length < stop then throw .truncated
  return .copyFrom 32 ((input.take stop).drop offset)

/-- Read a word as an offset or a length. -/
def readUsize (input : List UInt8) (offset : ℕ) : Except DecodeError ℕ := do
  let w ← readWord u input offset
  if (w.1.take (32 - u.bytes)).any (fun b => b != 0) then throw .overflow
  return FixedBytes.toNat (.copyFrom u.bytes (w.1.drop (32 - u.bytes)))

/-- Decode a dynamic payload whose head slot is at `offset`. -/
def decodeBytes (input : List UInt8) (offset : ℕ) : Except DecodeError (List UInt8) := do
  let ptr ← readUsize u input offset
  let len ← readUsize u input ptr
  let start ← u.checkedAdd ptr 32
  let stop ← u.checkedAdd start len
  if input.length < stop then throw .truncated
  return (input.take stop).drop start

/-- An integer of `n` bytes from the low end of a word. -/
def decodeInt (n : IntWidth) (input : List UInt8) (offset : ℕ) : Except DecodeError (BitVec (8 * n.bytes)) := do
  let w ← readWord u input offset
  return BitVec.ofNat _ (FixedBytes.toNat (.copyFrom n.bytes (w.1.drop (32 - n.bytes))))

/-- `AbiDecode::decode`. -/
def AbiTy.decode (input : List UInt8) (offset : ℕ) : (t : AbiTy) → Except DecodeError t.Val
  | uint n => decodeInt u n input offset
  | int n => decodeInt u n input offset
  | bool => do
    let w ← readWord u input offset
    return w.1.any (fun b => b != 0)
  | bytes32 => readWord u input offset
  | u256 => readWord u input offset
  | address => do
    let w ← readWord u input offset
    return .copyFrom 20 (w.1.drop 12)
  | bytes => decodeBytes u input offset
  | string => do
    let data ← decodeBytes u input offset
    match String.fromUTF8? ⟨data.toArray⟩ with
    | some s => return s
    | none => throw .invalidUtf8

/-- The arguments from number `idx` on, each from its head slot. -/
def decodeArgsFrom (calldata : List UInt8) : ℕ → List AbiTy → Except DecodeError (List Arg)
  | _, [] => .ok []
  | idx, t :: ts => do
    let v ← t.decode u calldata (32 * idx)
    let vs ← decodeArgsFrom calldata (idx + 1) ts
    return ⟨t, v⟩ :: vs

/-- `AbiDecodeArgs::decode_args`, for a tuple of any arity. -/
def decodeArgs (ts : List AbiTy) (calldata : List UInt8) : Except DecodeError (List Arg) :=
  decodeArgsFrom u calldata 0 ts

end Codec

end RustEvm.Abi
