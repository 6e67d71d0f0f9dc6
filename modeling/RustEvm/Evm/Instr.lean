import RustEvm.Evm.Word
import RustEvm.Evm.Machine

/-!
# RustEvm.Evm.Instr — single instructions on the state of a frame

The state of a frame, in six parts, and what each opcode without control flow does to it, as the Ethereum specification
has it.  Gas and the warm sets are left out.  An instruction works on the memory's bytes (`Instr.core`), and every range
of memory it touches, for reading or for writing, becomes active (`Instr.touched`); the active size is what `MSIZE`
reports.  The hash is a parameter.
-/

namespace RustEvm.Evm

open BigEndian

/-! ## State -/

/-- What a frame knows of its call, its block and the other accounts. -/
structure Context where
  address : Word
  origin : Word
  caller : Word
  callValue : Word
  callData : List UInt8
  code : List UInt8
  gasPrice : Word
  returnData : List UInt8
  coinbase : Word
  timestamp : Word
  number : Word
  prevRandao : Word
  gasLimit : Word
  chainId : Word
  baseFee : Word
  blobBaseFee : Word
  balance : Word → Word
  extCode : Word → List UInt8
  extCodeHash : Word → Word
  blockHash : Word → Word
  blobHash : Word → Word
  deriving Inhabited

structure LogEntry where
  address : Word
  topics : List Word
  data : List UInt8
  deriving DecidableEq

@[ext]
structure State where
  memory : ℕ → UInt8
  /-- active size of the memory, in words of 32 bytes -/
  words : ℕ
  storage : Word → Word
  transient : Word → Word
  context : Context
  logs : List LogEntry
  deriving Inhabited

/-- A memory with bytes stored from `offset` on. -/
def writeBytes (memory : ℕ → UInt8) (offset : ℕ) (bytes : List UInt8) : ℕ → UInt8 := fun i =>
  if offset ≤ i ∧ i < offset + bytes.length then bytes.getD (i - offset) 0 else memory i

/-- The bytes `[offset, offset + len)` of a byte string, zero past its end. -/
def slice (bytes : List UInt8) (offset len : ℕ) : List UInt8 := readMemory (bytes.getD · 0) offset len

/-- The number of words that covers a range of memory; none for an empty one. -/
def wordsFor (offset len : ℕ) : ℕ := if len = 0 then 0 else (offset + len + 31) / 32

/-- The first `n` words are active. -/
def State.expand (s : State) (n : ℕ) : State := { s with words := max s.words n }

/-- What `MSIZE` reports. -/
def State.msize (s : State) : Word := BitVec.ofNat 256 (32 * s.words)

/-! ## Instructions -/

/-- The opcodes, by what they do. -/
inductive Instr
  | unary (f : Word → Word)
  | binary (f : Word → Word → Word)
  | ternary (f : Word → Word → Word → Word)
  | env (f : Context → Word)
  | query (f : Context → Word → Word)
  | copy (source : Context → List UInt8)
  | extCodeCopy
  | returnDataCopy
  | keccak256
  | mload | mstore | mstore8 | msize | mcopy
  | sload | sstore | tload | tstore
  | log (topics : ℕ)

namespace Instr

/-- Words taken from the stack. -/
def stackIn : Instr → ℕ
  | env _ | msize => 0
  | unary _ | query _ | mload | sload | tload => 1
  | binary _ | keccak256 | mstore | mstore8 | sstore | tstore => 2
  | ternary _ | copy _ | returnDataCopy | mcopy => 3
  | extCodeCopy => 4
  | log topics => 2 + topics

/-- Words put on the stack. -/
def stackOut : Instr → ℕ
  | unary _ | binary _ | ternary _ | env _ | query _ | keccak256 | mload | msize | sload | tload => 1
  | _ => 0

def isMsize : Instr → Bool
  | msize => true
  | _ => false

def isLog : Instr → Bool
  | log _ => true
  | _ => false

/-- The words of memory an instruction touches. -/
def touched : Instr → List Word → ℕ
  | copy _, [dest, _, len] | returnDataCopy, [dest, _, len] => wordsFor dest.toNat len.toNat
  | extCodeCopy, [_, dest, _, len] => wordsFor dest.toNat len.toNat
  | keccak256, [offset, len] => wordsFor offset.toNat len.toNat
  | mload, [offset] | mstore, [offset, _] => wordsFor offset.toNat 32
  | mstore8, [offset, _] => wordsFor offset.toNat 1
  | mcopy, [dest, source, len] => wordsFor (max dest.toNat source.toNat) len.toNat
  | log _, offset :: len :: _ => wordsFor offset.toNat len.toNat
  | _, _ => 0

/-- What an instruction does to the state and what it leaves on the stack, the active size aside.  The operands stand
from the top of the stack down; `none` is an exceptional halt, or operands missing. -/
def core (keccak : List UInt8 → Word) : Instr → List Word → State → Option (State × List Word)
  | unary f, [a], s => some (s, [f a])
  | binary f, [a, b], s => some (s, [f a b])
  | ternary f, [a, b, c], s => some (s, [f a b c])
  | env f, [], s => some (s, [f s.context])
  | query f, [a], s => some (s, [f s.context a])
  | copy source, [dest, offset, len], s =>
    some ({ s with memory := writeBytes s.memory dest.toNat (slice (source s.context) offset.toNat len.toNat) }, [])
  | extCodeCopy, [account, dest, offset, len], s =>
    some ({ s with
      memory := writeBytes s.memory dest.toNat (slice (s.context.extCode account) offset.toNat len.toNat) }, [])
  | returnDataCopy, [dest, offset, len], s =>
    if s.context.returnData.length < offset.toNat + len.toNat then none
    else some ({ s with
      memory := writeBytes s.memory dest.toNat (slice s.context.returnData offset.toNat len.toNat) }, [])
  | keccak256, [offset, len], s => some (s, [keccak (readMemory s.memory offset.toNat len.toNat)])
  | mload, [offset], s => some (s, [BitVec.ofNat 256 (ofBytes (readMemory s.memory offset.toNat 32))])
  | mstore, [offset, value], s =>
    some ({ s with memory := writeBytes s.memory offset.toNat (toBytes 32 value.toNat) }, [])
  | mstore8, [offset, value], s =>
    some ({ s with memory := writeBytes s.memory offset.toNat (toBytes 1 value.toNat) }, [])
  | msize, [], s => some (s, [s.msize])
  | mcopy, [dest, source, len], s =>
    some ({ s with memory := writeBytes s.memory dest.toNat (readMemory s.memory source.toNat len.toNat) }, [])
  | sload, [key], s => some (s, [s.storage key])
  | sstore, [key, value], s => some ({ s with storage := Function.update s.storage key value }, [])
  | tload, [key], s => some (s, [s.transient key])
  | tstore, [key, value], s => some ({ s with transient := Function.update s.transient key value }, [])
  | log topics, offset :: len :: words, s =>
    if words.length = topics then
      some ({ s with
        logs := s.logs ++ [⟨s.context.address, words, readMemory s.memory offset.toNat len.toNat⟩] }, [])
    else none
  | _, _, _ => none

/-- **One instruction.** -/
def exec (keccak : List UInt8 → Word) (i : Instr) (args : List Word) (s : State) : Option (State × List Word) :=
  (i.core keccak args s).map fun p => (p.1.expand (i.touched args), p.2)

end Instr

/-- The size of a byte string as a word. -/
def sizeWord (bytes : List UInt8) : Word := BitVec.ofNat 256 bytes.length

/-- The instruction an opcode byte stands for; control flow, the stack opcodes, calls and `GAS` are not in it. -/
def instrOf (b : UInt8) : Option Instr :=
  match b.toNat with
  | 0x01 => some (.binary fun a b => a + b)
  | 0x02 => some (.binary fun a b => a * b)
  | 0x03 => some (.binary fun a b => a - b)
  | 0x04 => some (.binary Word.div)
  | 0x05 => some (.binary Word.sdiv)
  | 0x06 => some (.binary Word.mod)
  | 0x07 => some (.binary Word.smod)
  | 0x08 => some (.ternary Word.addmod)
  | 0x09 => some (.ternary Word.mulmod)
  | 0x0a => some (.binary Word.exp)
  | 0x0b => some (.binary Word.signextend)
  | 0x10 => some (.binary Word.lt)
  | 0x11 => some (.binary Word.gt)
  | 0x12 => some (.binary Word.slt)
  | 0x13 => some (.binary Word.sgt)
  | 0x14 => some (.binary Word.eq)
  | 0x15 => some (.unary Word.iszero)
  | 0x16 => some (.binary fun a b => a &&& b)
  | 0x17 => some (.binary fun a b => a ||| b)
  | 0x18 => some (.binary fun a b => a ^^^ b)
  | 0x19 => some (.unary fun a => ~~~a)
  | 0x1a => some (.binary Word.byte)
  | 0x1b => some (.binary Word.shl)
  | 0x1c => some (.binary Word.shr)
  | 0x1d => some (.binary Word.sar)
  | 0x20 => some .keccak256
  | 0x30 => some (.env Context.address)
  | 0x31 => some (.query Context.balance)
  | 0x32 => some (.env Context.origin)
  | 0x33 => some (.env Context.caller)
  | 0x34 => some (.env Context.callValue)
  | 0x35 => some (.query fun c offset => BitVec.ofNat 256 (ofBytes (slice c.callData offset.toNat 32)))
  | 0x36 => some (.env fun c => sizeWord c.callData)
  | 0x37 => some (.copy Context.callData)
  | 0x38 => some (.env fun c => sizeWord c.code)
  | 0x39 => some (.copy Context.code)
  | 0x3a => some (.env Context.gasPrice)
  | 0x3b => some (.query fun c account => sizeWord (c.extCode account))
  | 0x3c => some .extCodeCopy
  | 0x3d => some (.env fun c => sizeWord c.returnData)
  | 0x3e => some .returnDataCopy
  | 0x3f => some (.query Context.extCodeHash)
  | 0x40 => some (.query Context.blockHash)
  | 0x41 => some (.env Context.coinbase)
  | 0x42 => some (.env Context.timestamp)
  | 0x43 => some (.env Context.number)
  | 0x44 => some (.env Context.prevRandao)
  | 0x45 => some (.env Context.gasLimit)
  | 0x46 => some (.env Context.chainId)
  | 0x47 => some (.env fun c => c.balance c.address)
  | 0x48 => some (.env Context.baseFee)
  | 0x49 => some (.query Context.blobHash)
  | 0x4a => some (.env Context.blobBaseFee)
  | 0x51 => some .mload
  | 0x52 => some .mstore
  | 0x53 => some .mstore8
  | 0x54 => some .sload
  | 0x55 => some .sstore
  | 0x59 => some .msize
  | 0x5c => some .tload
  | 0x5d => some .tstore
  | 0x5e => some .mcopy
  | 0xa0 => some (.log 0)
  | 0xa1 => some (.log 1)
  | 0xa2 => some (.log 2)
  | 0xa3 => some (.log 3)
  | 0xa4 => some (.log 4)
  | _ => none

end RustEvm.Evm
