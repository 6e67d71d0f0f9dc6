import RustEvm.Abi.Word

/-!
# RustEvm.Evm.Machine — memory, storage and transient storage

The opcodes the storage layer calls, over the state they reach.  The hash is a parameter.
-/

namespace RustEvm.Evm

open BigEndian Abi

structure Machine where
  memory : ℕ → UInt8
  storage : U256 → U256
  transient : U256 → U256

abbrev EvmM := StateM Machine

/-- The bytes `[offset, offset + len)` of a memory. -/
def readMemory (memory : ℕ → UInt8) (offset len : ℕ) : List UInt8 :=
  (List.range len).map fun i => memory (offset + i)

/-- A memory with a word stored at `offset`. -/
def writeMemory (memory : ℕ → UInt8) (offset : ℕ) (value : U256) : ℕ → UInt8 := fun i =>
  if offset ≤ i ∧ i < offset + 32 then value.1.getD (i - offset) 0 else memory i

/-- MSTORE -/
def mstore (offset : BitVec 32) (value : U256) : EvmM Unit :=
  modify fun m => { m with memory := writeMemory m.memory offset.toNat value }

/-- KECCAK256 -/
def keccak256 (keccak : List UInt8 → U256) (offset len : BitVec 32) : EvmM U256 := do
  return keccak (readMemory (← get).memory offset.toNat len.toNat)

/-- SLOAD -/
def sload (slot : U256) : EvmM U256 := do
  return (← get).storage slot

/-- SSTORE -/
def sstore (slot value : U256) : EvmM Unit :=
  modify fun m => { m with storage := Function.update m.storage slot value }

/-- TLOAD -/
def tload (slot : U256) : EvmM U256 := do
  return (← get).transient slot

/-- TSTORE -/
def tstore (slot value : U256) : EvmM Unit :=
  modify fun m => { m with transient := Function.update m.transient slot value }

/-! ## Two words side by side -/

theorem length_readMemory (memory : ℕ → UInt8) (offset len : ℕ) :
    (readMemory memory offset len).length = len := by
  simp [readMemory]

theorem readMemory_add (memory : ℕ → UInt8) (offset len len' : ℕ) :
    readMemory memory offset (len + len') = readMemory memory offset len ++ readMemory memory (offset + len) len' := by
  simp [readMemory, List.range_add, Function.comp_def, Nat.add_assoc]

/-- A stored word is read back. -/
theorem readMemory_writeMemory (memory : ℕ → UInt8) (offset : ℕ) (value : U256) :
    readMemory (writeMemory memory offset value) offset 32 = value.1 := by
  apply List.ext_getElem
  · rw [length_readMemory, value.2]
  · intro i hi hi'
    rw [length_readMemory] at hi
    simp [readMemory, writeMemory, hi, hi']

/-- A word stored elsewhere does not change what is read. -/
theorem readMemory_writeMemory_ne (memory : ℕ → UInt8) {offset offset' len : ℕ} (value : U256)
    (h : offset' + len ≤ offset) :
    readMemory (writeMemory memory offset value) offset' len = readMemory memory offset' len := by
  apply List.map_congr_left
  intro i hi
  rw [List.mem_range] at hi
  exact if_neg (by omega)

/-- Two words stored at `0` and `32` are the first 64 bytes. -/
theorem readMemory_two (memory : ℕ → UInt8) (v w : U256) :
    readMemory (writeMemory (writeMemory memory 0 v) 32 w) 0 64 = v.1 ++ w.1 := by
  have hlow : readMemory (writeMemory (writeMemory memory 0 v) 32 w) 0 32 = v.1 := by
    rw [readMemory_writeMemory_ne _ w (by norm_num : 0 + 32 ≤ 32), readMemory_writeMemory]
  rw [show 64 = 32 + 32 from rfl, readMemory_add, hlow, Nat.zero_add, readMemory_writeMemory]

end RustEvm.Evm
