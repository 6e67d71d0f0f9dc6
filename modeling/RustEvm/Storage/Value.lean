import RustEvm.Evm.Machine
import RustEvm.Macros.Layout

/-!
# RustEvm.Storage.Value — values, keys, slots and mapping views

The runtime under the generated accessors.  The persistent and the transient type of each pair differ in the opcodes
they load and store with; each is the common body at its own opcodes.
-/

namespace RustEvm.Storage

open BigEndian Abi Evm Macros

/-! ## Types -/

/-- The types with a `StorageValue` implementation. -/
inductive ValueTy
  | u256 | bool | address
  deriving DecidableEq

abbrev ValueTy.Val : ValueTy → Type
  | u256 => U256
  | bool => Bool
  | address => Address

/-- The zero value. -/
def ValueTy.zero : (t : ValueTy) → t.Val
  | u256 => U256.zero
  | bool => false
  | address => Address.zero

/-- The types with a `StorageKey` implementation. -/
inductive KeyTy
  | u256 | address
  deriving DecidableEq

abbrev KeyTy.Val : KeyTy → Type
  | u256 => U256
  | address => Address

instance (k : KeyTy) : DecidableEq k.Val := fun a b =>
  match k, a, b with
  | .u256, a, b => inferInstanceAs (Decidable ((a : U256) = b))
  | .address, a, b => inferInstanceAs (Decidable ((a : Address) = b))

/-- An address in the low bytes of a word. -/
def addressWord (a : Address) : U256 := ⟨List.replicate 12 0 ++ a.1, by rw [List.length_append, a.2]; rfl⟩

/-- `StorageKey::to_bytes` -/
def KeyTy.toBytes : (k : KeyTy) → k.Val → Abi.Word
  | u256, v => v
  | address, a => addressWord a

/-! ## Values in slots -/

/-- The body of the readers, over the opcode that loads a word. -/
def readVia (load : U256 → EvmM U256) : (t : ValueTy) → U256 → EvmM t.Val
  | .u256, slot => load slot
  | .bool, slot => do return (← load slot) != U256.zero
  | .address, slot => do return .copyFrom 20 ((← load slot).1.drop 12)

/-- The body of the writers, over the opcode that stores a word. -/
def writeVia (store : U256 → U256 → EvmM Unit) : (t : ValueTy) → t.Val → U256 → EvmM Unit
  | .u256, v, slot => store slot v
  | .bool, b, slot => store slot (if b then U256.fromU64 1 else U256.zero)
  | .address, a, slot => store slot (addressWord a)

/-- `StorageValue::read_from` -/
def readFrom : (t : ValueTy) → U256 → EvmM t.Val := readVia sload

/-- `StorageValue::write_to` -/
def writeTo : (t : ValueTy) → t.Val → U256 → EvmM Unit := writeVia sstore

/-- `TransientValue::read_from_transient` -/
def readFromTransient : (t : ValueTy) → U256 → EvmM t.Val := readVia tload

/-- `TransientValue::write_to_transient` -/
def writeToTransient : (t : ValueTy) → t.Val → U256 → EvmM Unit := writeVia tstore

/-- `Slot::read` and `TransientSlot::read`, the slot given by its number. -/
def slotRead (ty : SlotTy) (t : ValueTy) (slot : BitVec 64) : EvmM t.Val :=
  match ty with
  | .slot => readFrom t (U256.fromU64 slot)
  | .transientSlot => readFromTransient t (U256.fromU64 slot)

/-- `Slot::write` and `TransientSlot::write`. -/
def slotWrite (ty : SlotTy) (t : ValueTy) (slot : BitVec 64) (v : t.Val) : EvmM Unit :=
  match ty with
  | .slot => writeTo t v (U256.fromU64 slot)
  | .transientSlot => writeToTransient t v (U256.fromU64 slot)

/-! ## Mappings -/

section Keccak

variable (keccak : List UInt8 → U256)

/-- `keccak256(key ++ slot)`, through the first two words of memory. -/
def derivedSlot (base : U256) (k : KeyTy) (key : k.Val) : EvmM U256 := do
  mstore 0 (k.toBytes key)
  mstore 32 base
  keccak256 keccak 0 64

/-- The body of `get` on a view based at `slot`. -/
def getVia (read : (t : ValueTy) → U256 → EvmM t.Val) (k : KeyTy) (t : ValueTy) (slot : U256) (key : k.Val) :
    EvmM t.Val := do
  read t (← derivedSlot keccak slot k key)

/-- The body of `set` on a view based at `slot`. -/
def setVia (write : (t : ValueTy) → t.Val → U256 → EvmM Unit) (k : KeyTy) (t : ValueTy) (slot : U256)
    (key : k.Val) (v : t.Val) : EvmM Unit := do
  write t v (← derivedSlot keccak slot k key)

/-- `MappingRef::get` and `TransientMappingRef::get`. -/
def refGet : MapRefTy → (k : KeyTy) → (t : ValueTy) → U256 → k.Val → EvmM t.Val
  | .mappingRef => getVia keccak readFrom
  | .transientMappingRef => getVia keccak readFromTransient

/-- `MappingMut::get` and `TransientMappingMut::get`. -/
def mutGet : MapMutTy → (k : KeyTy) → (t : ValueTy) → U256 → k.Val → EvmM t.Val
  | .mappingMut => getVia keccak readFrom
  | .transientMappingMut => getVia keccak readFromTransient

/-- `MappingMut::set` and `TransientMappingMut::set`. -/
def mutSet : MapMutTy → (k : KeyTy) → (t : ValueTy) → U256 → k.Val → t.Val → EvmM Unit
  | .mappingMut => setVia keccak writeTo
  | .transientMappingMut => setVia keccak writeToTransient

end Keccak

/-! ## Encodings -/

/-- The word a value is stored as. -/
def ValueTy.enc : (t : ValueTy) → t.Val → U256
  | u256, v => v
  | bool, b => if b then U256.fromU64 1 else U256.zero
  | address, a => addressWord a

/-- The value a word is read as. -/
def ValueTy.dec : (t : ValueTy) → U256 → t.Val
  | u256, w => w
  | bool, w => w != U256.zero
  | address, w => .copyFrom 20 (w.1.drop 12)

theorem ValueTy.dec_enc (t : ValueTy) (v : t.Val) : t.dec (t.enc v) = v := by
  cases t with
  | u256 => rfl
  | bool => cases v <;> rfl
  | address =>
    apply Subtype.ext
    show (FixedBytes.copyFrom 20 ((List.replicate 12 0 ++ v.1).drop 12)).1 = v.1
    rw [List.drop_left' List.length_replicate, FixedBytes.copyFrom_eq v.2]

theorem ValueTy.dec_zero (t : ValueTy) : t.dec U256.zero = t.zero := by
  cases t <;> rfl

theorem KeyTy.toBytes_inj {k : KeyTy} {a b : k.Val} (h : k.toBytes a = k.toBytes b) : a = b := by
  cases k with
  | u256 => exact h
  | address =>
    apply Subtype.ext
    exact List.append_cancel_left (congrArg Subtype.val h)

theorem readVia_run (load : U256 → EvmM U256) (t : ValueTy) (slot : U256) (m : Machine) :
    (readVia load t slot).run m = (t.dec ((load slot).run m).1, ((load slot).run m).2) := by
  cases t <;> rfl

theorem writeVia_eq (store : U256 → U256 → EvmM Unit) (t : ValueTy) (v : t.Val) (slot : U256) :
    writeVia store t v slot = store slot (t.enc v) := by
  cases t <;> rfl

/-- The slot derivation writes the scratch words and hashes them. -/
theorem derivedSlot_run (keccak : List UInt8 → U256) (base : U256) (k : KeyTy) (key : k.Val) (m : Machine) :
    (derivedSlot keccak base k key).run m =
      (keccak ((k.toBytes key).1 ++ base.1),
        { m with memory := writeMemory (writeMemory m.memory 0 (k.toBytes key)) 32 base }) := by
  have hread := readMemory_two m.memory (k.toBytes key) base
  show (keccak (readMemory (writeMemory (writeMemory m.memory 0 (k.toBytes key)) 32 base) 0 64), _) = _
  rw [hread]
  rfl

end RustEvm.Storage
