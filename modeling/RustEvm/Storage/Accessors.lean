import RustEvm.Storage.Value

/-!
# RustEvm.Storage.Accessors — the accessors of a contract's two layouts

A `Contract` has one `#[storage]` and one `#[transient]` struct that the macros accept.  A `Var` is an access path into
one of them: a field, and the keys its shape asks for.  `getter`, `getterMut` and `setter` are the generated accessors
with the calls on the views they return.
-/

namespace RustEvm.Storage

open BigEndian Abi Evm Macros

/-! ## Shapes -/

/-- The declared type of a field: a value, a mapping, a mapping of mappings. -/
inductive Shape
  | value (t : ValueTy)
  | mapping (k : KeyTy) (t : ValueTy)
  | nested (k k2 : KeyTy) (t : ValueTy)
  deriving DecidableEq

namespace Shape

/-- The keys that lead to a value. -/
abbrev Keys : Shape → Type
  | value _ => Unit
  | mapping k _ => k.Val
  | nested k k2 _ => k.Val × k2.Val

instance (s : Shape) : DecidableEq s.Keys := fun a b =>
  match s, a, b with
  | value _, _, _ => .isTrue rfl
  | mapping k _, a, b => inferInstanceAs (Decidable ((a : k.Val) = b))
  | nested k k2 _, a, b => inferInstanceAs (Decidable ((a : k.Val × k2.Val) = b))

def valueTy : Shape → ValueTy
  | value t => t
  | mapping _ t => t
  | nested _ _ t => t

/-- The words that are hashed into the slot, in order. -/
def keyWords : (s : Shape) → s.Keys → List Abi.Word
  | value _, _ => []
  | mapping k _, key => [k.toBytes key]
  | nested k k2 _, (key, key2) => [k.toBytes key, k2.toBytes key2]

theorem keyWords_inj {s : Shape} {a b : s.Keys} (h : s.keyWords a = s.keyWords b) : a = b := by
  cases s with
  | value t => rfl
  | mapping k t => exact KeyTy.toBytes_inj (List.cons.inj h).1
  | nested k k2 t =>
    obtain ⟨h1, h2⟩ := List.cons.inj h
    exact Prod.ext (KeyTy.toBytes_inj h1) (KeyTy.toBytes_inj (List.cons.inj h2).1)

end Shape

/-- The name of a plain type path. -/
def pathIdent? : Ty → Option String
  | .path segments => segments.getLast?.map PathSegment.ident
  | _ => none

def ValueTy.ofTy? (ty : Ty) : Option ValueTy :=
  match pathIdent? ty with
  | some "U256" => some .u256
  | some "bool" => some .bool
  | some "Address" => some .address
  | _ => none

def KeyTy.ofTy? (ty : Ty) : Option KeyTy :=
  match pathIdent? ty with
  | some "U256" => some .u256
  | some "Address" => some .address
  | _ => none

/-- The shape of a field with the storable types. -/
def shape? : AccessorKind → Option Shape
  | .value ty _ => return .value (← ValueTy.ofTy? ty)
  | .mapping k v => return .mapping (← KeyTy.ofTy? k) (← ValueTy.ofTy? v)
  | .nested k k2 v2 => return .nested (← KeyTy.ofTy? k) (← KeyTy.ofTy? k2) (← ValueTy.ofTy? v2)

structure TypedAccessor where
  slot : BitVec 64
  shape : Shape

/-- The accessors of a layout, with their shapes. -/
def typedAccessors (e : LayoutExpansion) : List TypedAccessor :=
  e.accessors.filterMap fun a => (shape? a.kind).map fun shape => ⟨a.slot, shape⟩

/-! ## Access -/

section Access

variable (keccak : List UInt8 → U256) (flavor : Flavor)

/-- `field()`, `field().get(key)`, `field(key).get(key2)` -/
def accessorGet (slot : BitVec 64) : (s : Shape) → s.Keys → EvmM s.valueTy.Val
  | .value t, _ => slotRead flavor.slotTy t slot
  | .mapping k t, key => refGet keccak flavor.mapRef k t (U256.fromU64 slot) key
  | .nested k k2 t, (key, key2) => do
    let base ← derivedSlot keccak (U256.fromU64 slot) k key
    refGet keccak flavor.mapRef k2 t base key2

/-- The same through the mutating views; a plain field has only its getter. -/
def accessorGetMut (slot : BitVec 64) : (s : Shape) → s.Keys → EvmM s.valueTy.Val
  | .value t, _ => slotRead flavor.slotTy t slot
  | .mapping k t, key => mutGet keccak flavor.mapMut k t (U256.fromU64 slot) key
  | .nested k k2 t, (key, key2) => do
    let base ← derivedSlot keccak (U256.fromU64 slot) k key
    mutGet keccak flavor.mapMut k2 t base key2

/-- `set_field(v)`, `field_mut().set(key, v)`, `field_mut(key).set(key2, v)` -/
def accessorSet (slot : BitVec 64) : (s : Shape) → s.Keys → s.valueTy.Val → EvmM Unit
  | .value t, _, v => slotWrite flavor.slotTy t slot v
  | .mapping k t, key, v => mutSet keccak flavor.mapMut k t (U256.fromU64 slot) key v
  | .nested k k2 t, (key, key2), v => do
    let base ← derivedSlot keccak (U256.fromU64 slot) k key
    mutSet keccak flavor.mapMut k2 t base key2 v

end Access

/-! ## Contracts -/

/-- A contract with its two layouts. -/
structure Contract where
  storage : ItemStruct
  transient : ItemStruct
  persistentLayout : LayoutExpansion
  transientLayout : LayoutExpansion
  storage_ok : expandStorage storage = .ok persistentLayout
  transient_ok : expandTransient transient = .ok transientLayout

namespace Contract

variable (c : Contract)

/-- The layout in a storage space. -/
def layout : HandleKind → LayoutExpansion
  | .persistent => c.persistentLayout
  | .transient => c.transientLayout

def accessors (s : HandleKind) : List TypedAccessor := typedAccessors (c.layout s)

/-- An access path: a space, a field of its layout, the keys. -/
abbrev Var := (s : HandleKind) × (i : Fin (c.accessors s).length) × ((c.accessors s).get i).shape.Keys

variable {c}

def Var.accessor (p : c.Var) : TypedAccessor := (c.accessors p.1).get p.2.1

/-- The type of the value behind a path. -/
def Var.valueTy (p : c.Var) : ValueTy := p.accessor.shape.valueTy

section Calls

variable (keccak : List UInt8 → U256)

def getter (p : c.Var) : EvmM p.valueTy.Val :=
  accessorGet keccak (c.layout p.1).flavor p.accessor.slot p.accessor.shape p.2.2

def getterMut (p : c.Var) : EvmM p.valueTy.Val :=
  accessorGetMut keccak (c.layout p.1).flavor p.accessor.slot p.accessor.shape p.2.2

def setter (p : c.Var) (v : p.valueTy.Val) : EvmM Unit :=
  accessorSet keccak (c.layout p.1).flavor p.accessor.slot p.accessor.shape p.2.2 v

variable (c) in
/-- A call of an accessor, on either handle. -/
inductive Call
  | get (p : c.Var)
  | getMut (p : c.Var)
  | set (p : c.Var) (v : p.valueTy.Val)

def Call.var : c.Call → c.Var
  | get p => p
  | getMut p => p
  | set p _ => p

def Call.run : c.Call → EvmM Unit
  | get p => do let _ ← getter keccak p
  | getMut p => do let _ ← getterMut keccak p
  | set p v => setter keccak p v

/-- A sequence of calls. -/
def runCalls (calls : List c.Call) : EvmM Unit := calls.forM (Call.run keccak)

/-- What a call writes. -/
def Call.write? : c.Call → Option ((p : c.Var) × p.valueTy.Val)
  | set p v => some ⟨p, v⟩
  | _ => none

end Calls

end Contract

end RustEvm.Storage
