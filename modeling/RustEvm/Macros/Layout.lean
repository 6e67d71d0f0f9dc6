import RustEvm.Lib.Fallible
import RustEvm.Macros.Syntax

/-!
# RustEvm.Macros.Layout — `#[storage]` and `#[transient]`

One expansion for both macros: every field gets the slot of its index and the accessors of its shape, written over the
types that the `Flavor` names.  `expandFields_slots` is what the slots come to.
-/

namespace RustEvm.Macros

open Fallible

/-! ## Flavors -/

inductive LayoutTrait
  | storageLayout | transientLayout
  deriving DecidableEq

inductive SlotTy
  | slot | transientSlot
  deriving DecidableEq

inductive MapRefTy
  | mappingRef | transientMappingRef
  deriving DecidableEq

inductive MapMutTy
  | mappingMut | transientMappingMut
  deriving DecidableEq

/-- The types of the runtime that one expansion targets. -/
structure Flavor where
  layoutTrait : LayoutTrait
  handle : HandleKind
  slotTy : SlotTy
  mapRef : MapRefTy
  mapMut : MapMutTy
  /-- Whether `bool` fields also get a guard accessor. -/
  guards : Bool
  deriving DecidableEq

def Flavor.persistent : Flavor where
  layoutTrait := .storageLayout
  handle := .persistent
  slotTy := .slot
  mapRef := .mappingRef
  mapMut := .mappingMut
  guards := false

def Flavor.transient : Flavor where
  layoutTrait := .transientLayout
  handle := .transient
  slotTy := .transientSlot
  mapRef := .transientMappingRef
  mapMut := .transientMappingMut
  guards := true

/-! ## Accessors -/

/-- The accessors of a field. -/
inductive AccessorKind
  /-- a getter, a setter, and for a guarded flag the guard -/
  | value (ty : Ty) (guard : Bool)
  /-- the two views of a mapping -/
  | mapping (k v : Ty)
  /-- the same for the inner mapping, from the outer key -/
  | nested (k k2 v2 : Ty)

/-- A field's slot and its methods in the accessor trait. -/
structure Accessor where
  methods : List String
  slot : BitVec 64
  kind : AccessorKind

/-- Whether a type is `bool`. -/
def isBool : Ty → Bool
  | .path [.mk ident .none] => ident == "bool"
  | _ => false

/-- The two type arguments of a `Mapping<K, V>`; `none` for an ordinary field. -/
def mappingGenerics : Ty → Except ExpandError (Option (Ty × Ty))
  | .path segments =>
    match segments.getLast? with
    | none => .ok none
    | some seg =>
      if seg.ident != "Mapping" then .ok none
      else match seg.arguments with
        | .angleBracketed args =>
          match args.filterMap GenericArgument.ty? with
          | [k, v] => .ok (some (k, v))
          | _ => .error .mappingTwoArgs
        | _ => .error .mappingArgs
  | _ => .ok none

section Expand

variable (flavor : Flavor)

/-- The accessors of field number `i`. -/
def expandField (i : ℕ) (field : Field) : Except ExpandError Accessor := do
  let fieldName := field.ident
  let slot := BitVec.ofNat 64 i
  match ← mappingGenerics field.ty with
  | some (k, v) =>
    let methods := [fieldName, s!"{fieldName}_mut"]
    match ← mappingGenerics v with
    | some (k2, v2) => return ⟨methods, slot, .nested k k2 v2⟩
    | none => return ⟨methods, slot, .mapping k v⟩
  | none =>
    let guard := flavor.guards && isBool field.ty
    let methods := [fieldName, s!"set_{fieldName}"] ++ if guard then [s!"{fieldName}_guard"] else []
    return ⟨methods, slot, .value field.ty guard⟩

/-- The accessors of the fields from number `i` on. -/
def expandFields : ℕ → List Field → Except ExpandError (List Accessor)
  | _, [] => .ok []
  | i, field :: fields => do
    let accessor ← expandField flavor i field
    let accessors ← expandFields (i + 1) fields
    return accessor :: accessors

/-- The marker struct, the layout trait it implements and the accessor trait for the handle. -/
structure LayoutExpansion where
  attrs : List Attribute
  vis : Visibility
  name : String
  traitName : String
  flavor : Flavor
  accessors : List Accessor

def expandLayout (item : ItemStruct) (macroName : String) : Except ExpandError LayoutExpansion :=
  match item.fields with
  | .unnamed => .error (.namedFields macroName)
  | .named fields _ => do
    let accessors ← expandFields flavor 0 fields
    return ⟨item.attrs, item.vis, item.ident, s!"{item.ident}Access", flavor, accessors⟩

end Expand

def expandStorage (item : ItemStruct) : Except ExpandError LayoutExpansion :=
  expandLayout .persistent item "#[storage]"

def expandTransient (item : ItemStruct) : Except ExpandError LayoutExpansion :=
  expandLayout .transient item "#[transient]"

/-! ## Slots -/

theorem expandField_slot {flavor : Flavor} {i : ℕ} {field : Field} {a : Accessor}
    (h : expandField flavor i field = .ok a) : a.slot = BitVec.ofNat 64 i := by
  rw [expandField, bind_eq_ok] at h
  obtain ⟨_ | ⟨k, v⟩, -, h⟩ := h
  · cases h
    rfl
  · simp only [bind_eq_ok] at h
    obtain ⟨_ | ⟨k2, v2⟩, -, h⟩ := h <;> cases h <;> rfl

/-- Slots are the indices of the fields. -/
theorem expandFields_slots {flavor : Flavor} {i : ℕ} {fields : List Field} {as : List Accessor}
    (h : expandFields flavor i fields = .ok as) :
    as.map Accessor.slot = (List.range' i fields.length).map (BitVec.ofNat 64) := by
  induction fields generalizing i as with
  | nil =>
    cases h
    rfl
  | cons field fields ih =>
    simp only [expandFields, bind_eq_ok] at h
    obtain ⟨a, ha, rest, hrest, h⟩ := h
    cases h
    rw [List.map_cons, expandField_slot ha, ih hrest, List.length_cons, List.range'_succ, List.map_cons]

/-- An accepted layout has one accessor a field, at pairwise distinct slots below the number of fields. -/
theorem expandLayout_slots {flavor : Flavor} {item : ItemStruct} {macroName : String} {e : LayoutExpansion}
    (h : expandLayout flavor item macroName = .ok e) :
    e.flavor = flavor ∧ e.accessors.map (fun a => a.slot.toNat) = List.range e.accessors.length := by
  rw [expandLayout] at h
  split at h
  · cases h
  · rename_i fields hfits _
    rw [bind_eq_ok] at h
    obtain ⟨as, has, h⟩ := h
    cases h
    have hslots := congrArg (List.map BitVec.toNat) (expandFields_slots has)
    have hlen : as.length = fields.length := by
      simpa using congrArg List.length (expandFields_slots has)
    refine ⟨rfl, ?_⟩
    rw [List.map_map, List.map_map] at hslots
    show as.map (BitVec.toNat ∘ Accessor.slot) = List.range as.length
    rw [hslots, hlen, List.range_eq_range']
    nth_rewrite 2 [← List.map_id (List.range' 0 fields.length)]
    apply List.map_congr_left
    intro i hi
    rw [List.mem_range'_1] at hi
    simp only [Function.comp_apply, BitVec.toNat_ofNat, id]
    exact Nat.mod_eq_of_lt (by omega)

end RustEvm.Macros
