import RustEvm.Macros.Syntax

/-!
# RustEvm.Macros.Signature — the ABI signature of a method

The selector hash and the uppercase mapping of the standard library are what the expansion is given; both are fields
of `Host`.
-/

namespace RustEvm.Macros

/-- What the expansion takes from the libraries it runs with. -/
structure Host where
  /-- `selector`: the first four bytes of the hash of a signature -/
  selector : String → Selector
  /-- `char::to_uppercase` -/
  toUppercase : Char → List Char

/-- Map a Rust type identifier to its Solidity ABI type name. -/
def solidityTypeName : String → String
  | "u8" => "uint8"
  | "u16" => "uint16"
  | "u32" => "uint32"
  | "u64" => "uint64"
  | "u128" => "uint128"
  | "i8" => "int8"
  | "i16" => "int16"
  | "i32" => "int32"
  | "i64" => "int64"
  | "i128" => "int128"
  | "bool" => "bool"
  | "U256" => "uint256"
  | "Address" => "address"
  | "Bytes32" => "bytes32"
  | _ => "bytes32"

section Host

variable (host : Host)

/-- A segment after the first, with its first letter in upper case. -/
def capitalize : List Char → List Char
  | [] => []
  | first :: chars => host.toUppercase first ++ chars

/-- `snake_case` to `camelCase`; empty segments are dropped. -/
def camelCase (ident : String) : String :=
  match (ident.toList.splitOn '_').filter fun s => !s.isEmpty with
  | [] => ""
  | first :: rest => String.ofList (first ++ rest.flatMap (capitalize host))

end Host

/-- Whether a type is a storage handle. -/
def isHandleParam : Ty → Bool
  | .reference _ elem => isHandleParam elem
  | .path segments => segments.getLast?.any fun s => s.ident == "Storage" || s.ident == "TransientStorage"
  | _ => false

/-- The Solidity name of a Rust type path. -/
def rustTyToSolidity : Ty → String
  | .path segments => solidityTypeName ((segments.getLast?.map PathSegment.ident).getD "")
  | .reference _ elem => rustTyToSolidity elem
  | _ => "bytes32"

/-- The type of an ABI-visible parameter. -/
def FnArg.abiTy? : FnArg → Option Ty
  | typed ty => if isHandleParam ty then none else some ty
  | receiver => none

/-- The signature string: the `#[selector("...")]` override, or the camel-case name with the parameter types. -/
def ethSignature (host : Host) (method : ImplItemFn) : Except ExpandError String := do
  if let some sig ← selectorOverride method then
    return sig
  let name := camelCase host method.ident
  let params := String.intercalate "," ((method.inputs.filterMap FnArg.abiTy?).map rustTyToSolidity)
  return s!"{name}({params})"

end RustEvm.Macros
