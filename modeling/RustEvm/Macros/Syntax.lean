import RustEvm.Abi.Word

/-!
# RustEvm.Macros.Syntax — the parsed items and their attributes

What the expansions read of `syn`'s tree: of a path the segments with their arguments, of a method its visibility,
attributes, name, parameters and return type, of a struct its fields.  `message` gives the texts of the errors.
-/

namespace RustEvm.Macros

open BigEndian

abbrev Selector := FixedBytes 4

/-! ## Types -/

mutual

/-- `syn::Type` -/
inductive Ty
  | path (segments : List PathSegment)
  | reference (mutability : Bool) (elem : Ty)
  | array (elem : Ty) (len : String)
  | other (tokens : String)

inductive PathSegment
  | mk (ident : String) (arguments : PathArguments)

inductive PathArguments
  | none
  | angleBracketed (args : List GenericArgument)
  | parenthesized

inductive GenericArgument
  | type (ty : Ty)
  | other (tokens : String)

end

def PathSegment.ident : PathSegment → String
  | mk ident _ => ident

def PathSegment.arguments : PathSegment → PathArguments
  | mk _ arguments => arguments

def GenericArgument.ty? : GenericArgument → Option Ty
  | type ty => some ty
  | other _ => none

/-! ## Methods -/

/-- An attribute: its path, and what parsing its argument as a string literal gives. -/
structure Attribute where
  path : String
  literal : Except String String

inductive Visibility
  | pub
  | restricted
  | inherited
  deriving DecidableEq

inductive FnArg
  | receiver
  | typed (ty : Ty)

structure ImplItemFn where
  vis : Visibility
  attrs : List Attribute
  ident : String
  inputs : List FnArg
  output : Option Ty

inductive ImplItem
  | fn (method : ImplItemFn)
  | other (tokens : String)

structure ItemImpl where
  selfTy : Ty
  items : List ImplItem

/-- A field of a struct. -/
structure Field where
  ident : String
  ty : Ty

/-- The fields of a struct; those with names are counted by a machine word. -/
inductive Fields
  | named (named : List Field) (fits : named.length < 2 ^ 64)
  | unnamed

structure ItemStruct where
  attrs : List Attribute
  vis : Visibility
  ident : String
  fields : Fields

def ImplItem.fn? : ImplItem → Option ImplItemFn
  | fn m => some m
  | other _ => none

/-- The methods of a block, in order. -/
def ItemImpl.fns (block : ItemImpl) : List ImplItemFn := block.items.filterMap ImplItem.fn?

/-! ## Errors -/

/-- Which storage space a handle parameter reaches. -/
inductive HandleKind
  | persistent | transient
  deriving DecidableEq

def HandleKind.name : HandleKind → String
  | persistent => "Storage"
  | transient => "TransientStorage"

def HandleKind.binding : HandleKind → String
  | persistent => "storage"
  | transient => "transient"

inductive ExpandError
  /-- `syn`'s own, from the argument of an attribute -/
  | parse (message : String)
  /-- the panic of `Ident::new` -/
  | notAnIdent (name : String)
  | duplicate (name first : String)
  | selectorShape
  | selectorCollision (other ident : String) (sel : Selector)
  | selfReceiver
  | twoHandles (kind : HandleKind)
  | handleAfterAbi (kind : HandleKind)
  | handleExpected (kind : HandleKind)
  | handleBare (kind : HandleKind)
  | handleNoType (kind : HandleKind)
  | handleManyTypes (kind : HandleKind)
  | constructorReturns
  | namedFields (macroName : String)
  | mappingArgs
  | mappingTwoArgs

def hexDigit (n : ℕ) : Char := if n < 10 then Char.ofNat (48 + n) else Char.ofNat (87 + n)

/-- A selector as a lowercase hex string. -/
def hex4 (sel : Selector) : String :=
  String.ofList (sel.1.flatMap fun b => [hexDigit (b.toNat / 16), hexDigit (b.toNat % 16)])

def ExpandError.message : ExpandError → String
  | parse message => message
  | notAnIdent name => "\"" ++ name ++ "\" is not a valid Ident"
  | duplicate name first => s!"duplicate #[{name}]: also present on `{first}`"
  | selectorShape => "#[selector(\"...\")] must be a full signature string, e.g. \"balanceOf(address)\""
  | selectorCollision other ident sel => s!"selector collision: `{other}` and `{ident}` both hash to 0x{hex4 sel}"
  | selfReceiver => "#[contract] methods must be free functions on the type (no `self`) — " ++
      "use `&Storage<T>`/`&mut Storage<T>` instead"
  | twoHandles kind => s!"a method takes at most one `{kind.name}` handle"
  | handleAfterAbi kind => s!"`&{kind.name}<T>`/`&mut {kind.name}<T>` must come before any ABI parameters"
  | handleExpected kind => s!"expected `&{kind.name}<T>`/`&mut {kind.name}<T>`"
  | handleBare kind => s!"`{kind.name}` needs a layout type argument, e.g. `&{kind.name}<TokenStorage>` — bare " ++
      s!"`&{kind.name}` isn't valid"
  | handleNoType kind => s!"`{kind.name}` needs exactly one layout type argument"
  | handleManyTypes kind => s!"`{kind.name}` takes exactly one layout type argument"
  | constructorReturns => "#[constructor] function must have no return type"
  | namedFields macroName => s!"{macroName} requires a struct with named fields"
  | mappingArgs => "Mapping must have two type arguments: Mapping<K, V>"
  | mappingTwoArgs => "Mapping must have exactly two type arguments: Mapping<K, V>"

/-! ## Attributes -/

/-- Every inert attribute the expansion recognizes and strips. -/
def inertAttrNames : List String := ["constructor", "payable", "fallback", "receive", "selector"]

def hasAttr (method : ImplItemFn) (name : String) : Bool := method.attrs.any fun a => a.path == name

/-- The literal of the first `#[selector("...")]`, with a basic shape check. -/
def selectorOverride (method : ImplItemFn) : Except ExpandError (Option String) :=
  match method.attrs.find? fun a => a.path == "selector" with
  | none => .ok none
  | some attr =>
    match attr.literal with
    | .error e => .error (.parse e)
    | .ok s =>
      if s.toList.isEmpty || !s.toList.contains '(' || s.toList.getLast? != some ')' then .error .selectorShape
      else .ok (some s)

def stripInertAttrs (method : ImplItemFn) : ImplItemFn :=
  { method with attrs := method.attrs.filter fun a => !inertAttrNames.any fun n => a.path == n }

/-- The methods of the block that carry `name`. -/
def ItemImpl.tagged (block : ItemImpl) (name : String) : List ImplItemFn := block.fns.filter fun f => hasAttr f name

/-- At most one method of the block carries `name`. -/
def checkAtMostOne (block : ItemImpl) (name : String) : Except ExpandError Unit :=
  match block.tagged name with
  | first :: _ :: _ => .error (.duplicate name first.ident)
  | _ => .ok ()

theorem checkAtMostOne_ok {block : ItemImpl} {name : String} (h : checkAtMostOne block name = .ok ()) :
    (block.tagged name).length ≤ 1 := by
  rw [checkAtMostOne] at h
  split at h
  · cases h
  · rename_i hne
    rcases hfns : block.tagged name with _ | ⟨a, _ | ⟨b, l⟩⟩
    · simp
    · simp
    · exact absurd hfns (hne a b l)

end RustEvm.Macros
