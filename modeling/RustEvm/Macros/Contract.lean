import RustEvm.Macros.Signature

/-!
# RustEvm.Macros.Contract — `expand_contract`

The expansion of an impl block: an `impl Method` per exposed method, the parts of the generated `dispatch`, and the
constructor.  The generated code that later text refers to by its marker struct is the `MethodImpl` itself.
-/

namespace RustEvm.Macros

/-! ## Handle parameters -/

/-- One handle parameter, in declared order. -/
structure HandleParam where
  kind : HandleKind
  isMut : Bool
  layoutTy : Ty

/-- Which handle a parameter type names. -/
def handleKind : Ty → HandleKind
  | .reference _ elem => handleKind elem
  | .path segments =>
    if segments.getLast?.any fun s => s.ident == "TransientStorage" then .transient else .persistent
  | _ => .persistent

/-- The `T` of a handle parameter type; one reference around it is looked through. -/
def handleLayoutTy (ty : Ty) (kind : HandleKind) : Except ExpandError Ty :=
  let inner := match ty with
    | .reference _ elem => elem
    | ty => ty
  match inner with
  | .path segments =>
    match segments.getLast? with
    | none => .error (.handleExpected kind)
    | some seg =>
      match seg.arguments with
      | .angleBracketed args =>
        match args.filterMap GenericArgument.ty? with
        | [] => .error (.handleNoType kind)
        | [layoutTy] => .ok layoutTy
        | _ => .error (.handleManyTypes kind)
      | _ => .error (.handleBare kind)
  | _ => .error (.handleExpected kind)

/-- Whether a parameter type is a mutable reference. -/
def Ty.isMutRef : Ty → Bool
  | reference mutability _ => mutability
  | _ => false

/-- One parameter, after the handles and the ABI types of those before it. -/
def splitParam : List HandleParam × List Ty → FnArg → Except ExpandError (List HandleParam × List Ty)
  | _, .receiver => .error .selfReceiver
  | (handles, abiTypes), .typed ty =>
    if !isHandleParam ty then .ok (handles, abiTypes ++ [ty])
    else
      let kind := handleKind ty
      if handles.any fun h => h.kind == kind then .error (.twoHandles kind)
      else if !abiTypes.isEmpty then .error (.handleAfterAbi kind)
      else do
        let layoutTy ← handleLayoutTy ty kind
        return (handles ++ [⟨kind, ty.isMutRef, layoutTy⟩], abiTypes)

/-- The leading handle parameters of a method and its ABI types. -/
def splitHandleParams (method : ImplItemFn) : Except ExpandError (List HandleParam × List Ty) :=
  method.inputs.foldlM splitParam ([], [])

/-! ## The generated call -/

/-- A call of the method, inside the closures that bind its handles. -/
inductive CallExpr
  | call (name : String) (args : List String)
  | closure (helper : String) (layoutTy : Ty) (binding : String) (body : CallExpr)

/-- The helper that constructs a handle. -/
def HandleParam.helper (h : HandleParam) : String :=
  match h.kind, h.isMut with
  | .persistent, false => "::std_evm::with_storage"
  | .persistent, true => "::std_evm::with_storage_mut"
  | .transient, false => "::std_evm::with_transient_storage"
  | .transient, true => "::std_evm::with_transient_storage_mut"

/-- One closure per handle around `inner`, the first outermost. -/
def wrapWithHandles (handles : List HandleParam) (inner : CallExpr) : CallExpr :=
  handles.reverse.foldl (fun acc h => .closure h.helper h.layoutTy h.kind.binding acc) inner

def argPatIdents (n : ℕ) : List String := (List.range n).map fun i => s!"arg{i}"

/-- The marker struct of a method; a raw identifier makes `Ident::new` panic. -/
def methodMarkerIdent (name : String) : Except ExpandError String :=
  if name.toList.contains '#' then .error (.notAnIdent s!"__Method_{name}") else .ok s!"__Method_{name}"

/-- The marker struct with its `impl Method`. -/
structure MethodImpl where
  marker : String
  selector : Selector
  args : List Ty
  output : Option Ty
  /-- whether `call` starts with `guard_not_payable()` -/
  guarded : Bool
  argPats : List String
  body : CallExpr
  /-- what it was expanded from -/
  method : ImplItemFn

/-- The `impl Contract` of the constructor. -/
structure ContractImpl where
  args : List Ty
  argPats : List String
  body : CallExpr
  method : ImplItemFn

/-- The ABI types of a method, the patterns of its arguments and the wrapped call. -/
def expandCall (method : ImplItemFn) : Except ExpandError (List Ty × List String × CallExpr) := do
  let (handles, abiTypes) ← splitHandleParams method
  let argPats := argPatIdents abiTypes.length
  let handleArgs := handles.map fun h => h.kind.binding
  return (abiTypes, argPats, wrapWithHandles handles (.call method.ident (handleArgs ++ argPats)))

def expandMethod (method : ImplItemFn) (marker : String) (sel : Selector) (isPayable : Bool) :
    Except ExpandError MethodImpl := do
  let (args, argPats, body) ← expandCall method
  return ⟨marker, sel, args, method.output, !isPayable, argPats, body, method⟩

def expandConstructor (method : ImplItemFn) : Except ExpandError ContractImpl := do
  if method.output.isSome then
    throw .constructorReturns
  let (args, argPats, body) ← expandCall method
  return ⟨args, argPats, body, method⟩

/-! ## The impl block -/

/-- The accumulators of the loop over the items. -/
structure Loop where
  items : List ImplItem := []
  methodImpls : List MethodImpl := []
  dispatchArms : List (Selector × MethodImpl) := []
  fallbackCall : Option MethodImpl := none
  receiveCall : Option MethodImpl := none
  constructorImpl : Option ContractImpl := none
  seenSelectors : List (Selector × String) := []

section Host

variable (host : Host)

/-- The collision check of a method that gets a dispatch arm. -/
def checkSelector (seen : List (Selector × String)) (sel : Selector) (ident : String) :
    Except ExpandError (List (Selector × String)) :=
  match seen.find? fun s => s.1 == sel with
  | some (_, other) => .error (.selectorCollision other ident sel)
  | none => .ok (seen ++ [(sel, ident)])

/-- One public method that is no constructor. -/
def expandExposed (l : Loop) (method : ImplItemFn) : Except ExpandError Loop := do
  let isFallback := hasAttr method "fallback"
  let isReceive := hasAttr method "receive"
  let isPayable := hasAttr method "payable"
  let sel := host.selector (← ethSignature host method)
  let seen ← (if !isFallback && !isReceive then checkSelector l.seenSelectors sel method.ident
    else .ok l.seenSelectors)
  let marker ← methodMarkerIdent method.ident
  let impl ← expandMethod method marker sel isPayable
  let l := { l with seenSelectors := seen, methodImpls := l.methodImpls ++ [impl] }
  if isFallback then
    return { l with fallbackCall := some impl }
  else if isReceive then
    return { l with receiveCall := some impl }
  else
    return { l with dispatchArms := l.dispatchArms ++ [(sel, impl)] }

def expandFn (l : Loop) (method : ImplItemFn) : Except ExpandError Loop :=
  if method.vis ≠ .pub then .ok l
  else if hasAttr method "constructor" then do
    let constructorImpl ← expandConstructor method
    return { l with constructorImpl := some constructorImpl }
  else expandExposed host l method

/-- One item; a method is put back without its inert attributes. -/
def expandItem (l : Loop) : ImplItem → Except ExpandError Loop
  | .other tokens => .ok { l with items := l.items ++ [.other tokens] }
  | .fn method => do
    let l ← expandFn host l method
    return { l with items := l.items ++ [.fn (stripInertAttrs method)] }

/-- What the generated `dispatch` is put together from. -/
structure DispatchImpl where
  receiveBranch : Option MethodImpl
  arms : List (Selector × MethodImpl)
  fallbackBranch : Option MethodImpl

structure Expansion where
  implBlock : ItemImpl
  methodImpls : List MethodImpl
  dispatchImpl : DispatchImpl
  constructorImpl : Option ContractImpl

def expandContract (block : ItemImpl) : Except ExpandError Expansion := do
  checkAtMostOne block "constructor"
  checkAtMostOne block "fallback"
  checkAtMostOne block "receive"
  let l ← block.items.foldlM (expandItem host) {}
  return { implBlock := ⟨block.selfTy, l.items⟩
           methodImpls := l.methodImpls
           dispatchImpl := ⟨l.receiveCall, l.dispatchArms, l.fallbackCall⟩
           constructorImpl := l.constructorImpl }

end Host

end RustEvm.Macros
