import RustEvm.Abi.Codec
import RustEvm.Macros.Call

/-!
# RustEvm.Macros.Runtime — what the generated code of a method does

What is generated for a method is code: the types to decode, the patterns, the call inside its closures.  A `Runtime`
is what that code is compiled with, the codecs of the written types and the functions of the contract.
`MethodImpl.callExpr` runs the generated code on it; `ImplItemFn.run` says from the declaration alone what a call of the
method is.  A method runs as it is declared (`callExpr_eq`).
-/

namespace RustEvm.Macros

open Abi Fallible

/-! ## Running generated code -/

/-- What a function is passed: a decoded argument, or a handle. -/
inductive Passed (V : Type)
  | arg (v : V)
  | handle (kind : HandleKind) (isMut : Bool) (layoutTy : Ty)

/-- The codecs of the written types and the functions of the contract, on some state; a call may revert. -/
structure Runtime (V O W : Type) where
  decodeArgs : List Ty → List UInt8 → Except DecodeError (List V)
  /-- a tuple has a component for every type -/
  length_decoded : ∀ {tys calldata args}, decodeArgs tys calldata = .ok args → args.length = tys.length
  call : String → List (Passed V) → StateT W Option O
  encodeOutput : Option Ty → O → List UInt8

/-- An `impl Method`. -/
structure Method (W : Type) where
  Args : Type
  Output : Type
  decodeArgs : List UInt8 → Except DecodeError Args
  call : Args → StateT W Option Output
  encodeOutput : Output → List UInt8

/-- `Method::dispatch`: decode, call, encode. -/
def Method.dispatch {W : Type} (m : Method W) (calldata : List UInt8) :
    StateT W Option (Except DecodeError (List UInt8)) :=
  match m.decodeArgs calldata with
  | .error e => pure (.error e)
  | .ok args => do return .ok (m.encodeOutput (← m.call args))

/-- The callvalue guard does nothing yet. -/
def guardNotPayable {W : Type} : StateT W Option Unit := pure ()

/-- What a name of the generated code stands for, once the arguments are decoded. -/
def Source.passed {V : Type} (args : List V) : Source → Option (Passed V)
  | .arg i => args[i]?.map .arg
  | .handle kind isMut layoutTy => some (.handle kind isMut layoutTy)

section Run

variable (u : Usize) {V O W : Type} (rt : Runtime V O W)

/-- `let (argPats) = args;` and the wrapped call; what names something else does not compile. -/
def CallExpr.run (body : CallExpr) (argPats : List String) (args : List V) : StateT W Option O :=
  match body.eval (decodedEnv argPats) with
  | none => failure
  | some (name, sources) =>
    match sources.mapM (Source.passed args) with
    | none => failure
    | some passed => rt.call name passed

/-- The generated `Method::call`. -/
def MethodImpl.call (impl : MethodImpl) (args : List V) : StateT W Option O := do
  if impl.guarded then guardNotPayable
  impl.body.run rt impl.argPats args

/-- The generated `impl Method`. -/
def MethodImpl.toMethod (impl : MethodImpl) : Method W where
  Args := List V
  Output := O
  decodeArgs := rt.decodeArgs impl.args
  call := impl.call rt
  encodeOutput := rt.encodeOutput impl.output

/-- The call expression of a method. -/
def MethodImpl.callExpr (impl : MethodImpl) (calldata : List UInt8) : StateT W Option (List UInt8) := do
  match ← (impl.toMethod rt).dispatch calldata with
  | .ok out => return out
  | .error _ => return encodeError u "invalid calldata"

/-- The generated `Contract::deploy`; it panics on arguments that cannot be decoded. -/
def ContractImpl.deploy (c : ContractImpl) (calldata : List UInt8) : StateT W Option Unit :=
  match rt.decodeArgs c.args calldata with
  | .error _ => failure
  | .ok args => do let _ ← c.body.run rt c.argPats args

end Run

/-! ## Running a declared method -/

/-- The handle that goes by a name. -/
def handleNamed? : String → Option HandleKind
  | "Storage" => some .persistent
  | "TransientStorage" => some .transient
  | _ => none

/-- `Storage<T>` or `TransientStorage<T>`, behind a reference or not. -/
def pathHandle? (isMut : Bool) (segments : List PathSegment) : Option HandleParam :=
  segments.getLast?.bind fun
    | .mk ident (.angleBracketed args) =>
      (handleNamed? ident).bind fun kind =>
        match args.filterMap GenericArgument.ty? with
        | [layoutTy] => some ⟨kind, isMut, layoutTy⟩
        | _ => none
    | _ => none

/-- The handle that a parameter is written to take. -/
def Ty.handle? : Ty → Option HandleParam
  | path segments => pathHandle? false segments
  | reference isMut (path segments) => pathHandle? isMut segments
  | _ => none

/-- What the parameters receive, one after another: a handle where one is written, else the next argument. -/
def passedTo {V : Type} : List FnArg → List V → List (Passed V)
  | .typed ty :: params, args =>
    match ty.handle? with
    | some h => .handle h.kind h.isMut h.layoutTy :: passedTo params args
    | none =>
      match args with
      | v :: args => .arg v :: passedTo params args
      | [] => []
  | _, _ => []

namespace ImplItemFn

variable (u : Usize) {V O W : Type} (rt : Runtime V O W) (m : ImplItemFn)

/-- The types of the parameters that are no handles. -/
def abiTypes : List Ty := m.inputs.filterMap FnArg.abiTy?

/-- A call of the function that is declared, with some arguments. -/
def call (args : List V) : StateT W Option O := rt.call m.ident (passedTo m.inputs args)

/-- **A call of a method, from its declaration**: its arguments are decoded, the function is called, its output is
encoded; the invalid-calldata payload when decoding fails. -/
def run (calldata : List UInt8) : StateT W Option (List UInt8) :=
  match rt.decodeArgs m.abiTypes calldata with
  | .error _ => pure (encodeError u "invalid calldata")
  | .ok args => do return rt.encodeOutput m.output (← m.call rt args)

/-- The same of a constructor, which returns nothing and panics when decoding fails. -/
def construct (calldata : List UInt8) : StateT W Option Unit :=
  match rt.decodeArgs m.abiTypes calldata with
  | .error _ => failure
  | .ok args => do let _ ← m.call rt args

end ImplItemFn

/-! ## A method runs as it is declared -/

theorem NamesHandle.handle? {ty : Ty} {h : HandleParam} (hty : NamesHandle ty h) : ty.handle? = some h := by
  have hpath : ∀ {segments kind layoutTy} (isMut : Bool), IsHandlePath segments kind layoutTy →
      pathHandle? isMut segments = some ⟨kind, isMut, layoutTy⟩ := by
    rintro segments kind layoutTy isMut ⟨ident, args, hlast, rfl, hargs⟩
    cases kind <;> simp [pathHandle?, hlast, hargs, handleNamed?, HandleKind.name]
  cases hty with
  | value h => exact hpath false h
  | reference isMut h => exact hpath isMut h

theorem handle?_of_not_isHandleParam {ty : Ty} (h : isHandleParam ty = false) : ty.handle? = none := by
  have hpath : ∀ {segments} (isMut : Bool), isHandleParam (.path segments) = false →
      pathHandle? isMut segments = none := by
    intro segments isMut hparam
    rw [pathHandle?]
    rcases hlast : segments.getLast? with _ | ⟨ident, arguments⟩
    · rfl
    have hnamed : handleNamed? ident = none := by
      rw [isHandleParam, hlast] at hparam
      unfold handleNamed?
      split <;> simp_all [PathSegment.ident]
    cases arguments <;> simp [hnamed]
  cases ty with
  | path segments => exact hpath false h
  | reference isMut elem =>
    cases elem with
    | path segments => exact hpath isMut (by rwa [isHandleParam] at h)
    | reference _ _ => rfl
    | array _ _ => rfl
    | other _ => rfl
  | array _ _ => rfl
  | other _ => rfl

/-- The value of a handle parameter. -/
def HandleParam.asPassed (V : Type) (h : HandleParam) : Passed V := .handle h.kind h.isMut h.layoutTy

section

variable {V : Type}

/-- The parameters of an accepted method receive the handles and then the arguments. -/
theorem passedTo_split {handleTys abiTypes : List Ty} {handles : List HandleParam}
    (hnamed : List.Forall₂ NamesHandle handleTys handles) (habi : ∀ ty ∈ abiTypes, isHandleParam ty = false)
    {args : List V} (hlen : args.length = abiTypes.length) :
    passedTo ((handleTys ++ abiTypes).map .typed) args = handles.map (HandleParam.asPassed V) ++ args.map .arg := by
  induction hnamed with
  | nil =>
    induction abiTypes generalizing args with
    | nil =>
      obtain rfl : args = [] := List.eq_nil_of_length_eq_zero hlen
      rfl
    | cons ty abiTypes ih =>
      obtain ⟨v, args, rfl⟩ := List.exists_cons_of_length_eq_add_one hlen
      obtain ⟨hty, htypes⟩ := List.forall_mem_cons.mp habi
      simp only [List.nil_append, List.map_cons, passedTo, handle?_of_not_isHandleParam hty]
      exact congrArg (.arg v :: ·) (ih htypes (Nat.succ.inj hlen))
  | cons hty _ ih =>
    simp only [List.cons_append, List.map_cons, passedTo, hty.handle?, ih]
    rfl

/-- The sources of the generated call are the handles and the arguments. -/
theorem mapM_passed (handles : List HandleParam) (args : List V) :
    (handles.map HandleParam.source ++ (List.range args.length).map Source.arg).mapM (Source.passed args) =
      some (handles.map (HandleParam.asPassed V) ++ args.map .arg) := by
  refine mapM_eq_some_iff.mpr (List.rel_append ?_ ?_)
  · rw [List.forall₂_map_left_iff, List.forall₂_map_right_iff, List.forall₂_same]
    exact fun h _ => rfl
  · rw [List.forall₂_map_left_iff, List.forall₂_map_right_iff, List.forall₂_iff_get]
    refine ⟨by simp, fun i hi hi' => ?_⟩
    simp [Source.passed, hi']

variable {O W : Type} (rt : Runtime V O W)

/-- **The expanded call is a call of the method.** -/
theorem run_of_expandCall {m : ImplItemFn} {args : List Ty} {argPats : List String} {body : CallExpr}
    (h : expandCall m = .ok (args, argPats, body)) :
    args = m.abiTypes ∧ ∀ values : List V, values.length = args.length →
      body.run rt argPats values = m.call rt values := by
  obtain ⟨handles, hsplit, rfl, rfl⟩ := expandCall_ok h
  obtain ⟨handleTys, hs⟩ := split_of_ok hsplit
  refine ⟨hs.filterMap_abiTy?.symm, fun values hlen => ?_⟩
  simp only [CallExpr.run, eval_expandedCall m.ident hs.kinds, ← hlen, mapM_passed]
  rw [ImplItemFn.call, hs.params, passedTo_split hs.named hs.abi hlen]

variable (u : Usize)

/-- **An expanded method runs as it is declared.** -/
theorem callExpr_eq {m : ImplItemFn} {marker : String} {sel : Selector} {isPayable : Bool} {impl : MethodImpl}
    (h : expandMethod m marker sel isPayable = .ok impl) (calldata : List UInt8) :
    impl.callExpr u rt calldata = m.run u rt calldata := by
  rw [expandMethod, bind_eq_ok] at h
  obtain ⟨⟨args, argPats, body⟩, hcall, h⟩ := h
  cases h
  obtain ⟨rfl, hrun⟩ := run_of_expandCall rt hcall
  rw [MethodImpl.callExpr, Method.dispatch, ImplItemFn.run]
  cases hdecode : rt.decodeArgs m.abiTypes calldata with
  | error e => simp [MethodImpl.toMethod, hdecode]
  | ok values =>
    simp only [MethodImpl.toMethod, hdecode, MethodImpl.call, hrun values (rt.length_decoded hdecode)]
    cases isPayable <;> simp [guardNotPayable]

/-- An expanded constructor runs as it is declared. -/
theorem deploy_eq {m : ImplItemFn} {c : ContractImpl} (h : expandConstructor m = .ok c) (calldata : List UInt8) :
    c.deploy rt calldata = m.construct rt calldata := by
  obtain ⟨-, hcall⟩ := expandConstructor_ok h
  obtain ⟨hargs, hrun⟩ := run_of_expandCall rt hcall
  rw [ContractImpl.deploy, ImplItemFn.construct, hargs]
  cases hdecode : rt.decodeArgs m.abiTypes calldata with
  | error e => rfl
  | ok values =>
    have hlen : values.length = c.args.length := hargs ▸ rt.length_decoded hdecode
    simp only [hrun values hlen]

end

end RustEvm.Macros
