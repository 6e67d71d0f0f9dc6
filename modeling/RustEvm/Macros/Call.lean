import RustEvm.Lib.Fallible
import RustEvm.Abi.Names
import RustEvm.Macros.Contract

/-!
# RustEvm.Macros.Call — signature, arguments and generated call of a method

Two walks go over the parameters of a method: `ethSignature` filters out the handles, `splitHandleParams` takes them off
the front.  `Split` is what the second one knows at every parameter; with it the signature lists the `Args`, and the
generated call, evaluated under the scoping of its closures, passes each handle and then each decoded argument
(`linesUp_of_expandCall`).
-/

namespace RustEvm.Macros

open Abi Fallible

/-! ## Parameters -/

/-- A path to `Storage<T>` or `TransientStorage<T>`. -/
def IsHandlePath (segments : List PathSegment) (kind : HandleKind) (layoutTy : Ty) : Prop :=
  ∃ ident args, segments.getLast? = some (.mk ident (.angleBracketed args)) ∧ ident = kind.name ∧
    args.filterMap GenericArgument.ty? = [layoutTy]

/-- The type of a handle parameter: the path itself, or one reference to it. -/
inductive NamesHandle : Ty → HandleParam → Prop
  | value {segments : List PathSegment} {kind : HandleKind} {layoutTy : Ty}
      (h : IsHandlePath segments kind layoutTy) : NamesHandle (.path segments) ⟨kind, false, layoutTy⟩
  | reference {segments : List PathSegment} {kind : HandleKind} {layoutTy : Ty} (isMut : Bool)
      (h : IsHandlePath segments kind layoutTy) :
      NamesHandle (.reference isMut (.path segments)) ⟨kind, isMut, layoutTy⟩

theorem NamesHandle.isHandleParam {ty : Ty} {h : HandleParam} (hty : NamesHandle ty h) :
    isHandleParam ty = true := by
  have hpath : ∀ {segments kind layoutTy}, IsHandlePath segments kind layoutTy →
      Macros.isHandleParam (.path segments) = true := by
    rintro segments kind layoutTy ⟨ident, args, hlast, rfl, -⟩
    cases kind <;> simp [Macros.isHandleParam, hlast, PathSegment.ident, HandleKind.name]
  cases hty with
  | value h => exact hpath h
  | reference isMut h => rw [Macros.isHandleParam]; exact hpath h

theorem isHandlePath_of_ok {segments : List PathSegment} {layoutTy : Ty}
    (hparam : isHandleParam (.path segments) = true)
    (h : handleLayoutTy (.path segments) (handleKind (.path segments)) = .ok layoutTy) :
    IsHandlePath segments (handleKind (.path segments)) layoutTy := by
  rw [isHandleParam] at hparam
  rcases hlast : segments.getLast? with _ | ⟨ident, arguments⟩
  · simp [hlast] at hparam
  have hkind : ident = (handleKind (.path segments)).name := by
    rw [hlast, Option.any_some, PathSegment.ident, Bool.or_eq_true, beq_iff_eq, beq_iff_eq] at hparam
    rcases hparam with rfl | rfl <;> simp [handleKind, hlast, PathSegment.ident, HandleKind.name]
  simp only [handleLayoutTy, hlast, PathSegment.arguments] at h
  cases arguments with
  | none => cases h
  | parenthesized => cases h
  | angleBracketed args =>
    simp only at h
    rcases hargs : args.filterMap GenericArgument.ty? with _ | ⟨ty, _ | ⟨ty', tys⟩⟩
    · rw [hargs] at h
      cases h
    · rw [hargs] at h
      cases h
      exact ⟨ident, args, hlast, hkind, hargs⟩
    · rw [hargs] at h
      cases h

theorem namesHandle_of_ok {ty layoutTy : Ty} (hparam : isHandleParam ty = true)
    (h : handleLayoutTy ty (handleKind ty) = .ok layoutTy) :
    NamesHandle ty ⟨handleKind ty, ty.isMutRef, layoutTy⟩ := by
  cases ty with
  | path segments => exact .value (isHandlePath_of_ok hparam h)
  | reference isMut elem =>
    cases elem with
    | path segments => exact .reference isMut (isHandlePath_of_ok hparam h)
    | reference _ elem => cases h
    | array elem len => cases hparam
    | other tokens => cases hparam
  | array elem len => cases hparam
  | other tokens => cases hparam

/-- What `splitHandleParams` knows after the parameters `seen`. -/
structure Split (seen : List FnArg) (handleTys : List Ty) (handles : List HandleParam) (abiTypes : List Ty) :
    Prop where
  params : seen = (handleTys ++ abiTypes).map .typed
  named : List.Forall₂ NamesHandle handleTys handles
  kinds : (handles.map HandleParam.kind).Nodup
  abi : ∀ ty ∈ abiTypes, isHandleParam ty = false

theorem splitParam_ok {seen : List FnArg} {arg : FnArg} {handleTys : List Ty} {handles handles' : List HandleParam}
    {abiTypes abiTypes' : List Ty} (hs : Split seen handleTys handles abiTypes)
    (h : splitParam (handles, abiTypes) arg = .ok (handles', abiTypes')) :
    ∃ handleTys', Split (seen ++ [arg]) handleTys' handles' abiTypes' := by
  cases arg with
  | receiver => cases h
  | typed ty =>
    rw [splitParam] at h
    cases hparam : isHandleParam ty with
    | false =>
      rw [hparam] at h
      cases h
      refine ⟨handleTys, by simp [hs.params], hs.named, hs.kinds, ?_⟩
      rw [List.forall_mem_append, List.forall_mem_singleton]
      exact ⟨hs.abi, hparam⟩
    | true =>
      rw [hparam, Bool.not_true, if_neg Bool.false_ne_true] at h
      simp only at h
      split_ifs at h with hkind habi
      obtain ⟨layoutTy, hlayout, h⟩ := bind_eq_ok.mp h
      cases h
      obtain rfl : abiTypes = [] := by simpa using habi
      refine ⟨handleTys ++ [ty], by simp [hs.params], ?_, ?_, by simp⟩
      · exact List.rel_append hs.named (.cons (namesHandle_of_ok hparam hlayout) .nil)
      · rw [List.map_append, List.map_singleton, ← List.concat_eq_append]
        refine hs.kinds.concat fun hmem => hkind ?_
        obtain ⟨h', hh', heq⟩ := List.mem_map.mp hmem
        exact List.any_eq_true.mpr ⟨h', hh', by simp [heq]⟩

/-- **What an accepted method declares**: handles first, at most one of a kind, then the ABI parameters. -/
theorem split_of_ok {method : ImplItemFn} {handles : List HandleParam} {abiTypes : List Ty}
    (h : splitHandleParams method = .ok (handles, abiTypes)) :
    ∃ handleTys, Split method.inputs handleTys handles abiTypes := by
  have hstep : ∀ (seen : List FnArg) (s : List HandleParam × List Ty) (arg : FnArg) (s' : List HandleParam × List Ty),
      (∃ handleTys, Split seen handleTys s.1 s.2) → splitParam s arg = .ok s' →
        ∃ handleTys, Split (seen ++ [arg]) handleTys s'.1 s'.2 := by
    rintro seen s arg s' ⟨handleTys, hs⟩ harg
    exact splitParam_ok hs harg
  have hstart : ∃ handleTys, Split [] handleTys ([] : List HandleParam) [] :=
    ⟨[], rfl, .nil, List.nodup_nil, by simp⟩
  exact foldlM_invariant (P := fun seen s => ∃ handleTys, Split seen handleTys s.1 s.2) hstep hstart h

/-! ## The signature -/

/-- The walk of the signature sees the ABI parameters. -/
theorem filterMap_abiTy? {handleTys abiTypes : List Ty} (hhandles : ∀ ty ∈ handleTys, isHandleParam ty = true)
    (habi : ∀ ty ∈ abiTypes, isHandleParam ty = false) :
    ((handleTys ++ abiTypes).map FnArg.typed).filterMap FnArg.abiTy? = abiTypes := by
  rw [List.map_append, List.filterMap_append, List.filterMap_map, List.filterMap_map]
  have hnone : handleTys.filterMap (FnArg.abiTy? ∘ FnArg.typed) = [] :=
    List.filterMap_eq_nil_iff.mpr fun ty hty => if_pos (hhandles ty hty)
  have hsome : ∀ ty ∈ abiTypes, (FnArg.abiTy? ∘ FnArg.typed) ty = some ty :=
    fun ty hty => if_neg (by rw [habi ty hty]; exact Bool.false_ne_true)
  rw [hnone, List.nil_append, List.filterMap_congr hsome, List.filterMap_some]

theorem Split.handleTys {seen : List FnArg} {handleTys : List Ty} {handles : List HandleParam} {abiTypes : List Ty}
    (hs : Split seen handleTys handles abiTypes) : ∀ ty ∈ handleTys, isHandleParam ty = true := by
  intro ty hty
  obtain ⟨k, hk, rfl⟩ := List.getElem_of_mem hty
  exact (hs.named.get hk (hs.named.length_eq ▸ hk)).isHandleParam

theorem Split.filterMap_abiTy? {seen : List FnArg} {handleTys : List Ty} {handles : List HandleParam}
    {abiTypes : List Ty} (hs : Split seen handleTys handles abiTypes) : seen.filterMap FnArg.abiTy? = abiTypes := by
  rw [hs.params]
  exact Macros.filterMap_abiTy? hs.handleTys hs.abi

theorem isTypeName_solidityTypeName (ident : String) : IsTypeName (solidityTypeName ident) := by
  unfold solidityTypeName
  split <;> decide

theorem isTypeName_rustTyToSolidity : ∀ ty : Ty, IsTypeName (rustTyToSolidity ty)
  | .path _ => isTypeName_solidityTypeName _
  | .reference _ elem => isTypeName_rustTyToSolidity elem
  | .array _ _ | .other _ => show IsTypeName "bytes32" by decide

/-- The text lists these types; it cannot be read as a list of any others. -/
def Lists (sig name : String) (types : List String) : Prop :=
  sig = signatureText name types ∧
    ∀ types', (∀ s ∈ types', IsTypeName s) → sig = signatureText name types' → types' = types

theorem lists_signatureText (name : String) (tys : List Ty) :
    Lists (signatureText name (tys.map rustTyToSolidity)) name (tys.map rustTyToSolidity) := by
  refine ⟨rfl, fun types' htypes' heq => (signatureText_inj ?_ htypes' heq).symm⟩
  intro s hs
  obtain ⟨ty, -, rfl⟩ := List.mem_map.mp hs
  exact isTypeName_rustTyToSolidity ty

/-- Without an override the signature is the text of the ABI types. -/
theorem ethSignature_eq {host : Host} {method : ImplItemFn} (hsel : selectorOverride method = .ok none) :
    ethSignature host method = .ok (signatureText (camelCase host method.ident)
      ((method.inputs.filterMap FnArg.abiTy?).map rustTyToSolidity)) := by
  rw [ethSignature, hsel]
  rfl

/-- A method with other parameters. -/
def ImplItemFn.withParams (method : ImplItemFn) (tys : List Ty) : ImplItemFn :=
  { method with inputs := tys.map .typed }

/-- The signature depends on the parameters through their ABI types only. -/
theorem ethSignature_withParams {host : Host} {method : ImplItemFn} {tys : List Ty}
    (h : (tys.map FnArg.typed).filterMap FnArg.abiTy? = method.inputs.filterMap FnArg.abiTy?) :
    ethSignature host (method.withParams tys) = ethSignature host method := by
  unfold ethSignature
  have hsel : selectorOverride (method.withParams tys) = selectorOverride method := rfl
  rw [hsel]
  show (selectorOverride method >>= fun o => _) = _
  simp only [ImplItemFn.withParams, h]

/-! ## The generated call -/

/-- What a name stands for in the generated code: a component of the decoded arguments, or a handle. -/
inductive Source
  | arg (i : ℕ)
  | handle (kind : HandleKind) (isMut : Bool) (layoutTy : Ty)

/-- The handle a helper of the runtime hands its closure: of which kind, and whether mutably. -/
def helperHandle : String → Option (HandleKind × Bool)
  | "::std_evm::with_storage" => some (.persistent, false)
  | "::std_evm::with_storage_mut" => some (.persistent, true)
  | "::std_evm::with_transient_storage" => some (.transient, false)
  | "::std_evm::with_transient_storage_mut" => some (.transient, true)
  | _ => none

namespace CallExpr

/-- The call that is made, with what its arguments stand for; every closure binds its name for its body. -/
def eval (env : List (String × Source)) : CallExpr → Option (String × List Source)
  | call name args => (args.mapM fun a => env.lookup a).map fun sources => (name, sources)
  | closure helper layoutTy binding body =>
    (helperHandle helper).bind fun handle => body.eval ((binding, .handle handle.1 handle.2 layoutTy) :: env)

/-- The closures around the call, the outermost first. -/
def closures : CallExpr → List (String × Ty × String)
  | call _ _ => []
  | closure helper layoutTy binding body => (helper, layoutTy, binding) :: body.closures

/-- The function that is called. -/
def callee : CallExpr → String
  | call name _ => name
  | closure _ _ _ body => body.callee

end CallExpr

/-- The names bound to the components of the decoded arguments. -/
def decodedEnv (argPats : List String) : List (String × Source) :=
  argPats.zipIdx.map fun (pat, i) => (pat, .arg i)

namespace HandleParam

def source (h : HandleParam) : Source := .handle h.kind h.isMut h.layoutTy

def bound (h : HandleParam) : String × Source := (h.kind.binding, h.source)

theorem helperHandle_helper (h : HandleParam) : helperHandle h.helper = some (h.kind, h.isMut) := by
  rcases h with ⟨kind, isMut, layoutTy⟩
  cases kind <;> cases isMut <;> rfl

end HandleParam

section

variable (h : HandleParam) (handles : List HandleParam) (inner : CallExpr)

@[simp] theorem wrapWithHandles_nil : wrapWithHandles [] inner = inner := rfl

@[simp] theorem wrapWithHandles_cons : wrapWithHandles (h :: handles) inner =
    .closure h.helper h.layoutTy h.kind.binding (wrapWithHandles handles inner) := by
  simp [wrapWithHandles]

/-- The call runs with all handles bound. -/
theorem eval_wrapWithHandles (env : List (String × Source)) :
    (wrapWithHandles handles inner).eval env = inner.eval ((handles.map HandleParam.bound).reverse ++ env) := by
  induction handles generalizing env with
  | nil => rfl
  | cons h handles ih =>
    rw [wrapWithHandles_cons, CallExpr.eval, h.helperHandle_helper, Option.bind_some, ih]
    simp [HandleParam.bound, HandleParam.source]

theorem closures_wrapWithHandles : (wrapWithHandles handles inner).closures =
    handles.map (fun h => (h.helper, h.layoutTy, h.kind.binding)) ++ inner.closures := by
  induction handles with
  | nil => rfl
  | cons h handles ih => rw [wrapWithHandles_cons, CallExpr.closures, ih, List.map_cons, List.cons_append]

theorem callee_wrapWithHandles : (wrapWithHandles handles inner).callee = inner.callee := by
  induction handles with
  | nil => rfl
  | cons h handles ih => rw [wrapWithHandles_cons, CallExpr.callee, ih]

end

/-! ### Names -/

/-- Where no name is bound twice, every name stands for what it is bound to. -/
theorem mapM_lookup {κ ν : Type*} [DecidableEq κ] {env pairs : List (κ × ν)} (hnodup : (env.map Prod.fst).Nodup)
    (hsub : ∀ p ∈ pairs, p ∈ env) :
    (pairs.map Prod.fst).mapM (fun k => env.lookup k) = some (pairs.map Prod.snd) := by
  have hlookup : ∀ p ∈ env, env.lookup p.1 = some p.2 := by
    intro p hp
    obtain ⟨pre, post, rfl⟩ := List.append_of_mem hp
    rw [List.map_append, List.map_cons] at hnodup
    refine List.lookup_eq_some_iff.mpr ⟨pre, post, rfl, fun q hq => ?_⟩
    have hne := (List.nodup_append.mp hnodup).2.2 q.1 (List.mem_map_of_mem hq) p.1 (List.mem_cons_self ..)
    simpa using hne.symm
  induction pairs with
  | nil => rfl
  | cons p pairs ih =>
    obtain ⟨hp, hpairs⟩ := List.forall_mem_cons.mp hsub
    rw [List.map_cons, List.mapM_cons, hlookup p hp, ih hpairs]
    rfl

theorem binding_injective : Function.Injective HandleKind.binding := by
  intro a b
  cases a <;> cases b <;> simp [HandleKind.binding]

theorem nodup_argPatIdents (n : ℕ) : (argPatIdents n).Nodup := by
  refine List.nodup_range.map fun i j h => ?_
  have hstr : ∀ s : String, toString s = s := fun _ => rfl
  have hdigits : Nat.toDigits 10 i = Nat.toDigits 10 j := by
    simpa [hstr] using congrArg String.toList h
  rw [← Nat.ofDigitChars_toDigits (n := i) (by decide) le_rfl, hdigits,
    Nat.ofDigitChars_toDigits (by decide) le_rfl]

theorem binding_notMem_argPatIdents (kind : HandleKind) (n : ℕ) : kind.binding ∉ argPatIdents n := by
  intro hmem
  obtain ⟨i, -, heq⟩ := List.mem_map.mp hmem
  have hstr : ∀ s : String, toString s = s := fun _ => rfl
  have hhead := congrArg (fun s => s.toList.head?) heq
  cases kind <;> simp [HandleKind.binding, hstr] at hhead

/-- The call of a method passes its handles in order, and then the decoded arguments in order. -/
theorem eval_expandedCall (name : String) {handles : List HandleParam} (hkinds : (handles.map HandleParam.kind).Nodup)
    (n : ℕ) :
    (wrapWithHandles handles (.call name (handles.map (fun h => h.kind.binding) ++ argPatIdents n))).eval
        (decodedEnv (argPatIdents n)) =
      some (name, handles.map HandleParam.source ++ (List.range n).map .arg) := by
  have henv : (decodedEnv (argPatIdents n)).map Prod.fst = argPatIdents n := by
    simp [decodedEnv, Function.comp_def]
  have hsources : (decodedEnv (argPatIdents n)).map Prod.snd = (List.range n).map .arg := by
    apply List.ext_getElem?
    intro k
    by_cases hk : k < n <;> simp [decodedEnv, argPatIdents, hk]
  have hbound : (handles.map HandleParam.bound).map Prod.fst = handles.map fun h => h.kind.binding := by
    simp [HandleParam.bound, Function.comp_def]
  have hbindings : (handles.map fun h => h.kind.binding).Nodup := by
    have h := hkinds.map binding_injective
    rwa [List.map_map] at h
  rw [eval_wrapWithHandles, CallExpr.eval]
  have hnodup : (((handles.map HandleParam.bound).reverse ++ decodedEnv (argPatIdents n)).map Prod.fst).Nodup := by
    rw [List.map_append, List.map_reverse, hbound, henv]
    refine List.nodup_append.mpr ⟨List.nodup_reverse.mpr hbindings, nodup_argPatIdents n, ?_⟩
    rintro a ha b hb rfl
    obtain ⟨h, -, rfl⟩ := List.mem_map.mp (List.mem_reverse.mp ha)
    exact binding_notMem_argPatIdents h.kind n hb
  have hsub : ∀ p ∈ handles.map HandleParam.bound ++ decodedEnv (argPatIdents n),
      p ∈ (handles.map HandleParam.bound).reverse ++ decodedEnv (argPatIdents n) := by
    intro p hp
    simpa using hp
  have hlookup := mapM_lookup hnodup hsub
  rw [List.map_append, List.map_append, hbound, henv, hsources, List.map_map] at hlookup
  rw [hlookup]
  rfl

/-! ## Lining up -/

/-- The parameters of a method, its signature, its `Args` and its generated call belong together. -/
structure LinesUp (host : Host) (method : ImplItemFn) (handleTys : List Ty) (handles : List HandleParam)
    (args : List Ty) (argPats : List String) (body : CallExpr) : Prop extends
    Split method.inputs handleTys handles args where
  /-- Without an override the signature has one type per element of `Args`. -/
  signature : selectorOverride method = .ok none → ∃ sig, ethSignature host method = .ok sig ∧
    Lists sig (camelCase host method.ident) (args.map rustTyToSolidity)
  pats : argPats.length = args.length
  /-- The call passes the handles and then the decoded arguments. -/
  call : body.eval (decodedEnv argPats) =
    some (method.ident, handles.map HandleParam.source ++ (List.range args.length).map .arg)
  /-- There is one closure per handle, and no two bind the same name. -/
  closures : body.closures = handles.map fun h => (h.helper, h.layoutTy, h.kind.binding)
  once : (body.closures.map fun c => c.2.2).Nodup
  /-- Any handles in front give the same signature and, where they are accepted, the same `Args`. -/
  swap : ∀ tys : List Ty, (∀ ty ∈ tys, isHandleParam ty = true) →
    ethSignature host (method.withParams (tys ++ args)) = ethSignature host method ∧
      ∀ expanded, expandCall (method.withParams (tys ++ args)) = .ok expanded → expanded.1 = args

theorem expandCall_ok {method : ImplItemFn} {args : List Ty} {argPats : List String} {body : CallExpr}
    (h : expandCall method = .ok (args, argPats, body)) :
    ∃ handles, splitHandleParams method = .ok (handles, args) ∧ argPats = argPatIdents args.length ∧
      body = wrapWithHandles handles
        (.call method.ident (handles.map (fun h => h.kind.binding) ++ argPatIdents args.length)) := by
  rw [expandCall, bind_eq_ok] at h
  obtain ⟨⟨handles, abiTypes⟩, hsplit, h⟩ := h
  cases h
  exact ⟨handles, hsplit, rfl, rfl⟩

theorem expandMethod_ok {m : ImplItemFn} {marker : String} {sel : Selector} {isPayable : Bool} {impl : MethodImpl}
    (h : expandMethod m marker sel isPayable = .ok impl) :
    impl.method = m ∧ impl.selector = sel ∧ expandCall m = .ok (impl.args, impl.argPats, impl.body) := by
  rw [expandMethod, bind_eq_ok] at h
  obtain ⟨⟨args, argPats, body⟩, hcall, h⟩ := h
  cases h
  exact ⟨rfl, rfl, hcall⟩

theorem expandConstructor_ok {m : ImplItemFn} {c : ContractImpl} (h : expandConstructor m = .ok c) :
    c.method = m ∧ expandCall m = .ok (c.args, c.argPats, c.body) := by
  rw [expandConstructor] at h
  cases hout : m.output.isSome with
  | true =>
    rw [hout] at h
    cases h
  | false =>
    rw [hout, if_neg Bool.false_ne_true] at h
    obtain ⟨⟨args, argPats, body⟩, hcall, h⟩ := bind_eq_ok.mp h
    cases h
    exact ⟨rfl, hcall⟩

/-- **The expanded call of a method lines up** with its parameters and its signature. -/
theorem linesUp_of_expandCall (host : Host) {method : ImplItemFn} {args : List Ty} {argPats : List String}
    {body : CallExpr} (h : expandCall method = .ok (args, argPats, body)) :
    ∃ handleTys handles, LinesUp host method handleTys handles args argPats body := by
  obtain ⟨handles, hsplit, rfl, rfl⟩ := expandCall_ok h
  obtain ⟨handleTys, hs⟩ := split_of_ok hsplit
  have hclosures := closures_wrapWithHandles handles
    (.call method.ident (handles.map (fun h => h.kind.binding) ++ argPatIdents args.length))
  rw [CallExpr.closures, List.append_nil] at hclosures
  refine ⟨handleTys, handles, { hs with
    signature := fun hsel => ⟨_, ethSignature_eq hsel, ?_⟩
    pats := by simp [argPatIdents]
    call := eval_expandedCall method.ident hs.kinds args.length
    closures := hclosures
    once := ?_
    swap := fun tys htys => ?_ }⟩
  · rw [hs.filterMap_abiTy?]
    exact lists_signatureText _ args
  · have hnodup := hs.kinds.map binding_injective
    rw [hclosures, List.map_map]
    rwa [List.map_map] at hnodup
  · have habi := filterMap_abiTy? htys hs.abi
    refine ⟨ethSignature_withParams (habi.trans hs.filterMap_abiTy?.symm), ?_⟩
    rintro ⟨args', argPats', body'⟩ hexp
    obtain ⟨handles', hsplit', -⟩ := expandCall_ok hexp
    obtain ⟨handleTys', hs'⟩ := split_of_ok hsplit'
    exact hs'.filterMap_abiTy?.symm.trans habi

end RustEvm.Macros
