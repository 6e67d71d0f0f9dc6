import RustEvm.Macros.Runtime

/-!
# RustEvm.Macros.Dispatch — where the generated dispatch sends a call

`DispatchImpl.dispatch` is the generated function, on any runtime and any state.  `Exposed` says what the loop over
the impl block has collected at every point; from it, `target_eq` gives the method a call reaches in terms of the block
alone, and `dispatch_eq` that the call runs that method as it is declared.  `intendedTarget` is where the call should
go.  The two agree on a call if and only if `WellRouted` holds (`dispatch_routes_iff`): the branch of the `#[receive]`
method stands before the match over the selectors, and takes every call with a value whose arguments are empty.
-/

namespace RustEvm.Macros

open Abi Fallible

/-! ## The generated dispatch -/

/-- The arm of the match over the selectors. -/
def DispatchImpl.arm (d : DispatchImpl) (selector : Selector) : Option MethodImpl :=
  (d.arms.find? fun arm => arm.1 == selector).map Prod.snd

section Run

variable (u : Usize) {V O W : Type}

/-- The generated `Dispatch::dispatch`. -/
def DispatchImpl.dispatch (d : DispatchImpl) (rt : Runtime V O W) (selector : Selector) (calldata : List UInt8)
    (value : U256) : StateT W Option (List UInt8) :=
  let matched := match d.arm selector with
    | some impl => impl.callExpr u rt calldata
    | none => match d.fallbackBranch with
      | some impl => impl.callExpr u rt calldata
      | none => pure []
  match d.receiveBranch with
  | some impl => if calldata.isEmpty && value != U256.zero then impl.callExpr u rt calldata else matched
  | none => matched

/-- The run of a target; without one, the empty payload of `no_matching_method`. -/
def runTarget (rt : Runtime V O W) (calldata : List UInt8) : Option ImplItemFn → StateT W Option (List UInt8)
  | some m => m.run u rt calldata
  | none => pure []

/-- The generated method that takes a call. -/
def DispatchImpl.taker (d : DispatchImpl) (selector : Selector) (calldata : List UInt8) (value : U256) :
    Option MethodImpl :=
  let received := if calldata.isEmpty && value != U256.zero then d.receiveBranch else none
  received.or ((d.arm selector).or d.fallbackBranch)

/-- The method it was generated from. -/
def DispatchImpl.target (d : DispatchImpl) (selector : Selector) (calldata : List UInt8) (value : U256) :
    Option ImplItemFn :=
  (d.taker selector calldata value).map MethodImpl.method

theorem dispatch_eq_taker (d : DispatchImpl) (rt : Runtime V O W) (selector : Selector) (calldata : List UInt8)
    (value : U256) : d.dispatch u rt selector calldata value =
      (d.taker selector calldata value).elim (pure []) fun impl => impl.callExpr u rt calldata := by
  rw [DispatchImpl.dispatch, DispatchImpl.taker]
  by_cases hc : (calldata.isEmpty && value != U256.zero) = true
  · simp only [if_pos hc]
    cases d.receiveBranch <;> cases d.arm selector <;> cases d.fallbackBranch <;> rfl
  · simp only [if_neg hc]
    cases d.receiveBranch <;> cases d.arm selector <;> cases d.fallbackBranch <;> rfl

/-- Functions that do nothing but leave their name behind. -/
def recorder : Runtime Unit Unit (Option String) where
  decodeArgs tys _ := .ok (List.replicate tys.length ())
  length_decoded h := by rw [← Except.ok.inj h, List.length_replicate]
  call name _ := set (some name)
  encodeOutput _ _ := []

theorem runTarget_recorder (calldata : List UInt8) (t : Option ImplItemFn) :
    runTarget u recorder calldata t none = some ([], t.map ImplItemFn.ident) := by
  cases t <;> rfl

end Run

/-! ## Roles -/

/-- A public method that is no constructor; the loop generates an `impl Method` for it. -/
def ImplItemFn.isExposed (m : ImplItemFn) : Bool := m.vis = .pub && !hasAttr m "constructor"

/-- An exposed method with no role of its own; it is reached by its selector. -/
def ImplItemFn.isMethod (m : ImplItemFn) : Bool :=
  m.isExposed && (!hasAttr m "fallback" && !hasAttr m "receive")

/-- An exposed method that the loop makes the fallback. -/
def ImplItemFn.isFallback (m : ImplItemFn) : Bool := m.isExposed && hasAttr m "fallback"

/-- An exposed method that the loop puts into the receive branch. -/
def ImplItemFn.isReceive (m : ImplItemFn) : Bool :=
  (m.isExposed && !hasAttr m "fallback") && hasAttr m "receive"

/-- The methods of a block that a selector can reach. -/
def ItemImpl.methods (block : ItemImpl) : List ImplItemFn := block.fns.filter ImplItemFn.isMethod

section Block

variable (host : Host)

def selectorOf? (m : ImplItemFn) : Option Selector := (ethSignature host m).toOption.map host.selector

/-- The `impl Method` generated for a method. -/
def ExpandsTo (m : ImplItemFn) (impl : MethodImpl) : Prop :=
  ∃ sig marker, ethSignature host m = .ok sig ∧
    expandMethod m marker (host.selector sig) (hasAttr m "payable") = .ok impl

/-- What a call can be sent to. -/
def Loop.takers (l : Loop) : List MethodImpl :=
  l.dispatchArms.map Prod.snd ++ (l.fallbackCall.toList ++ l.receiveCall.toList)

/-- What the loop has collected for the dispatch after the methods `fns`. -/
structure Exposed (fns : List ImplItemFn) (l : Loop) : Prop where
  arms : l.dispatchArms.map (fun arm => (some arm.1, arm.2.method)) =
    (fns.filter ImplItemFn.isMethod).map fun m => (selectorOf? host m, m)
  seen : l.seenSelectors.map Prod.fst = l.dispatchArms.map Prod.fst
  distinct : (l.dispatchArms.map Prod.fst).Nodup
  fallback : l.fallbackCall.map MethodImpl.method = fns.reverse.find? ImplItemFn.isFallback
  receive : l.receiveCall.map MethodImpl.method = fns.reverse.find? ImplItemFn.isReceive
  expanded : ∀ impl ∈ l.takers, ExpandsTo host impl.method impl

variable {host}

theorem Exposed.setItems {fns : List ImplItemFn} {l : Loop} (hl : Exposed host fns l) (items : List ImplItem) :
    Exposed host fns { l with items := items } :=
  ⟨hl.arms, hl.seen, hl.distinct, hl.fallback, hl.receive, hl.expanded⟩

theorem checkSelector_ok {seen seen' : List (Selector × String)} {sel : Selector} {ident : String}
    (h : checkSelector seen sel ident = .ok seen') :
    sel ∉ seen.map Prod.fst ∧ seen' = seen ++ [(sel, ident)] := by
  rw [checkSelector] at h
  split at h
  · cases h
  · rename_i hnone
    refine ⟨fun hmem => ?_, (Except.ok.inj h).symm⟩
    obtain ⟨s, hs, rfl⟩ := List.mem_map.mp hmem
    have hne := List.find?_eq_none.mp hnone s hs
    simp at hne

theorem ExpandsTo.method {m : ImplItemFn} {impl : MethodImpl} (h : ExpandsTo host m impl) : impl.method = m := by
  obtain ⟨sig, marker, -, h⟩ := h
  exact (expandMethod_ok h).1

theorem ExpandsTo.selectorOf {m : ImplItemFn} {impl : MethodImpl} (h : ExpandsTo host m impl) :
    selectorOf? host m = some impl.selector := by
  obtain ⟨sig, marker, hsig, h⟩ := h
  rw [selectorOf?, hsig, (expandMethod_ok h).2.1]
  rfl

/-- What a public method that is no constructor adds to the loop. -/
theorem expandExposed_cases {l l' : Loop} {m : ImplItemFn} (h : expandExposed host l m = .ok l') :
    ∃ impl, ExpandsTo host m impl ∧
      (hasAttr m "fallback" = true ∧
          l' = { l with methodImpls := l.methodImpls ++ [impl], fallbackCall := some impl } ∨
        hasAttr m "fallback" = false ∧ hasAttr m "receive" = true ∧
          l' = { l with methodImpls := l.methodImpls ++ [impl], receiveCall := some impl } ∨
        hasAttr m "fallback" = false ∧ hasAttr m "receive" = false ∧ impl.selector ∉ l.seenSelectors.map Prod.fst ∧
          l' = { l with methodImpls := l.methodImpls ++ [impl],
                        seenSelectors := l.seenSelectors ++ [(impl.selector, m.ident)],
                        dispatchArms := l.dispatchArms ++ [(impl.selector, impl)] }) := by
  simp only [expandExposed, bind_eq_ok] at h
  obtain ⟨sig, hsig, seen, hseen, marker, -, impl, himpl, h⟩ := h
  have hexp : ExpandsTo host m impl := ⟨sig, marker, hsig, himpl⟩
  have hsel : host.selector sig = impl.selector := by
    have hsome := hexp.selectorOf
    rw [selectorOf?, hsig] at hsome
    exact Option.some.inj hsome
  rw [hsel] at hseen h
  refine ⟨impl, hexp, ?_⟩
  cases hf : hasAttr m "fallback" with
  | true =>
    rw [hf] at hseen h
    cases hseen
    exact .inl ⟨rfl, (Except.ok.inj h).symm⟩
  | false =>
    cases hr : hasAttr m "receive" with
    | true =>
      rw [hf, hr] at hseen h
      cases hseen
      exact .inr (.inl ⟨rfl, rfl, (Except.ok.inj h).symm⟩)
    | false =>
      rw [hf, hr] at hseen h
      obtain ⟨hnew, rfl⟩ := checkSelector_ok hseen
      exact .inr (.inr ⟨rfl, rfl, hnew, (Except.ok.inj h).symm⟩)

/-- What one method does to the loop, by its visibility and its `#[constructor]`. -/
theorem expandFn_cases {l l' : Loop} {m : ImplItemFn} (h : expandFn host l m = .ok l') :
    m.vis ≠ .pub ∧ l' = l ∨
      m.vis = .pub ∧ hasAttr m "constructor" = true ∧
        (∃ c, expandConstructor m = .ok c ∧ l' = { l with constructorImpl := some c }) ∨
      m.isExposed = true ∧ expandExposed host l m = .ok l' := by
  rw [expandFn] at h
  by_cases hvis : m.vis = .pub
  · right
    rw [if_neg (not_not.mpr hvis)] at h
    cases hc : hasAttr m "constructor" with
    | true =>
      rw [hc, if_pos rfl, bind_eq_ok] at h
      obtain ⟨c, hexp, h⟩ := h
      exact .inl ⟨hvis, rfl, c, hexp, (Except.ok.inj h).symm⟩
    | false =>
      rw [hc, if_neg (by decide)] at h
      exact .inr ⟨by simp [ImplItemFn.isExposed, hvis, hc], h⟩
  · rw [if_pos hvis] at h
    exact .inl ⟨hvis, (Except.ok.inj h).symm⟩

/-- What was expanded from a method names it. -/
theorem map_method_of_rel {t : Option ImplItemFn} {x : Option MethodImpl} (h : Option.Rel (ExpandsTo host) t x) :
    x.map MethodImpl.method = t := by
  cases h with
  | some hexp => exact congrArg some hexp.method
  | none => rfl

theorem ExpandsTo.self {m : ImplItemFn} {impl : MethodImpl} (h : ExpandsTo host m impl) :
    ExpandsTo host impl.method impl := by
  rwa [h.method]

/-- One method adds to what calls are sent to nothing but what it was expanded to. -/
theorem takers_expandFn {l l' : Loop} {m : ImplItemFn} (h : expandFn host l m = .ok l') :
    ∀ impl ∈ l'.takers, impl ∈ l.takers ∨ ExpandsTo host impl.method impl := by
  intro impl' himpl'
  rcases expandFn_cases h with ⟨-, rfl⟩ | ⟨-, -, c, -, rfl⟩ | ⟨-, h⟩
  · exact .inl himpl'
  · exact .inl himpl'
  · obtain ⟨impl, hexp, ⟨-, rfl⟩ | ⟨-, -, rfl⟩ | ⟨-, -, -, rfl⟩⟩ := expandExposed_cases h <;>
    · simp only [Loop.takers, List.map_append, List.mem_append, List.map_singleton, List.mem_singleton,
        Option.toList_some] at himpl' ⊢
      by_cases heq : impl' = impl
      · exact .inr (heq ▸ hexp.self)
      · exact .inl (by tauto)

/-- One method keeps the invariant. -/
theorem Exposed.expandFn {fns : List ImplItemFn} {l l' : Loop} {m : ImplItemFn} (hl : Exposed host fns l)
    (h : expandFn host l m = .ok l') : Exposed host (fns ++ [m]) l' := by
  obtain ⟨harms, hseen, hdistinct, hfallback, hreceive, hexpanded⟩ := hl
  have hexpanded' : ∀ impl ∈ l'.takers, ExpandsTo host impl.method impl :=
    fun impl himpl => (takers_expandFn h impl himpl).elim (hexpanded impl) id
  rcases expandFn_cases h with ⟨hvis, rfl⟩ | ⟨hvis, hc, c, -, rfl⟩ | ⟨hexposed, h⟩
  · refine ⟨?_, ?_, ?_, ?_, ?_, hexpanded'⟩ <;>
      simpa [ImplItemFn.isMethod, ImplItemFn.isFallback, ImplItemFn.isReceive, ImplItemFn.isExposed, hvis]
  · refine ⟨?_, ?_, ?_, ?_, ?_, hexpanded'⟩ <;>
      simpa [ImplItemFn.isMethod, ImplItemFn.isFallback, ImplItemFn.isReceive, ImplItemFn.isExposed, hc]
  · obtain ⟨impl, hexp, ⟨hf, rfl⟩ | ⟨hf, hr, rfl⟩ | ⟨hf, hr, hnew, rfl⟩⟩ := expandExposed_cases h
    · refine ⟨?_, ?_, ?_, ?_, ?_, hexpanded'⟩ <;>
        simp [ImplItemFn.isMethod, ImplItemFn.isFallback, ImplItemFn.isReceive, hexposed, hf, hexp.method, harms,
          hseen, hdistinct, hreceive]
    · refine ⟨?_, ?_, ?_, ?_, ?_, hexpanded'⟩ <;>
        simp [ImplItemFn.isMethod, ImplItemFn.isFallback, ImplItemFn.isReceive, hexposed, hf, hr, hexp.method, harms,
          hseen, hdistinct, hfallback]
    · have hdistinct' : ((l.dispatchArms ++ [(impl.selector, impl)]).map Prod.fst).Nodup := by
        rw [hseen] at hnew
        rw [List.map_append, List.map_singleton, ← List.concat_eq_append]
        exact hdistinct.concat hnew
      refine ⟨?_, ?_, hdistinct', ?_, ?_, hexpanded'⟩ <;>
        simp [ImplItemFn.isMethod, ImplItemFn.isFallback, ImplItemFn.isReceive, hexposed, hf, hr, hexp.method, harms,
          hseen, hexp.selectorOf, hfallback, hreceive]

/-- **The rule for an impl block**: what every method keeps holds of the collected parts of an accepted block. -/
theorem loop_of_expandContract {P : List ImplItemFn → Loop → Prop} (hstart : P [] {})
    (hitems : ∀ {fns l} items, P fns l → P fns { l with items := items })
    (hstep : ∀ {fns l l' m}, P fns l → expandFn host l m = .ok l' → P (fns ++ [m]) l')
    {block : ItemImpl} {e : Expansion} (h : expandContract host block = .ok e) :
    ∃ l, P block.fns l ∧ e.methodImpls = l.methodImpls ∧
      e.dispatchImpl = ⟨l.receiveCall, l.dispatchArms, l.fallbackCall⟩ ∧ e.constructorImpl = l.constructorImpl := by
  simp only [expandContract, bind_eq_ok] at h
  obtain ⟨-, -, -, -, -, -, l, hloop, h⟩ := h
  cases h
  refine ⟨l, ?_, rfl, rfl, rfl⟩
  have step : ∀ (seen : List ImplItem) (l : Loop) (item : ImplItem) (l' : Loop),
      P (seen.filterMap ImplItem.fn?) l → expandItem host l item = .ok l' →
        P ((seen ++ [item]).filterMap ImplItem.fn?) l' := by
    intro seen l item l' hl hitem
    rw [List.filterMap_append]
    cases item with
    | other tokens =>
      cases hitem
      show P (seen.filterMap ImplItem.fn? ++ []) _
      rw [List.append_nil]
      exact hitems _ hl
    | fn m =>
      rw [expandItem, bind_eq_ok] at hitem
      obtain ⟨l₁, hfn, hitem⟩ := hitem
      cases hitem
      exact hitems _ (hstep hl hfn)
  have hnil : P (([] : List ImplItem).filterMap ImplItem.fn?) {} := hstart
  exact foldlM_invariant (P := fun seen l => P (seen.filterMap ImplItem.fn?) l) step hnil hloop

/-- No role is taken twice in an accepted block. -/
theorem tagged_le_one_of_expandContract {block : ItemImpl} {e : Expansion} (h : expandContract host block = .ok e) :
    (block.tagged "constructor").length ≤ 1 ∧ (block.tagged "fallback").length ≤ 1 ∧
      (block.tagged "receive").length ≤ 1 := by
  simp only [expandContract, bind_eq_ok] at h
  obtain ⟨⟨⟩, hconstructor, ⟨⟩, hfallback, ⟨⟩, hreceive, -⟩ := h
  exact ⟨checkAtMostOne_ok hconstructor, checkAtMostOne_ok hfallback, checkAtMostOne_ok hreceive⟩

/-- What an accepted block has collected, and that no role is taken twice. -/
theorem exposed_of_expandContract {block : ItemImpl} {e : Expansion} (h : expandContract host block = .ok e) :
    ∃ l, Exposed host block.fns l ∧ e.dispatchImpl = ⟨l.receiveCall, l.dispatchArms, l.fallbackCall⟩ ∧
      (block.tagged "fallback").length ≤ 1 ∧ (block.tagged "receive").length ≤ 1 := by
  obtain ⟨l, hl, -, he, -⟩ := loop_of_expandContract (P := Exposed host)
    ⟨rfl, rfl, List.nodup_nil, rfl, rfl, List.forall_mem_nil _⟩ (fun items hl => hl.setItems items)
    (fun hl hm => hl.expandFn hm) h
  exact ⟨l, hl, he, (tagged_le_one_of_expandContract h).2⟩

/-! ## The target of a call -/

/-- In a list with at most one element of a kind, the last of them is the first. -/
theorem find?_reverse_of_length_le {α : Type} {l : List α} {p : α → Bool} (hone : (l.filter p).length ≤ 1)
    (q : α → Bool) : l.reverse.find? (fun a => q a && p a) = (l.filter p).head?.filter q := by
  have hfind : l.reverse.find? (fun a => q a && p a) = (l.filter p).reverse.find? q := by
    rw [← List.filter_reverse, List.find?_filter]
    simp [Bool.and_comm]
  rw [hfind]
  rcases hl : l.filter p with _ | ⟨a, _ | ⟨b, l'⟩⟩
  · rfl
  · cases hq : q a <;> simp [hq, Option.filter]
  · rw [hl] at hone
    simp at hone

theorem mem_of_tagged_head? {block : ItemImpl} {name : String} {r : ImplItemFn}
    (hr : (block.tagged name).head? = some r) : r ∈ block.fns ∧ hasAttr r name = true :=
  List.mem_filter.mp (List.mem_of_head? hr)

variable (host) in
/-- The methods a selector reaches; there is at most one (`methods_pairwise`). -/
def matchedMethod (block : ItemImpl) (selector : Selector) : Option ImplItemFn :=
  block.methods.find? fun m => selectorOf? host m == some selector

/-- Whether a call is of the kind the `#[receive]` method is for. -/
def isReceiveCall (calldata : List UInt8) (value : U256) : Bool := calldata.isEmpty && value != U256.zero

section Accepted

variable {block : ItemImpl} {e : Expansion} (h : expandContract host block = .ok e)
include h

/-- The selectors of an accepted block are pairwise distinct. -/
theorem methods_pairwise : block.methods.Pairwise fun a b => selectorOf? host a ≠ selectorOf? host b := by
  obtain ⟨l, hl, -⟩ := exposed_of_expandContract h
  have hmap : (l.dispatchArms.map Prod.fst).map some = block.methods.map (selectorOf? host) := by
    have harms := congrArg (List.map Prod.fst) hl.arms
    rw [List.map_map, List.map_map] at harms
    rw [List.map_map]
    exact harms
  have hnodup : (block.methods.map (selectorOf? host)).Nodup := by
    rw [← hmap]
    exact hl.distinct.map (Option.some_injective _)
  exact List.pairwise_map.mp hnodup

/-- The method the generated dispatch reaches, from the block alone: the receive method comes first. -/
theorem target_eq (selector : Selector) (calldata : List UInt8) (value : U256) :
    e.dispatchImpl.target selector calldata value =
      (if isReceiveCall calldata value then
          (block.tagged "receive").head?.filter (fun m => m.isExposed && !hasAttr m "fallback") else none).or
        ((matchedMethod host block selector).or ((block.tagged "fallback").head?.filter ImplItemFn.isExposed)) := by
  obtain ⟨l, hl, he, hfallback, hreceive⟩ := exposed_of_expandContract h
  have harm : (e.dispatchImpl.arm selector).map MethodImpl.method = matchedMethod host block selector := by
    have harms := congrArg (List.find? fun s => s.1 == some selector) hl.arms
    rw [List.find?_map, List.find?_map] at harms
    have hsnd := congrArg (Option.map Prod.snd) harms
    simpa [DispatchImpl.arm, matchedMethod, ItemImpl.methods, he, Function.comp_def] using hsnd
  have hfb := hl.fallback.trans (find?_reverse_of_length_le hfallback ImplItemFn.isExposed)
  have hrc := hl.receive.trans
    (find?_reverse_of_length_le hreceive fun m => m.isExposed && !hasAttr m "fallback")
  rw [DispatchImpl.target, DispatchImpl.taker, ← isReceiveCall, Option.map_or, Option.map_or,
    apply_ite (Option.map MethodImpl.method), harm, he, hfb, hrc, Option.map_none]
  rfl

/-- A call reaches exposed methods only. -/
theorem mem_of_target {selector : Selector} {calldata : List UInt8} {value : U256} {m : ImplItemFn}
    (hm : e.dispatchImpl.target selector calldata value = some m) : m ∈ block.fns ∧ m.isExposed = true := by
  rw [target_eq h, Option.or_eq_some_iff, Option.or_eq_some_iff] at hm
  rcases hm with hreceive | ⟨-, hmatched | ⟨-, hfallback⟩⟩
  · split at hreceive
    · obtain ⟨hhead, hfit⟩ := Option.filter_eq_some_iff.mp hreceive
      exact ⟨(mem_of_tagged_head? hhead).1, (Bool.and_eq_true_iff.mp hfit).1⟩
    · cases hreceive
  · obtain ⟨hmem, hmethod⟩ := List.mem_filter.mp (List.mem_of_find?_eq_some hmatched)
    exact ⟨hmem, (Bool.and_eq_true_iff.mp hmethod).1⟩
  · obtain ⟨hhead, hfit⟩ := Option.filter_eq_some_iff.mp hfallback
    exact ⟨(mem_of_tagged_head? hhead).1, hfit⟩

/-- What takes a call was expanded from the method the call reaches. -/
theorem taker_rel (selector : Selector) (calldata : List UInt8) (value : U256) :
    Option.Rel (ExpandsTo host) (e.dispatchImpl.target selector calldata value)
      (e.dispatchImpl.taker selector calldata value) := by
  obtain ⟨l, hl, he, -⟩ := exposed_of_expandContract h
  rw [DispatchImpl.target]
  cases htaker : e.dispatchImpl.taker selector calldata value with
  | none => exact .none
  | some impl =>
    refine .some (hl.expanded impl ?_)
    have hcases : e.dispatchImpl.receiveBranch = some impl ∨ e.dispatchImpl.arm selector = some impl ∨
        e.dispatchImpl.fallbackBranch = some impl := by
      rw [DispatchImpl.taker, Option.or_eq_some_iff, Option.or_eq_some_iff] at htaker
      rcases htaker with hreceive | ⟨-, harm | ⟨-, hfallback⟩⟩
      · split at hreceive
        · exact .inl hreceive
        · cases hreceive
      · exact .inr (.inl harm)
      · exact .inr (.inr hfallback)
    rw [he] at hcases
    rw [Loop.takers, List.mem_append, List.mem_append]
    rcases hcases with hreceive | harm | hfallback
    · exact .inr (.inr (Option.mem_toList.mpr hreceive))
    · obtain ⟨arm, hfind, rfl⟩ := Option.map_eq_some_iff.mp harm
      exact .inl (List.mem_map_of_mem (List.mem_of_find?_eq_some hfind))
    · exact .inr (.inl (Option.mem_toList.mpr hfallback))

/-- **A call runs the method it reaches** as that is declared. -/
theorem dispatch_eq (u : Usize) {V O W : Type} (rt : Runtime V O W) (selector : Selector) (calldata : List UInt8)
    (value : U256) : e.dispatchImpl.dispatch u rt selector calldata value =
      runTarget u rt calldata (e.dispatchImpl.target selector calldata value) := by
  have hrel := taker_rel h selector calldata value
  rw [dispatch_eq_taker]
  generalize e.dispatchImpl.target selector calldata value = t at hrel ⊢
  generalize e.dispatchImpl.taker selector calldata value = x at hrel ⊢
  cases hrel with
  | none => rfl
  | some hexp =>
    obtain ⟨sig, marker, -, hexp⟩ := hexp
    exact callExpr_eq rt u hexp calldata

end Accepted

/-! ## The result -/

/-- Where a call goes that no method's selector matches: to the `#[receive]` method if there is one and the call is for
it, else to the `#[fallback]` method if there is one, else nowhere. -/
def unmatchedTarget (block : ItemImpl) (calldata : List UInt8) (value : U256) : Option ImplItemFn :=
  (if isReceiveCall calldata value then (block.tagged "receive").head? else none).or (block.tagged "fallback").head?

variable (host) in
/-- **Where a call should go**: to the method its selector names, whatever its calldata and value are. -/
def intendedTarget (block : ItemImpl) (selector : Selector) (calldata : List UInt8) (value : U256) :
    Option ImplItemFn :=
  (matchedMethod host block selector).or (unmatchedTarget block calldata value)

variable (host) in
/-- The generated dispatch treats a call as intended. -/
structure RoutesCall (u : Usize) (block : ItemImpl) (e : Expansion) (selector : Selector) (calldata : List UInt8)
    (value : U256) : Prop where
  distinct : block.methods.Pairwise fun a b => selectorOf? host a ≠ selectorOf? host b
  /-- What takes the call is what was generated for the method the call is for. -/
  taken : Option.Rel (ExpandsTo host) (intendedTarget host block selector calldata value)
    (e.dispatchImpl.taker selector calldata value)
  /-- It runs that method as declared, whatever the codecs and the functions do and on whatever state. -/
  runs : ∀ (V O W : Type) (rt : Runtime V O W) (w : W), e.dispatchImpl.dispatch u rt selector calldata value w =
    runTarget u rt calldata (intendedTarget host block selector calldata value) w

variable (host) in
/-- The condition on the block and the call. -/
structure WellRouted (block : ItemImpl) (selector : Selector) (calldata : List UInt8) (value : U256) : Prop where
  /-- A call with a method's selector is not of the kind that an exposed receive method takes. -/
  matched : ∀ m, matchedMethod host block selector = some m → isReceiveCall calldata value = true →
    ∀ r ∈ block.fns, r.isReceive = false
  /-- For any other call, the receive or fallback method it is meant for is public and no constructor. -/
  unmatched : matchedMethod host block selector = none →
    ∀ m, unmatchedTarget block calldata value = some m → m.isExposed = true

theorem isMethod_of_matchedMethod {block : ItemImpl} {selector : Selector} {m : ImplItemFn}
    (hm : matchedMethod host block selector = some m) : m.isMethod = true :=
  (List.mem_filter.mp (List.mem_of_find?_eq_some hm)).2

theorem mem_of_intendedTarget {block : ItemImpl} {selector : Selector} {calldata : List UInt8} {value : U256}
    {m : ImplItemFn} (hm : intendedTarget host block selector calldata value = some m) : m ∈ block.fns := by
  rw [intendedTarget, unmatchedTarget, Option.or_eq_some_iff, Option.or_eq_some_iff] at hm
  rcases hm with hmatched | ⟨-, hreceive | ⟨-, hfallback⟩⟩
  · exact (List.mem_filter.mp (List.mem_of_find?_eq_some hmatched)).1
  · split at hreceive
    · exact (mem_of_tagged_head? hreceive).1
    · cases hreceive
  · exact (mem_of_tagged_head? hfallback).1

theorem tagged_head? {block : ItemImpl} {name : String} (hone : (block.tagged name).length ≤ 1) {r : ImplItemFn}
    (hr : r ∈ block.fns) (hattr : hasAttr r name = true) : (block.tagged name).head? = some r := by
  have hmem : r ∈ block.tagged name := List.mem_filter.mpr ⟨hr, hattr⟩
  rcases htag : block.tagged name with _ | ⟨a, _ | ⟨b, l⟩⟩
  · simp [htag] at hmem
  · simpa [htag, eq_comm] using hmem
  · simp [htag] at hone

/-- The loop finds the method of a role if it finds that method fit for it. -/
theorem find?_role {block : ItemImpl} {name : String} (hone : (block.tagged name).length ≤ 1) {m : ImplItemFn}
    (hm : m ∈ block.fns) (hattr : hasAttr m name = true) (q : ImplItemFn → Bool) :
    block.fns.reverse.find? (fun a => q a && hasAttr a name) = if q m then some m else none := by
  rw [find?_reverse_of_length_le hone q, ← ItemImpl.tagged, tagged_head? hone hm hattr, Option.filter_some]

section Accepted

variable {block : ItemImpl} {e : Expansion} (h : expandContract host block = .ok e)
  {selector : Selector} {calldata : List UInt8} {value : U256}
include h

/-- With a method for the selector, only the receive branch can take the call away. -/
theorem target_matched_iff {m : ImplItemFn} (hm : matchedMethod host block selector = some m) :
    e.dispatchImpl.target selector calldata value = some m ↔
      (isReceiveCall calldata value = true → ∀ r ∈ block.fns, r.isReceive = false) := by
  obtain ⟨-, -, -, -, hone⟩ := exposed_of_expandContract h
  have hmethod := isMethod_of_matchedMethod hm
  rw [target_eq h, hm]
  constructor
  · intro heq hcall r hr
    by_contra hrec
    rw [Bool.not_eq_false] at hrec
    have htag : hasAttr r "receive" = true := (Bool.and_eq_true_iff.mp hrec).2
    have hexp : (r.isExposed && !hasAttr r "fallback") = true := (Bool.and_eq_true_iff.mp hrec).1
    rw [if_pos hcall, tagged_head? hone hr htag, Option.filter_some, if_pos hexp] at heq
    obtain rfl : r = m := Option.some.inj heq
    simp [ImplItemFn.isMethod, htag] at hmethod
  · intro hnone
    by_cases hcall : isReceiveCall calldata value = true
    · rw [if_pos hcall]
      cases hr : (block.tagged "receive").head? with
      | none => rfl
      | some r =>
        obtain ⟨hmem, htag⟩ := mem_of_tagged_head? hr
        have hrec := hnone hcall r hmem
        rw [ImplItemFn.isReceive, htag, Bool.and_true] at hrec
        rw [Option.filter_some, hrec]
        rfl
    · rw [if_neg hcall]
      rfl

/-- Without one, the call goes where it should if that method was exposed. -/
theorem target_unmatched_iff (hm : matchedMethod host block selector = none) :
    e.dispatchImpl.target selector calldata value = unmatchedTarget block calldata value ↔
      ∀ m, unmatchedTarget block calldata value = some m → m.isExposed = true := by
  obtain ⟨-, -, -, hone, -⟩ := exposed_of_expandContract h
  rw [target_eq h, hm, unmatchedTarget, Option.none_or]
  have hfilter : (if isReceiveCall calldata value then (block.tagged "receive").head?.filter
        (fun m => m.isExposed && !hasAttr m "fallback") else none) =
      (if isReceiveCall calldata value then (block.tagged "receive").head? else none).filter
        (fun m => m.isExposed && !hasAttr m "fallback") := by
    split <;> rfl
  rw [hfilter]
  cases hr : (if isReceiveCall calldata value then (block.tagged "receive").head? else none) with
  | none =>
    cases (block.tagged "fallback").head? with
    | none => simp
    | some f => simp [Option.filter_some]
  | some r =>
    have hmem : r ∈ block.fns := by
      split at hr
      · exact (mem_of_tagged_head? hr).1
      · cases hr
    cases hexp : r.isExposed with
    | false =>
      have hne : (block.tagged "fallback").head?.filter ImplItemFn.isExposed ≠ some r := by
        intro hf
        rw [Option.filter_eq_some_iff, hexp] at hf
        exact absurd hf.2 (by decide)
      simp [Option.filter_some, hexp, hne]
    | true =>
      cases hfb : hasAttr r "fallback" with
      | false => simp [Option.filter_some, hexp, hfb]
      | true => simp [Option.filter_some, hexp, hfb, tagged_head? hone hmem hfb]

end Accepted

/-- A call that runs like a target runs a function of its name. -/
theorem map_ident_of_runs {u : Usize} {block : ItemImpl} {e : Expansion} (h : expandContract host block = .ok e)
    {selector : Selector} {calldata : List UInt8} {value : U256} {t : Option ImplItemFn}
    (hruns : ∀ w, e.dispatchImpl.dispatch u recorder selector calldata value w = runTarget u recorder calldata t w) :
    (e.dispatchImpl.target selector calldata value).map ImplItemFn.ident = t.map ImplItemFn.ident := by
  have hnone := hruns none
  rw [dispatch_eq h, runTarget_recorder, runTarget_recorder] at hnone
  exact (Prod.mk.inj (Option.some.inj hnone)).2

/-- A call is treated as intended if it reaches the method it is for. -/
theorem routesCall_iff_target {u : Usize} {block : ItemImpl} {e : Expansion} (h : expandContract host block = .ok e)
    {selector : Selector} {calldata : List UInt8} {value : U256} :
    RoutesCall host u block e selector calldata value ↔
      e.dispatchImpl.target selector calldata value = intendedTarget host block selector calldata value := by
  constructor
  · intro hroutes
    rw [DispatchImpl.target]
    exact map_method_of_rel hroutes.taken
  · intro heq
    have hrel := taker_rel h selector calldata value
    rw [heq] at hrel
    refine ⟨methods_pairwise h, hrel, fun V O W rt w => ?_⟩
    rw [dispatch_eq h, heq]

/-- Where no two functions have one name, as Rust demands, a call that runs the function it is for is treated as
intended. -/
theorem routesCall_of_runs {u : Usize} {block : ItemImpl} {e : Expansion} (h : expandContract host block = .ok e)
    (hnames : (block.fns.map ImplItemFn.ident).Nodup) {selector : Selector} {calldata : List UInt8} {value : U256}
    (hruns : ∀ w, e.dispatchImpl.dispatch u recorder selector calldata value w =
      runTarget u recorder calldata (intendedTarget host block selector calldata value) w) :
    RoutesCall host u block e selector calldata value := by
  have hidents := map_ident_of_runs h hruns
  refine (routesCall_iff_target h).mpr ?_
  cases htarget : e.dispatchImpl.target selector calldata value with
  | none => rw [htarget] at hidents; exact (Option.map_eq_none_iff.mp hidents.symm).symm
  | some m =>
    rw [htarget, Option.map_some] at hidents
    obtain ⟨m', hintended, hident⟩ := Option.map_eq_some_iff.mp hidents.symm
    rw [hintended, List.inj_on_of_nodup_map hnames (mem_of_intendedTarget hintended) (mem_of_target h htarget).1 hident]

/-- **The generated dispatch of an accepted block treats a call as intended if and only if the call is well routed.**
-/
theorem dispatch_routes_iff (u : Usize) (host : Host) (block : ItemImpl) (e : Expansion)
    (h : expandContract host block = .ok e) (selector : Selector) (calldata : List UInt8) (value : U256) :
    RoutesCall host u block e selector calldata value ↔ WellRouted host block selector calldata value := by
  rw [routesCall_iff_target h, intendedTarget]
  cases hm : matchedMethod host block selector with
  | some m =>
    rw [Option.some_or, target_matched_iff h hm]
    exact ⟨fun hrec => ⟨fun _ _ => hrec, fun hnone => by simp [hm] at hnone⟩, fun hw => hw.matched m hm⟩
  | none =>
    rw [Option.none_or, target_unmatched_iff h hm]
    exact ⟨fun hexp => ⟨fun m hsome => by simp [hm] at hsome, fun _ => hexp⟩, fun hw => hw.unmatched hm⟩

end Block

/-! ## A wallet with a receive method -/

section Wallet

/-- `#[payable] pub fn deposit()` -/
def deposit : ImplItemFn := ⟨.pub, [⟨"payable", .error "expected attribute arguments"⟩], "deposit", [], none⟩

/-- `#[receive] pub fn accept()` -/
def accept : ImplItemFn := ⟨.pub, [⟨"receive", .error "expected attribute arguments"⟩], "accept", [], none⟩

def walletBlock : ItemImpl := ⟨.path [.mk "Wallet" .none], [.fn deposit, .fn accept]⟩

/-- The selector of `deposit()`; no other is looked up. -/
def depositSelector : Selector := ⟨[0xd0, 0xe3, 0x0d, 0xb0], rfl⟩

def walletHost : Host where
  selector := fun sig => if sig = "deposit()" then depositSelector else ⟨[0, 0, 0, 0], rfl⟩
  toUppercase := fun c => [c.toUpper]

theorem walletBlock_accepted : ∃ e, expandContract walletHost walletBlock = .ok e := ⟨_, rfl⟩

theorem matchedMethod_deposit : matchedMethod walletHost walletBlock depositSelector = some deposit := by
  have hsel : (selectorOf? walletHost deposit == some depositSelector) = true := by decide +kernel
  exact List.find?_cons_of_pos hsel

/-- Without a value `deposit()` reaches its method. -/
theorem dispatch_routes_iff_deposit :
    ∃ e, expandContract walletHost walletBlock = .ok e ∧
      RoutesCall walletHost .u32 walletBlock e depositSelector [] U256.zero := by
  obtain ⟨e, he⟩ := walletBlock_accepted
  refine ⟨e, he,
    (dispatch_routes_iff .u32 walletHost walletBlock e he depositSelector [] U256.zero).mpr ⟨?_, ?_⟩⟩
  · intro m _ hcall
    exact absurd hcall (by decide)
  · intro hnone
    simp [matchedMethod_deposit] at hnone

/-- **`deposit()` with a value runs `accept`**, whatever the two do. -/
theorem payable_call_taken_by_receive :
    ∃ e, expandContract walletHost walletBlock = .ok e ∧
      (∀ (V O W : Type) (rt : Runtime V O W) (w : W),
        e.dispatchImpl.dispatch .u32 rt depositSelector [] (U256.fromU64 1) w = accept.run .u32 rt [] w) ∧
      ¬ RoutesCall walletHost .u32 walletBlock e depositSelector [] (U256.fromU64 1) := by
  obtain ⟨e, he⟩ := walletBlock_accepted
  have hcall : isReceiveCall [] (U256.fromU64 1) = true := by decide +kernel
  have htarget : e.dispatchImpl.target depositSelector [] (U256.fromU64 1) = some accept := by
    rw [target_eq he, if_pos hcall]
    rfl
  have hruns : ∀ (V O W : Type) (rt : Runtime V O W) (w : W),
      e.dispatchImpl.dispatch .u32 rt depositSelector [] (U256.fromU64 1) w = accept.run .u32 rt [] w := by
    intro V O W rt w
    rw [dispatch_eq he, htarget, runTarget]
  refine ⟨e, he, hruns, fun hroutes => ?_⟩
  have hname := map_ident_of_runs he (hroutes.runs _ _ _ recorder)
  rw [htarget, intendedTarget, matchedMethod_deposit] at hname
  exact absurd hname (by decide)

end Wallet

end RustEvm.Macros
