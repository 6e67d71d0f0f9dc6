import RustEvm.Macros.Lineup

/-!
# RustEvm.Macros.Roles — which tagged methods get their role

A tagged method is `Wired` if the generated code calls it in its role.  The checks of `expandContract` count the tags of
all methods, its loop looks at the public ones and at one tag of each; so an accepted block is wired exactly when
every tagged method is public and has one role (`wired_iff`).
-/

namespace RustEvm.Macros

open Abi Fallible

variable {host : Host} {block : ItemImpl} {e : Expansion}

/-- The generated code runs the method: it was expanded from it and calls it by name. -/
def Runs (m method : ImplItemFn) (body : CallExpr) : Prop := method = m ∧ body.callee = m.ident

/-- Every tagged method has the role of its tag. -/
structure Wired (block : ItemImpl) (e : Expansion) : Prop where
  constructor : ∀ m ∈ block.tagged "constructor", ∃ c, e.constructorImpl = some c ∧ Runs m c.method c.body
  fallback : ∀ m ∈ block.tagged "fallback", ∃ impl, e.dispatchImpl.fallbackBranch = some impl ∧
    Runs m impl.method impl.body
  receive : ∀ m ∈ block.tagged "receive", ∃ impl, e.dispatchImpl.receiveBranch = some impl ∧
    Runs m impl.method impl.body

/-- The fallback is run for an unmatched selector, unless the call goes to the receive branch. -/
theorem Wired.target_fallback (hw : Wired block e) {m : ImplItemFn} (hm : m ∈ block.tagged "fallback")
    {selector : Selector} {calldata : List UInt8} {value : U256} (harm : e.dispatchImpl.arm selector = none)
    (hreceive : e.dispatchImpl.receiveBranch = none ∨ isReceiveCall calldata value = false) :
    e.dispatchImpl.target selector calldata value = some m := by
  obtain ⟨impl, himpl, hmethod, -⟩ := hw.fallback m hm
  rw [DispatchImpl.target, DispatchImpl.taker, ← isReceiveCall, harm, himpl]
  rcases hreceive with h | h <;> simp [h, hmethod]

/-- The receive method is run for a call with a value and no calldata. -/
theorem Wired.target_receive (hw : Wired block e) {m : ImplItemFn} (hm : m ∈ block.tagged "receive")
    {selector : Selector} {calldata : List UInt8} {value : U256} (hcall : isReceiveCall calldata value = true) :
    e.dispatchImpl.target selector calldata value = some m := by
  obtain ⟨impl, himpl, hmethod, -⟩ := hw.receive m hm
  rw [DispatchImpl.target, DispatchImpl.taker, ← isReceiveCall, if_pos hcall, himpl]
  simp [hmethod]

/-- A tagged method is public and has one role. -/
structure OneRole (m : ImplItemFn) : Prop where
  pub : m.vis = .pub
  constructor : hasAttr m "constructor" = true → hasAttr m "fallback" = false ∧ hasAttr m "receive" = false
  fallback : hasAttr m "fallback" = true → hasAttr m "receive" = false

/-- A method carries one of the three role tags. -/
def HasRole (m : ImplItemFn) : Prop :=
  hasAttr m "constructor" = true ∨ hasAttr m "fallback" = true ∨ hasAttr m "receive" = true

theorem callee_of_expandCall {method : ImplItemFn} {args : List Ty} {argPats : List String} {body : CallExpr}
    (h : expandCall method = .ok (args, argPats, body)) : body.callee = method.ident := by
  obtain ⟨handles, -, -, rfl⟩ := expandCall_ok h
  exact callee_wrapWithHandles _ _

theorem ExpandsTo.runs {m : ImplItemFn} {impl : MethodImpl} (h : ExpandsTo host m impl) :
    Runs m impl.method impl.body := by
  obtain ⟨sig, marker, -, h⟩ := h
  obtain ⟨hmethod, -, hcall⟩ := expandMethod_ok h
  exact ⟨hmethod, callee_of_expandCall hcall⟩

theorem runs_of_expandConstructor {m : ImplItemFn} {c : ContractImpl} (h : expandConstructor m = .ok c) :
    Runs m c.method c.body := by
  obtain ⟨hmethod, hcall⟩ := expandConstructor_ok h
  exact ⟨hmethod, callee_of_expandCall hcall⟩

/-- What was generated for the method the loop found runs it, and there is nothing where it found none. -/
theorem rel_runs_iff {γ : Type} {R : ImplItemFn → γ → Prop} {method : γ → ImplItemFn} {body : γ → CallExpr}
    {fit : Bool} {m : ImplItemFn} {o : Option γ} (h : Option.Rel R (if fit then some m else none) o)
    (hR : ∀ c, R m c → Runs m (method c) (body c)) :
    (∃ c, o = some c ∧ Runs m (method c) (body c)) ↔ fit = true := by
  cases fit with
  | false =>
    rw [if_neg Bool.false_ne_true] at h
    cases h
    simp
  | true =>
    rw [if_pos rfl] at h
    cases h with
    | some hexp => exact iff_of_true ⟨_, rfl, hR _ hexp⟩ rfl

section

variable (h : expandContract host block = .ok e) {m : ImplItemFn} (hm : m ∈ block.fns)
include h hm

theorem constructor_runs_iff (hattr : hasAttr m "constructor" = true) :
    (∃ c, e.constructorImpl = some c ∧ Runs m c.method c.body) ↔ m.vis = .pub := by
  obtain ⟨l, hl, -, -, hconstructor⟩ := generated_of_expandContract h
  have hfind : block.fns.reverse.find? ImplItemFn.isConstructor = _ :=
    find?_role (tagged_le_one_of_expandContract h).1 hm hattr fun a => a.vis = .pub
  have hrel := hl.constructor
  rw [hfind] at hrel
  rw [hconstructor, ← decide_eq_true_iff (p := m.vis = .pub)]
  exact rel_runs_iff hrel fun _ => runs_of_expandConstructor

theorem fallback_runs_iff (hattr : hasAttr m "fallback" = true) :
    (∃ impl, e.dispatchImpl.fallbackBranch = some impl ∧ Runs m impl.method impl.body) ↔ m.isExposed = true := by
  obtain ⟨l, hl, -, hdispatch, -⟩ := generated_of_expandContract h
  have hfind : block.fns.reverse.find? ImplItemFn.isFallback = _ :=
    find?_role (tagged_le_one_of_expandContract h).2.1 hm hattr ImplItemFn.isExposed
  have hrel := hl.fallback
  rw [hfind] at hrel
  rw [hdispatch]
  exact rel_runs_iff hrel fun _ => ExpandsTo.runs

theorem receive_runs_iff (hattr : hasAttr m "receive" = true) :
    (∃ impl, e.dispatchImpl.receiveBranch = some impl ∧ Runs m impl.method impl.body) ↔
      m.isExposed = true ∧ hasAttr m "fallback" = false := by
  obtain ⟨l, hl, -, hdispatch, -⟩ := generated_of_expandContract h
  have hfind : block.fns.reverse.find? ImplItemFn.isReceive = _ :=
    find?_role (tagged_le_one_of_expandContract h).2.2 hm hattr fun a => a.isExposed && !hasAttr a "fallback"
  have hrel := hl.receive
  rw [hfind] at hrel
  rw [hdispatch, ← Bool.not_eq_true', ← Bool.and_eq_true_iff]
  exact rel_runs_iff hrel fun _ => ExpandsTo.runs

end

theorem isExposed_iff {m : ImplItemFn} : m.isExposed = true ↔ m.vis = .pub ∧ hasAttr m "constructor" = false := by
  simp [ImplItemFn.isExposed]

/-- **An accepted block is wired exactly when every tagged method is public and has one role.** -/
theorem wired_iff (h : expandContract host block = .ok e) :
    Wired block e ↔ ∀ m ∈ block.fns, HasRole m → OneRole m := by
  have htagged : ∀ {m name}, m ∈ block.fns → hasAttr m name = true → m ∈ block.tagged name :=
    fun hm hattr => List.mem_filter.mpr ⟨hm, hattr⟩
  constructor
  · rintro hw m hm hrole
    have hc := fun ha => (constructor_runs_iff h hm ha).mp (hw.constructor m (htagged hm ha))
    have hf := fun ha => isExposed_iff.mp ((fallback_runs_iff h hm ha).mp (hw.fallback m (htagged hm ha)))
    have hr := fun ha => (receive_runs_iff h hm ha).mp (hw.receive m (htagged hm ha))
    refine ⟨?_, fun ha => ⟨?_, ?_⟩, fun ha => ?_⟩
    · rcases hrole with ha | ha | ha
      · exact hc ha
      · exact (hf ha).1
      · exact (isExposed_iff.mp (hr ha).1).1
    · exact Bool.eq_false_iff.mpr fun hfallback => Bool.eq_false_iff.mp (hf hfallback).2 ha
    · exact Bool.eq_false_iff.mpr fun hreceive => Bool.eq_false_iff.mp (isExposed_iff.mp (hr hreceive).1).2 ha
    · exact Bool.eq_false_iff.mpr fun hreceive => Bool.eq_false_iff.mp (hr hreceive).2 ha
  · intro hroles
    refine ⟨fun m hm => ?_, fun m hm => ?_, fun m hm => ?_⟩
    · obtain ⟨hmem, ha⟩ := List.mem_filter.mp hm
      exact (constructor_runs_iff h hmem ha).mpr (hroles m hmem (.inl ha)).pub
    · obtain ⟨hmem, ha⟩ := List.mem_filter.mp hm
      have hone := hroles m hmem (.inr (.inl ha))
      refine (fallback_runs_iff h hmem ha).mpr (isExposed_iff.mpr ⟨hone.pub, ?_⟩)
      exact Bool.eq_false_iff.mpr fun hc => Bool.eq_false_iff.mp (hone.constructor hc).1 ha
    · obtain ⟨hmem, ha⟩ := List.mem_filter.mp hm
      have hone := hroles m hmem (.inr (.inr ha))
      refine (receive_runs_iff h hmem ha).mpr ⟨isExposed_iff.mpr ⟨hone.pub, ?_⟩, ?_⟩
      · exact Bool.eq_false_iff.mpr fun hc => Bool.eq_false_iff.mp (hone.constructor hc).2 ha
      · exact Bool.eq_false_iff.mpr fun hf => Bool.eq_false_iff.mp (hone.fallback hf) ha

/-- The vault is wired. -/
theorem wired_iff_vault : ∃ e, expandContract walletHost vaultBlock = .ok e ∧ Wired vaultBlock e := by
  obtain ⟨e, he⟩ := vaultBlock_accepted
  refine ⟨e, he, (wired_iff he).mpr fun m hm hrole => ?_⟩
  have hmem : m = initVault ∨ m = withdraw := by simpa [vaultBlock, ItemImpl.fns, ImplItem.fn?] using hm
  rcases hmem with rfl | rfl
  · exact ⟨rfl, fun _ => ⟨by decide, by decide⟩, fun hf => absurd hf (by decide)⟩
  · rcases hrole with ha | ha | ha <;> exact absurd ha (by decide)

/-- `#[constructor] fn init(s: &mut Storage<VaultStorage>, owner: Address)`, without `pub` -/
def privateInit : ImplItemFn := { initVault with vis := .inherited }

/-- `#[constructor] #[fallback] pub fn init(s: &mut Storage<VaultStorage>, owner: Address)` -/
def initOrFallback : ImplItemFn :=
  { initVault with attrs := initVault.attrs ++ [⟨"fallback", .error "expected attribute arguments"⟩] }

def initBlock (init : ImplItemFn) : ItemImpl := ⟨.path [.mk "Vault" .none], [.fn init, .fn withdraw]⟩

/-- **A tagged method is dropped** without an error: a private constructor, and the fallback that is a constructor
too. -/
theorem tagged_method_dropped :
    (∃ e, expandContract walletHost (initBlock privateInit) = .ok e ∧ ¬ Wired (initBlock privateInit) e) ∧
      ∃ e, expandContract walletHost (initBlock initOrFallback) = .ok e ∧ ¬ Wired (initBlock initOrFallback) e := by
  refine ⟨?_, ?_⟩
  · obtain ⟨e, he⟩ : ∃ e, expandContract walletHost (initBlock privateInit) = .ok e := ⟨_, rfl⟩
    refine ⟨e, he, fun hw => ?_⟩
    have hpub := (constructor_runs_iff he (m := privateInit) (.head _) rfl).mp (hw.constructor privateInit (.head _))
    exact absurd hpub (by decide)
  · obtain ⟨e, he⟩ : ∃ e, expandContract walletHost (initBlock initOrFallback) = .ok e := ⟨_, rfl⟩
    refine ⟨e, he, fun hw => ?_⟩
    have hexposed := (fallback_runs_iff he (m := initOrFallback) (.head _) rfl).mp
      (hw.fallback initOrFallback (.head _))
    exact absurd hexposed (by decide)

end RustEvm.Macros
