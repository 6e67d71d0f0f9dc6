import RustEvm.Macros.Dispatch

/-!
# RustEvm.Macros.Lineup — what a block generates

`Generated` is the loop over the impl block seen from the methods: what each of them was expanded to, and which of them
has a role.  With `linesUp_of_expandCall` every method of an accepted block lines up with what was generated for it, the
constructor included (`expansion_lines_up`).
-/

namespace RustEvm.Macros

open Abi Fallible

/-! ## What a block generates -/

/-- A public method that the loop makes the constructor. -/
def ImplItemFn.isConstructor (m : ImplItemFn) : Bool := m.vis = .pub && hasAttr m "constructor"

/-- What the loop has generated after the methods `fns`. -/
structure Generated (host : Host) (fns : List ImplItemFn) (l : Loop) : Prop where
  impls : List.Forall₂ (ExpandsTo host) (fns.filter ImplItemFn.isExposed) l.methodImpls
  fallback : Option.Rel (ExpandsTo host) (fns.reverse.find? ImplItemFn.isFallback) l.fallbackCall
  receive : Option.Rel (ExpandsTo host) (fns.reverse.find? ImplItemFn.isReceive) l.receiveCall
  constructor : Option.Rel (fun m c => expandConstructor m = .ok c) (fns.reverse.find? ImplItemFn.isConstructor)
    l.constructorImpl

variable {host : Host}

theorem Generated.expandFn {fns : List ImplItemFn} {l l' : Loop} {m : ImplItemFn} (hl : Generated host fns l)
    (h : expandFn host l m = .ok l') : Generated host (fns ++ [m]) l' := by
  obtain ⟨himpls, hfallback, hreceive, hconstructor⟩ := hl
  rcases expandFn_cases h with ⟨hvis, rfl⟩ | ⟨hvis, hc, c, hexp, rfl⟩ | ⟨hexposed, h⟩
  · have hexposed : m.isExposed = false := by simp [ImplItemFn.isExposed, hvis]
    have hcons : m.isConstructor = false := by simp [ImplItemFn.isConstructor, hvis]
    constructor <;> simpa [hexposed, hcons, ImplItemFn.isFallback, ImplItemFn.isReceive]
  · have hexposed : m.isExposed = false := by simp [ImplItemFn.isExposed, hc]
    have hcons : m.isConstructor = true := by simp [ImplItemFn.isConstructor, hvis, hc]
    refine ⟨?_, ?_, ?_, ?_⟩
    · simpa [hexposed]
    · simpa [hexposed, ImplItemFn.isFallback]
    · simpa [hexposed, ImplItemFn.isReceive]
    · simpa [hcons] using Option.Rel.some hexp
  · have hcons : m.isConstructor = false := by
      have hc : hasAttr m "constructor" = false := by
        simpa [ImplItemFn.isExposed] using (Bool.and_eq_true_iff.mp hexposed).2
      simp [ImplItemFn.isConstructor, hc]
    obtain ⟨impl, hexp, hcases⟩ := expandExposed_cases h
    have himpls' : List.Forall₂ (ExpandsTo host) ((fns ++ [m]).filter ImplItemFn.isExposed)
        (l.methodImpls ++ [impl]) := by
      rw [List.filter_append, List.filter_cons_of_pos hexposed, List.filter_nil]
      exact List.rel_append himpls (.cons hexp .nil)
    rcases hcases with ⟨hf, rfl⟩ | ⟨hf, hr, rfl⟩ | ⟨hf, hr, -, rfl⟩
    · refine ⟨himpls', ?_, ?_, ?_⟩
      · simpa [hexposed, ImplItemFn.isFallback, hf] using Option.Rel.some hexp
      · simpa [ImplItemFn.isReceive, hf]
      · simpa [hcons]
    · refine ⟨himpls', ?_, ?_, ?_⟩
      · simpa [ImplItemFn.isFallback, hf]
      · simpa [hexposed, ImplItemFn.isReceive, hf, hr] using Option.Rel.some hexp
      · simpa [hcons]
    · refine ⟨himpls', ?_, ?_, ?_⟩
      · simpa [ImplItemFn.isFallback, hf]
      · simpa [ImplItemFn.isReceive, hr]
      · simpa [hcons]

/-- What an accepted block generates. -/
theorem generated_of_expandContract {block : ItemImpl} {e : Expansion} (h : expandContract host block = .ok e) :
    ∃ l, Generated host block.fns l ∧ e.methodImpls = l.methodImpls ∧
      e.dispatchImpl = ⟨l.receiveCall, l.dispatchArms, l.fallbackCall⟩ ∧ e.constructorImpl = l.constructorImpl :=
  loop_of_expandContract (P := Generated host) ⟨.nil, .none, .none, .none⟩
    (fun _ hl => ⟨hl.impls, hl.fallback, hl.receive, hl.constructor⟩) (fun hl hm => hl.expandFn hm) h

/-- A method and what was expanded for it line up. -/
def ExpansionLinesUp (host : Host) (m method : ImplItemFn) (args : List Ty) (argPats : List String) (body : CallExpr) :
    Prop :=
  method = m ∧ ∃ handleTys handles, LinesUp host m handleTys handles args argPats body

theorem ExpandsTo.linesUp {m : ImplItemFn} {impl : MethodImpl} (h : ExpandsTo host m impl) :
    (∃ sig, ethSignature host m = .ok sig ∧ impl.selector = host.selector sig) ∧
      ExpansionLinesUp host m impl.method impl.args impl.argPats impl.body := by
  obtain ⟨sig, marker, hsig, h⟩ := h
  obtain ⟨hmethod, hsel, hcall⟩ := expandMethod_ok h
  exact ⟨⟨sig, hsig, hsel⟩, hmethod, linesUp_of_expandCall host hcall⟩

/-- **Signature, decoded arguments and generated call line up** for every method of an accepted block, the
constructor's included. -/
theorem expansion_lines_up {block : ItemImpl} {e : Expansion} (h : expandContract host block = .ok e) :
    List.Forall₂ (fun m impl => (∃ sig, ethSignature host m = .ok sig ∧ impl.selector = host.selector sig) ∧
        ExpansionLinesUp host m impl.method impl.args impl.argPats impl.body)
      (block.fns.filter ImplItemFn.isExposed) e.methodImpls ∧
    ∀ m ∈ block.fns, m.isConstructor = true →
      ∃ c, e.constructorImpl = some c ∧ ExpansionLinesUp host m c.method c.args c.argPats c.body := by
  obtain ⟨l, hl, himpls, -, hconstructor⟩ := generated_of_expandContract h
  refine ⟨himpls ▸ hl.impls.imp fun _ _ hexp => hexp.linesUp, fun m hm hcons => ?_⟩
  obtain ⟨hpub, hattr⟩ := Bool.and_eq_true_iff.mp hcons
  have hfind : block.fns.reverse.find? ImplItemFn.isConstructor = some m :=
    (find?_role (tagged_le_one_of_expandContract h).1 hm hattr _).trans (if_pos hpub)
  have hrel := hl.constructor
  rw [hfind] at hrel
  cases hc : l.constructorImpl with
  | none => rw [hc] at hrel; cases hrel
  | some c =>
    rw [hc] at hrel
    cases hrel with
    | some hexp =>
      obtain ⟨hmethod, hcall⟩ := expandConstructor_ok hexp
      exact ⟨c, hconstructor.trans hc, hmethod, linesUp_of_expandCall host hcall⟩

/-! ## A vault with both handles -/

/-- `&mut Handle<T>` -/
def mutHandle (handle layout : String) : FnArg :=
  .typed (.reference true (.path [.mk handle (.angleBracketed [.type (.path [.mk layout .none])])]))

/-- `pub fn withdraw(s: &mut Storage<VaultStorage>, t: &mut TransientStorage<VaultTransient>, amount: U256)` -/
def withdraw : ImplItemFn where
  vis := .pub
  attrs := []
  ident := "withdraw"
  inputs := [mutHandle "Storage" "VaultStorage", mutHandle "TransientStorage" "VaultTransient",
    .typed (.path [.mk "U256" .none])]
  output := none

/-- `#[constructor] pub fn init(s: &mut Storage<VaultStorage>, owner: Address)` -/
def initVault : ImplItemFn where
  vis := .pub
  attrs := [⟨"constructor", .error "expected attribute arguments"⟩]
  ident := "init"
  inputs := [mutHandle "Storage" "VaultStorage", .typed (.path [.mk "Address" .none])]
  output := none

def vaultBlock : ItemImpl := ⟨.path [.mk "Vault" .none], [.fn initVault, .fn withdraw]⟩

theorem vaultBlock_accepted : ∃ e, expandContract walletHost vaultBlock = .ok e := ⟨_, rfl⟩

/-- Both methods of the vault line up. -/
theorem expansion_lines_up_vault :
    ∃ e, expandContract walletHost vaultBlock = .ok e ∧
      List.Forall₂ (fun m impl =>
          (∃ sig, ethSignature walletHost m = .ok sig ∧ impl.selector = walletHost.selector sig) ∧
          ExpansionLinesUp walletHost m impl.method impl.args impl.argPats impl.body)
        (vaultBlock.fns.filter ImplItemFn.isExposed) e.methodImpls ∧
      ∀ m ∈ vaultBlock.fns, m.isConstructor = true →
        ∃ c, e.constructorImpl = some c ∧ ExpansionLinesUp walletHost m c.method c.args c.argPats c.body := by
  obtain ⟨e, he⟩ := vaultBlock_accepted
  exact ⟨e, he, expansion_lines_up he⟩

end RustEvm.Macros
