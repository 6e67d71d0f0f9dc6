import RustEvm.Lib.Distinct
import RustEvm.Macros.Agreement
import RustEvm.Macros.Roles
import RustEvm.Storage.Body

/-!
# RustEvm.Client.Session — the life of a contract as its callers see it

A contract is created and then called, over and over: a caller encodes the arguments, the generated `dispatch` takes
the call to a generated method, which decodes them, binds the handles, calls a function of the contract on the storage
and encodes what it returns, and the caller decodes that.  Every call is a transaction; one that panics is undone.

`life_exact` says that none of it shows: what the callers read is what the functions return when they are called
directly, one after another, on variables.
-/

namespace RustEvm

open Abi Evm Macros Storage Contract Session Fallible

/-- The method that is tagged as the constructor, unless it is private. -/
def Macros.ItemImpl.publicConstructor (block : ItemImpl) : Option ImplItemFn :=
  (block.tagged "constructor").head?.filter fun m => m.vis = .pub

namespace Client

/-! ## Codes -/

/-- `AbiDecodeArgs` of a tuple as it is written; one with a type outside the codec does not compile. -/
def decodeWritten (u : Usize) (tys : List Ty) (calldata : List UInt8) : Except DecodeError (List Arg) :=
  match tys.mapM codecTy? with
  | some ts => decodeArgs u ts calldata
  | none => .error .truncated

/-- `AbiEncodeOutput` of a type as it is written; a value of another type does not compile. -/
def encodeWritten (u : Usize) (output : Option Ty) (o : Option Arg) : List UInt8 :=
  if o.map (some ∘ Sigma.fst) = output.map codecTy? then encodeOutput u o else []

theorem length_decodeArgsFrom {u : Usize} {calldata : List UInt8} {idx : ℕ} {ts : List AbiTy} {args : List Arg}
    (h : decodeArgsFrom u calldata idx ts = .ok args) : args.length = ts.length := by
  induction ts generalizing idx args with
  | nil => rw [← Except.ok.inj h]; rfl
  | cons t ts ih =>
    obtain ⟨v, -, h⟩ := bind_eq_ok.mp h
    obtain ⟨vs, hvs, h⟩ := bind_eq_ok.mp h
    rw [← Except.ok.inj h, List.length_cons, List.length_cons, ih hvs]

theorem length_decodeWritten {u : Usize} {tys : List Ty} {calldata : List UInt8} {args : List Arg}
    (h : decodeWritten u tys calldata = .ok args) : args.length = tys.length := by
  rw [decodeWritten] at h
  cases htys : tys.mapM codecTy? with
  | none => simp [htys] at h
  | some ts =>
    simp only [htys] at h
    rw [length_decodeArgsFrom h, (mapM_eq_some_iff.mp htys).length_eq]

/-- The functions of a contract, by name, on what they are passed. -/
structure Code (c : Contract) (u : Usize) (block : ItemImpl) where
  body : String → List (Passed Arg) → c.Body
  /-- What a method returns is of the type it is written with, and its encoding is shorter than the address space. -/
  returns : ∀ m ∈ block.fns, m.isExposed = true → ∀ passed, (body m.ident passed).Returns
    {o | o.map (some ∘ Sigma.fst) = m.output.map codecTy? ∧ (encodeOutput u o).length < u.card}

section

variable {c : Contract} {u : Usize} {block : ItemImpl} (code : Code c u block) (keccak : List UInt8 → U256)
  {host : Host} {e : Expansion}

/-- The function of a method, on its handles and some arguments. -/
def Code.bodyOf (m : ImplItemFn) (args : List Arg) : c.Body := code.body m.ident (passedTo m.inputs args)

/-- What the generated code is compiled with: the codec, and the functions on the machine. -/
def Code.runtime : Runtime Arg (Option Arg) Machine where
  decodeArgs := decodeWritten u
  length_decoded := length_decodeWritten
  call name passed := (code.body name passed).run (c.surroundings keccak)
  encodeOutput := encodeWritten u

/-- The generated `deploy` as a transaction; without a constructor there is nothing to run. -/
def deploy (impl : Option ContractImpl) (calldata : List UInt8) (m : Machine) : Option Machine :=
  match impl with
  | none => some m
  | some impl => (impl.deploy (code.runtime keccak) calldata (fresh m)).map Prod.snd

/-! ## Callers -/

/-- A request by value: which method, the arguments, the wei sent along. -/
structure Request where
  method : ImplItemFn
  args : List Arg
  value : U256

/-- The output in what comes back. -/
def decodeOutput (u : Usize) (data : List UInt8) : Option AbiTy → Option (Option Arg)
  | none => some none
  | some t => (t.decode u data 0).toOption.map fun v => some ⟨t, v⟩

/-- What a caller makes of what comes back: nothing of the payload of a failed decoding, else an output. -/
def readOutput (u : Usize) (output : Option AbiTy) (data : List UInt8) : Option (Option Arg) :=
  if data = encodeError u "invalid calldata" then none else decodeOutput u data output

variable (host e) in
/-- A request as a transaction, in bytes; with what the caller reads. -/
def Request.send (req : Request) (m : Machine) : Option (Option (Option Arg) × Machine) :=
  (selectorOf? host req.method).bind fun selector =>
    (e.dispatchImpl.dispatch u (code.runtime keccak) selector (encodeArgs u req.args) req.value (fresh m)).map
      (Prod.map (readOutput u (req.method.output.bind codecTy?)) id)

/-- The variables at the start of a transaction. -/
def freshVars (s : c.Vars) : c.Vars := ⟨fun p => if p.1 = .transient then U256.zero else s.word p, false⟩

/-- The same request as a direct call of the function. -/
def Request.direct (req : Request) (s : c.Vars) : Option (Option (Option Arg) × c.Vars) :=
  ((code.bodyOf req.method req.args).run c.varsSurroundings (freshVars s)).map (Prod.map some id)

/-- The constructor as a direct call. -/
def construct (args : List Arg) (s : c.Vars) : Option c.Vars :=
  match block.publicConstructor with
  | none => some s
  | some k => ((code.bodyOf k args).run c.varsSurroundings (freshVars s)).map Prod.snd

/-- A request a caller can make: of a method that has a selector, with arguments of its types.  Without arguments it
carries no value if there is a receive method, which would take it. -/
structure Request.Valid (u : Usize) (block : ItemImpl) (req : Request) : Prop where
  mem : req.method ∈ block.methods
  types : req.method.abiTypes.map codecTy? = (req.args.map Sigma.fst).map some
  fits : (encodeArgs u req.args).length < u.card
  routed : req.args = [] → req.value ≠ U256.zero → ∀ r ∈ block.fns, r.isReceive = false

end

/-! ## One request -/

section

variable {c : Contract} {u : Usize} {block : ItemImpl} {code : Code c u block} {keccak : List UInt8 → U256}
  {ps : List c.Var} {host : Host} {e : Expansion}

theorem dvd_length_encodeArgs (u : Usize) (args : List Arg) : 32 ∣ (encodeArgs u args).length := by
  have htails : 32 ∣ (HeadTail.tails (args.map Arg.part)).length := by
    rw [length_tails_args]
    refine List.dvd_sum fun n hn => ?_
    obtain ⟨a, -, rfl⟩ := List.mem_map.mp hn
    exact dvd_length_region a
  rw [length_encodeArgs]
  exact (dvd_mul_right 32 _).add htails

theorem encodeOutput_eq (o : Option Arg) : encodeOutput u o = encodeArgs u o.toList := by
  cases o <;> rfl

/-- An output is told from the payload of a failed decoding by its length. -/
theorem encodeOutput_ne_encodeError (o : Option Arg) (reason : String) : encodeOutput u o ≠ encodeError u reason := by
  intro heq
  have hlen := congrArg List.length heq
  have hargs : encodeError u reason = errorSelector ++ encodeArgs u [⟨.string, reason⟩] := rfl
  rw [encodeOutput_eq, hargs, List.length_append] at hlen
  have hleft := dvd_length_encodeArgs u o.toList
  have hright := dvd_length_encodeArgs u [⟨.string, reason⟩]
  have hselector : errorSelector.length = 4 := rfl
  omega

/-- **A caller reads the output that was encoded.** -/
theorem readOutput_encodeOutput {o : Option Arg} {output : Option AbiTy} (htype : o.map Sigma.fst = output)
    (hfits : (encodeOutput u o).length < u.card) : readOutput u output (encodeOutput u o) = some o := by
  rw [readOutput, if_neg (encodeOutput_ne_encodeError o _)]
  subst htype
  cases o with
  | none => rfl
  | some a =>
    have hdecode : a.1.decode u (encodeArgs u [a]) 0 = .ok a.2 := by
      have hslot := @decode_encodeArgs u [] [] a [] hfits
      rwa [List.append_nil] at hslot
    show (a.1.decode u (encodeArgs u [a]) 0).toOption.map _ = _
    rw [hdecode]
    rfl

theorem encodeArgs_eq_nil {args : List Arg} (h : encodeArgs u args = []) : args = [] := by
  have hlen := congrArg List.length h
  rw [length_encodeArgs, List.length_nil] at hlen
  exact List.eq_nil_of_length_eq_zero (by omega)

/-- **What a caller encodes is decoded to it.** -/
theorem decodeWritten_encodeArgs {tys : List Ty} {args : List Arg}
    (htypes : tys.map codecTy? = (args.map Sigma.fst).map some) (hfits : (encodeArgs u args).length < u.card) :
    decodeWritten u tys (encodeArgs u args) = .ok args := by
  have hdecode := decodeArgsFrom_encodeArgs [] [] args hfits
  rw [List.append_nil] at hdecode
  simp only [decodeWritten, mapM_eq_some_of_map htypes]
  exact hdecode

/-- A caller reads what a method returns. -/
theorem readOutput_encodeWritten {output : Option Ty} {o : Option Arg}
    (htype : o.map (some ∘ Sigma.fst) = output.map codecTy?) (hfits : (encodeOutput u o).length < u.card) :
    readOutput u (output.bind codecTy?) (encodeWritten u output o) = some o := by
  have hread : o.map Sigma.fst = output.bind codecTy? := by
    cases o with
    | none => cases output with
      | none => rfl
      | some ty => cases htype
    | some a => cases output with
      | none => cases htype
      | some ty => exact Option.some.inj htype
  rw [encodeWritten, if_pos htype]
  exact readOutput_encodeOutput hread hfits

/-- Every method of an accepted block has a selector, and is the one it names. -/
theorem exists_selector (h : expandContract host block = .ok e) {m : ImplItemFn} (hm : m ∈ block.methods) :
    ∃ selector, selectorOf? host m = some selector ∧ matchedMethod host block selector = some m := by
  obtain ⟨l, hl, -⟩ := exposed_of_expandContract h
  have hmem : (selectorOf? host m, m) ∈ (block.fns.filter ImplItemFn.isMethod).map fun m => (selectorOf? host m, m) :=
    List.mem_map_of_mem hm
  rw [← hl.arms] at hmem
  obtain ⟨arm, -, harm⟩ := List.mem_map.mp hmem
  have hselector : selectorOf? host m = some arm.1 := (congrArg Prod.fst harm).symm
  have hkeys : (block.methods.map (selectorOf? host)).Nodup := List.pairwise_map.mpr (methods_pairwise h)
  refine ⟨arm.1, hselector, ?_⟩
  rw [matchedMethod, ← hselector, ← Distinct.find?_of_mem hkeys hm]
  exact congrArg block.methods.find? (funext fun b => Bool.eq_iff_iff.mpr (beq_iff_eq.trans decide_eq_true_iff.symm))

/-- Where the arguments can be decoded, a method is the run of its function. -/
theorem run_of_ok {k : ImplItemFn} {calldata : List UInt8} {args : List Arg}
    (h : decodeWritten u k.abiTypes calldata = .ok args) (m : Machine) :
    k.run u (code.runtime keccak) calldata m =
      ((code.bodyOf k args).run (c.surroundings keccak) m).map (Prod.map (encodeWritten u k.output) id) := by
  have hdecode : (code.runtime keccak).decodeArgs k.abiTypes calldata = .ok args := h
  simp only [ImplItemFn.run, hdecode]
  show ((code.bodyOf k args).run (c.surroundings keccak) m).bind _ = _
  cases (code.bodyOf k args).run (c.surroundings keccak) m <;> rfl

theorem run_of_error {k : ImplItemFn} {calldata : List UInt8} {err : DecodeError}
    (h : decodeWritten u k.abiTypes calldata = .error err) (m : Machine) :
    k.run u (code.runtime keccak) calldata m = some (encodeError u "invalid calldata", m) := by
  have hdecode : (code.runtime keccak).decodeArgs k.abiTypes calldata = .error err := h
  simp only [ImplItemFn.run, hdecode]
  rfl

theorem construct_of_ok {k : ImplItemFn} {calldata : List UInt8} {args : List Arg}
    (h : decodeWritten u k.abiTypes calldata = .ok args) (m : Machine) :
    (k.construct (code.runtime keccak) calldata m).map Prod.snd =
      ((code.bodyOf k args).run (c.surroundings keccak) m).map Prod.snd := by
  have hdecode : (code.runtime keccak).decodeArgs k.abiTypes calldata = .ok args := h
  simp only [ImplItemFn.construct, hdecode]
  show (((code.bodyOf k args).run (c.surroundings keccak) m).bind _).map _ = _
  cases (code.bodyOf k args).run (c.surroundings keccak) m <;> rfl

/-- **The bytes of a request run its function** on its arguments. -/
theorem send_eq (h : expandContract host block = .ok e) {req : Request} (hreq : req.Valid u block) (m : Machine) :
    req.send code keccak host e m =
      ((code.bodyOf req.method req.args).run (c.surroundings keccak) (fresh m)).map (Prod.map some id) := by
  obtain ⟨selector, hselector, hmatched⟩ := exists_selector h hreq.mem
  have htarget : e.dispatchImpl.target selector (encodeArgs u req.args) req.value = some req.method := by
    refine (target_matched_iff h hmatched).mpr fun hcall => ?_
    obtain ⟨hempty, hvalue⟩ := Bool.and_eq_true_iff.mp hcall
    exact hreq.routed (encodeArgs_eq_nil (List.isEmpty_iff.mp hempty)) (by simpa using hvalue)
  rw [Request.send, hselector, Option.bind_some, dispatch_eq h, htarget, runTarget,
    run_of_ok (decodeWritten_encodeArgs hreq.types hreq.fits), Option.map_map]
  refine Option.map_congr fun x hx => ?_
  obtain ⟨hmem, hmethod⟩ := List.mem_filter.mp hreq.mem
  obtain ⟨htype, hfits⟩ := (code.returns req.method hmem (Bool.and_eq_true_iff.mp hmethod).1 _).of_run hx
  exact Prod.ext (readOutput_encodeWritten htype hfits) rfl

theorem holds_fresh {m : Machine} {s : c.Vars} (hm : Holds keccak ps m s) :
    Holds keccak ps (fresh m) (freshVars s) := by
  refine ⟨?_, ?_⟩
  · rintro ⟨space, i, keys⟩ hp
    cases space with
    | transient => rfl
    | persistent => exact hm.1 ⟨.persistent, i, keys⟩ hp
  · rw [lockedIn_eq]
    exact ValueTy.dec_zero .bool

end

/-! ## Lives -/

section

variable {c : Contract} {u : Usize} {block : ItemImpl} (code : Code c u block) (keccak : List UInt8 → U256)
  (ps : List c.Var) (host : Host) (e : Expansion) (args : List Arg) (reqs : List Request)

/-- The life of a contract on the machine: what the callers read, and the machine at the end.  There is none if it
cannot be created. -/
def life (m : Machine) : Option (List (Option (Option (Option Arg))) × Machine) :=
  (deploy code keccak e.constructorImpl (encodeArgs u args) m).map (serve (Request.send code keccak host e) reqs)

/-- The life of its functions on the variables. -/
def directLife (s : c.Vars) : Option (List (Option (Option (Option Arg))) × c.Vars) :=
  (construct code args s).map (serve (Request.direct code) reqs)

/-- The constructor's arguments have its types, every request is valid, and `ps` has the paths that are accessed. -/
structure Fit (s : c.Vars) : Prop where
  fits : (encodeArgs u args).length < u.card
  types : ∀ k ∈ block.publicConstructor, k.abiTypes.map codecTy? = (args.map Sigma.fst).map some
  created : ∀ k ∈ block.publicConstructor,
    (code.bodyOf k args).Asks c.varsSurroundings (Ask.within ps) (freshVars s)
  called : ∀ s' ∈ construct code args s, Along (Request.direct code) (fun req t => req.Valid u block ∧
    (code.bodyOf req.method req.args).Asks c.varsSurroundings (Ask.within ps) (freshVars t)) reqs s'

variable {code keccak ps host e args reqs}

/-- One request is served alike. -/
theorem send_alike (h : expandContract host block = .ok e) (hapart : Apart keccak ps) (req : Request) (m : Machine)
    (s : c.Vars) (hreq : req.Valid u block ∧
      (code.bodyOf req.method req.args).Asks c.varsSurroundings (Ask.within ps) (freshVars s))
    (hm : Holds keccak ps m s) :
    Prog.Alike (Holds keccak ps) (req.send code keccak host e m) (req.direct code s) := by
  have hrun := Prog.run_related (asks_alike hapart) hreq.2 (holds_fresh hm)
  rw [send_eq h hreq.1, Request.direct]
  generalize (code.bodyOf req.method req.args).run (c.surroundings keccak) (fresh m) = x at hrun ⊢
  generalize (code.bodyOf req.method req.args).run c.varsSurroundings (freshVars s) = y at hrun ⊢
  cases hrun with
  | some hxy => exact .some ⟨congrArg some hxy.1, hxy.2⟩
  | none => exact .none

/-- The constructor that is run is the public one, as it was expanded. -/
theorem constructorImpl_rel (h : expandContract host block = .ok e) :
    Option.Rel (fun m impl => expandConstructor m = .ok impl) block.publicConstructor e.constructorImpl := by
  obtain ⟨l, hl, -, -, hconstructor⟩ := generated_of_expandContract h
  have hfind : block.fns.reverse.find? ImplItemFn.isConstructor = block.publicConstructor :=
    find?_reverse_of_length_le (tagged_le_one_of_expandContract h).1 fun m => m.vis = .pub
  rw [← hfind, hconstructor]
  exact hl.constructor

/-- The contract is created alike. -/
theorem deploy_alike (h : expandContract host block = .ok e) (hapart : Apart keccak ps) {m : Machine} {s : c.Vars}
    (hfit : Fit code ps args reqs s) (hm : Holds keccak ps m s) :
    Option.Rel (Holds keccak ps) (deploy code keccak e.constructorImpl (encodeArgs u args) m)
      (construct code args s) := by
  have hrel := constructorImpl_rel h
  rw [construct]
  have htypes := hfit.types
  have hasks := hfit.created
  generalize block.publicConstructor = x at hrel htypes hasks ⊢
  generalize e.constructorImpl = y at hrel ⊢
  cases hrel with
  | none => exact .some hm
  | @some k impl hexp =>
    have hrun := Prog.run_related (asks_alike hapart) (hasks _ rfl) (holds_fresh hm)
    simp only [deploy, deploy_eq _ hexp, construct_of_ok (decodeWritten_encodeArgs (htypes _ rfl) hfit.fits)]
    generalize (code.bodyOf k args).run (c.surroundings keccak) (fresh m) = x at hrun ⊢
    generalize (code.bodyOf k args).run c.varsSurroundings (freshVars s) = y at hrun ⊢
    cases hrun with
    | some hxy => exact .some hxy.2
    | none => exact .none

/-- **What the callers of a contract read, from its creation on, is what its functions return when they are called
directly**, on variables that the macros, the codec and the storage have nothing to do with; and at the end every getter
and the lock show those variables. -/
theorem life_exact (h : expandContract host block = .ok e) (hapart : Apart keccak ps) (m : Machine)
    (hfit : Fit code ps args reqs (varsOf keccak m)) :
    Prog.Alike (Shows keccak ps) (life code keccak host e args reqs m)
      (directLife code args reqs (varsOf keccak m)) := by
  have hstart : Holds keccak ps m (varsOf keccak m) := ⟨fun p _ => rfl, rfl⟩
  have hdeploy := deploy_alike h hapart hfit hstart
  have hcalled := hfit.called
  rw [life, directLife]
  generalize deploy code keccak e.constructorImpl (encodeArgs u args) m = x at hdeploy ⊢
  generalize construct code args (varsOf keccak m) = y at hdeploy hcalled ⊢
  cases hdeploy with
  | none => exact .none
  | some hxy =>
    obtain ⟨hanswers, hend⟩ := serve_related (send_alike h hapart) (hcalled _ rfl) hxy
    exact .some ⟨hanswers, hend.shows⟩

end

/-! ## A ledger -/

/-- `#[constructor] pub fn init(s: &mut Storage<VaultStorage>, supply: U256)` -/
def initLedger : ImplItemFn where
  vis := .pub
  attrs := [⟨"constructor", .error "expected attribute arguments"⟩]
  ident := "init"
  inputs := [mutHandle "Storage" "VaultStorage", .typed tyU256]
  output := none

/-- `pub fn credit(s: &mut Storage<VaultStorage>, to: Address, amount: U256)` -/
def credit : ImplItemFn where
  vis := .pub
  attrs := []
  ident := "credit"
  inputs := [mutHandle "Storage" "VaultStorage", .typed tyAddress, .typed tyU256]
  output := none

/-- `pub fn balance_of(s: &Storage<VaultStorage>, who: Address) -> U256` -/
def balanceOf : ImplItemFn where
  vis := .pub
  attrs := []
  ident := "balance_of"
  inputs := [.typed (.reference false (.path [.mk "Storage" (.angleBracketed
    [.type (.path [.mk "VaultStorage" .none])])])), .typed tyAddress]
  output := some tyU256

def ledgerBlock : ItemImpl := ⟨.path [.mk "Ledger" .none], [.fn initLedger, .fn credit, .fn balanceOf]⟩

/-- The selector of `balanceOf(address)`; no other is told apart. -/
def ledgerHost : Host where
  selector := fun sig => if sig = "balanceOf(address)" then .ofNat 4 0x70a08231 else .ofNat 4 0
  toUppercase := fun c => [c.toUpper]

theorem ledgerBlock_accepted : ∃ e, expandContract ledgerHost ledgerBlock = .ok e := ⟨_, rfl⟩

/-- The functions; a credit is made under the lock. -/
def ledgerBody (name : String) (passed : List (Passed Arg)) : vault.Body :=
  match name, passed with
  | "init", [.handle .persistent true _, .arg ⟨.u256, supply⟩] => .ask (.set totalSupply supply) fun _ => .done none
  | "credit", [.handle .persistent true _, .arg ⟨.address, who⟩, .arg ⟨.u256, amount⟩] =>
    .ask (.acquire .lock) fun _ => .ask (.set (balances who) amount) fun _ => .ask (.drop .lock) fun _ => .done none
  | "balance_of", [.handle .persistent false _, .arg ⟨.address, who⟩] =>
    .ask (.get (balances who)) fun balance => .done (some ⟨.u256, balance⟩)
  | _, _ => .abort

def ledgerOutput (name : String) : Option Ty := if name = "balance_of" then some tyU256 else none

theorem ledgerBody_returns (name : String) (passed : List (Passed Arg)) : (ledgerBody name passed).Returns
    {o | o.map (some ∘ Sigma.fst) = (ledgerOutput name).map codecTy? ∧
      (encodeOutput .u32 o).length < Usize.u32.card} := by
  fun_cases ledgerBody name passed with
  | case1 supply => exact fun _ => ⟨rfl, by decide⟩
  | case2 who amount => exact fun _ _ _ => ⟨rfl, by decide⟩
  | case3 who =>
    refine fun balance => ⟨rfl, ?_⟩
    have hlen : (encodeOutput .u32 (some ⟨.u256, balance⟩)).length = 32 := by
      rw [encodeOutput_eq]
      exact (length_encodeArgs _ _).trans rfl
    rw [hlen]
    decide
  | case4 => trivial

def ledgerCode : Code vault .u32 ledgerBlock where
  body := ledgerBody
  returns m hm hexposed passed := by
    have houtput : m.output = ledgerOutput m.ident := by
      have hmem : m = initLedger ∨ m = credit ∨ m = balanceOf := by
        simpa [ledgerBlock, ItemImpl.fns, ImplItem.fn?] using hm
      rcases hmem with rfl | rfl | rfl <;> rfl
    rw [houtput]
    exact ledgerBody_returns m.ident passed

def ledgerRequests : List Request :=
  [⟨credit, [⟨.address, alice⟩, ⟨.u256, U256.fromU64 5⟩], U256.zero⟩, ⟨balanceOf, [⟨.address, alice⟩], U256.zero⟩]

theorem ledger_apart : Apart vaultKeccak [totalSupply, balances alice] where
  injective := by decide +kernel
  high := by
    intro a ha s
    revert a
    cases s <;> decide +kernel
  lock := by decide +kernel

theorem ledger_fit (s : vault.Vars) : Fit ledgerCode [totalSupply, balances alice]
    [⟨.u256, U256.fromU64 9⟩] ledgerRequests s where
  fits := by decide +kernel
  types k hk := by
    obtain rfl : initLedger = k := Option.some.inj hk
    rfl
  created k hk := by
    obtain rfl : initLedger = k := Option.some.inj hk
    exact ⟨List.mem_cons_self, fun _ _ => trivial⟩
  called s' _ := by
    have hcredit : credit ∈ ledgerBlock.methods :=
      List.mem_filter.mpr ⟨by simp [ledgerBlock, ItemImpl.fns, ImplItem.fn?], by decide⟩
    have hbalance : balanceOf ∈ ledgerBlock.methods :=
      List.mem_filter.mpr ⟨by simp [ledgerBlock, ItemImpl.fns, ImplItem.fn?], by decide⟩
    have halice : balances alice ∈ [totalSupply, balances alice] := List.mem_cons_of_mem _ List.mem_cons_self
    exact ⟨⟨⟨hcredit, rfl, by decide +kernel, fun h => by cases h⟩,
        trivial, fun _ _ => ⟨halice, fun _ _ => ⟨trivial, fun _ _ => trivial⟩⟩⟩,
      ⟨⟨hbalance, rfl, by decide +kernel, fun h => by cases h⟩, halice, fun _ _ => trivial⟩, trivial⟩

/-- Alice is credited 5 and reads a balance of 5. -/
theorem life_exact_ledger : ∃ e, expandContract ledgerHost ledgerBlock = .ok e ∧
    (life ledgerCode vaultKeccak ledgerHost e [⟨.u256, U256.fromU64 9⟩] ledgerRequests
      (freshMachine fun _ => 0)).map Prod.fst =
        some [some (some none), some (some (some ⟨.u256, U256.fromU64 5⟩))] := by
  obtain ⟨e, he⟩ := ledgerBlock_accepted
  have h := life_exact he ledger_apart (freshMachine fun _ => 0) (ledger_fit _)
  exact ⟨e, he, h.map_fst.trans rfl⟩

end Client

end RustEvm
