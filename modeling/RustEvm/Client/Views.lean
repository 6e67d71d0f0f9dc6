import RustEvm.Client.Session

/-!
# RustEvm.Client.Views — which calls leave no trace

The signature of a method says whether it can write, as long as the functions reach storage through the handles they
are passed (`Code.Bounded`): without a `&mut` handle among its parameters the generated call passes it none.  So a call
that goes to such a method, to none, or to one that cannot decode its arguments changes no word, whatever bytes it is
made of, and leaving it out of a session changes nothing for the others (`quiet_calls_change_nothing`).
-/

namespace RustEvm

open Abi Evm Macros Storage Contract Session

/-- Not a `&mut` handle. -/
def Macros.FnArg.isView : FnArg → Bool
  | receiver => true
  | typed ty => !(isHandleParam ty && ty.isMutRef)

/-- No parameter is a `&mut` handle. -/
def Macros.ImplItemFn.isView (m : ImplItemFn) : Bool := m.inputs.all FnArg.isView

namespace Client

/-! ## Handles of a view -/

theorem isMut_of_pathHandle {isMut : Bool} {segments : List PathSegment} {h : HandleParam}
    (hpath : pathHandle? isMut segments = some h) : h.isMut = isMut := by
  obtain ⟨⟨ident, arguments⟩, -, hpath⟩ := Option.bind_eq_some_iff.mp hpath
  cases arguments with
  | none => cases hpath
  | parenthesized => cases hpath
  | angleBracketed args =>
    obtain ⟨kind, -, hpath⟩ := Option.bind_eq_some_iff.mp hpath
    split at hpath
    · rw [← Option.some.inj hpath]
    · cases hpath

theorem isMut_of_handle {ty : Ty} {h : HandleParam} (hty : ty.handle? = some h) : h.isMut = ty.isMutRef := by
  cases ty with
  | path segments => exact isMut_of_pathHandle hty
  | reference isMut elem =>
    cases elem with
    | path segments => exact isMut_of_pathHandle hty
    | reference _ _ => cases hty
    | array _ _ => cases hty
    | other _ => cases hty
  | array _ _ => cases hty
  | other _ => cases hty

theorem handed_passedTo {V : Type} {params : List FnArg} (hview : ∀ arg ∈ params, arg.isView = true) (args : List V) :
    ∀ x ∈ handed (passedTo params args), x.2 = false := by
  fun_induction passedTo params args with
  | case1 ty params args h hty ih =>
    obtain ⟨hfirst, hrest⟩ := List.forall_mem_cons.mp hview
    have hparam : isHandleParam ty = true := by
      by_contra hparam
      rw [handle?_of_not_isHandleParam (Bool.not_eq_true _ ▸ hparam)] at hty
      cases hty
    have hmut : h.isMut = false := by
      rw [isMut_of_handle hty]
      simpa [FnArg.isView, hparam] using hfirst
    exact List.forall_mem_cons.mpr ⟨hmut, ih hrest⟩
  | case2 ty params hty v args ih => exact ih (List.forall_mem_cons.mp hview).2
  | case3 => exact List.forall_mem_nil _
  | case4 => exact List.forall_mem_nil _

/-- A view is passed no mutable handle. -/
theorem handed_of_isView {V : Type} {m : ImplItemFn} (hview : m.isView = true) (args : List V) :
    ∀ x ∈ handed (passedTo m.inputs args), x.2 = false :=
  handed_passedTo (List.all_eq_true.mp hview) args

/-! ## Calls in bytes -/

/-- Any call: a selector, the calldata behind it, the wei sent along. -/
structure Message where
  selector : Selector
  calldata : List UInt8
  value : U256

section

variable {c : Contract} {u : Usize} {block : ItemImpl} (code : Code c u block) (keccak : List UInt8 → U256)
  (host : Host) (e : Expansion)

/-- A call as a transaction, with the bytes it returns. -/
def Message.send (msg : Message) (m : Machine) : Option (List UInt8 × Machine) :=
  e.dispatchImpl.dispatch u (code.runtime keccak) msg.selector msg.calldata msg.value (fresh m)

/-- The method a call reaches. -/
def Message.target (msg : Message) : Option ImplItemFn :=
  e.dispatchImpl.target msg.selector msg.calldata msg.value

/-- A call that can write: the method it reaches has a `&mut` handle and can decode its arguments. -/
def Message.writes (u : Usize) (msg : Message) : Bool :=
  (msg.target e).any fun k => !k.isView && (decodeWritten u k.abiTypes msg.calldata).isOk

/-- The functions reach storage only through the handles they are passed, and drop only what was acquired so. -/
def Code.Bounded : Prop := ∀ name passed, (code.body name passed).Only (Ask.through (handed passed))

variable {code keccak host e}

variable (code keccak) in
/-- A call runs the function of its method, unless it reaches none or one that cannot decode its arguments. -/
theorem dispatch_cases (h : expandContract host block = .ok e) (msg : Message) :
    (msg.writes e u = false ∧ ∃ bytes, ∀ m,
      e.dispatchImpl.dispatch u (code.runtime keccak) msg.selector msg.calldata msg.value m = some (bytes, m)) ∨
      ∃ k args, msg.writes e u = !k.isView ∧ ∀ m,
        e.dispatchImpl.dispatch u (code.runtime keccak) msg.selector msg.calldata msg.value m =
          ((code.bodyOf k args).run (c.surroundings keccak) m).map (Prod.map (encodeWritten u k.output) id) := by
  simp only [dispatch_eq h, Message.writes]
  show _ ∨ ∃ k args, _ ∧ ∀ m, runTarget u _ _ (msg.target e) m = _
  rw [← Message.target]
  cases htarget : msg.target e with
  | none => exact .inl ⟨rfl, [], fun m => rfl⟩
  | some k =>
    cases hdecode : decodeWritten u k.abiTypes msg.calldata with
    | error err => exact .inl ⟨by simp [hdecode, Except.isOk, Except.toBool], _, run_of_error hdecode⟩
    | ok args => exact .inr ⟨k, args, by simp [hdecode, Except.isOk, Except.toBool], run_of_ok hdecode⟩

variable (code keccak) in
/-- Machines with the same words take a call alike. -/
theorem dispatch_same (h : expandContract host block = .ok e) (msg : Message) {m m' : Machine} (hm : SameWords m m') :
    Prog.Alike SameWords (e.dispatchImpl.dispatch u (code.runtime keccak) msg.selector msg.calldata msg.value m)
      (e.dispatchImpl.dispatch u (code.runtime keccak) msg.selector msg.calldata msg.value m') := by
  rcases dispatch_cases code keccak h msg with ⟨-, bytes, hrun⟩ | ⟨k, args, -, hrun⟩
  · rw [hrun, hrun]
    exact .some ⟨rfl, hm⟩
  · have halike := Prog.run_related (P := Set.univ) (fun i _ m m' => asks_same keccak i m m')
      (Prog.asks_univ _ (code.bodyOf k args) m') hm
    rw [hrun, hrun]
    generalize (code.bodyOf k args).run (c.surroundings keccak) m = x at halike ⊢
    generalize (code.bodyOf k args).run (c.surroundings keccak) m' = y at halike ⊢
    cases halike with
    | some hxy => exact .some ⟨congrArg (encodeWritten u k.output) hxy.1, hxy.2⟩
    | none => exact .none

/-- A call that cannot write leaves the words. -/
theorem dispatch_quiet (h : expandContract host block = .ok e) (hbounded : code.Bounded) {msg : Message}
    (hquiet : msg.writes e u = false) {m : Machine} {x : List UInt8 × Machine}
    (hx : e.dispatchImpl.dispatch u (code.runtime keccak) msg.selector msg.calldata msg.value m = some x) :
    words x.2 = words m := by
  rcases dispatch_cases code keccak h msg with ⟨-, bytes, hrun⟩ | ⟨k, args, hwrites, hrun⟩
  · rw [hrun] at hx
    obtain rfl := Option.some.inj hx
    rfl
  · have hview : k.isView = true := by simpa [hquiet] using hwrites
    rw [hrun] at hx
    obtain ⟨y, hy, rfl⟩ := Option.map_eq_some_iff.mp hx
    have honly := hbounded k.ident (passedTo k.inputs args)
    exact honly.keeps (fun i hi m x => keeps_words (handed_of_isView hview args) i hi m x) hy

/-! ## Sessions -/

/-- Machines with the same storage are the same at the start of a transaction. -/
def SameStorage (m m' : Machine) : Prop := m.storage = m'.storage

theorem SameStorage.fresh {m m' : Machine} (h : SameStorage m m') : SameWords (fresh m) (fresh m') := by
  funext ⟨space, slot⟩
  cases space with
  | persistent => exact congrFun h slot
  | transient => rfl

theorem sameStorage_of_words {m m' : Machine} (h : words m = words m') : SameStorage m m' :=
  funext fun slot => congrFun h (.persistent, slot)

/-- **Calls that cannot write change no word, and leaving them out of a session changes nothing**: the others are
answered as they were, and at the end the storage is the same. -/
theorem quiet_calls_change_nothing (h : expandContract host block = .ok e) (hbounded : code.Bounded)
    (msgs : List Message) (m : Machine) :
    (∀ msg ∈ msgs, msg.writes e u = false → ∀ m x,
      e.dispatchImpl.dispatch u (code.runtime keccak) msg.selector msg.calldata msg.value m = some x →
        words x.2 = words m) ∧
    (msgs.zip (serve (Message.send code keccak e) msgs m).1).filter (fun x => x.1.writes e u) =
      (msgs.filter (Message.writes e u)).zip
        (serve (Message.send code keccak e) (msgs.filter (Message.writes e u)) m).1 ∧
    (serve (Message.send code keccak e) msgs m).2.storage =
      (serve (Message.send code keccak e) (msgs.filter (Message.writes e u)) m).2.storage := by
  refine ⟨fun msg _ hquiet m x => dispatch_quiet h hbounded hquiet, ?_⟩
  refine serve_filter (S := SameStorage) (fun msg m m' hm => ?_) (fun msg m m' hquiet hm => ?_) rfl
  · have halike := dispatch_same code keccak h msg hm.fresh
    rw [Message.send, Message.send]
    generalize e.dispatchImpl.dispatch u (code.runtime keccak) _ _ _ (fresh m) = x at halike ⊢
    generalize e.dispatchImpl.dispatch u (code.runtime keccak) _ _ _ (fresh m') = y at halike ⊢
    cases halike with
    | some hxy => exact .some ⟨hxy.1, sameStorage_of_words hxy.2⟩
    | none => exact .none
  · rw [after]
    cases hsend : msg.send code keccak e m with
    | none => exact hm
    | some x => exact (sameStorage_of_words (dispatch_quiet h hbounded hquiet hsend)).trans hm

end

/-! ## Balances -/

/-- What is done in the ledger goes through its handles. -/
theorem ledger_bounded : ledgerCode.Bounded := by
  intro name passed
  show (ledgerBody name passed).Only (Ask.through (handed passed))
  fun_cases ledgerBody name passed with
  | case1 layoutTy supply => exact ⟨List.mem_cons_self, fun _ => trivial⟩
  | case2 layoutTy who amount =>
    have hlock : (HandleKind.persistent, true) ∈ handed [.handle .persistent true layoutTy,
        .arg ⟨.address, who⟩, .arg (⟨.u256, amount⟩ : Arg)] := List.mem_cons_self
    exact ⟨⟨_, hlock⟩, fun _ => ⟨hlock, fun _ => ⟨⟨_, hlock⟩, fun _ => trivial⟩⟩⟩
  | case3 layoutTy who => exact ⟨⟨false, List.mem_cons_self⟩, fun _ => trivial⟩
  | case4 => trivial

/-- A credit, a look at the balance, and a call without arguments to a method that wants some. -/
def ledgerMessages : List Message :=
  [⟨.ofNat 4 0, encodeArgs .u32 [⟨.address, alice⟩, ⟨.u256, U256.fromU64 5⟩], U256.zero⟩,
    ⟨.ofNat 4 0x70a08231, encodeArgs .u32 [⟨.address, alice⟩], U256.zero⟩,
    ⟨.ofNat 4 0, [], U256.zero⟩]

/-- Only the credit can write. -/
theorem ledgerMessages_writes : ∃ e, expandContract ledgerHost ledgerBlock = .ok e ∧
    ledgerMessages.filter (Message.writes e .u32) = ledgerMessages.take 1 := ⟨_, rfl, rfl⟩

theorem quiet_calls_change_nothing_ledger : ∃ e, expandContract ledgerHost ledgerBlock = .ok e ∧
    (serve (Message.send ledgerCode vaultKeccak e) ledgerMessages (freshMachine fun _ => 0)).2.storage =
      (serve (Message.send ledgerCode vaultKeccak e) (ledgerMessages.take 1) (freshMachine fun _ => 0)).2.storage := by
  obtain ⟨e, he, hwrites⟩ := ledgerMessages_writes
  obtain ⟨-, -, hstorage⟩ :=
    quiet_calls_change_nothing he ledger_bounded ledgerMessages (freshMachine fun _ => 0)
  rw [hwrites] at hstorage
  exact ⟨e, he, hstorage⟩

end Client

end RustEvm
