import RustEvm.Ir.Builder

/-!
# RustEvm.Ir.BuilderSpec — what one builder call does

`InsCall.request` is what an emitting call asks for, given the function built so far.  An `Action` is what a call
attempts, `Did` what an action can do to the builder, and `step_did` that every call does what its action can.  For a
call that leaves no error `step_cases` says it of the function: one requested instruction is appended, or the
instructions stay but for a note.  So along a run the values and the instructions, notes aside, only grow (`Extends`).
-/

namespace RustEvm.Ir

open Isa Codegen

/-! ## Requests -/

/-- An instruction as an emitting method asks for it. -/
structure Request where
  op : Op
  ty : Ty
  repair : Repair
  args : List Value
  resultTypes : List Ty

/-- One result, and the repair the operation implies for it. -/
def Request.unaryOp (op : Op) (ty : Ty) (args : List Value) : Request :=
  { op, ty, repair := op.defaultRepair ty, args, resultTypes := [ty] }

def Request.checked (op : Op) (ty : Ty) (x y : Value) : Request :=
  { op, ty, repair := op.defaultRepair ty, args := [x, y], resultTypes := [ty, .BOOL] }

/-- The table row of an opcode that may be inlined raw. -/
def rawSpec (mnemonic : String) : Option OpSpec :=
  (byMnemonic mnemonic).filter fun spec => (InsBuilder.reserved spec).isNone

/-- What a call asks for; `none` where it panics or the opcode is rejected. -/
def InsCall.request (f : Function) : InsCall → Option Request
  | iconst ty value => some (.unaryOp (.const value) ty [])
  | add ty x y => some (.unaryOp .add ty [x, y])
  | sub ty x y => some (.unaryOp .sub ty [x, y])
  | mul ty x y => some (.unaryOp .mul ty [x, y])
  | div ty x y => some (.unaryOp .div ty [x, y])
  | rem ty x y => some (.unaryOp .rem ty [x, y])
  | exp ty x y => some (.unaryOp .exp ty [x, y])
  | addOverflow ty x y => some (.checked .addOverflow ty x y)
  | subOverflow ty x y => some (.checked .subOverflow ty x y)
  | mulOverflow ty x y => some (.checked .mulOverflow ty x y)
  | and ty x y => some (.unaryOp .and ty [x, y])
  | or ty x y => some (.unaryOp .or ty [x, y])
  | xor ty x y => some (.unaryOp .xor ty [x, y])
  | not ty value => some (.unaryOp .not ty [value])
  | shl ty value shift => some (.unaryOp .shl ty [value, shift])
  | shr ty value shift => some (.unaryOp .shr ty [value, shift])
  | sar ty value shift => some (.unaryOp .sar ty [value, shift])
  | convert dst value =>
    (f.valueType value).map fun src => ⟨.convert, dst, .forConvert src dst, [value], [dst]⟩
  | icmp cmp x y => some (.unaryOp (.icmp cmp) .BOOL [x, y])
  | select ty cond thn otherwise => some (.unaryOp .select ty [cond, thn, otherwise])
  | alloca bytes => some (.unaryOp (.alloca bytes) .PTR [])
  | load ty ptr => some (.unaryOp .load ty [ptr])
  | store ptr value => (f.valueType value).map fun ty => ⟨.store, ty, .none, [ptr, value], []⟩
  | memcopy dst src len => some ⟨.memCopy, .PTR, .none, [dst, src, len], []⟩
  | sload ty key => some (.unaryOp .sload ty [key])
  | sstore key value => (f.valueType value).map fun ty => ⟨.sstore, ty, .none, [key, value], []⟩
  | tload ty key => some (.unaryOp .tload ty [key])
  | tstore key value => (f.valueType value).map fun ty => ⟨.tstore, ty, .none, [key, value], []⟩
  | opcode mnemonic ty args => (rawSpec mnemonic).map fun spec => ⟨.opcode spec, ty, .none, args, [ty]⟩
  | opcodeVoid mnemonic args => (rawSpec mnemonic).map fun spec => ⟨.opcode spec, .U256, .none, args, []⟩
  | call callee sig args => some ⟨.call callee, sig.returns.head?.getD .U256, .none, args, sig.returns⟩

def FunctionBuilder.emitRequest (b : FunctionBuilder) (q : Request) : Option (FunctionBuilder × List Value) :=
  b.emit q.op q.ty q.repair q.args q.resultTypes

/-- The instruction of a request, as it is handed to the arena. -/
def Request.data (q : Request) : InstData :=
  { op := q.op, ty := q.ty, repair := q.repair, args := q.args, results := [], note := none }

/-! ## Actions -/

/-- What a call of the interface is about. -/
inductive Action
  | look
  | create (params : List Ty)
  | mark (block : Block) (kind : BlockKind)
  | switch (block : Block)
  | note (text : String)
  | emit (call : InsCall)
  | close (term : Terminator)

def BuilderCall.action : BuilderCall → Action
  | param _ | blockParam _ _ => .look
  | createBlock => .create []
  | createBlockWith params => .create params
  | setBlockKind block kind => .mark block kind
  | switchTo block => .switch block
  | note text => .note text
  | ins call => .emit call
  | jump target args => .close (.jump ⟨target, args⟩)
  | brif cond thn thenArgs otherwise elseArgs => .close (.brif cond ⟨thn, thenArgs⟩ ⟨otherwise, elseArgs⟩)
  | switch on cases default =>
    .close (.switch on (cases.map fun (value, block) => (value, ⟨block, []⟩)) ⟨default, []⟩)
  | ret values => .close (.ret values)
  | stop => .close .stop
  | returnData ptr len => .close (.returnData ptr len)
  | revert ptr len => .close (.revert ptr len)
  | selfdestruct beneficiary => .close (.selfDestruct beneficiary)
  | invalid => .close .invalid
  | unreachable => .close .unreachable

/-- It writes into the current block. -/
def Action.writes : Action → Bool
  | emit _ | close _ => true
  | _ => false

/-- Why an opcode may not be inlined raw, if it may not. -/
def rawRejection (mnemonic : String) : Option IrError :=
  match byMnemonic mnemonic with
  | none => some (.unknownMnemonic mnemonic)
  | some spec => (InsBuilder.reserved spec).map (.reservedOpcode spec.mnemonic)

/-- The error of an emitting call that no state could accept. -/
def InsCall.rejection : InsCall → Option IrError
  | opcode mnemonic _ _ | opcodeVoid mnemonic _ => rawRejection mnemonic
  | _ => none

/-- Why nothing can be written now, given the current block and which blocks are terminated. -/
def closedError (current : Option Block) (terminated : Block → Bool) : Option IrError :=
  match current with
  | none => some .noCurrentBlock
  | some block => if terminated block then some (.alreadyTerminated block) else none

/-- The error an action raises itself where there is none yet. -/
def Action.refusal (current : Option Block) (terminated : Block → Bool) : Action → Option IrError
  | emit call => call.rejection.or (closedError current terminated)
  | close _ => closedError current terminated
  | _ => none

/-- A new block with parameters. -/
def Function.withBlock (f : Function) (params : List Ty) : Function :=
  params.foldl (fun f' ty => (f'.appendParam f.createBlock.2 ty).1) f.createBlock.1

namespace FunctionBuilder

def terminated (b : FunctionBuilder) (block : Block) : Bool :=
  (b.func.blocks[block.index]?).any fun data => data.term.isSome

def refusal (b : FunctionBuilder) (a : Action) : Option IrError := a.refusal b.current b.terminated

def emitted (b : FunctionBuilder) (block : Block) (q : Request) : FunctionBuilder :=
  { b with
    func := (b.func.appendInst block q.data q.resultTypes).1
    last := some (b.func.appendInst block q.data q.resultTypes).2 }

def closed (b : FunctionBuilder) (block : Block) (term : Terminator) : FunctionBuilder :=
  { b with func := b.func.setTerminator block term, current := none, last := none }

/-- What an action did to the builder. -/
inductive Did (b : FunctionBuilder) : Action → FunctionBuilder → Prop
  | looked : Did b .look b
  | created (params : List Ty) : Did b (.create params) { b with func := b.func.withBlock params }
  | marked (block : Block) (kind : BlockKind) :
      Did b (.mark block kind) { b with func := b.func.setBlockKind block kind }
  | switched (block : Block) : Did b (.switch block) (b.switchTo block)
  | noted (text : String) : Did b (.note text) (b.note text)
  | ignored {a : Action} (hw : a.writes) (he : b.error ≠ none) : Did b a b
  | refused {a : Action} {e : IrError} (he : b.error = none) (hr : b.refusal a = some e) :
      Did b a { b with error := some e }
  | emitted {call : InsCall} {q : Request} {block : Block} (he : b.error = none)
      (hr : b.refusal (.emit call) = none) (hc : b.current = some block)
      (hb : block.index < b.func.blocks.length) (hq : call.request b.func = some q) :
      Did b (.emit call) (b.emitted block q)
  | closed {term : Terminator} {block : Block} (he : b.error = none) (hr : b.refusal (.close term) = none)
      (hc : b.current = some block) (hb : block.index < b.func.blocks.length) :
      Did b (.close term) (b.closed block term)

variable {b b' : FunctionBuilder}

theorem fail_of_none (he : b.error = none) (e : IrError) : b.fail e = { b with error := some e } := by
  simp [fail, he]

theorem fail_of_some (he : b.error ≠ none) (e : IrError) : b.fail e = b := by
  obtain ⟨e', he'⟩ := Option.ne_none_iff_exists'.mp he
  cases b
  simp_all [fail]

/-- What `emit` and `terminate` check before they write: `halted` after an error, `refuse` where nothing can be written,
else `write` to the current block.  A current block that is not there is a panic. -/
def gated {α : Type} (b : FunctionBuilder) (halted : α) (refuse : IrError → α) (write : Block → α) : Option α :=
  if b.error.isSome then some halted
  else match b.current with
  | none => some (refuse .noCurrentBlock)
  | some block =>
    match b.func.blocks[block.index]? with
    | none => none
    | some data => if data.term.isSome then some (refuse (.alreadyTerminated block)) else some (write block)

theorem emitRequest_eq (q : Request) :
    b.emitRequest q = b.gated (b, placeholder q.resultTypes.length)
      (fun e => (b.fail e, placeholder q.resultTypes.length))
      (fun block =>
        (b.emitted block q, (b.emitted block q).func.results (b.func.appendInst block q.data q.resultTypes).2)) :=
  rfl

theorem terminate_eq (term : Terminator) :
    b.terminate term = b.gated b b.fail (fun block => b.closed block term) := rfl

/-- **The checks** end one of three ways. -/
theorem gated_cases {α : Type} {halted r : α} {refuse : IrError → α} {write : Block → α}
    (h : b.gated halted refuse write = some r) :
    (b.error ≠ none ∧ r = halted) ∨
    (b.error = none ∧ ∃ e, closedError b.current b.terminated = some e ∧ r = refuse e) ∨
    (b.error = none ∧ closedError b.current b.terminated = none ∧
      ∃ block, b.current = some block ∧ block.index < b.func.blocks.length ∧ r = write block) := by
  unfold gated at h
  by_cases he : b.error = none
  · rw [if_neg (by simp [he])] at h
    right
    cases hcur : b.current with
    | none =>
      rw [hcur] at h
      obtain rfl := Option.some.inj h
      exact .inl ⟨he, .noCurrentBlock, rfl, rfl⟩
    | some block =>
      rw [hcur] at h
      simp only at h
      cases hblock : b.func.blocks[block.index]? with
      | none =>
        rw [hblock] at h
        exact absurd h (by simp)
      | some data =>
        rw [hblock] at h
        simp only at h
        by_cases ht : data.term.isSome
        · rw [if_pos ht] at h
          obtain rfl := Option.some.inj h
          exact .inl ⟨he, .alreadyTerminated block, by simp [closedError, terminated, hblock, ht], rfl⟩
        · rw [if_neg ht] at h
          obtain rfl := Option.some.inj h
          exact .inr ⟨he, by simp [closedError, terminated, hblock, ht], block, rfl,
            (List.getElem?_eq_some_iff.mp hblock).1, rfl⟩
  · have hsome : b.error.isSome := Option.isSome_iff_ne_none.mpr he
    rw [if_pos hsome] at h
    obtain rfl := Option.some.inj h
    exact .inl ⟨he, rfl⟩

/-- They end at all, where the current block is there. -/
theorem gated_returns {α : Type} (hb : ∀ block, b.current = some block → block.index < b.func.blocks.length)
    (halted : α) (refuse : IrError → α) (write : Block → α) : ∃ r, b.gated halted refuse write = some r := by
  unfold gated
  by_cases he : b.error.isSome
  · rw [if_pos he]
    exact ⟨_, rfl⟩
  · rw [if_neg he]
    cases hcur : b.current with
    | none => exact ⟨_, rfl⟩
    | some block =>
      have hi := hb block hcur
      simp only [List.getElem?_eq_getElem hi]
      by_cases ht : b.func.blocks[block.index].term.isSome
      · rw [if_pos ht]
        exact ⟨_, rfl⟩
      · rw [if_neg ht]
        exact ⟨_, rfl⟩

theorem did_emit {call : InsCall} {q : Request} {vs : List Value} (hrej : call.rejection = none)
    (hq : call.request b.func = some q) (h : b.emitRequest q = some (b', vs)) : Did b (.emit call) b' := by
  have hrefusal : b.refusal (.emit call) = closedError b.current b.terminated := by
    rw [refusal, Action.refusal, hrej, Option.none_or]
  rw [emitRequest_eq] at h
  rcases gated_cases h with ⟨he, heq⟩ | ⟨he, e, hc, heq⟩ | ⟨he, hc, block, hcur, hb, heq⟩
  · obtain ⟨rfl, -⟩ := Prod.mk.inj heq
    exact .ignored rfl he
  · obtain ⟨rfl, -⟩ := Prod.mk.inj heq
    rw [fail_of_none he]
    exact .refused he (hrefusal.trans hc)
  · obtain ⟨rfl, -⟩ := Prod.mk.inj heq
    exact .emitted he (hrefusal.trans hc) hcur hb hq

/-- A rejected opcode records its rejection, or finds an error there. -/
theorem did_fail {call : InsCall} {e : IrError} (hrej : call.rejection = some e) : Did b (.emit call) (b.fail e) := by
  by_cases he : b.error = none
  · rw [fail_of_none he]
    exact .refused he (by rw [refusal, Action.refusal, hrej, Option.some_or])
  · rw [fail_of_some he]
    exact .ignored rfl he

theorem did_rawOpcode {call : InsCall} {mnemonic : String} {ty : Ty} {args : List Value} {n : ℕ}
    {vs : Option (List Value)} (hrej : call.rejection = rawRejection mnemonic)
    (hq : call.request b.func =
      (rawSpec mnemonic).map fun spec => ⟨.opcode spec, ty, .none, args, List.replicate n ty⟩)
    (h : InsBuilder.rawOpcode b mnemonic ty args n = some (b', vs)) : Did b (.emit call) b' := by
  unfold InsBuilder.rawOpcode at h
  unfold rawRejection at hrej
  cases hrow : byMnemonic mnemonic with
  | none =>
    rw [hrow] at h hrej
    obtain ⟨rfl, -⟩ := Prod.mk.inj (Option.some.inj h)
    exact did_fail hrej
  | some spec =>
    rw [hrow] at h hrej
    simp only at h hrej
    cases hres : InsBuilder.reserved spec with
    | some reason =>
      rw [hres] at h hrej
      obtain ⟨rfl, -⟩ := Prod.mk.inj (Option.some.inj h)
      exact did_fail hrej
    | none =>
      rw [hres] at h hrej
      obtain ⟨⟨b'', vs''⟩, hemit, heq⟩ := Option.map_eq_some_iff.mp h
      obtain ⟨rfl, -⟩ := Prod.mk.inj heq
      have hspec : rawSpec mnemonic = some spec := by simp [rawSpec, hrow, hres]
      rw [hspec, Option.map_some] at hq
      exact did_emit hrej hq hemit

theorem did_ins {call : InsCall} {vs : List Value} (h : call.run b = some (b', vs)) : Did b (.emit call) b' := by
  cases call with
  | convert dst value | store ptr value | sstore key value | tstore key value =>
    obtain ⟨ty, hty, hemit⟩ := Option.bind_eq_some_iff.mp h
    exact did_emit rfl (congrArg (Option.map _) hty) hemit
  | opcode mnemonic ty args | opcodeVoid mnemonic args =>
    obtain ⟨⟨b'', vs''⟩, hraw, heq⟩ := Option.map_eq_some_iff.mp h
    obtain ⟨rfl, -⟩ := Prod.mk.inj heq
    exact did_rawOpcode rfl rfl hraw
  | _ => exact did_emit rfl rfl h

theorem did_terminate {term : Terminator} (h : b.terminate term = some b') : Did b (.close term) b' := by
  rw [terminate_eq] at h
  rcases gated_cases h with ⟨he, rfl⟩ | ⟨he, e, hc, rfl⟩ | ⟨he, hc, block, hcur, hb, rfl⟩
  · exact .ignored rfl he
  · rw [fail_of_none he]
    exact .refused he hc
  · exact .closed he hc hcur hb

/-- **One call** does what its action is about. -/
theorem step_did {c : BuilderCall} {reply : Reply} (h : b.step c = some (b', reply)) : Did b c.action b' := by
  have hclose : ∀ {term : Terminator}, (b.terminate term).map (·, Reply.unit) = some (b', reply) →
      Did b (.close term) b' := by
    intro term h
    obtain ⟨b'', hb, heq⟩ := Option.map_eq_some_iff.mp h
    obtain ⟨rfl, -⟩ := Prod.mk.inj heq
    exact did_terminate hb
  cases c with
  | ins call =>
    obtain ⟨⟨b'', vs⟩, hrun, heq⟩ := Option.map_eq_some_iff.mp h
    obtain ⟨rfl, -⟩ := Prod.mk.inj heq
    exact did_ins hrun
  | param n | blockParam block n =>
    obtain ⟨v, -, heq⟩ := Option.map_eq_some_iff.mp h
    obtain ⟨rfl, -⟩ := Prod.mk.inj heq
    exact .looked
  | createBlock =>
    obtain ⟨rfl, -⟩ := Prod.mk.inj (Option.some.inj h)
    exact .created []
  | createBlockWith params =>
    obtain ⟨rfl, -⟩ := Prod.mk.inj (Option.some.inj h)
    exact .created params
  | setBlockKind block kind =>
    obtain ⟨b'', hb, heq⟩ := Option.map_eq_some_iff.mp h
    obtain ⟨rfl, -⟩ := Prod.mk.inj heq
    unfold setBlockKind at hb
    split at hb
    · obtain rfl := Option.some.inj hb
      exact .marked block kind
    · exact absurd hb (by simp)
  | switchTo block =>
    obtain ⟨rfl, -⟩ := Prod.mk.inj (Option.some.inj h)
    exact .switched block
  | note text =>
    obtain ⟨rfl, -⟩ := Prod.mk.inj (Option.some.inj h)
    exact .noted text
  | _ => exact hclose h

end FunctionBuilder

/-- A function is handed out where no call left an error. -/
theorem FunctionBuilder.finish_eq_ok {b : FunctionBuilder} {f : Function} (h : b.finish = .ok f) :
    b.error = none ∧ b.func = f := by
  unfold finish at h
  cases he : b.error with
  | none =>
    rw [he] at h
    exact ⟨rfl, Except.ok.inj h⟩
  | some e =>
    rw [he] at h
    cases h

/-! ## Growth -/

/-- The instruction without its note. -/
def InstData.core (d : InstData) : InstData := { d with note := none }

namespace Function

/-- The instructions of a function, notes aside. -/
def cores (f : Function) : List InstData := f.insts.map InstData.core

/-- Values and instructions, notes aside, only grew. -/
structure Extends (f f' : Function) : Prop where
  values : f.values <+: f'.values
  cores : f.cores <+: f'.cores

/-- The value and instruction arenas fit the 32 bits of their indices. -/
structure Fits (f : Function) : Prop where
  values : f.values.length ≤ 2 ^ 32
  insts : f.insts.length ≤ 2 ^ 32

theorem Extends.refl (f : Function) : Extends f f := ⟨List.prefix_rfl, List.prefix_rfl⟩

theorem Extends.trans {f g h : Function} (h1 : Extends f g) (h2 : Extends g h) : Extends f h :=
  ⟨h1.values.trans h2.values, h1.cores.trans h2.cores⟩

theorem Extends.fits {f f' : Function} (h : Extends f f') (hfit : f'.Fits) : f.Fits := by
  have hv := h.values.length_le
  have hc := h.cores.length_le
  simp only [Function.cores, List.length_map] at hc
  exact ⟨hv.trans hfit.values, hc.trans hfit.insts⟩

/-- A recorded type stays. -/
theorem Extends.valueType {f f' : Function} (h : Extends f f') {v : Value} {ty : Ty} (hty : f.valueType v = some ty) :
    f'.valueType v = some ty := by
  obtain ⟨rest, hrest⟩ := h.values
  obtain ⟨data, hdata, rfl⟩ := Option.map_eq_some_iff.mp hty
  have hlt := (List.getElem?_eq_some_iff.mp hdata).1
  rw [Function.valueType, ← hrest, List.getElem?_append_left hlt, hdata, Option.map_some]

theorem cores_setNote (f : Function) (inst : Inst) (text : String) : (f.setNote inst text).cores = f.cores := by
  apply List.ext_getElem?
  intro k
  simp only [cores, setNote, List.getElem?_map, List.getElem?_modify]
  cases f.insts[k]? with
  | none => rfl
  | some data =>
    by_cases hk : inst.index = k
    · simp [hk, InstData.core]
    · simp [hk]

/-- What one appended parameter preserves, a new block with all its parameters preserves. -/
theorem withBlock_induction {P : Function → Prop} (hstep : ∀ f block ty, P f → P (f.appendParam block ty).1)
    {f : Function} (h : P f.createBlock.1) (params : List Ty) : P (f.withBlock params) :=
  List.foldlRecOn params _ h fun f' h' ty _ => hstep f' _ ty h'

theorem withBlock_keeps {α : Type*} {g : Function → α} (hstep : ∀ f block ty, g (f.appendParam block ty).1 = g f)
    (f : Function) (params : List Ty) : g (f.withBlock params) = g f.createBlock.1 :=
  withBlock_induction (P := fun f' => g f' = g f.createBlock.1) (fun f' block ty h => (hstep f' block ty).trans h) rfl
    params

/-- A new block adds values. -/
theorem values_withBlock (f : Function) (params : List Ty) : f.values <+: (f.withBlock params).values :=
  withBlock_induction (P := fun f' => f.values <+: f'.values) (fun _ _ _ h => h.trans (List.prefix_append _ _))
    List.prefix_rfl params

/-- It leaves the instructions alone. -/
@[simp] theorem insts_withBlock (f : Function) (params : List Ty) : (f.withBlock params).insts = f.insts :=
  withBlock_keeps (g := Function.insts) (fun _ _ _ => rfl) f params

theorem length_insts_appendInst (f : Function) (block : Block) (data : InstData) (tys : List Ty) :
    (f.appendInst block data tys).1.insts.length = f.insts.length + 1 := by
  simp [appendInst, mintResults_eq]

/-- What appending an instruction adds, notes aside. -/
theorem cores_appendInst {f : Function} (hfit : f.insts.length < 2 ^ 32) (block : Block) (q : Request) :
    (f.appendInst block q.data q.resultTypes).1.cores = f.cores ++ [f.appended q.data q.resultTypes] := by
  rw [appendInst_eq hfit]
  simp [cores, InstData.core, appended, Request.data]

theorem values_appendInst {f : Function} (hfit : f.insts.length < 2 ^ 32) (block : Block) (q : Request) :
    (f.appendInst block q.data q.resultTypes).1.values =
      f.values ++ mintedData (Inst.new f.insts.length) 0 q.resultTypes := by
  rw [appendInst_eq hfit]

end Function

/-! ## One call -/

namespace FunctionBuilder

/-- The call emitted the instruction of its request. -/
def Emitted (b b' : FunctionBuilder) (c : BuilderCall) : Prop :=
  ∃ call q block, c = .ins call ∧ call.request b.func = some q ∧
    b'.func = (b.func.appendInst block q.data q.resultTypes).1

/-- The call emitted nothing: at most it added values that are parameters, or a note. -/
def Silent (b b' : FunctionBuilder) (c : BuilderCall) : Prop :=
  (∀ call, c ≠ .ins call) ∧ b.func.values <+: b'.func.values ∧ b'.func.cores = b.func.cores

theorem action_eq_emit {c : BuilderCall} {call : InsCall} : c.action = .emit call ↔ c = .ins call := by
  cases c <;> simp [BuilderCall.action]

/-- **One call** that leaves no error met none, and emitted its request or nothing. -/
theorem step_cases {b b' : FunctionBuilder} {c : BuilderCall} {reply : Reply} (h : b.step c = some (b', reply))
    (he : b'.error = none) : b.error = none ∧ (Emitted b b' c ∨ Silent b b' c) := by
  have hsilent : (∀ call, c.action ≠ .emit call) → ∀ call, c ≠ .ins call :=
    fun hne call hc => hne call (action_eq_emit.mpr hc)
  have hdid := step_did h
  generalize hact : c.action = a at hdid hsilent
  cases hdid with
  | emitted hnone hr hcur hb hq => exact ⟨hnone, .inl ⟨_, _, _, action_eq_emit.mp hact, hq, rfl⟩⟩
  | ignored hw hne => exact absurd he hne
  | refused hnone hr => cases he
  | looked => exact ⟨he, .inr ⟨hsilent fun _ h => Action.noConfusion h, List.prefix_rfl, rfl⟩⟩
  | created params =>
    have hinsts := b.func.insts_withBlock params
    exact ⟨he, .inr ⟨hsilent fun _ h => Action.noConfusion h, b.func.values_withBlock params,
      congrArg (List.map InstData.core) hinsts⟩⟩
  | marked block kind => exact ⟨he, .inr ⟨hsilent fun _ h => Action.noConfusion h, List.prefix_rfl, rfl⟩⟩
  | switched block => exact ⟨he, .inr ⟨hsilent fun _ h => Action.noConfusion h, List.prefix_rfl, rfl⟩⟩
  | noted text =>
    unfold note at he ⊢
    cases hlast : b.last with
    | none =>
      rw [hlast] at he
      exact ⟨he, .inr ⟨hsilent fun _ h => Action.noConfusion h, List.prefix_rfl, rfl⟩⟩
    | some inst =>
      rw [hlast] at he
      exact ⟨he, .inr ⟨hsilent fun _ h => Action.noConfusion h, List.prefix_rfl, b.func.cores_setNote inst text⟩⟩
  | closed hnone hr hcur hb => exact ⟨hnone, .inr ⟨hsilent fun _ h => Action.noConfusion h, List.prefix_rfl, rfl⟩⟩

theorem Emitted.fits {b b' : FunctionBuilder} {c : BuilderCall} (h : Emitted b b' c) (hfit : b'.func.Fits) :
    b.func.insts.length < 2 ^ 32 := by
  obtain ⟨call, q, block, -, -, hfunc⟩ := h
  have hlen := hfit.insts
  rw [hfunc, Function.length_insts_appendInst] at hlen
  omega

/-- Along a call that leaves no error the function only grows, its arenas fitting. -/
theorem step_extends {b b' : FunctionBuilder} {c : BuilderCall} {reply : Reply} (h : b.step c = some (b', reply))
    (he : b'.error = none) (hfit : b'.func.Fits) : b.func.Extends b'.func := by
  rcases (step_cases h he).2 with hemit | ⟨-, hv, hc⟩
  · have hlt := hemit.fits hfit
    obtain ⟨call, q, block, -, -, hfunc⟩ := hemit
    rw [hfunc]
    refine ⟨?_, ?_⟩
    · rw [Function.values_appendInst hlt]
      exact List.prefix_append _ _
    · rw [Function.cores_appendInst hlt]
      exact List.prefix_append _ _
  · exact ⟨hv, hc ▸ List.prefix_rfl⟩

/-! ## Runs -/

@[simp] theorem run_nil (b : FunctionBuilder) : b.run [] = some b := rfl

theorem run_append (b : FunctionBuilder) (calls calls' : List BuilderCall) :
    b.run (calls ++ calls') = (b.run calls).bind fun b' => b'.run calls' := by
  simp [run, List.foldlM_append]

theorem run_concat {b b' : FunctionBuilder} {calls : List BuilderCall} {c : BuilderCall} :
    b.run (calls ++ [c]) = some b' ↔ ∃ b₁ reply, b.run calls = some b₁ ∧ b₁.step c = some (b', reply) := by
  simp [run, List.foldlM_append, Option.bind_eq_some_iff]

/-- Errors are sticky over runs, and a run without an error only grows the function, its arenas fitting. -/
theorem run_extends {b b' : FunctionBuilder} {calls : List BuilderCall} (h : b.run calls = some b')
    (he : b'.error = none) (hfit : b'.func.Fits) : b.error = none ∧ b.func.Extends b'.func := by
  induction calls using List.reverseRecOn generalizing b' with
  | nil =>
    obtain rfl := Option.some.inj h
    exact ⟨he, .refl _⟩
  | append_singleton calls c ih =>
    obtain ⟨b₁, reply, hrun, hstep⟩ := run_concat.mp h
    have hext := step_extends hstep he hfit
    obtain ⟨herr, hext'⟩ := ih hrun (step_cases hstep he).1 (hext.fits hfit)
    exact ⟨herr, hext'.trans hext⟩

end FunctionBuilder

end RustEvm.Ir
