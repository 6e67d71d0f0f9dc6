import RustEvm.Ir.Finished

/-!
# RustEvm.Ir.Results — every instruction has the results its operation produces

How many results an operation has is decided twice: by `resultCount`, and by the types each emitting method asks for.
The instructions of a build are those its calls asked for, one each and in order (`made_run`), so the two agree over a
whole build exactly when they agree at its raw opcodes, where the caller picks the number by picking the method
(`results_iff`).
-/

namespace RustEvm.Ir

open Isa Codegen

/-! ## The calls -/

/-- The emitting method an action calls. -/
def Action.ins? : Action → Option InsCall
  | emit call => some call
  | _ => none

/-- The types of the values an action asks for. -/
def Action.valueTypes : Action → List Ty
  | create params => params
  | emit call => call.resultTypes
  | _ => []

/-- The calls of emitting methods, in order. -/
def insCalls (calls : List BuilderCall) : List InsCall := calls.filterMap fun c => c.action.ins?

/-- The types of the values that the signature and the calls ask for. -/
def valuesAsked (sig : Signature) (calls : List BuilderCall) : List Ty :=
  sig.params ++ calls.flatMap fun c => c.action.valueTypes

/-- The instructions and the values asked for fit the 32 bits of their handles. -/
structure WithinHandles (sig : Signature) (calls : List BuilderCall) : Prop where
  insts : (insCalls calls).length ≤ 2 ^ 32
  values : (valuesAsked sig calls).length ≤ 2 ^ 32

/-- A raw opcode is emitted by the method that mints as many results as the opcode pushes. -/
def InsCall.RightEntry : InsCall → Prop
  | opcode mnemonic _ _ => ∀ spec, byMnemonic mnemonic = some spec → spec.stackOut = 1
  | opcodeVoid mnemonic _ => ∀ spec, byMnemonic mnemonic = some spec → spec.stackOut = 0
  | _ => True

/-- An opcode that may be inlined raw pushes one word or none. -/
theorem stackOut_le_one : ∀ spec ∈ OPCODES, InsBuilder.reserved spec = none → spec.stackOut ≤ 1 := by
  decide +kernel

/-- One of the two methods is right for it. -/
theorem rightEntry_opcode_iff {mnemonic : String} {spec : OpSpec} (h : rawSpec mnemonic = some spec) (ty : Ty)
    (args : List Value) :
    (InsCall.opcode mnemonic ty args).RightEntry ↔ ¬ (InsCall.opcodeVoid mnemonic args).RightEntry := by
  obtain ⟨hrow, hres⟩ := Option.filter_eq_some_iff.mp h
  have hle := stackOut_le_one spec (byMnemonic_mem hrow) (by simpa using hres)
  simp only [InsCall.RightEntry, hrow, Option.some.injEq, forall_eq']
  omega

theorem insCalls_concat (calls : List BuilderCall) (c : BuilderCall) :
    insCalls (calls ++ [c]) = insCalls calls ++ c.action.ins?.toList := by
  cases hc : c.action.ins? <;> simp [insCalls, hc]

theorem valuesAsked_concat (sig : Signature) (calls : List BuilderCall) (c : BuilderCall) :
    valuesAsked sig (calls ++ [c]) = valuesAsked sig calls ++ c.action.valueTypes := by
  simp [valuesAsked]

/-! ## How much is asked for -/

theorem Function.length_values_withBlock (f : Function) (params : List Ty) :
    (f.withBlock params).values.length = f.values.length + params.length := by
  have h : ∀ (tys : List Ty) (g : Function),
      (tys.foldl (fun f' ty => (f'.appendParam f.createBlock.2 ty).1) g).values.length =
        g.values.length + tys.length := by
    intro tys
    induction tys with
    | nil => exact fun g => rfl
    | cons ty tys ih =>
      intro g
      rw [List.foldl_cons, ih, appendParam, pushValue, List.length_cons]
      simp only [List.length_append, List.length_singleton]
      omega
  exact h params f.createBlock.1

theorem Function.length_values_appendInst (f : Function) (block : Block) (data : InstData) (tys : List Ty) :
    (f.appendInst block data tys).1.values.length = f.values.length + tys.length := by
  simp [appendInst, mintResults_eq, mintedData_eq, Site.data]

/-- An action that leaves no error adds the instruction and the values it asks for, and no others. -/
theorem FunctionBuilder.did_lengths {a : Action} {b b' : FunctionBuilder} (h : Did b a b') (he : b'.error = none) :
    b'.func.insts.length = b.func.insts.length + a.ins?.toList.length ∧
      b'.func.values.length = b.func.values.length + a.valueTypes.length := by
  cases h with
  | looked | marked | switched => exact ⟨rfl, rfl⟩
  | created params =>
    exact ⟨congrArg List.length (b.func.insts_withBlock params), b.func.length_values_withBlock params⟩
  | noted text =>
    rw [note]
    cases b.last with
    | none => exact ⟨rfl, rfl⟩
    | some inst => exact ⟨List.length_modify .., rfl⟩
  | ignored hw hne => exact absurd he hne
  | refused hnone hr => cases he
  | emitted hnone hr hc hb hq =>
    rw [Action.valueTypes, ← InsCall.request_resultTypes hq]
    exact ⟨b.func.length_insts_appendInst .., b.func.length_values_appendInst ..⟩
  | closed => exact ⟨rfl, rfl⟩

variable {name : String} {sig : Signature} {calls : List BuilderCall} {b : FunctionBuilder}

/-- Without an error the arenas hold what was asked for. -/
theorem lengths_run (hrun : (FunctionBuilder.new name sig).run calls = some b) (he : b.error = none) :
    b.func.insts.length = (insCalls calls).length ∧ b.func.values.length = (valuesAsked sig calls).length := by
  induction calls using List.reverseRecOn generalizing b with
  | nil =>
    obtain rfl := Option.some.inj hrun
    have h := FunctionBuilder.did_lengths (FunctionBuilder.did_new name sig) rfl
    exact ⟨h.1, h.2.trans (by simp [FunctionBuilder.empty, Action.valueTypes, valuesAsked])⟩
  | append_singleton calls c ih =>
    obtain ⟨b₁, reply, hrun₁, hlast⟩ := FunctionBuilder.run_concat.mp hrun
    have hdid := FunctionBuilder.step_did hlast
    obtain ⟨hi, hv⟩ := ih hrun₁ (did_accepted hdid he).1
    obtain ⟨hi', hv'⟩ := FunctionBuilder.did_lengths hdid he
    rw [insCalls_concat, valuesAsked_concat, List.length_append, List.length_append, ← hi, ← hv]
    exact ⟨hi', hv'⟩

theorem WithinHandles.fits (h : WithinHandles sig calls) (hrun : (FunctionBuilder.new name sig).run calls = some b)
    (he : b.error = none) : b.func.Fits := by
  obtain ⟨hi, hv⟩ := lengths_run hrun he
  exact ⟨hv ▸ h.values, hi ▸ h.insts⟩

/-! ## Made as asked -/

/-- The instruction has the operation and the result types its call asked for. -/
structure MadeBy (f : Function) (data : InstData) (call : InsCall) : Prop where
  request : ∃ g q, call.request g = some q ∧ data.op = q.op
  results : data.results.map f.valueType = call.resultTypes.map some

theorem MadeBy.mono {f f' : Function} {data : InstData} {call : InsCall} (h : MadeBy f data call)
    (hext : f.Extends f') : MadeBy f' data call :=
  ⟨h.request, map_valueType_mono (fun _ _ => hext.valueType) h.results⟩

/-- The instruction a request appends. -/
theorem madeBy_appended {f f' : Function} {call : InsCall} {q : Request} (hq : call.request f = some q)
    (hvalues : f'.values = f.values ++ Function.mintedData (Inst.new f.insts.length) 0 q.resultTypes)
    (hfit : f'.Fits) : MadeBy f' (f.appended q.data q.resultTypes) call := by
  refine ⟨⟨f, q, hq, rfl⟩, ?_⟩
  rw [← InsCall.request_resultTypes hq]
  refine valueType_minted_map (s := .inst (Inst.new f.insts.length)) ?_ hfit.values
  rw [hvalues, Function.mintedData_eq]

/-- **The instructions of a build** are those its calls asked for, one each and in order. -/
theorem made_run (hrun : (FunctionBuilder.new name sig).run calls = some b) (he : b.error = none)
    (hfit : b.func.Fits) : List.Forall₂ (MadeBy b.func) b.func.cores (insCalls calls) := by
  induction calls using List.reverseRecOn generalizing b with
  | nil =>
    obtain rfl := Option.some.inj hrun
    have hinsts := (FunctionBuilder.empty name sig).func.insts_withBlock sig.params
    have hcores : (FunctionBuilder.new name sig).func.cores = [] := congrArg (List.map InstData.core) hinsts
    rw [hcores]
    exact .nil
  | append_singleton calls c ih =>
    obtain ⟨b₁, reply, hrun₁, hlast⟩ := FunctionBuilder.run_concat.mp hrun
    obtain ⟨he₁, hcases⟩ := FunctionBuilder.step_cases hlast he
    have hext := FunctionBuilder.step_extends hlast he hfit
    have hmade := (ih hrun₁ he₁ (hext.fits hfit)).imp fun _ _ h => h.mono hext
    rw [insCalls_concat]
    rcases hcases with hemit | ⟨hsilent, -, hcores⟩
    · have hlt := hemit.fits hfit
      obtain ⟨call, q, block, rfl, hq, hfunc⟩ := hemit
      have hnew : MadeBy b.func (b₁.func.appended q.data q.resultTypes) call :=
        madeBy_appended hq (by rw [hfunc, Function.values_appendInst hlt]) hfit
      have hcores : b.func.cores = b₁.func.cores ++ [b₁.func.appended q.data q.resultTypes] := by
        rw [hfunc, Function.cores_appendInst hlt]
      rw [hcores]
      exact List.rel_append hmade (.cons hnew .nil)
    · have hnone : c.action.ins? = none := by
        cases c with
        | ins call => exact absurd rfl (hsilent call)
        | _ => rfl
      rw [hnone, hcores, Option.toList_none, List.append_nil]
      exact hmade

/-! ## The results of one instruction -/

/-- Its second result is whether the first overflowed. -/
def Op.Checked (op : Op) : Prop := op = .addOverflow ∨ op = .subOverflow ∨ op = .mulOverflow

/-- The instruction has the results of its operation: as many as `resultCount`, the second of a checked operation a
`BOOL`; an internal call one of each return type of the signature it was given. -/
structure HasItsResults (f : Function) (data : InstData) (call : InsCall) : Prop where
  count : (∀ callee, data.op ≠ .call callee) → data.results.length = data.op.resultCount
  checked : data.op.Checked → (data.results.map f.valueType)[1]? = some (some .BOOL)
  internal : ∀ callee, data.op = .call callee →
    ∃ sig args, call = .call callee sig args ∧ data.results.map f.valueType = sig.returns.map some

section

variable {f : Function} {data : InstData} {call : InsCall}

/-- Of most operations only the number of results is said. -/
theorem hasItsResults_iff_count (hchecked : ¬ data.op.Checked) (hcall : ∀ callee, data.op ≠ .call callee) :
    HasItsResults f data call ↔ data.results.length = data.op.resultCount :=
  ⟨fun h => h.count hcall,
    fun h => ⟨fun _ => h, fun hc => absurd hc hchecked, fun callee hc => absurd hc (hcall callee)⟩⟩

theorem hasItsResults_checked {ty : Ty} (hop : data.op.Checked)
    (hresults : data.results.map f.valueType = [some ty, some .BOOL]) : HasItsResults f data call := by
  have hlen : data.results.length = 2 := by simpa using congrArg List.length hresults
  refine ⟨fun _ => ?_, fun _ => by rw [hresults]; rfl, fun callee hc => ?_⟩
  · rcases hop with h | h | h <;> rw [h, hlen, Op.resultCount]
  · rcases hop with h | h | h <;> exact absurd (h.symm.trans hc) (by simp)

/-- **One instruction** has the results of its operation exactly when the right method emitted it. -/
theorem MadeBy.hasItsResults_iff (h : MadeBy f data call) : HasItsResults f data call ↔ call.RightEntry := by
  obtain ⟨⟨g, q, hq, hop⟩, hresults⟩ := h
  have hlen : data.results.length = call.resultTypes.length := by
    simpa using congrArg List.length hresults
  cases call with
  | opcode mnemonic ty args | opcodeVoid mnemonic args =>
    obtain ⟨spec, hspec, rfl⟩ := Option.map_eq_some_iff.mp hq
    have hrow : byMnemonic mnemonic = some spec := (Option.filter_eq_some_iff.mp hspec).1
    have hcount : data.op.resultCount = spec.stackOut := by rw [hop, Op.resultCount]
    rw [hasItsResults_iff_count (by simp [hop, Op.Checked]) (by simp [hop]), hcount, hlen, InsCall.RightEntry, hrow]
    simp [InsCall.resultTypes, eq_comm]
  | addOverflow ty x y | subOverflow ty x y | mulOverflow ty x y =>
    obtain rfl := Option.some.inj hq
    exact iff_of_true (hasItsResults_checked (by simp [hop, Op.Checked, Request.checked]) hresults) trivial
  | call callee sig args =>
    obtain rfl := Option.some.inj hq
    refine iff_of_true ⟨fun hc => absurd hop (hc callee), by simp [hop, Op.Checked], fun callee' hc => ?_⟩ trivial
    obtain rfl := Op.call.inj (hop.symm.trans hc)
    exact ⟨sig, args, rfl, hresults⟩
  | convert dst value | store ptr value | sstore key value | tstore key value =>
    obtain ⟨ty, -, rfl⟩ := Option.map_eq_some_iff.mp hq
    refine iff_of_true ((hasItsResults_iff_count (by simp [hop, Op.Checked]) (by simp [hop])).mpr ?_) trivial
    rw [hlen, hop]
    rfl
  | _ =>
    obtain rfl := Option.some.inj hq
    refine iff_of_true ((hasItsResults_iff_count (by simp [hop, Op.Checked, Request.unaryOp])
      (by simp [hop, Request.unaryOp])).mpr ?_) trivial
    rw [hlen, hop]
    rfl

end

/-! ## A whole build -/

theorem forall₂_iff_forall_right {α β : Type*} {R S : α → β → Prop} {P : β → Prop} {l : List α} {l' : List β}
    (h : List.Forall₂ R l l') (hiff : ∀ x y, R x y → (S x y ↔ P y)) : List.Forall₂ S l l' ↔ ∀ y ∈ l', P y := by
  induction h with
  | nil => simp
  | cons hxy _ ih => rw [List.forall₂_cons, List.forall_mem_cons, hiff _ _ hxy, ih]

/-- **Every instruction has the results its operation produces** exactly when every raw opcode was emitted by the
method that mints as many as the opcode pushes. -/
theorem results_iff {f : Function} (hrun : (FunctionBuilder.new name sig).run calls = some b)
    (hfinish : b.finish = .ok f) (hfit : WithinHandles sig calls) :
    List.Forall₂ (HasItsResults f) f.insts (insCalls calls) ↔ ∀ call ∈ insCalls calls, call.RightEntry := by
  obtain ⟨he, rfl⟩ := FunctionBuilder.finish_eq_ok hfinish
  have hmade := made_run hrun he (hfit.fits hrun he)
  rw [Function.cores, List.forall₂_map_left_iff] at hmade
  refine forall₂_iff_forall_right hmade fun data call h => ?_
  have hdata : MadeBy b.func data call := ⟨h.request, h.results⟩
  exact hdata.hasItsResults_iff

theorem results_iff_checked_add :
    List.Forall₂ (HasItsResults checkedAddBuilder.func) checkedAddBuilder.func.insts (insCalls checkedAddCalls) ↔
      ∀ call ∈ insCalls checkedAddCalls, call.RightEntry := by
  have hrun : (FunctionBuilder.new "f" ⟨[.U256, .U256], [.U8]⟩).run checkedAddCalls = some checkedAddBuilder :=
    (Option.some_get _).symm
  exact results_iff hrun rfl ⟨by decide, by decide⟩

/-- `SSTORE` with a result. -/
def namedStore : List BuilderCall := [.ins (.opcode "SSTORE" .U256 [Value.new 0, Value.new 0]), .stop]

/-- `SLOAD` without one. -/
def unnamedLoad : List BuilderCall := [.ins (.opcodeVoid "SLOAD" [Value.new 0]), .stop]

/-- **The wrong method** mints a result for an opcode that pushes none, and none for one that pushes a word. -/
theorem results_fail :
    (∃ b f, (FunctionBuilder.new "f" ⟨[.U256], []⟩).run namedStore = some b ∧ b.finish = .ok f ∧
      ¬ List.Forall₂ (HasItsResults f) f.insts (insCalls namedStore)) ∧
    ∃ b f, (FunctionBuilder.new "f" ⟨[.U256], []⟩).run unnamedLoad = some b ∧ b.finish = .ok f ∧
      ¬ List.Forall₂ (HasItsResults f) f.insts (insCalls unnamedLoad) := by
  refine ⟨⟨_, _, rfl, rfl, fun h => ?_⟩, _, _, rfl, rfl, fun h => ?_⟩
  · have hcount := (List.forall₂_cons.mp h).1.count fun callee hc => Op.noConfusion hc
    exact absurd hcount (by decide)
  · have hcount := (List.forall₂_cons.mp h).1.count fun callee hc => Op.noConfusion hc
    exact absurd hcount (by decide)

end RustEvm.Ir
