import RustEvm.Ir.BuilderSpec
import RustEvm.Ir.Repair

/-!
# RustEvm.Ir.Repaired — which narrow values the builder repairs

A finished function is `Repaired` when, whatever word an instruction's operation can produce from well-formed
operands, the repair stored on the instruction makes it a well-formed word of the type recorded on its first result.

Every emitting method stores a repair that does this (`request_sound`), save one: `opcode` stores `none` for any
result type, and a raw opcode can leave any word.  So a function built from well-typed calls is repaired exactly when
every raw opcode was asked for a result as wide as the slot (`repaired_iff_opcodes_wide`).
-/

namespace RustEvm.Ir

open Isa Codegen Evm Narrow

/-! ## The property -/

/-- What the stored repair owes, the first result being recorded at `ty`. -/
def InstData.RepairsTo (d : InstData) (f : Function) (ty : Ty) : Prop :=
  ∀ (args : List Operand) (r : Word), d.args.map f.valueType = args.map (fun a => some a.ty) →
    (∀ a ∈ args, a.WellFormed) → d.op.Produces d.ty args r → ty.Holds (d.repair.apply r)

/-- No instruction leaves a narrow value unrepaired. -/
def Function.Repaired (f : Function) : Prop :=
  ∀ d ∈ f.insts, ∀ v, d.results.head? = some v → ∃ ty, f.valueType v = some ty ∧ d.RepairsTo f ty

/-- The operands of a call exist and have the types its operation expects; its literal fits. -/
def InsCall.Typed (call : InsCall) (f : Function) : Prop :=
  ∀ q, call.request f = some q → ∃ tys, q.args.map f.valueType = tys.map some ∧ q.op.Expects q.ty tys

/-- Every emitting call of a run is typed in the state it meets. -/
def TypedRun (b : FunctionBuilder) (calls : List BuilderCall) : Prop :=
  ∀ pre call post b₁, calls = pre ++ .ins call :: post → b.run pre = some b₁ → call.Typed b₁.func

/-! ## One request -/

/-- The repair of a request brings whatever its operation can produce into its type. -/
def Request.Sound (q : Request) (f : Function) : Prop :=
  ∀ (args : List Operand) (r : Word), q.args.map f.valueType = args.map (fun a => some a.ty) →
    (∀ a ∈ args, a.WellFormed) → q.op.Produces q.ty args r → q.ty.Holds (q.repair.apply r)

theorem operand_types {vs : List Value} {f : Function} {tys : List Ty} {args : List Operand}
    (htys : vs.map f.valueType = tys.map some) (hargs : vs.map f.valueType = args.map fun a => some a.ty) :
    args.map Operand.ty = tys := by
  rw [htys] at hargs
  have h : tys.map some = (args.map Operand.ty).map some := by
    rw [List.map_map]
    exact hargs
  exact (List.map_injective_iff.mpr (Option.some_injective _) h).symm

/-- The default repair is sound for every operation but a cast. -/
theorem sound_default {q : Request} {f : Function} {tys : List Ty} (hop : q.op ≠ .convert)
    (hrep : q.repair = q.op.defaultRepair q.ty) (htys : q.args.map f.valueType = tys.map some)
    (hexp : q.op.Expects q.ty tys) : q.Sound f := by
  intro args r hargs hwf hr
  rw [hrep]
  rw [← operand_types htys hargs] at hexp
  exact holds_defaultRepair hop hexp hwf hr

/-- **Every emitting method but `opcode` stores a sound repair**; `opcode` does at a result as wide as the slot. -/
theorem request_sound {call : InsCall} {f : Function} {q : Request} (hq : call.request f = some q)
    (htyped : call.Typed f) (hwide : ∀ mnemonic ty args, call = .opcode mnemonic ty args → 256 ≤ ty.bits.toNat) :
    q.Sound f := by
  obtain ⟨tys, htys, hexp⟩ := htyped q hq
  cases call with
  | convert dst value =>
    obtain ⟨src, hsrc, rfl⟩ := Option.map_eq_some_iff.mp hq
    intro args r hargs hwf hr
    obtain ⟨a, rfl, rfl⟩ := hr
    obtain rfl : src = a.ty := by simpa [hsrc] using hargs
    exact holds_forConvert dst (hwf a (by simp))
  | store ptr value | sstore key value | tstore key value =>
    obtain ⟨ty, -, rfl⟩ := Option.map_eq_some_iff.mp hq
    exact fun args r _ _ hr => absurd hr id
  | memcopy dst src len =>
    obtain rfl := Option.some.inj hq
    exact fun args r _ _ hr => absurd hr id
  | opcode mnemonic ty args =>
    obtain ⟨spec, -, rfl⟩ := Option.map_eq_some_iff.mp hq
    exact fun _ r _ _ _ => Ty.holds_of_le (hwide mnemonic ty args rfl) r
  | opcodeVoid mnemonic args =>
    obtain ⟨spec, -, rfl⟩ := Option.map_eq_some_iff.mp hq
    exact fun _ r _ _ _ => Ty.holds_of_le (show 256 ≤ Ty.U256.bits.toNat by decide) r
  | call callee sig args =>
    obtain rfl := Option.some.inj hq
    exact fun _ r _ _ hr => hr
  | _ =>
    obtain rfl := Option.some.inj hq
    exact sound_default (by simp [Request.unaryOp, Request.checked]) rfl htys hexp

/-- A first result has the type of the instruction. -/
theorem request_head {call : InsCall} {f : Function} {q : Request} (hq : call.request f = some q)
    (hne : q.resultTypes ≠ []) : q.resultTypes.head? = some q.ty := by
  cases call with
  | convert dst value | store ptr value | sstore key value | tstore key value | opcode mnemonic ty args
    | opcodeVoid mnemonic args =>
    obtain ⟨_, -, rfl⟩ := Option.map_eq_some_iff.mp hq
    first | rfl | exact absurd rfl hne
  | memcopy dst src len =>
    obtain rfl := Option.some.inj hq
    exact absurd rfl hne
  | call callee sig args =>
    obtain rfl := Option.some.inj hq
    cases hret : sig.returns with
    | nil => exact absurd hret hne
    | cons ty tys => simp
  | _ =>
    obtain rfl := Option.some.inj hq
    rfl

/-! ## One call, one run -/

/-- What holds of every emitted instruction: its operands are typed, its first result is recorded at its type, and
its repair is sound for that type. -/
structure InstData.Good (d : InstData) (f : Function) : Prop where
  operands : ∃ tys : List Ty, d.args.map f.valueType = tys.map some
  recorded : ∀ v, d.results.head? = some v → f.valueType v = some d.ty
  repairs : d.RepairsTo f d.ty

/-- Growing the function keeps the recorded types of operands. -/
theorem map_valueType {f f' : Function} (hext : f.Extends f') {vs : List Value} {tys : List Ty}
    (htys : vs.map f.valueType = tys.map some) : vs.map f'.valueType = vs.map f.valueType := by
  refine List.map_congr_left fun v hv => ?_
  have hmem : f.valueType v ∈ tys.map some := htys ▸ List.mem_map_of_mem hv
  obtain ⟨ty, -, hty⟩ := List.mem_map.mp hmem
  rw [← hty, hext.valueType hty.symm]

theorem InstData.Good.mono {d : InstData} {f f' : Function} (h : d.Good f) (hext : f.Extends f') : d.Good f' := by
  obtain ⟨tys, htys⟩ := h.operands
  have hsame := map_valueType hext htys
  refine ⟨⟨tys, hsame.trans htys⟩, fun v hv => hext.valueType (h.recorded v hv), fun args r hargs => ?_⟩
  rw [hsame] at hargs
  exact h.repairs args r hargs

/-- The first of the values minted by an append is recorded at the type asked for. -/
theorem valueType_minted {f : Function} {block : Block} {q : Request} {ty : Ty} {v : Value}
    (hfit : (f.appendInst block q.data q.resultTypes).1.Fits) (hhead : q.resultTypes.head? = some ty)
    (hv : (f.appended q.data q.resultTypes).results.head? = some v) :
    (f.appendInst block q.data q.resultTypes).1.valueType v = some ty := by
  have hi : f.insts.length < 2 ^ 32 := by
    have h := hfit.insts
    rw [Function.length_insts_appendInst] at h
    omega
  obtain ⟨tys, htys⟩ : ∃ tys, q.resultTypes = ty :: tys := by
    cases hq : q.resultTypes with
    | nil => simp [hq] at hhead
    | cons t tys => exact ⟨tys, by simpa [hq] using hhead⟩
  have hvals := Function.values_appendInst hi block q
  have hlt : f.values.length < 2 ^ 32 := by
    have h := hfit.values
    rw [hvals, htys] at h
    simp [Function.mintedData] at h
    omega
  obtain rfl : Value.new f.values.length = v := by
    simpa [Function.appended, htys, Function.minted_cons] using hv
  have hindex : (Value.new f.values.length).index = f.values.length :=
    UInt32.toNat_ofNat_of_lt' (by simpa [UInt32.size] using hlt)
  rw [Function.valueType, hindex, hvals, htys]
  simp [Function.mintedData]

theorem extends_appendInst {f : Function} {block : Block} {q : Request}
    (hfit : (f.appendInst block q.data q.resultTypes).1.Fits) :
    f.Extends (f.appendInst block q.data q.resultTypes).1 := by
  have hi : f.insts.length < 2 ^ 32 := by
    have h := hfit.insts
    rw [Function.length_insts_appendInst] at h
    omega
  refine ⟨?_, ?_⟩
  · rw [Function.values_appendInst hi]
    exact List.prefix_append _ _
  · rw [Function.cores_appendInst hi]
    exact List.prefix_append _ _

/-- What a typed call emits is good, unless it is a raw opcode at a narrow type. -/
theorem good_emitted {f : Function} {call : InsCall} {q : Request} {block : Block} (hq : call.request f = some q)
    (hfit : (f.appendInst block q.data q.resultTypes).1.Fits) (htyped : call.Typed f)
    (hwide : ∀ mnemonic ty args, call = .opcode mnemonic ty args → 256 ≤ ty.bits.toNat) :
    (f.appended q.data q.resultTypes).Good (f.appendInst block q.data q.resultTypes).1 := by
  obtain ⟨tys, htys, -⟩ := htyped q hq
  have hsame := map_valueType (extends_appendInst hfit) htys
  refine ⟨⟨tys, hsame.trans htys⟩, fun v hv => ?_, fun args r hargs => ?_⟩
  · have hne : q.resultTypes ≠ [] := by
      rintro hnil
      simp [Function.appended, Function.minted, hnil] at hv
    exact valueType_minted hfit (request_head hq hne) hv
  · exact request_sound hq htyped hwide args r (hsame.symm.trans hargs)

/-- **Along a run** of typed calls that asks raw opcodes for wide results only, every instruction is good. -/
theorem good_run {b b' : FunctionBuilder} {calls : List BuilderCall} (hrun : b.run calls = some b')
    (he : b'.error = none) (hfit : b'.func.Fits) (hstart : ∀ d ∈ b.func.cores, d.Good b.func)
    (htyped : TypedRun b calls)
    (hwide : ∀ mnemonic ty args, .ins (.opcode mnemonic ty args) ∈ calls → 256 ≤ ty.bits.toNat) :
    ∀ d ∈ b'.func.cores, d.Good b'.func := by
  induction calls using List.reverseRecOn generalizing b' with
  | nil =>
    obtain rfl := Option.some.inj hrun
    exact hstart
  | append_singleton calls c ih =>
    obtain ⟨b₁, reply, hrun₁, hstep⟩ := FunctionBuilder.run_concat.mp hrun
    have hext := FunctionBuilder.step_extends hstep he hfit
    obtain ⟨herr, hcase⟩ := FunctionBuilder.step_cases hstep he
    have hbefore := ih hrun₁ herr (hext.fits hfit)
      (fun pre call post b₂ hsplit => htyped pre call (post ++ [c]) b₂ (by simp [hsplit]))
      (fun mnemonic ty args hmem => hwide mnemonic ty args (by simp [hmem]))
    rcases hcase with hemit | ⟨-, -, hcores⟩
    · have hi := hemit.fits hfit
      obtain ⟨call, q, block, rfl, hq, hfunc⟩ := hemit
      intro d hd
      rw [hfunc, Function.cores_appendInst hi] at hd
      rcases List.mem_append.mp hd with hold | hnew
      · exact (hbefore d hold).mono hext
      · obtain rfl := List.mem_singleton.mp hnew
        rw [hfunc] at hfit ⊢
        refine good_emitted hq hfit (htyped calls call [] b₁ rfl hrun₁) fun mnemonic ty args heq => ?_
        exact hwide mnemonic ty args (by simp [heq])
    · intro d hd
      rw [hcores] at hd
      exact (hbefore d hd).mono hext

/-! ## The raw opcodes -/

/-- The zero word is well-formed at every type. -/
theorem holds_zero (ty : Ty) : ty.Holds 0 := by
  unfold Ty.Holds
  cases ty.isSigned with
  | false => exact fun i _ _ => BitVec.getLsbD_zero
  | true => exact fun i _ _ => BitVec.getLsbD_zero.trans BitVec.getLsbD_zero.symm

/-- The instruction of an accepted raw opcode is in the finished function, notes aside, its one result recorded at the
type asked for. -/
theorem opcode_emitted {b b' : FunctionBuilder} {pre post : List BuilderCall} {mnemonic : String} {ty : Ty}
    {args : List Value} (hrun : b.run (pre ++ .ins (.opcode mnemonic ty args) :: post) = some b')
    (he : b'.error = none) (hfit : b'.func.Fits) :
    ∃ b₁ spec v, b.run pre = some b₁ ∧ rawSpec mnemonic = some spec ∧ b₁.func.Extends b'.func ∧
      ⟨.opcode spec, ty, .none, args, [v], none⟩ ∈ b'.func.cores ∧ b'.func.valueType v = some ty := by
  rw [List.append_cons, FunctionBuilder.run_append] at hrun
  obtain ⟨b₂, hrun₂, hpost⟩ := Option.bind_eq_some_iff.mp hrun
  obtain ⟨b₁, reply, hrun₁, hstep⟩ := FunctionBuilder.run_concat.mp hrun₂
  obtain ⟨herr, hext⟩ := FunctionBuilder.run_extends hpost he hfit
  have hfit₂ := hext.fits hfit
  have hext₁ := FunctionBuilder.step_extends hstep herr hfit₂
  rcases (FunctionBuilder.step_cases hstep herr).2 with hemit | ⟨hne, -⟩
  · have hi := hemit.fits hfit₂
    obtain ⟨call, q, block, hcall, hq, hfunc⟩ := hemit
    obtain rfl := BuilderCall.ins.inj hcall
    obtain ⟨spec, hspec, rfl⟩ := Option.map_eq_some_iff.mp hq
    refine ⟨b₁, spec, Value.new b₁.func.values.length, hrun₁, hspec, hext₁.trans hext, ?_, ?_⟩
    · refine hext.cores.subset ?_
      rw [hfunc, Function.cores_appendInst hi]
      exact List.mem_append_right _ (List.mem_singleton.mpr rfl)
    · refine hext.valueType ?_
      rw [hfunc] at hfit₂ ⊢
      exact valueType_minted hfit₂ rfl rfl
  · exact absurd rfl (hne _)

theorem mem_cores {f : Function} {d : InstData} (h : d ∈ f.cores) : ∃ d' ∈ f.insts, d'.core = d :=
  List.mem_map.mp h

/-! ## The caller inlined at a type -/

/-- Inline `CALLER` at a type, and stop. -/
def callerCalls (ty : Ty) : List BuilderCall := [.ins (.opcode "CALLER" ty []), .stop]

/-- The function those calls build. -/
def callerFunction (ty : Ty) : Function :=
  { name := "f", sig := ⟨[], []⟩, entry := Block.new 0
    insts := [⟨.opcode (op "CALLER" 0x33 0 1 false .context .frontier), ty, .none, [], [Value.new 0], none⟩]
    values := [⟨ty, .result (Inst.new 0) 0⟩]
    blocks := [⟨[], [Inst.new 0], some .stop, .normal⟩] }

theorem typedRun_callerCalls (ty : Ty) : TypedRun (.new "f" ⟨[], []⟩) (callerCalls ty) := by
  intro pre call post b₁ hsplit _ q hq
  have hcall : call = .opcode "CALLER" ty [] := by
    have hmem : BuilderCall.ins call ∈ callerCalls ty := by
      rw [hsplit]
      simp
    simpa [callerCalls] using hmem
  subst hcall
  have hq : (rawSpec "CALLER").map (fun spec => (⟨.opcode spec, ty, .none, [], [ty]⟩ : Request)) = some q := hq
  obtain ⟨spec, -, rfl⟩ := Option.map_eq_some_iff.mp hq
  exact ⟨[], rfl, trivial⟩

/-- At `u8` the caller stays unrepaired: the word `256` is not a `u8`. -/
theorem caller_u8_not_repaired :
    ∃ b, (FunctionBuilder.new "f" ⟨[], []⟩).run (callerCalls .U8) = some b ∧
      b.finish = .ok (callerFunction .U8) ∧
      TypedRun (.new "f" ⟨[], []⟩) (callerCalls .U8) ∧ ¬ (callerFunction .U8).Repaired := by
  refine ⟨⟨callerFunction .U8, none, none, none⟩, by decide +kernel, rfl, typedRun_callerCalls .U8, fun h => ?_⟩
  obtain ⟨ty, hty, hsound⟩ := h _ (List.mem_singleton.mpr rfl) (Value.new 0) rfl
  obtain rfl : Ty.U8 = ty := Option.some.inj hty
  exact absurd (hsound [] 256 rfl (by simp) trivial) (by decide +kernel)

/-! ## Exactly the raw opcodes -/

/-- **The builder repairs every narrow value but those of raw opcodes**: a function finished from typed calls, its
arenas fitting their indices, is repaired exactly when every raw opcode was asked for a result as wide as the slot. -/
theorem repaired_iff_opcodes_wide {name : String} {sig : Signature} {calls : List BuilderCall} {b : FunctionBuilder}
    {f : Function} (hrun : (FunctionBuilder.new name sig).run calls = some b) (hfinish : b.finish = .ok f)
    (htyped : TypedRun (.new name sig) calls) (hfit : f.Fits) :
    f.Repaired ↔ ∀ mnemonic ty args, .ins (.opcode mnemonic ty args) ∈ calls → 256 ≤ ty.bits.toNat := by
  obtain ⟨he, rfl⟩ := FunctionBuilder.finish_eq_ok hfinish
  constructor
  · intro hrep mnemonic ty args hmem
    obtain ⟨pre, post, rfl⟩ := List.append_of_mem hmem
    obtain ⟨b₁, spec, v, hrun₁, hspec, hext, hd, hv⟩ := opcode_emitted hrun he hfit
    obtain ⟨d, hdmem, hcore⟩ := mem_cores hd
    obtain ⟨tys, htys, -⟩ := htyped pre _ post b₁ rfl hrun₁ _ (congrArg (Option.map _) hspec)
    have hres : d.results = [v] := congrArg InstData.results hcore
    have hargs : d.args = args := congrArg InstData.args hcore
    obtain ⟨ty', hty', hsound⟩ := hrep d hdmem v (by rw [hres]; rfl)
    obtain rfl : ty = ty' := by simpa [hv] using hty'
    -- a narrow type misses some word, and a raw opcode can leave any
    by_contra hnarrow
    obtain ⟨x, hx⟩ := Ty.exists_not_holds (show ty.bits.toNat < 256 by omega)
    refine hx ?_
    have hrepair : d.repair = .none := congrArg InstData.repair hcore
    have hop : d.op = .opcode spec := congrArg InstData.op hcore
    have h := hsound (tys.map fun t => ⟨t, 0⟩) x ?_ ?_ ?_
    · rwa [hrepair] at h
    · rw [hargs, List.map_map, map_valueType hext htys]
      exact htys
    · intro a ha
      obtain ⟨t, -, rfl⟩ := List.mem_map.mp ha
      exact holds_zero t
    · rw [hop]
      trivial
  · intro hwide d hd v hv
    have hstart : ∀ d ∈ (FunctionBuilder.new name sig).func.cores, d.Good (FunctionBuilder.new name sig).func := by
      intro d hd
      have hnil : (FunctionBuilder.new name sig).func.insts = [] :=
        Function.insts_withBlock ⟨name, sig, Block.new 0, [], [], []⟩ sig.params
      simp [Function.cores, hnil] at hd
    have hgood := good_run hrun he hfit hstart htyped hwide d.core (List.mem_map_of_mem hd)
    exact ⟨d.ty, hgood.recorded v hv, hgood.repairs⟩

theorem repaired_iff_opcodes_wide_caller :
    (callerFunction .U256).Repaired ↔
      ∀ mnemonic ty args, .ins (.opcode mnemonic ty args) ∈ callerCalls .U256 → 256 ≤ ty.bits.toNat :=
  repaired_iff_opcodes_wide (b := ⟨callerFunction .U256, none, none, none⟩) (by decide +kernel) rfl
    (typedRun_callerCalls .U256) ⟨by decide, by decide⟩

end RustEvm.Ir
