import RustEvm.Ir.Draft
import RustEvm.Lib.Log

/-!
# RustEvm.Ir.Finished — what a finished function is

`Consistent` is what the arenas owe one another; it holds in every state a build reaches while nothing outgrows its
index (`arenas_consistent`).  The `record` of a build is the log of its calls with nothing refused; a function that
`finish` hands out is the one its record describes (`finished_as_asked`).
-/

namespace RustEvm.Ir

open Isa Codegen

/-! ## Consistent arenas -/

namespace Function

/-- The arenas agree: definitions and uses point at each other, and every instruction stands in one block, once. -/
structure Consistent (f : Function) : Prop where
  result_back : ∀ v inst k, f.valueDef v = some (.result inst k) → (f.results inst)[k.toNat]? = some v
  param_back : ∀ v block k, f.valueDef v = some (.param block k) → (f.blockParams block)[k.toNat]? = some v
  result_forth : ∀ inst k v, (f.results inst)[k]? = some v → f.valueDef v = some (.result inst (UInt16.ofNat k))
  param_forth : ∀ block k v, (f.blockParams block)[k]? = some v → f.valueDef v = some (.param block (UInt16.ofNat k))
  unique : ∀ v, v.index < f.values.length → ∃! at_ : Site × ℕ, (f.defined at_.1)[at_.2]? = some v
  listed : (f.blocks.flatMap BlockData.insts).Perm ((List.range f.insts.length).map Inst.new)

theorem length_defined_le {f : Function} (hfit : f.InBounds) (s : Site) : (f.defined s).length ≤ 2 ^ 16 := by
  cases s with
  | inst i =>
    rw [defined, results]
    cases h : f.insts[i.index]? with
    | none => simp
    | some data => exact hfit.results data (List.mem_of_getElem? h)
  | block b =>
    rw [defined, blockParams]
    cases h : f.blocks[b.index]? with
    | none => simp
    | some data => exact hfit.params data (List.mem_of_getElem? h)

theorem Linked.consistent {f : Function} (h : f.Linked) (hlisted : f.Listed) (hfit : f.InBounds) : f.Consistent := by
  refine ⟨fun v inst k => h.back v (.result inst k), fun v block k => h.back v (.param block k),
    fun inst => h.forth (.inst inst), fun block => h.forth (.block block), fun v hv => ?_, hlisted⟩
  have hdef : f.valueDef v = some f.values[v.index].defn := by
    rw [valueDef, List.getElem?_eq_getElem hv, Option.map_some]
  refine ⟨(f.values[v.index].defn.site, f.values[v.index].defn.index), h.back v _ hdef, ?_⟩
  rintro ⟨s, k⟩ hat
  have hk : k < 2 ^ 16 := (List.getElem?_eq_some_iff.mp hat).1.trans_le (f.length_defined_le hfit s)
  have heq : s.defn k = f.values[v.index].defn := Option.some.inj ((h.forth s k v hat).symm.trans hdef)
  rw [← heq, Site.site_defn, Site.index_defn s hk]

/-- The entry block is the first and takes the first values, of the signature's types. -/
structure EntryTakes (f : Function) (sig : Signature) : Prop where
  entry : f.entry = Block.new 0
  params : f.blockParams f.entry = (List.range sig.params.length).map Value.new
  types : (f.blockParams f.entry).map f.valueType = sig.params.map some

/-- Every parameter and every result has the type asked for. -/
def TypedAs (f : Function) (d : Draft) : Prop :=
  List.Forall₂ (fun data bl => data.params.map f.valueType = bl.params.map some ∧
    List.Forall₂ (fun inst e => (f.results inst).map f.valueType = e.call.resultTypes.map some) data.insts bl.entries)
    f.blocks d.blocks

theorem typedAs_of_built {f : Function} {d : Draft} (h : List.Forall₂ (BlockBuilt f) f.blocks d.blocks) :
    f.TypedAs d := by
  refine h.imp fun data bl hbuilt => ⟨hbuilt.params, hbuilt.insts.imp ?_⟩
  rintro inst e ⟨i, hi, hbuilt⟩
  rw [results, hi]
  exact hbuilt.results

end Function

variable {name : String} {sig : Signature} {calls : List BuilderCall} {b : FunctionBuilder}

theorem entryTakes_of_grew {f : Function} (hgrew : (Function.new name sig).Grew f) (hentry : f.entry = Block.new 0)
    (hfit : f.InRange) : f.EntryTakes sig := by
  have hnew : Function.new name sig = _ := Function.withBlock_eq (f := ⟨name, sig, Block.new 0, [], [], []⟩)
    (by simp) sig.params
  have hparams : f.blockParams f.entry = Function.minted 0 sig.params := by
    obtain ⟨rest, hrest⟩ := hgrew.params
    rw [hnew] at hrest
    rw [Function.blockParams, Function.elim_getElem?, ← hrest, hentry]
    rfl
  refine ⟨hentry, ?_, ?_⟩
  · rw [hparams, Function.minted, List.range_eq_range']
  · obtain ⟨rest, hrest⟩ := hgrew.values
    have hfit' := (hgrew.inRange hfit).values
    rw [hparams]
    refine map_valueType_mono (valueType_append hrest.symm) ?_
    exact valueType_minted_map (f := ⟨name, sig, Block.new 0, [], [], []⟩) (s := .block (Block.new 0))
      (by rw [hnew]; rfl) hfit'

theorem linked_run (hrun : (FunctionBuilder.new name sig).run calls = some b) (hfit : b.func.InBounds) :
    b.func.Linked := by
  refine FunctionBuilder.run_invariant (F := Function.InBounds) (P := fun _ b => b.func.Linked)
    (fun h hfit => (FunctionBuilder.did_grew h hfit.toInRange).inBounds hfit)
    (fun h hfit hl => FunctionBuilder.did_linked h hfit hl) (fun hfit => ?_) hrun hfit
  refine FunctionBuilder.did_linked (FunctionBuilder.did_new name sig) hfit ⟨fun v d hd => ?_, fun s k v hv => ?_⟩
  · simp [Function.valueDef, FunctionBuilder.empty] at hd
  · cases s <;> simp [Function.defined, Function.results, Function.blockParams, FunctionBuilder.empty] at hv

/-- **The arenas of a function stay consistent** in every state its builder reaches, as long as the parameters of a
block, the results of an instruction and the arenas fit their indices. -/
theorem arenas_consistent (hrun : (FunctionBuilder.new name sig).run calls = some b) (hfit : b.func.InBounds) :
    b.func.Consistent ∧ b.func.TypedAs (draft sig calls) ∧ b.func.EntryTakes sig := by
  obtain ⟨hlisted, hfollows⟩ := follows_run hrun hfit.toInRange
  obtain ⟨hgrew, -, hentry⟩ := FunctionBuilder.run_grew hrun hfit.toInRange
  exact ⟨(linked_run hrun hfit).consistent hlisted hfit, Function.typedAs_of_built hfollows.blocks,
    entryTakes_of_grew hgrew (hentry.trans (Function.entry_withBlock _ _)) hfit.toInRange⟩

/-- Two blocks, an instruction with two results and one without. -/
def checkedAddCalls : List BuilderCall :=
  [.param 0, .createBlockWith [.U8], .ins (.addOverflow .U256 (Value.new 0) (Value.new 1)),
    .ins (.sstore (Value.new 0) (Value.new 3)), .jump (Block.new 1) [Value.new 2], .switchTo (Block.new 1),
    .ret [Value.new 2]]

def checkedAddBuilder : FunctionBuilder :=
  ((FunctionBuilder.new "f" ⟨[.U256, .U256], [.U8]⟩).run checkedAddCalls).get (by decide +kernel)

theorem arenas_consistent_checked_add :
    checkedAddBuilder.func.Consistent ∧
      checkedAddBuilder.func.TypedAs (draft ⟨[.U256, .U256], [.U8]⟩ checkedAddCalls) ∧
      checkedAddBuilder.func.EntryTakes ⟨[.U256, .U256], [.U8]⟩ :=
  arenas_consistent (b := checkedAddBuilder) (Option.some_get _).symm
    ⟨⟨⟨by decide +kernel, by decide +kernel⟩, by decide +kernel⟩, by decide +kernel, by decide +kernel⟩

/-! ## The record of a build -/

/-- Somebody may write into the current block. -/
def Draft.IsOpen (d : Draft) : Prop :=
  ∃ block, d.current = some block ∧ block.index < d.blocks.length ∧ d.terminated block = false

/-- The log of a sequence of calls, none of them refused. -/
def record (sig : Signature) (calls : List BuilderCall) : Draft :=
  calls.foldl (fun d c => d.perform c.action) (.start sig)

theorem record_concat (sig : Signature) (calls : List BuilderCall) (c : BuilderCall) :
    record sig (calls ++ [c]) = (record sig calls).perform c.action := by
  simp [record]

/-- Every writing call so far found the current block open. -/
def Accepted (sig : Signature) (calls : List BuilderCall) : Prop :=
  ∀ pre c post, calls = pre ++ c :: post → c.action.writes → (record sig pre).IsOpen

theorem accepted_concat {c : BuilderCall} (h : Accepted sig calls)
    (hopen : c.action.writes → (record sig calls).IsOpen) : Accepted sig (calls ++ [c]) :=
  (Log.forall_concat_iff (P := fun pre (c : BuilderCall) => c.action.writes → (record sig pre).IsOpen)).mpr
    ⟨h, hopen⟩

theorem closedError_eq_none {current : Option Block} {terminated : Block → Bool}
    (h : closedError current terminated = none) : ∃ block, current = some block ∧ terminated block = false := by
  cases current with
  | none => exact absurd h (by simp [closedError])
  | some block => exact ⟨block, rfl, by simpa [closedError] using h⟩

/-- A call that leaves no error met none and was not refused; if it writes, the current block was open. -/
theorem did_accepted {a : Action} {b b' : FunctionBuilder} (h : FunctionBuilder.Did b a b') (he : b'.error = none) :
    b.error = none ∧ b.refusal a = none ∧
      (a.writes → ∃ block, b.current = some block ∧ block.index < b.func.blocks.length ∧
        b.terminated block = false) := by
  cases h with
  | looked | created params | marked block kind | switched block => exact ⟨he, rfl, nofun⟩
  | noted text =>
    refine ⟨?_, rfl, nofun⟩
    rw [FunctionBuilder.note] at he
    cases hlast : b.last <;> rwa [hlast] at he
  | ignored hw hne => exact absurd he hne
  | refused hnone hr => exact absurd he (by simp)
  | @emitted call q block hnone hr hc hb hq =>
    refine ⟨hnone, hr, fun _ => ?_⟩
    obtain ⟨block', hc', ht⟩ := closedError_eq_none (Option.or_eq_none_iff.mp hr).2
    obtain rfl := Option.some.inj (hc.symm.trans hc')
    exact ⟨block, hc, hb, ht⟩
  | @closed term block hnone hr hc hb =>
    refine ⟨hnone, hr, fun _ => ?_⟩
    obtain ⟨block', hc', ht⟩ := closedError_eq_none hr
    obtain rfl := Option.some.inj (hc.symm.trans hc')
    exact ⟨block, hc, hb, ht⟩

theorem Follows.isOpen {d : Draft} (h : Follows b d)
    (hopen : ∃ block, b.current = some block ∧ block.index < b.func.blocks.length ∧ b.terminated block = false) :
    d.IsOpen := by
  obtain ⟨block, hc, hb, ht⟩ := hopen
  exact ⟨block, h.current ▸ hc, h.blocks.length_eq ▸ hb, h.terminated ▸ ht⟩

/-- **Without an error** the log is the record, and every writing call was accepted. -/
theorem record_run (hrun : (FunctionBuilder.new name sig).run calls = some b) (hfit : b.func.InRange)
    (he : b.error = none) : draft sig calls = record sig calls ∧ Accepted sig calls := by
  induction calls using List.reverseRecOn generalizing b with
  | nil => exact ⟨rfl, fun pre c post heq => absurd heq (by simp)⟩
  | append_singleton calls c ih =>
    obtain ⟨b₁, reply, hrun₁, hlast⟩ := FunctionBuilder.run_concat.mp hrun
    have hdid := FunctionBuilder.step_did hlast
    have hfit₁ := (FunctionBuilder.did_grew hdid hfit).inRange hfit
    obtain ⟨he₁, hr, hopen⟩ := did_accepted hdid he
    obtain ⟨hdraft, hacc⟩ := ih hrun₁ hfit₁ he₁
    have hfollows := (follows_run hrun₁ hfit₁).2
    have hrefusal : (draft sig calls).refusal c.action = none := hfollows.refusal _ ▸ hr
    refine ⟨?_, accepted_concat hacc fun hw => hdraft ▸ hfollows.isOpen (hopen hw)⟩
    rw [draft_concat, record_concat, Draft.act_perform (.inr (hfollows.error ▸ he₁)) hrefusal, hdraft]

/-! ## Raw opcodes -/

/-- A row the IR keeps for itself: `PUSH`, `DUP`, `SWAP` or `POP`, a jump, `JUMPDEST` or `PC`, or a terminator. -/
def Structural (spec : OpSpec) : Prop :=
  opForm spec ≠ .simple ∨ spec.byte ∈ [(0x50 : UInt8), 0x56, 0x57, 0x58, 0x5b] ∨ spec.terminating

instance (spec : OpSpec) : Decidable (Structural spec) := inferInstanceAs (Decidable (_ ∨ _ ∨ _))

theorem not_structural : ∀ spec ∈ OPCODES, InsBuilder.reserved spec = none → ¬ Structural spec := by
  decide +kernel

theorem not_structural_of_rawSpec {mnemonic : String} {spec : OpSpec} (h : rawSpec mnemonic = some spec) :
    ¬ Structural spec := by
  obtain ⟨hrow, hres⟩ := Option.filter_eq_some_iff.mp h
  exact not_structural spec (byMnemonic_mem hrow) (by simpa using hres)

/-- Only a raw opcode call requests a raw opcode. -/
theorem InsCall.rawSpec_of_request {call : InsCall} {f : Function} {q : Request} {spec : OpSpec}
    (hq : call.request f = some q) (hop : q.op = .opcode spec) : ∃ mnemonic, rawSpec mnemonic = some spec := by
  cases call with
  | opcode mnemonic ty args | opcodeVoid mnemonic args =>
    obtain ⟨spec', hspec, rfl⟩ := Option.map_eq_some_iff.mp hq
    obtain rfl := Op.opcode.inj hop
    exact ⟨mnemonic, hspec⟩
  | convert dst value | store ptr value | sstore key value | tstore key value =>
    obtain ⟨_, -, rfl⟩ := Option.map_eq_some_iff.mp hq
    exact absurd hop (by simp)
  | _ =>
    obtain rfl := Option.some.inj hq
    exact absurd hop (by simp [Request.unaryOp, Request.checked])

/-- An instruction of a listed function stands in one of its blocks. -/
theorem Function.Listed.mem {f : Function} (hl : f.Listed) (hfit : f.InRange) {data : InstData} (h : data ∈ f.insts) :
    ∃ block ∈ f.blocks, ∃ inst ∈ block.insts, f.insts[inst.index]? = some data := by
  obtain ⟨k, hk, rfl⟩ := List.getElem_of_mem h
  have hmem : Inst.new k ∈ f.blocks.flatMap BlockData.insts :=
    hl.mem_iff.mpr (List.mem_map_of_mem (List.mem_range.mpr hk))
  obtain ⟨block, hblock, hinst⟩ := List.mem_flatMap.mp hmem
  have hlen := hfit.insts
  refine ⟨block, hblock, Inst.new k, hinst, ?_⟩
  rw [Inst.index_new (by omega), List.getElem?_eq_getElem hk]

/-- Every instruction is built from an entry of the log. -/
theorem Follows.built {d : Draft} (h : Follows b d) (hlisted : b.func.Listed) (hfit : b.func.InRange) {data : InstData}
    (hdata : data ∈ b.func.insts) : ∃ e, Built b.func data e := by
  obtain ⟨block, hblock, inst, hinst, hat⟩ := hlisted.mem hfit hdata
  obtain ⟨k, hk, rfl⟩ := List.getElem_of_mem hblock
  obtain ⟨j, hj, rfl⟩ := List.getElem_of_mem hinst
  have hinsts := (h.blocks.get hk (h.blocks.length_eq ▸ hk)).insts
  obtain ⟨i, hi, hbuilt⟩ := hinsts.get hj (hinsts.length_eq ▸ hj)
  obtain rfl := Option.some.inj (hi.symm.trans hat)
  exact ⟨_, hbuilt⟩

/-! ## What was asked for -/

/-- **A finished function is its record**: block by block what the calls asked for, no call having written into a
closed block, and no raw opcode that the IR owns. -/
theorem finished_as_asked {f : Function} (hrun : (FunctionBuilder.new name sig).run calls = some b)
    (hfinish : b.finish = .ok f) (hfit : f.InRange) :
    List.Forall₂ (BlockBuilt f) f.blocks (record sig calls).blocks ∧ Accepted sig calls ∧
      ∀ data ∈ f.insts, ∀ spec, data.op = .opcode spec → ¬ Structural spec := by
  obtain ⟨he, rfl⟩ := FunctionBuilder.finish_eq_ok hfinish
  obtain ⟨hlisted, hfollows⟩ := follows_run hrun hfit
  obtain ⟨hdraft, haccepted⟩ := record_run hrun hfit he
  refine ⟨hdraft ▸ hfollows.blocks, haccepted, fun data hdata spec hop => ?_⟩
  obtain ⟨block, hblock, inst, hinst, hat⟩ := hlisted.mem hfit hdata
  obtain ⟨k, hk, rfl⟩ := List.getElem_of_mem hblock
  obtain ⟨hlen, hbuilt⟩ := forall₂_iff_getElem?.mp hfollows.blocks
  have hk' := hlen ▸ hk
  obtain ⟨j, hj, rfl⟩ := List.getElem_of_mem hinst
  have hinsts := (hbuilt k _ _ (List.getElem?_eq_getElem hk) (List.getElem?_eq_getElem hk')).insts
  obtain ⟨i, hi, ⟨q, hq, hopq, -⟩, -, -⟩ := hinsts.get hj (hinsts.length_eq ▸ hj)
  obtain rfl := Option.some.inj (hi.symm.trans hat)
  obtain ⟨mnemonic, hspec⟩ := InsCall.rawSpec_of_request hq (hopq.symm.trans hop)
  exact not_structural_of_rawSpec hspec

theorem finished_as_asked_checked_add :
    List.Forall₂ (BlockBuilt checkedAddBuilder.func) checkedAddBuilder.func.blocks
        (record ⟨[.U256, .U256], [.U8]⟩ checkedAddCalls).blocks ∧
      Accepted ⟨[.U256, .U256], [.U8]⟩ checkedAddCalls ∧
      ∀ data ∈ checkedAddBuilder.func.insts, ∀ spec, data.op = .opcode spec → ¬ Structural spec :=
  finished_as_asked (b := checkedAddBuilder) (Option.some_get _).symm rfl
    ⟨⟨by decide +kernel, by decide +kernel⟩, by decide +kernel⟩

/-! ## Two limits -/

def log0 : InsCall := .opcodeVoid "LOG0" []

def mstore8 : InsCall := .opcodeVoid "MSTORE8" []

/-- A `MSTORE8` and `n` times `LOG0`. -/
def manyCalls (n : ℕ) : List BuilderCall := .ins mstore8 :: List.replicate n (.ins log0)

def mstore8Row : OpSpec := op "MSTORE8" 0x53 2 0 false .memory .frontier

def log0Row : OpSpec := op "LOG0" 0xa0 2 0 false .log .frontier

/-- The instruction of a raw opcode without arguments and results. -/
def rawInst (spec : OpSpec) : InstData := ⟨.opcode spec, .U256, .none, [], [], none⟩

/-- The builder after those calls. -/
def manyBuilder (n : ℕ) : FunctionBuilder :=
  { func :=
      { name := "f", sig := ⟨[], []⟩, entry := Block.new 0
        insts := rawInst mstore8Row :: .replicate n (rawInst log0Row)
        values := [], blocks := [⟨[], (List.range (n + 1)).map Inst.new, none, .normal⟩] }
    current := some (Block.new 0), last := some (Inst.new n), error := none }

theorem results_manyBuilder (n : ℕ) (inst : Inst) : (manyBuilder n).func.results inst = [] := by
  have hall : ∀ data ∈ (manyBuilder n).func.insts, data.results = [] := by
    intro data hdata
    rcases List.mem_cons.mp hdata with rfl | hdata
    · rfl
    · rw [(List.mem_replicate.mp hdata).2]
      rfl
  rw [Function.results]
  cases hdata : (manyBuilder n).func.insts[inst.index]? with
  | none => rfl
  | some data => exact hall data (List.mem_of_getElem? hdata)

theorem step_manyBuilder (n : ℕ) : (manyBuilder n).step (.ins log0) = some (manyBuilder (n + 1), .values []) := by
  have hrow : byMnemonic "LOG0" = some log0Row := by decide +kernel
  have hreserved : InsBuilder.reserved log0Row = none := by decide +kernel
  have happend : (manyBuilder n).func.appendInst (Block.new 0) (rawInst log0Row) [] =
      ((manyBuilder (n + 1)).func, Inst.new (n + 1)) := by
    have hzero : (Block.new 0).index = 0 := rfl
    simp [manyBuilder, Function.appendInst, Function.mintResults, hzero, rawInst, List.range_succ,
      List.replicate_succ']
  have hemit : (manyBuilder n).emit (.opcode log0Row) .U256 .none [] [] = some (manyBuilder (n + 1), []) := by
    show some (({ manyBuilder n with
      func := ((manyBuilder n).func.appendInst (Block.new 0) (rawInst log0Row) []).1
      last := some ((manyBuilder n).func.appendInst (Block.new 0) (rawInst log0Row) []).2 } : FunctionBuilder),
      ((manyBuilder n).func.appendInst (Block.new 0) (rawInst log0Row) []).1.results
        ((manyBuilder n).func.appendInst (Block.new 0) (rawInst log0Row) []).2) = _
    rw [happend, results_manyBuilder]
    rfl
  rw [FunctionBuilder.step, log0, InsCall.run, InsBuilder.opcodeVoid, InsBuilder.rawOpcode, hrow]
  simp only [hreserved, List.replicate_zero, hemit, Option.map_some]

theorem run_manyCalls (n : ℕ) : (FunctionBuilder.new "f" ⟨[], []⟩).run (manyCalls n) = some (manyBuilder n) := by
  induction n with
  | zero => decide +kernel
  | succ n ih =>
    rw [manyCalls, List.replicate_succ', ← List.cons_append]
    exact FunctionBuilder.run_concat.mpr ⟨_, _, ih, step_manyBuilder n⟩

/-- **Neither limit can go**: a note after a terminator is dropped, and the instruction number `2 ^ 32` of a block is
the one its call number `0` asked for. -/
theorem finished_as_asked_fails :
    (∃ b f, (FunctionBuilder.new "f" ⟨[], []⟩).run [.ins log0, .stop, .note "x"] = some b ∧ b.finish = .ok f ∧
      f.blocks.map BlockData.insts = [[Inst.new 0]] ∧ f.insts.map InstData.note = [none]) ∧
    ∃ b f block inst, (FunctionBuilder.new "f" ⟨[], []⟩).run (manyCalls (2 ^ 32)) = some b ∧ b.finish = .ok f ∧
      f.blocks = [block] ∧ (manyCalls (2 ^ 32))[2 ^ 32]? = some (.ins log0) ∧ block.insts[2 ^ 32]? = some inst ∧
      (f.insts[inst.index]?).map InstData.op = some (.opcode mstore8Row) := by
  refine ⟨⟨_, _, rfl, rfl, rfl, rfl⟩,
    manyBuilder (2 ^ 32), _, _, Inst.new (2 ^ 32), run_manyCalls _, rfl, rfl, ?_, ?_, ?_⟩
  · rw [manyCalls, List.getElem?_cons, if_neg (by decide), List.getElem?_replicate_of_lt (by decide)]
  · rw [List.getElem?_map, List.getElem?_range (Nat.lt_succ_self _), Option.map_some]
  · rfl

end RustEvm.Ir
