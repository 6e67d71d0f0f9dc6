import RustEvm.Ir.Draft

/-!
# RustEvm.Ir.Sticky — errors are sticky, and placeholders almost safe

A call fails where its action is refused.  After the first failure nothing is written and `finish` reports it.
`Sound` says that the values recorded in a function are in its arena, `Anchored` that the builder's handles are too;
both survive every call, whatever the arenas outgrow.  So the calls a caller may make never panic, but for one kind:
reading the type of a placeholder in a function that holds no value at all.
-/

namespace RustEvm.Ir

open Isa Codegen

/-! ## What an emitting call comes to -/

namespace InsCall

/-- The value whose type the method reads. -/
def typed : InsCall → Option Value
  | convert _ value | store _ value | sstore _ value | tstore _ value => some value
  | _ => none

/-- How many of the results the method indexes. -/
def taken : InsCall → ℕ
  | call _ _ _ => 0
  | c => c.resultTypes.length

/-- What the method hands back of the results. -/
def handsBack (vs : List Value) : InsCall → List Value
  | opcodeVoid _ _ => []
  | _ => vs

theorem run_opcode {b : FunctionBuilder} {mnemonic : String} {ty : Ty} {args : List Value} {n : ℕ} :
    InsBuilder.rawOpcode b mnemonic ty args n =
      match rawRejection mnemonic with
      | some e => some (b.fail e, none)
      | none => ((rawSpec mnemonic).bind fun spec => b.emitRequest ⟨.opcode spec, ty, .none, args, .replicate n ty⟩).map
          fun r => (r.1, some r.2) := by
  rw [InsBuilder.rawOpcode, rawRejection, rawSpec]
  cases byMnemonic mnemonic with
  | none => rfl
  | some spec =>
    simp only [Option.filter_some]
    cases InsBuilder.reserved spec <;> rfl

/-- **An emitting call** records its rejection, or emits its request. -/
theorem run_eq (b : FunctionBuilder) (call : InsCall) :
    call.run b =
      match call.rejection with
      | some e => some (b.fail e, placeholder call.taken)
      | none => ((call.request b.func).bind b.emitRequest).map fun r => (r.1, call.handsBack r.2) := by
  have hid : ∀ r : Option (FunctionBuilder × List Value), r.map (fun r => (r.1, r.2)) = r := by
    rintro (_ | ⟨b', vs⟩) <;> rfl
  cases call with
  | opcode mnemonic ty args =>
    rw [run, InsBuilder.opcode, run_opcode, rejection, request]
    cases rawRejection mnemonic with
    | some e => rfl
    | none =>
      rw [Option.map_map, Option.bind_map]
      rfl
  | opcodeVoid mnemonic args =>
    rw [run, InsBuilder.opcodeVoid, run_opcode, rejection, request]
    cases rawRejection mnemonic with
    | some e => rfl
    | none =>
      rw [Option.map_map, Option.bind_map]
      rfl
  | convert dst value | store ptr value | sstore key value | tstore key value =>
    refine Eq.trans ?_ (hid _).symm
    rw [request, Option.bind_map]
    rfl
  | _ => exact (hid _).symm

end InsCall

/-- A call that reads no type, or that of a value in the arena, asks for something. -/
theorem InsCall.request_isSome {call : InsCall} {f : Function} (hrej : call.rejection = none)
    (htyped : ∀ v, call.typed = some v → v.index < f.values.length) : ∃ q, call.request f = some q := by
  have hty : ∀ v, call.typed = some v → ∃ ty, f.valueType v = some ty := fun v hv =>
    ⟨_, by rw [Function.valueType, List.getElem?_eq_getElem (htyped v hv), Option.map_some]⟩
  cases call with
  | convert dst value | store ptr value | sstore key value | tstore key value =>
    obtain ⟨ty, hty⟩ := hty value rfl
    exact ⟨_, by rw [request, hty, Option.map_some]⟩
  | opcode mnemonic ty args | opcodeVoid mnemonic args =>
    have hspec : ∃ spec, rawSpec mnemonic = some spec := by
      rw [rejection, rawRejection] at hrej
      rw [rawSpec]
      cases hrow : byMnemonic mnemonic with
      | none => exact absurd hrej (by simp [hrow])
      | some spec =>
        rw [hrow] at hrej
        exact ⟨spec, by simpa [Option.filter_some] using hrej⟩
    obtain ⟨spec, hspec⟩ := hspec
    exact ⟨_, by rw [request, hspec, Option.map_some]⟩
  | _ => exact ⟨_, rfl⟩

/-! ## Values stay in their arena -/

/-- The values that instructions and blocks name are in the arena. -/
structure Function.Sound (f : Function) : Prop where
  results : ∀ data ∈ f.insts, ∀ v ∈ data.results, v.index < f.values.length
  params : ∀ data ∈ f.blocks, ∀ v ∈ data.params, v.index < f.values.length

namespace Function

theorem index_new_le (n : ℕ) : (Value.new n).index ≤ n := Nat.mod_le n (2 ^ 32)

theorem index_lt_of_mem_minted {start : ℕ} {tys : List Ty} {v : Value} (h : v ∈ minted start tys) :
    v.index < start + tys.length := by
  obtain ⟨k, hk, rfl⟩ := List.mem_map.mp h
  have hle := index_new_le k
  have hlt := (List.mem_range'_1.mp hk).2
  omega

/-- An entry of a list changed in one place is an entry, or a changed one. -/
theorem mem_modify {α : Type*} {l : List α} {k : ℕ} {g : α → α} {x : α} (h : x ∈ l.modify k g) :
    x ∈ l ∨ ∃ y ∈ l, x = g y := by
  obtain ⟨j, hj⟩ := List.mem_iff_getElem?.mp h
  rw [List.getElem?_modify] at hj
  obtain ⟨y, hy, rfl⟩ := Option.map_eq_some_iff.mp hj
  have hmem := List.mem_of_getElem? hy
  by_cases hk : k = j
  · exact .inr ⟨y, hmem, by simp [hk]⟩
  · exact .inl (by simpa [hk] using hmem)

theorem Sound.createBlock {f : Function} (h : f.Sound) : f.createBlock.1.Sound := by
  refine ⟨h.results, fun data hdata => ?_⟩
  rcases List.mem_append.mp hdata with hdata | hdata
  · exact h.params data hdata
  · rw [List.mem_singleton.mp hdata]
    simp

theorem Sound.appendParam {f : Function} (h : f.Sound) (block : Block) (ty : Ty) :
    (f.appendParam block ty).1.Sound := by
  have hlen : (f.appendParam block ty).1.values.length = f.values.length + 1 := by
    simp [Function.appendParam, pushValue]
  refine ⟨fun data hdata v hv => ?_, fun data hdata v hv => ?_⟩
  · have := h.results data hdata v hv
    omega
  · rw [hlen]
    rcases mem_modify hdata with hmem | ⟨y, hmem, rfl⟩
    · have := h.params data hmem v hv
      omega
    · rcases List.mem_append.mp hv with hv | hv
      · have := h.params y hmem v hv
        omega
      · rw [List.mem_singleton.mp hv]
        exact Nat.lt_succ_of_le (index_new_le _)

theorem Sound.withBlock {f : Function} (h : f.Sound) (params : List Ty) : (f.withBlock params).Sound :=
  withBlock_induction (fun _ block ty h' => h'.appendParam block ty) h.createBlock params

/-- What an append adds to the arenas, whatever they outgrow. -/
theorem appendInst_arenas (f : Function) (block : Block) (data : InstData) (tys : List Ty) :
    (f.appendInst block data tys).1.values.length = f.values.length + tys.length ∧
      (f.appendInst block data tys).1.insts = (f.insts ++ [{ data with results := [] }]).modify
        (Inst.new f.insts.length).index (·.addResults (minted f.values.length tys)) := by
  rw [appendInst]
  simp only [mintResults_eq, mintedData_eq, List.length_append, Site.data, List.length_mapIdx]
  exact ⟨trivial, trivial⟩

theorem Sound.appendInst {f : Function} (h : f.Sound) (block : Block) (data : InstData) (tys : List Ty) :
    (f.appendInst block data tys).1.Sound := by
  obtain ⟨hlen, hinsts⟩ := f.appendInst_arenas block data tys
  have hold : ∀ d ∈ f.insts ++ [{ data with results := [] }], ∀ v ∈ d.results, v.index < f.values.length := by
    intro d hd v hv
    rcases List.mem_append.mp hd with hd | hd
    · exact h.results d hd v hv
    · rw [List.mem_singleton.mp hd] at hv
      exact absurd hv List.not_mem_nil
  refine ⟨fun d hd v hv => ?_, fun d hd v hv => ?_⟩
  · rw [hlen]
    rw [hinsts] at hd
    rcases mem_modify hd with hmem | ⟨y, hmem, rfl⟩
    · have := hold d hmem v hv
      omega
    · rcases List.mem_append.mp hv with hv | hv
      · have := hold y hmem v hv
        omega
      · exact index_lt_of_mem_minted hv
  · have hparams : ∃ y ∈ f.blocks, v ∈ y.params := by
      rw [Function.appendInst] at hd
      simp only [mintResults_eq] at hd
      rcases mem_modify hd with hmem | ⟨y, hmem, rfl⟩
      · exact ⟨d, hmem, hv⟩
      · exact ⟨y, hmem, hv⟩
    obtain ⟨y, hmem, hv⟩ := hparams
    have := h.params y hmem v hv
    omega

/-- The appended instruction has at least the results it was given. -/
theorem results_appendInst (f : Function) (block : Block) (data : InstData) (tys : List Ty) :
    ∃ d ∈ (f.appendInst block data tys).1.insts,
      (f.appendInst block data tys).1.results (f.appendInst block data tys).2 = d.results ∧
        tys.length ≤ d.results.length := by
  have hinsts := (f.appendInst_arenas block data tys).2
  have hk : (Inst.new f.insts.length).index < (f.insts ++ [{ data with results := [] }]).length := by
    have hle : (Inst.new f.insts.length).index ≤ f.insts.length := Nat.mod_le _ (2 ^ 32)
    simpa using Nat.lt_succ_of_le hle
  obtain ⟨d, hd⟩ : ∃ d, (f.insts ++ [{ data with results := [] }])[(Inst.new f.insts.length).index]? = some d :=
    ⟨_, List.getElem?_eq_getElem hk⟩
  have hat : (f.appendInst block data tys).1.insts[(Inst.new f.insts.length).index]? =
      some (d.addResults (minted f.values.length tys)) := by
    rw [hinsts, List.getElem?_modify_eq, hd]
    rfl
  refine ⟨_, List.mem_of_getElem? hat, ?_, by simp [InstData.addResults, minted]⟩
  rw [results, show (f.appendInst block data tys).2 = Inst.new f.insts.length from rfl, hat]
  rfl

/-- Arenas with the same results and parameters are sound together. -/
theorem Sound.congr {f f' : Function} (h : f.Sound) (hvalues : f'.values = f.values)
    (hr : f'.insts.map InstData.results = f.insts.map InstData.results)
    (hp : f'.blocks.map BlockData.params = f.blocks.map BlockData.params) : f'.Sound := by
  refine ⟨fun data hdata => ?_, fun data hdata => ?_⟩
  · obtain ⟨data', hdata', heq⟩ := List.mem_map.mp (hr ▸ List.mem_map_of_mem hdata)
    rw [hvalues, ← heq]
    exact h.results data' hdata'
  · obtain ⟨data', hdata', heq⟩ := List.mem_map.mp (hp ▸ List.mem_map_of_mem hdata)
    rw [hvalues, ← heq]
    exact h.params data' hdata'

end Function

/-- The body of a block and its terminator. -/
def BlockData.code (data : BlockData) : List Inst × Option Terminator := (data.insts, data.term)

namespace FunctionBuilder

variable {b b' : FunctionBuilder} {a : Action}

/-- The builder's own handles are in their arenas. -/
structure Anchored (b : FunctionBuilder) : Prop where
  sound : b.func.Sound
  entry : b.func.entry.index < b.func.blocks.length
  current : ∀ block, b.current = some block → block.index < b.func.blocks.length
  last : ∀ inst, b.last = some inst → inst.index < b.func.insts.length

/-- Values and blocks only become more. -/
structure Widens (f f' : Function) : Prop where
  values : f.values.length ≤ f'.values.length
  blocks : f.blocks.length ≤ f'.blocks.length

theorem did_widens (h : Did b a b') : Widens b.func b'.func := by
  cases h with
  | looked | switched block => exact ⟨le_rfl, le_rfl⟩
  | ignored hw he => exact ⟨le_rfl, le_rfl⟩
  | refused he hr => exact ⟨le_rfl, le_rfl⟩
  | created params =>
    refine ⟨(b.func.values_withBlock params).length_le, ?_⟩
    show _ ≤ (b.func.withBlock params).blocks.length
    rw [Function.length_blocks_withBlock]
    exact Nat.le_succ _
  | marked block kind => exact ⟨le_rfl, (List.length_modify _ _ _).ge⟩
  | noted text =>
    rw [note]
    cases b.last <;> exact ⟨le_rfl, le_rfl⟩
  | @emitted call q block he hr hc hb hq =>
    have hvalues := (b.func.appendInst_arenas block q.data q.resultTypes).1
    refine ⟨hvalues ▸ Nat.le_add_right _ _, ?_⟩
    rw [emitted, Function.appendInst]
    simp only [Function.mintResults_eq, List.length_modify]
    exact le_rfl
  | closed he hr hc hb => exact ⟨le_rfl, (List.length_modify _ _ _).ge⟩

/-- **One call** keeps the handles in their arenas. -/
theorem did_anchored (h : Did b a b') (hswitch : ∀ block, a = .switch block → block.index < b.func.blocks.length)
    (ha : Anchored b) : Anchored b' := by
  have hblocks := (did_widens h).blocks
  cases h with
  | looked => exact ha
  | ignored hw he => exact ha
  | refused he hr => exact ⟨ha.sound, ha.entry, ha.current, ha.last⟩
  | switched block =>
    refine ⟨ha.sound, ha.entry, fun block' hblock' => ?_, fun _ h => absurd h (by simp [switchTo])⟩
    obtain rfl := Option.some.inj hblock'
    exact hswitch block rfl
  | created params =>
    refine ⟨ha.sound.withBlock params, ?_, fun block hc => (ha.current block hc).trans_le hblocks, fun inst hl => ?_⟩
    · show (b.func.withBlock params).entry.index < _
      rw [Function.entry_withBlock]
      exact ha.entry.trans_le hblocks
    · have hinsts := b.func.insts_withBlock params
      exact (ha.last inst hl).trans_eq (congrArg List.length hinsts).symm
  | marked block kind =>
    refine ⟨ha.sound.congr rfl rfl (Function.map_modify (fun _ => by rfl) _ _), ha.entry.trans_le hblocks,
      fun block hc => (ha.current block hc).trans_le hblocks, ha.last⟩
  | noted text =>
    rw [note]
    cases hlast : b.last with
    | none => exact ha
    | some inst =>
      refine ⟨ha.sound.congr rfl (Function.map_modify (fun _ => by rfl) _ _) rfl, ha.entry, ha.current,
        fun inst' hl => ?_⟩
      exact (ha.last inst' (hlast.trans hl)).trans_eq (List.length_modify _ _ _).symm
  | @emitted call q block he hr hc hb hq =>
    refine ⟨ha.sound.appendInst block q.data q.resultTypes, ?_,
      fun block hc => (ha.current block hc).trans_le hblocks, fun inst hl => ?_⟩
    · have hentry : (b.emitted block q).func.entry = b.func.entry := by
        rw [emitted, Function.appendInst]
        simp only [Function.mintResults_eq]
      rw [hentry]
      exact ha.entry.trans_le hblocks
    · obtain rfl := Option.some.inj hl
      show (Inst.new b.func.insts.length).index < (b.func.appendInst block q.data q.resultTypes).1.insts.length
      rw [Function.length_insts_appendInst]
      exact Nat.lt_succ_of_le (Nat.mod_le _ (2 ^ 32))
  | closed he hr hc hb =>
    exact ⟨ha.sound.congr rfl rfl (Function.map_modify (fun _ => by rfl) _ _), ha.entry.trans_le hblocks,
      fun _ h => absurd h (by simp [closed]), fun _ h => absurd h (by simp [closed])⟩

/-! ## Errors stay -/

/-- Nothing was written: the instructions are the same, notes aside, and so are the bodies and terminators of the
blocks, but for new blocks, which hold nothing. -/
structure Idle (f f' : Function) : Prop where
  cores : f'.cores = f.cores
  blocks : ∃ n, f'.blocks.map BlockData.code = f.blocks.map BlockData.code ++ List.replicate n ([], none)

theorem Idle.refl (f : Function) : Idle f f := ⟨rfl, 0, (List.append_nil _).symm⟩

theorem Idle.trans {f g h : Function} (h1 : Idle f g) (h2 : Idle g h) : Idle f h := by
  obtain ⟨m, hm⟩ := h1.blocks
  obtain ⟨n, hn⟩ := h2.blocks
  exact ⟨h2.cores.trans h1.cores, m + n, by rw [hn, hm, List.append_assoc, List.replicate_append_replicate]⟩

theorem code_withBlock (f : Function) (params : List Ty) :
    (f.withBlock params).blocks.map BlockData.code = f.blocks.map BlockData.code ++ [([], none)] := by
  rw [Function.withBlock_keeps (g := fun f => f.blocks.map BlockData.code)
    (fun _ _ _ => Function.map_modify (fun _ => by rfl) _ _)]
  simp [Function.createBlock, BlockData.code]

/-- **After an error** a call keeps it and writes nothing. -/
theorem did_idle (h : Did b a b') (he : b.error ≠ none) : b'.error = b.error ∧ Idle b.func b'.func := by
  cases h with
  | looked | switched block => exact ⟨rfl, .refl _⟩
  | ignored hw hne => exact ⟨rfl, .refl _⟩
  | refused hnone hr => exact absurd hnone he
  | created params =>
    have hinsts := b.func.insts_withBlock params
    exact ⟨rfl, congrArg (List.map InstData.core) hinsts, 1, code_withBlock b.func params⟩
  | marked block kind =>
    refine ⟨rfl, rfl, 0, ?_⟩
    rw [List.replicate_zero, List.append_nil]
    exact Function.map_modify (fun _ => by rfl) _ _
  | noted text =>
    rw [note]
    cases b.last with
    | none => exact ⟨rfl, .refl _⟩
    | some inst => exact ⟨rfl, Function.cores_setNote _ _ _, 0, (List.append_nil _).symm⟩
  | emitted hnone hr hc hb hq => exact absurd hnone he
  | closed hnone hr hc hb => exact absurd hnone he

theorem run_idle {calls : List BuilderCall} (hrun : b.run calls = some b') (he : b.error ≠ none) :
    b'.error = b.error ∧ Idle b.func b'.func := by
  induction calls using List.reverseRecOn generalizing b' with
  | nil =>
    obtain rfl := Option.some.inj hrun
    exact ⟨rfl, .refl _⟩
  | append_singleton calls c ih =>
    obtain ⟨b₁, reply, hrun₁, hlast⟩ := run_concat.mp hrun
    obtain ⟨he₁, hidle₁⟩ := ih hrun₁
    obtain ⟨he', hidle⟩ := did_idle (step_did hlast) (he₁ ▸ he)
    exact ⟨he'.trans he₁, hidle₁.trans hidle⟩

/-- The first error is the refusal of the call it meets. -/
theorem did_error (h : Did b a b') (he : b.error = none) : b'.error = b.refusal a := by
  cases h with
  | looked | created params | marked block kind | switched block => exact he
  | noted text =>
    rw [note]
    cases b.last <;> exact he
  | ignored hw hne => exact absurd he hne
  | refused hnone hr => exact hr.symm
  | emitted hnone hr hc hb hq => exact he.trans hr.symm
  | closed hnone hr hc hb => exact hr.symm ▸ he

theorem did_refused {e : IrError} (h : Did b a b') (he : b.error = none) (hr : b.refusal a = some e) :
    b' = { b with error := some e } := by
  cases h with
  | looked | created params | marked block kind | switched block | noted text => exact absurd hr nofun
  | ignored hw hne => exact absurd he hne
  | refused hnone hr' => rw [Option.some.inj (hr.symm.trans hr')]
  | emitted hnone hr' hc hb hq => exact absurd (hr.symm.trans hr') nofun
  | closed hnone hr' hc hb => exact absurd (hr.symm.trans hr') nofun

/-- **The call fails** where its action is refused. -/
def FailsAfter (b : FunctionBuilder) (pre : List BuilderCall) (c : BuilderCall) (e : IrError) : Prop :=
  ∃ b', b.run pre = some b' ∧ b'.refusal c.action = some e

/-- As long as no call failed there is no error. -/
theorem run_error_none {calls : List BuilderCall} (hrun : b.run calls = some b') (he : b.error = none)
    (hnone : ∀ pre c post e, calls = pre ++ c :: post → ¬ FailsAfter b pre c e) : b'.error = none := by
  induction calls using List.reverseRecOn generalizing b' with
  | nil =>
    obtain rfl := Option.some.inj hrun
    exact he
  | append_singleton calls c ih =>
    obtain ⟨b₁, reply, hrun₁, hlast⟩ := run_concat.mp hrun
    have he₁ := ih hrun₁ fun pre c' post e heq => hnone pre c' (post ++ [c]) e (by rw [heq]; simp)
    rw [did_error (step_did hlast) he₁]
    by_contra hne
    obtain ⟨e, he⟩ := Option.ne_none_iff_exists'.mp hne
    exact hnone calls c [] e rfl ⟨b₁, hrun₁, he⟩

end FunctionBuilder

/-! ## What a caller may pass -/

def InsCall.valueArgs : InsCall → List Value
  | iconst _ _ | alloca _ => []
  | add _ x y | sub _ x y | mul _ x y | div _ x y | rem _ x y => [x, y]
  | exp _ base exponent => [base, exponent]
  | addOverflow _ x y | subOverflow _ x y | mulOverflow _ x y => [x, y]
  | and _ x y | or _ x y | xor _ x y => [x, y]
  | not _ value => [value]
  | shl _ value shift | shr _ value shift | sar _ value shift => [value, shift]
  | convert _ value => [value]
  | icmp _ x y => [x, y]
  | select _ cond thn otherwise => [cond, thn, otherwise]
  | load _ ptr => [ptr]
  | store ptr value => [ptr, value]
  | memcopy dst src len => [dst, src, len]
  | sload _ key | tload _ key => [key]
  | sstore key value | tstore key value => [key, value]
  | opcode _ _ args | opcodeVoid _ args | call _ _ args => args

namespace BuilderCall

def blockArgs : BuilderCall → List Block
  | blockParam block _ | setBlockKind block _ | switchTo block | jump block _ => [block]
  | brif _ thn _ otherwise _ => [thn, otherwise]
  | switch _ cases default => default :: cases.map Prod.snd
  | _ => []

def valueArgs : BuilderCall → List Value
  | ins call => call.valueArgs
  | jump _ args => args
  | brif cond _ thenArgs _ elseArgs => cond :: (thenArgs ++ elseArgs)
  | switch on _ _ => [on]
  | ret values => values
  | returnData ptr len | revert ptr len => [ptr, len]
  | selfdestruct beneficiary => [beneficiary]
  | _ => []

/-- The index of a parameter is in range. -/
def IndexInRange (b : FunctionBuilder) : BuilderCall → Prop
  | param n => n < (b.func.blockParams b.func.entry).length
  | blockParam block n => n < (b.func.blockParams block).length
  | _ => True

end BuilderCall

namespace FunctionBuilder

variable {b b' : FunctionBuilder}

def Reply.blocks : Reply → List Block
  | block b => [b]
  | _ => []

def Reply.toValues : Reply → List Value
  | value v => [v]
  | values vs => vs
  | _ => []

/-- Every call passes blocks and values it was handed before, and parameter indices in range. -/
def Proper (b : FunctionBuilder) (blocks : List Block) (values : List Value) : List BuilderCall → Prop
  | [] => True
  | c :: calls =>
    (∀ block ∈ c.blockArgs, block ∈ blocks) ∧ (∀ v ∈ c.valueArgs, v ∈ values) ∧ c.IndexInRange b ∧
      match b.step c with
      | some (b', reply) => Proper b' (blocks ++ reply.blocks) (values ++ reply.toValues) calls
      | none => True

instance (b : FunctionBuilder) (c : BuilderCall) : Decidable (c.IndexInRange b) := by
  cases c <;> unfold BuilderCall.IndexInRange <;> infer_instance

instance decidableProper (b : FunctionBuilder) (blocks : List Block) (values : List Value) :
    (calls : List BuilderCall) → Decidable (Proper b blocks values calls)
  | [] => isTrue trivial
  | c :: calls =>
    have : Decidable (match b.step c with
        | some (b', reply) => Proper b' (blocks ++ reply.blocks) (values ++ reply.toValues) calls
        | none => True) :=
      match b.step c with
      | some (b', reply) => decidableProper b' (blocks ++ reply.blocks) (values ++ reply.toValues) calls
      | none => isTrue trivial
    inferInstanceAs (Decidable (_ ∧ _ ∧ _ ∧ _))

/-- The source panics: where the step is not defined, where a note finds no instruction, and where a method indexes past
the results it got. -/
def Panics (b : FunctionBuilder) (c : BuilderCall) : Prop :=
  b.step c = none ∨
    (∃ text inst, c = .note text ∧ b.last = some inst ∧ b.func.insts.length ≤ inst.index) ∨
    ∃ call b' vs, c = .ins call ∧ b.step c = some (b', .values vs) ∧ vs.length < call.taken

/-! ## One call -/

/-- A value a caller holds: in the arena, or a placeholder. -/
def Held (f : Function) (v : Value) : Prop := v.index < f.values.length ∨ v.index = 0

theorem Held.mono {f f' : Function} (hw : Widens f f') {v : Value} (h : Held f v) : Held f' v :=
  h.imp_left fun h => h.trans_le hw.values

theorem held_placeholder (f : Function) (n : ℕ) : ∀ v ∈ placeholder n, Held f v := by
  intro v hv
  rw [(List.mem_replicate.mp hv).2]
  exact .inr rfl

/-- **`emit`** returns, with enough values and only held ones. -/
theorem emit_safe (ha : Anchored b) (q : Request) :
    ∃ b' vs, b.emitRequest q = some (b', vs) ∧ q.resultTypes.length ≤ vs.length ∧ ∀ v ∈ vs, Held b'.func v := by
  rw [emitRequest_eq]
  obtain ⟨⟨b', vs⟩, h⟩ := gated_returns ha.current (b, placeholder q.resultTypes.length) _ _
  refine ⟨b', vs, h, ?_⟩
  rcases gated_cases h with ⟨-, heq⟩ | ⟨-, e, -, heq⟩ | ⟨-, -, block, -, -, heq⟩
  · obtain ⟨rfl, rfl⟩ := Prod.mk.inj heq
    exact ⟨by simp [placeholder], held_placeholder _ _⟩
  · obtain ⟨rfl, rfl⟩ := Prod.mk.inj heq
    exact ⟨by simp [placeholder], held_placeholder _ _⟩
  · obtain ⟨rfl, rfl⟩ := Prod.mk.inj heq
    obtain ⟨d, hd, hres, hlen⟩ := b.func.results_appendInst block q.data q.resultTypes
    refine ⟨hlen.trans_eq (congrArg List.length hres).symm, fun v hv => ?_⟩
    exact .inl ((ha.sound.appendInst block q.data q.resultTypes).results d hd v (hres ▸ hv))

theorem valueType_of_held {f : Function} (hne : f.values ≠ []) {v : Value} (h : Held f v) :
    v.index < f.values.length := by
  have hpos := List.length_pos_iff.mpr hne
  rcases h with h | h <;> omega

/-- An emitting call on held values returns, unless it reads a type where there is none. -/
theorem ins_safe (ha : Anchored b) {call : InsCall} (hheld : ∀ v ∈ call.valueArgs, Held b.func v)
    (htyped : call.typed.isSome → b.func.values ≠ []) :
    ∃ b' vs, call.run b = some (b', vs) ∧ call.taken ≤ vs.length ∧ ∀ v ∈ vs, Held b'.func v := by
  rw [call.run_eq]
  cases hrej : call.rejection with
  | some e => exact ⟨_, _, rfl, by simp [placeholder], held_placeholder _ _⟩
  | none =>
    have hmem : ∀ v, call.typed = some v → v ∈ call.valueArgs := by
      intro v hv
      cases call with
      | convert dst value | store ptr value | sstore key value | tstore key value =>
        obtain rfl := Option.some.inj hv
        simp [InsCall.valueArgs]
      | _ => exact absurd hv (by simp [InsCall.typed])
    obtain ⟨q, hq⟩ := InsCall.request_isSome (f := b.func) hrej fun v hv =>
      valueType_of_held (htyped (by rw [hv]; rfl)) (hheld v (hmem v hv))
    obtain ⟨b', vs, hemit, hlen, hvs⟩ := emit_safe ha q
    rw [InsCall.request_resultTypes hq] at hlen
    simp only [hq, Option.bind_some, hemit, Option.map_some]
    refine ⟨_, _, rfl, ?_, fun v hv => hvs v ?_⟩
    · cases call with
      | opcodeVoid mnemonic args | call callee sig args => exact Nat.zero_le _
      | _ => exact hlen
    · cases call with
      | opcodeVoid mnemonic args => exact absurd hv List.not_mem_nil
      | _ => exact hv

theorem terminate_safe (ha : Anchored b) (term : Terminator) : ∃ b', b.terminate term = some b' := by
  rw [terminate_eq]
  exact gated_returns ha.current _ _ _

/-- What a caller holds is in range. -/
structure Holds (b : FunctionBuilder) (blocks : List Block) (values : List Value) : Prop where
  anchored : Anchored b
  blocks : ∀ block ∈ blocks, block.index < b.func.blocks.length
  values : ∀ v ∈ values, Held b.func v

theorem blockParam_safe (ha : Anchored b) {block : Block} {n : ℕ} (hn : n < (b.func.blockParams block).length) :
    ∃ v, b.blockParam block n = some v ∧ Held b.func v := by
  unfold Function.blockParams at hn
  unfold blockParam
  cases hdata : b.func.blocks[block.index]? with
  | none => exact absurd hn (by simp [hdata])
  | some data =>
    rw [hdata] at hn
    have hn : n < data.params.length := hn
    refine ⟨data.params[n], List.getElem?_eq_getElem hn, .inl ?_⟩
    exact ha.sound.params data (List.mem_of_getElem? hdata) _ (List.getElem_mem hn)

/-- A reply a call may give: enough values for the method, and only what is in range. -/
structure Reply.Fits (c : BuilderCall) (b : FunctionBuilder) (reply : Reply) : Prop where
  taken : ∀ call vs, c = .ins call → reply = .values vs → call.taken ≤ vs.length
  blocks : ∀ block ∈ reply.blocks, block.index < b.func.blocks.length
  values : ∀ v ∈ reply.toValues, Held b.func v

theorem fits_unit (c : BuilderCall) (b : FunctionBuilder) : Reply.Fits c b .unit :=
  ⟨fun _ _ _ h => absurd h (by simp), by simp [Reply.blocks], by simp [Reply.toValues]⟩

theorem fits_value (c : BuilderCall) {v : Value} (h : Held b.func v) : Reply.Fits c b (.value v) :=
  ⟨fun _ _ _ h => absurd h (by simp), by simp [Reply.blocks], by simpa [Reply.toValues] using h⟩

/-- The block a call has just created. -/
theorem fits_block (c : BuilderCall) {n : ℕ} (h : n < b.func.blocks.length) :
    Reply.Fits c b (.block (Block.new n)) := by
  refine ⟨fun _ _ _ h => absurd h (by simp), ?_, by simp [Reply.toValues]⟩
  have hle : (Block.new n).index ≤ n := Nat.mod_le _ (2 ^ 32)
  simpa [Reply.blocks] using hle.trans_lt h

/-- **A proper call returns**, unless it reads a type where there is no value, and hands back what is in range. -/
theorem step_safe {blocks : List Block} {values : List Value} (hh : Holds b blocks values) {c : BuilderCall}
    (hblocks : ∀ block ∈ c.blockArgs, block ∈ blocks) (hvalues : ∀ v ∈ c.valueArgs, v ∈ values)
    (hindex : c.IndexInRange b) (htyped : ∀ call, c = .ins call → call.typed.isSome → b.func.values ≠ []) :
    ∃ b' reply, b.step c = some (b', reply) ∧ reply.Fits c b' := by
  have hclose : ∀ term, ∃ b' reply, (b.terminate term).map (·, Reply.unit) = some (b', reply) ∧ reply.Fits c b' := by
    intro term
    obtain ⟨b', hb'⟩ := terminate_safe hh.anchored term
    exact ⟨b', .unit, by rw [hb', Option.map_some], fits_unit _ _⟩
  have hlook : ∀ block n, n < (b.func.blockParams block).length →
      ∃ b' reply, ((b.blockParam block n).map fun v => (b, Reply.value v)) = some (b', reply) ∧ reply.Fits c b' := by
    intro block n hn
    obtain ⟨v, hv, hheld⟩ := blockParam_safe hh.anchored hn
    exact ⟨b, .value v, by rw [hv, Option.map_some], fits_value _ hheld⟩
  cases c with
  | param n => exact hlook _ n hindex
  | blockParam block n => exact hlook block n hindex
  | createBlock => exact ⟨_, _, rfl, fits_block _ (by simp [FunctionBuilder.createBlock, Function.createBlock])⟩
  | createBlockWith params =>
    refine ⟨_, _, rfl, fits_block _ ?_⟩
    exact (Function.length_blocks_withBlock b.func params).symm ▸ Nat.lt_succ_self _
  | setBlockKind block kind =>
    have hb := hh.blocks block (hblocks block (by simp [BuilderCall.blockArgs]))
    refine ⟨{ b with func := b.func.setBlockKind block kind }, .unit, ?_, fits_unit _ _⟩
    rw [step, setBlockKind, if_pos hb]
    rfl
  | switchTo block => exact ⟨_, _, rfl, fits_unit _ _⟩
  | note text => exact ⟨_, _, rfl, fits_unit _ _⟩
  | ins call =>
    obtain ⟨b', vs, hrun, hlen, hvs⟩ := ins_safe hh.anchored (fun v hv => hh.values v (hvalues v hv)) (htyped call rfl)
    refine ⟨b', .values vs, by rw [step, hrun, Option.map_some], ⟨?_, by simp [Reply.blocks], hvs⟩⟩
    rintro call' vs' ⟨⟩ ⟨⟩
    exact hlen
  | _ => exact hclose _

/-- Reading a type panics where there is no value. -/
theorem step_none_of_typed {call : InsCall} (htyped : call.typed.isSome) (hempty : b.func.values = []) :
    b.step (.ins call) = none := by
  have hread : ∀ v, b.func.valueType v = none := fun v => by rw [Function.valueType, hempty]; rfl
  cases call with
  | convert dst value | store ptr value | sstore key value | tstore key value =>
    have hrun : ∀ g : Ty → Option (FunctionBuilder × List Value), (b.func.valueType value).bind g = none := fun g => by
      rw [hread value, Option.bind_none]
    exact congrArg (Option.map _) (hrun _)
  | _ => exact absurd htyped (by simp [InsCall.typed])

/-! ## Runs -/

theorem holds_new (name : String) (sig : Signature) : Holds (new name sig) [(new name sig).func.entry] [] := by
  have hempty : (empty name sig).func.Sound :=
    ⟨fun _ h => absurd h List.not_mem_nil, fun _ h => absurd h List.not_mem_nil⟩
  have hsound : (new name sig).func.Sound := hempty.withBlock sig.params
  have hentry : (new name sig).func.entry.index < (new name sig).func.blocks.length := by
    show ((empty name sig).func.withBlock sig.params).entry.index <
      ((empty name sig).func.withBlock sig.params).blocks.length
    rw [Function.entry_withBlock, Function.length_blocks_withBlock]
    exact Nat.succ_pos _
  refine ⟨⟨hsound, hentry, fun block hc => ?_, nofun⟩, fun block hblock => ?_, nofun⟩
  · obtain rfl := Option.some.inj hc
    exact hentry
  · rwa [List.mem_singleton.mp hblock]

theorem Holds.step {blocks : List Block} {values : List Value} (hh : Holds b blocks values) {c : BuilderCall}
    {reply : Reply} (hblocks : ∀ block ∈ c.blockArgs, block ∈ blocks) (hstep : b.step c = some (b', reply))
    (hfits : reply.Fits c b') :
    Holds b' (blocks ++ reply.blocks) (values ++ reply.toValues) := by
  have hdid := step_did hstep
  have hw := did_widens hdid
  refine ⟨did_anchored hdid (fun block hact => hh.blocks block (hblocks block ?_)) hh.anchored, fun block hblock => ?_,
    fun v hv => ?_⟩
  · cases c with
    | switchTo block' =>
      obtain rfl := Action.switch.inj hact
      exact List.mem_singleton.mpr rfl
    | _ => exact absurd hact (by simp [BuilderCall.action])
  · rcases List.mem_append.mp hblock with h | h
    · exact (hh.blocks block h).trans_le hw.blocks
    · exact hfits.blocks block h
  · rcases List.mem_append.mp hv with h | h
    · exact (hh.values v h).mono hw
    · exact hfits.values v h

/-- A type is only read where the function has a value. -/
def TypesReadable (b : FunctionBuilder) (calls : List BuilderCall) : Prop :=
  ∀ pre call post b', calls = pre ++ .ins call :: post → b.run pre = some b' → call.typed.isSome →
    b'.func.values ≠ []

theorem run_cons (b : FunctionBuilder) (c : BuilderCall) (calls : List BuilderCall) :
    b.run (c :: calls) = (b.step c).bind fun r => r.1.run calls := by
  rw [run, List.foldlM_cons]
  cases b.step c <;> rfl

/-- **A proper run** returns, and no call on its way panics. -/
theorem run_safe {calls : List BuilderCall} {blocks : List Block} {values : List Value} (hh : Holds b blocks values)
    (hproper : Proper b blocks values calls) (hreadable : TypesReadable b calls) :
    (∃ b', b.run calls = some b') ∧
      ∀ pre c post b', calls = pre ++ c :: post → b.run pre = some b' → ¬ Panics b' c := by
  induction calls generalizing b blocks values with
  | nil => exact ⟨⟨b, rfl⟩, fun pre c post b' heq => absurd heq (by simp)⟩
  | cons c calls ih =>
    obtain ⟨hblocks, hvalues, hindex, hrest⟩ := hproper
    obtain ⟨b₁, reply, hstep, hfits⟩ := step_safe hh hblocks hvalues hindex fun call hc =>
      hreadable [] call calls b (by rw [hc]; rfl) rfl
    have hrun : ∀ cs, b.run (c :: cs) = b₁.run cs := fun cs => by rw [run_cons, hstep, Option.bind_some]
    rw [hstep] at hrest
    obtain ⟨hexists, hsafe⟩ := ih (hh.step hblocks hstep hfits) hrest
      fun pre call post b' heq hpre => hreadable (c :: pre) call post b' (by rw [heq]; rfl) (by rwa [hrun])
    refine ⟨by simpa only [hrun] using hexists, fun pre c' post b' heq hpre => ?_⟩
    cases pre with
    | cons c₀ pre =>
      obtain ⟨rfl, htail⟩ := List.cons.inj heq
      exact hsafe pre c' post b' htail (by rwa [hrun] at hpre)
    | nil =>
      obtain ⟨rfl, -⟩ := List.cons.inj heq
      obtain rfl := Option.some.inj hpre
      rintro (hnone | ⟨text, inst, -, hlast, hout⟩ | ⟨call, b', vs, hc, hstep', hshort⟩)
      · rw [hnone] at hstep
        exact absurd hstep (by simp)
      · exact absurd (hh.anchored.last inst hlast) (Nat.not_lt.mpr hout)
      · obtain ⟨-, rfl⟩ := Prod.mk.inj (Option.some.inj (hstep.symm.trans hstep'))
        exact absurd (hfits.taken call vs hc rfl) (Nat.not_le.mpr hshort)

/-- What a build promises: no call panics; after the first failing call nothing is written and `finish` returns its
error; a build without a failing call finishes. -/
structure StickyAndSafe (b : FunctionBuilder) (calls : List BuilderCall) : Prop where
  safe : ∀ pre c post b', calls = pre ++ c :: post → b.run pre = some b' → ¬ Panics b' c
  sticky : ∀ pre c post e, calls = pre ++ c :: post →
    (∀ p c' q e', pre = p ++ c' :: q → ¬ FailsAfter b p c' e') → FailsAfter b pre c e →
      ∃ b₁ b', b.run pre = some b₁ ∧ b.run calls = some b' ∧ b'.finish = .error e ∧ Idle b₁.func b'.func
  clean : (∀ pre c post e, calls = pre ++ c :: post → ¬ FailsAfter b pre c e) →
    ∃ b' f, b.run calls = some b' ∧ b'.finish = .ok f

/-- After the first failing call. -/
theorem sticky_of_run {calls post : List BuilderCall} {pre : List BuilderCall} {c : BuilderCall} {e : IrError}
    (he : b.error = none) (heq : calls = pre ++ c :: post)
    (hfirst : ∀ p c' q e', pre = p ++ c' :: q → ¬ FailsAfter b p c' e') (hfails : FailsAfter b pre c e)
    (hrun : b.run calls = some b') :
    ∃ b₁, b.run pre = some b₁ ∧ b'.finish = .error e ∧ Idle b₁.func b'.func := by
  obtain ⟨b₁, hrun₁, hrefusal⟩ := hfails
  have he₁ := run_error_none hrun₁ he fun p c' q e' h => hfirst p c' q e' h
  rw [heq, run_append, hrun₁, Option.bind_some, run_cons] at hrun
  obtain ⟨⟨b₂, reply⟩, hstep, hrest⟩ := Option.bind_eq_some_iff.mp hrun
  obtain rfl := did_refused (step_did hstep) he₁ hrefusal
  obtain ⟨he', hidle⟩ := run_idle hrest nofun
  exact ⟨b₁, hrun₁, by rw [finish, he'], hidle⟩

/-- **Builder errors are sticky and safe** exactly when no type is read in a function without values. -/
theorem sticky_and_safe_iff {name : String} {sig : Signature} {calls : List BuilderCall}
    (hproper : Proper (new name sig) [(new name sig).func.entry] [] calls) :
    StickyAndSafe (new name sig) calls ↔ TypesReadable (new name sig) calls := by
  constructor
  · rintro ⟨hsafe, -, -⟩ pre call post b' heq hrun htyped hempty
    exact hsafe pre (.ins call) post b' heq hrun (.inl (step_none_of_typed htyped hempty))
  · intro hreadable
    obtain ⟨⟨b', hrun⟩, hsafe⟩ := run_safe (holds_new name sig) hproper hreadable
    refine ⟨hsafe, fun pre c post e heq hfirst hfails => ?_, fun hnone => ?_⟩
    · obtain ⟨b₁, hrun₁, hfinish, hidle⟩ := sticky_of_run rfl heq hfirst hfails hrun
      exact ⟨b₁, b', hrun₁, hrun, hfinish, hidle⟩
    · have he := run_error_none hrun rfl hnone
      exact ⟨b', b'.func, hrun, by rw [finish, he]⟩

theorem sticky_and_safe_iff_store :
    StickyAndSafe (new "f" ⟨[.PTR], []⟩)
        [.param 0, .ins (.opcode "NOPE" .U256 []), .ins (.store (Value.new 0) (Value.new 0)), .stop] ↔
      TypesReadable (new "f" ⟨[.PTR], []⟩)
        [.param 0, .ins (.opcode "NOPE" .U256 []), .ins (.store (Value.new 0) (Value.new 0)), .stop] :=
  sticky_and_safe_iff (by decide +kernel)

/-- **A placeholder can panic**: in a function without parameters, storing what an unknown opcode handed back. -/
theorem sticky_and_safe_fails :
    Proper (new "f" ⟨[], []⟩) [(new "f" ⟨[], []⟩).func.entry] []
        [.ins (.opcode "NOPE" .U256 []), .ins (.store (Value.new 0) (Value.new 0))] ∧
      ¬ StickyAndSafe (new "f" ⟨[], []⟩)
        [.ins (.opcode "NOPE" .U256 []), .ins (.store (Value.new 0) (Value.new 0))] := by
  refine ⟨by decide +kernel, fun h => ?_⟩
  have hrun : ∃ b, (new "f" ⟨[], []⟩).run [.ins (.opcode "NOPE" .U256 [])] = some b ∧
      b.step (.ins (.store (Value.new 0) (Value.new 0))) = none := ⟨_, rfl, rfl⟩
  obtain ⟨b, hrun, hstep⟩ := hrun
  exact h.safe [.ins (.opcode "NOPE" .U256 [])] _ [] b rfl hrun (.inl hstep)

end FunctionBuilder

end RustEvm.Ir
