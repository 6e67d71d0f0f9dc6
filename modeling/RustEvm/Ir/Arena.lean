import RustEvm.Ir.BuilderSpec

/-!
# RustEvm.Ir.Arena — the arenas of a function agree

Values, instructions and blocks refer to one another by index.  A `Site` is where values are defined: an instruction
with its results, or a block with its parameters.  `Linked` says that values and sites point at each other,
`Listed` that every instruction stands in one block, once; `did_linked` and `did_listed` carry them through one call,
as long as nothing outgrows its index (`InBounds`).
-/

namespace RustEvm.Ir

/-! ## Handles -/

@[simp] theorem Value.new_index (v : Value) : Value.new v.index = v := by
  cases v
  simp [new, index]

theorem Value.index_new {n : ℕ} (h : n < 2 ^ 32) : (Value.new n).index = n :=
  UInt32.toNat_ofNat_of_lt' h

@[simp] theorem Inst.new_index (i : Inst) : Inst.new i.index = i := by
  cases i
  simp [new, index]

theorem Inst.index_new {n : ℕ} (h : n < 2 ^ 32) : (Inst.new n).index = n :=
  UInt32.toNat_ofNat_of_lt' h

@[simp] theorem Block.new_index (b : Block) : Block.new b.index = b := by
  cases b
  simp [new, index]

theorem Block.index_new {n : ℕ} (h : n < 2 ^ 32) : (Block.new n).index = n :=
  UInt32.toNat_ofNat_of_lt' h

/-! ## Sites -/

/-- Where values are defined. -/
inductive Site
  | inst (i : Inst)
  | block (b : Block)
  deriving DecidableEq

/-- The definition number `k` of a site. -/
def Site.defn : Site → ℕ → ValueDef
  | inst i, k => .result i (UInt16.ofNat k)
  | block b, k => .param b (UInt16.ofNat k)

def ValueDef.site : ValueDef → Site
  | result i _ => .inst i
  | param b _ => .block b

def ValueDef.index : ValueDef → ℕ
  | result _ k => k.toNat
  | param _ k => k.toNat

@[simp] theorem Site.site_defn (s : Site) (k : ℕ) : (s.defn k).site = s := by
  cases s <;> rfl

theorem Site.index_defn (s : Site) {k : ℕ} (h : k < 2 ^ 16) : (s.defn k).index = k := by
  cases s <;> exact UInt16.toNat_ofNat_of_lt' h

/-- The arena entries of the values a site defines. -/
def Site.data (s : Site) (tys : List Ty) : List ValueData := tys.mapIdx fun k ty => ⟨ty, s.defn k⟩

namespace Function

/-- Where a value came from. -/
def valueDef (f : Function) (v : Value) : Option ValueDef := (f.values[v.index]?).map ValueData.defn

def blockParams (f : Function) (block : Block) : List Value := (f.blocks[block.index]?).elim [] BlockData.params

/-- The values of a site. -/
def defined (f : Function) : Site → List Value
  | .inst i => f.results i
  | .block b => f.blockParams b

/-- No arena outgrows the 32 bits of its indices. -/
structure InRange (f : Function) : Prop extends f.Fits where
  blocks : f.blocks.length ≤ 2 ^ 32

/-- Nor do the parameters of a block or the results of an instruction the 16 bits of theirs. -/
structure InBounds (f : Function) : Prop extends f.InRange where
  params : ∀ data ∈ f.blocks, data.params.length ≤ 2 ^ 16
  results : ∀ data ∈ f.insts, data.results.length ≤ 2 ^ 16

/-- Values and sites point at each other. -/
structure Linked (f : Function) : Prop where
  back : ∀ v d, f.valueDef v = some d → (f.defined d.site)[d.index]? = some v
  forth : ∀ s k v, (f.defined s)[k]? = some v → f.valueDef v = some (s.defn k)

/-- The instructions stand in the blocks, each in one and once. -/
def Listed (f : Function) : Prop :=
  (f.blocks.flatMap BlockData.insts).Perm ((List.range f.insts.length).map Inst.new)

/-! ## A new site -/

theorem getElem?_minted (start : ℕ) (tys : List Ty) (k : ℕ) :
    (minted start tys)[k]? = (tys[k]?).map fun _ => Value.new (start + k) := by
  rw [minted, List.getElem?_map]
  by_cases hk : k < tys.length
  · rw [List.getElem?_range' hk, List.getElem?_eq_getElem hk]
    simp
  · rw [List.getElem?_eq_none (by simpa using hk), List.getElem?_eq_none (by simpa using hk)]
    rfl

theorem getElem?_mintedData (inst : Inst) (start : ℕ) (tys : List Ty) (k : ℕ) :
    (mintedData inst start tys)[k]? = (tys[k]?).map fun ty => ⟨ty, .result inst (UInt16.ofNat (start + k))⟩ := by
  induction tys generalizing start k with
  | nil => rfl
  | cons ty tys ih =>
    cases k with
    | zero => rfl
    | succ k =>
      rw [mintedData, List.getElem?_cons_succ, List.getElem?_cons_succ, ih, Nat.add_right_comm, Nat.add_assoc]

theorem mintedData_eq (inst : Inst) (tys : List Ty) : mintedData inst 0 tys = (Site.inst inst).data tys := by
  apply List.ext_getElem?
  intro k
  rw [getElem?_mintedData, Site.data, List.getElem?_mapIdx, Nat.zero_add]
  rfl

/-- **A new site** with a fresh value for each type keeps values and sites linked. -/
theorem Linked.define {f f' : Function} (h : f.Linked) {s : Site} {tys : List Ty} (hnone : f.defined s = [])
    (hvalues : f'.values = f.values ++ s.data tys) (hnew : f'.defined s = minted f.values.length tys)
    (hold : ∀ s', s' ≠ s → f'.defined s' = f.defined s') (hfit : f'.values.length ≤ 2 ^ 32)
    (hindex : tys.length ≤ 2 ^ 16) : f'.Linked := by
  have hlen : f.values.length + tys.length ≤ 2 ^ 32 := by
    simpa [hvalues, Site.data] using hfit
  have hstays : ∀ {v d}, f.valueDef v = some d → f'.valueDef v = some d := by
    intro v d hd
    obtain ⟨data, hdata, rfl⟩ := Option.map_eq_some_iff.mp hd
    have hlt := (List.getElem?_eq_some_iff.mp hdata).1
    rw [valueDef, hvalues, List.getElem?_append_left hlt, hdata, Option.map_some]
  constructor
  · intro v d hd
    by_cases hv : v.index < f.values.length
    · rw [valueDef, hvalues, List.getElem?_append_left hv] at hd
      have hback := h.back v d hd
      have hne : d.site ≠ s := by
        rintro rfl
        simp [hnone] at hback
      rwa [hold _ hne]
    · rw [valueDef, hvalues, List.getElem?_append_right (Nat.not_lt.mp hv), Site.data, List.getElem?_mapIdx,
        Option.map_map] at hd
      obtain ⟨ty, hty, rfl⟩ := Option.map_eq_some_iff.mp hd
      have hk := (List.getElem?_eq_some_iff.mp hty).1
      show (f'.defined (s.defn _).site)[(s.defn _).index]? = some v
      rw [Site.site_defn, Site.index_defn _ (by omega), hnew, getElem?_minted, hty, Option.map_some,
        Nat.add_sub_cancel' (Nat.not_lt.mp hv), Value.new_index]
  · intro s' k v hv
    by_cases hs : s' = s
    · subst hs
      rw [hnew, getElem?_minted] at hv
      obtain ⟨ty, hty, rfl⟩ := Option.map_eq_some_iff.mp hv
      have hk := (List.getElem?_eq_some_iff.mp hty).1
      rw [valueDef, Value.index_new (by omega), hvalues, List.getElem?_append_right (Nat.le_add_right _ _),
        Nat.add_sub_cancel_left, Site.data, List.getElem?_mapIdx, hty]
      rfl
    · rw [hold s' hs] at hv
      exact hstays (h.forth s' k v hv)

/-- Linking reads the values, the results and the parameters. -/
theorem Linked.congr {f f' : Function} (h : f.Linked) (hvalues : f'.values = f.values)
    (hdefined : ∀ s, f'.defined s = f.defined s) : f'.Linked := by
  refine ⟨fun v d hd => ?_, fun s k v hv => ?_⟩
  · rw [hdefined]
    exact h.back v d (by rwa [valueDef, hvalues] at hd)
  · rw [hdefined] at hv
    rw [valueDef, hvalues]
    exact h.forth s k v hv

/-! ## Blocks -/

/-- The arena entries of a block's parameters, one at a time. -/
theorem foldl_appendParam_eq (tys : List Ty) {f : Function} {pre : List BlockData} {data : BlockData}
    (hblocks : f.blocks = pre ++ [data]) (hfit : pre.length < 2 ^ 32) :
    tys.foldl (fun f' ty => (f'.appendParam (Block.new pre.length) ty).1) f =
      { f with
        values := f.values ++ tys.mapIdx fun k ty =>
          ⟨ty, (Site.block (Block.new pre.length)).defn (data.params.length + k)⟩
        blocks := pre ++ [{ data with params := data.params ++ minted f.values.length tys }] } := by
  induction tys generalizing f data with
  | nil =>
    cases f
    subst hblocks
    simp [minted]
  | cons ty tys ih =>
    have hstep : (f.appendParam (Block.new pre.length) ty).1 =
        { f with
          values := f.values ++ [⟨ty, (Site.block (Block.new pre.length)).defn data.params.length⟩]
          blocks := pre ++ [{ data with params := data.params ++ [Value.new f.values.length] }] } := by
      simp [appendParam, pushValue, hblocks, Block.index_new hfit, modify_concat, Site.defn]
    rw [List.foldl_cons, hstep, ih rfl]
    simp [minted_cons, List.mapIdx_cons, Nat.add_assoc, Nat.add_comm 1]

/-- **A new block** defines its parameters and holds nothing. -/
theorem withBlock_eq {f : Function} (hfit : f.blocks.length < 2 ^ 32) (params : List Ty) :
    f.withBlock params =
      { f with
        values := f.values ++ (Site.block (Block.new f.blocks.length)).data params
        blocks := f.blocks ++ [⟨minted f.values.length params, [], none, .normal⟩] } := by
  rw [withBlock]
  have hblocks : f.createBlock.1.blocks = f.blocks ++ [⟨[], [], none, .normal⟩] := rfl
  have h := foldl_appendParam_eq params hblocks hfit
  refine h.trans ?_
  simp [createBlock, Site.data]

theorem length_blocks_withBlock (f : Function) (params : List Ty) :
    (f.withBlock params).blocks.length = f.blocks.length + 1 := by
  rw [withBlock_keeps (g := fun f => f.blocks.length) (fun f block ty => by simp [appendParam, pushValue])]
  simp [createBlock]

/-! ## Growth of the arenas -/

/-- The arenas only grew, as far as values, results and parameters go. -/
structure Grew (f f' : Function) : Prop where
  values : f.values <+: f'.values
  results : f.insts.map InstData.results <+: f'.insts.map InstData.results
  params : f.blocks.map BlockData.params <+: f'.blocks.map BlockData.params

theorem Grew.refl (f : Function) : Grew f f := ⟨List.prefix_rfl, List.prefix_rfl, List.prefix_rfl⟩

theorem Grew.trans {f g h : Function} (h1 : Grew f g) (h2 : Grew g h) : Grew f h :=
  ⟨h1.values.trans h2.values, h1.results.trans h2.results, h1.params.trans h2.params⟩

theorem Grew.inRange {f f' : Function} (h : f.Grew f') (hfit : f'.InRange) : f.InRange := by
  have hv := h.values.length_le
  have hr := h.results.length_le
  have hp := h.params.length_le
  simp only [List.length_map] at hr hp
  exact ⟨⟨hv.trans hfit.values, hr.trans hfit.insts⟩, hp.trans hfit.blocks⟩

theorem Grew.inBounds {f f' : Function} (h : f.Grew f') (hfit : f'.InBounds) : f.InBounds := by
  refine ⟨h.inRange hfit.toInRange, fun data hdata => ?_, fun data hdata => ?_⟩
  · obtain ⟨data', hdata', heq⟩ := List.mem_map.mp (h.params.subset (List.mem_map_of_mem hdata))
    exact heq ▸ hfit.params data' hdata'
  · obtain ⟨data', hdata', heq⟩ := List.mem_map.mp (h.results.subset (List.mem_map_of_mem hdata))
    exact heq ▸ hfit.results data' hdata'

/-- Changing an entry where it does not matter. -/
theorem map_modify {α β : Type*} {p : α → β} {g : α → α} (hg : ∀ x, p (g x) = p x) (l : List α) (k : ℕ) :
    (l.modify k g).map p = l.map p := by
  apply List.ext_getElem?
  intro j
  rw [List.getElem?_map, List.getElem?_map, List.getElem?_modify]
  cases l[j]? with
  | none => rfl
  | some x =>
    by_cases hk : k = j
    · simp [hk, hg]
    · simp [hk]

theorem prefix_map_modify {α β : Type*} {p : α → β} {g : α → α} (hg : ∀ x, p (g x) = p x) (l : List α) (k : ℕ) :
    l.map p <+: (l.modify k g).map p := by
  rw [map_modify hg]

theorem getElem?_concat_ne {α : Type*} {l : List α} {x : α} {j : ℕ} (h : l.length ≠ j) :
    (l ++ [x])[j]? = l[j]? := by
  rcases Nat.lt_or_gt_of_ne h with hgt | hlt
  · rw [List.getElem?_eq_none (by simpa using hgt), List.getElem?_eq_none hgt.le]
  · rw [List.getElem?_append_left hlt]

/-- What a list shows of an entry. -/
theorem elim_getElem? {α β : Type*} (p : α → List β) (l : List α) (j : ℕ) :
    (l[j]?).elim [] p = (l.map p)[j]?.getD [] := by
  rw [List.getElem?_map]
  cases l[j]? <;> rfl

theorem defined_congr {f f' : Function} (hr : f'.insts.map InstData.results = f.insts.map InstData.results)
    (hp : f'.blocks.map BlockData.params = f.blocks.map BlockData.params) (s : Site) :
    f'.defined s = f.defined s := by
  cases s with
  | inst i => rw [defined, defined, results, results, elim_getElem?, elim_getElem?, hr]
  | block b => rw [defined, defined, blockParams, blockParams, elim_getElem?, elim_getElem?, hp]

end Function

namespace FunctionBuilder

variable {b b' : FunctionBuilder} {a : Action}

theorem length_insts_lt {block : Block} {q : Request} (hfit : (b.emitted block q).func.InRange) :
    b.func.insts.length < 2 ^ 32 := by
  have h := hfit.insts
  rw [emitted, Function.length_insts_appendInst] at h
  omega

theorem length_blocks_lt {params : List Ty} (hfit : (b.func.withBlock params).InRange) :
    b.func.blocks.length < 2 ^ 32 := by
  have h := hfit.blocks
  rw [Function.length_blocks_withBlock] at h
  omega

/-- An emitted instruction in the arenas. -/
theorem func_emitted {block : Block} {q : Request} (hfit : (b.emitted block q).func.InRange) :
    (b.emitted block q).func =
      { b.func with
        values := b.func.values ++ (Site.inst (Inst.new b.func.insts.length)).data q.resultTypes
        insts := b.func.insts ++ [b.func.appended q.data q.resultTypes]
        blocks := b.func.blocks.modify block.index fun data =>
          { data with insts := data.insts ++ [Inst.new b.func.insts.length] } } := by
  rw [emitted, Function.appendInst_eq (length_insts_lt hfit), Function.mintedData_eq]

theorem did_grew (h : Did b a b') (hfit : b'.func.InRange) : b.func.Grew b'.func := by
  cases h with
  | looked | switched block => exact ⟨List.prefix_rfl, List.prefix_rfl, List.prefix_rfl⟩
  | ignored hw he => exact ⟨List.prefix_rfl, List.prefix_rfl, List.prefix_rfl⟩
  | refused he hr => exact ⟨List.prefix_rfl, List.prefix_rfl, List.prefix_rfl⟩
  | created params =>
    rw [Function.withBlock_eq (length_blocks_lt hfit)]
    exact ⟨List.prefix_append _ _, List.prefix_rfl, by simp⟩
  | marked block kind =>
    exact ⟨List.prefix_rfl, List.prefix_rfl, Function.prefix_map_modify (fun _ => by rfl) _ _⟩
  | noted text =>
    rw [note]
    cases b.last with
    | none => exact ⟨List.prefix_rfl, List.prefix_rfl, List.prefix_rfl⟩
    | some inst => exact ⟨List.prefix_rfl, Function.prefix_map_modify (fun _ => by rfl) _ _, List.prefix_rfl⟩
  | emitted he hr hc hb hq =>
    rw [func_emitted hfit]
    exact ⟨List.prefix_append _ _, by simp, Function.prefix_map_modify (fun _ => by rfl) _ _⟩
  | closed he hr hc hb =>
    exact ⟨List.prefix_rfl, List.prefix_rfl, Function.prefix_map_modify (fun _ => by rfl) _ _⟩

/-- A new block defines its parameters and no other site changes. -/
theorem linked_created (hl : b.func.Linked) {params : List Ty} (hfit : (b.func.withBlock params).InBounds) :
    (b.func.withBlock params).Linked := by
  have hlt := length_blocks_lt hfit.toInRange
  have hindex := Block.index_new hlt
  have heq := Function.withBlock_eq hlt params
  have hlen : params.length ≤ 2 ^ 16 := by
    have h := hfit.params ⟨Function.minted b.func.values.length params, [], none, .normal⟩ (by simp [heq])
    simpa [Function.minted] using h
  refine hl.define (s := .block (Block.new b.func.blocks.length)) ?_ (by simp only [heq]) ?_ ?_ hfit.values hlen
  · simp [Function.defined, Function.blockParams, hindex]
  · simp [Function.defined, Function.blockParams, hindex, heq]
  · intro s hs
    cases s with
    | inst i => simp [Function.defined, Function.results, heq]
    | block blk =>
      have hne : b.func.blocks.length ≠ blk.index := by
        rintro h
        exact hs (by rw [h, Block.new_index])
      simp only [Function.defined, Function.blockParams, heq, Function.getElem?_concat_ne hne]

/-- A new instruction defines its results and no other site changes. -/
theorem linked_emitted (hl : b.func.Linked) {block : Block} {q : Request}
    (hfit : (b.emitted block q).func.InBounds) : (b.emitted block q).func.Linked := by
  have hlt := length_insts_lt hfit.toInRange
  have hindex := Inst.index_new hlt
  have heq := func_emitted hfit.toInRange
  have hlen : q.resultTypes.length ≤ 2 ^ 16 := by
    have h := hfit.results (b.func.appended q.data q.resultTypes) (by simp [heq])
    simpa [Function.appended, Function.minted] using h
  refine hl.define (s := .inst (Inst.new b.func.insts.length)) ?_ (by simp only [heq]) ?_ ?_ hfit.values hlen
  · simp [Function.defined, Function.results, hindex]
  · simp [Function.defined, Function.results, hindex, heq, Function.appended]
  · intro s hs
    cases s with
    | inst i =>
      have hne : b.func.insts.length ≠ i.index := by
        rintro h
        exact hs (by rw [h, Inst.new_index])
      simp only [Function.defined, Function.results, heq, Function.getElem?_concat_ne hne]
    | block blk =>
      rw [Function.defined, Function.defined, Function.blockParams, Function.blockParams, Function.elim_getElem?,
        Function.elim_getElem?, heq]
      simp only
      exact congrArg (·[blk.index]?.getD []) (Function.map_modify (fun _ => by rfl) _ _)

/-- **One call** keeps values and sites linked. -/
theorem did_linked (h : Did b a b') (hfit : b'.func.InBounds) (hl : b.func.Linked) : b'.func.Linked := by
  cases h with
  | looked | switched block => exact hl
  | ignored hw he => exact hl
  | refused he hr => exact hl
  | created params => exact linked_created hl hfit
  | marked block kind =>
    exact hl.congr rfl (Function.defined_congr rfl (Function.map_modify (fun _ => by rfl) _ _))
  | noted text =>
    rw [note]
    cases b.last with
    | none => exact hl
    | some inst => exact hl.congr rfl (Function.defined_congr (Function.map_modify (fun _ => by rfl) _ _) rfl)
  | emitted he hr hc hb hq => exact linked_emitted hl hfit
  | closed he hr hc hb =>
    exact hl.congr rfl (Function.defined_congr rfl (Function.map_modify (fun _ => by rfl) _ _))

/-! ## Instructions and blocks -/

/-- One entry more in one of the lists. -/
theorem flatMap_modify_concat {α β : Type*} {p : α → List β} {g : α → α} {y : β} (hg : ∀ x, p (g x) = p x ++ [y])
    {l : List α} {k : ℕ} (hk : k < l.length) : ((l.modify k g).flatMap p).Perm (l.flatMap p ++ [y]) := by
  induction l generalizing k with
  | nil => simp at hk
  | cons x l ih =>
    cases k with
    | zero =>
      rw [List.modify_zero_cons, List.flatMap_cons, List.flatMap_cons, hg, List.append_assoc, List.append_assoc]
      exact List.Perm.append_left _ List.perm_append_comm
    | succ k =>
      rw [List.modify_succ_cons, List.flatMap_cons, List.flatMap_cons, List.append_assoc]
      exact List.Perm.append_left _ (ih (by simpa using hk))

theorem flatMap_modify {α β : Type*} {p : α → List β} {g : α → α} (hg : ∀ x, p (g x) = p x) (l : List α) (k : ℕ) :
    (l.modify k g).flatMap p = l.flatMap p := by
  rw [List.flatMap_def, List.flatMap_def, Function.map_modify hg]

/-- **One call** keeps every instruction in one block, once. -/
theorem did_listed (h : Did b a b') (hfit : b'.func.InRange) (hl : b.func.Listed) : b'.func.Listed := by
  cases h with
  | looked | switched block => exact hl
  | ignored hw he => exact hl
  | refused he hr => exact hl
  | created params =>
    rw [Function.Listed, Function.withBlock_eq (length_blocks_lt hfit)]
    simpa [Function.Listed] using hl
  | marked block kind =>
    show (List.flatMap _ (b.func.blocks.modify _ _)).Perm _
    rw [flatMap_modify (fun _ => by rfl)]
    exact hl
  | noted text =>
    rw [note]
    cases b.last with
    | none => exact hl
    | some inst => simpa [Function.Listed, Function.setNote] using hl
  | emitted he hr hc hb hq =>
    rw [Function.Listed, func_emitted hfit]
    simp only [List.length_append, List.length_singleton, List.range_succ, List.map_append]
    refine (flatMap_modify_concat (fun _ => by rfl) hb).trans (hl.append_right _)
  | closed he hr hc hb =>
    show (List.flatMap _ (b.func.blocks.modify _ _)).Perm _
    rw [flatMap_modify (fun _ => by rfl)]
    exact hl

theorem did_signature (h : Did b a b') (hfit : b'.func.InRange) :
    b'.func.sig = b.func.sig ∧ b'.func.entry = b.func.entry := by
  cases h with
  | created params => rw [Function.withBlock_eq (length_blocks_lt hfit)]; exact ⟨rfl, rfl⟩
  | emitted he hr hc hb hq => rw [func_emitted hfit]; exact ⟨rfl, rfl⟩
  | noted text => rw [note]; cases b.last <;> exact ⟨rfl, rfl⟩
  | _ => exact ⟨rfl, rfl⟩

/-! ## Runs -/

/-- **The run rule**: what every call preserves as long as the function fits holds after a run to a function that
fits. -/
theorem run_invariant {F : Function → Prop} {P : List BuilderCall → FunctionBuilder → Prop}
    (hback : ∀ {b a b'}, Did b a b' → F b'.func → F b.func)
    (hstep : ∀ {pre c b b'}, Did b c.action b' → F b'.func → P pre b → P (pre ++ [c]) b')
    {calls : List BuilderCall} (hstart : F b.func → P [] b) (hrun : b.run calls = some b') (hfit : F b'.func) :
    P calls b' := by
  induction calls using List.reverseRecOn generalizing b' with
  | nil =>
    obtain rfl := Option.some.inj hrun
    exact hstart hfit
  | append_singleton calls c ih =>
    obtain ⟨b₁, reply, hrun₁, hlast⟩ := run_concat.mp hrun
    have hdid := step_did hlast
    exact hstep hdid hfit (ih hrun₁ (hback hdid hfit))

theorem run_grew {calls : List BuilderCall} (hrun : b.run calls = some b') (hfit : b'.func.InRange) :
    b.func.Grew b'.func ∧ b'.func.sig = b.func.sig ∧ b'.func.entry = b.func.entry :=
  run_invariant (F := Function.InRange)
    (P := fun _ b' => b.func.Grew b'.func ∧ b'.func.sig = b.func.sig ∧ b'.func.entry = b.func.entry)
    (fun h hfit => (did_grew h hfit).inRange hfit)
    (fun h hfit hP => by
      obtain ⟨hsig, hentry⟩ := did_signature h hfit
      exact ⟨hP.1.trans (did_grew h hfit), hsig.trans hP.2.1, hentry.trans hP.2.2⟩)
    (fun _ => ⟨.refl _, rfl, rfl⟩) hrun hfit

end FunctionBuilder

end RustEvm.Ir
