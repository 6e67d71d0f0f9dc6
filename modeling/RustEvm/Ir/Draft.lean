import Mathlib.Data.List.ModifyLast
import RustEvm.Ir.Arena

/-!
# RustEvm.Ir.Draft — what the calls asked for, block by block

A `Draft` is a plain log of a build: for every block the parameter types it was created with, the emitting calls made
while it was current, each with its note, and the terminator it was given.  It is computed from the calls and knows no
arena.  The builder's function follows the log of its calls (`follows_run`), so what a finished function contains can
be read off the calls.
-/

namespace RustEvm.Ir

open Isa Codegen

/-! ## The log -/

/-- An emitting call with its note. -/
structure Entry where
  call : InsCall
  note : Option String
  deriving DecidableEq

structure BlockDraft where
  params : List Ty
  entries : List Entry
  term : Option Terminator
  deriving DecidableEq

structure Draft where
  blocks : List BlockDraft
  current : Option Block
  /-- the last entry of the current block takes the next note -/
  noteable : Bool
  error : Option IrError
  deriving DecidableEq

namespace BlockDraft

def add (call : InsCall) (bl : BlockDraft) : BlockDraft := { bl with entries := bl.entries ++ [⟨call, none⟩] }

/-- Note the last entry. -/
def annotate (text : String) (bl : BlockDraft) : BlockDraft :=
  { bl with entries := bl.entries.modifyLast fun e => { e with note := some text } }

def close (term : Terminator) (bl : BlockDraft) : BlockDraft := { bl with term := some term }

end BlockDraft

namespace Draft

def start (sig : Signature) : Draft := ⟨[⟨sig.params, [], none⟩], some (Block.new 0), false, none⟩

def update (d : Draft) (block : Block) (g : BlockDraft → BlockDraft) : Draft :=
  { d with blocks := d.blocks.modify block.index g }

def terminated (d : Draft) (block : Block) : Bool := (d.blocks[block.index]?).any fun bl => bl.term.isSome

def refusal (d : Draft) (a : Action) : Option IrError := a.refusal d.current d.terminated

/-- An action that is not refused. -/
def perform (d : Draft) : Action → Draft
  | .look | .mark _ _ => d
  | .create params => { d with blocks := d.blocks ++ [⟨params, [], none⟩] }
  | .switch block => { d with current := some block, noteable := false }
  | .note text =>
    match d.current with
    | some block => if d.noteable then d.update block (.annotate text) else d
    | none => d
  | .emit call =>
    match d.current with
    | some block => { d.update block (.add call) with noteable := true }
    | none => d
  | .close term =>
    match d.current with
    | some block => { d.update block (.close term) with current := none, noteable := false }
    | none => d

/-- An action: nothing is written after an error, and the first refusal is the error. -/
def act (d : Draft) (a : Action) : Draft :=
  if a.writes ∧ d.error.isSome then d
  else match d.refusal a with
  | some e => { d with error := some e }
  | none => d.perform a

end Draft

/-- The log of a sequence of calls. -/
def draft (sig : Signature) (calls : List BuilderCall) : Draft :=
  calls.foldl (fun d c => d.act c.action) (.start sig)

theorem draft_concat (sig : Signature) (calls : List BuilderCall) (c : BuilderCall) :
    draft sig (calls ++ [c]) = (draft sig calls).act c.action := by
  simp [draft]

/-! ## Following a log -/

/-- The result types an emitting call asks for. -/
def InsCall.resultTypes : InsCall → List Ty
  | iconst ty _ | add ty _ _ | sub ty _ _ | mul ty _ _ | div ty _ _ | rem ty _ _ | exp ty _ _ => [ty]
  | addOverflow ty _ _ | subOverflow ty _ _ | mulOverflow ty _ _ => [ty, .BOOL]
  | and ty _ _ | or ty _ _ | xor ty _ _ | not ty _ | shl ty _ _ | shr ty _ _ | sar ty _ _ => [ty]
  | convert dst _ => [dst]
  | icmp _ _ _ => [.BOOL]
  | select ty _ _ _ => [ty]
  | alloca _ => [.PTR]
  | load ty _ | sload ty _ | tload ty _ => [ty]
  | store _ _ | memcopy _ _ _ | sstore _ _ | tstore _ _ => []
  | opcode _ ty _ => [ty]
  | opcodeVoid _ _ => []
  | call _ sig _ => sig.returns

/-- The instruction is the one an entry stands for. -/
structure Built (f : Function) (data : InstData) (e : Entry) : Prop where
  request : ∃ q, e.call.request f = some q ∧ data.op = q.op ∧ data.ty = q.ty ∧ data.repair = q.repair ∧
    data.args = q.args
  results : data.results.map f.valueType = e.call.resultTypes.map some
  note : data.note = e.note

/-- The block has the parameters, the instructions and the terminator of its log. -/
structure BlockBuilt (f : Function) (data : BlockData) (bl : BlockDraft) : Prop where
  params : data.params.map f.valueType = bl.params.map some
  insts : List.Forall₂ (fun inst e => ∃ i, f.insts[inst.index]? = some i ∧ Built f i e) data.insts bl.entries
  term : data.term = bl.term

/-- The builder stands where its log says. -/
structure Follows (b : FunctionBuilder) (d : Draft) : Prop where
  error : b.error = d.error
  current : b.current = d.current
  blocks : List.Forall₂ (BlockBuilt b.func) b.func.blocks d.blocks
  noteable : b.last.isSome = d.noteable
  last : ∀ inst, b.last = some inst → ∃ block data, b.current = some block ∧
    b.func.blocks[block.index]? = some data ∧ data.insts.getLast? = some inst

/-! ## Requests -/

theorem InsCall.request_resultTypes {call : InsCall} {f : Function} {q : Request} (h : call.request f = some q) :
    q.resultTypes = call.resultTypes := by
  cases call with
  | convert dst value | store ptr value | sstore key value | tstore key value | opcode mnemonic ty args
    | opcodeVoid mnemonic args =>
    obtain ⟨_, -, rfl⟩ := Option.map_eq_some_iff.mp h
    rfl
  | _ =>
    obtain rfl := Option.some.inj h
    rfl

/-- A request reads recorded types only. -/
theorem InsCall.request_mono {call : InsCall} {f f' : Function} {q : Request}
    (hty : ∀ v ty, f.valueType v = some ty → f'.valueType v = some ty) (h : call.request f = some q) :
    call.request f' = some q := by
  cases call with
  | convert dst value | store ptr value | sstore key value | tstore key value =>
    obtain ⟨ty, hv, rfl⟩ := Option.map_eq_some_iff.mp h
    exact Option.map_eq_some_iff.mpr ⟨ty, hty _ _ hv, rfl⟩
  | _ => exact h

theorem map_valueType_mono {f f' : Function} {vs : List Value} {tys : List Ty}
    (hty : ∀ v ty, f.valueType v = some ty → f'.valueType v = some ty) (h : vs.map f.valueType = tys.map some) :
    vs.map f'.valueType = tys.map some := by
  rw [← h]
  refine List.map_congr_left fun v hv => ?_
  have hmem : f.valueType v ∈ tys.map some := h ▸ List.mem_map_of_mem hv
  obtain ⟨ty, -, hv⟩ := List.mem_map.mp hmem
  rw [← hv, hty v ty hv.symm]

theorem Built.mono {f f' : Function} {data : InstData} {e : Entry} (h : Built f data e)
    (hty : ∀ v ty, f.valueType v = some ty → f'.valueType v = some ty) : Built f' data e := by
  obtain ⟨⟨q, hq, hdata⟩, hr, hn⟩ := h
  exact ⟨⟨q, InsCall.request_mono hty hq, hdata⟩, map_valueType_mono hty hr, hn⟩

/-- A block stays built while types and instructions stay. -/
theorem BlockBuilt.mono {f f' : Function} {data : BlockData} {bl : BlockDraft} (h : BlockBuilt f data bl)
    (hty : ∀ v ty, f.valueType v = some ty → f'.valueType v = some ty)
    (hinst : ∀ inst ∈ data.insts, ∀ i, f.insts[inst.index]? = some i → f'.insts[inst.index]? = some i) :
    BlockBuilt f' data bl := by
  refine ⟨map_valueType_mono hty h.params, ?_, h.term⟩
  refine ((List.forall₂_and_left data.insts bl.entries).mpr ⟨hinst, h.insts⟩).imp ?_
  rintro inst e ⟨hkeep, i, hi, hbuilt⟩
  exact ⟨i, hkeep i hi, hbuilt.mono hty⟩

theorem BlockBuilt.congr {f f' : Function} {data : BlockData} {bl : BlockDraft} (h : BlockBuilt f data bl)
    (hvalues : f'.values = f.values) (hinsts : f'.insts = f.insts) : BlockBuilt f' data bl := by
  refine h.mono (fun v ty hty => ?_) fun inst _ i hi => hinsts ▸ hi
  rwa [Function.valueType, hvalues]

/-! ## Lists of blocks -/

theorem forall₂_iff_getElem? {α β : Type*} {R : α → β → Prop} {l : List α} {l' : List β} :
    List.Forall₂ R l l' ↔ l.length = l'.length ∧ ∀ (k : ℕ) x y, l[k]? = some x → l'[k]? = some y → R x y := by
  rw [List.forall₂_iff_get]
  refine and_congr_right fun _ => ⟨fun h k x y hx hy => ?_, fun h k hk hk' => ?_⟩
  · obtain ⟨hk, rfl⟩ := List.getElem?_eq_some_iff.mp hx
    obtain ⟨hk', rfl⟩ := List.getElem?_eq_some_iff.mp hy
    exact h k hk hk'
  · exact h k _ _ (List.getElem?_eq_getElem hk) (List.getElem?_eq_getElem hk')

/-- Changing the two entries at one index. -/
theorem forall₂_modify {α β : Type*} {R S : α → β → Prop} {g : α → α} {g' : β → β} {l : List α} {l' : List β}
    (h : List.Forall₂ R l l') {k : ℕ} (hat : ∀ x y, l[k]? = some x → R x y → S (g x) (g' y))
    (hoff : ∀ (j : ℕ) x y, j ≠ k → l[j]? = some x → R x y → S x y) :
    List.Forall₂ S (l.modify k g) (l'.modify k g') := by
  obtain ⟨hlen, hR⟩ := forall₂_iff_getElem?.mp h
  refine forall₂_iff_getElem?.mpr ⟨by simpa using hlen, fun j x y hx hy => ?_⟩
  rw [List.getElem?_modify] at hx hy
  obtain ⟨x₀, hx₀, rfl⟩ := Option.map_eq_some_iff.mp hx
  obtain ⟨y₀, hy₀, rfl⟩ := Option.map_eq_some_iff.mp hy
  by_cases hj : k = j
  · subst hj
    simpa using hat x₀ y₀ hx₀ (hR k x₀ y₀ hx₀ hy₀)
  · simpa [hj] using hoff j x₀ y₀ (Ne.symm hj) hx₀ (hR j x₀ y₀ hx₀ hy₀)

/-- A list related to one with a last entry has a last entry. -/
theorem forall₂_concat_left_iff {α β : Type*} {R : α → β → Prop} {l : List α} {x : α} {u : List β} :
    List.Forall₂ R (l ++ [x]) u ↔ ∃ y l', R x y ∧ List.Forall₂ R l l' ∧ u = l' ++ [y] := by
  rw [← List.forall₂_reverse_iff, List.reverse_append, List.reverse_singleton, List.singleton_append,
    List.forall₂_cons_left_iff]
  constructor
  · rintro ⟨y, l', hxy, hl, hu⟩
    refine ⟨y, l'.reverse, hxy, ?_, ?_⟩
    · rwa [← List.forall₂_reverse_iff, List.reverse_reverse]
    · rw [← List.reverse_cons, ← hu, List.reverse_reverse]
  · rintro ⟨y, l', hxy, hl, rfl⟩
    exact ⟨y, l'.reverse, hxy, List.forall₂_reverse_iff.mpr hl, by simp⟩

/-- The same blocks are terminated. -/
theorem Follows.terminated {b : FunctionBuilder} {d : Draft} (h : Follows b d) : b.terminated = d.terminated := by
  obtain ⟨hlen, hbuilt⟩ := forall₂_iff_getElem?.mp h.blocks
  funext block
  rw [FunctionBuilder.terminated, Draft.terminated]
  by_cases hk : block.index < b.func.blocks.length
  · have hk' := hlen ▸ hk
    have hterm := (hbuilt block.index _ _ (List.getElem?_eq_getElem hk) (List.getElem?_eq_getElem hk')).term
    rw [List.getElem?_eq_getElem hk, List.getElem?_eq_getElem hk', Option.any_some, Option.any_some, hterm]
  · rw [List.getElem?_eq_none (Nat.not_lt.mp hk), List.getElem?_eq_none (hlen ▸ Nat.not_lt.mp hk)]
    rfl

theorem Follows.refusal {b : FunctionBuilder} {d : Draft} (h : Follows b d) (a : Action) :
    b.refusal a = d.refusal a := by
  rw [FunctionBuilder.refusal, Draft.refusal, h.current, h.terminated]

/-! ## Fresh values -/

/-- The values of a new site have the types asked for. -/
theorem valueType_minted_map {f f' : Function} {s : Site} {tys : List Ty}
    (hvalues : f'.values = f.values ++ s.data tys) (hfit : f'.values.length ≤ 2 ^ 32) :
    (Function.minted f.values.length tys).map f'.valueType = tys.map some := by
  have hlen : f.values.length + tys.length ≤ 2 ^ 32 := by
    simpa [hvalues, Site.data] using hfit
  apply List.ext_getElem?
  intro k
  rw [List.getElem?_map, List.getElem?_map, Function.getElem?_minted]
  cases hty : tys[k]? with
  | none => rfl
  | some ty =>
    have hk := (List.getElem?_eq_some_iff.mp hty).1
    rw [Option.map_some, Option.map_some, Option.map_some, Function.valueType, Value.index_new (by omega), hvalues,
      List.getElem?_append_right (Nat.le_add_right _ _), Nat.add_sub_cancel_left, Site.data, List.getElem?_mapIdx,
      hty]
    rfl

theorem valueType_append {f f' : Function} {rest : List ValueData} (hvalues : f'.values = f.values ++ rest) (v : Value)
    (ty : Ty) (h : f.valueType v = some ty) : f'.valueType v = some ty := by
  obtain ⟨data, hdata, rfl⟩ := Option.map_eq_some_iff.mp h
  have hlt := (List.getElem?_eq_some_iff.mp hdata).1
  rw [Function.valueType, hvalues, List.getElem?_append_left hlt, hdata, Option.map_some]

/-! ## One call -/

section

variable {b : FunctionBuilder} {d : Draft} {a : Action}

theorem Draft.act_ignored (hw : a.writes) (he : d.error ≠ none) : d.act a = d := by
  rw [act, if_pos ⟨hw, Option.isSome_iff_ne_none.mpr he⟩]

theorem Draft.act_refused {e : IrError} (he : d.error = none) (hr : d.refusal a = some e) :
    d.act a = { d with error := some e } := by
  rw [act, if_neg (by simp [he]), hr]

theorem Draft.act_perform (he : a.writes = false ∨ d.error = none) (hr : d.refusal a = none) :
    d.act a = d.perform a := by
  rw [act, if_neg (by rcases he with h | h <;> simp [h]), hr]

/-- Every instruction of a fitting function stands once in its block and in no other. -/
theorem Function.Listed.nodup {f : Function} (hl : f.Listed) (hfit : f.InRange) :
    (f.blocks.flatMap BlockData.insts).Nodup := by
  rw [hl.nodup_iff]
  refine List.Nodup.map_on (fun i hi j hj hij => ?_) List.nodup_range
  have hi := List.mem_range.mp hi
  have hj := List.mem_range.mp hj
  have hlen := hfit.insts
  rw [← Inst.index_new (n := i) (by omega), hij, Inst.index_new (by omega)]

theorem Function.Listed.disjoint {f : Function} (hl : f.Listed) (hfit : f.InRange) {j k : ℕ} {x y : BlockData}
    (hjk : j ≠ k) (hx : f.blocks[j]? = some x) (hy : f.blocks[k]? = some y) {inst : Inst} (hinst : inst ∈ x.insts) :
    inst ∉ y.insts := by
  have hpair := List.pairwise_iff_getElem.mp (List.nodup_flatMap.mp (hl.nodup hfit)).2
  obtain ⟨hj, rfl⟩ := List.getElem?_eq_some_iff.mp hx
  obtain ⟨hk, rfl⟩ := List.getElem?_eq_some_iff.mp hy
  rcases Nat.lt_or_gt_of_ne hjk with hlt | hgt
  · exact hpair j k hj hk hlt hinst
  · exact fun hinst' => hpair k j hk hj hgt hinst' hinst

/-- Noting one instruction leaves the others. -/
theorem getElem?_setNote_ne {f : Function} {inst inst' : Inst} {text : String} (hne : inst' ≠ inst) :
    (f.setNote inst text).insts[inst'.index]? = f.insts[inst'.index]? := by
  have hindex : inst.index ≠ inst'.index := by
    intro h
    exact hne (by rw [← Inst.new_index inst', ← h, Inst.new_index])
  exact List.getElem?_modify_ne _ _ hindex

/-- The last instruction of a block takes the note. -/
theorem BlockBuilt.annotate {f : Function} {data : BlockData} {bl : BlockDraft} {inst : Inst} {text : String}
    (h : BlockBuilt f data bl) (hlast : data.insts.getLast? = some inst) (hnodup : data.insts.Nodup) :
    BlockBuilt (f.setNote inst text) data (bl.annotate text) := by
  obtain ⟨init, hinit⟩ := List.getLast?_eq_some_iff.mp hlast
  have hinsts := h.insts
  rw [hinit] at hinsts hnodup
  obtain ⟨e, es, ⟨i, hi, hbuilt⟩, hes, hentries⟩ := forall₂_concat_left_iff.mp hinsts
  refine ⟨h.params, ?_, h.term⟩
  rw [hinit, BlockDraft.annotate, hentries, List.modifyLast_concat]
  refine forall₂_concat_left_iff.mpr ⟨{ e with note := some text }, es,
    ⟨{ i with note := some text }, ?_, hbuilt.request, hbuilt.results, rfl⟩, ?_, rfl⟩
  · show (f.insts.modify inst.index _)[inst.index]? = _
    rw [List.getElem?_modify_eq, hi]
    rfl
  · have hne : ∀ inst' ∈ init, inst' ≠ inst := fun inst' hinst' h =>
      (List.nodup_append.mp hnodup).2.2 inst' hinst' inst (by simp) h
    refine ((List.forall₂_and_left init es).mpr ⟨hne, hes⟩).imp ?_
    rintro inst' e' ⟨hne, i', hi', hbuilt'⟩
    exact ⟨i', (getElem?_setNote_ne hne).trans hi', hbuilt'.request, hbuilt'.results, hbuilt'.note⟩

/-- A new block starts its own log. -/
theorem Follows.created {params : List Ty} (hf : Follows b d) (hfit : (b.func.withBlock params).InRange) :
    Follows { b with func := b.func.withBlock params } (d.act (.create params)) := by
  have hlt := FunctionBuilder.length_blocks_lt hfit
  have heq := Function.withBlock_eq hlt params
  have hvalues : (b.func.withBlock params).values =
      b.func.values ++ (Site.block (Block.new b.func.blocks.length)).data params := by rw [heq]
  rw [Draft.act_perform (.inl rfl) rfl]
  refine ⟨hf.error, hf.current, ?_, hf.noteable, ?_⟩
  · show List.Forall₂ _ (b.func.withBlock params).blocks _
    rw [show (b.func.withBlock params).blocks = _ from congrArg Function.blocks heq]
    refine List.rel_append (hf.blocks.imp fun data bl hbuilt => ?_) (.cons ⟨?_, .nil, rfl⟩ .nil)
    · exact hbuilt.mono (valueType_append hvalues) fun inst _ i hi => by rwa [heq]
    · exact valueType_minted_map hvalues hfit.values
  · intro inst hinst
    obtain ⟨block, data, hcur, hdata, hlast⟩ := hf.last inst hinst
    refine ⟨block, data, hcur, ?_, hlast⟩
    show (b.func.withBlock params).blocks[block.index]? = some data
    rw [heq]
    exact List.getElem?_append_left (List.getElem?_eq_some_iff.mp hdata).1 |>.trans hdata

theorem Follows.marked {block : Block} {kind : BlockKind} (hf : Follows b d) :
    Follows { b with func := b.func.setBlockKind block kind } (d.act (.mark block kind)) := by
  rw [Draft.act_perform (.inl rfl) rfl]
  refine ⟨hf.error, hf.current, ?_, hf.noteable, ?_⟩
  · show List.Forall₂ _ (b.func.blocks.modify _ _) d.blocks
    rw [← List.modify_id block.index d.blocks]
    refine forall₂_modify hf.blocks (fun x y _ h => ?_) fun _ x y _ _ h => h.congr rfl rfl
    have hbuilt : BlockBuilt (b.func.setBlockKind block kind) x y := h.congr rfl rfl
    obtain ⟨hparams, hinsts, hterm⟩ := hbuilt
    exact ⟨hparams, hinsts, hterm⟩
  · intro inst hinst
    obtain ⟨blk, data, hcur, hdata, hlast⟩ := hf.last inst hinst
    by_cases hk : block.index = blk.index
    · refine ⟨blk, { data with kind }, hcur, ?_, hlast⟩
      show (b.func.blocks.modify _ _)[_]? = _
      rw [hk, List.getElem?_modify_eq, hdata]
      rfl
    · refine ⟨blk, data, hcur, ?_, hlast⟩
      exact (List.getElem?_modify_ne _ _ hk).trans hdata

/-- **A note** lands on the last entry of the current block, if that was written since the latest switch. -/
theorem Follows.noted {text : String} (hf : Follows b d) (hfit : b.func.InRange) (hl : b.func.Listed) :
    Follows (b.note text) (d.act (.note text)) := by
  rw [Draft.act_perform (.inl rfl) rfl, Draft.perform, FunctionBuilder.note]
  cases hlast : b.last with
  | none =>
    have hnote : d.noteable = false := by rw [← hf.noteable, hlast]; rfl
    have hsame : (match d.current with
        | some block => if d.noteable then d.update block (.annotate text) else d
        | none => d) = d := by
      cases d.current <;> simp [hnote]
    simp only
    rwa [hsame]
  | some inst =>
    obtain ⟨block, data, hcur, hdata, hget⟩ := hf.last inst hlast
    have hnote : d.noteable := by rw [← hf.noteable, hlast]; rfl
    have hmem : inst ∈ data.insts := List.mem_of_getLast? hget
    have hcur' : d.current = some block := hf.current ▸ hcur
    rw [hcur']
    simp only [hnote, if_true]
    refine ⟨hf.error, hf.current, ?_, hlast ▸ hf.noteable, fun inst' hinst' => ?_⟩
    · show List.Forall₂ (BlockBuilt (b.func.setNote inst text)) b.func.blocks _
      rw [← List.modify_id block.index b.func.blocks]
      refine forall₂_modify hf.blocks (fun x y hx h => ?_) fun j x y hj hx h => ?_
      · obtain rfl := Option.some.inj (hx.symm.trans hdata)
        exact h.annotate hget ((List.nodup_flatMap.mp (hl.nodup hfit)).1 x (List.mem_of_getElem? hx))
      · refine h.mono (fun _ _ hty => hty) fun inst' hinst' i hi => (getElem?_setNote_ne ?_).trans hi
        rintro rfl
        exact hl.disjoint hfit hj hx hdata hinst' hmem
    · exact hf.last inst' (hlast.trans hinst')

/-- **An emitted instruction** is the next entry of the current block. -/
theorem Follows.emitted {call : InsCall} {q : Request} {block : Block} (hf : Follows b d) (he : b.error = none)
    (hr : b.refusal (.emit call) = none) (hc : b.current = some block) (hb : block.index < b.func.blocks.length)
    (hq : call.request b.func = some q) (hfit : (b.emitted block q).func.InRange) :
    Follows (b.emitted block q) (d.act (.emit call)) := by
  have heq := FunctionBuilder.func_emitted hfit
  have hlt := FunctionBuilder.length_insts_lt hfit
  have hvalues : (b.emitted block q).func.values =
      b.func.values ++ (Site.inst (Inst.new b.func.insts.length)).data q.resultTypes := by rw [heq]
  have hty := valueType_append hvalues
  have hinsts : ∀ (inst : Inst) i, b.func.insts[inst.index]? = some i →
      (b.emitted block q).func.insts[inst.index]? = some i := by
    intro inst i hi
    rw [heq]
    exact (List.getElem?_append_left (List.getElem?_eq_some_iff.mp hi).1).trans hi
  have hblocks : (b.emitted block q).func.blocks = b.func.blocks.modify block.index fun data =>
      { data with insts := data.insts ++ [Inst.new b.func.insts.length] } := by rw [heq]
  have hinst : (b.func.appendInst block q.data q.resultTypes).2 = Inst.new b.func.insts.length := rfl
  have hcur : d.current = some block := hf.current ▸ hc
  rw [Draft.act_perform (.inr (hf.error ▸ he)) (hf.refusal (.emit call) ▸ hr), Draft.perform, hcur]
  refine ⟨hf.error, hf.current.trans rfl, ?_, rfl, fun inst' hinst' => ?_⟩
  · show List.Forall₂ _ (b.emitted block q).func.blocks _
    rw [hblocks]
    refine forall₂_modify hf.blocks (fun x y hx h => ?_) fun j x y hj hx h => h.mono hty fun inst _ => hinsts inst
    obtain ⟨hparams, hold, hterm⟩ := h.mono hty fun inst _ => hinsts inst
    refine ⟨hparams, forall₂_concat_left_iff.mpr ⟨_, _, ⟨b.func.appended q.data q.resultTypes, ?_, ?_⟩, hold, rfl⟩,
      hterm⟩
    · rw [Inst.index_new hlt, heq]
      exact List.getElem?_concat_length
    · refine ⟨⟨q, InsCall.request_mono hty hq, rfl, rfl, rfl, rfl⟩, ?_, rfl⟩
      rw [← InsCall.request_resultTypes hq]
      exact valueType_minted_map hvalues hfit.values
  · obtain rfl := Option.some.inj hinst'
    rw [hinst]
    refine ⟨block, { b.func.blocks[block.index] with
      insts := b.func.blocks[block.index].insts ++ [Inst.new b.func.insts.length] }, hc, ?_, List.getLast?_concat⟩
    rw [hblocks, List.getElem?_modify_eq, List.getElem?_eq_getElem hb]
    rfl

theorem Follows.closed {term : Terminator} {block : Block} (hf : Follows b d) (he : b.error = none)
    (hr : b.refusal (.close term) = none) (hc : b.current = some block) :
    Follows (b.closed block term) (d.act (.close term)) := by
  rw [Draft.act_perform (.inr (hf.error ▸ he)) (hf.refusal (.close term) ▸ hr)]
  have hcur : d.current = some block := hf.current ▸ hc
  rw [Draft.perform, hcur]
  refine ⟨hf.error, rfl, ?_, rfl, nofun⟩
  refine forall₂_modify hf.blocks (fun x y _ h => ?_) fun _ x y _ _ h => h.congr rfl rfl
  have hbuilt : BlockBuilt (b.func.setTerminator block term) x y := h.congr rfl rfl
  obtain ⟨hparams, hinsts, -⟩ := hbuilt
  exact ⟨hparams, hinsts, rfl⟩

/-- **One call** and its entry in the log. -/
theorem follows_step {b' : FunctionBuilder} (h : FunctionBuilder.Did b a b') (hfit : b'.func.InRange)
    (hl : b.func.Listed) (hf : Follows b d) : Follows b' (d.act a) := by
  cases h with
  | looked =>
    rw [Draft.act_perform (.inl rfl) rfl]
    exact hf
  | switched block =>
    rw [Draft.act_perform (.inl rfl) rfl]
    exact ⟨hf.error, rfl, hf.blocks, rfl, nofun⟩
  | ignored hw he =>
    rw [Draft.act_ignored hw (hf.error ▸ he)]
    exact hf
  | refused he hr =>
    rw [Draft.act_refused (hf.error ▸ he) (hf.refusal a ▸ hr)]
    exact ⟨rfl, hf.current, hf.blocks, hf.noteable, hf.last⟩
  | created params => exact hf.created hfit
  | marked block kind => exact hf.marked
  | noted text => exact hf.noted ((FunctionBuilder.did_grew (.noted text) hfit).inRange hfit) hl
  | emitted he hr hc hb hq => exact hf.emitted he hr hc hb hq hfit
  | closed he hr hc hb => exact hf.closed he hr hc

end

/-! ## Runs -/

/-- A builder with no blocks, to which the entry block is added. -/
def FunctionBuilder.empty (name : String) (sig : Signature) : FunctionBuilder :=
  ⟨⟨name, sig, Block.new 0, [], [], []⟩, some (Block.new 0), none, none⟩

theorem Function.entry_withBlock (f : Function) (params : List Ty) : (f.withBlock params).entry = f.entry :=
  Function.withBlock_keeps (g := Function.entry) (fun _ _ _ => rfl) f params

theorem FunctionBuilder.did_new (name : String) (sig : Signature) :
    Did (empty name sig) (.create sig.params) (new name sig) := by
  have hfunc : Function.new name sig = (empty name sig).func.withBlock sig.params := rfl
  have hentry : (Function.new name sig).entry = Block.new 0 := by
    rw [hfunc, Function.entry_withBlock]
    rfl
  have h : new name sig = { empty name sig with func := (empty name sig).func.withBlock sig.params } := by
    rw [new, hentry]
    rfl
  rw [h]
  exact .created sig.params

/-- **The builder follows its log** as long as the arenas fit their indices. -/
theorem follows_run {name : String} {sig : Signature} {calls : List BuilderCall} {b : FunctionBuilder}
    (hrun : (FunctionBuilder.new name sig).run calls = some b) (hfit : b.func.InRange) :
    b.func.Listed ∧ Follows b (draft sig calls) := by
  refine FunctionBuilder.run_invariant (F := Function.InRange)
    (P := fun pre b => b.func.Listed ∧ Follows b (draft sig pre))
    (fun h hfit => (FunctionBuilder.did_grew h hfit).inRange hfit) (fun h hfit hP => ?_) (fun hfit => ?_) hrun hfit
  · rw [draft_concat]
    exact ⟨FunctionBuilder.did_listed h hfit hP.1, follows_step h hfit hP.1 hP.2⟩
  · have hnew := FunctionBuilder.did_new name sig
    have hempty : Follows (.empty name sig) ⟨[], some (Block.new 0), false, none⟩ := ⟨rfl, rfl, .nil, rfl, nofun⟩
    have hlisted : (FunctionBuilder.empty name sig).func.Listed := .refl _
    refine ⟨FunctionBuilder.did_listed hnew hfit hlisted, ?_⟩
    simpa [draft, Draft.act, Draft.perform, Draft.start, Draft.refusal, Action.refusal, Action.writes]
      using follows_step hnew hfit hlisted hempty

end RustEvm.Ir
