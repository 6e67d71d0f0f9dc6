import RustEvm.Ir.Finished
import RustEvm.Ir.Machine
import RustEvm.Ir.Repaired

/-!
# RustEvm.Ir.Typing — values keep their types while a program runs

A narrow value is a whole word, and the repair of an instruction is what makes it one of its type.  In a program of
functions that the builder finished (`Function.BuiltTyped`), whose edges, returns and calls agree with what they go to
(`Function.Coherent`), every value of every frame is a word of the type recorded for it, in every state of every run,
and what the program returns has the types of its signature (`runs_typed`).
-/

namespace RustEvm.Ir

open Isa Codegen Evm Stepping

/-! ## What an operation leaves -/

theorem holds_ofBool (b : Bool) : Ty.BOOL.Holds (Word.ofBool b) := by
  cases b <;> decide +kernel

theorem Op.compute_produces {op : Op} {ty : Ty} {args : List Operand} {r : Word} (h : op.compute ty args = some r) :
    op.Produces ty args r := by
  revert h
  fun_cases Op.compute op ty args <;> intro h <;> cases h <;>
    first
    | exact rfl
    | exact ⟨_, rfl, rfl⟩
    | exact ⟨_, _, rfl, rfl⟩
    | exact ⟨_, _, _, rfl, rfl⟩

theorem Op.flags_hold {op : Op} {ty : Ty} {args : List Operand} : ∀ w ∈ op.flags ty args, Ty.BOOL.Holds w := by
  intro w hw
  unfold Op.flags at hw
  split at hw
  · exact List.mem_singleton.mp hw ▸ holds_ofBool _
  · exact List.mem_singleton.mp hw ▸ holds_ofBool _
  · exact List.mem_singleton.mp hw ▸ holds_ofBool _
  · exact absurd hw List.not_mem_nil

theorem stackOut_le (i : Instr) : i.stackOut ≤ 1 := by
  cases i <;> simp [Instr.stackOut]

theorem length_runInstr {keccak : List UInt8 → Word} {i : Instr} {args words : List Word} {s s' : State}
    (h : runInstr keccak i args s = .ok (s', words)) : words.length = i.stackOut := by
  unfold runInstr at h
  cases hexec : i.exec keccak args s with
  | none => simp [hexec] at h
  | some r =>
    rw [hexec] at h
    obtain rfl := Except.ok.inj h
    obtain ⟨p, hp, heq⟩ := Option.map_eq_some_iff.mp hexec
    rw [← (Prod.mk.inj heq).2]
    exact (Instr.core_arity hp).2

/-- An instruction leaves at most one word. -/
theorem runInstr_eq_ok {keccak : List UInt8 → Word} {i : Instr} {args rest : List Word} {s s' : State} {w : Word}
    (h : runInstr keccak i args s = .ok (s', w :: rest)) : i.stackOut = 1 ∧ rest = [] := by
  have hlen := length_runInstr h
  have hle := stackOut_le i
  rw [List.length_cons] at hlen
  exact ⟨by omega, List.eq_nil_of_length_eq_zero (by omega)⟩

theorem inlineOpcode_eq_ok {sur : Surroundings} {spec : OpSpec} {args rest : List Word} {s s' : State} {w : Word}
    (h : inlineOpcode sur spec args s = .ok (s', w :: rest)) : rest = [] := by
  unfold inlineOpcode at h
  split at h
  · split at h
    · exact (runInstr_eq_ok h).2
    · split at h
      · exact (List.cons.inj (Prod.mk.inj (Except.ok.inj h)).2).2.symm
      · cases h
  · cases h

/-- **What an operation can leave**: a first word that it produces, and flags. -/
theorem Op.perform_produces {sur : Surroundings} {funcs : List Func} {inst : Inst} {op : Op} {ty : Ty}
    {args : List Operand} {s s' : State} {w : Word} {rest : List Word} (halloca : ∀ bytes, op = .alloca bytes → ty = .PTR)
    (h : op.perform sur funcs inst ty args s = .ok (s', w :: rest)) :
    op.Produces ty args w ∧ ∀ x ∈ rest, Ty.BOOL.Holds x := by
  revert h
  fun_cases Op.perform sur funcs inst op ty args s <;> intro h
  case case1 bytes =>
    obtain ⟨rfl, rfl⟩ := List.cons.inj (Prod.mk.inj (Except.ok.inj h)).2
    exact ⟨halloca bytes rfl ▸ sur.alloca_holds funcs inst, List.forall_mem_nil _⟩
  case case2 ptr =>
    obtain ⟨-, rfl⟩ := List.cons.inj (Prod.mk.inj (Except.ok.inj h)).2
    exact ⟨trivial, List.forall_mem_nil _⟩
  case case3 ptr value => exact absurd (Prod.mk.inj (Except.ok.inj h)).2 (List.cons_ne_nil _ _).symm
  case case5 key | case7 key =>
    obtain ⟨-, rfl⟩ := runInstr_eq_ok h
    exact ⟨trivial, List.forall_mem_nil _⟩
  -- what stores leaves nothing
  case case4 | case6 | case8 => exact absurd (runInstr_eq_ok h).1 (by decide)
  case case9 spec =>
    obtain rfl := inlineOpcode_eq_ok h
    exact ⟨trivial, List.forall_mem_nil _⟩
  case case10 w' hw' =>
    obtain ⟨rfl, rfl⟩ := List.cons.inj (Prod.mk.inj (Except.ok.inj h)).2
    exact ⟨Op.compute_produces hw', Op.flags_hold⟩
  case case11 => cases h

/-! ## Functions -/

/-- The types of a function are right: operands have one, results have the one of the instruction, its repair is sound,
and the entry takes what the signature says. -/
structure Function.Typed (f : Function) : Prop where
  insts : ∀ d ∈ f.insts, d.Good f
  flags : ∀ d ∈ f.insts, (∀ callee, d.op ≠ .call callee) → ∀ v ∈ d.results.tail, f.valueType v = some .BOOL
  alloca : ∀ d ∈ f.insts, ∀ bytes, d.op = .alloca bytes → d.ty = .PTR
  entry : (f.blockParams f.entry).map f.valueType = f.sig.params.map some

/-- What is left to a verifier: edges, returns and internal calls agree with the parameters, the signature and the
declaration that they go by. -/
structure Function.Coherent (m : Module) (f : Function) : Prop where
  edges : ∀ data ∈ f.blocks, ∀ term, data.term = some term → ∀ call ∈ term.blockCalls,
    call.args.map f.valueType = (f.blockParams call.block).map f.valueType
  returns : ∀ data ∈ f.blocks, ∀ values, data.term = some (.ret values) →
    values.map f.valueType = f.sig.returns.map some
  calls : ∀ d ∈ f.insts, ∀ callee, d.op = .call callee → ∃ sig, m.signature callee = some sig ∧
    d.args.map f.valueType = sig.params.map some ∧ d.results.map f.valueType = sig.returns.map some

/-- The builder finished the function, of typed calls and without a raw opcode at a narrow type. -/
def Function.BuiltTyped (f : Function) : Prop :=
  ∃ name sig calls b, (FunctionBuilder.new name sig).run calls = some b ∧ b.finish = .ok f ∧ f.InRange ∧
    TypedRun (.new name sig) calls ∧
    ∀ mnemonic ty args, .ins (.opcode mnemonic ty args) ∈ calls → 256 ≤ ty.bits.toNat

/-- Only checked arithmetic and calls have second results, and the former's are flags. -/
theorem InsCall.request_tail {call : InsCall} {f : Function} {q : Request} (hq : call.request f = some q)
    (hop : ∀ callee, q.op ≠ .call callee) : ∀ ty ∈ call.resultTypes.tail, ty = .BOOL := by
  cases call with
  | call callee sig args =>
    obtain rfl := Option.some.inj hq
    exact absurd rfl (hop callee)
  | addOverflow ty x y | subOverflow ty x y | mulOverflow ty x y => exact fun ty' h => List.mem_singleton.mp h
  | _ => exact nofun

theorem InsCall.request_alloca {call : InsCall} {f : Function} {q : Request} {bytes : UInt32}
    (hq : call.request f = some q) (hop : q.op = .alloca bytes) : q.ty = .PTR := by
  cases call with
  | opcode mnemonic ty args | opcodeVoid mnemonic args | convert dst value | store ptr value | sstore key value
    | tstore key value =>
    obtain ⟨_, -, rfl⟩ := Option.map_eq_some_iff.mp hq
    exact absurd hop (by simp)
  | alloca _ =>
    obtain rfl := Option.some.inj hq
    rfl
  | _ =>
    obtain rfl := Option.some.inj hq
    exact absurd hop (by simp [Request.unaryOp, Request.checked])

/-- **What the builder finished is typed.** -/
theorem Function.BuiltTyped.typed {f : Function} (h : f.BuiltTyped) : f.Typed := by
  obtain ⟨name, sig, calls, b, hrun, hfinish, hfit, htyped, hwide⟩ := h
  obtain ⟨he, rfl⟩ := FunctionBuilder.finish_eq_ok hfinish
  obtain ⟨hlisted, hfollows⟩ := follows_run hrun hfit
  obtain ⟨hgrew, hsig, hentry⟩ := FunctionBuilder.run_grew hrun hfit
  have htakes : b.func.EntryTakes sig := entryTakes_of_grew hgrew (hentry.trans (entry_withBlock _ _)) hfit
  refine ⟨fun d hd => ?_, fun d hd hop v hv => ?_, fun d hd bytes hop => ?_, ?_⟩
  · have hstart : ∀ d ∈ (FunctionBuilder.new name sig).func.cores, d.Good (FunctionBuilder.new name sig).func := by
      have hnil : (FunctionBuilder.new name sig).func.insts = [] :=
        insts_withBlock ⟨name, sig, Block.new 0, [], [], []⟩ sig.params
      simp [cores, hnil]
    have hgood := good_run hrun he hfit.toFits hstart htyped hwide d.core (List.mem_map_of_mem hd)
    exact ⟨hgood.operands, hgood.recorded, hgood.repairs⟩
  · obtain ⟨e, ⟨q, hq, hopq, -⟩, hresults, -⟩ := hfollows.built hlisted hfit hd
    have htail : d.results.tail.map b.func.valueType = e.call.resultTypes.tail.map some := by
      rw [List.map_tail, hresults, List.map_tail]
    obtain ⟨ty, hty, heq⟩ := List.mem_map.mp (htail ▸ List.mem_map_of_mem hv)
    rw [← heq, InsCall.request_tail hq (fun callee hc => hop callee (hopq.trans hc)) ty hty]
  · obtain ⟨e, ⟨q, hq, hopq, htyq, -⟩, -, -⟩ := hfollows.built hlisted hfit hd
    rw [htyq, InsCall.request_alloca hq (hopq.symm.trans hop)]
  · have hnew : (FunctionBuilder.new name sig).func.sig = sig :=
      withBlock_keeps (g := Function.sig) (fun _ _ _ => rfl) ⟨name, sig, Block.new 0, [], [], []⟩ sig.params
    rw [htakes.types, hsig, hnew]

/-! ## Environments -/

/-- Every word of an environment is of the type recorded. -/
def Env.Typed (env : Env) (f : Function) : Prop := ∀ v w ty, env v = some w → f.valueType v = some ty → ty.Holds w

/-- The words are of the types recorded for the values. -/
def Function.Fit (f : Function) (vs : List Value) (ws : List Word) : Prop :=
  List.Forall₂ (fun v w => ∀ ty, f.valueType v = some ty → ty.Holds w) vs ws

section

variable {f g : Function} {env : Env} {vs : List Value} {ws : List Word}

theorem Env.Typed.write (henv : env.Typed f) (h : f.Fit vs ws) : (env.write vs ws).Typed f := by
  induction h generalizing env with
  | nil => exact henv
  | @cons v w vs ws hvw _ ih =>
    refine ih fun u x ty hx hty => ?_
    by_cases huv : u = v
    · subst huv
      rw [Function.update_self] at hx
      exact Option.some.inj hx ▸ hvw ty hty
    · rw [Function.update_of_ne huv] at hx
      exact henv u x ty hx hty

/-- Words of values are of their types. -/
theorem Env.Typed.read (henv : env.Typed f) (h : vs.mapM env = some ws) : f.Fit vs ws := by
  induction vs generalizing ws with
  | nil =>
    obtain rfl := Option.some.inj h
    exact .nil
  | cons v vs ih =>
    rw [List.mapM_cons] at h
    obtain ⟨w, hw, h⟩ := Option.bind_eq_some_iff.mp h
    obtain ⟨ws', hws, heq⟩ := Option.bind_eq_some_iff.mp h
    obtain rfl := Option.some.inj heq
    exact .cons (fun ty => henv v w ty hw) (ih hws)

/-- Words pass from values to values of the same types. -/
theorem Function.Fit.pass {us : List Value} (h : f.Fit vs ws) (htys : us.map g.valueType = vs.map f.valueType) :
    g.Fit us ws := by
  induction h generalizing us with
  | nil =>
    obtain rfl := List.map_eq_nil_iff.mp htys
    exact .nil
  | @cons v w vs ws hvw _ ih =>
    cases us with
    | nil => exact absurd htys (by simp)
    | cons u us =>
      obtain ⟨hu, hus⟩ := List.cons.inj htys
      exact .cons (fun ty hty => hvw ty (hu ▸ hty)) (ih hus)

theorem Function.fit_iff {tys : List Ty} (htys : vs.map f.valueType = tys.map some) :
    f.Fit vs ws ↔ List.Forall₂ Ty.Holds tys ws := by
  induction vs generalizing tys ws with
  | nil =>
    obtain rfl := List.map_eq_nil_iff.mp htys.symm
    cases ws <;> simp [Fit]
  | cons v vs ih =>
    cases tys with
    | nil => exact absurd htys (by simp)
    | cons ty tys =>
      obtain ⟨hv, hvs⟩ := List.cons.inj htys
      cases ws with
      | nil => simp [Fit]
      | cons w ws =>
        have hhead : (∀ ty', f.valueType v = some ty' → ty'.Holds w) ↔ ty.Holds w := by simp [hv]
        rw [Fit, List.forall₂_cons, List.forall₂_cons, hhead]
        exact and_congr_right fun _ => ih hvs

/-- The operands are well-formed words of the recorded types. -/
theorem Env.Typed.operands {args : List Operand} (henv : env.Typed f) (h : f.operands env vs = some args) :
    vs.map f.valueType = args.map (fun a => some a.ty) ∧ (∀ a ∈ args, a.WellFormed) ∧
      f.Fit vs (args.map Operand.word) := by
  induction vs generalizing args with
  | nil =>
    obtain rfl := Option.some.inj h
    exact ⟨rfl, nofun, .nil⟩
  | cons v vs ih =>
    rw [Function.operands, List.mapM_cons] at h
    obtain ⟨a, ha, h⟩ := Option.bind_eq_some_iff.mp h
    obtain ⟨args', hargs, heq⟩ := Option.bind_eq_some_iff.mp h
    obtain rfl := Option.some.inj heq
    obtain ⟨ty, hty, ha⟩ := Option.bind_eq_some_iff.mp ha
    obtain ⟨w, hw, rfl⟩ := Option.map_eq_some_iff.mp ha
    obtain ⟨htys, hwf, hfit⟩ := ih hargs
    refine ⟨?_, ?_, .cons (fun ty' hty' => henv v w ty' hw hty') hfit⟩
    · rw [List.map_cons, List.map_cons, hty, htys]
    · exact List.forall_mem_cons.mpr ⟨henv v w ty hw hty, hwf⟩

/-- **The repaired words of an instruction** are of the types of its results. -/
theorem Function.Typed.fit_repaired {d : InstData} {args : List Operand} {words : List Word} {sur : Surroundings}
    {funcs : List Func} {inst : Inst} {s s' : State} (hf : f.Typed) (hd : d ∈ f.insts)
    (hcall : ∀ callee, d.op ≠ .call callee) (htys : d.args.map f.valueType = args.map fun a => some a.ty)
    (hwf : ∀ a ∈ args, a.WellFormed) (h : d.op.perform sur funcs inst d.ty args s = .ok (s', words))
    (hlen : d.results.length = words.length) : f.Fit d.results (repaired d.repair words) := by
  have hflags := hf.flags d hd hcall
  have hgood := hf.insts d hd
  have hrecorded := hgood.recorded
  generalize d.results = results at hlen hflags hrecorded
  cases words with
  | nil =>
    obtain rfl := List.eq_nil_of_length_eq_zero hlen
    exact .nil
  | cons w rest =>
    obtain ⟨v, vs, rfl⟩ := List.exists_cons_of_length_eq_add_one hlen
    obtain ⟨hproduces, hrest⟩ := Op.perform_produces (hf.alloca d hd) h
    refine .cons (fun ty hty => ?_) ?_
    · obtain rfl := Option.some.inj ((hrecorded v rfl).symm.trans hty)
      exact hgood.repairs args w htys hwf hproduces
    · refine List.forall₂_iff_get.mpr ⟨Nat.succ.inj hlen, fun i hi hi' ty hty => ?_⟩
      obtain rfl := Option.some.inj ((hflags _ (List.get_mem vs ⟨i, hi⟩)).symm.trans hty)
      exact hrest _ (List.get_mem rest ⟨i, hi'⟩)

/-- What a call returns is of the types of its results. -/
theorem Function.Typed.fit_returned {d : InstData} {callee : Func} {words : List Word} (hf : f.Typed)
    (hd : d ∈ f.insts) (hop : d.op = .call callee) (h : f.Fit d.results words) :
    f.Fit d.results (repaired d.repair words) := by
  have hgood := hf.insts d hd
  have hrecorded := hgood.recorded
  generalize d.results = results at h hrecorded
  cases h with
  | nil => exact .nil
  | @cons v w vs ws hvw hrest =>
    refine .cons (fun ty hty => ?_) hrest
    have heq := Option.some.inj ((hrecorded v rfl).symm.trans hty)
    obtain ⟨tys, htys⟩ := hgood.operands
    -- the repair goes by the types of the operands alone
    have h := hgood.repairs (tys.map fun t => ⟨t, 0⟩) w (by rw [htys, List.map_map]; rfl) ?_ ?_
    · exact heq ▸ h
    · intro a ha
      obtain ⟨t, -, rfl⟩ := List.mem_map.mp ha
      exact holds_zero t
    · rw [hop, heq]
      exact hvw ty hty

end

/-! ## Threads -/

section

variable {m : Module} {sur : Surroundings} {root : Func} {t t' : Thread}

def Frame.Typed (m : Module) (fr : Frame) : Prop := ∀ f, m.body fr.func = some f → fr.env.Typed f

/-- The frames that wait do so for what is above them, the outermost one being of the first function. -/
def Waits (m : Module) (root : Func) : Func → List (Frame × Inst) → Prop
  | func, [] => func = root
  | func, (fr, inst) :: callers =>
    (∃ f d, m.body fr.func = some f ∧ f.insts[inst.index]? = some d ∧ d.op = .call func) ∧
      Waits m root fr.func callers

/-- Every frame of a thread is typed. -/
structure Thread.Typed (m : Module) (root : Func) (t : Thread) : Prop where
  frame : t.frame.Typed m
  callers : ∀ c ∈ t.callers, c.1.Typed m
  waits : Waits m root t.frame.func t.callers

theorem arrive_typed {f : Function} {func : Func} {env : Env} {block : Block} {words : List Word} {fr : Frame}
    (hf : m.body func = some f) (henv : env.Typed f) (hfit : f.Fit (f.blockParams block) words)
    (h : f.arrive func env block words = some fr) : fr.func = func ∧ fr.Typed m := by
  obtain ⟨data, hdata, h⟩ := Option.bind_eq_some_iff.mp h
  rw [Function.blockParams, hdata] at hfit
  split at h
  · obtain rfl := Option.some.inj h
    refine ⟨rfl, fun g hg => ?_⟩
    obtain rfl := Option.some.inj (hf.symm.trans hg)
    exact henv.write hfit
  · cases h

/-- The results of an instruction are defined. -/
theorem define_typed {f : Function} {d : InstData} {todo : List Inst} {s : State} {words : List Word}
    (ht : t.Typed m root) (hf : m.body t.frame.func = some f)
    (hfit : d.results.length = words.length → f.Fit d.results (repaired d.repair words))
    (h : t.define d todo s words = some t') : t'.Typed m root := by
  unfold Thread.define at h
  split at h
  · rename_i hlen
    obtain rfl := Option.some.inj h
    refine ⟨fun g hg => ?_, ht.callers, ht.waits⟩
    obtain rfl := Option.some.inj (hf.symm.trans hg)
    exact (ht.frame f hf).write (hfit hlen)
  · cases h

/-- A program that went through a verifier. -/
structure Module.Checked (m : Module) : Prop where
  consistent : m.Consistent
  typed : ∀ func f, m.body func = some f → f.Typed
  coherent : ∀ func f, m.body func = some f → f.Coherent m

theorem Module.Checked.signature {func : Func} {f : Function} (hm : m.Checked) (hf : m.body func = some f) :
    m.signature func = some f.sig := by
  obtain ⟨slot, hslot, heq⟩ := Option.bind_eq_some_iff.mp hf
  exact hm.consistent.typed _ f (hslot.trans (congrArg some heq))

/-- An internal call passes words of the types of the parameters. -/
theorem enter_typed {f : Function} {inst : Inst} {d : InstData} {todo : List Inst} {callee : Func} {words : List Word}
    (hm : m.Checked) (ht : t.Typed m root) (hf : m.body t.frame.func = some f) (hd : f.insts[inst.index]? = some d)
    (hop : d.op = .call callee) (hfit : f.Fit d.args words) (h : t.enter m inst todo callee words = some t') :
    t'.Typed m root := by
  obtain ⟨g, hg, h⟩ := Option.bind_eq_some_iff.mp h
  obtain ⟨fr, hfr, rfl⟩ := Option.map_eq_some_iff.mp h
  obtain ⟨sig, hsig, hargs, -⟩ := (hm.coherent _ f hf).calls d (List.mem_of_getElem? hd) callee hop
  obtain rfl := Option.some.inj ((hm.signature hg).symm.trans hsig)
  have hentry := hfit.pass ((hm.typed _ g hg).entry.trans hargs.symm)
  obtain ⟨hfunc, hframe⟩ := arrive_typed hg (fun v w ty hw => absurd hw (by simp)) hentry hfr
  refine ⟨hframe, List.forall_mem_cons.mpr ⟨ht.frame, ht.callers⟩, ?_⟩
  rw [hfunc]
  exact ⟨⟨f, d, hf, hd, hop⟩, ht.waits⟩

/-- An edge passes words of the types of the parameters. -/
theorem goto_typed {f : Function} {target : BlockCall} (ht : t.Typed m root) (hf : m.body t.frame.func = some f)
    (htarget : target.args.map f.valueType = (f.blockParams target.block).map f.valueType)
    (h : t.goto f target = some t') : t'.Typed m root := by
  obtain ⟨words, hwords, h⟩ := Option.bind_eq_some_iff.mp h
  obtain ⟨fr, hfr, rfl⟩ := Option.map_eq_some_iff.mp h
  have henv := ht.frame f hf
  obtain ⟨hfunc, hframe⟩ := arrive_typed hf henv ((henv.read hwords).pass htarget.symm) hfr
  refine ⟨hframe, ht.callers, ?_⟩
  rw [hfunc]
  exact ht.waits

/-- What is owed after a step: a typed thread, or values of the types that the first function returns. -/
def Kept (m : Module) (root : Func) : Thread ⊕ Outcome → Prop
  | .inl t => t.Typed m root
  | .inr (.finished values _) => ∃ f, m.body root = some f ∧ List.Forall₂ Ty.Holds f.sig.returns values
  | .inr _ => True

theorem kept_orStuck {x : Option Thread} (h : ∀ t, x = some t → t.Typed m root) : Kept m root (Thread.orStuck x) := by
  cases x with
  | none => trivial
  | some t => exact h t rfl

/-- A return passes words of the types of the results. -/
theorem back_kept {f : Function} {values : List Word} (hm : m.Checked) (ht : t.Typed m root)
    (hf : m.body t.frame.func = some f) (hvalues : List.Forall₂ Ty.Holds f.sig.returns values) :
    Kept m root (t.back m values) := by
  unfold Thread.back
  have hcallers := ht.callers
  have hwaits := ht.waits
  split
  · rename_i hnil
    rw [hnil] at hwaits
    exact ⟨f, hwaits ▸ hf, hvalues⟩
  · rename_i fr inst callers hcons
    rw [hcons] at hcallers hwaits
    obtain ⟨⟨g, d, hg, hd, hop⟩, hrest⟩ := hwaits
    refine kept_orStuck fun t' h => ?_
    rw [hg, Option.bind_some, hd, Option.bind_some] at h
    have hmem := List.mem_of_getElem? hd
    obtain ⟨sig, hsig, -, hresults⟩ := (hm.coherent _ g hg).calls d hmem _ hop
    obtain rfl := Option.some.inj ((hm.signature hf).symm.trans hsig)
    have hfit : g.Fit d.results values := (g.fit_iff hresults).mpr hvalues
    refine define_typed (t := ⟨fr, callers, t.state⟩) ⟨hcallers _ List.mem_cons_self, ?_, hrest⟩ hg
      (fun _ => (hm.typed _ g hg).fit_returned hmem hop hfit) h
    exact fun c hc => hcallers c (List.mem_cons_of_mem _ hc)

theorem leave_kept {f : Function} (hm : m.Checked) (ht : t.Typed m root) (hf : m.body t.frame.func = some f) :
    Kept m root (t.leave m f) := by
  unfold Thread.leave
  cases hterm : (f.blocks[t.frame.block.index]?).bind BlockData.term with
  | none => trivial
  | some term =>
    obtain ⟨data, hdata, hterm⟩ := Option.bind_eq_some_iff.mp hterm
    have hblock := List.mem_of_getElem? hdata
    dsimp only
    cases hexit : term.exit t.frame.env t.state with
    | none => trivial
    | some e =>
      cases e with
      | goto target =>
        refine kept_orStuck fun t' h => goto_typed ht hf ?_ h
        exact (hm.coherent _ f hf).edges data hblock term hterm target (Terminator.exit_goto hexit)
      | back words =>
        obtain ⟨values, rfl, hwords⟩ := Terminator.exit_back hexit
        have hreturns := (hm.coherent _ f hf).returns data hblock values hterm
        exact back_kept hm ht hf ((f.fit_iff hreturns).mp ((ht.frame f hf).read hwords))
      | halt how => trivial

theorem execute_kept {f : Function} {inst : Inst} {todo : List Inst} (hm : m.Checked) (ht : t.Typed m root)
    (hf : m.body t.frame.func = some f) : Kept m root (t.execute m sur f inst todo) := by
  cases hd : f.insts[inst.index]? with
  | none =>
    rw [Thread.execute, hd]
    trivial
  | some d =>
    cases hargs : f.operands t.frame.env d.args with
    | none =>
      simp only [Thread.execute, hd, hargs]
      trivial
    | some args =>
      obtain ⟨htys, hwf, hfit⟩ := (ht.frame f hf).operands hargs
      by_cases hcall : ∃ callee, d.op = .call callee
      · obtain ⟨callee, hop⟩ := hcall
        rw [Thread.execute_call hd hargs hop]
        exact kept_orStuck fun t' h => enter_typed hm ht hf hd hop hfit h
      · have hop : ∀ callee, d.op ≠ .call callee := fun callee hc => hcall ⟨callee, hc⟩
        rw [Thread.execute_perform hd hargs hop]
        have hmem := List.mem_of_getElem? hd
        cases hperform : d.op.perform sur t.funcs inst d.ty args t.state with
        | ok r =>
          refine kept_orStuck fun t' h => define_typed ht hf (fun hlen => ?_) h
          exact (hm.typed _ f hf).fit_repaired hmem hop htys hwf hperform hlen
        | error o =>
          rcases Op.perform_eq_error hperform with rfl | rfl <;> trivial

/-- **One step keeps the types.** -/
theorem step_kept (hm : m.Checked) (ht : t.Typed m root) : Kept m root (Thread.step m sur t) := by
  unfold Thread.step
  cases hf : m.body t.frame.func with
  | none => trivial
  | some f =>
    cases t.frame.todo with
    | nil => exact leave_kept hm ht hf
    | cons inst todo => exact execute_kept hm ht hf

theorem start_typed {func : Func} {f : Function} {words : List Word} {s : State} (hm : m.Checked)
    (hf : m.body func = some f) (hwords : List.Forall₂ Ty.Holds f.sig.params words)
    (h : Thread.start m func words s = some t) : t.Typed m func := by
  rw [Thread.start, hf, Option.bind_some] at h
  obtain ⟨fr, hfr, rfl⟩ := Option.map_eq_some_iff.mp h
  have hentry := (f.fit_iff (hm.typed _ f hf).entry).mpr hwords
  obtain ⟨hfunc, hframe⟩ := arrive_typed hf (fun v w ty hw => absurd hw (by simp)) hentry hfr
  exact ⟨hframe, nofun, hfunc⟩

/-- **Values keep their types.**  In every state of every run, every defined value of every frame, of the callers too, is
a word of the type recorded for it; and what the program returns has the types of its signature. -/
theorem runs_typed {func : Func} {f : Function} {words : List Word} {s : State} (hm : m.Consistent)
    (hbuilt : ∀ func f, m.body func = some f → f.BuiltTyped ∧ f.Coherent m) (hf : m.body func = some f)
    (hwords : List.Forall₂ Ty.Holds f.sig.params words) (hstart : Thread.start m func words s = some t) (n : ℕ) :
    (∀ t', runFor (Thread.step m sur) n t = .inl t' → ∀ fr ∈ t'.frame :: t'.callers.map Prod.fst,
      ∀ g, m.body fr.func = some g → ∀ v w ty, fr.env v = some w → g.valueType v = some ty → ty.Holds w) ∧
    ∀ values s', runFor (Thread.step m sur) n t = .inr (.finished values s') →
      List.Forall₂ Ty.Holds f.sig.returns values := by
  have hchecked : m.Checked :=
    ⟨hm, fun func g hg => (hbuilt func g hg).1.typed, fun func g hg => (hbuilt func g hg).2⟩
  have hkept : Kept m func (runFor (Thread.step m sur) n t) :=
    runFor_invariant (fun _ ht => step_kept hchecked ht) (start_typed hchecked hf hwords hstart) n
  constructor
  · intro t' ht' fr hfr g hg
    rw [ht'] at hkept
    rcases List.mem_cons.mp hfr with rfl | hcaller
    · exact hkept.frame g hg
    · obtain ⟨c, hc, rfl⟩ := List.mem_map.mp hcaller
      exact hkept.callers c hc g hg
  · intro values s' hend
    rw [hend] at hkept
    obtain ⟨g, hg, hvalues⟩ := hkept
    rwa [Option.some.inj (hf.symm.trans hg)]

end

/-- A byte doubled by a call. -/
def doubleCalls : List BuilderCall := [.ins (.add .U8 (Value.new 0) (Value.new 0)), .ret [Value.new 1]]

def callerOfDouble : List BuilderCall :=
  [.ins (.call (Func.new 0) ⟨[.U8], [.U8]⟩ [Value.new 0]), .ret [Value.new 1]]

def doubleBuilder : FunctionBuilder :=
  ((FunctionBuilder.new "double" ⟨[.U8], [.U8]⟩).run doubleCalls).get (by decide +kernel)

def callerBuilder : FunctionBuilder :=
  ((FunctionBuilder.new "main" ⟨[.U8], [.U8]⟩).run callerOfDouble).get (by decide +kernel)

def doubleModule : Module :=
  { fork := .cancun, names := ["double", "main"], sigs := [⟨[.U8], [.U8]⟩, ⟨[.U8], [.U8]⟩]
    funcs := [some doubleBuilder.func, some callerBuilder.func], entry := some (Func.new 1) }

theorem typedRun_pair {b : FunctionBuilder} {call : InsCall} {values : List Value} (h : call.Typed b.func) :
    TypedRun b [.ins call, .ret values] := by
  intro pre call' post b₁ hsplit hrun
  cases pre with
  | nil =>
    obtain rfl := BuilderCall.ins.inj (List.cons.inj hsplit).1
    obtain rfl := Option.some.inj hrun
    exact h
  | cons _ pre =>
    have htail := (List.cons.inj hsplit).2
    cases pre with
    | nil => exact absurd (List.cons.inj htail).1 (by simp)
    | cons _ pre => exact absurd (List.cons.inj htail).2 (by simp)

theorem double_builtTyped : doubleBuilder.func.BuiltTyped := by
  refine ⟨"double", ⟨[.U8], [.U8]⟩, doubleCalls, doubleBuilder, (Option.some_get _).symm, rfl,
    ⟨⟨by decide +kernel, by decide +kernel⟩, by decide +kernel⟩, typedRun_pair fun q hq => ?_, by simp [doubleCalls]⟩
  obtain rfl := Option.some.inj hq
  exact ⟨[.U8, .U8], by decide +kernel, rfl, rfl⟩

theorem caller_builtTyped : callerBuilder.func.BuiltTyped := by
  refine ⟨"main", ⟨[.U8], [.U8]⟩, callerOfDouble, callerBuilder, (Option.some_get _).symm, rfl,
    ⟨⟨by decide +kernel, by decide +kernel⟩, by decide +kernel⟩, typedRun_pair fun q hq => ?_, by simp [callerOfDouble]⟩
  obtain rfl := Option.some.inj hq
  exact ⟨[.U8], by decide +kernel, trivial⟩

theorem coherent_of_ret {m : Module} {f : Function} {block : BlockData} {values : List Value} {d : InstData}
    (hblocks : f.blocks = [block]) (hterm : block.term = some (.ret values)) (hinsts : f.insts = [d])
    (hreturns : values.map f.valueType = f.sig.returns.map some)
    (hcall : ∀ callee, d.op = .call callee → ∃ sig, m.signature callee = some sig ∧
      d.args.map f.valueType = sig.params.map some ∧ d.results.map f.valueType = sig.returns.map some) :
    f.Coherent m := by
  have hblock : ∀ data ∈ f.blocks, data.term = some (.ret values) := by
    rw [hblocks]
    exact fun data hdata => List.mem_singleton.mp hdata ▸ hterm
  refine ⟨fun data hdata term ht call hc => ?_, fun data hdata vs ht => ?_, ?_⟩
  · obtain rfl := Option.some.inj ((hblock data hdata).symm.trans ht)
    exact absurd hc List.not_mem_nil
  · obtain rfl := Terminator.ret.inj (Option.some.inj ((hblock data hdata).symm.trans ht))
    exact hreturns
  · rw [hinsts]
    exact fun d' hd' => List.mem_singleton.mp hd' ▸ hcall

theorem doubleModule_checked {func : Func} {f : Function} (h : doubleModule.body func = some f) :
    f.BuiltTyped ∧ f.Coherent doubleModule := by
  obtain ⟨slot, hslot, hf⟩ := Option.bind_eq_some_iff.mp h
  have hmem : slot ∈ [some doubleBuilder.func, some callerBuilder.func] := List.mem_of_getElem? hslot
  rcases List.mem_pair.mp hmem with rfl | rfl <;> obtain rfl := Option.some.inj hf
  · refine ⟨double_builtTyped, coherent_of_ret
      (show doubleBuilder.func.blocks = [⟨[Value.new 0], [Inst.new 0], some (.ret [Value.new 1]), .normal⟩] by
        decide +kernel) rfl
      (show doubleBuilder.func.insts = [⟨.add, .U8, .mask 8, [Value.new 0, Value.new 0], [Value.new 1], none⟩] by
        decide +kernel) (by decide +kernel) nofun⟩
  · refine ⟨caller_builtTyped, coherent_of_ret
      (show callerBuilder.func.blocks = [⟨[Value.new 0], [Inst.new 0], some (.ret [Value.new 1]), .normal⟩] by
        decide +kernel) rfl
      (show callerBuilder.func.insts =
          [⟨.call (Func.new 0), .U8, .none, [Value.new 0], [Value.new 1], none⟩] by decide +kernel)
      (by decide +kernel) fun callee hc => ?_⟩
    obtain rfl := Op.call.inj hc
    exact ⟨⟨[.U8], [.U8]⟩, by decide +kernel, by decide +kernel, by decide +kernel⟩

theorem doubleModule_consistent : doubleModule.Consistent := by
  refine ⟨rfl, rfl, fun i body h => ?_⟩
  match i with
  | 0 =>
    obtain rfl := Option.some.inj (Option.some.inj h)
    decide +kernel
  | 1 =>
    obtain rfl := Option.some.inj (Option.some.inj h)
    decide +kernel
  | n + 2 => exact absurd h (by simp [doubleModule])

theorem runs_typed_double :
    ∃ t, Thread.start doubleModule (Func.new 1) [200] default = some t ∧
      runFor (Thread.step doubleModule default) 4 t = .inr (.finished [144] default) ∧
      List.Forall₂ Ty.Holds callerBuilder.func.sig.returns [144] := by
  obtain ⟨t, ht, hrun⟩ : ∃ t, Thread.start doubleModule (Func.new 1) [200] default = some t ∧
      runFor (Thread.step doubleModule default) 4 t = .inr (.finished [144] default) := ⟨_, rfl, rfl⟩
  have hwords : List.Forall₂ Ty.Holds callerBuilder.func.sig.params [200] := .cons (by decide +kernel) .nil
  exact ⟨t, ht, hrun,
    (runs_typed doubleModule_consistent (fun _ _ => doubleModule_checked) rfl hwords ht 4).2 _ _ hrun⟩

end RustEvm.Ir
