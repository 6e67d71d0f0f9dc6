import RustEvm.Lib.Stepping
import RustEvm.Ir.Machine

/-!
# RustEvm.Ir.Simulation — programs that correspond function by function

A pass rewrites the functions of a program, and keeps their signatures, their block parameters and the results of their
instructions.  A `Corr` says how the frames of the two programs correspond, in what is left to do and in the values;
`Corr.Fits` is what the functions have to have in common for that to be kept.  From it come the steps that both
programs take alike: the end of a block, calls and returns, and an instruction that both have.
-/

namespace RustEvm.Ir

open Isa Codegen Evm Stepping

/-- How the frames of corresponding functions correspond. -/
structure Corr where
  todo : Func → List Inst → List Inst → Prop
  env : Func → Env → Env → Prop

/-- Exits to the same block with the same words, back with the same words, or alike out of the frame. -/
inductive Exit.Same (env env' : Env) : Exit → Exit → Prop
  | goto {target target' : BlockCall} (block : target'.block = target.block)
    (args : target'.args.mapM env' = target.args.mapM env) : Same env env' (.goto target) (.goto target')
  | back (values : List Word) : Same env env' (.back values) (.back values)
  | halt (how : Halt) : Same env env' (.halt how) (.halt how)

/-- A terminator whose values are the same takes the same exit. -/
theorem Terminator.exit_same {env env' : Env} {term : Terminator} (h : ∀ v ∈ term.args, env' v = env v) (s : State) :
    Option.Rel (Exit.Same env env') (term.exit env s) (term.exit env' s) := by
  rw [Terminator.exit_congr s fun v hv => h v (List.mem_append_left _ hv)]
  cases hexit : term.exit env s with
  | none => exact .none
  | some e =>
    cases e with
    | halt how => exact .some (.halt how)
    | back values => exact .some (.back values)
    | goto target =>
      refine .some (.goto rfl (mapM_congr_env fun v hv => h v (List.mem_append_right _ ?_)))
      exact List.mem_flatMap.mpr ⟨target, Terminator.exit_goto hexit, hv⟩

namespace Corr

variable (C : Corr) (m m' : Module)

structure Frames (fr fr' : Frame) : Prop where
  func : fr'.func = fr.func
  block : fr'.block = fr.block
  todo : C.todo fr.func fr.todo fr'.todo
  env : C.env fr.func fr.env fr'.env

/-- A frame waits at a call. -/
def Waits (fr : Frame) (inst : Inst) : Prop :=
  ∃ f d callee, m.body fr.func = some f ∧ f.insts[inst.index]? = some d ∧ d.op = .call callee

structure Threads (t t' : Thread) : Prop where
  frame : C.Frames t.frame t'.frame
  callers : List.Forall₂ (fun c c' => C.Frames c.1 c'.1 ∧ c'.2 = c.2 ∧ Waits m c.1 c.2) t.callers t'.callers
  state : t'.state = t.state

/-- Corresponding blocks. -/
structure Blocks (func : Func) (data data' : BlockData) : Prop where
  params : data'.params = data.params
  todo : C.todo func data.insts data'.insts
  exit : ∀ env env' s, C.env func env env' →
    Option.Rel (Exit.Same env env') (data.term.bind (Terminator.exit env s)) (data'.term.bind (Terminator.exit env' s))

/-- Corresponding functions. -/
structure Bodies (func : Func) (f f' : Function) : Prop where
  entry : f'.entry = f.entry
  blocks : ∀ k : ℕ, Option.Rel (C.Blocks func) f.blocks[k]? f'.blocks[k]?
  slots : ∀ k : ℕ, Option.Rel (fun d d' => d'.results = d.results ∧ d'.repair = d.repair) f.insts[k]? f'.insts[k]?

/-- The programs correspond, and so do the values after a block is come to and after a call. -/
structure Fits : Prop where
  bodies : ∀ func, Option.Rel (C.Bodies func) (m.body func) (m'.body func)
  start : ∀ func, C.env func (fun _ => none) (fun _ => none)
  params : ∀ func f, m.body func = some f → ∀ data ∈ f.blocks, ∀ env env' words, C.env func env env' →
    C.env func (env.write data.params words) (env'.write data.params words)
  results : ∀ func f, m.body func = some f → ∀ d ∈ f.insts, ∀ callee, d.op = .call callee → ∀ env env' words,
    C.env func env env' → C.env func (env.write d.results words) (env'.write d.results words)

end Corr

/-- Take an exit. -/
def Thread.follow (m : Module) (t : Thread) (f : Function) : Exit → Thread ⊕ Outcome
  | .goto target => orStuck (t.goto f target)
  | .back values => t.back m values
  | .halt how => .inr (.halted how t.state)

theorem Thread.leave_eq (m : Module) (t : Thread) (f : Function) :
    t.leave m f = ((f.blocks[t.frame.block.index]?).bind fun data =>
      data.term.bind (Terminator.exit t.frame.env t.state)).elim (.inr .stuck) (t.follow m f) := by
  unfold leave
  cases f.blocks[t.frame.block.index]? with
  | none => rfl
  | some data =>
    simp only [Option.bind_some]
    cases data.term with
    | none => rfl
    | some term =>
      simp only [Option.bind_some]
      cases term.exit t.frame.env t.state with
      | none => rfl
      | some e => cases e <;> rfl

theorem liftRel_orStuck {R : Thread → Thread → Prop} {x y : Option Thread} (h : Option.Rel R x y) :
    Sum.LiftRel R Eq (Thread.orStuck x) (Thread.orStuck y) := by
  cases h with
  | some h => exact .inl h
  | none => exact .inr rfl

namespace Corr

section

variable {C : Corr} {m m' : Module} {sur : Surroundings} {t t' : Thread} {f f' : Function}

theorem Threads.funcs (h : C.Threads m t t') : t'.funcs = t.funcs := by
  have key : ∀ {cs cs' : List (Frame × Inst)},
      List.Forall₂ (fun c c' => C.Frames c.1 c'.1 ∧ c'.2 = c.2 ∧ Waits m c.1 c.2) cs cs' →
        cs'.map (fun c => c.1.func) = cs.map fun c => c.1.func := by
    intro cs cs' hrel
    induction hrel with
    | nil => rfl
    | cons hc _ ih => rw [List.map_cons, List.map_cons, ih, hc.1.func]
  rw [Thread.funcs, Thread.funcs, h.frame.func, key h.callers]

/-- Coming to a block. -/
theorem Fits.arrive (h : C.Fits m m') {func : Func} (hf : m.body func = some f) (hbody : C.Bodies func f f')
    {env env' : Env} (henv : C.env func env env') (block : Block) (words : List Word) :
    Option.Rel C.Frames (f.arrive func env block words) (f'.arrive func env' block words) := by
  refine rel_bind (hbody.blocks block.index) fun data data' hdata _ hblocks => ?_
  rw [hblocks.params]
  by_cases hlen : data.params.length = words.length
  · rw [if_pos hlen, if_pos hlen]
    exact .some ⟨rfl, rfl, hblocks.todo, h.params func f hf data (List.mem_of_getElem? hdata) env env' words henv⟩
  · rw [if_neg hlen, if_neg hlen]
    exact .none

theorem Fits.start_related (h : C.Fits m m') (func : Func) (words : List Word) (s : State) :
    Option.Rel (C.Threads m) (Thread.start m func words s) (Thread.start m' func words s) := by
  refine rel_bind (h.bodies func) fun f f' hf _ hbody => ?_
  rw [hbody.entry]
  exact rel_map (h.arrive hf hbody (h.start func) f.entry words) fun fr fr' hfr => ⟨hfr, .nil, rfl⟩

/-- Defining the results of an instruction. -/
theorem Threads.define (h : C.Threads m t t') {d d' : InstData} (hresults : d'.results = d.results)
    (hrepair : d'.repair = d.repair) {todo todo' : List Inst} (htodo : C.todo t.frame.func todo todo') (s : State)
    {words : List Word} (henv : C.env t.frame.func (t.frame.env.write d.results (repaired d.repair words))
      (t'.frame.env.write d.results (repaired d.repair words))) :
    Option.Rel (C.Threads m) (t.define d todo s words) (t'.define d' todo' s words) := by
  unfold Thread.define
  rw [hresults, hrepair]
  by_cases hlen : d.results.length = words.length
  · rw [if_pos hlen, if_pos hlen]
    exact .some ⟨⟨h.frame.func, h.frame.block, htodo, henv⟩, h.callers, rfl⟩
  · rw [if_neg hlen, if_neg hlen]
    exact .none

/-- An internal call. -/
theorem Fits.enter (h : C.Fits m m') (ht : C.Threads m t t') {inst : Inst} (hwaits : Waits m t.frame inst)
    {todo todo' : List Inst} (htodo : C.todo t.frame.func todo todo') (callee : Func) (words : List Word) :
    Option.Rel (C.Threads m) (t.enter m inst todo callee words) (t'.enter m' inst todo' callee words) := by
  refine rel_bind (h.bodies callee) fun g g' hg _ hbody => ?_
  rw [hbody.entry]
  refine rel_map (h.arrive hg hbody (h.start callee) g.entry words) fun fr fr' hfr => ⟨hfr, ?_, ht.state⟩
  exact .cons ⟨⟨ht.frame.func, ht.frame.block, htodo, ht.frame.env⟩, rfl, hwaits⟩ ht.callers

/-- Going back to a caller. -/
theorem Fits.back (h : C.Fits m m') (ht : C.Threads m t t') (values : List Word) :
    Sum.LiftRel (C.Threads m) Eq (t.back m values) (t'.back m' values) := by
  unfold Thread.back
  have hcallers := ht.callers
  revert hcallers
  generalize t.callers = cs
  generalize t'.callers = cs'
  intro hcallers
  cases hcallers with
  | nil => exact .inr (by rw [ht.state])
  | @cons c c' cs cs' hc hrest =>
    obtain ⟨fr, inst⟩ := c
    obtain ⟨fr', inst'⟩ := c'
    obtain ⟨hfr, rfl, f, d, callee, hf, hd, hop⟩ := hc
    refine liftRel_orStuck ?_
    dsimp only at hfr hf hd ⊢
    have hbodies := h.bodies fr.func
    rw [hfr.func]
    refine rel_bind hbodies fun g g' hg _ hbody => ?_
    obtain rfl := Option.some.inj (hf.symm.trans hg)
    refine rel_bind (hbody.slots inst'.index) fun e e' he _ hslot => ?_
    obtain rfl := Option.some.inj (hd.symm.trans he)
    have hthreads : C.Threads m ⟨fr, cs, t.state⟩ ⟨fr', cs', t'.state⟩ := ⟨hfr, hrest, ht.state⟩
    rw [ht.state] at hthreads ⊢
    exact hthreads.define hslot.1 hslot.2 hfr.todo t.state
      (h.results fr.func f hf d (List.mem_of_getElem? hd) callee hop _ _ _ hfr.env)

/-- The end of a block. -/
theorem Fits.leave (h : C.Fits m m') (hf : m.body t.frame.func = some f) (hbody : C.Bodies t.frame.func f f')
    (ht : C.Threads m t t') : Sum.LiftRel (C.Threads m) Eq (t.leave m f) (t'.leave m' f') := by
  have hexit : Option.Rel (Exit.Same t.frame.env t'.frame.env)
      ((f.blocks[t.frame.block.index]?).bind fun data => data.term.bind (Terminator.exit t.frame.env t.state))
      ((f'.blocks[t'.frame.block.index]?).bind fun data => data.term.bind (Terminator.exit t'.frame.env t'.state)) := by
    rw [ht.frame.block, ht.state]
    exact rel_bind (hbody.blocks _) fun data data' _ _ hblocks => hblocks.exit _ _ t.state ht.frame.env
  rw [Thread.leave_eq, Thread.leave_eq]
  generalize Option.bind f.blocks[t.frame.block.index]? _ = x at hexit ⊢
  generalize Option.bind f'.blocks[t'.frame.block.index]? _ = y at hexit ⊢
  cases hexit with
  | none => exact .inr rfl
  | some hsame =>
    cases hsame with
    | halt how => exact .inr (by rw [ht.state])
    | back values => exact h.back ht values
    | @goto target target' hblock hargs =>
      refine liftRel_orStuck ?_
      unfold Thread.goto
      rw [hargs, hblock, ht.frame.func]
      cases target.args.mapM t.frame.env with
      | none => exact .none
      | some words =>
        exact rel_map (h.arrive hf hbody ht.frame.env target.block words) fun fr fr' hfr => ⟨hfr, ht.callers, ht.state⟩

/-- An instruction that both programs have, with the same operands. -/
theorem Fits.execute (h : C.Fits m m') (hf : m.body t.frame.func = some f) (ht : C.Threads m t t') {inst : Inst}
    (hinst : f'.insts[inst.index]? = f.insts[inst.index]?)
    (hargs : ∀ d, f.insts[inst.index]? = some d →
      f'.operands t'.frame.env d.args = f.operands t.frame.env d.args)
    {todo todo' : List Inst} (htodo : C.todo t.frame.func todo todo')
    (henv : ∀ d args s words, f.insts[inst.index]? = some d → f.operands t.frame.env d.args = some args →
      d.op.perform sur t.funcs inst d.ty args t.state = .ok (s, words) →
        C.env t.frame.func (t.frame.env.write d.results (repaired d.repair words))
          (t'.frame.env.write d.results (repaired d.repair words))) :
    Sum.LiftRel (C.Threads m) Eq (t.execute m sur f inst todo) (t'.execute m' sur f' inst todo') := by
  cases hd : f.insts[inst.index]? with
  | none =>
    rw [Thread.execute, Thread.execute, hinst, hd]
    exact .inr rfl
  | some d =>
    have hd' : f'.insts[inst.index]? = some d := hinst.trans hd
    have hsame := hargs d hd
    cases hoperands : f.operands t.frame.env d.args with
    | none =>
      rw [Thread.execute, Thread.execute, hd, hd']
      simp only [hsame, hoperands]
      exact .inr rfl
    | some args =>
      by_cases hcall : ∃ callee, d.op = .call callee
      · obtain ⟨callee, hop⟩ := hcall
        rw [Thread.execute_call hd hoperands hop, Thread.execute_call hd' (hsame.trans hoperands) hop]
        exact liftRel_orStuck (h.enter ht ⟨f, d, callee, hf, hd, hop⟩ htodo callee _)
      · have hop : ∀ callee, d.op ≠ .call callee := fun callee hc => hcall ⟨callee, hc⟩
        rw [Thread.execute_perform hd hoperands hop, Thread.execute_perform hd' (hsame.trans hoperands) hop,
          ht.funcs, ht.state]
        cases hperform : d.op.perform sur t.funcs inst d.ty args t.state with
        | error o => exact .inr rfl
        | ok r => exact liftRel_orStuck (ht.define rfl rfl htodo r.1 (henv d args r.1 r.2 hd hoperands hperform))

end

end Corr

end RustEvm.Ir
