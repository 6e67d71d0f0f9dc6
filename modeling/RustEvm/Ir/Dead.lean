import RustEvm.Ir.EffectSound
import RustEvm.Ir.Finished
import RustEvm.Ir.Simulation

/-!
# RustEvm.Ir.Dead — removing instructions

`Effects` states the rule it is for: an instruction may be removed only if its results are unused and its effects are
pure.  `Module.sweep` removes instructions from their blocks, as many as one likes at once; where they are pure and
nothing that stays reads their results (`Function.Dead`), the program comes to what it came to before
(`sweep_preserves`).  A removed instruction leaves its gas, so nothing may ask how much is left (`Function.NoGas`).
-/

namespace RustEvm.Ir

open Isa Codegen Evm Stepping

/-- What an operation can observe or disturb. -/
def Op.effects : Op → Effects
  | .alloca _ => .WRITES_MEMORY
  | .load => .READS_MEMORY
  | .store => .WRITES_MEMORY
  | .memCopy => Effects.READS_MEMORY.union .WRITES_MEMORY
  | .sload => .READS_STORAGE
  | .sstore => .WRITES_STORAGE
  | .tload => .READS_TRANSIENT
  | .tstore => .WRITES_TRANSIENT
  | .opcode spec => .ofOpcode spec
  | .call _ => .ALL
  | _ => .PURE

/-! ## Removable operations -/

theorem not_gas_of_pure : ∀ spec ∈ OPCODES, (Effects.ofOpcode spec).isRemovable = true → spec.byte ≠ 0x5a := by
  decide +kernel

theorem isRemovable_iff (e : Effects) : e.isRemovable = true ↔ e = .PURE := by
  cases e
  simp [Effects.isRemovable, Effects.isPure, Effects.PURE]

/-- A pure instruction leaves the state alone and has a result. -/
theorem exec_pure {keccak : List UInt8 → Word} {i : Instr} (hi : effectsOf i = .PURE) {args : List Word}
    (hargs : args.length = i.stackIn) (s : State) : ∃ words, i.exec keccak args s = some (s, words) := by
  have hexpand : s.expand 0 = s := Instr.expand_zero s
  cases i with
  | unary f =>
    obtain ⟨a, rfl⟩ := List.length_eq_one_iff.mp hargs
    exact ⟨[f a], congrArg (fun s' => some (s', [f a])) hexpand⟩
  | binary f =>
    obtain ⟨a, b, rfl⟩ := List.length_eq_two.mp hargs
    exact ⟨[f a b], congrArg (fun s' => some (s', [f a b])) hexpand⟩
  | ternary f =>
    obtain ⟨a, b, c, rfl⟩ := List.length_eq_three.mp hargs
    exact ⟨[f a b c], congrArg (fun s' => some (s', [f a b c])) hexpand⟩
  | _ => exact absurd hi (by simp only [effectsOf]; decide)

/-- **A removable operation** leaves the state alone: it has words, or the program means nothing. -/
theorem perform_removable {sur : Surroundings} {funcs : List Func} {inst : Inst} {op : Op} {ty : Ty}
    {args : List Operand} {s : State} (hop : op.effects.isRemovable = true)
    (hraw : ∀ spec, op = .opcode spec → RawAccepted spec) :
    op.perform sur funcs inst ty args s = .error .stuck ∨ ∃ words, op.perform sur funcs inst ty args s = .ok (s, words) := by
  fun_cases Op.perform sur funcs inst op ty args s
  case case1 => exact absurd ((isRemovable_iff _).mp hop) (show Effects.WRITES_MEMORY ≠ .PURE by decide +kernel)
  case case2 | case3 | case4 | case5 | case6 | case7 | case8 =>
    exact absurd ((isRemovable_iff _).mp hop) (by decide +kernel)
  case case9 spec =>
    have haccepted := hraw spec rfl
    obtain ⟨mnemonic, hm⟩ := haccepted.1
    have hpure : Effects.ofOpcode spec = .PURE := (isRemovable_iff _).mp hop
    obtain ⟨i, hi, heff, hin, -⟩ := instr_of_classified ⟨haccepted, by rw [hpure]; decide,
      not_gas_of_pure spec (byMnemonic_mem hm) hop⟩
    rw [inlineOpcode]
    by_cases hlen : (args.map Operand.word).length = spec.stackIn
    · obtain ⟨words, hexec⟩ : ∃ words, i.exec sur.keccak (args.map Operand.word) s = some (s, words) :=
        exec_pure (heff.trans hpure) (hlen.trans hin.symm) s
      refine .inr ⟨words, ?_⟩
      rw [if_pos hlen, hi]
      simp only [runInstr, hexec]
    · exact .inl (if_neg hlen)
  case case10 => exact .inr ⟨_, rfl⟩
  case case11 => exact .inl rfl

/-- The builder inlines accepted opcodes only. -/
theorem raw_of_run {name : String} {sig : Signature} {calls : List BuilderCall} {b : FunctionBuilder}
    (hrun : (FunctionBuilder.new name sig).run calls = some b) (hfit : b.func.InRange) :
    ∀ d ∈ b.func.insts, ∀ spec, d.op = .opcode spec → RawAccepted spec := by
  obtain ⟨hlisted, hfollows⟩ := follows_run hrun hfit
  intro d hd spec hop
  obtain ⟨e, ⟨q, hq, hopq, -⟩, -, -⟩ := hfollows.built hlisted hfit hd
  obtain ⟨mnemonic, hspec⟩ := InsCall.rawSpec_of_request hq (hopq.symm.trans hop)
  obtain ⟨hrow, hreserved⟩ := Option.filter_eq_some_iff.mp hspec
  exact ⟨⟨mnemonic, hrow⟩, by simpa using hreserved⟩

/-! ## Sweeping -/

/-- Remove instructions from the blocks; the arena stays. -/
def Function.sweep (f : Function) (dead : Inst → Bool) : Function :=
  { f with blocks := f.blocks.map fun data => { data with insts := data.insts.filter fun inst => !dead inst } }

/-- Remove instructions from every function, by its index. -/
def Module.sweep (m : Module) (dead : ℕ → Inst → Bool) : Module :=
  { m with funcs := m.funcs.mapIdx fun i slot => slot.map fun f => f.sweep (dead i) }

/-- The results of removed instructions. -/
def Function.Gone (f : Function) (dead : Inst → Bool) (v : Value) : Prop :=
  ∃ inst d, dead inst = true ∧ f.insts[inst.index]? = some d ∧ v ∈ d.results

/-- What is removed is pure, and nothing that stays reads its results. -/
structure Function.Dead (f : Function) (dead : Inst → Bool) : Prop where
  removable : ∀ (inst : Inst) d, dead inst = true → f.insts[inst.index]? = some d → d.op.effects.isRemovable = true
  raw : ∀ d ∈ f.insts, ∀ spec, d.op = .opcode spec → RawAccepted spec
  args : ∀ (inst : Inst) d, dead inst = false → f.insts[inst.index]? = some d → ∀ v ∈ d.args, ¬ f.Gone dead v
  terms : ∀ data ∈ f.blocks, ∀ term, data.term = some term → ∀ v ∈ term.args, ¬ f.Gone dead v

theorem Module.body_sweep (m : Module) (dead : ℕ → Inst → Bool) (func : Func) :
    (m.sweep dead).body func = (m.body func).map fun f => f.sweep (dead func.index) := by
  unfold body get sweep
  rw [List.getElem?_mapIdx]
  cases m.funcs[func.index]? with
  | none => rfl
  | some slot => cases slot <;> rfl

theorem Function.getElem?_sweep (f : Function) (dead : Inst → Bool) (k : ℕ) :
    (f.sweep dead).blocks[k]? =
      (f.blocks[k]?).map fun data => { data with insts := data.insts.filter fun inst => !dead inst } := by
  rw [sweep, List.getElem?_map]

/-! ## The simulation -/

section

variable {m : Module} {sur : Surroundings} {dead : ℕ → Inst → Bool}

/-- What is removed is not to do, and the values that are not gone are the same. -/
def swept (m : Module) (dead : ℕ → Inst → Bool) : Corr where
  todo func l l' := l' = l.filter fun inst => !dead func.index inst
  env func env env' := ∀ f, m.body func = some f → ∀ v, ¬ f.Gone (dead func.index) v → env' v = env v

theorem Function.Dead.bodies {func : Func} {f : Function} (hf : m.body func = some f) (hd : f.Dead (dead func.index)) :
    (swept m dead).Bodies func f (f.sweep (dead func.index)) where
  entry := rfl
  slots k := rel_refl (fun _ => ⟨rfl, rfl⟩) f.insts[k]?
  blocks k := by
    rw [Function.getElem?_sweep]
    cases hdata : f.blocks[k]? with
    | none => exact .none
    | some data =>
      refine .some ⟨rfl, rfl, fun env env' s henv => ?_⟩
      refine rel_bind (rel_refl (fun _ => rfl) data.term) fun term _ hterm _ heq => heq ▸ ?_
      exact Terminator.exit_same (fun v hv => henv f hf v (hd.terms data (List.mem_of_getElem? hdata) term hterm v hv)) s

theorem fits_sweep (hdead : ∀ func f, m.body func = some f → f.Dead (dead func.index)) :
    (swept m dead).Fits m (m.sweep dead) where
  bodies func := by
    rw [Module.body_sweep]
    cases hf : m.body func with
    | none => exact .none
    | some f => exact .some ((hdead func f hf).bodies hf)
  start _ _ _ _ _ := rfl
  params _ _ _ _ _ _ _ _ henv g hg _ hv := Env.write_congr (henv g hg) _ _ hv
  results _ _ _ _ _ _ _ _ _ _ henv g hg _ hv := Env.write_congr (henv g hg) _ _ hv

/-- An instruction that is removed: the swept program stays where it is. -/
theorem execute_dead {t t' : Thread} {f : Function} {inst : Inst} {todo : List Inst}
    (hf : m.body t.frame.func = some f) (hd : f.Dead (dead t.frame.func.index))
    (hdead : dead t.frame.func.index inst = true) (h : (swept m dead).Threads m t t') (htodo : t.frame.todo = inst :: todo) :
    t.execute m sur f inst todo = .inr .stuck ∨
      ∃ t₁, t.execute m sur f inst todo = .inl t₁ ∧ (swept m dead).Threads m t₁ t' ∧ t₁.frame.todo = todo := by
  cases hdata : f.insts[inst.index]? with
  | none => exact .inl (by rw [Thread.execute, hdata])
  | some d =>
    have hpure := hd.removable inst d hdead hdata
    cases hargs : f.operands t.frame.env d.args with
    | none => exact .inl (by rw [Thread.execute, hdata]; simp only [hargs])
    | some args =>
      have hop : ∀ callee, d.op ≠ .call callee := by
        intro callee hc
        rw [hc] at hpure
        exact absurd ((isRemovable_iff _).mp hpure) (show Effects.ALL ≠ .PURE by decide +kernel)
      rw [Thread.execute_perform hdata hargs hop]
      have hperform : d.op.perform sur t.funcs inst d.ty args t.state = .error .stuck ∨
          ∃ words, d.op.perform sur t.funcs inst d.ty args t.state = .ok (t.state, words) :=
        perform_removable hpure (hd.raw d (List.mem_of_getElem? hdata))
      rcases hperform with hstuck | ⟨words, hwords⟩
      · exact .inl (by rw [hstuck])
      · rw [hwords]
        dsimp only [Thread.define]
        by_cases hlen : d.results.length = words.length
        · rw [if_pos hlen]
          refine .inr ⟨_, rfl, ⟨⟨h.frame.func, h.frame.block, ?_, fun g hg v hv => ?_⟩, h.callers, h.state⟩, rfl⟩
          · have hfilter : t'.frame.todo = t.frame.todo.filter _ := h.frame.todo
            rwa [htodo, List.filter_cons_of_neg (by simp [hdead])] at hfilter
          · obtain rfl := Option.some.inj (hf.symm.trans hg)
            -- the results are gone
            have hnot : v ∉ d.results := fun hmem => hv ⟨inst, d, hdead, hdata, hmem⟩
            exact (h.frame.env f hf v hv).trans (Env.write_of_notMem hnot _).symm
        · rw [if_neg hlen]
          exact .inl rfl

/-- **The swept program leaves steps out.** -/
theorem skips_sweep (hdead : ∀ func f, m.body func = some f → f.Dead (dead func.index)) :
    Skips ((swept m dead).Threads m) (fun t => t.frame.todo.length) .stuck (Thread.step m sur)
      (Thread.step (m.sweep dead) sur) := by
  have hfits : (swept m dead).Fits m (m.sweep dead) := fits_sweep hdead
  intro t t' h
  have hfilter : t'.frame.todo = t.frame.todo.filter fun inst => !dead t.frame.func.index inst := h.frame.todo
  unfold Thread.step
  rw [h.frame.func, Module.body_sweep]
  cases hf : m.body t.frame.func with
  | none => exact .inl rfl
  | some f =>
    have hd := hdead _ f hf
    rw [hfilter]
    cases htodo : t.frame.todo with
    | nil => exact .inr (.inr (hfits.leave hf (hd.bodies hf) h))
    | cons inst todo =>
      by_cases hgone : dead t.frame.func.index inst = true
      · have hstep : t.execute m sur f inst todo = .inr .stuck ∨
            ∃ t₁, t.execute m sur f inst todo = .inl t₁ ∧ (swept m dead).Threads m t₁ t' ∧ t₁.frame.todo = todo :=
          execute_dead hf hd hgone h htodo
        rcases hstep with hstuck | ⟨t₁, hstep, hrel, hlen⟩
        · exact .inl hstuck
        · refine .inr (.inl ⟨t₁, hstep, hrel, ?_⟩)
          dsimp only
          rw [hlen, htodo, List.length_cons]
          exact Nat.lt_succ_self _
      · have hstays : dead t.frame.func.index inst = false := by simpa using hgone
        rw [List.filter_cons_of_pos (by simpa using hgone)]
        refine .inr (.inr (hfits.execute hf h rfl (fun d hdata => ?_) rfl fun d args s words _ _ _ g hg v hv =>
          Env.write_congr (h.frame.env g hg) _ _ hv))
        exact mapM_congr_env fun v hv => by
          rw [h.frame.env f hf v (hd.args inst d hstays hdata v hv)]

/-! ## Gas -/

/-- Surroundings that answer everything alike but how much gas is left. -/
structure Surroundings.SameButGas (sur sur' : Surroundings) : Prop where
  keccak : sur'.keccak = sur.keccak
  alloca : sur'.alloca = sur.alloca
  load : sur'.load = sur.load
  store : sur'.store = sur.store
  ext : ∀ b, b ≠ 0x5a → sur'.ext.run b = sur.ext.run b

/-- No instruction asks how much gas is left. -/
def Function.NoGas (f : Function) : Prop := ∀ d ∈ f.insts, ∀ spec, d.op = .opcode spec → spec.byte ≠ 0x5a

theorem perform_sameButGas {sur sur' : Surroundings} (h : sur.SameButGas sur') {op : Op}
    (hop : ∀ spec, op = .opcode spec → spec.byte ≠ 0x5a) (funcs : List Func) (inst : Inst) (ty : Ty)
    (args : List Operand) (s : State) :
    op.perform sur' funcs inst ty args s = op.perform sur funcs inst ty args s := by
  unfold Op.perform
  rw [h.keccak, h.alloca, h.load, h.store]
  split
  -- only an opcode asks the outside
  case h_9 spec => rw [inlineOpcode, inlineOpcode, h.keccak, h.ext spec.byte (hop spec rfl)]
  all_goals rfl

/-- A program that does not ask for it runs alike, however much gas is left. -/
theorem step_sameButGas {m : Module} {sur sur' : Surroundings} (h : sur.SameButGas sur')
    (hgas : ∀ func f, m.body func = some f → f.NoGas) : Thread.step m sur' = Thread.step m sur := by
  funext t
  unfold Thread.step
  cases hf : m.body t.frame.func with
  | none => rfl
  | some f =>
    cases htodo : t.frame.todo with
    | nil => rfl
    | cons inst todo =>
      show t.execute m sur' f inst todo = t.execute m sur f inst todo
      cases hd : f.insts[inst.index]? with
      | none => simp only [Thread.execute, hd]
      | some d =>
        cases hargs : f.operands t.frame.env d.args with
        | none => simp only [Thread.execute, hd, hargs]
        | some args =>
          by_cases hop : ∃ callee, d.op = .call callee
          · obtain ⟨callee, hop⟩ := hop
            rw [Thread.execute_call hd hargs hop, Thread.execute_call hd hargs hop]
          · have hcall : ∀ callee, d.op ≠ .call callee := not_exists.mp hop
            rw [Thread.execute_perform hd hargs hcall, Thread.execute_perform hd hargs hcall,
              perform_sameButGas h (hgas _ f hf d (List.mem_of_getElem? hd))]

/-! ## The result -/

/-- **Removing pure instructions whose results nothing reads keeps a program** that does not ask how much gas is left:
it ends as it ended before, whatever more is left then, and it comes to nothing new unless it meant nothing. -/
theorem sweep_preserves (hdead : ∀ func f, m.body func = some f → f.Dead (dead func.index))
    (hgas : ∀ func f, m.body func = some f → f.NoGas) {sur' : Surroundings} (hsur : sur.SameButGas sur') {func : Func}
    {words : List Word} {s : State} {t : Thread} (hstart : Thread.start m func words s = some t) :
    ∃ t', Thread.start (m.sweep dead) func words s = some t' ∧ ∀ o : Outcome,
      (o ≠ .stuck → Ends (Thread.step m sur) t o → Ends (Thread.step (m.sweep dead) sur') t' o) ∧
      (Ends (Thread.step (m.sweep dead) sur') t' o →
        Ends (Thread.step m sur) t .stuck ∨ Ends (Thread.step m sur) t o) := by
  rcases rel_cases ((fits_sweep hdead).start_related func words s) with ⟨hnone, -⟩ | ⟨t₁, t', ht₁, ht', hrel⟩
  · exact absurd (hstart.symm.trans hnone) (by simp)
  · obtain rfl := Option.some.inj (hstart.symm.trans ht₁)
    have hskips : Skips _ _ _ (Thread.step m sur') (Thread.step (m.sweep dead) sur') := skips_sweep hdead
    rw [← step_sameButGas hsur hgas]
    exact ⟨t', ht', fun o => ⟨hskips.forward hrel, hskips.backward hrel⟩⟩

end

/-- A sum that nothing reads, and a store. -/
def unreadCalls : List BuilderCall :=
  [.ins (.add .U256 (Value.new 0) (Value.new 0)), .ins (.sstore (Value.new 0) (Value.new 0)), .stop]

def unreadBuilder : FunctionBuilder :=
  ((FunctionBuilder.new "f" ⟨[.U256], []⟩).run unreadCalls).get (by decide +kernel)

def unreadModule : Module :=
  ⟨.cancun, ["f"], [⟨[.U256], []⟩], [some unreadBuilder.func], some (Func.new 0)⟩

def firstInst (_ : ℕ) (inst : Inst) : Bool := inst == Inst.new 0

theorem unread_dead : unreadBuilder.func.Dead (firstInst 0) := by
  have hfirst : unreadBuilder.func.insts[(Inst.new 0).index]? =
      some ⟨.add, .U256, .none, [Value.new 0, Value.new 0], [Value.new 1], none⟩ := by decide +kernel
  have hgone : ∀ v, unreadBuilder.func.Gone (firstInst 0) v → v = Value.new 1 := by
    rintro v ⟨inst, d, hdead, hd, hv⟩
    obtain rfl : inst = Inst.new 0 := by simpa [firstInst] using hdead
    obtain rfl := Option.some.inj (hfirst.symm.trans hd)
    exact List.mem_singleton.mp hv
  have hargs : ∀ d ∈ unreadBuilder.func.insts, Value.new 1 ∉ d.args := by decide +kernel
  have hterms : ∀ data ∈ unreadBuilder.func.blocks, ∀ term ∈ data.term, Value.new 1 ∉ term.args := by decide +kernel
  refine ⟨fun inst d hdead hd => ?_, ?_, fun inst d _ hd v hv hgv => ?_, fun data hdata term hterm v hv hgv => ?_⟩
  · obtain rfl : inst = Inst.new 0 := by simpa [firstInst] using hdead
    obtain rfl := Option.some.inj (hfirst.symm.trans hd)
    decide +kernel
  · exact raw_of_run (b := unreadBuilder) (Option.some_get _).symm
      ⟨⟨by decide +kernel, by decide +kernel⟩, by decide +kernel⟩
  · exact hargs d (List.mem_of_getElem? hd) (hgone v hgv ▸ hv)
  · exact hterms data hdata term hterm (hgone v hgv ▸ hv)

theorem unread_bodies {func : Func} {f : Function} (h : unreadModule.body func = some f) :
    f.Dead (firstInst func.index) := by
  obtain ⟨slot, hslot, hf⟩ := Option.bind_eq_some_iff.mp h
  obtain rfl : slot = some unreadBuilder.func := List.mem_singleton.mp (List.mem_of_getElem? hslot)
  obtain rfl := Option.some.inj hf
  exact unread_dead

theorem unread_noGas {func : Func} {f : Function} (h : unreadModule.body func = some f) : f.NoGas := by
  obtain ⟨slot, hslot, hf⟩ := Option.bind_eq_some_iff.mp h
  obtain rfl : slot = some unreadBuilder.func := List.mem_singleton.mp (List.mem_of_getElem? hslot)
  obtain rfl := Option.some.inj hf
  have hops : unreadBuilder.func.insts.map InstData.op = [.add, .sstore] := by decide +kernel
  intro d hd spec hop
  have hmem : Op.opcode spec ∈ unreadBuilder.func.insts.map InstData.op := hop ▸ List.mem_map_of_mem hd
  rw [hops] at hmem
  simp at hmem

/-- Surroundings in which there is always some gas left. -/
def fueled : Surroundings :=
  { (default : Surroundings) with
    ext :=
      { run := fun b _ s => if b = 0x5a then some (s, 1) else none
        code_run := fun b _ s s' w h => by
          split_ifs at h
          rw [← (Prod.mk.inj (Option.some.inj h)).1] } }

theorem fueled_sameButGas : fueled.SameButGas default where
  keccak := rfl
  alloca := rfl
  load := rfl
  store := rfl
  ext b hb := by
    funext args s
    exact (if_neg hb).symm

/-- The sum can go, and less gas may be left then. -/
theorem sweep_preserves_unread :
    ∃ t t', Thread.start unreadModule (Func.new 0) [1] default = some t ∧
      Thread.start (unreadModule.sweep firstInst) (Func.new 0) [1] default = some t' ∧ ∀ o : Outcome,
        (o ≠ .stuck → Ends (Thread.step unreadModule fueled) t o →
          Ends (Thread.step (unreadModule.sweep firstInst) default) t' o) ∧
        (Ends (Thread.step (unreadModule.sweep firstInst) default) t' o →
          Ends (Thread.step unreadModule fueled) t .stuck ∨ Ends (Thread.step unreadModule fueled) t o) := by
  obtain ⟨t, ht⟩ : ∃ t, Thread.start unreadModule (Func.new 0) [1] default = some t := ⟨_, rfl⟩
  obtain ⟨t', ht', h⟩ := sweep_preserves (fun func f => unread_bodies) (fun func f => unread_noGas) fueled_sameButGas ht
  exact ⟨t, t', ht, ht', h⟩

end RustEvm.Ir
