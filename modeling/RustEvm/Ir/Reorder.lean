import RustEvm.Lib.Traces
import RustEvm.Ir.Dead

/-!
# RustEvm.Ir.Reorder — reordering instructions

`Effects` exists so that passes know which operations may be reordered past which.  Two operations may, if their
effects are apart (`Within.comm`), and two instructions, if neither reads what the other defines as well
(`act_comm`).  A program whose blocks are reordered like that, by any number of swaps, ends as it ended before
(`reorder_preserves`).  What the effects do not tell is left where it is: calls and `GAS`, and of the raw opcodes
`MSIZE`, which tells how much memory has been read, and `RETURNDATACOPY`, which can halt the frame.
-/

namespace RustEvm.Ir

open Isa Codegen Evm BigEndian Footprints Stepping Traces

/-! ## Operations -/

/-- An operation goes by and stores to what its effects say, and memory may grow at its end. -/
def Within (e : Effects) (run : State → Option (State × List Word)) : Prop :=
  ∃ (core : State → Option (State × List Word)) (reads writes : Set Part) (grow : ℕ),
    (∀ s, run s = (core s).map fun p => (p.1.expand grow, p.2)) ∧ Footprint Part.view core reads writes ∧
    (∀ s n, core (s.expand n) = (core s).map fun p => (p.1.expand n, p.2)) ∧
    (∀ p ∈ reads, e.reads (.ofPart p) = true ∨ p = .context) ∧ ∀ p ∈ writes, e.writes (.ofPart p) = true

section

variable {e e' : Effects} {f g : State → Option (State × List Word)}

/-- Apart effects, apart parts. -/
theorem apart_parts (he : ∀ c, e.writes c = true → e'.reads c = false ∧ e'.writes c = false)
    {writes reads' writes' : Set Part} (hw : ∀ p ∈ writes, e.writes (.ofPart p) = true)
    (hr' : ∀ p ∈ reads', e'.reads (.ofPart p) = true ∨ p = .context)
    (hw' : ∀ p ∈ writes', e'.writes (.ofPart p) = true) : ∀ p ∈ writes, p ∉ reads' ∪ writes' := by
  intro p hp hmem
  obtain ⟨hreads, hwrites⟩ := he _ (hw p hp)
  rcases hmem with hmem | hmem
  · rcases hr' p hmem with hread | rfl
    · exact absurd (hread.symm.trans hreads) (by simp)
    · exact absurd (hw _ hp) (by simp [Component.ofPart, Effects.writes])
  · exact absurd ((hw' p hmem).symm.trans hwrites) (by simp)

/-- **Operations with apart effects commute.** -/
theorem Within.comm (hf : Within e f) (hg : Within e' g) (he : e.Apart e') (s : State) :
    both g f s = (both f g s).map fun p => (p.1, p.2.2, p.2.1) := by
  obtain ⟨core, reads, writes, grow, hrun, hfoot, hgrow, hr, hw⟩ := hf
  obtain ⟨core', reads', writes', grow', hrun', hfoot', hgrow', hr', hw'⟩ := hg
  have hboth : ∀ {k l : State → Option (State × List Word)} {c d : State → Option (State × List Word)} {m n : ℕ},
      (∀ s, k s = (c s).map fun p => (p.1.expand m, p.2)) → (∀ s, l s = (d s).map fun p => (p.1.expand n, p.2)) →
      (∀ s n, d (s.expand n) = (d s).map fun p => (p.1.expand n, p.2)) →
        both k l s = (both c d s).map fun p => (p.1.expand (max m n), p.2) := by
    intro k l c d m n hk hl hd
    unfold both
    rw [hk]
    cases c s with
    | none => rfl
    | some p =>
      simp only [Option.map_some, Option.bind_some, hl, hd, Option.map_map]
      congr 1
      funext q
      simp
  have hcore := hfoot.commute hfoot' (apart_parts (fun c => (he c).1) hw hr' hw')
    (apart_parts (fun c => (he c).2) hw' hr hw) Part.view_ext s
  rw [hboth hrun' hrun hgrow, hboth hrun hrun' hgrow', hcore, Option.map_map, Option.map_map, Nat.max_comm]
  rfl

end

/-- What goes by its operands alone. -/
theorem within_pure (e : Effects) (words : List Word) : Within e fun s => some (s, words) := by
  refine ⟨fun s => some (s, words), ∅, ∅, 0, fun s => ?_, ⟨?_, ?_⟩, fun s n => rfl, fun p hp => hp.elim,
    fun p hp => hp.elim⟩
  · rw [Option.map_some, Instr.expand_zero]
  · intro s s' r h p _
    obtain ⟨rfl, -⟩ := Prod.mk.inj (Option.some.inj h)
    rfl
  · intro s t s' r _ h
    obtain ⟨rfl, rfl⟩ := Prod.mk.inj (Option.some.inj h)
    exact ⟨t, rfl, fun p hp => hp.elim⟩

theorem within_load (n : ℕ) (val : (ℕ → UInt8) → Word) :
    Within .READS_MEMORY fun s => some (s.expand n, [val s.memory]) := by
  refine ⟨fun s => some (s, [val s.memory]), {.bytes}, ∅, n, fun s => rfl, ⟨?_, ?_⟩, fun s k => rfl, ?_,
    fun p hp => hp.elim⟩
  · intro s s' r h p _
    obtain ⟨rfl, -⟩ := Prod.mk.inj (Option.some.inj h)
    rfl
  · intro s t s' r hst h
    obtain ⟨rfl, rfl⟩ := Prod.mk.inj (Option.some.inj h)
    have hbytes : s.memory = t.memory := hst .bytes (.inl rfl)
    exact ⟨t, by rw [hbytes], fun p hp => hp.elim⟩
  · rintro p rfl
    exact .inl (by decide +kernel)

theorem within_store (n : ℕ) (put : (ℕ → UInt8) → ℕ → UInt8) :
    Within .WRITES_MEMORY fun s => some ({ s.expand n with memory := put s.memory }, []) := by
  refine ⟨fun s => some ({ s with memory := put s.memory }, []), ∅, {.bytes}, n, fun s => rfl, ⟨?_, ?_⟩,
    fun s k => rfl, fun p hp => hp.elim, ?_⟩
  · intro s s' r h p hp
    obtain ⟨rfl, -⟩ := Prod.mk.inj (Option.some.inj h)
    cases p with
    | bytes => exact absurd rfl hp
    | size | storage | transient | context | logs => rfl
  · intro s t s' r hst h
    obtain ⟨rfl, rfl⟩ := Prod.mk.inj (Option.some.inj h)
    have hbytes : s.memory = t.memory := hst .bytes (.inr rfl)
    refine ⟨_, rfl, ?_⟩
    rintro p rfl
    exact congrArg put hbytes.symm
  · rintro p rfl
    decide +kernel

/-- What an instruction of the machine does. -/
theorem within_exec (keccak : List UInt8 → Word) {i : Instr} (hi : i ≠ .msize) (args : List Word) :
    Within (effectsOf i) (i.exec keccak args) := by
  refine ⟨i.core keccak args, _, _, i.touched args, fun s => rfl, Instr.core_footprint keccak i args,
    fun s n => Instr.core_expand hi s n, fun p hp => ?_, fun p hp => writes_effectsOf hp⟩
  exact (reads_effectsOf hp).imp id And.right

/-- The back end reads and writes narrow values in memory, and nowhere else. -/
structure Surroundings.Local (sur : Surroundings) : Prop where
  load : ∀ ty ptr, ∃ (n : ℕ) (val : (ℕ → UInt8) → Word), ∀ s, sur.load ty ptr s = (s.expand n, val s.memory)
  store : ∀ ty ptr value, ∃ (n : ℕ) (put : (ℕ → UInt8) → ℕ → UInt8),
    ∀ s, sur.store ty ptr value s = { s.expand n with memory := put s.memory }

/-- What the effects tell all about: nothing outside, and of the raw opcodes not `MSIZE` and `RETURNDATACOPY`. -/
structure Op.Settled (op : Op) : Prop where
  internal : op.effects.contains .EXTERNAL = false
  raw : ∀ spec, op = .opcode spec →
    Classified spec ∧ spec.mnemonic ≠ "MSIZE" ∧ instrOf spec.byte ≠ some .returnDataCopy

section

variable {sur : Surroundings} {funcs : List Func} {inst : Inst} {op : Op} {ty : Ty} {args : List Operand}

/-- An operation keeps to its effects, or the program means nothing. -/
def Op.Keeps (sur : Surroundings) (funcs : List Func) (inst : Inst) (op : Op) (ty : Ty) (args : List Operand) : Prop :=
  (∀ s, op.perform sur funcs inst ty args s = .error .stuck) ∨
    ∃ run, Within op.effects run ∧ ∀ s, ∃ r, run s = some r ∧ op.perform sur funcs inst ty args s = .ok r

theorem keeps_of_compute (h : ∀ s, op.perform sur funcs inst ty args s =
    match op.compute ty args with
    | some w => .ok (s, w :: op.flags ty args)
    | none => .error .stuck) : op.Keeps sur funcs inst ty args := by
  cases hw : op.compute ty args with
  | none => exact .inl fun s => by rw [h, hw]
  | some w => exact .inr ⟨_, within_pure _ _, fun s => ⟨_, rfl, by rw [h, hw]⟩⟩

theorem keeps_of_instr (i : Instr) (words : List Word) (hi : i ≠ .msize) (hne : i ≠ .returnDataCopy)
    (heff : effectsOf i = op.effects) (hlen : words.length = i.stackIn)
    (h : ∀ s, op.perform sur funcs inst ty args s = runInstr sur.keccak i words s) : op.Keeps sur funcs inst ty args := by
  refine .inr ⟨i.exec sur.keccak words, heff ▸ within_exec sur.keccak hi words, fun s => ?_⟩
  have hcore : (i.core sur.keccak words s).isSome = true := Instr.core_isSome hne hlen s
  obtain ⟨r, hr⟩ := Option.isSome_iff_exists.mp hcore
  have hexec : i.exec sur.keccak words s = some (r.1.expand (i.touched words), r.2) := by
    rw [Instr.exec, hr, Option.map_some]
  exact ⟨_, hexec, by rw [h, runInstr, hexec]⟩

/-- **A settled operation keeps to its effects.** -/
theorem keeps_of_settled (hsur : sur.Local) (hop : op.Settled) : op.Keeps sur funcs inst ty args := by
  cases op with
  | alloca n =>
    rcases args with _ | ⟨a, l⟩
    · exact .inr ⟨_, within_pure _ _, fun s => ⟨_, rfl, rfl⟩⟩
    · exact .inl fun s => rfl
  | load =>
    rcases args with _ | ⟨ptr, _ | ⟨b, l⟩⟩
    · exact .inl fun s => rfl
    · obtain ⟨n, val, hload⟩ := hsur.load ty ptr.word
      refine .inr ⟨_, within_load n val, fun s => ⟨_, rfl, ?_⟩⟩
      rw [Op.perform, hload]
    · exact .inl fun s => rfl
  | store =>
    rcases args with _ | ⟨ptr, _ | ⟨value, _ | ⟨b, l⟩⟩⟩
    · exact .inl fun s => rfl
    · exact .inl fun s => rfl
    · obtain ⟨n, put, hstore⟩ := hsur.store ty ptr.word value.word
      refine .inr ⟨_, within_store n put, fun s => ⟨_, rfl, ?_⟩⟩
      rw [Op.perform, hstore]
    · exact .inl fun s => rfl
  | memCopy =>
    rcases args with _ | ⟨a, _ | ⟨b, _ | ⟨c, _ | ⟨d, l⟩⟩⟩⟩
    case cons.cons.cons.nil => exact keeps_of_instr .mcopy [a.word, b.word, c.word] nofun nofun rfl rfl fun s => rfl
    all_goals exact .inl fun s => rfl
  | sload =>
    rcases args with _ | ⟨a, _ | ⟨b, l⟩⟩
    case cons.nil => exact keeps_of_instr .sload [a.word] nofun nofun rfl rfl fun s => rfl
    all_goals exact .inl fun s => rfl
  | tload =>
    rcases args with _ | ⟨a, _ | ⟨b, l⟩⟩
    case cons.nil => exact keeps_of_instr .tload [a.word] nofun nofun rfl rfl fun s => rfl
    all_goals exact .inl fun s => rfl
  | sstore =>
    rcases args with _ | ⟨a, _ | ⟨b, _ | ⟨c, l⟩⟩⟩
    case cons.cons.nil => exact keeps_of_instr .sstore [a.word, b.word] nofun nofun rfl rfl fun s => rfl
    all_goals exact .inl fun s => rfl
  | tstore =>
    rcases args with _ | ⟨a, _ | ⟨b, _ | ⟨c, l⟩⟩⟩
    case cons.cons.nil => exact keeps_of_instr .tstore [a.word, b.word] nofun nofun rfl rfl fun s => rfl
    all_goals exact .inl fun s => rfl
  | opcode spec =>
    obtain ⟨hspec, hmsize, hcopy⟩ := hop.raw spec rfl
    obtain ⟨i, hi, heff, hin, -, hsize, -⟩ := instr_of_classified hspec
    have hperform : ∀ s, (Op.opcode spec).perform sur funcs inst ty args s =
        inlineOpcode sur spec (args.map Operand.word) s := fun s => rfl
    by_cases hlen : (args.map Operand.word).length = spec.stackIn
    · refine keeps_of_instr i (args.map Operand.word) ?_ ?_ heff (hlen.trans hin.symm) fun s => ?_
      · rintro rfl
        exact hmsize (hsize.mp rfl)
      · rintro rfl
        exact hcopy hi
      · rw [hperform, inlineOpcode, if_pos hlen, hi]
    · exact .inl fun s => by rw [hperform, inlineOpcode, if_neg hlen]
  | call callee => exact absurd hop.internal (show ¬ Effects.ALL.contains .EXTERNAL = false by decide +kernel)
  | _ => exact keeps_of_compute fun s => rfl

end

/-! ## Instructions -/

/-- One instruction on the values and the state, where it does not end the program. -/
def Function.act (sur : Surroundings) (funcs : List Func) (f : Function) (p : Env × State) (inst : Inst) :
    Option (Env × State) :=
  (f.insts[inst.index]?).bind fun d => (f.operands p.1 d.args).bind fun args =>
    match d.op.perform sur funcs inst d.ty args p.2 with
    | .ok (s, words) =>
      if d.results.length = words.length then some (p.1.write d.results (repaired d.repair words), s) else none
    | .error _ => none

/-- Neither operation disturbs the other, and neither instruction reads or defines what the other defines. -/
structure InstData.Independent (d e : InstData) : Prop where
  settled : d.op.Settled ∧ e.op.Settled
  apart : d.op.effects.Apart e.op.effects
  defines : ∀ v ∈ d.results, v ∉ e.args ∧ v ∉ e.results
  reads : ∀ v ∈ e.results, v ∉ d.args

/-- The same for instructions of a function. -/
def Function.Independent (f : Function) (a b : Inst) : Prop :=
  ∃ d e, f.insts[a.index]? = some d ∧ f.insts[b.index]? = some e ∧ d.Independent e

/-- The effects tell all about an instruction. -/
def Function.Settled (f : Function) (inst : Inst) : Prop := ∃ d, f.insts[inst.index]? = some d ∧ d.op.Settled

section

variable {sur : Surroundings} {funcs : List Func} {f : Function}

theorem Env.write_comm {env : Env} {vs us : List Value} (h : ∀ v ∈ vs, v ∉ us) (ws xs : List Word) :
    (env.write vs ws).write us xs = (env.write us xs).write vs ws := by
  funext v
  by_cases hv : v ∈ vs
  · rw [write_of_notMem (h v hv)]
    exact (write_congr (P := fun v => v ∉ us) (fun u hu => write_of_notMem hu xs) vs ws (h v hv)).symm
  · rw [write_of_notMem hv]
    exact write_congr (P := fun u => u ∉ vs) (fun u hu => write_of_notMem hu ws) us xs hv

theorem Function.operands_write {env : Env} {vs args : List Value} (h : ∀ v ∈ vs, v ∉ args) (ws : List Word) :
    f.operands (env.write vs ws) args = f.operands env args :=
  mapM_congr_env fun v hv => by
    rw [Env.write_of_notMem fun hmem => h v hmem hv]

/-- A settled instruction, whatever the state, comes to nothing on its operands, or to what an operation within its
effects comes to. -/
theorem act_cases (hsur : sur.Local) (funcs : List Func) {inst : Inst} {d : InstData} (hd : f.insts[inst.index]? = some d)
    (hop : d.op.Settled) (env : Env) :
    (∀ q, f.operands q.1 d.args = f.operands env d.args → f.act sur funcs q inst = none) ∨
      ∃ run, Within d.op.effects run ∧ ∀ s, ∃ r, run s = some r ∧
        ∀ env', f.operands env' d.args = f.operands env d.args → f.act sur funcs (env', s) inst =
          if d.results.length = r.2.length then some (env'.write d.results (repaired d.repair r.2), r.1) else none := by
  cases hargs : f.operands env d.args with
  | none =>
    refine .inl fun q hq => ?_
    rw [Function.act, hd, Option.bind_some, hq]
    rfl
  | some args =>
    rcases (keeps_of_settled hsur hop : d.op.Keeps sur funcs inst d.ty args) with hstuck | ⟨run, hwithin, hrun⟩
    · refine .inl fun q hq => ?_
      simp only [Function.act, hd, Option.bind_some, hq, hstuck q.2]
    · refine .inr ⟨run, hwithin, fun s => ?_⟩
      obtain ⟨r, hr, hperform⟩ := hrun s
      refine ⟨r, hr, fun env' henv' => ?_⟩
      simp only [Function.act, hd, Option.bind_some, henv', hperform]

/-- What an instruction leaves of the operands of an independent one. -/
theorem act_operands {inst : Inst} {d : InstData} (hd : f.insts[inst.index]? = some d) {p q : Env × State}
    (h : f.act sur funcs p inst = some q) {args : List Value} (hreads : ∀ v ∈ d.results, v ∉ args) :
    f.operands q.1 args = f.operands p.1 args := by
  unfold Function.act at h
  rw [hd, Option.bind_some] at h
  obtain ⟨ops, -, h⟩ := Option.bind_eq_some_iff.mp h
  split at h
  · split at h
    · obtain rfl := Option.some.inj h
      exact Function.operands_write hreads _
    · cases h
  · cases h

/-- What comes to nothing on its operands comes to nothing before and after an instruction that leaves them. -/
theorem act_comm_none {a b : Inst} {d e : InstData} (he : f.insts[b.index]? = some e)
    (hreads : ∀ v ∈ e.results, v ∉ d.args) {p : Env × State}
    (ha : ∀ q : Env × State, f.operands q.1 d.args = f.operands p.1 d.args → f.act sur funcs q a = none) :
    ((f.act sur funcs p a).bind fun q => f.act sur funcs q b) = none ∧
      ((f.act sur funcs p b).bind fun q => f.act sur funcs q a) = none := by
  refine ⟨by rw [ha p rfl, Option.bind_none], ?_⟩
  cases hb : f.act sur funcs p b with
  | none => rfl
  | some q => exact ha q (act_operands he hb hreads)

/-- **Independent instructions commute.** -/
theorem act_comm (hsur : sur.Local) {a b : Inst} (h : f.Independent a b) (p : Env × State) :
    ((f.act sur funcs p a).bind fun q => f.act sur funcs q b) =
      (f.act sur funcs p b).bind fun q => f.act sur funcs q a := by
  obtain ⟨d, e, hd, he, ⟨hdop, heop⟩, hapart, hdefines, hreads⟩ := h
  have hdefine : ∀ v ∈ d.results, v ∉ e.args := fun v hv => (hdefines v hv).1
  rcases act_cases hsur funcs hd hdop p.1 with ha | ⟨run, hrun, ha⟩
  · obtain ⟨hab, hba⟩ := act_comm_none he hreads ha
    rw [hab, hba]
  rcases act_cases hsur funcs he heop p.1 with hb | ⟨run', hrun', hb⟩
  · obtain ⟨hba, hab⟩ := act_comm_none hd hdefine hb
    rw [hab, hba]
  -- each first, and each after the other
  obtain ⟨r, hr, ha₁⟩ := ha p.2
  obtain ⟨q, hq, hb₁⟩ := hb p.2
  obtain ⟨r', hr', ha₂⟩ := ha q.1
  obtain ⟨q', hq', hb₂⟩ := hb r.1
  have hcomm : both run' run p.2 = (both run run' p.2).map fun x => (x.1, x.2.2, x.2.1) := hrun.comm hrun' hapart p.2
  obtain ⟨hstate, hwords, hwords'⟩ : r'.1 = q'.1 ∧ q.2 = q'.2 ∧ r'.2 = r.2 := by
    simpa [both, hr, hq, hr', hq'] using hcomm
  rw [show p = (p.1, p.2) from rfl, ha₁ p.1 rfl, hb₁ p.1 rfl]
  have hafter : ∀ ws, f.act sur funcs (p.1.write d.results ws, r.1) b =
      if e.results.length = q'.2.length then
        some ((p.1.write d.results ws).write e.results (repaired e.repair q'.2), q'.1) else none :=
    fun ws => hb₂ _ (Function.operands_write hdefine ws)
  have hbefore : ∀ ws, f.act sur funcs (p.1.write e.results ws, q.1) a =
      if d.results.length = r'.2.length then
        some ((p.1.write e.results ws).write d.results (repaired d.repair r'.2), r'.1) else none :=
    fun ws => ha₂ _ (Function.operands_write hreads ws)
  rw [hwords', hstate] at hbefore
  rw [hwords]
  by_cases hlen : d.results.length = r.2.length
  · by_cases hlen' : e.results.length = q'.2.length
    · rw [if_pos hlen, if_pos hlen', Option.bind_some, Option.bind_some, hafter, hbefore, if_pos hlen, if_pos hlen',
        Env.write_comm fun v hv => (hdefines v hv).2]
    · rw [if_pos hlen, if_neg hlen', Option.bind_some, Option.bind_none, hafter, if_neg hlen']
  · by_cases hlen' : e.results.length = q'.2.length
    · rw [if_neg hlen, if_pos hlen', Option.bind_some, Option.bind_none, hbefore, if_neg hlen]
    · rw [if_neg hlen, if_neg hlen', Option.bind_none, Option.bind_none]

end

/-! ## Programs -/

/-- The same block, its instructions rearranged without changing the order of two that are not independent. -/
structure BlockData.Rearranged (f : Function) (data data' : BlockData) : Prop where
  params : data'.params = data.params
  term : data'.term = data.term
  insts : Reordered f.Independent data.insts data'.insts

structure Function.Rearranged (f f' : Function) : Prop where
  entry : f'.entry = f.entry
  insts : f'.insts = f.insts
  values : f'.values = f.values
  blocks : List.Forall₂ (BlockData.Rearranged f) f.blocks f'.blocks
  nodup : ∀ data ∈ f.blocks, data.insts.Nodup

/-- Every function rearranged. -/
def Module.Rearranged (m m' : Module) : Prop := ∀ func, Option.Rel Function.Rearranged (m.body func) (m'.body func)

/-- What is left to do is rearranged, and the values are the same. -/
def rearranged (m : Module) : Corr where
  todo func l l' := ∀ f, m.body func = some f → Swaps f.Independent l l'
  env _ env env' := env' = env

section

variable {m m' : Module} {sur : Surroundings}

theorem Function.Rearranged.bodies {func : Func} {f f' : Function} (hf : m.body func = some f)
    (h : f.Rearranged f') : (rearranged m).Bodies func f f' where
  entry := h.entry
  slots k := by
    rw [h.insts]
    exact rel_refl (fun d => ⟨rfl, rfl⟩) _
  blocks k := by
    refine rel_mono (rel_getElem? h.blocks k) fun data data' hdata _ hrel => ⟨hrel.params, fun g hg => ?_, ?_⟩
    · obtain rfl := Option.some.inj (hf.symm.trans hg)
      exact hrel.insts.swaps (h.nodup data (List.mem_of_getElem? hdata))
    · rintro env _ s rfl
      rw [hrel.term]
      exact rel_bind (rel_refl (fun _ => rfl) data.term) fun term _ _ _ heq =>
        heq ▸ Terminator.exit_same (fun _ _ => rfl) s

theorem Module.Rearranged.fits (h : m.Rearranged m') : (rearranged m).Fits m m' where
  bodies func := rel_mono (h func) fun _ _ hf _ hff => hff.bodies hf
  start _ := rfl
  params _ _ _ _ _ _ _ words henv := congrArg (Env.write · _ words) henv
  results _ _ _ _ _ _ _ _ _ words henv := congrArg (Env.write · _ words) henv

/-! ### Settled instructions run together -/

/-- A thread past some instructions. -/
def Thread.past (t : Thread) (p : Env × State) (todo : List Inst) : Thread :=
  { t with frame := { t.frame with env := p.1, todo }, state := p.2 }

/-- A settled instruction goes by the values and the state, and does not halt. -/
theorem step_settled (hsur : sur.Local) {t : Thread} {f : Function} (hf : m.body t.frame.func = some f) {inst : Inst}
    {todo : List Inst} (htodo : t.frame.todo = inst :: todo) (hinst : f.Settled inst) :
    t.step m sur =
      Thread.orStuck ((f.act sur t.funcs (t.frame.env, t.state) inst).map fun p => t.past p todo) := by
  obtain ⟨d, hd, hop⟩ := hinst
  have hcall : ∀ callee, d.op ≠ .call callee := by
    intro callee hc
    have hinternal := hop.internal
    rw [hc] at hinternal
    exact absurd hinternal (show ¬ Effects.ALL.contains .EXTERNAL = false by decide +kernel)
  have hstep : t.step m sur = t.execute m sur f inst todo := by
    unfold Thread.step
    rw [hf, htodo]
  rw [hstep]
  unfold Function.act
  rw [hd, Option.bind_some]
  dsimp only
  cases hargs : f.operands t.frame.env d.args with
  | none =>
    rw [Thread.execute, hd]
    simp only [hargs]
    rfl
  | some args =>
    rw [Thread.execute_perform hd hargs hcall, Option.bind_some]
    rcases (keeps_of_settled hsur hop : d.op.Keeps sur t.funcs inst d.ty args) with hstuck | ⟨run, -, hrun⟩
    · rw [hstuck t.state]
      rfl
    · obtain ⟨r, -, hperform⟩ := hrun t.state
      rw [hperform]
      unfold Thread.define
      dsimp only
      split
      · rfl
      · rfl

/-- **Settled instructions at the front of what is left to do run as one.** -/
theorem run_settled (hsur : sur.Local) {f : Function} {p rest : List Inst} (hp : ∀ inst ∈ p, f.Settled inst)
    {t : Thread} (hf : m.body t.frame.func = some f) (htodo : t.frame.todo = p ++ rest) :
    runFor (Thread.step m sur) p.length t =
      Thread.orStuck ((p.foldlM (f.act sur t.funcs) (t.frame.env, t.state)).map fun q => t.past q rest) := by
  induction p generalizing t with
  | nil =>
    rw [List.nil_append] at htodo
    rw [List.foldlM_nil, ← htodo]
    rfl
  | cons inst p ih =>
    obtain ⟨hinst, hp⟩ := List.forall_mem_cons.mp hp
    have hstep := step_settled hsur hf htodo hinst
    rw [List.length_cons, List.foldlM_cons]
    cases hact : f.act sur t.funcs (t.frame.env, t.state) inst with
    | none =>
      rw [hact] at hstep
      exact runFor_of_end hstep _
    | some q =>
      rw [hact] at hstep
      have hnext : t.step m sur = .inl (t.past q (p ++ rest)) := hstep
      rw [runFor_of_step hnext]
      exact ih hp hf rfl

theorem Function.Rearranged.act_eq {f f' : Function} (h : f.Rearranged f') (funcs : List Func) :
    f'.act sur funcs = f.act sur funcs := by
  funext p inst
  unfold Function.act Function.operands Function.valueType
  rw [h.insts, h.values]

theorem Function.Rearranged.settled {f f' : Function} (h : f.Rearranged f') (inst : Inst) :
    f'.Settled inst ↔ f.Settled inst := by
  unfold Function.Settled
  rw [h.insts]

/-- Rearranged instructions come to the same. -/
theorem settled_meet (hsur : sur.Local) {t t' : Thread} (ht : (rearranged m).Threads m t t') {f f' : Function}
    (hf : m.body t.frame.func = some f) (hf' : m'.body t.frame.func = some f') (hff : f.Rearranged f')
    {p p' rest rest' : List Inst} (hp : ∀ inst ∈ p, f.Settled inst) (hswaps : Swaps f.Independent p p')
    (hrest : Swaps f.Independent rest rest') (htodo : t.frame.todo = p ++ rest) (htodo' : t'.frame.todo = p' ++ rest') :
    Sum.LiftRel ((rearranged m).Threads m) Eq (runFor (Thread.step m sur) p.length t)
      (runFor (Thread.step m' sur) p.length t') := by
  have hp' : ∀ inst ∈ p', f'.Settled inst := fun inst hmem =>
    (hff.settled inst).mpr (hp inst (hswaps.perm.mem_iff.mpr hmem))
  have henv : t'.frame.env = t.frame.env := ht.frame.env
  have hcomm : ∀ a b, f.Independent a b → ∀ q, ((f.act sur t.funcs q a).bind fun r => f.act sur t.funcs r b) =
      (f.act sur t.funcs q b).bind fun r => f.act sur t.funcs r a := fun a b hab => act_comm hsur hab
  have hfold : p'.foldlM (f'.act sur t'.funcs) (t'.frame.env, t'.state) =
      p.foldlM (f.act sur t.funcs) (t.frame.env, t.state) := by
    rw [henv, ht.state, ht.funcs, hff.act_eq]
    exact (hswaps.foldlM hcomm _).symm
  rw [run_settled hsur hp hf htodo, hswaps.perm.length_eq,
    run_settled hsur hp' (ht.frame.func ▸ hf') htodo', hfold]
  refine liftRel_orStuck ?_
  cases p.foldlM (f.act sur t.funcs) (t.frame.env, t.state) with
  | none => exact .none
  | some q =>
    refine .some ⟨⟨ht.frame.func, ht.frame.block, fun g hg => ?_, rfl⟩, ht.callers, rfl⟩
    obtain rfl := Option.some.inj (hf.symm.trans hg)
    exact hrest

theorem step_nil {t : Thread} {f : Function} (hf : m.body t.frame.func = some f) (htodo : t.frame.todo = []) :
    t.step m sur = t.leave m f := by
  unfold Thread.step
  rw [hf, htodo]

theorem step_cons {t : Thread} {f : Function} (hf : m.body t.frame.func = some f) {inst : Inst} {todo : List Inst}
    (htodo : t.frame.todo = inst :: todo) : t.step m sur = t.execute m sur f inst todo := by
  unfold Thread.step
  rw [hf, htodo]

/-- What the effects do not tell all about stays between the same instructions. -/
theorem exists_settled {f : Function} {l l' : List Inst} (h : Swaps f.Independent l l') :
    ∃ p p' rest rest', l = p ++ rest ∧ l' = p' ++ rest' ∧ (∀ inst ∈ p, f.Settled inst) ∧ Swaps f.Independent p p' ∧
      (rest = [] ∧ rest' = [] ∨ ∃ c q q', rest = c :: q ∧ rest' = c :: q' ∧ Swaps f.Independent q q') := by
  have hwall : ∀ a b, f.Independent a b → ¬ ¬ f.Settled a ∧ ¬ ¬ f.Settled b := by
    rintro a b ⟨d, e, hd, he, hind⟩
    exact ⟨not_not_intro ⟨d, hd, hind.settled.1⟩, not_not_intro ⟨e, he, hind.settled.2⟩⟩
  rcases exists_wall (fun inst => ¬ f.Settled inst) l with hall | ⟨p, c, q, rfl, hc, hp⟩
  · exact ⟨l, l', [], [], (List.append_nil l).symm, (List.append_nil l').symm,
      fun inst hmem => not_not.mp (hall inst hmem), h, .inl ⟨rfl, rfl⟩⟩
  · obtain ⟨p', q', rfl, hpp, hqq⟩ := h.split hwall hc
    exact ⟨p, p', c :: q, c :: q', rfl, rfl, fun inst hmem => not_not.mp (hp inst hmem), hpp,
      .inr ⟨c, q, q', rfl, rfl, hqq⟩⟩

/-- **Rearranged programs meet** at the end of every run of settled instructions. -/
theorem meets_rearranged (hsur : sur.Local) (h : m.Rearranged m') :
    Meets ((rearranged m).Threads m) (Thread.step m sur) (Thread.step m' sur) := by
  intro t t' ht
  rcases rel_cases (h t.frame.func) with ⟨hf, hf'⟩ | ⟨f, f', hf, hf', hff⟩
  · refine ⟨0, 0, ?_⟩
    rw [runFor_one, runFor_one, Thread.step, Thread.step, hf, ht.frame.func, hf']
    exact .inr rfl
  have hf'' : m'.body t'.frame.func = some f' := ht.frame.func ▸ hf'
  obtain ⟨p, p', rest, rest', hl, hl', hp, hpp, hrest⟩ := exists_settled (ht.frame.todo f hf)
  cases p with
  | cons inst p =>
    have hswaps : Swaps f.Independent rest rest' := by
      rcases hrest with ⟨rfl, rfl⟩ | ⟨c, q, q', rfl, rfl, hqq⟩
      · exact .refl
      · exact hqq.cons c
    exact ⟨p.length, p.length, settled_meet hsur ht hf hf' hff hp hpp hswaps hl hl'⟩
  | nil =>
    obtain rfl : p' = [] := hpp.perm.nil_eq.symm
    refine ⟨0, 0, ?_⟩
    rw [runFor_one, runFor_one]
    rcases hrest with ⟨rfl, rfl⟩ | ⟨c, q, q', rfl, rfl, hqq⟩
    · rw [step_nil hf hl, step_nil hf'' hl']
      exact h.fits.leave hf (hff.bodies hf) ht
    · rw [step_cons hf hl, step_cons hf'' hl']
      have henv : t'.frame.env = t.frame.env := ht.frame.env
      refine h.fits.execute hf ht (by rw [hff.insts]) (fun d _ => ?_) (fun g hg => ?_) fun _ _ _ _ _ _ _ =>
        congrArg (Env.write · _ _) henv
      · unfold Function.operands Function.valueType
        rw [henv, hff.values]
      · obtain rfl := Option.some.inj (hf.symm.trans hg)
        exact hqq

/-- **A program whose blocks are rearranged ends as it ended before**: any order will do that keeps the order of
instructions that are not independent. -/
theorem reorder_preserves (hsur : sur.Local) (h : m.Rearranged m') {func : Func} {words : List Word} {s : State}
    {t : Thread} (hstart : Thread.start m func words s = some t) :
    ∃ t', Thread.start m' func words s = some t' ∧
      ∀ o : Outcome, Ends (Thread.step m sur) t o ↔ Ends (Thread.step m' sur) t' o := by
  rcases rel_cases (h.fits.start_related func words s) with ⟨hnone, -⟩ | ⟨t₁, t', ht₁, ht', hrel⟩
  · exact absurd (hstart.symm.trans hnone) (by simp)
  · obtain rfl := Option.some.inj (hstart.symm.trans ht₁)
    exact ⟨t', ht', (meets_rearranged hsur h).ends_iff hrel⟩

end

/-! ## A load past a store -/

/-- The default surroundings keep a word of memory for every value. -/
theorem local_default : (default : Surroundings).Local where
  load _ ptr := ⟨wordsFor ptr.toNat 32, fun memory => BitVec.ofNat 256 (ofBytes (readMemory memory ptr.toNat 32)),
    fun _ => rfl⟩
  store _ ptr value := ⟨wordsFor ptr.toNat 32, fun memory => writeBytes memory ptr.toNat (toBytes 32 value.toNat),
    fun _ => rfl⟩

/-- A slot is loaded, another word is stored for the transaction, and what was loaded is stored back. -/
def pastCalls : List BuilderCall :=
  [.ins (.sload .U256 (Value.new 0)), .ins (.tstore (Value.new 0) (Value.new 0)),
    .ins (.sstore (Value.new 0) (Value.new 1)), .stop]

def pastBuilder : FunctionBuilder :=
  ((FunctionBuilder.new "f" ⟨[.U256], []⟩).run pastCalls).get (by decide +kernel)

/-- The transient store goes first. -/
def pastFunction : Function :=
  { pastBuilder.func with blocks := pastBuilder.func.blocks.map fun data =>
      { data with insts := [Inst.new 1, Inst.new 0, Inst.new 2] } }

def pastModule (f : Function) : Module := ⟨.cancun, ["f"], [⟨[.U256], []⟩], [some f], some (Func.new 0)⟩

theorem past_independent : pastBuilder.func.Independent (Inst.new 0) (Inst.new 1) := by
  refine ⟨⟨.sload, .U256, .none, [Value.new 0], [Value.new 1], none⟩,
    ⟨.tstore, .U256, .none, [Value.new 0, Value.new 0], [], none⟩, by decide +kernel, by decide +kernel,
    ⟨⟨by decide +kernel, fun _ hop => absurd hop (by simp)⟩, ⟨by decide +kernel, fun _ hop => absurd hop (by simp)⟩⟩,
    ?_, by decide +kernel, by decide +kernel⟩
  intro c
  cases c <;> decide +kernel

theorem past_reordered : Reordered pastBuilder.func.Independent [Inst.new 0, Inst.new 1, Inst.new 2]
    [Inst.new 1, Inst.new 0, Inst.new 2] where
  perm := .swap _ _ _
  order a b hok hsub := by
    have hpairs : ∀ l ∈ [Inst.new 0, Inst.new 1, Inst.new 2].sublists, l.length = 2 →
        l = [Inst.new 0, Inst.new 1] ∨ l ∈ [Inst.new 1, Inst.new 0, Inst.new 2].sublists := by decide +kernel
    rcases hpairs [a, b] (List.mem_sublists.mpr hsub) rfl with heq | hmem
    · obtain ⟨rfl, rfl⟩ : a = Inst.new 0 ∧ b = Inst.new 1 := by simpa using heq
      exact absurd past_independent hok
    · exact List.mem_sublists.mp hmem

theorem past_rearranged : (pastModule pastBuilder.func).Rearranged (pastModule pastFunction) := by
  have hblocks : pastBuilder.func.blocks.map BlockData.insts = [[Inst.new 0, Inst.new 1, Inst.new 2]] := by
    decide +kernel
  obtain ⟨data, hdata, hinsts⟩ := List.map_eq_singleton_iff.mp hblocks
  have hf : pastBuilder.func.Rearranged pastFunction := by
    refine ⟨rfl, rfl, rfl, ?_, ?_⟩
    · rw [show pastFunction.blocks = pastBuilder.func.blocks.map fun data =>
        { data with insts := [Inst.new 1, Inst.new 0, Inst.new 2] } from rfl, hdata]
      exact .cons ⟨rfl, rfl, hinsts ▸ past_reordered⟩ .nil
    · rw [hdata]
      intro data' hmem
      rw [List.mem_singleton.mp hmem, hinsts]
      decide +kernel
  intro func
  unfold Module.body Module.get pastModule
  cases func.index with
  | zero => exact .some hf
  | succ k => exact .none

theorem reorder_preserves_past :
    ∃ t t', Thread.start (pastModule pastBuilder.func) (Func.new 0) [1] default = some t ∧
      Thread.start (pastModule pastFunction) (Func.new 0) [1] default = some t' ∧ ∀ o : Outcome,
        Ends (Thread.step (pastModule pastBuilder.func) default) t o ↔
          Ends (Thread.step (pastModule pastFunction) default) t' o := by
  obtain ⟨t, ht⟩ : ∃ t, Thread.start (pastModule pastBuilder.func) (Func.new 0) [1] default = some t := ⟨_, rfl⟩
  obtain ⟨t', ht', h⟩ := reorder_preserves local_default past_rearranged ht
  exact ⟨t, t', ht, ht', h⟩

end RustEvm.Ir
