import RustEvm.Evm.Control
import RustEvm.Ir.Effect
import RustEvm.Ir.Module

/-!
# RustEvm.Ir.Machine — what a program of the IR does

A thread runs one function at a time, block by block, and keeps the functions that wait for a result.  Values are words;
an instruction computes its raw words from its operands, the first of them is repaired, and a branch passes words to the
parameters of a block.  What the IR leaves to the back end and to the world is a parameter (`Surroundings`): where an
`alloca` lies, how a narrow value lies in memory, the hash, and what the frame is told from outside.

A thread is stuck where the program means nothing: a value that is not defined, a wrong number of words, the end of a
block without a terminator, or control where it was claimed never to come.
-/

namespace RustEvm.Ir

open Isa Codegen Evm BigEndian

/-! ## Terminators -/

namespace Terminator

/-- The blocks a terminator can transfer control to, with their edge arguments. -/
def blockCalls : Terminator → List BlockCall
  | jump target => [target]
  | brif _ thn otherwise => [thn, otherwise]
  | switch _ cases default => cases.map Prod.snd ++ [default]
  | _ => []

/-- The values a terminator reads itself. -/
def ownArgs : Terminator → List Value
  | brif cond _ _ => [cond]
  | switch on _ _ => [on]
  | ret values => values
  | returnData ptr len | revert ptr len => [ptr, len]
  | selfDestruct beneficiary => [beneficiary]
  | _ => []

/-- Values a terminator reads, edge arguments included. -/
def args (t : Terminator) : List Value := t.ownArgs ++ t.blockCalls.flatMap BlockCall.args

/-- Whether it ends the whole EVM frame rather than returning to a caller. -/
def isHalt : Terminator → Bool
  | stop | returnData _ _ | revert _ _ | selfDestruct _ | invalid | unreachable => true
  | _ => false

end Terminator

/-! ## Operations -/

/-- What the meaning of a program leaves open. -/
structure Surroundings where
  keccak : List UInt8 → Word
  ext : External
  /-- Where an `alloca` lies, by the functions in execution, innermost first. -/
  alloca : List Func → Inst → Word
  load : Ty → Word → State → State × Word
  store : Ty → Word → Word → State → State
  alloca_holds : ∀ funcs inst, Ty.PTR.Holds (alloca funcs inst)

/-- A word of memory for every value, and nothing outside. -/
instance : Inhabited Surroundings :=
  ⟨{ keccak := fun _ => 0
     ext := ⟨fun _ _ _ => none, nofun⟩
     alloca := fun _ _ => 0x80
     load := fun _ ptr s => (s.expand (wordsFor ptr.toNat 32), BitVec.ofNat 256 (ofBytes (readMemory s.memory ptr.toNat 32)))
     store := fun _ ptr value s =>
       { s.expand (wordsFor ptr.toNat 32) with memory := writeBytes s.memory ptr.toNat (toBytes 32 value.toNat) }
     alloca_holds := fun _ _ => by decide +kernel }⟩

/-- How a program ends. -/
inductive Outcome
  | halted (how : Halt) (state : State)
  | finished (values : List Word) (state : State)
  | stuck

namespace Op

/-- The raw word of an operation that goes by its operands alone. -/
def compute (op : Op) (ty : Ty) (args : List Operand) : Option Word :=
  match op, args with
  | const value, [] => some (literal value)
  | add, [a, b] | addOverflow, [a, b] => some (a.word + b.word)
  | sub, [a, b] | subOverflow, [a, b] => some (a.word - b.word)
  | mul, [a, b] | mulOverflow, [a, b] => some (a.word * b.word)
  | div, [a, b] => some (if ty.isSigned then Word.sdiv a.word b.word else Word.div a.word b.word)
  | rem, [a, b] => some (if ty.isSigned then Word.smod a.word b.word else Word.mod a.word b.word)
  | addMod, [a, b, m] => some (Word.addmod a.word b.word m.word)
  | mulMod, [a, b, m] => some (Word.mulmod a.word b.word m.word)
  | exp, [a, b] => some (Word.exp a.word b.word)
  | and, [a, b] => some (a.word &&& b.word)
  | or, [a, b] => some (a.word ||| b.word)
  | xor, [a, b] => some (a.word ^^^ b.word)
  | not, [a] => some (~~~ a.word)
  | shl, [a, s] => some (Word.shl s.word a.word)
  | shr, [a, s] => some (Word.shr s.word a.word)
  | sar, [a, s] => some (Word.sar s.word a.word)
  | extractByte, [i, a] => some (Word.byte i.word a.word)
  | convert, [a] => some a.word
  | icmp cmp, [a, b] => some (cmp.word a.ty.isSigned a.word b.word)
  | select, [c, t, e] => some ((t.word &&& (0 - c.word)) ||| (e.word &&& ~~~ (0 - c.word)))
  | _, _ => none

/-- The overflow flag of a checked operation: its exact result does not fit the type. -/
def flags (op : Op) (ty : Ty) (args : List Operand) : List Word :=
  match op with
  | addOverflow | subOverflow | mulOverflow =>
    [Word.ofBool ((op.exact ty args).any fun k => decide (ty.wrap k ≠ k))]
  | _ => []

end Op

/-- An instruction of the machine below; where it has no result the frame halts exceptionally. -/
def runInstr (keccak : List UInt8 → Word) (i : Instr) (args : List Word) (s : State) :
    Except Outcome (State × List Word) :=
  match i.exec keccak args s with
  | some r => .ok r
  | none => .error (.halted .exceptional s)

/-- A raw opcode on its operands. -/
def inlineOpcode (sur : Surroundings) (spec : OpSpec) (args : List Word) (s : State) :
    Except Outcome (State × List Word) :=
  if args.length = spec.stackIn then
    match instrOf spec.byte with
    | some i => runInstr sur.keccak i args s
    | none =>
      match sur.ext.run spec.byte args s with
      | some (s', w) => .ok (s', [w])
      | none => .error (.halted .exceptional s)
  else .error .stuck

/-- The raw words of an operation, internal calls aside, and the state it leaves. -/
def Op.perform (sur : Surroundings) (funcs : List Func) (inst : Inst) (op : Op) (ty : Ty) (args : List Operand)
    (s : State) : Except Outcome (State × List Word) :=
  match op, args with
  | alloca _, [] => .ok (s, [sur.alloca funcs inst])
  | load, [ptr] => .ok ((sur.load ty ptr.word s).1, [(sur.load ty ptr.word s).2])
  | store, [ptr, value] => .ok (sur.store ty ptr.word value.word s, [])
  | memCopy, [dst, src, len] => runInstr sur.keccak .mcopy [dst.word, src.word, len.word] s
  | sload, [key] => runInstr sur.keccak .sload [key.word] s
  | sstore, [key, value] => runInstr sur.keccak .sstore [key.word, value.word] s
  | tload, [key] => runInstr sur.keccak .tload [key.word] s
  | tstore, [key, value] => runInstr sur.keccak .tstore [key.word, value.word] s
  | opcode spec, args => inlineOpcode sur spec (args.map Operand.word) s
  | op, args =>
    match op.compute ty args with
    | some w => .ok (s, w :: op.flags ty args)
    | none => .error .stuck

theorem runInstr_eq_error {keccak : List UInt8 → Word} {i : Instr} {args : List Word} {s : State} {o : Outcome}
    (h : runInstr keccak i args s = .error o) : o = .halted .exceptional s := by
  unfold runInstr at h
  split at h
  · cases h
  · exact (Except.error.inj h).symm

/-- An operation does not finish the program. -/
theorem Op.perform_eq_error {sur : Surroundings} {funcs : List Func} {inst : Inst} {op : Op} {ty : Ty}
    {args : List Operand} {s : State} {o : Outcome} (h : op.perform sur funcs inst ty args s = .error o) :
    o = .stuck ∨ o = .halted .exceptional s := by
  revert h
  fun_cases Op.perform sur funcs inst op ty args s <;> intro h
  case case4 | case5 | case6 | case7 | case8 => exact .inr (runInstr_eq_error h)
  case case9 spec =>
    unfold inlineOpcode at h
    split at h
    · split at h
      · exact .inr (runInstr_eq_error h)
      · split at h
        · cases h
        · exact .inr (Except.error.inj h).symm
    · exact .inl (Except.error.inj h).symm
  case case11 => exact .inl (Except.error.inj h).symm
  all_goals cases h

/-- The words of an instruction: the first is repaired. -/
def repaired (rep : Repair) : List Word → List Word
  | [] => []
  | w :: ws => rep.apply w :: ws

/-! ## Frames -/

/-- A word for every value that is defined. -/
abbrev Env := Value → Option Word

/-- Define values, the first first. -/
def Env.write (env : Env) : List Value → List Word → Env
  | v :: vs, w :: ws => Env.write (Function.update env v (some w)) vs ws
  | _, _ => env

theorem Env.write_congr {P : Value → Prop} {env env' : Env} (h : ∀ v, P v → env' v = env v) (vs : List Value)
    (ws : List Word) {v : Value} (hv : P v) : env'.write vs ws v = env.write vs ws v := by
  induction vs generalizing env env' ws with
  | nil => exact h v hv
  | cons u vs ih =>
    cases ws with
    | nil => exact h v hv
    | cons w ws =>
      refine ih (fun x hx => ?_) ws
      by_cases hxu : x = u
      · rw [hxu, Function.update_self, Function.update_self]
      · rw [Function.update_of_ne hxu, Function.update_of_ne hxu, h x hx]

theorem Env.write_of_notMem {env : Env} {vs : List Value} {v : Value} (hv : v ∉ vs) (ws : List Word) :
    env.write vs ws v = env v := by
  induction vs generalizing env ws with
  | nil => rfl
  | cons u vs ih =>
    rw [List.mem_cons, not_or] at hv
    cases ws with
    | nil => rfl
    | cons w ws =>
      rw [write, ih hv.2, Function.update_of_ne hv.1]

/-- A function in execution: the block it is in and the instructions of it that are left. -/
structure Frame where
  func : Func
  env : Env
  block : Block
  todo : List Inst

/-- A program in execution: the running frame, the frames that wait for an internal call, each at its call, and the
state of the EVM frame. -/
structure Thread where
  frame : Frame
  callers : List (Frame × Inst)
  state : State

/-- The operands of an instruction, with the types recorded for them. -/
def Function.operands (f : Function) (env : Env) (vs : List Value) : Option (List Operand) :=
  vs.mapM fun v => (f.valueType v).bind fun ty => (env v).map fun w => ⟨ty, w⟩

/-- Come to a block with words for its parameters. -/
def Function.arrive (f : Function) (func : Func) (env : Env) (block : Block) (words : List Word) : Option Frame :=
  (f.blocks[block.index]?).bind fun data =>
    if data.params.length = words.length then some ⟨func, env.write data.params words, block, data.insts⟩ else none

/-- Where a terminator leads. -/
inductive Exit
  | goto (target : BlockCall)
  | back (values : List Word)
  | halt (how : Halt)

/-- What a terminator reads decides where it leads; `unreachable` leads nowhere. -/
def Terminator.exit (env : Env) (s : State) : Terminator → Option Exit
  | jump target => some (.goto target)
  | brif cond thn otherwise => (env cond).map fun c => .goto (if c = 0 then otherwise else thn)
  | switch on cases default =>
    (env on).map fun w => .goto ((cases.find? fun c => literal c.1 == w).elim default Prod.snd)
  | ret values => (values.mapM env).map .back
  | stop => some (.halt .stopped)
  | returnData ptr len =>
    (env ptr).bind fun p => (env len).map fun n => .halt (.returned (readMemory s.memory p.toNat n.toNat))
  | revert ptr len =>
    (env ptr).bind fun p => (env len).map fun n => .halt (.reverted (readMemory s.memory p.toNat n.toNat))
  | selfDestruct beneficiary => (env beneficiary).map fun heir => .halt (.destructed heir)
  | invalid => some (.halt .exceptional)
  | unreachable => none

theorem mapM_congr_env {α β : Type} {g g' : α → Option β} {vs : List α} (h : ∀ v ∈ vs, g' v = g v) :
    vs.mapM g' = vs.mapM g := by
  induction vs with
  | nil => rfl
  | cons v vs ih =>
    rw [List.mapM_cons, List.mapM_cons, h v List.mem_cons_self, ih fun u hu => h u (List.mem_cons_of_mem _ hu)]

/-- A terminator reads its arguments only. -/
theorem Terminator.exit_congr {env env' : Env} (s : State) {term : Terminator} (h : ∀ v ∈ term.ownArgs, env' v = env v) :
    term.exit env' s = term.exit env s := by
  cases term with
  | brif v _ _ | switch v _ _ | selfDestruct v => rw [exit, exit, h v (List.mem_singleton.mpr rfl)]
  | ret values =>
    have hvalues : values.mapM env' = values.mapM env := mapM_congr_env h
    rw [exit, exit, hvalues]
  | returnData ptr len | revert ptr len => rw [exit, exit, h ptr (by simp [ownArgs]), h len (by simp [ownArgs])]
  | _ => rfl

/-- It leads to one of its block calls, if to a block. -/
theorem Terminator.exit_goto {env : Env} {s : State} {term : Terminator} {target : BlockCall}
    (h : term.exit env s = some (.goto target)) : target ∈ term.blockCalls := by
  cases term with
  | jump target' =>
    obtain rfl := Exit.goto.inj (Option.some.inj h)
    exact List.mem_singleton.mpr rfl
  | brif cond thn otherwise =>
    obtain ⟨c, -, heq⟩ := Option.map_eq_some_iff.mp h
    obtain rfl := Exit.goto.inj heq
    split_ifs <;> simp [blockCalls]
  | switch on cases default =>
    obtain ⟨w, -, heq⟩ := Option.map_eq_some_iff.mp h
    obtain rfl := Exit.goto.inj heq
    cases hc : cases.find? fun c => literal c.1 == w with
    | none => simp [blockCalls]
    | some c =>
      refine List.mem_append_left _ (List.mem_map_of_mem (List.mem_of_find?_eq_some hc))
  | ret values =>
    obtain ⟨ws, -, heq⟩ := Option.map_eq_some_iff.mp h
    exact absurd heq (by simp)
  | returnData ptr len | revert ptr len =>
    obtain ⟨p, -, h⟩ := Option.bind_eq_some_iff.mp h
    obtain ⟨n, -, heq⟩ := Option.map_eq_some_iff.mp h
    exact absurd heq (by simp)
  | selfDestruct beneficiary =>
    obtain ⟨heir, -, heq⟩ := Option.map_eq_some_iff.mp h
    exact absurd heq (by simp)
  | stop | invalid | unreachable => exact absurd h (by simp [exit])

/-- Only a return goes back. -/
theorem Terminator.exit_back {env : Env} {s : State} {term : Terminator} {words : List Word}
    (h : term.exit env s = some (.back words)) : ∃ values, term = .ret values ∧ values.mapM env = some words := by
  cases term with
  | ret values =>
    obtain ⟨ws, hws, heq⟩ := Option.map_eq_some_iff.mp h
    exact ⟨values, rfl, Exit.back.inj heq ▸ hws⟩
  | brif cond _ _ | switch cond _ _ | selfDestruct cond =>
    obtain ⟨_, -, heq⟩ := Option.map_eq_some_iff.mp h
    exact absurd heq (by simp)
  | returnData ptr len | revert ptr len =>
    obtain ⟨p, -, h⟩ := Option.bind_eq_some_iff.mp h
    obtain ⟨n, -, heq⟩ := Option.map_eq_some_iff.mp h
    exact absurd heq (by simp)
  | jump _ | stop | invalid | unreachable => exact absurd h (by simp [exit])

/-- `isHalt` tells which terminators end the frame. -/
theorem Terminator.exit_halt_iff {env : Env} {s : State} {term : Terminator} {e : Exit} (h : term.exit env s = some e) :
    term.isHalt = true ↔ ∃ how, e = .halt how := by
  cases term with
  | jump target | stop | invalid =>
    obtain rfl := Option.some.inj h
    simp [isHalt]
  | brif cond _ _ | switch on _ _ | ret values | selfDestruct beneficiary =>
    obtain ⟨_, -, rfl⟩ := Option.map_eq_some_iff.mp h
    simp [isHalt]
  | returnData ptr len | revert ptr len =>
    obtain ⟨_, -, h⟩ := Option.bind_eq_some_iff.mp h
    obtain ⟨_, -, rfl⟩ := Option.map_eq_some_iff.mp h
    simp [isHalt]
  | unreachable => exact absurd h (by simp [exit])

/-! ## Steps -/

/-- The body of a function; `none` where there is none. -/
def Module.body (m : Module) (func : Func) : Option Function := (m.get func).join

namespace Thread

def orStuck : Option Thread → Thread ⊕ Outcome
  | some t => .inl t
  | none => .inr .stuck

/-- The functions in execution, innermost first. -/
def funcs (t : Thread) : List Func := t.frame.func :: t.callers.map fun c => c.1.func

/-- Start an internal call: the frame waits at `inst`. -/
def enter (m : Module) (t : Thread) (inst : Inst) (todo : List Inst) (callee : Func) (words : List Word) :
    Option Thread :=
  (m.body callee).bind fun g => (g.arrive callee (fun _ => none) g.entry words).map fun frame =>
    { t with frame, callers := ({ t.frame with todo }, inst) :: t.callers }

/-- The results of an instruction are defined. -/
def define (t : Thread) (d : InstData) (todo : List Inst) (s : State) (words : List Word) : Option Thread :=
  if d.results.length = words.length then
    some { t with frame := { t.frame with env := t.frame.env.write d.results (repaired d.repair words), todo }, state := s }
  else none

/-- One instruction. -/
def execute (m : Module) (sur : Surroundings) (t : Thread) (f : Function) (inst : Inst) (todo : List Inst) :
    Thread ⊕ Outcome :=
  match f.insts[inst.index]? with
  | none => .inr .stuck
  | some d =>
    match f.operands t.frame.env d.args with
    | none => .inr .stuck
    | some args =>
      match d.op with
      | .call callee => orStuck (t.enter m inst todo callee (args.map Operand.word))
      | op =>
        match op.perform sur t.funcs inst d.ty args t.state with
        | .ok (s, words) => orStuck (t.define d todo s words)
        | .error o => .inr o

/-- Follow an edge. -/
def goto (t : Thread) (f : Function) (target : BlockCall) : Option Thread :=
  (target.args.mapM t.frame.env).bind fun words =>
    (f.arrive t.frame.func t.frame.env target.block words).map fun frame => { t with frame }

/-- Go back to the innermost frame that waits, or end with the values. -/
def back (m : Module) (t : Thread) (values : List Word) : Thread ⊕ Outcome :=
  match t.callers with
  | [] => .inr (.finished values t.state)
  | (frame, inst) :: callers =>
    orStuck <| (m.body frame.func).bind fun f => (f.insts[inst.index]?).bind fun d =>
      define ⟨frame, callers, t.state⟩ d frame.todo t.state values

/-- The end of a block. -/
def leave (m : Module) (t : Thread) (f : Function) : Thread ⊕ Outcome :=
  match (f.blocks[t.frame.block.index]?).bind BlockData.term with
  | none => .inr .stuck
  | some term =>
    match term.exit t.frame.env t.state with
    | none => .inr .stuck
    | some (.goto target) => orStuck (t.goto f target)
    | some (.back values) => t.back m values
    | some (.halt how) => .inr (.halted how t.state)

/-- **One step of a program.** -/
def step (m : Module) (sur : Surroundings) (t : Thread) : Thread ⊕ Outcome :=
  match m.body t.frame.func with
  | none => .inr .stuck
  | some f =>
    match t.frame.todo with
    | inst :: todo => t.execute m sur f inst todo
    | [] => t.leave m f

/-- A program at the start of a function. -/
def start (m : Module) (func : Func) (words : List Word) (s : State) : Option Thread :=
  (m.body func).bind fun f => (f.arrive func (fun _ => none) f.entry words).map fun frame => ⟨frame, [], s⟩

section

variable {m : Module} {sur : Surroundings} {t : Thread} {f : Function} {inst : Inst} {d : InstData}
  {args : List Operand}

theorem execute_call {callee : Func} (hd : f.insts[inst.index]? = some d)
    (hargs : f.operands t.frame.env d.args = some args) (hop : d.op = .call callee) (todo : List Inst) :
    t.execute m sur f inst todo = orStuck (t.enter m inst todo callee (args.map Operand.word)) := by
  simp only [execute, hd, hargs, hop]

theorem execute_perform (hd : f.insts[inst.index]? = some d) (hargs : f.operands t.frame.env d.args = some args)
    (hop : ∀ callee, d.op ≠ .call callee) (todo : List Inst) :
    t.execute m sur f inst todo =
      match d.op.perform sur t.funcs inst d.ty args t.state with
      | .ok (s, words) => orStuck (t.define d todo s words)
      | .error o => .inr o := by
  simp only [execute, hd, hargs]

end

end Thread

end RustEvm.Ir
