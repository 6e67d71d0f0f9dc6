import RustEvm.Asm.Jumpdests
import RustEvm.Evm.Interp
import RustEvm.Evm.Parts
import RustEvm.Lib.Stepping

/-!
# RustEvm.Evm.Control — a frame with its control flow

The machine of a whole frame: the stack opcodes, the jumps, the halting opcodes and the instructions of `instrOf`.
`Opcode.flow` is what an opcode does to the stack and the state, and what it wants next, without a word about how the
code is laid out; `Running.advance` is one instruction of byte code.  What lies outside the frame, the gas that is left
and the frames that calls and creations run, is a parameter (`External`).  Gas is not counted, so no run ends because it
runs out, and there are no static frames, in which writes fail.  Where the machine of `RustEvm.Evm.Interp` has an
opcode, this one does the same (`advance_eq_step`), and code that returns there returns here (`ends_of_steps`).
-/

namespace RustEvm.Evm

open BigEndian Isa Codegen Frames Stepping

/-! ## Opcodes -/

/-- What a frame asks its surroundings: `GAS`, the calls and the creations, by their byte and their operands.  A frame's
code is not theirs to change.  They see the state, which has no gas counter: the answer to `GAS` does not go down with
what is executed. -/
structure External where
  run : UInt8 → List Word → State → Option (State × Word)
  code_run : ∀ b args s s' w, run b args s = some (s', w) → s'.context.code = s.context.code

/-- The opcodes, by what they do to the stack and to control. -/
inductive Opcode
  | push | pop
  | dup (n : ℕ)
  | swap (n : ℕ)
  | jump | jumpi | pc | jumpdest
  | stop | ret | revert | selfdestruct
  | instr (i : Instr)
  | external (stackIn : ℕ)
  | invalid

/-- The opcodes that are not in `instrOf`. -/
def controlOf (b : UInt8) : Option Opcode :=
  if 0x5f ≤ b.toNat ∧ b.toNat ≤ 0x7f then some .push
  else if 0x80 ≤ b.toNat ∧ b.toNat ≤ 0x8f then some (.dup (b.toNat - 0x7f))
  else if 0x90 ≤ b.toNat ∧ b.toNat ≤ 0x9f then some (.swap (b.toNat - 0x8f))
  else
    match b.toNat with
    | 0x00 => some .stop
    | 0x50 => some .pop
    | 0x56 => some .jump
    | 0x57 => some .jumpi
    | 0x58 => some .pc
    | 0x5a => some (.external 0)
    | 0x5b => some .jumpdest
    | 0xf0 => some (.external 3)
    | 0xf1 | 0xf2 => some (.external 7)
    | 0xf3 => some .ret
    | 0xf4 | 0xfa => some (.external 6)
    | 0xf5 => some (.external 4)
    | 0xfd => some .revert
    | 0xff => some .selfdestruct
    | _ => none

/-- The opcode a byte stands for. -/
def opcodeOf (b : UInt8) : Opcode :=
  match controlOf b, instrOf b with
  | some o, _ => o
  | none, some i => .instr i
  | none, none => .invalid

/-- How a frame ends. -/
inductive Halt
  | stopped
  | returned (output : List UInt8)
  | reverted (output : List UInt8)
  | destructed (heir : Word)
  | exceptional
  deriving DecidableEq

/-- What an instruction wants next. -/
inductive Flow
  | next (stack : List Word) (state : State)
  | jump (dest : Word) (stack : List Word) (state : State)
  | halt (how : Halt) (state : State)

/-- Go on with a stack, unless it is too deep. -/
def Flow.proceed (stack : List Word) (s : State) : Flow :=
  if stack.length ≤ 1024 then .next stack s else .halt .exceptional s

/-- Replace the top `n` words by what comes of them. -/
def Flow.apply (n : ℕ) (f : List Word → State → Option (State × List Word)) (stack : List Word) (s : State) : Flow :=
  if stack.length < n then .halt .exceptional s
  else
    match f (stack.take n) s with
    | none => .halt .exceptional s
    | some (s', results) => proceed (results ++ stack.drop n) s'

/-- **What an opcode does**: `b` is its byte, `pc` where it stands and `imm` its immediate. -/
def Opcode.flow (keccak : List UInt8 → Word) (ext : External) (b : UInt8) (pc : ℕ) (imm : List UInt8)
    (stack : List Word) (s : State) : Opcode → Flow
  | push => .proceed (BitVec.ofNat 256 (ofBytes imm) :: stack) s
  | pop =>
    match stack with
    | _ :: rest => .proceed rest s
    | _ => .halt .exceptional s
  | dup n =>
    match stack[n - 1]? with
    | some w => .proceed (w :: stack) s
    | none => .halt .exceptional s
  | swap n =>
    match stack[0]?, stack[n]? with
    | some top, some w => .proceed ((stack.set 0 w).set n top) s
    | _, _ => .halt .exceptional s
  | jump =>
    match stack with
    | dest :: rest => .jump dest rest s
    | _ => .halt .exceptional s
  | jumpi =>
    match stack with
    | dest :: cond :: rest => if cond = 0 then .next rest s else .jump dest rest s
    | _ => .halt .exceptional s
  | .pc => .proceed (BitVec.ofNat 256 pc :: stack) s
  | jumpdest => .next stack s
  | stop => .halt .stopped s
  | ret =>
    match stack with
    | offset :: len :: _ => .halt (.returned (readMemory s.memory offset.toNat len.toNat)) s
    | _ => .halt .exceptional s
  | revert =>
    match stack with
    | offset :: len :: _ => .halt (.reverted (readMemory s.memory offset.toNat len.toNat)) s
    | _ => .halt .exceptional s
  | selfdestruct =>
    match stack with
    | heir :: _ => .halt (.destructed heir) s
    | _ => .halt .exceptional s
  | instr i => .apply i.stackIn (i.exec keccak) stack s
  | external n => .apply n (fun args s => (ext.run b args s).map fun p => (p.1, [p.2])) stack s
  | invalid => .halt .exceptional s

/-! ## The code stays -/

/-- The state an instruction leaves. -/
def Flow.state : Flow → State
  | next _ s | jump _ _ s | halt _ s => s

@[simp] theorem Flow.state_proceed (stack : List Word) (s : State) : (proceed stack s).state = s := by
  unfold proceed
  split_ifs <;> rfl

theorem Flow.code_apply {n : ℕ} {f : List Word → State → Option (State × List Word)} {stack : List Word} {s : State}
    (h : ∀ args s' r, f args s = some (s', r) → s'.context.code = s.context.code) :
    (apply n f stack s).state.context.code = s.context.code := by
  unfold apply
  split_ifs
  · rfl
  · cases hf : f (stack.take n) s with
    | none => rfl
    | some p => simpa using h _ p.1 p.2 hf

theorem Instr.code_exec {keccak : List UInt8 → Word} {i : Instr} {args : List Word} {s s' : State} {r : List Word}
    (h : i.exec keccak args s = some (s', r)) : s'.context.code = s.context.code := by
  obtain ⟨s₁, hcore, rfl⟩ := exec_eq_some.mp h
  exact congrArg Context.code (core_frame hcore (p := .context) i.writes_context)

/-- **No opcode changes the code.** -/
theorem Opcode.code_flow (keccak : List UInt8 → Word) (ext : External) (b : UInt8) (pos : ℕ) (imm : List UInt8)
    (stack : List Word) (s : State) (o : Opcode) :
    (o.flow keccak ext b pos imm stack s).state.context.code = s.context.code := by
  have hproceed : ∀ words, (Flow.proceed words s).state.context.code = s.context.code := by simp
  unfold flow
  cases o with
  | instr i => exact Flow.code_apply fun _ _ _ h => Instr.code_exec h
  | external n =>
    refine Flow.code_apply fun args s' r h => ?_
    obtain ⟨p, hp, heq⟩ := Option.map_eq_some_iff.mp h
    obtain ⟨rfl, -⟩ := Prod.mk.inj heq
    exact ext.code_run _ _ _ _ _ hp
  | push | pc => exact hproceed _
  | jumpi =>
    dsimp only
    split
    · split_ifs <;> rfl
    · rfl
  | jumpdest | stop | invalid => rfl
  | pop | dup | swap | jump | ret | revert | selfdestruct =>
    dsimp only
    split <;> first | rfl | exact hproceed _

/-! ## Byte code -/

instance (code : List UInt8) (i : ℕ) : Decidable (ValidJump code i) :=
  decidable_of_iff (∃ f ∈ located 0 (split immediateWidthOf code), f.1 = i ∧ f.2.head = 0x5b) <| by
    rw [ValidJump, walks_iff, visits_iff]
    constructor
    · rintro ⟨⟨q, f⟩, hf, rfl, hhead⟩
      exact ⟨f, hf, hhead⟩
    · rintro ⟨f, hf, hhead⟩
      exact ⟨(i, f), hf, rfl, hhead⟩

namespace Running

/-- Go where an instruction of `n` bytes wants to: behind it, or to a jump destination. -/
def follow (m : Running) (n : ℕ) : Flow → Running ⊕ Halt × State
  | .next stack s => .inl ⟨m.pc + n, stack, s⟩
  | .jump dest stack s =>
    if ValidJump s.context.code dest.toNat then .inl ⟨dest.toNat, stack, s⟩ else .inr (.exceptional, s)
  | .halt how s => .inr (how, s)

/-- One instruction of the frame's code, if there is gas for it and the frame is not static; past the end of the code
the frame stops. -/
def advance (keccak : List UInt8 → Word) (ext : External) (fork : Fork) (m : Running) : Running ⊕ Halt × State :=
  match m.state.context.code[m.pc]? with
  | none => .inr (.stopped, m.state)
  | some b =>
    if available fork b then
      m.follow (stride b) ((opcodeOf b).flow keccak ext b m.pc
        (slice m.state.context.code (m.pc + 1) (stride b - 1)) m.stack m.state)
    else .inr (.exceptional, m.state)

end Running

/-! ## The machine without control flow -/

theorem forall_byte {p : UInt8 → Bool} (h : ((List.range 256).all fun n => p (UInt8.ofNat n)) = true) (b : UInt8) :
    p b = true := by
  have hb := List.all_eq_true.mp h b.toNat (List.mem_range.mpr b.toNat_lt)
  rwa [UInt8.ofNat_toNat] at hb

theorem controlOf_of_instrOf {b : UInt8} {i : Instr} (h : instrOf b = some i) : controlOf b = none := by
  have hb := forall_byte (p := fun b => (instrOf b).isNone || (controlOf b).isNone) (by decide +kernel) b
  simpa [h] using hb

theorem opcodeOf_of_instrOf {b : UInt8} {i : Instr} (h : instrOf b = some i) : opcodeOf b = .instr i := by
  rw [opcodeOf, controlOf_of_instrOf h, h]

/-- What a step comes to for the machine that leaves the control flow out. -/
def progressOf : Running ⊕ Halt × State → Progress
  | .inl m => .running m
  | .inr (.stopped, _) => .stopped
  | .inr (.returned output, _) => .returned output
  | .inr (.reverted output, _) => .reverted output
  | .inr (.destructed _, _) => .outside
  | .inr (.exceptional, _) => .halted

section

variable {keccak : List UInt8 → Word} {ext : External} {fork : Fork}

theorem progressOf_proceed (m : Running) (n : ℕ) (stack : List Word) (s : State) :
    progressOf (m.follow n (.proceed stack s)) = proceed (m.pc + n) stack s := by
  unfold Flow.proceed proceed
  by_cases h : stack.length ≤ 1024
  · rw [if_pos h, if_pos h]
    rfl
  · rw [if_neg h, if_neg h]
    rfl

theorem progressOf_apply (m : Running) (i : Instr) :
    progressOf (m.follow 1 (.apply i.stackIn (i.exec keccak) m.stack m.state)) = m.apply keccak i := by
  unfold Flow.apply Running.apply
  by_cases h : m.stack.length < i.stackIn
  · rw [if_pos h, if_pos h]
    rfl
  · rw [if_neg h, if_neg h]
    cases i.exec keccak (m.stack.take i.stackIn) m.state with
    | none => rfl
    | some p => exact progressOf_proceed m 1 _ _

/-- **Where the machine without control flow has an opcode**, the frame does the same. -/
theorem advance_eq_step {m : Running} (h : m.step keccak fork ≠ .outside) :
    progressOf (m.advance keccak ext fork) = m.step keccak fork := by
  unfold Running.step at h ⊢
  unfold Running.advance
  cases hb : m.state.context.code[m.pc]? with
  | none => rfl
  | some b =>
    simp only [hb] at h ⊢
    by_cases ha : available fork b = true
    swap
    · rw [if_neg ha, if_pos (by simpa using ha)]
      rfl
    rw [if_pos ha, if_neg (by simp [ha])]
    rw [if_neg (by simp [ha])] at h
    have hn : ¬ (0x5f ≤ b.toNat ∧ b.toNat ≤ 0x7f) → stride b = 1 := fun hb => if_neg (by omega)
    split_ifs at h ⊢ with hpush hdup hswap hstop hpop hret hrev
    · have ho : opcodeOf b = .push := by simp [opcodeOf, controlOf, hpush]
      have hn : stride b = 1 + (b.toNat - 0x5f) := by unfold stride; split_ifs <;> omega
      rw [ho, hn, Nat.add_sub_cancel_left, Opcode.flow, progressOf_proceed, Nat.add_assoc]
    · have ho : opcodeOf b = .dup (b.toNat - 0x7f) := by simp [opcodeOf, controlOf, hpush, hdup]
      rw [ho, hn hpush, Opcode.flow, Nat.sub_sub]
      cases m.stack[b.toNat - 0x80]? with
      | none => rfl
      | some w => exact progressOf_proceed m 1 _ _
    · have ho : opcodeOf b = .swap (b.toNat - 0x8f) := by simp [opcodeOf, controlOf, hpush, hdup, hswap]
      rw [ho, hn hpush, Opcode.flow]
      cases m.stack[0]? with
      | none => rfl
      | some top =>
        cases m.stack[b.toNat - 0x8f]? with
        | none => rfl
        | some w => exact progressOf_proceed m 1 _ _
    · subst hstop
      rfl
    · subst hpop
      cases hs : m.stack with
      | nil => rfl
      | cons w rest => exact progressOf_proceed m 1 _ _
    · subst hret
      rcases m.stack with _ | ⟨offset, _ | ⟨len, rest⟩⟩ <;> rfl
    · subst hrev
      rcases m.stack with _ | ⟨offset, _ | ⟨len, rest⟩⟩ <;> rfl
    · rw [hn hpush]
      cases hi : instrOf b with
      | none => simp [hi] at h
      | some i =>
        rw [opcodeOf_of_instrOf hi]
        exact progressOf_apply m i

theorem eq_of_progressOf_running {x : Running ⊕ Halt × State} {m : Running} (h : progressOf x = .running m) :
    x = .inl m := by
  rcases x with m' | ⟨how, s⟩
  · exact congrArg Sum.inl (Progress.running.inj h)
  · cases how <;> cases h

theorem eq_of_progressOf_returned {x : Running ⊕ Halt × State} {output : List UInt8}
    (h : progressOf x = .returned output) : ∃ s, x = .inr (.returned output, s) := by
  rcases x with m' | ⟨how, s⟩
  · cases h
  · cases how <;> cases h
    exact ⟨s, rfl⟩

theorem advance_of_step_running {m m' : Running} (h : m.step keccak fork = .running m') :
    m.advance keccak ext fork = .inl m' :=
  eq_of_progressOf_running ((advance_eq_step (by rw [h]; simp)).trans h)

theorem advance_of_step_returned {m : Running} {output : List UInt8} (h : m.step keccak fork = .returned output) :
    ∃ s, m.advance keccak ext fork = .inr (.returned output, s) :=
  eq_of_progressOf_returned ((advance_eq_step (by rw [h]; simp)).trans h)

/-- **Code that returns without control flow returns** in every surroundings. -/
theorem ends_of_steps {n : ℕ} {m : Running} {output : List UInt8} (h : m.steps keccak fork n = .returned output) :
    ∃ s, Ends (Running.advance keccak ext fork) m (.returned output, s) := by
  induction n generalizing m with
  | zero => cases h
  | succ n ih =>
    rw [Running.steps] at h
    cases hstep : m.step keccak fork with
    | running m' =>
      rw [hstep] at h
      obtain ⟨s, hs⟩ := ih h
      exact ⟨s, (ends_of_step (advance_of_step_running hstep) _).mpr hs⟩
    | returned output' =>
      rw [hstep] at h
      obtain rfl := Progress.returned.inj h
      obtain ⟨s, hs⟩ := advance_of_step_returned hstep
      exact ⟨s, ends_of_end hs⟩
    | reverted _ | stopped | halted | outside => rw [hstep] at h; cases h

end

end RustEvm.Evm
