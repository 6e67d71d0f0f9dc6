import RustEvm.Evm.Instr
import RustEvm.Isa.Table

/-!
# RustEvm.Evm.Interp — running code

One frame in execution: a program counter, a stack of at most 1024 words and the state of the frame, which holds the
code.  `step` is one instruction on a given fork.  Jumps, calls, `GAS` and `SELFDESTRUCT` are outside this machine, and
gas is not counted.
-/

namespace RustEvm.Evm

open BigEndian Isa

/-- A frame in execution; the top of the stack stands first. -/
structure Running where
  pc : ℕ
  stack : List Word
  state : State

/-- What comes of one step, or of several. -/
inductive Progress
  | running (m : Running)
  | returned (output : List UInt8)
  | reverted (output : List UInt8)
  | stopped
  /-- an exceptional halt -/
  | halted
  /-- an opcode this machine does not have -/
  | outside

/-- The opcode exists on the fork. -/
def available (fork : Fork) (b : UInt8) : Bool := (byByte b).any fun spec => decide (spec.minFork ≤ fork)

/-- Go on with a stack, unless it is too deep. -/
def proceed (pc : ℕ) (stack : List Word) (state : State) : Progress :=
  if stack.length ≤ 1024 then .running ⟨pc, stack, state⟩ else .halted

namespace Running

/-- An instruction without control flow, on the operands it takes from the stack. -/
def apply (keccak : List UInt8 → Word) (m : Running) (i : Instr) : Progress :=
  if m.stack.length < i.stackIn then .halted
  else
    match i.exec keccak (m.stack.take i.stackIn) m.state with
    | none => .halted
    | some (state, results) => proceed (m.pc + 1) (results ++ m.stack.drop i.stackIn) state

/-- One instruction. -/
def step (keccak : List UInt8 → Word) (fork : Fork) (m : Running) : Progress :=
  match m.state.context.code[m.pc]? with
  | none => .stopped
  | some b =>
    if available fork b = false then .halted
    -- PUSH0..PUSH32, with zeros for immediate bytes past the end of the code
    else if 0x5f ≤ b.toNat ∧ b.toNat ≤ 0x7f then
      let width := b.toNat - 0x5f
      proceed (m.pc + 1 + width)
        (BitVec.ofNat 256 (ofBytes (slice m.state.context.code (m.pc + 1) width)) :: m.stack) m.state
    -- DUP1..DUP16
    else if 0x80 ≤ b.toNat ∧ b.toNat ≤ 0x8f then
      match m.stack[b.toNat - 0x80]? with
      | some w => proceed (m.pc + 1) (w :: m.stack) m.state
      | none => .halted
    -- SWAP1..SWAP16
    else if 0x90 ≤ b.toNat ∧ b.toNat ≤ 0x9f then
      match m.stack[0]?, m.stack[b.toNat - 0x8f]? with
      | some top, some w => proceed (m.pc + 1) ((m.stack.set 0 w).set (b.toNat - 0x8f) top) m.state
      | _, _ => .halted
    else if b = 0x00 then .stopped
    else if b = 0x50 then
      match m.stack with
      | _ :: stack => proceed (m.pc + 1) stack m.state
      | [] => .halted
    else if b = 0xf3 then
      match m.stack with
      | offset :: len :: _ => .returned (readMemory m.state.memory offset.toNat len.toNat)
      | _ => .halted
    else if b = 0xfd then
      match m.stack with
      | offset :: len :: _ => .reverted (readMemory m.state.memory offset.toNat len.toNat)
      | _ => .halted
    else
      match instrOf b with
      | some i => m.apply keccak i
      | none => .outside

/-- At most `n` instructions. -/
def steps (keccak : List UInt8 → Word) (fork : Fork) : ℕ → Running → Progress
  | 0, m => .running m
  | n + 1, m =>
    match m.step keccak fork with
    | .running m' => m'.steps keccak fork n
    | p => p

variable {keccak : List UInt8 → Word} {fork : Fork} {m m' : Running} {b : UInt8} {imm l : List UInt8}

theorem steps_of_step (h : m.step keccak fork = .running m') (n : ℕ) :
    m.steps keccak fork (n + 1) = m'.steps keccak fork n := by
  rw [steps, h]

/-! ## What stands at the program counter -/

/-- The code from the program counter on. -/
def rest (m : Running) : List UInt8 := m.state.context.code.drop m.pc

theorem getElem?_of_rest (h : m.rest = b :: l) : m.state.context.code[m.pc]? = some b := by
  have h0 := congrArg (fun xs => xs[0]?) h
  simpa [rest] using h0

theorem rest_of_advance (xs : List UInt8) (h : m.rest = xs ++ l) (hcode : m'.state.context.code = m.state.context.code)
    (hpc : m'.pc = m.pc + xs.length) : m'.rest = l := by
  rw [rest, hcode, hpc, ← List.drop_drop]
  change m.rest.drop xs.length = l
  rw [h, List.drop_left]

theorem slice_of_drop {bytes xs : List UInt8} {offset : ℕ} (h : bytes.drop offset = xs ++ l) :
    slice bytes offset xs.length = xs := by
  apply List.ext_getElem
  · rw [slice, length_readMemory]
  · intro i hi hi'
    have hget : bytes[offset + i]? = some xs[i] := by
      rw [← List.getElem?_drop, h, List.getElem?_append_left hi', List.getElem?_eq_getElem hi']
    simp [slice, readMemory, List.getD, hget]

theorem available_of_row {spec : OpSpec} (h : byByte b = some spec) (hf : spec.minFork ≤ fork) :
    available fork b = true := by
  simp [available, h, hf]

/-! ## Single instructions -/

/-- The step goes on with a stack and a state, in front of the code `l`. -/
def GoesTo (keccak : List UInt8 → Word) (fork : Fork) (m : Running) (stack : List Word) (state : State)
    (l : List UInt8) : Prop :=
  ∃ pc, m.step keccak fork = .running ⟨pc, stack, state⟩ ∧ rest ⟨pc, stack, state⟩ = l

variable (keccak fork)

/-- **A push** puts its immediate on the stack and goes on behind it. -/
theorem step_push (h : m.rest = b :: imm ++ l) (hb : b.toNat = 0x5f + imm.length) (hle : imm.length ≤ 32)
    (ha : available fork b = true) (hs : m.stack.length < 1024) :
    m.GoesTo keccak fork (BitVec.ofNat 256 (ofBytes imm) :: m.stack) m.state l := by
  have hslice : slice m.state.context.code (m.pc + 1) imm.length = imm := by
    refine slice_of_drop (l := l) ?_
    rw [← List.drop_drop]
    change m.rest.drop 1 = imm ++ l
    rw [h]
    rfl
  have hwidth : b.toNat - 0x5f = imm.length := by omega
  refine ⟨m.pc + 1 + imm.length, ?_, rest_of_advance (b :: imm) h rfl (by simp only [List.length_cons]; omega)⟩
  unfold step
  rw [getElem?_of_rest (l := imm ++ l) h]
  simp only [ha, Bool.true_eq_false, if_false, hwidth, hslice]
  rw [if_pos (by omega), proceed, if_pos (by simp only [List.length_cons]; omega)]

/-- `DUP1` -/
theorem step_dup1 {w : Word} {stack : List Word} (h : m.rest = 0x80 :: l) (hst : m.stack = w :: stack)
    (hs : m.stack.length < 1024) : m.GoesTo keccak fork (w :: m.stack) m.state l := by
  have ha : available fork 0x80 = true := available_of_row (byByte_dup (n := 1) le_rfl (by omega)) (Fork.frontier_le _)
  refine ⟨m.pc + 1, ?_, rest_of_advance [0x80] h rfl rfl⟩
  unfold step
  rw [getElem?_of_rest h]
  simp only [ha, Bool.true_eq_false, if_false, UInt8.reduceToNat]
  rw [if_neg (by omega), if_pos (by omega), hst]
  simp only [Nat.sub_self, List.getElem?_cons_zero]
  rw [← hst, proceed, if_pos (by simp only [List.length_cons]; omega)]

/-- `CODECOPY` -/
theorem step_codecopy {dest offset len : Word} {stack : List Word} (h : m.rest = 0x39 :: l)
    (hst : m.stack = dest :: offset :: len :: stack) (hs : m.stack.length ≤ 1024) :
    m.GoesTo keccak fork stack
      { m.state with
        memory := writeBytes m.state.memory dest.toNat (slice m.state.context.code offset.toNat len.toNat)
        words := max m.state.words (wordsFor dest.toNat len.toNat) } l := by
  have hrow : byByte 0x39 = some (op "CODECOPY" 0x39 3 0 false .context .frontier) := by decide +kernel
  have ha : available fork 0x39 = true := available_of_row hrow (Fork.frontier_le _)
  refine ⟨m.pc + 1, ?_, rest_of_advance [0x39] h rfl rfl⟩
  rw [hst] at hs
  simp only [List.length_cons] at hs
  unfold step
  rw [getElem?_of_rest h]
  simp only [ha, Bool.true_eq_false, if_false, UInt8.reduceToNat]
  rw [if_neg (by omega), if_neg (by omega), if_neg (by omega), if_neg (by decide), if_neg (by decide),
    if_neg (by decide), if_neg (by decide)]
  show m.apply keccak (.copy Context.code) = _
  unfold apply
  rw [hst, if_neg (by simp [Instr.stackIn])]
  show proceed _ _ _ = _
  rw [proceed, if_pos (by simpa [Instr.stackIn] using by omega)]
  rfl

/-- `RETURN` -/
theorem step_return {offset len : Word} {stack : List Word} (h : m.rest = 0xf3 :: l)
    (hst : m.stack = offset :: len :: stack) :
    m.step keccak fork = .returned (readMemory m.state.memory offset.toNat len.toNat) := by
  have hrow : byByte 0xf3 = some (op "RETURN" 0xf3 2 0 true .terminating .frontier) := by decide +kernel
  have ha : available fork 0xf3 = true := available_of_row hrow (Fork.frontier_le _)
  unfold step
  rw [getElem?_of_rest h]
  simp only [ha, Bool.true_eq_false, if_false, UInt8.reduceToNat]
  rw [if_neg (by omega), if_neg (by omega), if_neg (by omega), if_neg (by decide), if_neg (by decide),
    if_pos trivial, hst]

end Running

theorem readMemory_writeBytes (memory : ℕ → UInt8) (offset : ℕ) (bytes : List UInt8) :
    readMemory (writeBytes memory offset bytes) offset bytes.length = bytes := by
  apply List.ext_getElem
  · rw [length_readMemory]
  · intro i hi hi'
    simp [readMemory, writeBytes, hi']

end RustEvm.Evm
