import RustEvm.Evm.Arity

/-!
# RustEvm.Evm.Kinds — the table's kinds over runs

The table sorts its rows: pure ones, those that read or write storage, those that only move words on the stack.  What an
opcode may read and write is told part by part (`Opcode.reads`, `Opcode.writes`), and a run goes alike from two states
that agree on what its opcodes read (`run_alike`).  `kinds_describe_runs` puts that in terms of the table: a run over no
row that writes storage leaves it, a run over no row that reads storage goes alike whatever is stored, and a run over
pure rows, stack rows and control leaves the state and goes by the stack and the code alone.  All of it is gas aside:
what `SSTORE` costs depends on what is stored.
-/

namespace RustEvm.Isa.OpSpec

/-- Foldable at compile time: deterministic given its stack inputs alone, no side effects. -/
def isPure (spec : OpSpec) : Bool :=
  match spec.category with
  | .arithmetic | .comparison | .bitwise => true
  | _ => false

def readsStorage (spec : OpSpec) : Bool := spec.category == .storage && spec.stackOut != 0

def writesStorage (spec : OpSpec) : Bool := spec.category == .storage && spec.stackOut == 0

def isStackManip (spec : OpSpec) : Bool := spec.category == .stackManip

/-- What the surroundings answer. -/
def asksOutside (spec : OpSpec) : Bool := spec.category == .call || spec.mnemonic == "GAS"

end RustEvm.Isa.OpSpec

namespace RustEvm.Evm

open Isa Codegen Footprints Stepping

/-! ## Opcodes -/

namespace Opcode

/-- The parts an opcode goes by, the code aside. -/
def reads : Opcode → Part → Bool
  | instr i, p => i.reads p
  | ret, .bytes | revert, .bytes | external _, _ => true
  | _, _ => false

/-- The parts an opcode stores to. -/
def writes : Opcode → Part → Bool
  | instr i, p => i.writes p
  | external _, _ => true
  | _, _ => false

def isExternal : Opcode → Bool
  | external _ => true
  | _ => false

/-- Goes by the stack and the code, and leaves the state. -/
def isPlain : Opcode → Bool
  | push | pop | dup _ | swap _ | jump | jumpi | pc | jumpdest => true
  | instr (.unary _) | instr (.binary _) | instr (.ternary _) => true
  | _ => false

/-- An opcode keeps to the kinds of its row. -/
def Kept (o : Opcode) (spec : OpSpec) : Bool :=
  (spec.asksOutside == o.isExternal) &&
  (spec.writesStorage || spec.asksOutside || !(o.writes .storage || o.writes .transient)) &&
  (spec.readsStorage || spec.asksOutside || !(o.reads .storage || o.reads .transient)) &&
  (!(spec.isPure || spec.isStackManip || spec.category == .control) || o.isPlain)

/-- **Every row of the table** sorts its byte. -/
theorem kept_row : ∀ spec ∈ OPCODES, (opcodeOf spec.byte).Kept spec = true := by
  decide +kernel

end Opcode

namespace Instr

variable {keccak : List UInt8 → Word} {i : Instr} {args : List Word}

/-- The parts that agree still do, if the parts read do. -/
theorem core_agree {s t s' : State} {r : List Word} (hr : ∀ p, i.reads p = true → p.view s = p.view t)
    (h : i.core keccak args s = some (s', r)) :
    ∃ t', i.core keccak args t = some (t', r) ∧ ∀ p : Part, p.view s = p.view t → p.view s' = p.view t' := by
  rw [Part.forall_iff] at hr
  revert h
  fun_cases core keccak i args s <;> intro h <;> try simp only [Option.some.injEq, Prod.mk.injEq, reduceCtorEq] at h
  all_goals
    obtain ⟨rfl, rfl⟩ := h
    simp only [reads, Part.view, forall_const, false_implies, true_and, and_true, Bool.false_eq_true] at hr
    simp_all [core, Part.forall_iff, Part.view, State.msize]

end Instr

/-- The active size aside, no part grows. -/
theorem Part.view_grown {p : Part} (hp : p ≠ .size) (s : State) (n : ℕ) : p.view (s.expand n) = p.view s := by
  cases p with
  | size => exact absurd rfl hp
  | bytes | storage | transient | context | logs => rfl

/-! ## States that agree on some parts -/

/-- What two instructions want alike. -/
inductive Flow.Alike (parts : Set Part) : Flow → Flow → Prop
  | next (stack : List Word) {s t : State} (h : Agree Part.view parts s t) : Alike parts (.next stack s) (.next stack t)
  | jump (dest : Word) (stack : List Word) {s t : State} (h : Agree Part.view parts s t) :
    Alike parts (.jump dest stack s) (.jump dest stack t)
  | halt (how : Halt) {s t : State} (h : Agree Part.view parts s t) : Alike parts (.halt how s) (.halt how t)

/-- Frames at the same place of the same code with the same stack. -/
structure Running.Alike (parts : Set Part) (m m' : Running) : Prop where
  pc : m'.pc = m.pc
  stack : m'.stack = m.stack
  code : m'.state.context.code = m.state.context.code
  state : Agree Part.view parts m.state m'.state

/-- Frames that have ended alike. -/
def EndAlike (parts : Set Part) (e e' : Halt × State) : Prop := e'.1 = e.1 ∧ Agree Part.view parts e.2 e'.2

section

variable {keccak : List UInt8 → Word} {ext : External} {fork : Fork} {parts : Set Part} {s t : State}

theorem Flow.alike_proceed (h : Agree Part.view parts s t) (stack : List Word) :
    Flow.Alike parts (.proceed stack s) (.proceed stack t) := by
  unfold Flow.proceed
  by_cases hlen : stack.length ≤ 1024
  · rw [if_pos hlen, if_pos hlen]
    exact .next stack h
  · rw [if_neg hlen, if_neg hlen]
    exact .halt .exceptional h

theorem Instr.exec_agree {i : Instr} {args : List Word} (hr : ∀ p, i.reads p = true → p ∈ parts)
    (h : Agree Part.view parts s t) {s' : State} {r : List Word} (hs : i.exec keccak args s = some (s', r)) :
    ∃ t', i.exec keccak args t = some (t', r) ∧ Agree Part.view parts s' t' := by
  obtain ⟨s₁, hcore, rfl⟩ := exec_eq_some.mp hs
  obtain ⟨t₁, hcore', hsame⟩ := core_agree (fun p hp => h p (hr p hp)) hcore
  refine ⟨t₁.expand (i.touched args), exec_eq_some.mpr ⟨t₁, hcore', rfl⟩, fun p hp => ?_⟩
  by_cases hsize : p = .size
  · subst hsize
    exact congrArg (max · (i.touched args)) (hsame .size (h .size hp))
  · rw [Part.view_grown hsize, Part.view_grown hsize, hsame p (h p hp)]

/-- **An opcode does alike** in states that agree on what it reads. -/
theorem Opcode.flow_alike {o : Opcode} (hr : ∀ p, o.reads p = true → p ∈ parts) (hext : o.isExternal = false)
    (h : Agree Part.view parts s t) (b : UInt8) (pos : ℕ) (imm : List UInt8) (stack : List Word) :
    Flow.Alike parts (o.flow keccak ext b pos imm stack s) (o.flow keccak ext b pos imm stack t) := by
  unfold flow
  cases o with
  | external n => exact absurd hext (by simp [isExternal])
  | push | pc => exact Flow.alike_proceed h _
  | jumpdest => exact .next _ h
  | stop | invalid => exact .halt _ h
  | pop =>
    cases stack with
    | nil => exact .halt _ h
    | cons w rest => exact Flow.alike_proceed h _
  | dup n =>
    dsimp only
    cases stack[n - 1]? with
    | none => exact .halt _ h
    | some w => exact Flow.alike_proceed h _
  | swap n =>
    dsimp only
    cases stack[0]? with
    | none => exact .halt _ h
    | some top =>
      cases stack[n]? with
      | none => exact .halt _ h
      | some w => exact Flow.alike_proceed h _
  | jump =>
    cases stack with
    | nil => exact .halt _ h
    | cons dest rest => exact .jump _ _ h
  | jumpi =>
    rcases stack with _ | ⟨dest, _ | ⟨cond, rest⟩⟩
    · exact .halt _ h
    · exact .halt _ h
    · dsimp only
      split_ifs
      · exact .next _ h
      · exact .jump _ _ h
  | selfdestruct =>
    cases stack with
    | nil => exact .halt _ h
    | cons heir rest => exact .halt _ h
  | ret | revert =>
    rcases stack with _ | ⟨offset, _ | ⟨len, rest⟩⟩
    · exact .halt _ h
    · exact .halt _ h
    · have hmemory : s.memory = t.memory := h .bytes (hr .bytes rfl)
      dsimp only
      rw [hmemory]
      exact .halt _ h
  | instr i =>
    dsimp only
    unfold Flow.apply
    by_cases hlen : stack.length < i.stackIn
    · rw [if_pos hlen, if_pos hlen]
      exact .halt _ h
    rw [if_neg hlen, if_neg hlen]
    cases hs : i.exec keccak (stack.take i.stackIn) s with
    | some p =>
      obtain ⟨t', ht, hagree⟩ := Instr.exec_agree hr h hs
      rw [ht]
      exact Flow.alike_proceed hagree _
    | none =>
      cases ht : i.exec keccak (stack.take i.stackIn) t with
      | none => exact .halt _ h
      | some p =>
        obtain ⟨s', hs', -⟩ := Instr.exec_agree hr (fun p hp => (h p hp).symm) ht
        exact absurd (hs.symm.trans hs') (by simp)

/-- The stack and control are not in the state. -/
theorem Opcode.flow_control {o : Opcode} (hext : o.isExternal = false) (hinstr : ∀ i, o ≠ instr i) (b : UInt8) (pos : ℕ)
    (imm : List UInt8) (stack : List Word) : (o.flow keccak ext b pos imm stack s).state = s := by
  unfold flow
  cases o with
  | external n => exact absurd hext (by simp [isExternal])
  | instr i => exact absurd rfl (hinstr i)
  | push | pc => exact Flow.state_proceed _ _
  | jumpi =>
    dsimp only
    split
    · split_ifs <;> rfl
    · rfl
  | jumpdest | stop | invalid => rfl
  | pop | dup | swap | jump | ret | revert | selfdestruct =>
    dsimp only
    split <;> first | rfl | exact Flow.state_proceed _ _

theorem Instr.state_apply {i : Instr} {stack : List Word} {Q : State → Prop} (hs : Q s)
    (h : ∀ args s₁ r, i.core keccak args s = some (s₁, r) → Q (s₁.expand (i.touched args))) :
    Q (Flow.apply i.stackIn (i.exec keccak) stack s).state := by
  unfold Flow.apply
  split_ifs
  · exact hs
  · cases hexec : i.exec keccak (stack.take i.stackIn) s with
    | none => exact hs
    | some q =>
      obtain ⟨s₁, hcore, heq⟩ := exec_eq_some.mp hexec
      dsimp only
      rw [Flow.state_proceed, heq]
      exact h _ _ _ hcore

/-- **A part that is not stored to stays**, the active size of the memory aside. -/
theorem Opcode.flow_frame {o : Opcode} (hext : o.isExternal = false) {p : Part} (hw : o.writes p = false)
    (hsize : p ≠ .size) (b : UInt8) (pos : ℕ) (imm : List UInt8) (stack : List Word) :
    p.view (o.flow keccak ext b pos imm stack s).state = p.view s := by
  by_cases hinstr : ∃ i, o = instr i
  · obtain ⟨i, rfl⟩ := hinstr
    refine Instr.state_apply (Q := fun s' => p.view s' = p.view s) rfl fun args s₁ r hcore => ?_
    rw [Part.view_grown hsize]
    exact Instr.core_frame hcore hw
  · rw [flow_control hext (fun i hi => hinstr ⟨i, hi⟩)]

/-- A plain opcode leaves the whole state. -/
theorem Opcode.flow_plain {o : Opcode} (ho : o.isPlain = true) (b : UInt8) (pos : ℕ) (imm : List UInt8)
    (stack : List Word) : (o.flow keccak ext b pos imm stack s).state = s := by
  by_cases hinstr : ∃ i, o = instr i
  · obtain ⟨i, rfl⟩ := hinstr
    refine Instr.state_apply (Q := fun s' => s' = s) rfl fun args s₁ r hcore => ?_
    have htouched : i.touched args = 0 := by
      cases i <;> first | rfl | exact absurd ho (by simp [isPlain])
    rw [htouched, Instr.expand_zero]
    refine Part.view_ext _ _ fun p => Instr.core_frame hcore ?_
    cases i <;> first | rfl | exact absurd ho (by simp [isPlain])
  · refine flow_control ?_ (fun i hi => hinstr ⟨i, hi⟩) b pos imm stack
    cases o <;> first | rfl | exact absurd ho (by simp [isPlain])

/-- A plain opcode reads nothing but the code. -/
theorem Opcode.reads_plain {o : Opcode} (ho : o.isPlain = true) (p : Part) : o.reads p = false := by
  cases o with
  | instr i => cases i <;> first | rfl | exact absurd ho (by simp [isPlain])
  | ret | revert | external n => exact absurd ho (by simp [isPlain])
  | _ => rfl

/-! ## Steps -/

/-- The state a step leaves. -/
def stateOf : Running ⊕ Halt × State → State
  | .inl m => m.state
  | .inr e => e.2

namespace Running

variable {m m' : Running}

theorem stateOf_follow (m : Running) (n : ℕ) (f : Flow) : stateOf (m.follow n f) = f.state := by
  cases f with
  | next stack s | halt how s => rfl
  | jump dest stack s =>
    unfold follow
    dsimp only
    split_ifs <;> rfl

theorem follow_alike {f g : Flow} (h : Flow.Alike parts f g) (hcode : g.state.context.code = f.state.context.code)
    (hpc : m'.pc = m.pc) (n : ℕ) : Sum.LiftRel (Alike parts) (EndAlike parts) (m.follow n f) (m'.follow n g) := by
  cases h with
  | next stack h => exact .inl ⟨by rw [hpc], rfl, hcode, h⟩
  | halt how h => exact .inr ⟨rfl, h⟩
  | @jump dest stack s t h =>
    have hcode : t.context.code = s.context.code := hcode
    unfold follow
    dsimp only
    rw [hcode]
    by_cases hv : ValidJump s.context.code dest.toNat
    · rw [if_pos hv, if_pos hv]
      exact .inl ⟨rfl, rfl, hcode, h⟩
    · rw [if_neg hv, if_neg hv]
      exact .inr ⟨rfl, h⟩

/-- A step goes alike from frames that agree on what its opcode reads. -/
theorem advance_alike (hquiet : ∀ b, m.state.context.code[m.pc]? = some b → available fork b = true →
      (opcodeOf b).isExternal = false ∧ ∀ p, (opcodeOf b).reads p = true → p ∈ parts) (h : m.Alike parts m') :
    Sum.LiftRel (Alike parts) (EndAlike parts) (m.advance keccak ext fork) (m'.advance keccak ext fork) := by
  unfold advance
  rw [h.pc, h.code, h.stack]
  cases hb : m.state.context.code[m.pc]? with
  | none => exact .inr ⟨rfl, h.state⟩
  | some b =>
    dsimp only
    by_cases ha : available fork b = true
    · rw [if_pos ha, if_pos ha]
      obtain ⟨hext, hreads⟩ := hquiet b hb ha
      refine follow_alike (Opcode.flow_alike hreads hext h.state _ _ _ _) ?_ h.pc _
      rw [Opcode.code_flow, Opcode.code_flow, h.code]
    · rw [if_neg ha, if_neg ha]
      exact .inr ⟨rfl, h.state⟩

/-- What its opcode keeps a step keeps. -/
theorem advance_keeps {Q : State → Prop} (hs : Q m.state)
    (h : ∀ b imm, m.state.context.code[m.pc]? = some b → available fork b = true →
      Q ((opcodeOf b).flow keccak ext b m.pc imm m.stack m.state).state) : Q (stateOf (m.advance keccak ext fork)) := by
  unfold advance
  cases hb : m.state.context.code[m.pc]? with
  | none => exact hs
  | some b =>
    dsimp only
    by_cases ha : available fork b = true
    · rw [if_pos ha, stateOf_follow]
      exact h b _ hb ha
    · rw [if_neg ha]
      exact hs

/-! ## Whole runs -/

/-- The rows that are next in some frames. -/
def Over (P : OpSpec → Bool) (frames : List Running) : Prop := ∀ x ∈ frames, ∀ spec, x.row = some spec → P spec = true

/-- The opcode of a row that a run goes over keeps to the kinds of the row. -/
theorem Over.kept {P : OpSpec → Bool} {frames : List Running} (h : Over P frames) {x : Running} (hx : x ∈ frames)
    {b : UInt8} (hb : x.state.context.code[x.pc]? = some b) (ha : available fork b = true) :
    ∃ spec, P spec = true ∧ (opcodeOf b).Kept spec = true := by
  obtain ⟨spec, hrow, -, -⟩ := row_of_available ha
  have hkept := Opcode.kept_row spec (byByte_mem hrow)
  rw [byte_of_byByte hrow] at hkept
  exact ⟨spec, h x hx spec (by rw [row, hb, Option.bind_some, hrow]), hkept⟩

/-- **A run goes alike** from states that agree on what its opcodes read. -/
theorem run_alike {n : ℕ} {P : OpSpec → Bool} (hover : Over P (visited (advance keccak ext fork) n m))
    (hquiet : ∀ o spec, P spec = true → Opcode.Kept o spec = true → o.isExternal = false ∧ ∀ p, o.reads p = true → p ∈ parts)
    (h : m.Alike parts m') :
    Sum.LiftRel (Alike parts) (EndAlike parts) (runFor (advance keccak ext fork) n m)
      (runFor (advance keccak ext fork) n m') := by
  refine run_related (fun x hx y hxy => advance_alike (fun b hb ha => ?_) hxy) h
  obtain ⟨spec, hP, hkept⟩ := hover.kept hx hb ha
  exact hquiet _ spec hP hkept

/-- **What its opcodes keep a run keeps.** -/
theorem run_keeps {n : ℕ} {P : OpSpec → Bool} (hover : Over P (visited (advance keccak ext fork) n m))
    {Q : State → Prop} (hkeeps : ∀ o spec, P spec = true → Opcode.Kept o spec = true →
      ∀ b pos imm stack s, Q s → Q (o.flow keccak ext b pos imm stack s).state) (hs : Q m.state) :
    Q (stateOf (runFor (advance keccak ext fork) n m)) := by
  refine runFor_visited (K := fun x => Q (stateOf x)) (fun x hx hQ => advance_keeps hQ fun b imm hb ha => ?_) hs
  obtain ⟨spec, hP, hkept⟩ := hover.kept hx hb ha
  exact hkeeps _ spec hP hkept _ _ _ _ _ hQ

/-- **The kinds of the rows tell what a run does to storage and how it goes.**  Over no row that writes storage and
none that asks the surroundings, both storages stay.  Over no row that reads storage and none that asks, the run goes
alike whatever is stored.  Over pure rows, stack rows and control, the state stays and the run goes by the stack and the
code alone. -/
theorem kinds_describe_runs (keccak : List UInt8 → Word) (ext : External) (fork : Fork) (m : Running) (n : ℕ) :
    (Over (fun spec => !spec.writesStorage && !spec.asksOutside) (visited (advance keccak ext fork) n m) →
      (stateOf (runFor (advance keccak ext fork) n m)).storage = m.state.storage ∧
        (stateOf (runFor (advance keccak ext fork) n m)).transient = m.state.transient) ∧
    (Over (fun spec => !spec.readsStorage && !spec.asksOutside) (visited (advance keccak ext fork) n m) →
      ∀ storage transient : Word → Word,
        Sum.LiftRel (Alike {p | p ≠ .storage ∧ p ≠ .transient}) (EndAlike {p | p ≠ .storage ∧ p ≠ .transient})
          (runFor (advance keccak ext fork) n m)
          (runFor (advance keccak ext fork) n { m with state := { m.state with storage, transient } })) ∧
    (Over (fun spec => spec.isPure || spec.isStackManip || spec.category == .control)
        (visited (advance keccak ext fork) n m) →
      stateOf (runFor (advance keccak ext fork) n m) = m.state ∧
        ∀ s : State, s.context.code = m.state.context.code →
          Sum.LiftRel (Alike ∅) (EndAlike ∅) (runFor (advance keccak ext fork) n m)
            (runFor (advance keccak ext fork) n { m with state := s })) := by
  refine ⟨fun hover => ?_, fun hover storage transient => ?_, fun hover => ?_⟩
  · refine run_keeps (Q := fun s => s.storage = m.state.storage ∧ s.transient = m.state.transient) hover ?_ ⟨rfl, rfl⟩
    intro o spec hP hkept b pos imm stack s hQ
    obtain ⟨hext, hstorage, htransient⟩ : o.isExternal = false ∧ o.writes .storage = false ∧ o.writes .transient = false := by
      revert hP hkept
      unfold Opcode.Kept
      grind
    exact ⟨(Opcode.flow_frame hext hstorage (by simp) b pos imm stack).trans hQ.1,
      (Opcode.flow_frame hext htransient (by simp) b pos imm stack).trans hQ.2⟩
  · refine run_alike hover (fun o spec hP hkept => ?_) ⟨rfl, rfl, rfl, fun p hp => ?_⟩
    · obtain ⟨hext, hstorage, htransient⟩ : o.isExternal = false ∧ o.reads .storage = false ∧ o.reads .transient = false := by
        revert hP hkept
        unfold Opcode.Kept
        grind
      refine ⟨hext, fun p hp => ⟨?_, ?_⟩⟩
      · rintro rfl
        exact absurd (hp.symm.trans hstorage) (by simp)
      · rintro rfl
        exact absurd (hp.symm.trans htransient) (by simp)
    · cases p with
      | storage => exact absurd rfl hp.1
      | transient => exact absurd rfl hp.2
      | bytes | size | context | logs => rfl
  · have hplain : ∀ o spec, (spec.isPure || spec.isStackManip || spec.category == .control) = true →
        Opcode.Kept o spec = true → o.isPlain = true := by
      intro o spec hP hkept
      revert hP hkept
      unfold Opcode.Kept
      grind
    constructor
    · refine run_keeps (Q := fun s => s = m.state) hover (fun o spec hP hkept b pos imm stack s hQ => ?_) rfl
      rw [Opcode.flow_plain (hplain o spec hP hkept), hQ]
    · intro s hcode
      refine run_alike hover (fun o spec hP hkept => ?_) ⟨rfl, rfl, hcode, fun p hp => hp.elim⟩
      have ho := hplain o spec hP hkept
      refine ⟨?_, fun p hp => absurd (hp.symm.trans (Opcode.reads_plain ho p)) (by simp)⟩
      cases o <;> first | rfl | exact absurd ho (by simp [Opcode.isPlain])

end Running

end

end RustEvm.Evm
