import RustEvm.Evm.Instr
import RustEvm.Lib.Footprint

/-!
# RustEvm.Evm.Parts — what each instruction reads and writes

The state taken apart as finely as the instructions tell it apart: the bytes of the memory and its active size are two
parts.  `Instr.core_footprint` gives every instruction its footprint, and two instructions with apart footprints
commute, the growth of the memory included, unless one of them reports the active size (`Instr.exec_comm`).
-/

namespace RustEvm.Evm

open Footprints

inductive Part
  | bytes | size | storage | transient | context | logs
  deriving DecidableEq, Repr

namespace Part

abbrev Val : Part → Type
  | bytes => ℕ → UInt8
  | size => ℕ
  | storage | transient => Word → Word
  | context => Context
  | logs => List LogEntry

def view : (p : Part) → State → p.Val
  | bytes, s => s.memory
  | size, s => s.words
  | storage, s => s.storage
  | transient, s => s.transient
  | context, s => s.context
  | logs, s => s.logs

theorem forall_iff {P : Part → Prop} :
    (∀ p, P p) ↔ P bytes ∧ P size ∧ P storage ∧ P transient ∧ P context ∧ P logs := by
  constructor
  · intro h
    exact ⟨h _, h _, h _, h _, h _, h _⟩
  · rintro ⟨h₁, h₂, h₃, h₄, h₅, h₆⟩ p
    cases p <;> assumption

/-- The parts are all there is. -/
theorem view_ext (s t : State) (h : ∀ p : Part, p.view s = p.view t) : s = t :=
  State.ext (h .bytes) (h .size) (h .storage) (h .transient) (h .context) (h .logs)

end Part

namespace Instr

/-- The parts an instruction goes by. -/
def reads : Instr → Part → Bool
  | env _, .context | query _, .context | copy _, .context | extCodeCopy, .context | returnDataCopy, .context => true
  | keccak256, .bytes | mload, .bytes | mcopy, .bytes => true
  | msize, .size => true
  | sload, .storage => true
  | tload, .transient => true
  | log _, .bytes | log _, .context => true
  | _, _ => false

/-- The parts an instruction stores to. -/
def writes : Instr → Part → Bool
  | copy _, .bytes | extCodeCopy, .bytes | returnDataCopy, .bytes => true
  | mstore, .bytes | mstore8, .bytes | mcopy, .bytes => true
  | sstore, .storage => true
  | tstore, .transient => true
  | log _, .logs => true
  | _, _ => false

@[simp] theorem writes_size (i : Instr) : i.writes .size = false := by
  cases i <;> rfl

@[simp] theorem writes_context (i : Instr) : i.writes .context = false := by
  cases i <;> rfl

/-! ## The footprint -/

variable {keccak : List UInt8 → Word} {i j : Instr} {args args' : List Word}

/-- A part that is not stored to stays. -/
theorem core_frame {s s' : State} {r : List Word} (h : i.core keccak args s = some (s', r)) {p : Part}
    (hp : i.writes p = false) : p.view s' = p.view s := by
  revert h
  fun_cases core keccak i args s <;> intro h <;> try simp only [Option.some.injEq, Prod.mk.injEq, reduceCtorEq] at h
  all_goals
    obtain ⟨rfl, rfl⟩ := h
    cases p <;> first | rfl | exact absurd hp (by simp [writes])

/-- The results and what is stored go by the parts read and stored to. -/
theorem core_same {s t s' : State} {r : List Word} (hr : ∀ p, i.reads p = true → p.view s = p.view t)
    (hw : ∀ p, i.writes p = true → p.view s = p.view t) (h : i.core keccak args s = some (s', r)) :
    ∃ t', i.core keccak args t = some (t', r) ∧ ∀ p, i.writes p = true → p.view t' = p.view s' := by
  rw [Part.forall_iff] at hr hw
  revert h
  fun_cases core keccak i args s <;> intro h <;> try simp only [Option.some.injEq, Prod.mk.injEq, reduceCtorEq] at h
  all_goals
    obtain ⟨rfl, rfl⟩ := h
    simp only [reads, writes, Part.view, forall_const, false_implies, true_and, and_true, Bool.false_eq_true] at hr hw
    simp_all [core, Part.forall_iff, writes, Part.view, State.msize]

/-- **Every instruction has its footprint.** -/
theorem core_footprint (keccak : List UInt8 → Word) (i : Instr) (args : List Word) :
    Footprint Part.view (i.core keccak args) {p | i.reads p = true} {p | i.writes p = true} where
  frame h _ hp := core_frame h (Bool.eq_false_iff.mpr hp)
  same hst h := core_same (fun p hp => hst p (.inl hp)) (fun p hp => hst p (.inr hp)) h

/-- The operands taken and the results left. -/
theorem core_arity {s s' : State} {r : List Word} (h : i.core keccak args s = some (s', r)) :
    args.length = i.stackIn ∧ r.length = i.stackOut := by
  revert h
  fun_cases core keccak i args s <;> intro h <;> try simp only [Option.some.injEq, Prod.mk.injEq, reduceCtorEq] at h
  all_goals
    obtain ⟨rfl, rfl⟩ := h
    exact ⟨by first | rfl | exact Nat.add_comm _ 2, rfl⟩

/-- With its operands on the stack an instruction runs, but for `RETURNDATACOPY` past the end of the data. -/
theorem core_isSome (hi : i ≠ returnDataCopy) (h : args.length = i.stackIn) (s : State) :
    (i.core keccak args s).isSome = true := by
  rcases args with _ | ⟨a, _ | ⟨b, _ | ⟨c, _ | ⟨d, l⟩⟩⟩⟩ <;> cases i <;>
    simp only [stackIn, List.length_nil, List.length_cons] at h <;> first
    | omega
    | rfl
    | exact absurd rfl hi
    | (rw [core, if_pos (by simp; omega)]; rfl)
    | (rw [List.length_eq_zero_iff.mp (by omega : l.length = 0)]; rfl)

/-! ## Growth of the memory -/

@[simp] theorem expand_zero (s : State) : s.expand 0 = s := by
  simp [State.expand]

@[simp] theorem expand_expand (s : State) (m n : ℕ) : (s.expand m).expand n = s.expand (max m n) := by
  simp [State.expand, Nat.max_assoc]

/-- Only `MSIZE` goes by the active size. -/
theorem core_expand (hi : i ≠ msize) (s : State) (n : ℕ) :
    i.core keccak args (s.expand n) = (i.core keccak args s).map fun p => (p.1.expand n, p.2) := by
  fun_cases core keccak i args s <;>
    simp_all only [core, State.expand, Option.map, if_true, if_false, ne_eq, not_true_eq_false]

theorem exec_eq_some {s s' : State} {r : List Word} :
    i.exec keccak args s = some (s', r) ↔
      ∃ s₁, i.core keccak args s = some (s₁, r) ∧ s' = s₁.expand (i.touched args) := by
  unfold exec
  rw [Option.map_eq_some_iff]
  constructor
  · rintro ⟨⟨s₁, r'⟩, h, heq⟩
    obtain ⟨rfl, rfl⟩ := Prod.mk.inj heq
    exact ⟨s₁, h, rfl⟩
  · rintro ⟨s₁, h, rfl⟩
    exact ⟨(s₁, r), h, rfl⟩

theorem exec_words {s s' : State} {r : List Word} (h : i.exec keccak args s = some (s', r)) :
    s'.words = max s.words (i.touched args) := by
  obtain ⟨s₁, hc, rfl⟩ := exec_eq_some.mp h
  have hw : s₁.words = s.words := core_frame hc (p := .size) (writes_size i)
  rw [State.expand, hw]

/-- Two instructions in a row, the second not `MSIZE`: the memory may grow at the end. -/
theorem both_exec (hj : j ≠ msize) (s : State) :
    both (i.exec keccak args) (j.exec keccak args') s =
      (both (i.core keccak args) (j.core keccak args') s).map fun p =>
        (p.1.expand (max (i.touched args) (j.touched args')), p.2) := by
  unfold both exec
  cases h : i.core keccak args s with
  | none => rfl
  | some p =>
    simp only [Option.map_some, Option.bind_some, core_expand hj, Option.map_map]
    congr 1
    funext q
    simp

theorem exec_msize {s s' : State} {r : List Word} :
    msize.exec keccak args s = some (s', r) ↔ args = [] ∧ s' = s ∧ r = [s.msize] := by
  rw [exec_eq_some]
  cases args with
  | nil => simp [core, touched, eq_comm, and_comm]
  | cons a l => simp [core]

theorem exec_msize_eq {s s' : State} {r : List Word} (h : i.exec keccak args s = some (s', r)) :
    s'.msize = (s.expand (i.touched args)).msize := by
  rw [State.msize, State.msize, exec_words h, State.expand]

theorem isMsize_iff : i.isMsize = true ↔ i = msize := by
  cases i <;> simp [isMsize]

/-- **Instructions with apart footprints commute**, the growth of the memory included. -/
theorem exec_comm (hij : ∀ p, i.writes p = true → j.reads p = false ∧ j.writes p = false)
    (hji : ∀ p, j.writes p = true → i.reads p = false ∧ i.writes p = false) (hi : i ≠ msize) (hj : j ≠ msize)
    (s : State) :
    both (j.exec keccak args') (i.exec keccak args) s =
      (both (i.exec keccak args) (j.exec keccak args') s).map fun p => (p.1, p.2.2, p.2.1) := by
  have apart : ∀ {k l : Instr}, (∀ p, k.writes p = true → l.reads p = false ∧ l.writes p = false) →
      ∀ p ∈ {p | k.writes p = true}, p ∉ {p | l.reads p = true} ∪ {p | l.writes p = true} := by
    intro k l h p hk hl
    obtain ⟨hr, hw⟩ := h p hk
    rcases hl with hl | hl
    · exact absurd (hl.symm.trans hr) (by simp)
    · exact absurd (hl.symm.trans hw) (by simp)
  have hcore := (core_footprint keccak i args).commute (core_footprint keccak j args') (apart hij) (apart hji)
    Part.view_ext s
  rw [both_exec hi, both_exec hj, hcore, Option.map_map, Option.map_map, Nat.max_comm]
  rfl

/-- `MSIZE` first or last: the same state, and the same result when the memory did not grow. -/
theorem exec_msize_comm {s s' : State} {r q : List Word} :
    both (msize.exec keccak args) (j.exec keccak args') s = some (s', q, r) ↔
      args = [] ∧ j.exec keccak args' s = some (s', r) ∧ q = [s.msize] := by
  rw [both_eq_some]
  constructor
  · rintro ⟨s₁, hm, hj⟩
    obtain ⟨ha, rfl, hq⟩ := exec_msize.mp hm
    exact ⟨ha, hj, hq⟩
  · rintro ⟨ha, hj, hq⟩
    exact ⟨s, exec_msize.mpr ⟨ha, rfl, hq⟩, hj⟩

theorem exec_comm_msize {s s' : State} {r q : List Word} :
    both (j.exec keccak args') (msize.exec keccak args) s = some (s', r, q) ↔
      args = [] ∧ j.exec keccak args' s = some (s', r) ∧ q = [s'.msize] := by
  rw [both_eq_some]
  constructor
  · rintro ⟨s₁, hj, hm⟩
    obtain ⟨ha, rfl, hq⟩ := exec_msize.mp hm
    exact ⟨ha, hj, hq⟩
  · rintro ⟨ha, hj, hq⟩
    exact ⟨s', hj, exec_msize.mpr ⟨ha, rfl, hq⟩⟩

end Instr

end RustEvm.Evm
