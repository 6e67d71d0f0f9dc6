import RustEvm.Ir.Effect
import RustEvm.Evm.Parts

/-!
# RustEvm.Ir.EffectSound — the effects of a raw opcode against what it does

The effects tell five components of the state apart, the memory with its active size among them.  Every opcode of the
raw path has the effects its instruction is listed with (`instr_of_classified`).  The classification is sound but in two
ways (`Effects.sound_iff`): an opcode that only reads memory makes what it reads active, which `MSIZE` reports, and a
log carries the address of the executing account.
-/

namespace RustEvm.Ir

open Isa Evm Footprints InsBuilder

/-! ## Components -/

inductive Component
  | memory | storage | transient | context | logs
  deriving DecidableEq, Repr

namespace Component

abbrev Val : Component → Type
  | memory => (ℕ → UInt8) × ℕ
  | storage | transient => Word → Word
  | context => Context
  | logs => List LogEntry

def view : (c : Component) → State → c.Val
  | memory, s => (s.memory, s.words)
  | storage, s => s.storage
  | transient, s => s.transient
  | context, s => s.context
  | logs, s => s.logs

/-- The component a part belongs to. -/
def ofPart : Part → Component
  | .bytes | .size => memory
  | .storage => storage
  | .transient => transient
  | .context => context
  | .logs => logs

theorem part_of_view {p : Part} {s t : State} (h : (ofPart p).view s = (ofPart p).view t) : p.view s = p.view t := by
  cases p with
  | bytes => exact (Prod.mk.inj h).1
  | size => exact (Prod.mk.inj h).2
  | storage | transient | context | logs => exact h

theorem view_of_parts {c : Component} {s t : State} (h : ∀ p, ofPart p = c → p.view s = p.view t) :
    c.view s = c.view t := by
  cases c with
  | memory => exact Prod.ext (h .bytes rfl) (h .size rfl)
  | storage => exact h .storage rfl
  | transient => exact h .transient rfl
  | context => exact h .context rfl
  | logs => exact h .logs rfl

end Component

namespace Effects

/-- The components an operation may go by; a log cannot be observed. -/
def reads (e : Effects) : Component → Bool
  | .memory => e.contains READS_MEMORY
  | .storage => e.contains READS_STORAGE
  | .transient => e.contains READS_TRANSIENT
  | .context => e.contains READS_CONTEXT
  | .logs => false

/-- The components an operation may change; there is no flag for a change of the context. -/
def writes (e : Effects) : Component → Bool
  | .memory => e.contains WRITES_MEMORY
  | .storage => e.contains WRITES_STORAGE
  | .transient => e.contains WRITES_TRANSIENT
  | .context => false
  | .logs => e.contains LOGS

/-- Nothing changes without a flag. -/
def Framed (e : Effects) (s s' : State) : Prop := ∀ c : Component, e.writes c = false → c.view s' = c.view s

/-- Neither writes what the other reads or writes. -/
def Apart (e f : Effects) : Prop :=
  ∀ c, (e.writes c = true → f.reads c = false ∧ f.writes c = false) ∧
    (f.writes c = true → e.reads c = false ∧ e.writes c = false)

end Effects

/-- The results are the same, and what was the same before is the same after. -/
def SameChanges (s t s' t' : State) (r q : List Word) : Prop :=
  r = q ∧ ∀ c : Component, c.view s = c.view t → c.view s' = c.view t'

/-! ## The classification -/

/-- The effects each instruction is listed with. -/
def effectsOf : Instr → Effects
  | .unary _ | .binary _ | .ternary _ => .PURE
  | .env _ | .query _ => .READS_CONTEXT
  | .copy _ | .extCodeCopy | .returnDataCopy => Effects.READS_CONTEXT.union .WRITES_MEMORY
  | .keccak256 | .mload | .msize => .READS_MEMORY
  | .mstore | .mstore8 => .WRITES_MEMORY
  | .mcopy => Effects.READS_MEMORY.union .WRITES_MEMORY
  | .sload => .READS_STORAGE
  | .sstore => .WRITES_STORAGE
  | .tload => .READS_TRANSIENT
  | .tstore => .WRITES_TRANSIENT
  | .log _ => Effects.LOGS.union .READS_MEMORY

/-- An opcode of the raw path, external calls and `GAS` aside. -/
structure Classified (spec : OpSpec) : Prop where
  accepted : RawAccepted spec
  internal : (Effects.ofOpcode spec).contains .EXTERNAL = false
  notGas : spec.byte ≠ 0x5a

/-- An instruction fits a row of the table. -/
def fits (spec : OpSpec) (i : Instr) : Bool :=
  effectsOf i == Effects.ofOpcode spec && i.stackIn == spec.stackIn && i.stackOut == spec.stackOut &&
    i.isMsize == (spec.mnemonic == "MSIZE") && i.isLog == (spec.category == .log)

theorem fits_of_mem : ∀ spec ∈ OPCODES, reserved spec = none → (Effects.ofOpcode spec).contains .EXTERNAL = false →
    spec.byte ≠ 0x5a → (instrOf spec.byte).map (fits spec) = some true := by
  decide +kernel

/-- **Every classified opcode is an instruction with the effects and the operands of its row.** -/
theorem instr_of_classified {spec : OpSpec} (h : Classified spec) :
    ∃ i, instrOf spec.byte = some i ∧ effectsOf i = .ofOpcode spec ∧ i.stackIn = spec.stackIn ∧
      i.stackOut = spec.stackOut ∧ (i.isMsize = true ↔ spec.mnemonic = "MSIZE") ∧
      (i.isLog = true ↔ spec.category = .log) := by
  obtain ⟨⟨mnemonic, hm⟩, hfree⟩ := h.accepted
  obtain ⟨i, hi, hfit⟩ := Option.map_eq_some_iff.mp
    (fits_of_mem spec (byMnemonic_mem hm) hfree h.internal h.notGas)
  simp only [fits, Bool.and_eq_true, beq_iff_eq] at hfit
  obtain ⟨⟨⟨⟨he, hin⟩, hout⟩, hmsize⟩, hlog⟩ := hfit
  exact ⟨i, hi, he, hin, hout, by simp [hmsize], by simp [hlog]⟩

/-! ## One instruction against its effects -/

section

variable {keccak : List UInt8 → Word} {i j : Instr} {args args' : List Word} {s s' t t' : State} {r q : List Word}

theorem writes_effectsOf {p : Part} (h : i.writes p = true) : (effectsOf i).writes (.ofPart p) = true := by
  cases i <;> cases p <;> first
    | (simp only [effectsOf]; decide)
    | simp only [Instr.writes, Bool.false_eq_true] at h

/-- The effects cover what an instruction reads, the address in a log aside. -/
theorem reads_effectsOf {p : Part} (h : i.reads p = true) :
    (effectsOf i).reads (.ofPart p) = true ∨ i.isLog = true ∧ p = .context := by
  cases i <;> cases p <;> first
    | exact .inr ⟨rfl, rfl⟩
    | (refine .inl ?_; simp only [effectsOf]; decide)
    | simp only [Instr.reads, Bool.false_eq_true] at h

theorem view_expand {p : Part} (hp : p ≠ .size) (s : State) (n : ℕ) : p.view (s.expand n) = p.view s := by
  cases p <;> first | rfl | exact absurd rfl hp

/-- **Nothing changes without a flag, unless memory is made active without one.** -/
theorem framed_iff (h : i.exec keccak args s = some (s', r)) :
    (effectsOf i).Framed s s' ↔ ¬ ((effectsOf i).writes .memory = false ∧ s.words < i.touched args) := by
  have hwords := Instr.exec_words h
  obtain ⟨s₁, hc, rfl⟩ := Instr.exec_eq_some.mp h
  constructor
  · rintro hf ⟨hm, hlt⟩
    have hw : (s₁.expand (i.touched args)).words = s.words := (Prod.mk.inj (hf .memory hm)).2
    omega
  · intro hn c hcw
    refine Component.view_of_parts fun p hp => ?_
    have hpw : i.writes p = false := by
      by_contra hne
      rw [← hp, writes_effectsOf (Bool.not_eq_false _ ▸ hne)] at hcw
      exact absurd hcw (by simp)
    by_cases hsize : p = .size
    · subst hsize
      subst hp
      have hle : ¬ s.words < i.touched args := fun hlt => hn ⟨hcw, hlt⟩
      change (s₁.expand (i.touched args)).words = s.words
      omega
    · rw [view_expand hsize, Instr.core_frame hc hpw]

/-- What a log does. -/
theorem exec_log {n : ℕ} (h : (Instr.log n).exec keccak args s = some (s', r)) :
    ∃ offset len topics, args = offset :: len :: topics ∧ r = [] ∧
      s' = { s with
        words := max s.words (wordsFor offset.toNat len.toNat)
        logs := s.logs ++ [⟨s.context.address, topics, readMemory s.memory offset.toNat len.toNat⟩] } := by
  obtain ⟨s₁, hc, rfl⟩ := Instr.exec_eq_some.mp h
  rcases args with _ | ⟨offset, _ | ⟨len, topics⟩⟩
  · exact absurd hc (by simp [Instr.core])
  · exact absurd hc (by simp [Instr.core])
  · simp only [Instr.core, Option.ite_none_right_eq_some, Option.some.injEq, Prod.mk.injEq] at hc
    obtain ⟨-, rfl, rfl⟩ := hc
    exact ⟨offset, len, topics, rfl, rfl, rfl⟩

/-- Two logs on the same operands leave the same exactly in frames of one address. -/
theorem sameChanges_log_iff {n : ℕ}
    (hst : Agree Component.view {c | (effectsOf (.log n)).reads c = true ∨ (effectsOf (.log n)).writes c = true} s t)
    (h : (Instr.log n).exec keccak args s = some (s', r)) (h' : (Instr.log n).exec keccak args t = some (t', q)) :
    SameChanges s t s' t' r q ↔ s.context.address = t.context.address := by
  obtain ⟨offset, len, topics, rfl, rfl, rfl⟩ := exec_log h
  obtain ⟨offset', len', topics', hargs, rfl, rfl⟩ := exec_log h'
  obtain ⟨rfl, rfl, rfl⟩ : offset = offset' ∧ len = len' ∧ topics = topics' := by simpa using hargs
  obtain ⟨hmem, hw⟩ := Prod.mk.inj (hst .memory (.inl (by simp only [effectsOf]; decide)))
  have hlogs : s.logs = t.logs := hst .logs (.inr (by simp only [effectsOf]; decide))
  constructor
  · rintro ⟨-, hc⟩
    have hl := hc .logs hlogs
    simp only [Component.view, hlogs, List.append_cancel_left_eq, List.cons.injEq, LogEntry.mk.injEq] at hl
    exact hl.1.1
  · intro haddr
    refine ⟨rfl, fun c hc => ?_⟩
    cases c with
    | memory => simp only [Component.view, hmem, hw]
    | logs => simp only [Component.view, hmem, hlogs, haddr]
    | storage | transient | context => exact hc

/-- Any other instruction goes by what is flagged. -/
theorem sameChanges_of_not_log (hlog : i.isLog = false)
    (hst : Agree Component.view {c | (effectsOf i).reads c = true ∨ (effectsOf i).writes c = true} s t)
    (h : i.exec keccak args s = some (s', r)) (h' : i.exec keccak args t = some (t', q)) :
    SameChanges s t s' t' r q := by
  obtain ⟨s₁, hs, rfl⟩ := Instr.exec_eq_some.mp h
  obtain ⟨t₁, ht, rfl⟩ := Instr.exec_eq_some.mp h'
  have hread : ∀ p, i.reads p = true → p.view s = p.view t := by
    intro p hp
    rcases reads_effectsOf hp with hc | ⟨hl, -⟩
    · exact Component.part_of_view (hst _ (.inl hc))
    · exact absurd (hlog.symm.trans hl) (by decide)
  have hwrite : ∀ p, i.writes p = true → p.view s = p.view t := fun p hp =>
    Component.part_of_view (hst _ (.inr (writes_effectsOf hp)))
  obtain ⟨t₂, ht₂, hsame⟩ := Instr.core_same hread hwrite hs
  obtain ⟨rfl, rfl⟩ := Prod.mk.inj (Option.some.inj (ht₂.symm.trans ht))
  refine ⟨rfl, fun c hc => Component.view_of_parts fun p hp => ?_⟩
  subst hp
  have hp := Component.part_of_view hc
  have hcore : p.view s₁ = p.view t₂ := by
    cases hpw : i.writes p with
    | true => exact (hsame p hpw).symm
    | false => rw [Instr.core_frame hs hpw, Instr.core_frame ht hpw, hp]
  by_cases hsize : p = .size
  · subst hsize
    exact congrArg (max · (i.touched args)) hcore
  · rw [view_expand hsize, view_expand hsize, hcore]

/-- **The results and the changes go by what is flagged, unless a log carries another address.** -/
theorem sameChanges_iff
    (hst : Agree Component.view {c | (effectsOf i).reads c = true ∨ (effectsOf i).writes c = true} s t)
    (h : i.exec keccak args s = some (s', r)) (h' : i.exec keccak args t = some (t', q)) :
    SameChanges s t s' t' r q ↔ ¬ (i.isLog = true ∧ s.context.address ≠ t.context.address) := by
  cases hlog : i.isLog with
  | true =>
    obtain ⟨n, rfl⟩ : ∃ n, i = .log n := by
      cases i <;> first | exact ⟨_, rfl⟩ | exact absurd hlog (by simp [Instr.isLog])
    rw [sameChanges_log_iff hst h h']
    simp
  | false => exact iff_of_true (sameChanges_of_not_log hlog hst h h') (by simp)

/-- Apart effects, apart parts. -/
theorem parts_apart
    (hij : ∀ c, (effectsOf i).writes c = true → (effectsOf j).reads c = false ∧ (effectsOf j).writes c = false)
    (p : Part) (hp : i.writes p = true) : j.reads p = false ∧ j.writes p = false := by
  obtain ⟨hr, hw⟩ := hij _ (writes_effectsOf hp)
  constructor
  · by_contra hne
    rcases reads_effectsOf (Bool.not_eq_false _ ▸ hne) with hc | ⟨-, rfl⟩
    · exact absurd (hc.symm.trans hr) (by simp)
    · exact absurd (hp.symm.trans (Instr.writes_context i)) (by simp)
  · by_contra hne
    exact absurd ((writes_effectsOf (Bool.not_eq_false _ ▸ hne)).symm.trans hw) (by simp)

/-- **Instructions with apart effects commute, unless one reports the active size and the other changes it.** -/
theorem both_comm_iff (hij : (effectsOf i).Apart (effectsOf j))
    (h : both (i.exec keccak args) (j.exec keccak args') s = some (s', r, q)) :
    both (j.exec keccak args') (i.exec keccak args) s = some (s', q, r) ↔
      ¬ (i.isMsize = true ∧ (s.expand (j.touched args')).msize ≠ s.msize ∨
        j.isMsize = true ∧ (s.expand (i.touched args)).msize ≠ s.msize) := by
  simp only [Instr.isMsize_iff]
  by_cases hi : i = .msize
  · subst hi
    obtain ⟨rfl, hj, rfl⟩ := Instr.exec_msize_comm.mp h
    rw [Instr.exec_comm_msize, ← Instr.exec_msize_eq hj]
    simp [Instr.touched, hj, eq_comm]
  · by_cases hj : j = .msize
    · subst hj
      obtain ⟨rfl, hi', rfl⟩ := Instr.exec_comm_msize.mp h
      rw [Instr.exec_msize_comm, ← Instr.exec_msize_eq hi']
      simp [Instr.touched, hi', hi]
    · have hcomm : both (j.exec keccak args') (i.exec keccak args) s =
          (both (i.exec keccak args) (j.exec keccak args') s).map fun p => (p.1, p.2.2, p.2.1) :=
        Instr.exec_comm (parts_apart fun c => (hij c).1) (parts_apart fun c => (hij c).2) hi hj s
      rw [hcomm, h]
      simp [hi, hj]

end

/-! ## Raw opcodes -/

/-- A raw opcode on its operands. -/
def runOpcode (keccak : List UInt8 → Word) (spec : OpSpec) (args : List Word) (s : State) :
    Option (State × List Word) :=
  (instrOf spec.byte).bind fun i => i.exec keccak args s

/-- The words of memory a raw opcode touches. -/
def touches (spec : OpSpec) (args : List Word) : ℕ := ((instrOf spec.byte).map (·.touched args)).getD 0

/-- With its operands a classified opcode runs, but for `RETURNDATACOPY` past the end of the data. -/
theorem runOpcode_isSome {keccak : List UInt8 → Word} {spec : OpSpec} {args : List Word} (h : Classified spec)
    (hr : instrOf spec.byte ≠ some .returnDataCopy) (hargs : args.length = spec.stackIn) (s : State) :
    (runOpcode keccak spec args s).isSome = true := by
  obtain ⟨i, hi, -, hin, -⟩ := instr_of_classified h
  have hne : i ≠ .returnDataCopy := fun heq => hr (heq ▸ hi)
  rw [runOpcode, hi, Option.bind_some, Instr.exec, Option.isSome_map]
  exact Instr.core_isSome hne (hargs.trans hin.symm) s

/-- It takes and leaves what its row says. -/
theorem runOpcode_arity {keccak : List UInt8 → Word} {spec : OpSpec} {args r : List Word} {s s' : State}
    (h : Classified spec) (hrun : runOpcode keccak spec args s = some (s', r)) :
    args.length = spec.stackIn ∧ r.length = spec.stackOut := by
  obtain ⟨i, hi, -, hin, hout, -⟩ := instr_of_classified h
  rw [runOpcode, hi, Option.bind_some, Instr.exec] at hrun
  obtain ⟨⟨s₀, r₀⟩, hcore, heq⟩ := Option.map_eq_some_iff.mp hrun
  obtain ⟨-, rfl⟩ := Prod.mk.inj heq
  obtain ⟨hargs, hresults⟩ := Instr.core_arity hcore
  exact ⟨hargs.trans hin, hresults.trans hout⟩

/-- **The effects of raw opcodes are sound but for two things.**  Nothing changes without a flag, unless an opcode
without the flag to write memory touches a word past the active ones.  In states that agree on what is flagged the
results and the changes are the same, unless the opcode logs and the addresses differ.  And two opcodes, neither of
which writes what the other reads or writes, commute, unless one is `MSIZE` and the other changes what it reports. -/
theorem Effects.sound_iff (keccak : List UInt8 → Word) (a b : OpSpec) (ha : Classified a) (hb : Classified b) :
    (∀ args s s' r, runOpcode keccak a args s = some (s', r) →
      ((ofOpcode a).Framed s s' ↔ ¬ ((ofOpcode a).writes .memory = false ∧ s.words < touches a args))) ∧
    (∀ args s t s' t' r q,
      Agree Component.view {c | (ofOpcode a).reads c = true ∨ (ofOpcode a).writes c = true} s t →
      runOpcode keccak a args s = some (s', r) → runOpcode keccak a args t = some (t', q) →
      (SameChanges s t s' t' r q ↔ ¬ (a.category = .log ∧ s.context.address ≠ t.context.address))) ∧
    (∀ args args' s s' r q, (ofOpcode a).Apart (ofOpcode b) →
      both (runOpcode keccak a args) (runOpcode keccak b args') s = some (s', r, q) →
      (both (runOpcode keccak b args') (runOpcode keccak a args) s = some (s', q, r) ↔
        ¬ (a.mnemonic = "MSIZE" ∧ (s.expand (touches b args')).msize ≠ s.msize ∨
          b.mnemonic = "MSIZE" ∧ (s.expand (touches a args)).msize ≠ s.msize))) := by
  obtain ⟨i, hi, hea, -, -, hma, hla⟩ := instr_of_classified ha
  obtain ⟨j, hj, heb, -, -, hmb, -⟩ := instr_of_classified hb
  have hrun : ∀ args, runOpcode keccak a args = i.exec keccak args := by
    intro args
    funext s
    rw [runOpcode, hi, Option.bind_some]
  have hrun' : ∀ args, runOpcode keccak b args = j.exec keccak args := by
    intro args
    funext s
    rw [runOpcode, hj, Option.bind_some]
  have htouch : ∀ args, touches a args = i.touched args := fun args => by simp [touches, hi]
  have htouch' : ∀ args, touches b args = j.touched args := fun args => by simp [touches, hj]
  simp only [hrun, hrun', htouch, htouch', ← hea, ← heb, ← hma, ← hmb, ← hla]
  refine ⟨?_, ?_, ?_⟩
  · intro args s s' r h
    exact framed_iff h
  · intro args s t s' t' r q hst h h'
    exact sameChanges_iff hst h h'
  · intro args args' s s' r q hab h
    exact both_comm_iff hab h

/-- `MSTORE` and `SLOAD` in a fresh frame: both orders leave the same. -/
theorem Effects.sound_mstore_sload :
    both (runOpcode (fun _ => 0) (op "SLOAD" 0x54 1 1 false .storage .frontier) [0])
      (runOpcode (fun _ => 0) (op "MSTORE" 0x52 2 0 false .memory .frontier) [0, 7]) default =
    some ({ (default : State) with
      memory := writeBytes (fun _ => 0) 0 (BigEndian.toBytes 32 7), words := 1 }, [0], []) :=
  ((Effects.sound_iff (fun _ => 0) (op "MSTORE" 0x52 2 0 false .memory .frontier)
    (op "SLOAD" 0x54 1 1 false .storage .frontier)
    ⟨⟨⟨"MSTORE", by decide +kernel⟩, by decide +kernel⟩, by decide, by decide⟩
    ⟨⟨⟨"SLOAD", by decide +kernel⟩, by decide +kernel⟩, by decide, by decide⟩).2.2 [0, 7] [0] default _ [] [0]
    (by intro c; cases c <;> decide) rfl).mpr (by decide)

/-- `MLOAD` in a fresh frame makes a word active without the flag to write memory, and `MSIZE` tells. -/
theorem Effects.sound_fails :
    Classified (op "MLOAD" 0x51 1 1 false .memory .frontier) ∧
    Classified (op "MSIZE" 0x59 0 1 false .memory .frontier) ∧
    runOpcode (fun _ => 0) (op "MLOAD" 0x51 1 1 false .memory .frontier) [0] default =
      some ({ (default : State) with words := 1 }, [0]) ∧
    ¬ (ofOpcode (op "MLOAD" 0x51 1 1 false .memory .frontier)).Framed default { (default : State) with words := 1 } ∧
    (ofOpcode (op "MLOAD" 0x51 1 1 false .memory .frontier)).Apart
      (ofOpcode (op "MSIZE" 0x59 0 1 false .memory .frontier)) ∧
    both (runOpcode (fun _ => 0) (op "MLOAD" 0x51 1 1 false .memory .frontier) [0])
      (runOpcode (fun _ => 0) (op "MSIZE" 0x59 0 1 false .memory .frontier) []) default =
      some ({ (default : State) with words := 1 }, [0], [32]) ∧
    both (runOpcode (fun _ => 0) (op "MSIZE" 0x59 0 1 false .memory .frontier) [])
      (runOpcode (fun _ => 0) (op "MLOAD" 0x51 1 1 false .memory .frontier) [0]) default =
      some ({ (default : State) with words := 1 }, [0], [0]) := by
  refine ⟨⟨⟨⟨"MLOAD", by decide +kernel⟩, by decide +kernel⟩, by decide, by decide⟩,
    ⟨⟨⟨"MSIZE", by decide +kernel⟩, by decide +kernel⟩, by decide, by decide⟩, rfl, ?_, ?_, rfl, rfl⟩
  · intro h
    exact absurd (congrArg Prod.snd (h .memory (by decide))) (by decide)
  · intro c
    cases c <;> decide

end RustEvm.Ir
