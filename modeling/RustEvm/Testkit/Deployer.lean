import RustEvm.Asm.Widths
import RustEvm.Evm.Control
import RustEvm.Lib.Ascent

/-!
# RustEvm.Testkit.Deployer — wrapping runtime code in initcode

`deployer` assembles a prologue that names its own length, again and again until the length it names is the length it
has.  The lengths only grow and are bounded, so the loop ends; the code it ends with, run from its start, returns the
runtime code (`deployer_deploys`).
-/

namespace RustEvm.Testkit

open Isa Codegen Evm BigEndian Frames Ascent Stepping

/-- `Immediate::from` a `u64`. -/
def immediateOfU64 (v : BitVec 64) : Immediate := ⟨.ofNat 32 v.toNat⟩

theorem ofU64_eq (v : BitVec 64) : Immediate.ofU64 v = some (immediateOfU64 v) :=
  Immediate.ofInt_eq (n := 8) (by norm_num) v

/-- The calls that write the prologue; `len` and `offset` are cast `as u64`. -/
def prologueCalls (len offset : ℕ) : List Call :=
  [.push (immediateOfU64 (.ofNat 64 len)), .dup 1, .push (immediateOfU64 (.ofNat 64 offset)),
    .push (immediateOfU64 0), .op "CODECOPY", .push (immediateOfU64 0), .op "RETURN"]

def assemblePrologue (len offset : ℕ) (fork : Fork) : Except AsmError (List UInt8) :=
  (run fork (prologueCalls len offset)).finish

/-- The loop of `deployer` from an offset on, for at most so many turns; `none` when they are used up.  `assemble` is
`assemble_prologue` at the length of the runtime code and the fork. -/
def deployerLoop (assemble : ℕ → Except AsmError (List UInt8)) (runtime : List UInt8) :
    ℕ → ℕ → Option (Except AsmError (List UInt8))
  | 0, _ => none
  | turns + 1, offset =>
    match assemble offset with
    | .error e => some (.error e)
    | .ok prologue =>
      if prologue.length = offset then some (.ok (prologue ++ runtime))
      else deployerLoop assemble runtime turns prologue.length

/-- Initcode that deploys `runtime` verbatim. -/
def deployer (runtime : List UInt8) (fork : Fork) (turns : ℕ) : Option (Except AsmError (List UInt8)) :=
  deployerLoop (fun offset => assemblePrologue runtime.length offset fork) runtime turns 0

/-! ## The loop ends -/

section

variable {assemble : ℕ → Except AsmError (List UInt8)} {runtime : List UInt8}

theorem deployerLoop_succ {prologue : List UInt8} {offset : ℕ} (h : assemble offset = .ok prologue) (turns : ℕ) :
    deployerLoop assemble runtime (turns + 1) offset =
      if prologue.length = offset then some (.ok (prologue ++ runtime))
      else deployerLoop assemble runtime turns prologue.length := by
  rw [deployerLoop, h]

/-- **The loop ends**, with a prologue as long as the offset it was assembled for, when prologues only grow with the
offset and are bounded. -/
theorem deployerLoop_ends (runtime : List UInt8) {prologue : ℕ → List UInt8} {bound : ℕ}
    (h : ∀ n, assemble n = .ok (prologue n))
    (hc : Climbs (fun n => (prologue n).length) bound) :
    ∃ offset turns, offset ≤ bound ∧ (prologue offset).length = offset ∧
      ∀ n, turns ≤ n → deployerLoop assemble runtime n 0 = some (.ok (prologue offset ++ runtime)) := by
  refine hc.ascend (P := fun start => ∃ offset turns, offset ≤ bound ∧ (prologue offset).length = offset ∧
    ∀ n, turns ≤ n → deployerLoop assemble runtime n start = some (.ok (prologue offset ++ runtime))) ?_ ?_
  · intro offset hle hfix
    refine ⟨offset, 1, hle, hfix, fun n hn => ?_⟩
    obtain ⟨n, rfl⟩ := Nat.exists_eq_add_of_le' hn
    rw [deployerLoop_succ (h offset), if_pos hfix]
  · rintro start hle hlt ⟨offset, turns, hle', hfix, hloop⟩
    refine ⟨offset, turns + 1, hle', hfix, fun n hn => ?_⟩
    obtain ⟨n, rfl⟩ := Nat.exists_eq_add_of_le' (show 1 ≤ n by omega)
    rw [deployerLoop_succ (h start), if_neg hlt.ne']
    exact hloop n (by omega)

end

/-! ## The prologue -/

theorem value_immediateOfU64 {n : ℕ} (h : n < 2 ^ 64) : (immediateOfU64 (.ofNat 64 n)).value = n := by
  rw [Immediate.value, immediateOfU64, BitVec.toNat_ofNat, Nat.mod_eq_of_lt h]
  exact FixedBytes.toNat_ofNat (h.trans (by norm_num))

/-- The instructions of the prologue. -/
def prologueFrames (len offset : ℕ) (fork : Fork) : List (Frame UInt8) :=
  [pushFrame fork (immediateOfU64 (.ofNat 64 len)), ⟨0x80, []⟩, pushFrame fork (immediateOfU64 (.ofNat 64 offset)),
    pushFrame fork (immediateOfU64 0), ⟨0x39, []⟩, pushFrame fork (immediateOfU64 0), ⟨0xf3, []⟩]

theorem emits_prologue (len offset : ℕ) (fork : Fork) :
    List.Forall₂ (Emits fork) (prologueCalls len offset) (prologueFrames len offset fork) := by
  have hcopy : byMnemonic "CODECOPY" = some (op "CODECOPY" 0x39 3 0 false .context .frontier) := by decide +kernel
  have hreturn : byMnemonic "RETURN" = some (op "RETURN" 0xf3 2 0 true .terminating .frontier) := by decide +kernel
  exact .cons (emits_push _ _) <| .cons (emits_dup _ (by decide)) <| .cons (emits_push _ _) <| .cons (emits_push _ _) <|
    .cons (emits_op hcopy (by decide) (Fork.frontier_le _)) <| .cons (emits_push _ _) <|
    .cons (emits_op hreturn (by decide) (Fork.frontier_le _)) .nil

/-- The bytes of the prologue. -/
def prologueBytes (len : ℕ) (fork : Fork) (offset : ℕ) : List UInt8 :=
  (prologueFrames len offset fork).flatMap Frame.toList

theorem assemblePrologue_eq (len offset : ℕ) (fork : Fork) :
    assemblePrologue len offset fork = .ok (prologueBytes len fork offset) :=
  finish_emits (emits_prologue len offset fork)

theorem length_prologueBytes (len offset : ℕ) (fork : Fork) :
    (prologueBytes len fork offset).length = 3 + (pushFrame fork (immediateOfU64 (.ofNat 64 len))).toList.length +
      2 * (pushFrame fork (immediateOfU64 0)).toList.length +
      (pushFrame fork (immediateOfU64 (.ofNat 64 offset))).toList.length := by
  simp only [prologueBytes, prologueFrames, List.flatMap_cons, List.flatMap_nil, List.length_append, Frame.toList,
    List.length_cons, List.length_nil]
  omega

/-- The length grows with the offset, and four pushes bound it. -/
theorem climbs_prologueBytes (len : ℕ) (fork : Fork) : Climbs (fun n => (prologueBytes len fork n).length) 135 where
  mono m n hmn hn := by
    have h := length_pushFrame_mono fork (i := immediateOfU64 (.ofNat 64 m)) (j := immediateOfU64 (.ofNat 64 n))
      (by rwa [value_immediateOfU64 (by omega), value_immediateOfU64 (by omega)])
    rw [length_prologueBytes, length_prologueBytes]
    omega
  le n _ := by
    have h₁ := length_pushFrame_le fork (immediateOfU64 (.ofNat 64 len))
    have h₂ := length_pushFrame_le fork (immediateOfU64 0)
    have h₃ := length_pushFrame_le fork (immediateOfU64 (.ofNat 64 n))
    rw [length_prologueBytes]
    omega

/-! ## Running the initcode -/

section

variable (keccak : List UInt8 → Word) {fork : Fork}

/-- A pushed number is on the stack, and what stands behind the push is next. -/
theorem step_pushFrame {m : Running} {value : Immediate} {l : List UInt8}
    (h : m.rest = (pushFrame fork value).toList ++ l) (hs : m.stack.length < 1024) :
    m.GoesTo keccak fork (BitVec.ofNat 256 value.value :: m.stack) m.state l := by
  obtain ⟨hhead, hle, hvalue, spec, hrow, hfork⟩ := pushFrame_spec fork value
  rw [← hvalue]
  exact Running.step_push keccak fork h hhead hle (Running.available_of_row hrow hfork) hs

/-- **The initcode returns the runtime code.** -/
theorem steps_initcode {runtime : List UInt8} {offset : ℕ} (hlen : runtime.length < 2 ^ 64) (hoff : offset < 2 ^ 64)
    (hfix : (prologueBytes runtime.length fork offset).length = offset) (s : State)
    (hcode : s.context.code = prologueBytes runtime.length fork offset ++ runtime) :
    Running.steps keccak fork 7 ⟨0, [], s⟩ = .returned runtime := by
  have hword : ∀ n < 2 ^ 64, (BitVec.ofNat 256 (immediateOfU64 (.ofNat 64 n)).value).toNat = n := by
    intro n hn
    rw [value_immediateOfU64 hn, BitVec.toNat_ofNat, Nat.mod_eq_of_lt (hn.trans (by norm_num))]
  have hzero : (BitVec.ofNat 256 (immediateOfU64 0).value).toNat = 0 := hword 0 (by norm_num)
  have hslice : slice s.context.code offset runtime.length = runtime := by
    refine Running.slice_of_drop (l := []) ?_
    rw [hcode, List.append_nil, List.drop_left' hfix]
  have h₀ : Running.rest ⟨0, [], s⟩ = prologueBytes runtime.length fork offset ++ runtime := hcode
  simp only [prologueBytes, prologueFrames, List.flatMap_cons, List.flatMap_nil, List.append_assoc] at h₀
  obtain ⟨pc₁, hpush₁, h₁⟩ := step_pushFrame keccak h₀ (by simp)
  obtain ⟨pc₂, hdup₂, h₂⟩ := Running.step_dup1 keccak fork h₁ rfl (by simp)
  obtain ⟨pc₃, hpush₃, h₃⟩ := step_pushFrame keccak h₂ (by simp)
  obtain ⟨pc₄, hpush₄, h₄⟩ := step_pushFrame keccak h₃ (by simp)
  obtain ⟨pc₅, hcopy₅, h₅⟩ := Running.step_codecopy keccak fork h₄ rfl (by simp)
  obtain ⟨pc₆, hpush₆, h₆⟩ := step_pushFrame keccak h₅ (by simp)
  have hreturn := Running.step_return keccak fork h₆ rfl
  rw [Running.steps_of_step hpush₁, Running.steps_of_step hdup₂, Running.steps_of_step hpush₃,
    Running.steps_of_step hpush₄, Running.steps_of_step hcopy₅, Running.steps_of_step hpush₆, Running.steps, hreturn]
  simp only [hword _ hlen, hword _ hoff, hzero, hslice, readMemory_writeBytes]

end

/-! ## The result -/

/-- The prologue pushes the length of the runtime code and its own, and in front of the runtime code it returns it. -/
structure Deploys (keccak : List UInt8 → Word) (fork : Fork) (runtime prologue : List UInt8) : Prop where
  pushes : ∃ pushLen dup pushOffset others, disassemble prologue = pushLen :: dup :: pushOffset :: others ∧
    pushLen.mnemonic = "PUSH" ++ toString pushLen.immediate.length ∧ ofBytes pushLen.immediate = runtime.length ∧
    pushOffset.mnemonic = "PUSH" ++ toString pushOffset.immediate.length ∧
    ofBytes pushOffset.immediate = prologue.length
  returns : ∀ s : State, s.context.code = prologue ++ runtime →
    ∃ n, Running.steps keccak fork n ⟨0, [], s⟩ = .returned runtime
  /-- So it does as the code of a whole frame, in any surroundings. -/
  ends : ∀ ext, ∀ s : State, s.context.code = prologue ++ runtime →
    ∃ s', Ends (Running.advance keccak ext fork) ⟨0, [], s⟩ (.returned runtime, s')

/-- What decoding the prologue gives. -/
theorem disassemble_prologue (len offset : ℕ) (fork : Fork) :
    ∃ pushLen dup pushOffset others,
      disassemble (prologueBytes len fork offset) = pushLen :: dup :: pushOffset :: others ∧
      (Call.push (immediateOfU64 (.ofNat 64 len))).DecodesTo pushLen ∧
      (Call.push (immediateOfU64 (.ofNat 64 offset))).DecodesTo pushOffset := by
  have h := disassemble_finish (assemblePrologue_eq len offset fork)
  simp only [prologueCalls, emitted, Call.emits, if_true] at h
  obtain ⟨pushLen, rest, h₁, htail, heq⟩ := List.forall₂_cons_left_iff.mp h
  obtain ⟨dup, rest', -, htail', rfl⟩ := List.forall₂_cons_left_iff.mp htail
  obtain ⟨pushOffset, others, h₂, -, rfl⟩ := List.forall₂_cons_left_iff.mp htail'
  exact ⟨pushLen, dup, pushOffset, others, heq, h₁.decodes, h₂.decodes⟩

/-- **`deployer` ends, on every fork and for every runtime code, with initcode that deploys it verbatim.** -/
theorem deployer_deploys (keccak : List UInt8 → Word) (fork : Fork) (runtime : List UInt8)
    (hlen : runtime.length < 2 ^ 64) :
    ∃ prologue turns, (∀ n, turns ≤ n → deployer runtime fork n = some (.ok (prologue ++ runtime))) ∧
      Deploys keccak fork runtime prologue := by
  obtain ⟨offset, turns, hle, hfix, hloop⟩ := deployerLoop_ends runtime
    (fun n => assemblePrologue_eq runtime.length n fork) (climbs_prologueBytes runtime.length fork)
  have hoff : offset < 2 ^ 64 := by omega
  obtain ⟨pushLen, dup, pushOffset, others, hdis, hpush, hpush'⟩ := disassemble_prologue runtime.length offset fork
  refine ⟨_, turns, hloop, ⟨⟨pushLen, dup, pushOffset, others, hdis, hpush.1, ?_, hpush'.1, ?_⟩, ?_, ?_⟩⟩
  · rw [hpush.2, value_immediateOfU64 hlen]
  · rw [hpush'.2, value_immediateOfU64 hoff, hfix]
  · exact fun s hcode => ⟨7, steps_initcode keccak hlen hoff hfix s hcode⟩
  · exact fun ext s hcode => ends_of_steps (steps_initcode keccak hlen hoff hfix s hcode)

theorem deployer_deploys_stop :
    ∃ prologue turns, (∀ n, turns ≤ n → deployer [0x00] .london n = some (.ok (prologue ++ [0x00]))) ∧
      Deploys (fun _ => 0) .london [0x00] prologue :=
  deployer_deploys (fun _ => 0) .london [0x00] (by decide)

end RustEvm.Testkit
