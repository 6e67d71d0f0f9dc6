import RustEvm.Asm.Disasm

/-!
# RustEvm.Asm.Jumpdests — the legal jump targets

The machine finds its jump targets on bytes: it walks over the code, skipping the immediate of every `PUSH`, and
accepts the `0x5b` bytes it stands on (`ValidJump`).  The disassembler goes by table rows, families and mnemonics, and
comes to the same offsets (`jumpdests_valid`).
-/

namespace RustEvm.Codegen

open Isa Frames

/-! ## The analysis on bytes -/

/-- How far the walk steps from a byte: over `n` immediate bytes too, behind `0x5f + n` for `n` from 1 to 32. -/
def stride (b : UInt8) : ℕ := if 0x60 ≤ b.toNat ∧ b.toNat ≤ 0x7f then 1 + (b.toNat - 0x5f) else 1

/-- The offsets the walk visits. -/
inductive Walks (code : List UInt8) : ℕ → Prop
  | start : Walks code 0
  | step {i : ℕ} {b : UInt8} (h : Walks code i) (hb : code[i]? = some b) : Walks code (i + stride b)

/-- The offset is a valid jump destination. -/
def ValidJump (code : List UInt8) (i : ℕ) : Prop := Walks code i ∧ code[i]? = some 0x5b

/-! ## The table agrees with the bytes -/

/-- The table gives a `PUSH` byte its distance from `0x5f`, and no other byte an immediate. -/
theorem immediateWidthOf_of_row {b : UInt8} {spec : OpSpec} (h : byByte b = some spec) :
    immediateWidthOf b = if 0x60 ≤ b.toNat ∧ b.toNat ≤ 0x7f then b.toNat - 0x5f else 0 := by
  rw [immediateWidthOf, h, Option.map_some]
  obtain rfl := byte_of_byByte h
  have hrange : (0x60 ≤ spec.byte ∧ spec.byte ≤ 0x7f) ↔ 0x60 ≤ spec.byte.toNat ∧ spec.byte.toNat ≤ 0x7f := Iff.rfl
  unfold opForm
  by_cases hzero : spec.byte = 0x5f
  · rw [if_pos hzero, hzero]
    rfl
  · rw [if_neg hzero]
    by_cases hpush : 0x60 ≤ spec.byte ∧ spec.byte ≤ 0x7f
    · rw [if_pos hpush, if_pos (hrange.mp hpush)]
      exact UInt8.toNat_sub_of_le _ _ (UInt8.le_trans (by decide) hpush.1)
    · rw [if_neg hpush, if_neg fun h => hpush (hrange.mpr h)]
      split_ifs <;> rfl

/-- The walk steps over what the disassembler takes for an immediate. -/
theorem stride_eq (b : UInt8) : stride b = 1 + immediateWidthOf b := by
  cases hrow : byByte b with
  | some spec =>
    rw [immediateWidthOf_of_row hrow, stride]
    split_ifs <;> rfl
  | none =>
    have hnot : ¬ (0x60 ≤ b.toNat ∧ b.toNat ≤ 0x7f) := by
      rintro ⟨hlo, hhi⟩
      have hpush := byByte_push (n := b.toNat - 0x5f) (by omega) (by omega)
      have hb : (0x5f : UInt8) + UInt8.ofNat (b.toNat - 0x5f) = b := by
        rw [← UInt8.toNat_inj, UInt8.toNat_add, UInt8.toNat_ofNat']
        show (0x5f + _) % 2 ^ 8 = _
        omega
      rw [hb, hrow] at hpush
      exact absurd hpush (by simp)
    rw [immediateWidthOf, hrow, stride, if_neg hnot]
    rfl

theorem mnemonic_eq_iff : ∀ spec ∈ OPCODES, spec.mnemonic = "JUMPDEST" ↔ spec.byte = 0x5b := by
  decide +kernel

theorem mnemonic_eq_jumpdest_iff (f : ℕ × Frame UInt8) :
    (Instruction.ofFrame f).mnemonic = "JUMPDEST" ↔ f.2.head = 0x5b := by
  show (byByte f.2.head).elim UNKNOWN OpSpec.mnemonic = "JUMPDEST" ↔ _
  cases hrow : byByte f.2.head with
  | some spec => rw [Option.elim_some, mnemonic_eq_iff spec (byByte_mem hrow), byte_of_byByte hrow]
  | none =>
    have hjumpdest : byByte 0x5b ≠ none := by decide +kernel
    refine iff_of_false (by decide) fun hhead => ?_
    exact hjumpdest (hhead ▸ hrow)

theorem walks_iff {code : List UInt8} {i : ℕ} : Walks code i ↔ Visits immediateWidthOf code i := by
  constructor
  · intro h
    induction h with
    | start => exact .start
    | step _ hb ih =>
      rw [stride_eq, ← Nat.add_assoc]
      exact ih.step hb
  · intro h
    induction h with
    | start => exact .start
    | step _ hb ih =>
      rw [Nat.add_assoc, ← stride_eq]
      exact ih.step hb

/-! ## The disassembler's targets -/

/-- **The disassembler finds the valid jump destinations**, in increasing order. -/
theorem jumpdests_valid (code : List UInt8) :
    (jumpdests code).Pairwise (· < ·) ∧ ∀ i, i ∈ jumpdests code ↔ ValidJump code i := by
  constructor
  · rw [jumpdests, disassemble_eq_located, List.pairwise_map]
    refine List.Pairwise.filter _ (List.pairwise_map.mpr ?_)
    exact located_pairwise 0 _
  · intro i
    rw [ValidJump, walks_iff, visits_iff, jumpdests, disassemble_eq_located]
    simp only [List.mem_map, List.mem_filter, beq_iff_eq]
    constructor
    · rintro ⟨_, ⟨⟨⟨q, f⟩, hf, rfl⟩, hm⟩, rfl⟩
      exact ⟨f, hf, (mnemonic_eq_jumpdest_iff (q, f)).mp hm⟩
    · rintro ⟨f, hf, hhead⟩
      exact ⟨_, ⟨⟨(i, f), hf, rfl⟩, (mnemonic_eq_jumpdest_iff (i, f)).mpr hhead⟩, rfl⟩

end RustEvm.Codegen
