import Mathlib.Data.Nat.Size
import RustEvm.Asm.Reassembly

/-!
# RustEvm.Asm.Widths — how wide an immediate is

`bitWidth` is the `u16` arithmetic of the source with its overflows.  It never overflows and is the size of the number
in bits (`bitWidth_eq`), and `width` is its size in bytes (`width_eq`).  What `push` emits is one `PUSH` of the number,
and no `PUSH` of it that the fork has is shorter (`pushesLeast`).
-/

namespace RustEvm.Codegen

open Isa BigEndian Frames Panic

namespace Immediate

/-- Significant bits, counted in a `u16`. -/
def bitWidth (imm : Immediate) : Option ℕ :=
  match imm.be.1.findIdx? (fun b => b != 0) with
  | some first => do
    let bytes ← minus 32 first
    let bits ← timesWithin (2 ^ 16) (bytes % 2 ^ 16) 8
    let byte ← imm.be.1[first]?
    minus bits (byte.toBitVec.clz.toNat % 2 ^ 16)
  | none => some 0

def isZero (imm : Immediate) : Bool := imm.width == 0

/-! ## Sizes -/

theorem pow_bytes (k : ℕ) : 256 ^ k = 2 ^ (8 * k) := by
  rw [pow_mul]
  norm_num

/-- The size of a number that is not zero is where the powers of two enclose it. -/
theorem enclosed_iff {n k : ℕ} (h : n ≠ 0) : 2 ^ (k - 1) ≤ n ∧ n < 2 ^ k ↔ k = Nat.size n := by
  rw [← Nat.lt_size, ← Nat.size_le]
  have hpos := Nat.size_pos.mpr (Nat.pos_of_ne_zero h)
  omega

/-- A byte between the powers of two that its leading zeros say. -/
theorem enclosed_byte {b : UInt8} (h : b ≠ 0) :
    b.toBitVec.clz.toNat ≤ 7 ∧ 2 ^ (7 - b.toBitVec.clz.toNat) ≤ b.toNat ∧ b.toNat < 2 ^ (8 - b.toBitVec.clz.toNat) := by
  have hne : b.toBitVec ≠ 0#8 := fun h0 => h (UInt8.toBitVec_inj.mp h0)
  have hlt : b.toBitVec.clz.toNat < 8 := BitVec.lt_def.mp (BitVec.clz_lt_iff_ne_zero.mpr hne)
  refine ⟨by omega, ?_, BitVec.toNat_lt_two_pow_sub_clz⟩
  exact BitVec.two_pow_sub_clz_le_toNat_of_ne_zero (by norm_num) hne

/-- The leading zeros of the leading byte leave as many bits as the number has. -/
theorem LeadingByte.size_eq {imm : Immediate} {first : ℕ} {b : UInt8} (h : imm.LeadingByte first b) :
    Nat.size imm.value = (32 - first) * 8 - b.toBitVec.clz.toNat := by
  obtain ⟨hclz, hlow, hhigh⟩ := enclosed_byte h.ne_zero
  have hlt := h.lt
  have hle : 2 ^ (7 - b.toBitVec.clz.toNat + 8 * (31 - first)) ≤ imm.value := by
    rw [pow_add, ← pow_bytes]
    exact (Nat.mul_le_mul_right _ hlow).trans h.le_value
  have hgt : imm.value < 2 ^ (8 - b.toBitVec.clz.toNat + 8 * (31 - first)) := by
    rw [pow_add, ← pow_bytes]
    exact h.value_lt.trans_le (Nat.mul_le_mul_right _ hhigh)
  have h1 := Nat.lt_size.mpr hle
  have h2 := Nat.size_le.mpr hgt
  omega

/-- **The width in bits** is computed without an overflow, and is the size of the number. -/
theorem bitWidth_eq (imm : Immediate) : imm.bitWidth = some (Nat.size imm.value) := by
  unfold bitWidth
  cases hf : imm.be.1.findIdx? (fun b => b != 0) with
  | none =>
    have hw : imm.width = 0 := by rw [width, hf]
    rw [value_of_width_eq_zero hw, Nat.size_zero]
  | some first =>
    obtain ⟨b, hb⟩ := leadingByte_of_found hf
    have hclz := (enclosed_byte hb.ne_zero).1
    have hlt := hb.lt
    have hbytes : (32 - first) % 2 ^ 16 = 32 - first := Nat.mod_eq_of_lt (by omega)
    have hzeros : b.toBitVec.clz.toNat % 2 ^ 16 = b.toBitVec.clz.toNat := Nat.mod_eq_of_lt (by omega)
    simp only [Option.bind_eq_bind, minus_eq_some hlt.le, Option.bind_some, hbytes,
      timesWithin_eq_some (show (32 - first) * 8 < 2 ^ 16 by omega), hb.get, hzeros]
    rw [minus_eq_some (by omega), hb.size_eq]

/-- **The width in bytes** is the width in bits, rounded up. -/
theorem width_eq (imm : Immediate) : imm.width = (Nat.size imm.value + 7) / 8 := by
  have hle : Nat.size imm.value ≤ 8 * imm.width := Nat.size_le.mpr (pow_bytes _ ▸ imm.value_lt)
  by_cases hw : imm.width = 0
  · omega
  · have hlt : 8 * (imm.width - 1) < Nat.size imm.value := Nat.lt_size.mpr (pow_bytes _ ▸ le_value hw)
    omega

theorem isZero_iff {imm : Immediate} : imm.isZero = true ↔ imm.value = 0 := by
  have hsize : Nat.size imm.value = 0 ↔ imm.value = 0 := Nat.size_eq_zero
  rw [isZero, beq_iff_eq, imm.width_eq, ← hsize]
  omega

/-! ## Conversions -/

/-- The conversion from an unsigned integer of `n` bytes: its big-endian bytes at the end of a zero word. -/
def ofInt (n : ℕ) (v : BitVec (8 * n)) : Option Immediate := do
  let w := List.replicate 32 0
  let b := toBytes n v.toNat
  let start ← minus 32 b.length
  let dst ← slice w start w.length
  let copied ← copyFromSlice dst.length b
  return ⟨FixedBytes.copyFrom 32 (w.take start ++ copied.1)⟩

def ofU8 : BitVec 8 → Option Immediate := ofInt 1
def ofU16 : BitVec 16 → Option Immediate := ofInt 2
def ofU32 : BitVec 32 → Option Immediate := ofInt 4
def ofU64 : BitVec 64 → Option Immediate := ofInt 8
def ofU128 : BitVec 128 → Option Immediate := ofInt 16

/-- **An integer converts without a panic**, to the word of its number. -/
theorem ofInt_eq {n : ℕ} (hn : n ≤ 32) (v : BitVec (8 * n)) : ofInt n v = some ⟨.ofNat 32 v.toNat⟩ := by
  have hlt : v.toNat < 256 ^ n := pow_bytes n ▸ v.isLt
  have hword : toBytes 32 v.toNat = List.replicate (32 - n) 0 ++ toBytes n v.toNat := by
    rw [← toBytes_of_lt hlt, Nat.sub_add_cancel hn]
  have hcopy : FixedBytes.copyFrom 32 (List.replicate (32 - n) 0 ++ toBytes n v.toNat) = .ofNat 32 v.toNat :=
    Subtype.ext ((FixedBytes.copyFrom_eq (by rw [← hword, length_toBytes])).trans hword.symm)
  have hdst : (toBytes n v.toNat).length = ((List.replicate 32 (0 : UInt8)).drop (32 - n)).length := by
    rw [length_toBytes, List.length_drop, List.length_replicate]
    omega
  have hslice : slice (List.replicate 32 (0 : UInt8)) (32 - n) (List.replicate 32 (0 : UInt8)).length =
      some ((List.replicate 32 0).drop (32 - n)) := slice_from (by rw [List.length_replicate]; omega)
  simp only [ofInt, Option.bind_eq_bind, length_toBytes, minus_eq_some hn, Option.bind_some, hslice,
    copyFromSlice_eq_some hdst, List.take_replicate, Nat.min_eq_left (Nat.sub_le 32 n), hcopy]
  rfl

/-- A conversion that keeps the number. -/
def Preserves {w : ℕ} (conversion : BitVec w → Option Immediate) : Prop :=
  ∀ v, ∃ imm, conversion v = some imm ∧ imm.value = v.toNat

theorem preserves_ofInt {n : ℕ} (hn : n ≤ 32) : Preserves (ofInt n) := by
  intro v
  refine ⟨_, ofInt_eq hn v, FixedBytes.toNat_ofNat ?_⟩
  rw [pow_bytes]
  exact v.isLt.trans_le (Nat.pow_le_pow_right (by norm_num) (by omega))

end Immediate

/-! ## The shortest push -/

/-- The bytes of one whole `PUSH` of the number that the fork has. -/
def IsPushOf (fork : Fork) (n : ℕ) (bytes : List UInt8) : Prop :=
  ∃ i, disassemble bytes = [i] ∧ Available fork i ∧ i.isPush = true ∧ ofBytes i.immediate = n

/-- `push` appends the bytes, one `PUSH` of the number, and the fork has none that is shorter. -/
structure PushesLeast (fork : Fork) (imm : Immediate) (bytes : List UInt8) : Prop where
  emitted : ∀ a : Asm, a.fork = fork → a.error = none → a.push imm = { a with code := a.code ++ bytes }
  one : IsPushOf fork imm.value bytes
  least : ∀ bytes', IsPushOf fork imm.value bytes' → bytes.length ≤ bytes'.length
  zero : imm.value = 0 → bytes = if fork < .shanghai then [0x60, 0] else [0x5f]

theorem disassemble_toList {f : Frame UInt8} (h : f.Complete immediateWidthOf) :
    disassemble f.toList = [.ofFrame (0, f)] := by
  have hd : disassemble ([f].flatMap Frame.toList) = (located 0 [f]).map Instruction.ofFrame :=
    disassemble_flatMap (by simpa using h)
  rwa [List.flatMap_singleton] at hd

/-- **`push` emits the shortest `PUSH`** of the number. -/
theorem pushesLeast (fork : Fork) (imm : Immediate) : PushesLeast fork imm (pushFrame fork imm).toList where
  emitted := by
    rintro a rfl he
    have hstep := Asm.step_eq he (.push imm)
    rw [item_push] at hstep
    exact hstep.trans (Asm.emit_instr a _ _)
  one := by
    refine ⟨_, disassemble_toList (legal_pushFrame fork imm).complete, .of_legal (legal_pushFrame fork imm) 0,
      isPush_pushFrame fork imm 0, ?_⟩
    exact (pushFrame_spec fork imm).2.2.1
  least := by
    rintro bytes' ⟨j, hj, havail, hpush, hvalue⟩
    have hall : ∀ i ∈ disassemble bytes', Available fork i := by simpa [hj] using havail
    have hfits : Fits fork j := fits_of_mem hall j (by simp [hj]) hpush
    have hsize : j.size = bytes'.length := by
      have hsum := (tiles_disassemble bytes').sizes
      rwa [hj, List.map_singleton, List.sum_singleton] at hsum
    have hle : (pushFrame fork imm).payload.length ≤ j.immediate.length := by
      by_contra hlt
      have hbig := narrow_pushFrame fork imm 0 j.immediate.length (Nat.not_le.mp hlt) hfits.available
      have hsame : ofBytes (pushFrame fork imm).payload = imm.value := (pushFrame_spec fork imm).2.2.1
      exact absurd (ofBytes_lt j.immediate) (Nat.not_lt.mpr (hvalue ▸ hsame ▸ hbig))
    rw [← hsize, Frame.length_toList, Instruction.size]
    omega
  zero := by
    intro hzero
    have hw : imm.width = 0 := by rw [imm.width_eq, hzero, Nat.size_zero]
    rw [pushFrame, if_pos hw]
    split_ifs <;> rfl

/-! ## The widths -/

/-- The width in bits is exact, and the width in bytes is the one in bits rounded up. -/
def ExactWidths (imm : Immediate) : Prop :=
  ∃ b, imm.bitWidth = some b ∧ (imm.value = 0 → b = 0) ∧
    (imm.value ≠ 0 → ∀ k, 2 ^ (k - 1) ≤ imm.value ∧ imm.value < 2 ^ k ↔ k = b) ∧ imm.width = (b + 7) / 8

theorem exactWidths (imm : Immediate) : ExactWidths imm := by
  refine ⟨_, imm.bitWidth_eq, fun h => ?_, fun h k => Immediate.enclosed_iff h, imm.width_eq⟩
  rw [h, Nat.size_zero]

/-- **Widths are exact, conversions keep the number and `push` is minimal.** -/
theorem widths_exact_and_push_minimal :
    (∀ imm, ExactWidths imm) ∧
    (Immediate.Preserves Immediate.ofU8 ∧ Immediate.Preserves Immediate.ofU16 ∧ Immediate.Preserves Immediate.ofU32 ∧
      Immediate.Preserves Immediate.ofU64 ∧ Immediate.Preserves Immediate.ofU128) ∧
    ∀ (fork : Fork) (imm : Immediate), ∃ bytes, PushesLeast fork imm bytes := by
  refine ⟨exactWidths, ⟨?_, ?_, ?_, ?_, ?_⟩, fun fork imm => ⟨_, pushesLeast fork imm⟩⟩
  · exact Immediate.preserves_ofInt (n := 1) (by norm_num)
  · exact Immediate.preserves_ofInt (n := 2) (by norm_num)
  · exact Immediate.preserves_ofInt (n := 4) (by norm_num)
  · exact Immediate.preserves_ofInt (n := 8) (by norm_num)
  · exact Immediate.preserves_ofInt (n := 16) (by norm_num)

end RustEvm.Codegen
