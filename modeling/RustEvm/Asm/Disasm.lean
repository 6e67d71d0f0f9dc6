import RustEvm.Isa.Table
import RustEvm.Lib.Frames

/-!
# RustEvm.Asm.Disasm — the disassembler

`Instructions` is the decoding iterator and `disassemble` collects what it yields.  The iterator reads the code as a
stream of self-delimiting frames, an opcode byte calling for `immediateWidthOf` payload bytes
(`disassemble_eq_located`); so decoding never runs out of steps and what is known of frames holds of instructions.
-/

namespace RustEvm.Codegen

open Isa Frames

/-- What a byte with no entry in the table is called. -/
def UNKNOWN : String := "INVALID"

/-- One decoded instruction. -/
structure Instruction where
  pc : ℕ
  opcode : UInt8
  /-- `none` for a byte the table has no entry for. -/
  spec : Option OpSpec
  /-- A `PUSH`'s immediate, as many bytes of it as were there. -/
  immediate : List UInt8
  /-- The code ended inside the immediate. -/
  truncated : Bool
  deriving DecidableEq

namespace Instruction

def mnemonic (i : Instruction) : String := i.spec.elim UNKNOWN OpSpec.mnemonic

/-- Bytes this instruction occupies. -/
def size (i : Instruction) : ℕ := 1 + i.immediate.length

/-- Immediate width this opcode carries. -/
def immediateWidth (i : Instruction) : ℕ :=
  match i.spec.map opForm with
  | some (.push n) => n.toNat
  | _ => 0

/-- Immediate bytes the opcode called for but the code did not have. -/
def missing (i : Instruction) : ℕ := i.immediateWidth - i.immediate.length

end Instruction

/-- Iterator over decoded instructions. -/
structure Instructions where
  code : List UInt8
  pc : ℕ

/-- Decode one instruction and step past it. -/
def Instructions.next (it : Instructions) : Option (Instruction × Instructions) :=
  match it.code[it.pc]? with
  | none => none
  | some opcode =>
    let spec := byByte opcode
    let wanted :=
      match spec.map opForm with
      | some (.push n) => n.toNat
      | _ => 0
    let start := it.pc + 1
    let taken := min wanted (it.code.length - start)
    some ({ pc := it.pc, opcode, spec, immediate := (it.code.drop start).take taken,
            truncated := decide (taken < wanted) },
      { it with pc := start + taken })

/-- What the iterator yields in at most `fuel` steps. -/
def Instructions.collect : ℕ → Instructions → List Instruction
  | 0, _ => []
  | fuel + 1, it =>
    match it.next with
    | none => []
    | some (i, it') => i :: it'.collect fuel

/-- Decode `code` from offset zero.  An instruction takes at least one byte, so `code.length` steps are enough. -/
def disassemble (code : List UInt8) : List Instruction := Instructions.collect code.length ⟨code, 0⟩

/-- Offsets in `code` that are legal jump targets. -/
def jumpdests (code : List UInt8) : List ℕ :=
  ((disassemble code).filter fun ins => ins.mnemonic == "JUMPDEST").map Instruction.pc

/-! ## Instructions as frames -/

/-- Payload bytes an opcode byte calls for. -/
def immediateWidthOf (b : UInt8) : ℕ :=
  match (byByte b).map opForm with
  | some (.push n) => n.toNat
  | _ => 0

/-- The instruction a located frame decodes to. -/
def Instruction.ofFrame (f : ℕ × Frame UInt8) : Instruction :=
  { pc := f.1, opcode := f.2.head, spec := byByte f.2.head, immediate := f.2.payload,
    truncated := decide (f.2.payload.length < immediateWidthOf f.2.head) }

@[simp] theorem Instruction.ofFrame_pc (f : ℕ × Frame UInt8) : (Instruction.ofFrame f).pc = f.1 := rfl

theorem Instruction.ofFrame_size (f : ℕ × Frame UInt8) : (Instruction.ofFrame f).size = f.2.toList.length := by
  simp [Instruction.ofFrame, Instruction.size, Nat.add_comm]

theorem Instructions.next_eq_none {it : Instructions} (h : it.code.length ≤ it.pc) : it.next = none := by
  unfold Instructions.next
  rw [List.getElem?_eq_none h]

/-- One step of the iterator reads the frame at its position. -/
theorem Instructions.next_eq_some {code : List UInt8} {pc : ℕ} {b : UInt8} {rest : List UInt8}
    (h : code.drop pc = b :: rest) :
    (⟨code, pc⟩ : Instructions).next =
      some (.ofFrame (pc, ⟨b, rest.take (immediateWidthOf b)⟩),
        ⟨code, pc + 1 + min (immediateWidthOf b) rest.length⟩) := by
  have hlt : pc < code.length := by
    by_contra hge
    rw [List.drop_eq_nil_of_le (by omega)] at h
    exact absurd h (by simp)
  rw [List.drop_eq_getElem_cons hlt, List.cons.injEq] at h
  obtain ⟨hb, hrest⟩ := h
  have hlen : rest.length = code.length - (pc + 1) := by rw [← hrest, List.length_drop]
  unfold Instructions.next
  simp only [List.getElem?_eq_getElem hlt, hb, hrest, ← hlen]
  refine congrArg some (Prod.ext ?_ rfl)
  simp only [Instruction.ofFrame, Instruction.mk.injEq, true_and]
  constructor
  · exact (List.take_eq_take_min).symm
  · simp [immediateWidthOf]

/-- With enough steps the iterator yields the frames of the rest of the code. -/
theorem Instructions.collect_eq_located (code : List UInt8) :
    ∀ (fuel pc : ℕ), code.length - pc ≤ fuel →
      Instructions.collect fuel ⟨code, pc⟩ =
        (located pc (split immediateWidthOf (code.drop pc))).map Instruction.ofFrame
  | 0, pc, h => by rw [List.drop_eq_nil_of_le (by omega)]; simp [Instructions.collect]
  | fuel + 1, pc, h => by
    cases hd : code.drop pc with
    | nil =>
      have hle : code.length ≤ pc := List.drop_eq_nil_iff.mp hd
      have hnext : (⟨code, pc⟩ : Instructions).next = none := Instructions.next_eq_none hle
      simp [Instructions.collect, hnext]
    | cons b rest =>
      have hrest : code.drop (pc + 1) = rest := by rw [← List.drop_drop, hd]; rfl
      have hlen : rest.length = code.length - (pc + 1) := by rw [← hrest, List.length_drop]
      have hnext : code.drop (pc + 1 + min (immediateWidthOf b) rest.length) = rest.drop (immediateWidthOf b) := by
        rw [← List.drop_drop, hrest]
        rcases Nat.le_total (immediateWidthOf b) rest.length with hle | hle
        · rw [Nat.min_eq_left hle]
        · rw [Nat.min_eq_right hle, List.drop_length, List.drop_eq_nil_of_le hle]
      rw [Instructions.collect, Instructions.next_eq_some hd]
      simp only
      rw [Instructions.collect_eq_located code fuel _ (by omega), hnext, split_cons, located_cons]
      simp [Nat.add_comm, Nat.add_assoc]

/-- **Decoding reads frames**: the instructions of `code` are its frames, each at the offset where it starts. -/
theorem disassemble_eq_located (code : List UInt8) :
    disassemble code = (located 0 (split immediateWidthOf code)).map Instruction.ofFrame := by
  have h := Instructions.collect_eq_located code code.length 0 (by omega)
  rwa [List.drop_zero] at h

/-- An instruction of `code` is read from one of its frames. -/
theorem exists_frame_of_mem {code : List UInt8} {i : Instruction} (h : i ∈ disassemble code) :
    ∃ q, ∃ f ∈ split immediateWidthOf code, Instruction.ofFrame (q, f) = i := by
  rw [disassemble_eq_located] at h
  obtain ⟨⟨q, f⟩, hf, hi⟩ := List.mem_map.mp h
  exact ⟨q, f, mem_of_located hf, hi⟩

/-- Complete frames decode to one instruction each. -/
theorem disassemble_flatMap {fs : List (Frame UInt8)} (h : ∀ f ∈ fs, f.Complete immediateWidthOf) :
    disassemble (fs.flatMap Frame.toList) = (located 0 fs).map Instruction.ofFrame := by
  rw [disassemble_eq_located, split_flatMap immediateWidthOf h]

end RustEvm.Codegen
