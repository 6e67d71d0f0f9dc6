import RustEvm.Asm.Disasm
import RustEvm.Lib.Panic

/-!
# RustEvm.Asm.Tiling — decoding is total and tiles the code

`Instructions.nextOrPanic` is one step of the iterator with its slice and its subtraction steps that may panic, and
`Yields` runs it until it is exhausted.  From offset zero it yields what `disassemble` returns, without a panic
(`yields_disassemble`), and these instructions tile the code (`Tiles`).
-/

namespace RustEvm.Codegen

open Isa Frames Panic

/-! ## The iterator with its panics -/

/-- Decode one instruction and step past it.  The position stays within the code, so adding to it does not overflow. -/
def Instructions.nextOrPanic (it : Instructions) : Option (Option (Instruction × Instructions)) :=
  match it.code[it.pc]? with
  | none => some none
  | some opcode => do
    let spec := byByte opcode
    let wanted :=
      match spec.map opForm with
      | some (.push n) => n.toNat
      | _ => 0
    let start := it.pc + 1
    let left ← minus it.code.length start
    let taken := min wanted left
    let immediate ← slice it.code start (start + taken)
    return some ({ pc := it.pc, opcode, spec, immediate, truncated := decide (taken < wanted) },
      { it with pc := start + taken })

/-- The iterator yields the instructions of the list and then ends. -/
inductive Yields : Instructions → List Instruction → Prop
  | done {it : Instructions} : it.nextOrPanic = some none → Yields it []
  | step {it it' : Instructions} {i : Instruction} {l : List Instruction} :
    it.nextOrPanic = some (some (i, it')) → Yields it' l → Yields it (i :: l)

theorem Instructions.nextOrPanic_eq (it : Instructions) : it.nextOrPanic = some it.next := by
  unfold nextOrPanic next
  by_cases h : it.pc < it.code.length
  · have hslice : ∀ taken, taken ≤ it.code.length - (it.pc + 1) →
        slice it.code (it.pc + 1) (it.pc + 1 + taken) = some ((it.code.drop (it.pc + 1)).take taken) := by
      intro taken htaken
      rw [slice_eq_some (Nat.le_add_right _ _) (by omega), List.drop_take, Nat.add_sub_cancel_left]
    simp only [List.getElem?_eq_getElem h, minus_eq_some (show it.pc + 1 ≤ it.code.length from h),
      Option.bind_eq_bind, Option.bind_some, hslice _ (Nat.min_le_right _ _)]
    rfl
  · simp only [List.getElem?_eq_none (Nat.not_lt.mp h)]

/-- A step leaves the code as it is and moves on. -/
theorem Instructions.next_progress {it it' : Instructions} {i : Instruction} (h : it.next = some (i, it')) :
    it'.code = it.code ∧ it.pc < it.code.length ∧ it.pc < it'.pc := by
  unfold next at h
  by_cases hlt : it.pc < it.code.length
  · simp only [List.getElem?_eq_getElem hlt, Option.some.injEq, Prod.mk.injEq] at h
    obtain ⟨-, rfl⟩ := h
    exact ⟨rfl, hlt, Nat.lt_of_lt_of_le (Nat.lt_succ_self _) (Nat.le_add_right _ _)⟩
  · simp only [List.getElem?_eq_none (Nat.not_lt.mp hlt)] at h
    exact absurd h (by simp)

theorem yields_collect (fuel : ℕ) (it : Instructions) (h : it.code.length - it.pc ≤ fuel) :
    Yields it (it.collect fuel) := by
  induction fuel generalizing it with
  | zero =>
    refine .done ?_
    rw [it.nextOrPanic_eq, Instructions.next_eq_none (by omega)]
  | succ fuel ih =>
    unfold Instructions.collect
    cases hnext : it.next with
    | none => exact .done (by rw [it.nextOrPanic_eq, hnext])
    | some r =>
      obtain ⟨i, it'⟩ := r
      obtain ⟨hcode, hlt, hpc⟩ := Instructions.next_progress hnext
      refine .step (by rw [it.nextOrPanic_eq, hnext]) (ih it' ?_)
      rw [hcode]
      omega

/-- **Decoding ends and never panics.** -/
theorem yields_disassemble (code : List UInt8) : Yields ⟨code, 0⟩ (disassemble code) :=
  yields_collect code.length ⟨code, 0⟩ (Nat.sub_le _ _)

/-! ## The tiling -/

/-- The instructions cover the code from its start to its end, and none but the last may be truncated. -/
structure Tiles (code : List UInt8) (l : List Instruction) : Prop where
  first : ∀ i ∈ l.head?, i.pc = 0
  next : l.IsChain fun i j => j.pc = i.pc + i.size
  sizes : (l.map Instruction.size).sum = code.length
  bytes : l.flatMap (fun i => i.opcode :: i.immediate) = code
  /-- The subtraction of `missing` does not underflow. -/
  missing : ∀ i ∈ l, minus i.immediateWidth i.immediate.length = some i.missing ∧
    i.size + i.missing = 1 + i.immediateWidth
  truncated : ∀ i ∈ l, i.truncated = true ↔ 0 < i.missing
  last : ∀ i ∈ l.dropLast, i.truncated = false

/-- What an instruction read from a frame is missing is what the payload is short of. -/
theorem Instruction.ofFrame_missing (f : ℕ × Frame UInt8) :
    (Instruction.ofFrame f).missing = immediateWidthOf f.2.head - f.2.payload.length := rfl

/-- **The instructions tile the code.** -/
theorem tiles_disassemble (code : List UInt8) : Tiles code (disassemble code) := by
  have hfit : ∀ i ∈ disassemble code, i.immediate.length ≤ i.immediateWidth := by
    intro i hi
    obtain ⟨q, f, hf, rfl⟩ := exists_frame_of_mem hi
    exact length_payload_le immediateWidthOf f hf
  have hbytes : (disassemble code).flatMap (fun i => i.opcode :: i.immediate) = code := by
    rw [disassemble_eq_located, List.flatMap_map]
    have h : ((located 0 (split immediateWidthOf code)).map Prod.snd).flatMap Frame.toList = code := by
      rw [located_map_snd, flatMap_split]
    rwa [List.flatMap_map] at h
  refine ⟨?_, ?_, ?_, hbytes, ?_, ?_, ?_⟩
  · rw [disassemble_eq_located]
    cases split immediateWidthOf code with
    | nil => simp
    | cons f fs => simp [located_cons]
  · rw [disassemble_eq_located, List.isChain_map]
    refine (located_chain 0 _).imp fun f g h => ?_
    rw [Instruction.ofFrame_size]
    exact h
  · have hlen := congrArg List.length hbytes
    rw [List.length_flatMap] at hlen
    rw [← hlen]
    congr 1
    refine List.map_congr_left fun i _ => ?_
    exact Nat.add_comm 1 _
  · intro i hi
    have hle := hfit i hi
    refine ⟨minus_eq_some hle, ?_⟩
    unfold Instruction.size Instruction.missing
    omega
  · intro i hi
    obtain ⟨q, f, -, rfl⟩ := exists_frame_of_mem hi
    rw [Instruction.ofFrame_missing, Nat.sub_pos_iff_lt]
    exact decide_eq_true_iff
  · intro i hi
    rw [disassemble_eq_located, ← List.map_dropLast, located_dropLast] at hi
    obtain ⟨⟨q, f⟩, hf, rfl⟩ := List.mem_map.mp hi
    have hmem : f ∈ (split immediateWidthOf code).dropLast := mem_of_located hf
    have hne : split immediateWidthOf code ≠ [] := by
      rintro hnil
      simp [hnil] at hmem
    have hcomplete : f.payload.length = immediateWidthOf f.head :=
      complete_of_split_append immediateWidthOf (List.dropLast_append_getLast hne).symm (by simp) f hmem
    show decide (f.payload.length < immediateWidthOf f.head) = false
    rw [hcomplete]
    exact decide_eq_false (lt_irrefl _)

/-- **Disassembly is total and tiles the code without loss.** -/
theorem disassembly_total_and_tiles (code : List UInt8) :
    Yields ⟨code, 0⟩ (disassemble code) ∧ Tiles code (disassemble code) :=
  ⟨yields_disassemble code, tiles_disassemble code⟩

end RustEvm.Codegen
