import RustEvm.Asm.Tiling
import RustEvm.Lib.Text

/-!
# RustEvm.Asm.Listing — the rendering of decoded code

`Instruction.fmt` is one line of a listing: the offset, the mnemonic and what stands behind it (`operand`).  The three
are separated by spaces that none of them begins with or contains, so the line determines them (`fields_of_fmt`); the
mnemonic and the operand determine the opcode and the immediate (`frame_of_fields`), and the lines of a listing are
ended one by one, so the listing determines the code (`listing_injective`).
-/

namespace RustEvm.Codegen

open Isa Frames Text

/-! ## Display -/

/-- `{:0width x}` -/
def lowerHex (width n : ℕ) : String := .ofList (hexChars width n)

@[simp] theorem toList_lowerHex (width n : ℕ) : (lowerHex width n).toList = hexChars width n := String.toList_ofList

/-- `{:#0width x}`; the `0x` counts for the width. -/
def alternateHex (width n : ℕ) : String := "0x" ++ lowerHex (width - 2) n

def Instruction.fmt (i : Instruction) : String :=
  let line := lowerHex 4 i.pc ++ "  " ++ i.mnemonic
  -- the byte is all there is to say of one that is not in the table
  if i.spec.isNone then line ++ " " ++ alternateHex 4 i.opcode.toNat
  else
    let line :=
      if i.immediate.isEmpty then line
      else i.immediate.foldl (fun line byte => line ++ lowerHex 2 byte.toNat) (line ++ " 0x")
    if i.truncated then line ++ " (truncated, " ++ toString i.missing ++ " byte(s) missing)" else line

/-- One instruction per line. -/
def listing (code : List UInt8) : String := String.join ((disassemble code).map fun i => i.fmt ++ "\n")

example : listing [0x60, 0x02, 0x5f, 0x01, 0x0c, 0x63, 0xaa] =
    "0000  PUSH1 0x02\n0002  PUSH0\n0003  ADD\n0004  INVALID 0x0c\n0005  PUSH4 0xaa (truncated, 3 byte(s) missing)\n" := by
  decide +kernel

/-! ## The fields of a line -/

namespace Instruction

/-- What is said of a `PUSH` that ran out of code. -/
def note (i : Instruction) : List Char :=
  if i.truncated then (" (truncated, " ++ toString i.missing ++ " byte(s) missing)").toList else []

/-- What stands behind the mnemonic. -/
def operand (i : Instruction) : List Char :=
  if i.spec.isNone then ' ' :: '0' :: 'x' :: hexChars 2 i.opcode.toNat
  else if i.immediate.isEmpty then i.note
  else ' ' :: '0' :: 'x' :: (hexBytes i.immediate ++ i.note)

theorem toList_foldl_hex (bytes : List UInt8) (line : String) :
    (bytes.foldl (fun line byte => line ++ lowerHex 2 byte.toNat) line).toList = line.toList ++ hexBytes bytes := by
  induction bytes generalizing line with
  | nil => simp [hexBytes]
  | cons b bytes ih => simp [ih, hexBytes]

/-- A line with the note at its end. -/
theorem toList_note (i : Instruction) (line : String) :
    (if i.truncated then line ++ " (truncated, " ++ toString i.missing ++ " byte(s) missing)" else line).toList =
      line.toList ++ i.note := by
  unfold note
  split <;> simp [String.append_assoc]

/-- **A line** is the offset, the mnemonic and the operand. -/
theorem toList_fmt (i : Instruction) :
    i.fmt.toList = hexChars 4 i.pc ++ ' ' :: ' ' :: (i.mnemonic.toList ++ i.operand) := by
  unfold fmt operand
  by_cases hspec : i.spec.isNone = true
  · simp [hspec, alternateHex]
  · rw [if_neg hspec, if_neg hspec, toList_note]
    by_cases himm : i.immediate.isEmpty = true
    · simp [himm]
    · simp [himm, toList_foldl_hex]

theorem note_cases (i : Instruction) : i.note = [] ∨ ∃ t, i.note = ' ' :: '(' :: t := by
  unfold note
  split
  · exact .inr ⟨_, by simp; rfl⟩
  · exact .inl rfl

theorem atBreak_note (i : Instruction) : AtBreak ' ' i.note := by
  rcases i.note_cases with h | ⟨t, h⟩
  · rw [h]
    exact atBreak_nil
  · rw [h]
    exact atBreak_cons _

theorem atBreak_operand (i : Instruction) : AtBreak ' ' i.operand := by
  unfold operand
  split
  · exact atBreak_cons _
  · split
    · exact i.atBreak_note
    · exact atBreak_cons _

/-! ## Reading a line back -/

/-- As the iterator yields it. -/
structure Decoded (i : Instruction) : Prop where
  spec : i.spec = byByte i.opcode
  fits : i.immediate.length ≤ immediateWidthOf i.opcode
  truncated : i.truncated = decide (i.immediate.length < immediateWidthOf i.opcode)

theorem decoded_of_mem {code : List UInt8} {i : Instruction} (h : i ∈ disassemble code) : i.Decoded := by
  obtain ⟨q, f, hf, rfl⟩ := exists_frame_of_mem h
  exact ⟨rfl, length_payload_le immediateWidthOf f hf, rfl⟩

theorem Decoded.immediate_nil {i : Instruction} (h : i.Decoded) (hwidth : immediateWidthOf i.opcode = 0) :
    i.immediate = [] :=
  List.eq_nil_of_length_eq_zero (Nat.le_zero.mp (hwidth ▸ h.fits))

theorem Decoded.not_mem_mnemonic {i : Instruction} (h : i.Decoded) {c : Char} (hc : c.isAlphanum = false) :
    c ∉ i.mnemonic.toList := by
  refine not_mem_of_isAlphanum hc (List.all_eq_true.mp ?_)
  rw [mnemonic, h.spec]
  cases hrow : byByte i.opcode with
  | none =>
    show UNKNOWN.toList.all Char.isAlphanum = true
    decide +kernel
  | some spec => exact mnemonic_isAlphanum (byByte_mem hrow)

/-- **The fields of a line** are determined by it. -/
theorem fields_of_fmt {i j : Instruction} (hi : i.Decoded) (hj : j.Decoded) (h : i.fmt = j.fmt) :
    i.pc = j.pc ∧ i.mnemonic = j.mnemonic ∧ i.operand = j.operand := by
  have hspace : ' '.isAlphanum = false := by decide
  have hline := congrArg String.toList h
  rw [toList_fmt, toList_fmt] at hline
  obtain ⟨hpc, hrest⟩ := field_inj (not_mem_hexChars hspace 4 _) (not_mem_hexChars hspace 4 _) (atBreak_cons _)
    (atBreak_cons _) hline
  obtain ⟨hmnemonic, hoperand⟩ := field_inj (hi.not_mem_mnemonic hspace) (hj.not_mem_mnemonic hspace)
    i.atBreak_operand j.atBreak_operand (List.cons.inj (List.cons.inj hrest).2).2
  exact ⟨hexChars_injective 4 hpc, String.toList_injective hmnemonic, hoperand⟩

/-- The row of the designated invalid opcode has nothing behind its mnemonic. -/
theorem Decoded.operand_invalid {i : Instruction} (h : i.Decoded) (hop : i.opcode = 0xfe) : i.operand = [] := by
  have hwidth : immediateWidthOf i.opcode = 0 := by
    rw [hop]
    decide +kernel
  have hspec : i.spec.isNone = false := by rw [h.spec, hop, byByte_invalid]; rfl
  have himm := h.immediate_nil hwidth
  have htruncated : i.truncated = false := by rw [h.truncated, hwidth]; simp
  rw [operand, note, hspec, himm, htruncated]
  rfl

/-- A byte outside the table does not read like a row of it, though one row has the same name. -/
theorem Decoded.isSome_of_fields {i j : Instruction} (hi : i.Decoded) (hj : j.Decoded) (hm : i.mnemonic = j.mnemonic)
    (ho : i.operand = j.operand) (hrow : (byByte j.opcode).isSome = true) : (byByte i.opcode).isSome = true := by
  by_contra hnone
  rw [Option.not_isSome_iff_eq_none] at hnone
  obtain ⟨spec, hspec⟩ := Option.isSome_iff_exists.mp hrow
  have hname : spec.mnemonic = "INVALID" := by
    have hmi : i.mnemonic = UNKNOWN := by rw [mnemonic, hi.spec, hnone]; rfl
    have hmj : j.mnemonic = spec.mnemonic := by rw [mnemonic, hj.spec, hspec]; rfl
    rw [← hmj, ← hm, hmi, UNKNOWN]
  have hinvalid := eq_of_mnemonic_eq (byByte_mem hspec) (byByte_mem byByte_invalid) hname
  have hop : j.opcode = 0xfe := by rw [← byte_of_byByte hspec, hinvalid]; rfl
  rw [hj.operand_invalid hop, operand, hi.spec, hnone] at ho
  exact absurd ho (by simp)

/-- **The opcode** is known from the mnemonic and the operand. -/
theorem Decoded.opcode_of_fields {i j : Instruction} (hi : i.Decoded) (hj : j.Decoded) (hm : i.mnemonic = j.mnemonic)
    (ho : i.operand = j.operand) : i.opcode = j.opcode := by
  cases hri : byByte i.opcode with
  | none =>
    have hrj : byByte j.opcode = none := by
      by_contra hrow
      have hsome := hi.isSome_of_fields hj hm ho (Option.isSome_iff_ne_none.mpr hrow)
      rw [hri] at hsome
      exact absurd hsome (by simp)
    rw [operand, operand, hi.spec, hj.spec, hri, hrj] at ho
    have hhex : hexChars 2 i.opcode.toNat = hexChars 2 j.opcode.toNat := by simpa using ho
    exact UInt8.toNat_inj.mp (hexChars_injective 2 hhex)
  | some spec =>
    have hrj := hj.isSome_of_fields hi hm.symm ho.symm (by rw [hri]; rfl)
    obtain ⟨spec', hrj⟩ := Option.isSome_iff_exists.mp hrj
    rw [mnemonic, mnemonic, hi.spec, hj.spec, hri, hrj] at hm
    have hsame : spec = spec' := eq_of_mnemonic_eq (byByte_mem hri) (byByte_mem hrj) hm
    rw [← byte_of_byByte hri, ← byte_of_byByte hrj, hsame]

/-- An immediate does not read like the note of one that is missing as a whole. -/
theorem hex_ne_note (i : Instruction) (t : List Char) : ' ' :: '0' :: t ≠ i.note := by
  rcases i.note_cases with h | ⟨s, h⟩
  · simp [h]
  · simp [h]

/-- **The immediate** of a row is known from the operand. -/
theorem immediate_of_operand {i j : Instruction} (hi : i.spec.isNone = false) (hj : j.spec.isNone = false)
    (ho : i.operand = j.operand) : i.immediate = j.immediate := by
  rw [operand, operand, hi, hj] at ho
  cases himm : i.immediate with
  | nil =>
    cases hjmm : j.immediate with
    | nil => rfl
    | cons b bytes =>
      rw [himm, hjmm] at ho
      exact absurd ho.symm (hex_ne_note i _)
  | cons a bytes =>
    cases hjmm : j.immediate with
    | nil =>
      rw [himm, hjmm] at ho
      exact absurd ho (hex_ne_note j _)
    | cons b bytes' =>
      rw [himm, hjmm] at ho
      have hspace : ' '.isAlphanum = false := by decide
      have hhex : hexBytes (a :: bytes) ++ i.note = hexBytes (b :: bytes') ++ j.note := by simpa using ho
      obtain ⟨hbytes, -⟩ := field_inj (not_mem_hexBytes hspace _) (not_mem_hexBytes hspace _) i.atBreak_note
        j.atBreak_note hhex
      exact hexBytes_injective hbytes

/-- **A line determines its instruction.** -/
theorem eq_of_fmt {i j : Instruction} (hi : i.Decoded) (hj : j.Decoded) (h : i.fmt = j.fmt) : i = j := by
  obtain ⟨hpc, hm, ho⟩ := fields_of_fmt hi hj h
  have hop := hi.opcode_of_fields hj hm ho
  have hspec : i.spec = j.spec := by rw [hi.spec, hj.spec, hop]
  have himm : i.immediate = j.immediate := by
    cases hnone : i.spec.isNone with
    | false => exact immediate_of_operand hnone (hspec ▸ hnone) ho
    | true =>
      -- a byte outside the table has no immediate
      have hrow : byByte i.opcode = none := hi.spec ▸ Option.isNone_iff_eq_none.mp hnone
      have hwidth : immediateWidthOf i.opcode = 0 := by rw [immediateWidthOf, hrow]; rfl
      rw [hi.immediate_nil hwidth, hj.immediate_nil (hop ▸ hwidth)]
  have htruncated : i.truncated = j.truncated := by rw [hi.truncated, hj.truncated, hop, himm]
  cases i
  cases j
  simp only at hpc hop hspec himm htruncated
  rw [hpc, hop, hspec, himm, htruncated]

theorem newline_not_mem_note (i : Instruction) : '\n' ∉ i.note := by
  unfold note
  split
  · have hdigits : '\n' ∉ Nat.toDigits 10 i.missing := fun h =>
      absurd (Nat.isDigit_of_mem_toDigits (by norm_num) (by norm_num) h) (by decide)
    simpa using hdigits
  · simp

theorem newline_not_mem_operand (i : Instruction) : '\n' ∉ i.operand := by
  have hnewline : '\n'.isAlphanum = false := by decide
  have hbyte := not_mem_hexChars hnewline 2 i.opcode.toNat
  have hbytes := not_mem_hexBytes hnewline i.immediate
  have hnote := i.newline_not_mem_note
  unfold operand
  split
  · simpa using hbyte
  · split
    · exact hnote
    · simpa using ⟨hbytes, hnote⟩

/-- A line is one line. -/
theorem Decoded.newline_not_mem {i : Instruction} (h : i.Decoded) : '\n' ∉ i.fmt.toList := by
  have hnewline : '\n'.isAlphanum = false := by decide
  have hpc := not_mem_hexChars hnewline 4 i.pc
  have hmnemonic := h.not_mem_mnemonic hnewline
  rw [toList_fmt]
  simpa using ⟨hpc, hmnemonic, i.newline_not_mem_operand⟩

end Instruction

/-! ## The whole listing -/

theorem toList_listing (code : List UInt8) :
    (listing code).toList = ((disassemble code).map fun i => i.fmt.toList).flatMap (· ++ ['\n']) := by
  rw [listing, String.toList_join, List.flatMap_map, List.flatMap_map]
  simp only [String.toList_append]
  rfl

/-- The instructions of two codes with one listing are the same. -/
theorem disassemble_eq_of_listing {code code' : List UInt8} (h : listing code = listing code') :
    disassemble code = disassemble code' := by
  have hclean : ∀ c, ∀ line ∈ (disassemble c).map fun i => i.fmt.toList, '\n' ∉ line := by
    intro c line hline
    obtain ⟨i, hi, rfl⟩ := List.mem_map.mp hline
    exact (Instruction.decoded_of_mem hi).newline_not_mem
  have htext := congrArg String.toList h
  rw [toList_listing, toList_listing] at htext
  have hlines := lines_injective (hclean code) (hclean code') htext
  refine List.ext_getElem (by simpa using congrArg List.length hlines) fun k hk hk' => ?_
  have hline := List.getElem_of_eq hlines (by simpa using hk)
  rw [List.getElem_map, List.getElem_map] at hline
  exact Instruction.eq_of_fmt (Instruction.decoded_of_mem (List.getElem_mem hk))
    (Instruction.decoded_of_mem (List.getElem_mem hk')) (String.toList_injective hline)

/-- **A listing loses no information**: neither a line of the instruction it renders, nor the whole of the code. -/
theorem listing_injective :
    Function.Injective listing ∧
    ∀ (code code' : List UInt8), ∀ i ∈ disassemble code, ∀ j ∈ disassemble code', i.fmt = j.fmt → i = j := by
  refine ⟨fun code code' h => ?_, fun code code' i hi j hj => ?_⟩
  · rw [← (tiles_disassemble code).bytes, ← (tiles_disassemble code').bytes, disassemble_eq_of_listing h]
  · exact Instruction.eq_of_fmt (Instruction.decoded_of_mem hi) (Instruction.decoded_of_mem hj)

end RustEvm.Codegen
