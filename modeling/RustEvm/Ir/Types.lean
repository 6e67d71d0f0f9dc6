import RustEvm.Evm.Word
import RustEvm.Lib.Narrow

/-!
# RustEvm.Ir.Types — value types and the repair that keeps them honest

Every stack slot is 256 bits, the integers of the source language are not.  `Ty.Holds` is the representation
invariant that reconciles the two: a word of type `u<w>` is zero above bit `w`, a word of type `i<w>` is
sign-extended across the slot.  A `Repair` brings a raw word back into the range of its type.
-/

namespace RustEvm.Ir

open Evm Narrow

/-- Width of an EVM stack slot. -/
def WORD_BITS : UInt16 := 256

/-- An integer type: a width and a signedness. -/
structure IntTy where
  bits : UInt16
  signed : Bool
  deriving DecidableEq, Repr

/-- The type of a value (`Type` in the source). -/
inductive Ty
  | int (ty : IntTy)
  /-- A byte offset into memory; behaves as a `u32`. -/
  | ptr
  deriving DecidableEq, Repr

namespace Ty

def uint (bits : UInt16) : Ty := .int { bits, signed := false }

def sint (bits : UInt16) : Ty := .int { bits, signed := true }

def BOOL : Ty := uint 1
def U8 : Ty := uint 8
def I8 : Ty := sint 8
def U256 : Ty := uint 256
def PTR : Ty := ptr

/-- The integer type this behaves as. -/
def asInt : Ty → IntTy
  | int ty => ty
  | ptr => { bits := 32, signed := false }

def bits (ty : Ty) : UInt16 := ty.asInt.bits

def isSigned (ty : Ty) : Bool := ty.asInt.signed

/-- Whether the width is one the EVM can hold. -/
def isWellFormed (ty : Ty) : Bool := ty.bits ≥ 1 && ty.bits ≤ WORD_BITS

/-- The representation invariant: the word is a well-formed value of the type. -/
def Holds (ty : Ty) (x : Word) : Prop := IsCanon ty.isSigned ty.bits.toNat x

instance (ty : Ty) (x : Word) : Decidable (ty.Holds x) :=
  inferInstanceAs (Decidable (IsCanon ty.isSigned ty.bits.toNat x))

/-- The integer a well-formed word denotes. -/
def value (ty : Ty) (x : Word) : ℤ := Narrow.value ty.isSigned x

/-- An integer wrapped to the width and signedness of the type. -/
def wrap (ty : Ty) (k : ℤ) : ℤ := Narrow.wrap ty.isSigned ty.bits.toNat k

theorem isWellFormed_iff {ty : Ty} : ty.isWellFormed = true ↔ 1 ≤ ty.bits.toNat ∧ ty.bits.toNat ≤ 256 := by
  simp [isWellFormed, WORD_BITS, UInt16.le_iff_toNat_le]

/-- A type as wide as the slot holds every word. -/
theorem holds_of_le {ty : Ty} (h : 256 ≤ ty.bits.toNat) (x : Word) : ty.Holds x := isCanon_of_le h x

/-- A narrower one does not: some word violates its invariant. -/
theorem exists_not_holds {ty : Ty} (h : ty.bits.toNat < 256) : ∃ x : Word, ¬ ty.Holds x := by
  unfold Holds
  cases ty.isSigned with
  | false => exact ⟨BitVec.allOnes 256, not_isZext_allOnes h⟩
  | true =>
    rcases Nat.eq_zero_or_pos ty.bits.toNat with h0 | hpos
    · refine ⟨BitVec.twoPow 256 1, fun hx => ?_⟩
      rw [h0] at hx
      exact absurd (hx 1 (by omega) (by omega)) (by decide)
    · exact ⟨BitVec.twoPow 256 (ty.bits.toNat - 1), not_isSext_twoPow hpos h⟩

end Ty

/-- How the raw result of an operation is brought back into the range of its type. -/
inductive Repair
  | none
  /-- Clear bits `bits..256`. -/
  | mask (bits : UInt16)
  /-- Replicate bit `bits-1` across `bits..256`. -/
  | sext (bits : UInt16)
  deriving DecidableEq, Repr

namespace Repair

/-- A mask, normalised: repairing to the full word width is a no-op (`Repair::mask` in the source). -/
def maskTo (bits : UInt16) : Repair := if bits ≥ WORD_BITS then .none else .mask bits

/-- A sign-extension, normalised the same way (`Repair::sext` in the source). -/
def sextTo (bits : UInt16) : Repair := if bits ≥ WORD_BITS then .none else .sext bits

/-- The repair that turns a well-formed value of `src` into a well-formed value of `dst`. -/
def forConvert (src dst : Ty) : Repair :=
  let src := src.asInt
  let dst := dst.asInt
  if dst.signed then
    let already := if src.signed then decide (src.bits ≤ dst.bits) else decide (src.bits < dst.bits)
    if already then .none else sextTo dst.bits
  else if !src.signed && decide (src.bits ≤ dst.bits) then .none
  else maskTo dst.bits

/-- What a repair does to a word. -/
def apply : Repair → Word → Word
  | none, x => x
  | mask bits, x => zext bits.toNat x
  | sext bits, x => Narrow.sext bits.toNat x

theorem apply_maskTo {bits : UInt16} (h : bits.toNat < 256) (x : Word) : (maskTo bits).apply x = zext bits.toNat x := by
  rw [maskTo, if_neg]
  · rfl
  · simpa [WORD_BITS, UInt16.le_iff_toNat_le] using h

theorem apply_sextTo {bits : UInt16} (h : bits.toNat < 256) (x : Word) :
    (sextTo bits).apply x = Narrow.sext bits.toNat x := by
  rw [sextTo, if_neg]
  · rfl
  · simpa [WORD_BITS, UInt16.le_iff_toNat_le] using h

theorem maskTo_of_le {bits : UInt16} (h : 256 ≤ bits.toNat) : maskTo bits = .none :=
  if_pos (by simpa [WORD_BITS, UInt16.le_iff_toNat_le] using h)

theorem sextTo_of_le {bits : UInt16} (h : 256 ≤ bits.toNat) : sextTo bits = .none :=
  if_pos (by simpa [WORD_BITS, UInt16.le_iff_toNat_le] using h)

end Repair

namespace Ty

/-- The repair that establishes the invariant of a type on any word. -/
def repair (ty : Ty) : Repair := if ty.isSigned then Repair.sextTo ty.bits else Repair.maskTo ty.bits

theorem apply_repair {ty : Ty} (h : ty.bits.toNat < 256) (x : Word) :
    ty.repair.apply x = canon ty.isSigned ty.bits.toNat x := by
  unfold repair canon
  split
  · exact Repair.apply_sextTo h x
  · exact Repair.apply_maskTo h x

theorem repair_of_le {ty : Ty} (h : 256 ≤ ty.bits.toNat) : ty.repair = .none := by
  unfold repair
  split
  · exact Repair.sextTo_of_le h
  · exact Repair.maskTo_of_le h

/-- **The repair of a type establishes its invariant**, whatever the word and the width. -/
theorem holds_repair (ty : Ty) (x : Word) : ty.Holds (ty.repair.apply x) := by
  rcases Nat.lt_or_ge ty.bits.toNat 256 with h | h
  · rw [apply_repair h]
    exact isCanon_canon _ x
  · exact holds_of_le h _

end Ty

end RustEvm.Ir
