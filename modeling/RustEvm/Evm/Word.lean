import Mathlib.Data.BitVec
import Mathlib.Tactic

/-!
# RustEvm.Evm.Word — 256-bit words and the EVM's operations on them

The operations as the Ethereum specification gives them: arithmetic wraps, division and remainder by zero give zero,
shift amounts are whole words, and a comparison leaves zero or one.
-/

namespace RustEvm.Evm

/-- A stack slot. -/
abbrev Word := BitVec 256

namespace Word

def ofBool (b : Bool) : Word := if b then 1 else 0

def div (a b : Word) : Word := if b = 0 then 0 else a / b

def sdiv (a b : Word) : Word := if b = 0 then 0 else BitVec.sdiv a b

def mod (a b : Word) : Word := if b = 0 then 0 else a % b

/-- The result takes the sign of the dividend. -/
def smod (a b : Word) : Word := if b = 0 then 0 else BitVec.srem a b

def addmod (a b m : Word) : Word := if m = 0 then 0 else BitVec.ofNat 256 ((a.toNat + b.toNat) % m.toNat)

def mulmod (a b m : Word) : Word := if m = 0 then 0 else BitVec.ofNat 256 (a.toNat * b.toNat % m.toNat)

def exp (a b : Word) : Word := BitVec.ofNat 256 (a.toNat ^ b.toNat)

/-- Byte `i` of `x`, counted from the most significant one. -/
def byte (i x : Word) : Word := if i.toNat < 32 then x >>> (8 * (31 - i.toNat)) &&& 0xff else 0

/-- Copy the sign bit of byte `i`, counted from the least significant one, into everything above it. -/
def signextend (i x : Word) : Word :=
  if i.toNat < 31 then (x.setWidth (8 * (i.toNat + 1))).signExtend 256 else x

def shl (shift value : Word) : Word := value <<< shift.toNat

def shr (shift value : Word) : Word := value >>> shift.toNat

def sar (shift value : Word) : Word := BitVec.sshiftRight value shift.toNat

def lt (a b : Word) : Word := ofBool (decide (a.toNat < b.toNat))

def gt (a b : Word) : Word := ofBool (decide (b.toNat < a.toNat))

def slt (a b : Word) : Word := ofBool (decide (a.toInt < b.toInt))

def sgt (a b : Word) : Word := ofBool (decide (b.toInt < a.toInt))

def eq (a b : Word) : Word := ofBool (decide (a = b))

def iszero (a : Word) : Word := ofBool (decide (a = 0))

theorem toNat_ofBool_le (b : Bool) : (ofBool b).toNat ≤ 1 := by
  cases b <;> simp [ofBool]

theorem toNat_div (a b : Word) : (div a b).toNat = a.toNat / b.toNat := by
  rw [div]
  split
  · next h => simp [h]
  · exact BitVec.toNat_udiv

theorem toNat_mod (a b : Word) : (mod a b).toNat = if b.toNat = 0 then 0 else a.toNat % b.toNat := by
  rw [mod]
  by_cases h : b = 0
  · simp [h]
  · have hb : b.toNat ≠ 0 := fun h0 => h (BitVec.eq_of_toNat_eq h0)
    rw [if_neg h, if_neg hb, BitVec.toNat_umod]

theorem toInt_sdiv (a b : Word) : (sdiv a b).toInt = (a.toInt.tdiv b.toInt).bmod (2 ^ 256) := by
  rw [sdiv]
  split
  · next h => simp [h]
  · exact BitVec.toInt_sdiv a b

theorem toInt_smod (a b : Word) : (smod a b).toInt = if b.toInt = 0 then 0 else a.toInt.tmod b.toInt := by
  rw [smod]
  by_cases h : b = 0
  · simp [h]
  · have hb : b.toInt ≠ 0 := fun h0 => h (BitVec.eq_of_toInt_eq h0)
    rw [if_neg h, if_neg hb, BitVec.toInt_srem]

theorem toNat_mod_le (a b : Word) : (mod a b).toNat ≤ a.toNat := by
  rw [mod]
  split
  · simp
  · rw [BitVec.toNat_umod]
    exact Nat.mod_le _ _

theorem toNat_shr_le (s a : Word) : (shr s a).toNat ≤ a.toNat := by
  rw [shr, BitVec.toNat_ushiftRight, Nat.shiftRight_eq_div_pow]
  exact Nat.div_le_self _ _

end Word

end RustEvm.Evm
