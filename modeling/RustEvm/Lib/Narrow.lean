import Mathlib.Data.BitVec
import Mathlib.Data.Int.Bitwise
import Mathlib.Tactic

/-!
# RustEvm.Lib.Narrow — narrow integers held in wide words

An integer of `w` bits held in a word of `n ≥ w` bits is kept canonical: zero above its width when unsigned
(`IsZext`), copies of its sign bit when signed (`IsSext`).  `canon s w` is the retraction of all words onto the
canonical ones, `value s` the integer a word denotes and `wrap s w` the reduction of an integer to `w` bits, for
either signedness `s`.

* `isCanon_canon`, `canon_eq_of_isCanon`: the canonical words are exactly the fixed points of `canon`.
* `value_canon_ofInt`: canonicalising a word that is right modulo `2 ^ n` gives the integer wrapped to `w` bits.
* `ofInt_land` and its neighbours: what the word operations do to integers modulo `2 ^ n`.
-/

namespace RustEvm.Narrow

variable {n w : ℕ}

/-! ## The two extensions -/

/-- Bits from `w` on are zero. -/
def IsZext (w : ℕ) (x : BitVec n) : Prop := ∀ i < n, w ≤ i → x.getLsbD i = false

/-- Bits from `w` on are copies of bit `w - 1`. -/
def IsSext (w : ℕ) (x : BitVec n) : Prop := ∀ i < n, w ≤ i → x.getLsbD i = x.getLsbD (w - 1)

instance (w : ℕ) (x : BitVec n) : Decidable (IsZext w x) :=
  inferInstanceAs (Decidable (∀ i < n, w ≤ i → x.getLsbD i = false))

instance (w : ℕ) (x : BitVec n) : Decidable (IsSext w x) :=
  inferInstanceAs (Decidable (∀ i < n, w ≤ i → x.getLsbD i = x.getLsbD (w - 1)))

/-- Keep the low `w` bits. -/
def zext (w : ℕ) (x : BitVec n) : BitVec n := x &&& ((1#n <<< w) - 1#n)

/-- Replicate bit `w - 1` across the bits from `w` on. -/
def sext (w : ℕ) (x : BitVec n) : BitVec n := (x.setWidth w).signExtend n

theorem lowMask_eq (w : ℕ) : (1#n <<< w) - 1#n = BitVec.ofNat n (2 ^ w - 1) := by
  rw [sub_eq_iff_eq_add]
  apply BitVec.eq_of_toNat_eq
  have hp : 1 ≤ 2 ^ w := Nat.one_le_two_pow
  rw [BitVec.toNat_shiftLeft, Nat.shiftLeft_eq, ← BitVec.ofNat_add, BitVec.toNat_ofNat, BitVec.toNat_ofNat,
    Nat.sub_add_cancel hp, Nat.mod_mul_mod, one_mul]

theorem getLsbD_zext (w : ℕ) (x : BitVec n) (i : ℕ) : (zext w x).getLsbD i = (decide (i < w) && x.getLsbD i) := by
  rw [zext, lowMask_eq, BitVec.getLsbD_and, BitVec.getLsbD_ofNat, Nat.testBit_two_pow_sub_one]
  by_cases hi : i < n
  · simp [hi, Bool.and_comm]
  · simp [BitVec.getLsbD_of_ge x i (by omega)]

theorem getLsbD_sext (hw : 1 ≤ w) (x : BitVec n) {i : ℕ} (hi : i < n) :
    (sext w x).getLsbD i = x.getLsbD (min i (w - 1)) := by
  rw [sext, BitVec.getLsbD_signExtend, BitVec.getLsbD_setWidth, BitVec.msb_setWidth]
  by_cases h : i < w
  · rw [Nat.min_eq_left (by omega)]
    simp [hi, h]
  · rw [Nat.min_eq_right (by omega)]
    have hpos : 0 < w := hw
    simp [hi, h, hpos]

theorem isZext_zext (w : ℕ) (x : BitVec n) : IsZext w (zext w x) := by
  intro i _ hi
  rw [getLsbD_zext]
  simp [Nat.not_lt.mpr hi]

theorem sext_zero (x : BitVec n) : sext 0 x = 0#n := by
  apply BitVec.eq_of_getLsbD_eq
  intro i hi
  rw [sext, BitVec.eq_nil (x.setWidth 0), BitVec.getLsbD_signExtend]
  simp

theorem isSext_sext (w : ℕ) (x : BitVec n) : IsSext w (sext w x) := by
  intro i hn hi
  rcases Nat.eq_zero_or_pos w with rfl | hw
  · simp [sext_zero]
  · rw [getLsbD_sext hw x hn, getLsbD_sext hw x (by omega), Nat.min_eq_right (by omega), Nat.min_self]

theorem zext_eq_of_isZext {x : BitVec n} (h : IsZext w x) : zext w x = x := by
  apply BitVec.eq_of_getLsbD_eq
  intro i hi
  rw [getLsbD_zext]
  by_cases hw : i < w
  · simp [hw]
  · simp [hw, h i hi (by omega)]

theorem sext_eq_of_isSext (hw : 1 ≤ w) {x : BitVec n} (h : IsSext w x) : sext w x = x := by
  apply BitVec.eq_of_getLsbD_eq
  intro i hi
  rw [getLsbD_sext hw x hi]
  by_cases hlt : i < w
  · rw [Nat.min_eq_left (by omega)]
  · rw [Nat.min_eq_right (by omega), h i hi (by omega)]

/-! ## Words on either side of a width -/

theorem isZext_twoPow {k : ℕ} (h : k < w) : IsZext w (BitVec.twoPow n k) := by
  intro i _ hi
  rw [BitVec.getLsbD_twoPow, decide_eq_false (show k ≠ i by omega), Bool.and_false]

theorem not_isZext_twoPow (h : w < n) : ¬ IsZext w (BitVec.twoPow n w) := by
  intro hx
  have hbit := hx w h le_rfl
  simp [h] at hbit

theorem isSext_twoPow {k : ℕ} (h : k + 1 < w) : IsSext w (BitVec.twoPow n k) := by
  intro i _ hi
  rw [BitVec.getLsbD_twoPow, BitVec.getLsbD_twoPow, decide_eq_false (show k ≠ i by omega),
    decide_eq_false (show k ≠ w - 1 by omega)]

theorem not_isSext_twoPow (hw : 1 ≤ w) (h : w < n) : ¬ IsSext w (BitVec.twoPow n (w - 1)) := by
  intro hx
  have hbit := hx w h le_rfl
  have hlt : w - 1 < n := by omega
  have hne : w - 1 ≠ w := by omega
  simp [BitVec.getLsbD_twoPow, hlt, hne] at hbit

/-- Minus one is sign-extended from every width. -/
theorem isSext_allOnes (h : w ≤ n) : IsSext w (BitVec.allOnes n) := by
  intro i hi hw
  have hlt : w - 1 < n := by omega
  simp [hi, hlt]

theorem not_isZext_allOnes (h : w < n) : ¬ IsZext w (BitVec.allOnes n) := by
  intro hx
  have hbit := hx w h le_rfl
  simp [h] at hbit

/-! ## Numbers -/

theorem toNat_zext (w : ℕ) (x : BitVec n) : (zext w x).toNat = x.toNat % 2 ^ w := by
  apply Nat.eq_of_testBit_eq
  intro i
  rw [Nat.testBit_mod_two_pow, BitVec.testBit_toNat, BitVec.testBit_toNat, getLsbD_zext]

/-- Zero above the width is being a number of that many bits. -/
theorem isZext_iff {x : BitVec n} : IsZext w x ↔ x.toNat < 2 ^ w := by
  constructor
  · intro h
    rw [← zext_eq_of_isZext h, toNat_zext]
    exact Nat.mod_lt _ (Nat.two_pow_pos w)
  · intro h i _ hi
    rw [← BitVec.testBit_toNat]
    exact Nat.testBit_lt_two_pow (h.trans_le (Nat.pow_le_pow_right (by omega) hi))

theorem toNat_zext_ofInt (hw : w ≤ n) (k : ℤ) : ((zext w (BitVec.ofInt n k)).toNat : ℤ) = k % 2 ^ w := by
  rw [toNat_zext]
  push_cast [BitVec.toNat_ofInt]
  rw [Int.toNat_of_nonneg (Int.emod_nonneg _ (by positivity))]
  exact Int.emod_emod_of_dvd k (by exact_mod_cast Nat.pow_dvd_pow 2 hw)

theorem toInt_sext_ofInt (hw : w ≤ n) (k : ℤ) : (sext w (BitVec.ofInt n k)).toInt = Int.bmod k (2 ^ w) := by
  rw [sext, BitVec.toInt_signExtend_of_le hw, BitVec.toInt_setWidth,
    ← Int.bmod_bmod_of_dvd (Nat.pow_dvd_pow 2 hw), ← BitVec.toInt_eq_toNat_bmod, BitVec.toInt_ofInt,
    Int.bmod_bmod_of_dvd (Nat.pow_dvd_pow 2 hw)]

/-! ## Either signedness -/

section Canon

variable (s : Bool)

/-- Canonical at width `w`. -/
def IsCanon (w : ℕ) (x : BitVec n) : Prop := if s then IsSext w x else IsZext w x

instance (w : ℕ) (x : BitVec n) : Decidable (IsCanon s w x) :=
  inferInstanceAs (Decidable (if s then IsSext w x else IsZext w x))

/-- The canonical word with the same low `w` bits. -/
def canon (w : ℕ) (x : BitVec n) : BitVec n := if s then sext w x else zext w x

/-- The integer a word denotes. -/
def value (x : BitVec n) : ℤ := if s then x.toInt else x.toNat

/-- An integer reduced to `w` bits: to the least non-negative residue, or to the balanced one. -/
def wrap (w : ℕ) (k : ℤ) : ℤ := if s then k.bmod (2 ^ w) else k % 2 ^ w

variable {s}

theorem isCanon_canon (w : ℕ) (x : BitVec n) : IsCanon s w (canon s w x) := by
  cases s
  · exact isZext_zext w x
  · exact isSext_sext w x

theorem canon_eq_of_isCanon (hw : 1 ≤ w) {x : BitVec n} (h : IsCanon s w x) : canon s w x = x := by
  cases s
  · exact zext_eq_of_isZext h
  · exact sext_eq_of_isSext hw h

/-- There are no bits above the word to disagree with. -/
theorem isCanon_of_le (h : n ≤ w) (x : BitVec n) : IsCanon s w x := by
  cases s
  · exact fun i hi hw => absurd hw (by omega)
  · exact fun i hi hw => absurd hw (by omega)

/-- Bitwise combinations of canonical words are canonical. -/
theorem IsCanon.and {x y : BitVec n} (hx : IsCanon s w x) (hy : IsCanon s w y) : IsCanon s w (x &&& y) := by
  cases s
  · intro i hi hw
    rw [BitVec.getLsbD_and, hx i hi hw, Bool.false_and]
  · intro i hi hw
    rw [BitVec.getLsbD_and, BitVec.getLsbD_and, hx i hi hw, hy i hi hw]

theorem IsCanon.or {x y : BitVec n} (hx : IsCanon s w x) (hy : IsCanon s w y) : IsCanon s w (x ||| y) := by
  cases s
  · intro i hi hw
    rw [BitVec.getLsbD_or, hx i hi hw, hy i hi hw, Bool.false_or]
  · intro i hi hw
    rw [BitVec.getLsbD_or, BitVec.getLsbD_or, hx i hi hw, hy i hi hw]

theorem IsCanon.xor {x y : BitVec n} (hx : IsCanon s w x) (hy : IsCanon s w y) : IsCanon s w (x ^^^ y) := by
  cases s
  · intro i hi hw
    rw [BitVec.getLsbD_xor, hx i hi hw, hy i hi hw, Bool.false_xor]
  · intro i hi hw
    rw [BitVec.getLsbD_xor, BitVec.getLsbD_xor, hx i hi hw, hy i hi hw]

/-- The complement of a sign-extended word is sign-extended; of a zero-extended one it is not zero-extended. -/
theorem IsSext.not {x : BitVec n} (hx : IsSext w x) : IsSext w (~~~ x) := by
  intro i hi hw
  rw [BitVec.getLsbD_not, BitVec.getLsbD_not, hx i hi hw]
  have hi' : w - 1 < n := by omega
  simp [hi, hi']

/-- No number below one of `w` bits has more. -/
theorem IsZext.of_le {x y : BitVec n} (hx : IsZext w x) (h : y.toNat ≤ x.toNat) : IsZext w y :=
  isZext_iff.mpr (h.trans_lt (isZext_iff.mp hx))

/-- A word holds its integer modulo `2 ^ n`. -/
theorem ofInt_value (x : BitVec n) : BitVec.ofInt n (value s x) = x := by
  cases s
  · simp [value]
  · exact BitVec.ofInt_toInt

/-- **Canonicalising wraps**: a word that is right modulo `2 ^ n` becomes the integer wrapped to `w` bits. -/
theorem value_canon_ofInt (hw : w ≤ n) (k : ℤ) : value s (canon s w (BitVec.ofInt n k)) = wrap s w k := by
  cases s
  · exact toNat_zext_ofInt hw k
  · exact toInt_sext_ofInt hw k

theorem value_canon (hw : w ≤ n) (t : Bool) (x : BitVec n) : value s (canon s w x) = wrap s w (value t x) := by
  rw [← value_canon_ofInt hw, ofInt_value]

theorem wrap_modEq (w : ℕ) (k : ℤ) : wrap s w k ≡ k [ZMOD 2 ^ w] := by
  cases s
  · exact Int.mod_modEq k _
  · have h : k.bmod (2 ^ w) % ((2 ^ w : ℕ) : ℤ) = k % ((2 ^ w : ℕ) : ℤ) := Int.bmod_emod
    exact_mod_cast h

end Canon

/-! ## Word operations on integers -/

theorem getLsbD_ofInt (k : ℤ) (i : ℕ) : (BitVec.ofInt n k).getLsbD i = (decide (i < n) && k.testBit i) := by
  cases k with
  | ofNat m => simp [BitVec.getLsbD_ofNat, Int.testBit]
  | negSucc m =>
    rw [BitVec.ofInt_negSucc_eq_not_ofNat, BitVec.getLsbD_not, BitVec.getLsbD_ofNat, Int.testBit]
    by_cases hi : i < n <;> simp [hi]

theorem ofInt_land (a b : ℤ) : BitVec.ofInt n (Int.land a b) = BitVec.ofInt n a &&& BitVec.ofInt n b := by
  apply BitVec.eq_of_getLsbD_eq
  intro i hi
  rw [BitVec.getLsbD_and, getLsbD_ofInt, getLsbD_ofInt, getLsbD_ofInt, Int.testBit_land]
  simp [hi]

theorem ofInt_lor (a b : ℤ) : BitVec.ofInt n (Int.lor a b) = BitVec.ofInt n a ||| BitVec.ofInt n b := by
  apply BitVec.eq_of_getLsbD_eq
  intro i hi
  rw [BitVec.getLsbD_or, getLsbD_ofInt, getLsbD_ofInt, getLsbD_ofInt, Int.testBit_lor]
  simp [hi]

theorem ofInt_xor (a b : ℤ) : BitVec.ofInt n (Int.xor a b) = BitVec.ofInt n a ^^^ BitVec.ofInt n b := by
  apply BitVec.eq_of_getLsbD_eq
  intro i hi
  rw [BitVec.getLsbD_xor, getLsbD_ofInt, getLsbD_ofInt, getLsbD_ofInt, Int.testBit_lxor]
  simp [hi]

theorem ofInt_lnot (a : ℤ) : BitVec.ofInt n (Int.lnot a) = ~~~ BitVec.ofInt n a := by
  apply BitVec.eq_of_getLsbD_eq
  intro i hi
  rw [BitVec.getLsbD_not, getLsbD_ofInt, getLsbD_ofInt, Int.testBit_lnot]
  simp [hi]

theorem ofInt_sub (a b : ℤ) : BitVec.ofInt n (a - b) = BitVec.ofInt n a - BitVec.ofInt n b := by
  apply BitVec.eq_of_toInt_eq
  simp

theorem ofInt_shiftLeft (a : ℤ) (k : ℕ) : BitVec.ofInt n (a * 2 ^ k) = BitVec.ofInt n a <<< k := by
  rw [BitVec.ofInt_mul, BitVec.shiftLeft_eq_mul_twoPow]
  congr 1
  apply BitVec.eq_of_toNat_eq
  rw [BitVec.toNat_twoPow]
  have h : ((2 : ℤ) ^ k) = ((2 ^ k : ℕ) : ℤ) := by push_cast; rfl
  rw [h, BitVec.ofInt_natCast, BitVec.toNat_ofNat]

end RustEvm.Narrow
