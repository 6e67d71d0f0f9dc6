import RustEvm.Abi.Panics

/-!
# RustEvm.Abi.Scalars — which words the scalar decoders read exactly

The decoders of the machine integers, `bool` and `Address` keep the low bytes of their word and drop the others.  A
word is read exactly, as the one value it encodes, when the number in it is one of the type (`Scalar.InRange`), and
otherwise as some other value (`exactDecode_iff`).
-/

namespace RustEvm.Abi

open BigEndian HeadTail Fallible

/-- The types with a value in a part of a word. -/
inductive Scalar
  | uint (n : IntWidth)
  | int (n : IntWidth)
  | bool
  | address
  deriving DecidableEq, Repr

def Scalar.toAbiTy : Scalar → AbiTy
  | uint n => .uint n
  | int n => .int n
  | bool => .bool
  | address => .address

/-- Decoding at `off` is the inverse of encoding: the value decoded is the one the word encodes, and a word that
encodes none is an error. -/
structure ExactDecode (u : Usize) (t : Scalar) (input : List UInt8) (off : ℕ) : Prop where
  exact_word : ∀ v, t.toAbiTy.decode u input off = .ok v →
    t.toAbiTy.toComponent v = .static (between input off (off + 32))
  inverse : ∀ v, t.toAbiTy.toComponent v = .static (between input off (off + 32)) →
    t.toAbiTy.decode u input off = .ok v
  rejects : (∀ v, t.toAbiTy.toComponent v ≠ .static (between input off (off + 32))) →
    ∃ e, t.toAbiTy.decode u input off = .error e

/-! ## The numbers of a type -/

/-- The number of a word in two's complement. -/
def signedNumber (w : ℕ) : ℤ := if w < 2 ^ 255 then w else w - 2 ^ 256

/-- The number in a word is one of the type. -/
def Scalar.InRange : Scalar → ℕ → Prop
  | uint n, w => w < 256 ^ n.bytes
  | int n, w => -(256 ^ n.bytes : ℤ) ≤ 2 * signedNumber w ∧ 2 * signedNumber w < 256 ^ n.bytes
  | bool, w => w ≤ 1
  | address, w => w < 256 ^ 20

instance (t : Scalar) (w : ℕ) : Decidable (t.InRange w) := by
  cases t <;> (unfold Scalar.InRange; infer_instance)

/-- The number read from a word. -/
def Scalar.lowNumber : Scalar → ℕ → ℤ
  | uint n, w => (w % 256 ^ n.bytes : ℕ)
  | int n, w => (w : ℤ).bmod (256 ^ n.bytes)
  | bool, w => if w = 0 then 0 else 1
  | address, w => (w % 256 ^ 20 : ℕ)

/-- The two's complement of a signed number that fits on 128 bits is a word when the word holds that number. -/
theorem twosComplement_eq_iff {k : ℤ} {w : ℕ} (hk : -2 ^ 128 ≤ k ∧ k < 2 ^ 128) (hw : w < 2 ^ 256) :
    twosComplement k = w ↔ k = signedNumber w := by
  unfold twosComplement signedNumber
  split_ifs <;> omega

/-- **The number read is the number in the word when that is one of the type.** -/
theorem Scalar.twosComplement_lowNumber (t : Scalar) {w : ℕ} (hw : w < 2 ^ 256) :
    twosComplement (t.lowNumber w) = w ↔ t.InRange w := by
  have hnat : ∀ n : ℕ, twosComplement n = n := fun n => by rw [twosComplement, if_neg (by omega)]
  cases t with
  | uint n =>
    show twosComplement (w % 256 ^ n.bytes : ℕ) = w ↔ w < 256 ^ n.bytes
    rw [hnat, Int.ofNat_inj]
    exact Nat.mod_eq_iff_lt (by positivity)
  | int n =>
    show twosComplement ((w : ℤ).bmod (256 ^ n.bytes)) = w ↔
      -(256 ^ n.bytes : ℤ) ≤ 2 * signedNumber w ∧ 2 * signedNumber w < 256 ^ n.bytes
    obtain ⟨half, hhalf⟩ : 2 ∣ 256 ^ n.bytes := by cases n <;> decide
    have hle : 256 ^ n.bytes ≤ 2 ^ 128 := Nat.pow_le_pow_right (by omega) n.bytes_le
    have hdvd : (256 ^ n.bytes : ℕ) ∣ 2 ^ 256 := pow_dvd_pow 256 (n.bytes_le.trans (by omega : 16 ≤ 32))
    have hpos : 0 < 256 ^ n.bytes := by positivity
    have hcast : ((256 ^ n.bytes : ℕ) : ℤ) = 256 ^ n.bytes := by push_cast; rfl
    have hlo := Int.le_bmod (x := w) hpos
    have hhi := Int.bmod_lt (x := w) hpos
    rw [twosComplement_eq_iff (by omega) hw, Int.bmod_eq_iff hpos, ← hcast]
    -- the sign only takes a multiple of `2 ^ 256` off the word
    have hsign : ((256 ^ n.bytes : ℕ) : ℤ) ∣ signedNumber w - w := by
      unfold signedNumber
      split_ifs
      · simp
      · have h := Int.natCast_dvd_natCast.mpr hdvd
        rw [show (w : ℤ) - 2 ^ 256 - w = -((2 ^ 256 : ℕ) : ℤ) by push_cast; ring]
        exact (Int.dvd_neg).mpr h
    omega
  | bool =>
    show twosComplement (if w = 0 then 0 else 1) = w ↔ w ≤ 1
    by_cases h : w = 0
    · subst h
      decide
    · rw [if_neg h, show twosComplement 1 = 1 from rfl]
      omega
  | address =>
    show twosComplement (w % 256 ^ 20 : ℕ) = w ↔ w < 256 ^ 20
    rw [hnat, Int.ofNat_inj]
    exact Nat.mod_eq_iff_lt (by positivity)

/-! ## What is decoded -/

theorem standsAt_between {input : List UInt8} {start stop : ℕ} (h : start ≤ stop) :
    StandsAt input start (between input start stop) := by
  refine ⟨input.drop stop, ?_⟩
  obtain ⟨k, rfl⟩ := Nat.exists_eq_add_of_le h
  rw [between, List.drop_take, Nat.add_sub_cancel_left, ← List.drop_drop, List.take_append_drop]

section

variable {u : Usize} {t : Scalar} {input : List UInt8} {off : ℕ}

/-- The low bytes of a word, as a number. -/
theorem ofBytes_drop_word (w : Word) {n : ℕ} (hn : n ≤ 32) :
    ofBytes (FixedBytes.copyFrom n (w.1.drop (32 - n))).1 = ofBytes w.1 % 256 ^ n := by
  have hlow : (w.1.drop (32 - n)).length = n := by
    rw [List.length_drop, w.2]
    omega
  have hsum := ofBytes_append (w.1.take (32 - n)) (w.1.drop (32 - n))
  have hlt := ofBytes_lt (w.1.drop (32 - n))
  rw [List.take_append_drop, hlow] at hsum
  rw [hlow] at hlt
  rw [FixedBytes.copyFrom_eq hlow, hsum, Nat.mul_add_mod_self_right, Nat.mod_eq_of_lt hlt]

/-- **A scalar is decoded from any word inside the input**, as the low number of the word. -/
theorem decode_scalar_of_readWord {w : Word} (h : readWord u input off = .ok w) :
    ∃ v, t.toAbiTy.decode u input off = .ok v ∧ t.toAbiTy.value v = .number (t.lowNumber (ofBytes w.1)) := by
  have hint : ∀ n : IntWidth, decodeInt u n input off = .ok (BitVec.ofNat _ (ofBytes w.1 % 256 ^ n.bytes)) := by
    intro n
    have hn : n.bytes ≤ 32 := n.bytes_le.trans (by omega)
    rw [← ofBytes_drop_word w hn, decodeInt, h]
    rfl
  have hpow : ∀ n : IntWidth, 2 ^ (8 * n.bytes) = 256 ^ n.bytes := fun n => by rw [pow_mul, show 2 ^ 8 = 256 from rfl]
  cases t with
  | uint n =>
    refine ⟨_, hint n, ?_⟩
    show AbiValue.number _ = .number ((ofBytes w.1 % 256 ^ n.bytes : ℕ) : ℤ)
    rw [BitVec.toNat_ofNat, hpow, Nat.mod_mod]
  | int n =>
    refine ⟨_, hint n, ?_⟩
    show AbiValue.number _ = .number ((ofBytes w.1 : ℤ).bmod (256 ^ n.bytes))
    rw [BitVec.toInt_ofNat', hpow, Int.natCast_mod, Int.emod_bmod]
  | bool =>
    refine ⟨w.1.any (fun b => b != 0), ?_, ?_⟩
    · show (readWord u input off >>= _) = _
      rw [h]
      rfl
    · show AbiValue.number _ = .number (if ofBytes w.1 = 0 then 0 else 1)
      by_cases hzero : ofBytes w.1 = 0
      · rw [if_pos hzero, Bool.eq_false_iff.mpr fun hany => (any_ne_zero_iff _).mp hany hzero]
        rfl
      · rw [if_neg hzero, (any_ne_zero_iff _).mpr hzero]
        rfl
  | address =>
    refine ⟨.copyFrom 20 (w.1.drop 12), ?_, ?_⟩
    · show (readWord u input off >>= _) = _
      rw [h]
      rfl
    · show AbiValue.number _ = .number ((ofBytes w.1 % 256 ^ 20 : ℕ) : ℤ)
      rw [← ofBytes_drop_word w (by omega)]
      rfl

/-- A word encodes the value whose number it holds. -/
theorem toComponent_scalar_eq_iff {v : t.toAbiTy.Val} {k : ℤ} {bs : List UInt8}
    (hv : t.toAbiTy.value v = .number k) (hbs : bs.length = 32) :
    t.toAbiTy.toComponent v = .static bs ↔ twosComplement k = ofBytes bs := by
  obtain ⟨k', w, hk, hc, hw, hnum⟩ | ⟨data, hk, -⟩ := Arg.toComponent_cases ⟨t.toAbiTy, v⟩
  · obtain rfl : k' = k := AbiValue.number.inj (hk.symm.trans hv)
    have hc' : t.toAbiTy.toComponent v = .static w := hc
    rw [hc', Component.static.injEq, ← hnum, Int.ofNat_inj]
    exact ⟨fun h => congrArg ofBytes h, ofBytes_inj (hw.trans hbs.symm)⟩
  · cases hk.symm.trans hv

/-- A scalar is one word. -/
theorem length_scalar {v : t.toAbiTy.Val} {bs : List UInt8} (h : t.toAbiTy.toComponent v = .static bs) :
    bs.length = 32 := by
  obtain ⟨_, w, -, hc, hw, -⟩ | ⟨_, -, hc⟩ := Arg.toComponent_cases ⟨t.toAbiTy, v⟩
  · obtain rfl : w = bs := Component.static.inj (hc.symm.trans h)
    exact hw
  · cases hc.symm.trans h

/-- Nothing is decoded from past the end. -/
theorem inside_of_decode_scalar {v : t.toAbiTy.Val} (h : t.toAbiTy.decode u input off = .ok v) :
    off + 32 ≤ input.length := by
  have hread : ∃ w, readWord u input off = .ok w := by
    cases t <;> obtain ⟨w, hw, -⟩ := bind_eq_ok.mp (show (readWord u input off >>= _) = _ from h) <;> exact ⟨w, hw⟩
  obtain ⟨w, hw⟩ := hread
  exact (readWord_eq_ok_iff.mp hw).2.1

/-- **A scalar is decoded exactly at an offset if and only if the number there is one of its type**, when the word is
inside at all. -/
theorem exactDecode_iff (u : Usize) (t : Scalar) (input : Slice u) (off : ℕ) :
    ExactDecode u t input.1 off ↔ (off + 32 ≤ input.1.length → t.InRange (wordAt input.1 off)) := by
  have hsize := input.2
  by_cases hin : off + 32 ≤ input.1.length
  · have hbs : (between input.1 off (off + 32)).length = 32 := by
      rw [length_between hin]
      omega
    have hread : readWord u input.1 off = .ok ⟨_, hbs⟩ := readWord_eq_ok_iff.mpr ⟨by omega, hin, rfl⟩
    have hlt : wordAt input.1 off < 2 ^ 256 := (ofBytes_lt _).trans_eq (by rw [← between, hbs]; norm_num)
    obtain ⟨v, hdec, hv⟩ := decode_scalar_of_readWord (t := t) hread
    have hword : t.toAbiTy.toComponent v = .static (between input.1 off (off + 32)) ↔ t.InRange (wordAt input.1 off) :=
      (toComponent_scalar_eq_iff hv hbs).trans (t.twosComplement_lowNumber hlt)
    constructor
    · exact fun h _ => hword.mp (h.exact_word v hdec)
    · intro h
      have henc := hword.mpr (h hin)
      refine ⟨?_, ?_, fun hnone => absurd henc (hnone v)⟩
      · intro v' hv'
        rwa [← Except.ok.inj (hdec.symm.trans hv')]
      · exact fun v' hv' => decode_static (a := ⟨_, v'⟩) hv' (standsAt_between (by omega)) (by omega)
  · have herr : ∀ v, t.toAbiTy.decode u input.1 off ≠ .ok v := fun v hv => hin (inside_of_decode_scalar hv)
    refine ⟨fun _ h => absurd h hin, fun _ => ⟨fun v hv => absurd hv (herr v), ?_, ?_⟩⟩
    · intro v hv
      have hbs := length_scalar hv
      rw [between, List.length_drop, List.length_take] at hbs
      omega
    · intro _
      cases hdec : t.toAbiTy.decode u input.1 off with
      | error e => exact ⟨e, rfl⟩
      | ok v => exact absurd hdec (herr v)

end

/-- A `u8` decoded from a word with 256 in it is zero. -/
theorem not_exactDecode_u8 :
    AbiTy.decode .u64 (toBytes 32 256) 0 (.uint .w8) = .ok 0 ∧
      AbiTy.toComponent (.uint .w8) 0 ≠ .static (toBytes 32 256) ∧
      ¬ ∀ (u : Usize) (t : Scalar) (input : Slice u) (off : ℕ), ExactDecode u t input.1 off := by
  have hdec : AbiTy.decode .u64 (toBytes 32 256) 0 (.uint .w8) = .ok 0 := by decide
  have hword : AbiTy.toComponent (.uint .w8) 0 ≠ .static (toBytes 32 256) := by decide
  refine ⟨hdec, hword, fun h => ?_⟩
  exact hword ((h .u64 (.uint .w8) ⟨toBytes 32 256, by decide⟩ 0).exact_word _ hdec)

end RustEvm.Abi
