import RustEvm.Ir.Inst

/-!
# RustEvm.Ir.Repair — the repairs are sound, and none is wasted

* `holds_defaultRepair`: on well-formed operands the default repair of an operation restores the invariant of its
  result type.  Where the repair is `none` the raw result satisfies it already, one case per such operation.
* `value_defaultRepair`: the repaired word then denotes the exact result of the operation, wrapped to the type.
* `holds_forConvert`, `forConvert_none_iff`: a cast gives the integer modulo the destination's width, and costs a
  repair only if some word needs one.
-/

namespace RustEvm.Ir

open Isa Codegen Evm Narrow

variable {ty : Ty}

/-! ## Operations that need no repair -/

theorem holds_cmp (cmp : Cmp) (signed : Bool) (a b : Word) : Ty.BOOL.Holds (cmp.word signed a b) := by
  have hbool : ∀ c, Ty.BOOL.Holds (Word.ofBool c) := fun c =>
    isZext_iff.mpr ((Word.toNat_ofBool_le c).trans_lt (by decide))
  cases cmp <;> cases signed <;> exact hbool _

/-- A condition is zero or one, so its negation is a mask of all bits or none. -/
theorem select_eq {c : Word} (hc : Ty.BOOL.Holds c) (t e : Word) :
    (t &&& (0 - c)) ||| (e &&& ~~~ (0 - c)) = if c = 0 then e else t := by
  have hlt : c.toNat < 2 := isZext_iff.mp hc
  rcases (show c.toNat = 0 ∨ c.toNat = 1 by omega) with h | h
  · obtain rfl : c = 0 := BitVec.eq_of_toNat_eq h
    have hm : ~~~ (0 - 0 : Word) = BitVec.allOnes 256 := by decide
    rw [hm, BitVec.and_allOnes]
    simp
  · obtain rfl : c = 1 := BitVec.eq_of_toNat_eq h
    have hm : (0 - 1 : Word) = BitVec.allOnes 256 := by decide
    rw [hm, BitVec.and_allOnes]
    simp

/-- `NOT` needs its repair at unsigned types only. -/
theorem defaultRepair_not (ty : Ty) : Op.not.defaultRepair ty = if ty.isSigned then .none else ty.repair := rfl

/-- Division, remainder and logical shift need theirs at signed types only. -/
theorem defaultRepair_lowering {op : Op} (h : op = .div ∨ op = .rem ∨ op = .shr) (ty : Ty) :
    op.defaultRepair ty = if ty.isSigned then ty.repair else .none := by
  have key : op.defaultRepair ty = if !ty.isSigned then .none else ty.repair := by
    rcases h with rfl | rfl | rfl <;> rfl
  rw [key]
  cases ty.isSigned <;> rfl

theorem holds_of_toNat_le {x y : Word} (hs : ty.isSigned = false) (hx : ty.Holds x) (h : y.toNat ≤ x.toNat) :
    ty.Holds y := by
  unfold Ty.Holds at hx ⊢
  rw [hs] at hx ⊢
  exact IsZext.of_le hx h

/-- **The default repair restores the invariant** of the result type, on well-formed operands. -/
theorem holds_defaultRepair {op : Op} {args : List Operand} {r : Word} (hop : op ≠ .convert)
    (hexp : op.Expects ty (args.map Operand.ty)) (hwf : ∀ a ∈ args, a.WellFormed) (hr : op.Produces ty args r) :
    ty.Holds ((op.defaultRepair ty).apply r) := by
  cases op with
  | convert => exact absurd rfl hop
  | add | sub | mul | addMod | mulMod | exp | addOverflow | subOverflow | mulOverflow | shl | sar | extractByte | load
    | store | memCopy | sload | sstore | tload | tstore | opcode _ =>
    -- the repair of the type, whatever was left
    exact ty.holds_repair r
  | call _ | alloca _ => exact hr
  | const value =>
    obtain rfl := hr
    exact hexp
  | icmp cmp =>
    obtain ⟨a, b, rfl, rfl⟩ := hr
    obtain ⟨-, rfl⟩ := hexp
    exact holds_cmp cmp _ _ _
  | select =>
    obtain ⟨c, t, e, rfl, rfl⟩ := hr
    obtain ⟨hc, ht, he⟩ := hexp
    have hcond : Ty.BOOL.Holds c.word := hc ▸ hwf c (by simp)
    change ty.Holds ((t.word &&& (0 - c.word)) ||| (e.word &&& ~~~ (0 - c.word)))
    rw [select_eq hcond]
    split
    · exact he ▸ hwf e (by simp)
    · exact ht ▸ hwf t (by simp)
  | and =>
    obtain ⟨a, b, rfl, rfl⟩ := hr
    obtain ⟨ha, hb⟩ := hexp
    exact IsCanon.and (ha ▸ hwf a (by simp)) (hb ▸ hwf b (by simp))
  | or =>
    obtain ⟨a, b, rfl, rfl⟩ := hr
    obtain ⟨ha, hb⟩ := hexp
    exact IsCanon.or (ha ▸ hwf a (by simp)) (hb ▸ hwf b (by simp))
  | xor =>
    obtain ⟨a, b, rfl, rfl⟩ := hr
    obtain ⟨ha, hb⟩ := hexp
    exact IsCanon.xor (ha ▸ hwf a (by simp)) (hb ▸ hwf b (by simp))
  | not =>
    obtain ⟨a, rfl, rfl⟩ := hr
    have ha : ty.Holds a.word := (show a.ty = ty from hexp) ▸ hwf a (by simp)
    rw [defaultRepair_not]
    cases hs : ty.isSigned with
    | true =>
      unfold Ty.Holds at ha ⊢
      rw [hs] at ha ⊢
      exact IsSext.not ha
    | false => exact ty.holds_repair _
  | div =>
    obtain ⟨a, b, rfl, rfl⟩ := hr
    have ha : ty.Holds a.word := hexp.1 ▸ hwf a (by simp)
    rw [defaultRepair_lowering (.inl rfl)]
    cases hs : ty.isSigned with
    | true => exact ty.holds_repair _
    | false => exact holds_of_toNat_le hs ha ((Word.toNat_div _ _).trans_le (Nat.div_le_self _ _))
  | rem =>
    obtain ⟨a, b, rfl, rfl⟩ := hr
    have ha : ty.Holds a.word := hexp.1 ▸ hwf a (by simp)
    rw [defaultRepair_lowering (.inr (.inl rfl))]
    cases hs : ty.isSigned with
    | true => exact ty.holds_repair _
    | false => exact holds_of_toNat_le hs ha (Word.toNat_mod_le _ _)
  | shr =>
    obtain ⟨a, s, rfl, rfl⟩ := hr
    have ha : ty.Holds a.word := (show a.ty = ty from hexp) ▸ hwf a (by simp)
    rw [defaultRepair_lowering (.inr (.inr rfl))]
    cases hs : ty.isSigned with
    | true => exact ty.holds_repair _
    | false => exact holds_of_toNat_le hs ha (Word.toNat_shr_le _ _)

/-! ## The integer denoted -/

theorem defaultRepair_cases (op : Op) (ty : Ty) : op.defaultRepair ty = .none ∨ op.defaultRepair ty = ty.repair := by
  cases op with
  | not =>
    rw [defaultRepair_not]
    cases ty.isSigned <;> simp
  | div | rem | shr =>
    rw [defaultRepair_lowering (by simp)]
    cases ty.isSigned <;> simp
  | icmp _ | const _ | select | call _ | alloca _ | and | or | xor => exact .inl rfl
  | _ => exact .inr rfl

/-- A repaired word that satisfies the invariant is the canonical form of the raw one. -/
theorem apply_eq_canon {rep : Repair} {r : Word} (hty : ty.isWellFormed = true) (hrep : rep = .none ∨ rep = ty.repair)
    (h : ty.Holds (rep.apply r)) : rep.apply r = canon ty.isSigned ty.bits.toNat r := by
  obtain ⟨h1, h256⟩ := Ty.isWellFormed_iff.mp hty
  rcases hrep with rfl | rfl
  · exact (canon_eq_of_isCanon h1 h).symm
  · rcases h256.lt_or_eq with hlt | heq
    · exact Ty.apply_repair hlt r
    · rw [Ty.repair_of_le heq.ge]
      exact (canon_eq_of_isCanon h1 (isCanon_of_le heq.ge r)).symm

theorem ofInt_ty_value (x : Word) : BitVec.ofInt 256 (ty.value x) = x := ofInt_value x

theorem value_signed (hs : ty.isSigned = true) (x : Word) : ty.value x = x.toInt := by
  simp [Ty.value, Narrow.value, hs]

theorem value_unsigned (hs : ty.isSigned = false) (x : Word) : ty.value x = x.toNat := by
  simp [Ty.value, Narrow.value, hs]

theorem ofInt_toNat (x : Word) : BitVec.ofInt 256 x.toNat = x := by simp

/-- The machine's division is the integer one of what its type reads from the operands. -/
theorem ofInt_div_value (x y : Word) :
    (if ty.isSigned then Word.sdiv x y else Word.div x y) =
      BitVec.ofInt 256 (if ty.value y = 0 then 0 else Int.tdiv (ty.value x) (ty.value y)) := by
  cases hs : ty.isSigned with
  | true =>
    simp only [value_signed hs, if_true]
    apply BitVec.eq_of_toInt_eq
    rw [BitVec.toInt_ofInt, Word.toInt_sdiv]
    split
    · next h => rw [h, Int.tdiv_zero]
    · rfl
  | false =>
    simp only [value_unsigned hs, Bool.false_eq_true, if_false]
    rw [← ofInt_toNat (Word.div x y), Word.toNat_div]
    congr 1
    split
    · next h => simp [Int.natCast_eq_zero.mp h]
    · rfl

/-- The machine's remainder is the integer one, of the sign of the dividend. -/
theorem ofInt_rem_value (x y : Word) :
    (if ty.isSigned then Word.smod x y else Word.mod x y) =
      BitVec.ofInt 256 (if ty.value y = 0 then 0 else Int.tmod (ty.value x) (ty.value y)) := by
  cases hs : ty.isSigned with
  | true =>
    simp only [value_signed hs, if_true]
    rw [← Word.toInt_smod, BitVec.ofInt_toInt]
  | false =>
    simp only [value_unsigned hs, Bool.false_eq_true, if_false]
    rw [← ofInt_toNat (Word.mod x y), Word.toNat_mod]
    congr 1
    by_cases h : y.toNat = 0
    · simp [h]
    · have h' : (y.toNat : ℤ) ≠ 0 := by exact_mod_cast h
      rw [if_neg h, if_neg h']
      rfl

/-- A logical right shift floors where the type reads an unsigned integer. -/
theorem ofInt_shr_value (hs : ty.isSigned = false) (s x : Word) :
    Word.shr s x = BitVec.ofInt 256 (ty.value x / 2 ^ s.toNat) := by
  rw [value_unsigned hs, ← ofInt_toNat (Word.shr s x), Word.shr, BitVec.toNat_ushiftRight, Nat.shiftRight_eq_div_pow]
  congr 1

/-- An arithmetic right shift floors where the type reads a signed one. -/
theorem ofInt_sar_value (hs : ty.isSigned = true) (s x : Word) :
    Word.sar s x = BitVec.ofInt 256 (ty.value x / 2 ^ s.toNat) := by
  rw [value_signed hs, ← BitVec.ofInt_toInt (x := Word.sar s x), Word.sar, BitVec.toInt_sshiftRight,
    Int.shiftRight_eq_div_pow]
  congr 1

/-- Where an operation has an exact result, the raw word is right modulo `2 ^ 256`. -/
theorem produces_exact {op : Op} {args : List Operand} {r : Word} {k : ℤ} (hr : op.Produces ty args r)
    (hk : op.exact ty args = some k) : r = BitVec.ofInt 256 k := by
  cases op with
  | add | addOverflow =>
    obtain ⟨a, b, rfl, rfl⟩ := hr
    obtain rfl := Option.some.inj hk
    rw [BitVec.ofInt_add, ofInt_ty_value, ofInt_ty_value]
  | sub | subOverflow =>
    obtain ⟨a, b, rfl, rfl⟩ := hr
    obtain rfl := Option.some.inj hk
    rw [ofInt_sub, ofInt_ty_value, ofInt_ty_value]
  | mul | mulOverflow =>
    obtain ⟨a, b, rfl, rfl⟩ := hr
    obtain rfl := Option.some.inj hk
    rw [BitVec.ofInt_mul, ofInt_ty_value, ofInt_ty_value]
  | and =>
    obtain ⟨a, b, rfl, rfl⟩ := hr
    obtain rfl := Option.some.inj hk
    rw [ofInt_land, ofInt_ty_value, ofInt_ty_value]
  | or =>
    obtain ⟨a, b, rfl, rfl⟩ := hr
    obtain rfl := Option.some.inj hk
    rw [ofInt_lor, ofInt_ty_value, ofInt_ty_value]
  | xor =>
    obtain ⟨a, b, rfl, rfl⟩ := hr
    obtain rfl := Option.some.inj hk
    rw [ofInt_xor, ofInt_ty_value, ofInt_ty_value]
  | not =>
    obtain ⟨a, rfl, rfl⟩ := hr
    obtain rfl := Option.some.inj hk
    rw [ofInt_lnot, ofInt_ty_value]
  | shl =>
    obtain ⟨a, s, rfl, rfl⟩ := hr
    obtain rfl := Option.some.inj hk
    rw [ofInt_shiftLeft, ofInt_ty_value]
    rfl
  | div =>
    obtain ⟨a, b, rfl, rfl⟩ := hr
    obtain rfl := Option.some.inj hk
    exact ofInt_div_value a.word b.word
  | rem =>
    obtain ⟨a, b, rfl, rfl⟩ := hr
    obtain rfl := Option.some.inj hk
    exact ofInt_rem_value a.word b.word
  | shr =>
    obtain ⟨a, s, rfl, rfl⟩ := hr
    cases hs : ty.isSigned with
    | true => simp [Op.exact, hs] at hk
    | false =>
      obtain rfl : ty.value a.word / 2 ^ s.word.toNat = k := by simpa [Op.exact, hs] using hk
      exact ofInt_shr_value hs s.word a.word
  | sar =>
    obtain ⟨a, s, rfl, rfl⟩ := hr
    cases hs : ty.isSigned with
    | false => simp [Op.exact, hs] at hk
    | true =>
      obtain rfl : ty.value a.word / 2 ^ s.word.toNat = k := by simpa [Op.exact, hs] using hk
      exact ofInt_sar_value hs s.word a.word
  | _ => exact absurd hk (by simp [Op.exact])

/-- **The repaired word denotes the exact result**, wrapped to the width and signedness of the type. -/
theorem value_defaultRepair {op : Op} {args : List Operand} {r : Word} {k : ℤ} (hty : ty.isWellFormed = true)
    (hop : op ≠ .convert) (hexp : op.Expects ty (args.map Operand.ty)) (hwf : ∀ a ∈ args, a.WellFormed)
    (hr : op.Produces ty args r) (hk : op.exact ty args = some k) :
    ty.value ((op.defaultRepair ty).apply r) = ty.wrap k := by
  rw [apply_eq_canon hty (defaultRepair_cases op ty) (holds_defaultRepair hop hexp hwf hr), produces_exact hr hk]
  exact value_canon_ofInt (Ty.isWellFormed_iff.mp hty).2 k

/-- **The default repairs are sound**: the invariant of the result type is restored, and where the operation has an
exact result the repaired word denotes it, wrapped. -/
theorem default_repair_sound {op : Op} {args : List Operand} {r : Word} (hty : ty.isWellFormed = true)
    (hconvert : op ≠ .convert) (hexp : op.Expects ty (args.map Operand.ty)) (hwf : ∀ a ∈ args, a.WellFormed)
    (hr : op.Produces ty args r) :
    ty.Holds ((op.defaultRepair ty).apply r) ∧
      ∀ k, op.exact ty args = some k → ty.value ((op.defaultRepair ty).apply r) = ty.wrap k :=
  ⟨holds_defaultRepair hconvert hexp hwf hr, fun _ hk => value_defaultRepair hty hconvert hexp hwf hr hk⟩

/-- The one signed division that overflows: `-128 / -1` at `i8`. -/
theorem default_repair_sound_min :
    Ty.I8.Holds ((Op.div.defaultRepair .I8).apply (Word.sdiv (-128) (-1))) ∧
      ∀ k, Op.div.exact .I8 [⟨.I8, -128⟩, ⟨.I8, -1⟩] = some k →
        Ty.I8.value ((Op.div.defaultRepair .I8).apply (Word.sdiv (-128) (-1))) = Ty.I8.wrap k :=
  default_repair_sound (by decide) (by decide) ⟨rfl, rfl⟩ (by decide +kernel) ⟨_, _, rfl, (if_pos rfl).symm⟩

/-! ## Casts -/

/-- A cast does nothing where its source satisfies the destination's invariant already: a signed destination that
contains a signed source, or strictly contains an unsigned one, or an unsigned destination that contains an unsigned
source.  Otherwise it is the repair of the destination. -/
theorem forConvert_cases (src dst : Ty) :
    (Repair.forConvert src dst = .none ∧ ∀ x, src.Holds x → dst.Holds x) ∨
      (Repair.forConvert src dst = dst.repair ∧
        ((dst.isSigned = true ∧ src.isSigned = true ∧ dst.bits.toNat < src.bits.toNat) ∨
         (dst.isSigned = true ∧ src.isSigned = false ∧ dst.bits.toNat ≤ src.bits.toNat) ∨
         (dst.isSigned = false ∧ src.isSigned = true) ∨
         (dst.isSigned = false ∧ src.isSigned = false ∧ dst.bits.toNat < src.bits.toNat))) := by
  have hunfold : Repair.forConvert src dst =
      if dst.isSigned then
        if (if src.isSigned then decide (src.bits ≤ dst.bits) else decide (src.bits < dst.bits)) then .none
        else Repair.sextTo dst.bits
      else if !src.isSigned && decide (src.bits ≤ dst.bits) then .none else Repair.maskTo dst.bits := rfl
  have hrep : dst.repair = if dst.isSigned then Repair.sextTo dst.bits else Repair.maskTo dst.bits := rfl
  have hle : src.bits ≤ dst.bits ↔ src.bits.toNat ≤ dst.bits.toNat := UInt16.le_iff_toNat_le
  have hlt : src.bits < dst.bits ↔ src.bits.toNat < dst.bits.toNat := UInt16.lt_iff_toNat_lt
  rw [hunfold, hrep]
  unfold Ty.Holds
  cases hd : dst.isSigned <;> cases hs : src.isSigned
  · by_cases h : src.bits.toNat ≤ dst.bits.toNat
    · left
      refine ⟨by simp [hle, h], fun x hx => ?_⟩
      exact isZext_iff.mpr ((isZext_iff.mp hx).trans_le (Nat.pow_le_pow_right (by omega) h))
    · right
      simp [hle, h]
      omega
  · right
    simp
  · by_cases h : src.bits.toNat < dst.bits.toNat
    · left
      refine ⟨by simp [hlt, h], fun x hx => ?_⟩
      intro i hi hw
      rw [hx i hi (by omega), hx (dst.bits.toNat - 1) (by omega) (by omega)]
    · right
      simp [hlt, h]
      omega
  · by_cases h : src.bits.toNat ≤ dst.bits.toNat
    · left
      refine ⟨by simp [hle, h], fun x hx => ?_⟩
      intro i hi hw
      rcases h.lt_or_eq with hlt' | heq
      · rw [hx i hi (by omega), hx (dst.bits.toNat - 1) (by omega) (by omega)]
      · rw [hx i hi (by omega), heq]
    · right
      simp [hle, h]
      omega

/-- **A cast restores the invariant** of its destination. -/
theorem holds_forConvert {src : Ty} (dst : Ty) {x : Word} (hx : src.Holds x) :
    dst.Holds ((Repair.forConvert src dst).apply x) := by
  rcases forConvert_cases src dst with ⟨hnone, hsub⟩ | ⟨hrep, -⟩
  · rw [hnone]
    exact hsub x hx
  · rw [hrep]
    exact dst.holds_repair x

/-- A cast keeps the integer modulo the width of its destination. -/
theorem value_forConvert {src dst : Ty} (hdst : dst.isWellFormed = true) {x : Word} (hx : src.Holds x) :
    dst.value ((Repair.forConvert src dst).apply x) ≡ src.value x [ZMOD 2 ^ dst.bits.toNat] := by
  have hrep : Repair.forConvert src dst = .none ∨ Repair.forConvert src dst = dst.repair :=
    (forConvert_cases src dst).imp And.left And.left
  rw [apply_eq_canon hdst hrep (holds_forConvert dst hx)]
  have h := value_canon (s := dst.isSigned) (Ty.isWellFormed_iff.mp hdst).2 src.isSigned x
  rw [Ty.value, h]
  exact wrap_modEq _ _

/-- Where the destination's repair does something and its invariant is not implied, some word needs it. -/
theorem exists_needs_repair {src dst : Ty} (hsrc : src.isWellFormed = true) (hnarrow : dst.bits.toNat < 256)
    (hdst : 1 ≤ dst.bits.toNat)
    (hcase : (dst.isSigned = true ∧ src.isSigned = true ∧ dst.bits.toNat < src.bits.toNat) ∨
      (dst.isSigned = true ∧ src.isSigned = false ∧ dst.bits.toNat ≤ src.bits.toNat) ∨
      (dst.isSigned = false ∧ src.isSigned = true) ∨
      (dst.isSigned = false ∧ src.isSigned = false ∧ dst.bits.toNat < src.bits.toNat)) :
    ∃ x : Word, src.Holds x ∧ ¬ dst.Holds x := by
  obtain ⟨-, hs256⟩ := Ty.isWellFormed_iff.mp hsrc
  unfold Ty.Holds
  rcases hcase with ⟨hd, hs, hlt⟩ | ⟨hd, hs, hle⟩ | ⟨hd, hs⟩ | ⟨hd, hs, hlt⟩ <;> rw [hd, hs]
  · -- a value bit of the source where the destination has its sign bit
    exact ⟨BitVec.twoPow 256 (dst.bits.toNat - 1), isSext_twoPow (by omega), not_isSext_twoPow hdst hnarrow⟩
  · exact ⟨BitVec.twoPow 256 (dst.bits.toNat - 1), isZext_twoPow (by omega), not_isSext_twoPow hdst hnarrow⟩
  · -- minus one carries sign bits above every width
    exact ⟨BitVec.allOnes 256, isSext_allOnes hs256, not_isZext_allOnes hnarrow⟩
  · -- the first bit the destination does not have
    exact ⟨BitVec.twoPow 256 dst.bits.toNat, isZext_twoPow hlt, not_isZext_twoPow hnarrow⟩

/-- **No cast wastes a repair**: it does nothing exactly when no word needs anything done. -/
theorem forConvert_none_iff {src dst : Ty} (hsrc : src.isWellFormed = true) (hdst : dst.isWellFormed = true) :
    Repair.forConvert src dst = .none ↔ ∀ x, src.Holds x → dst.Holds x := by
  constructor
  · intro hnone x hx
    have h := holds_forConvert dst hx
    rwa [hnone] at h
  · intro hsub
    rcases forConvert_cases src dst with ⟨hnone, -⟩ | ⟨hrep, hcase⟩
    · exact hnone
    · obtain ⟨h1, h256⟩ := Ty.isWellFormed_iff.mp hdst
      rcases h256.lt_or_eq with hlt | heq
      · obtain ⟨x, hx, hnot⟩ := exists_needs_repair hsrc hlt h1 hcase
        exact absurd (hsub x hx) hnot
      · rw [hrep, Ty.repair_of_le heq.ge]

/-- **Every integer cast**: the destination's invariant is restored, the integer is kept modulo its width, and a
repair is spent exactly when some well-formed word of the source needs one. -/
theorem for_convert_sound_and_tight {src dst : Ty} (hsrc : src.isWellFormed = true) (hdst : dst.isWellFormed = true) :
    (∀ x, src.Holds x → dst.Holds ((Repair.forConvert src dst).apply x) ∧
      dst.value ((Repair.forConvert src dst).apply x) ≡ src.value x [ZMOD 2 ^ dst.bits.toNat]) ∧
    (Repair.forConvert src dst = .none ↔ ∀ x, src.Holds x → dst.Holds x) :=
  ⟨fun _ hx => ⟨holds_forConvert dst hx, value_forConvert hdst hx⟩, forConvert_none_iff hsrc hdst⟩

theorem for_convert_sound_and_tight_u8_i8 :
    (∀ x, Ty.U8.Holds x → Ty.I8.Holds ((Repair.forConvert .U8 .I8).apply x) ∧
      Ty.I8.value ((Repair.forConvert .U8 .I8).apply x) ≡ Ty.U8.value x [ZMOD 2 ^ Ty.I8.bits.toNat]) ∧
    (Repair.forConvert .U8 .I8 = .none ↔ ∀ x, Ty.U8.Holds x → Ty.I8.Holds x) :=
  for_convert_sound_and_tight (by decide) (by decide)

end RustEvm.Ir
