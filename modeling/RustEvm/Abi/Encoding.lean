import RustEvm.Abi.Codec
import RustEvm.Lib.HeadTail

/-!
# RustEvm.Abi.Encoding — `encode_tuple` is the ABI encoding

`encodeTuple_eq_layout` turns the loop into the head/tail record of `Lib.HeadTail`.  `IsEncoding` is the specification
of the encoding, written over values that are either a number or a byte string; `encode_tuple_isEncoding` is the
result.
-/

namespace RustEvm.Abi

open BigEndian HeadTail

section Loop

variable (u : Usize)

/-- An element as a part of a record. -/
def Component.part : Component → RecordPart UInt8
  | static b => .inline b
  | dynamic b => .outline b

/-- The head word of a dynamic element standing at `k`. -/
def offsetWord (k : ℕ) : List UInt8 := (wordFromUsize (k % u.card)).1

theorem length_offsetWord (k : ℕ) : (offsetWord u k).length = 32 := (wordFromUsize _).2

@[simp] theorem headLength_part (c : Component) : c.part.headLength 32 = c.headLength := by
  cases c <;> rfl

theorem foldl_add (ns : List ℕ) (k : ℕ) : ns.foldl u.add (k % u.card) = (k + ns.sum) % u.card := by
  induction ns generalizing k with
  | nil => rfl
  | cons n ns ih =>
    rw [List.foldl_cons, List.sum_cons, ← Nat.add_assoc, ← ih, Usize.add, Nat.mod_add_mod]

/-- The loop of `encode_tuple` from any head and tail: the head entries are added to the one, the outlined parts to
the other, and the next offset is the size of the whole head and of the tail so far. -/
theorem foldl_encodeStep (size : ℕ) (cs : List Component) (head tail : List UInt8) :
    cs.foldl (encodeStep u (size % u.card)) (head, tail) =
      (head ++ heads (offsetWord u) (size + tail.length) (cs.map Component.part),
        tail ++ tails (cs.map Component.part)) := by
  induction cs generalizing head tail with
  | nil => simp [heads, tails]
  | cons c cs ih =>
    rw [List.foldl_cons, List.map_cons]
    cases c with
    | static b => simp [encodeStep, ih, Component.part, heads, tails, RecordPart.outside]
    | dynamic b =>
      simp [encodeStep, ih, Component.part, heads, tails, RecordPart.outside, offsetWord, Usize.add, Nat.add_assoc]

/-- **`encode_tuple` lays out the head/tail record of its components.** -/
theorem encodeTuple_eq_layout (cs : List Component) :
    encodeTuple u cs = layout (offsetWord u) 32 (cs.map Component.part) := by
  have hsize : (cs.map Component.headLength).foldl u.add 0 =
      headSize 32 (cs.map Component.part) % u.card := by
    have hmap : (cs.map Component.part).map (RecordPart.headLength 32) = cs.map Component.headLength := by
      simp [Function.comp_def]
    rw [headSize, hmap, ← Nat.zero_mod u.card, foldl_add, Nat.zero_add]
  show (fun s : List UInt8 × List UInt8 => s.1 ++ s.2)
    (cs.foldl (encodeStep u ((cs.map Component.headLength).foldl u.add 0)) ([], [])) = _
  rw [hsize, foldl_encodeStep]
  rfl

end Loop

/-! ## The specification -/

/-- A value as the specification sees it: a number, or a byte string for the tail. -/
inductive AbiValue
  | number (k : ℤ)
  | data (bs : List UInt8)
  deriving DecidableEq

/-- The value of an argument: its integer, `0` or `1` for `bool`, the bytes of the dynamic types. -/
def AbiTy.value : (t : AbiTy) → t.Val → AbiValue
  | uint _, v => .number v.toNat
  | int _, v => .number v.toInt
  | bool, b => .number b.toNat
  | bytes32, w => .number w.toNat
  | u256, w => .number w.toNat
  | address, a => .number a.toNat
  | bytes, data => .data data
  | string, s => .data s.toUTF8.data.toList

def Arg.value (a : Arg) : AbiValue := a.1.value a.2

/-- A number as a 256-bit integer in two's complement. -/
def twosComplement (k : ℤ) : ℤ := if k < 0 then k + 2 ^ 256 else k

/-- The zero bytes up to the next multiple of 32. -/
def padding (n : ℕ) : ℕ := (32 - n % 32) % 32

/-- The region of a value in the tail: its length as a word, its bytes, the padding. -/
def AbiValue.region : AbiValue → List UInt8
  | number _ => []
  | data bs => toBytes 32 bs.length ++ bs ++ List.replicate (padding bs.length) 0

/-- The offset of the region of value number `i`. -/
def tailOffset (vs : List AbiValue) (i : ℕ) : ℕ :=
  32 * vs.length + ((vs.take i).map fun v => v.region.length).sum

/-- The word at an offset, as a number. -/
def wordAt (out : List UInt8) (off : ℕ) : ℕ := ofBytes ((out.take (off + 32)).drop off)

/-- **The ABI encoding of a tuple of values.** -/
structure IsEncoding (vs : List AbiValue) (out : List UInt8) : Prop where
  /-- The head word of a number is the number. -/
  number : ∀ i k, vs[i]? = some (.number k) → (wordAt out (32 * i) : ℤ) = twosComplement k
  /-- The head word of a byte string is the offset of its region. -/
  offset : ∀ i bs, vs[i]? = some (.data bs) → wordAt out (32 * i) = tailOffset vs i
  /-- The region starts with the length. -/
  length_word : ∀ i bs, vs[i]? = some (.data bs) → wordAt out (tailOffset vs i) = bs.length
  /-- Then come the bytes and zeros up to the next multiple of 32. -/
  payload : ∀ i bs, vs[i]? = some (.data bs) →
    StandsAt out (tailOffset vs i + 32) (bs ++ List.replicate (padding bs.length) 0)
  /-- The regions are the tail, in order and without a gap. -/
  tiles : out.drop (32 * vs.length) = vs.flatMap AbiValue.region
  length_eq : out.length = 32 * vs.length + (vs.flatMap AbiValue.region).length
  aligned : 32 ∣ out.length

/-- Two encodings of the same values have the same words in the head. -/
theorem IsEncoding.head_word {vs : List AbiValue} {out out' : List UInt8} (h : IsEncoding vs out)
    (h' : IsEncoding vs out') {i : ℕ} (hi : i < vs.length) :
    (out.take (32 * i + 32)).drop (32 * i) = (out'.take (32 * i + 32)).drop (32 * i) := by
  have hlen : ∀ xs : List UInt8, IsEncoding vs xs → ((xs.take (32 * i + 32)).drop (32 * i)).length = 32 := by
    intro xs hxs
    have hl := hxs.length_eq
    rw [List.length_drop, List.length_take]
    omega
  refine ofBytes_inj ((hlen out h).trans (hlen out' h').symm) ?_
  change wordAt out (32 * i) = wordAt out' (32 * i)
  have hget : vs[i]? = some vs[i] := List.getElem?_eq_getElem hi
  cases hv : vs[i] with
  | number k =>
    rw [hv] at hget
    exact Int.ofNat_inj.mp ((h.number i k hget).trans (h'.number i k hget).symm)
  | data bs =>
    rw [hv] at hget
    exact (h.offset i bs hget).trans (h'.offset i bs hget).symm

/-- **Values have one encoding.** -/
theorem IsEncoding.unique {vs : List AbiValue} {out out' : List UInt8} (h : IsEncoding vs out)
    (h' : IsEncoding vs out') : out = out' := by
  have hsplit : ∀ (xs : List UInt8) (n : ℕ),
      xs.take (32 * n + 32) = xs.take (32 * n) ++ (xs.take (32 * n + 32)).drop (32 * n) := by
    intro xs n
    conv_lhs => rw [← List.take_append_drop (32 * n) (xs.take (32 * n + 32))]
    rw [List.take_take, Nat.min_eq_left (by omega)]
  have hhead : ∀ n, n ≤ vs.length → out.take (32 * n) = out'.take (32 * n) := by
    intro n hn
    induction n with
    | zero => rfl
    | succ n ih => rw [Nat.mul_succ, hsplit out, hsplit out', ih (by omega), h.head_word h' (by omega)]
  rw [← List.take_append_drop (32 * vs.length) out, ← List.take_append_drop (32 * vs.length) out',
    hhead _ le_rfl, h.tiles, h'.tiles]

theorem dvd_length_region (v : AbiValue) : 32 ∣ v.region.length := by
  cases v with
  | number k => exact dvd_zero 32
  | data bs =>
    simp only [AbiValue.region, padding, List.length_append, length_toBytes, List.length_replicate]
    omega

/-! ## Words and regions the code writes -/

theorem wordFromU128_val (v : BitVec 128) :
    (wordFromU128 v).1 = List.replicate 16 0 ++ toBytes 16 v.toNat := rfl

theorem ofBytes_wordFromU128 (v : BitVec 128) : ofBytes (wordFromU128 v).1 = v.toNat := by
  rw [wordFromU128_val, ofBytes_zeros_append]
  exact ofBytes_toBytes_of_lt v.isLt

/-- Sign extension makes the word the two's complement. -/
theorem ofBytes_wordFromI128 (v : BitVec 128) : (ofBytes (wordFromI128 v).1 : ℤ) = twosComplement v.toInt := by
  have hlow : ofBytes (toBytes 16 v.toNat) = v.toNat := ofBytes_toBytes_of_lt v.isLt
  have hones : ofBytes (List.replicate 16 0xff) = 2 ^ 128 - 1 := by decide
  rw [wordFromI128, twosComplement, ofBytes_append, hlow, length_toBytes]
  by_cases hneg : v.toInt < 0
  · have hbig : ¬ 2 * v.toNat < 2 ^ 128 := by
      have h := BitVec.toInt_neg_iff.mp hneg
      omega
    rw [if_pos hneg, if_pos hneg, hones, BitVec.toInt_eq_toNat_cond, if_neg hbig]
    push_cast
    ring
  · have hsmall : 2 * v.toNat < 2 ^ 128 := by
      by_contra h
      exact hneg (BitVec.toInt_neg_iff.mpr (by omega))
    rw [if_neg hneg, if_neg hneg, ofBytes_replicate_zero, BitVec.toInt_eq_toNat_cond, if_pos hsmall]
    simp

theorem wordFromUsize_eq {n : ℕ} (h : n < 256 ^ 16) : (wordFromUsize n).1 = toBytes 32 n := by
  have hfits : n < 2 ^ 128 := h.trans_eq (by norm_num)
  rw [wordFromUsize, wordFromU128_val, BitVec.toNat_ofNat, Nat.mod_eq_of_lt hfits]
  exact (toBytes_of_lt h).symm

theorem ofBytes_wordFromUsize {n : ℕ} (h : n < 256 ^ 16) : ofBytes (wordFromUsize n).1 = n := by
  rw [wordFromUsize_eq h]
  exact ofBytes_toBytes_of_lt (h.trans (by norm_num))

theorem encodeBytes_eq (bs : List UInt8) :
    encodeBytes bs = (wordFromUsize bs.length).1 ++ bs ++ List.replicate (padding bs.length) 0 := by
  simp only [encodeBytes, padding]
  by_cases hrem : bs.length % 32 = 0
  · simp [hrem]
  · rw [if_pos hrem, Nat.mod_eq_of_lt (by omega : 32 - bs.length % 32 < 32)]

theorem length_encodeBytes (bs : List UInt8) : (encodeBytes bs).length = (AbiValue.data bs).region.length := by
  simp [encodeBytes_eq, AbiValue.region, (wordFromUsize bs.length).2]

theorem encodeBytes_eq_region {bs : List UInt8} (h : bs.length < 256 ^ 16) :
    encodeBytes bs = (AbiValue.data bs).region := by
  rw [encodeBytes_eq, wordFromUsize_eq h, AbiValue.region]

/-- What each codec writes: a number is one static word with the number in two's complement, a byte string is dynamic
with its length, its bytes and the padding. -/
theorem Arg.toComponent_cases (a : Arg) :
    (∃ k w, a.value = .number k ∧ a.toComponent = .static w ∧ w.length = 32 ∧
      (ofBytes w : ℤ) = twosComplement k) ∨
    ∃ bs, a.value = .data bs ∧ a.toComponent = .dynamic (encodeBytes bs) := by
  have hnat : ∀ n : ℕ, (n : ℤ) = twosComplement n := fun n => by rw [twosComplement, if_neg (by omega)]
  obtain ⟨t, v⟩ := a
  cases t with
  | uint n =>
    refine .inl ⟨_, _, rfl, rfl, (wordFromU128 _).2, ?_⟩
    have hn : 8 * n.bytes ≤ 128 := Nat.mul_le_mul_left 8 n.bytes_le
    rw [ofBytes_wordFromU128, BitVec.toNat_setWidth_of_le hn]
    exact hnat _
  | int n =>
    refine .inl ⟨_, _, rfl, rfl, (wordFromI128 _).2, ?_⟩
    have hn : 8 * n.bytes ≤ 128 := Nat.mul_le_mul_left 8 n.bytes_le
    rw [ofBytes_wordFromI128, BitVec.toInt_signExtend_of_le hn]
  | bool =>
    refine .inl ⟨_, _, rfl, rfl, (wordFromU128 _).2, ?_⟩
    rw [ofBytes_wordFromU128, ← hnat]
    cases v <;> rfl
  | bytes32 => exact .inl ⟨_, _, rfl, rfl, v.2, hnat _⟩
  | u256 => exact .inl ⟨_, _, rfl, rfl, v.2, hnat _⟩
  | address =>
    refine .inl ⟨_, _, rfl, rfl, by simp [v.2], ?_⟩
    rw [ofBytes_zeros_append]
    exact hnat _
  | bytes => exact .inr ⟨_, rfl, rfl⟩
  | string => exact .inr ⟨_, rfl, rfl⟩

/-! ## Where the arguments stand -/

section Arguments

variable (u : Usize)

def Arg.part (a : Arg) : RecordPart UInt8 := a.toComponent.part

/-- `encode_tuple` of the components of the arguments. -/
def encodeArgs (args : List Arg) : List UInt8 := encodeTuple u (args.map Arg.toComponent)

theorem encodeArgs_eq (args : List Arg) : encodeArgs u args = layout (offsetWord u) 32 (args.map Arg.part) := by
  rw [encodeArgs, encodeTuple_eq_layout, List.map_map]
  rfl

theorem headLength_arg (a : Arg) : a.part.headLength 32 = 32 := by
  rw [Arg.part, headLength_part]
  obtain ⟨k, w, -, hc, hw, -⟩ | ⟨bs, -, hc⟩ := a.toComponent_cases
  · rw [hc]
    exact hw
  · rw [hc]
    rfl

/-- Every argument has one word of the head. -/
theorem headSize_args (args : List Arg) : headSize 32 (args.map Arg.part) = 32 * args.length := by
  induction args with
  | nil => rfl
  | cons a args ih =>
    rw [List.map_cons, ← List.singleton_append, headSize_append, ih, List.length_cons]
    simp only [headSize, List.map_cons, List.map_nil, List.sum_cons, List.sum_nil, headLength_arg]
    omega

theorem length_encodeArgs (args : List Arg) :
    (encodeArgs u args).length = 32 * args.length + (tails (args.map Arg.part)).length := by
  rw [encodeArgs_eq, length_layout (length_offsetWord u), headSize_args]

variable {u} {pre post : List Arg} {a : Arg} {b : List UInt8}

theorem encodeArgs_static (ha : a.toComponent = .static b) :
    StandsAt (encodeArgs u (pre ++ a :: post)) (32 * pre.length) b := by
  rw [encodeArgs_eq, List.map_append, List.map_cons, Arg.part, ha, ← headSize_args]
  exact layout_inline (length_offsetWord u) _ _ _

theorem encodeArgs_pointer (ha : a.toComponent = .dynamic b) :
    StandsAt (encodeArgs u (pre ++ a :: post)) (32 * pre.length)
      (offsetWord u (32 * (pre ++ a :: post).length + (tails (pre.map Arg.part)).length)) := by
  rw [encodeArgs_eq, ← headSize_args pre, ← headSize_args, List.map_append, List.map_cons]
  rw [show a.part = .outline b by rw [Arg.part, ha]; rfl]
  exact layout_pointer (length_offsetWord u) _ _ _

theorem encodeArgs_region (ha : a.toComponent = .dynamic b) :
    StandsAt (encodeArgs u (pre ++ a :: post))
      (32 * (pre ++ a :: post).length + (tails (pre.map Arg.part)).length) b := by
  rw [encodeArgs_eq, ← headSize_args, List.map_append, List.map_cons]
  rw [show a.part = .outline b by rw [Arg.part, ha]; rfl]
  exact layout_outline (length_offsetWord u) _ _ _

end Arguments

/-! ## The tail is the regions -/

theorem length_outside (a : Arg) : a.part.outside.length = a.value.region.length := by
  rw [Arg.part]
  obtain ⟨k, w, hv, hc, -, -⟩ | ⟨bs, hv, hc⟩ := a.toComponent_cases
  · rw [hv, hc]
    rfl
  · rw [hv, hc]
    exact length_encodeBytes bs

theorem length_lt_length_region (bs : List UInt8) : bs.length < (AbiValue.data bs).region.length := by
  simp only [AbiValue.region, List.length_append, length_toBytes]
  omega

theorem outside_eq_region {a : Arg} (h : a.part.outside.length < 256 ^ 16) : a.part.outside = a.value.region := by
  rw [length_outside] at h
  rw [Arg.part]
  obtain ⟨k, w, hv, hc, -, -⟩ | ⟨bs, hv, hc⟩ := a.toComponent_cases
  · rw [hv, hc]
    rfl
  · rw [hv] at h
    rw [hv, hc]
    exact encodeBytes_eq_region ((length_lt_length_region bs).trans h)

theorem length_tails_args (args : List Arg) :
    (tails (args.map Arg.part)).length = ((args.map Arg.value).map fun v => v.region.length).sum := by
  simp only [tails, List.length_flatMap, List.map_map, Function.comp_def, length_outside]

theorem tails_args {args : List Arg} (h : (tails (args.map Arg.part)).length < 256 ^ 16) :
    tails (args.map Arg.part) = (args.map Arg.value).flatMap AbiValue.region := by
  induction args with
  | nil => rfl
  | cons a args ih =>
    have hcons : tails ((a :: args).map Arg.part) = a.part.outside ++ tails (args.map Arg.part) := rfl
    rw [hcons, List.length_append] at h
    rw [hcons, ih (by omega), outside_eq_region (by omega)]
    rfl

theorem tailOffset_args (pre post : List Arg) (a : Arg) :
    tailOffset ((pre ++ a :: post).map Arg.value) pre.length =
      32 * (pre ++ a :: post).length + (tails (pre.map Arg.part)).length := by
  rw [tailOffset, length_tails_args, List.length_map, List.map_append, List.take_left' (List.length_map ..)]

/-! ## The result -/

theorem Usize.card_le (u : Usize) : u.card ≤ 256 ^ 8 := Nat.pow_le_pow_right (by omega) u.bytes_le

theorem wordAt_of_standsAt {out w : List UInt8} {off : ℕ} (h : StandsAt out off w) (hw : w.length = 32) :
    wordAt out off = ofBytes w := by
  rw [wordAt, ← hw, h.slice]

/-- The argument behind a value, with those before and after it. -/
theorem exists_split_of_getElem? {args : List Arg} {i : ℕ} {v : AbiValue} (h : (args.map Arg.value)[i]? = some v) :
    ∃ pre a post, args = pre ++ a :: post ∧ pre.length = i ∧ a.value = v := by
  rw [List.getElem?_map, Option.map_eq_some_iff] at h
  obtain ⟨a, ha, hv⟩ := h
  obtain ⟨hi, ha⟩ := List.getElem?_eq_some_iff.mp ha
  refine ⟨args.take i, a, args.drop (i + 1), ?_, List.length_take_of_le hi.le, hv⟩
  rw [← ha, List.cons_getElem_drop_succ, List.take_append_drop]

theorem number_word (u : Usize) {args : List Arg} {i : ℕ} {k : ℤ}
    (hi : (args.map Arg.value)[i]? = some (.number k)) :
    (wordAt (encodeArgs u args) (32 * i) : ℤ) = twosComplement k := by
  obtain ⟨pre, a, post, rfl, rfl, hv⟩ := exists_split_of_getElem? hi
  obtain ⟨k', w, hv', hc, hw, hnum⟩ | ⟨bs, hv', -⟩ := a.toComponent_cases
  · obtain rfl : k' = k := by simpa [hv'] using hv
    rw [wordAt_of_standsAt (encodeArgs_static hc) hw, hnum]
  · rw [hv'] at hv
    cases hv

section Result

variable {u : Usize} {args : List Arg} (hsize : (encodeArgs u args).length < u.card)
include hsize

/-- The head word of a byte string is the offset of its region, where the length stands before the padded bytes. -/
theorem data_region {i : ℕ} {bs : List UInt8} (hi : (args.map Arg.value)[i]? = some (.data bs)) :
    wordAt (encodeArgs u args) (32 * i) = tailOffset (args.map Arg.value) i ∧
      wordAt (encodeArgs u args) (tailOffset (args.map Arg.value) i) = bs.length ∧
      StandsAt (encodeArgs u args) (tailOffset (args.map Arg.value) i + 32)
        (bs ++ List.replicate (padding bs.length) 0) := by
  obtain ⟨pre, a, post, rfl, rfl, hv⟩ := exists_split_of_getElem? hi
  obtain ⟨k, w, hv', -, -, -⟩ | ⟨bs', hv', hc⟩ := a.toComponent_cases
  · rw [hv'] at hv
    cases hv
  obtain rfl : bs' = bs := by simpa [hv'] using hv
  have hregion : StandsAt (encodeArgs u (pre ++ a :: post)) _ _ := encodeArgs_region hc
  have hend := hregion.length_le (by simp [encodeBytes_eq, ← List.length_eq_zero_iff, (wordFromUsize _).2])
  have hbs := length_lt_length_region bs'
  have hcard := u.card_le
  rw [length_encodeBytes] at hend
  rw [tailOffset_args]
  rw [encodeBytes_eq, List.append_assoc] at hregion
  have hword : (wordFromUsize bs'.length).1.length = 32 := (wordFromUsize _).2
  refine ⟨?_, ?_, ?_⟩
  · rw [wordAt_of_standsAt (encodeArgs_pointer hc) (length_offsetWord u _), offsetWord, Nat.mod_eq_of_lt (by omega)]
    exact ofBytes_wordFromUsize (by omega)
  · rw [wordAt_of_standsAt hregion.left hword]
    exact ofBytes_wordFromUsize (by omega)
  · have h := hregion.right
    rwa [hword] at h

end Result

/-- The arguments are laid out as their encoding. -/
theorem isEncoding_encodeArgs {u : Usize} {args : List Arg} (hsize : (encodeArgs u args).length < u.card) :
    IsEncoding (args.map Arg.value) (encodeArgs u args) := by
  have hcard := u.card_le
  have hlen := length_encodeArgs u args
  have htails : tails (args.map Arg.part) = (args.map Arg.value).flatMap AbiValue.region :=
    tails_args (by omega)
  refine
    { number := fun i k hi => number_word u hi
      offset := fun i bs hi => (data_region hsize hi).1
      length_word := fun i bs hi => (data_region hsize hi).2.1
      payload := fun i bs hi => (data_region hsize hi).2.2
      tiles := ?_
      length_eq := by rw [hlen, htails, List.length_map]
      aligned := ?_ }
  · rw [encodeArgs_eq, List.length_map, ← headSize_args, drop_layout (length_offsetWord u), htails]
  · rw [hlen, htails, List.length_flatMap]
    refine (dvd_mul_right 32 _).add (List.dvd_sum ?_)
    intro n hn
    obtain ⟨v, -, rfl⟩ := List.mem_map.mp hn
    exact dvd_length_region v

/-- **`encode_tuple` of values of the encodable types whose encoding fits `usize` is their ABI encoding.** -/
theorem encode_tuple_isEncoding (u : Usize) (args : List Arg)
    (hsize : (encodeTuple u (args.map Arg.toComponent)).length < u.card) :
    IsEncoding (args.map Arg.value) (encodeTuple u (args.map Arg.toComponent)) :=
  isEncoding_encodeArgs hsize

/-- The arguments of `head_tail_layout`. -/
theorem encode_tuple_isEncoding_sample :
    IsEncoding [.number 0x11, .data [0xaa, 0xbb], .number 1]
      (encodeTuple .u32
        [Arg.toComponent ⟨.u256, .ofNat 32 0x11⟩, Arg.toComponent ⟨.bytes, [0xaa, 0xbb]⟩,
          Arg.toComponent ⟨.bool, true⟩]) :=
  encode_tuple_isEncoding .u32 [⟨.u256, .ofNat 32 0x11⟩, ⟨.bytes, [0xaa, 0xbb]⟩, ⟨.bool, true⟩]
    (by decide +kernel)

end RustEvm.Abi
