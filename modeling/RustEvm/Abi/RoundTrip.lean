import RustEvm.Abi.Encoding

/-!
# RustEvm.Abi.RoundTrip — decoding what was encoded

Each reader gives back what it finds in place (`readWord_of_standsAt`, `readUsize_of_standsAt`,
`decodeBytes_of_standsAt`); `decode_static` and `decode_dynamic` say so of a whole argument, and with the places of
the arguments from `Abi.Encoding` the loop over the head slots returns the arguments (`decode_args_encode_tuple`).
-/

namespace RustEvm.Abi

open BigEndian HeadTail

/-! ## Readers -/

section Readers

variable {u : Usize} {input : List UInt8} {off : ℕ}

theorem checkedAdd_eq {a b : ℕ} (h : a + b < u.card) : u.checkedAdd a b = .ok (a + b) := by
  rw [Usize.checkedAdd, if_pos h]

theorem readWord_of_standsAt {w : Word} (h : StandsAt input off w.1) (hoff : off + 32 < u.card) :
    readWord u input off = .ok w := by
  have hlen : w.1.length = 32 := w.2
  have hle := h.length_le (by rw [← List.length_pos_iff_ne_nil, hlen]; norm_num)
  have hslice := h.slice
  rw [hlen] at hle hslice
  have hfits : ¬ input.length < off + 32 := by omega
  rw [readWord, checkedAdd_eq hoff]
  simp only [bind, Except.bind, if_neg hfits, pure, Except.pure]
  congr 1
  apply Subtype.ext
  rw [FixedBytes.copyFrom_eq (by rw [hslice, hlen]), hslice]

/-- The bytes above a `usize` are zero and those of the `usize` are its own. -/
theorem wordFromUsize_split {k : ℕ} (hk : k < u.card) :
    (wordFromUsize k).1 = List.replicate (32 - u.bytes) 0 ++ toBytes u.bytes k := by
  have hword : k < 256 ^ 16 := hk.trans_le (u.card_le.trans (by norm_num))
  have hsum : 32 - u.bytes + u.bytes = 32 := by cases u <;> rfl
  rw [wordFromUsize_eq hword, ← toBytes_of_lt (show k < 256 ^ u.bytes from hk), hsum]

theorem readUsize_of_standsAt {k : ℕ} (h : StandsAt input off (wordFromUsize k).1) (hk : k < u.card)
    (hoff : off + 32 < u.card) : readUsize u input off = .ok k := by
  have hhigh : ((wordFromUsize k).1.take (32 - u.bytes)).any (fun b => b != 0) = false := by
    rw [wordFromUsize_split hk, List.take_left' List.length_replicate, List.any_replicate]
    simp
  have hlow : (wordFromUsize k).1.drop (32 - u.bytes) = toBytes u.bytes k := by
    rw [wordFromUsize_split hk, List.drop_left' List.length_replicate]
  rw [readUsize, readWord_of_standsAt h hoff]
  simp only [bind, Except.bind, hhigh, hlow, pure, Except.pure]
  show Except.ok (FixedBytes.toNat (.copyFrom u.bytes (toBytes u.bytes k))) = _
  rw [FixedBytes.toNat, FixedBytes.copyFrom_eq (length_toBytes _ _), ofBytes_toBytes_of_lt hk]

theorem decodeBytes_of_standsAt {ptr : ℕ} {data : List UInt8} (hptr : StandsAt input off (wordFromUsize ptr).1)
    (hdata : StandsAt input ptr (encodeBytes data)) (hoff : off + 32 < u.card)
    (hend : ptr + (encodeBytes data).length < u.card) : decodeBytes u input off = .ok data := by
  have hlen : (encodeBytes data).length = 32 + data.length + padding data.length := by
    simp only [encodeBytes_eq, List.length_append, (wordFromUsize _).2, List.length_replicate]
  have hword : (wordFromUsize data.length).1.length = 32 := (wordFromUsize _).2
  rw [encodeBytes_eq, List.append_assoc] at hdata
  have hbytes : StandsAt input (ptr + 32) data := by
    have h := hdata.right.left
    rwa [hword] at h
  have hle : ptr + 32 + data.length ≤ input.length := by
    have h := hdata.left.length_le (by rw [← List.length_pos_iff_ne_nil, hword]; norm_num)
    rw [hword] at h
    by_cases hne : data = []
    · simpa [hne] using h
    · exact hbytes.length_le hne
  rw [decodeBytes, readUsize_of_standsAt hptr (by omega) hoff]
  simp only [bind, Except.bind]
  rw [readUsize_of_standsAt hdata.left (by omega) (by omega)]
  simp only [checkedAdd_eq (show ptr + 32 < u.card by omega),
    checkedAdd_eq (show ptr + 32 + data.length < u.card by omega), if_neg (Nat.not_lt.mpr hle), pure, Except.pure]
  rw [hbytes.slice]

/-- An integer is cut from the low half of its word. -/
theorem decodeInt_of_standsAt {n : IntWidth} {high : List UInt8} {x : BitVec 128} {w : Word}
    (hw : w.1 = high ++ toBytes 16 x.toNat) (h : StandsAt input off w.1) (hoff : off + 32 < u.card) :
    decodeInt u n input off = .ok (x.setWidth (8 * n.bytes)) := by
  have hhigh : high.length = 16 := by
    have hlen := congrArg List.length hw
    rw [w.2, List.length_append, length_toBytes] at hlen
    omega
  have hn := n.bytes_le
  have hlow : w.1.drop (32 - n.bytes) = toBytes n.bytes x.toNat := by
    have hsplit : toBytes 16 x.toNat =
        toBytes (16 - n.bytes) (x.toNat / 256 ^ n.bytes) ++ toBytes n.bytes x.toNat := by
      rw [← toBytes_add, Nat.sub_add_cancel hn]
    rw [hw, hsplit, ← List.append_assoc]
    exact List.drop_left' (by rw [List.length_append, hhigh, length_toBytes]; omega)
  rw [decodeInt, readWord_of_standsAt h hoff]
  simp only [bind, Except.bind, pure, Except.pure]
  rw [hlow, FixedBytes.toNat, FixedBytes.copyFrom_eq (length_toBytes _ _), ofBytes_toBytes]
  congr 1
  apply BitVec.eq_of_toNat_eq
  rw [BitVec.toNat_ofNat, BitVec.toNat_setWidth, show 256 = 2 ^ 8 from rfl, ← pow_mul, Nat.mod_mod]

/-! ## Arguments -/

theorem decode_static {a : Arg} {b : List UInt8} (ha : a.toComponent = .static b) (h : StandsAt input off b)
    (hoff : off + 32 < u.card) : a.1.decode u input off = .ok a.2 := by
  obtain ⟨t, v⟩ := a
  cases t with
  | uint n =>
    injection ha with ha
    subst ha
    have hn : 8 * n.bytes ≤ 128 := Nat.mul_le_mul_left 8 n.bytes_le
    have hv : (v.setWidth 128).setWidth (8 * n.bytes) = v := by
      rw [BitVec.setWidth_setWidth_of_le v hn, BitVec.setWidth_eq]
    exact (decodeInt_of_standsAt (wordFromU128_val _) h hoff).trans (congrArg _ hv)
  | int n =>
    injection ha with ha
    subst ha
    have hn : 8 * n.bytes ≤ 128 := Nat.mul_le_mul_left 8 n.bytes_le
    have hv : (v.signExtend 128).setWidth (8 * n.bytes) = v := by
      apply BitVec.eq_of_getLsbD_eq
      intro i hi
      rw [BitVec.getLsbD_setWidth, BitVec.getLsbD_signExtend, if_pos hi]
      simp [hi, hi.trans_le hn]
    exact (decodeInt_of_standsAt rfl h hoff).trans (congrArg _ hv)
  | bool =>
    injection ha with ha
    subst ha
    show (readWord u input off).bind _ = _
    rw [readWord_of_standsAt h hoff]
    cases v <;> rfl
  | bytes32 =>
    injection ha with ha
    subst ha
    exact readWord_of_standsAt h hoff
  | u256 =>
    injection ha with ha
    subst ha
    exact readWord_of_standsAt h hoff
  | address =>
    injection ha with ha
    subst ha
    have hw : (List.replicate 12 0 ++ v.1 : List UInt8).length = 32 := by simp [v.2]
    show (readWord u input off).bind _ = _
    rw [readWord_of_standsAt (w := ⟨_, hw⟩) h hoff]
    show Except.ok (FixedBytes.copyFrom 20 ((List.replicate 12 0 ++ v.1).drop 12)) = _
    congr 1
    apply Subtype.ext
    rw [List.drop_left' List.length_replicate, FixedBytes.copyFrom_eq v.2]
  | bytes => nomatch ha
  | string => nomatch ha

theorem fromUTF8?_toUTF8 (s : String) : String.fromUTF8? ⟨s.toUTF8.data.toList.toArray⟩ = some s := by
  show String.fromUTF8? s.toUTF8 = some s
  unfold String.fromUTF8?
  rw [String.toUTF8_eq_toByteArray, dif_pos s.isValidUTF8]
  rfl

theorem decode_dynamic {a : Arg} {b : List UInt8} {ptr : ℕ} (ha : a.toComponent = .dynamic b)
    (hptr : StandsAt input off (wordFromUsize ptr).1) (hdata : StandsAt input ptr b) (hoff : off + 32 < u.card)
    (hend : ptr + b.length < u.card) : a.1.decode u input off = .ok a.2 := by
  obtain ⟨t, v⟩ := a
  cases t with
  | bytes =>
    injection ha with ha
    subst ha
    exact decodeBytes_of_standsAt hptr hdata hoff hend
  | string =>
    injection ha with ha
    subst ha
    show (decodeBytes u input off).bind _ = _
    rw [decodeBytes_of_standsAt hptr hdata hoff hend]
    simp only [Except.bind, fromUTF8?_toUTF8]
    rfl
  | uint n => nomatch ha
  | int n => nomatch ha
  | bool => nomatch ha
  | bytes32 => nomatch ha
  | u256 => nomatch ha
  | address => nomatch ha

end Readers

/-! ## The result -/

/-- An argument is decoded from its head slot, whatever stands behind the tuple. -/
theorem decode_encodeArgs {u : Usize} {pre post : List Arg} {a : Arg} (suffix : List UInt8)
    (hsize : (encodeArgs u (pre ++ a :: post)).length < u.card) :
    a.1.decode u (encodeArgs u (pre ++ a :: post) ++ suffix) (32 * pre.length) = .ok a.2 := by
  have hslot : 32 * pre.length + 32 < u.card := by
    have h := length_encodeArgs u (pre ++ a :: post)
    rw [List.length_append, List.length_cons] at h
    omega
  obtain ⟨k, w, -, hc, -, -⟩ | ⟨bs, -, hc⟩ := a.toComponent_cases
  · exact decode_static hc ((encodeArgs_static hc).append_right suffix) hslot
  · have hptr : StandsAt (encodeArgs u (pre ++ a :: post)) (32 * pre.length) _ := encodeArgs_pointer hc
    have hdata : StandsAt (encodeArgs u (pre ++ a :: post)) _ _ := encodeArgs_region hc
    have hend := hdata.length_le (by simp [encodeBytes_eq, ← List.length_eq_zero_iff, (wordFromUsize _).2])
    rw [offsetWord, Nat.mod_eq_of_lt (by omega)] at hptr
    exact decode_dynamic hc (hptr.append_right suffix) (hdata.append_right suffix) hslot (by omega)

theorem decodeArgsFrom_encodeArgs {u : Usize} (suffix : List UInt8) (pre post : List Arg)
    (hsize : (encodeArgs u (pre ++ post)).length < u.card) :
    decodeArgsFrom u (encodeArgs u (pre ++ post) ++ suffix) pre.length (post.map Sigma.fst) = .ok post := by
  induction post generalizing pre with
  | nil => rfl
  | cons a post ih =>
    have hnext := ih (pre ++ [a])
    rw [List.append_assoc, List.singleton_append, List.length_append, List.length_singleton] at hnext
    rw [List.map_cons, decodeArgsFrom, decode_encodeArgs suffix hsize]
    simp only [bind, Except.bind, hnext hsize]
    rfl

/-- **Decoding gives back the encoded arguments**, of every number and choice of types, with any bytes behind. -/
theorem decode_args_encode_tuple (u : Usize) (args : List Arg) (suffix : List UInt8)
    (hsize : (encodeTuple u (args.map Arg.toComponent)).length < u.card) :
    decodeArgs u (args.map Sigma.fst) (encodeTuple u (args.map Arg.toComponent) ++ suffix) = .ok args :=
  decodeArgsFrom_encodeArgs suffix [] args hsize

theorem decode_args_encode_tuple_mixed :
    decodeArgs .u32 [.int .w32, .string, .bool]
      (encodeTuple .u32
        [Arg.toComponent ⟨.int .w32, -5⟩, Arg.toComponent ⟨.string, "hello"⟩,
          Arg.toComponent ⟨.bool, true⟩] ++ [7]) =
      .ok [⟨.int .w32, -5⟩, ⟨.string, "hello"⟩, ⟨.bool, true⟩] :=
  decode_args_encode_tuple .u32 [⟨.int .w32, -5⟩, ⟨.string, "hello"⟩, ⟨.bool, true⟩] [7] (by decide +kernel)

end RustEvm.Abi
