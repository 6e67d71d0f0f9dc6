import RustEvm.Abi.Decoding
import RustEvm.Lib.Panic

/-!
# RustEvm.Abi.Panics — decoding never panics, and what decoding bytes answers

`Panicking` has the decoders once more with every slice, copy and subtraction a step that may panic; none of them
does (`Panicking.decode_eq`, `Panicking.decodeArgs_eq`).  `bytesVerdict` is the whole answer of decoding a byte
string, the failures in their order.
-/

namespace RustEvm.Abi

open BigEndian Panic Fallible

/-- A byte slice: its length is a `usize`. -/
abbrev Slice (u : Usize) := { bs : List UInt8 // bs.length < u.card }

/-! ## With the panics -/

namespace Panicking

variable (u : Usize)

/-- `read_word` -/
def readWord (input : List UInt8) (offset : ℕ) : ExceptT DecodeError Option Word := do
  let stop ← reached (u.checkedAdd offset 32)
  if input.length < stop then throw .truncated
  let bytes ← slice input offset stop
  copyFromSlice 32 bytes

/-- `read_usize` -/
def readUsize (input : List UInt8) (offset : ℕ) : ExceptT DecodeError Option ℕ := do
  let w ← readWord u input offset
  let k ← minus 32 u.bytes
  let high ← slice w.1 0 k
  if high.any (fun b => b != 0) then throw .overflow
  let low ← slice w.1 k w.1.length
  let b ← copyFromSlice u.bytes low
  return FixedBytes.toNat b

/-- `decode_bytes` -/
def decodeBytes (input : List UInt8) (offset : ℕ) : ExceptT DecodeError Option (List UInt8) := do
  let ptr ← readUsize u input offset
  let len ← readUsize u input ptr
  let start ← reached (u.checkedAdd ptr 32)
  let stop ← reached (u.checkedAdd start len)
  if input.length < stop then throw .truncated
  slice input start stop

/-- The decoder of the machine integers. -/
def decodeInt (n : IntWidth) (input : List UInt8) (offset : ℕ) :
    ExceptT DecodeError Option (BitVec (8 * n.bytes)) := do
  let w ← readWord u input offset
  let k ← minus 32 n.bytes
  let low ← slice w.1 k w.1.length
  let b ← copyFromSlice n.bytes low
  return BitVec.ofNat _ (FixedBytes.toNat b)

/-- `AbiDecode::decode` -/
def decode (input : List UInt8) (offset : ℕ) : (t : AbiTy) → ExceptT DecodeError Option t.Val
  | .uint n => decodeInt u n input offset
  | .int n => decodeInt u n input offset
  | .bool => do
    let w ← readWord u input offset
    return w.1.any (fun b => b != 0)
  | .bytes32 => readWord u input offset
  | .u256 => readWord u input offset
  | .address => do
    let w ← readWord u input offset
    let low ← slice w.1 12 w.1.length
    copyFromSlice 20 low
  | .bytes => decodeBytes u input offset
  | .string => do
    let data ← decodeBytes u input offset
    match String.fromUTF8? ⟨data.toArray⟩ with
    | some s => return s
    | none => throw .invalidUtf8

/-- The arguments from number `idx` on. -/
def decodeArgsFrom (calldata : List UInt8) : ℕ → List AbiTy → ExceptT DecodeError Option (List Arg)
  | _, [] => return []
  | idx, t :: ts => do
    let v ← decode u calldata (32 * idx) t
    let vs ← decodeArgsFrom calldata (idx + 1) ts
    return ⟨t, v⟩ :: vs

/-- `AbiDecodeArgs::decode_args` -/
def decodeArgs (ts : List AbiTy) (calldata : List UInt8) : ExceptT DecodeError Option (List Arg) :=
  decodeArgsFrom u calldata 0 ts

/-! ## No panic -/

variable {u} {input : List UInt8} {offset : ℕ}

theorem readWord_eq : readWord u input offset = reached (Abi.readWord u input offset) := by
  unfold readWord Abi.readWord
  refine reached_bind fun stop hstop => ?_
  obtain ⟨-, rfl⟩ := checkedAdd_eq_ok_iff.mp hstop
  by_cases hlen : input.length < offset + 32
  · simp only [if_pos hlen]
    rfl
  · simp only [if_neg hlen]
    have hbytes : ((input.take (offset + 32)).drop offset).length = 32 := by
      rw [← between, length_between (by omega)]
      omega
    rw [lift_bind (slice_eq_some (by omega) (by omega)), copyFromSlice_eq_some hbytes]
    have hcopy : (⟨_, hbytes⟩ : Word) = FixedBytes.copyFrom 32 ((input.take (offset + 32)).drop offset) :=
      Subtype.ext (FixedBytes.copyFrom_eq hbytes).symm
    rw [hcopy]
    rfl

/-- The low bytes of a word are as many as are copied. -/
theorem copy_low (w : Word) {n : ℕ} (hn : n ≤ 32) :
    copyFromSlice n (w.1.drop (32 - n)) = some (FixedBytes.copyFrom n (w.1.drop (32 - n))) := by
  have hlow : (w.1.drop (32 - n)).length = n := by
    rw [List.length_drop, w.2]
    omega
  rw [copyFromSlice_eq_some hlow, Option.some.injEq]
  exact Subtype.ext (FixedBytes.copyFrom_eq hlow).symm

theorem readUsize_eq : readUsize u input offset = reached (Abi.readUsize u input offset) := by
  unfold readUsize Abi.readUsize
  rw [readWord_eq]
  refine reached_bind fun w _ => ?_
  have hbytes : u.bytes ≤ 32 := u.bytes_le.trans (by omega)
  have hw := w.2
  rw [lift_bind (minus_eq_some hbytes), lift_bind (slice_to (by omega))]
  by_cases hhigh : (w.1.take (32 - u.bytes)).any (fun b => b != 0) = true
  · simp only [if_pos hhigh]
    rfl
  · simp only [if_neg hhigh]
    rw [lift_bind (slice_from (by omega)), lift_bind (copy_low w hbytes)]
    rfl

theorem decodeBytes_eq : decodeBytes u input offset = reached (Abi.decodeBytes u input offset) := by
  unfold decodeBytes Abi.decodeBytes
  rw [readUsize_eq]
  refine reached_bind fun ptr _ => ?_
  rw [readUsize_eq]
  refine reached_bind fun len _ => reached_bind fun start _ => reached_bind fun stop hstop => ?_
  obtain ⟨-, rfl⟩ := checkedAdd_eq_ok_iff.mp hstop
  by_cases hlen : input.length < start + len
  · simp only [if_pos hlen]
    rfl
  · simp only [if_neg hlen]
    rw [slice_eq_some (by omega) (by omega)]
    rfl

theorem decodeInt_eq (n : IntWidth) : decodeInt u n input offset = reached (Abi.decodeInt u n input offset) := by
  unfold decodeInt Abi.decodeInt
  rw [readWord_eq]
  refine reached_bind fun w _ => ?_
  have hbytes : n.bytes ≤ 32 := n.bytes_le.trans (by omega)
  have hw := w.2
  rw [lift_bind (minus_eq_some hbytes), lift_bind (slice_from (by omega)), lift_bind (copy_low w hbytes)]
  rfl

/-- **No decoder panics.** -/
theorem decode_eq (t : AbiTy) : decode u input offset t = reached (AbiTy.decode u input offset t) := by
  cases t with
  | uint n => exact decodeInt_eq n
  | int n => exact decodeInt_eq n
  | bool =>
    unfold decode AbiTy.decode
    rw [readWord_eq]
    exact reached_bind fun w _ => rfl
  | bytes32 => exact readWord_eq
  | u256 => exact readWord_eq
  | address =>
    unfold decode AbiTy.decode
    rw [readWord_eq]
    refine reached_bind fun w _ => ?_
    have hw := w.2
    rw [lift_bind (slice_from (by omega)), copy_low w (n := 20) (by omega)]
    rfl
  | bytes => exact decodeBytes_eq
  | string =>
    unfold decode AbiTy.decode
    rw [decodeBytes_eq]
    refine reached_bind fun data _ => ?_
    cases String.fromUTF8? ⟨data.toArray⟩ <;> rfl

theorem decodeArgsFrom_eq (calldata : List UInt8) (idx : ℕ) (ts : List AbiTy) :
    decodeArgsFrom u calldata idx ts = reached (Abi.decodeArgsFrom u calldata idx ts) := by
  induction ts generalizing idx with
  | nil => rfl
  | cons t ts ih =>
    unfold decodeArgsFrom Abi.decodeArgsFrom
    rw [decode_eq]
    refine reached_bind fun v _ => ?_
    rw [ih]
    exact reached_bind fun vs _ => rfl

/-- **Nor does decoding an argument list.** -/
theorem decodeArgs_eq (ts : List AbiTy) (calldata : List UInt8) :
    decodeArgs u ts calldata = reached (Abi.decodeArgs u ts calldata) := decodeArgsFrom_eq calldata 0 ts

end Panicking

/-! ## The verdict on bytes -/

/-- What decoding the bytes at `off` answers. -/
def bytesVerdict (u : Usize) (input : List UInt8) (off : ℕ) : Except DecodeError (List UInt8) :=
  let ptr := wordAt input off
  let len := wordAt input ptr
  if u.card ≤ off + 32 then .error .overflow
  else if input.length < off + 32 then .error .truncated
  else if u.card ≤ ptr then .error .overflow
  else if u.card ≤ ptr + 32 then .error .overflow
  else if input.length < ptr + 32 then .error .truncated
  else if u.card ≤ len then .error .overflow
  else if u.card ≤ ptr + 32 + len then .error .overflow
  else if input.length < ptr + 32 + len then .error .truncated
  else .ok (between input (ptr + 32) (ptr + 32 + len))

section

variable {u : Usize} {input : List UInt8} {off : ℕ}

theorem readUsize_eq_verdict : readUsize u input off =
    if u.card ≤ off + 32 then .error .overflow
    else if input.length < off + 32 then .error .truncated
    else if u.card ≤ wordAt input off then .error .overflow
    else .ok (wordAt input off) := by
  by_cases hcard : u.card ≤ off + 32
  · rw [if_pos hcard]
    unfold readUsize readWord Usize.checkedAdd
    rw [if_neg (Nat.not_lt.mpr hcard)]
    rfl
  rw [if_neg hcard]
  by_cases hlen : input.length < off + 32
  · rw [if_pos hlen]
    unfold readUsize readWord
    rw [checkedAdd_eq (by omega)]
    simp only [bind, Except.bind, if_pos hlen]
    rfl
  rw [if_neg hlen]
  by_cases hfit : u.card ≤ wordAt input off
  · rw [if_pos hfit]
    have hw : (between input off (off + 32)).length = 32 := by
      rw [length_between (by omega)]
      omega
    have hread : readWord u input off = .ok ⟨_, hw⟩ := readWord_eq_ok_iff.mpr ⟨by omega, by omega, rfl⟩
    -- a number that does not fit has a byte above the low ones
    have hhigh : ((between input off (off + 32)).take (32 - u.bytes)).any (fun b => b != 0) = true := by
      obtain ⟨hsum, hlow⟩ := ofBytes_usize_split u hw
      rw [wordAt_eq] at hfit
      rw [any_ne_zero_iff]
      intro hzero
      rw [hzero] at hsum
      omega
    unfold readUsize
    rw [hread]
    simp only [bind, Except.bind, hhigh, if_true]
    rfl
  · rw [if_neg hfit]
    exact readUsize_eq_ok_iff.mpr ⟨by omega, by omega, rfl, by omega⟩

theorem decodeBytes_eq_verdict : decodeBytes u input off = bytesVerdict u input off := by
  unfold decodeBytes bytesVerdict
  rw [readUsize_eq_verdict]
  by_cases hcard : u.card ≤ off + 32
  · simp only [if_pos hcard]
    rfl
  by_cases hlen : input.length < off + 32
  · simp only [if_neg hcard, if_pos hlen]
    rfl
  by_cases hptr : u.card ≤ wordAt input off
  · simp only [if_neg hcard, if_neg hlen, if_pos hptr]
    rfl
  simp only [if_neg hcard, if_neg hlen, if_neg hptr, bind, Except.bind]
  -- the same checks again, for the length word
  rw [readUsize_eq_verdict]
  by_cases hptrcard : u.card ≤ wordAt input off + 32
  · simp only [if_pos hptrcard]
  by_cases hptrlen : input.length < wordAt input off + 32
  · simp only [if_neg hptrcard, if_pos hptrlen]
  by_cases hfit : u.card ≤ wordAt input (wordAt input off)
  · simp only [if_neg hptrcard, if_neg hptrlen, if_pos hfit]
  simp only [if_neg hptrcard, if_neg hptrlen, if_neg hfit]
  rw [checkedAdd_eq (Nat.not_le.mp hptrcard)]
  by_cases hstop : u.card ≤ wordAt input off + 32 + wordAt input (wordAt input off)
  · simp only [Usize.checkedAdd, if_neg (Nat.not_lt.mpr hstop), if_pos hstop]
  simp only [checkedAdd_eq (Nat.not_le.mp hstop), if_neg hstop]
  rfl

/-- A string has the bytes it is read from. -/
theorem size_of_fromUTF8? {data : List UInt8} {s : String} (h : String.fromUTF8? ⟨data.toArray⟩ = some s) :
    s.toUTF8.size = data.length := by
  unfold String.fromUTF8? at h
  split at h
  · rw [← Option.some.inj h]
    rfl
  · exact absurd h (by simp)

/-- Decoded bytes are a part of the input. -/
theorem length_le_of_hasPayload {data : List UInt8} (h : HasPayload u input off data) :
    data.length ≤ input.length := by
  rw [h.data_eq, length_between h.stop.2]
  exact (Nat.sub_le _ _).trans h.stop.2

end

/-- What stands behind both words of a byte string at `off`. -/
theorem bytesVerdict_eq_ok_iff {u : Usize} (input : Slice u) {off : ℕ} {data : List UInt8} :
    bytesVerdict u input.1 off = .ok data ↔
      off + 32 ≤ input.1.length ∧ wordAt input.1 off < u.card ∧
      wordAt input.1 off + 32 ≤ input.1.length ∧ wordAt input.1 (wordAt input.1 off) < u.card ∧
      wordAt input.1 off + 32 + wordAt input.1 (wordAt input.1 off) ≤ input.1.length ∧
      data = between input.1 (wordAt input.1 off + 32)
        (wordAt input.1 off + 32 + wordAt input.1 (wordAt input.1 off)) := by
  rw [← decodeBytes_eq_verdict, decodeBytes_eq_ok_iff]
  have hsize := input.2
  constructor
  · rintro ⟨hhead, hlength, hstop, hdata⟩
    exact ⟨hhead.2, by omega, hlength.2, by omega, hstop.2, hdata⟩
  · rintro ⟨hhead, hptr, hlength, hlen, hstop, hdata⟩
    exact ⟨⟨by omega, hhead⟩, ⟨by omega, hlength⟩, ⟨by omega, hstop⟩, hdata⟩

/-- **Decoding never panics, and decoding bytes is exact**: the bytes behind both words where everything is inside,
the first failure otherwise; what is decoded is no longer than the input. -/
theorem decoding_panic_free_and_exact (u : Usize) (input : Slice u) (off : ℕ) :
    (Panicking.decode u input.1 off .bytes).run = some (bytesVerdict u input.1 off) ∧
    (∀ data, bytesVerdict u input.1 off = .ok data ↔
      off + 32 ≤ input.1.length ∧ wordAt input.1 off < u.card ∧
      wordAt input.1 off + 32 ≤ input.1.length ∧ wordAt input.1 (wordAt input.1 off) < u.card ∧
      wordAt input.1 off + 32 + wordAt input.1 (wordAt input.1 off) ≤ input.1.length ∧
      data = between input.1 (wordAt input.1 off + 32)
        (wordAt input.1 off + 32 + wordAt input.1 (wordAt input.1 off))) ∧
    (∀ data, (Panicking.decode u input.1 off .bytes).run = some (.ok data) → data.length ≤ input.1.length) ∧
    (∀ s : String, (Panicking.decode u input.1 off .string).run = some (.ok s) → s.toUTF8.size ≤ input.1.length) ∧
    (∀ t, (Panicking.decode u input.1 off t).run ≠ none) ∧
    ∀ ts, (Panicking.decodeArgs u ts input.1).run ≠ none := by
  refine ⟨?_, fun data => bytesVerdict_eq_ok_iff input, ?_, ?_, ?_, ?_⟩
  · rw [Panicking.decode_eq, run_reached, Option.some.injEq]
    exact decodeBytes_eq_verdict
  · intro data h
    rw [Panicking.decode_eq, run_reached, Option.some.injEq] at h
    exact length_le_of_hasPayload (decodeBytes_eq_ok_iff.mp h)
  · intro s h
    rw [Panicking.decode_eq, run_reached, Option.some.injEq] at h
    obtain ⟨data, hdata, hs⟩ := decode_string_eq_ok_iff.mp h
    have hsize : s.toUTF8.size = data.length := size_of_fromUTF8? hs
    rw [hsize]
    exact length_le_of_hasPayload hdata
  · intro t
    rw [Panicking.decode_eq]
    exact Option.some_ne_none _
  · intro ts
    rw [Panicking.decodeArgs_eq]
    exact Option.some_ne_none _

end RustEvm.Abi
