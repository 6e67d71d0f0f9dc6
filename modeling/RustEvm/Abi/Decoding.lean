import RustEvm.Abi.RoundTrip
import RustEvm.Lib.Fallible

/-!
# RustEvm.Abi.Decoding — what the decoders of byte strings accept

A byte string is read from any input in which its head slot, its length and its bytes are inside (`HasPayload`):
`decodeBytes_ok_iff` for the bytes and `decode_string_ok_iff` for strings.
-/

namespace RustEvm.Abi

open BigEndian HeadTail Fallible

/-- The bytes `[start, stop)` of an input. -/
def between (input : List UInt8) (start stop : ℕ) : List UInt8 := (input.take stop).drop start

theorem wordAt_eq (input : List UInt8) (off : ℕ) : wordAt input off = ofBytes (between input off (off + 32)) := rfl

theorem length_between {input : List UInt8} {start stop : ℕ} (h : stop ≤ input.length) :
    (between input start stop).length = stop - start := by
  rw [between, List.length_drop, List.length_take_of_le h]

section

variable {u : Usize} {input : List UInt8} {off : ℕ}

theorem checkedAdd_eq_ok_iff {a b c : ℕ} : u.checkedAdd a b = .ok c ↔ a + b < u.card ∧ a + b = c := by
  unfold Usize.checkedAdd
  by_cases h : a + b < u.card <;> simp [h]

theorem readWord_eq_ok_iff {w : Word} :
    readWord u input off = .ok w ↔
      off + 32 < u.card ∧ off + 32 ≤ input.length ∧ w.1 = between input off (off + 32) := by
  unfold readWord Usize.checkedAdd
  by_cases hcard : off + 32 < u.card
  · rw [if_pos hcard]
    by_cases hlen : input.length < off + 32
    · simp [bind, Except.bind, hlen, throw, throwThe, MonadExceptOf.throw]
    · have hcopy : (FixedBytes.copyFrom 32 ((input.take (off + 32)).drop off)).1 = between input off (off + 32) :=
        FixedBytes.copyFrom_eq (by rw [← between, length_between (by omega)]; omega)
      simp only [bind, Except.bind, if_neg hlen, pure, Except.pure, Except.ok.injEq, hcard, true_and, ← hcopy,
        Nat.not_lt.mp hlen]
      rw [eq_comm, Subtype.ext_iff]
  · rw [if_neg hcard]
    simp [bind, Except.bind, hcard]

theorem any_ne_zero_iff (bs : List UInt8) : bs.any (fun b => b != 0) = true ↔ ofBytes bs ≠ 0 := by
  rw [Ne, ofBytes_eq_zero_iff, List.eq_replicate_iff]
  simp

/-- The low bytes of a word hold a `usize`, the high ones what is above it. -/
theorem ofBytes_usize_split (u : Usize) {bs : List UInt8} (h : bs.length = 32) :
    ofBytes bs = ofBytes (bs.take (32 - u.bytes)) * u.card + ofBytes (bs.drop (32 - u.bytes)) ∧
      ofBytes (bs.drop (32 - u.bytes)) < u.card := by
  have hbytes : u.bytes ≤ 32 := u.bytes_le.trans (by omega)
  have hlow : (bs.drop (32 - u.bytes)).length = u.bytes := by
    rw [List.length_drop, h]
    omega
  have hsum := ofBytes_append (bs.take (32 - u.bytes)) (bs.drop (32 - u.bytes))
  have hlt := ofBytes_lt (bs.drop (32 - u.bytes))
  rw [List.take_append_drop, hlow] at hsum
  rw [hlow] at hlt
  exact ⟨hsum, hlt⟩

/-- A number is read as a `usize` when it fits. -/
theorem readUsize_eq_ok_iff {k : ℕ} :
    readUsize u input off = .ok k ↔
      off + 32 < u.card ∧ off + 32 ≤ input.length ∧ wordAt input off = k ∧ k < u.card := by
  unfold readUsize
  cases h : readWord u input off with
  | error e =>
    have hne : ¬ (off + 32 < u.card ∧ off + 32 ≤ input.length) := by
      rintro ⟨hcard, hlen⟩
      have hw : (between input off (off + 32)).length = 32 := by
        rw [length_between hlen]
        omega
      have hok : readWord u input off = .ok ⟨_, hw⟩ := readWord_eq_ok_iff.mpr ⟨hcard, hlen, rfl⟩
      exact absurd (h.symm.trans hok) (by simp)
    simp only [bind, Except.bind, reduceCtorEq, false_iff]
    exact fun hk => hne ⟨hk.1, hk.2.1⟩
  | ok w =>
    obtain ⟨hcard, hlen, hw⟩ := readWord_eq_ok_iff.mp h
    have hbytes : u.bytes ≤ 32 := u.bytes_le.trans (by omega)
    have hlow : (w.1.drop (32 - u.bytes)).length = u.bytes := by
      rw [List.length_drop, w.2]
      omega
    obtain ⟨hsum, hlt⟩ := ofBytes_usize_split u w.2
    rw [hw, ← wordAt_eq, ← hw] at hsum
    simp only [bind, Except.bind, hcard, hlen, true_and]
    by_cases hhigh : ofBytes (w.1.take (32 - u.bytes)) = 0
    · have hany : (w.1.take (32 - u.bytes)).any (fun b => b != 0) = false := by
        rw [Bool.eq_false_iff, Ne, any_ne_zero_iff]
        exact not_not.mpr hhigh
      rw [hhigh, Nat.zero_mul, Nat.zero_add] at hsum
      simp only [hany, Bool.false_eq_true, if_false, pure, Except.pure, Except.ok.injEq]
      rw [FixedBytes.toNat, FixedBytes.copyFrom_eq hlow, ← hsum]
      exact ⟨fun h => ⟨h, h ▸ hsum ▸ hlt⟩, And.left⟩
    · have hany : (w.1.take (32 - u.bytes)).any (fun b => b != 0) = true := (any_ne_zero_iff _).mpr hhigh
      have hge : u.card ≤ wordAt input off := by
        rw [hsum]
        exact (Nat.le_mul_of_pos_left _ (Nat.pos_of_ne_zero hhigh)).trans (Nat.le_add_right _ _)
      simp only [hany, if_true, throw, throwThe, MonadExceptOf.throw, reduceCtorEq, false_iff]
      rintro ⟨rfl, hk⟩
      omega

/-- A byte string stands in the input: its head slot at `off`, its length at the offset in the head slot, its bytes
behind the length, everything within the input and within `usize`. -/
structure HasPayload (u : Usize) (input : List UInt8) (off : ℕ) (data : List UInt8) : Prop where
  head : off + 32 < u.card ∧ off + 32 ≤ input.length
  length : wordAt input off + 32 < u.card ∧ wordAt input off + 32 ≤ input.length
  stop : wordAt input off + 32 + wordAt input (wordAt input off) < u.card ∧
    wordAt input off + 32 + wordAt input (wordAt input off) ≤ input.length
  data_eq : data = between input (wordAt input off + 32)
    (wordAt input off + 32 + wordAt input (wordAt input off))

/-- **`decode_bytes` accepts what holds a byte string.** -/
theorem decodeBytes_eq_ok_iff {data : List UInt8} :
    decodeBytes u input off = .ok data ↔ HasPayload u input off data := by
  unfold decodeBytes
  constructor
  · intro h
    obtain ⟨ptr, hptr, h⟩ := bind_eq_ok.mp h
    obtain ⟨len, hlen, h⟩ := bind_eq_ok.mp h
    obtain ⟨start, hstart, h⟩ := bind_eq_ok.mp h
    obtain ⟨stop, hstop, h⟩ := bind_eq_ok.mp h
    obtain ⟨hcard, hin, rfl, -⟩ := readUsize_eq_ok_iff.mp hptr
    obtain ⟨hcard', hin', rfl, -⟩ := readUsize_eq_ok_iff.mp hlen
    obtain ⟨-, rfl⟩ := checkedAdd_eq_ok_iff.mp hstart
    obtain ⟨hcard'', rfl⟩ := checkedAdd_eq_ok_iff.mp hstop
    split at h
    · exact absurd h (by simp [throw, throwThe, MonadExceptOf.throw, bind, Except.bind])
    · next hle => exact ⟨⟨hcard, hin⟩, ⟨hcard', hin'⟩, ⟨hcard'', Nat.not_lt.mp hle⟩, (Except.ok.inj h).symm⟩
  · rintro ⟨hhead, hlength, hstop, rfl⟩
    rw [readUsize_eq_ok_iff.mpr ⟨hhead.1, hhead.2, rfl, by omega⟩]
    simp only [bind, Except.bind]
    rw [readUsize_eq_ok_iff.mpr ⟨hlength.1, hlength.2, rfl, by omega⟩]
    simp only [checkedAdd_eq hlength.1, checkedAdd_eq hstop.1, if_neg (Nat.not_lt.mpr hstop.2), pure, Except.pure]
    rfl

/-- **A string is decoded from what holds the bytes of one.** -/
theorem decode_string_eq_ok_iff {s : String} :
    AbiTy.decode u input off .string = .ok s ↔
      ∃ data, HasPayload u input off data ∧ String.fromUTF8? ⟨data.toArray⟩ = some s := by
  change (decodeBytes u input off >>= fun data => _) = _ ↔ _
  rw [bind_eq_ok]
  refine exists_congr fun data => and_congr decodeBytes_eq_ok_iff ?_
  cases String.fromUTF8? ⟨data.toArray⟩ with
  | none => simp [throw, throwThe, MonadExceptOf.throw]
  | some s' => simp [pure, Except.pure]

end

end RustEvm.Abi
