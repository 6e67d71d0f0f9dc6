import RustEvm.Abi.Decoding

/-!
# RustEvm.Testkit.Outcome — the revert reason of a transaction

`Outcome.revertReason` reads the message out of the revert data, with additions that panic past `usize::MAX`.  It reads
back what a contract's `encode_error` wrote (`revertReason_encodeError`), and on any data gives exactly what the decoder
of strings gives, unless one of the additions overflows (`revertReason_exact_iff`).
-/

namespace RustEvm.Testkit

open BigEndian Abi

/-- The result of one transaction: `RETURN`/`REVERT` data, or empty. -/
structure Outcome where
  output : List UInt8

/-- Addition of `usize`s; `none` is the panic on overflow. -/
def plus (u : Usize) (a b : ℕ) : Option ℕ := if a + b < u.card then some (a + b) else none

/-- `usize::try_from` of the word that stands in a slice of at most 32 bytes. -/
def tryUsize (u : Usize) (w : List UInt8) : Option ℕ := if ofBytes w < u.card then some (ofBytes w) else none

/-- The slice `start..stop` of a byte string, when it is inside. -/
def getSlice (body : List UInt8) (start stop : ℕ) : Option (List UInt8) :=
  if start ≤ stop ∧ stop ≤ body.length then some (between body start stop) else none

/-- `ERROR_STRING` -/
def errorString : List UInt8 := [0x08, 0xc3, 0x79, 0xa0]

/-- The revert message, if the output is a Solidity-style `Error(string)`; the outer `none` is a panic. -/
def Outcome.revertReason (u : Usize) (self : Outcome) : Option (Option String) := do
  let some body := errorString.isPrefixOf? self.output | return none
  -- head: the offset of the tail, where the length comes before the bytes
  let some head := getSlice body 0 32 | return none
  let some offset := tryUsize u head | return none
  let lenStop ← plus u offset 32
  let some lenAt := getSlice body offset lenStop | return none
  let some len := tryUsize u lenAt | return none
  let start ← plus u offset 32
  let stop ← plus u start len
  let some bytes := getSlice body start stop | return none
  return String.fromUTF8? ⟨bytes.toArray⟩

/-! ## Its branches -/

theorem isPrefixOf?_eq_some_iff {xs ys zs : List UInt8} : xs.isPrefixOf? ys = some zs ↔ ys = xs ++ zs := by
  induction xs generalizing ys with
  | nil => simp [List.isPrefixOf?, eq_comm]
  | cons x xs ih =>
    cases ys with
    | nil => simp [List.isPrefixOf?]
    | cons y ys =>
      simp only [List.isPrefixOf?, beq_iff_eq, List.cons_append, List.cons.injEq, ← ih]
      by_cases h : x = y
      · simp [h]
      · simp [h, Ne.symm h]

section

variable (u : Usize) (body : List UInt8)

/-- The offset in the head slot. -/
def tailAt : ℕ := wordAt body 0

/-- The length where the head slot points. -/
def lengthAt : ℕ := wordAt body (tailAt body)

/-- One of the additions overflows: the offset leaves no room for a word, or the length, read in place, none for the
bytes. -/
def BodyOverflows : Prop :=
  32 ≤ body.length ∧ tailAt body < u.card ∧
    (u.card ≤ tailAt body + 32 ∨
      tailAt body + 32 ≤ body.length ∧ lengthAt body < u.card ∧ u.card ≤ tailAt body + 32 + lengthAt body)

theorem getSlice_word (off : ℕ) : getSlice body off (off + 32) =
    if body.length < off + 32 then none else some (between body off (off + 32)) := by
  unfold getSlice
  by_cases h : body.length < off + 32
  · rw [if_neg (by omega), if_pos h]
  · rw [if_pos (by omega), if_neg h]

/-- **What the data behind the selector is read as.** -/
theorem revertReason_eq {o : Outcome} (h : o.output = errorString ++ body) :
    o.revertReason u =
      if body.length < 32 ∨ u.card ≤ tailAt body then some none
      else if u.card ≤ tailAt body + 32 then none
      else if body.length < tailAt body + 32 ∨ u.card ≤ lengthAt body then some none
      else if u.card ≤ tailAt body + 32 + lengthAt body then none
      else if body.length < tailAt body + 32 + lengthAt body then some none
      else some (String.fromUTF8?
        ⟨(between body (tailAt body + 32) (tailAt body + 32 + lengthAt body)).toArray⟩) := by
  have hhead := getSlice_word body 0
  rw [Nat.zero_add] at hhead
  unfold Outcome.revertReason
  simp only [isPrefixOf?_eq_some_iff.mpr h, hhead]
  by_cases h₁ : body.length < 32
  · simp [h₁]
  simp only [h₁, if_false, false_or, tryUsize, show ofBytes (between body 0 32) = tailAt body from rfl]
  by_cases h₂ : u.card ≤ tailAt body
  · simp [h₂, Nat.not_lt.mpr h₂]
  simp only [h₂, Nat.not_le.mp h₂, if_true, if_false, plus]
  by_cases h₃ : u.card ≤ tailAt body + 32
  · simp [h₃, Nat.not_lt.mpr h₃]
  simp only [h₃, Nat.not_le.mp h₃, if_true, if_false, getSlice_word, bind, Option.bind_some]
  by_cases h₄ : body.length < tailAt body + 32
  · simp [h₄]
  simp only [h₄, if_false, false_or,
    show ofBytes (between body (tailAt body) (tailAt body + 32)) = lengthAt body from rfl]
  by_cases h₅ : u.card ≤ lengthAt body
  · simp [h₅, Nat.not_lt.mpr h₅]
  simp only [h₅, Nat.not_le.mp h₅, if_true, if_false]
  by_cases h₆ : u.card ≤ tailAt body + 32 + lengthAt body
  · simp [h₆, Nat.not_lt.mpr h₆]
  simp only [h₆, Nat.not_le.mp h₆, if_true, if_false, getSlice]
  by_cases h₇ : body.length < tailAt body + 32 + lengthAt body
  · simp [h₇, Nat.not_le.mpr h₇]
  · simp [h₇, Nat.not_lt.mp h₇]

theorem revertReason_of_foreign {o : Outcome} (h : ∀ body, o.output ≠ errorString ++ body) :
    o.revertReason u = some none := by
  unfold Outcome.revertReason
  cases hp : errorString.isPrefixOf? o.output with
  | none => rfl
  | some body => exact absurd (isPrefixOf?_eq_some_iff.mp hp) (h body)

end

/-! ## Against the decoder of strings -/

/-- The revert reason is the string behind the selector, where one is decoded; otherwise there is none. -/
structure Exact (u : Usize) (o : Outcome) : Prop where
  total : (o.revertReason u).isSome = true
  reason : ∀ s, o.revertReason u = some (some s) ↔
    ∃ body, o.output = errorString ++ body ∧ AbiTy.decode u body 0 .string = .ok s
  otherwise : (∀ body s, o.output = errorString ++ body → AbiTy.decode u body 0 .string ≠ .ok s) →
    o.revertReason u = some none

/-- One of the additions overflows on the output. -/
def Overflows (u : Usize) (o : Outcome) : Prop := ∃ body, o.output = errorString ++ body ∧ BodyOverflows u body

theorem hasPayload_iff {u : Usize} {body data : List UInt8} :
    HasPayload u body 0 data ↔
      32 ≤ body.length ∧ tailAt body + 32 < u.card ∧ tailAt body + 32 ≤ body.length ∧
        tailAt body + 32 + lengthAt body < u.card ∧ tailAt body + 32 + lengthAt body ≤ body.length ∧
        data = between body (tailAt body + 32) (tailAt body + 32 + lengthAt body) := by
  have hcard : 0 + 32 < u.card := by cases u <;> decide
  constructor
  · rintro ⟨hhead, hlength, hstop, hdata⟩
    exact ⟨by omega, hlength.1, hlength.2, hstop.1, hstop.2, hdata⟩
  · rintro ⟨hhead, hcard', hlength, hcard'', hstop, hdata⟩
    exact ⟨⟨hcard, by omega⟩, ⟨hcard', hlength⟩, ⟨hcard'', hstop⟩, hdata⟩

/-- A decoded string is the revert reason. -/
theorem revertReason_of_decode {u : Usize} {o : Outcome} {body : List UInt8} {s : String}
    (h : o.output = errorString ++ body) (hs : AbiTy.decode u body 0 .string = .ok s) :
    o.revertReason u = some (some s) := by
  obtain ⟨data, hdata, hutf⟩ := decode_string_eq_ok_iff.mp hs
  obtain ⟨h₁, h₂, h₃, h₄, h₅, rfl⟩ := hasPayload_iff.mp hdata
  rw [revertReason_eq u body h, if_neg (by omega), if_neg (by omega), if_neg (by omega), if_neg (by omega),
    if_neg (by omega), hutf]

/-- A revert reason is decoded. -/
theorem decode_of_revertReason {u : Usize} {o : Outcome} {s : String} (h : o.revertReason u = some (some s)) :
    ∃ body, o.output = errorString ++ body ∧ AbiTy.decode u body 0 .string = .ok s := by
  by_cases hp : ∃ body, o.output = errorString ++ body
  · obtain ⟨body, hbody⟩ := hp
    rw [revertReason_eq u body hbody] at h
    split_ifs at h with h₁ h₂ h₃ h₄ h₅
    · exact absurd h (by simp)
    · exact absurd h (by simp)
    · exact absurd h (by simp)
    · have hdata := hasPayload_iff.mpr
        ⟨by omega, Nat.not_le.mp h₂, by omega, Nat.not_le.mp h₄, Nat.not_lt.mp h₅, rfl⟩
      exact ⟨body, hbody, decode_string_eq_ok_iff.mpr ⟨_, hdata, Option.some.inj h⟩⟩
  · rw [revertReason_of_foreign u fun body hbody => hp ⟨body, hbody⟩] at h
    exact absurd h (by simp)

/-- It panics when an addition overflows, and only then. -/
theorem revertReason_eq_none_iff {u : Usize} {o : Outcome} : o.revertReason u = none ↔ Overflows u o := by
  by_cases hp : ∃ body, o.output = errorString ++ body
  · obtain ⟨body, hbody⟩ := hp
    have hover : Overflows u o ↔ BodyOverflows u body := by
      constructor
      · rintro ⟨body', hbody', h⟩
        rwa [List.append_cancel_left (hbody.symm.trans hbody')]
      · exact fun h => ⟨body, hbody, h⟩
    rw [revertReason_eq u body hbody, hover, BodyOverflows]
    split_ifs <;> simp <;> omega
  · rw [revertReason_of_foreign u fun body hbody => hp ⟨body, hbody⟩]
    refine iff_of_false (by simp) ?_
    rintro ⟨body, hbody, -⟩
    exact hp ⟨body, hbody⟩

/-- **The revert reason is exact, unless an addition overflows.** -/
theorem revertReason_exact_iff (u : Usize) (o : Outcome) : Exact u o ↔ ¬ Overflows u o := by
  rw [← revertReason_eq_none_iff]
  constructor
  · intro h hnone
    exact absurd h.total (by simp [hnone])
  · intro h
    have htotal : (o.revertReason u).isSome = true := Option.isSome_iff_ne_none.mpr h
    refine ⟨htotal, fun s => ⟨decode_of_revertReason, fun ⟨body, hbody, hs⟩ => revertReason_of_decode hbody hs⟩, ?_⟩
    intro hno
    obtain ⟨r, hr⟩ := Option.isSome_iff_exists.mp htotal
    cases r with
    | none => exact hr
    | some s =>
      obtain ⟨body, hbody, hs⟩ := decode_of_revertReason hr
      exact absurd hs (hno body s hbody)

/-- The selector and an offset of `2^64 - 1`: a panic, where the decoder of strings gives an error. -/
theorem revertReason_exact_fails :
    (Outcome.mk (errorString ++ (List.replicate 24 0 ++ List.replicate 8 0xff))).revertReason .u64 = none ∧
      AbiTy.decode .u64 (List.replicate 24 0 ++ List.replicate 8 0xff) 0 .string = .error .overflow ∧
      ¬ Exact .u64 (Outcome.mk (errorString ++ (List.replicate 24 0 ++ List.replicate 8 0xff))) := by
  have hpanic : (Outcome.mk (errorString ++ (List.replicate 24 0 ++ List.replicate 8 0xff))).revertReason .u64 =
      none := by decide +kernel
  refine ⟨hpanic, by rfl, fun h => ?_⟩
  have htotal := h.total
  rw [hpanic] at htotal
  exact absurd htotal (by simp)

/-! ## What the contract side writes -/

/-- A tuple of one dynamic component: the offset 32, then its bytes. -/
theorem encodeTuple_dynamic (u : Usize) (b : List UInt8) :
    encodeTuple u [.dynamic b] = (wordFromUsize 32).1 ++ b := by
  have hadd : u.add 0 32 = 32 ∧ u.add 32 0 = 32 := by cases u <;> decide
  simp [encodeTuple, encodeStep, Component.headLength, hadd]

/-- **A revert reason written by the contract side is read back by the test side**, whatever `usize` either has. -/
theorem revertReason_encodeError (u u' : Usize) (reason : String) (hsize : (encodeError u reason).length < u'.card) :
    (Outcome.mk (encodeError u reason)).revertReason u' = some (some reason) := by
  have hbody : encodeTuple u [Arg.toComponent ⟨.string, reason⟩] = encodeArgs u' ([] ++ ⟨.string, reason⟩ :: []) :=
    (encodeTuple_dynamic u _).trans (encodeTuple_dynamic u' _).symm
  rw [encodeError, hbody] at hsize
  have hdecode : AbiTy.decode u' (encodeArgs u' ([] ++ ⟨.string, reason⟩ :: []) ++ []) 0 .string = .ok reason :=
    decode_encodeArgs [] (by rw [List.length_append] at hsize; omega)
  rw [List.append_nil] at hdecode
  exact revertReason_of_decode (by rw [encodeError, hbody]; rfl) hdecode

/-- A message of four bytes. -/
theorem revertReason_encodeError_nope :
    (Outcome.mk (encodeError .u32 "nope")).revertReason .u64 = some (some "nope") :=
  revertReason_encodeError .u32 .u64 "nope" (by decide +kernel)

end RustEvm.Testkit
