import RustEvm.Asm.RoundTrip

/-!
# RustEvm.Asm.Push — the narrowest push

The frame that `push` emits for a number (`pushFrame`): its width is the number of significant bytes, which grows with
the number (`width_mono`), and so does the frame (`length_pushFrame_mono`).  Calls that are never rejected, none of a
label among them, finish with the bytes of their instructions (`finish_emits`).
-/

namespace RustEvm.Codegen

open Isa BigEndian Frames

namespace Immediate

theorem value_lt (imm : Immediate) : imm.value < 256 ^ imm.width := by
  have h := ofBytes_lt (imm.be.1.drop (32 - imm.width))
  rwa [imm.ofBytes_drop_width, imm.length_drop_width] at h

/-- The first byte that is not zero, and what it says of the number. -/
structure LeadingByte (imm : Immediate) (first : ℕ) (b : UInt8) : Prop where
  found : imm.be.1.findIdx? (fun b => b != 0) = some first
  lt : first < 32
  get : imm.be.1[first]? = some b
  ne_zero : b ≠ 0
  le_value : b.toNat * 256 ^ (31 - first) ≤ imm.value
  value_lt : imm.value < (b.toNat + 1) * 256 ^ (31 - first)

theorem LeadingByte.width {imm : Immediate} {first : ℕ} {b : UInt8} (h : imm.LeadingByte first b) :
    imm.width = 32 - first := by
  rw [Immediate.width, h.found]

theorem leadingByte_of_found {imm : Immediate} {first : ℕ} (hf : imm.be.1.findIdx? (fun b => b != 0) = some first) :
    ∃ b, imm.LeadingByte first b := by
  obtain ⟨hlt, hb, -⟩ := List.findIdx?_eq_some_iff_getElem.mp hf
  have hlen : imm.be.1.length = 32 := imm.be.2
  have hw : imm.width = 32 - first := by rw [width, hf]
  have hdrop : imm.be.1.drop (32 - imm.width) = imm.be.1[first] :: imm.be.1.drop (first + 1) := by
    rw [hw, show 32 - (32 - first) = first by omega, List.drop_eq_getElem_cons hlt]
  have hrest : (imm.be.1.drop (first + 1)).length = 31 - first := by
    rw [List.length_drop]
    omega
  have hlow := ofBytes_lt (imm.be.1.drop (first + 1))
  have hvalue : imm.value = imm.be.1[first].toNat * 256 ^ (31 - first) + ofBytes (imm.be.1.drop (first + 1)) := by
    rw [← imm.ofBytes_drop_width, hdrop, ofBytes_cons, hrest]
  rw [hrest] at hlow
  refine ⟨imm.be.1[first], hf, by omega, List.getElem?_eq_getElem hlt, by simpa using hb, ?_, ?_⟩
  · rw [hvalue]
    exact Nat.le_add_right _ _
  · rw [hvalue, Nat.add_one_mul]
    exact Nat.add_lt_add_left hlow _

theorem exists_leadingByte {imm : Immediate} (h : imm.width ≠ 0) : ∃ first b, imm.LeadingByte first b := by
  cases hf : imm.be.1.findIdx? (fun b => b != 0) with
  | none => exact absurd (by rw [width, hf]) h
  | some first => exact ⟨first, leadingByte_of_found hf⟩

/-- The first significant byte is not zero. -/
theorem le_value {imm : Immediate} (h : imm.width ≠ 0) : 256 ^ (imm.width - 1) ≤ imm.value := by
  obtain ⟨first, b, hb⟩ := exists_leadingByte h
  have hpos : 0 < b.toNat := Nat.pos_iff_ne_zero.mpr fun h0 => hb.ne_zero (UInt8.toNat_inj.mp h0)
  have hw : imm.width - 1 = 31 - first := by
    rw [hb.width]
    omega
  rw [hw]
  exact (Nat.le_mul_of_pos_left _ hpos).trans hb.le_value

/-- A larger number has no fewer significant bytes. -/
theorem width_mono {i j : Immediate} (h : i.value ≤ j.value) : i.width ≤ j.width := by
  by_contra hlt
  have hi : 256 ^ (i.width - 1) ≤ i.value := le_value (by omega)
  have hj : 256 ^ j.width ≤ 256 ^ (i.width - 1) := Nat.pow_le_pow_right (by norm_num) (by omega)
  exact absurd (hj.trans (hi.trans h)) (Nat.not_le.mpr j.value_lt)

end Immediate

/-- The frame `push` emits. -/
def pushFrame (fork : Fork) (value : Immediate) : Frame UInt8 :=
  if value.width = 0 then if fork < .shanghai then ⟨0x60, [0]⟩ else ⟨0x5f, []⟩
  else ⟨0x5f + UInt8.ofNat value.width, value.be.1.drop (32 - value.width)⟩

theorem item_push (fork : Fork) (value : Immediate) :
    (Call.push value).item fork = some (.instr (pushFrame fork value).head (pushFrame fork value).payload) := by
  simp only [Call.item, pushFrame]
  split_ifs <;> rfl

theorem length_pushFrame (fork : Fork) (value : Immediate) :
    (pushFrame fork value).toList.length = 1 + max value.width (if fork < .shanghai then 1 else 0) := by
  unfold pushFrame
  by_cases hw : value.width = 0
  · split_ifs <;> simp [hw]
  · have hlen := value.length_drop_width
    have hmax : max value.width (if fork < .shanghai then 1 else 0) = value.width := by
      split_ifs <;> omega
    rw [if_neg hw, hmax]
    simp only [Frame.toList, List.length_cons, hlen]
    omega

theorem length_pushFrame_mono (fork : Fork) {i j : Immediate} (h : i.value ≤ j.value) :
    (pushFrame fork i).toList.length ≤ (pushFrame fork j).toList.length := by
  have hw := Immediate.width_mono h
  rw [length_pushFrame, length_pushFrame]
  omega

theorem length_pushFrame_le (fork : Fork) (value : Immediate) : (pushFrame fork value).toList.length ≤ 33 := by
  have hw := value.width_le
  rw [length_pushFrame]
  split_ifs <;> omega

/-- The head of the frame calls for the payload, which denotes the number, on a fork that has the opcode. -/
theorem pushFrame_spec (fork : Fork) (value : Immediate) :
    (pushFrame fork value).head.toNat = 0x5f + (pushFrame fork value).payload.length ∧
      (pushFrame fork value).payload.length ≤ 32 ∧ ofBytes (pushFrame fork value).payload = value.value ∧
      ∃ spec, byByte (pushFrame fork value).head = some spec ∧ spec.minFork ≤ fork := by
  have hlegal := (Call.item_spec (a := Asm.new fork) rfl (item_push fork value) (fun _ => 0) 0).1.row
  unfold pushFrame at hlegal ⊢
  by_cases hw : value.width = 0
  · have hzero := Immediate.value_of_width_eq_zero hw
    by_cases hf : fork < .shanghai
    · simp only [hw, hf, if_true] at hlegal ⊢
      exact ⟨rfl, by simp, by simp [hzero], hlegal⟩
    · simp only [hw, hf, if_true, if_false] at hlegal ⊢
      exact ⟨rfl, by simp, by simp [hzero], hlegal⟩
  · have hle := value.width_le
    simp only [hw, if_false] at hlegal ⊢
    rw [value.length_drop_width]
    refine ⟨?_, hle, value.ofBytes_drop_width, hlegal⟩
    have hsize : UInt8.size = 256 := rfl
    rw [UInt8.toNat_add, UInt8.toNat_ofNat_of_lt' (by omega)]
    simp only [UInt8.reduceToNat]
    omega

/-! ## Code without labels -/

/-- A call that is never rejected on the fork and stands for one instruction. -/
structure Emits (fork : Fork) (c : Call) (f : Frame UInt8) : Prop where
  accepted : ∀ a : Asm, a.fork = fork → a.objection c = none
  item : c.item fork = some (.instr f.head f.payload)

theorem emits_push (fork : Fork) (value : Immediate) : Emits fork (.push value) (pushFrame fork value) :=
  ⟨fun _ _ => rfl, item_push fork value⟩

theorem emits_dup (fork : Fork) {n : UInt8} (h : 1 ≤ n ∧ n ≤ 16) : Emits fork (.dup n) ⟨0x7f + n, []⟩ :=
  ⟨fun _ _ => if_pos h, rfl⟩

theorem emits_op {fork : Fork} {mnemonic : String} {spec : OpSpec} (h : byMnemonic mnemonic = some spec)
    (hform : opForm spec = .simple) (hfork : spec.minFork ≤ fork) : Emits fork (.op mnemonic) ⟨spec.byte, []⟩ where
  accepted := by
    rintro a rfl
    simp only [Asm.objection, h, hform]
    exact if_neg (Fork.not_lt.mpr hfork)
  item := by
    rw [Call.item, h]
    rfl

theorem foldl_emits {fork : Fork} {calls : List Call} {fs : List (Frame UInt8)}
    (h : List.Forall₂ (Emits fork) calls fs) {a : Asm} (hf : a.fork = fork) (he : a.error = none) :
    calls.foldl Asm.step a = { a with code := a.code ++ fs.flatMap Frame.toList } := by
  induction h generalizing a with
  | nil => simp
  | @cons c f calls fs hc _ ih =>
    have hitem := hc.item
    rw [← hf] at hitem
    have hstep : a.step c = { a with code := a.code ++ f.toList } := by
      rw [Asm.step_eq he, hc.accepted a hf, hitem]
      exact Asm.emit_instr a f.head f.payload
    have hrest := ih (a := a.step c) (by rw [hstep]; exact hf) (by rw [hstep]; exact he)
    rw [List.foldl_cons, hrest, hstep, List.flatMap_cons, List.append_assoc]

/-- **Calls that are never rejected finish with the bytes of their instructions.** -/
theorem finish_emits {fork : Fork} {calls : List Call} {fs : List (Frame UInt8)}
    (h : List.Forall₂ (Emits fork) calls fs) : (run fork calls).finish = .ok (fs.flatMap Frame.toList) := by
  rw [run, foldl_emits h rfl rfl]
  simp [Asm.finish, Asm.new, Asm.patchFixups]

end RustEvm.Codegen
