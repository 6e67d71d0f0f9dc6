import RustEvm.Asm.Push
import RustEvm.Asm.Jumpdests
import RustEvm.Asm.Tiling

/-!
# RustEvm.Asm.Reassembly — feeding decoded instructions back to the assembler

`reassemble` decodes code and emits every instruction again.  On whole instructions of the fork's table it gives the
same instructions with every `PUSH` on its narrowest width (`Narrowed`), so it shortens the code unless every `PUSH`
is `Narrow` already, and a second pass changes nothing.
-/

namespace RustEvm.Codegen

open Isa BigEndian Frames

/-- A word with the bytes at its low end. -/
def zeroExtended (bytes : List UInt8) : Immediate :=
  ⟨FixedBytes.copyFrom 32 (List.replicate (32 - bytes.length) 0 ++ bytes)⟩

/-- The call that emits the instruction; `none` for a byte that is not in the table. -/
def Instruction.call (i : Instruction) : Option Call :=
  i.spec.map fun spec =>
    match opForm spec with
    | .simple => .op spec.mnemonic
    | .push _ => .push (zeroExtended i.immediate)
    | .dup n => .dup n
    | .swap n => .swap n

/-- Feed every instruction of the code to a fresh assembler; a byte that is not in the table is a panic. -/
def reassemble (fork : Fork) (code : List UInt8) : Option (Except AsmError (List UInt8)) :=
  ((disassemble code).mapM Instruction.call).map fun calls => (run fork calls).finish

/-! ## Narrow pushes -/

def isPushForm : OpForm → Bool
  | .push _ => true
  | _ => false

def Instruction.isPush (i : Instruction) : Bool := i.spec.any fun spec => isPushForm (opForm spec)

/-- Decoded whole, from a row of the fork. -/
structure Available (fork : Fork) (i : Instruction) : Prop where
  whole : i.truncated = false
  row : ∃ spec, i.spec = some spec ∧ spec.minFork ≤ fork

theorem available_iff {fork : Fork} {i : Instruction} :
    Available fork i ↔ i.truncated = false ∧ i.spec.any (fun spec => spec.minFork ≤ fork) = true := by
  rw [Option.any_eq_true]
  constructor
  · rintro ⟨hwhole, spec, hspec, hfork⟩
    exact ⟨hwhole, spec, hspec, decide_eq_true hfork⟩
  · rintro ⟨hwhole, spec, hspec, hfork⟩
    exact ⟨hwhole, spec, hspec, of_decide_eq_true hfork⟩

instance (fork : Fork) (i : Instruction) : Decidable (Available fork i) := decidable_of_iff _ available_iff.symm

/-- The fork has a `PUSH` of the width. -/
def HasPush (fork : Fork) (m : ℕ) : Prop :=
  ∃ spec ∈ OPCODES, opForm spec = .push (UInt8.ofNat m) ∧ spec.minFork ≤ fork

/-- The immediate does not fit a narrower `PUSH` of the fork. -/
def Narrow (fork : Fork) (i : Instruction) : Prop :=
  ∀ m < i.immediate.length, HasPush fork m → 256 ^ m ≤ ofBytes i.immediate

/-- The second instruction is the first one, a `PUSH` on its narrowest width. -/
structure Narrowed (fork : Fork) (i j : Instruction) : Prop where
  available : Available fork j
  isPush : j.isPush = i.isPush
  value : ofBytes j.immediate = ofBytes i.immediate
  narrow : j.isPush = true → Narrow fork j
  same : i.isPush = false → j.opcode = i.opcode ∧ j.immediate = i.immediate

theorem hasPush_iff {fork : Fork} {m : ℕ} (hm : m ≤ 32) : HasPush fork m ↔ (m = 0 → Fork.shanghai ≤ fork) := by
  constructor
  · rintro ⟨spec, hspec, hform, hfork⟩ rfl
    have hrow : ∀ spec ∈ OPCODES, opForm spec = .push 0 → spec.minFork = .shanghai := by decide +kernel
    rwa [hrow spec hspec hform] at hfork
  · intro h
    rcases Nat.eq_zero_or_pos m with rfl | hpos
    · exact ⟨_, byByte_mem byByte_push0, rfl, h rfl⟩
    · exact ⟨_, byByte_mem (byByte_push hpos hm), opForm_push hpos hm _, Fork.frontier_le _⟩

theorem value_zeroExtended {bytes : List UInt8} (h : bytes.length ≤ 32) :
    (zeroExtended bytes).value = ofBytes bytes := by
  have hlen : (List.replicate (32 - bytes.length) 0 ++ bytes).length = 32 := by
    rw [List.length_append, List.length_replicate]
    omega
  show ofBytes (FixedBytes.copyFrom 32 _).1 = _
  rw [FixedBytes.copyFrom_eq hlen, ofBytes_zeros_append]

/-- Two narrow immediates of one number are the same. -/
theorem eq_of_narrow {fork : Fork} {i j : Instruction} (hi : Narrow fork i) (hj : Narrow fork j)
    (hvalue : ofBytes j.immediate = ofBytes i.immediate) (hpi : HasPush fork i.immediate.length)
    (hpj : HasPush fork j.immediate.length) : j.immediate = i.immediate := by
  refine ofBytes_inj ?_ hvalue
  rcases Nat.lt_trichotomy j.immediate.length i.immediate.length with hlt | heq | hgt
  · exact absurd (hi _ hlt hpj) (Nat.not_le.mpr (hvalue ▸ ofBytes_lt j.immediate))
  · exact heq
  · exact absurd (hj _ hgt hpi) (Nat.not_le.mpr (hvalue ▸ ofBytes_lt i.immediate))

/-! ## One instruction again -/

/-- The frame an instruction is emitted as again. -/
def reframe (fork : Fork) (f : Frame UInt8) : Frame UInt8 :=
  match (byByte f.head).map opForm with
  | some (.push _) => pushFrame fork (zeroExtended f.payload)
  | _ => f

/-- The depth of a row in a family that starts above `k`. -/
theorem family_depth {b k : UInt8} (hlo : k.toNat + 1 ≤ b.toNat) (hhi : b.toNat ≤ k.toNat + 16) :
    k + (b - k) = b ∧ 1 ≤ b - k ∧ b - k ≤ 16 := by
  have hsub : (b - k).toNat = b.toNat - k.toNat := UInt8.toNat_sub_of_le b k (UInt8.le_iff_toNat_le.mpr (by omega))
  refine ⟨by rw [UInt8.add_comm, UInt8.sub_add_cancel], ?_, ?_⟩
  · rw [UInt8.le_iff_toNat_le, hsub]
    exact Nat.le_sub_of_add_le' hlo
  · rw [UInt8.le_iff_toNat_le, hsub]
    exact Nat.sub_le_iff_le_add'.mpr hhi

/-- What the family of a row says of its byte. -/
theorem byte_of_opForm (spec : OpSpec) :
    match opForm spec with
    | .simple => True
    | .push n => spec.byte.toNat = 0x5f + n.toNat
    | .dup n => 0x7f + n = spec.byte ∧ 1 ≤ n ∧ n ≤ 16
    | .swap n => 0x8f + n = spec.byte ∧ 1 ≤ n ∧ n ≤ 16 := by
  unfold opForm
  by_cases hzero : spec.byte = 0x5f
  · rw [if_pos hzero, hzero]
    rfl
  by_cases hpush : 0x60 ≤ spec.byte ∧ spec.byte ≤ 0x7f
  · rw [if_neg hzero, if_pos hpush]
    have hle : (0x5f : UInt8) ≤ spec.byte := UInt8.le_trans (by decide) hpush.1
    show spec.byte.toNat = 0x5f + (spec.byte - 0x5f).toNat
    rw [UInt8.toNat_sub_of_le _ _ hle]
    exact (Nat.add_sub_of_le (UInt8.le_iff_toNat_le.mp hle)).symm
  by_cases hdup : 0x80 ≤ spec.byte ∧ spec.byte ≤ 0x8f
  · rw [if_neg hzero, if_neg hpush, if_pos hdup]
    exact family_depth hdup.1 hdup.2
  by_cases hswap : 0x90 ≤ spec.byte ∧ spec.byte ≤ 0x9f
  · rw [if_neg hzero, if_neg hpush, if_neg hdup, if_pos hswap]
    exact family_depth hswap.1 hswap.2
  · rw [if_neg hzero, if_neg hpush, if_neg hdup, if_neg hswap]
    trivial

theorem emits_swap (fork : Fork) {n : UInt8} (h : 1 ≤ n ∧ n ≤ 16) : Emits fork (.swap n) ⟨0x8f + n, []⟩ :=
  ⟨fun _ _ => if_pos h, rfl⟩

theorem Legal.payload_nil {fork : Fork} {f : Frame UInt8} {spec : OpSpec} (h : Legal fork f)
    (hrow : byByte f.head = some spec) (hform : ∀ n, opForm spec ≠ .push n) : f = ⟨spec.byte, []⟩ := by
  obtain ⟨head, payload⟩ := f
  obtain rfl : spec.byte = head := byte_of_byByte hrow
  have hlen : payload.length = immediateWidthOf spec.byte := h.complete
  rw [immediateWidthOf_zero hrow hform] at hlen
  rw [List.eq_nil_of_length_eq_zero hlen]

/-- **An instruction is emitted again**, and never rejected. -/
theorem emits_again {fork : Fork} {f : Frame UInt8} (h : Legal fork f) (q : ℕ) :
    ∃ c, (Instruction.ofFrame (q, f)).call = some c ∧ Emits fork c (reframe fork f) := by
  obtain ⟨spec, hrow, hfork⟩ := h.row
  have hcall : (Instruction.ofFrame (q, f)).call = some
      (match opForm spec with
        | .simple => .op spec.mnemonic
        | .push _ => .push (zeroExtended f.payload)
        | .dup n => .dup n
        | .swap n => .swap n) := by
    show (byByte f.head).map _ = _
    rw [hrow]
    rfl
  have hbyte := byte_of_opForm spec
  unfold reframe
  rw [hcall, hrow, Option.map_some]
  cases hform : opForm spec with
  | simple =>
    have hf := h.payload_nil hrow (by simp [hform])
    rw [hf]
    exact ⟨_, rfl, emits_op (byMnemonic_of_mem (byByte_mem hrow)) hform hfork⟩
  | push n => exact ⟨_, rfl, emits_push fork _⟩
  | dup n =>
    have hf := h.payload_nil hrow (by simp [hform])
    simp only [hform] at hbyte
    rw [hf, ← hbyte.1]
    exact ⟨_, rfl, emits_dup fork hbyte.2⟩
  | swap n =>
    have hf := h.payload_nil hrow (by simp [hform])
    simp only [hform] at hbyte
    rw [hf, ← hbyte.1]
    exact ⟨_, rfl, emits_swap fork hbyte.2⟩

/-! ## The same instruction, narrower -/

theorem Available.of_legal {fork : Fork} {f : Frame UInt8} (h : Legal fork f) (q : ℕ) :
    Available fork (.ofFrame (q, f)) := by
  have hlen : f.payload.length = immediateWidthOf f.head := h.complete
  exact ⟨by simp [Instruction.ofFrame, hlen], h.row⟩

theorem isPush_ofFrame {f : Frame UInt8} {spec : OpSpec} (hrow : byByte f.head = some spec) (q : ℕ) :
    (Instruction.ofFrame (q, f)).isPush = true ↔ ∃ n, opForm spec = .push n := by
  show (byByte f.head).any (fun spec => isPushForm (opForm spec)) = true ↔ _
  rw [hrow, Option.any_some]
  cases opForm spec <;> simp [isPushForm]

/-- A `PUSH` that the fork has, with the byte of its width. -/
structure Fits (fork : Fork) (i : Instruction) : Prop where
  available : HasPush fork i.immediate.length
  opcode : i.opcode.toNat = 0x5f + i.immediate.length

theorem fits_of_legal {fork : Fork} {f : Frame UInt8} (h : Legal fork f) {q : ℕ}
    (hp : (Instruction.ofFrame (q, f)).isPush = true) : Fits fork (.ofFrame (q, f)) := by
  obtain ⟨spec, hrow, hfork⟩ := h.row
  obtain ⟨n, hform⟩ := (isPush_ofFrame hrow q).mp hp
  have hlen : f.payload.length = immediateWidthOf f.head := h.complete
  rw [immediateWidthOf, hrow, Option.map_some, hform] at hlen
  have hlen : f.payload.length = n.toNat := hlen
  have hbyte := byte_of_opForm spec
  simp only [hform] at hbyte
  constructor
  · refine ⟨spec, byByte_mem hrow, ?_, hfork⟩
    show opForm spec = .push (UInt8.ofNat f.payload.length)
    rw [hform, hlen, UInt8.ofNat_toNat]
  · show f.head.toNat = 0x5f + f.payload.length
    rw [← byte_of_byByte hrow, hbyte, hlen]

theorem legal_pushFrame (fork : Fork) (value : Immediate) : Legal fork (pushFrame fork value) :=
  (Call.item_spec (a := Asm.new fork) rfl (item_push fork value) (fun _ => 0) 0).1

/-- `push` takes the narrowest `PUSH`. -/
theorem narrow_pushFrame (fork : Fork) (value : Immediate) (q : ℕ) :
    Narrow fork (.ofFrame (q, pushFrame fork value)) := by
  obtain ⟨-, hle, hvalue, -⟩ := pushFrame_spec fork value
  intro m hm hpush
  change m < (pushFrame fork value).payload.length at hm
  change 256 ^ m ≤ ofBytes (pushFrame fork value).payload
  rw [hvalue]
  have hzero := (hasPush_iff (by omega)).mp hpush
  by_cases hw : value.width = 0
  · -- zero is on one byte only where the fork has no `PUSH0`
    by_cases hf : fork < .shanghai
    · simp only [pushFrame, hw, hf, if_true, List.length_singleton, Nat.lt_one_iff] at hm
      exact absurd hf (Fork.not_lt.mpr (hzero hm))
    · simp [pushFrame, hw, hf] at hm
  · rw [show (pushFrame fork value).payload = value.be.1.drop (32 - value.width) by simp [pushFrame, hw],
      value.length_drop_width] at hm
    exact (Nat.pow_le_pow_right (by norm_num) (by omega)).trans (Immediate.le_value hw)

theorem isPush_pushFrame (fork : Fork) (value : Immediate) (q : ℕ) :
    (Instruction.ofFrame (q, pushFrame fork value)).isPush = true := by
  obtain ⟨hhead, hle, -, spec, hrow, -⟩ := pushFrame_spec fork value
  rw [isPush_ofFrame hrow]
  have hbyte : spec.byte.toNat = 0x5f + (pushFrame fork value).payload.length := by rw [byte_of_byByte hrow, hhead]
  unfold opForm
  by_cases hzero : spec.byte = 0x5f
  · exact ⟨0, if_pos hzero⟩
  · have hne : spec.byte.toNat ≠ 0x5f := fun h => hzero (UInt8.toNat_inj.mp h)
    have hrange : 0x60 ≤ spec.byte ∧ spec.byte ≤ 0x7f := by
      constructor
      · exact UInt8.le_iff_toNat_le.mpr (show 0x60 ≤ _ by omega)
      · exact UInt8.le_iff_toNat_le.mpr (show _ ≤ 0x7f by omega)
    exact ⟨_, by rw [if_neg hzero, if_pos hrange]⟩

theorem legal_reframe {fork : Fork} {f : Frame UInt8} (h : Legal fork f) : Legal fork (reframe fork f) := by
  unfold reframe
  split
  · exact legal_pushFrame fork _
  · exact h

/-- **An instruction emitted again is the same one, narrower.** -/
theorem narrowed_reframe {fork : Fork} {f : Frame UInt8} (h : Legal fork f) (q q' : ℕ) :
    Narrowed fork (.ofFrame (q, f)) (.ofFrame (q', reframe fork f)) := by
  obtain ⟨spec, hrow, -⟩ := h.row
  by_cases hp : ∃ n, opForm spec = .push n
  · have hi := (isPush_ofFrame hrow q).mpr hp
    obtain ⟨n, hform⟩ := hp
    have hre : reframe fork f = pushFrame fork (zeroExtended f.payload) := by
      rw [reframe, hrow, Option.map_some, hform]
    have hlen : f.payload.length ≤ 32 := by
      have hc : f.payload.length = immediateWidthOf f.head := h.complete
      rw [hc, immediateWidthOf_of_row hrow]
      split_ifs <;> omega
    have hvalue : ofBytes (reframe fork f).payload = ofBytes f.payload := by
      rw [hre, (pushFrame_spec fork _).2.2.1, value_zeroExtended hlen]
    refine ⟨.of_legal (legal_reframe h) q', ?_, hvalue, fun _ => ?_, fun hno => absurd hi (by simp [hno])⟩
    · rw [hi, hre, isPush_pushFrame]
    · rw [hre]
      exact narrow_pushFrame fork _ q'
  · have hi : (Instruction.ofFrame (q, f)).isPush = false :=
      Bool.eq_false_iff.mpr fun hpush => hp ((isPush_ofFrame hrow q).mp hpush)
    have hre : reframe fork f = f := by
      rw [reframe, hrow, Option.map_some]
      cases hform : opForm spec with
      | push n => exact absurd ⟨n, hform⟩ hp
      | _ => rfl
    rw [hre]
    refine ⟨.of_legal h q', rfl, rfl, fun hpush => ?_, fun _ => ⟨rfl, rfl⟩⟩
    exact absurd (show (Instruction.ofFrame (q, f)).isPush = true from hpush) (by simp [hi])

/-! ## The whole code -/

section Code

variable {fork : Fork}

/-- Every instruction of a stream of legal frames is emitted again. -/
theorem mapM_call {fs : List (Frame UInt8)} (h : ∀ f ∈ fs, Legal fork f) (p : ℕ) :
    ∃ calls, ((located p fs).map Instruction.ofFrame).mapM Instruction.call = some calls ∧
      List.Forall₂ (Emits fork) calls (fs.map (reframe fork)) := by
  induction fs generalizing p with
  | nil => exact ⟨[], rfl, .nil⟩
  | cons f fs ih =>
    obtain ⟨c, hc, hemits⟩ := emits_again (h f List.mem_cons_self) p
    obtain ⟨calls, hcalls, hall⟩ := ih (fun g hg => h g (List.mem_cons_of_mem _ hg)) (p + f.toList.length)
    refine ⟨c :: calls, ?_, .cons hemits hall⟩
    rw [located_cons, List.map_cons, List.mapM_cons, hc, hcalls]
    rfl

theorem forall₂_narrowed {fs : List (Frame UInt8)} (h : ∀ f ∈ fs, Legal fork f) (p q : ℕ) :
    List.Forall₂ (Narrowed fork) ((located p fs).map Instruction.ofFrame)
      ((located q (fs.map (reframe fork))).map Instruction.ofFrame) := by
  induction fs generalizing p q with
  | nil => exact .nil
  | cons f fs ih =>
    rw [List.map_cons, located_cons, located_cons, List.map_cons, List.map_cons]
    exact .cons (narrowed_reframe (h f List.mem_cons_self) p q) (ih (fun g hg => h g (List.mem_cons_of_mem _ hg)) _ _)

/-- The frames of code whose instructions are all available. -/
theorem legal_of_available {code : List UInt8} (h : ∀ i ∈ disassemble code, Available fork i) :
    ∀ f ∈ split immediateWidthOf code, Legal fork f := by
  intro f hf
  obtain ⟨q, hq⟩ := mem_located (p := 0) hf
  have hmem : Instruction.ofFrame (q, f) ∈ disassemble code := by
    rw [disassemble_eq_located]
    exact List.mem_map.mpr ⟨_, hq, rfl⟩
  obtain ⟨hwhole, hrow⟩ := h _ hmem
  have hge : ¬ f.payload.length < immediateWidthOf f.head := of_decide_eq_false hwhole
  exact ⟨Nat.le_antisymm (length_payload_le immediateWidthOf f hf) (Nat.not_lt.mp hge), hrow⟩

/-- **Reassembling narrows every `PUSH`** and leaves the other instructions as they are. -/
theorem reassemble_narrowed {code : List UInt8} (h : ∀ i ∈ disassemble code, Available fork i) :
    ∃ code', reassemble fork code = some (.ok code') ∧
      List.Forall₂ (Narrowed fork) (disassemble code) (disassemble code') := by
  have hlegal := legal_of_available h
  obtain ⟨calls, hcalls, hemits⟩ := mapM_call hlegal 0
  refine ⟨((split immediateWidthOf code).map (reframe fork)).flatMap Frame.toList, ?_, ?_⟩
  · rw [reassemble, disassemble_eq_located, hcalls, Option.map_some, finish_emits hemits]
  · rw [disassemble_eq_located code, disassemble_flatMap]
    · exact forall₂_narrowed hlegal 0 0
    · intro g hg
      obtain ⟨f, hf, rfl⟩ := List.mem_map.mp hg
      exact (legal_reframe (hlegal f hf)).complete

theorem fits_of_mem {code : List UInt8} (h : ∀ i ∈ disassemble code, Available fork i) :
    ∀ i ∈ disassemble code, i.isPush = true → Fits fork i := by
  intro i hi hp
  obtain ⟨q, f, hf, rfl⟩ := exists_frame_of_mem hi
  exact fits_of_legal (legal_of_available h f hf) hp

/-- A narrowed `PUSH` is no longer than the one it replaces. -/
theorem Narrowed.size_le {i j : Instruction} (h : Narrowed fork i j) (hi : i.isPush = true → Fits fork i) :
    j.size ≤ i.size := by
  unfold Instruction.size
  cases hp : i.isPush with
  | false => rw [(h.same hp).2]
  | true =>
    have hle : j.immediate.length ≤ i.immediate.length := by
      by_contra hlt
      have hbig := h.narrow (h.isPush.trans hp) i.immediate.length (by omega) (hi hp).available
      rw [h.value] at hbig
      exact absurd (ofBytes_lt i.immediate) (Nat.not_lt.mpr hbig)
    omega

/-- An instruction that is narrow already keeps its bytes. -/
theorem Narrowed.bytes_eq {i j : Instruction} (h : Narrowed fork i j) (hi : i.isPush = true → Fits fork i)
    (hj : j.isPush = true → Fits fork j) (hnarrow : i.isPush = true → Narrow fork i) :
    j.opcode :: j.immediate = i.opcode :: i.immediate := by
  cases hp : i.isPush with
  | false => rw [(h.same hp).1, (h.same hp).2]
  | true =>
    have hp' := h.isPush.trans hp
    have himm := eq_of_narrow (hnarrow hp) (h.narrow hp') h.value (hi hp).available (hj hp').available
    have hop : j.opcode = i.opcode := UInt8.toNat_inj.mp (by rw [(hj hp').opcode, (hi hp).opcode, himm])
    rw [hop, himm]

theorem Narrowed.available_of_mem {l l' : List Instruction} (h : List.Forall₂ (Narrowed fork) l l') :
    ∀ j ∈ l', Available fork j ∧ (j.isPush = true → Narrow fork j) := by
  intro j hj
  obtain ⟨i, -, hij⟩ := exists_left_of_mem h hj
  exact ⟨hij.available, hij.narrow⟩

variable {code code' : List UInt8} (h : ∀ i ∈ disassemble code, Available fork i)
  (hnarrowed : List.Forall₂ (Narrowed fork) (disassemble code) (disassemble code'))
include h hnarrowed

theorem length_le_of_narrowed : code'.length ≤ code.length := by
  have hle : List.Forall₂ (fun j i : Instruction => j.size ≤ i.size) (disassemble code') (disassemble code) := by
    refine List.Forall₂.flip ?_
    exact ((List.forall₂_and_left _ _).mpr ⟨fits_of_mem h, hnarrowed⟩).imp fun i j hij => hij.2.size_le hij.1
  rw [← (tiles_disassemble code').sizes, ← (tiles_disassemble code).sizes]
  exact List.Forall₂.sum_le_sum (List.forall₂_map_left_iff.mpr (List.forall₂_map_right_iff.mpr hle))

theorem eq_iff_narrow : code' = code ↔ ∀ i ∈ disassemble code, i.isPush = true → Narrow fork i := by
  have hout := Narrowed.available_of_mem hnarrowed
  constructor
  · rintro rfl i hi
    exact (hout i hi).2
  · intro hall
    have hfits' := fits_of_mem fun j hj => (hout j hj).1
    have hl := (List.forall₂_and_left _ _).mpr ⟨fun i hi => And.intro (fits_of_mem h i hi) (hall i hi), hnarrowed⟩
    have hr := (List.forall₂_and_left _ _).mpr ⟨hfits', hl.flip⟩
    have hbytes : (disassemble code').map (fun i => i.opcode :: i.immediate) =
        (disassemble code).map (fun i => i.opcode :: i.immediate) := by
      rw [← List.forall₂_eq_eq_eq, List.forall₂_map_left_iff, List.forall₂_map_right_iff]
      exact hr.imp fun j i hji => hji.2.2.bytes_eq hji.2.1.1 hji.1 hji.2.1.2
    rw [← (tiles_disassemble code').bytes, ← (tiles_disassemble code).bytes, List.flatMap_def, List.flatMap_def,
      hbytes]

end Code

/-- **Reassembling preserves the instructions and is exact on narrow code.** -/
theorem reassemble_exact (fork : Fork) (code : List UInt8) (h : ∀ i ∈ disassemble code, Available fork i) :
    ∃ code', reassemble fork code = some (.ok code') ∧
      List.Forall₂ (Narrowed fork) (disassemble code) (disassemble code') ∧
      code'.length ≤ code.length ∧
      (code' = code ↔ ∀ i ∈ disassemble code, i.isPush = true → Narrow fork i) ∧
      reassemble fork code' = some (.ok code') := by
  obtain ⟨code', hrun, hnarrowed⟩ := reassemble_narrowed h
  have hout := Narrowed.available_of_mem hnarrowed
  have h' : ∀ j ∈ disassemble code', Available fork j := fun j hj => (hout j hj).1
  refine ⟨code', hrun, hnarrowed, length_le_of_narrowed h hnarrowed, eq_iff_narrow h hnarrowed, ?_⟩
  -- a second pass finds every `PUSH` narrow
  obtain ⟨code'', hrun', hnarrowed'⟩ := reassemble_narrowed h'
  rwa [(eq_iff_narrow h' hnarrowed').mpr fun j hj => (hout j hj).2] at hrun'

/-- `PUSH2 0x0001`, `PUSH1 0x00`, `MSTORE` on a fork with `PUSH0`. -/
theorem reassemble_exact_push2 :
    ∃ code', reassemble .cancun [0x61, 0, 1, 0x60, 0, 0x52] = some (.ok code') ∧
      List.Forall₂ (Narrowed .cancun) (disassemble [0x61, 0, 1, 0x60, 0, 0x52]) (disassemble code') ∧
      code'.length ≤ 6 ∧
      (code' = [0x61, 0, 1, 0x60, 0, 0x52] ↔
        ∀ i ∈ disassemble [0x61, 0, 1, 0x60, 0, 0x52], i.isPush = true → Narrow .cancun i) ∧
      reassemble .cancun code' = some (.ok code') :=
  reassemble_exact .cancun [0x61, 0, 1, 0x60, 0, 0x52] (by decide +kernel)

end RustEvm.Codegen
