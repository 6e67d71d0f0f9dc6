import RustEvm.Asm.Program

/-!
# RustEvm.Asm.RoundTrip — assembled code decodes to the calls that emitted it

Every call that emits appends one complete instruction frame (`Call.item_spec`), so the finished code is a stream of
complete frames whatever calls were made and in whatever order; patching replaces payloads by payloads of the same
length.  Decoding reads frames, hence the decoded instructions are the emitting calls in order, each at the offset
the assembler reported before the call (`emitted_located`, `disassemble_finish`).
-/

namespace RustEvm.Codegen

open Isa BigEndian Backpatch Frames

/-- Every call but `label` emits. -/
def Call.emits : Call → Bool
  | .label => false
  | _ => true

/-- The emitting calls of a sequence, each with the `offset` just before it. -/
def emitted : Asm → List Call → List (ℕ × Call)
  | _, [] => []
  | a, c :: calls =>
    if c.emits then (a.offset, c) :: emitted (a.step c) calls else emitted (a.step c) calls

/-- The instruction is the one the call asked for. -/
def Call.DecodesTo : Call → Instruction → Prop
  | .op mnemonic, i => i.mnemonic = mnemonic
  | .push value, i => i.mnemonic = "PUSH" ++ toString i.immediate.length ∧ ofBytes i.immediate = value.value
  | .dup n, i => i.mnemonic = "DUP" ++ toString n.toNat
  | .swap n, i => i.mnemonic = "SWAP" ++ toString n.toNat
  | .label, _ => False
  | .bind _, i => i.mnemonic = "JUMPDEST"
  | .pushLabel _, i => i.mnemonic = "PUSH2"

/-! ## One call, one frame -/

theorem immediateWidthOf_push {n : ℕ} (h1 : 1 ≤ n) (h32 : n ≤ 32) :
    immediateWidthOf (0x5f + UInt8.ofNat n) = n := by
  rw [immediateWidthOf, byByte_push h1 h32, Option.map_some, opForm_push h1 h32]
  have hsize : UInt8.size = 256 := rfl
  exact UInt8.toNat_ofNat_of_lt' (by omega)

theorem immediateWidthOf_zero {spec : OpSpec} (hrow : byByte spec.byte = some spec)
    (hform : ∀ n, opForm spec ≠ .push n) : immediateWidthOf spec.byte = 0 := by
  rw [immediateWidthOf, hrow, Option.map_some]
  cases hf : opForm spec with
  | push n => exact absurd hf (hform n)
  | _ => rfl

/-- A frame of the table, complete, and available on the fork. -/
structure Legal (fork : Fork) (f : Frame UInt8) : Prop where
  complete : f.Complete immediateWidthOf
  row : ∃ spec, byByte f.head = some spec ∧ spec.minFork ≤ fork

theorem legal_push (fork : Fork) (bytes : List UInt8) (h1 : 1 ≤ bytes.length) (h32 : bytes.length ≤ 32) :
    Legal fork ⟨0x5f + UInt8.ofNat bytes.length, bytes⟩ :=
  ⟨(immediateWidthOf_push h1 h32).symm, _, byByte_push h1 h32, Fork.frontier_le _⟩

/-- A row without an immediate. -/
theorem legal_bare {fork : Fork} {byte : UInt8} {spec : OpSpec} (hrow : byByte byte = some spec)
    (hwidth : immediateWidthOf byte = 0) (hfork : spec.minFork ≤ fork) : Legal fork ⟨byte, []⟩ :=
  ⟨hwidth.symm, spec, hrow, hfork⟩

theorem mnemonic_ofFrame {byte : UInt8} {spec : OpSpec} (hrow : byByte byte = some spec) (imm : List UInt8) (p : ℕ) :
    (Instruction.ofFrame (p, ⟨byte, imm⟩)).mnemonic = spec.mnemonic := by
  have hspec : (Instruction.ofFrame (p, ⟨byte, imm⟩)).spec = some spec := hrow
  rw [Instruction.mnemonic, hspec]
  rfl

/-- `push` asks for its number: as `PUSH0`, as one zero byte, or as the bytes of its width. -/
theorem push_spec {fork : Fork} {value : Immediate} {it : Item} (hi : (Call.push value).item fork = some it)
    (addr : Label → ℕ) (p : ℕ) :
    Legal fork (it.frame addr) ∧ (Call.push value).DecodesTo (.ofFrame (p, it.frame addr)) := by
  by_cases hw : value.width = 0
  · have hzero := Immediate.value_of_width_eq_zero hw
    by_cases hf : fork < .shanghai
    · obtain rfl : Item.instr 0x60 [0] = it := by simpa [Call.item, hw, hf] using hi
      have hrow : byByte 0x60 = some (pushSpec ("PUSH" ++ toString 1) 1) := byByte_push (n := 1) (by omega) (by omega)
      exact ⟨legal_push _ [0] (by simp) (by simp), mnemonic_ofFrame hrow [0] p, hzero.symm⟩
    · obtain rfl : Item.instr 0x5f [] = it := by simpa [Call.item, hw, hf] using hi
      have hwidth : immediateWidthOf 0x5f = 0 := by
        rw [immediateWidthOf, byByte_push0]
        rfl
      have hname : "PUSH0" = "PUSH" ++ toString 0 := by decide
      exact ⟨legal_bare byByte_push0 hwidth (Fork.not_lt.mp hf), (mnemonic_ofFrame byByte_push0 [] p).trans hname,
        hzero.symm⟩
  · have hlen := value.length_drop_width
    have hle := value.width_le
    obtain rfl : Item.instr (0x5f + UInt8.ofNat value.width) (value.be.1.drop (32 - value.width)) = it := by
      simpa [Call.item, hw] using hi
    have hlegal := legal_push fork (value.be.1.drop (32 - value.width)) (by omega) (by omega)
    rw [hlen] at hlegal
    refine ⟨hlegal, ?_, value.ofBytes_drop_width⟩
    show _ = "PUSH" ++ toString (value.be.1.drop (32 - value.width)).length
    rw [hlen]
    exact mnemonic_ofFrame (byByte_push (by omega) hle) _ p

/-- **An accepted call** stands for a legal frame that decodes to it. -/
theorem Call.item_spec {a : Asm} {c : Call} {it : Item} (ho : a.objection c = none) (hi : c.item a.fork = some it)
    (addr : Label → ℕ) (p : ℕ) :
    Legal a.fork (it.frame addr) ∧ c.DecodesTo (.ofFrame (p, it.frame addr)) := by
  cases c with
  | op mnemonic =>
    cases hrow : byMnemonic mnemonic with
    | none => simp [Call.item, hrow] at hi
    | some spec =>
      have hbyte := byByte_of_byMnemonic hrow
      cases hform : opForm spec with
      | simple =>
        have hfork : spec.minFork ≤ a.fork := by
          simpa [Asm.objection, hrow, hform, Fork.not_lt] using ho
        obtain rfl : Item.instr spec.byte [] = it := by simpa [Call.item, hrow] using hi
        exact ⟨legal_bare hbyte (immediateWidthOf_zero hbyte (by simp [hform])) hfork,
          (mnemonic_ofFrame hbyte [] p).trans (mnemonic_of_byMnemonic hrow)⟩
      | push n => simp [Asm.objection, hrow, hform] at ho
      | dup n => simp [Asm.objection, hrow, hform] at ho
      | swap n => simp [Asm.objection, hrow, hform] at ho
  | push value => exact push_spec hi addr p
  | dup n =>
    have hn : 1 ≤ n ∧ n ≤ 16 := by
      by_contra h
      simp [Asm.objection, h] at ho
    obtain rfl : Item.instr (0x7f + n) [] = it := by simpa [Call.item] using hi
    have hrow := byByte_dup (n := n.toNat) hn.1 hn.2
    rw [UInt8.ofNat_toNat] at hrow
    have hwidth := immediateWidthOf_zero hrow (opForm_ne_push (byte_dupSpec_ge hn))
    exact ⟨legal_bare hrow hwidth (Fork.frontier_le _), mnemonic_ofFrame hrow [] p⟩
  | swap n =>
    have hn : 1 ≤ n ∧ n ≤ 16 := by
      by_contra h
      simp [Asm.objection, h] at ho
    obtain rfl : Item.instr (0x8f + n) [] = it := by simpa [Call.item] using hi
    have hrow := byByte_swap (n := n.toNat) hn.1 hn.2
    rw [UInt8.ofNat_toNat] at hrow
    have hwidth := immediateWidthOf_zero hrow (opForm_ne_push (byte_swapSpec_ge hn))
    exact ⟨legal_bare hrow hwidth (Fork.frontier_le _), mnemonic_ofFrame hrow [] p⟩
  | label => simp [Call.item] at hi
  | bind l =>
    obtain rfl : Item.dest l = it := by simpa [Call.item] using hi
    have hwidth : immediateWidthOf 0x5b = 0 := by
      rw [immediateWidthOf, byByte_jumpdest]
      rfl
    exact ⟨legal_bare byByte_jumpdest hwidth (Fork.frontier_le _), mnemonic_ofFrame byByte_jumpdest [] p⟩
  | pushLabel l =>
    obtain rfl : Item.ref l = it := by simpa [Call.item] using hi
    have hrow : byByte 0x61 = some (pushSpec ("PUSH" ++ toString 2) 2) := byByte_push (n := 2) (by omega) (by omega)
    have hlegal := legal_push a.fork (toBytes 2 (addr l)) (by simp) (by simp)
    rw [length_toBytes] at hlegal
    exact ⟨hlegal, mnemonic_ofFrame hrow (toBytes 2 (addr l)) p⟩

/-! ## A run, a stream of frames -/

/-- A call and the located frame it left in the code. -/
structure Left (fork : Fork) (addr : Label → ℕ) (call : ℕ × Call) (f : ℕ × Frame UInt8) : Prop where
  start : f.1 = call.1
  frame : ∃ it, call.2.item fork = some it ∧ f.2 = it.frame addr
  legal : Legal fork f.2
  decodes : call.2.DecodesTo (.ofFrame f)

theorem item_isSome {fork : Fork} {a : Asm} {c : Call} (hf : a.fork = fork) (ho : a.objection c = none) :
    (c.item fork).isSome = c.emits := by
  subst hf
  cases c with
  | op mnemonic =>
    cases hrow : byMnemonic mnemonic with
    | none => simp [Asm.objection, hrow] at ho
    | some spec => simp [Call.item, Call.emits, hrow]
  | push value =>
    simp only [Call.item, Call.emits]
    split_ifs <;> rfl
  | _ => rfl

theorem error_of_foldl {calls : List Call} {a : Asm} (h : (calls.foldl Asm.step a).error = none) : a.error = none := by
  induction calls generalizing a with
  | nil => exact h
  | cons c calls ih => exact (Asm.step_ok (ih h)).1

/-- The emitting calls of an error-free run leave the frames of its program, in order. -/
theorem emitted_located (addr : Label → ℕ) {calls : List Call} {a : Asm}
    (h : (calls.foldl Asm.step a).error = none) :
    List.Forall₂ (Left a.fork addr) (emitted a calls)
      (located a.offset ((program a.fork calls).map (Item.frame addr))) := by
  induction calls generalizing a with
  | nil => exact .nil
  | cons c calls ih =>
    have hstep : (a.step c).error = none := error_of_foldl h
    have ho := (Asm.step_ok hstep).2
    have hrest := ih h
    have heq := Asm.step_of_ok hstep
    rw [Asm.fork_step] at hrest
    have hemits := item_isSome rfl ho
    rw [emitted, program, List.filterMap_cons]
    cases hi : c.item a.fork with
    | none =>
      -- a label was drawn: no bytes, no frame
      rw [hi] at heq hemits
      rw [← hemits]
      have hoff : (a.step c).offset = a.offset := by rw [heq]; rfl
      rw [hoff] at hrest
      exact hrest
    | some it =>
      rw [hi] at heq hemits
      obtain ⟨hlegal, hdec⟩ := Call.item_spec ho hi addr a.offset
      have hoff : (a.step c).offset = a.offset + (it.frame addr).toList.length := by
        rw [heq, Item.length_frame]
        simp [Asm.offset, Asm.emit]
      rw [hoff] at hrest
      rw [← hemits]
      exact .cons ⟨rfl, ⟨it, hi, rfl⟩, hlegal, hdec⟩ hrest

theorem exists_left_of_mem {α β : Type*} {R : α → β → Prop} {l : List α} {l' : List β}
    (h : List.Forall₂ R l l') {y : β} (hy : y ∈ l') : ∃ x ∈ l, R x y := by
  induction h with
  | nil => simp at hy
  | cons hr _ ih =>
    rcases List.mem_cons.mp hy with rfl | hmem
    · exact ⟨_, List.mem_cons_self, hr⟩
    · obtain ⟨x, hx, hxy⟩ := ih hmem
      exact ⟨x, List.mem_cons_of_mem _ hx, hxy⟩

/-- A successful `finish` returns the frames of the program. -/
theorem finish_frames {fork : Fork} {calls : List Call} {code : List UInt8} (h : (run fork calls).finish = .ok code) :
    ∃ fs : List (Frame UInt8), code = fs.flatMap Frame.toList ∧ disassemble code = (located 0 fs).map .ofFrame ∧
      List.Forall₂ (Left fork (addrOf (run fork calls).labels)) (emitted (Asm.new fork) calls) (located 0 fs) := by
  obtain ⟨he, -, -, hcode⟩ := finish_ok h
  have hleft := emitted_located (addrOf (run fork calls).labels) (a := Asm.new fork) he
  refine ⟨_, hcode, ?_, hleft⟩
  rw [hcode]
  refine disassemble_flatMap fun f hf => ?_
  obtain ⟨q, hq⟩ := mem_located (p := 0) hf
  obtain ⟨call, -, hcall⟩ := exists_left_of_mem hleft hq
  exact hcall.legal.complete

/-- What decoding owes an emitting call: the instruction it asked for, where `offset` stood, whole, and from a table
row of the fork. -/
structure Decoded (fork : Fork) (call : ℕ × Call) (i : Instruction) : Prop where
  pc : i.pc = call.1
  decodes : call.2.DecodesTo i
  whole : i.truncated = false
  row : ∃ spec, i.spec = some spec ∧ spec.minFork ≤ fork

theorem Left.decoded {fork : Fork} {addr : Label → ℕ} {call : ℕ × Call} {f : ℕ × Frame UInt8}
    (h : Left fork addr call f) : Decoded fork call (.ofFrame f) where
  pc := h.start
  decodes := h.decodes
  whole := by
    have hc : f.2.payload.length = immediateWidthOf f.2.head := h.legal.complete
    simp [Instruction.ofFrame, hc]
  row := h.legal.row

/-- **Assembler output decodes back to what was emitted**: one instruction per emitting call, in call order, and
nothing else. -/
theorem disassemble_finish {fork : Fork} {calls : List Call} {code : List UInt8}
    (h : (run fork calls).finish = .ok code) :
    List.Forall₂ (Decoded fork) (emitted (Asm.new fork) calls) (disassemble code) := by
  obtain ⟨fs, -, hdis, hleft⟩ := finish_frames h
  rw [hdis, List.forall₂_map_right_iff]
  exact hleft.imp fun call f hl => hl.decoded

theorem disassemble_finish_jump :
    List.Forall₂ (Decoded .cancun) (emitted (Asm.new .cancun) [.pushLabel ⟨0⟩, .op "JUMP", .bind ⟨0⟩])
      (disassemble [0x61, 0, 4, 0x56, 0x5b]) :=
  disassemble_finish (by decide +kernel)

end RustEvm.Codegen
